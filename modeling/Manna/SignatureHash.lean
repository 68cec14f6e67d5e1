import Manna.FindAndDelete
import Manna.TxCodec

/-!
What a signature signs (`script.cpp`: `SignatureHash`).

A copy of the transaction is blanked as the hash type says, and hashed together with the type. The
hash function is a parameter.

* `AgreeFor`: two transactions agree in what a hash type covers;
* `signatureHash_congr`: the hash depends on nothing else;
* `signatureHash_binds`: with `SIGHASH_ALL` it determines what it covers;
* `signatureHash_covers`: both directions.
-/

namespace Manna

open Codec

def OP_CODESEPARATOR : Nat := 0xab

/-! ### The copy that is hashed -/

/-- `nHashType & 0x1f`. -/
def sighashBase (nHashType : Int) : Int := nHashType % 32

/-- `nHashType & SIGHASH_ANYONECANPAY`. -/
def anyoneCanPay (nHashType : Int) : Bool := nHashType / 128 % 2 = 1

/-- "Blank out other inputs' signatures". -/
def blankScripts (scriptCode : CScript) (nIn : Nat) (vin : List CTxIn) : List CTxIn :=
  vin.mapIdx fun i txin => { txin with scriptSig := if i = nIn then scriptCode else [] }

/-- "Let the others update at will". -/
def blankSequences (nIn : Nat) (vin : List CTxIn) : List CTxIn :=
  vin.mapIdx fun i txin => { txin with nSequence := if i = nIn then txin.nSequence else 0 }

/-- "Only lock-in the txout payee at same index as txin". -/
def blankOutputs (nOut : Nat) (vout : List CTxOut) : List CTxOut :=
  (vout.take (nOut + 1)).mapIdx fun i txout => if i < nOut then CTxOut.null else txout

/-- "Blank out some of the outputs"; `none` where there is no output to sign. -/
def blankForType (nIn : Nat) (nHashType : Int) (txTmp : CTransaction) : Option CTransaction :=
  if sighashBase nHashType = SIGHASH_NONE then
    some { txTmp with vin := blankSequences nIn txTmp.vin, vout := [] }
  else if sighashBase nHashType = SIGHASH_SINGLE then
    if nIn ≥ txTmp.vout.length then none
    else
      some { txTmp with
        vin := blankSequences nIn txTmp.vin
        vout := blankOutputs nIn txTmp.vout }
  else some txTmp

/-- "Blank out other inputs completely". -/
def keepInput (nIn : Nat) (nHashType : Int) (txTmp : CTransaction) : CTransaction :=
  if anyoneCanPay nHashType then { txTmp with vin := txTmp.vin[nIn]?.toList } else txTmp

/-- The copy of the transaction, blanked; `none` where the source returns 1 instead. -/
def signedCopy (scriptCode : CScript) (txTo : CTransaction) (nIn : Nat) (nHashType : Int) :
    Option CTransaction :=
  let scriptCode := findAndDelete [UInt8.ofNat OP_CODESEPARATOR] scriptCode
  let txTmp := { txTo with vin := blankScripts scriptCode nIn txTo.vin }
  (blankForType nIn nHashType txTmp).map (keepInput nIn nHashType)

def signatureHash (hash : List UInt8 → Uint256) (scriptCode : CScript) (txTo : CTransaction)
    (nIn : Nat) (nHashType : Int) : Uint256 :=
  if nIn ≥ txTo.vin.length then 1
  else
    match signedCopy scriptCode txTo nIn nHashType with
    | none => 1
    | some txTmp => hash (txTmp.serialize ++ littleEndianSigned 4 nHashType)

def coveredInput (nHashType : Int) (txin : CTxIn) : COutPoint × Nat :=
  (txin.prevout,
    if sighashBase nHashType = SIGHASH_NONE ∨ sighashBase nHashType = SIGHASH_SINGLE then 0
    else txin.nSequence)

/-- **Two transactions agree in what a hash type covers**: in the signed input, in the others unless
anyone can pay, where their sequence numbers count with `SIGHASH_ALL` only, and in the outputs, all
of them, none, or the one of the signed input. The scripts of the inputs do not count. -/
structure AgreeFor (nHashType : Int) (nIn : Nat) (tx tx' : CTransaction) : Prop where
  nVersion : tx.nVersion = tx'.nVersion
  nTime : tx.nTime = tx'.nTime
  nLockTime : tx.nLockTime = tx'.nLockTime
  signed : tx.vin[nIn]?.map (fun txin => (txin.prevout, txin.nSequence)) =
    tx'.vin[nIn]?.map fun txin => (txin.prevout, txin.nSequence)
  others : anyoneCanPay nHashType = false →
    tx.vin.map (coveredInput nHashType) = tx'.vin.map (coveredInput nHashType)
  vout :
    if sighashBase nHashType = SIGHASH_NONE then True
    else if sighashBase nHashType = SIGHASH_SINGLE then tx.vout[nIn]? = tx'.vout[nIn]?
    else tx.vout = tx'.vout

/-! ### Nothing else counts -/

section Independence

variable {nHashType : Int} {nIn : Nat} {tx tx' : CTransaction}

theorem getElem?_blankScripts (scriptCode : CScript) (nIn : Nat) (vin : List CTxIn) (i : Nat) :
    (blankScripts scriptCode nIn vin)[i]? =
      vin[i]?.map fun txin => { txin with scriptSig := if i = nIn then scriptCode else [] } :=
  List.getElem?_mapIdx

theorem getElem?_blankSequences (nIn : Nat) (vin : List CTxIn) (i : Nat) : (blankSequences nIn vin)[i]? =
      vin[i]?.map fun txin => { txin with nSequence := if i = nIn then txin.nSequence else 0 } :=
  List.getElem?_mapIdx

/-- What is equal of two options after a map is equal after any map through it. -/
theorem map_eq_of_map_eq {α β γ : Type} {f : α → β} {o o' : Option α} (h : o.map f = o'.map f)
    (g : β → γ) : o.map (fun a => g (f a)) = o'.map fun a => g (f a) := by
  have hcomp := congrArg (Option.map g) h
  rwa [Option.map_map, Option.map_map] at hcomp

theorem AgreeFor.signed_blanked (h : AgreeFor nHashType nIn tx tx') (scriptCode : CScript) :
    (blankScripts scriptCode nIn tx.vin)[nIn]? = (blankScripts scriptCode nIn tx'.vin)[nIn]? := by
  rw [getElem?_blankScripts, getElem?_blankScripts]
  exact map_eq_of_map_eq h.signed fun p =>
    (⟨p.1, if nIn = nIn then scriptCode else [], p.2⟩ : CTxIn)

theorem AgreeFor.other (h : AgreeFor nHashType nIn tx tx') (hothers : anyoneCanPay nHashType = false)
    (i : Nat) : tx.vin[i]?.map (coveredInput nHashType) = tx'.vin[i]?.map (coveredInput nHashType) := by
  rw [← List.getElem?_map, ← List.getElem?_map, h.others hothers]

theorem AgreeFor.vin_blanked (h : AgreeFor nHashType nIn tx tx') (hothers : anyoneCanPay nHashType = false)
    (hall : ¬ (sighashBase nHashType = SIGHASH_NONE ∨ sighashBase nHashType = SIGHASH_SINGLE))
    (scriptCode : CScript) : blankScripts scriptCode nIn tx.vin = blankScripts scriptCode nIn tx'.vin := by
  apply List.ext_getElem?
  intro i
  have hcovered : coveredInput nHashType = fun txin => (txin.prevout, txin.nSequence) :=
    funext fun txin => by rw [coveredInput, if_neg hall]
  have hinput := h.other hothers i
  rw [hcovered] at hinput
  rw [getElem?_blankScripts, getElem?_blankScripts]
  exact map_eq_of_map_eq hinput fun p =>
    (⟨p.1, if i = nIn then scriptCode else [], p.2⟩ : CTxIn)

theorem AgreeFor.vin_blanked_sequences (h : AgreeFor nHashType nIn tx tx')
    (hothers : anyoneCanPay nHashType = false) (scriptCode : CScript) :
    blankSequences nIn (blankScripts scriptCode nIn tx.vin) =
      blankSequences nIn (blankScripts scriptCode nIn tx'.vin) := by
  apply List.ext_getElem?
  intro i
  rw [getElem?_blankSequences, getElem?_blankSequences]
  by_cases hi : i = nIn
  · rw [hi, h.signed_blanked]
  · rw [getElem?_blankScripts, getElem?_blankScripts, Option.map_map, Option.map_map]
    simp only [hi, if_false, Function.comp_def]
    exact map_eq_of_map_eq (h.other hothers i) fun p => (⟨p.1, [], 0⟩ : CTxIn)

theorem blankOutputs_congr {nOut : Nat} {vout vout' : List CTxOut} (h : vout[nOut]? = vout'[nOut]?)
    (hlt : nOut < vout.length) : blankOutputs nOut vout = blankOutputs nOut vout' := by
  have hlt' : nOut < vout'.length := by
    rw [List.getElem?_eq_getElem hlt] at h
    exact (List.getElem?_eq_some_iff.mp h.symm).1
  have hat : ∀ (l : List CTxOut) (_ : nOut < l.length) (i : Nat), (blankOutputs nOut l)[i]? =
      if i < nOut then some CTxOut.null else if i = nOut then l[nOut]? else none := by
    intro l hl i
    unfold blankOutputs
    rw [List.getElem?_mapIdx, List.getElem?_take]
    rcases Nat.lt_trichotomy i nOut with hi | rfl | hi
    · rw [if_pos (by omega), if_pos hi, List.getElem?_eq_getElem (hi.trans hl), Option.map_some,
        if_pos hi]
    · rw [if_pos (Nat.lt_succ_self i), if_neg (Nat.lt_irrefl i), if_pos rfl]
      simp
    · rw [if_neg (by omega), if_neg (by omega), if_neg (by omega)]
      rfl
  apply List.ext_getElem?
  intro i
  rw [hat vout hlt, hat vout' hlt', h]

theorem AgreeFor.keepInput_eq (h : AgreeFor nHashType nIn tx tx') {vin vin' : List CTxIn}
    {vout vout' : List CTxOut} (hvout : vout = vout') (hsigned : vin[nIn]? = vin'[nIn]?)
    (hvin : anyoneCanPay nHashType = false → vin = vin') :
    keepInput nIn nHashType { tx with vin := vin, vout := vout } =
      keepInput nIn nHashType { tx' with vin := vin', vout := vout' } := by
  unfold keepInput
  cases hothers : anyoneCanPay nHashType with
  | true => simp [h.nVersion, h.nTime, h.nLockTime, hvout, hsigned]
  | false => simp [h.nVersion, h.nTime, h.nLockTime, hvout, hvin hothers]

theorem AgreeFor.signedCopy_eq (h : AgreeFor nHashType nIn tx tx') (scriptCode : CScript) :
    signedCopy scriptCode tx nIn nHashType = signedCopy scriptCode tx' nIn nHashType := by
  unfold signedCopy blankForType
  generalize findAndDelete _ scriptCode = scriptCode
  have hsigned : (blankSequences nIn (blankScripts scriptCode nIn tx.vin))[nIn]? =
      (blankSequences nIn (blankScripts scriptCode nIn tx'.vin))[nIn]? := by
    rw [getElem?_blankSequences, getElem?_blankSequences, h.signed_blanked]
  have hvout := h.vout
  dsimp only
  by_cases hnone : sighashBase nHashType = SIGHASH_NONE
  · rw [if_pos hnone, if_pos hnone]
    exact congrArg some (h.keepInput_eq rfl hsigned fun hothers =>
      h.vin_blanked_sequences hothers scriptCode)
  · rw [if_neg hnone, if_neg hnone]
    rw [if_neg hnone] at hvout
    by_cases hsingle : sighashBase nHashType = SIGHASH_SINGLE
    · rw [if_pos hsingle, if_pos hsingle]
      rw [if_pos hsingle] at hvout
      by_cases hlen : nIn ≥ tx.vout.length
      · have hlen' : nIn ≥ tx'.vout.length := by
          rw [List.getElem?_eq_none hlen] at hvout
          exact List.getElem?_eq_none_iff.mp hvout.symm
        rw [if_pos hlen, if_pos hlen']
      · have hlen' : ¬ nIn ≥ tx'.vout.length := by
          intro hge
          rw [List.getElem?_eq_none hge] at hvout
          exact hlen (List.getElem?_eq_none_iff.mp hvout)
        rw [if_neg hlen, if_neg hlen']
        exact congrArg some (h.keepInput_eq (blankOutputs_congr hvout (Nat.lt_of_not_le hlen)) hsigned
          fun hothers => h.vin_blanked_sequences hothers scriptCode)
    · rw [if_neg hsingle, if_neg hsingle]
      rw [if_neg hsingle] at hvout
      exact congrArg some (h.keepInput_eq hvout (h.signed_blanked scriptCode) fun hothers =>
        h.vin_blanked hothers (not_or.mpr ⟨hnone, hsingle⟩) scriptCode)

/-- **The hash depends on what its type covers**, and on nothing else. -/
theorem signatureHash_congr (hash : List UInt8 → Uint256) (scriptCode : CScript)
    (h : AgreeFor nHashType nIn tx tx') : signatureHash hash scriptCode tx nIn nHashType =
      signatureHash hash scriptCode tx' nIn nHashType := by
  have hrange : nIn ≥ tx.vin.length ↔ nIn ≥ tx'.vin.length := by
    have hnone := congrArg Option.isNone h.signed
    rw [Option.isNone_map, Option.isNone_map] at hnone
    rw [ge_iff_le, ge_iff_le, ← List.getElem?_eq_none_iff, ← List.getElem?_eq_none_iff,
      ← Option.isNone_iff_eq_none, ← Option.isNone_iff_eq_none, hnone]
  unfold signatureHash
  rw [h.signedCopy_eq]
  simp only [hrange]

end Independence

/-! ### What `SIGHASH_ALL` covers is determined -/

/-- `SIGHASH_ALL`: neither of the types that leave something open. -/
def SighashAll (nHashType : Int) : Prop :=
  sighashBase nHashType ≠ SIGHASH_NONE ∧ sighashBase nHashType ≠ SIGHASH_SINGLE ∧
    anyoneCanPay nHashType = false

/-- No instruction of the script is `OP_CODESEPARATOR`. -/
def NoCodeSeparator (scriptCode : CScript) : Prop :=
  ∀ pc, Boundary scriptCode pc → ∀ vch rest, getOp pc ≠ some (OP_CODESEPARATOR, vch, rest)

theorem NoCodeSeparator.findAndDelete_eq {scriptCode : CScript} (h : NoCodeSeparator scriptCode) :
    findAndDelete [UInt8.ofNat OP_CODESEPARATOR] scriptCode = scriptCode := by
  apply findAndDelete_eq_self
  rintro _ hpc ⟨rest, rfl⟩
  exact h _ hpc [] rest rfl

section Binding

variable {hash : List UInt8 → Uint256} {nHashType nHashType' : Int} {nIn nIn' : Nat}
  {tx tx' : CTransaction} {scriptCode scriptCode' : CScript}

/-- With `SIGHASH_ALL` only the scripts of the inputs are replaced. -/
theorem signatureHash_all (hnIn : nIn < tx.vin.length) (hall : SighashAll nHashType)
    (hcode : NoCodeSeparator scriptCode) :
    signatureHash hash scriptCode tx nIn nHashType =
      hash (({ tx with vin := blankScripts scriptCode nIn tx.vin }).serialize ++
        littleEndianSigned 4 nHashType) := by
  have hcopy : signedCopy scriptCode tx nIn nHashType =
      some { tx with vin := blankScripts scriptCode nIn tx.vin } := by
    unfold signedCopy blankForType keepInput
    simp only [hcode.findAndDelete_eq, if_neg hall.1, if_neg hall.2.1, hall.2.2, Option.map_some,
      Bool.false_eq_true, if_false]
  rw [signatureHash, if_neg (Nat.not_le_of_lt hnIn), hcopy]

theorem representable_blankScripts (htx : tx.Representable) (hcode : scriptCode.length < 2 ^ 64)
    (nIn : Nat) : ({ tx with vin := blankScripts scriptCode nIn tx.vin } : CTransaction).Representable := by
  refine { htx with vin := ⟨?_, ?_⟩ }
  · dsimp only [blankScripts]
    rw [List.length_mapIdx]
    exact htx.vin.1
  · intro txin hmem
    obtain ⟨i, hi, rfl⟩ := List.mem_mapIdx.mp hmem
    obtain ⟨hprevout, -, hsequence⟩ := htx.vin.2 _ (List.getElem_mem hi)
    refine ⟨hprevout, ?_, hsequence⟩
    dsimp only
    split_ifs
    · exact hcode
    · exact Nat.two_pow_pos 64

/-- **What two equal hashes say** of the transactions, the inputs and the script codes. -/
structure SameSigned (tx tx' : CTransaction) (nIn nIn' : Nat) (scriptCode scriptCode' : CScript) :
    Prop where
  nVersion : tx.nVersion = tx'.nVersion
  nTime : tx.nTime = tx'.nTime
  nLockTime : tx.nLockTime = tx'.nLockTime
  prevouts : tx.vin.map (·.prevout) = tx'.vin.map (·.prevout)
  sequences : tx.vin.map (·.nSequence) = tx'.vin.map (·.nSequence)
  vout : tx.vout = tx'.vout
  script : scriptCode = scriptCode'
  input : scriptCode ≠ [] → nIn = nIn'

/-- The script codes, and where they stand, in copies whose inputs are the same. -/
theorem scriptCode_eq_of_blankScripts {vin vin' : List CTxIn} (hnIn : nIn < vin.length)
    (hnIn' : nIn' < vin'.length) (h : blankScripts scriptCode nIn vin = blankScripts scriptCode' nIn' vin') :
    scriptCode = scriptCode' ∧ (scriptCode ≠ [] → nIn = nIn') := by
  have hat : ∀ i, vin[i]?.map (fun _ => if i = nIn then scriptCode else []) =
      vin'[i]?.map fun _ => if i = nIn' then scriptCode' else [] := by
    intro i
    have hi := congrArg (fun l : List CTxIn => l[i]?.map (·.scriptSig)) h
    simpa only [getElem?_blankScripts, Option.map_map, Function.comp_def] using hi
  have hlen : vin.length = vin'.length := by
    have hlen := congrArg List.length h
    simpa only [blankScripts, List.length_mapIdx] using hlen
  have hcode := hat nIn
  have hcode' := hat nIn'
  rw [List.getElem?_eq_getElem hnIn, List.getElem?_eq_getElem (hlen ▸ hnIn), Option.map_some,
    Option.map_some, Option.some.injEq, if_pos rfl] at hcode
  rw [List.getElem?_eq_getElem (hlen ▸ hnIn'), List.getElem?_eq_getElem hnIn', Option.map_some,
    Option.map_some, Option.some.injEq, if_pos rfl] at hcode'
  by_cases hsame : nIn = nIn'
  · rw [if_pos hsame] at hcode
    exact ⟨hcode, fun _ => hsame⟩
  · rw [if_neg hsame] at hcode
    rw [if_neg (Ne.symm hsame)] at hcode'
    exact ⟨hcode.trans hcode', fun hne => absurd hcode hne⟩

/-- **With `SIGHASH_ALL` the hash determines what it covers**, if the hash function is injective. -/
theorem signatureHash_binds (hhash : Function.Injective hash) (htx : tx.Representable)
    (htx' : tx'.Representable) (hnIn : nIn < tx.vin.length) (hnIn' : nIn' < tx'.vin.length)
    (hcode : NoCodeSeparator scriptCode) (hcode' : NoCodeSeparator scriptCode')
    (hlen : scriptCode.length < 2 ^ 64) (hlen' : scriptCode'.length < 2 ^ 64)
    (hall : SighashAll nHashType) (hall' : SighashAll nHashType')
    (h : signatureHash hash scriptCode tx nIn nHashType =
      signatureHash hash scriptCode' tx' nIn' nHashType') :
    SameSigned tx tx' nIn nIn' scriptCode scriptCode' := by
  rw [signatureHash_all hnIn hall hcode, signatureHash_all hnIn' hall' hcode'] at h
  obtain ⟨hcopy, -⟩ := separates_transaction (representable_blankScripts htx hlen nIn)
    (representable_blankScripts htx' hlen' nIn') (hhash h)
  simp only [CTransaction.mk.injEq] at hcopy
  obtain ⟨hversion, htime, hvin, hvout, hlock⟩ := hcopy
  have hkept : ∀ (β : Type) (f : CTxIn → β),
      (∀ txin script, f { txin with scriptSig := script } = f txin) →
      ∀ (code : CScript) (n : Nat) (vin : List CTxIn), (blankScripts code n vin).map f = vin.map f := by
    intro β f hf code n vin
    apply List.ext_getElem?
    intro i
    rw [List.getElem?_map, List.getElem?_map, getElem?_blankScripts, Option.map_map]
    simp only [Function.comp_def, hf]
  obtain ⟨hscript, hindex⟩ := scriptCode_eq_of_blankScripts hnIn hnIn' hvin
  exact {
    nVersion := hversion
    nTime := htime
    nLockTime := hlock
    prevouts := by
      rw [← hkept _ (·.prevout) (fun _ _ => rfl) scriptCode nIn tx.vin, hvin, hkept]
      exact fun _ _ => rfl
    sequences := by
      rw [← hkept _ (·.nSequence) (fun _ _ => rfl) scriptCode nIn tx.vin, hvin, hkept]
      exact fun _ _ => rfl
    vout := hvout
    script := hscript
    input := hindex }

end Binding

/-! ### Both directions -/

/-- **What a signature signs.** With `SIGHASH_ALL` the hash determines the version, the times, what
the inputs spend, their sequence numbers, the outputs and the script code, and, unless that is
empty, the input that is signed. For every hash type, it depends on what the type covers only: with
`SIGHASH_SINGLE` on the output of the signed input and on no other sequence number, where anyone can
pay on no other input, and never on the scripts of the inputs. -/
theorem signatureHash_covers {hash : List UInt8 → Uint256} (hhash : Function.Injective hash) :
    (∀ (tx tx' : CTransaction) (nIn nIn' : Nat) (scriptCode scriptCode' : CScript)
      (nHashType nHashType' : Int), tx.Representable → tx'.Representable →
      nIn < tx.vin.length → nIn' < tx'.vin.length →
      NoCodeSeparator scriptCode → NoCodeSeparator scriptCode' →
      scriptCode.length < 2 ^ 64 → scriptCode'.length < 2 ^ 64 →
      SighashAll nHashType → SighashAll nHashType' →
      signatureHash hash scriptCode tx nIn nHashType =
        signatureHash hash scriptCode' tx' nIn' nHashType' →
      SameSigned tx tx' nIn nIn' scriptCode scriptCode') ∧
    ∀ (tx tx' : CTransaction) (nIn : Nat) (scriptCode : CScript) (nHashType : Int),
      AgreeFor nHashType nIn tx tx' →
      signatureHash hash scriptCode tx nIn nHashType =
        signatureHash hash scriptCode tx' nIn nHashType := by
  constructor
  · intro tx tx' nIn nIn' scriptCode scriptCode' nHashType nHashType' htx htx' hnIn hnIn' hcode hcode'
      hlen hlen' hall hall' heq
    exact signatureHash_binds hhash htx htx' hnIn hnIn' hcode hcode' hlen hlen' hall hall' heq
  · intro tx tx' nIn scriptCode nHashType hagree
    exact signatureHash_congr hash scriptCode hagree

/-- A hash function without collisions: the bytes as the digits of a number. -/
def sampleHash : List UInt8 → Nat
  | [] => 0
  | b :: bytes => 256 * sampleHash bytes + b.toNat + 1

theorem sampleHash_injective : Function.Injective sampleHash := by
  intro bytes
  induction bytes with
  | nil =>
    intro bytes' h
    cases bytes' with
    | nil => rfl
    | cons b' bytes' => simp [sampleHash] at h
  | cons b bytes ih =>
    intro bytes' h
    cases bytes' with
    | nil => simp [sampleHash] at h
    | cons b' bytes' =>
      have hb := b.toNat_lt
      have hb' := b'.toNat_lt
      simp only [sampleHash] at h
      have hbyte : b.toNat = b'.toNat := by omega
      have hrest : sampleHash bytes = sampleHash bytes' := by omega
      rw [UInt8.toNat_inj.mp hbyte, ih hrest]

def sampleTwoInputs : CTransaction :=
  { nVersion := 1
    nTime := 1000
    vin := [⟨⟨7, 0⟩, [], UINT_MAX⟩, ⟨⟨8, 1⟩, [0x51], UINT_MAX⟩]
    vout := [⟨1000000, [0x51]⟩]
    nLockTime := 0 }

theorem representable_sampleTwoInputs : sampleTwoInputs.Representable where
  nVersion := ⟨by decide, by decide⟩
  nTime := by decide
  vin := ⟨by decide, by simp [sampleTwoInputs, CTxIn.Representable, COutPoint.Representable, UINT_MAX]⟩
  vout := ⟨by decide, by simp [sampleTwoInputs, CTxOut.Representable, Signed]⟩
  nLockTime := by decide

theorem sighashAll_all : SighashAll SIGHASH_ALL := ⟨by decide, by decide, by decide⟩

/-- A script of one instruction that is no `OP_CODESEPARATOR`. -/
theorem noCodeSeparator_checkSig : NoCodeSeparator [UInt8.ofNat OP_CHECKSIG] := by
  intro pc hpc vch rest hop
  have hboundary : pc = [UInt8.ofNat OP_CHECKSIG] ∨ pc = [] := by
    clear hop
    induction hpc with
    | start => exact .inl rfl
    | next _ hop ih =>
      rcases ih with rfl | rfl
      · cases hop
        exact .inr rfl
      · cases hop
  rcases hboundary with rfl | rfl
  · cases hop
  · cases hop

/-- The two signatures of the sample's inputs sign different hashes. -/
theorem signatureHash_covers_sample :
    signatureHash sampleHash [UInt8.ofNat OP_CHECKSIG] sampleTwoInputs 0 SIGHASH_ALL ≠
      signatureHash sampleHash [UInt8.ofNat OP_CHECKSIG] sampleTwoInputs 1 SIGHASH_ALL := by
  intro heq
  have hsame := (signatureHash_covers sampleHash_injective).1 sampleTwoInputs sampleTwoInputs 0 1 _ _ _ _
    representable_sampleTwoInputs representable_sampleTwoInputs (by decide) (by decide)
    noCodeSeparator_checkSig noCodeSeparator_checkSig (by decide) (by decide)
    sighashAll_all sighashAll_all heq
  exact absurd (hsame.input (List.cons_ne_nil _ _)) (by decide)

/-- **The index of the input is not signed** when the script code is empty: the copies of the
transaction are the same. -/
theorem not_forall_signatureHash_input :
    ¬ ∀ hash : List UInt8 → Uint256, Function.Injective hash →
      ∀ (tx tx' : CTransaction) (nIn nIn' : Nat) (scriptCode scriptCode' : CScript),
        tx.Representable → tx'.Representable → nIn < tx.vin.length → nIn' < tx'.vin.length →
        NoCodeSeparator scriptCode → NoCodeSeparator scriptCode' →
        signatureHash hash scriptCode tx nIn SIGHASH_ALL =
          signatureHash hash scriptCode' tx' nIn' SIGHASH_ALL →
        nIn = nIn' := by
  intro hforall
  have hempty : NoCodeSeparator [] := by
    intro pc hpc vch rest hop
    have hnil : pc = [] := by
      clear hop
      induction hpc with
      | start => rfl
      | next _ hop ih =>
        subst ih
        cases hop
    subst hnil
    cases hop
  have hsame := hforall sampleHash sampleHash_injective sampleTwoInputs sampleTwoInputs 0 1 [] []
    representable_sampleTwoInputs representable_sampleTwoInputs (by decide) (by decide) hempty hempty
    rfl
  exact absurd hsame (by decide)

end Manna
