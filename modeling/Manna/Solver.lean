import Manna.EvalScript

/-!
Standard scripts (`script.cpp`: `Solver`).

A script is compared, instruction by instruction, with templates in which some opcodes stand for
values; these are collected.

* `getOp_pushData`: what `<<` appends is read back by `GetOp`;
* `solver_payToPubKey`: a script that pays to a key is recognised, whatever the key;
* `solver_pubkey`: where a key is read, it has the size of one.
-/

namespace Manna

/-! ### Templates -/

def OP_SMALLINTEGER : Nat := 0xfa
def OP_PUBKEYS : Nat := 0xfb
def OP_PUBKEYHASH : Nat := 0xfd
def OP_PUBKEY : Nat := 0xfe
def OP_DUP : Nat := 0x76
def OP_EQUALVERIFY : Nat := 0x88

/-- `txnouttype`. -/
inductive TxnOutType where
  | nonstandard
  | pubkey
  | pubkeyhash
  | scripthash
  | multisig
deriving DecidableEq, Repr

/-- `CScript() << opcode << ...`. -/
def opcodes (l : List Nat) : CScript := l.map UInt8.ofNat

/-- `mTemplates`, in the order of the map. -/
def mTemplates : List (TxnOutType × CScript) :=
  [(.pubkey, opcodes [OP_PUBKEY, OP_CHECKSIG]),
    (.pubkeyhash, opcodes [OP_DUP, OP_HASH160, OP_PUBKEYHASH, OP_EQUALVERIFY, OP_CHECKSIG]),
    (.multisig, opcodes [OP_SMALLINTEGER, OP_PUBKEYS, OP_SMALLINTEGER, OP_CHECKMULTISIG])]

/-- An instruction and the script after it. Where `GetOp` fails, the opcode is
`OP_INVALIDOPCODE` and nothing is pushed. -/
structure Instruction where
  opcode : Nat
  vch : Valtype
  pc : CScript
deriving DecidableEq, Repr

/-- The inner loop on `OP_PUBKEYS`: the keys from an instruction on, and the first instruction that
is none. -/
def takePubKeys : Nat → Instruction → List Valtype → List Valtype × Instruction
  | 0, op, vSolutions => (vSolutions, op)
  | fuel + 1, op, vSolutions =>
    if 33 ≤ op.vch.length ∧ op.vch.length ≤ 120 then
      match getOp op.pc with
      | none => (vSolutions ++ [op.vch], ⟨OP_INVALIDOPCODE, [], []⟩)
      | some (opcode, vch, pc) => takePubKeys fuel ⟨opcode, vch, pc⟩ (vSolutions ++ [op.vch])
    else (vSolutions, op)

/-- The comparison of an instruction with one of a template: what it adds to the solutions, or
`none` for the `break`. -/
def matchInstruction (op1 : Instruction) (opcode2 : Nat) (vch2 : Valtype) : Option (List Valtype) :=
  if opcode2 = OP_PUBKEY then
    if op1.vch.length < 33 ∨ op1.vch.length > 120 then none else some [op1.vch]
  else if opcode2 = OP_PUBKEYHASH then if op1.vch.length ≠ 20 then none else some [op1.vch]
  else if opcode2 = OP_SMALLINTEGER then
    if op1.opcode = OP_0 ∨ (OP_1 ≤ op1.opcode ∧ op1.opcode ≤ OP_16) then
      some [[UInt8.ofNat (decodeOpN op1.opcode)]]
    else none
  else if op1.opcode ≠ opcode2 ∨ op1.vch ≠ vch2 then none
  else some []

/-- The comparison of a script with a template: the solutions, if both end together. Every round
takes an instruction of the template. -/
def matchTemplate : Nat → CScript → CScript → List Valtype → Option (List Valtype)
  | 0, _, _, _ => none
  | fuel + 1, pc1, pc2, vSolutions =>
    if pc1 = [] ∧ pc2 = [] then some vSolutions
    else
      match getOp pc1, getOp pc2 with
      | some (opcode1, vch1, pc1), some (opcode2, vch2, pc2) =>
        if opcode2 = OP_PUBKEYS then
          let (vSolutions, op1) := takePubKeys (pc1.length + 1) ⟨opcode1, vch1, pc1⟩ vSolutions
          match getOp pc2 with
          | none => none
          | some (opcode2, vch2, pc2) =>
            (matchInstruction op1 opcode2 vch2).bind fun found =>
              matchTemplate fuel op1.pc pc2 (vSolutions ++ found)
        else
          (matchInstruction ⟨opcode1, vch1, pc1⟩ opcode2 vch2).bind fun found =>
            matchTemplate fuel pc1 pc2 (vSolutions ++ found)
      | _, _ => none

/-- "Additional checks for TX_MULTISIG." -/
def multisigCounts (vSolutions : List Valtype) : Bool :=
  let m := ((vSolutions.head?.bind List.head?).getD 0).toNat
  let n := ((vSolutions.getLast?.bind List.head?).getD 0).toNat
  !(m < 1 ∨ n < 1 ∨ m > n ∨ vSolutions.length - 2 ≠ n)

/-- `Solver`: what it returns, `typeRet` and `vSolutionsRet`. -/
def solver (scriptPubKey : CScript) : Bool × TxnOutType × List Valtype :=
  if isPayToScriptHash scriptPubKey then (true, .scripthash, [(scriptPubKey.drop 2).take 20])
  else
    let found := mTemplates.findSome? fun tplate =>
      (matchTemplate (tplate.2.length + 1) scriptPubKey tplate.2 []).map fun vSolutions =>
        (tplate.1, vSolutions)
    match found with
    | none => (false, .nonstandard, [])
    | some (typeRet, vSolutions) =>
      (typeRet ≠ .multisig || multisigCounts vSolutions, typeRet, vSolutions)

/-! ### Reading back what was pushed -/

/-- The size bytes of `pushData` hold the size. -/
theorem leNat_sizeBytes (nBytes n : Nat) (h : n < 256 ^ nBytes) :
    leNat ((List.range nBytes).map fun i => UInt8.ofNat (n / 256 ^ i)) = n := by
  induction nBytes generalizing n with
  | zero =>
    rw [Nat.pow_zero] at h
    exact (Nat.lt_one_iff.mp h).symm
  | succ nBytes ih =>
    have hdiv : n / 256 < 256 ^ nBytes := by
      rw [Nat.pow_succ] at h
      exact Nat.div_lt_of_lt_mul (by omega)
    have hrest := ih (n / 256) hdiv
    have htail : ((List.range nBytes).map Nat.succ).map (fun i => UInt8.ofNat (n / 256 ^ i)) =
        (List.range nBytes).map fun i => UInt8.ofNat (n / 256 / 256 ^ i) := by
      rw [List.map_map]
      refine List.map_congr_left fun i _ => ?_
      rw [Function.comp_apply, Nat.succ_eq_add_one, Nat.pow_succ, Nat.mul_comm, Nat.div_div_eq_div_mul]
    rw [List.range_succ_eq_map, List.map_cons, htail, leNat, hrest, Nat.pow_zero, Nat.div_one,
      UInt8.toNat_ofNat']
    omega

def SizedPush (opcode nBytes : Nat) : Prop :=
  opcode = OP_PUSHDATA1 ∧ nBytes = 1 ∨ opcode = OP_PUSHDATA2 ∧ nBytes = 2 ∨
    opcode = OP_PUSHDATA4 ∧ nBytes = 4

theorem SizedPush.pushSize_eq {opcode nBytes : Nat} (h : SizedPush opcode nBytes) (pc : CScript) :
    pushSize opcode pc =
      if pc.length < nBytes then none else some (leNat (pc.take nBytes), pc.drop nBytes) := by
  rcases h with ⟨rfl, rfl⟩ | ⟨rfl, rfl⟩ | ⟨rfl, rfl⟩
  · rfl
  · rfl
  · rfl

theorem getOp_byte {opcode : Nat} (hcode : OP_PUSHDATA4 < opcode) (hbyte : opcode < 256)
    (rest : CScript) : getOp (UInt8.ofNat opcode :: rest) = some (opcode, [], rest) := by
  rw [getOp_cons_iff, if_neg (Nat.not_le.mpr hcode), UInt8.toNat_ofNat']
  exact ⟨(Nat.mod_eq_of_lt hbyte).symm, rfl, rfl⟩

theorem getOp_push {opcode : Nat} {pc : CScript} {vch : Valtype} {rest : CScript}
    (hcode : opcode ≤ OP_PUSHDATA4) (hsize : pushSize opcode pc = some (vch.length, vch ++ rest)) :
    getOp (UInt8.ofNat opcode :: pc) = some (opcode, vch, rest) := by
  rw [getOp_cons_iff, if_pos hcode, UInt8.toNat_ofNat']
  exact ⟨(Nat.mod_eq_of_lt (Nat.lt_of_le_of_lt hcode (by decide))).symm, hsize⟩

theorem SizedPush.getOp_eq {opcode nBytes : Nat} (h : SizedPush opcode nBytes) {vch : Valtype}
    (hlen : vch.length < 256 ^ nBytes) (rest : CScript) : getOp (UInt8.ofNat opcode ::
        (((List.range nBytes).map fun i => UInt8.ofNat (vch.length / 256 ^ i)) ++ (vch ++ rest))) =
      some (opcode, vch, rest) := by
  have hcode : opcode ≤ OP_PUSHDATA4 := by
    rcases h with ⟨rfl, -⟩ | ⟨rfl, -⟩ | ⟨rfl, -⟩ <;> decide
  refine getOp_push hcode ?_
  have hsize := leNat_sizeBytes nBytes vch.length hlen
  have hbytes : ((List.range nBytes).map fun i =>
      UInt8.ofNat (vch.length / 256 ^ i)).length = nBytes := by
    rw [List.length_map, List.length_range]
  generalize (List.range nBytes).map (fun i => UInt8.ofNat (vch.length / 256 ^ i)) = bytes
    at hsize hbytes
  have hshort : ¬ (bytes ++ (vch ++ rest)).length < nBytes := by
    rw [List.length_append]
    omega
  rw [h.pushSize_eq, if_neg hshort, List.take_left' hbytes, List.drop_left' hbytes, hsize]

/-- **What is pushed is read back**: the bytes and the script after them. -/
theorem getOp_pushData {vch : Valtype} (hlen : vch.length < 2 ^ 32) (rest : CScript) :
    ∃ opcode, getOp (pushData vch ++ rest) = some (opcode, vch, rest) := by
  unfold pushData
  dsimp only
  split_ifs with hdirect hone htwo
  · have hcode : vch.length ≤ OP_PUSHDATA4 := hdirect.le.trans (by decide)
    exact ⟨vch.length, getOp_push hcode (if_pos hdirect)⟩
  · refine ⟨OP_PUSHDATA1, ?_⟩
    rw [List.cons_append, List.cons_append, List.append_assoc]
    exact SizedPush.getOp_eq (.inl ⟨rfl, rfl⟩) (Nat.lt_of_le_of_lt hone (by decide)) rest
  · refine ⟨OP_PUSHDATA2, ?_⟩
    rw [List.cons_append, List.cons_append, List.append_assoc]
    exact SizedPush.getOp_eq (.inr (.inl ⟨rfl, rfl⟩)) (Nat.lt_of_le_of_lt htwo (by decide)) rest
  · refine ⟨OP_PUSHDATA4, ?_⟩
    rw [List.cons_append, List.cons_append, List.append_assoc]
    exact SizedPush.getOp_eq (.inr (.inr ⟨rfl, rfl⟩)) hlen rest

/-! ### Scripts that pay to a key -/

/-- `CScript() << vchPubKey << OP_CHECKSIG`. -/
def payToPubKey (vchPubKey : Valtype) : CScript := pushData vchPubKey ++ opcodes [OP_CHECKSIG]

theorem length_le_pushData (vch : Valtype) : vch.length < (pushData vch).length := by
  unfold pushData
  dsimp only
  split_ifs <;> simp only [List.length_cons, List.length_append] <;> omega

/-- **A script that pays to a key is recognised**, whatever the key. -/
theorem solver_payToPubKey {vchPubKey : Valtype} (hlower : 33 ≤ vchPubKey.length)
    (hupper : vchPubKey.length ≤ 120) : solver (payToPubKey vchPubKey) = (true, .pubkey, [vchPubKey]) := by
  have hlen := length_le_pushData vchPubKey
  have hhash : isPayToScriptHash (payToPubKey vchPubKey) = false := by
    have hne : (payToPubKey vchPubKey).length ≠ 23 := by
      rw [payToPubKey, List.length_append]
      omega
    simp [isPayToScriptHash, hne]
  obtain ⟨opcode, hop⟩ := getOp_pushData (Nat.lt_of_le_of_lt hupper (by decide))
    (opcodes [OP_CHECKSIG])
  have hkey : matchInstruction ⟨opcode, vchPubKey, opcodes [OP_CHECKSIG]⟩ OP_PUBKEY [] =
      some [vchPubKey] := by
    rw [matchInstruction, if_pos rfl, if_neg]
    show ¬ (vchPubKey.length < 33 ∨ vchPubKey.length > 120)
    omega
  have hne : payToPubKey vchPubKey ≠ [] := by
    intro hnil
    rw [payToPubKey, List.append_eq_nil_iff] at hnil
    cases hnil.2
  have hmatch : matchTemplate 3 (payToPubKey vchPubKey) (opcodes [OP_PUBKEY, OP_CHECKSIG]) [] =
      some [vchPubKey] := by
    have htemplate : getOp (opcodes [OP_PUBKEY, OP_CHECKSIG]) =
        some (OP_PUBKEY, [], opcodes [OP_CHECKSIG]) := by decide
    have hrest : matchTemplate 2 (opcodes [OP_CHECKSIG]) (opcodes [OP_CHECKSIG]) [vchPubKey] =
        some [vchPubKey] := rfl
    rw [matchTemplate, if_neg (fun hnil => hne hnil.1), payToPubKey, hop, htemplate]
    dsimp only
    rw [if_neg (by decide), hkey]
    exact hrest
  rw [solver, hhash]
  simp only [Bool.false_eq_true, if_false, mTemplates, List.findSome?_cons]
  rw [show (opcodes [OP_PUBKEY, OP_CHECKSIG]).length + 1 = 3 from rfl, hmatch]
  rfl

theorem matchTemplate_pubkey {pc : CScript} {vSolutions : List Valtype}
    (h : matchTemplate 3 pc (opcodes [OP_PUBKEY, OP_CHECKSIG]) [] = some vSolutions) :
    ∃ vchPubKey, vSolutions = [vchPubKey] ∧ 33 ≤ vchPubKey.length ∧ vchPubKey.length ≤ 120 := by
  have htemplate : getOp (opcodes [OP_PUBKEY, OP_CHECKSIG]) =
      some (OP_PUBKEY, [], opcodes [OP_CHECKSIG]) := by decide
  have hlast : getOp (opcodes [OP_CHECKSIG]) = some (OP_CHECKSIG, [], []) := by decide
  rw [matchTemplate, if_neg fun hnil => absurd hnil.2 (by decide), htemplate] at h
  split at h
  · next opcode vchPubKey pc opcode2 vch2 pc2 _ heq =>
    simp only [Option.some.injEq, Prod.mk.injEq] at heq
    obtain ⟨rfl, rfl, rfl⟩ := heq
    rw [if_neg (by decide)] at h
    obtain ⟨found, hfound, hrest⟩ := Option.bind_eq_some_iff.mp h
    rw [matchInstruction, if_pos rfl] at hfound
    split at hfound
    · cases hfound
    · next hsize =>
      cases hfound
      rw [not_or, not_lt, not_lt] at hsize
      refine ⟨vchPubKey, ?_, hsize⟩
      rw [matchTemplate, if_neg fun hnil => absurd hnil.2 (by decide), hlast] at hrest
      split at hrest
      · next heq =>
        simp only [Option.some.injEq, Prod.mk.injEq] at heq
        obtain ⟨rfl, rfl, rfl⟩ := heq
        rw [if_neg (by decide)] at hrest
        obtain ⟨found, hfound, hend⟩ := Option.bind_eq_some_iff.mp hrest
        obtain rfl : found = [] := by
          rw [matchInstruction, if_neg (by decide), if_neg (by decide), if_neg (by decide)] at hfound
          split at hfound
          · cases hfound
          · exact (Option.some.inj hfound).symm
        rw [matchTemplate] at hend
        split at hend
        · exact (Option.some.inj hend).symm
        · simp [getOp] at hend
      · cases hrest
  · cases h

/-- **The key that is read from a script** has the size of a key. -/
theorem solver_pubkey {scriptPubKey : CScript} {fSolved : Bool} {vSolutions : List Valtype}
    (h : solver scriptPubKey = (fSolved, .pubkey, vSolutions)) :
    ∃ vchPubKey, vSolutions = [vchPubKey] ∧ 33 ≤ vchPubKey.length ∧ vchPubKey.length ≤ 120 := by
  unfold solver at h
  split at h
  · cases h
  · dsimp only at h
    split at h
    · cases h
    · next typeRet found hfound =>
      cases h
      obtain ⟨tplate, hmem, hmatch⟩ := List.exists_of_findSome?_eq_some hfound
      obtain ⟨vs, hvs, heq⟩ := Option.map_eq_some_iff.mp hmatch
      simp only [mTemplates, List.mem_cons, List.not_mem_nil, or_false] at hmem
      rcases hmem with rfl | rfl | rfl
      · cases heq
        exact matchTemplate_pubkey hvs
      · cases heq
      · cases heq

end Manna
