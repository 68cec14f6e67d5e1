import Manna.EvalSafety
import Manna.Lib.BitFilter
import Manna.Solver
import Manna.TxCodec

/-!
Bloom filters of peers (`bloom.h`, `bloom.cpp`: `CBloomFilter`; `hash.cpp`: `MurmurHash3`; `main.cpp`:
`ProcessMessage` of `filterload` and `filteradd`).

Bits are only set. A filter whose bits are all set, or that has none, is full, and one without a set bit is
empty: then nothing is hashed.

* `insert_spec`, `contains_spec`: the bits of a filter mark the positions of what was inserted;
* `scanOutputs_spec`: what the outputs of a transaction insert;
* `noFalseNegatives`: in every run what was inserted is found.
-/

namespace Manna

open BitFilter Codec

/-! ### MurmurHash3 -/

def rotl32 (x : UInt32) (r : UInt32) : UInt32 := (x <<< r) ||| (x >>> (32 - r))

/-- A block before it is mixed in. -/
def murmurBlock (k1 : UInt32) : UInt32 := rotl32 (k1 * 0xcc9e2d51) 15 * 0x1b873593

/-- The body, four bytes at a time, and the tail that is left over. -/
def murmurBody : UInt32 → List UInt8 → UInt32 × List UInt8
  | h1, b0 :: b1 :: b2 :: b3 :: vData =>
    let k1 := b0.toUInt32 ||| (b1.toUInt32 <<< 8) ||| (b2.toUInt32 <<< 16) ||| (b3.toUInt32 <<< 24)
    murmurBody (rotl32 (h1 ^^^ murmurBlock k1) 13 * 5 + 0xe6546b64) vData
  | h1, tail => (h1, tail)

def murmurTail (h1 : UInt32) : List UInt8 → UInt32
  | [b0, b1, b2] => h1 ^^^ murmurBlock ((b2.toUInt32 <<< 16) ^^^ (b1.toUInt32 <<< 8) ^^^ b0.toUInt32)
  | [b0, b1] => h1 ^^^ murmurBlock ((b1.toUInt32 <<< 8) ^^^ b0.toUInt32)
  | [b0] => h1 ^^^ murmurBlock b0.toUInt32
  | _ => h1

def murmurHash3 (nHashSeed : UInt32) (vDataToHash : List UInt8) : UInt32 :=
  let (h1, tail) := murmurBody nHashSeed vDataToHash
  let h1 := murmurTail h1 tail ^^^ UInt32.ofNat vDataToHash.length
  let h1 := (h1 ^^^ (h1 >>> 16)) * 0x85ebca6b
  let h1 := (h1 ^^^ (h1 >>> 13)) * 0xc2b2ae35
  h1 ^^^ (h1 >>> 16)

/-- The test vector with two blocks and a tail. -/
example : murmurHash3 0 [0x00, 0x11, 0x22, 0x33, 0x44, 0x55, 0x66, 0x77, 0x88] = 0xb4698def := by decide

/-! ### CBloomFilter -/

def MAX_BLOOM_FILTER_SIZE : Nat := 36000
def MAX_HASH_FUNCS : Nat := 50
def BLOOM_UPDATE_ALL : UInt8 := 1
def BLOOM_UPDATE_P2PUBKEY_ONLY : UInt8 := 2
def BLOOM_UPDATE_MASK : UInt8 := 3

structure CBloomFilter where
  vData : List UInt8
  isFull : Bool
  isEmpty : Bool
  nHashFuncs : Nat
  nTweak : UInt32
  nFlags : UInt8
deriving DecidableEq, Repr

namespace CBloomFilter

/-- `bit_mask`. -/
def bitMask (n : Nat) : UInt8 := [0x01, 0x02, 0x04, 0x08, 0x10, 0x20, 0x40, 0x80].getD n 0

/-- `Hash`; `none` for a number modulo zero. -/
def hash (f : CBloomFilter) (nHashNum : Nat) (vDataToHash : List UInt8) : Option Nat :=
  if f.vData.length * 8 = 0 then none
  else
    some ((murmurHash3 (UInt32.ofNat nHashNum * 0xFBA4C795 + f.nTweak) vDataToHash).toNat %
      (f.vData.length * 8))

/-- `vData[nIndex >> 3] |= bit_mask[7 & nIndex]`; `none` where that is outside. -/
def setBit (vData : List UInt8) (nIndex : Nat) : Option (List UInt8) :=
  if nIndex >>> 3 < vData.length then some (vData.modify (nIndex >>> 3) (· ||| bitMask (7 &&& nIndex)))
  else none

/-- `vData[nIndex >> 3] & bit_mask[7 & nIndex]`; `none` where that is outside. -/
def checkBit (vData : List UInt8) (nIndex : Nat) : Option Bool :=
  vData[nIndex >>> 3]?.map fun b => decide (b &&& bitMask (7 &&& nIndex) ≠ 0)

def insertLoop (f : CBloomFilter) (vKey : List UInt8) : List Nat → List UInt8 → Option (List UInt8)
  | [], vData => some vData
  | i :: is, vData => do
    let nIndex ← f.hash i vKey
    let vData ← setBit vData nIndex
    insertLoop f vKey is vData

def insert (f : CBloomFilter) (vKey : List UInt8) : Option CBloomFilter :=
  if f.isFull then some f
  else do
    let vData ← f.insertLoop vKey (List.range f.nHashFuncs) f.vData
    return { f with vData, isEmpty := false }

def containsLoop (f : CBloomFilter) (vKey : List UInt8) : List Nat → Option Bool
  | [] => some true
  | i :: is => do
    let nIndex ← f.hash i vKey
    if ← checkBit f.vData nIndex then containsLoop f vKey is else return false

def contains (f : CBloomFilter) (vKey : List UInt8) : Option Bool :=
  if f.isFull then some true
  else if f.isEmpty then some false
  else f.containsLoop vKey (List.range f.nHashFuncs)

def matchLoop (f : CBloomFilter) : Nat → CScript → Option Bool
  | 0, _ => some false
  | fuel + 1, pc =>
    match getOp pc with
    | none => some false
    | some (_, data, pc) => do
      if data.length ≠ 0 then
        if ← f.contains data then return true else matchLoop f fuel pc
      else matchLoop f fuel pc

/-- Every instruction takes a byte, so the length of the script is enough. -/
def scriptMatches (f : CBloomFilter) (script : CScript) : Option Bool := f.matchLoop script.length script

/-- The outpoint of an output that matches is inserted. -/
def updatesFor (f : CBloomFilter) (scriptPubKey : CScript) : Bool :=
  if f.nFlags &&& BLOOM_UPDATE_MASK = BLOOM_UPDATE_ALL then true
  else if f.nFlags &&& BLOOM_UPDATE_MASK = BLOOM_UPDATE_P2PUBKEY_ONLY then
    let (solved, type, _) := solver scriptPubKey
    solved && (type == .pubkey || type == .multisig)
  else false

/-- The loop over the outputs, and `fFound`. -/
def scanOutputs (hash : Uint256) : Nat → List CTxOut → CBloomFilter → Bool → Option (CBloomFilter × Bool)
  | _, [], f, fFound => some (f, fFound)
  | i, txout :: vout, f, fFound => do
    if ← f.scriptMatches txout.scriptPubKey then
      let f ← if f.updatesFor txout.scriptPubKey then f.insert (COutPoint.serialize ⟨hash, i⟩) else some f
      scanOutputs hash (i + 1) vout f true
    else scanOutputs hash (i + 1) vout f fFound

/-- The loop over the inputs. -/
def scanInputs (f : CBloomFilter) : List CTxIn → Option Bool
  | [] => some false
  | txin :: vin => do
    if ← f.contains txin.prevout.serialize then return true
    else if ← f.scriptMatches txin.scriptSig then return true
    else scanInputs f vin

def isRelevantAndUpdate (f : CBloomFilter) (tx : CTransaction) (hash : Uint256) :
    Option (CBloomFilter × Bool) :=
  if f.isFull then some (f, true)
  else if f.isEmpty then some (f, false)
  else do
    let fFound ← f.contains (littleEndian 32 hash)
    let (f, fFound) ← scanOutputs hash 0 tx.vout f fFound
    if fFound then return (f, true) else return (f, ← f.scanInputs tx.vin)

def isWithinSizeConstraints (f : CBloomFilter) : Bool :=
  decide (f.vData.length ≤ MAX_BLOOM_FILTER_SIZE) && decide (f.nHashFuncs ≤ MAX_HASH_FUNCS)

def updateEmptyFull (f : CBloomFilter) : CBloomFilter :=
  { f with isFull := f.vData.all (· == 0xff), isEmpty := f.vData.all (· == 0) }

end CBloomFilter

/-- `filterload`: what the message sets is read, and the filter is loaded, if it is not too large. -/
def filterLoad (vData : List UInt8) (nHashFuncs : Nat) (nTweak : UInt32) (nFlags : UInt8) :
    Option CBloomFilter :=
  let filter : CBloomFilter := ⟨vData, true, false, nHashFuncs, nTweak, nFlags⟩
  if filter.isWithinSizeConstraints then some filter.updateEmptyFull else none

/-- `filteradd`: a data item that is too large is not inserted. -/
def filterAdd (f : CBloomFilter) (vData : List UInt8) : Option CBloomFilter :=
  if vData.length > MAX_SCRIPT_ELEMENT_SIZE then some f else f.insert vData

/-! ### Bits and positions -/

namespace CBloomFilter

theorem bitMask_ne_zero (n : Nat) : bitMask (7 &&& n) ≠ 0 := by
  have hlt : 7 &&& n < 8 := Nat.lt_of_le_of_lt Nat.and_le_left (by decide)
  have hall : ∀ k < 8, bitMask k ≠ 0 := by decide
  exact hall _ hlt

theorem or_and_ne_zero {b k : UInt8} (m : UInt8) (h : b &&& k ≠ 0) : (b ||| m) &&& k ≠ 0 := by
  intro hzero
  have hdistrib : (b ||| m) &&& k = (b &&& k) ||| (m &&& k) :=
    UInt8.toBitVec_inj.mp BitVec.and_or_distrib_right
  rw [hdistrib, UInt8.or_eq_zero_iff] at hzero
  exact h hzero.1

def bits (vData : List UInt8) : Set Nat := {n | checkBit vData n = some true}

def positions (f : CBloomFilter) (vKey : List UInt8) : Set Nat :=
  {n | ∃ i < f.nHashFuncs, f.hash i vKey = some n}

theorem setBit_spec {vData : List UInt8} {n : Nat} (h : n >>> 3 < vData.length) :
    ∃ vData', setBit vData n = some vData' ∧ vData'.length = vData.length ∧ n ∈ bits vData' ∧
      bits vData ⊆ bits vData' := by
  have hget : ∀ m, (vData.modify (n >>> 3) (· ||| bitMask (7 &&& n)))[m]? =
      (vData[m]?).map fun b => if n >>> 3 = m then b ||| bitMask (7 &&& n) else b := by
    intro m
    rw [List.getElem?_modify]
    split <;> simp [*]
  refine ⟨_, if_pos h, List.length_modify _ _ _, ?_, ?_⟩
  · have hself : ((vData[n >>> 3] ||| bitMask (7 &&& n)) &&& bitMask (7 &&& n)) ≠ 0 := by
      rw [UInt8.or_comm]
      exact or_and_ne_zero _ (by rw [UInt8.and_self]; exact bitMask_ne_zero n)
    simp [bits, checkBit, hget, hself, List.getElem?_eq_getElem h]
  · intro m hm
    unfold bits checkBit at hm ⊢
    rw [Set.mem_ofPred_eq, Option.map_eq_some_iff] at hm ⊢
    obtain ⟨b, hb, hbit⟩ := hm
    rw [decide_eq_true_eq] at hbit
    rw [hget, hb]
    refine ⟨_, rfl, ?_⟩
    rw [decide_eq_true_eq]
    split
    · exact or_and_ne_zero _ hbit
    · exact hbit

/-- A filter in use: it is full, or has bits. -/
def Valid (f : CBloomFilter) : Prop := f.isFull = false → 0 < f.vData.length

/-- A key is found: its positions are marked, if there is one that is not taken for granted. -/
def Has (f : CBloomFilter) (vKey : List UInt8) : Prop :=
  f.isFull = true ∨ f.isEmpty = false ∧ Holds f.positions (bits f.vData) vKey

/-- **What a call leaves of a filter**: the same filter with more bits. -/
structure Grows (f f' : CBloomFilter) : Prop where
  length : f'.vData.length = f.vData.length
  isFull : f'.isFull = f.isFull
  nHashFuncs : f'.nHashFuncs = f.nHashFuncs
  nTweak : f'.nTweak = f.nTweak
  nFlags : f'.nFlags = f.nFlags
  notEmpty : f.isEmpty = false → f'.isEmpty = false
  bits : bits f.vData ⊆ bits f'.vData

variable {f f' f'' : CBloomFilter} {vKey : List UInt8}

theorem Grows.refl (f : CBloomFilter) : Grows f f := ⟨rfl, rfl, rfl, rfl, rfl, id, subset_rfl⟩

theorem Grows.trans (h : Grows f f') (h' : Grows f' f'') : Grows f f'' :=
  ⟨h'.length.trans h.length, h'.isFull.trans h.isFull, h'.nHashFuncs.trans h.nHashFuncs,
    h'.nTweak.trans h.nTweak, h'.nFlags.trans h.nFlags, fun hne => h'.notEmpty (h.notEmpty hne),
    h.bits.trans h'.bits⟩

theorem Grows.valid (h : Grows f f') (hvalid : Valid f) : Valid f' := fun hfull => by
  rw [h.length]
  exact hvalid (h.isFull ▸ hfull)

/-- The positions of a key stay where they are. -/
theorem Grows.positions_eq (h : Grows f f') : f'.positions = f.positions := by
  funext vKey
  unfold positions hash
  rw [h.nHashFuncs, h.length, h.nTweak]

/-- **What is found stays found.** -/
theorem Grows.has (h : Grows f f') (hkey : f.Has vKey) : f'.Has vKey := by
  rcases hkey with hfull | ⟨hne, hmarks⟩
  · exact .inl (h.isFull.trans hfull)
  · exact .inr ⟨h.notEmpty hne, h.positions_eq ▸ hmarks.mono h.bits⟩

theorem exists_hash (hlen : 0 < f.vData.length) (i : Nat) (vKey : List UInt8) :
    ∃ n, f.hash i vKey = some n ∧ n >>> 3 < f.vData.length := by
  refine ⟨_, if_neg (by omega), ?_⟩
  rw [Nat.shiftRight_eq_div_pow]
  have hmod := Nat.mod_lt (murmurHash3 (UInt32.ofNat i * 0xFBA4C795 + f.nTweak) vKey).toNat
    (show 0 < f.vData.length * 8 by omega)
  omega

/-! ### insert and contains -/

theorem insertLoop_spec (hlen : 0 < f.vData.length) (is : List Nat) {vData : List UInt8}
    (h : vData.length = f.vData.length) :
    ∃ vData', f.insertLoop vKey is vData = some vData' ∧ vData'.length = f.vData.length ∧
      bits vData ⊆ bits vData' ∧ ∀ i ∈ is, ∀ n, f.hash i vKey = some n → n ∈ bits vData' := by
  induction is generalizing vData with
  | nil => exact ⟨vData, rfl, h, subset_rfl, by simp⟩
  | cons i is ih =>
    obtain ⟨n, hn, hinside⟩ := exists_hash hlen i vKey
    have hbyte : n >>> 3 < vData.length := by rwa [h]
    obtain ⟨vData₁, hset, hlen₁, hbit, hgrow₁⟩ := setBit_spec hbyte
    obtain ⟨vData', hloop, hlen', hgrow, hall⟩ := ih (hlen₁.trans h)
    refine ⟨vData', ?_, hlen', hgrow₁.trans hgrow, ?_⟩
    · rw [insertLoop, hn, Option.bind_eq_bind, Option.bind_some, hset]
      exact hloop
    · intro j hj m hm
      rcases List.mem_cons.mp hj with rfl | hj
      · cases hn.symm.trans hm
        exact hgrow hbit
      · exact hall j hj m hm

/-- **`insert`** sets the positions of a key. -/
theorem insert_spec (hvalid : Valid f) (vKey : List UInt8) :
    ∃ f', f.insert vKey = some f' ∧ Grows f f' ∧ f'.Has vKey := by
  cases hfull : f.isFull with
  | true => exact ⟨f, if_pos hfull, Grows.refl f, .inl hfull⟩
  | false =>
    obtain ⟨vData', hloop, hlen, hgrow, hall⟩ :=
      @insertLoop_spec f vKey (hvalid hfull) (List.range f.nHashFuncs) f.vData rfl
    have hgrows : Grows f { f with vData := vData', isEmpty := false } :=
      ⟨hlen, rfl, rfl, rfl, rfl, fun _ => rfl, hgrow⟩
    refine ⟨{ f with vData := vData', isEmpty := false }, ?_, hgrows, .inr ⟨rfl, ?_⟩⟩
    · rw [insert, hfull, hloop]
      rfl
    · have hmarks : mark f.positions (bits f.vData) vKey ⊆ bits vData' := by
        refine Set.union_subset hgrow ?_
        rintro n ⟨i, hi, hn⟩
        exact hall i (List.mem_range.mpr hi) n hn
      rw [hgrows.positions_eq]
      exact holds_mark.mono hmarks

theorem containsLoop_spec (hlen : 0 < f.vData.length) (vKey : List UInt8) (is : List Nat) :
    ∃ b, f.containsLoop vKey is = some b ∧
      (b = true ↔ ∀ i ∈ is, ∀ n, f.hash i vKey = some n → n ∈ bits f.vData) := by
  induction is with
  | nil => exact ⟨true, rfl, by simp⟩
  | cons i is ih =>
    obtain ⟨n, hn, hinside⟩ := exists_hash hlen i vKey
    obtain ⟨b, hloop, hall⟩ := ih
    have hcheck : ∃ c, checkBit f.vData n = some c := by
      rw [checkBit, List.getElem?_eq_getElem hinside]
      exact ⟨_, rfl⟩
    obtain ⟨c, hc⟩ := hcheck
    have hbit : n ∈ bits f.vData ↔ c = true := by
      unfold bits
      rw [Set.mem_ofPred_eq, hc, Option.some.injEq]
    rw [containsLoop, hn, Option.bind_eq_bind, Option.bind_some, hc]
    cases c with
    | false =>
      refine ⟨false, rfl, ?_⟩
      simp [hn, hbit]
    | true =>
      refine ⟨b, hloop, ?_⟩
      rw [hall, List.forall_mem_cons]
      simp [hn, hbit]

/-- **`contains`** looks at the positions of a key. -/
theorem contains_spec (hvalid : Valid f) (vKey : List UInt8) :
    ∃ b, f.contains vKey = some b ∧ (b = true ↔ f.Has vKey) := by
  unfold contains Has
  cases hfull : f.isFull with
  | true => exact ⟨true, if_pos rfl, by simp⟩
  | false =>
    cases hempty : f.isEmpty with
    | true => exact ⟨false, rfl, by simp⟩
    | false =>
      obtain ⟨b, hloop, hall⟩ := containsLoop_spec (hvalid hfull) vKey (List.range f.nHashFuncs)
      refine ⟨b, hloop, ?_⟩
      rw [hall]
      simp only [Bool.false_eq_true, false_or, true_and, List.mem_range]
      constructor
      · rintro h n ⟨i, hi, hn⟩
        exact h i hi n hn
      · intro h i hi n hn
        exact h ⟨i, hi, hn⟩

theorem contains_of_has (hvalid : Valid f) (h : f.Has vKey) : f.contains vKey = some true := by
  obtain ⟨b, hcontains, hiff⟩ := contains_spec hvalid vKey
  rw [hcontains, hiff.mpr h]

/-! ### Transactions -/

/-- The data of the instructions up to the end, or to one that is not decoded. -/
def dataLoop : Nat → CScript → List Valtype
  | 0, _ => []
  | fuel + 1, pc =>
    match getOp pc with
    | none => []
    | some (_, data, pc) => data :: dataLoop fuel pc

def dataElements (script : CScript) : List Valtype := dataLoop script.length script

/-- A data element of a script, not an empty one, has a property. -/
def HasData (P : Valtype → Prop) (script : CScript) : Prop := ∃ data ∈ dataElements script, data ≠ [] ∧ P data

theorem matchLoop_spec (hvalid : Valid f) (fuel : Nat) (pc : CScript) :
    ∃ b, f.matchLoop fuel pc = some b ∧ (b = true ↔ ∃ data ∈ dataLoop fuel pc, data ≠ [] ∧ f.Has data) := by
  induction fuel generalizing pc with
  | zero => exact ⟨false, rfl, by simp [dataLoop]⟩
  | succ fuel ih =>
    rw [matchLoop, dataLoop]
    cases hop : getOp pc with
    | none => exact ⟨false, rfl, by simp⟩
    | some instruction =>
      obtain ⟨opcode, data, rest⟩ := instruction
      obtain ⟨b, hloop, hall⟩ := ih rest
      obtain ⟨c, hcontains, hhas⟩ := contains_spec hvalid data
      simp only [List.mem_cons, exists_eq_or_imp, ← hhas, ← hall, hcontains]
      by_cases hnil : data = []
      · exact ⟨b, by simp [hnil, hloop], by simp [hnil]⟩
      · cases c with
        | false => exact ⟨b, by simp [hnil, hloop], by simp⟩
        | true => exact ⟨true, by simp [hnil], by simp [hnil]⟩

theorem scriptMatches_spec (hvalid : Valid f) (script : CScript) :
    ∃ b, f.scriptMatches script = some b ∧ (b = true ↔ HasData f.Has script) :=
  matchLoop_spec hvalid _ _

/-- The outputs that are matched by data, and whether their outpoints are inserted. -/
def outputLog (hash : Uint256) : Nat → List CTxOut → CBloomFilter → List (COutPoint × Bool)
  | _, [], _ => []
  | i, txout :: vout, f =>
    if f.scriptMatches txout.scriptPubKey = some true then
      if f.updatesFor txout.scriptPubKey then
        (⟨hash, i⟩, true) :: outputLog hash (i + 1) vout
          ((f.insert (COutPoint.serialize ⟨hash, i⟩)).getD f)
      else (⟨hash, i⟩, false) :: outputLog hash (i + 1) vout f
    else outputLog hash (i + 1) vout f

/-- **The loop over the outputs**: matched outputs are inserted, and a match is found. -/
theorem scanOutputs_spec (hash : Uint256) (vout : List CTxOut) (i : Nat) (hvalid : Valid f) (fFound : Bool) :
    ∃ f' found, scanOutputs hash i vout f fFound = some (f', found) ∧ Grows f f' ∧
      (∀ p ∈ outputLog hash i vout f, p.2 = true → f'.Has p.1.serialize) ∧
      (fFound = true ∨ (∃ txout ∈ vout, HasData f.Has txout.scriptPubKey) → found = true) := by
  induction vout generalizing i f fFound with
  | nil => exact ⟨f, fFound, rfl, Grows.refl f, by simp [outputLog], by simp⟩
  | cons txout vout ih =>
    obtain ⟨b, hmatch, hdata⟩ := scriptMatches_spec hvalid txout.scriptPubKey
    cases b with
    | false =>
      obtain ⟨f', found, hscan, hgrow, hlog, hfound⟩ := ih (i + 1) hvalid fFound
      refine ⟨f', found, by simpa [scanOutputs, hmatch] using hscan, hgrow,
        by simpa [outputLog, hmatch] using hlog, ?_⟩
      rintro (htrue | ⟨txout', hmem, hhas⟩)
      · exact hfound (.inl htrue)
      · rcases List.mem_cons.mp hmem with rfl | hmem
        · cases hdata.mpr hhas
        · exact hfound (.inr ⟨txout', hmem, hhas⟩)
    | true =>
      cases hupdate : f.updatesFor txout.scriptPubKey with
      | true =>
        obtain ⟨f₁, hinsert, hgrow₁, hhas₁⟩ := insert_spec hvalid (COutPoint.serialize ⟨hash, i⟩)
        obtain ⟨f', found, hscan, hgrow, hlog, hfound⟩ := ih (i + 1) (hgrow₁.valid hvalid) true
        refine ⟨f', found, by simpa [scanOutputs, hmatch, hupdate, hinsert] using hscan,
          hgrow₁.trans hgrow, ?_, fun _ => hfound (.inl rfl)⟩
        simp only [outputLog, hmatch, hupdate, hinsert, if_true, Option.getD_some]
        exact List.forall_mem_cons.mpr ⟨fun _ => hgrow.has hhas₁, hlog⟩
      | false =>
        obtain ⟨f', found, hscan, hgrow, hlog, hfound⟩ := ih (i + 1) hvalid true
        refine ⟨f', found, by simpa [scanOutputs, hmatch, hupdate] using hscan, hgrow, ?_,
          fun _ => hfound (.inl rfl)⟩
        simp only [outputLog, hmatch, hupdate, if_true, Bool.false_eq_true, if_false]
        exact List.forall_mem_cons.mpr ⟨fun h => absurd h (by simp), hlog⟩

/-- An input spends an outpoint with a property, or has data with it. -/
def InputHas (P : Valtype → Prop) (txin : CTxIn) : Prop :=
  P txin.prevout.serialize ∨ HasData P txin.scriptSig

theorem scanInputs_spec (hvalid : Valid f) (vin : List CTxIn) :
    ∃ b, f.scanInputs vin = some b ∧ (b = true ↔ ∃ txin ∈ vin, InputHas f.Has txin) := by
  induction vin with
  | nil => exact ⟨false, rfl, by simp⟩
  | cons txin vin ih =>
    obtain ⟨b, hscan, hall⟩ := ih
    obtain ⟨c, hcontains, hprevout⟩ := contains_spec hvalid txin.prevout.serialize
    obtain ⟨d, hmatch, hdata⟩ := scriptMatches_spec hvalid txin.scriptSig
    rw [scanInputs, hcontains, hmatch]
    simp only [List.mem_cons, exists_eq_or_imp, ← hall]
    simp only [InputHas, ← hprevout, ← hdata]
    cases c with
    | true => exact ⟨true, rfl, by simp⟩
    | false =>
      cases d with
      | true => exact ⟨true, rfl, by simp⟩
      | false => exact ⟨b, hscan, by simp⟩

/-- A transaction has a hash, data in an output, or an input with a property. -/
def Mentions (P : Valtype → Prop) (tx : CTransaction) (hash : Uint256) : Prop :=
  P (littleEndian 32 hash) ∨ (∃ txout ∈ tx.vout, HasData P txout.scriptPubKey) ∨
    ∃ txin ∈ tx.vin, InputHas P txin

theorem HasData.imp {P Q : Valtype → Prop} (h : ∀ v, P v → Q v) {script : CScript} (hdata : HasData P script) :
    HasData Q script := by
  obtain ⟨data, hmem, hne, hP⟩ := hdata
  exact ⟨data, hmem, hne, h data hP⟩

theorem Mentions.imp {P Q : Valtype → Prop} (h : ∀ v, P v → Q v) {tx : CTransaction} {hash : Uint256}
    (hm : Mentions P tx hash) : Mentions Q tx hash := by
  rcases hm with hhash | ⟨txout, hmem, hdata⟩ | ⟨txin, hmem, hin⟩
  · exact .inl (h _ hhash)
  · exact .inr (.inl ⟨txout, hmem, hdata.imp h⟩)
  · exact .inr (.inr ⟨txin, hmem, hin.imp (h _) (HasData.imp h)⟩)

def matchedOutputs (f : CBloomFilter) (tx : CTransaction) (hash : Uint256) : List (COutPoint × Bool) :=
  if f.isFull || f.isEmpty then [] else outputLog hash 0 tx.vout f

/-- **`IsRelevantAndUpdate`** finds what is in the filter, and inserts what it says. -/
theorem isRelevantAndUpdate_spec (hvalid : Valid f) (tx : CTransaction) (hash : Uint256) :
    ∃ f' r, f.isRelevantAndUpdate tx hash = some (f', r) ∧ Grows f f' ∧
      (∀ p ∈ f.matchedOutputs tx hash, p.2 = true → f'.Has p.1.serialize) ∧
      (Mentions f.Has tx hash → r = true) := by
  unfold isRelevantAndUpdate matchedOutputs
  cases hfull : f.isFull with
  | true => exact ⟨f, true, if_pos rfl, Grows.refl f, by simp, fun _ => rfl⟩
  | false =>
    cases hempty : f.isEmpty with
    | true =>
      refine ⟨f, false, rfl, Grows.refl f, by simp, fun hm => ?_⟩
      have hnone : ∀ v, f.Has v → False := by
        rintro v (h | ⟨h, -⟩)
        · rw [hfull] at h
          cases h
        · rw [hempty] at h
          cases h
      rcases hm.imp hnone with h | ⟨_, _, _, _, _, h⟩ | ⟨_, _, h | ⟨_, _, _, h⟩⟩
      all_goals exact h.elim
    | false =>
      obtain ⟨b, hcontains, hhash⟩ := contains_spec hvalid (littleEndian 32 hash)
      obtain ⟨f', found, hscan, hgrow, hlog, hfound⟩ := scanOutputs_spec hash tx.vout 0 hvalid b
      obtain ⟨c, hinputs, hall⟩ := scanInputs_spec (hgrow.valid hvalid) tx.vin
      cases found with
      | true =>
        refine ⟨f', true, ?_, hgrow, by simpa using hlog, fun _ => rfl⟩
        simp [hcontains, hscan]
      | false =>
        refine ⟨f', c, ?_, hgrow, by simpa using hlog, ?_⟩
        · simp [hcontains, hscan, hinputs]
        · rintro (h | h | ⟨txin, hmem, hin⟩)
          · cases hfound (.inl (hhash.mpr h))
          · cases hfound (.inr h)
          · refine hall.mpr ⟨txin, hmem, hin.imp (fun h => hgrow.has h) ?_⟩
            exact HasData.imp fun v h => hgrow.has h

end CBloomFilter

/-! ### Runs -/

open CBloomFilter

/-- **What happens to a loaded filter**: the keys that were inserted, and the outputs that were matched by
data. -/
inductive FilterRun (f₀ : CBloomFilter) : CBloomFilter → List Valtype → List COutPoint → Prop
  | loaded : FilterRun f₀ f₀ [] []
  | filterAdd {f f' : CBloomFilter} {keys : List Valtype} {outs : List COutPoint} {vData : List UInt8} :
      FilterRun f₀ f keys outs → filterAdd f vData = some f' →
      FilterRun f₀ f' (if vData.length > MAX_SCRIPT_ELEMENT_SIZE then keys else vData :: keys) outs
  | relevant {f f' : CBloomFilter} {keys : List Valtype} {outs : List COutPoint} {tx : CTransaction}
      {hash : Uint256} {r : Bool} :
      FilterRun f₀ f keys outs → f.isRelevantAndUpdate tx hash = some (f', r) →
      FilterRun f₀ f' (((f.matchedOutputs tx hash).filter (·.2)).map (·.1.serialize) ++ keys)
        ((f.matchedOutputs tx hash).map (·.1) ++ outs)

/-- What holds in every run. -/
structure RunInvariant (f₀ f : CBloomFilter) (keys : List Valtype) (outs : List COutPoint) : Prop where
  valid : Valid f
  flags : f.nFlags = f₀.nFlags
  keys : ∀ vKey ∈ keys, f.Has vKey
  outs : f₀.nFlags &&& BLOOM_UPDATE_MASK = BLOOM_UPDATE_ALL → ∀ o ∈ outs, f.Has o.serialize

theorem valid_filterLoad {vData : List UInt8} {nHashFuncs : Nat} {nTweak : UInt32} {nFlags : UInt8}
    {f : CBloomFilter} (h : filterLoad vData nHashFuncs nTweak nFlags = some f) : Valid f := by
  unfold filterLoad at h
  dsimp only at h
  split at h
  · cases h
    intro hfull
    cases vData with
    | nil => cases hfull
    | cons b vData => exact Nat.succ_pos _
  · cases h

theorem filterAdd_spec {f : CBloomFilter} (hvalid : Valid f) (vData : List UInt8) :
    ∃ f', filterAdd f vData = some f' ∧ Grows f f' ∧
      (¬ vData.length > MAX_SCRIPT_ELEMENT_SIZE → f'.Has vData) := by
  unfold filterAdd
  split
  · exact ⟨f, rfl, Grows.refl f, fun h => absurd ‹_› h⟩
  · obtain ⟨f', hinsert, hgrow, hhas⟩ := insert_spec hvalid vData
    exact ⟨f', hinsert, hgrow, fun _ => hhas⟩

/-- With `BLOOM_UPDATE_ALL` every output that is matched is inserted. -/
theorem outputLog_all {f : CBloomFilter} (h : f.nFlags &&& BLOOM_UPDATE_MASK = BLOOM_UPDATE_ALL)
    (hvalid : Valid f) (hash : Uint256) (vout : List CTxOut) (i : Nat) :
    ∀ p ∈ outputLog hash i vout f, p.2 = true := by
  induction vout generalizing i f with
  | nil => simp [outputLog]
  | cons txout vout ih =>
    have hupdate : f.updatesFor txout.scriptPubKey = true := by rw [updatesFor, if_pos h]
    rw [outputLog, if_pos hupdate]
    split
    · obtain ⟨f₁, hinsert, hgrow, -⟩ := insert_spec hvalid (COutPoint.serialize ⟨hash, i⟩)
      rw [hinsert, Option.getD_some]
      refine List.forall_mem_cons.mpr ⟨rfl, ih ?_ (hgrow.valid hvalid) (i + 1)⟩
      rw [hgrow.nFlags]
      exact h
    · exact ih h hvalid (i + 1)

/-- **The invariant of a run.** -/
theorem FilterRun.invariant {f₀ f : CBloomFilter} {keys : List Valtype} {outs : List COutPoint}
    (hvalid : Valid f₀) (h : FilterRun f₀ f keys outs) : RunInvariant f₀ f keys outs := by
  induction h with
  | loaded => exact ⟨hvalid, rfl, by simp, by simp⟩
  | @filterAdd f f' keys outs vData _ hadd ih =>
    obtain ⟨f₁, hadd₁, hgrow, hhas⟩ := filterAdd_spec ih.valid vData
    cases hadd.symm.trans hadd₁
    refine ⟨hgrow.valid ih.valid, hgrow.nFlags.trans ih.flags, ?_, fun hall o ho => hgrow.has (ih.outs hall o ho)⟩
    intro vKey hkey
    split at hkey
    · exact hgrow.has (ih.keys vKey hkey)
    · next hsize =>
      rcases List.mem_cons.mp hkey with rfl | hkey
      · exact hhas hsize
      · exact hgrow.has (ih.keys vKey hkey)
  | @relevant f f' keys outs tx hash r _ hcall ih =>
    obtain ⟨f₁, r₁, hcall₁, hgrow, hlog, -⟩ := isRelevantAndUpdate_spec ih.valid tx hash
    cases hcall.symm.trans hcall₁
    refine ⟨hgrow.valid ih.valid, hgrow.nFlags.trans ih.flags, ?_, ?_⟩
    · intro vKey hkey
      rcases List.mem_append.mp hkey with hnew | hold
      · obtain ⟨p, hp, rfl⟩ := List.mem_map.mp hnew
        obtain ⟨hmem, hinserted⟩ := List.mem_filter.mp hp
        exact hlog p hmem hinserted
      · exact hgrow.has (ih.keys vKey hold)
    · intro hall o ho
      rcases List.mem_append.mp ho with hnew | hold
      · obtain ⟨p, hp, rfl⟩ := List.mem_map.mp hnew
        refine hlog p hp ?_
        have hp' := hp
        unfold matchedOutputs at hp'
        split at hp'
        · cases hp'
        · exact outputLog_all (ih.flags ▸ hall) ih.valid hash tx.vout 0 p hp'
      · exact hgrow.has (ih.outs hall o hold)

/-- **No false negatives.** No index is out of range, what was inserted is contained, and a transaction that
mentions it is relevant; with `BLOOM_UPDATE_ALL` also one that spends an output that was matched by data. -/
structure NoFalseNegatives (f : CBloomFilter) (keys : List Valtype) (outs : List COutPoint) : Prop where
  addDefined : ∀ vData, ∃ f', filterAdd f vData = some f'
  containsDefined : ∀ vKey, ∃ b, f.contains vKey = some b
  relevantDefined : ∀ tx hash, ∃ f' r, f.isRelevantAndUpdate tx hash = some (f', r)
  contained : ∀ vKey ∈ keys, f.contains vKey = some true
  relevant : ∀ tx hash, Mentions (· ∈ keys) tx hash → ∃ f', f.isRelevantAndUpdate tx hash = some (f', true)
  spends : f.nFlags &&& BLOOM_UPDATE_MASK = BLOOM_UPDATE_ALL → ∀ tx hash, (∃ txin ∈ tx.vin, txin.prevout ∈ outs) →
    ∃ f', f.isRelevantAndUpdate tx hash = some (f', true)

theorem noFalseNegatives {vData : List UInt8} {nHashFuncs : Nat} {nTweak : UInt32} {nFlags : UInt8}
    {f₀ f : CBloomFilter} {keys : List Valtype} {outs : List COutPoint}
    (hload : filterLoad vData nHashFuncs nTweak nFlags = some f₀) (hrun : FilterRun f₀ f keys outs) :
    NoFalseNegatives f keys outs := by
  have hinv := hrun.invariant (valid_filterLoad hload)
  have hrelevant : ∀ tx hash, Mentions f.Has tx hash → ∃ f', f.isRelevantAndUpdate tx hash = some (f', true) := by
    intro tx hash hmentions
    obtain ⟨f', r, hcall, -, -, hfound⟩ := isRelevantAndUpdate_spec hinv.valid tx hash
    rw [hfound hmentions] at hcall
    exact ⟨f', hcall⟩
  refine ⟨fun vData => ?_, fun vKey => ?_, fun tx hash => ?_, fun vKey hkey => ?_, ?_, ?_⟩
  · obtain ⟨f', hadd, -⟩ := filterAdd_spec hinv.valid vData
    exact ⟨f', hadd⟩
  · obtain ⟨b, hcontains, -⟩ := contains_spec hinv.valid vKey
    exact ⟨b, hcontains⟩
  · obtain ⟨f', r, hcall, -⟩ := isRelevantAndUpdate_spec hinv.valid tx hash
    exact ⟨f', r, hcall⟩
  · exact contains_of_has hinv.valid (hinv.keys vKey hkey)
  · exact fun tx hash hmentions => hrelevant tx hash (hmentions.imp hinv.keys)
  · rintro hall tx hash ⟨txin, hmem, hout⟩
    exact hrelevant tx hash (.inr (.inr ⟨txin, hmem, .inl (hinv.outs (hinv.flags ▸ hall) _ hout)⟩))

/-- A key of two bytes is inserted, an output with it is matched, and its outpoint is inserted too. -/
theorem noFalseNegatives_sample : ∃ f₀ f keys outs, filterLoad [0, 0] 2 0 BLOOM_UPDATE_ALL = some f₀ ∧
    FilterRun f₀ f keys outs ∧ [7, 9] ∈ keys ∧ ⟨5, 0⟩ ∈ outs ∧ NoFalseNegatives f keys outs := by
  let f₀ : CBloomFilter := ⟨[0, 0], false, true, 2, 0, 1⟩
  let f₁ : CBloomFilter := ⟨[32, 1], false, false, 2, 0, 1⟩
  let f₂ : CBloomFilter := ⟨[32, 33], false, false, 2, 0, 1⟩
  let tx : CTransaction := ⟨1, 0, [], [⟨5, [2, 7, 9]⟩], 0⟩
  have hload : filterLoad [0, 0] 2 0 BLOOM_UPDATE_ALL = some f₀ := by decide +kernel
  have hadd : filterAdd f₀ [7, 9] = some f₁ := by decide +kernel
  have hcall : f₁.isRelevantAndUpdate tx 5 = some (f₂, true) := by decide +kernel
  have hlog : f₁.matchedOutputs tx 5 = [(⟨5, 0⟩, true)] := by decide +kernel
  have hrun := (FilterRun.loaded.filterAdd hadd).relevant hcall
  refine ⟨f₀, f₂, _, _, hload, hrun, ?_, ?_, noFalseNegatives hload hrun⟩
  · rw [hlog]
    exact List.mem_append_right _ List.mem_cons_self
  · rw [hlog]
    exact List.mem_cons_self

/-- Empty data was inserted and is in an input, which is not looked for. -/
theorem not_forall_relevant : ¬ ∀ (vData : List UInt8) (nHashFuncs : Nat) (nTweak : UInt32) (nFlags : UInt8)
    (f₀ f : CBloomFilter) (keys : List Valtype) (outs : List COutPoint),
    filterLoad vData nHashFuncs nTweak nFlags = some f₀ → FilterRun f₀ f keys outs →
    ∀ tx hash, (∃ txin ∈ tx.vin, ∃ data ∈ dataElements txin.scriptSig, data ∈ keys) →
      ∃ f', f.isRelevantAndUpdate tx hash = some (f', true) := by
  intro h
  let f₀ : CBloomFilter := ⟨[0, 0, 0, 0, 0, 0, 0, 0], false, true, 1, 0, 1⟩
  let f : CBloomFilter := ⟨[1, 0, 0, 0, 0, 0, 0, 0], false, false, 1, 0, 1⟩
  let tx : CTransaction := ⟨1, 0, [⟨⟨1, 0⟩, [0], 0⟩], [], 0⟩
  have hload : filterLoad [0, 0, 0, 0, 0, 0, 0, 0] 1 0 1 = some f₀ := by decide +kernel
  have hadd : filterAdd f₀ [] = some f := by decide +kernel
  have hcall : f.isRelevantAndUpdate tx 5 = some (f, false) := by decide +kernel
  have hdata : ∃ txin ∈ tx.vin, ∃ data ∈ dataElements txin.scriptSig, data ∈ [([] : Valtype)] := by decide +kernel
  obtain ⟨f', hrelevant⟩ := h _ _ _ _ f₀ f _ _ hload (FilterRun.loaded.filterAdd hadd) tx 5 hdata
  cases hcall.symm.trans hrelevant

end Manna
