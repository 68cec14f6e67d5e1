import Mathlib.Algebra.BigOperators.Ring.List
import Manna.BlockCodec
import Manna.CoinsCodec
import Manna.StakeCoins

/-!
The undo data of a block on disk (`undo.h`: `TxInUndo`, `TxInUndoStake`, `CTxUndo`, `CBlockUndo`).

A record holds the output spent and, when it was the last one of its transaction, the metadata of
the transaction: its height with the flags, and its version where there is a height.
`CBlockUndo` is a vector of `CTxUndo`, each a vector of records. A size is an `unsigned int`.

* `CTxInUndo.reads_serialize`: what is read back of a record; a version below zero is not;
* `TxInUndoStake.getSerializeSize_eq`: the time is counted and not written;
* `undo_roundTrips_iff`: when the undo data of a block is read back.
-/

namespace Manna

open Codec

namespace CTxInUndo

/-- `nHeight*2+(fCoinBase ? 1 : 0)`. -/
def code (undo : CTxInUndo) : Nat :=
  ((undo.nHeight * 2 + if undo.fCoinBase then 1 else 0) % 2 ^ 32).toNat

def getSerializeSize (keys : PubKeyOps) (undo : CTxInUndo) : Nat :=
  sumSizes 0 [getSizeOfVarInt undo.code,
    if 0 < undo.nHeight then getSizeOfVarInt undo.nVersion else 0,
    CTxOutCompressor.getSerializeSize keys undo.txout]

def serialize (keys : PubKeyOps) (undo : CTxInUndo) : List UInt8 :=
  writeVarInt undo.code ++ ((if 0 < undo.nHeight then writeVarInt undo.nVersion else []) ++
    CTxOutCompressor.serialize keys undo.txout)

/-- `TxInUndo::Unserialize` into `TxInUndo()`. -/
def unserialize (keys : PubKeyOps) : Reader CTxInUndo := do
  let nCode ← readVarInt 32
  let nHeight := nCode / 2
  let fCoinBase := nCode.testBit 0
  let nVersion ← readIf (decide (0 < nHeight)) readVarIntSigned 0
  let txout ← CTxOutCompressor.unserialize keys CTxOut.null
  return ⟨txout, fCoinBase, nHeight, nVersion⟩

end CTxInUndo

namespace TxInUndoStake

/-- `nHeight*4+(fCoinBase ? 1 : 0)+(fCoinStake ? 2 : 0)`. -/
def code (undo : TxInUndoStake) : Nat :=
  ((undo.nHeight * 4 + (if undo.fCoinBase then 1 else 0) +
    if undo.fCoinStake then 2 else 0) % 2 ^ 32).toNat

def getSerializeSize (keys : PubKeyOps) (undo : TxInUndoStake) : Nat :=
  sumSizes 0 [getSizeOfVarInt undo.code, getSizeOfVarInt undo.nTime,
    if 0 < undo.nHeight then getSizeOfVarInt undo.nVersion else 0,
    CTxOutCompressor.getSerializeSize keys undo.txout]

def serialize (keys : PubKeyOps) (undo : TxInUndoStake) : List UInt8 :=
  writeVarInt undo.code ++ ((if 0 < undo.nHeight then writeVarInt undo.nVersion else []) ++
    CTxOutCompressor.serialize keys undo.txout)

/-- `TxInUndoStake::Unserialize` into `TxInUndoStake()`. The time is read. -/
def unserialize (keys : PubKeyOps) : Reader TxInUndoStake := do
  let nCode ← readVarInt 32
  let fCoinBase := nCode.testBit 0
  let fCoinStake := nCode.testBit 1
  let nTime ← readVarInt 32
  let nHeight := nCode / 4
  let nVersion ← readIf (decide (0 < nHeight)) readVarIntSigned 0
  let txout ← CTxOutCompressor.unserialize keys CTxOut.null
  return ⟨⟨txout, fCoinBase, nHeight, nVersion⟩, fCoinStake, nTime⟩

end TxInUndoStake

/-! ### Reading a record back -/

/-- The record of an output that can be in the chain. -/
structure CTxInUndo.InRange (undo : CTxInUndo) : Prop where
  height : 0 ≤ undo.nHeight ∧ undo.nHeight < 2 ^ 31
  version : -2 ^ 31 ≤ undo.nVersion ∧ undo.nVersion < 2 ^ 31
  value : moneyRange undo.txout.nValue = true
  script : undo.txout.scriptPubKey.length + 14 < 2 ^ 32

/-- What is read of a version: the low seven bits where it is below zero. -/
def readBackVersion (nVersion : Int) : Int := if nVersion < 0 then nVersion % 128 else nVersion

def CTxInUndo.readBack (undo : CTxInUndo) : CTxInUndo :=
  { undo with nVersion := if 0 < undo.nHeight then readBackVersion undo.nVersion else 0 }

theorem reads_writeVarInt_version {nVersion : Int} (h : nVersion < 2 ^ 31) :
    Reads readVarIntSigned (writeVarInt nVersion) (readBackVersion nVersion) := by
  rw [readBackVersion]
  split
  · rename_i hneg
    have hlow : 0 ≤ nVersion % 128 ∧ nVersion % 128 < 128 := by omega
    -- A number below zero is written as its lowest seven bits.
    have hone : ∀ n : Int, n ≤ 0x7F → writeVarInt n = [varIntByte false n] := by
      intro n hn
      rw [writeVarInt, varIntBytes, if_pos hn]
    have hbytes : writeVarInt nVersion = writeVarInt (nVersion % 128) := by
      rw [hone _ (by omega), hone _ (by omega), varIntByte, varIntByte,
        Int.emod_emod_of_dvd _ (Int.dvd_refl 128)]
    rw [hbytes]
    exact reads_writeVarInt_signed hlow.1 (by omega)
  · rename_i hnonneg
    exact reads_writeVarInt_signed (Int.not_lt.mp hnonneg) h

variable {undo : CTxInUndo}

/-- **What is read back of a record.** -/
theorem CTxInUndo.reads_serialize {keys : PubKeyOps} (hkeys : keys.Lawful)
    (h : undo.InRange) : Reads (unserialize keys) (undo.serialize keys) undo.readBack := by
  obtain ⟨hnonneg, hlt⟩ := h.height
  have hcode : (undo.code : Int) = undo.nHeight * 2 + if undo.fCoinBase then 1 else 0 := by
    rw [code]
    split <;> omega
  have hhalf : ((undo.code / 2 : Nat) : Int) = undo.nHeight := by
    split at hcode <;> omega
  have hbit : undo.code.testBit 0 = undo.fCoinBase := by
    rw [Nat.testBit_zero]
    cases hbase : undo.fCoinBase with
    | false =>
      rw [hbase] at hcode
      simp only [Bool.false_eq_true, if_false] at hcode
      exact decide_eq_false (by omega)
    | true =>
      rw [hbase] at hcode
      simp only [if_true] at hcode
      exact decide_eq_true (by omega)
  have hread : Reads (readVarInt 32) (writeVarInt undo.code) undo.code := by
    have hword := reads_writeVarInt (w := 32) (n := undo.code) (Int.natCast_nonneg _)
      (by split at hcode <;> omega)
    exact hword
  have hheight : decide (0 < undo.code / 2) = decide (0 < undo.nHeight) := by
    rw [decide_eq_decide]
    omega
  have hversion := (reads_writeVarInt_version h.version.2).readIf (b := decide (0 < undo.nHeight))
    (d := 0)
  have htxout := CTxOutCompressor.reads_serialize hkeys h.value
    (by have hsix : CScriptCompressor.nSpecialScripts = 6 := rfl
        have hscript := h.script
        omega) CTxOut.null
  rw [← hheight] at hversion
  have htail := hversion.bind (q := fun nVersion => CTxOutCompressor.unserialize keys CTxOut.null >>=
    fun txout => pure (CTxInUndo.mk txout (undo.code.testBit 0) (undo.code / 2 : Nat) nVersion))
    htxout.map
  have hall := hread.bind (q := fun nCode => readIf (decide (0 < nCode / 2)) readVarIntSigned 0 >>=
    fun nVersion => CTxOutCompressor.unserialize keys CTxOut.null >>= fun txout =>
      pure (CTxInUndo.mk txout (nCode.testBit 0) (nCode / 2 : Nat) nVersion)) htail
  simp only [hheight, decide_eq_true_eq, hbit, hhalf] at hall
  exact hall

theorem CTxInUndo.getSerializeSize_eq (keys : PubKeyOps) (h : undo.InRange) :
    undo.getSerializeSize keys = (undo.serialize keys).length % uintMod := by
  rw [getSerializeSize, sumSizes_eq (Nat.two_pow_pos 32), serialize, List.length_append,
    List.length_append, length_writeVarInt, CTxOutCompressor.length_serialize h.value h.script]
  refine congrArg (· % uintMod) ?_
  simp only [List.sum_cons, List.sum_nil, Nat.zero_add, Nat.add_zero]
  split
  · rw [length_writeVarInt]
  · rfl

/-- **The size of a stake record counts a time that is not written.** -/
theorem TxInUndoStake.getSerializeSize_eq {undo : TxInUndoStake} (keys : PubKeyOps)
    (h : undo.toCTxInUndo.InRange) :
    undo.getSerializeSize keys =
      (undo.serialize keys ++ writeVarInt undo.nTime).length % uintMod := by
  rw [getSerializeSize, sumSizes_eq (Nat.two_pow_pos 32), List.length_append, serialize,
    List.length_append, List.length_append, length_writeVarInt, length_writeVarInt,
    CTxOutCompressor.length_serialize h.value h.script]
  refine congrArg (· % uintMod) ?_
  simp only [List.sum_cons, List.sum_nil, Nat.zero_add, Nat.add_zero]
  split
  · rw [length_writeVarInt]
    omega
  · rw [List.length_nil]
    omega

/-! ### The undo data of a block -/

section Block

variable {R : Type}

/-- The undo data of a block is read back from its bytes, and sized by their number: `CBlockUndo`
as a vector of vectors of records. -/
def UndoRoundTrips (size : R → Nat) (write : R → List UInt8) (read : Reader R)
    (blockundo : List (List R)) : Prop :=
  Reads (readVector (readVector read)) (writeVector (writeVector write) blockundo) blockundo ∧
    getSerializeSizeVector (getSerializeSizeVector size) blockundo =
      (writeVector (writeVector write) blockundo).length

/-- No vector is longer than is read back. -/
def UndoSized (blockundo : List (List R)) : Prop :=
  blockundo.length ≤ MAX_SIZE ∧ ∀ txundo ∈ blockundo, txundo.length ≤ MAX_SIZE

/-- The lengths are values of their type. -/
def UndoLengths (blockundo : List (List R)) : Prop :=
  blockundo.length < 2 ^ 64 ∧ ∀ txundo ∈ blockundo, txundo.length < 2 ^ 64

/-- A property of every record. -/
def EachRecord (p : R → Prop) (blockundo : List (List R)) : Prop :=
  ∀ txundo ∈ blockundo, ∀ undo ∈ txundo, p undo

variable {size : R → Nat} {write : R → List UInt8} {read : Reader R} {g : R → R}
  {blockundo : List (List R)}

theorem Reads.unique {α : Type} {p : Reader α} {bytes : List UInt8} {a b : α}
    (ha : Reads p bytes a) (hb : Reads p bytes b) : a = b := by
  have heq := (ha []).symm.trans (hb [])
  exact (Prod.mk.inj (Option.some.inj heq)).1

/-- **Undo data that is read back is not too long.** -/
theorem UndoRoundTrips.sized (hwords : UndoLengths blockundo)
    (hrecord : EachRecord (fun undo => Reads read (write undo) (g undo)) blockundo)
    (h : UndoRoundTrips size write read blockundo) : UndoSized blockundo := by
  have hread := h.1 []
  have houter : blockundo.length ≤ MAX_SIZE := by
    by_contra hlong
    rw [readVector_eq_none (Nat.not_le.mp hlong) hwords.1] at hread
    cases hread
  refine ⟨houter, fun txundo hmem => ?_⟩
  by_contra hlong
  -- The vector that is too long stops the reader.
  rw [readVector_eq_none_of_mem (g := List.map g) houter] at hread
  · cases hread
  · intro txundo hmem
    rcases Nat.lt_or_ge MAX_SIZE txundo.length with hlong | hshort
    · exact .inr (readVector_eq_none hlong (hwords.2 txundo hmem))
    · exact .inl (reads_writeVector _ hshort (hrecord txundo hmem))
  · exact ⟨txundo, hmem, readVector_eq_none (Nat.not_le.mp hlong) (hwords.2 txundo hmem)⟩

theorem reads_blockundo (hsized : UndoSized blockundo)
    (hrecord : EachRecord (fun undo => Reads read (write undo) (g undo)) blockundo) :
    Reads (readVector (readVector read)) (writeVector (writeVector write) blockundo)
      (blockundo.map (List.map g)) :=
  reads_writeVector _ hsized.1 fun txundo hmem =>
    reads_writeVector _ (hsized.2 txundo hmem) (hrecord txundo hmem)

theorem blockundo_size (hsize : EachRecord (fun undo => size undo = (write undo).length % uintMod) blockundo) :
    getSerializeSizeVector (getSerializeSizeVector size) blockundo =
      (writeVector (writeVector write) blockundo).length % uintMod :=
  getSerializeSizeVector_eq fun txundo htx => getSerializeSizeVector_eq (hsize txundo htx)

/-- Records that are read as `g` of them and sized right come back where they are not too many,
`g` leaves them as they are and the size has room for their bytes. -/
theorem undoRoundTrips_iff (hwords : UndoLengths blockundo)
    (hrecord : EachRecord (fun undo => Reads read (write undo) (g undo)) blockundo)
    (hsize : EachRecord (fun undo => size undo = (write undo).length % uintMod) blockundo) :
    UndoRoundTrips size write read blockundo ↔
      UndoSized blockundo ∧ EachRecord (fun undo => g undo = undo) blockundo ∧
        (writeVector (writeVector write) blockundo).length < 2 ^ 32 := by
  have hmap : blockundo.map (List.map g) = blockundo ↔
      EachRecord (fun undo => g undo = undo) blockundo := by
    constructor
    · intro heq txundo htx undo hundo
      have houter := List.map_inj_left.mp (heq.trans (List.map_id blockundo).symm) txundo htx
      exact List.map_inj_left.mp (houter.trans (List.map_id txundo).symm) undo hundo
    · intro hid
      conv_rhs => rw [← List.map_id blockundo]
      refine List.map_congr_left fun txundo htx => ?_
      conv_rhs => rw [id, ← List.map_id txundo]
      exact List.map_congr_left (hid txundo htx)
  constructor
  · intro h
    have hsized := h.sized hwords hrecord
    refine ⟨hsized, hmap.mp (Reads.unique (reads_blockundo hsized hrecord) h.1), ?_⟩
    rw [← h.2, blockundo_size hsize]
    exact Nat.mod_lt _ (Nat.two_pow_pos 32)
  · rintro ⟨hsized, hid, hlt⟩
    have hread := reads_blockundo hsized hrecord
    rw [hmap.mpr hid] at hread
    exact ⟨hread, (blockundo_size hsize).trans (Nat.mod_eq_of_lt hlt)⟩

/-- The number of records. -/
def undoRecords (blockundo : List (List R)) : Nat := (blockundo.map List.length).sum

variable {extra : R → List UInt8}

theorem length_writeVector_append (v : List R) :
    (writeVector (fun undo => write undo ++ extra undo) v).length =
      (writeVector write v).length + (v.map fun undo => (extra undo).length).sum := by
  rw [length_writeVector, length_writeVector, vectorSize, vectorSize, Nat.add_assoc,
    ← List.sum_map_add]
  simp only [List.length_append]

theorem length_blockundo_append (blockundo : List (List R)) :
    (writeVector (writeVector fun undo => write undo ++ extra undo) blockundo).length =
      (writeVector (writeVector write) blockundo).length +
        (blockundo.map fun txundo => (txundo.map fun undo => (extra undo).length).sum).sum := by
  rw [length_writeVector, length_writeVector, vectorSize, vectorSize, Nat.add_assoc,
    ← List.sum_map_add]
  simp only [length_writeVector_append]

/-- **A size that counts bytes which are not written is right only without records**, of which
there are not so many that the size comes round. -/
theorem no_records_of_size_eq
    (hsize : EachRecord (fun undo => size undo = (write undo ++ extra undo).length % uintMod) blockundo)
    (hextra : EachRecord (fun undo => 1 ≤ (extra undo).length ∧ (extra undo).length ≤ 5) blockundo)
    (hfew : undoRecords blockundo < 2 ^ 29)
    (h : getSerializeSizeVector (getSerializeSizeVector size) blockundo =
      (writeVector (writeVector write) blockundo).length) :
    ∀ txundo ∈ blockundo, txundo = [] := by
  rw [blockundo_size hsize, length_blockundo_append] at h
  have hcount : ∀ txundo ∈ blockundo,
      txundo.length ≤ (txundo.map fun undo => (extra undo).length).sum ∧
        (txundo.map fun undo => (extra undo).length).sum ≤ txundo.length * 5 := by
    intro txundo htx
    constructor
    · have hle := List.card_nsmul_le_sum (txundo.map fun undo => (extra undo).length) 1 (by
        simp only [List.forall_mem_map]
        exact fun undo hundo => (hextra txundo htx undo hundo).1)
      simpa using hle
    · have hle := List.sum_le_card_nsmul (txundo.map fun undo => (extra undo).length) 5 (by
        simp only [List.forall_mem_map]
        exact fun undo hundo => (hextra txundo htx undo hundo).2)
      simpa using hle
  have hle : (blockundo.map fun txundo => (txundo.map fun undo => (extra undo).length).sum).sum ≤
      undoRecords blockundo * 5 := by
    have hmul := List.sum_map_mul_right blockundo (·.length) 5
    rw [undoRecords, ← hmul]
    exact List.sum_le_sum fun txundo htx => (hcount txundo htx).2
  -- What is not written comes to less than the size can hold.
  have hnone : (blockundo.map fun txundo => (txundo.map fun undo => (extra undo).length).sum).sum = 0 := by
    rw [uintMod] at h
    omega
  intro txundo htx
  have hzero := List.sum_eq_zero_iff.mp hnone _ (List.mem_map_of_mem htx)
  exact List.eq_nil_of_length_eq_zero (Nat.le_zero.mp (hzero ▸ (hcount txundo htx).1))

end Block

/-! ### Spends -/

/-- A record of the chain: a transaction above the genesis block, with a version of its type
and outputs that a block can create. -/
structure CCoins.InChain (coins : CCoins) : Prop where
  height : 0 < coins.nHeight ∧ coins.nHeight < 2 ^ 31
  version : -2 ^ 31 ≤ coins.nVersion ∧ coins.nVersion < 2 ^ 31
  outputs : ∀ n txout, coins.output n = some txout →
    moneyRange txout.nValue = true ∧ txout.scriptPubKey.length + 14 < 2 ^ 32

/-- The record of a spend. -/
def CTxInUndo.OfSpend (undo : CTxInUndo) : Prop :=
  ∃ coins out coins', coins.InChain ∧ CCoins.spend coins out = some (coins', undo)

/-- The record of a spend in the proof-of-stake build. -/
def TxInUndoStake.OfSpend (undo : TxInUndoStake) : Prop :=
  ∃ coins out coins', coins.InChain ∧ coins.nTime < 2 ^ 32 ∧
    CCoinsStake.spend coins out = some (coins', undo)

theorem TxInUndoStake.OfSpend.base {undo : TxInUndoStake} (h : undo.OfSpend) : undo.toCTxInUndo.OfSpend := by
  obtain ⟨coins, out, coins', hchain, -, hspend⟩ := h
  exact ⟨coins.toCCoins, out, coins'.toCCoins, hchain, (CCoinsStake.spend_eq_some hspend).1⟩

/-- The time that is not written takes five bytes at most. -/
theorem TxInUndoStake.OfSpend.time_length {undo : TxInUndoStake} (h : undo.OfSpend) :
    1 ≤ (writeVarInt undo.nTime).length ∧ (writeVarInt undo.nTime).length ≤ 5 := by
  obtain ⟨coins, out, coins', -, htime, hspend⟩ := h
  obtain ⟨-, -, -, hundo⟩ := CCoinsStake.spend_eq_some hspend
  have hlt : undo.nTime < 2 ^ 32 := by
    rw [hundo]
    split
    · exact htime
    · exact Nat.two_pow_pos 32
  rw [length_writeVarInt]
  exact ⟨getSizeOfVarInt_pos _, getSizeOfVarInt_le (k := 4) (by omega)⟩

/-- **The record of a spend** has its metadata or none. -/
theorem CTxInUndo.OfSpend.inRange (h : undo.OfSpend) :
    undo.InRange ∧ (undo.nHeight = 0 → undo.nVersion = 0) := by
  obtain ⟨coins, out, coins', hchain, hspend⟩ := h
  obtain ⟨houtput, -, -, -, hundo⟩ := CCoins.spend_eq_some hspend
  obtain ⟨hvalue, hscript⟩ := hchain.outputs _ _ houtput
  obtain ⟨hpos, hlt⟩ := hchain.height
  split at hundo
  · have hheight : undo.nHeight = coins.nHeight := by rw [hundo]
    have hversion : undo.nVersion = coins.nVersion := by rw [hundo]
    refine ⟨⟨by omega, hversion ▸ hchain.version, hvalue, hscript⟩, fun hzero => ?_⟩
    omega
  · have hheight : undo.nHeight = 0 := by rw [hundo]; rfl
    have hversion : undo.nVersion = 0 := by rw [hundo]; rfl
    exact ⟨⟨by omega, by omega, hvalue, hscript⟩, fun _ => hversion⟩

theorem CTxInUndo.OfSpend.readBack_eq_iff (h : undo.OfSpend) : undo.readBack = undo ↔ 0 ≤ undo.nVersion := by
  obtain ⟨⟨⟨hnonneg, -⟩, -, -, -⟩, hzero⟩ := h.inRange
  have hfield : undo.readBack = undo ↔ undo.readBack.nVersion = undo.nVersion := by
    constructor
    · intro heq
      rw [heq]
    · intro heq
      obtain ⟨txout, fCoinBase, nHeight, nVersion⟩ := undo
      simp only [readBack] at heq ⊢
      rw [heq]
  rw [hfield, readBack]
  by_cases hpos : 0 < undo.nHeight
  · simp only [hpos, if_true, readBackVersion]
    split <;> omega
  · simp only [hpos, if_false]
    rw [hzero (by omega)]
    simp

/-- **When the undo data of a block is read back and sized right.** Without stake, when no
version in it is below zero and it takes fewer than 2^32 bytes; with stake, only when it has no
record. -/
theorem undo_roundTrips_iff {keys : PubKeyOps} (hkeys : keys.Lawful) :
    (∀ blockundo : List (List CTxInUndo), UndoLengths blockundo →
      EachRecord CTxInUndo.OfSpend blockundo →
      (UndoRoundTrips (CTxInUndo.getSerializeSize keys) (CTxInUndo.serialize keys)
          (CTxInUndo.unserialize keys) blockundo ↔
        UndoSized blockundo ∧ EachRecord (fun undo => 0 ≤ undo.nVersion) blockundo ∧
          (writeVector (writeVector (CTxInUndo.serialize keys)) blockundo).length < 2 ^ 32)) ∧
    (∀ blockundo : List (List TxInUndoStake), UndoLengths blockundo →
      EachRecord TxInUndoStake.OfSpend blockundo → undoRecords blockundo < 2 ^ 29 →
      (UndoRoundTrips (TxInUndoStake.getSerializeSize keys) (TxInUndoStake.serialize keys)
          (TxInUndoStake.unserialize keys) blockundo ↔
        UndoSized blockundo ∧ ∀ txundo ∈ blockundo, txundo = [])) := by
  constructor
  · intro blockundo hwords hspent
    rw [undoRoundTrips_iff hwords
      (fun txundo htx undo hundo =>
        CTxInUndo.reads_serialize hkeys (hspent txundo htx undo hundo).inRange.1)
      (fun txundo htx undo hundo =>
        CTxInUndo.getSerializeSize_eq keys (hspent txundo htx undo hundo).inRange.1)]
    apply and_congr_right'
    apply and_congr_left'
    exact forall_congr' fun txundo => forall_congr' fun htx => forall_congr' fun undo =>
      forall_congr' fun hundo => (hspent txundo htx undo hundo).readBack_eq_iff
  · intro blockundo hwords hspent hfew
    -- Without records nothing is left to go wrong but the number of transactions.
    have hnone : (∀ txundo ∈ blockundo, txundo = []) → ∀ p : TxInUndoStake → Prop,
        EachRecord p blockundo := by
      intro hempty p txundo htx undo hundo
      rw [hempty txundo htx] at hundo
      cases hundo
    constructor
    · intro h
      have hempty := no_records_of_size_eq
        (fun txundo htx undo hundo =>
          TxInUndoStake.getSerializeSize_eq keys (hspent txundo htx undo hundo).base.inRange.1)
        (fun txundo htx undo hundo => (hspent txundo htx undo hundo).time_length) hfew h.2
      exact ⟨h.sized (g := id) hwords (hnone hempty _), hempty⟩
    · rintro ⟨hsized, hempty⟩
      refine (undoRoundTrips_iff (g := id) hwords (hnone hempty _) (hnone hempty _)).mpr
        ⟨hsized, hnone hempty _, ?_⟩
      rw [length_writeVector, vectorSize]
      have hbytes : ∀ txundo ∈ blockundo,
          (writeVector (TxInUndoStake.serialize keys) txundo).length = 1 := by
        intro txundo htx
        rw [hempty txundo htx]
        rfl
      rw [List.map_congr_left hbytes, List.map_const', List.sum_replicate_nat, Nat.mul_one]
      have hmax : MAX_SIZE = 2 ^ 25 := rfl
      have hlen := hsized.1
      have hcompact : getSizeOfCompactSize blockundo.length ≤ 9 := by
        unfold getSizeOfCompactSize
        split_ifs <;> decide
      omega

/-- An output to a script of its own, and the record of its spend as the last one. -/
def sampleInUndo : CTxInUndo := ⟨⟨110397, [0x6a, 0x01, 0x02]⟩, true, 120891, 1⟩

/-- The same output of a transaction with a time. -/
def sampleStakeUndo : TxInUndoStake := ⟨⟨⟨110397, [0x6a, 0x01, 0x02]⟩, false, 120891, 1⟩, true, 1000⟩

theorem ofSpend_sampleInUndo : sampleInUndo.OfSpend := by
  refine ⟨⟨true, [⟨110397, [0x6a, 0x01, 0x02]⟩], 120891, 1⟩, ⟨0, 0⟩, ⟨true, [], 120891, 1⟩, ?_, by decide⟩
  refine ⟨by decide, by decide, ?_⟩
  intro n txout houtput
  cases n with
  | zero =>
    obtain rfl := Option.some.inj houtput
    decide
  | succ n => cases houtput

theorem ofSpend_sampleStakeUndo : sampleStakeUndo.OfSpend := by
  refine ⟨⟨⟨false, [⟨110397, [0x6a, 0x01, 0x02]⟩], 120891, 1⟩, true, 1000⟩, ⟨0, 0⟩,
    ⟨⟨false, [], 120891, 1⟩, true, 1000⟩, ?_, by decide, by decide⟩
  refine ⟨by decide, by decide, ?_⟩
  intro n txout houtput
  cases n with
  | zero =>
    obtain rfl := Option.some.inj houtput
    decide
  | succ n => cases houtput

theorem undo_roundTrips_iff_sample :
    UndoRoundTrips (CTxInUndo.getSerializeSize CCoins.sampleKeys)
      (CTxInUndo.serialize CCoins.sampleKeys) (CTxInUndo.unserialize CCoins.sampleKeys)
      [[sampleInUndo], []] ∧
    UndoRoundTrips (TxInUndoStake.getSerializeSize CCoins.sampleKeys)
      (TxInUndoStake.serialize CCoins.sampleKeys) (TxInUndoStake.unserialize CCoins.sampleKeys)
      [[], []] := by
  have hspent : EachRecord CTxInUndo.OfSpend [[sampleInUndo], []] := by
    simp only [EachRecord, List.forall_mem_cons]
    exact ⟨⟨ofSpend_sampleInUndo, by simp⟩, by simp⟩
  have hversions : EachRecord (fun undo : CTxInUndo => 0 ≤ undo.nVersion) [[sampleInUndo], []] := by
    unfold EachRecord
    decide
  have hboth := undo_roundTrips_iff CCoins.sampleKeys_lawful
  refine ⟨(hboth.1 _ ⟨by decide, by decide⟩ hspent).mpr
    ⟨⟨by decide, by decide⟩, hversions, by decide +kernel⟩, ?_⟩
  refine (hboth.2 _ ⟨by decide, by decide⟩ ?_ (by decide)).mpr ⟨⟨by decide, by decide⟩, by decide⟩
  simp [EachRecord]

/-- **A stake record is not read back**: the version is taken for the time, and what follows is
read in the wrong places; nor does its size count the bytes. -/
theorem not_forall_stake_roundTrips :
    (¬ ∀ (keys : PubKeyOps) (blockundo : List (List TxInUndoStake)), keys.Lawful →
      UndoLengths blockundo → EachRecord TxInUndoStake.OfSpend blockundo →
      undoRecords blockundo < 2 ^ 29 → UndoRoundTrips (TxInUndoStake.getSerializeSize keys) (TxInUndoStake.serialize keys)
        (TxInUndoStake.unserialize keys) blockundo) ∧
      (TxInUndoStake.unserialize CCoins.sampleKeys
          (sampleStakeUndo.serialize CCoins.sampleKeys)).map (·.1) ≠ some sampleStakeUndo ∧
        sampleStakeUndo.getSerializeSize CCoins.sampleKeys ≠
          (sampleStakeUndo.serialize CCoins.sampleKeys).length := by
  refine ⟨?_, by decide +kernel, by decide +kernel⟩
  intro hall
  have hspent : EachRecord TxInUndoStake.OfSpend [[sampleStakeUndo]] := by
    simp only [EachRecord, List.forall_mem_cons]
    exact ⟨⟨ofSpend_sampleStakeUndo, by simp⟩, by simp⟩
  obtain ⟨-, hsize⟩ := hall CCoins.sampleKeys [[sampleStakeUndo]] CCoins.sampleKeys_lawful
    ⟨by decide, by decide⟩ hspent (by decide)
  revert hsize
  decide +kernel

end Manna
