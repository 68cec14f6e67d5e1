import Mathlib.Data.PNat.Notation
import Manna.Block
import Manna.TxCodec

/-!
Transactions and blocks, written, measured and read (`serialize.h`: vectors; `main.h`:
`IMPLEMENT_SERIALIZE` of `CTransaction`, `CBlockHeader` and `CBlock`).

A vector is read in chunks, so that a length that is not true takes no memory. A size is an
`unsigned int`.

* `readChunks_eq`: chunks make no difference;
* `reads_transaction`, `reads_block`: what was written is read back;
* `codec_correct`: the codec of transactions and blocks.
-/

namespace Manna

open Codec

/-! ### Vectors in chunks -/

/-- The loop of `Unserialize` of a vector that is yet to read so many members. -/
def readChunks {α : Type} (chunk : ℕ+) (read : Reader α) (nLeft : Nat) : Reader (List α) :=
  if _h : nLeft = 0 then pure []
  else do
    let v ← (List.replicate (min nLeft chunk) ()).mapM fun _ => read
    let rest ← readChunks chunk read (nLeft - min nLeft chunk)
    return v ++ rest
termination_by nLeft
decreasing_by
  have hpos := chunk.pos
  omega

def unserializeVector {α : Type} (chunk : ℕ+) (read : Reader α) : Reader (List α) := do
  let nSize ← readCompactSize
  readChunks chunk read nSize

/-- How many members of a vector are read at a time: `5000000 / sizeof(T)`. -/
structure Chunks where
  txin : ℕ+
  txout : ℕ+
  tx : ℕ+

/-- **Chunks make no difference.** -/
theorem readChunks_eq {α : Type} (chunk : ℕ+) (read : Reader α) (nLeft : Nat) :
    readChunks chunk read nLeft = (List.replicate nLeft ()).mapM fun _ => read := by
  induction nLeft using Nat.strong_induction_on with
  | _ nLeft ih =>
    rw [readChunks]
    split
    · next hzero =>
      rw [hzero]
      rfl
    · next hzero =>
      have hpos := chunk.pos
      have hsplit : List.replicate nLeft () =
          List.replicate (min nLeft chunk) () ++ List.replicate (nLeft - min nLeft chunk) () := by
        rw [List.replicate_append_replicate, Nat.add_sub_cancel' (min_le_left _ _)]
      rw [ih (nLeft - min nLeft chunk) (by omega), hsplit, List.mapM_append]

theorem unserializeVector_eq {α : Type} (chunk : ℕ+) (read : Reader α) :
    unserializeVector chunk read = readVector read := by
  unfold unserializeVector readVector
  simp only [readChunks_eq]

def COutPoint.unserialize : Reader COutPoint := do
  let hash ← readLittleEndian 32
  let n ← readLittleEndian 4
  return ⟨hash, n⟩

/-- Bytes are read `1 + 4999999` at a time. -/
def byteChunk : ℕ+ := 5000000

def CScript.unserialize : Reader CScript := unserializeVector byteChunk byte

def CTxIn.unserialize : Reader CTxIn := do
  let prevout ← COutPoint.unserialize
  let scriptSig ← CScript.unserialize
  let nSequence ← readLittleEndian 4
  return ⟨prevout, scriptSig, nSequence⟩

def CTxOut.unserialize : Reader CTxOut := do
  let nValue ← readLittleEndianSigned 8
  let scriptPubKey ← CScript.unserialize
  return ⟨nValue, scriptPubKey⟩

def CTransaction.unserialize (chunks : Chunks) : Reader CTransaction := do
  let nVersion ← readLittleEndianSigned 4
  let nTime ← readLittleEndian 4
  let vin ← unserializeVector chunks.txin CTxIn.unserialize
  let vout ← unserializeVector chunks.txout CTxOut.unserialize
  let nLockTime ← readLittleEndian 4
  return ⟨nVersion, nTime, vin, vout, nLockTime⟩

def SER_NETWORK : Nat := 1 <<< 0
def SER_DISK : Nat := 1 <<< 1
def SER_GETHASH : Nat := 1 <<< 2
def SER_BLOCKHEADERONLY : Nat := 1 <<< 17

def CBlockHeader.serialize (header : CBlockHeader) : List UInt8 :=
  littleEndianSigned 4 header.nVersion ++ (littleEndian 32 header.hashPrevBlock ++
    (littleEndian 32 header.hashMerkleRoot ++ (littleEndian 4 header.nTime ++
      (littleEndian 4 header.nBits ++ littleEndian 4 header.nNonce))))

def CBlockHeader.unserialize : Reader CBlockHeader := do
  let nVersion ← readLittleEndianSigned 4
  let hashPrevBlock ← readLittleEndian 32
  let hashMerkleRoot ← readLittleEndian 32
  let nTime ← readLittleEndian 4
  let nBits ← readLittleEndian 4
  let nNonce ← readLittleEndian 4
  return ⟨nVersion, hashPrevBlock, hashMerkleRoot, nTime, nBits, nNonce⟩

/-- The transactions and the signature are serialized too. -/
def withTransactions (nType : Nat) : Bool := nType &&& (SER_GETHASH ||| SER_BLOCKHEADERONLY) == 0

def CBlock.serialize (nType : Nat) (block : CBlock) : List UInt8 :=
  block.toCBlockHeader.serialize ++
    if withTransactions nType then
      writeVector CTransaction.serialize block.vtx ++ writeVector (fun b => [b]) block.vchBlockSig
    else []

def CBlock.unserialize (chunks : Chunks) (nType : Nat) : Reader CBlock := do
  let header ← CBlockHeader.unserialize
  if withTransactions nType then do
    let vtx ← unserializeVector chunks.tx (CTransaction.unserialize chunks)
    let vchBlockSig ← unserializeVector byteChunk byte
    return ⟨header, vtx, vchBlockSig⟩
  else return ⟨header, [], []⟩

/-! ### GetSerializeSize -/

/-- The values of an `unsigned int`. -/
def uintMod : Nat := 2 ^ 32

/-- The sizes of the parts, added up in an `unsigned int`. -/
def sumSizes (nSerSize : Nat) (sizes : List Nat) : Nat :=
  sizes.foldl (fun nSerSize size => (nSerSize + size) % uintMod) nSerSize

def getSerializeSizeVector {α : Type} (size : α → Nat) (v : List α) : Nat :=
  sumSizes (getSizeOfCompactSize v.length) (v.map size)

/-- `GetSerializeSize` of a vector of bytes. -/
def getSerializeSizeBytes (v : List UInt8) : Nat := (getSizeOfCompactSize v.length + v.length) % uintMod

def CTxIn.getSerializeSize (txin : CTxIn) : Nat := sumSizes 0 [36, getSerializeSizeBytes txin.scriptSig, 4]

def CTxOut.getSerializeSize (txout : CTxOut) : Nat :=
  sumSizes 0 [8, getSerializeSizeBytes txout.scriptPubKey]

def CTransaction.getSerializeSize (tx : CTransaction) : Nat :=
  sumSizes 0 [4, 4, getSerializeSizeVector CTxIn.getSerializeSize tx.vin,
    getSerializeSizeVector CTxOut.getSerializeSize tx.vout, 4]

def CBlock.getSerializeSize (nType : Nat) (block : CBlock) : Nat :=
  sumSizes 0 (sumSizes 0 [4, 32, 32, 4, 4, 4] :: if withTransactions nType then
    [getSerializeSizeVector CTransaction.getSerializeSize block.vtx, getSerializeSizeBytes block.vchBlockSig]
  else [])

/-! ### What is read back -/

/-- The vectors and scripts of a transaction have at most `MAX_SIZE` members. -/
structure CTransaction.Readable (tx : CTransaction) : Prop where
  representable : tx.Representable
  vin_le : tx.vin.length ≤ MAX_SIZE
  scriptSig_le : ∀ txin ∈ tx.vin, txin.scriptSig.length ≤ MAX_SIZE
  vout_le : tx.vout.length ≤ MAX_SIZE
  scriptPubKey_le : ∀ txout ∈ tx.vout, txout.scriptPubKey.length ≤ MAX_SIZE

/-- The fields of a header are values of their types. -/
structure CBlockHeader.Representable (header : CBlockHeader) : Prop where
  nVersion : Signed 4 header.nVersion
  hashPrevBlock : header.hashPrevBlock < 256 ^ 32
  hashMerkleRoot : header.hashMerkleRoot < 256 ^ 32
  nTime : header.nTime < 256 ^ 4
  nBits : header.nBits < 256 ^ 4
  nNonce : header.nNonce < 256 ^ 4

structure CBlock.Readable (block : CBlock) : Prop where
  header : block.toCBlockHeader.Representable
  vtx_le : block.vtx.length ≤ MAX_SIZE
  vtx : ∀ tx ∈ block.vtx, tx.Readable
  vchBlockSig_le : block.vchBlockSig.length ≤ MAX_SIZE

theorem reads_vector {α : Type} {write : α → List UInt8} {read : Reader α} (chunk : ℕ+) {v : List α}
    (hlen : v.length ≤ MAX_SIZE) (h : ∀ a ∈ v, Reads read (write a) a) :
    Reads (unserializeVector chunk read) (writeVector write v) v := by
  have hread := reads_writeVector (g := id) read hlen h
  rwa [List.map_id, ← unserializeVector_eq chunk] at hread

theorem reads_vchar {v : List UInt8} (hlen : v.length ≤ MAX_SIZE) :
    Reads (unserializeVector byteChunk byte) (writeVector (fun b => [b]) v) v :=
  reads_vector byteChunk hlen fun b _ => reads_byte b

theorem reads_script {script : CScript} (hlen : script.length ≤ MAX_SIZE) :
    Reads CScript.unserialize (CScript.serialize script) script := reads_vchar hlen

theorem reads_outPoint {o : COutPoint} (h : o.Representable) : Reads COutPoint.unserialize o.serialize o :=
  (reads_littleEndian h.1).bind (reads_littleEndian h.2).map

theorem reads_txIn {txin : CTxIn} (h : txin.Representable) (hlen : txin.scriptSig.length ≤ MAX_SIZE) :
    Reads CTxIn.unserialize txin.serialize txin :=
  (reads_outPoint h.1).bind ((reads_script hlen).bind (reads_littleEndian h.2.2).map)

theorem reads_txOut {txout : CTxOut} (h : txout.Representable)
    (hlen : txout.scriptPubKey.length ≤ MAX_SIZE) : Reads CTxOut.unserialize txout.serialize txout :=
  (reads_littleEndianSigned h.1.1 h.1.2).bind (reads_script hlen).map

/-- **A transaction is read back.** -/
theorem reads_transaction (chunks : Chunks) {tx : CTransaction} (h : tx.Readable) :
    Reads (CTransaction.unserialize chunks) tx.serialize tx := by
  obtain ⟨hVersion, hTime, hvin, hvout, hLockTime⟩ := h.representable
  have hinputs : Reads (unserializeVector chunks.txin CTxIn.unserialize)
      (writeVector CTxIn.serialize tx.vin) tx.vin :=
    reads_vector _ h.vin_le fun txin hin => reads_txIn (hvin.2 txin hin) (h.scriptSig_le txin hin)
  have houtputs : Reads (unserializeVector chunks.txout CTxOut.unserialize)
      (writeVector CTxOut.serialize tx.vout) tx.vout :=
    reads_vector _ h.vout_le fun txout hout => reads_txOut (hvout.2 txout hout) (h.scriptPubKey_le txout hout)
  exact (reads_littleEndianSigned hVersion.1 hVersion.2).bind ((reads_littleEndian hTime).bind
    (hinputs.bind (houtputs.bind (reads_littleEndian hLockTime).map)))

theorem reads_header {header : CBlockHeader} (h : header.Representable) :
    Reads CBlockHeader.unserialize header.serialize header :=
  (reads_littleEndianSigned h.nVersion.1 h.nVersion.2).bind
    ((reads_littleEndian h.hashPrevBlock).bind ((reads_littleEndian h.hashMerkleRoot).bind
      ((reads_littleEndian h.nTime).bind ((reads_littleEndian h.nBits).bind
        (reads_littleEndian h.nNonce).map))))

/-- **A block is read back** when its transactions are serialized. -/
theorem reads_block (chunks : Chunks) {nType : Nat} (hType : withTransactions nType = true) {block : CBlock}
    (h : block.Readable) : Reads (CBlock.unserialize chunks nType) (block.serialize nType) block := by
  have hvtx : Reads (unserializeVector chunks.tx (CTransaction.unserialize chunks))
      (writeVector CTransaction.serialize block.vtx) block.vtx :=
    reads_vector _ h.vtx_le fun tx htx => reads_transaction chunks (h.vtx tx htx)
  unfold CBlock.unserialize CBlock.serialize
  rw [hType]
  exact (reads_header h.header).bind (hvtx.bind (reads_vchar h.vchBlockSig_le).map)

/-! ### Sizes -/

theorem sumSizes_eq {nSerSize : Nat} (hlt : nSerSize < uintMod) (sizes : List Nat) :
    sumSizes nSerSize sizes = (nSerSize + sizes.sum) % uintMod := by
  unfold sumSizes
  induction sizes generalizing nSerSize with
  | nil => exact (Nat.mod_eq_of_lt hlt).symm
  | cons size sizes ih =>
    rw [List.foldl_cons, ih (Nat.mod_lt _ (Nat.two_pow_pos 32)), List.sum_cons, Nat.mod_add_mod,
      Nat.add_assoc]

theorem sum_mod_congr {α : Type} {size length : α → Nat} (v : List α)
    (h : ∀ a ∈ v, size a = length a % uintMod) : (v.map size).sum % uintMod = (v.map length).sum % uintMod := by
  induction v with
  | nil => rfl
  | cons a v ih =>
    rw [List.forall_mem_cons] at h
    rw [List.map_cons, List.sum_cons, List.map_cons, List.sum_cons, h.1, Nat.mod_add_mod, Nat.add_mod,
      ih h.2, ← Nat.add_mod]

theorem getSizeOfCompactSize_lt (nSize : Nat) : getSizeOfCompactSize nSize < uintMod := by
  unfold getSizeOfCompactSize uintMod
  split_ifs <;> decide

/-- **The size of a vector** is that of its bytes, as an `unsigned int`. -/
theorem getSerializeSizeVector_eq {α : Type} {size : α → Nat} {write : α → List UInt8} {v : List α}
    (h : ∀ a ∈ v, size a = (write a).length % uintMod) :
    getSerializeSizeVector size v = (writeVector write v).length % uintMod := by
  rw [getSerializeSizeVector, sumSizes_eq (getSizeOfCompactSize_lt _), length_writeVector, vectorSize,
    Nat.add_mod, sum_mod_congr v h, ← Nat.add_mod]

theorem getSerializeSizeBytes_eq (v : List UInt8) :
    getSerializeSizeBytes v = (writeVector (fun b => [b]) v).length % uintMod := by
  rw [length_writeVector, vectorSize, getSerializeSizeBytes]
  simp

theorem sumSizes_mod (lengths : List Nat) :
    sumSizes 0 (lengths.map (· % uintMod)) = lengths.sum % uintMod := by
  have hmap : (lengths.map (· % uintMod)).sum % uintMod = (lengths.map id).sum % uintMod :=
    sum_mod_congr lengths fun _ _ => rfl
  rw [List.map_id] at hmap
  rw [sumSizes_eq (Nat.two_pow_pos 32), Nat.zero_add]
  exact hmap

theorem CTxIn.getSerializeSize_eq (txin : CTxIn) :
    txin.getSerializeSize = txin.serialize.length % uintMod := by
  have hsum := sumSizes_mod [36, (writeVector (fun b => [b]) txin.scriptSig).length, 4]
  rw [getSerializeSize, getSerializeSizeBytes_eq]
  refine hsum.trans (congrArg (· % uintMod) ?_)
  simp only [CTxIn.serialize, COutPoint.serialize, CScript.serialize, List.length_append,
    length_littleEndian, List.sum_cons, List.sum_nil]
  omega

theorem CTxOut.getSerializeSize_eq (txout : CTxOut) :
    txout.getSerializeSize = txout.serialize.length % uintMod := by
  have hsum := sumSizes_mod [8, (writeVector (fun b => [b]) txout.scriptPubKey).length]
  rw [getSerializeSize, getSerializeSizeBytes_eq]
  refine hsum.trans (congrArg (· % uintMod) ?_)
  simp only [CTxOut.serialize, CScript.serialize, List.length_append, littleEndianSigned,
    length_littleEndian, List.sum_cons, List.sum_nil, Nat.add_zero]

theorem CTransaction.getSerializeSize_eq (tx : CTransaction) :
    tx.getSerializeSize = tx.serialize.length % uintMod := by
  have hsum := sumSizes_mod [4, 4, (writeVector CTxIn.serialize tx.vin).length,
    (writeVector CTxOut.serialize tx.vout).length, 4]
  rw [getSerializeSize, getSerializeSizeVector_eq fun txin _ => txin.getSerializeSize_eq,
    getSerializeSizeVector_eq fun txout _ => txout.getSerializeSize_eq]
  refine hsum.trans (congrArg (· % uintMod) ?_)
  simp only [CTransaction.serialize, List.length_append, littleEndianSigned, length_littleEndian,
    List.sum_cons, List.sum_nil, Nat.add_zero]

theorem length_header (header : CBlockHeader) : header.serialize.length = 80 := by
  simp only [CBlockHeader.serialize, List.length_append, littleEndianSigned, length_littleEndian]

theorem CBlock.getSerializeSize_eq (nType : Nat) (block : CBlock) :
    block.getSerializeSize nType = (block.serialize nType).length % uintMod := by
  unfold getSerializeSize serialize
  rw [List.length_append, length_header]
  cases withTransactions nType with
  | true =>
    have hsum := sumSizes_mod [80, (writeVector CTransaction.serialize block.vtx).length,
      (writeVector (fun b => [b]) block.vchBlockSig).length]
    rw [if_pos rfl, if_pos rfl, getSerializeSizeVector_eq fun tx _ => tx.getSerializeSize_eq,
      getSerializeSizeBytes_eq]
    refine hsum.trans (congrArg (· % uintMod) ?_)
    simp only [List.length_append, List.sum_cons, List.sum_nil, Nat.add_zero]
  | false => rfl

/-- The size of a transaction elsewhere, where it is not an `unsigned int`. -/
theorem length_transaction (tx : CTransaction) : tx.serialize.length = tx.serializeSize := by
  have hscript : ∀ script : CScript, (CScript.serialize script).length = CScript.serializeSize script := by
    intro script
    rw [CScript.serialize, length_writeVector, vectorSize, CScript.serializeSize]
    simp
  have hvin : (writeVector CTxIn.serialize tx.vin).length = vectorSize CTxIn.serializeSize tx.vin := by
    rw [length_writeVector]
    refine vectorSize_congr fun txin _ => ?_
    simp only [CTxIn.serialize, COutPoint.serialize, CTxIn.serializeSize, List.length_append,
      length_littleEndian, hscript]
    omega
  have hvout : (writeVector CTxOut.serialize tx.vout).length =
      vectorSize CTxOut.serializeSize tx.vout := by
    rw [length_writeVector]
    refine vectorSize_congr fun txout _ => ?_
    simp only [CTxOut.serialize, CTxOut.serializeSize, littleEndianSigned, List.length_append,
      length_littleEndian, hscript]
  simp only [CTransaction.serialize, CTransaction.serializeSize, littleEndianSigned, List.length_append,
    length_littleEndian, hvin, hvout, vectorSize]
  omega

theorem length_block {nType : Nat} (hType : withTransactions nType = true) (block : CBlock) :
    (block.serialize nType).length = block.serializeSize := by
  have hvtx : (writeVector CTransaction.serialize block.vtx).length =
      vectorSize CTransaction.serializeSize block.vtx := by
    rw [length_writeVector]
    exact vectorSize_congr fun tx _ => length_transaction tx
  have hsig : (writeVector (fun b => [b]) block.vchBlockSig).length =
      getSizeOfCompactSize block.vchBlockSig.length + block.vchBlockSig.length := by
    rw [length_writeVector, vectorSize]
    simp
  unfold CBlock.serialize CBlock.serializeSize
  rw [hType, if_pos rfl, List.length_append, length_header, List.length_append, hvtx, hsig, vectorSize]
  omega

/-- The types that are written to the network and to the disk. -/
def Stored (nType : Nat) : Prop := nType = SER_NETWORK ∨ nType = SER_DISK

theorem withTransactions_of_stored {nType : Nat} (h : Stored nType) : withTransactions nType = true := by
  rcases h with rfl | rfl
  · rfl
  · rfl

/-- **The codec**: what is written is read back, and nothing more; a size is the number of bytes as an
`unsigned int`; no transaction starts another, and a hash function without collisions tells them apart. -/
theorem codec_correct (chunks : Chunks) :
    (∀ tx : CTransaction, tx.Readable →
      Reads (CTransaction.unserialize chunks) tx.serialize tx ∧
        tx.getSerializeSize = tx.serialize.length % uintMod) ∧
    (∀ (block : CBlock) (nType : Nat), block.Readable → Stored nType →
      Reads (CBlock.unserialize chunks nType) (block.serialize nType) block ∧
        block.getSerializeSize nType = (block.serialize nType).length % uintMod) ∧
    ∀ tx tx' : CTransaction, tx.Readable → tx'.Readable → tx ≠ tx' →
      ¬ tx.serialize <+: tx'.serialize ∧
        ∀ hash : List UInt8 → Uint256, Function.Injective hash → hash tx.serialize ≠ hash tx'.serialize := by
  refine ⟨fun tx h => ⟨reads_transaction chunks h, tx.getSerializeSize_eq⟩, fun block nType h hType =>
    ⟨reads_block chunks (withTransactions_of_stored hType) h, block.getSerializeSize_eq nType⟩, ?_⟩
  intro tx tx' h h' hne
  have hapart : ¬ tx.serialize <+: tx'.serialize := by
    rintro ⟨rest, heq⟩
    refine hne (separates_transaction h.representable h'.representable (s := rest) (t := []) ?_).1
    rw [heq, List.append_nil]
  refine ⟨hapart, fun hash hinj heq => ?_⟩
  exact hapart (hinj heq ▸ List.prefix_refl _)

/-! ### A size that does not fit -/

namespace BigTransaction

/-- An input with a script of so many bytes. -/
def txin (n : Nat) : CTxIn := ⟨⟨0, 0⟩, List.replicate n 0, 0⟩

def tx (n : Nat) : CTransaction := ⟨1, 0, List.replicate 129 (txin n), [], 0⟩

theorem readable_tx {n : Nat} (h : n ≤ MAX_SIZE) : (tx n).Readable where
  representable :=
    { nVersion := show Signed 4 1 from ⟨by decide, by decide⟩
      nTime := Nat.pow_pos (by decide)
      vin := by
        refine ⟨?_, fun a ha => ?_⟩
        · rw [tx, List.length_replicate]
          decide
        · rw [List.eq_of_mem_replicate ha]
          refine ⟨⟨Nat.pow_pos (by decide), Nat.pow_pos (by decide)⟩, ?_, Nat.pow_pos (by decide)⟩
          rw [txin, List.length_replicate]
          exact h.trans_lt (by decide)
      vout := ⟨Nat.two_pow_pos 64, nofun⟩
      nLockTime := Nat.pow_pos (by decide) }
  vin_le := by
    rw [tx, List.length_replicate]
    decide
  scriptSig_le := by
    intro a ha
    rw [List.eq_of_mem_replicate ha, txin, List.length_replicate]
    exact h
  vout_le := Nat.zero_le _
  scriptPubKey_le := nofun

theorem le_length (n : Nat) : 129 * n ≤ (tx n).serialize.length := by
  have hsum : ((tx n).vin.map CTxIn.serializeSize).sum = 129 * (txin n).serializeSize := by
    rw [tx, List.map_replicate, List.sum_replicate_nat]
  have hscript : n ≤ (txin n).serializeSize := by
    have hlen : (txin n).scriptSig.length = n := List.length_replicate
    unfold CTxIn.serializeSize CScript.serializeSize
    omega
  rw [length_transaction, CTransaction.serializeSize, hsum]
  omega

end BigTransaction

open BigTransaction in
/-- Transactions with scripts of three and of four bytes, and a block of the first. -/
theorem codec_correct_sample :
    Reads (CTransaction.unserialize ⟨1, 2, 3⟩) (tx 3).serialize (tx 3) ∧
      Reads (CBlock.unserialize ⟨1, 2, 3⟩ SER_DISK) (CBlock.serialize SER_DISK ⟨⟨1, 0, 0, 0, 0, 0⟩, [tx 3], [7]⟩)
        ⟨⟨1, 0, 0, 0, 0, 0⟩, [tx 3], [7]⟩ ∧
      ¬ (tx 3).serialize <+: (tx 4).serialize := by
  have hcodec := codec_correct ⟨1, 2, 3⟩
  have hthree : (tx 3).Readable := readable_tx (by decide)
  have hblock : CBlock.Readable ⟨⟨1, 0, 0, 0, 0, 0⟩, [tx 3], [7]⟩ :=
    ⟨⟨⟨by decide, by decide⟩, by decide, by decide, by decide, by decide, by decide⟩, by decide,
      List.forall_mem_singleton.mpr hthree, by decide⟩
  exact ⟨(hcodec.1 _ hthree).1, (hcodec.2.1 _ SER_DISK hblock (.inr rfl)).1,
    (hcodec.2.2 _ _ hthree (readable_tx (by decide)) (by decide)).1⟩

open BigTransaction in
/-- **A size wraps**: 129 inputs with scripts of `MAX_SIZE` bytes take more than `2 ^ 32` bytes. -/
theorem not_forall_getSerializeSize :
    ¬ ∀ tx : CTransaction, tx.Readable → tx.getSerializeSize = tx.serialize.length := by
  intro hall
  have hsize := hall (tx MAX_SIZE) (readable_tx le_rfl)
  rw [CTransaction.getSerializeSize_eq] at hsize
  have hlt : (tx MAX_SIZE).serialize.length % uintMod < uintMod := Nat.mod_lt _ (Nat.two_pow_pos 32)
  have hbig : uintMod < 129 * MAX_SIZE := by decide
  have hle := le_length MAX_SIZE
  rw [hsize] at hlt
  omega

end Manna
