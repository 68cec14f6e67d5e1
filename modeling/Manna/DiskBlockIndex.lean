import Manna.Block
import Manna.VarInt

/-!
Index entries in the database (`main.h`: `CDiskBlockIndex`).

An entry is stored with its header, and with the hash of its predecessor in place of the pointer.
The levels and flags of `nStatus` are one number there. Positions in the files are written where
the status says that there are any; `pnext`, `nChainTrust` and `nChainTx` are not written.

* `BlockStatus.ofNat_toNat`: the status is read back from its number;
* `CDiskBlockIndex.reads_serialize`: what is read back of an entry.
-/

namespace Manna

open Codec

def BLOCK_HAVE_DATA : Nat := 8
def BLOCK_HAVE_UNDO : Nat := 16
def BLOCK_FAILED_VALID : Nat := 32
def BLOCK_FAILED_CHILD : Nat := 64

/-- `nStatus`. -/
def BlockStatus.toNat (status : BlockStatus) : Nat :=
  status.nValid ||| (if status.haveData then BLOCK_HAVE_DATA else 0) |||
    (if status.haveUndo then BLOCK_HAVE_UNDO else 0) |||
    (if status.failedValid then BLOCK_FAILED_VALID else 0) |||
    (if status.failedChild then BLOCK_FAILED_CHILD else 0)

/-- The parts of `nStatus`; the validity level is `nStatus & BLOCK_VALID_MASK`. -/
def BlockStatus.ofNat (nStatus : Nat) : BlockStatus where
  nValid := nStatus &&& 7
  haveData := nStatus &&& BLOCK_HAVE_DATA != 0
  haveUndo := nStatus &&& BLOCK_HAVE_UNDO != 0
  failedValid := nStatus &&& BLOCK_FAILED_VALID != 0
  failedChild := nStatus &&& BLOCK_FAILED_CHILD != 0

/-- **The status is read back.** -/
theorem BlockStatus.ofNat_toNat {status : BlockStatus} (h : status.nValid < 8) :
    BlockStatus.ofNat status.toNat = status ∧ status.toNat < 128 := by
  obtain ⟨nValid, haveData, haveUndo, failedValid, failedChild⟩ := status
  have hall : ∀ nValid < 8, ∀ haveData haveUndo failedValid failedChild : Bool,
      BlockStatus.ofNat (BlockStatus.toNat ⟨nValid, haveData, haveUndo, failedValid, failedChild⟩) =
          ⟨nValid, haveData, haveUndo, failedValid, failedChild⟩ ∧
        BlockStatus.toNat ⟨nValid, haveData, haveUndo, failedValid, failedChild⟩ < 128 := by
    decide
  exact hall nValid h haveData haveUndo failedValid failedChild

/-! ### Entries with all their fields -/

/-- The fields of `CBlockIndex` that validation does not read. -/
structure IndexDetails where
  nFile : Int
  nDataPos : Nat
  nUndoPos : Nat
  nTx : Nat
  nChainTx : Nat
  nVersion : Int
  hashMerkleRoot : Uint256
  nNonce : Nat
deriving DecidableEq, Repr

/-- The rest of `CBlockIndex()`. -/
def IndexDetails.empty : IndexDetails := ⟨0, 0, 0, 0, 0, 0, 0, 0⟩

/-- `CBlockIndex()`, with the hash it is filed under. -/
def CBlockIndex.empty (hash : Uint256) : CBlockIndex :=
  ⟨hash, none, none, 0, 0, ⟨0, false, false, false, false⟩, 0, 0, 0⟩

/-- `CDiskBlockIndex`. -/
structure CDiskBlockIndex extends CBlockIndex, IndexDetails where
  hashPrev : Uint256
deriving DecidableEq, Repr

/-- `CDiskBlockIndex(pindex)`. -/
def CDiskBlockIndex.of (pindex : CBlockIndex) (details : IndexDetails) : CDiskBlockIndex :=
  { pindex, details with hashPrev := pindex.pprev.getD 0 }

def CLIENT_VERSION : Int := 80300

def CDiskBlockIndex.getBlockHash (env : Env) (diskindex : CDiskBlockIndex) : Uint256 :=
  env.blockHash ⟨diskindex.nVersion, diskindex.hashPrev, diskindex.hashMerkleRoot, diskindex.nTime,
    diskindex.nBits, diskindex.nNonce⟩

/-- The bytes of an entry. -/
def CDiskBlockIndex.serialize (diskindex : CDiskBlockIndex) : List UInt8 :=
  writeVarInt CLIENT_VERSION ++ (writeVarInt diskindex.nHeight ++
    (writeVarInt diskindex.nStatus.toNat ++ (writeVarInt diskindex.nTx ++
    ((if diskindex.nStatus.haveData || diskindex.nStatus.haveUndo then writeVarInt diskindex.nFile
      else []) ++
    ((if diskindex.nStatus.haveData then writeVarInt diskindex.nDataPos else []) ++
    ((if diskindex.nStatus.haveUndo then writeVarInt diskindex.nUndoPos else []) ++
    (littleEndianSigned 8 diskindex.nMoneySupply ++
    -- The header.
    (littleEndianSigned 4 diskindex.nVersion ++ (littleEndian 32 diskindex.hashPrev ++
    (littleEndian 32 diskindex.hashMerkleRoot ++ (littleEndian 4 diskindex.nTime ++
    (littleEndian 4 diskindex.nBits ++ littleEndian 4 diskindex.nNonce))))))))))))

/-- An entry read from its bytes into `CDiskBlockIndex()`. -/
def CDiskBlockIndex.deserialize : Reader CDiskBlockIndex := do
  let _ ← readVarIntSigned
  let nHeight ← readVarIntSigned
  let nStatus ← readVarInt 32
  let nTx ← readVarInt 32
  let status := BlockStatus.ofNat nStatus
  let nFile ← readIf (status.haveData || status.haveUndo) readVarIntSigned 0
  let nDataPos ← readIf status.haveData (readVarInt 32) 0
  let nUndoPos ← readIf status.haveUndo (readVarInt 32) 0
  let nMoneySupply ← readLittleEndianSigned 8
  let nVersion ← readLittleEndianSigned 4
  let hashPrev ← readLittleEndian 32
  let hashMerkleRoot ← readLittleEndian 32
  let nTime ← readLittleEndian 4
  let nBits ← readLittleEndian 4
  let nNonce ← readLittleEndian 4
  return { CBlockIndex.empty 0, IndexDetails.empty with
    nHeight, nStatus := status, nTx, nFile, nDataPos, nUndoPos, nMoneySupply, nVersion, hashPrev,
    hashMerkleRoot, nTime, nBits, nNonce }

/-- The fields are values of their types: `int`, `unsigned int`, `int64_t`, `uint256`. -/
structure CDiskBlockIndex.InRange (diskindex : CDiskBlockIndex) : Prop where
  nHeight : 0 ≤ diskindex.nHeight ∧ diskindex.nHeight < 2 ^ 31
  nValid : diskindex.nStatus.nValid < 8
  nTx : diskindex.nTx < 2 ^ 32
  nFile : 0 ≤ diskindex.nFile ∧ diskindex.nFile < 2 ^ 31
  nDataPos : diskindex.nDataPos < 2 ^ 32
  nUndoPos : diskindex.nUndoPos < 2 ^ 32
  nMoneySupply : InInt64 diskindex.nMoneySupply
  nVersion : -2 ^ 31 ≤ diskindex.nVersion ∧ diskindex.nVersion < 2 ^ 31
  hashPrev : diskindex.hashPrev < 2 ^ 256
  hashMerkleRoot : diskindex.hashMerkleRoot < 2 ^ 256
  nTime : diskindex.nTime < 2 ^ 32
  nBits : diskindex.nBits < 2 ^ 32
  nNonce : diskindex.nNonce < 2 ^ 32

/-- What is left of an entry in the database. -/
def CDiskBlockIndex.stored (diskindex : CDiskBlockIndex) : CDiskBlockIndex :=
  { diskindex with
    phashBlock := 0
    pprev := none
    pnext := none
    nChainTrust := 0
    nChainTx := 0
    nFile := if diskindex.nStatus.haveData || diskindex.nStatus.haveUndo then diskindex.nFile else 0
    nDataPos := if diskindex.nStatus.haveData then diskindex.nDataPos else 0
    nUndoPos := if diskindex.nStatus.haveUndo then diskindex.nUndoPos else 0 }

theorem reads_varInt32 {n : Nat} (hn : n < 2 ^ 32) : Reads (readVarInt 32) (writeVarInt n) n := by
  have hread := reads_writeVarInt (w := 32) (n := n) (by omega) (by omega)
  rwa [Int.toNat_natCast] at hread

/-- **What is read back of an entry**: all that was written. -/
theorem CDiskBlockIndex.reads_serialize {diskindex : CDiskBlockIndex} (h : diskindex.InRange) :
    Reads CDiskBlockIndex.deserialize diskindex.serialize diskindex.stored := by
  obtain ⟨hstatus, hsmall⟩ := BlockStatus.ofNat_toNat h.nValid
  have hmoney := h.nMoneySupply
  unfold InInt64 int64Min int64Max at hmoney
  have hversion := h.nVersion
  unfold deserialize serialize
  refine (reads_writeVarInt_signed (by decide) (by decide)).bind ?_
  refine (reads_writeVarInt_signed h.nHeight.1 h.nHeight.2).bind ?_
  refine (reads_varInt32 (hsmall.trans (by decide))).bind ?_
  refine (reads_varInt32 h.nTx).bind ?_
  rw [hstatus]
  refine (reads_writeVarInt_signed h.nFile.1 h.nFile.2).readIf.bind ?_
  refine (reads_varInt32 h.nDataPos).readIf.bind ?_
  refine (reads_varInt32 h.nUndoPos).readIf.bind ?_
  refine (reads_littleEndianSigned (by omega) (by omega)).bind ?_
  refine (reads_littleEndianSigned (by omega) (by omega)).bind ?_
  refine (reads_littleEndian h.hashPrev).bind ?_
  refine (reads_littleEndian h.hashMerkleRoot).bind ?_
  refine (reads_littleEndian h.nTime).bind ?_
  refine (reads_littleEndian h.nBits).bind ?_
  exact (reads_littleEndian h.nNonce).map

end Manna
