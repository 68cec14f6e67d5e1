import Manna.BlockCodec
import Manna.BlockFile
import Manna.ConnectBlock
import Manna.Lib.ByteFile
import Manna.SpentFlags
import Mathlib.Algebra.Order.BigOperators.Group.List

/-!
Finding transactions (`main.cpp`: `GetTransaction`, `FindBlockByHeight`, the transaction index in
`ConnectBlock`).

`ConnectBlock` computes where each transaction of a block lies from the sizes of those before it.
The block files are byte strings, with the positions that `FindBlockPos` gives. The coins, the entries
and the best chain are any.

* `readTx_of_split`: a transaction lies where the sizes say;
* `TxStores.lookupCorrect_of_run`: transactions are found as long as no block is written over another;
* `TxStores.not_forall_lookupCorrect`: a block written over another one, after a reindex.
-/

namespace Manna

open Codec ByteFile OpProg

/-- `CDiskTxPos`: the offset counts from the end of the header. -/
structure CDiskTxPos extends CDiskBlockPos where
  nTxOffset : Nat
deriving DecidableEq

/-- The entries that the loop of `ConnectBlock` collects, from an offset on. -/
def vPosFrom (env : Env) (pos : CDiskBlockPos) : Nat → List CTransaction → List (Uint256 × CDiskTxPos)
  | _, [] => []
  | nTxOffset, tx :: vtx =>
    (env.txHash tx, ⟨pos, nTxOffset⟩) ::
      vPosFrom env pos (uint32 (nTxOffset + tx.getSerializeSize)) vtx

def CBlock.vPos (env : Env) (pos : CDiskBlockPos) (block : CBlock) : List (Uint256 × CDiskTxPos) :=
  vPosFrom env pos (getSizeOfCompactSize block.vtx.length) block.vtx

def writeTxIndex (vect : List (Uint256 × CDiskTxPos)) (txIndex : Finmap fun _ : Uint256 => CDiskTxPos) :
    Finmap fun _ : Uint256 => CDiskTxPos :=
  vect.foldl (fun txIndex entry => txIndex.insert entry.1 entry.2) txIndex

/-- A call of `ConnectBlock` that gets to the transaction index. -/
def ConnectedIndexed (env : Env) (block : CBlock) : Prop :=
  ∃ (σ : Type) (h : Handler CoinsOp σ) (io : DiskIO) (nAdjustedTime : Int)
    (mapBlockIndex : Uint256 → Option CBlockIndex) (pindex : CBlockIndex) (view : σ) (disk : BlockFiles)
    (blockundo : CBlockUndo),
    (connectBlock h env io nAdjustedTime mapBlockIndex block pindex false view disk).outcome =
      .ok blockundo ∧ env.fTxIndex = true ∧ block.getHash env ≠ env.hashGenesisBlock

def CBlock.Typed (block : CBlock) : Prop :=
  block.toCBlockHeader.Representable ∧ ∀ tx ∈ block.vtx, tx.Representable

/-! ### The stores -/

/-- The coins, the entries and the best chain. -/
structure ChainState where
  /-- `pcoinsTip`. -/
  coins : Uint256 → Option CCoins
  entry : Uint256 → Option CBlockIndex
  /-- `GetBlockPos` of the entries that have data. -/
  blockPos : Uint256 → Option CDiskBlockPos
  nBestHeight : Int
  pindexGenesisBlock : Option Uint256
  pindexBest : Option Uint256
  pblockindexFBBHLast : Option Uint256

structure TxStores where
  /-- The block files. -/
  files : Nat → Option (List UInt8)
  /-- `infoLastBlockFile`, and what is stored of the files before. -/
  blockFiles : BlockFileTable
  mempool : CTxMemPool
  txIndex : Finmap fun _ : Uint256 => CDiskTxPos
  chain : ChainState
  /-- The blocks that were stored, each at its position. -/
  written : List (CDiskBlockPos × CBlock)
  /-- Those that `ConnectBlock` connected, the last one first. -/
  connected : List (CDiskBlockPos × CBlock)

namespace ChainState

/-- A walk from an entry along pointers; `none` at a null pointer. -/
def walk (chain : ChainState) (pointer : CBlockIndex → Option Uint256) (goesOn : CBlockIndex → Bool) :
    Nat → CBlockIndex → Option CBlockIndex
  | 0, _ => none
  | steps + 1, pblockindex =>
    if goesOn pblockindex then
      match (pointer pblockindex).bind chain.entry with
      | none => none
      | some pblockindex => chain.walk pointer goesOn steps pblockindex
    else some pblockindex

def walkStart (chain : ChainState) (nHeight : Int) : Option CBlockIndex :=
  let pblockindex? := (if nHeight < chain.nBestHeight.tdiv 2 then chain.pindexGenesisBlock
    else chain.pindexBest).bind chain.entry
  match pblockindex?, chain.pblockindexFBBHLast.bind chain.entry with
  | some pblockindex, some pblockindexFBBHLast =>
    if (nHeight - pblockindex.nHeight).natAbs > (nHeight - pblockindexFBBHLast.nHeight).natAbs then
      some pblockindexFBBHLast
    else some pblockindex
  | pblockindex?, _ => pblockindex?

/-- `FindBlockByHeight`, for walks of so many steps. -/
def findBlockByHeight (steps : Nat) (nHeight : Int) (chain : ChainState) :
    Option CBlockIndex × ChainState :=
  let found := ((chain.walkStart nHeight).bind
    (chain.walk CBlockIndex.pprev (fun pblockindex => decide (pblockindex.nHeight > nHeight)) steps)).bind
      (chain.walk CBlockIndex.pnext (fun pblockindex => decide (pblockindex.nHeight < nHeight)) steps)
  match found with
  | none => (none, chain)
  | some pblockindex => (some pblockindex, { chain with pblockindexFBBHLast := some pblockindex.phashBlock })

end ChainState

namespace TxStores

/-- `OpenBlockFile`: the bytes from a position on. -/
def openBlockFile (s : TxStores) (pos : CDiskBlockPos) : Option (List UInt8) :=
  (s.files pos.nFile).map (·.drop pos.nPos)

/-- The header of a block, and the transaction at an offset behind it. -/
def readTx (chunks : Chunks) (nTxOffset : Nat) (file : List UInt8) : Option (CBlockHeader × CTransaction) :=
  match CBlockHeader.unserialize file with
  | none => none
  | some (header, file) =>
    match CTransaction.unserialize chunks (file.drop nTxOffset) with
    | none => none
    | some (tx, _) => some (header, tx)

def readFromDisk (chunks : Chunks) (env : Env) (s : TxStores) (pindex : CBlockIndex) : Option CBlock :=
  match ((s.chain.blockPos pindex.phashBlock).bind s.openBlockFile).bind
      (CBlock.unserialize chunks SER_DISK) with
  | none => none
  | some (block, _) =>
    if !checkProofOfWork (env.powHash block.toCBlockHeader) block.nBits then none
    else if block.getHash env ≠ pindex.phashBlock then none
    else some block

/-- The last part of `GetTransaction`: the block at the height of the coin is searched. -/
def scanBlock (chunks : Chunks) (env : Env) (s : TxStores) (steps : Nat) (hash : Uint256) :
    Option (CTransaction × Option Uint256) × TxStores :=
  match s.chain.coins hash with
  | none => (none, s)
  | some coins =>
    if coins.nHeight > 0 then
      match s.chain.findBlockByHeight steps coins.nHeight with
      | (none, chain) => (none, { s with chain })
      | (some pindexSlow, chain) =>
        match s.readFromDisk chunks env pindexSlow with
        | none => (none, { s with chain })
        | some block =>
          ((block.vtx.find? fun tx => env.txHash tx == hash).map fun tx =>
            (tx, some pindexSlow.phashBlock), { s with chain })
    else (none, s)

/-- `GetTransaction`: the transaction and `hashBlock`, where it was set. -/
def getTransaction (chunks : Chunks) (env : Env) (s : TxStores) (steps : Nat) (hash : Uint256)
    (fAllowSlow : Bool) : Option (CTransaction × Option Uint256) × TxStores :=
  match s.mempool.mapTx.lookup hash with
  | some tx => (some (tx, none), s)
  | none =>
    match (if env.fTxIndex then s.txIndex.lookup hash else none) with
    | some postx =>
      match (s.openBlockFile postx.toCDiskBlockPos).bind (readTx chunks postx.nTxOffset) with
      | none => (none, s)
      | some (header, tx) =>
        if env.txHash tx ≠ hash then (none, s) else (some (tx, some (env.blockHash header)), s)
    | none => if fAllowSlow then s.scanBlock chunks env steps hash else (none, s)

/-! ### Runs -/

def record (stored : CDiskBlockPos × CBlock) : StoredBlock :=
  ⟨stored.1.nFile, stored.1.nPos, (stored.2.serialize SER_DISK).length⟩

def blocks (s : TxStores) : BlockStore := ⟨s.blockFiles, s.written.map record⟩

def writeFile (nFile p : Nat) (bytes : List UInt8) (s : TxStores) : TxStores :=
  { s with files := Function.update s.files nFile (some (write p bytes ((s.files nFile).getD []))) }

/-- What the program does to the stores. -/
inductive Call where
  /-- `AcceptBlock` of a new block, with the magic and the size that go before it. -/
  | append (io : FileIO) (vchHeader : List UInt8) (block : CBlock) (nHeight nTime : Nat)
  /-- `AcceptBlock` of a block that `LoadExternalBlockFile` found in a file. -/
  | found (io : FileIO) (pos : FoundPos) (block : CBlock) (nHeight nTime : Nat)
  | findUndoPos (io : FileIO) (nFile nAddSize : Nat)
  | restart
  /-- Zeros of `AllocateFileRange`, and what is left of a write that fails. -/
  | writeFile (nFile p : Nat) (bytes : List UInt8)
  /-- `TruncateFile` in `FlushBlockFile`. -/
  | truncateFile (nFile : Nat)
  | connectBlock (pos : CDiskBlockPos) (block : CBlock)
  | addUnchecked (tx : CTransaction)
  | remove (tx : CTransaction) (fRecursive : Bool)
  | removeConflicts (tx : CTransaction)
  | clear
  /-- The coins, the entries and the best chain change. -/
  | chain (chain : ChainState)

/-- The positions of a chain's entries are those of stored blocks. -/
def Positioned (chain : ChainState) (written : List (CDiskBlockPos × CBlock)) : Prop :=
  ∀ hash pos, chain.blockPos hash = some pos → ∃ block, (pos, block) ∈ written

/-- A block that went through `ProcessBlock`, as values of its types. -/
structure Accepted (block : CBlock) : Prop where
  typed : block.Typed
  size_le : block.serializeSize ≤ MAX_BLOCK_SIZE

/-- A call and the stores after it. -/
inductive Step (chunks : Chunks) (env : Env) (s : TxStores) : Call → TxStores → Prop where
  | append {io : FileIO} {vchHeader : List UInt8} {block : CBlock} {nHeight nTime : Nat}
      {pos : CDiskBlockPos} {blockFiles : BlockFileTable} (haccepted : Accepted block)
      (hheader : vchHeader.length = 8)
      (hstore : s.blockFiles.storeBlock io none (block.getSerializeSize SER_DISK) nHeight nTime =
        some (.ok pos, blockFiles)) :
      Step chunks env s (.append io vchHeader block nHeight nTime)
        { s.writeFile pos.nFile (pos.nPos - 8) (vchHeader ++ block.serialize SER_DISK) with
          blockFiles, written := (pos, block) :: s.written }
  | appendFails {io : FileIO} {vchHeader : List UInt8} {block : CBlock} {nHeight nTime : Nat} {e : Halt}
      {blockFiles : BlockFileTable}
      (hstore : s.blockFiles.storeBlock io none (block.getSerializeSize SER_DISK) nHeight nTime =
        some (.error e, blockFiles)) :
      Step chunks env s (.append io vchHeader block nHeight nTime) { s with blockFiles }
  | found {io : FileIO} {pos : FoundPos} {block : CBlock} {nHeight nTime : Nat}
      {pos' : CDiskBlockPos} {blockFiles : BlockFileTable} {rest : List UInt8} (haccepted : Accepted block)
      (hread : (s.openBlockFile pos.toCDiskBlockPos).bind (CBlock.unserialize chunks SER_DISK) =
        some (block, rest))
      (hstore : s.blockFiles.storeBlock io (some pos.toCDiskBlockPos) (block.getSerializeSize SER_DISK)
        nHeight nTime = some (.ok pos', blockFiles)) :
      Step chunks env s (.found io pos block nHeight nTime)
        { s with blockFiles, written := (pos', block) :: s.written }
  | foundFails {io : FileIO} {pos : FoundPos} {block : CBlock} {nHeight nTime : Nat} {e : Halt}
      {blockFiles : BlockFileTable}
      (hstore : s.blockFiles.storeBlock io (some pos.toCDiskBlockPos) (block.getSerializeSize SER_DISK)
        nHeight nTime = some (.error e, blockFiles)) :
      Step chunks env s (.found io pos block nHeight nTime) { s with blockFiles }
  | findUndoPos (io : FileIO) (nFile nAddSize : Nat) :
      Step chunks env s (.findUndoPos io nFile nAddSize)
        { s with blockFiles := s.blockFiles.findUndoPos io nFile nAddSize }
  | restart : Step chunks env s .restart { s with blockFiles := s.blockFiles.restart }
  | writeFile {nFile p : Nat} (bytes : List UInt8) (hbehind : s.blockFiles.counted nFile ≤ p) :
      Step chunks env s (.writeFile nFile p bytes) (s.writeFile nFile p bytes)
  | truncateFile (nFile : Nat) :
      Step chunks env s (.truncateFile nFile)
        { s with
          files := Function.update s.files nFile
            ((s.files nFile).map (·.take (s.blockFiles.counted nFile))) }
  | connectBlock {pos : CDiskBlockPos} {block : CBlock} (hwritten : (pos, block) ∈ s.written)
      (hconnected : ConnectedIndexed env block) :
      Step chunks env s (.connectBlock pos block)
        { s with
          txIndex := writeTxIndex (block.vPos env pos) s.txIndex
          connected := (pos, block) :: s.connected }
  | addUnchecked (tx : CTransaction) :
      Step chunks env s (.addUnchecked tx) { s with mempool := s.mempool.addUnchecked (env.txHash tx) tx }
  | remove (tx : CTransaction) (fRecursive : Bool) :
      Step chunks env s (.remove tx fRecursive) { s with mempool := s.mempool.remove env tx fRecursive }
  | removeConflicts (tx : CTransaction) :
      Step chunks env s (.removeConflicts tx) { s with mempool := s.mempool.removeConflicts env tx }
  | clear : Step chunks env s .clear { s with mempool := s.mempool.clear }
  | chain {chain : ChainState} (hpositioned : Positioned chain s.written) :
      Step chunks env s (.chain chain) { s with chain }

/-- The stores of all runs whose calls meet a condition; files may be there before. -/
inductive Run (chunks : Chunks) (env : Env) (Meets : TxStores → Call → Prop) : TxStores → Prop where
  | start (files : Nat → Option (List UInt8)) {chain : ChainState} (hpositioned : Positioned chain []) :
      Run chunks env Meets ⟨files, .empty, .empty, ∅, chain, [], []⟩
  | step {s s' : TxStores} {call : Call} : Run chunks env Meets s → Meets s call →
      Step chunks env s call s' → Run chunks env Meets s'

/-- **The condition on a call**: a block that is stored fits, so that it is not written over others,
nor behind bytes of its file that are not counted; and a block that was found lies there as
`WriteToDisk` lays it out. -/
def Fits (s : TxStores) : Call → Prop
  | .append io _ block nHeight nTime =>
    FileCall.Fits s.blocks (.append io (block.getSerializeSize SER_DISK) nHeight nTime)
  | .found io pos block nHeight nTime =>
    FileCall.Fits s.blocks (.found io pos (block.getSerializeSize SER_DISK) nHeight nTime) ∧
      ∃ content, s.files pos.nFile = some content ∧ Holds content pos.nPos (block.serialize SER_DISK)
  | _ => True

/-- **Transactions are found.** -/
structure LookupCorrect (chunks : Chunks) (env : Env) (s : TxStores) : Prop where
  /-- Reading at the entry of a transaction of a connected block yields that transaction, unless a
  block that was connected later has one of the same id: then the entry is that one's. -/
  entries : ∀ later pos block earlier, s.connected = later ++ (pos, block) :: earlier →
    ∀ tx ∈ block.vtx, (∀ other ∈ later, ∀ tx' ∈ other.2.vtx, env.txHash tx' ≠ env.txHash tx) →
      ∃ postx file, s.txIndex.lookup (env.txHash tx) = some postx ∧ postx.toCDiskBlockPos = pos ∧
        s.openBlockFile pos = some file ∧
        readTx chunks postx.nTxOffset file = some (block.toCBlockHeader, tx)
  /-- What `GetTransaction` returns is what was asked for, in a stored block where it names one. -/
  answers : ∀ (steps : Nat) (hash : Uint256) (fAllowSlow : Bool) (tx : CTransaction)
    (hashBlock : Option Uint256),
    (s.getTransaction chunks env steps hash fAllowSlow).1 = some (tx, hashBlock) →
      env.txHash tx = hash ∧ ∀ h ∈ hashBlock, ∃ stored ∈ s.written,
        stored.2.getHash env = h ∧ tx ∈ stored.2.vtx

/-- What every step keeps. -/
structure Sound (env : Env) (s : TxStores) : Prop where
  /-- `mapTx` is keyed by hash. -/
  keyed : ∀ hash tx, s.mempool.mapTx.lookup hash = some tx → env.txHash tx = hash
  kept : s.blocks.Kept
  /-- The blocks are where they were written. -/
  onDisk : ∀ stored ∈ s.written, Accepted stored.2 ∧ ∃ content, s.files stored.1.nFile = some content ∧
    Holds content stored.1.nPos (stored.2.serialize SER_DISK)
  /-- The index has the entries of the connected blocks. -/
  txIndex : s.txIndex = s.connected.foldr (fun c txIndex => writeTxIndex (c.2.vPos env c.1) txIndex) ∅
  connected : ∀ c ∈ s.connected, c ∈ s.written ∧ ConnectedIndexed env c.2
  positioned : Positioned s.chain s.written

end TxStores

/-! ### Where a transaction lies -/

theorem withTransactions_disk : withTransactions SER_DISK = true := rfl

theorem serialize_disk (block : CBlock) : block.serialize SER_DISK =
    block.toCBlockHeader.serialize ++ (writeVector CTransaction.serialize block.vtx ++
      writeVector (fun b => [b]) block.vchBlockSig) := by
  rw [CBlock.serialize, withTransactions_disk, if_pos rfl]

/-- **A transaction lies where the sizes say.** -/
theorem readTx_of_split (chunks : Chunks) {block : CBlock} (h : block.Readable)
    {pre post : List CTransaction} {tx : CTransaction} (hvtx : block.vtx = pre ++ tx :: post)
    (rest : List UInt8) : TxStores.readTx chunks
        (getSizeOfCompactSize block.vtx.length + (pre.map fun tx => tx.serialize.length).sum)
        (block.serialize SER_DISK ++ rest) = some (block.toCBlockHeader, tx) := by
  have hheader := reads_header h.header
  have htx : tx.Readable := h.vtx tx (hvtx ▸ List.mem_append_right _ List.mem_cons_self)
  -- What lies before the transaction, and what follows it.
  let before := writeCompactSize block.vtx.length ++ pre.flatMap CTransaction.serialize
  let after := post.flatMap CTransaction.serialize ++ (writeVector (fun b => [b]) block.vchBlockSig ++ rest)
  have hlen : before.length = getSizeOfCompactSize block.vtx.length +
      (pre.map fun tx => tx.serialize.length).sum := by
    rw [List.length_append, length_writeCompactSize, List.length_flatMap]
  have hsplit : writeVector CTransaction.serialize block.vtx ++
      writeVector (fun b => [b]) block.vchBlockSig ++ rest = before ++ (tx.serialize ++ after) := by
    have hflat : block.vtx.flatMap CTransaction.serialize =
        pre.flatMap CTransaction.serialize ++ (tx.serialize ++ post.flatMap CTransaction.serialize) := by
      rw [hvtx, List.flatMap_append, List.flatMap_cons]
    rw [writeVector, hflat]
    simp only [before, after, List.append_assoc]
  unfold TxStores.readTx
  rw [serialize_disk, List.append_assoc, hsplit, hheader]
  dsimp only
  rw [← hlen, List.drop_left, reads_transaction chunks htx]

theorem length_le_serializeSize {α : Type} {v : List α} {size : α → Nat} (hpos : ∀ a ∈ v, 0 < size a) :
    v.length ≤ (v.map size).sum := by
  induction v with
  | nil => exact Nat.zero_le _
  | cons a v ih =>
    rw [List.forall_mem_cons] at hpos
    have hle := ih hpos.2
    rw [List.length_cons, List.map_cons, List.sum_cons]
    omega

theorem CTransaction.Representable.readable {tx : CTransaction} (h : tx.Representable)
    (hsize : tx.serializeSize ≤ MAX_SIZE) : tx.Readable := by
  have hin : ∀ txin ∈ tx.vin, txin.scriptSig.length + 40 ≤ txin.serializeSize := by
    intro txin _
    rw [CTxIn.serializeSize, CScript.serializeSize]
    omega
  have hout : ∀ txout ∈ tx.vout, txout.scriptPubKey.length + 8 ≤ txout.serializeSize := by
    intro txout _
    rw [CTxOut.serializeSize, CScript.serializeSize]
    omega
  have hvin : tx.vin.length ≤ (tx.vin.map CTxIn.serializeSize).sum :=
    length_le_serializeSize fun txin htxin => by have := hin txin htxin; omega
  have hvout : tx.vout.length ≤ (tx.vout.map CTxOut.serializeSize).sum :=
    length_le_serializeSize fun txout htxout => by have := hout txout htxout; omega
  rw [CTransaction.serializeSize] at hsize
  refine ⟨h, by omega, fun txin htxin => ?_, by omega, fun txout htxout => ?_⟩
  · have hle := List.le_sum_of_mem (List.mem_map_of_mem (f := CTxIn.serializeSize) htxin)
    have hscript := hin txin htxin
    omega
  · have hle := List.le_sum_of_mem (List.mem_map_of_mem (f := CTxOut.serializeSize) htxout)
    have hscript := hout txout htxout
    omega

theorem CBlock.Typed.readable {block : CBlock} (h : block.Typed)
    (hsize : block.serializeSize ≤ MAX_BLOCK_SIZE) : block.Readable := by
  have hmax : MAX_BLOCK_SIZE ≤ MAX_SIZE := by decide
  have hle : ∀ tx ∈ block.vtx, 0 < tx.serializeSize := by
    intro tx _
    rw [CTransaction.serializeSize]
    omega
  have hlen := length_le_serializeSize hle
  rw [CBlock.serializeSize] at hsize
  refine ⟨h.1, by omega, fun tx htx => (h.2 tx htx).readable ?_, by omega⟩
  have hle := List.le_sum_of_mem (List.mem_map_of_mem (f := CTransaction.serializeSize) htx)
  omega

/-! ### The entries of a block -/

section

variable {env : Env} {pos : CDiskBlockPos}

/-- **The entries are the sums of the sizes**, as long as they do not wrap. -/
theorem mem_vPosFrom {nTxOffset : Nat} {vtx : List CTransaction}
    (hsize : nTxOffset + (vtx.map CTransaction.serializeSize).sum < 2 ^ 32) {hash : Uint256}
    {postx : CDiskTxPos} (hmem : (hash, postx) ∈ vPosFrom env pos nTxOffset vtx) :
    ∃ pre tx post, vtx = pre ++ tx :: post ∧ env.txHash tx = hash ∧
      postx = ⟨pos, nTxOffset + (pre.map fun tx => tx.serialize.length).sum⟩ := by
  induction vtx generalizing nTxOffset with
  | nil => cases hmem
  | cons tx vtx ih =>
    rw [List.map_cons, List.sum_cons] at hsize
    rw [vPosFrom, List.mem_cons] at hmem
    rcases hmem with hhead | htail
    · cases hhead
      exact ⟨[], tx, vtx, rfl, rfl, rfl⟩
    · have hlen : tx.getSerializeSize = tx.serializeSize := by
        rw [CTransaction.getSerializeSize_eq, length_transaction]
        exact Nat.mod_eq_of_lt (show tx.serializeSize < 2 ^ 32 by omega)
      rw [hlen, uint32_of_lt (by omega)] at htail
      obtain ⟨pre, tx', post, hvtx, hhash, hpostx⟩ := ih (by omega) htail
      refine ⟨tx :: pre, tx', post, by rw [hvtx, List.cons_append], hhash, ?_⟩
      rw [hpostx, List.map_cons, List.sum_cons, length_transaction, Nat.add_assoc]

theorem exists_mem_vPosFrom {tx : CTransaction} {vtx : List CTransaction} (hmem : tx ∈ vtx) (nTxOffset : Nat) :
    ∃ postx, (env.txHash tx, postx) ∈ vPosFrom env pos nTxOffset vtx := by
  induction vtx generalizing nTxOffset with
  | nil => cases hmem
  | cons tx' vtx ih =>
    rcases List.mem_cons.mp hmem with rfl | hmem
    · exact ⟨_, List.mem_cons_self⟩
    · obtain ⟨postx, hpostx⟩ := ih hmem (uint32 (nTxOffset + tx'.getSerializeSize))
      exact ⟨postx, List.mem_cons_of_mem _ hpostx⟩

theorem lookup_writeTxIndex (vect : List (Uint256 × CDiskTxPos))
    (txIndex : Finmap fun _ : Uint256 => CDiskTxPos) (hash : Uint256) :
    (∃ postx, (hash, postx) ∈ vect ∧ (writeTxIndex vect txIndex).lookup hash = some postx) ∨
      ((∀ entry ∈ vect, entry.1 ≠ hash) ∧ (writeTxIndex vect txIndex).lookup hash = txIndex.lookup hash) := by
  induction vect generalizing txIndex with
  | nil => exact .inr ⟨nofun, rfl⟩
  | cons entry vect ih =>
    have hfold : writeTxIndex (entry :: vect) txIndex =
        writeTxIndex vect (txIndex.insert entry.1 entry.2) := rfl
    rw [hfold]
    rcases ih (txIndex.insert entry.1 entry.2) with ⟨postx, hmem, hlookup⟩ | ⟨hne, hlookup⟩
    · exact .inl ⟨postx, List.mem_cons_of_mem _ hmem, hlookup⟩
    · by_cases hhash : entry.1 = hash
      · subst hhash
        exact .inl ⟨entry.2, List.mem_cons_self, hlookup.trans (Finmap.lookup_insert _)⟩
      · rw [Finmap.lookup_insert_of_ne _ (Ne.symm hhash)] at hlookup
        exact .inr ⟨List.forall_mem_cons.mpr ⟨hhash, hne⟩, hlookup⟩

/-- A connected block passed `CheckBlock`. -/
theorem ConnectedIndexed.checked {block : CBlock} (h : ConnectedIndexed env block) :
    CheckedBlock env block := by
  obtain ⟨σ, handler, io, nAdjustedTime, mapBlockIndex, pindex, view, disk, blockundo, hok, -, -⟩ := h
  unfold connectBlock at hok
  dsimp only at hok
  cases hrun : (connectBlockChecks env nAdjustedTime (heightOf mapBlockIndex) block pindex false).run
      handler view with
  | mk result view' =>
    rw [hrun] at hok
    cases result with
    | error e => cases hok
    | ok state =>
      obtain ⟨_, _, hcheck, -⟩ := Prog.run_bind_eq_ok.mp hrun
      rw [Prog.run_ofExcept, Prod.mk.injEq] at hcheck
      exact .of_checkBlock hcheck.1

theorem ConnectedIndexed.mem_vPos {block : CBlock} (h : ConnectedIndexed env block) {hash : Uint256}
    {postx : CDiskTxPos} (hmem : (hash, postx) ∈ block.vPos env pos) :
    ∃ pre tx post, block.vtx = pre ++ tx :: post ∧ env.txHash tx = hash ∧
      postx = ⟨pos, getSizeOfCompactSize block.vtx.length + (pre.map fun tx => tx.serialize.length).sum⟩ := by
  have hsize := h.checked.size_le
  have hmax : MAX_BLOCK_SIZE < 2 ^ 32 := by decide
  rw [CBlock.serializeSize] at hsize
  exact mem_vPosFrom (by omega) hmem

end

/-! ### Every step keeps what holds -/

namespace TxStores

section

variable {chunks : Chunks} {env : Env} {s s' : TxStores} {call : Call}

theorem files_writeFile (s : TxStores) (nFile p : Nat) (bytes : List UInt8) :
    (s.writeFile nFile p bytes).files =
      Function.update s.files nFile (some (write p bytes ((s.files nFile).getD []))) := rfl

theorem serialize_ne_nil (block : CBlock) : block.serialize SER_DISK ≠ [] := by
  intro hnil
  have hlen := congrArg List.length hnil
  rw [serialize_disk, List.length_append, length_header] at hlen
  cases (Nat.add_eq_zero_iff.mp hlen).1

variable {block : CBlock} {blockFiles : BlockFileTable} {hash : Uint256}

theorem Accepted.readable (h : Accepted block) : block.Readable :=
  h.typed.readable h.size_le

/-- The size that `AcceptBlock` asks for is that of the block. -/
theorem Accepted.getSerializeSize (h : Accepted block) :
    block.getSerializeSize SER_DISK = (block.serialize SER_DISK).length := by
  have hmax : MAX_BLOCK_SIZE < uintMod := by decide
  have hlen := length_block withTransactions_disk block
  rw [CBlock.getSerializeSize_eq, Nat.mod_eq_of_lt (by have := h.size_le; omega)]

theorem Sound.onDisk_writeFile (h : s.Sound env) {nFile p : Nat} {bytes : List UInt8}
    (hapart : ∀ stored ∈ s.written, stored.1.nFile = nFile →
      (record stored).stop ≤ p ∨ p + bytes.length ≤ (record stored).start) :
    ∀ stored ∈ s.written, Accepted stored.2 ∧
      ∃ content, (s.writeFile nFile p bytes).files stored.1.nFile = some content ∧
        Holds content stored.1.nPos (stored.2.serialize SER_DISK) := by
  intro stored hmem
  obtain ⟨haccepted, content, hcontent, hholds⟩ := h.onDisk stored hmem
  refine ⟨haccepted, ?_⟩
  by_cases hfile : stored.1.nFile = nFile
  · subst hfile
    refine ⟨write p bytes content, ?_, hholds.write (serialize_ne_nil _) ?_⟩
    · rw [files_writeFile, Function.update_self, hcontent, Option.getD_some]
    · exact (hapart stored hmem rfl).imp id fun hbefore => hbefore.trans (Nat.sub_le _ _)
  · refine ⟨content, ?_, hholds⟩
    rw [files_writeFile, Function.update_of_ne hfile]
    exact hcontent

theorem Sound.stop_le (h : s.Sound env) {stored : CDiskBlockPos × CBlock} (hmem : stored ∈ s.written) :
    (record stored).stop ≤ s.blockFiles.counted stored.1.nFile :=
  h.kept.counted (record stored) (List.mem_map_of_mem hmem)

theorem Sound.sub (h : s.Sound env) {mempool : CTxMemPool} (hsub : mempool.Sub s.mempool) :
    ({ s with mempool } : TxStores).Sound env :=
  { h with keyed := fun hash tx hlookup => h.keyed hash tx (hsub hash tx hlookup) }

theorem Sound.counters (h : s.Sound env) (hkept : (⟨blockFiles, s.blocks.indexed⟩ : BlockStore).Kept) :
    ({ s with blockFiles } : TxStores).Sound env :=
  { h with kept := hkept }

/-- What `AcceptBlock` does to the records, with the condition of its call. -/
theorem kept_storeBlock (h : s.Sound env) {io : FileIO} {dbp : Option CDiskBlockPos}
    {nHeight nTime : Nat} {result : Except Halt CDiskBlockPos}
    (hstore : s.blockFiles.storeBlock io dbp (block.getSerializeSize SER_DISK) nHeight nTime =
      some (result, blockFiles)) (fileCall : FileCall) (hcall : ∀ blocks, fileCall.run blocks =
      FileCall.store io dbp (block.getSerializeSize SER_DISK) nHeight nTime blocks)
    (hfits : fileCall.Fits s.blocks) :
    match result with
    | .error _ => (⟨blockFiles, s.blocks.indexed⟩ : BlockStore).Kept
    | .ok pos => (⟨blockFiles, ⟨pos.nFile, pos.nPos, block.getSerializeSize SER_DISK⟩ ::
        s.blocks.indexed⟩ : BlockStore).Kept := by
  have hrun : fileCall.run s.blocks = some (match result with
      | .error _ => ⟨blockFiles, s.blocks.indexed⟩
      | .ok pos => ⟨blockFiles, ⟨pos.nFile, pos.nPos, block.getSerializeSize SER_DISK⟩ ::
          s.blocks.indexed⟩) := by
    rw [hcall, FileCall.store]
    refine (congrArg (Option.map _) hstore).trans ?_
    cases result <;> rfl
  have hkept := FileCall.kept_run h.kept hrun hfits
  cases result <;> exact hkept

theorem apart_of_kept (stored : CDiskBlockPos × CBlock)
    (h : (⟨blockFiles, record stored :: s.blocks.indexed⟩ : BlockStore).Kept) :
    ∀ other ∈ s.written, (record stored).Apart (record other) := fun _ hmem =>
  (List.pairwise_cons.mp h.apart).1 _ (List.mem_map_of_mem hmem)

/-- **Every call keeps the stores sound** where it meets its condition. -/
theorem Step.sound (h : s.Sound env) (hfits : s.Fits call) (hstep : Step chunks env s call s') :
    s'.Sound env := by
  cases hstep with
  | @append io vchHeader block nHeight nTime pos blockFiles haccepted hheader hstore =>
    have hkept := kept_storeBlock h hstore (.append io _ nHeight nTime) (fun _ => rfl) hfits
    obtain ⟨nFile, info, written, -, -, hpos⟩ := BlockFileTable.storeBlock_spec hstore
    have height : 8 ≤ pos.nPos := by
      rw [(hpos pos rfl).2.2]
      exact Nat.le_add_left 8 _
    dsimp only at hkept
    rw [haccepted.getSerializeSize] at hkept
    have hother : ∀ stored ∈ s.written, stored.1.nFile = pos.nFile →
        (record stored).stop ≤ pos.nPos - 8 ∨
          pos.nPos - 8 + (vchHeader ++ block.serialize SER_DISK).length ≤ (record stored).start := by
      intro stored hmem hfile
      have hapart := apart_of_kept (pos, block) hkept stored hmem hfile.symm
      rw [List.length_append, hheader]
      simp only [record, StoredBlock.start, StoredBlock.stop] at hapart ⊢
      omega
    refine ⟨h.keyed, hkept, List.forall_mem_cons.mpr ⟨⟨haccepted, _, Function.update_self .., ?_⟩,
      h.onDisk_writeFile hother⟩, h.txIndex, fun c hc => ?_, fun hash p hp => ?_⟩
    · have hholds := (holds_write (pos.nPos - 8) (vchHeader ++ block.serialize SER_DISK)
        ((s.files pos.nFile).getD [])).of_append
      rwa [hheader, Nat.sub_add_cancel height] at hholds
    · exact ⟨List.mem_cons_of_mem _ (h.connected c hc).1, (h.connected c hc).2⟩
    · exact (h.positioned hash p hp).imp fun _ hmem => List.mem_cons_of_mem _ hmem
  | @appendFails io _ block nHeight nTime _ _ hstore =>
    exact h.counters (kept_storeBlock h hstore (.append io _ nHeight nTime) (fun _ => rfl) hfits)
  | @found io pos block nHeight nTime pos' blockFiles rest haccepted hread hstore =>
    have hkept := kept_storeBlock h hstore (.found io pos _ nHeight nTime) (fun _ => rfl) hfits.1
    obtain ⟨nFile, info, written, hchoose, -, hpos⟩ := BlockFileTable.storeBlock_spec hstore
    cases hchoose
    obtain rfl : pos' = pos.toCDiskBlockPos := (hpos pos' rfl).2.2
    dsimp only at hkept
    rw [haccepted.getSerializeSize] at hkept
    exact ⟨h.keyed, hkept, List.forall_mem_cons.mpr ⟨⟨haccepted, hfits.2⟩, h.onDisk⟩, h.txIndex,
      fun c hc => ⟨List.mem_cons_of_mem _ (h.connected c hc).1, (h.connected c hc).2⟩,
      fun hash p hp => (h.positioned hash p hp).imp fun _ hmem => List.mem_cons_of_mem _ hmem⟩
  | @foundFails io pos block nHeight nTime _ _ hstore =>
    exact h.counters (kept_storeBlock h hstore (.found io pos _ nHeight nTime) (fun _ => rfl) hfits.1)
  | findUndoPos io nFile nAddSize =>
    have hcall : FileCall.Fits s.blocks (.findUndoPos io nFile nAddSize) := trivial
    exact h.counters (FileCall.kept_run h.kept rfl hcall)
  | restart =>
    have hcall : FileCall.Fits s.blocks .restart := trivial
    exact h.counters (FileCall.kept_run h.kept rfl hcall)
  | writeFile bytes hbehind =>
    refine { h with onDisk := h.onDisk_writeFile fun stored hmem hfile => .inl ?_ }
    exact (h.stop_le hmem).trans (hfile ▸ hbehind)
  | truncateFile nFile =>
    refine { h with onDisk := fun stored hmem => ?_ }
    obtain ⟨haccepted, content, hcontent, hholds⟩ := h.onDisk stored hmem
    refine ⟨haccepted, ?_⟩
    by_cases hfile : stored.1.nFile = nFile
    · subst hfile
      refine ⟨content.take (s.blockFiles.counted stored.1.nFile), ?_, hholds.truncate (h.stop_le hmem)⟩
      dsimp only
      rw [Function.update_self, hcontent, Option.map_some]
    · exact ⟨content, (Function.update_of_ne hfile ..).trans hcontent, hholds⟩
  | connectBlock hwritten hconnected =>
    refine { h with
      txIndex := ?_
      connected := List.forall_mem_cons.mpr ⟨⟨hwritten, hconnected⟩, h.connected⟩ }
    rw [List.foldr_cons, ← h.txIndex]
  | addUnchecked tx =>
    refine { h with keyed := fun hash tx' hlookup => ?_ }
    by_cases hhash : hash = env.txHash tx
    · subst hhash
      obtain rfl := Option.some.inj ((Finmap.lookup_insert s.mempool.mapTx).symm.trans hlookup)
      rfl
    · exact h.keyed hash tx' ((Finmap.lookup_insert_of_ne s.mempool.mapTx hhash).symm.trans hlookup)
  | remove tx fRecursive => exact h.sub (Wallet.SpentFlags.remove_sub tx fRecursive s.mempool)
  | removeConflicts tx => exact h.sub (Wallet.SpentFlags.removeConflicts_sub tx s.mempool)
  | clear => exact { h with keyed := nofun }
  | chain hpositioned => exact { h with positioned := hpositioned }

theorem Run.sound (hrun : Run chunks env Fits s) : s.Sound env := by
  induction hrun with
  | start files hpositioned => exact ⟨nofun, .empty, nofun, rfl, nofun, hpositioned⟩
  | step _ hfits hstep ih => exact hstep.sound ih hfits

/-! ### What the reads return -/

theorem Sound.file (h : s.Sound env) {stored : CDiskBlockPos × CBlock} (hmem : stored ∈ s.written) :
    ∃ file rest, s.openBlockFile stored.1 = some file ∧ file = stored.2.serialize SER_DISK ++ rest ∧
      stored.2.Readable := by
  obtain ⟨haccepted, content, hcontent, rest, hrest⟩ := h.onDisk stored hmem
  refine ⟨content.drop stored.1.nPos, rest, ?_, hrest.symm, haccepted.readable⟩
  rw [openBlockFile, hcontent, Option.map_some]

theorem Sound.lookup (h : s.Sound env) {postx : CDiskTxPos} (hlookup : s.txIndex.lookup hash = some postx) :
    ∃ block, (postx.toCDiskBlockPos, block) ∈ s.connected ∧
      (hash, postx) ∈ block.vPos env postx.toCDiskBlockPos := by
  have hentries : ∀ c ∈ s.connected, c ∈ s.written ∧ ConnectedIndexed env c.2 := h.connected
  rw [h.txIndex] at hlookup
  generalize s.connected = connected at hlookup hentries ⊢
  induction connected with
  | nil => cases hlookup
  | cons c connected ih =>
    rw [List.foldr_cons] at hlookup
    obtain ⟨hfirst, hrest⟩ := List.forall_mem_cons.mp hentries
    rcases lookup_writeTxIndex (c.2.vPos env c.1) _ hash with ⟨postx', hmem, hnew⟩ | ⟨-, hold⟩
    · obtain rfl : postx' = postx := Option.some.inj (hnew.symm.trans hlookup)
      obtain ⟨pre, tx, post, -, -, heq⟩ := hfirst.2.mem_vPos hmem
      have hpos : postx'.toCDiskBlockPos = c.1 := congrArg CDiskTxPos.toCDiskBlockPos heq
      exact ⟨c.2, hpos ▸ List.mem_cons_self, hpos ▸ hmem⟩
    · obtain ⟨block, hmem, hentry⟩ := ih (hold.symm.trans hlookup) hrest
      exact ⟨block, List.mem_cons_of_mem _ hmem, hentry⟩

theorem Sound.readTx (h : s.Sound env) (chunks : Chunks) {pos : CDiskBlockPos}
    (hmem : (pos, block) ∈ s.connected) {postx : CDiskTxPos} (hentry : (hash, postx) ∈ block.vPos env pos) :
    ∃ file tx, postx.toCDiskBlockPos = pos ∧ s.openBlockFile pos = some file ∧
      TxStores.readTx chunks postx.nTxOffset file = some (block.toCBlockHeader, tx) ∧ tx ∈ block.vtx ∧
      env.txHash tx = hash := by
  obtain ⟨hwritten, hconnected⟩ := h.connected _ hmem
  obtain ⟨pre, tx, post, hvtx, hhash, rfl⟩ := hconnected.mem_vPos hentry
  obtain ⟨file, rest, hopen, hfile, hreadable⟩ := h.file hwritten
  refine ⟨file, tx, rfl, hopen, ?_, ?_, hhash⟩
  · rw [hfile, readTx_of_split chunks hreadable hvtx]
  · rw [hvtx]
    exact List.mem_append_right _ List.mem_cons_self

/-- **The entries of a connected block**, as long as no later block has the same transaction. -/
theorem Sound.entries (h : s.Sound env) (chunks : Chunks) {later earlier : List (CDiskBlockPos × CBlock)}
    {pos : CDiskBlockPos} (hsplit : s.connected = later ++ (pos, block) :: earlier)
    {tx : CTransaction} (htx : tx ∈ block.vtx)
    (hlater : ∀ other ∈ later, ∀ tx' ∈ other.2.vtx, env.txHash tx' ≠ env.txHash tx) :
    ∃ postx file, s.txIndex.lookup (env.txHash tx) = some postx ∧ postx.toCDiskBlockPos = pos ∧
      s.openBlockFile pos = some file ∧
      TxStores.readTx chunks postx.nTxOffset file = some (block.toCBlockHeader, tx) := by
  have hmem : (pos, block) ∈ s.connected := hsplit ▸ List.mem_append_right _ List.mem_cons_self
  obtain ⟨postx, hentry, hlookup⟩ : ∃ postx, (env.txHash tx, postx) ∈ block.vPos env pos ∧
      s.txIndex.lookup (env.txHash tx) = some postx := by
    have hindexed : ∀ c ∈ later, ConnectedIndexed env c.2 := fun c hc =>
      (h.connected c (hsplit ▸ List.mem_append_left _ hc)).2
    rw [h.txIndex, hsplit, List.foldr_append, List.foldr_cons]
    clear hsplit
    induction later with
    | nil =>
      rcases lookup_writeTxIndex (block.vPos env pos) _ (env.txHash tx) with hnew | ⟨hne, -⟩
      · exact hnew
      · obtain ⟨postx, hentry⟩ := exists_mem_vPosFrom htx (getSizeOfCompactSize block.vtx.length)
        exact absurd rfl (hne _ hentry)
    | cons c later ih =>
      obtain ⟨hfirst, hrest⟩ := List.forall_mem_cons.mp hlater
      obtain ⟨hconnected, hindexed⟩ := List.forall_mem_cons.mp hindexed
      obtain ⟨postx, hentry, hlookup⟩ := ih hrest hindexed
      refine ⟨postx, hentry, ?_⟩
      rw [List.foldr_cons]
      rcases lookup_writeTxIndex (c.2.vPos env c.1) _ (env.txHash tx) with ⟨postx', hnew, -⟩ | ⟨-, hold⟩
      · obtain ⟨pre, tx', post, hvtx, hhash, -⟩ := hconnected.mem_vPos hnew
        exact absurd hhash (hfirst tx' (hvtx ▸ List.mem_append_right _ List.mem_cons_self))
      · exact hold.trans hlookup
  obtain ⟨file, tx', hpos, hopen, hread, htx', hhash⟩ := h.readTx chunks hmem hentry
  -- No two transactions of a checked block have one id.
  have hnodup := (h.connected _ hmem).2.checked.txids_nodup
  obtain rfl : tx' = tx := List.inj_on_of_nodup_map hnodup htx' htx hhash
  exact ⟨postx, file, hlookup, hpos, hopen, hread⟩

theorem Sound.readFromDisk (h : s.Sound env) {pindex : CBlockIndex}
    (hread : s.readFromDisk chunks env pindex = some block) :
    (∃ pos, (pos, block) ∈ s.written) ∧ block.getHash env = pindex.phashBlock := by
  unfold TxStores.readFromDisk at hread
  split at hread
  · cases hread
  · next block' rest hfile =>
    split_ifs at hread with hpow hhash
    obtain rfl := Option.some.inj hread
    obtain ⟨file, hfile, hblock⟩ := Option.bind_eq_some_iff.mp hfile
    obtain ⟨pos, hpos, hopen⟩ := Option.bind_eq_some_iff.mp hfile
    obtain ⟨stored, hmem⟩ := h.positioned _ pos hpos
    obtain ⟨file', rest', hopen', hbytes, hreadable⟩ := h.file hmem
    obtain rfl := Option.some.inj (hopen.symm.trans hopen')
    rw [hbytes, reads_block chunks withTransactions_disk hreadable] at hblock
    obtain rfl := congrArg Prod.fst (Option.some.inj hblock)
    exact ⟨⟨pos, hmem⟩, not_not.mp hhash⟩

/-- What a found transaction and its `hashBlock` must be. -/
def Answers (env : Env) (s : TxStores) (hash : Uint256) (tx : CTransaction) (hashBlock : Option Uint256) :
    Prop :=
  env.txHash tx = hash ∧ ∀ h ∈ hashBlock, ∃ stored ∈ s.written, stored.2.getHash env = h ∧ tx ∈ stored.2.vtx

theorem Sound.scanBlock (hsound : s.Sound env) {steps : Nat} {tx : CTransaction}
    {hashBlock : Option Uint256} (h : (s.scanBlock chunks env steps hash).1 = some (tx, hashBlock)) :
    s.Answers env hash tx hashBlock := by
  unfold TxStores.scanBlock at h
  split at h
  · cases h
  · split_ifs at h
    split at h
    · cases h
    · next pindexSlow chain _ =>
      split at h
      · cases h
      · next block hread =>
        obtain ⟨⟨pos, hstored⟩, hblock⟩ := hsound.readFromDisk hread
        obtain ⟨tx', hfind, heq⟩ := Option.map_eq_some_iff.mp h
        cases heq
        have hfound := List.find?_some hfind
        refine ⟨eq_of_beq hfound, fun hb hhb => ?_⟩
        obtain rfl := Option.some.inj hhb
        exact ⟨_, hstored, hblock, List.mem_of_find?_eq_some hfind⟩

/-- **What `GetTransaction` returns**, on each of its three paths. -/
theorem Sound.getTransaction (hsound : s.Sound env) {steps : Nat} {fAllowSlow : Bool}
    {tx : CTransaction} {hashBlock : Option Uint256}
    (h : (s.getTransaction chunks env steps hash fAllowSlow).1 = some (tx, hashBlock)) :
    s.Answers env hash tx hashBlock := by
  unfold TxStores.getTransaction at h
  split at h
  · next tx' hpool =>
    cases h
    exact ⟨hsound.keyed hash tx hpool, nofun⟩
  · split at h
    · next postx hindex =>
      have hlookup : s.txIndex.lookup hash = some postx := by
        split_ifs at hindex
        exact hindex
      obtain ⟨block, hmem, hentry⟩ := hsound.lookup hlookup
      obtain ⟨file, tx', -, hopen, hread, htx, hhash⟩ := hsound.readTx chunks hmem hentry
      rw [hopen, Option.bind_some, hread] at h
      dsimp only at h
      rw [if_neg (not_not.mpr hhash)] at h
      cases h
      refine ⟨hhash, fun hb hhb => ?_⟩
      obtain rfl := Option.some.inj hhb
      exact ⟨_, (hsound.connected _ hmem).1, rfl, htx⟩
    · split_ifs at h
      exact hsound.scanBlock h

end

/-- **Transactions are found** in every run whose calls meet the condition. -/
theorem lookupCorrect_of_run (chunks : Chunks) (env : Env) (s : TxStores) (hrun : Run chunks env Fits s) :
    s.LookupCorrect chunks env where
  entries _ _ _ _ hsplit _ htx hlater := hrun.sound.entries chunks hsplit htx hlater
  answers _ _ _ _ _ h := hrun.sound.getTransaction h

/-! ### A block written over another one -/

namespace Lookup

/-- Surroundings with the transaction index. -/
def env : Env := { sampleEnv with fTxIndex := true }

def spend : CTransaction := sampleTx 7 500 [sampleIn 3 0] [COIN]

def block : CBlock := sampleBlock 1001 1000 500 [sampleCoinBase 5 500 (5 * COIN), spend]

def nextBlock : CBlock := sampleBlock 1002 1001 560 [sampleCoinBase 6 560 (5 * COIN)]

def view : CoinsMap where
  coins hash := if hash = 3 then some (.ofTx (sampleTx 3 400 [sampleIn 2 0] [2 * COIN]) 0) else none
  best := some 1000

theorem connectedIndexed : ConnectedIndexed env block :=
  ⟨CoinsMap, CoinsMap.handler, .good, 1000,
    fun hash => if hash = 1000 then some (sampleEntry 1000 none 0 400) else none,
    sampleEntry 1001 (some 1000) 1 500, view, ⟨fun _ => none, fun _ => none⟩,
    ⟨[⟨[⟨⟨2 * COIN, []⟩, false, 0, 1⟩]⟩]⟩, by decide, rfl, by decide⟩

theorem representable_sampleTx {name nTime hash n : Nat} {nValue : Int}
    (hname : name < 256 ^ 4) (hTime : nTime < 256 ^ 4) (hhash : hash < 256 ^ 32) (hn : n < 256 ^ 4)
    (hvalue : Signed 8 nValue) : (sampleTx name nTime [sampleIn hash n] [nValue]).Representable where
  nVersion := by simp [sampleTx, Signed]
  nTime := hTime
  vin := ⟨by simp [sampleTx], List.forall_mem_singleton.mpr
    ⟨⟨hhash, hn⟩, by simp [sampleIn], by simp [sampleIn, UINT_MAX]⟩⟩
  vout := ⟨by simp [sampleTx], List.forall_mem_singleton.mpr ⟨hvalue, by simp⟩⟩
  nLockTime := hname

theorem accepted_sampleBlock {name hashPrevBlock nTime : Nat} {vtx : List CTransaction}
    (hname : name < 256 ^ 4) (hprev : hashPrevBlock < 256 ^ 32) (hTime : nTime < 256 ^ 4)
    (hvtx : ∀ tx ∈ vtx, tx.Representable)
    (hsize : (sampleBlock name hashPrevBlock nTime vtx).serializeSize ≤ MAX_BLOCK_SIZE) :
    Accepted (sampleBlock name hashPrevBlock nTime vtx) where
  typed := ⟨⟨by simp [sampleBlock, Signed], hprev, by simp [sampleBlock], hTime, by simp [sampleBlock],
    hname⟩, hvtx⟩
  size_le := hsize

theorem accepted_block : Accepted block := by
  refine accepted_sampleBlock (by decide) (by decide) (by decide) ?_ (by decide)
  refine List.forall_mem_cons.mpr ⟨?_, List.forall_mem_singleton.mpr ?_⟩
  · exact representable_sampleTx (by decide) (by decide) (by decide) (by decide) ⟨by decide, by decide⟩
  · exact representable_sampleTx (by decide) (by decide) (by decide) (by decide) ⟨by decide, by decide⟩

theorem accepted_nextBlock : Accepted nextBlock :=
  accepted_sampleBlock (by decide) (by decide) (by decide) (List.forall_mem_singleton.mpr
    (representable_sampleTx (by decide) (by decide) (by decide) (by decide) ⟨by decide, by decide⟩))
    (by decide)

deriving instance DecidableEq for BlockFileTable

def reindexing (file : List UInt8) : TxStores :=
  ⟨fun nFile => if nFile = 0 then some file else none, .empty, .empty, ∅,
    ⟨fun _ => none, fun _ => none, fun _ => none, 0, none, none, none⟩, [], []⟩

def countersAfter (calls : List FileCall) : BlockFileTable :=
  ((FileCall.runAll calls).map BlockStore.files).getD .empty

def connectedAt (pos : FoundPos) (file : List UInt8) : TxStores :=
  { reindexing file with
    blockFiles := countersAfter [.found FileCall.sampleFileIO pos 214 1 500]
    txIndex := writeTxIndex (block.vPos env pos.toCDiskBlockPos) ∅
    written := [(pos.toCDiskBlockPos, block)]
    connected := [(pos.toCDiskBlockPos, block)] }

theorem run_connectedAt (Meets : TxStores → Call → Prop) (pos : FoundPos) (file : List UInt8)
    (hread : ((reindexing file).openBlockFile pos.toCDiskBlockPos).bind
      (CBlock.unserialize ⟨1, 2, 3⟩ SER_DISK) = some (block, []))
    (hstore : BlockFileTable.empty.storeBlock FileCall.sampleFileIO (some pos.toCDiskBlockPos)
      (block.getSerializeSize SER_DISK) 1 500 =
        some (.ok pos.toCDiskBlockPos, countersAfter [.found FileCall.sampleFileIO pos 214 1 500]))
    (hfound : Meets (reindexing file) (.found FileCall.sampleFileIO pos block 1 500))
    (hconnect : ∀ s, Meets s (.connectBlock pos.toCDiskBlockPos block)) :
    Run ⟨1, 2, 3⟩ env Meets (connectedAt pos file) :=
  .step (.step (.start _ fun _ _ hpos => by cases hpos) hfound (.found accepted_block hread hstore)) (hconnect _)
    (.connectBlock List.mem_cons_self connectedIndexed)

/-- The position behind 290 bytes that are no block. -/
def behindGap : FoundPos := ⟨⟨0, 298⟩, by decide⟩

/-- The next block was stored, too. -/
def overwritten : TxStores :=
  { (connectedAt behindGap (List.replicate 298 0 ++ block.serialize SER_DISK)).writeFile 0 222
      (List.replicate 8 0 ++ nextBlock.serialize SER_DISK) with
    blockFiles := countersAfter [.found FileCall.sampleFileIO behindGap 214 1 500,
      .append FileCall.sampleFileIO 148 2 560]
    written := [(⟨0, 230⟩, nextBlock), (⟨0, 298⟩, block)] }

theorem run_overwritten : Run ⟨1, 2, 3⟩ env (fun _ _ => True) overwritten := by
  let before := connectedAt behindGap (List.replicate 298 0 ++ block.serialize SER_DISK)
  have hrun : Run ⟨1, 2, 3⟩ env (fun _ _ => True) before :=
    run_connectedAt _ behindGap _ (by decide +kernel) rfl trivial fun _ => trivial
  have hstore : before.blockFiles.storeBlock FileCall.sampleFileIO none
      (nextBlock.getSerializeSize SER_DISK) 2 560 = some (.ok ⟨0, 230⟩, overwritten.blockFiles) := by
    decide
  have hheader : (List.replicate 8 (0 : UInt8)).length = 8 := rfl
  have hstep : Step ⟨1, 2, 3⟩ env before
      (.append FileCall.sampleFileIO (List.replicate 8 0) nextBlock 2 560) _ :=
    .append accepted_nextBlock hheader hstore
  exact .step hrun trivial hstep

end Lookup

open Lookup in
/-- **A block is written over the header of another one** that a reindex found behind bytes that are
none: `GetTransaction` names a block that nobody stored. -/
theorem not_forall_lookupCorrect :
    ¬ ∀ (chunks : Chunks) (env : Env) (s : TxStores), Run chunks env (fun _ _ => True) s →
      s.LookupCorrect chunks env := by
  intro hall
  have hfound : (overwritten.getTransaction ⟨1, 2, 3⟩ env 0 7 true).1 = some (spend, some 0) := by
    decide +kernel
  obtain ⟨stored, hmem, hhash, -⟩ :=
    ((hall ⟨1, 2, 3⟩ env overwritten run_overwritten).answers 0 7 true spend (some 0) hfound).2 0 rfl
  exact absurd hhash ((show ∀ stored ∈ overwritten.written, stored.2.getHash env ≠ 0 by decide) stored hmem)

open Lookup in
/-- The same without a gap: the transaction is found, in its block. -/
theorem lookupCorrect_of_run_sample :
    (connectedAt ⟨⟨0, 8⟩, by decide⟩ (List.replicate 8 0 ++ block.serialize SER_DISK)).LookupCorrect
      ⟨1, 2, 3⟩ env := by
  refine lookupCorrect_of_run ⟨1, 2, 3⟩ env _ (run_connectedAt _ ⟨⟨0, 8⟩, by decide⟩ _
    (by decide +kernel) rfl ?_ fun _ => trivial)
  refine ⟨⟨by decide, fun _ => ⟨by decide, nofun⟩⟩, _, rfl, ?_⟩
  exact ⟨[], by rw [List.append_nil]; rfl⟩

end TxStores

end Manna
