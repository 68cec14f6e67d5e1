import Manna.Ancestry
import Manna.MemPool
import Manna.Supply
import Mathlib.Data.Finset.Max
import Mathlib.Data.Finset.Sort
import Mathlib.Data.Prod.Lex

/-!
The best chain of a node (`main.cpp`: `SetBestChain`, `InvalidBlockFound`,
`ConnectBestBlock`, `AddToBlockIndex`, `LoadBlockIndexDB`).

A `Node` holds the globals of `main.cpp` these functions share. `SetBestChain` works on a
fresh cache over `pcoinsTip`, a `Ledger`, and flushes it when all blocks are connected.
`InvalidBlockFound` and `ConnectBestBlock` call each other, so `connectBestBlock` follows
the nesting to a depth; its outer loop is `selectBest`, which runs a number of rounds. A call
that would nest deeper or run longer does not return (`Stuck`).
-/

namespace Manna

/-! ### The state of a node -/

/-- The globals of `main.cpp`. A pointer to an index entry is the hash of the block. -/
structure Node where
  pcoinsTip : CCoinsViewCache CCoinsViewDB
  mapBlockIndex : BlockTree
  setBlockIndexValid : Finset Uint256
  pindexBest : Option Uint256
  hashBestChain : Uint256
  nBestHeight : Int
  nBestChainTrust : Uint256
  nBestInvalidTrust : Uint256
  mempool : CTxMemPool
  disk : BlockFiles

/-- What a call meets outside of the node: which disk operations succeed, the clock and the
settings. `fInitialDownload`, `fDiskSpace` and `fCoinFlush` are what `IsInitialBlockDownload`,
`CheckDiskSpace` and `pcoinsTip->Flush` return while a block becomes the best one. -/
structure Outside where
  io : DiskIO
  nAdjustedTime : Int
  fInitialDownload : Uint256 → Bool
  fDiskSpace : Uint256 → Bool
  fCoinFlush : Uint256 → Bool
  nCoinCacheSize : Nat
  fSyncBlockIndex : Bool

/-- Why a call returns false, or what stops it. -/
inductive ChainError where
  /-- `Failed to read block`. -/
  | readBlock
  /-- `DisconnectBlock` failed, or found the view inconsistent. -/
  | disconnectBlock (e : Option Halt)
  | connectBlock (e : Halt)
  /-- `CheckDiskSpace` failed. -/
  | diskSpace
  /-- `Failed to write to coin database`. -/
  | coinDatabase
  /-- `Failed to write block index`. -/
  | writeBlockIndex
  /-- `Failed to sync block index`. -/
  | syncBlockIndex
  /-- `AddToBlockIndex() : already exists`. -/
  | duplicate
  /-- A height beyond `int`. -/
  | overflow
  | assertion
  /-- A null pointer is followed. -/
  | undefined
deriving DecidableEq, Repr

/-- Why a call does not return. -/
inductive Stuck where
  | endless
  | deep
deriving DecidableEq, Repr

/-- How a call ends that changes the node. -/
abbrev Call (α : Type) := Except Stuck (Except ChainError α × Node)

/-- The cache `SetBestChain` works on, with index and files. -/
def Node.ledger (node : Node) : Ledger (CCoinsViewCache CCoinsViewDB) :=
  ⟨(CCoinsViewCache.new node.pcoinsTip).getBestBlock.2, node.mapBlockIndex, node.disk⟩

/-- The node when the cache is given up: reading may have filled `pcoinsTip`, and
`ConnectBlock` has written to entries and files. -/
def Node.discard (node : Node) (l : Ledger (CCoinsViewCache CCoinsViewDB)) : Node :=
  { node with pcoinsTip := l.view.base, mapBlockIndex := l.mapBlockIndex, disk := l.disk }

def Node.accept (node : Node) (l : Ledger (CCoinsViewCache CCoinsViewDB)) : Node :=
  { node with pcoinsTip := l.view.flushInto, mapBlockIndex := l.mapBlockIndex, disk := l.disk }

/-- `InvalidChainFound`, without the warning it may print. -/
def Node.invalidChainFound (pindexNew : Uint256) (node : Node) : Node :=
  if node.mapBlockIndex.nChainTrust pindexNew > node.nBestInvalidTrust then
    { node with nBestInvalidTrust := node.mapBlockIndex.nChainTrust pindexNew }
  else node

/-- `InvalidBlockFound`: `connectBest` is `ConnectBestBlock`, whose result is not looked at. -/
def invalidBlockFound (connectBest : Node → Call Unit) (pindex : Uint256) (node : Node) :
    Except Stuck Node :=
  let node := Node.invalidChainFound pindex
    { node with
      mapBlockIndex := node.mapBlockIndex.setStatus pindex fun nStatus =>
        { nStatus with failedValid := true }
      setBlockIndexValid := node.setBlockIndexValid.erase pindex }
  if ((node.mapBlockIndex.entry pindex).bind (·.pnext)).isSome then
    match connectBest node with
    | .error stuck => .error stuck
    | .ok (_, node) => .ok node
  else .ok node

def resurrectable (pindex : CBlockIndex) (block : CBlock) : List CTransaction :=
  block.vtx.filter fun tx => !tx.isGenerated && decide (getTotalBlocksEstimate < pindex.nHeight)

section Ledger

variable {σ : Type} [CoinsView σ]

/-- The loop over `vDisconnect`; the value is `vResurrect`. -/
def disconnectBlocks (env : Env) (io : DiskIO) :
    List Uint256 → Ledger σ → Except ChainError (List CTransaction) × Ledger σ
  | [], l => (.ok [], l)
  | hash :: vDisconnect, l =>
    match l.mapBlockIndex.entry hash with
    | none => (.error .undefined, l)
    | some pindex =>
      match readBlock env io l.disk pindex with
      | none => (.error .readBlock, l)
      | some block =>
        match l.disconnect env io block pindex with
        | (.error e, l) => (.error (.disconnectBlock (some e)), l)
        | (.ok false, l) => (.error (.disconnectBlock none), l)
        | (.ok true, l) =>
          match disconnectBlocks env io vDisconnect l with
          | (.error e, l) => (.error e, l)
          | (.ok vResurrect, l) => (.ok (resurrectable pindex block ++ vResurrect), l)

/-- The loop over `vConnect`; the value is `vDelete`, an error comes with the block it
happened at. -/
def connectBlocks (env : Env) (io : DiskIO) (nAdjustedTime : Int) :
    List Uint256 → Ledger σ → Except (Uint256 × ChainError) (List CTransaction) × Ledger σ
  | [], l => (.ok [], l)
  | hash :: vConnect, l =>
    match l.mapBlockIndex.entry hash with
    | none => (.error (hash, .undefined), l)
    | some pindex =>
      match readBlock env io l.disk pindex with
      | none => (.error (hash, .readBlock), l)
      | some block =>
        match l.connect env io nAdjustedTime block pindex with
        | (.error e, l) => (.error (hash, .connectBlock e), l)
        | (.ok _, l) =>
          match connectBlocks env io nAdjustedTime vConnect l with
          | (.error e, l) => (.error e, l)
          | (.ok vDelete, l) => (.ok (block.vtx ++ vDelete), l)

end Ledger

/-- `state.IsInvalid()` after a failure. -/
def ChainError.isInvalid : ChainError → Bool
  | .connectBlock e => e.isInvalid
  | _ => false

/-! ### The new best chain -/

/-- `if (pindex->pprev) pindex->pprev->pnext = NULL`. -/
def BlockTree.unlinkNext (t : BlockTree) (pindex : Uint256) : BlockTree :=
  match t.pprevOf pindex with
  | none => t
  | some pprev => t.setNext pprev none

/-- `if (pindex->pprev) pindex->pprev->pnext = pindex`. -/
def BlockTree.linkNext (t : BlockTree) (pindex : Uint256) : BlockTree :=
  match t.pprevOf pindex with
  | none => t
  | some pprev => t.setNext pprev (some pindex)

/-- The coins and the pool that memory pool calls work on. -/
structure PoolState where
  pcoinsTip : CCoinsViewCache CCoinsViewDB
  pool : CTxMemPool

/-- `if (!tx.AcceptToMemoryPool(stateDummy, true, false)) mempool.remove(tx, true)`. -/
def resurrect (env : Env) (ctx : AcceptContext) (state : PoolState) (tx : CTransaction) : PoolState :=
  let result := state.pool.accept env ctx tx true false state.pcoinsTip
  match result.outcome with
  | .ok _ => ⟨result.pcoinsTip, result.pool⟩
  | .error _ => ⟨result.pcoinsTip, result.pool.remove env tx true⟩

/-- `mempool.remove(tx); mempool.removeConflicts(tx)`. -/
def deleteConnected (env : Env) (pool : CTxMemPool) (tx : CTransaction) : CTxMemPool :=
  (pool.remove env tx false).removeConflicts env tx

/-- The context memory pool calls have while the best block of the node is still the old one. -/
def Node.acceptContext (node : Node) (nAdjustedTime : Int) (mapBlockIndex : BlockTree) :
    AcceptContext :=
  ⟨node.nBestHeight, nAdjustedTime, heightOf mapBlockIndex.entry, false⟩

/-- The changes of the memory structures, once the coins are written. -/
def Node.switchTo (env : Env) (nAdjustedTime : Int) (vDisconnect vConnect : List Uint256)
    (vResurrect vDelete : List CTransaction) (pindexNew : Uint256) (node : Node) : Node :=
  let mapBlockIndex := vConnect.foldl BlockTree.linkNext
    (vDisconnect.foldl BlockTree.unlinkNext node.mapBlockIndex)
  let state := vResurrect.foldl (resurrect env (node.acceptContext nAdjustedTime mapBlockIndex))
    ⟨node.pcoinsTip, node.mempool⟩
  let pool := vDelete.foldl (deleteConnected env) state.pool
  { node with
    pcoinsTip := state.pcoinsTip
    mapBlockIndex := mapBlockIndex
    pindexBest := some pindexNew
    hashBestChain := pindexNew
    nBestHeight := mapBlockIndex.nHeight pindexNew
    nBestChainTrust := mapBlockIndex.nChainTrust pindexNew
    mempool := { pool with nTransactionsUpdated := pool.nTransactionsUpdated + 1 } }

/-- Writing the coins to the database: outside of the initial download, or when the cache has
grown too large. -/
def Node.writeCoins (out : Outside) (pindexNew : Uint256) (node : Node) :
    Except ChainError Unit × Node :=
  if !out.fInitialDownload pindexNew ∨ node.pcoinsTip.getCacheSize > out.nCoinCacheSize then
    if !out.fDiskSpace pindexNew then (.error .diskSpace, node)
    else if !out.fCoinFlush pindexNew then (.error .coinDatabase, node)
    else (.ok (), { node with pcoinsTip := node.pcoinsTip.flush })
  else (.ok (), node)

def setBestChain (env : Env) (out : Outside) (connectBest : Node → Call Unit) (pindexNew : Uint256)
    (node : Node) : Call Unit :=
  let t := node.mapBlockIndex
  let pindexTip := (CCoinsViewCache.new node.pcoinsTip).getBestBlock.1
  match t.findFork pindexTip (some pindexNew) with
  | none => .ok (.error .assertion, node)
  | some pfork =>
    let vDisconnect := t.above pindexTip pfork
    let vConnect := (t.above (some pindexNew) pfork).reverse
    match disconnectBlocks env out.io vDisconnect node.ledger with
    | (.error e, l) => .ok (.error e, node.discard l)
    | (.ok vResurrect, l) =>
      match connectBlocks env out.io out.nAdjustedTime vConnect l with
      | (.error (pindex, e), l) =>
        if e.isInvalid then
          match invalidBlockFound connectBest pindex
              ((node.discard l).invalidChainFound pindexNew) with
          | .error stuck => .error stuck
          | .ok node => .ok (.error e, node)
        else .ok (.error e, node.discard l)
      | (.ok vDelete, l) =>
        match (node.accept l).writeCoins out pindexNew with
        | (.error e, node) => .ok (.error e, node)
        | (.ok _, node) =>
          .ok (.ok (), node.switchTo env out.nAdjustedTime vDisconnect vConnect vResurrect
            vDelete pindexNew)

/-! ### The most trusted chain -/

/-- The order of `CBlockIndexWorkComparator`: by trust, and of two blocks with the same trust
the one with the smaller hash is the greater. -/
def BlockTree.workKey (t : BlockTree) (hash : Uint256) : ℕ ×ₗ ℕᵒᵈ :=
  toLex (t.nChainTrust hash, OrderDual.toDual hash)

def Node.rbegin (node : Node) : Option Uint256 :=
  (node.setBlockIndexValid.image node.mapBlockIndex.workKey).max.map fun key =>
    OrderDual.ofDual (ofLex key).2

/-- What the walk along the ancestry of `pindexNewBest` finds. -/
inductive Ancestry where
  /-- A block that failed. -/
  | failed (pindexTest : Uint256)
  /-- The blocks to attach, from the lowest. -/
  | attach (vAttach : List Uint256)
deriving DecidableEq, Repr

/-- `pindexBest == NULL || pindexTest->nChainTrust > pindexBest->nChainTrust`. -/
def Node.hasMoreTrust (node : Node) (pindexTest : Uint256) : Bool :=
  match node.pindexBest with
  | none => true
  | some pindexBest =>
    decide (node.mapBlockIndex.nChainTrust pindexBest < node.mapBlockIndex.nChainTrust pindexTest)

/-- The walk, from a pointer on; `vAttach` are the blocks passed so far that have more trust
than the best block. -/
def Node.checkAncestry (node : Node) : List Uint256 → List Uint256 → Ancestry
  | [], vAttach => .attach vAttach
  | pindexTest :: rest, vAttach =>
    match node.mapBlockIndex.entry pindexTest with
    | none => .attach vAttach
    | some e =>
      if e.nStatus.failed then .failed pindexTest
      else
        let vAttach := if node.hasMoreTrust pindexTest then pindexTest :: vAttach else vAttach
        if e.pprev = none ∨ e.pnext ≠ none then .attach vAttach
        else node.checkAncestry rest vAttach

/-- One step of marking the descendants of a failed block. -/
def Node.markChild (node : Node) (pindexFailed : Uint256) : Node :=
  { node with
    mapBlockIndex := node.mapBlockIndex.setStatus pindexFailed fun nStatus =>
      { nStatus with failedChild := true }
    setBlockIndexValid := node.setBlockIndexValid.erase pindexFailed }

def Node.markDescendants (node : Node) (pindexNewBest pindexTest : Uint256) : Node :=
  ((node.mapBlockIndex.above (some pindexNewBest) (some pindexTest)).foldl Node.markChild
    node).invalidChainFound pindexNewBest

/-- What the outer loop of `ConnectBestBlock` settles on. -/
inductive Selection where
  /-- There is nothing to do. -/
  | nothing
  | attach (vAttach : List Uint256)
deriving DecidableEq, Repr

/-- The outer loop of `ConnectBestBlock` up to the round that attaches blocks, in a number of
rounds. -/
def Node.selectBest : Nat → Node → Option (Selection × Node)
  | 0, _ => none
  | rounds + 1, node =>
    match node.rbegin with
    | none => some (.nothing, node)
    | some pindexNewBest =>
      if some pindexNewBest = node.pindexBest ∨ node.pindexBest.any (fun pindexBest =>
          node.mapBlockIndex.nChainTrust pindexNewBest =
            node.mapBlockIndex.nChainTrust pindexBest) then
        some (.nothing, node)
      else
        match node.checkAncestry (node.mapBlockIndex.ancestry (some pindexNewBest)) [] with
        | .failed pindexTest => (node.markDescendants pindexNewBest pindexTest).selectBest rounds
        | .attach vAttach => some (.attach vAttach, node)

/-- The loop over `vAttach`. -/
def attachBlocks (setBest : Uint256 → Node → Call Unit) : List Uint256 → Node → Call Unit
  | [], node => .ok (.ok (), node)
  | pindexSwitch :: vAttach, node =>
    match setBest pindexSwitch node with
    | .error stuck => .error stuck
    | .ok (.error e, node) => .ok (.error e, node)
    | .ok (.ok _, node) => attachBlocks setBest vAttach node

/-- `ConnectBestBlock`, nested to a depth. The rounds given are enough wherever the outer loop
ends (`Node.selectBest_isSome`). -/
def connectBestBlock (env : Env) (out : Outside) : Nat → Node → Call Unit
  | 0, _ => .error .deep
  | depth + 1, node =>
    match node.selectBest (node.setBlockIndexValid.card + 1) with
    | none => .error .endless
    | some (.nothing, node) => .ok (.ok (), node)
    | some (.attach vAttach, node) =>
      attachBlocks (setBestChain env out (connectBestBlock env out depth)) vAttach node

/-! ### New blocks -/

def newEntry (env : Env) (t : BlockTree) (block : CBlock) : CBlockIndex :=
  let pprev := (t.entry block.hashPrevBlock).map fun _ => block.hashPrevBlock
  let pindexNew : CBlockIndex :=
    { phashBlock := block.getHash env
      pprev := pprev
      pnext := none
      nHeight := (pprev.map fun hash => t.nHeight hash + 1).getD 0
      nChainTrust := 0
      nStatus := ⟨BLOCK_VALID_TRANSACTIONS, true, false, false, false⟩
      nMoneySupply := 0
      nTime := block.nTime
      nBits := block.nBits }
  { pindexNew with
    nChainTrust := ((pprev.map t.nChainTrust).getD 0 + pindexNew.getBlockTrust) % 2 ^ 256 }

theorem new_newEntry {env : Env} {t : BlockTree} {block : CBlock}
    (hfresh : t.entry (block.getHash env) = none) (hmax : (newEntry env t block).nHeight ≤ INT_MAX) :
    t.New (newEntry env t block) where
  fresh := hfresh
  parent {pprev} hprev := by
    obtain ⟨p, hp, rfl⟩ := Option.map_eq_some_iff.mp hprev
    refine ⟨p, hp, ?_⟩
    simp only [newEntry, hp, Option.map_some, Option.getD_some, BlockTree.nHeight_eq hp]
  root hprev := by
    have hnone := Option.map_eq_none_iff.mp hprev
    simp only [newEntry, hnone, Option.map_none, Option.getD_none]
  height_le := hmax

def Node.insertBlock (env : Env) (block : CBlock) (node : Node)
    (h : node.mapBlockIndex.New (newEntry env node.mapBlockIndex block)) : Node :=
  { node with
    mapBlockIndex := node.mapBlockIndex.insert _ h
    setBlockIndexValid := insert (block.getHash env) node.setBlockIndexValid
    disk := { node.disk with
      blocks := Function.update node.disk.blocks (block.getHash env) (some block) } }

/-- `AddToBlockIndex` of a block that was just written to a file. -/
def addToBlockIndex (env : Env) (out : Outside) (depth : Nat) (block : CBlock) (node : Node) :
    Call Unit :=
  if hfresh : node.mapBlockIndex.entry (block.getHash env) = none then
    if hmax : (newEntry env node.mapBlockIndex block).nHeight ≤ INT_MAX then
      let node := node.insertBlock env block (new_newEntry hfresh hmax)
      if !out.io.writeBlockIndex (block.getHash env) then .ok (.error .writeBlockIndex, node)
      else
        match connectBestBlock env out depth node with
        | .error stuck => .error stuck
        | .ok (.error e, node) => .ok (.error e, node)
        | .ok (.ok _, node) =>
          if !out.fSyncBlockIndex then .ok (.error .syncBlockIndex, node) else .ok (.ok (), node)
    else .ok (.error .overflow, node)
  else .ok (.error .duplicate, node)

/-- `vSortedByHeight`; where the source orders entries of one height by address, they are
ordered by hash. -/
def BlockTree.sortedByHeight (t : BlockTree) : List Uint256 :=
  ((t.entries.keys.image fun hash => toLex (t.nHeight hash, hash)).sort).map fun key => (ofLex key).2

/-- One round of the loop that sets `nChainTrust` and fills `setBlockIndexValid`. -/
def loadEntry (state : BlockTree × Finset Uint256) (hash : Uint256) : BlockTree × Finset Uint256 :=
  match state.1.entry hash with
  | none => state
  | some pindex =>
    (state.1.setChainTrust hash
      (((pindex.pprev.map state.1.nChainTrust).getD 0 + pindex.getBlockTrust) % 2 ^ 256),
      if BLOCK_VALID_TRANSACTIONS ≤ pindex.nStatus.nValid ∧ pindex.nStatus.failed = false then
        insert hash state.2
      else state.2)

/-- `LoadBlockIndexDB`, from the index as `LoadBlockIndexGuts` read it, at the start of the
program. -/
def loadBlockIndexDB (mapBlockIndex : BlockTree) (pcoinsTip : CCoinsViewCache CCoinsViewDB)
    (nBestInvalidTrust : Uint256) (disk : BlockFiles) : Node :=
  let (mapBlockIndex, setBlockIndexValid) := mapBlockIndex.sortedByHeight.foldl loadEntry (mapBlockIndex, ∅)
  let (pindexBest, pcoinsTip) := pcoinsTip.getBestBlock
  match pindexBest with
  | none => ⟨pcoinsTip, mapBlockIndex, setBlockIndexValid, none, 0, -1, 0, nBestInvalidTrust, .empty,
      disk⟩
  | some best =>
    ⟨pcoinsTip, (mapBlockIndex.ancestry (some best)).foldl BlockTree.linkNext mapBlockIndex,
      setBlockIndexValid, some best, best, mapBlockIndex.nHeight best,
      mapBlockIndex.nChainTrust best, nBestInvalidTrust, .empty, disk⟩

end Manna
