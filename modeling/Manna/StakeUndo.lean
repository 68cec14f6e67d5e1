import Manna.Undo
import Manna.UndoCodec

/-!
Disconnecting a block in the proof-of-stake build (`main.cpp`: `UpdateCoins`,
`CBlock::ConnectBlock`, `CBlock::DisconnectBlock`; `undo.cpp`; with `PPCOINSTAKE`).

`ConnectBlock` writes the undo data of a block to disk with a checksum, and `DisconnectBlock`
reads it from there. The time of a record is read and was not written, so only undo data without
records is read back: that of a block that holds its coinbase alone.

* `StakeDisk.readFromDisk_writeToDisk`: undo data without records;
* `ConnectsStake.disconnect`: one block reversed;
* `disconnectStakeBlocks_restores`: a chain of blocks reversed.
-/

namespace Manna

open Codec

/-- A view: records by transaction hash and the best block. -/
structure StakeMap where
  coins : Uint256 → Option CCoinsStake
  best : Option Uint256

/-- One unspent output with the metadata of its record. -/
structure StakeCoin extends Coin where
  fCoinStake : Bool
  nTime : Nat
deriving DecidableEq, Repr

namespace StakeMap

/-- The view without the two fields. -/
def base (s : StakeMap) : CoinsMap := ⟨fun txid => (s.coins txid).map (·.toCCoins), s.best⟩

def setCoins (s : StakeMap) (txid : Uint256) (coins : CCoinsStake) : StakeMap :=
  { s with coins := Function.update s.coins txid (some coins) }

def setBest (s : StakeMap) (hash : Uint256) : StakeMap := { s with best := some hash }

/-- A record, empty where there is none. -/
def record (s : StakeMap) (txid : Uint256) : CCoinsStake := (s.coins txid).getD .empty

/-- The unspent outputs of a view. -/
def utxo (s : StakeMap) (out : COutPoint) : Option StakeCoin :=
  (s.base.utxo out).map fun coin =>
    ⟨coin, (s.record out.hash).fCoinStake, (s.record out.hash).nTime⟩

/-- One round of the loop that marks inputs spent. -/
def spendCoin (prevout : COutPoint) (s : StakeMap) : Option (TxInUndoStake × StakeMap) :=
  match s.coins prevout.hash with
  | none => none
  | some coins =>
    match coins.spend prevout with
    | none => none
    | some (coins, undo) => some (undo, s.setCoins prevout.hash coins)

def spendCoins : List CTxIn → StakeMap → Option (List TxInUndoStake × StakeMap)
  | [], s => some ([], s)
  | txin :: vin, s =>
    match s.spendCoin txin.prevout with
    | none => none
    | some (undo, s) =>
      match spendCoins vin s with
      | none => none
      | some (undos, s) => some (undo :: undos, s)

/-- `CTransaction::UpdateCoins`; `none` stands for a failed assertion. -/
def updateCoins (tx : CTransaction) (nHeight : Int) (txhash : Uint256) (s : StakeMap) :
    Option (List TxInUndoStake × StakeMap) :=
  match s.spendCoins (if tx.isCoinBase then [] else tx.vin) with
  | none => none
  | some (vprevout, s) => some (vprevout, s.setCoins txhash (.ofTx tx nHeight))

/-- The loop of `ConnectBlock`, as far as it changes the view, with `blockundo.vtxundo`. -/
def updateAll (env : Env) (nHeight : Int) :
    List CTransaction → StakeMap → Option (List (List TxInUndoStake) × StakeMap)
  | [], s => some ([], s)
  | tx :: vtx, s =>
    match s.updateCoins tx nHeight (env.txHash tx) with
    | none => none
    | some (txundo, s) =>
      match updateAll env nHeight vtx s with
      | none => none
      | some (undos, s) => some (if tx.isCoinBase then undos else txundo :: undos, s)

/-! ### Disconnecting -/

/-- The record an output is put back into. Of a rebuilt one the source sets three fields. -/
def restoreBase (undo : TxInUndoStake) (coins : CCoinsStake) : CCoinsStake :=
  if undo.nHeight ≠ 0 then
    { CCoinsStake.empty with
      fCoinBase := undo.fCoinBase
      nHeight := undo.nHeight
      nVersion := undo.nVersion }
  else coins

/-- One round of the loop over the inputs: put the spent output back; whether `fClean` stays. -/
def restoreInput (out : COutPoint) (undo : TxInUndoStake) (t : StakeMap) : Bool × StakeMap :=
  let coins := t.record out.hash
  let restored := restoreBase undo coins
  (restoreConsistent out undo.toCTxInUndo coins.toCCoins,
    t.setCoins out.hash { restored with toCCoins := restored.toCCoins.putOutput out.n undo.txout })

/-- The loop over the inputs, which runs from the last to the first. -/
def restoreInputs : List (CTxIn × TxInUndoStake) → StakeMap → Bool × StakeMap
  | [], t => (true, t)
  | (txin, undo) :: rest, t =>
    let (fClean, t) := restoreInputs rest t
    let (consistent, t) := t.restoreInput txin.prevout undo
    (fClean && consistent, t)

/-- One round of the loop over the transactions. -/
def disconnectTransaction (env : Env) (nHeight : Int) (tx : CTransaction)
    (txundo : Option (List TxInUndoStake)) (t : StakeMap) : Except Halt (Bool × StakeMap) :=
  let hash := env.txHash tx
  let outs := t.record hash
  let outsBlock := CCoinsStake.ofTx tx nHeight
  let outs := if outsBlock.nVersion < 0 then
    { outs with toCCoins := { outs.toCCoins with nVersion := outsBlock.nVersion } } else outs
  let fClean := (t.coins hash).isSome && outs == outsBlock
  let t := t.setCoins hash .empty
  match txundo with
  | none => .ok (fClean, t)
  | some txundo =>
    if txundo.length ≠ tx.vin.length then
      .error (.error "DisconnectBlock() : transaction and undo data inconsistent")
    else
      let (consistent, t) := t.restoreInputs (tx.vin.zip txundo)
      .ok (fClean && consistent, t)

/-- The loop over the transactions, which runs from the last to the first. -/
def disconnectTransactions (env : Env) (nHeight : Int) :
    List (CTransaction × Option (List TxInUndoStake)) → StakeMap → Except Halt (Bool × StakeMap)
  | [], t => .ok (true, t)
  | (tx, txundo) :: rest, t =>
    match disconnectTransactions env nHeight rest t with
    | .error e => .error e
    | .ok (fClean, t) =>
      match t.disconnectTransaction env nHeight tx txundo with
      | .error e => .error e
      | .ok (consistent, t) => .ok (fClean && consistent, t)

end StakeMap

/-! ### Undo data on disk -/

/-- What `undo.cpp` uses of the rest of the program. -/
structure StakeDisk where
  keys : PubKeyOps
  /-- `CHashWriter` over the hash of a block and its undo data. -/
  hasher : Uint256 → List UInt8 → Fin (2 ^ 256)

namespace StakeDisk

def serialize (disk : StakeDisk) (blockundo : List (List TxInUndoStake)) : List UInt8 :=
  writeVector (writeVector (TxInUndoStake.serialize disk.keys)) blockundo

/-- The bytes of `CBlockUndo::WriteToDisk` from the position it returns. -/
def writeToDisk (disk : StakeDisk) (hashBlock : Uint256) (blockundo : List (List TxInUndoStake)) :
    List UInt8 :=
  disk.serialize blockundo ++ littleEndian 32 (disk.hasher hashBlock (disk.serialize blockundo)).val

/-- `CBlockUndo::ReadFromDisk` of what a file holds from a position; `none` where it fails. -/
def readFromDisk (disk : StakeDisk) (hashBlock : Uint256) (file : List UInt8) :
    Option (List (List TxInUndoStake)) :=
  match readVector (readVector (TxInUndoStake.unserialize disk.keys)) file with
  | none => none
  | some (blockundo, file) =>
    match readLittleEndian 32 file with
    | none => none
    | some (hashChecksum, _) =>
      if hashChecksum ≠ disk.hasher hashBlock (disk.serialize blockundo) then none
      else some blockundo

/-- **Undo data without records is read back**, whatever follows it in the file. -/
theorem readFromDisk_writeToDisk (disk : StakeDisk) (hashBlock : Uint256)
    (blockundo : List (List TxInUndoStake)) (hsized : UndoSized blockundo)
    (hnone : ∀ txundo ∈ blockundo, txundo = []) (rest : List UInt8) :
    disk.readFromDisk hashBlock (disk.writeToDisk hashBlock blockundo ++ rest) = some blockundo := by
  have hrecord : EachRecord (fun undo => Reads (TxInUndoStake.unserialize disk.keys)
      (TxInUndoStake.serialize disk.keys undo) (id undo)) blockundo := by
    intro txundo htx undo hundo
    rw [hnone txundo htx] at hundo
    cases hundo
  have hread : Reads (readVector (readVector (TxInUndoStake.unserialize disk.keys)))
      (disk.serialize blockundo) (blockundo.map (List.map id)) := reads_blockundo hsized hrecord
  rw [List.map_id_fun, List.map_id] at hread
  have hsum := reads_littleEndian (k := 32) (n := (disk.hasher hashBlock (disk.serialize blockundo)).val)
    (Fin.isLt _) rest
  rw [readFromDisk, writeToDisk, List.append_assoc, hread]
  simp only [hsum, ne_eq, not_true_eq_false, if_false]

end StakeDisk

/-! ### Connecting and disconnecting a block -/

/-- `CBlock::ConnectBlock` of a block that is not the genesis block: the undo data it writes and
the view. The checks that only refuse a block are left out, but for those on its transactions. -/
def connectStakeBlock (env : Env) (disk : StakeDisk) (block : CBlock) (pindex : CBlockIndex)
    (s : StakeMap) : Except Halt (List UInt8 × StakeMap) :=
  match block.vtx with
  | [] => .error (.dos 100 "CheckBlock() : first tx is not coinbase" false)
  | coinbase :: vtx =>
    if !coinbase.isCoinBase then
      .error (.dos 100 "CheckBlock() : first tx is not coinbase" false)
    else if vtx.any CTransaction.isCoinBase then
      .error (.dos 100 "CheckBlock() : more than one coinbase" false)
    else if block.vtx.any fun tx => (checkTransaction tx).toOption.isNone then
      .error (.error "CheckBlock() : CheckTransaction failed")
    else if ¬ (block.txHashes env).Nodup then
      .error (.dos 100 "CheckBlock() : duplicate transaction" true)
    else if pindex.pprev ≠ s.best then .error .assertion
    else if block.vtx.any fun tx => !(s.record (env.txHash tx)).isPruned then
      .error (.dos 100 "ConnectBlock() : tried to overwrite transaction" false)
    else
      match s.updateAll env pindex.nHeight block.vtx with
      | none => .error .assertion
      | some (blockundo, s) =>
        match pindex.pprev with
        | none => .error .undefined
        | some pprev => .ok (disk.writeToDisk pprev blockundo, s.setBest pindex.phashBlock)

/-- `CBlock::DisconnectBlock`, given what the file holds from the block's undo position: `fClean`
and the view. -/
def disconnectStakeBlock (env : Env) (disk : StakeDisk) (file : Option (List UInt8)) (block : CBlock)
    (pindex : CBlockIndex) (t : StakeMap) : Except Halt (Bool × StakeMap) :=
  if t.best ≠ some pindex.phashBlock then .error .assertion
  else
    match file with
    | none => .error (.error "DisconnectBlock() : no undo data available")
    | some file =>
      match pindex.pprev with
      | none => .error .undefined
      | some pprev =>
        match disk.readFromDisk pprev file with
        | none => .error (.error "DisconnectBlock() : failure reading undo data")
        | some blockUndo =>
          if blockUndo.length + 1 ≠ block.vtx.length then
            .error (.error "DisconnectBlock() : block and undo data inconsistent")
          else
            match t.disconnectTransactions env pindex.nHeight
                (block.vtx.zip (none :: blockUndo.map some)) with
            | .error e => .error e
            | .ok (fClean, t) => .ok (fClean, t.setBest pprev)

/-- Blocks connected one after the other: the undo data written for each. -/
def connectStakeBlocks (env : Env) (disk : StakeDisk) : List (CBlock × CBlockIndex) → StakeMap →
    Except Halt (List (List UInt8) × StakeMap)
  | [], s => .ok ([], s)
  | (block, pindex) :: blocks, s =>
    match connectStakeBlock env disk block pindex s with
    | .error e => .error e
    | .ok (undo, s) =>
      match connectStakeBlocks env disk blocks s with
      | .error e => .error e
      | .ok (undos, s) => .ok (undo :: undos, s)

/-- Blocks disconnected, the last one first, each with what the file holds at its position. -/
def disconnectStakeBlocks (env : Env) (disk : StakeDisk) :
    List ((CBlock × CBlockIndex) × List UInt8) → StakeMap → Except Halt (Bool × StakeMap)
  | [], t => .ok (true, t)
  | ((block, pindex), file) :: blocks, t =>
    match disconnectStakeBlocks env disk blocks t with
    | .error e => .error e
    | .ok (fClean, t) =>
      match disconnectStakeBlock env disk (some file) block pindex t with
      | .error e => .error e
      | .ok (consistent, t) => .ok (fClean && consistent, t)

/-! ### Reversing a block -/

namespace StakeMap

/-- The same records, but for those without an unspent output. -/
structure Same (s t : StakeMap) : Prop where
  best : t.best = s.best
  coins : ∀ txid, t.coins txid = s.coins txid ∨
    (s.record txid).isPruned = true ∧ (t.record txid).isPruned = true

theorem Same.refl (s : StakeMap) : Same s s := ⟨rfl, fun _ => .inl rfl⟩

theorem record_setCoins (s : StakeMap) (txid : Uint256) (coins : CCoinsStake) (txid' : Uint256) :
    (s.setCoins txid coins).record txid' = if txid' = txid then coins else s.record txid' := by
  simp only [record, setCoins]
  by_cases htxid : txid' = txid
  · rw [if_pos htxid, htxid, Function.update_self, Option.getD_some]
  · rw [if_neg htxid, Function.update_of_ne htxid]

theorem utxo_eq (s : StakeMap) (out : COutPoint) :
    s.utxo out = ((s.record out.hash).coinAt out.n).map fun coin =>
      ⟨coin, (s.record out.hash).fCoinStake, (s.record out.hash).nTime⟩ := by
  simp only [utxo, base, CoinsMap.utxo, record]
  cases s.coins out.hash with
  | none => rfl
  | some coins => rfl

theorem Same.utxo {s t : StakeMap} (h : Same s t) : t.utxo = s.utxo := by
  funext out
  rw [utxo_eq, utxo_eq]
  rcases h.coins out.hash with hcoins | ⟨hs, ht⟩
  · rw [record, record, hcoins]
  · rw [CCoins.isPruned_iff.mp hs, CCoins.isPruned_iff.mp ht]
    rfl

end StakeMap

/-- A record of a checked transaction has an unspent output. -/
theorem CCoins.not_isPruned_ofTx {tx : CTransaction} (h : Checked tx) (nHeight : Int) :
    (CCoins.ofTx tx nHeight).isPruned = false := by
  obtain ⟨txout, hmem⟩ := List.exists_mem_of_ne_nil _ h.vout_ne_nil
  rw [← Bool.not_eq_true, isPruned, List.all_eq_true]
  intro hall
  have hnull := hall txout hmem
  rw [h.not_isNull hmem] at hnull
  cases hnull

/-- What `ConnectBlock` has checked of a block that holds its coinbase alone, and done. -/
structure ConnectsStake (env : Env) (disk : StakeDisk) (block : CBlock) (pindex : CBlockIndex)
    (s : StakeMap) (undo : List UInt8) (s' : StakeMap) (coinbase : CTransaction) (hashPrev : Uint256) :
    Prop where
  vtx : block.vtx = [coinbase]
  checked : Checked coinbase
  pprev : pindex.pprev = some hashPrev
  best : s.best = some hashPrev
  fresh : (s.record (env.txHash coinbase)).isPruned = true
  written : undo = disk.writeToDisk hashPrev []
  view : s' = (s.setCoins (env.txHash coinbase) (.ofTx coinbase pindex.nHeight)).setBest pindex.phashBlock

section Block

variable {env : Env} {disk : StakeDisk} {block : CBlock} {pindex : CBlockIndex} {s s' t : StakeMap}
  {undo : List UInt8}

theorem connectStakeBlock_eq_ok (halone : block.vtx.length = 1)
    (h : connectStakeBlock env disk block pindex s = .ok (undo, s')) :
    ∃ coinbase pprev, ConnectsStake env disk block pindex s undo s' coinbase pprev := by
  obtain ⟨coinbase, hvtx⟩ := List.length_eq_one_iff.mp halone
  unfold connectStakeBlock at h
  simp only [hvtx, List.any_cons, List.any_nil, Bool.or_false, Bool.false_eq_true, if_false] at h
  split_ifs at h with hfirst hchecked hnodup hbest hfresh
  have hcoinbase : coinbase.isCoinBase = true := by simpa using hfirst
  -- The coinbase spends nothing and leaves no undo data.
  have hupdate : s.updateAll env pindex.nHeight [coinbase] =
      some ([], s.setCoins (env.txHash coinbase) (.ofTx coinbase pindex.nHeight)) := by
    simp only [StakeMap.updateAll, StakeMap.updateCoins, hcoinbase, if_true, StakeMap.spendCoins]
  rw [hupdate] at h
  simp only at h
  split at h
  · cases h
  · rename_i pprev hprev
    cases h
    refine ⟨coinbase, pprev, hvtx, ?_, hprev, ?_, by simpa using hfresh, rfl, rfl⟩
    · cases hcheck : checkTransaction coinbase with
      | error e =>
        rw [hcheck] at hchecked
        exact absurd rfl hchecked
      | ok _ => exact checkTransaction_eq_ok hcheck
    · rw [← hprev]
      exact (not_not.mp hbest).symm

/-- **A block reversed**, from any view that shows what connecting it left. -/
theorem ConnectsStake.disconnect {coinbase : CTransaction} {pprev : Uint256}
    (h : ConnectsStake env disk block pindex s undo s' coinbase pprev) (hsame : StakeMap.Same s' t)
    (rest : List UInt8) :
    ∃ t', disconnectStakeBlock env disk (some (undo ++ rest)) block pindex t = .ok (true, t') ∧
      StakeMap.Same s t' := by
  obtain ⟨hbest, hcoins⟩ := hsame
  rw [h.view] at hbest hcoins
  -- The record of the coinbase has an unspent output, so it is there as it was left.
  have hfound : t.coins (env.txHash coinbase) = some (.ofTx coinbase pindex.nHeight) := by
    rcases hcoins (env.txHash coinbase) with heq | ⟨hpruned, -⟩
    · rw [heq]
      exact Function.update_self _ _ _
    · have hrecord := s.record_setCoins (env.txHash coinbase) (.ofTx coinbase pindex.nHeight)
        (env.txHash coinbase)
      rw [if_pos rfl] at hrecord
      have hlive := CCoins.not_isPruned_ofTx h.checked pindex.nHeight
      have hdead : (CCoinsStake.ofTx coinbase pindex.nHeight).isPruned = true := by
        rw [← hrecord]
        exact hpruned
      exact absurd (hdead.symm.trans hlive) Bool.noConfusion
  have hrecord : t.record (env.txHash coinbase) = .ofTx coinbase pindex.nHeight := by
    rw [StakeMap.record, hfound, Option.getD_some]
  have hread := disk.readFromDisk_writeToDisk pprev []
    ⟨Nat.zero_le _, fun txundo htx => absurd htx List.not_mem_nil⟩
    (fun txundo htx => absurd htx List.not_mem_nil) rest
  have htip : t.best = some pindex.phashBlock := hbest
  refine ⟨(t.setCoins (env.txHash coinbase) .empty).setBest pprev, ?_, ?_, fun txid => ?_⟩
  · rw [disconnectStakeBlock, if_neg (not_not.mpr htip)]
    simp only [h.pprev, h.written, hread, h.vtx, List.length_nil, List.length_singleton, Nat.zero_add,
      ne_eq, not_true_eq_false, if_false, List.map_nil, List.zip_cons_cons, List.zip_nil_left,
      StakeMap.disconnectTransactions, StakeMap.disconnectTransaction, hrecord, hfound]
    simp
  · exact h.best.symm
  · show (t.setCoins _ _).coins txid = s.coins txid ∨
      (s.record txid).isPruned = true ∧ ((t.setCoins _ _).record txid).isPruned = true
    rw [StakeMap.record_setCoins]
    by_cases htxid : txid = env.txHash coinbase
    · rw [if_pos htxid, htxid]
      exact .inr ⟨h.fresh, rfl⟩
    · have hother := hcoins txid
      rw [if_neg htxid]
      have hcoins' : ((s.setCoins (env.txHash coinbase) (.ofTx coinbase pindex.nHeight)).setBest
          pindex.phashBlock).coins txid = s.coins txid := Function.update_of_ne htxid _ _
      have hset : (t.setCoins (env.txHash coinbase) .empty).coins txid = t.coins txid :=
        Function.update_of_ne htxid _ _
      rw [StakeMap.record, hcoins', ← StakeMap.record] at hother
      rw [hset]
      exact hother

end Block

/-! ### Reversing a chain of blocks -/

theorem connectStakeBlocks_cons {env : Env} {disk : StakeDisk} {block : CBlock} {pindex : CBlockIndex}
    {blocks : List (CBlock × CBlockIndex)} {undos : List (List UInt8)} {s s' : StakeMap}
    (h : connectStakeBlocks env disk ((block, pindex) :: blocks) s = .ok (undos, s')) :
    ∃ undo s₁ undos', connectStakeBlock env disk block pindex s = .ok (undo, s₁) ∧
      connectStakeBlocks env disk blocks s₁ = .ok (undos', s') ∧ undos = undo :: undos' := by
  rw [connectStakeBlocks] at h
  split at h
  · cases h
  · rename_i undo s₁ hfirst
    split at h
    · cases h
    · rename_i undos' s₂ hrest
      cases h
      exact ⟨undo, s₁, undos', hfirst, hrest, rfl⟩

/-- **Undo exactness with the fields of a stake.** Blocks that hold their coinbase alone and that
`ConnectBlock` accepts one after the other are reversed without an inconsistency, whatever follows
their undo data in the files: every output is there with its coinstake flag and its time. -/
theorem disconnectStakeBlocks_restores (env : Env) (disk : StakeDisk)
    (blocks : List (CBlock × CBlockIndex)) (s s' : StakeMap) (undos files : List (List UInt8))
    (hconnect : connectStakeBlocks env disk blocks s = .ok (undos, s'))
    (hfiles : List.Forall₂ (fun undo file => undo <+: file) undos files)
    (halone : ∀ b ∈ blocks, b.1.vtx.length = 1) :
    ∃ t, disconnectStakeBlocks env disk (blocks.zip files) s' = .ok (true, t) ∧
      t.utxo = s.utxo ∧ t.best = s.best := by
  suffices hrun : ∃ t, disconnectStakeBlocks env disk (blocks.zip files) s' = .ok (true, t) ∧
      StakeMap.Same s t by
    obtain ⟨t, hrun, hsame⟩ := hrun
    exact ⟨t, hrun, hsame.utxo, hsame.best⟩
  induction blocks generalizing s undos files with
  | nil =>
    cases hconnect
    exact ⟨s', rfl, .refl s'⟩
  | cons b blocks ih =>
    obtain ⟨block, pindex⟩ := b
    obtain ⟨undo, s₁, undos', hfirst, hrest, rfl⟩ := connectStakeBlocks_cons hconnect
    obtain ⟨file, files', hfile, hfiles', rfl⟩ := List.forall₂_cons_left_iff.mp hfiles
    obtain ⟨t, hrun, hsame⟩ := ih s₁ undos' files' hrest hfiles'
      fun b hmem => halone b (List.mem_cons_of_mem _ hmem)
    obtain ⟨coinbase, pprev, hconnects⟩ := connectStakeBlock_eq_ok (halone _ List.mem_cons_self) hfirst
    obtain ⟨rest, rfl⟩ := hfile
    obtain ⟨t', hrun', hsame'⟩ := hconnects.disconnect hsame rest
    refine ⟨t', ?_, hsame'⟩
    rw [List.zip_cons_cons, disconnectStakeBlocks, hrun]
    simp only [hrun', Bool.and_self]

/-- A view with a record of two outputs and one of one output, both of transactions with a time. -/
def sampleStakeMap : StakeMap where
  coins txid :=
    if txid = 7 then some ⟨⟨false, [⟨5 * CENT, []⟩, ⟨CENT, []⟩], 1, 1⟩, false, 400⟩
    else if txid = 8 then some ⟨⟨false, [⟨3 * CENT, []⟩], 1, 1⟩, false, 410⟩
    else none
  best := some 1001

def sampleStakeDisk : StakeDisk := ⟨CCoins.sampleKeys, fun _ bytes => .ofNat _ (bytes.length + 255)⟩

/-- Two blocks, each with its coinbase. -/
def sampleStakeChain : List (CBlock × CBlockIndex) :=
  [(sampleBlock 1002 1001 500 [sampleCoinBase 21 500 CENT], sampleEntry 1002 (some 1001) 2 500),
    (sampleBlock 1003 1002 600 [sampleCoinBase 23 600 CENT], sampleEntry 1003 (some 1002) 3 600)]

theorem disconnectStakeBlocks_restores_sample :
    ∃ undo undo' s' t, connectStakeBlocks sampleEnv sampleStakeDisk sampleStakeChain sampleStakeMap =
        .ok ([undo, undo'], s') ∧
      s'.utxo ⟨23, 0⟩ ≠ none ∧
      disconnectStakeBlocks sampleEnv sampleStakeDisk
        (sampleStakeChain.zip [undo ++ [7, 8, 9], undo']) s' = .ok (true, t) ∧
      t.utxo = sampleStakeMap.utxo := by
  let undo := sampleStakeDisk.writeToDisk 1001 []
  let undo' := sampleStakeDisk.writeToDisk 1002 []
  let s₁ := (sampleStakeMap.setCoins 21 (.ofTx (sampleCoinBase 21 500 CENT) 2)).setBest 1002
  let s' := (s₁.setCoins 23 (.ofTx (sampleCoinBase 23 600 CENT) 3)).setBest 1003
  have hconnect : connectStakeBlocks sampleEnv sampleStakeDisk sampleStakeChain sampleStakeMap =
      .ok ([undo, undo'], s') := rfl
  obtain ⟨t, hrun, hutxo, -⟩ := disconnectStakeBlocks_restores sampleEnv sampleStakeDisk
    sampleStakeChain sampleStakeMap s' [undo, undo'] [undo ++ [7, 8, 9], undo'] hconnect
    (.cons (List.prefix_append _ _) (.cons (List.prefix_refl _) .nil)) (by decide)
  exact ⟨undo, undo', s', t, hconnect, by decide, hrun, hutxo⟩

/-- A block with a coinbase and a transaction that spends the only output of a record of time
410. -/
def sampleStakeSpend : CBlock :=
  sampleBlock 1002 1001 500 [sampleCoinBase 21 500 CENT, sampleTx 22 500 [sampleIn 8 0] [CENT]]

/-- **A block that spends an output cannot be disconnected**: its undo data is not read back from
the disk. Nor would the record it keeps in memory put the time back. -/
theorem not_forall_disconnectStakeBlock_restores :
    (¬ ∀ (env : Env) (disk : StakeDisk) (block : CBlock) (pindex : CBlockIndex) (s s' : StakeMap)
      (undo : List UInt8), connectStakeBlock env disk block pindex s = .ok (undo, s') →
      ∃ t, disconnectStakeBlock env disk (some undo) block pindex s' = .ok (true, t) ∧
        t.utxo = s.utxo ∧ t.best = s.best) ∧
      ((sampleStakeMap.spendCoin ⟨8, 0⟩).map fun (undo, s) =>
        (s.restoreInput ⟨8, 0⟩ undo).2.utxo ⟨8, 0⟩) =
          some (some ⟨⟨⟨3 * CENT, []⟩, false, 1, 1⟩, false, 0⟩) := by
  refine ⟨?_, by decide⟩
  intro hall
  have hrun : ((connectStakeBlock sampleEnv sampleStakeDisk sampleStakeSpend
      (sampleEntry 1002 (some 1001) 2 500) sampleStakeMap).map fun result =>
        (disconnectStakeBlock sampleEnv sampleStakeDisk (some result.1) sampleStakeSpend
          (sampleEntry 1002 (some 1001) 2 500) result.2).map fun _ => ()) =
      .ok (.error (.error "DisconnectBlock() : failure reading undo data")) := by decide +kernel
  cases hconnect : connectStakeBlock sampleEnv sampleStakeDisk sampleStakeSpend
      (sampleEntry 1002 (some 1001) 2 500) sampleStakeMap with
  | error e =>
    rw [hconnect] at hrun
    cases hrun
  | ok result =>
    obtain ⟨undo, s'⟩ := result
    obtain ⟨t, hdisconnect, -⟩ := hall sampleEnv sampleStakeDisk sampleStakeSpend
      (sampleEntry 1002 (some 1001) 2 500) sampleStakeMap s' undo hconnect
    rw [hconnect] at hrun
    simp only [hdisconnect, Except.map, Except.ok.injEq, reduceCtorEq] at hrun

end Manna
