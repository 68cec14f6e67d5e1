import Manna.CheckBlock
import Manna.UpdateCoins

/-!
Connecting a block (`main.cpp`: `CBlock::ConnectBlock`).

The checks run on the view (`connectBlockChecks`, a program); what follows them writes
undo data and the index entry (`writeUndo`) and moves the best block of the view
(`connectBlock`).

* `related_connectBlockChecks`: on views equal up to pruned records the checks end alike.
-/

namespace Manna

open OpProg

/-! ### The checks -/

/-- The loop variables of `ConnectBlock`. -/
structure ConnectState where
  nFees : Int
  nValueIn : Int
  nValueOut : Int
  nSigOps : Nat
  vtxundo : List CTxUndo
  vChecks : List CScriptCheck
deriving DecidableEq, Repr

def ConnectState.init : ConnectState := ⟨0, 0, 0, 0, [], []⟩

/-- The BIP30 loop: no transaction may overwrite one that is not completely spent. -/
def checkOverwrite : List Uint256 → CoinsM Unit
  | [] => pure ()
  | hash :: hashes => do
    let coins ← CoinsM.getCoins hash
    match coins with
    | none => checkOverwrite hashes
    | some coins =>
      if coins.isPruned then checkOverwrite hashes
      else Prog.fail (.dos 100 "ConnectBlock() : tried to overwrite transaction" false)

/-- What stays fixed over the loop: the entry, the flags and whether to queue scripts. -/
structure ConnectParams where
  pindex : CBlockIndex
  fScriptChecks : Bool
  fStrictPayToScriptHash : Bool
  flags : ScriptFlags
  heights : Uint256 → Option Int

/-- The signature operations of pay-to-script-hash inputs, once they count. -/
def p2shSigOps (params : ConnectParams) (tx : CTransaction) : CoinsM Nat :=
  if params.fStrictPayToScriptHash then getP2SHSigOpCount tx else pure 0

/-- `nFees += nTxValueIn - tx.GetValueOut()`. -/
def addFee (nFees nTxValueIn : Int) (tx : CTransaction) : Except Halt Int := do
  let nTxValueOut ← tx.getValueOut
  let nTxFee ← subInt64 nTxValueIn nTxValueOut
  addInt64 nFees nTxFee

/-- `nValueOut += tx.GetValueOut()`. -/
def addValueOut (nValueOut : Int) (tx : CTransaction) : Except Halt Int := do
  let nTxValueOut ← tx.getValueOut
  addInt64 nValueOut nTxValueOut

/-- The tests of a transaction that is not a coinbase, after the count of its own
signature operations. -/
def connectInputs (env : Env) (params : ConnectParams) (tx : CTransaction) (state : ConnectState) :
    CoinsM ConnectState := do
  let have_ ← haveInputs tx
  if have_ then
    let nP2SH ← p2shSigOps params tx
    let nSigOps := state.nSigOps + nP2SH
    if nSigOps > MAX_BLOCK_SIGOPS then
      Prog.fail (.dos 100 "ConnectBlock() : too many sigops" false)
    else
      let nTxValueIn ← getValueIn tx
      let nFees ← Prog.ofExcept (addFee state.nFees nTxValueIn tx)
      let vChecks ← checkInputs env params.heights tx params.fScriptChecks params.flags
        (env.nScriptCheckThreads ≠ 0)
      pure { state with nSigOps := nSigOps, nFees := nFees, vChecks := state.vChecks ++ vChecks }
  else Prog.fail (.dos 100 "ConnectBlock() : inputs missing/spent" false)

/-- The tests of one transaction. -/
def connectChecks (env : Env) (params : ConnectParams) (tx : CTransaction) (state : ConnectState) :
    CoinsM ConnectState :=
  let state := { state with nSigOps := state.nSigOps + tx.getLegacySigOpCount }
  if state.nSigOps > MAX_BLOCK_SIGOPS then
    Prog.fail (.dos 100 "ConnectBlock() : too many sigops" false)
  else if tx.isCoinBase then do
    let nValueOut ← Prog.ofExcept (addValueOut state.nValueOut tx)
    pure { state with nValueOut := nValueOut }
  else connectInputs env params tx state

/-- One round of the loop over the transactions. -/
def connectTransaction (env : Env) (params : ConnectParams) (tx : CTransaction)
    (state : ConnectState) : CoinsM ConnectState := do
  let state ← connectChecks env params tx state
  let txundo ← updateCoins tx params.pindex.nHeight (env.txHash tx)
  pure (if tx.isCoinBase then state else { state with vtxundo := state.vtxundo ++ [txundo] })

def connectTransactions (env : Env) (params : ConnectParams) :
    List CTransaction → ConnectState → CoinsM ConnectState
  | [], state => pure state
  | tx :: vtx, state => do
    let state ← connectTransaction env params tx state
    connectTransactions env params vtx state

/-- The tests after the loop: the coinbase, then the queued scripts. -/
def connectFinish (env : Env) (block : CBlock) (pindex : CBlockIndex) (state : ConnectState) :
    Except Halt ConnectState :=
  match block.vtx with
  | [] => .error .undefined
  | coinbase :: _ =>
    match coinbase.getValueOut with
    | .error e => .error e
    | .ok nValueOut =>
      if nValueOut > getBlockValue env pindex state.nFees then
        .error (.dos 100 "ConnectBlock() : coinbase pays too much" false)
      else if state.vChecks.all (CScriptCheck.passes env) then .ok state
      else .error (.dos 100 "" false)

/-- `Checkpoints::GetTotalBlocksEstimate`: the only checkpoint is the genesis block. -/
def getTotalBlocksEstimate : Int := 0

def nBIP16SwitchTime : Int := 1349049600

/-- The values `ConnectBlock` derives from the entry. -/
def ConnectParams.of (heights : Uint256 → Option Int) (pindex : CBlockIndex) : ConnectParams :=
  let fStrictPayToScriptHash := decide (nBIP16SwitchTime ≤ pindex.getBlockTime)
  { pindex := pindex
    fScriptChecks := decide (getTotalBlocksEstimate ≤ pindex.nHeight)
    fStrictPayToScriptHash := fStrictPayToScriptHash
    flags := ⟨fStrictPayToScriptHash, false, true⟩
    heights := heights }

/-- Everything `ConnectBlock` does to the view and its state before it writes: the loop
variables at the end, or `none` for the genesis block, whose transactions are skipped. -/
def connectBlockChecks (env : Env) (nAdjustedTime : Int) (heights : Uint256 → Option Int)
    (block : CBlock) (pindex : CBlockIndex) (fJustCheck : Bool) : CoinsM (Option ConnectState) := do
  Prog.ofExcept (checkBlock env nAdjustedTime block (!fJustCheck) (!fJustCheck))
  let best ← CoinsM.getBestBlock
  if pindex.pprev ≠ best then Prog.fail .assertion
  else if block.getHash env = env.hashGenesisBlock then
    CoinsM.setBestBlock pindex.phashBlock
    pure none
  else
    checkOverwrite (block.txHashes env)
    let state ← connectTransactions env (.of heights pindex) block.vtx .init
    let state ← Prog.ofExcept (connectFinish env block pindex state)
    pure (some state)

/-! ### The writes -/

/-- The block and undo files, by block hash. -/
structure BlockFiles where
  blocks : Uint256 → Option CBlock
  undo : Uint256 → Option CBlockUndo

/-- Which of the disk operations of a call succeed. -/
structure DiskIO where
  readBlock : Uint256 → Bool
  readUndo : Uint256 → Bool
  findUndoPos : Uint256 → Bool
  writeUndo : Uint256 → Bool
  writeBlockIndex : Uint256 → Bool
  writeTxIndex : Uint256 → Bool

/-- A disk without failures. -/
def DiskIO.good : DiskIO :=
  ⟨fun _ => true, fun _ => true, fun _ => true, fun _ => true, fun _ => true, fun _ => true⟩

/-- `CBlock::ReadFromDisk(pindex)`: the stored block, after the checks of its header. -/
def readBlock (env : Env) (io : DiskIO) (disk : BlockFiles) (pindex : CBlockIndex) : Option CBlock :=
  if !io.readBlock pindex.phashBlock then none
  else
    match disk.blocks pindex.phashBlock with
    | none => none
    | some block =>
      if !checkProofOfWork (env.powHash block.toCBlockHeader) block.nBits then none
      else if block.getHash env ≠ pindex.phashBlock then none
      else some block

variable {env : Env} {params : ConnectParams} {tx : CTransaction} {nBestHeight : Option Int}

theorem readBlock_eq_some {io : DiskIO} {disk : BlockFiles} {pindex : CBlockIndex}
    {block : CBlock} (h : readBlock env io disk pindex = some block) :
    disk.blocks pindex.phashBlock = some block ∧ block.getHash env = pindex.phashBlock := by
  unfold readBlock at h
  split at h
  · cases h
  · split at h
    · cases h
    · next hblock =>
      split_ifs at h with hpow hhash
      obtain rfl := Option.some.inj h
      exact ⟨hblock, not_not.mp hhash⟩

/-- The money supply at an entry: its predecessor's, and what the block adds. -/
def moneySupply (nPrevSupply : Int) (state : ConnectState) : Except Halt Int := do
  let nSupply ← addInt64 nPrevSupply state.nValueOut
  subInt64 nSupply state.nValueIn

def writeUndoData (io : DiskIO) (blockundo : CBlockUndo) (pindex : CBlockIndex) (disk : BlockFiles) :
    Except Halt Unit × CBlockIndex × BlockFiles :=
  if pindex.nStatus.haveUndo then (.ok (), pindex, disk)
  else if !io.findUndoPos pindex.phashBlock then
    (.error (.error "ConnectBlock() : FindUndoPos failed"), pindex, disk)
  else if !io.writeUndo pindex.phashBlock then
    (.error (.abort "Failed to write undo data"), pindex, disk)
  else
    (.ok (), { pindex with nStatus := { pindex.nStatus with haveUndo := true } },
      { disk with undo := Function.update disk.undo pindex.phashBlock (some blockundo) })

def writeIndexEntry (io : DiskIO) (blockundo : CBlockUndo) (pindex : CBlockIndex)
    (disk : BlockFiles) : Except Halt Unit × CBlockIndex × BlockFiles :=
  if !pindex.nStatus.haveUndo ∨ pindex.nStatus.nValid < BLOCK_VALID_SCRIPTS then
    match writeUndoData io blockundo pindex disk with
    | (.error e, pindex, disk) => (.error e, pindex, disk)
    | (.ok _, pindex, disk) =>
      let pindex := { pindex with nStatus := { pindex.nStatus with nValid := BLOCK_VALID_SCRIPTS } }
      if !io.writeBlockIndex pindex.phashBlock then
        (.error (.abort "Failed to write block index"), pindex, disk)
      else (.ok (), pindex, disk)
  else (.ok (), pindex, disk)

/-- The writes of `ConnectBlock`: money supply, undo data, index entry, transaction index. -/
def writeBlock (env : Env) (io : DiskIO) (nPrevSupply : Int) (state : ConnectState)
    (pindex : CBlockIndex) (disk : BlockFiles) : Except Halt Unit × CBlockIndex × BlockFiles :=
  match moneySupply nPrevSupply state with
  | .error e => (.error e, pindex, disk)
  | .ok nMoneySupply =>
    match writeIndexEntry io ⟨state.vtxundo⟩ { pindex with nMoneySupply := nMoneySupply } disk with
    | (.error e, pindex, disk) => (.error e, pindex, disk)
    | (.ok _, pindex, disk) =>
      if env.fTxIndex ∧ !io.writeTxIndex pindex.phashBlock then
        (.error (.abort "Failed to write transaction index"), pindex, disk)
      else (.ok (), pindex, disk)

/-- What `ConnectBlock` leaves: how it ended, with the undo record it built, and the
view, index entry and files it worked on. -/
structure ConnectResult (σ : Type) where
  outcome : Except Halt CBlockUndo
  view : σ
  pindex : CBlockIndex
  disk : BlockFiles

/-- The end of `ConnectBlock`, from how the checks ended: nothing more for the genesis
block or when `fJustCheck`, else the writes and the new best block of the view. -/
def connectBlockWrites {σ : Type} (h : Handler CoinsOp σ) (env : Env) (io : DiskIO)
    (nPrevSupply : Int) (pindex : CBlockIndex) (fJustCheck : Bool) (disk : BlockFiles)
    (checked : Except Halt (Option ConnectState)) (view : σ) : ConnectResult σ :=
  match checked with
  | .error e => ⟨.error e, view, pindex, disk⟩
  | .ok none => ⟨.ok ⟨[]⟩, view, pindex, disk⟩
  | .ok (some state) =>
    if fJustCheck then ⟨.ok ⟨state.vtxundo⟩, view, pindex, disk⟩
    else
      match writeBlock env io nPrevSupply state pindex disk with
      | (.error e, pindex, disk) => ⟨.error e, view, pindex, disk⟩
      | (.ok _, pindex', disk) =>
        ⟨.ok ⟨state.vtxundo⟩, ((CoinsM.setBestBlock pindex.phashBlock).run h view).2, pindex', disk⟩

/-- `pindex->pprev ? pindex->pprev->nMoneySupply : 0`. -/
def prevSupply (mapBlockIndex : Uint256 → Option CBlockIndex) (pindex : CBlockIndex) : Int :=
  ((pindex.pprev.bind mapBlockIndex).map CBlockIndex.nMoneySupply).getD 0

/-- `nHeight` of the entry with a hash. -/
def heightOf (mapBlockIndex : Uint256 → Option CBlockIndex) (hash : Uint256) : Option Int :=
  (mapBlockIndex hash).map CBlockIndex.nHeight

def connectBlock {σ : Type} (h : Handler CoinsOp σ) (env : Env) (io : DiskIO) (nAdjustedTime : Int)
    (mapBlockIndex : Uint256 → Option CBlockIndex) (block : CBlock) (pindex : CBlockIndex)
    (fJustCheck : Bool) (view : σ) (disk : BlockFiles) : ConnectResult σ :=
  let checked := (connectBlockChecks env nAdjustedTime (heightOf mapBlockIndex) block pindex
    fJustCheck).run h view
  connectBlockWrites h env io (prevSupply mapBlockIndex pindex) pindex fJustCheck disk
    checked.1 checked.2

/-! ### The checks as functions of the unspent outputs -/

open Classical in
theorem run_checkOverwrite (hashes : List Uint256) (s : CoinsMap) :
    (checkOverwrite hashes).run CoinsMap.handler s =
      (if ∀ hash ∈ hashes, ∀ n, s.utxo ⟨hash, n⟩ = none then .ok ()
        else .error (.dos 100 "ConnectBlock() : tried to overwrite transaction" false), s) := by
  induction hashes with
  | nil => simp [checkOverwrite]
  | cons hash hashes ih =>
    unfold checkOverwrite
    rw [Prog.run_bind, CoinsM.run_getCoins]
    simp only [List.forall_mem_cons]
    cases hcoins : s.coins hash with
    | none =>
      have hnone : ∀ n, s.utxo ⟨hash, n⟩ = none := CoinsMap.utxo_of_none hcoins
      simpa [hnone] using ih
    | some coins =>
      have hutxo := CoinsMap.utxo_of_coins hcoins
      by_cases hpruned : coins.isPruned = true
      · have hnone : ∀ n, s.utxo ⟨hash, n⟩ = none := fun n => by
          rw [hutxo, CCoins.isPruned_iff.mp hpruned]
        simpa [hnone, hpruned] using ih
      · have hsome : ¬ ∀ n, s.utxo ⟨hash, n⟩ = none := fun hall =>
          hpruned (CCoins.isPruned_iff.mpr fun n => by rw [← hutxo, hall])
        simp [hsome, hpruned]

/-- The tests of a transaction that is not a coinbase, on the unspent outputs. -/
def connectInputsAt (env : Env) (params : ConnectParams) (tx : CTransaction)
    (state : ConnectState) (u : Utxo) (nBestHeight : Option Int) : Except Halt ConnectState :=
  match coinsOf u tx.vin with
  | none => .error (.dos 100 "ConnectBlock() : inputs missing/spent" false)
  | some coins =>
    let nSigOps := state.nSigOps +
      if params.fStrictPayToScriptHash then sumP2SHSigOps (tx.vin.zip coins) else 0
    if nSigOps > MAX_BLOCK_SIGOPS then
      .error (.dos 100 "ConnectBlock() : too many sigops" false)
    else
      match sumValues coins 0 with
      | .error e => .error e
      | .ok nTxValueIn =>
        match addFee state.nFees nTxValueIn tx with
        | .error e => .error e
        | .ok nFees =>
          match checkInputsAt env tx params.fScriptChecks params.flags
              (env.nScriptCheckThreads ≠ 0) u nBestHeight with
          | .error e => .error e
          | .ok vChecks =>
            .ok { state with
              nSigOps := nSigOps, nFees := nFees, vChecks := state.vChecks ++ vChecks }

theorem run_connectInputs (hcb : tx.isCoinBase = false) (state : ConnectState) (s : CoinsMap) :
    (connectInputs env params tx state).run CoinsMap.handler s =
      (connectInputsAt env params tx state s.utxo (s.best.bind params.heights), s) := by
  unfold connectInputs connectInputsAt
  rw [Prog.run_bind, run_haveInputs]
  simp only [hcb, Bool.false_or]
  cases hcoins : coinsOf s.utxo tx.vin with
  | none => rfl
  | some coins =>
    have hp2sh : (p2shSigOps params tx).run CoinsMap.handler s =
        (.ok (if params.fStrictPayToScriptHash then sumP2SHSigOps (tx.vin.zip coins) else 0), s) := by
      unfold p2shSigOps
      split
      · exact run_getP2SHSigOpCount hcb hcoins
      · rfl
    simp only [Option.isSome_some, if_true]
    rw [Prog.run_bind, hp2sh]
    generalize (if params.fStrictPayToScriptHash then sumP2SHSigOps (tx.vin.zip coins) else 0) = nP2SH
    simp only
    by_cases hsigops : state.nSigOps + nP2SH > MAX_BLOCK_SIGOPS
    · simp [hsigops]
    · rw [if_neg hsigops, if_neg hsigops, Prog.run_bind, run_getValueIn hcb hcoins]
      cases sumValues coins 0 with
      | error e => rfl
      | ok nTxValueIn =>
        simp only
        rw [Prog.run_bind, Prog.run_ofExcept]
        cases addFee state.nFees nTxValueIn tx with
        | error e => rfl
        | ok nFees =>
          simp only
          rw [Prog.run_bind, run_checkInputs hcb]
          cases checkInputsAt env tx params.fScriptChecks params.flags
            (env.nScriptCheckThreads ≠ 0) s.utxo (s.best.bind params.heights) <;> rfl

/-- The tests of one transaction, on the unspent outputs. -/
def connectChecksAt (env : Env) (params : ConnectParams) (tx : CTransaction)
    (state : ConnectState) (u : Utxo) (nBestHeight : Option Int) : Except Halt ConnectState :=
  let state := { state with nSigOps := state.nSigOps + tx.getLegacySigOpCount }
  if state.nSigOps > MAX_BLOCK_SIGOPS then
    .error (.dos 100 "ConnectBlock() : too many sigops" false)
  else if tx.isCoinBase then
    match addValueOut state.nValueOut tx with
    | .error e => .error e
    | .ok nValueOut => .ok { state with nValueOut := nValueOut }
  else connectInputsAt env params tx state u nBestHeight

theorem run_connectChecks (env : Env) (params : ConnectParams) (tx : CTransaction)
    (state : ConnectState) (s : CoinsMap) : (connectChecks env params tx state).run CoinsMap.handler s =
      (connectChecksAt env params tx state s.utxo (s.best.bind params.heights), s) := by
  unfold connectChecks connectChecksAt
  simp only
  split
  · rfl
  · cases hcb : tx.isCoinBase with
    | true =>
      simp only [if_true]
      rw [Prog.run_bind, Prog.run_ofExcept]
      cases addValueOut state.nValueOut tx <;> rfl
    | false =>
      simp only [Bool.false_eq_true, if_false]
      exact run_connectInputs hcb _ s

theorem checkInputsAt_ok {fScriptChecks pvChecks : Bool}
    {flags : ScriptFlags} {u : Utxo} {vChecks : List CScriptCheck}
    (h : checkInputsAt env tx fScriptChecks flags pvChecks u nBestHeight = .ok vChecks) :
    ∃ coins nHeight, coinsOf u tx.vin = some coins ∧ nBestHeight = some nHeight ∧
      checkInputCoins env tx (nHeight + 1) fScriptChecks flags pvChecks coins = .ok vChecks := by
  unfold checkInputsAt at h
  split at h
  · cases h
  · next coins hcoins =>
    split at h
    · cases h
    · next nHeight => exact ⟨coins, nHeight, hcoins, rfl, h⟩

/-- What passing the tests of a transaction that is not a coinbase consists of. -/
theorem connectInputsAt_ok {state state' : ConnectState} {u : Utxo}
    (h : connectInputsAt env params tx state u nBestHeight = .ok state') :
    ∃ coins nTxValueIn nFees nHeight vChecks,
      coinsOf u tx.vin = some coins ∧ sumValues coins 0 = .ok nTxValueIn ∧
      addFee state.nFees nTxValueIn tx = .ok nFees ∧ nBestHeight = some nHeight ∧
      checkInputCoins env tx (nHeight + 1) params.fScriptChecks params.flags
        (env.nScriptCheckThreads ≠ 0) coins = .ok vChecks ∧
      state' = { state with
        nSigOps := state.nSigOps +
          if params.fStrictPayToScriptHash then sumP2SHSigOps (tx.vin.zip coins) else 0
        nFees := nFees
        vChecks := state.vChecks ++ vChecks } := by
  unfold connectInputsAt at h
  cases hcoins : coinsOf u tx.vin with
  | none => simp [hcoins] at h
  | some coins =>
    rw [hcoins] at h
    by_cases hsigops : state.nSigOps + (if params.fStrictPayToScriptHash then
        sumP2SHSigOps (tx.vin.zip coins) else 0) > MAX_BLOCK_SIGOPS
    · simp only [hsigops, if_true] at h
      cases h
    · simp only [hsigops, if_false] at h
      cases hsum : sumValues coins 0 with
      | error e => simp [hsum] at h
      | ok nTxValueIn =>
        simp only [hsum] at h
        cases hfee : addFee state.nFees nTxValueIn tx with
        | error e => simp [hfee] at h
        | ok nFees =>
          simp only [hfee] at h
          cases hchecks : checkInputsAt env tx params.fScriptChecks params.flags
              (env.nScriptCheckThreads ≠ 0) u nBestHeight with
          | error e => rw [hchecks] at h; cases h
          | ok vChecks =>
            rw [hchecks] at h
            simp only [Except.ok.injEq] at h
            obtain ⟨coins', nHeight, hcoins', hheight, hcheck⟩ := checkInputsAt_ok hchecks
            obtain rfl : coins = coins' := Option.some.inj (hcoins.symm.trans hcoins')
            exact ⟨coins, nTxValueIn, nFees, nHeight, vChecks, rfl, hsum, hfee, hheight,
              hcheck, h.symm⟩

theorem connectChecksAt_ok {state state' : ConnectState} {u : Utxo}
    (h : connectChecksAt env params tx state u nBestHeight = .ok state') :
    (tx.isCoinBase = true ∧ ∃ nValueOut, addValueOut state.nValueOut tx = .ok nValueOut ∧
      state' = { state with
        nSigOps := state.nSigOps + tx.getLegacySigOpCount, nValueOut := nValueOut }) ∨
    (tx.isCoinBase = false ∧
      connectInputsAt env params tx
        { state with nSigOps := state.nSigOps + tx.getLegacySigOpCount } u nBestHeight =
          .ok state') := by
  unfold connectChecksAt at h
  simp only at h
  split at h
  · cases h
  · cases hcb : tx.isCoinBase with
    | true =>
      simp only [hcb, if_true] at h
      cases hadd : addValueOut state.nValueOut tx with
      | error e => simp [hadd] at h
      | ok nValueOut =>
        simp only [hadd, Except.ok.injEq] at h
        exact .inl ⟨rfl, nValueOut, rfl, h.symm⟩
    | false =>
      simp only [hcb, Bool.false_eq_true, if_false] at h
      exact .inr ⟨rfl, h⟩

theorem connectFinish_ok {block : CBlock} {pindex : CBlockIndex}
    {state state' : ConnectState} (h : connectFinish env block pindex state = .ok state') :
    state' = state ∧ state.vChecks.all (CScriptCheck.passes env) = true ∧
      ∃ coinbase vtx nValueOut, block.vtx = coinbase :: vtx ∧ coinbase.getValueOut = .ok nValueOut ∧
        nValueOut ≤ getBlockValue env pindex state.nFees := by
  unfold connectFinish at h
  cases hvtx : block.vtx with
  | nil => simp [hvtx] at h
  | cons coinbase vtx =>
    simp only [hvtx] at h
    cases hout : coinbase.getValueOut with
    | error e => simp [hout] at h
    | ok nValueOut =>
      simp only [hout] at h
      split at h
      · cases h
      · next hpays =>
        split at h
        · next hscripts =>
          rw [Except.ok.injEq] at h
          exact ⟨h.symm, hscripts, coinbase, vtx, nValueOut, rfl, hout, Int.not_lt.mp hpays⟩
        · cases h

/-- One round of the loop: the tests hold of the state before, `UpdateCoins` leads to the
state after. -/
theorem connectTransaction_ok {state state' : ConnectState} {s s' : CoinsMap}
    (h : (connectTransaction env params tx state).run CoinsMap.handler s = (.ok state', s')) :
    ∃ checked txundo, connectChecksAt env params tx state s.utxo (s.best.bind params.heights) = .ok checked ∧
      (updateCoins tx params.pindex.nHeight (env.txHash tx)).run CoinsMap.handler s = (.ok txundo, s') ∧
      state' = if tx.isCoinBase then checked
        else { checked with vtxundo := checked.vtxundo ++ [txundo] } := by
  obtain ⟨checked, s₁, hchecks, hrest⟩ := Prog.run_bind_eq_ok.mp h
  rw [run_connectChecks, Prod.mk.injEq] at hchecks
  obtain ⟨hchecked, rfl⟩ := hchecks
  obtain ⟨txundo, s₂, hupdate, hpure⟩ := Prog.run_bind_eq_ok.mp hrest
  rw [Prog.run_pure, Prod.mk.injEq, Except.ok.injEq] at hpure
  obtain ⟨rfl, rfl⟩ := hpure
  exact ⟨checked, txundo, hchecked, hupdate, rfl⟩

section Related

open CoinsMap

/-- A check that is a function of the unspent outputs and the best block. -/
theorem related_of_run {α : Type} {p : CoinsM α} (f : Utxo → Option Uint256 → Except Halt α)
    (h : ∀ s, p.run handler s = (f s.utxo s.best, s)) : Related handler handler ViewEq Eq p p := by
  intro s t hview
  rw [h, h, hview.1, hview.2]
  refine ⟨?_, hview⟩
  cases f t.utxo t.best <;> rfl

theorem related_checkOverwrite (hashes : List Uint256) :
    Related handler handler ViewEq Eq (checkOverwrite hashes) (checkOverwrite hashes) := by
  classical
  exact related_of_run (fun u _ => if ∀ hash ∈ hashes, ∀ n, u ⟨hash, n⟩ = none then .ok ()
    else .error (.dos 100 "ConnectBlock() : tried to overwrite transaction" false))
    fun s => by rw [run_checkOverwrite]

theorem related_connectTransactions (env : Env) (params : ConnectParams)
    (vtx : List CTransaction) (state : ConnectState) :
    Related handler handler ViewEq Eq (connectTransactions env params vtx state)
      (connectTransactions env params vtx state) := by
  induction vtx generalizing state with
  | nil => exact Related.ret rfl
  | cons tx vtx ih =>
    refine Related.bind (V := Eq) ?_ fun state₁ state₁' heq => heq ▸ ih state₁
    refine Related.bind (V := Eq) (related_of_run
      (fun u best => connectChecksAt env params tx state u (best.bind params.heights))
      (run_connectChecks env params tx state)) ?_
    rintro checked _ rfl
    refine Related.bind (related_updateCoins _ _ _) ?_
    rintro txundo _ rfl
    exact Related.ret rfl

/-- **The checks do not see pruned records**: on views that are equal up to them they end
alike, in such views. -/
theorem related_connectBlockChecks (env : Env) (nAdjustedTime : Int)
    (heights : Uint256 → Option Int) (block : CBlock) (pindex : CBlockIndex) (fJustCheck : Bool) :
    Related handler handler ViewEq Eq (connectBlockChecks env nAdjustedTime heights block pindex fJustCheck)
      (connectBlockChecks env nAdjustedTime heights block pindex fJustCheck) := by
  refine Related.bind (Related.ofExcept _) fun _ _ _ => ?_
  refine Related.bind (V := Eq) (related_of_run (fun _ best => .ok best) fun _ => rfl) ?_
  rintro best _ rfl
  refine Related.ite Iff.rfl (fun _ => Related.fail _) fun _ => ?_
  refine Related.ite Iff.rfl (fun _ => ?_) fun _ => ?_
  · refine Related.bind (V := Eq) (fun s t hview => ⟨rfl, hview.1, rfl⟩) fun _ _ _ => ?_
    exact Related.ret rfl
  · refine Related.bind (related_checkOverwrite _) fun _ _ _ => ?_
    refine Related.bind (related_connectTransactions env _ _ _) ?_
    rintro state _ rfl
    refine Related.bind (Related.ofExcept _) ?_
    rintro state' _ rfl
    exact Related.ret rfl

end Related

end Manna
