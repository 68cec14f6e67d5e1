import Manna.DisconnectBlock

/-!
`DisconnectBlock` undoes `ConnectBlock`.

The argument is made on maps (`disconnectBlock_map`), for any view that shows what
`ConnectBlock` left; a cache over any view then behaves as the map it denotes.
-/

namespace Manna

open OpProg

/-! ### The writes of ConnectBlock -/

/-- An entry changed in its undo flag and its validity level, and an undo record written
exactly when the flag was raised. -/
def UndoWritten (blockundo : CBlockUndo) (pindex pindex' : CBlockIndex) (disk disk' : BlockFiles) :
    Prop :=
  ∃ written nValid,
    pindex' = { pindex with
      nStatus := { pindex.nStatus with
        haveUndo := pindex.nStatus.haveUndo || written, nValid := nValid } } ∧
    disk' = (if written then
      { disk with undo := Function.update disk.undo pindex.phashBlock (some blockundo) } else disk) ∧
    (written = true → pindex.nStatus.haveUndo = false)

theorem UndoWritten.refl (blockundo : CBlockUndo) (pindex : CBlockIndex) (disk : BlockFiles) :
    UndoWritten blockundo pindex pindex disk disk :=
  ⟨false, pindex.nStatus.nValid, by simp, rfl, fun h => by cases h⟩

theorem writeUndoData_spec (io : DiskIO) (blockundo : CBlockUndo) (pindex : CBlockIndex)
    (disk : BlockFiles) : UndoWritten blockundo pindex (writeUndoData io blockundo pindex disk).2.1 disk
        (writeUndoData io blockundo pindex disk).2.2 ∧ ((writeUndoData io blockundo pindex disk).1 = .ok () →
        (writeUndoData io blockundo pindex disk).2.1.nStatus.haveUndo = true) := by
  unfold writeUndoData
  split
  · next hundo => exact ⟨.refl .., fun _ => hundo⟩
  · next hundo =>
    split
    · exact ⟨.refl .., fun h => by cases h⟩
    · split
      · exact ⟨.refl .., fun h => by cases h⟩
      · exact ⟨⟨true, pindex.nStatus.nValid, by simp, rfl, fun _ => by simpa using hundo⟩, fun _ => rfl⟩

theorem writeIndexEntry_spec (io : DiskIO) (blockundo : CBlockUndo) (pindex : CBlockIndex)
    (disk : BlockFiles) : UndoWritten blockundo pindex (writeIndexEntry io blockundo pindex disk).2.1 disk
        (writeIndexEntry io blockundo pindex disk).2.2 ∧
      ((writeIndexEntry io blockundo pindex disk).1 = .ok () →
        (writeIndexEntry io blockundo pindex disk).2.1.nStatus.haveUndo = true) := by
  obtain ⟨⟨written, nValid, hentry, hdisk, hnew⟩, hok⟩ := writeUndoData_spec io blockundo pindex disk
  unfold writeIndexEntry
  split
  · generalize writeUndoData io blockundo pindex disk = result at hentry hdisk hok
    obtain ⟨outcome, pindex', disk'⟩ := result
    dsimp only at hentry hdisk hok
    cases outcome with
    | error e => exact ⟨⟨written, nValid, hentry, hdisk, hnew⟩, fun h => by cases h⟩
    | ok _ =>
      have hset : UndoWritten blockundo pindex
          { pindex' with nStatus := { pindex'.nStatus with nValid := BLOCK_VALID_SCRIPTS } }
          disk disk' := ⟨written, BLOCK_VALID_SCRIPTS, by rw [hentry], hdisk, hnew⟩
      dsimp only
      split
      · exact ⟨hset, fun h => by cases h⟩
      · exact ⟨hset, fun _ => hok rfl⟩
  · next hskip =>
    simp only [Bool.not_eq_true', not_or, Bool.not_eq_false] at hskip
    exact ⟨.refl .., fun _ => hskip.1⟩

/-- **What the writes do**, whatever of them fails. -/
theorem writeBlock_spec (env : Env) (io : DiskIO) (nPrevSupply : Int) (state : ConnectState)
    (pindex : CBlockIndex) (disk : BlockFiles) :
    ∃ nMoneySupply,
      UndoWritten ⟨state.vtxundo⟩ { pindex with nMoneySupply := nMoneySupply }
        (writeBlock env io nPrevSupply state pindex disk).2.1 disk
        (writeBlock env io nPrevSupply state pindex disk).2.2 ∧
      ((writeBlock env io nPrevSupply state pindex disk).1 = .ok () →
        (writeBlock env io nPrevSupply state pindex disk).2.1.nStatus.haveUndo = true ∧
          moneySupply nPrevSupply state = .ok nMoneySupply) := by
  unfold writeBlock
  cases moneySupply nPrevSupply state with
  | error e => exact ⟨pindex.nMoneySupply, .refl .., fun h => by cases h⟩
  | ok nMoneySupply =>
    obtain ⟨hwritten, hok⟩ :=
      writeIndexEntry_spec io ⟨state.vtxundo⟩ { pindex with nMoneySupply := nMoneySupply } disk
    dsimp only
    generalize writeIndexEntry io ⟨state.vtxundo⟩ { pindex with nMoneySupply := nMoneySupply } disk =
      result at hwritten hok
    obtain ⟨outcome, pindex', disk'⟩ := result
    refine ⟨nMoneySupply, ?_⟩
    cases outcome with
    | error e => exact ⟨hwritten, fun h => by cases h⟩
    | ok _ =>
      dsimp only
      split
      · exact ⟨hwritten, fun h => by cases h⟩
      · exact ⟨hwritten, fun _ => ⟨hok rfl, rfl⟩⟩

theorem writeBlock_error {env : Env} {io : DiskIO} {nPrevSupply nMoneySupply : Int}
    {state : ConnectState} (hmoney : moneySupply nPrevSupply state = .ok nMoneySupply)
    {pindex : CBlockIndex} {disk : BlockFiles} {e : Halt}
    (h : (writeBlock env io nPrevSupply state pindex disk).1 = .error e) :
    ∃ reason, e = .error reason ∨ e = .abort reason := by
  have hundo : ∀ (pindex : CBlockIndex) (e : Halt),
      (writeUndoData io ⟨state.vtxundo⟩ pindex disk).1 = .error e →
      ∃ reason, e = .error reason ∨ e = .abort reason := by
    intro pindex e h
    unfold writeUndoData at h
    split_ifs at h <;> cases h <;> simp
  have hindex : ∀ (pindex : CBlockIndex) (e : Halt),
      (writeIndexEntry io ⟨state.vtxundo⟩ pindex disk).1 = .error e →
      ∃ reason, e = .error reason ∨ e = .abort reason := by
    intro pindex e h
    have := hundo pindex e
    unfold writeIndexEntry at h
    split at h
    · generalize writeUndoData io ⟨state.vtxundo⟩ pindex disk = result at h this
      obtain ⟨outcome, pindex', disk'⟩ := result
      cases outcome with
      | error e' => exact this h
      | ok _ =>
        dsimp only at h
        split at h <;> cases h
        simp
    · cases h
  have := hindex { pindex with nMoneySupply := nMoneySupply } e
  unfold writeBlock at h
  rw [hmoney] at h
  dsimp only at h
  generalize writeIndexEntry io ⟨state.vtxundo⟩ { pindex with nMoneySupply := nMoneySupply } disk =
    result at h this
  obtain ⟨outcome, pindex', disk'⟩ := result
  cases outcome with
  | error e' => exact this h
  | ok _ =>
    dsimp only at h
    split at h <;> cases h
    simp

theorem connectBlockChecks_ne_none {σ : Type} {h : Handler CoinsOp σ} {env : Env}
    {nAdjustedTime : Int} {heights : Uint256 → Option Int} {block : CBlock} {pindex : CBlockIndex}
    {fJustCheck : Bool} {view view' : σ} (hgenesis : block.getHash env ≠ env.hashGenesisBlock) :
    (connectBlockChecks env nAdjustedTime heights block pindex fJustCheck).run h view ≠
      (.ok none, view') := by
  intro hrun
  obtain ⟨_, v₁, -, hrun⟩ := Prog.run_bind_eq_ok.mp hrun
  obtain ⟨best, v₂, -, hrun⟩ := Prog.run_bind_eq_ok.mp hrun
  by_cases hprev : pindex.pprev ≠ best
  · rw [if_pos hprev] at hrun
    cases congrArg Prod.fst hrun
  · rw [if_neg hprev, if_neg hgenesis] at hrun
    obtain ⟨_, v₃, -, hrun⟩ := Prog.run_bind_eq_ok.mp hrun
    obtain ⟨_, v₄, -, hrun⟩ := Prog.run_bind_eq_ok.mp hrun
    obtain ⟨_, v₅, -, hrun⟩ := Prog.run_bind_eq_ok.mp hrun
    cases congrArg Prod.fst hrun

/-- What a successful `ConnectBlock` of a block with transactions consists of. -/
theorem connectBlock_ok {σ : Type} {h : Handler CoinsOp σ} {env : Env} {io : DiskIO}
    {nAdjustedTime : Int} {mapBlockIndex : Uint256 → Option CBlockIndex} {block : CBlock}
    {pindex : CBlockIndex} {view : σ} {disk : BlockFiles} {undo : CBlockUndo}
    (hgenesis : block.getHash env ≠ env.hashGenesisBlock)
    (hok : (connectBlock h env io nAdjustedTime mapBlockIndex block pindex false view disk).outcome =
      .ok undo) : ∃ state view₁ pindex' disk',
      (connectBlockChecks env nAdjustedTime (heightOf mapBlockIndex) block pindex false).run h view =
        (.ok (some state), view₁) ∧ undo = ⟨state.vtxundo⟩ ∧
      writeBlock env io (prevSupply mapBlockIndex pindex) state pindex disk = (.ok (), pindex', disk') ∧
      connectBlock h env io nAdjustedTime mapBlockIndex block pindex false view disk =
        ⟨.ok undo, ((CoinsM.setBestBlock pindex.phashBlock).run h view₁).2, pindex', disk'⟩ := by
  have hnone := @connectBlockChecks_ne_none σ h env nAdjustedTime (heightOf mapBlockIndex) block
    pindex false view
  unfold connectBlock at hok ⊢
  generalize (connectBlockChecks env nAdjustedTime (heightOf mapBlockIndex) block pindex
    false).run h view = checked at hok hnone ⊢
  obtain ⟨outcome, view₁⟩ := checked
  unfold connectBlockWrites at hok ⊢
  match outcome with
  | .error e => cases hok
  | .ok none => exact absurd rfl (hnone hgenesis)
  | .ok (some state) =>
    simp only [Bool.false_eq_true, if_false] at hok ⊢
    generalize hwrite : writeBlock env io (prevSupply mapBlockIndex pindex) state pindex disk =
      written at hok ⊢
    obtain ⟨outcome, pindex', disk'⟩ := written
    cases outcome with
    | error e => cases hok
    | ok _ =>
      simp only [Except.ok.injEq] at hok
      exact ⟨state, view₁, pindex', disk', rfl, hok.symm, hwrite, by rw [hok]⟩

/-- `ConnectBlock` on a cache is `ConnectBlock` on what the cache denotes. -/
theorem connectBlock_contents {σ : Type} [CoinsView σ] (env : Env) (io : DiskIO)
    (nAdjustedTime : Int) (mapBlockIndex : Uint256 → Option CBlockIndex) (block : CBlock)
    (pindex : CBlockIndex) (fJustCheck : Bool) (view : CCoinsViewCache σ) (disk : BlockFiles) :
    let cached := connectBlock CCoinsViewCache.handler env io nAdjustedTime mapBlockIndex block
      pindex fJustCheck view disk
    let mapped := connectBlock CoinsMap.handler env io nAdjustedTime mapBlockIndex block pindex
      fJustCheck view.contents disk
    cached.outcome = mapped.outcome ∧ cached.view.contents = mapped.view ∧
      cached.pindex = mapped.pindex ∧ cached.disk = mapped.disk := by
  obtain ⟨hval, hcontents⟩ := Prog.run_abstracts CCoinsViewCache.handler_abstracts
    (connectBlockChecks env nAdjustedTime (heightOf mapBlockIndex) block pindex fJustCheck) view
  simp only [connectBlock, ← hval, ← hcontents]
  generalize (connectBlockChecks env nAdjustedTime (heightOf mapBlockIndex) block pindex
    fJustCheck).run CCoinsViewCache.handler view = checked
  obtain ⟨outcome, view'⟩ := checked
  unfold connectBlockWrites
  match outcome with
  | .error e => exact ⟨rfl, rfl, rfl, rfl⟩
  | .ok none => exact ⟨rfl, rfl, rfl, rfl⟩
  | .ok (some state) =>
    dsimp only
    split
    · exact ⟨rfl, rfl, rfl, rfl⟩
    · generalize writeBlock env io (prevSupply mapBlockIndex pindex) state pindex disk = written
      obtain ⟨outcome, pindex', disk'⟩ := written
      cases outcome with
      | error e => exact ⟨rfl, rfl, rfl, rfl⟩
      | ok _ =>
        exact ⟨rfl, (Prog.run_abstracts CCoinsViewCache.handler_abstracts
          (CoinsM.setBestBlock pindex.phashBlock) view').2, rfl, rfl⟩

/-! ### On maps -/

theorem Updates.length {env : Env} {nHeight : Int} {vtx : List CTransaction}
    {undos : List CTxUndo} {s s' : CoinsMap} (h : Updates env nHeight s vtx undos s') :
    undos.length = vtx.length := by
  induction h with
  | nil s => rfl
  | cons _ _ ih => simp [ih]

theorem zipWith_undoFor {vtx : List CTransaction} {undos : List CTxUndo}
    (hcb : ∀ tx ∈ vtx, tx.isCoinBase = false) (hlen : undos.length = vtx.length) :
    List.zipWith undoFor vtx undos = undos.map some := by
  induction vtx generalizing undos with
  | nil =>
    rw [List.length_eq_zero_iff.mp hlen]
    rfl
  | cons tx vtx ih =>
    cases undos with
    | nil => simp at hlen
    | cons txundo undos =>
      rw [List.zipWith_cons_cons, List.map_cons,
        ih (fun tx' hmem => hcb tx' (List.mem_cons_of_mem _ hmem)) (by simpa using hlen)]
      simp [undoFor, hcb tx (List.mem_cons_self ..)]

/-- The undo data of a block with its coinbase first, as `DisconnectBlock` pairs it. -/
theorem zip_undos {coinbase : CTransaction} {vtx : List CTransaction} {undos : List CTxUndo}
    (hfirst : coinbase.isCoinBase = true) (hrest : ∀ tx ∈ vtx, tx.isCoinBase = false)
    (hlen : undos.length = (coinbase :: vtx).length) :
    ((List.zipWith undoFor (coinbase :: vtx) undos).filterMap id).length + 1 = (coinbase :: vtx).length ∧
      List.zipWith undoFor (coinbase :: vtx) undos =
        none :: ((List.zipWith undoFor (coinbase :: vtx) undos).filterMap id).map some := by
  cases undos with
  | nil => simp at hlen
  | cons txundo undos =>
    have hlen' : undos.length = vtx.length := by simpa using hlen
    rw [List.zipWith_cons_cons, zipWith_undoFor hrest hlen']
    simp [undoFor, hfirst, hlen', List.filterMap_map]

/-- `DisconnectBlock` after the checks of `ConnectBlock`, from any map that shows the
unspent outputs those ended in. `P` names records known to be clean. -/
theorem disconnectBlock_map {P : Uint256 → Prop} {env : Env} {nAdjustedTime : Int}
    {heights : Uint256 → Option Int} {block : CBlock} {pindex pindex' : CBlockIndex}
    {fJustCheck : Bool} {s s' t : CoinsMap} {state : ConnectState} {pprev : Uint256}
    (hconnect : (connectBlockChecks env nAdjustedTime heights block pindex fJustCheck).run
      CoinsMap.handler s = (.ok (some state), s'))
    (hprev : pindex.pprev = some pprev) (hpos : 0 < pindex.nHeight) (hheights : HeightsPos s.utxo)
    (hsame : pindex'.phashBlock = pindex.phashBlock ∧ pindex'.pprev = pindex.pprev ∧
      pindex'.nHeight = pindex.nHeight)
    (hutxo : t.utxo = s'.utxo) (hbest : t.best = some pindex.phashBlock) (hclean : CleanOn P t)
    (hP : ∀ tx ∈ block.vtx, P (env.txHash tx)) :
    ∃ t', (disconnectBlock env (.ok ⟨state.vtxundo⟩) block pindex').run CoinsMap.handler t =
        (.ok true, t') ∧ t'.utxo = s.utxo ∧ t'.best = some pprev ∧ s.best = some pprev ∧ CleanOn P t' := by
  obtain ⟨hblock, hsprev, hfresh, htxs, -⟩ := connectBlockChecks_ok hconnect
  obtain ⟨undos, hupdates, hvtxundo⟩ : ∃ undos, Updates env pindex.nHeight s block.vtx undos s' ∧ _ :=
    connectTransactions_updates htxs
  obtain ⟨coinbase, vtx, hvtx, hfirst, hrest⟩ := hblock.coinbase
  obtain ⟨hcount, hzip⟩ := zip_undos hfirst hrest (hvtx ▸ hupdates.length)
  rw [ConnectState.init, List.nil_append] at hvtxundo
  rw [← hvtx, ← hvtxundo] at hcount hzip
  obtain ⟨t₁, hrun, hutxo₁, hclean₁, -⟩ :=
    disconnectTransactions_ok hupdates
      (fun tx hmem => checkTransaction_eq_ok (hblock.transactions tx hmem).1)
      hblock.txids_nodup hfresh hheights hpos hutxo hclean hP
  refine ⟨t₁.setBest pprev, ?_, hutxo₁, rfl, by rw [← hsprev, hprev], hclean₁⟩
  unfold disconnectBlock
  rw [Prog.run_bind, CoinsM.run_getBestBlock]
  simp only [hbest, hsame.1, hsame.2.1, hsame.2.2, hprev, ne_eq, not_true_eq_false, if_false]
  rw [Prog.run_bind, Prog.run_ofExcept]
  simp only [hcount, not_true_eq_false, if_false]
  rw [← hzip, Prog.run_bind_of_ok hrun]
  rfl

/-! ### On caches -/

/-- **Undo exactness.** For every view whose unspent coins have positive heights and every
block that is not the genesis block: if `ConnectBlock` returns true, `DisconnectBlock` with
the undo record it produced, run on the view it left, returns true and finds no
inconsistency; every outpoint then has the output, coinbase flag, height and version it had
before, and the best block is the previous one again. -/
theorem disconnectBlock_connectBlock {σ : Type} [CoinsView σ] (env : Env) (io : DiskIO)
    (nAdjustedTime : Int) (mapBlockIndex : Uint256 → Option CBlockIndex) (block : CBlock)
    (pindex : CBlockIndex) (pprev : Uint256) (view : CCoinsViewCache σ) (disk : BlockFiles)
    (undo : CBlockUndo)
    (hgenesis : block.getHash env ≠ env.hashGenesisBlock)
    (hprev : pindex.pprev = some pprev) (hpos : 0 < pindex.nHeight)
    (hheights : ∀ out coin, view.contents.utxo out = some coin → 0 < coin.nHeight)
    (hconnect : (connectBlock CCoinsViewCache.handler env io nAdjustedTime mapBlockIndex block
      pindex false view disk).outcome = .ok undo) :
    let connected := connectBlock CCoinsViewCache.handler env io nAdjustedTime mapBlockIndex block
      pindex false view disk
    let disconnected := (disconnectBlock env (.ok undo) block connected.pindex).run
      CCoinsViewCache.handler connected.view
    disconnected.1 = .ok true ∧
      disconnected.2.contents.utxo = view.contents.utxo ∧
      disconnected.2.contents.best = some pprev ∧
      (pindex.nStatus.haveUndo = false →
        connected.disk.undo pindex.phashBlock = some undo) := by
  obtain ⟨state, view₁, pindex', disk', hchecks, rfl, hwrite, heq⟩ := connectBlock_ok hgenesis hconnect
  intro connected disconnected
  have hmap := Prog.run_to_abstract CCoinsViewCache.handler_abstracts hchecks
  obtain ⟨hblock, -, -, htxs, -⟩ := connectBlockChecks_ok hmap
  obtain ⟨undos, hupdates, -⟩ := connectTransactions_updates htxs
  have hchecked : ∀ tx ∈ block.vtx, Checked tx := fun tx hmem =>
    checkTransaction_eq_ok (hblock.transactions tx hmem).1
  have hclean : CleanOn (fun txid => False ∨ txid ∈ block.vtx.map env.txHash) view₁.contents :=
    hupdates.cleanOn (fun _ hfalse => hfalse.elim) hchecked
  have hview : connected.view.contents = view₁.contents.setBest pindex.phashBlock := by
    simp only [connected]
    rw [heq]
    exact (Prog.run_abstracts CCoinsViewCache.handler_abstracts _ view₁).2
  obtain ⟨nMoneySupply, ⟨written, nValid, hpindex, hdisk, -⟩, hok⟩ := writeBlock_spec env io
    (prevSupply mapBlockIndex pindex) state pindex disk
  rw [hwrite] at hpindex hdisk hok
  dsimp only at hpindex hdisk hok
  have hentry : connected.pindex = pindex' := by simp only [connected, heq]
  have hclean' : CleanOn (fun txid => False ∨ txid ∈ block.vtx.map env.txHash)
      connected.view.contents := by rw [hview]; exact hclean
  have hsame : connected.pindex.phashBlock = pindex.phashBlock ∧
      connected.pindex.pprev = pindex.pprev ∧ connected.pindex.nHeight = pindex.nHeight := by
    rw [hentry, hpindex]
    exact ⟨rfl, rfl, rfl⟩
  obtain ⟨t', hrun, hutxo, hbest, -, -⟩ :=
    disconnectBlock_map hmap hprev hpos hheights hsame (by rw [hview]; rfl) (by rw [hview]; rfl)
      hclean' fun tx hmem => .inr (List.mem_map_of_mem hmem)
  obtain ⟨hval, hcontents⟩ := Prog.run_abstracts CCoinsViewCache.handler_abstracts
    (disconnectBlock env (.ok ⟨state.vtxundo⟩) block connected.pindex) connected.view
  rw [hrun] at hval hcontents
  refine ⟨hval, by rw [hcontents]; exact hutxo, by rw [hcontents]; exact hbest, fun hnew => ?_⟩
  have hraised := (hok rfl).1
  simp only [hpindex, hnew, Bool.false_or] at hraised
  simp only [connected, heq, hdisk, hraised, if_true, Function.update_self]

/-- A database with one record at height 1, best block 1001. -/
def sampleCoinsDB : CCoinsViewDB where
  coins txid := if txid = 7 then some ⟨false, [⟨5 * CENT, []⟩, ⟨CENT, []⟩], 1, 1⟩ else none
  hashBestChain := some 1001

/-- A coinbase, a transaction that spends both outputs of the record, and one that spends
an output of it within the block. -/
def sampleSpendBlock : CBlock :=
  sampleBlock 1002 1001 500
    [sampleCoinBase 21 500 CENT, sampleTx 22 500 [sampleIn 7 0, sampleIn 7 1] [2 * CENT, 3 * CENT],
      sampleTx 23 500 [sampleIn 22 1] [CENT]]

def sampleUndo : CBlockUndo :=
  ⟨[⟨[⟨⟨5 * CENT, []⟩, false, 0, 0⟩, ⟨⟨CENT, []⟩, false, 1, 1⟩]⟩,
    ⟨[⟨⟨3 * CENT, []⟩, false, 0, 0⟩]⟩]⟩

def sampleMapBlockIndex (hash : Uint256) : Option CBlockIndex :=
  if hash = 1001 then some (sampleEntry 1001 (some 1000) 1 400) else none

theorem heightsPos_sampleCoinsDB (out : COutPoint) (coin : Coin)
    (h : (CCoinsViewCache.new sampleCoinsDB).contents.utxo out = some coin) : 0 < coin.nHeight := by
  rw [CCoinsViewCache.contents_new] at h
  simp only [CoinsMap.utxo, CoinsView.contents, sampleCoinsDB] at h
  split at h
  · exact (CCoins.coinAt_eq_some.mp h).2.2.1 ▸ by decide
  · cases h

def emptyFiles : BlockFiles := ⟨fun _ => none, fun _ => none⟩

theorem disconnectBlock_connectBlock_sample :
    (connectBlock CCoinsViewCache.handler sampleEnv .good 1000 sampleMapBlockIndex sampleSpendBlock
      (sampleEntry 1002 (some 1001) 2 500) false (.new sampleCoinsDB) emptyFiles).outcome =
        .ok sampleUndo ∧
      ((disconnectBlock sampleEnv (.ok sampleUndo) sampleSpendBlock
        (connectBlock CCoinsViewCache.handler sampleEnv .good 1000 sampleMapBlockIndex
          sampleSpendBlock (sampleEntry 1002 (some 1001) 2 500) false (.new sampleCoinsDB)
          emptyFiles).pindex).run CCoinsViewCache.handler
        (connectBlock CCoinsViewCache.handler sampleEnv .good 1000 sampleMapBlockIndex
          sampleSpendBlock (sampleEntry 1002 (some 1001) 2 500) false (.new sampleCoinsDB)
          emptyFiles).view).1 = .ok true :=
  have hconnect : (connectBlock CCoinsViewCache.handler sampleEnv .good 1000 sampleMapBlockIndex
      sampleSpendBlock (sampleEntry 1002 (some 1001) 2 500) false (.new sampleCoinsDB)
      emptyFiles).outcome = .ok sampleUndo := by decide
  ⟨hconnect, (disconnectBlock_connectBlock sampleEnv .good 1000 sampleMapBlockIndex sampleSpendBlock
    (sampleEntry 1002 (some 1001) 2 500) 1001 (.new sampleCoinsDB) emptyFiles sampleUndo (by decide)
    rfl (by decide) heightsPos_sampleCoinsDB hconnect).1⟩

end Manna
