import Manna.Coherent

/-!
Invariants of the block index (`main.cpp`: `SetBestChain`, `InvalidBlockFound`,
`ConnectBestBlock`, `AddToBlockIndex`).

Whatever happens in a call, its effect on the entries is made of a few writes: `ConnectBlock`
writes back the entry of its block, `pnext` is set, a failure flag is raised and the block leaves
`setBlockIndexValid`. What these writes keep is kept by every call (`IndexInvariant`).

* `writeBlock_written`: what `ConnectBlock` writes to an entry;
* `IndexInvariant.setBestChain`, `IndexInvariant.connectBestBlock`,
  `IndexInvariant.addToBlockIndex`: the calls keep what the writes keep.
-/

namespace Manna

/-! ### The writes -/

/-- What `ConnectBlock` may write to the entry of its block. -/
structure CBlockIndex.Written (e e' : CBlockIndex) : Prop where
  kept : e'.kept = e.kept
  haveData : e'.nStatus.haveData = e.nStatus.haveData
  haveUndo : e.nStatus.haveUndo = true → e'.nStatus.haveUndo = true
  nValid : e'.nStatus.nValid = e.nStatus.nValid ∨ e'.nStatus.nValid = BLOCK_VALID_SCRIPTS
  nMoneySupply : e'.nMoneySupply = e.nMoneySupply ∨ InInt64 e'.nMoneySupply

theorem CBlockIndex.Written.refl (e : CBlockIndex) : e.Written e :=
  ⟨rfl, rfl, id, .inl rfl, .inl rfl⟩

theorem CBlockIndex.Written.trans {e e' e'' : CBlockIndex} (h : e.Written e') (h' : e'.Written e'') :
    e.Written e'' where
  kept := h'.kept.trans h.kept
  haveData := h'.haveData.trans h.haveData
  haveUndo := h'.haveUndo ∘ h.haveUndo
  nValid := h'.nValid.elim (fun heq => h.nValid.imp heq.trans heq.trans) .inr
  nMoneySupply := h'.nMoneySupply.elim
    (fun heq => h.nMoneySupply.imp heq.trans fun hrange => heq ▸ hrange) .inr

theorem writeUndoData_written (io : DiskIO) (blockundo : CBlockUndo) (pindex : CBlockIndex)
    (disk : BlockFiles) : pindex.Written (writeUndoData io blockundo pindex disk).2.1 := by
  unfold writeUndoData
  split
  · exact .refl _
  · split
    · exact .refl _
    · split
      · exact .refl _
      · exact ⟨rfl, rfl, fun _ => rfl, .inl rfl, .inl rfl⟩

theorem writeIndexEntry_written (io : DiskIO) (blockundo : CBlockUndo) (pindex : CBlockIndex)
    (disk : BlockFiles) : pindex.Written (writeIndexEntry io blockundo pindex disk).2.1 := by
  have hundo := writeUndoData_written io blockundo pindex disk
  unfold writeIndexEntry
  split
  · generalize writeUndoData io blockundo pindex disk = result at hundo
    obtain ⟨outcome, pindex', disk'⟩ := result
    cases outcome with
    | error e => exact hundo
    | ok _ =>
      have hvalid : pindex.Written
          { pindex' with nStatus := { pindex'.nStatus with nValid := BLOCK_VALID_SCRIPTS } } :=
        hundo.trans ⟨rfl, rfl, id, .inr rfl, .inl rfl⟩
      dsimp only
      split
      · exact hvalid
      · exact hvalid
  · exact .refl _

/-- The supply that is recorded is an `int64_t`. -/
theorem inInt64_moneySupply {nPrevSupply nMoneySupply : Int} {state : ConnectState}
    (h : moneySupply nPrevSupply state = .ok nMoneySupply) : InInt64 nMoneySupply := by
  unfold moneySupply at h
  simp only [bind, Except.bind] at h
  split at h
  · cases h
  · obtain ⟨rfl, hrange⟩ := subInt64_eq_ok.mp h
    exact hrange

/-- **What `ConnectBlock` writes to an entry**, however it ends. -/
theorem writeBlock_written (env : Env) (io : DiskIO) (nPrevSupply : Int) (state : ConnectState)
    (pindex : CBlockIndex) (disk : BlockFiles) :
    pindex.Written (writeBlock env io nPrevSupply state pindex disk).2.1 := by
  unfold writeBlock
  cases hmoney : moneySupply nPrevSupply state with
  | error e => exact .refl _
  | ok nMoneySupply =>
    have hsupply : pindex.Written { pindex with nMoneySupply := nMoneySupply } :=
      ⟨rfl, rfl, id, .inl rfl, .inr (inInt64_moneySupply hmoney)⟩
    have hentry := hsupply.trans (writeIndexEntry_written io ⟨state.vtxundo⟩
      { pindex with nMoneySupply := nMoneySupply } disk)
    generalize hwritten : writeIndexEntry io ⟨state.vtxundo⟩
      { pindex with nMoneySupply := nMoneySupply } disk = result at hentry
    obtain ⟨outcome, pindex', disk'⟩ := result
    simp only [hwritten]
    cases outcome with
    | error e => exact hentry
    | ok _ =>
      dsimp only
      split
      · exact hentry
      · exact hentry

theorem connectBlock_written {σ : Type} (handler : OpProg.Handler CoinsOp σ) (env : Env) (io : DiskIO)
    (nAdjustedTime : Int) (mapBlockIndex : Uint256 → Option CBlockIndex) (block : CBlock)
    (pindex : CBlockIndex) (fJustCheck : Bool) (view : σ) (disk : BlockFiles) :
    pindex.Written (connectBlock handler env io nAdjustedTime mapBlockIndex block pindex fJustCheck
      view disk).pindex := by
  unfold connectBlock
  dsimp only
  generalize (connectBlockChecks env nAdjustedTime (heightOf mapBlockIndex) block pindex
    fJustCheck).run handler view = checked
  obtain ⟨outcome, view'⟩ := checked
  unfold connectBlockWrites
  rcases outcome with e | _ | state
  · exact .refl _
  · exact .refl _
  · dsimp only
    split
    · exact .refl _
    · have hwritten := writeBlock_written env io (prevSupply mapBlockIndex pindex) state pindex disk
      generalize writeBlock env io (prevSupply mapBlockIndex pindex) state pindex disk = result
        at hwritten
      obtain ⟨outcome, pindex', disk'⟩ := result
      cases outcome with
      | error e => exact hwritten
      | ok _ => exact hwritten

/-- A change of the status that raises a failure flag. -/
structure BlockStatus.Raises (f : BlockStatus → BlockStatus) : Prop where
  failed : ∀ nStatus, (f nStatus).failed = true
  nValid : ∀ nStatus, (f nStatus).nValid = nStatus.nValid
  haveData : ∀ nStatus, (f nStatus).haveData = nStatus.haveData
  haveUndo : ∀ nStatus, (f nStatus).haveUndo = nStatus.haveUndo

theorem BlockStatus.raises_failedValid :
    BlockStatus.Raises fun nStatus => { nStatus with failedValid := true } :=
  ⟨fun _ => by simp [BlockStatus.failed], fun _ => rfl, fun _ => rfl, fun _ => rfl⟩

theorem BlockStatus.raises_failedChild :
    BlockStatus.Raises fun nStatus => { nStatus with failedChild := true } :=
  ⟨fun _ => by simp [BlockStatus.failed], fun _ => rfl, fun _ => rfl, fun _ => rfl⟩

/-! ### Invariants -/

/-- A property of the index and `setBlockIndexValid` that all writes keep. -/
structure IndexInvariant (P : BlockTree → Finset Uint256 → Prop) : Prop where
  written : ∀ {t valid hash e e'}, P t valid → t.entry hash = some e → e.Written e' →
    P (t.setWritten e') valid
  linked : ∀ {t valid} hash pnext, P t valid → P (t.setNext hash pnext) valid
  failed : ∀ {t valid} hash {f}, P t valid → BlockStatus.Raises f →
    P (t.setStatus hash f) (valid.erase hash)

/-- A call that keeps a property of the index. -/
def Preserves (P : BlockTree → Finset Uint256 → Prop) (call : Node → Call Unit) : Prop :=
  ∀ node outcome node', P node.mapBlockIndex node.setBlockIndexValid →
    call node = .ok (outcome, node') → P node'.mapBlockIndex node'.setBlockIndexValid

namespace IndexInvariant

variable {P : BlockTree → Finset Uint256 → Prop} {env : Env} {out : Outside}
  {connectBest : Node → Call Unit}

theorem connectBlocks (hP : IndexInvariant P) {σ : Type} [CoinsView σ] {io : DiskIO}
    {nAdjustedTime : Int} {valid : Finset Uint256} {vConnect : List Uint256} {l l' : Ledger σ}
    {result : Except (Uint256 × ChainError) (List CTransaction)} (h : P l.mapBlockIndex valid)
    (hrun : connectBlocks env io nAdjustedTime vConnect l = (result, l')) : P l'.mapBlockIndex valid := by
  induction vConnect generalizing l l' result with
  | nil => cases hrun; exact h
  | cons hash vConnect ih =>
    unfold Manna.connectBlocks at hrun
    cases he : l.mapBlockIndex.entry hash with
    | none =>
      rw [he] at hrun
      cases hrun
      exact h
    | some pindex =>
      simp only [he] at hrun
      cases hread : readBlock env io l.disk pindex with
      | none =>
        rw [hread] at hrun
        cases hrun
        exact h
      | some block =>
        simp only [hread] at hrun
        have hconnect : P (l.connect env io nAdjustedTime block pindex).2.mapBlockIndex valid :=
          hP.written h he (connectBlock_written ..)
        generalize l.connect env io nAdjustedTime block pindex = connected at hrun hconnect
        obtain ⟨outcome, l₁⟩ := connected
        cases outcome with
        | error e =>
          cases hrun
          exact hconnect
        | ok undo =>
          dsimp only at hrun
          cases hrest : Manna.connectBlocks env io nAdjustedTime vConnect l₁ with
          | mk outcome l₂ =>
            have hdone := ih hconnect hrest
            rw [hrest] at hrun
            cases outcome with
            | error e => cases hrun; exact hdone
            | ok vDelete => cases hrun; exact hdone

theorem invalidChainFound (node : Node) (h : P node.mapBlockIndex node.setBlockIndexValid)
    (pindexNew : Uint256) : P (node.invalidChainFound pindexNew).mapBlockIndex
      (node.invalidChainFound pindexNew).setBlockIndexValid := by
  unfold Node.invalidChainFound
  split <;> exact h

theorem invalidBlockFound (hP : IndexInvariant P) (hbest : Preserves P connectBest)
    {pindex : Uint256} {node node' : Node} (h : P node.mapBlockIndex node.setBlockIndexValid)
    (hrun : invalidBlockFound connectBest pindex node = .ok node') :
    P node'.mapBlockIndex node'.setBlockIndexValid := by
  have hflagged := invalidChainFound { node with
    mapBlockIndex := node.mapBlockIndex.setStatus pindex fun nStatus =>
      { nStatus with failedValid := true }
    setBlockIndexValid := node.setBlockIndexValid.erase pindex }
    (hP.failed pindex h BlockStatus.raises_failedValid) pindex
  unfold Manna.invalidBlockFound at hrun
  dsimp only at hrun
  split at hrun
  · split at hrun
    · cases hrun
    · next hcall =>
      cases hrun
      exact hbest _ _ _ hflagged hcall
  · cases hrun
    exact hflagged

/-- **`SetBestChain` keeps what the writes keep.** -/
theorem setBestChain (hP : IndexInvariant P) (hbest : Preserves P connectBest) (pindexNew : Uint256) :
    Preserves P (setBestChain env out connectBest pindexNew) := by
  intro node outcome node' h hrun
  have hsteps := setBestChain_steps env out connectBest pindexNew node
  rw [hrun] at hsteps
  generalize hresult : (Except.ok (outcome, node') : Call Unit) = result at hsteps
  -- The first loop writes nothing.
  have hdown : ∀ {pfork vResurrect l}, Disconnected env out pindexNew node pfork vResurrect l →
      P l.mapBlockIndex node.setBlockIndexValid := by
    intro pfork vResurrect l hdisconnected
    rw [hdisconnected.keeps.2.1]
    exact h
  cases hsteps with
  | assertion hfork => cases hresult; exact h
  | @disconnect pfork e l hfork hfailed =>
    cases hresult
    have htree := (disconnectBlocks_keeps env out.io
      (node.mapBlockIndex.above node.pindexTip pfork) node.ledger).2.1
    rw [hfailed] at htree
    show P l.mapBlockIndex node.setBlockIndexValid
    rw [show l.mapBlockIndex = node.mapBlockIndex from htree]
    exact h
  | connect hdisconnected hfailed hvalid =>
    cases hresult
    exact hP.connectBlocks (hdown hdisconnected) hfailed
  | @invalid pfork vResurrect pindex e l l' node₁ hdisconnected hfailed hinvalid hfound =>
    cases hresult
    have hdiscard : P (node.discard l').mapBlockIndex (node.discard l').setBlockIndexValid :=
      hP.connectBlocks (hdown hdisconnected) hfailed
    exact hP.invalidBlockFound hbest (invalidChainFound _ hdiscard pindexNew) hfound
  | stuck => cases hresult
  | @coins pfork vResurrect vDelete e l l' node₁ hdisconnected hconnect hcoins =>
    cases hresult
    have haccept : P (node.accept l').mapBlockIndex (node.accept l').setBlockIndexValid :=
      hP.connectBlocks (hdown hdisconnected) hconnect
    rcases Node.writeCoins_spec out pindexNew (node.accept l') with ⟨e', heq, -⟩ | ⟨_, heq, -⟩
    · rw [heq, Prod.mk.injEq] at hcoins
      exact hcoins.2 ▸ haccept
    · rw [heq] at hcoins
      cases congrArg Prod.fst hcoins
  | @done pfork vResurrect vDelete l l' node₁ hdisconnected hconnect hcoins =>
    cases hresult
    have haccept : P (node.accept l').mapBlockIndex (node.accept l').setBlockIndexValid :=
      hP.connectBlocks (hdown hdisconnected) hconnect
    have hwritten : P node₁.mapBlockIndex node₁.setBlockIndexValid := by
      rcases Node.writeCoins_spec out pindexNew (node.accept l') with ⟨e', heq, -⟩ | ⟨_, heq, -⟩
      · rw [heq] at hcoins
        cases congrArg Prod.fst hcoins
      · rw [heq, Prod.mk.injEq] at hcoins
        exact hcoins.2 ▸ haccept
    have hlinks : ∀ {f : BlockTree → Uint256 → BlockTree},
        (∀ t hash, P t node₁.setBlockIndexValid → P (f t hash) node₁.setBlockIndexValid) →
        ∀ (hashes : List Uint256) (t : BlockTree), P t node₁.setBlockIndexValid →
          P (hashes.foldl f t) node₁.setBlockIndexValid := by
      intro f hf hashes
      induction hashes with
      | nil => exact fun _ ht => ht
      | cons hash hashes ih => exact fun t ht => ih _ (hf t hash ht)
    refine hlinks (fun t hash ht => ?_) _ _ (hlinks (fun t hash ht => ?_) _ _ hwritten)
    · unfold BlockTree.linkNext
      split
      · exact ht
      · exact hP.linked _ _ ht
    · unfold BlockTree.unlinkNext
      split
      · exact ht
      · exact hP.linked _ _ ht

theorem attachBlocks {setBest : Uint256 → Node → Call Unit}
    (h : ∀ pindexSwitch, Preserves P (setBest pindexSwitch)) (vAttach : List Uint256) :
    Preserves P (attachBlocks setBest vAttach) := by
  induction vAttach with
  | nil =>
    intro node outcome node' hnode hrun
    cases hrun
    exact hnode
  | cons pindexSwitch vAttach ih =>
    intro node outcome node' hnode hrun
    unfold Manna.attachBlocks at hrun
    split at hrun
    · cases hrun
    · next hcall =>
      cases hrun
      exact h pindexSwitch _ _ _ hnode hcall
    · next hcall => exact ih _ _ _ (h pindexSwitch _ _ _ hnode hcall) hrun

theorem markDescendants (hP : IndexInvariant P) {node : Node}
    (h : P node.mapBlockIndex node.setBlockIndexValid) (pindexNewBest pindexTest : Uint256) :
    P (node.markDescendants pindexNewBest pindexTest).mapBlockIndex
      (node.markDescendants pindexNewBest pindexTest).setBlockIndexValid := by
  refine invalidChainFound _ ?_ pindexNewBest
  generalize node.mapBlockIndex.above (some pindexNewBest) (some pindexTest) = l
  induction l generalizing node with
  | nil => exact h
  | cons hash l ih =>
    have hmark : P (node.markChild hash).mapBlockIndex (node.markChild hash).setBlockIndexValid :=
      hP.failed hash h BlockStatus.raises_failedChild
    exact ih hmark

theorem selectBest (hP : IndexInvariant P) {rounds : Nat} {node node' : Node} {selection : Selection}
    (h : P node.mapBlockIndex node.setBlockIndexValid)
    (hselect : node.selectBest rounds = some (selection, node')) :
    P node'.mapBlockIndex node'.setBlockIndexValid := by
  induction rounds generalizing node with
  | zero => cases hselect
  | succ rounds ih =>
    unfold Node.selectBest at hselect
    split at hselect
    · cases hselect
      exact h
    · split at hselect
      · cases hselect
        exact h
      · split at hselect
        · exact ih (hP.markDescendants h _ _) hselect
        · cases hselect
          exact h

/-- **`ConnectBestBlock` keeps what the writes keep**, however deep it nests. -/
theorem connectBestBlock (hP : IndexInvariant P) (depth : Nat) :
    Preserves P (connectBestBlock env out depth) := by
  induction depth with
  | zero =>
    intro node outcome node' _ hrun
    cases hrun
  | succ depth ih =>
    intro node outcome node' h hrun
    unfold Manna.connectBestBlock at hrun
    split at hrun
    · cases hrun
    · next hselect =>
      cases hrun
      exact hP.selectBest h hselect
    · next hselect =>
      exact attachBlocks (fun pindexSwitch => hP.setBestChain ih pindexSwitch) _ _ _ _
        (hP.selectBest h hselect) hrun

/-- **`AddToBlockIndex` keeps what the writes and the new entry keep.** -/
theorem addToBlockIndex (hP : IndexInvariant P) {depth : Nat} {block : CBlock} {node node' : Node}
    {outcome : Except ChainError Unit} (h : P node.mapBlockIndex node.setBlockIndexValid)
    (hinsert : ∀ hnew : node.mapBlockIndex.New (newEntry env node.mapBlockIndex block),
      P (node.mapBlockIndex.insert _ hnew) (insert (block.getHash env) node.setBlockIndexValid))
    (hrun : addToBlockIndex env out depth block node = .ok (outcome, node')) :
    P node'.mapBlockIndex node'.setBlockIndexValid := by
  unfold Manna.addToBlockIndex at hrun
  split at hrun
  · split at hrun
    · next hfresh hmax =>
      have hnew : P (node.insertBlock env block (new_newEntry hfresh hmax)).mapBlockIndex
          (node.insertBlock env block (new_newEntry hfresh hmax)).setBlockIndexValid :=
        hinsert (new_newEntry hfresh hmax)
      dsimp only at hrun
      split at hrun
      · cases hrun
        exact hnew
      · split at hrun
        · cases hrun
        · next hcall =>
          cases hrun
          exact hP.connectBestBlock depth _ _ _ hnew hcall
        · next hcall =>
          have hconnect := hP.connectBestBlock depth _ _ _ hnew hcall
          split at hrun
          · cases hrun; exact hconnect
          · cases hrun; exact hconnect
    · cases hrun
      exact h
  · cases hrun
    exact h

end IndexInvariant

end Manna
