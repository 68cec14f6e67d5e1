import Manna.AcceptBlock
import Manna.MoneySupply

/-!
The choice of the best chain (`main.cpp`: `AddToBlockIndex`, `ConnectBestBlock`,
`SetBestChain`, `InvalidBlockFound`).

With no failure of the disk `SetBestChain` has two ends: it connects the new branch, or it stops
at a block whose checks fail and flags it. So a flag always means that the block does not
connect, and a block with more trust than the best one always has a flag on its ancestry.

* `Ledger.Consistent.disconnectBlocks_isOk`, `Ledger.Consistent.connectBlocks_cases`: the two
  loops of `SetBestChain` with no failure of the disk;
* `Node.Sound.setBestChain_cases`: the two ends of `SetBestChain`;
* `Node.Settled.addToBlockIndex`: what an arrival keeps;
* `Node.Grown.best_is_most_trusted`: the best block after any arrivals;
* `not_forall_best_is_most_trusted`: a block that met an early clock is not tried again.
-/

namespace Manna

open OpProg

/-! ### What is recorded about a connection -/

/-- An entry without `pnext`, the level of validity and the failure flags. -/
def CBlockIndex.recorded (e : CBlockIndex) : CBlockIndex :=
  { e with pnext := none, nStatus := ⟨0, false, e.nStatus.haveUndo, false, false⟩ }

theorem CBlockIndex.recorded_eq_iff {e e' : CBlockIndex} :
    e.recorded = e'.recorded ↔ e.fixed = e'.fixed ∧ e.nStatus.haveUndo = e'.nStatus.haveUndo ∧
      e.nMoneySupply = e'.nMoneySupply := by
  simp only [recorded, fixed, CBlockIndex.mk.injEq, BlockStatus.mk.injEq, true_and, and_true]
  tauto

namespace BlockTree

/-- The entries agree on what is recorded about their connections. -/
def SameRecords (t' t : BlockTree) : Prop :=
  ∀ hash, (t'.entry hash).map CBlockIndex.recorded = (t.entry hash).map CBlockIndex.recorded

variable {t t' : BlockTree} {hash : Uint256} {e : CBlockIndex}

theorem SameRecords.refl (t : BlockTree) : t.SameRecords t := fun _ => rfl

theorem SameRecords.trans {t'' : BlockTree} (h : t''.SameRecords t') (h' : t'.SameRecords t) :
    t''.SameRecords t := fun hash => (h hash).trans (h' hash)

theorem SameRecords.symm (h : t'.SameRecords t) : t.SameRecords t' := fun hash => (h hash).symm

theorem SameRecords.entry (h : t'.SameRecords t) (he : t.entry hash = some e) :
    ∃ e', t'.entry hash = some e' ∧ e'.recorded = e.recorded := by
  have hmap := h hash
  rw [he, Option.map_some] at hmap
  exact Option.map_eq_some_iff.mp hmap

theorem SameRecords.extends (h : t'.SameRecords t) : t'.Extends t := by
  intro hash e he
  obtain ⟨e', he', heq⟩ := h.entry he
  exact ⟨e', he', (CBlockIndex.recorded_eq_iff.mp heq).1⟩

theorem SameRecords.undoable (h : t'.SameRecords t) (hundo : Undoable t hash) : Undoable t' hash := by
  obtain ⟨e, he, hcases⟩ := hundo
  obtain ⟨e', he', heq⟩ := h.entry he
  obtain ⟨hfixed, hflag, -⟩ := CBlockIndex.recorded_eq_iff.mp heq
  exact ⟨e', he', hcases.imp ((CBlockIndex.fixed_eq_iff.mp hfixed).2.1.trans ·) (hflag.trans ·)⟩

theorem sameRecords_modify (t : BlockTree) (hash' : Uint256) {f : CBlockIndex → CBlockIndex}
    (hf : KeepsLinks f) (hrecorded : ∀ e, (f e).recorded = e.recorded) :
    (t.modify hash' f hf).SameRecords t := by
  intro hash
  rw [entry_modify]
  split
  · cases t.entry hash with
    | none => rfl
    | some e => exact congrArg some (hrecorded e)
  · rfl

theorem sameRecords_setNext (t : BlockTree) (hash : Uint256) (pnext : Option Uint256) :
    (t.setNext hash pnext).SameRecords t :=
  t.sameRecords_modify _ _ fun _ => rfl

theorem sameRecords_unlinkNext (t : BlockTree) (hash : Uint256) : (t.unlinkNext hash).SameRecords t := by
  unfold unlinkNext
  split
  · exact .refl t
  · exact t.sameRecords_setNext _ _

theorem sameRecords_linkNext (t : BlockTree) (hash : Uint256) : (t.linkNext hash).SameRecords t := by
  unfold linkNext
  split
  · exact .refl t
  · exact t.sameRecords_setNext _ _

theorem sameRecords_foldl {f : BlockTree → Uint256 → BlockTree}
    (hf : ∀ t hash, (f t hash).SameRecords t) (l : List Uint256) (t : BlockTree) :
    (l.foldl f t).SameRecords t := by
  induction l generalizing t with
  | nil => exact .refl t
  | cons hash l ih => exact (ih (f t hash)).trans (hf t hash)

theorem sameRecords_setStatus (t : BlockTree) (hash : Uint256) {f : BlockStatus → BlockStatus}
    (hf : ∀ nStatus, (f nStatus).haveUndo = nStatus.haveUndo) : (t.setStatus hash f).SameRecords t :=
  t.sameRecords_modify _ _ fun e => by simp only [CBlockIndex.recorded, hf]

theorem setWritten_self (he : t.entry e.phashBlock = some e) (hash : Uint256) :
    (t.setWritten e).entry hash = t.entry hash := by
  rw [entry_setWritten]
  split
  · next heq => rw [heq, he, Option.map_some]
  · rfl

/-- Each block of a list follows the one before it, the first one a pointer. -/
def Climbs (t : BlockTree) : Option Uint256 → List Uint256 → Prop
  | _, [] => True
  | pindex, hash :: rest => t.pprevOf hash = pindex ∧ t.Climbs (some hash) rest

theorem climbs_concat {pindex : Option Uint256} {l : List Uint256} :
    t.Climbs pindex (l ++ [hash]) ↔ t.Climbs pindex l ∧ t.pprevOf hash = l.getLast?.or pindex := by
  induction l generalizing pindex with
  | nil => simp [Climbs]
  | cons first l ih =>
    rw [List.cons_append, Climbs, ih, Climbs, List.getLast?_cons, and_assoc]
    cases l.getLast? <;> rfl

theorem Climbs.congr (h : t'.Extends t) (h' : t.Extends t') {pindex : Option Uint256}
    {l : List Uint256} (hclimbs : t.Climbs pindex l) : t'.Climbs pindex l := by
  induction l generalizing pindex with
  | nil => trivial
  | cons hash l ih => exact ⟨(pprevOf_eq_of_extends h h' hash).trans hclimbs.1, ih hclimbs.2⟩

theorem eq_of_ancestry_eq {pindex pindex' : Option Uint256} (h : t.ancestry pindex = t.ancestry pindex') :
    pindex = pindex' := by
  cases pindex with
  | none =>
    cases pindex' with
    | none => rfl
    | some hash' => rw [ancestry_some] at h; cases h
  | some hash =>
    cases pindex' with
    | none => rw [ancestry_some] at h; cases h
    | some hash' =>
      rw [ancestry_some, ancestry_some, List.cons.injEq] at h
      rw [h.1]

theorem climbs_reverse {l : List Uint256} {pindex pfork : Option Uint256}
    (h : l ++ t.ancestry pfork = t.ancestry pindex) : t.Climbs pfork l.reverse := by
  induction l generalizing pindex with
  | nil => trivial
  | cons hash l ih =>
    cases pindex with
    | none => cases h
    | some tip =>
      rw [ancestry_some, List.cons_append, List.cons.injEq] at h
      obtain ⟨rfl, h⟩ := h
      rw [List.reverse_cons, climbs_concat, List.getLast?_reverse]
      refine ⟨ih h, ?_⟩
      cases l with
      | nil => exact (eq_of_ancestry_eq h).symm
      | cons next l =>
        rw [List.head?_cons, Option.some_or]
        cases hprev : t.pprevOf hash with
        | none => rw [hprev] at h; cases h
        | some pprev =>
          rw [hprev, ancestry_some, List.cons_append, List.cons.injEq] at h
          rw [h.1]

end BlockTree

/-! ### The ledger with no failure of the disk -/

/-- Every block but the root can be read back. -/
def Readable (env : Env) (t : BlockTree) (disk : BlockFiles) : Prop :=
  ∀ hash e, t.entry hash = some e → e.pprev ≠ none → ∃ block, readBlock env .good disk e = some block

theorem readBlock_congr {env : Env} {io : DiskIO} {disk disk' : BlockFiles} {e e' : CBlockIndex}
    (hhash : e'.phashBlock = e.phashBlock) (hblocks : disk'.blocks e.phashBlock = disk.blocks e.phashBlock) :
    readBlock env io disk' e' = readBlock env io disk e := by
  simp only [readBlock, hhash, hblocks]

theorem Readable.congr {env : Env} {t t' : BlockTree} {disk disk' : BlockFiles} (h : Readable env t disk)
    (hextends : t.Extends t') (hblocks : disk'.blocks = disk.blocks) : Readable env t' disk' := by
  intro hash e he hprev
  obtain ⟨e₀, he₀, hfixed⟩ := hextends hash e he
  obtain ⟨hhash, hpprev, -⟩ := CBlockIndex.fixed_eq_iff.mp hfixed
  obtain ⟨block, hread⟩ := h hash e₀ he₀ (hpprev ▸ hprev)
  exact ⟨block, (readBlock_congr hhash.symm (congrFun hblocks _)).trans hread⟩

namespace Ledger

variable {σ τ : Type} [CoinsView σ] [CoinsView τ] {env : Env} {l : Ledger σ}

theorem Consistent.congr {l' : Ledger τ} (h : Consistent env l)
    (hview : CoinsMap.ViewEq l'.view.contents l.view.contents)
    (hclean : CleanOn (fun _ => True) l'.view.contents)
    (htree : l'.mapBlockIndex.SameRecords l.mapBlockIndex) (hdisk : l'.disk = l.disk) :
    Consistent env l' where
  branch := by
    obtain ⟨hash, s, hbranch, hview₀, hundo⟩ := h.branch
    refine ⟨hash, s, ?_, hview.trans hview₀, htree.undoable hundo⟩
    rw [hdisk]
    exact hbranch.extends htree.extends fun _ _ _ _ => id
  clean := hclean
  undo := by
    rw [hdisk]
    refine h.undo.extends htree.extends (fun _ _ _ _ => id) rfl (fun hash e' he' hflag => ?_)
      fun hash => htree.undoable
    obtain ⟨e, he, heq⟩ := htree.symm.entry he'
    obtain ⟨hfixed, hundo, -⟩ := CBlockIndex.recorded_eq_iff.mp heq
    exact ⟨e, he, hundo.trans hflag, hfixed.symm⟩
  supply := by
    intro hash e' he'
    obtain ⟨e, he, heq⟩ := htree.symm.entry he'
    obtain ⟨hfixed, -, hsupply⟩ := CBlockIndex.recorded_eq_iff.mp heq
    rw [← hsupply, ← (CBlockIndex.fixed_eq_iff.mp hfixed).2.2.1]
    exact h.supply hash e he

/-- Going back to the view of an earlier ledger, with the records of a later one. -/
theorem Consistent.restore {l₁ : Ledger σ} {l' : Ledger τ} (h : Consistent env l)
    (h₁ : Consistent env l₁) (hextends : l₁.mapBlockIndex.Extends l.mapBlockIndex)
    (hkeep : ∀ hash, Undoable l.mapBlockIndex hash → Undoable l₁.mapBlockIndex hash)
    (hblocks : l₁.disk.blocks = l.disk.blocks) (hview : l'.view.contents = l.view.contents)
    (htree : l'.mapBlockIndex.SameRecords l₁.mapBlockIndex) (hdisk : l'.disk = l₁.disk) :
    Consistent env l' := by
  have hrestored : Consistent env (⟨l.view, l₁.mapBlockIndex, l₁.disk⟩ : Ledger σ) := by
    refine ⟨?_, h.clean, h₁.undo, h₁.supply⟩
    obtain ⟨hash, s, hbranch, hview₀, hundo⟩ := h.branch
    refine ⟨hash, s, ?_, hview₀, hkeep hash hundo⟩
    rw [hblocks]
    exact hbranch.extends hextends fun _ _ _ _ => id
  refine hrestored.congr ?_ ?_ htree hdisk
  · rw [hview]
    exact .refl _
  · rw [hview]
    exact h.clean

theorem Consistent.disconnect_isOk (h : Consistent env l) {hash pprev : Uint256} {e : CBlockIndex}
    {block : CBlock} (hbest : l.view.contents.best = some hash)
    (hentry : l.mapBlockIndex.entry hash = some e) (hprev : e.pprev = some pprev)
    (hread : readBlock env .good l.disk e = some block) : (l.disconnect env .good block e).1 = .ok true := by
  obtain ⟨best, s, hbranch, hview, hundoable⟩ := h.branch
  obtain rfl : best = hash := Option.some.inj (by rw [← hbranch.best, ← hview.2, hbest])
  obtain ⟨block', undo, s₀, r', hblock, hstored, hhave, -, hrun, -⟩ :=
    h.undo.disconnect hbranch hundoable hentry hprev hview h.clean
  obtain rfl := Option.some.inj (hblock.symm.trans (l.mapBlockIndex.hash_eq hentry ▸
    (readBlock_eq_some hread).1))
  have hundo : readUndo .good l.disk e = .ok undo := by
    unfold readUndo
    rw [l.mapBlockIndex.hash_eq hentry, hstored, hhave]
    rfl
  rw [Ledger.disconnect, hundo,
    (Prog.run_abstracts CCoinsViewCache.handler_abstracts _ l.view).1, hrun]

/-- **The first loop** goes down to a block of the chain it starts on. -/
theorem Consistent.disconnectBlocks_isOk (h : Consistent env l)
    (hread : Readable env l.mapBlockIndex l.disk) {vDisconnect : List Uint256} {pfork : Uint256}
    (hchain : vDisconnect ++ l.mapBlockIndex.ancestry (some pfork) =
      l.mapBlockIndex.ancestry l.view.contents.best) :
    ∃ vResurrect l', disconnectBlocks env .good vDisconnect l = (.ok vResurrect, l') ∧ Consistent env l' := by
  induction vDisconnect generalizing l with
  | nil => exact ⟨[], l, rfl, h⟩
  | cons hash vDisconnect ih =>
    cases hbest : l.view.contents.best with
    | none => rw [hbest] at hchain; cases hchain
    | some best =>
      rw [hbest, BlockTree.ancestry_some _ best, List.cons_append, List.cons.injEq] at hchain
      obtain ⟨rfl, hchain⟩ := hchain
      cases hprev : l.mapBlockIndex.pprevOf hash with
      | none => rw [hprev, BlockTree.ancestry_some] at hchain; simp at hchain
      | some pprev =>
        obtain ⟨e, hentry⟩ := (BlockTree.pprevOf_height hprev).1
        have hpprev : e.pprev = some pprev := (BlockTree.pprevOf_eq hentry).symm.trans hprev
        obtain ⟨block, hblock⟩ := hread hash e hentry (by rw [hpprev]; exact nofun)
        have hok := h.disconnect_isOk hbest hentry hpprev hblock
        have hsame : (l.disconnect env .good block e).2.mapBlockIndex = l.mapBlockIndex ∧
            (l.disconnect env .good block e).2.disk = l.disk := ⟨rfl, rfl⟩
        generalize hrun : l.disconnect env .good block e = result at hok hsame
        obtain ⟨outcome, l₁⟩ := result
        dsimp only at hok hsame
        subst hok
        have h₁ := h.disconnect hentry hblock hrun
        rw [hprev, ← hpprev, ← Ledger.disconnect_best hrun, ← hsame.1] at hchain
        obtain ⟨vResurrect, l', hrest, h'⟩ := ih h₁ (hsame.1 ▸ hsame.2 ▸ hread) hchain
        refine ⟨resurrectable e block ++ vResurrect, l', ?_, h'⟩
        unfold disconnectBlocks
        simp only [hentry, hblock, hrun, hrest]

/-- **`ConnectBlock` with no failure of the disk**: the block is connected, or its checks fail and
nothing is written. They fail for good, but for a time too far ahead of the clock. -/
theorem Consistent.connect_cases (h : Consistent env l) (nAdjustedTime : Int) {hash : Uint256}
    {e : CBlockIndex} {block : CBlock} (hentry : l.mapBlockIndex.entry hash = some e)
    (hprev : e.pprev = l.view.contents.best) (hread : readBlock env .good l.disk e = some block) :
    (∃ undo l', l.connect env .good nAdjustedTime block e = (.ok undo, l')) ∨
    ∃ err l', l.connect env .good nAdjustedTime block e = (.error err, l') ∧ err.isInvalid = true ∧
      (∀ hash, l'.mapBlockIndex.entry hash = l.mapBlockIndex.entry hash) ∧ l'.disk = l.disk ∧
      ∀ s, ConnectsTo env l.mapBlockIndex l.disk.blocks hash s →
        nAdjustedTime + nMaxClockDrift < block.getBlockTime := by
  obtain ⟨best, s, hbranch, hview, -⟩ := h.branch
  obtain ⟨p, hp⟩ := hbranch.entry
  obtain ⟨hsound, htotal, -⟩ := hbranch.sound hp
  have hle := htotal.trans (supplyBound_le (l.mapBlockIndex.height_le hp))
  rw [← hview.1] at hsound hle
  have hknows : KnowsBest (heightOf l.mapBlockIndex.entry) l.view.contents := by
    rw [KnowsBest, hview.2]
    exact hbranch.knowsBest
  have hbest : e.pprev = some best := by rw [hprev, hview.2, hbranch.best]
  obtain ⟨hblock, hhash⟩ := readBlock_eq_some hread
  rw [l.mapBlockIndex.hash_eq hentry] at hblock hhash
  have hrejects : Rejects ((connectBlockChecks env nAdjustedTime (heightOf l.mapBlockIndex.entry) block e
      false).run CoinsMap.handler l.view.contents).1 :=
    connectBlockChecks_rejects hsound hle hknows hprev
  cases hrun : (connectBlockChecks env nAdjustedTime (heightOf l.mapBlockIndex.entry) block e
      false).run CoinsMap.handler l.view.contents with
  | mk outcome r =>
    rcases outcome with err | _ | state
    · -- The checks fail.
      obtain ⟨houtcome, -, htree, hdisk⟩ := Ledger.connect_contents env .good nAdjustedTime block e l
      refine .inr ⟨err, (l.connect env .good nAdjustedTime block e).2, ?_, ?_, ?_, ?_, ?_⟩
      · refine Prod.ext (houtcome.trans ?_) rfl
        unfold connectBlock connectBlockWrites
        rw [hrun]
      · exact hrejects err (by rw [hrun])
      · have hpindex : (connectBlock CoinsMap.handler env .good nAdjustedTime l.mapBlockIndex.entry
            block e false l.view.contents l.disk).pindex = e := by
          unfold connectBlock connectBlockWrites
          rw [hrun]
        intro hash'
        rw [htree, hpindex]
        exact BlockTree.setWritten_self (by rw [l.mapBlockIndex.hash_eq hentry, hentry]) hash'
      · refine hdisk.trans ?_
        unfold connectBlock connectBlockWrites
        rw [hrun]
      · intro s' hconnects
        obtain ⟨block', t', state, s₀, s₁, hbranch₀, hblock', hchecks, -⟩ := hconnects.step hentry hbest
        obtain rfl := Option.some.inj (hblock.symm.trans hblock')
        by_contra hlate
        -- At the clock of the call the checks would pass, too.
        obtain ⟨_, s₂, hcheck, -⟩ := Prog.run_bind_eq_ok.mp hchecks
        rw [Prog.run_ofExcept, Prod.mk.injEq] at hcheck
        have hsame : connectBlockChecks env t' (heightOf l.mapBlockIndex.entry) block e false =
            connectBlockChecks env nAdjustedTime (heightOf l.mapBlockIndex.entry) block e false := by
          unfold connectBlockChecks
          rw [checkBlock_clock (checkBlock_eq_ok.mp hcheck.1).2.2.1 (not_lt.mp hlate)]
        rw [hsame] at hchecks
        obtain ⟨r', hpassed, -⟩ := (related_connectBlockChecks env nAdjustedTime
          (heightOf l.mapBlockIndex.entry) block e false).ok
            (hbranch₀.viewEq hbranch |>.trans hview.symm) hchecks
        rw [hrun] at hpassed
        cases congrArg Prod.fst hpassed
    · -- Only the genesis block has no more checks.
      have hgenesis := (connectBlockChecks_none hrun).2.1
      obtain ⟨g, hg, hroot⟩ := hbranch.root
      rw [← hgenesis, hhash, hentry] at hg
      rw [← Option.some.inj hg, hbest] at hroot
      cases hroot
    · exact .inl ⟨_, _, Prod.ext (h.connect_of_checks hrun) rfl⟩

theorem Consistent.connect_undoable {l' : Ledger σ} (h : Consistent env l) {io : DiskIO}
    {nAdjustedTime : Int} {hash : Uint256} {block : CBlock} {e : CBlockIndex} {undo : CBlockUndo}
    (hentry : l.mapBlockIndex.entry hash = some e) (hread : readBlock env io l.disk e = some block)
    (hconnect : l.connect env io nAdjustedTime block e = (.ok undo, l')) {hash' : Uint256}
    (hundo : Undoable l.mapBlockIndex hash') : Undoable l'.mapBlockIndex hash' := by
  obtain ⟨pprev, s, state, s', result, hbranch, -, hundoable, hblock, hresult, -, htree, -⟩ :=
    h.connect_ok hentry hread hconnect
  obtain ⟨t', hchecks⟩ := hresult.checks
  obtain ⟨nMoneySupply, hwritten⟩ := hresult.written
  rw [htree]
  exact (h.undo.connect hbranch hentry hresult.prev hblock hchecks hwritten hundoable).2.2.1 _ hundo

/-- A block that does not connect, unless its time is too far ahead of the clock. -/
def Fails (env : Env) (nAdjustedTime : Int) (l : Ledger σ) (hash : Uint256) : Prop :=
  ∀ s, ConnectsTo env l.mapBlockIndex l.disk.blocks hash s →
    ∃ block, l.disk.blocks hash = some block ∧ nAdjustedTime + nMaxClockDrift < block.getBlockTime

/-- The second loop has stopped at a block whose checks fail, after what led to `l₁`. -/
structure StoppedAt (env : Env) (nAdjustedTime : Int) (l l' : Ledger σ) (hash : Uint256) (err : Halt)
    (l₁ : Ledger σ) : Prop where
  isInvalid : err.isInvalid = true
  consistent : Consistent env l₁
  keeps : l₁.Keeps l
  undoable : ∀ hash', Undoable l.mapBlockIndex hash' → Undoable l₁.mapBlockIndex hash'
  entries : ∀ hash', l'.mapBlockIndex.entry hash' = l₁.mapBlockIndex.entry hash'
  disk : l'.disk = l₁.disk
  fails : Fails env nAdjustedTime l₁ hash

/-- **The second loop** connects the whole chain, or stops at a block that does not connect. -/
theorem Consistent.connectBlocks_cases (h : Consistent env l)
    (hread : Readable env l.mapBlockIndex l.disk) (nAdjustedTime : Int) {vConnect : List Uint256}
    (hclimbs : l.mapBlockIndex.Climbs l.view.contents.best vConnect)
    (hindexed : ∀ hash ∈ vConnect, l.mapBlockIndex.Indexed hash) :
    (∃ vDelete l', connectBlocks env .good nAdjustedTime vConnect l = (.ok vDelete, l') ∧
      Consistent env l') ∨ ∃ hash err l' l₁, connectBlocks env .good nAdjustedTime vConnect l =
        (.error (hash, .connectBlock err), l') ∧ StoppedAt env nAdjustedTime l l' hash err l₁ := by
  induction vConnect generalizing l with
  | nil => exact .inl ⟨[], l, rfl, h⟩
  | cons hash vConnect ih =>
    rw [List.forall_mem_cons] at hindexed
    obtain ⟨⟨e, hentry⟩, hrest⟩ := hindexed
    obtain ⟨hprev, hclimbs⟩ := hclimbs
    rw [BlockTree.pprevOf_eq hentry] at hprev
    have hpprev : e.pprev ≠ none := by
      obtain ⟨best, s, hbranch, hview, -⟩ := h.branch
      rw [hprev, hview.2, hbranch.best]
      exact nofun
    obtain ⟨block, hblock⟩ := hread hash e hentry hpprev
    rcases h.connect_cases nAdjustedTime hentry hprev hblock with
      ⟨undo, l₁, hrun⟩ | ⟨err, l₁, hrun, hinvalid, hentries, hdisk, hfails⟩
    · have h₁ := h.connect hentry hblock hrun
      have hkeeps : l₁.Keeps l := by
        have := Ledger.connect_keeps env .good nAdjustedTime hentry block
        rwa [hrun] at this
      have hextends := hkeeps.entries.extends
      have hextends' := hkeeps.entries.symm.extends
      have hbest := Ledger.connect_best hrun
      rw [l.mapBlockIndex.hash_eq hentry] at hbest
      rcases ih h₁ (hread.congr hextends' hkeeps.blocks) (hbest ▸ hclimbs.congr hextends hextends')
          fun hash hmem => hextends.indexed (hrest hash hmem) with
        ⟨vDelete, l', hrun', h'⟩ | ⟨hash', err, l', l₂, hrun', hstopped⟩
      · refine .inl ⟨block.vtx ++ vDelete, l', ?_, h'⟩
        unfold connectBlocks
        simp only [hentry, hblock, hrun, hrun']
      · refine .inr ⟨hash', err, l', l₂, ?_, hstopped.isInvalid, hstopped.consistent,
          hstopped.keeps.trans hkeeps, fun hash'' hundo => hstopped.undoable hash''
            (h.connect_undoable hentry hblock hrun hundo), hstopped.entries, hstopped.disk,
          hstopped.fails⟩
        unfold connectBlocks
        simp only [hentry, hblock, hrun, hrun']
    · refine .inr ⟨hash, err, l₁, l, ?_, hinvalid, h, .refl l, fun _ => id, hentries, hdisk,
        fun s hconnects => ⟨block, ?_, hfails s hconnects⟩⟩
      · unfold connectBlocks
        simp only [hentry, hblock, hrun]
      · rw [← l.mapBlockIndex.hash_eq hentry]
        exact (readBlock_eq_some hblock).1

end Ledger

/-! ### Blocks whose ancestry connects -/

/-- The whole ancestry of a block connects, and no block of it was too far ahead of a clock that
was read since it arrived. -/
structure Connects (env : Env) (t : BlockTree) (blocks : Uint256 → Option CBlock)
    (clocks : Uint256 → Set Int) (hash : Uint256) : Prop where
  branch : ∃ s, ConnectsTo env t blocks hash s
  timely : ∀ hash' ∈ t.ancestry (some hash), ∀ block, blocks hash' = some block →
    ∀ nAdjustedTime ∈ clocks hash', block.getBlockTime ≤ nAdjustedTime + nMaxClockDrift

section Connects

variable {env : Env} {t t' : BlockTree} {blocks blocks' : Uint256 → Option CBlock}
  {clocks clocks' : Uint256 → Set Int} {hash : Uint256} {s : CoinsMap}

/-- The ancestry of a block that connects does so, too. -/
theorem ConnectsTo.ancestor (h : ConnectsTo env t blocks hash s) {hash' : Uint256}
    (hmem : hash' ∈ t.ancestry (some hash)) : ∃ s', ConnectsTo env t blocks hash' s' := by
  induction h with
  | @genesis e hentry hroot =>
    rw [BlockTree.ancestry_some, BlockTree.pprevOf_eq hentry, hroot, BlockTree.ancestry_none,
      List.mem_singleton] at hmem
    subst hmem
    exact ⟨_, .genesis hentry hroot⟩
  | @connect hash pprev e block nAdjustedTime s s' state hbranch hentry hprev hblock hchecks ih =>
    rw [BlockTree.mem_ancestry, BlockTree.pprevOf_eq hentry, hprev] at hmem
    rcases hmem with rfl | hmem
    · exact ⟨_, .connect hbranch hentry hprev hblock hchecks⟩
    · exact ih hmem

theorem ConnectsTo.restrict (h : ConnectsTo env t' blocks' hash s) (htree : t'.Extends t)
    (hblocks : ∀ hash, t.Indexed hash → blocks' hash = blocks hash) (hindexed : t.Indexed hash) :
    ConnectsTo env t blocks hash s := by
  induction h with
  | @genesis e' hentry' hroot =>
    obtain ⟨e, hentry⟩ := hindexed
    obtain ⟨e'', hentry'', hfixed⟩ := htree _ _ hentry
    obtain rfl := Option.some.inj (hentry'.symm.trans hentry'')
    exact .genesis hentry ((CBlockIndex.fixed_eq_iff.mp hfixed).2.1.symm.trans hroot)
  | @connect hash pprev e' block nAdjustedTime s s' state hbranch hentry' hprev hblock hchecks ih =>
    obtain ⟨e, hentry⟩ := hindexed
    obtain ⟨e'', hentry'', hfixed⟩ := htree _ _ hentry
    obtain rfl := Option.some.inj (hentry'.symm.trans hentry'')
    have hpprev : e.pprev = some pprev := (CBlockIndex.fixed_eq_iff.mp hfixed).2.1.symm.trans hprev
    obtain ⟨p, hp, -⟩ := t.parent hentry hpprev
    have hbranch₀ := ih ⟨p, hp⟩
    have hrun : (connectBlockChecks env nAdjustedTime (heightOf t.entry) block e false).run
        CoinsMap.handler s = (.ok (some state), s') := by
      rw [connectBlockChecks_congr hfixed.symm (hbranch₀.heightOf_extends htree).symm, hchecks]
    exact .connect hbranch₀ hentry hpprev (hblocks _ ⟨e, hentry⟩ ▸ hblock) hrun

theorem Connects.ancestor (h : Connects env t blocks clocks hash) {hash' : Uint256}
    (hmem : hash' ∈ t.ancestry (some hash)) : Connects env t blocks clocks hash' where
  branch := by
    obtain ⟨s, hs⟩ := h.branch
    exact hs.ancestor hmem
  timely hash'' hin := h.timely hash'' (BlockTree.mem_ancestry_trans hin hmem)

theorem Connects.restrict (h : Connects env t' blocks' clocks' hash) (htree : t'.Extends t)
    (hblocks : ∀ hash, t.Indexed hash → blocks' hash = blocks hash)
    (hclocks : ∀ hash, clocks hash ⊆ clocks' hash) (hindexed : t.Indexed hash) :
    Connects env t blocks clocks hash where
  branch := by
    obtain ⟨s, hs⟩ := h.branch
    exact ⟨s, hs.restrict htree hblocks hindexed⟩
  timely hash' hmem block hblock nAdjustedTime hclock := by
    refine h.timely hash' ?_ block ?_ nAdjustedTime (hclocks hash' hclock)
    · rwa [BlockTree.ancestry_congr htree hindexed]
    · rw [hblocks hash' (BlockTree.indexed_of_mem hindexed hmem), hblock]

end Connects

/-! ### What holds of a node -/

/-- A block has a failed block on its ancestry, or has failed itself. -/
def BlockTree.Doomed (t : BlockTree) (hash : Uint256) : Prop :=
  ∃ hash' ∈ t.ancestry (some hash), t.failedOf hash' = some true

/-- Failure flags are never taken back. -/
def BlockTree.KeepsFlags (t' t : BlockTree) : Prop :=
  ∀ hash, t.failedOf hash = some true → t'.failedOf hash = some true

/-- The index and the coins of a node agree, `setBlockIndexValid` holds exactly the blocks that
have not failed, and the failed ones do not connect. -/
structure Node.Sound (env : Env) (clocks : Uint256 → Set Int) (node : Node) : Prop where
  coherent : node.Coherent
  consistent : Ledger.Consistent env node.ledger
  rooted : node.mapBlockIndex.Rooted env.hashGenesisBlock
  readable : Readable env node.mapBlockIndex node.disk
  candidates : ∀ hash, hash ∈ node.setBlockIndexValid ↔
    node.mapBlockIndex.failedOf hash = some false
  failed : ∀ hash, node.mapBlockIndex.failedOf hash = some true →
    ¬ Connects env node.mapBlockIndex node.disk.blocks clocks hash
  main : ∀ hash ∈ node.mapBlockIndex.ancestry node.pindexBest,
    node.mapBlockIndex.failedOf hash ≠ some true

/-- A node that has chosen its best block: only blocks that cannot connect have more trust. -/
structure Node.Settled (env : Env) (clocks : Uint256 → Set Int) (node : Node) : Prop
    extends node.Sound env clocks where
  most : ∀ hash, node.mapBlockIndex.Indexed hash → node.hasMoreTrust hash = true →
    node.mapBlockIndex.Doomed hash

namespace BlockTree

variable {t t' : BlockTree} {hash : Uint256}

theorem failedOf_isSome_iff : (∃ b, t.failedOf hash = some b) ↔ t.Indexed hash := by
  unfold failedOf Indexed
  cases t.entry hash <;> simp

theorem Doomed.mono (h : t.Doomed hash) (hextends : t'.Extends t) (hextends' : t.Extends t')
    (hflags : t'.KeepsFlags t) : t'.Doomed hash := by
  obtain ⟨hash', hmem, hfailed⟩ := h
  exact ⟨hash', by rwa [ancestry_eq hextends hextends'], hflags hash' hfailed⟩

theorem Doomed.of_ancestor {hash' : Uint256} (h : t.Doomed hash')
    (hmem : hash' ∈ t.ancestry (some hash)) : t.Doomed hash := by
  obtain ⟨hash'', hin, hfailed⟩ := h
  exact ⟨hash'', mem_ancestry_trans hin hmem, hfailed⟩

end BlockTree

section Sound

variable {env : Env} {clocks clocks' : Uint256 → Set Int} {node node' : Node} {hash : Uint256}

theorem Node.Unchanged.hasMoreTrust_eq (h : node'.Unchanged node) (hcoherent : node.Coherent)
    (hindexed : node.mapBlockIndex.Indexed hash) : node'.hasMoreTrust hash = node.hasMoreTrust hash := by
  unfold Node.hasMoreTrust
  rw [h.pindexBest]
  cases hbest : node.pindexBest with
  | none => rfl
  | some best =>
    dsimp only
    rw [h.extends_.nChainTrust_eq hindexed, h.extends_.nChainTrust_eq (hcoherent.indexed best hbest)]

/-- The best block of a node connects. -/
theorem Node.Sound.best (h : node.Sound env clocks) :
    ∃ best s, node.pindexBest = some best ∧ node.mapBlockIndex.Indexed best ∧
      ConnectsTo env node.mapBlockIndex node.disk.blocks best s := by
  obtain ⟨best, s, hbranch, hview, -⟩ := h.consistent.branch
  refine ⟨best, s, ?_, hbranch.entry, hbranch⟩
  rw [← h.coherent.tip, ← node.ledger_spec.1, hview.2, hbranch.best]

theorem Node.Sound.clocks_mono (h : node.Sound env clocks)
    (hclocks : ∀ hash, clocks hash ⊆ clocks' hash) : node.Sound env clocks' :=
  { h with
    failed := fun hash hfailed hconnects => h.failed hash hfailed
      (hconnects.restrict (.refl _) (fun _ _ => rfl) hclocks
        (BlockTree.failedOf_isSome_iff.mp ⟨_, hfailed⟩)) }

theorem not_connects_of_sameEntries (hentries : node'.mapBlockIndex.SameEntries node.mapBlockIndex)
    (hblocks : node'.disk.blocks = node.disk.blocks)
    (h : ¬ Connects env node.mapBlockIndex node.disk.blocks clocks hash) :
    ¬ Connects env node'.mapBlockIndex node'.disk.blocks clocks hash := by
  intro hconnects
  obtain ⟨s, hs⟩ := hconnects.branch
  refine h (hconnects.restrict hentries.1 (fun _ _ => by rw [hblocks]) (fun _ => .rfl) ?_)
  exact hentries.2.indexed hs.entry

theorem rooted_of_extends {t t' : BlockTree} {root : Uint256} (h : t.Rooted root)
    (hextends : t.Extends t') : t'.Rooted root := by
  intro hash e he hroot
  obtain ⟨e₀, he₀, hfixed⟩ := hextends hash e he
  exact h hash e₀ he₀ ((CBlockIndex.fixed_eq_iff.mp hfixed).2.1.trans hroot)

theorem Node.Sound.flag (h : node.Sound env clocks) (hsame : node'.Unchanged node)
    (hconsistent : Ledger.Consistent env node'.ledger) (hflag : ∀ hash,
      node'.mapBlockIndex.failedOf hash = node.mapBlockIndex.failedOf hash ∧
          (hash ∈ node'.setBlockIndexValid ↔ hash ∈ node.setBlockIndexValid) ∨
        node'.mapBlockIndex.failedOf hash = some true ∧ hash ∉ node'.setBlockIndexValid ∧
          hash ∉ node.mapBlockIndex.ancestry node.pindexBest ∧
          ¬ Connects env node.mapBlockIndex node.disk.blocks clocks hash) :
    node'.Sound env clocks ∧ node'.mapBlockIndex.KeepsFlags node.mapBlockIndex := by
  have hancestry := BlockTree.ancestry_eq hsame.extends_ hsame.extends'
  refine ⟨⟨h.coherent.unchanged hsame, hconsistent, rooted_of_extends h.rooted hsame.extends',
    h.readable.congr hsame.extends' hsame.blocks, ?_, ?_, ?_⟩, ?_⟩
  · intro hash
    rcases hflag hash with ⟨hfailed, hmem⟩ | ⟨hfailed, hout, -⟩
    · rw [hmem, hfailed, h.candidates hash]
    · rw [hfailed]
      exact iff_of_false hout (by simp)
  · intro hash hfailed
    refine not_connects_of_sameEntries hsame.sameEntries hsame.blocks ?_
    rcases hflag hash with ⟨hsame, -⟩ | ⟨-, -, -, hnot⟩
    · exact h.failed hash (hsame.symm.trans hfailed)
    · exact hnot
  · intro hash hmem
    rw [hancestry, hsame.pindexBest] at hmem
    rcases hflag hash with ⟨hsame, -⟩ | ⟨-, -, hout, -⟩
    · rw [hsame]
      exact h.main hash hmem
    · exact absurd hmem hout
  · intro hash hfailed
    rcases hflag hash with ⟨hsame, -⟩ | ⟨hnew, -⟩
    · exact hsame.trans hfailed
    · exact hnew

/-! ### The outer loop of `ConnectBestBlock` -/

/-- What marking blocks does: they are flagged and leave the set, nothing else changes. -/
theorem Node.foldl_markChild_spec (l : List Uint256) (node : Node)
    (hindexed : ∀ hash ∈ l, node.mapBlockIndex.Indexed hash) :
    (l.foldl Node.markChild node).mapBlockIndex.SameRecords node.mapBlockIndex ∧
      (l.foldl Node.markChild node).pcoinsTip = node.pcoinsTip ∧
      (l.foldl Node.markChild node).disk = node.disk ∧
      ∀ hash, hash ∈ l ∧ (l.foldl Node.markChild node).mapBlockIndex.failedOf hash = some true ∧
          hash ∉ (l.foldl Node.markChild node).setBlockIndexValid ∨
        hash ∉ l ∧ (l.foldl Node.markChild node).mapBlockIndex.failedOf hash =
            node.mapBlockIndex.failedOf hash ∧ (hash ∈ (l.foldl Node.markChild node).setBlockIndexValid ↔
            hash ∈ node.setBlockIndexValid) := by
  induction l generalizing node with
  | nil => exact ⟨.refl _, rfl, rfl, fun hash => .inr ⟨List.not_mem_nil, rfl, .rfl⟩⟩
  | cons first l ih =>
    rw [List.forall_mem_cons] at hindexed
    have hmark : (node.markChild first).mapBlockIndex.SameRecords node.mapBlockIndex :=
      node.mapBlockIndex.sameRecords_setStatus first fun _ => rfl
    obtain ⟨hrecords, hcoins, hdisk, hflags⟩ := ih (node.markChild first) fun hash hmem =>
      hmark.extends.indexed (hindexed.2 hash hmem)
    refine ⟨hrecords.trans hmark, hcoins, hdisk, fun hash => ?_⟩
    rw [List.foldl_cons, List.mem_cons]
    rcases hflags hash with ⟨hmem, hfailed, hout⟩ | ⟨hmem, hfailed, hset⟩
    · exact .inl ⟨.inr hmem, hfailed, hout⟩
    · rw [hfailed, hset]
      by_cases heq : hash = first
      · subst heq
        refine .inl ⟨.inl rfl, BlockTree.failedOf_setStatus_self hindexed.1 fun _ => ?_,
          Finset.notMem_erase hash node.setBlockIndexValid⟩
        simp [BlockStatus.failed]
      · refine .inr ⟨fun h => h.elim heq hmem, BlockTree.failedOf_setStatus_of_ne heq _, ?_⟩
        exact Finset.mem_erase.trans (and_iff_right heq)

/-- **A round that meets a failed block** keeps a node sound. -/
theorem Node.Sound.markDescendants (h : node.Sound env clocks) {pindexNewBest pindexTest : Uint256}
    (hindexed : node.mapBlockIndex.Indexed pindexNewBest)
    (hmem : pindexTest ∈ node.mapBlockIndex.ancestry (some pindexNewBest))
    (hfailed : node.mapBlockIndex.failedOf pindexTest = some true) :
    (node.markDescendants pindexNewBest pindexTest).Sound env clocks ∧
      (node.markDescendants pindexNewBest pindexTest).mapBlockIndex.KeepsFlags node.mapBlockIndex := by
  have habove := BlockTree.above_append hmem
  -- The blocks above the failed one follow it.
  have hdown : ∀ hash ∈ node.mapBlockIndex.above (some pindexNewBest) (some pindexTest),
      node.mapBlockIndex.Indexed hash ∧ pindexTest ∈ node.mapBlockIndex.ancestry (some hash) := by
    intro hash hin
    have hchain : hash ∈ node.mapBlockIndex.ancestry (some pindexNewBest) := by
      rw [← habove]
      exact List.mem_append_left _ hin
    refine ⟨BlockTree.indexed_of_mem hindexed hchain, ?_⟩
    have hsplit := BlockTree.above_append hchain
    rw [← hsplit, List.mem_append] at hmem
    refine hmem.resolve_left fun hlow => ?_
    -- Otherwise the failed block would be above a block that is above it.
    have hpairs := node.mapBlockIndex.ancestry_pairwise (some pindexNewBest)
    have hlt : node.mapBlockIndex.nHeight pindexTest < node.mapBlockIndex.nHeight hash := by
      rw [← habove] at hpairs
      exact (List.pairwise_append.mp hpairs).2.2 hash hin pindexTest (BlockTree.mem_ancestry_self _ _)
    have hlt' : node.mapBlockIndex.nHeight hash < node.mapBlockIndex.nHeight pindexTest := by
      have hpairs := node.mapBlockIndex.ancestry_pairwise (some pindexNewBest)
      rw [← hsplit] at hpairs
      exact (List.pairwise_append.mp hpairs).2.2 pindexTest hlow hash (BlockTree.mem_ancestry_self _ _)
    exact absurd hlt hlt'.asymm
  obtain ⟨hrecords, hcoins, hdisk, hflags⟩ := Node.foldl_markChild_spec _ node fun hash hin =>
    (hdown hash hin).1
  have hset := Node.invalidChainFound_set ((node.mapBlockIndex.above (some pindexNewBest)
    (some pindexTest)).foldl Node.markChild node) pindexNewBest
  have hrest : ∀ node : Node, (node.invalidChainFound pindexNewBest).pcoinsTip = node.pcoinsTip ∧
      (node.invalidChainFound pindexNewBest).disk = node.disk := by
    intro node
    unfold Node.invalidChainFound
    split <;> exact ⟨rfl, rfl⟩
  refine h.flag (node.markDescendants_spec pindexNewBest pindexTest).2.2.2 ?_ fun hash => ?_
  · have hview : (node.markDescendants pindexNewBest pindexTest).ledger.view.contents =
        node.ledger.view.contents := by
      rw [(Node.ledger_spec _).1, (Node.ledger_spec _).1, Node.markDescendants, (hrest _).1, hcoins]
    refine h.consistent.congr (hview ▸ .refl _) (hview ▸ h.consistent.clean) ?_ ?_
    · show (node.markDescendants pindexNewBest pindexTest).mapBlockIndex.SameRecords _
      rw [Node.markDescendants, hset.2]
      exact hrecords
    · exact (hrest _).2.trans hdisk
  · rw [Node.markDescendants, hset.1, hset.2]
    rcases hflags hash with ⟨hin, hflagged, hout⟩ | ⟨-, hsame, hiff⟩
    · refine .inr ⟨hflagged, hout, fun hmain => ?_, fun hconnects => ?_⟩
      · exact h.main pindexTest (BlockTree.mem_ancestry_trans (hdown hash hin).2 hmain) hfailed
      · exact h.failed pindexTest hfailed (hconnects.ancestor (hdown hash hin).2)
    · exact .inl ⟨hsame, hiff⟩

/-- **The walk finds every failed block**: where it ends in blocks to attach, no block of the
chain has failed. -/
theorem Node.Sound.checkAncestry_attach (h : node.Sound env clocks) {vAttach vAttach' : List Uint256}
    (hindexed : node.mapBlockIndex.Indexed hash)
    (hwalk : node.checkAncestry (node.mapBlockIndex.ancestry (some hash)) vAttach = .attach vAttach') :
    ¬ node.mapBlockIndex.Doomed hash := by
  induction hash using node.mapBlockIndex.ancestry_induction generalizing vAttach with
  | step hash ih =>
    obtain ⟨e, he⟩ := hindexed
    rw [BlockTree.ancestry_some] at hwalk
    unfold Node.checkAncestry at hwalk
    simp only [he] at hwalk
    split at hwalk
    · cases hwalk
    · next hunfailed =>
      have hself : node.mapBlockIndex.failedOf hash ≠ some true := by
        rw [BlockTree.failedOf, he, Option.map_some]
        simpa using hunfailed
      rintro ⟨hash', hmem, hfailed⟩
      rcases BlockTree.mem_ancestry.mp hmem with rfl | hmem
      · exact hself hfailed
      · cases hprev : node.mapBlockIndex.pprevOf hash with
        | none => rw [hprev] at hmem; cases hmem
        | some pprev =>
          have hpprev : e.pprev = some pprev := (BlockTree.pprevOf_eq he).symm.trans hprev
          rw [hprev] at hmem hwalk
          split at hwalk
          · next hstop =>
            -- The block is on the best chain, and so is all below it.
            obtain ⟨next, hnext⟩ := Option.ne_none_iff_exists'.mp
              (hstop.resolve_left (by rw [hpprev]; exact Option.some_ne_none pprev))
            have hlink : node.mapBlockIndex.pnextOf hash = some next := by
              rw [BlockTree.pnextOf, he, Option.bind_some, hnext]
            obtain ⟨hin, hback⟩ := (h.coherent.next hash next).mp hlink
            have hon := BlockTree.pprevOf_mem_ancestry hin hback
            exact h.main hash' (BlockTree.mem_ancestry_trans
              hmem (BlockTree.pprevOf_mem_ancestry hon hprev)) hfailed
          · exact ih pprev hprev (BlockTree.pprevOf_height hprev).2.1 hwalk ⟨hash', hmem, hfailed⟩

theorem Node.checkAncestry_skip {chain vAttach vAttach' : List Uint256}
    (hless : ∀ hash ∈ chain, node.hasMoreTrust hash = false)
    (hwalk : node.checkAncestry chain vAttach = .attach vAttach') : vAttach' = vAttach := by
  induction chain with
  | nil => cases hwalk; rfl
  | cons pindexTest chain ih =>
    rw [List.forall_mem_cons] at hless
    unfold Node.checkAncestry at hwalk
    cases he : node.mapBlockIndex.entry pindexTest with
    | none => rw [he] at hwalk; cases hwalk; rfl
    | some e =>
      simp only [he, hless.1, Bool.false_eq_true, if_false] at hwalk
      split at hwalk
      · cases hwalk
      · split at hwalk
        · cases hwalk
          rfl
        · exact ih hless.2 hwalk

/-! ### The two ends of `SetBestChain` -/

/-- No operation of a call fails. -/
structure Outside.Good (out : Outside) : Prop where
  io : out.io = .good
  fDiskSpace : ∀ hash, out.fDiskSpace hash = true
  fCoinFlush : ∀ hash, out.fCoinFlush hash = true

theorem Node.writeCoins_good {out : Outside} (h : out.Good) (pindexNew : Uint256) (node : Node) :
    ∃ pcoinsTip, node.writeCoins out pindexNew = (.ok (), { node with pcoinsTip := pcoinsTip }) ∧
      (pcoinsTip = node.pcoinsTip ∨ pcoinsTip = node.pcoinsTip.flush) := by
  unfold Node.writeCoins
  simp only [h.fDiskSpace, h.fCoinFlush, Bool.not_true, Bool.false_eq_true, if_false]
  split
  · exact ⟨_, rfl, .inr rfl⟩
  · exact ⟨_, rfl, .inl rfl⟩

variable {pindexNew : Uint256}

section Ends

variable {out : Outside} {pfork : Uint256} {vResurrect vDelete : List CTransaction}
  {l l' l₁ : Ledger (CCoinsViewCache CCoinsViewDB)}

/-- **All blocks connect**: the block becomes the best one. -/
theorem Node.Sound.setBestChain_connects (h : node.Sound env clocks) (hgood : out.Good)
    (connectBest : Node → Call Unit) (hindexed : node.mapBlockIndex.Indexed pindexNew)
    (hdoomed : ¬ node.mapBlockIndex.Doomed pindexNew)
    (hdisconnected : Disconnected env out pindexNew node (some pfork) vResurrect l)
    (hconnect : connectBlocks env out.io out.nAdjustedTime (node.vConnect pindexNew (some pfork)) l =
      (.ok vDelete, l')) (hl' : Ledger.Consistent env l') :
    ∃ node', setBestChain env out connectBest pindexNew node = .ok (.ok (), node') ∧
      node'.Sound env clocks ∧ node'.pindexBest = some pindexNew ∧
      node'.mapBlockIndex.SameEntries node.mapBlockIndex ∧
      ∀ hash, node'.mapBlockIndex.failedOf hash = node.mapBlockIndex.failedOf hash := by
  have hkeeps' := hdisconnected.connect_keeps hconnect
  obtain ⟨pcoinsTip, hwrite, hcases⟩ := Node.writeCoins_good hgood pindexNew (node.accept l')
  have hrun : setBestChain env out connectBest pindexNew node = .ok (.ok (),
      Node.switchTo env out.nAdjustedTime (node.mapBlockIndex.above node.pindexTip (some pfork))
        (node.vConnect pindexNew (some pfork)) vResurrect vDelete pindexNew
        { node.accept l' with pcoinsTip := pcoinsTip }) := by
    unfold setBestChain
    simp only [← Node.pindexTip.eq_1, ← Node.vConnect.eq_1, hdisconnected.fork, hdisconnected.run, hconnect, hwrite]
  obtain ⟨hcoherent, hnew, hextends, hextends', hblocks⟩ := setBestChain_ok h.coherent hindexed hrun
  generalize hnode' : Node.switchTo env out.nAdjustedTime (node.mapBlockIndex.above node.pindexTip
    (some pfork)) (node.vConnect pindexNew (some pfork)) vResurrect vDelete pindexNew
    { node.accept l' with pcoinsTip := pcoinsTip } = node'
      at hrun hcoherent hnew hextends hextends' hblocks
  have hentries : node'.mapBlockIndex.SameEntries node.mapBlockIndex := ⟨hextends, hextends'⟩
  have hflags : ∀ hash, node'.mapBlockIndex.failedOf hash = node.mapBlockIndex.failedOf hash := by
    intro hash
    rw [← hnode']
    refine ((BlockTree.failedOf_foldl BlockTree.failedOf_linkNext _ _ _).trans
      (BlockTree.failedOf_foldl BlockTree.failedOf_unlinkNext _ _ _)).trans ?_
    exact hkeeps'.entries.failedOf hash
  have hset : node'.setBlockIndexValid = node.setBlockIndexValid := by rw [← hnode']; rfl
  have hcoins : CoinsMap.ViewEq node'.ledger.view.contents l'.view.contents ∧
      CleanOn (fun _ => True) node'.ledger.view.contents := by
    have hcontents : node'.ledger.view.contents = pcoinsTip.contents := by
      rw [(Node.ledger_spec _).1, ← hnode']
      exact foldl_resurrect_pcoinsTip ..
    have hinto := CCoinsViewCache.contents_flushInto (hkeeps'.tipRead node.ledger_spec.2)
    rw [hcontents]
    rcases hcases with rfl | rfl
    · rw [show (node.accept l').pcoinsTip = l'.view.flushInto from rfl, hinto]
      exact ⟨.refl _, hl'.clean⟩
    · have hflush := CCoinsViewCache.viewEq_flush l'.view.flushInto
      rw [hinto] at hflush
      refine ⟨hflush, fun txid _ coins hfound => hl'.clean txid trivial coins ?_⟩
      rw [← hinto]
      exact CCoinsViewCache.flush_coins hfound
  refine ⟨node', hrun, ⟨hcoherent, ?_, rooted_of_extends h.rooted hextends',
    h.readable.congr hextends' hblocks, ?_, ?_, ?_⟩, hnew, hentries, hflags⟩
  · refine hl'.congr hcoins.1 hcoins.2 ?_ ?_
    · rw [← hnode']
      exact (BlockTree.sameRecords_foldl BlockTree.sameRecords_linkNext _ _).trans
        (BlockTree.sameRecords_foldl BlockTree.sameRecords_unlinkNext _ _)
    · rw [← hnode']
      rfl
  · intro hash
    rw [hset, hflags]
    exact h.candidates hash
  · intro hash hfailed
    refine not_connects_of_sameEntries hentries hblocks (h.failed hash ?_)
    rwa [← hflags]
  · intro hash hmem
    rw [hnew, BlockTree.ancestry_eq hextends hextends'] at hmem
    rw [hflags]
    exact fun hfailed => hdoomed ⟨hash, hmem, hfailed⟩

/-- **A block does not connect**: it is flagged, and nothing else changes. -/
theorem Node.Sound.setBestChain_stops (h : node.Sound env clocks) (connectBest : Node → Call Unit)
    (hindexed : node.mapBlockIndex.Indexed pindexNew)
    (hclock : ∀ hash, node.mapBlockIndex.Indexed hash → hash ≠ env.hashGenesisBlock →
      out.nAdjustedTime ∈ clocks hash)
    (hdisconnected : Disconnected env out pindexNew node (some pfork) vResurrect l)
    {hash : Uint256} {err : Halt} (hconnect : connectBlocks env out.io out.nAdjustedTime
      (node.vConnect pindexNew (some pfork)) l = (.error (hash, .connectBlock err), l'))
    (hstopped : Ledger.StoppedAt env out.nAdjustedTime l l' hash err l₁) :
    ∃ e node', setBestChain env out connectBest pindexNew node = .ok (.error e, node') ∧
      node'.Sound env clocks ∧ node'.Unchanged node ∧
      node'.mapBlockIndex.KeepsFlags node.mapBlockIndex ∧ node'.mapBlockIndex.Doomed pindexNew := by
  obtain ⟨best, sbest, hbest, hbestin, -⟩ := h.best
  have htip : node.pindexTip = some best := by rw [node.pindexTip_eq, h.coherent.tip, hbest]
  have hfork := BlockTree.fork_of_findFork hdisconnected.fork
  obtain ⟨hkeeps, htree, hdisk⟩ := hdisconnected.keeps
  obtain ⟨node', hfound, hsame, htree', hset, hdisk'⟩ :=
    h.coherent.invalid connectBest hdisconnected hconnect
  have hin := connectBlocks_error hconnect
  have hmem : hash ∈ node.mapBlockIndex.ancestry (some pindexNew) := by
    rw [← hfork.new]
    exact List.mem_append_left _ (List.mem_reverse.mp hin)
  have hoff : hash ∉ node.mapBlockIndex.ancestry node.pindexBest := by
    rw [hbest, ← htip]
    exact hfork.connect hash (List.mem_reverse.mp hin)
  have hkept := (hdisconnected.connect_keeps hconnect).entries
  have hfailed : node'.mapBlockIndex.failedOf hash = some true := by
    rw [htree']
    refine BlockTree.failedOf_setStatus_self (hkept.extends.indexed
      (BlockTree.indexed_of_mem hindexed hmem)) fun _ => ?_
    simp [BlockStatus.failed]
  have hothers : ∀ hash', hash' ≠ hash →
      node'.mapBlockIndex.failedOf hash' = node.mapBlockIndex.failedOf hash' := by
    intro hash' hne
    rw [htree', BlockTree.failedOf_setStatus_of_ne hne, hkept.failedOf]
    rfl
  have hrun : setBestChain env out connectBest pindexNew node =
      .ok (.error (.connectBlock err), node') := by
    unfold setBestChain
    simp only [← Node.pindexTip.eq_1, ← Node.vConnect.eq_1, hdisconnected.fork, hdisconnected.run, hconnect,
      ChainError.isInvalid, hstopped.isInvalid, if_true, hfound]
  have hrecords : node'.mapBlockIndex.SameRecords l₁.mapBlockIndex := by
    have hentries : l'.mapBlockIndex.SameRecords l₁.mapBlockIndex := fun hash' => by
      rw [hstopped.entries]
    rw [htree']
    refine BlockTree.SameRecords.trans ?_ hentries
    exact l'.mapBlockIndex.sameRecords_setStatus hash fun _ => rfl
  have hconsistent : Ledger.Consistent env node'.ledger := by
    refine h.consistent.restore hstopped.consistent (hstopped.keeps.trans hkeeps).entries.extends
      (fun hash' hundo => hstopped.undoable hash' (htree ▸ hundo))
      (hstopped.keeps.trans hkeeps).blocks ?_ hrecords (hdisk'.trans hstopped.disk)
    rw [(Node.ledger_spec _).1, (Node.ledger_spec _).1, hsame.coins]
  -- The block fails in the index of the node, too.
  have hnot : ¬ Connects env node.mapBlockIndex node.disk.blocks clocks hash := by
    intro hconnects
    obtain ⟨s, hs⟩ := hconnects.branch
    have hblocks := (hstopped.keeps.trans hkeeps).blocks
    obtain ⟨block, hblock, hlate⟩ := hstopped.fails s (by
      rw [hblocks]
      exact hs.extends (hstopped.keeps.trans hkeeps).entries.extends fun _ _ _ _ => id)
    rw [hblocks] at hblock
    refine absurd (hconnects.timely hash (BlockTree.mem_ancestry_self _ _) block hblock
      out.nAdjustedTime (hclock hash hs.entry ?_)) (not_le.mpr hlate)
    rintro rfl
    rw [hbest] at hoff
    exact hoff (List.mem_of_getLast? (BlockTree.getLast?_ancestry h.rooted hbestin))
  obtain ⟨hsound, hkeepflags⟩ := h.flag hsame hconsistent fun hash' => by
    by_cases heq : hash' = hash
    · subst heq
      refine .inr ⟨hfailed, ?_, hoff, hnot⟩
      rw [hset]
      exact Finset.notMem_erase hash' node.setBlockIndexValid
    · refine .inl ⟨hothers hash' heq, ?_⟩
      rw [hset, Finset.mem_erase]
      exact and_iff_right heq
  refine ⟨_, node', hrun, hsound, hsame, hkeepflags, hash, ?_, hfailed⟩
  rwa [BlockTree.ancestry_eq hsame.extends_ hsame.extends']

end Ends

/-- **`SetBestChain` with no failure of the disk**: the block becomes the best one, or a block on
its ancestry is flagged that does not connect. -/
theorem Node.Sound.setBestChain_cases (h : node.Sound env clocks) {out : Outside} (hgood : out.Good)
    (connectBest : Node → Call Unit)
    (hindexed : node.mapBlockIndex.Indexed pindexNew) (hdoomed : ¬ node.mapBlockIndex.Doomed pindexNew)
    (hclock : ∀ hash, node.mapBlockIndex.Indexed hash → hash ≠ env.hashGenesisBlock →
      out.nAdjustedTime ∈ clocks hash) :
    (∃ node', setBestChain env out connectBest pindexNew node = .ok (.ok (), node') ∧
      node'.Sound env clocks ∧ node'.pindexBest = some pindexNew ∧
      node'.mapBlockIndex.SameEntries node.mapBlockIndex ∧
      ∀ hash, node'.mapBlockIndex.failedOf hash = node.mapBlockIndex.failedOf hash) ∨
    ∃ e node', setBestChain env out connectBest pindexNew node = .ok (.error e, node') ∧
      node'.Sound env clocks ∧ node'.Unchanged node ∧
      node'.mapBlockIndex.KeepsFlags node.mapBlockIndex ∧ node'.mapBlockIndex.Doomed pindexNew := by
  obtain ⟨best, sbest, hbest, hbestin, -⟩ := h.best
  have htip : node.pindexTip = some best := by rw [node.pindexTip_eq, h.coherent.tip, hbest]
  obtain ⟨pfork, hfind⟩ := BlockTree.findFork_isSome h.rooted hbestin hindexed
  rw [← htip] at hfind
  have hfork := BlockTree.fork_of_findFork hfind
  have hview : node.ledger.view.contents.best = node.pindexTip := by
    rw [node.ledger_spec.1, node.pindexTip_eq]
  have hread : Readable env node.ledger.mapBlockIndex node.ledger.disk := h.readable
  -- The blocks above the fork are disconnected.
  have habove : node.mapBlockIndex.above node.pindexTip (some pfork) ++
      node.mapBlockIndex.ancestry (some pfork) =
        node.mapBlockIndex.ancestry node.ledger.view.contents.best := by
    rw [hview]
    exact hfork.best
  obtain ⟨vResurrect, l, hdisconnect, hl⟩ := h.consistent.disconnectBlocks_isOk hread habove
  have hdisconnected : Disconnected env out pindexNew node (some pfork) vResurrect l :=
    ⟨hfind, by rw [hgood.io]; exact hdisconnect⟩
  obtain ⟨-, htree, hdisk⟩ := hdisconnected.keeps
  have hlbest : l.view.contents.best = some pfork :=
    BlockTree.eq_of_ancestry_eq (disconnectBlocks_best rfl hfork.best hview hdisconnect)
  have hclimbs : l.mapBlockIndex.Climbs l.view.contents.best (node.vConnect pindexNew (some pfork)) := by
    rw [hlbest, htree]
    exact BlockTree.climbs_reverse hfork.new
  have hchain : ∀ hash ∈ node.vConnect pindexNew (some pfork),
      hash ∈ node.mapBlockIndex.ancestry (some pindexNew) := by
    intro hash hmem
    rw [← hfork.new]
    exact List.mem_append_left _ (List.mem_reverse.mp hmem)
  rcases hl.connectBlocks_cases (by rw [htree, hdisk]; exact h.readable) out.nAdjustedTime hclimbs
      (fun hash hmem => by rw [htree]; exact BlockTree.indexed_of_mem hindexed (hchain hash hmem)) with
    ⟨vDelete, l', hconnect, hl'⟩ | ⟨hash, err, l', l₁, hconnect, hstopped⟩
  · left
    rw [← hgood.io] at hconnect
    exact h.setBestChain_connects hgood connectBest hindexed hdoomed hdisconnected hconnect hl'
  · right
    rw [← hgood.io] at hconnect
    exact h.setBestChain_stops connectBest hindexed hclock hdisconnected hconnect hstopped

/-! ### `ConnectBestBlock` -/

theorem Node.hasMoreTrust_iff {best : Uint256} (hbest : node.pindexBest = some best) :
    node.hasMoreTrust hash = true ↔
      node.mapBlockIndex.nChainTrust best < node.mapBlockIndex.nChainTrust hash := by
  rw [Node.hasMoreTrust, hbest]
  exact decide_eq_true_iff

theorem Node.Sound.mem_or_doomed (h : node.Sound env clocks) (hindexed : node.mapBlockIndex.Indexed hash) :
    hash ∈ node.setBlockIndexValid ∨ node.mapBlockIndex.Doomed hash := by
  obtain ⟨failed, hfailed⟩ := BlockTree.failedOf_isSome_iff.mpr hindexed
  cases failed with
  | false => exact .inl ((h.candidates hash).mpr hfailed)
  | true => exact .inr ⟨hash, BlockTree.mem_ancestry_self _ _, hfailed⟩

theorem Node.Sound.best_mem (h : node.Sound env clocks) {best : Uint256}
    (hbest : node.pindexBest = some best) : best ∈ node.setBlockIndexValid := by
  obtain ⟨failed, hfailed⟩ := BlockTree.failedOf_isSome_iff.mpr (h.coherent.indexed best hbest)
  cases failed with
  | false => exact (h.candidates best).mpr hfailed
  | true =>
    refine absurd hfailed (h.main best ?_)
    rw [hbest]
    exact BlockTree.mem_ancestry_self _ _

theorem Node.Unchanged.others (hsame : node'.Unchanged node)
    (hcoherent : node.Coherent) (hflags : node'.mapBlockIndex.KeepsFlags node.mapBlockIndex)
    (hothers : ∀ hash, node.mapBlockIndex.Indexed hash → node.hasMoreTrust hash = true →
      hash = pindexNew ∨ node.mapBlockIndex.Doomed hash) :
    ∀ hash, node'.mapBlockIndex.Indexed hash → node'.hasMoreTrust hash = true →
      hash = pindexNew ∨ node'.mapBlockIndex.Doomed hash := by
  intro hash hhash hmore
  have hold := hsame.extends'.indexed hhash
  rw [hsame.hasMoreTrust_eq hcoherent hold] at hmore
  exact (hothers hash hold hmore).imp_right fun hdoomed =>
    hdoomed.mono hsame.extends_ hsame.extends' hflags

theorem Node.Sound.selectBest_cases {rounds : Nat} {selection : Selection}
    (h : node.Sound env clocks) (hothers : ∀ hash, node.mapBlockIndex.Indexed hash →
      node.hasMoreTrust hash = true → hash = pindexNew ∨ node.mapBlockIndex.Doomed hash)
    (hselect : node.selectBest rounds = some (selection, node')) :
    node'.Sound env clocks ∧ node'.Unchanged node ∧
      node'.mapBlockIndex.KeepsFlags node.mapBlockIndex ∧ (selection = .nothing ∧ node'.Settled env clocks ∨
        selection = .attach [pindexNew] ∧ node'.mapBlockIndex.Indexed pindexNew ∧
          ¬ node'.mapBlockIndex.Doomed pindexNew ∧ ∀ hash ∈ node'.setBlockIndexValid,
            node'.mapBlockIndex.nChainTrust hash ≤ node'.mapBlockIndex.nChainTrust pindexNew) := by
  obtain ⟨best, -, hbest, -⟩ := h.best
  induction rounds generalizing node with
  | zero => cases hselect
  | succ rounds ih =>
    have hmem := h.best_mem hbest
    unfold Node.selectBest at hselect
    cases hrbegin : node.rbegin with
    | none =>
      rw [Node.rbegin_eq_none hrbegin] at hmem
      exact absurd hmem (Finset.notMem_empty best)
    | some pindexNewBest =>
      obtain ⟨hin, hmax⟩ := Node.rbegin_spec hrbegin
      have hindexed : node.mapBlockIndex.Indexed pindexNewBest :=
        BlockTree.failedOf_isSome_iff.mp ⟨_, (h.candidates _).mp hin⟩
      simp only [hrbegin, hbest, Option.some.injEq, Option.any_some, decide_eq_true_eq] at hselect
      split at hselect
      · next hdone =>
        cases hselect
        refine ⟨h, .refl _, fun _ => id, .inl ⟨rfl, h, fun hash hhash hmore => ?_⟩⟩
        refine (h.mem_or_doomed hhash).resolve_left fun hcandidate => ?_
        -- No block of the set has more trust than the best one.
        have htrust : node'.mapBlockIndex.nChainTrust pindexNewBest =
            node'.mapBlockIndex.nChainTrust best := hdone.elim (fun heq => by rw [heq]) id
        have hle := hmax hash hcandidate
        rw [htrust] at hle
        exact absurd ((Node.hasMoreTrust_iff hbest).mp hmore) (not_lt.mpr hle)
      · next hmoreTrust =>
        rw [not_or] at hmoreTrust
        have hmore : node.hasMoreTrust pindexNewBest = true :=
          (Node.hasMoreTrust_iff hbest).mpr
            (lt_of_le_of_ne (hmax best hmem) (Ne.symm hmoreTrust.2))
        cases hcheck : node.checkAncestry (node.mapBlockIndex.ancestry (some pindexNewBest)) []
          with
        | failed pindexTest =>
          rw [hcheck] at hselect
          obtain ⟨hon, hfailed⟩ := Node.checkAncestry_failed hcheck
          obtain ⟨hmarked, hflags⟩ := h.markDescendants hindexed hon hfailed
          have hsame := (node.markDescendants_spec pindexNewBest pindexTest).2.2.2
          obtain ⟨hsound, hsame', hflags', hresult⟩ := ih hmarked
            (hsame.others h.coherent hflags hothers) hselect (hsame.pindexBest.trans hbest)
          exact ⟨hsound, hsame'.trans hsame, fun hash hfailed => hflags' hash (hflags hash hfailed),
            hresult⟩
        | attach vAttach =>
          rw [hcheck] at hselect
          cases hselect
          have hdoomed := h.checkAncestry_attach hindexed hcheck
          obtain rfl := (hothers pindexNewBest hindexed hmore).resolve_right hdoomed
          refine ⟨h, .refl _, fun _ => id, .inr ⟨congrArg _ ?_, hindexed, hdoomed, hmax⟩⟩
          -- The blocks below the new one have less trust than the best one.
          obtain ⟨e, he⟩ := hindexed
          have hless : ∀ hash ∈
              node'.mapBlockIndex.ancestry (node'.mapBlockIndex.pprevOf pindexNewBest),
              node'.hasMoreTrust hash = false := by
            intro hash hlow
            rw [Bool.eq_false_iff]
            intro hmore'
            have hchain : hash ∈ node'.mapBlockIndex.ancestry (some pindexNewBest) :=
              BlockTree.mem_ancestry.mpr (.inr hlow)
            rcases hothers hash (BlockTree.indexed_of_mem ⟨e, he⟩ hchain) hmore' with rfl | hdoomed'
            · have hnodup := node'.mapBlockIndex.ancestry_nodup (some hash)
              rw [BlockTree.ancestry_some] at hnodup
              exact (List.nodup_cons.mp hnodup).1 hlow
            · exact hdoomed (hdoomed'.of_ancestor hchain)
          rw [BlockTree.ancestry_some] at hcheck
          unfold Node.checkAncestry at hcheck
          simp only [he, hmore, if_true] at hcheck
          split at hcheck
          · cases hcheck
          · split at hcheck
            · cases hcheck
              rfl
            · exact Node.checkAncestry_skip hless hcheck

/-- **`ConnectBestBlock` after an arrival**: the call returns and the node has chosen its best
block, whether or not the new block connects. -/
theorem Node.Sound.connectBestBlock_settled (h : node.Sound env clocks) {out : Outside} (hgood : out.Good)
    (hothers : ∀ hash, node.mapBlockIndex.Indexed hash →
      node.hasMoreTrust hash = true → hash = pindexNew ∨ node.mapBlockIndex.Doomed hash)
    (hclock : ∀ hash, node.mapBlockIndex.Indexed hash → hash ≠ env.hashGenesisBlock →
      out.nAdjustedTime ∈ clocks hash) (depth : Nat) :
    ∃ outcome node', connectBestBlock env out (depth + 1) node = .ok (outcome, node') ∧
      node'.Settled env clocks := by
  have hunflagged : node.Unflagged := fun hash hmem => (h.candidates hash).mp hmem
  obtain ⟨selection, node₁, hselect, -⟩ := Node.selectBest_isSome hunflagged (Nat.lt_succ_self _)
  have hselect := hselect _ (Nat.lt_succ_self _)
  obtain ⟨hsound, hsame, hflags, hcases⟩ := h.selectBest_cases hothers hselect
  unfold connectBestBlock
  rw [hselect]
  rcases hcases with ⟨rfl, hsettled⟩ | ⟨rfl, hindexed, hdoomed, hmax⟩
  · exact ⟨_, node₁, rfl, hsettled⟩
  · have hothers₁ : ∀ hash, node₁.mapBlockIndex.Indexed hash → node₁.hasMoreTrust hash = true →
        hash = pindexNew ∨ node₁.mapBlockIndex.Doomed hash := by
      intro hash hhash hmore
      have hold := hsame.extends'.indexed hhash
      rw [hsame.hasMoreTrust_eq h.coherent hold] at hmore
      exact (hothers hash hold hmore).imp_right fun hdoomed =>
        hdoomed.mono hsame.extends_ hsame.extends' hflags
    rcases hsound.setBestChain_cases hgood (connectBestBlock env out depth) hindexed hdoomed
        fun hash hhash => hclock hash (hsame.extends'.indexed hhash) with
      ⟨node', hrun, hsound', hbest', hentries, hsameFlags⟩ |
        ⟨e, node', hrun, hsound', hsame', hflags', hdoomed'⟩
    · refine ⟨.ok (), node', ?_, hsound', fun hash hhash hmore => ?_⟩
      · simp only [attachBlocks, hrun]
      · refine (hsound'.mem_or_doomed hhash).resolve_left fun hcandidate => ?_
        rw [hsound'.candidates, hsameFlags, ← hsound.candidates] at hcandidate
        have hle := hmax hash hcandidate
        rw [Node.hasMoreTrust_iff hbest', hentries.1.nChainTrust_eq hindexed,
          hentries.1.nChainTrust_eq (hentries.2.indexed hhash)] at hmore
        exact absurd hmore (not_lt.mpr hle)
    · refine ⟨.error e, node', ?_, hsound', fun hash hhash hmore => ?_⟩
      · simp only [attachBlocks, hrun]
      · rcases hsame'.others hsound.coherent hflags' hothers₁ hash hhash hmore with rfl | hdoomed₁
        · exact hdoomed'
        · exact hdoomed₁

end Sound

/-! ### Arrivals -/

/-- A call of `AddToBlockIndex`. -/
structure Arrival where
  out : Outside
  /-- How deep calls of `ConnectBestBlock` are followed. -/
  depth : Nat
  block : CBlock

/-- What the callers of `AddToBlockIndex` have checked, and that no operation fails: `AcceptBlock`
knows the previous block, and `CheckBlock` has seen the proof of work. -/
structure Arrival.Promised (env : Env) (node : Node) (call : Arrival) : Prop where
  good : call.out.Good
  depth : 0 < call.depth
  prev : node.mapBlockIndex.Indexed call.block.hashPrevBlock
  proofOfWork : checkProofOfWork (env.powHash call.block.toCBlockHeader) call.block.nBits = true

def clocksSince (env : Env) : List Arrival → Uint256 → Set Int
  | [], _ => ∅
  | call :: calls, hash => {nAdjustedTime | nAdjustedTime ∈ clocksSince env calls hash ∨
      nAdjustedTime = call.out.nAdjustedTime ∧
        ∃ earlier ∈ call :: calls, earlier.block.getHash env = hash}

/-- A node that knows the genesis block only, as `InitBlockIndex` leaves it. -/
structure Node.Started (env : Env) (node : Node) : Prop where
  coherent : node.Coherent
  initial : Ledger.Initial env node.ledger
  genesisOnly : ∀ hash, node.mapBlockIndex.Indexed hash → hash = env.hashGenesisBlock
  setBlockIndexValid : node.setBlockIndexValid = {env.hashGenesisBlock}
  unfailed : node.mapBlockIndex.failedOf env.hashGenesisBlock = some false

/-- The nodes after some arrivals, in any order. -/
inductive Node.Grown (env : Env) : List Arrival → Node → Prop
  | start {node : Node} (h : node.Started env) : Node.Grown env [] node
  | arrive {calls : List Arrival} {node node' : Node} {call : Arrival}
      {outcome : Except ChainError Unit} (h : Node.Grown env calls node)
      (hpromised : call.Promised env node)
      (hrun : addToBlockIndex env call.out call.depth call.block node = .ok (outcome, node')) :
      Node.Grown env (call :: calls) node'

section Grown

variable {env : Env} {calls : List Arrival} {clocks : Uint256 → Set Int} {node node' : Node}
  {call : Arrival}

theorem Node.Started.settled (h : node.Started env) : node.Settled env clocks := by
  have hgenesis : ∀ hash b, node.mapBlockIndex.failedOf hash = some b → b = false := by
    intro hash b hfailed
    have heq := h.genesisOnly hash (BlockTree.failedOf_isSome_iff.mp ⟨b, hfailed⟩)
    rw [heq, h.unfailed] at hfailed
    exact (Option.some.inj hfailed).symm
  have hbest : node.pindexBest = some env.hashGenesisBlock := by
    rw [← h.coherent.tip, ← node.ledger_spec.1, h.initial.view]
  refine ⟨⟨h.coherent, h.initial.consistent, fun hash e he _ => h.genesisOnly hash ⟨e, he⟩, ?_, ?_, ?_,
    ?_⟩, ?_⟩
  · intro hash e he hprev
    obtain rfl := h.genesisOnly hash ⟨e, he⟩
    obtain ⟨g, hg, hroot⟩ := h.initial.genesis
    obtain rfl := Option.some.inj (he.symm.trans hg)
    exact absurd hroot hprev
  · intro hash
    rw [h.setBlockIndexValid, Finset.mem_singleton]
    constructor
    · rintro rfl
      exact h.unfailed
    · exact fun hfailed => h.genesisOnly hash (BlockTree.failedOf_isSome_iff.mp ⟨_, hfailed⟩)
  · intro hash hfailed
    cases hgenesis hash true hfailed
  · intro hash _ hfailed
    cases hgenesis hash true hfailed
  · intro hash hhash hmore
    rw [h.genesisOnly hash hhash, Node.hasMoreTrust_iff hbest] at hmore
    exact absurd hmore (lt_irrefl _)

/-- A new block is stored and indexed: only it may have more trust than the best block without
being doomed. -/
theorem Node.Settled.insertBlock (h : node.Settled env clocks) {block : CBlock}
    (hprev : node.mapBlockIndex.Indexed block.hashPrevBlock)
    (hpow : checkProofOfWork (env.powHash block.toCBlockHeader) block.nBits = true)
    (hnew : node.mapBlockIndex.New (newEntry env node.mapBlockIndex block)) :
    (node.insertBlock env block hnew).Sound env clocks ∧
      ∀ hash, (node.insertBlock env block hnew).mapBlockIndex.Indexed hash →
        (node.insertBlock env block hnew).hasMoreTrust hash = true →
        hash = block.getHash env ∨ (node.insertBlock env block hnew).mapBlockIndex.Doomed hash := by
  have hextends := BlockTree.extends_insert hnew
  have hfresh : node.mapBlockIndex.entry (block.getHash env) = none := hnew.fresh
  have hentry : ∀ hash, (node.insertBlock env block hnew).mapBlockIndex.entry hash =
      if hash = block.getHash env then some (newEntry env node.mapBlockIndex block)
      else node.mapBlockIndex.entry hash := fun hash => BlockTree.entry_insert hnew hash
  have hcases : ∀ hash, (node.insertBlock env block hnew).mapBlockIndex.Indexed hash →
      hash = block.getHash env ∨ node.mapBlockIndex.Indexed hash := by
    rintro hash ⟨e, he⟩
    rw [hentry] at he
    split at he
    · next heq => exact .inl heq
    · exact .inr ⟨e, he⟩
  have hne : ∀ hash, node.mapBlockIndex.Indexed hash → hash ≠ block.getHash env := by
    rintro hash ⟨e, he⟩ rfl
    rw [hfresh] at he
    cases he
  have hblocks : ∀ hash, node.mapBlockIndex.Indexed hash →
      (node.insertBlock env block hnew).disk.blocks hash = node.disk.blocks hash := fun hash hhash =>
    Function.update_of_ne (hne hash hhash) ..
  have hflags : ∀ hash, (node.insertBlock env block hnew).mapBlockIndex.failedOf hash =
      if hash = block.getHash env then some false else node.mapBlockIndex.failedOf hash := by
    intro hash
    rw [BlockTree.failedOf, hentry]
    split <;> rfl
  have hflag : ∀ hash, node.mapBlockIndex.Indexed hash →
      (node.insertBlock env block hnew).mapBlockIndex.failedOf hash =
        node.mapBlockIndex.failedOf hash := fun hash hhash => by
    rw [hflags, if_neg (hne hash hhash)]
  obtain ⟨best, -, hbest, hbestin, -⟩ := h.best
  obtain ⟨p, hp⟩ := hprev
  have hpprev : (newEntry env node.mapBlockIndex block).pprev = some block.hashPrevBlock := by
    simp only [newEntry, hp, Option.map_some]
  refine ⟨⟨h.coherent.insertBlock hnew, h.consistent.store hnew ⟨rfl, rfl⟩, ?_, ?_, ?_, ?_, ?_⟩, ?_⟩
  · intro hash e he hroot
    rw [hentry] at he
    split at he
    · obtain rfl := Option.some.inj he
      rw [hpprev] at hroot
      cases hroot
    · exact h.rooted hash e he hroot
  · intro hash e he hroot
    rw [hentry] at he
    split at he
    · obtain rfl := Option.some.inj he
      refine ⟨block, ?_⟩
      have hstored : (node.insertBlock env block hnew).disk.blocks (block.getHash env) = some block :=
        Function.update_self ..
      simp only [readBlock, DiskIO.good, newEntry, hstored, hpow, Bool.not_true, Bool.false_eq_true,
        if_false, ne_eq, not_true_eq_false]
    · obtain ⟨block', hread⟩ := h.readable hash e he hroot
      refine ⟨block', (readBlock_congr rfl ?_).trans hread⟩
      rw [node.mapBlockIndex.hash_eq he]
      exact hblocks hash ⟨e, he⟩
  · intro hash
    rw [hflags]
    show hash ∈ insert (block.getHash env) node.setBlockIndexValid ↔ _
    rw [Finset.mem_insert, h.candidates]
    split
    · next heq => exact iff_of_true (.inl heq) rfl
    · next hne => exact or_iff_right hne
  · intro hash hfailed hconnects
    rw [hflags] at hfailed
    split at hfailed
    · cases hfailed
    · have hold := BlockTree.failedOf_isSome_iff.mp ⟨_, hfailed⟩
      exact h.failed hash hfailed (hconnects.restrict hextends hblocks (fun _ => .rfl) hold)
  · intro hash hmem
    rw [show (node.insertBlock env block hnew).pindexBest = node.pindexBest from rfl, hbest,
      show (node.insertBlock env block hnew).mapBlockIndex.ancestry (some best) =
        node.mapBlockIndex.ancestry (some best) from BlockTree.ancestry_congr hextends hbestin] at hmem
    rw [hflag hash (BlockTree.indexed_of_mem hbestin hmem)]
    refine h.main hash ?_
    rw [hbest]
    exact hmem
  · intro hash hhash hmore
    refine (hcases hash hhash).imp_right fun hold => ?_
    have hmore' : node.hasMoreTrust hash = true := by
      have hbest' : (node.insertBlock env block hnew).pindexBest = some best := hbest
      have htrust := hextends.nChainTrust_eq hold
      have htrust' := hextends.nChainTrust_eq hbestin
      rw [Node.hasMoreTrust_iff hbest]
      rw [Node.hasMoreTrust_iff hbest'] at hmore
      exact htrust ▸ htrust' ▸ hmore
    obtain ⟨hash', hmem, hfailed⟩ := h.most hash hold hmore'
    refine ⟨hash', ?_, ?_⟩
    · rwa [show (node.insertBlock env block hnew).mapBlockIndex.ancestry (some hash) =
        node.mapBlockIndex.ancestry (some hash) from BlockTree.ancestry_congr hextends hold]
    · rw [hflag hash' (BlockTree.indexed_of_mem hold hmem), hfailed]

theorem Node.Settled.clocks_mono {clocks' : Uint256 → Set Int} (h : node.Settled env clocks)
    (hclocks : ∀ hash, clocks hash ⊆ clocks' hash) : node.Settled env clocks' :=
  ⟨h.toSound.clocks_mono hclocks, h.most⟩

/-- **An arrival**: the call returns, and the node has chosen its best block again. -/
theorem Node.Settled.addToBlockIndex (h : node.Settled env clocks) (hpromised : call.Promised env node)
    (hclock : ∀ hash, node.mapBlockIndex.Indexed hash ∨ hash = call.block.getHash env →
      hash ≠ env.hashGenesisBlock → call.out.nAdjustedTime ∈ clocks hash) :
    ∃ outcome node', addToBlockIndex env call.out call.depth call.block node = .ok (outcome, node') ∧
      node'.Settled env clocks := by
  obtain ⟨depth, hdepth⟩ := Nat.exists_eq_succ_of_ne_zero hpromised.depth.ne'
  have hwrite : call.out.io.writeBlockIndex (call.block.getHash env) = true := by
    rw [hpromised.good.io]
    rfl
  unfold Manna.addToBlockIndex
  rw [hdepth]
  split
  · split
    · next hfresh hmax =>
      have hnew := new_newEntry hfresh hmax
      obtain ⟨hsound, hothers⟩ := h.insertBlock hpromised.prev hpromised.proofOfWork hnew
      obtain ⟨outcome, node', hrun, hsettled⟩ := hsound.connectBestBlock_settled hpromised.good hothers
        (fun hash hhash hne => hclock hash (by
          obtain ⟨e, he⟩ := hhash
          rw [show (node.insertBlock env call.block hnew).mapBlockIndex.entry hash = _ from
            BlockTree.entry_insert hnew hash] at he
          split at he
          · next heq => exact .inr heq
          · exact .inl ⟨e, he⟩) hne) depth
      simp only [hwrite, Bool.not_true, Bool.false_eq_true, if_false, hrun]
      cases outcome with
      | error e => exact ⟨_, node', rfl, hsettled⟩
      | ok _ =>
        dsimp only
        split
        · exact ⟨_, node', rfl, hsettled⟩
        · exact ⟨_, node', rfl, hsettled⟩
    · exact ⟨_, node, rfl, h⟩
  · exact ⟨_, node, rfl, h⟩

theorem Node.Grown.arrived (h : Node.Grown env calls node) {hash : Uint256}
    (hindexed : node.mapBlockIndex.Indexed hash) (hne : hash ≠ env.hashGenesisBlock) :
    ∃ call ∈ calls, call.block.getHash env = hash := by
  induction h with
  | start h => exact absurd (h.genesisOnly hash hindexed) hne
  | @arrive calls node node' call outcome h hpromised hrun ih =>
    have hold : node.mapBlockIndex.Indexed hash ∨ hash = call.block.getHash env := by
      rcases addToBlockIndex_indexed hrun with ⟨hsame, -⟩ | hadded
      · exact .inl ((hsame hash).mp hindexed)
      · exact (hadded hash).mp hindexed
    rcases hold with hold | rfl
    · obtain ⟨earlier, hmem, heq⟩ := ih hold
      exact ⟨earlier, List.mem_cons_of_mem _ hmem, heq⟩
    · exact ⟨call, List.mem_cons_self .., rfl⟩

theorem Node.Grown.clock (h : Node.Grown env calls node) {hash : Uint256}
    (hash_mem : node.mapBlockIndex.Indexed hash ∨ hash = call.block.getHash env)
    (hne : hash ≠ env.hashGenesisBlock) : call.out.nAdjustedTime ∈ clocksSince env (call :: calls) hash := by
  refine .inr ⟨rfl, ?_⟩
  rcases hash_mem with hindexed | rfl
  · obtain ⟨earlier, hmem, heq⟩ := h.arrived hindexed hne
    exact ⟨earlier, List.mem_cons_of_mem _ hmem, heq⟩
  · exact ⟨call, List.mem_cons_self .., rfl⟩

theorem Node.Grown.settled (h : Node.Grown env calls node) : node.Settled env (clocksSince env calls) := by
  induction h with
  | start h => exact h.settled
  | @arrive calls node node' call outcome h hpromised hrun ih =>
    have hgrown : node.Settled env (clocksSince env (call :: calls)) :=
      ih.clocks_mono fun _ _ hclock => .inl hclock
    obtain ⟨outcome', node'', hrun', hsettled⟩ := hgrown.addToBlockIndex hpromised fun _ => h.clock
    rw [hrun] at hrun'
    cases hrun'
    exact hsettled

/-- **The best block is the most trusted one.** Whatever blocks have arrived, valid or not and in
whatever order: the whole ancestry of `pindexBest` connects, no indexed block whose whole ancestry
connects has more trust, and the next arrival returns. -/
theorem Node.Grown.best_is_most_trusted (h : Node.Grown env calls node) :
    (∃ best s, node.pindexBest = some best ∧
      ConnectsTo env node.mapBlockIndex node.disk.blocks best s ∧
      ∀ hash, Connects env node.mapBlockIndex node.disk.blocks (clocksSince env calls) hash →
        node.mapBlockIndex.nChainTrust hash ≤ node.mapBlockIndex.nChainTrust best) ∧
    ∀ call : Arrival, call.Promised env node → ∃ outcome node',
      addToBlockIndex env call.out call.depth call.block node = .ok (outcome, node') := by
  have hsettled := h.settled
  constructor
  · obtain ⟨best, s, hbest, -, hbranch⟩ := hsettled.best
    refine ⟨best, s, hbest, hbranch, fun hash hconnects => ?_⟩
    obtain ⟨s', hs'⟩ := hconnects.branch
    by_contra hmore
    obtain ⟨hash', hmem, hfailed⟩ := hsettled.most hash hs'.entry
      ((Node.hasMoreTrust_iff hbest).mpr (not_le.mp hmore))
    exact hsettled.failed hash' hfailed (hconnects.ancestor hmem)
  · intro call hpromised
    have hgrown : node.Settled env (clocksSince env (call :: calls)) :=
      hsettled.clocks_mono fun _ _ hclock => .inl hclock
    obtain ⟨outcome, node', hrun, -⟩ := hgrown.addToBlockIndex hpromised fun _ => h.clock
    exact ⟨outcome, node', hrun⟩

end Grown

/-! ### An invalid branch -/

theorem loadBlockIndexDB_pcoinsTip (t : BlockTree) (pcoinsTip : CCoinsViewCache CCoinsViewDB)
    (nBestInvalidTrust : Uint256) (disk : BlockFiles) :
    (loadBlockIndexDB t pcoinsTip nBestInvalidTrust disk).pcoinsTip = pcoinsTip.getBestBlock.2 := by
  unfold loadBlockIndexDB
  generalize t.sortedByHeight.foldl loadEntry (t, ∅) = state
  generalize pcoinsTip.getBestBlock = read
  obtain ⟨t', valid⟩ := state
  obtain ⟨pindexBest, tip⟩ := read
  cases pindexBest <;> rfl

theorem started_sampleLoaded : sampleLoaded.Started sampleEnv where
  coherent := coherent_sampleLoaded
  initial := by
    have hgenesis : (sampleLoaded.mapBlockIndex.entry 1000).map (fun e =>
        (e.pprev, e.nStatus.haveUndo, e.nMoneySupply)) = some (none, false, 0) := by decide +kernel
    have hkeys : sampleLoaded.mapBlockIndex.entries.keys = {1000} := by decide +kernel
    obtain ⟨g, hg, heq⟩ := Option.map_eq_some_iff.mp hgenesis
    simp only [Prod.mk.injEq] at heq
    refine ⟨?_, ⟨g, hg, heq.1⟩, fun hash e he => ?_⟩
    · rw [Node.ledger_spec sampleLoaded |>.1, sampleLoaded, loadBlockIndexDB_pcoinsTip,
        (CCoinsViewCache.getBestBlock_spec _).2.1, CCoinsViewCache.contents_new]
      rfl
    · have hmem : hash ∈ sampleLoaded.mapBlockIndex.entries.keys :=
        Finmap.mem_keys.mpr (Finmap.mem_of_lookup_eq_some he)
      rw [hkeys, Finset.mem_singleton] at hmem
      subst hmem
      obtain rfl := Option.some.inj (hg.symm.trans he)
      exact heq.2
  genesisOnly hash := by
    rintro ⟨e, he⟩
    have hkeys : sampleLoaded.mapBlockIndex.entries.keys = {1000} := by decide +kernel
    have hmem : hash ∈ sampleLoaded.mapBlockIndex.entries.keys :=
      Finmap.mem_keys.mpr (Finmap.mem_of_lookup_eq_some he)
    rw [hkeys, Finset.mem_singleton] at hmem
    exact hmem
  setBlockIndexValid := by decide +kernel
  unfailed := by decide +kernel

theorem good_sampleOutside : sampleOutside.Good := ⟨rfl, fun _ => rfl, fun _ => rfl⟩

/-- A block that connects arrives, then one on top of it that does not. -/
theorem best_is_most_trusted_sample :
    ∃ node, Node.Grown sampleEnv [⟨sampleOutside, 1, sampleGreedyBlock⟩,
        ⟨sampleOutside, 1, Ledger.sampleFirstBlock⟩] node ∧
      ∃ best s, node.pindexBest = some best ∧
        ConnectsTo sampleEnv node.mapBlockIndex node.disk.blocks best s := by
  have hfirst : Arrival.Promised sampleEnv sampleLoaded ⟨sampleOutside, 1, Ledger.sampleFirstBlock⟩ :=
    ⟨good_sampleOutside, Nat.one_pos, Option.isSome_iff_exists.mp (by decide +kernel), by decide +kernel⟩
  have hstart : Node.Grown sampleEnv [] sampleLoaded := .start started_sampleLoaded
  obtain ⟨outcome₁, node₁, hrun₁⟩ := hstart.best_is_most_trusted.2 _ hfirst
  have hindexed :
      (addToBlockIndex sampleEnv sampleOutside 1 Ledger.sampleFirstBlock sampleLoaded).toOption.map
      (fun result => (result.2.mapBlockIndex.entry 1001).isSome) = some true := by decide +kernel
  rw [hrun₁] at hindexed
  have hgreedy : Arrival.Promised sampleEnv node₁ ⟨sampleOutside, 1, sampleGreedyBlock⟩ :=
    ⟨good_sampleOutside, Nat.one_pos, Option.isSome_iff_exists.mp (Option.some.inj hindexed),
      by decide⟩
  have hgrown := hstart.arrive hfirst hrun₁
  obtain ⟨outcome₂, node₂, hrun₂⟩ := hgrown.best_is_most_trusted.2 _ hgreedy
  have hdone := hgrown.arrive hgreedy hrun₂
  obtain ⟨best, s, hbest, hbranch, -⟩ := hdone.best_is_most_trusted.1
  exact ⟨node₂, hdone, best, s, hbest, hbranch⟩

def sampleEarly : Outside := { sampleOutside with nAdjustedTime := 1000 }

/-- The call for a block that is too far ahead of the clock, and what it leaves: the block is not the best
one, and connects with a later clock. -/
theorem addToBlockIndex_sampleLateBlock :
    (addToBlockIndex sampleEnv sampleEarly 1 sampleLateBlock sampleLoaded).toOption.map (fun r =>
      ((r.2.mapBlockIndex.entry 1000).map (·.pprev), (r.2.mapBlockIndex.entry 1001).map fun e => (e.pprev,
          ((connectBlockChecks sampleEnv 10000 (heightOf r.2.mapBlockIndex.entry) sampleLateBlock e false).run
            CoinsMap.handler ⟨fun _ => none, some 1000⟩).1.toOption.join.isSome),
        decide (r.2.pindexBest = some 1000 ∧ r.2.disk.blocks 1001 = some sampleLateBlock ∧
          r.2.mapBlockIndex.nChainTrust 1000 < r.2.mapBlockIndex.nChainTrust 1001))) =
      some (some none, some (some 1000, true), true) := by
  decide +kernel

/-- **A block that connects is given up**: when it arrives, it is too far ahead of the clock. -/
theorem not_forall_best_is_most_trusted :
    ∃ node, Node.Grown sampleEnv [⟨sampleEarly, 1, sampleLateBlock⟩] node ∧
      ∃ best hash s, node.pindexBest = some best ∧
        ConnectsTo sampleEnv node.mapBlockIndex node.disk.blocks hash s ∧
        node.mapBlockIndex.nChainTrust best < node.mapBlockIndex.nChainTrust hash := by
  obtain ⟨⟨outcome, node⟩, hcall, hfacts⟩ := Option.map_eq_some_iff.mp addToBlockIndex_sampleLateBlock
  simp only [Prod.mk.injEq, Option.map_eq_some_iff] at hfacts
  obtain ⟨⟨g, hg, hroot⟩, ⟨e, he, hprev, hconnects⟩, hleft⟩ := hfacts
  obtain ⟨hbest, hblock, htrust⟩ := of_decide_eq_true hleft
  obtain ⟨state, hstate⟩ := Option.isSome_iff_exists.mp hconnects
  have hpromised : Arrival.Promised sampleEnv sampleLoaded ⟨sampleEarly, 1, sampleLateBlock⟩ :=
    ⟨⟨rfl, fun _ => rfl, fun _ => rfl⟩, Nat.one_pos, Option.isSome_iff_exists.mp (by decide +kernel),
      by decide +kernel⟩
  have hchecks : ∃ s, (connectBlockChecks sampleEnv 10000 (heightOf node.mapBlockIndex.entry) sampleLateBlock e
      false).run CoinsMap.handler ⟨fun _ => none, some 1000⟩ = (.ok (some state), s) := by
    generalize (connectBlockChecks sampleEnv 10000 (heightOf node.mapBlockIndex.entry) sampleLateBlock e
      false).run CoinsMap.handler ⟨fun _ => none, some 1000⟩ = result at hstate
    obtain ⟨result, s⟩ := result
    cases result with
    | error reason => cases hstate
    | ok found =>
      obtain rfl : found = some state := hstate
      exact ⟨s, rfl⟩
  obtain ⟨s, hchecks⟩ := hchecks
  exact ⟨node, .arrive (.start started_sampleLoaded) hpromised (eq_ok_of_toOption hcall), 1000, 1001, _, hbest,
    .connect (.genesis hg hroot) he hprev hblock hchecks, htrust⟩

end Manna
