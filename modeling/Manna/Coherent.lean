import Manna.Reorg

/-!
The state of the node between calls.

A node is `Coherent` when the coins are those of the best block, `pnext` links exactly the
best chain, and the copies of the best block's data agree with the index. `SetBestChain`
keeps this unless it fails between flushing the coins and updating the memory structures;
when it fails earlier the node is `Unchanged`.

* `nextLinks_switch`: `pnext` after the change of the memory structures;
* `setBestChain_error`, `setBestChain_ok`: what a call does to a coherent node;
* `setBestChain_atomic`: a failed reorganisation changes nothing a caller can see;
* `not_forall_setBestChain_atomic`: but where the coins were flushed and the best block stayed.
-/

namespace Manna

/-! ### The links of the best chain -/

namespace BlockTree

variable {t : BlockTree} {hash x y : Uint256}

/-- `pnext` links the chain of a block, and nothing else. -/
def NextLinks (t : BlockTree) (pindex : Option Uint256) : Prop :=
  ∀ x y, t.pnextOf x = some y ↔ y ∈ t.ancestry pindex ∧ t.pprevOf y = some x

theorem setNext_pnextOf (t : BlockTree) (hash : Uint256) (pnext : Option Uint256) (x : Uint256)
    (hindexed : t.Indexed hash) :
    (t.setNext hash pnext).pnextOf x = if x = hash then pnext else t.pnextOf x := by
  unfold pnextOf
  rw [entry_setNext]
  split
  · next heq =>
    obtain ⟨e, he⟩ := hindexed
    rw [heq, he]
    rfl
  · rfl

theorem extends_setNext (t : BlockTree) (hash : Uint256) (pnext : Option Uint256) :
    (t.setNext hash pnext).Extends t ∧ t.Extends (t.setNext hash pnext) :=
  t.extends_modify _ _ fun _ => rfl

theorem extends_unlinkNext (t : BlockTree) (hash : Uint256) :
    (t.unlinkNext hash).Extends t ∧ t.Extends (t.unlinkNext hash) := by
  unfold unlinkNext
  split
  · exact ⟨.refl t, .refl t⟩
  · exact t.extends_setNext ..

theorem extends_linkNext (t : BlockTree) (hash : Uint256) :
    (t.linkNext hash).Extends t ∧ t.Extends (t.linkNext hash) := by
  unfold linkNext
  split
  · exact ⟨.refl t, .refl t⟩
  · exact t.extends_setNext ..

theorem extends_foldl {f : BlockTree → Uint256 → BlockTree}
    (hf : ∀ t hash, (f t hash).Extends t ∧ t.Extends (f t hash)) (l : List Uint256) (t : BlockTree) :
    (l.foldl f t).Extends t ∧ t.Extends (l.foldl f t) := by
  induction l generalizing t with
  | nil => exact ⟨.refl t, .refl t⟩
  | cons hash l ih =>
    obtain ⟨h, h'⟩ := ih (f t hash)
    exact ⟨h.trans (hf t hash).1, (hf t hash).2.trans h'⟩

theorem unlinkNext_pnextOf (t : BlockTree) (hash x : Uint256) :
    (t.unlinkNext hash).pnextOf x = if t.pprevOf hash = some x then none else t.pnextOf x := by
  unfold unlinkNext
  cases hprev : t.pprevOf hash with
  | none => simp
  | some pprev =>
    dsimp only
    rw [setNext_pnextOf _ _ _ _ (pprevOf_height hprev).2.1]
    simp only [Option.some.injEq, eq_comm]

theorem linkNext_pnextOf (t : BlockTree) (hash x : Uint256) :
    (t.linkNext hash).pnextOf x = if t.pprevOf hash = some x then some hash else t.pnextOf x := by
  unfold linkNext
  cases hprev : t.pprevOf hash with
  | none => simp
  | some pprev =>
    dsimp only
    rw [setNext_pnextOf _ _ _ _ (pprevOf_height hprev).2.1]
    simp only [Option.some.injEq, eq_comm]

/-- Unlinking clears `pnext` of the predecessors. -/
theorem foldl_unlinkNext_pnextOf (l : List Uint256) (t : BlockTree) (x y : Uint256) :
    (l.foldl unlinkNext t).pnextOf x = some y ↔
      (∀ hash ∈ l, t.pprevOf hash ≠ some x) ∧ t.pnextOf x = some y := by
  induction l generalizing t with
  | nil => simp
  | cons hash l ih =>
    have hprev := fun h => pprevOf_eq_of_extends (t.extends_unlinkNext hash).1
      (t.extends_unlinkNext hash).2 h
    rw [List.foldl_cons, ih, unlinkNext_pnextOf, List.forall_mem_cons]
    simp only [hprev]
    by_cases hx : t.pprevOf hash = some x
    · simp [hx]
    · simp [hx]

/-- Linking sets `pnext` of the predecessors, if no two blocks have the same. -/
theorem foldl_linkNext_pnextOf {l : List Uint256} {t : BlockTree}
    (hinj : ∀ a ∈ l, ∀ b ∈ l, ∀ x, t.pprevOf a = some x → t.pprevOf b = some x → a = b) (x y : Uint256) :
    (l.foldl linkNext t).pnextOf x = some y ↔ (y ∈ l ∧ t.pprevOf y = some x) ∨
        ((∀ hash ∈ l, t.pprevOf hash ≠ some x) ∧ t.pnextOf x = some y) := by
  induction l generalizing t with
  | nil => simp
  | cons hash l ih =>
    have hprev := fun h => pprevOf_eq_of_extends (t.extends_linkNext hash).1
      (t.extends_linkNext hash).2 h
    rw [List.foldl_cons, ih, linkNext_pnextOf, List.forall_mem_cons]
    · simp only [hprev, List.mem_cons]
      by_cases hx : t.pprevOf hash = some x
      · -- The first block is the only one with this predecessor.
        have honly : ∀ a ∈ l, t.pprevOf a = some x → a = hash := fun a ha hax =>
          hinj a (List.mem_cons_of_mem _ ha) hash (List.mem_cons_self ..) x hax hx
        simp only [hx, if_true, Option.some.injEq]
        constructor
        · rintro (⟨hmem, hyx⟩ | ⟨-, rfl⟩)
          · exact .inl ⟨.inr hmem, hyx⟩
          · exact .inl ⟨.inl rfl, hx⟩
        · rintro (⟨rfl | hmem, hyx⟩ | ⟨⟨hne, -⟩, -⟩)
          · by_cases hin : y ∈ l
            · exact .inl ⟨hin, hyx⟩
            · exact .inr ⟨fun a ha hax => hin (honly a ha hax ▸ ha), rfl⟩
          · exact .inl ⟨hmem, hyx⟩
          · exact absurd rfl hne
      · have hne : ∀ a, t.pprevOf a = some x → a ≠ hash := fun a hax heq => hx (heq ▸ hax)
        simp only [hx, if_false, ne_eq, not_false_eq_true, true_and]
        refine or_congr_left (and_congr_left fun hyx => ?_)
        simp [hne y hyx]
    · intro a ha b hb x hax hbx
      rw [hprev] at hax hbx
      exact hinj a (List.mem_cons_of_mem _ ha) b (List.mem_cons_of_mem _ hb) x hax hbx

/-- **The links after a reorganisation.** -/
theorem nextLinks_switch {best pindexNew pfork : Option Uint256} (h : t.NextLinks best)
    (hfork : t.Fork best pindexNew pfork) : (((t.above pindexNew pfork).reverse).foldl linkNext
      ((t.above best pfork).foldl unlinkNext t)).NextLinks pindexNew := by
  have hunlink := extends_foldl extends_unlinkNext (t.above best pfork) t
  have hlink := extends_foldl extends_linkNext (t.above pindexNew pfork).reverse
    ((t.above best pfork).foldl unlinkNext t)
  have hprev := fun hash => pprevOf_eq_of_extends hunlink.1 hunlink.2 hash
  have hall := And.intro (hlink.1.trans hunlink.1) (hunlink.2.trans hlink.2)
  have hnew : ∀ hash ∈ t.above pindexNew pfork, hash ∈ t.ancestry pindexNew := fun hash hmem =>
    hfork.new ▸ List.mem_append_left _ hmem
  have hold : ∀ hash ∈ t.above best pfork, hash ∈ t.ancestry best := fun hash hmem =>
    hfork.best ▸ List.mem_append_left _ hmem
  intro x y
  rw [ancestry_eq hall.1 hall.2, pprevOf_eq_of_extends hall.1 hall.2, foldl_linkNext_pnextOf]
  · simp only [List.mem_reverse, hprev, foldl_unlinkNext_pnextOf, h x y]
    constructor
    · rintro (⟨hmem, hyx⟩ | ⟨-, hfree, hmem, hyx⟩)
      · exact ⟨hnew y hmem, hyx⟩
      · rw [← hfork.best, List.mem_append] at hmem
        rcases hmem with hmem | hmem
        · exact absurd hyx (hfree y hmem)
        · exact ⟨hfork.new ▸ List.mem_append_right _ hmem, hyx⟩
    · rintro ⟨hmem, hyx⟩
      by_cases habove : y ∈ t.above pindexNew pfork
      · exact .inl ⟨habove, hyx⟩
      · have hcommon : y ∈ t.ancestry pfork := by
          rw [← hfork.new, List.mem_append] at hmem
          exact hmem.resolve_left habove
        refine .inr ⟨fun hash hin hhash => ?_, fun hash hin hhash => ?_,
          hfork.best ▸ List.mem_append_right _ hcommon, hyx⟩
        · exact habove (eq_of_pprevOf_eq (hnew hash hin) hmem hhash hyx ▸ hin)
        · have heq := eq_of_pprevOf_eq (hold hash hin)
            (hfork.best ▸ List.mem_append_right _ hcommon) hhash hyx
          exact hfork.disconnect hash hin (heq ▸ hmem)
  · intro a ha b hb x hax hbx
    rw [hprev] at hax hbx
    exact eq_of_pprevOf_eq (hnew a (List.mem_reverse.mp ha)) (hnew b (List.mem_reverse.mp hb)) hax hbx

theorem nextLinks_congr {t' : BlockTree} {pindex : Option Uint256} (h : t.NextLinks pindex)
    (hextends : t'.Extends t) (hextends' : t.Extends t') (hnext : ∀ x, t'.pnextOf x = t.pnextOf x) :
    t'.NextLinks pindex := by
  intro x y
  rw [hnext, ancestry_eq hextends hextends', pprevOf_eq_of_extends hextends hextends', h x y]

end BlockTree

/-- What holds of the globals between calls. -/
structure Node.Coherent (node : Node) : Prop where
  tip : node.pcoinsTip.contents.best = node.pindexBest
  next : node.mapBlockIndex.NextLinks node.pindexBest
  indexed : ∀ best, node.pindexBest = some best → node.mapBlockIndex.Indexed best
  hashBestChain : ∀ best, node.pindexBest = some best → node.hashBestChain = best
  nBestHeight : ∀ best, node.pindexBest = some best →
    node.nBestHeight = node.mapBlockIndex.nHeight best
  nBestChainTrust : ∀ best, node.pindexBest = some best →
    node.nBestChainTrust = node.mapBlockIndex.nChainTrust best

/-- What a caller sees of a node is as before. -/
structure Node.Unchanged (node' node : Node) : Prop where
  coins : node'.pcoinsTip.contents = node.pcoinsTip.contents
  pindexBest : node'.pindexBest = node.pindexBest
  hashBestChain : node'.hashBestChain = node.hashBestChain
  nBestHeight : node'.nBestHeight = node.nBestHeight
  nBestChainTrust : node'.nBestChainTrust = node.nBestChainTrust
  mempool : node'.mempool = node.mempool
  extends_ : node'.mapBlockIndex.Extends node.mapBlockIndex
  extends' : node.mapBlockIndex.Extends node'.mapBlockIndex
  pnext : ∀ hash, node'.mapBlockIndex.pnextOf hash = node.mapBlockIndex.pnextOf hash
  blocks : node'.disk.blocks = node.disk.blocks

theorem Node.Unchanged.refl (node : Node) : node.Unchanged node :=
  ⟨rfl, rfl, rfl, rfl, rfl, rfl, .refl _, .refl _, fun _ => rfl, rfl⟩

theorem Node.Unchanged.trans {node node' node'' : Node} (h : node''.Unchanged node')
    (h' : node'.Unchanged node) : node''.Unchanged node where
  coins := h.coins.trans h'.coins
  pindexBest := h.pindexBest.trans h'.pindexBest
  hashBestChain := h.hashBestChain.trans h'.hashBestChain
  nBestHeight := h.nBestHeight.trans h'.nBestHeight
  nBestChainTrust := h.nBestChainTrust.trans h'.nBestChainTrust
  mempool := h.mempool.trans h'.mempool
  extends_ := h.extends_.trans h'.extends_
  extends' := h'.extends'.trans h.extends'
  pnext hash := (h.pnext hash).trans (h'.pnext hash)
  blocks := h.blocks.trans h'.blocks

theorem Node.Coherent.unchanged {node node' : Node} (h : node.Coherent) (hsame : node'.Unchanged node) :
    node'.Coherent where
  tip := by rw [hsame.coins, hsame.pindexBest, h.tip]
  next := by
    rw [hsame.pindexBest]
    exact BlockTree.nextLinks_congr h.next hsame.extends_ hsame.extends' hsame.pnext
  indexed best hbest := hsame.extends_.indexed (h.indexed best (hsame.pindexBest ▸ hbest))
  hashBestChain best hbest := by
    rw [hsame.hashBestChain, h.hashBestChain best (hsame.pindexBest ▸ hbest)]
  nBestHeight best hbest := by
    have hold := hsame.pindexBest ▸ hbest
    rw [hsame.nBestHeight, h.nBestHeight best hold, hsame.extends_.nHeight_eq (h.indexed best hold)]
  nBestChainTrust best hbest := by
    have hold := hsame.pindexBest ▸ hbest
    rw [hsame.nBestChainTrust, h.nBestChainTrust best hold,
      hsame.extends_.nChainTrust_eq (h.indexed best hold)]

theorem Node.unchanged_discard {node : Node} {l : Ledger (CCoinsViewCache CCoinsViewDB)}
    (h : l.Keeps node.ledger) : (node.discard l).Unchanged node where
  coins := by
    have hread := (CCoinsViewCache.new node.pcoinsTip).getBestBlock_spec.2.2
    exact h.base.trans hread
  pindexBest := rfl
  hashBestChain := rfl
  nBestHeight := rfl
  nBestChainTrust := rfl
  mempool := rfl
  extends_ := h.entries.extends
  extends' := h.entries.symm.extends
  pnext := h.entries.pnextOf
  blocks := h.blocks

theorem Node.unchanged_invalidChainFound (node : Node) (pindexNew : Uint256) :
    (node.invalidChainFound pindexNew).Unchanged node := by
  unfold invalidChainFound
  split
  · exact ⟨rfl, rfl, rfl, rfl, rfl, rfl, .refl _, .refl _, fun _ => rfl, rfl⟩
  · exact .refl node

theorem BlockTree.setStatus_frame (t : BlockTree) (hash : Uint256) (f : BlockStatus → BlockStatus) :
    (t.setStatus hash f).Extends t ∧ t.Extends (t.setStatus hash f) ∧
      ∀ x, (t.setStatus hash f).pnextOf x = t.pnextOf x := by
  obtain ⟨h, h'⟩ := t.extends_modify hash (f := fun e => { e with nStatus := f e.nStatus })
    (fun _ => ⟨rfl, rfl, rfl⟩) fun _ => rfl
  refine ⟨h, h', fun x => ?_⟩
  unfold BlockTree.pnextOf
  rw [entry_setStatus]
  split
  · cases t.entry x <;> rfl
  · rfl

/-- Recording an invalid block off the best chain. -/
theorem invalidBlockFound_off_chain (connectBest : Node → Call Unit) {pindex : Uint256}
    {node : Node} (hnext : node.mapBlockIndex.pnextOf pindex = none) :
    ∃ node', invalidBlockFound connectBest pindex node = .ok node' ∧ node'.Unchanged node ∧
      node'.mapBlockIndex = node.mapBlockIndex.setStatus pindex (fun nStatus =>
        { nStatus with failedValid := true }) ∧
      node'.setBlockIndexValid = node.setBlockIndexValid.erase pindex ∧ node'.disk = node.disk := by
  obtain ⟨hextends, hextends', hpnext⟩ := node.mapBlockIndex.setStatus_frame pindex fun nStatus =>
    { nStatus with failedValid := true }
  have hsame := Node.unchanged_invalidChainFound { node with
    mapBlockIndex := node.mapBlockIndex.setStatus pindex fun nStatus =>
      { nStatus with failedValid := true }
    setBlockIndexValid := node.setBlockIndexValid.erase pindex } pindex
  have hrest : ∀ node : Node, (node.invalidChainFound pindex).mapBlockIndex = node.mapBlockIndex ∧
      (node.invalidChainFound pindex).setBlockIndexValid = node.setBlockIndexValid ∧
      (node.invalidChainFound pindex).disk = node.disk := by
    intro node
    unfold Node.invalidChainFound
    split <;> exact ⟨rfl, rfl, rfl⟩
  refine ⟨_, ?_, hsame.trans ⟨rfl, rfl, rfl, rfl, rfl, rfl, hextends, hextends', hpnext, rfl⟩,
    (hrest _).1, (hrest _).2⟩
  unfold invalidBlockFound
  dsimp only
  rw [if_neg]
  rw [(hrest _).1, ← BlockTree.pnextOf, hpnext, hnext]
  simp

/-! ### Starting and new blocks -/

/-- Loading an index, as `LoadBlockIndexGuts` reads it, gives a coherent node. -/
theorem coherent_loadBlockIndexDB {mapBlockIndex : BlockTree} {pcoinsTip : CCoinsViewCache CCoinsViewDB}
    (hnext : ∀ hash, mapBlockIndex.pnextOf hash = none)
    (hbest : ∀ best, pcoinsTip.contents.best = some best → mapBlockIndex.Indexed best)
    (nBestInvalidTrust : Uint256) (disk : BlockFiles) :
    (loadBlockIndexDB mapBlockIndex pcoinsTip nBestInvalidTrust disk).Coherent := by
  -- The first loop changes trusts only.
  have hload : ∀ (l : List Uint256) (state : BlockTree × Finset Uint256) (hash : Uint256),
      ((l.foldl loadEntry state).1.pnextOf hash = state.1.pnextOf hash) ∧
        (state.1.Indexed hash → (l.foldl loadEntry state).1.Indexed hash) := by
    intro l
    induction l with
    | nil => exact fun _ _ => ⟨rfl, id⟩
    | cons hash' l ih =>
      intro state hash
      have hstep : (loadEntry state hash').1.pnextOf hash = state.1.pnextOf hash ∧
          (state.1.Indexed hash → (loadEntry state hash').1.Indexed hash) := by
        unfold loadEntry
        cases he : state.1.entry hash' with
        | none => exact ⟨rfl, id⟩
        | some pindex =>
          dsimp only
          unfold BlockTree.pnextOf BlockTree.Indexed
          rw [BlockTree.entry_setChainTrust]
          split
          · cases state.1.entry hash <;> simp
          · exact ⟨rfl, id⟩
      exact ⟨(ih _ hash).1.trans hstep.1, (ih _ hash).2 ∘ hstep.2⟩
  obtain ⟨hval, hcontents, -⟩ := pcoinsTip.getBestBlock_spec
  have hloaded := hload mapBlockIndex.sortedByHeight (mapBlockIndex, ∅)
  unfold loadBlockIndexDB
  generalize mapBlockIndex.sortedByHeight.foldl loadEntry (mapBlockIndex, ∅) = state at hloaded
  obtain ⟨t, valid⟩ := state
  generalize pcoinsTip.getBestBlock = read at hval hcontents
  obtain ⟨pindexBest, tip⟩ := read
  dsimp only at hval hcontents hloaded
  cases pindexBest with
  | none =>
    refine ⟨(congrArg CoinsMap.best hcontents).trans hval.symm, fun x y => ?_,
      fun _ h => (Option.some_ne_none _ h.symm).elim, fun _ h => (Option.some_ne_none _ h.symm).elim,
      fun _ h => (Option.some_ne_none _ h.symm).elim, fun _ h => (Option.some_ne_none _ h.symm).elim⟩
    show t.pnextOf x = some y ↔ y ∈ t.ancestry none ∧ _
    rw [(hloaded x).1, hnext x]
    simp
  | some best =>
    have hlink := BlockTree.extends_foldl BlockTree.extends_linkNext (t.ancestry (some best)) t
    have hin : t.Indexed best := (hloaded best).2 (hbest best hval.symm)
    refine ⟨(congrArg CoinsMap.best hcontents).trans hval.symm, fun x y => ?_, ?_, ?_, ?_, ?_⟩
    · dsimp only
      rw [BlockTree.ancestry_eq hlink.1 hlink.2, BlockTree.pprevOf_eq_of_extends hlink.1 hlink.2,
        BlockTree.foldl_linkNext_pnextOf, (hloaded x).1, hnext x]
      · simp
      · exact fun a ha b hb x => BlockTree.eq_of_pprevOf_eq ha hb
    · intro b h
      cases h
      exact hlink.1.indexed hin
    · intro b h
      exact Option.some.inj h
    · intro b h
      cases h
      exact (hlink.1.nHeight_eq hin).symm
    · intro b h
      cases h
      exact (hlink.1.nChainTrust_eq hin).symm

section InsertBlock

variable {env : Env} {t : BlockTree} {block : CBlock}

theorem pnextOf_insertBlock (hnew : t.New (newEntry env t block)) (hash : Uint256) :
    (t.insert _ hnew).pnextOf hash = t.pnextOf hash := by
  unfold BlockTree.pnextOf
  rw [BlockTree.entry_insert]
  split
  · next heq => rw [heq, hnew.fresh]; rfl
  · rfl

theorem nextLinks_insertBlock {pindex : Option Uint256} (h : t.NextLinks pindex)
    (hindexed : ∀ best, pindex = some best → t.Indexed best) (hnew : t.New (newEntry env t block)) :
    (t.insert _ hnew).NextLinks pindex := by
  have hextends := BlockTree.extends_insert hnew
  intro x y
  cases pindex with
  | none => rw [pnextOf_insertBlock hnew, h x y]; exact and_congr_right nofun
  | some best =>
    have hbest := hindexed best rfl
    rw [pnextOf_insertBlock hnew, BlockTree.ancestry_congr hextends hbest, h x y]
    refine and_congr_right fun hmem => ?_
    rw [hextends.pprevOf_eq (BlockTree.indexed_of_mem hbest hmem)]

end InsertBlock

theorem Node.Coherent.insertBlock {node : Node} (h : node.Coherent) {env : Env} {block : CBlock}
    (hnew : node.mapBlockIndex.New (newEntry env node.mapBlockIndex block)) :
    (node.insertBlock env block hnew).Coherent := by
  have hextends := BlockTree.extends_insert hnew
  refine ⟨h.tip, nextLinks_insertBlock h.next h.indexed hnew,
    fun best hbest => hextends.indexed (h.indexed best hbest), h.hashBestChain, fun best hbest => ?_,
    fun best hbest => ?_⟩
  · exact (h.nBestHeight best hbest).trans (hextends.nHeight_eq (h.indexed best hbest)).symm
  · exact (h.nBestChainTrust best hbest).trans (hextends.nChainTrust_eq (h.indexed best hbest)).symm

/-! ### `SetBestChain` on a coherent node -/

section SetBestChain

variable {env : Env} {out : Outside} {connectBest : Node → Call Unit} {pindexNew : Uint256}
  {node node' : Node} {pfork : Option Uint256} {vResurrect vDelete : List CTransaction}
  {l l' : Ledger (CCoinsViewCache CCoinsViewDB)}

theorem Node.pindexTip_eq (node : Node) : node.pindexTip = node.pcoinsTip.contents.best := by
  rw [pindexTip, (CCoinsViewCache.getBestBlock_spec _).1, CCoinsViewCache.contents_new]
  rfl

theorem Node.ledger_spec (node : Node) :
    node.ledger.view.contents = node.pcoinsTip.contents ∧ node.ledger.view.TipRead := by
  refine ⟨?_, CCoinsViewCache.tipRead_getBestBlock _⟩
  exact (CCoinsViewCache.getBestBlock_spec _).2.1.trans (CCoinsViewCache.contents_new _)

theorem Node.writeCoins_spec (out : Outside) (pindexNew : Uint256) (node : Node) :
    (∃ e, node.writeCoins out pindexNew = (.error e, node) ∧
      (e = .diskSpace ∨ e = .coinDatabase)) ∨
    ∃ pcoinsTip, node.writeCoins out pindexNew = (.ok (), { node with pcoinsTip := pcoinsTip }) ∧
      (pcoinsTip = node.pcoinsTip ∨ pcoinsTip = node.pcoinsTip.flush) := by
  unfold writeCoins
  split
  · split
    · exact .inl ⟨_, rfl, .inl rfl⟩
    · split
      · exact .inl ⟨_, rfl, .inr rfl⟩
      · exact .inr ⟨_, rfl, .inr rfl⟩
  · exact .inr ⟨_, rfl, .inl rfl⟩

variable {e : ChainError}

theorem Node.writeCoins_ne_error (hdisk : e ≠ .diskSpace) (hdatabase : e ≠ .coinDatabase)
    (node node₁ : Node) : node.writeCoins out pindexNew ≠ (.error e, node₁) := by
  rcases node.writeCoins_spec out pindexNew with ⟨e', heq, rfl | rfl⟩ | ⟨pcoinsTip, heq, -⟩
  · rw [heq]
    exact fun h => hdisk (Except.error.inj (congrArg Prod.fst h)).symm
  · rw [heq]
    exact fun h => hdatabase (Except.error.inj (congrArg Prod.fst h)).symm
  · rw [heq]
    exact fun h => nomatch congrArg Prod.fst h

theorem Node.writeCoins_ne_error_of_space (hspace : out.fDiskSpace pindexNew = true)
    (hflush : out.fCoinFlush pindexNew = true) (node node₁ : Node) :
    node.writeCoins out pindexNew ≠ (.error e, node₁) := by
  unfold writeCoins
  rw [hspace, hflush]
  split
  · exact fun h => nomatch congrArg Prod.fst h
  · exact fun h => nomatch congrArg Prod.fst h

theorem Disconnected.keeps (h : Disconnected env out pindexNew node pfork vResurrect l) :
    l.Keeps node.ledger ∧ l.mapBlockIndex = node.mapBlockIndex ∧ l.disk = node.disk := by
  have hkeeps := disconnectBlocks_keeps env out.io
    (node.mapBlockIndex.above node.pindexTip pfork) node.ledger
  rw [h.run] at hkeeps
  exact hkeeps

theorem Disconnected.connect_keeps (h : Disconnected env out pindexNew node pfork vResurrect l)
    {result : Except (Uint256 × ChainError) (List CTransaction)}
    (hrun : connectBlocks env out.io out.nAdjustedTime (node.vConnect pindexNew pfork) l =
      (result, l')) : l'.Keeps node.ledger := by
  have hkeeps := connectBlocks_keeps env out.io out.nAdjustedTime
    (node.vConnect pindexNew pfork) l
  rw [hrun] at hkeeps
  exact hkeeps.trans h.keeps.1

/-- A block `SetBestChain` connects is not on the best chain. -/
theorem Node.Coherent.pnextOf_vConnect (h : node.Coherent)
    (hfork : node.mapBlockIndex.findFork node.pindexTip (some pindexNew) = some pfork)
    {hash : Uint256} (hmem : hash ∈ node.vConnect pindexNew pfork) :
    node.mapBlockIndex.pnextOf hash = none := by
  rw [node.pindexTip_eq, h.tip] at hfork
  have hoff := (BlockTree.fork_of_findFork hfork).connect hash (List.mem_reverse.mp hmem)
  cases hnext : node.mapBlockIndex.pnextOf hash with
  | none => rfl
  | some next =>
    obtain ⟨hin, hprev⟩ := (h.next hash next).mp hnext
    exact absurd (BlockTree.pprevOf_mem_ancestry hin hprev) hoff

/-- What `SetBestChain` leaves when it stops at an invalid block of a coherent node. -/
theorem Node.Coherent.invalid (h : node.Coherent) (connectBest : Node → Call Unit) {pindex : Uint256}
    (hdisconnected : Disconnected env out pindexNew node pfork vResurrect l)
    (hrun : connectBlocks env out.io out.nAdjustedTime (node.vConnect pindexNew pfork) l =
      (.error (pindex, e), l')) :
    ∃ node', invalidBlockFound connectBest pindex ((node.discard l').invalidChainFound pindexNew) =
        .ok node' ∧ node'.Unchanged node ∧
      node'.mapBlockIndex = l'.mapBlockIndex.setStatus pindex (fun nStatus =>
        { nStatus with failedValid := true }) ∧
      node'.setBlockIndexValid = node.setBlockIndexValid.erase pindex ∧ node'.disk = l'.disk := by
  have hdiscard := Node.unchanged_discard (hdisconnected.connect_keeps hrun)
  have hchain := (node.discard l').unchanged_invalidChainFound pindexNew
  have hnext : ((node.discard l').invalidChainFound pindexNew).mapBlockIndex.pnextOf pindex = none := by
    rw [hchain.pnext, hdiscard.pnext]
    exact h.pnextOf_vConnect hdisconnected.fork (connectBlocks_error hrun)
  obtain ⟨node', hfound, hsame, htree, hset, hdisk⟩ := invalidBlockFound_off_chain connectBest hnext
  have hrest : ((node.discard l').invalidChainFound pindexNew).mapBlockIndex = l'.mapBlockIndex ∧
      ((node.discard l').invalidChainFound pindexNew).setBlockIndexValid =
        node.setBlockIndexValid ∧
      ((node.discard l').invalidChainFound pindexNew).disk = l'.disk := by
    unfold Node.invalidChainFound
    split <;> exact ⟨rfl, rfl, rfl⟩
  rw [hrest.1] at htree
  rw [hrest.2.1] at hset
  rw [hrest.2.2] at hdisk
  exact ⟨node', hfound, hsame.trans (hchain.trans hdiscard), htree, hset, hdisk⟩

/-- How a call fails: before the coins are written nothing is changed, and writing them may fail. -/
theorem setBestChain_error_cases (h : node.Coherent)
    (hrun : setBestChain env out connectBest pindexNew node = .ok (.error e, node')) :
    node'.Unchanged node ∨ ∃ l : Ledger (CCoinsViewCache CCoinsViewDB), l.Keeps node.ledger ∧
      (node.accept l).writeCoins out pindexNew = (.error e, node') := by
  have hsteps := setBestChain_steps env out connectBest pindexNew node
  rw [hrun] at hsteps
  generalize hresult : (Except.ok (Except.error e, node') : Call Unit) = result at hsteps
  cases hsteps with
  | assertion hfork =>
    cases hresult
    exact .inl (.refl node)
  | disconnect hfork hdisconnect =>
    cases hresult
    have hkeeps := disconnectBlocks_keeps env out.io
      (node.mapBlockIndex.above node.pindexTip ‹_›) node.ledger
    rw [hdisconnect] at hkeeps
    exact .inl (Node.unchanged_discard hkeeps.1)
  | connect hdisconnected hconnect hvalid =>
    cases hresult
    exact .inl (Node.unchanged_discard (hdisconnected.connect_keeps hconnect))
  | invalid hdisconnected hconnect hinvalid hfound =>
    cases hresult
    obtain ⟨node'', hfound', hsame, -⟩ := h.invalid connectBest hdisconnected hconnect
    rw [hfound] at hfound'
    cases hfound'
    exact .inl hsame
  | stuck => cases hresult
  | coins hdisconnected hconnect hcoins =>
    cases hresult
    exact .inr ⟨_, hdisconnected.connect_keeps hconnect, hcoins⟩
  | done => cases hresult

/-- **A failure before the coins are written changes nothing.** -/
theorem setBestChain_error (h : node.Coherent)
    (hrun : setBestChain env out connectBest pindexNew node = .ok (.error e, node'))
    (hwritten : ∀ node₁ node₂ : Node, node₁.writeCoins out pindexNew ≠ (.error e, node₂)) :
    node'.Unchanged node := by
  rcases setBestChain_error_cases h hrun with hsame | ⟨l, -, hcoins⟩
  · exact hsame
  · exact absurd hcoins (hwritten _ _)

theorem setBestChain_returns (env : Env) (out : Outside) (connectBest : Node → Call Unit)
    (h : node.Coherent) (pindexNew : Uint256) :
    ∃ result, setBestChain env out connectBest pindexNew node = .ok result := by
  have hsteps := setBestChain_steps env out connectBest pindexNew node
  generalize setBestChain env out connectBest pindexNew node = result at hsteps
  cases hsteps with
  | stuck hdisconnected hconnect hinvalid hfound =>
    obtain ⟨node'', hfound', -⟩ := h.invalid connectBest hdisconnected hconnect
    rw [hfound] at hfound'
    cases hfound'
  | _ => exact ⟨_, rfl⟩

theorem foldl_resurrect_pcoinsTip (env : Env) (ctx : AcceptContext) (vResurrect : List CTransaction)
    (state : PoolState) :
    (vResurrect.foldl (resurrect env ctx) state).pcoinsTip.contents = state.pcoinsTip.contents := by
  induction vResurrect generalizing state with
  | nil => rfl
  | cons tx vResurrect ih =>
    rw [List.foldl_cons, ih]
    have hcoins := CTxMemPool.accept_pcoinsTip env ctx tx true false state.pcoinsTip state.pool
    unfold resurrect
    dsimp only
    split <;> exact hcoins

/-- The chain of `l.view`'s best block after both loops is that of the new block. -/
theorem Node.Coherent.best_after (h : node.Coherent)
    (hdisconnected : Disconnected env out pindexNew node pfork vResurrect l)
    (hconnect : connectBlocks env out.io out.nAdjustedTime (node.vConnect pindexNew pfork) l =
      (.ok vDelete, l')) : l'.view.contents.best = some pindexNew := by
  have hfork := hdisconnected.fork
  rw [node.pindexTip_eq, h.tip] at hfork
  have hfork := BlockTree.fork_of_findFork hfork
  have hdown : node.mapBlockIndex.ancestry l.view.contents.best = node.mapBlockIndex.ancestry pfork := by
    refine disconnectBlocks_best (l := node.ledger) rfl ?_
      ((congrArg CoinsMap.best node.ledger_spec.1).trans h.tip) hdisconnected.run
    rw [node.pindexTip_eq, h.tip]
    exact hfork.best
  rw [connectBlocks_best hconnect, Node.vConnect, List.getLast?_reverse]
  have hnew := hfork.new
  rw [BlockTree.ancestry_some] at hnew
  cases habove : node.mapBlockIndex.above (some pindexNew) pfork with
  | cons hash rest =>
    rw [habove, List.cons_append, List.cons.injEq] at hnew
    rw [List.head?_cons, hnew.1]
    rfl
  | nil =>
    rw [habove, List.nil_append, ← hdown] at hnew
    rw [List.head?_nil, Option.none_or]
    cases hbest : l.view.contents.best with
    | none => rw [hbest] at hnew; cases hnew
    | some hash =>
      rw [hbest, BlockTree.ancestry_some, List.cons.injEq] at hnew
      rw [hnew.1]

/-- **A successful call** leads to a coherent node with the new best block. -/
theorem setBestChain_ok (h : node.Coherent) (hindexed : node.mapBlockIndex.Indexed pindexNew)
    (hrun : setBestChain env out connectBest pindexNew node = .ok (.ok (), node')) :
    node'.Coherent ∧ node'.pindexBest = some pindexNew ∧ node'.mapBlockIndex.Extends node.mapBlockIndex ∧
      node.mapBlockIndex.Extends node'.mapBlockIndex ∧ node'.disk.blocks = node.disk.blocks := by
  have hsteps := setBestChain_steps env out connectBest pindexNew node
  rw [hrun] at hsteps
  generalize hresult : (Except.ok (Except.ok (), node') : Call Unit) = result at hsteps
  cases hsteps with
  | @done pfork vResurrect vDelete l l' node₁ hdisconnected hconnect hcoins =>
    cases hresult
    have hkeeps := hdisconnected.connect_keeps hconnect
    have hfork := hdisconnected.fork
    rw [node.pindexTip_eq, h.tip] at hfork
    have hfork := BlockTree.fork_of_findFork hfork
    obtain ⟨pcoinsTip, hnode₁, hcases⟩ : ∃ pcoinsTip, node₁ = { node.accept l' with
        pcoinsTip := pcoinsTip } ∧ (pcoinsTip = l'.view.flushInto ∨
          pcoinsTip = l'.view.flushInto.flush) := by
      rcases Node.writeCoins_spec out pindexNew (node.accept l') with ⟨e, heq, -⟩ | ⟨pcoinsTip, heq, hc⟩
      · rw [heq] at hcoins
        cases congrArg Prod.fst hcoins
      · rw [heq, Prod.mk.injEq] at hcoins
        exact ⟨pcoinsTip, hcoins.2.symm, hc⟩
    have hbest : pcoinsTip.contents.best = some pindexNew := by
      have hinto := CCoinsViewCache.contents_flushInto (hkeeps.tipRead node.ledger_spec.2)
      have hnew := h.best_after hdisconnected hconnect
      rcases hcases with rfl | rfl
      · rw [hinto, hnew]
      · rw [(CCoinsViewCache.viewEq_flush _).2, hinto, hnew]
    -- The index of the new node: that of the cache, with the links moved.
    have htree : node₁.mapBlockIndex = l'.mapBlockIndex := by rw [hnode₁]; rfl
    have habove : node.mapBlockIndex.above node.pindexTip pfork =
        l'.mapBlockIndex.above node.pindexBest pfork := by
      rw [node.pindexTip_eq, h.tip, BlockTree.above, BlockTree.above,
        BlockTree.ancestry_eq hkeeps.entries.extends hkeeps.entries.symm.extends]
      rfl
    have hvConnect : node.vConnect pindexNew pfork =
        (l'.mapBlockIndex.above (some pindexNew) pfork).reverse := by
      rw [Node.vConnect, BlockTree.above, BlockTree.above,
        BlockTree.ancestry_eq hkeeps.entries.extends hkeeps.entries.symm.extends]
      rfl
    have hfork' : l'.mapBlockIndex.Fork node.pindexBest (some pindexNew) pfork := by
      have hsame := fun pindex => BlockTree.ancestry_eq hkeeps.entries.extends
        hkeeps.entries.symm.extends pindex
      have hsame' : ∀ pindex, l'.mapBlockIndex.above pindex pfork =
          node.mapBlockIndex.above pindex pfork := fun pindex => by
        rw [BlockTree.above, BlockTree.above, hsame]
        rfl
      refine ⟨?_, ?_, ?_, ?_⟩ <;> rw [hsame'] <;> simp only [hsame]
      · exact hfork.best
      · exact hfork.new
      · exact hfork.disconnect
      · exact hfork.connect
    have hnext : l'.mapBlockIndex.NextLinks node.pindexBest :=
      BlockTree.nextLinks_congr h.next hkeeps.entries.extends hkeeps.entries.symm.extends
        hkeeps.entries.pnextOf
    have hunlink := BlockTree.extends_foldl BlockTree.extends_unlinkNext
      (l'.mapBlockIndex.above node.pindexBest pfork) l'.mapBlockIndex
    have hlink := BlockTree.extends_foldl BlockTree.extends_linkNext
      (l'.mapBlockIndex.above (some pindexNew) pfork).reverse
      ((l'.mapBlockIndex.above node.pindexBest pfork).foldl BlockTree.unlinkNext l'.mapBlockIndex)
    have hextends := (hlink.1.trans hunlink.1).trans hkeeps.entries.extends
    have hextends' := hkeeps.entries.symm.extends.trans (hunlink.2.trans hlink.2)
    rw [habove, hvConnect]
    refine ⟨⟨?_, ?_, ?_, ?_, ?_, ?_⟩, rfl, ?_, ?_, ?_⟩
    · refine (congrArg CoinsMap.best (foldl_resurrect_pcoinsTip ..)).trans ?_
      rw [hnode₁]
      exact hbest
    · rw [Node.switchTo, htree]
      exact BlockTree.nextLinks_switch hnext hfork'
    · intro best heq
      cases heq
      rw [Node.switchTo, htree]
      exact hextends.indexed hindexed
    · intro best heq
      exact Option.some.inj heq
    · intro best heq
      cases heq
      rfl
    · intro best heq
      cases heq
      rfl
    · rw [Node.switchTo, htree]
      exact hextends
    · rw [Node.switchTo, htree]
      exact hextends'
    · rw [hnode₁]
      exact hkeeps.blocks
  | _ => cases hresult

/-- **A failed reorganisation is atomic.** Whenever `SetBestChain` returns false because a
block or an undo record cannot be read, `DisconnectBlock` fails or `ConnectBlock` fails, at
whatever block, the coins, the best block and its height, all `pnext` links and the memory
pool are as before. -/
theorem setBestChain_atomic (h : node.Coherent) {e : ChainError}
    (hfailure : e = .readBlock ∨ (∃ reason, e = .disconnectBlock reason) ∨
      ∃ reason, e = .connectBlock reason)
    (hrun : setBestChain env out connectBest pindexNew node = .ok (.error e, node')) :
    node'.pcoinsTip.contents = node.pcoinsTip.contents ∧ node'.pindexBest = node.pindexBest ∧
      node'.hashBestChain = node.hashBestChain ∧ node'.nBestHeight = node.nBestHeight ∧
      (∀ hash, (node'.mapBlockIndex.entry hash).map (·.pnext) =
        (node.mapBlockIndex.entry hash).map (·.pnext)) ∧ node'.mempool = node.mempool := by
  have hsame : node'.Unchanged node := by
    refine setBestChain_error h hrun (Node.writeCoins_ne_error ?_ ?_)
    · rintro rfl
      rcases hfailure with h | ⟨_, h⟩ | ⟨_, h⟩ <;> cases h
    · rintro rfl
      rcases hfailure with h | ⟨_, h⟩ | ⟨_, h⟩ <;> cases h
  refine ⟨hsame.coins, hsame.pindexBest, hsame.hashBestChain, hsame.nBestHeight, fun hash => ?_,
    hsame.mempool⟩
  have hnext := hsame.pnext hash
  unfold BlockTree.pnextOf at hnext
  cases he : node.mapBlockIndex.entry hash with
  | none =>
    cases he' : node'.mapBlockIndex.entry hash with
    | none => rfl
    | some e' =>
      obtain ⟨e₀, he₀, -⟩ := hsame.extends' hash e' he'
      rw [he] at he₀
      cases he₀
  | some e₀ =>
    obtain ⟨e', he', -⟩ := hsame.extends_ hash e₀ he
    rw [he, he', Option.bind_some, Option.bind_some] at hnext
    rw [he', Option.map_some, Option.map_some, hnext]

end SetBestChain

def sampleLoaded : Node :=
  loadBlockIndexDB sampleTree (.new ⟨fun _ => none, some 1000⟩) 0 emptyFiles

theorem coherent_sampleLoaded : sampleLoaded.Coherent := by
  refine coherent_loadBlockIndexDB (fun hash => ?_) (fun best h => ?_) _ _
  · rw [BlockTree.pnextOf, entry_sampleTree]
    split <;> rfl
  · rw [CCoinsViewCache.contents_new] at h
    cases h
    exact ⟨_, entry_sampleTree _⟩

theorem new_sampleFirstBlock : sampleLoaded.mapBlockIndex.New
    (newEntry sampleEnv sampleLoaded.mapBlockIndex Ledger.sampleFirstBlock) :=
  new_newEntry (by decide +kernel) (by decide +kernel)

def sampleWithFirst : Node :=
  sampleLoaded.insertBlock sampleEnv Ledger.sampleFirstBlock new_sampleFirstBlock

/-- A second block, whose coinbase claims more than it may. -/
def sampleGreedyBlock : CBlock :=
  ⟨⟨1, 1001, 2, 600, 0x1d0fffff, 1002⟩, [sampleCoinBase 2 600 (5 * COIN)], []⟩

theorem new_sampleGreedyBlock : sampleWithFirst.mapBlockIndex.New
    (newEntry sampleEnv sampleWithFirst.mapBlockIndex sampleGreedyBlock) :=
  new_newEntry (by decide +kernel) (by decide +kernel)

/-- A node that has stored both blocks, with the genesis block as the best one. -/
def sampleForked : Node :=
  sampleWithFirst.insertBlock sampleEnv sampleGreedyBlock new_sampleGreedyBlock

def sampleOutside : Outside :=
  ⟨.good, 1000, fun _ => false, fun _ => true, fun _ => true, 0, true⟩

def errorOf : Call Unit → Option ChainError
  | .ok (.error e, _) => some e
  | _ => none

theorem eq_of_errorOf (call : Call Unit) (e : ChainError) (h : errorOf call = some e) :
    ∃ node, call = .ok (.error e, node) := by
  unfold errorOf at h
  split at h
  · cases h
    exact ⟨_, rfl⟩
  · cases h

theorem setBestChain_atomic_sample :
    ∃ node, setBestChain sampleEnv sampleOutside (connectBestBlock sampleEnv sampleOutside 1) 1002
        sampleForked =
          .ok (.error (.connectBlock (.dos 100 "ConnectBlock() : coinbase pays too much" false)), node) ∧
      node.pindexBest = sampleForked.pindexBest := by
  obtain ⟨node, hrun⟩ := eq_of_errorOf (setBestChain sampleEnv sampleOutside
    (connectBestBlock sampleEnv sampleOutside 1) 1002 sampleForked)
    (.connectBlock (.dos 100 "ConnectBlock() : coinbase pays too much" false))
    (by decide +kernel)
  have hcoherent : sampleForked.Coherent :=
    (coherent_sampleLoaded.insertBlock new_sampleFirstBlock).insertBlock new_sampleGreedyBlock
  exact ⟨node, hrun, (setBestChain_atomic hcoherent (.inr (.inr ⟨_, rfl⟩)) hrun).2.1⟩

theorem eq_ok_of_toOption {ε α : Type} {call : Except ε α} {result : α} (h : call.toOption = some result) :
    call = .ok result := by
  cases call with
  | error e => cases h
  | ok result' =>
    cases h
    rfl

/-- A block whose time is late. -/
def sampleLateBlock : CBlock := sampleBlock 1001 1000 10000 [sampleCoinBase 0 10000 (5 * COIN)]

theorem new_sampleLateBlock : sampleLoaded.mapBlockIndex.New
    (newEntry sampleEnv sampleLoaded.mapBlockIndex sampleLateBlock) :=
  new_newEntry (by decide +kernel) (by decide +kernel)

def sampleWithLate : Node := sampleLoaded.insertBlock sampleEnv sampleLateBlock new_sampleLateBlock

/-- A block on top of it. -/
def sampleLaterBlock : CBlock :=
  ⟨⟨1, 1001, 1, 10000, 0x1d0fffff, 1002⟩, [sampleCoinBase 1 10000 CENT], []⟩

theorem new_sampleLaterBlock : sampleWithLate.mapBlockIndex.New
    (newEntry sampleEnv sampleWithLate.mapBlockIndex sampleLaterBlock) :=
  new_newEntry (by decide +kernel) (by decide +kernel)

def sampleWithLater : Node := sampleWithLate.insertBlock sampleEnv sampleLaterBlock new_sampleLaterBlock

/-- A block beside them, with more trust than both. -/
def sampleSideBlock : CBlock :=
  ⟨⟨1, 1000, 2, 500, 0x1c0fffff, 1003⟩, [sampleCoinBase 2 500 CENT], []⟩

theorem new_sampleSideBlock : sampleWithLater.mapBlockIndex.New
    (newEntry sampleEnv sampleWithLater.mapBlockIndex sampleSideBlock) :=
  new_newEntry (by decide +kernel) (by decide +kernel)

def sampleBranches : Node := sampleWithLater.insertBlock sampleEnv sampleSideBlock new_sampleSideBlock

/-- A call with what `CheckDiskSpace` returns, and a clock. -/
def sampleCall (fDiskSpace : Bool) (nAdjustedTime : Int) (pindexNew : Uint256) (node : Node) : Call Unit :=
  let out := { sampleOutside with nAdjustedTime, fDiskSpace := fun _ => fDiskSpace }
  setBestChain sampleEnv out (connectBestBlock sampleEnv out 1) pindexNew node

/-- **A failed reorganisation moves the best block.** The late blocks are connected; the side block becomes
that of the coins, but not the best one, since the disk is full; then the clock is too early for the late
blocks, the first of which has a successor on the best chain. -/
theorem not_forall_setBestChain_atomic : ∃ r₁ r₂ r₃ : Except ChainError Unit × Node,
    (sampleCall true 10000 1002 sampleBranches).toOption = some r₁ ∧
    (sampleCall false 10000 1003 r₁.2).toOption = some r₂ ∧
    (sampleCall true 1000 1002 r₂.2).toOption = some r₃ ∧
    (∃ reason, r₃.1 = .error (.connectBlock reason)) ∧ r₃.2.pindexBest ≠ r₂.2.pindexBest := by
  have hruns : (sampleCall true 10000 1002 sampleBranches).toOption.bind (fun r₁ =>
      (sampleCall false 10000 1003 r₁.2).toOption.bind fun r₂ =>
        (sampleCall true 1000 1002 r₂.2).toOption.map fun r₃ =>
          (errorOf (.ok r₃), r₂.2.pindexBest, r₃.2.pindexBest)) =
      some (some (.connectBlock (.dos 0 "CheckBlock() : block timestamp too far in the future" false)),
        some 1002, some 1003) := by decide +kernel
  obtain ⟨r₁, h₁, hruns⟩ := Option.bind_eq_some_iff.mp hruns
  obtain ⟨r₂, h₂, hruns⟩ := Option.bind_eq_some_iff.mp hruns
  obtain ⟨r₃, h₃, heq⟩ := Option.map_eq_some_iff.mp hruns
  simp only [Prod.mk.injEq] at heq
  obtain ⟨node, hcall⟩ := eq_of_errorOf (.ok r₃) _ heq.1
  cases hcall
  exact ⟨r₁, r₂, _, h₁, h₂, h₃, ⟨_, rfl⟩, by rw [heq.2.1, heq.2.2]; decide⟩

end Manna
