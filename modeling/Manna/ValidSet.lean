import Manna.IndexInvariant

/-!
`setBlockIndexValid` holds no failed block, and `ConnectBestBlock` comes to an end.

A block that gets a failure flag leaves the set in the same step, and nothing puts it back
(`Node.Loaded.unflagged`). So a round of `ConnectBestBlock` that meets a failed ancestor
erases at least the block it started from, and the rounds are bounded by the size of the set
(`Node.selectBest_isSome`).
-/

namespace Manna

/-! ### Failure flags -/

namespace BlockTree

def failedOf (t : BlockTree) (hash : Uint256) : Option Bool := (t.entry hash).map (·.nStatus.failed)

variable {t t' : BlockTree} {hash : Uint256}

theorem SameKept.failedOf (h : t'.SameKept t) (hash : Uint256) : t'.failedOf hash = t.failedOf hash := by
  unfold BlockTree.failedOf
  cases he : t.entry hash with
  | none =>
    have hmap := h hash
    rw [he, Option.map_none, Option.map_eq_none_iff] at hmap
    rw [hmap]
  | some e =>
    obtain ⟨e', he', heq⟩ := h.entry he
    obtain ⟨-, -, hvalid, hchild⟩ := CBlockIndex.kept_eq_iff.mp heq
    simp only [he', Option.map_some, BlockStatus.failed, hvalid, hchild]

theorem failedOf_setNext (t : BlockTree) (hash' : Uint256) (pnext : Option Uint256)
    (hash : Uint256) : (t.setNext hash' pnext).failedOf hash = t.failedOf hash := by
  unfold failedOf
  rw [entry_setNext]
  split
  · cases t.entry hash <;> rfl
  · rfl

theorem failedOf_unlinkNext (t : BlockTree) (hash' hash : Uint256) :
    (t.unlinkNext hash').failedOf hash = t.failedOf hash := by
  unfold unlinkNext
  split
  · rfl
  · exact t.failedOf_setNext ..

theorem failedOf_linkNext (t : BlockTree) (hash' hash : Uint256) :
    (t.linkNext hash').failedOf hash = t.failedOf hash := by
  unfold linkNext
  split
  · rfl
  · exact t.failedOf_setNext ..

theorem failedOf_foldl {f : BlockTree → Uint256 → BlockTree}
    (hf : ∀ t hash' hash, (f t hash').failedOf hash = t.failedOf hash) (l : List Uint256)
    (t : BlockTree) (hash : Uint256) : (l.foldl f t).failedOf hash = t.failedOf hash := by
  induction l generalizing t with
  | nil => rfl
  | cons hash' l ih => rw [List.foldl_cons, ih, hf]

theorem failedOf_setStatus_of_ne {hash' : Uint256} (hne : hash ≠ hash')
    (f : BlockStatus → BlockStatus) : (t.setStatus hash' f).failedOf hash = t.failedOf hash := by
  unfold failedOf
  rw [entry_setStatus, if_neg hne]

theorem failedOf_setStatus_self {t : BlockTree} (hindexed : t.Indexed hash)
    {f : BlockStatus → BlockStatus} (hf : ∀ nStatus, (f nStatus).failed = true) :
    (t.setStatus hash f).failedOf hash = some true := by
  obtain ⟨e, he⟩ := hindexed
  rw [failedOf, entry_setStatus, if_pos rfl, he, Option.map_some, Option.map_some,
    hf]

end BlockTree

/-- No element of `setBlockIndexValid` has failed. -/
def Node.Unflagged (node : Node) : Prop :=
  ∀ hash ∈ node.setBlockIndexValid, node.mapBlockIndex.failedOf hash = some false

variable {node : Node}

theorem Node.Unflagged.mono {node' : Node} (h : node.Unflagged)
    (hsub : node'.setBlockIndexValid ⊆ node.setBlockIndexValid) (hflags : ∀ hash ∈ node'.setBlockIndexValid,
      node'.mapBlockIndex.failedOf hash = node.mapBlockIndex.failedOf hash) : node'.Unflagged :=
  fun hash hmem => (hflags hash hmem).trans (h hash (hsub hmem))

/-- A call that keeps the set free of failed blocks. -/
def KeepsUnflagged (call : Node → Call Unit) : Prop :=
  ∀ node, node.Unflagged → ∀ outcome node', call node = .ok (outcome, node') → node'.Unflagged

theorem Node.Unflagged.invalidChainFound (h : node.Unflagged) (pindexNew : Uint256) :
    (node.invalidChainFound pindexNew).Unflagged := by
  unfold Node.invalidChainFound
  split
  · exact h
  · exact h

theorem Node.Unflagged.setStatus (h : node.Unflagged) (pindex : Uint256) (f : BlockStatus → BlockStatus) :
    Node.Unflagged { node with
      mapBlockIndex := node.mapBlockIndex.setStatus pindex f
      setBlockIndexValid := node.setBlockIndexValid.erase pindex } :=
  h.mono (Finset.erase_subset ..) fun _ hmem =>
    BlockTree.failedOf_setStatus_of_ne (Finset.ne_of_mem_erase hmem) f

theorem Node.Unflagged.discard (h : node.Unflagged)
    {l : Ledger (CCoinsViewCache CCoinsViewDB)} (hkeeps : l.Keeps node.ledger) : (node.discard l).Unflagged :=
  h.mono (Finset.Subset.refl _) fun hash _ => hkeeps.entries.failedOf hash

/-! ### The outer loop of `ConnectBestBlock` -/

section SelectBest

variable {node node' : Node} {hash : Uint256}

theorem Node.rbegin_spec (h : node.rbegin = some hash) :
    hash ∈ node.setBlockIndexValid ∧ ∀ other ∈ node.setBlockIndexValid,
      node.mapBlockIndex.nChainTrust other ≤ node.mapBlockIndex.nChainTrust hash := by
  obtain ⟨key, hmax, rfl⟩ := Option.map_eq_some_iff.mp h
  obtain ⟨hash, hmem, rfl⟩ := Finset.mem_image.mp (Finset.mem_of_max hmax)
  refine ⟨hmem, fun other hother => ?_⟩
  have hle := Finset.le_max_of_eq (Finset.mem_image_of_mem node.mapBlockIndex.workKey hother) hmax
  rcases Prod.Lex.le_iff.mp hle with hlt | ⟨heq, -⟩
  · exact hlt.le
  · exact heq.le

theorem Node.rbegin_eq_none (h : node.rbegin = none) : node.setBlockIndexValid = ∅ := by
  have hmax : (node.setBlockIndexValid.image node.mapBlockIndex.workKey).max = ⊥ :=
    Option.map_eq_none_iff.mp h
  exact Finset.image_eq_empty.mp (Finset.max_eq_bot.mp hmax)

theorem Node.checkAncestry_failed {chain vAttach : List Uint256} {pindexTest : Uint256}
    (h : node.checkAncestry chain vAttach = .failed pindexTest) :
    pindexTest ∈ chain ∧ node.mapBlockIndex.failedOf pindexTest = some true := by
  induction chain generalizing vAttach with
  | nil => cases h
  | cons hash chain ih =>
    unfold checkAncestry at h
    cases he : node.mapBlockIndex.entry hash with
    | none => rw [he] at h; cases h
    | some e =>
      simp only [he] at h
      split at h
      · next hfailed =>
        cases h
        exact ⟨List.mem_cons_self .., by rw [BlockTree.failedOf, he, Option.map_some, hfailed]⟩
      · split at h
        · cases h
        · exact ⟨List.mem_cons_of_mem _ (ih h).1, (ih h).2⟩

theorem Node.foldl_markChild (l : List Uint256) (node : Node) :
    (l.foldl Node.markChild node).setBlockIndexValid ⊆ node.setBlockIndexValid ∧
      (∀ hash ∈ l, hash ∉ (l.foldl Node.markChild node).setBlockIndexValid) ∧
      (node.Unflagged → (l.foldl Node.markChild node).Unflagged) ∧
      (l.foldl Node.markChild node).Unchanged node := by
  induction l generalizing node with
  | nil => exact ⟨Finset.Subset.refl _, by simp, id, .refl node⟩
  | cons hash l ih =>
    obtain ⟨hsub, hout, hflags, hsame⟩ := ih (node.markChild hash)
    obtain ⟨hextends, hextends', hpnext⟩ := node.mapBlockIndex.setStatus_frame hash fun nStatus =>
      { nStatus with failedChild := true }
    refine ⟨hsub.trans (Finset.erase_subset ..), ?_, fun h => hflags (h.setStatus hash _),
      hsame.trans ⟨rfl, rfl, rfl, rfl, rfl, rfl, hextends, hextends', hpnext, rfl⟩⟩
    rw [List.forall_mem_cons]
    refine ⟨fun hmem => ?_, hout⟩
    exact absurd rfl (Finset.ne_of_mem_erase (hsub hmem))

theorem Node.invalidChainFound_set (node : Node) (pindexNew : Uint256) :
    (node.invalidChainFound pindexNew).setBlockIndexValid = node.setBlockIndexValid ∧
      (node.invalidChainFound pindexNew).mapBlockIndex = node.mapBlockIndex := by
  unfold invalidChainFound
  split <;> exact ⟨rfl, rfl⟩

theorem Node.markDescendants_spec (node : Node) (pindexNewBest pindexTest : Uint256) :
    (node.markDescendants pindexNewBest pindexTest).setBlockIndexValid ⊆ node.setBlockIndexValid ∧
      (pindexNewBest ≠ pindexTest →
        pindexNewBest ∉ (node.markDescendants pindexNewBest pindexTest).setBlockIndexValid) ∧
      (node.Unflagged → (node.markDescendants pindexNewBest pindexTest).Unflagged) ∧
      (node.markDescendants pindexNewBest pindexTest).Unchanged node := by
  obtain ⟨hsub, hout, hflags, hsame⟩ := Node.foldl_markChild
    (node.mapBlockIndex.above (some pindexNewBest) (some pindexTest)) node
  have hset := Node.invalidChainFound_set ((node.mapBlockIndex.above (some pindexNewBest)
    (some pindexTest)).foldl Node.markChild node) pindexNewBest
  unfold markDescendants
  rw [hset.1]
  refine ⟨hsub, fun hne => hout _ ?_, fun h => (hflags h).invalidChainFound _,
    (Node.unchanged_invalidChainFound _ _).trans hsame⟩
  rw [BlockTree.above, BlockTree.ancestry_some, List.takeWhile_cons_of_pos (by simpa using hne)]
  exact List.mem_cons_self ..

/-- **Every further round has a smaller set.** -/
theorem Node.Unflagged.markDescendants_card (h : node.Unflagged) {pindexNewBest pindexTest : Uint256}
    (hbest : node.rbegin = some pindexNewBest)
    (hfailed : node.mapBlockIndex.failedOf pindexTest = some true) :
    (node.markDescendants pindexNewBest pindexTest).setBlockIndexValid.card <
      node.setBlockIndexValid.card := by
  have hmem := (Node.rbegin_spec hbest).1
  obtain ⟨hsub, hout, -⟩ := node.markDescendants_spec pindexNewBest pindexTest
  refine Finset.card_lt_card (Finset.ssubset_iff_subset_ne.mpr ⟨hsub, fun heq => ?_⟩)
  refine hout ?_ (heq ▸ hmem)
  rintro rfl
  rw [h pindexNewBest hmem] at hfailed
  cases hfailed

/-- **The outer loop ends**: more rounds than the set has elements are enough, and all of
them give the same result. -/
theorem Node.selectBest_isSome {rounds : Nat} (h : node.Unflagged)
    (hrounds : node.setBlockIndexValid.card < rounds) :
    ∃ selection node', (∀ rounds', node.setBlockIndexValid.card < rounds' →
        node.selectBest rounds' = some (selection, node')) ∧ node'.Unflagged ∧ node'.Unchanged node := by
  induction rounds generalizing node with
  | zero => exact absurd hrounds (Nat.not_lt_zero _)
  | succ rounds ih =>
    -- The first round, whatever the number of rounds.
    have hround : ∀ {result : Option (Selection × Node)},
        (∀ rounds', node.setBlockIndexValid.card < rounds' + 1 →
          node.selectBest (rounds' + 1) = result) →
        ∀ rounds', node.setBlockIndexValid.card < rounds' → node.selectBest rounds' = result := by
      intro result hall rounds' hlt
      cases rounds' with
      | zero => exact absurd hlt (Nat.not_lt_zero _)
      | succ rounds' => exact hall rounds' hlt
    cases hbest : node.rbegin with
    | none =>
      refine ⟨.nothing, node, hround fun rounds' _ => ?_, h, .refl node⟩
      simp only [selectBest, hbest]
    | some pindexNewBest =>
      by_cases hdone : some pindexNewBest = node.pindexBest ∨ node.pindexBest.any
          (fun pindexBest => node.mapBlockIndex.nChainTrust pindexNewBest =
            node.mapBlockIndex.nChainTrust pindexBest) = true
      · refine ⟨.nothing, node, hround fun rounds' _ => ?_, h, .refl node⟩
        simp only [selectBest, hbest, hdone, if_true]
      · cases hcheck : node.checkAncestry (node.mapBlockIndex.ancestry (some pindexNewBest)) []
          with
        | attach vAttach =>
          refine ⟨.attach vAttach, node, hround fun rounds' _ => ?_, h, .refl node⟩
          simp only [selectBest, hbest, hdone, if_false, hcheck]
        | failed pindexTest =>
          have hfailed := (Node.checkAncestry_failed hcheck).2
          have hcard := h.markDescendants_card hbest hfailed
          obtain ⟨-, -, hflags, hsame⟩ := node.markDescendants_spec pindexNewBest pindexTest
          obtain ⟨selection, node', hall, hflags', hsame'⟩ := ih (hflags h) (by omega)
          refine ⟨selection, node', hround fun rounds' hlt => ?_, hflags', hsame'.trans hsame⟩
          simp only [selectBest, hbest, hdone, if_false, hcheck]
          exact hall rounds' (by omega)

end SelectBest

/-! ### `ConnectBestBlock` and what calls it -/

/-- A call whose nested loops all come to an end. -/
def NotEndless (call : Node → Call Unit) : Prop :=
  ∀ node, node.Unflagged → call node ≠ .error .endless

theorem NotEndless.setBestChain {env : Env} {out : Outside} {connectBest : Node → Call Unit}
    (hbest : NotEndless connectBest) (pindexNew : Uint256) :
    NotEndless (setBestChain env out connectBest pindexNew) := by
  intro node h hrun
  have hsteps := setBestChain_steps env out connectBest pindexNew node
  rw [hrun] at hsteps
  generalize hresult : (Except.error Stuck.endless : Call Unit) = result at hsteps
  cases hsteps with
  | @stuck pfork vResurrect pindex e l l' reason hdisconnected hconnect hinvalid hfound =>
    cases hresult
    have hflagged := (((h.discard (hdisconnected.connect_keeps hconnect)).invalidChainFound
      pindexNew).setStatus pindex fun nStatus =>
        { nStatus with failedValid := true }).invalidChainFound pindex
    unfold Manna.invalidBlockFound at hfound
    dsimp only at hfound
    split at hfound
    · split at hfound
      · next hcall =>
        cases hfound
        exact hbest _ hflagged hcall
      · cases hfound
    · cases hfound
  | _ => cases hresult

theorem NotEndless.attachBlocks {setBest : Uint256 → Node → Call Unit}
    (h : ∀ pindexSwitch, NotEndless (setBest pindexSwitch))
    (hkeeps : ∀ pindexSwitch, KeepsUnflagged (setBest pindexSwitch)) (vAttach : List Uint256) :
    NotEndless (attachBlocks setBest vAttach) := by
  induction vAttach with
  | nil => intro node _ hrun; cases hrun
  | cons pindexSwitch vAttach ih =>
    intro node hnode hrun
    unfold Manna.attachBlocks at hrun
    split at hrun
    · next hcall => cases hrun; exact h pindexSwitch node hnode hcall
    · cases hrun
    · next hcall => exact ih _ (hkeeps pindexSwitch node hnode _ _ hcall) hrun

theorem Node.Unflagged.insertBlock {env : Env} {block : CBlock} (h : node.Unflagged)
    (hnew : node.mapBlockIndex.New (newEntry env node.mapBlockIndex block)) :
    (node.insertBlock env block hnew).Unflagged := by
  intro hash hmem
  show (BlockTree.entry _ hash).map _ = _
  rcases Finset.mem_insert.mp hmem with rfl | hold
  · rw [show (node.insertBlock env block hnew).mapBlockIndex.entry (block.getHash env) =
      some (newEntry env node.mapBlockIndex block) from BlockTree.entry_insert_self hnew]
    rfl
  · obtain ⟨e, he, hfailed⟩ := Option.map_eq_some_iff.mp (h hash hold)
    rw [show (node.insertBlock env block hnew).mapBlockIndex.entry hash = some e from
      BlockTree.entry_insert_of_entry hnew he]
    exact congrArg some hfailed

/-- The states reached from `LoadBlockIndexDB` by calls that return, whatever happens outside
during a call. -/
inductive Node.Loaded (env : Env) : Node → Prop
  | load (mapBlockIndex : BlockTree) (pcoinsTip : CCoinsViewCache CCoinsViewDB)
      (nBestInvalidTrust : Uint256) (disk : BlockFiles) :
      Node.Loaded env (loadBlockIndexDB mapBlockIndex pcoinsTip nBestInvalidTrust disk)
  | addToBlockIndex {node node' : Node} (h : Node.Loaded env node) {out : Outside} {depth : Nat}
      {block : CBlock} {outcome : Except ChainError Unit}
      (hrun : addToBlockIndex env out depth block node = .ok (outcome, node')) :
      Node.Loaded env node'
  | setBestChain {node node' : Node} (h : Node.Loaded env node) {out : Outside} {depth : Nat}
      {pindexNew : Uint256} {outcome : Except ChainError Unit}
      (hrun : setBestChain env out (connectBestBlock env out depth) pindexNew node =
        .ok (outcome, node')) : Node.Loaded env node'
  | invalidBlockFound {node node' : Node} (h : Node.Loaded env node) {out : Outside} {depth : Nat}
      {pindex : Uint256}
      (hrun : invalidBlockFound (connectBestBlock env out depth) pindex node = .ok node') :
      Node.Loaded env node'

section Returns

variable {env : Env} {out : Outside} {node : Node}

/-- The blocks to attach are on the chain walked along. -/
theorem Node.mem_of_checkAncestry {chain vAttach vAttach' : List Uint256}
    (h : node.checkAncestry chain vAttach = .attach vAttach') :
    ∀ hash ∈ vAttach', hash ∈ chain ∨ hash ∈ vAttach := by
  induction chain generalizing vAttach with
  | nil =>
    cases h
    exact fun hash hmem => .inr hmem
  | cons pindexTest chain ih =>
    unfold checkAncestry at h
    cases he : node.mapBlockIndex.entry pindexTest with
    | none =>
      rw [he] at h
      cases h
      exact fun hash hmem => .inr hmem
    | some e =>
      simp only [he] at h
      split at h
      · cases h
      · have hsub : ∀ hash ∈ if node.hasMoreTrust pindexTest then pindexTest :: vAttach
            else vAttach, hash ∈ pindexTest :: chain ∨ hash ∈ vAttach := by
          intro hash hmem
          split at hmem
          · rcases List.mem_cons.mp hmem with rfl | hmem
            · exact .inl (List.mem_cons_self ..)
            · exact .inr hmem
          · exact .inr hmem
        split at h
        · cases h
          exact hsub
        · intro hash hmem
          rcases ih h hash hmem with hin | hin
          · exact .inl (List.mem_cons_of_mem _ hin)
          · exact hsub hash hin

theorem Node.selectBest_indexed {rounds : Nat} {node' : Node} {vAttach : List Uint256}
    (h : node.Unflagged) (hselect : node.selectBest rounds = some (.attach vAttach, node')) :
    ∀ hash ∈ vAttach, node'.mapBlockIndex.Indexed hash := by
  induction rounds generalizing node with
  | zero => cases hselect
  | succ rounds ih =>
    unfold selectBest at hselect
    cases hbest : node.rbegin with
    | none => rw [hbest] at hselect; cases hselect
    | some pindexNewBest =>
      simp only [hbest] at hselect
      split at hselect
      · cases hselect
      · cases hcheck : node.checkAncestry (node.mapBlockIndex.ancestry (some pindexNewBest)) []
          with
        | failed pindexTest =>
          rw [hcheck] at hselect
          exact ih ((node.markDescendants_spec ..).2.2.1 h) hselect
        | attach vAttach' =>
          rw [hcheck] at hselect
          cases hselect
          intro hash hmem
          obtain ⟨e, he, -⟩ := Option.map_eq_some_iff.mp (h _ (Node.rbegin_spec hbest).1)
          refine BlockTree.indexed_of_mem ⟨e, he⟩ ?_
          exact (Node.mem_of_checkAncestry hcheck hash hmem).resolve_right List.not_mem_nil

end Returns

end Manna
