import Manna.AcceptBlock
import Manna.CheckBlock
import Manna.MinWork

/-!
Orphan blocks (`main.cpp`: `ProcessBlock`).

A block whose predecessor is unknown waits in `mapOrphanBlocks` under its hash and in
`mapOrphanBlocksByPrev` under its predecessor's. When a block is accepted, a work queue accepts
what waits for it, and what waits for that.

* `ProcessCall.kept_run`: what one call keeps of the two maps;
* `processBlock_isOk`: the work queue is worked off, so a call returns when `AcceptBlock` does;
* `ProcessCall.detached_iff`: after every call no waiting block has its predecessor in the
  index, if and only if no `AcceptBlock` returns false for a block that it has entered and that
  another one waits for.
-/

namespace Manna

/-- `mapOrphanBlocks`, and the multimap `mapOrphanBlocksByPrev` in the order of insertion. -/
structure OrphanBlocks where
  mapOrphanBlocks : Finmap fun _ : Uint256 => CBlock
  mapOrphanBlocksByPrev : List (Uint256 × CBlock)

namespace OrphanBlocks

def empty : OrphanBlocks := ⟨∅, []⟩

/-- The range from `lower_bound(hashPrev)` to `upper_bound(hashPrev)`. -/
def waiting (orphans : OrphanBlocks) (hashPrev : Uint256) : List CBlock :=
  (orphans.mapOrphanBlocksByPrev.filter fun entry => entry.1 = hashPrev).map Prod.snd

def store (env : Env) (block : CBlock) (orphans : OrphanBlocks) : OrphanBlocks where
  mapOrphanBlocks := orphans.mapOrphanBlocks.insert (block.getHash env) block
  mapOrphanBlocksByPrev := orphans.mapOrphanBlocksByPrev ++ [(block.hashPrevBlock, block)]

def eraseHash (hash : Uint256) (orphans : OrphanBlocks) : OrphanBlocks :=
  { orphans with mapOrphanBlocks := orphans.mapOrphanBlocks.erase hash }

/-- `mapOrphanBlocksByPrev.erase(hashPrev)`. -/
def erasePrev (hashPrev : Uint256) (orphans : OrphanBlocks) : OrphanBlocks :=
  { orphans with
    mapOrphanBlocksByPrev :=
      orphans.mapOrphanBlocksByPrev.filter fun entry => entry.1 ≠ hashPrev }

end OrphanBlocks

/-- What `ProcessBlock` works on. -/
structure ProcessState where
  node : Node
  orphans : OrphanBlocks

/-! ### ProcessBlock -/

/-- Why `ProcessBlock` returns false. -/
inductive ProcessError where
  | rejected (e : Halt)
  /-- `ProcessBlock() : AcceptBlock FAILED`. -/
  | acceptBlock (e : AcceptError)
deriving DecidableEq, Repr

/-- The checks of `ProcessBlock` against the last checkpoint. -/
def checkLastCheckpoint (env : Env) (block : CBlock) (node : Node) : Except Halt Unit :=
  match getLastCheckpoint env node.mapBlockIndex with
  | none => .ok ()
  | some pcheckpoint =>
    if block.hashPrevBlock ≠ node.hashBestChain then checkMinWork pcheckpoint block.toCBlockHeader
    else .ok ()

def processBlockChecks (env : Env) (nAdjustedTime : Int) (block : CBlock) (s : ProcessState) :
    Except Halt Unit :=
  if (s.node.mapBlockIndex.entry (block.getHash env)).isSome then
    .error (.invalid "ProcessBlock() : already have block")
  else if (s.orphans.mapOrphanBlocks.lookup (block.getHash env)).isSome then
    .error (.invalid "ProcessBlock() : already have block (orphan)")
  else
    match checkBlock env nAdjustedTime block true true with
    | .error e => .error e
    | .ok _ =>
      match checkLastCheckpoint env block s.node with
      | .error e => .error e
      | .ok _ =>
        if block.getBlockTime > nAdjustedTime + nMaxClockDrift then
          .error (.dos 10 (s!"ProcessBlock(): block timestamp {block.getBlockTime} is " ++
            s!"{block.getBlockTime - nAdjustedTime}s in the future") false)
        else .ok ()

/-- `pblock->hashPrevBlock != 0 && !mapBlockIndex.count(pblock->hashPrevBlock)`. -/
def isOrphan (block : CBlock) (node : Node) : Bool :=
  decide (block.hashPrevBlock ≠ 0) && (node.mapBlockIndex.entry block.hashPrevBlock).isNone

/-- The inner loop of the work queue, over the blocks that wait for one. Calls of `AcceptBlock`
are numbered; the value is the queue and the number of the next call. -/
def acceptOrphans (env : Env) (out : Nat → AcceptOutside) :
    List CBlock → Nat → List Uint256 → ProcessState → Except Stuck (List Uint256 × Nat × ProcessState)
  | [], n, vWorkQueue, s => .ok (vWorkQueue, n, s)
  | pblockOrphan :: rest, n, vWorkQueue, s =>
    match acceptBlock env (out n) pblockOrphan s.node with
    | .error stuck => .error stuck
    | .ok (accepted, node) =>
      acceptOrphans env out rest (n + 1)
        (if accepted.toOption.isSome then vWorkQueue ++ [pblockOrphan.getHash env] else vWorkQueue)
        ⟨node, s.orphans.eraseHash (pblockOrphan.getHash env)⟩

def drain (env : Env) (out : Nat → AcceptOutside) :
    Nat → List Uint256 → Nat → ProcessState → Except Stuck ProcessState
  | 0, _, _, _ => .error .endless
  | _ + 1, [], _, s => .ok s
  | rounds + 1, hashPrev :: vWorkQueue, n, s =>
    match acceptOrphans env out (s.orphans.waiting hashPrev) n vWorkQueue s with
    | .error stuck => .error stuck
    | .ok (vWorkQueue, n, s) =>
      drain env out rounds vWorkQueue n { s with orphans := s.orphans.erasePrev hashPrev }

/-- The rounds given are enough for every queue (`drain_isOk`). -/
def drainRounds (s : ProcessState) : Nat := s.orphans.mapOrphanBlocksByPrev.length + 2

/-- `ProcessBlock`: `out` is what its calls of `AcceptBlock` meet, one after the other, and
`pfrom` says whether the block came from a peer. -/
def processBlock (env : Env) (out : Nat → AcceptOutside) (pfrom : Bool) (block : CBlock)
    (s : ProcessState) : Except Stuck (Except ProcessError Unit × ProcessState) :=
  match processBlockChecks env (out 0).out.nAdjustedTime block s with
  | .error e => .ok (.error (.rejected e), s)
  | .ok _ =>
    if isOrphan block s.node then
      .ok (.ok (), if pfrom then { s with orphans := s.orphans.store env block } else s)
    else
      match acceptBlock env (out 0) block s.node with
      | .error stuck => .error stuck
      | .ok (.error e, node) => .ok (.error (.acceptBlock e), { s with node := node })
      | .ok (.ok _, node) =>
        match drain env out (drainRounds s) [block.getHash env] 1 { s with node := node } with
        | .error stuck => .error stuck
        | .ok s => .ok (.ok (), s)

/-! ### What holds of the maps -/

namespace OrphanBlocks

/-- The two maps hold the same blocks: each under its hash, and under its predecessor's. -/
structure Agree (env : Env) (orphans : OrphanBlocks) : Prop where
  lookup : ∀ hash block, orphans.mapOrphanBlocks.lookup hash = some block ↔
    block.getHash env = hash ∧ (block.hashPrevBlock, block) ∈ orphans.mapOrphanBlocksByPrev
  keyed : ∀ entry ∈ orphans.mapOrphanBlocksByPrev, entry.1 = entry.2.hashPrevBlock
  nodup : (orphans.mapOrphanBlocksByPrev.map fun entry => entry.2.getHash env).Nodup

variable {env : Env} {orphans : OrphanBlocks}

theorem mem_waiting {hashPrev : Uint256} {block : CBlock} :
    block ∈ orphans.waiting hashPrev ↔ (hashPrev, block) ∈ orphans.mapOrphanBlocksByPrev := by
  unfold waiting
  constructor
  · intro hmem
    obtain ⟨⟨prev, block'⟩, hentry, rfl⟩ := List.mem_map.mp hmem
    obtain ⟨hin, hprev⟩ := List.mem_filter.mp hentry
    exact of_decide_eq_true hprev ▸ hin
  · intro hin
    exact List.mem_map.mpr ⟨(hashPrev, block), List.mem_filter.mpr ⟨hin, decide_eq_true rfl⟩, rfl⟩

theorem agree_empty : (empty).Agree env :=
  ⟨fun hash block => by simp [empty], nofun, List.nodup_nil⟩

/-- A block of a new hash is stored in both maps. -/
theorem Agree.store (h : orphans.Agree env) {block : CBlock}
    (hnew : orphans.mapOrphanBlocks.lookup (block.getHash env) = none) :
    (orphans.store env block).Agree env where
  lookup hash block' := by
    unfold OrphanBlocks.store
    by_cases hhash : hash = block.getHash env
    · subst hhash
      rw [Finmap.lookup_insert, List.mem_append]
      constructor
      · intro heq
        obtain rfl := Option.some.inj heq
        exact ⟨rfl, .inr List.mem_cons_self⟩
      · rintro ⟨hsame, hold | hself⟩
        · rw [(h.lookup _ _).mpr ⟨hsame, hold⟩] at hnew
          cases hnew
        · rw [List.mem_singleton, Prod.mk.injEq] at hself
          rw [hself.2]
    · rw [Finmap.lookup_insert_of_ne _ hhash, h.lookup, List.mem_append]
      refine and_congr_right fun hsame => (or_iff_left fun hself => ?_).symm
      rw [List.mem_singleton, Prod.mk.injEq] at hself
      exact hhash (hsame.symm.trans (congrArg _ hself.2))
  keyed entry hmem := by
    rcases List.mem_append.mp hmem with hold | hself
    · exact h.keyed entry hold
    · rw [List.mem_singleton.mp hself]
  nodup := by
    unfold OrphanBlocks.store
    rw [List.map_append, List.nodup_append]
    refine ⟨h.nodup, List.nodup_singleton _, fun a ha b hb => ?_⟩
    obtain ⟨entry, hmem, rfl⟩ := List.mem_map.mp ha
    rw [List.map_singleton, List.mem_singleton] at hb
    rintro rfl
    have hkeyed := h.keyed entry hmem
    have hfound := (h.lookup (entry.2.getHash env) entry.2).mpr ⟨rfl, hkeyed ▸ hmem⟩
    rw [hb, hnew] at hfound
    cases hfound

theorem Agree.erasePrev (h : orphans.Agree env) {hashPrev : Uint256}
    {mapOrphanBlocks : Finmap fun _ : Uint256 => CBlock} (herased : ∀ hash, mapOrphanBlocks.lookup hash =
      if hash ∈ (orphans.waiting hashPrev).map (CBlock.getHash env) then none
      else orphans.mapOrphanBlocks.lookup hash) :
    (erasePrev hashPrev ⟨mapOrphanBlocks, orphans.mapOrphanBlocksByPrev⟩).Agree env where
  lookup hash block := by
    unfold OrphanBlocks.erasePrev
    simp only [List.mem_filter, decide_eq_true_eq]
    rw [herased]
    by_cases hmem : hash ∈ (orphans.waiting hashPrev).map (CBlock.getHash env)
    · rw [if_pos hmem]
      refine iff_of_false nofun ?_
      rintro ⟨hsame, hin, hne⟩
      obtain ⟨other, hwaits, hother⟩ := List.mem_map.mp hmem
      -- two entries of one hash are the same entry
      have hentry := mem_waiting.mp hwaits
      have heq := List.inj_on_of_nodup_map h.nodup hin hentry (hsame.trans hother.symm)
      exact hne (congrArg Prod.fst heq)
    · rw [if_neg hmem, h.lookup]
      refine and_congr_right fun hsame => (and_iff_left_of_imp fun hin => ?_).symm
      intro hprev
      refine hmem (List.mem_map.mpr ⟨block, mem_waiting.mpr (hprev ▸ hin), hsame⟩)
  keyed entry hmem := h.keyed entry (List.mem_filter.mp hmem).1
  nodup := h.nodup.sublist (List.filter_sublist.map _)

end OrphanBlocks

/-! ### Who waits for an indexed block -/

/-- Waiting blocks whose predecessor is indexed wait for one of the hashes given. -/
def ProcessState.Waits (s : ProcessState) (hashes : List Uint256) : Prop :=
  ∀ entry ∈ s.orphans.mapOrphanBlocksByPrev, s.node.mapBlockIndex.Indexed entry.1 → entry.1 ∈ hashes

/-- No stored block has its predecessor in the index. -/
def ProcessState.Detached (s : ProcessState) : Prop :=
  ∀ hash block, s.orphans.mapOrphanBlocks.lookup hash = some block →
    ¬ s.node.mapBlockIndex.Indexed block.hashPrevBlock

theorem ProcessState.detached_iff_not_indexed {s : ProcessState} {env : Env} (h : s.orphans.Agree env) :
    s.Detached ↔ s.Waits [] := by
  constructor
  · intro hdetached entry hmem hindexed
    have hkeyed := h.keyed entry hmem
    have hlookup := (h.lookup (entry.2.getHash env) entry.2).mpr ⟨rfl, hkeyed ▸ hmem⟩
    exact absurd (hkeyed ▸ hindexed) (hdetached _ _ hlookup)
  · intro hwaits hash block hlookup hindexed
    exact absurd (hwaits _ ((h.lookup hash block).mp hlookup).2 hindexed) List.not_mem_nil

section Settles

variable {env : Env} {out : Nat → AcceptOutside} {P : Node → Prop}

/-- `AcceptBlock` returns false for a block that it has entered in the index. -/
def FailsIndexed (env : Env) (o : AcceptOutside) (block : CBlock) (node : Node) : Prop :=
  ∃ e node', acceptBlock env o block node = .ok (.error e, node') ∧
    ¬ node.mapBlockIndex.Indexed (block.getHash env) ∧
    node'.mapBlockIndex.Indexed (block.getHash env)

/-- The condition on a call of `AcceptBlock`: nothing waits for a block that fails in the index. -/
def AcceptSettles (env : Env) (o : AcceptOutside) (block : CBlock) (s : ProcessState) : Prop :=
  FailsIndexed env o block s.node → s.orphans.waiting (block.getHash env) = []

/-- The condition on the calls of the inner loop. -/
def OrphansSettle (env : Env) (out : Nat → AcceptOutside) : List CBlock → Nat → ProcessState → Prop
  | [], _, _ => True
  | pblockOrphan :: rest, n, s =>
    AcceptSettles env (out n) pblockOrphan s ∧
      ∀ accepted node, acceptBlock env (out n) pblockOrphan s.node = .ok (accepted, node) →
        OrphansSettle env out rest (n + 1) ⟨node, s.orphans.eraseHash (pblockOrphan.getHash env)⟩

def DrainSettles (env : Env) (out : Nat → AcceptOutside) :
    Nat → List Uint256 → Nat → ProcessState → Prop
  | 0, _, _, _ => True
  | _ + 1, [], _, _ => True
  | rounds + 1, hashPrev :: vWorkQueue, n, s =>
    OrphansSettle env out (s.orphans.waiting hashPrev) n s ∧
      ∀ vWorkQueue' n' s', acceptOrphans env out (s.orphans.waiting hashPrev) n vWorkQueue s =
          .ok (vWorkQueue', n', s') →
        DrainSettles env out rounds vWorkQueue' n'
          { s' with orphans := s'.orphans.erasePrev hashPrev }

/-- **One call of `AcceptBlock`**, with its block in the queue where it was accepted: who waited
for the queue before does so after, unless the block failed in the index with another waiting. -/
theorem waits_acceptBlock {o : AcceptOutside} {block : CBlock} {s : ProcessState} {node' : Node}
    {accepted : Except AcceptError Unit} (hashes : List Uint256) (orphans : OrphanBlocks)
    (hhashes : ∀ hash ∈ hashes, s.node.mapBlockIndex.Indexed hash)
    (hrun : acceptBlock env o block s.node = .ok (accepted, node'))
    (hprev : orphans.mapOrphanBlocksByPrev = s.orphans.mapOrphanBlocksByPrev) :
    let hashes' := if accepted.toOption.isSome then hashes ++ [block.getHash env] else hashes
    (∀ hash ∈ hashes', node'.mapBlockIndex.Indexed hash) ∧
      ((⟨node', orphans⟩ : ProcessState).Waits hashes' ↔
        s.Waits hashes ∧ AcceptSettles env o block s) := by
  dsimp only
  unfold ProcessState.Waits
  dsimp only
  rw [hprev]
  rcases acceptBlock_indexed hrun with ⟨hsame, e, rfl⟩ | ⟨hfresh, hadded⟩
  · -- nothing was entered
    have hsettles : AcceptSettles env o block s := by
      rintro ⟨e', node₁, hrun', hnot, hin⟩
      rw [hrun] at hrun'
      cases hrun'
      exact absurd ((hsame _).mp hin) hnot
    simp only [hsame]
    exact ⟨hhashes, (and_iff_left hsettles).symm⟩
  · cases accepted with
    | ok _ =>
      have hsettles : AcceptSettles env o block s := by
        rintro ⟨e', node₁, hrun', -⟩
        rw [hrun] at hrun'
        cases hrun'
      rw [if_pos (by rfl)]
      refine ⟨fun hash hmem => (hadded hash).mpr ?_, ?_, ?_⟩
      · rcases List.mem_append.mp hmem with hold | hself
        · exact .inl (hhashes hash hold)
        · exact .inr (List.mem_singleton.mp hself)
      · refine fun hwaits => ⟨fun entry hmem hindexed => ?_, hsettles⟩
        rcases List.mem_append.mp (hwaits entry hmem ((hadded _).mpr (.inl hindexed))) with
          hold | hself
        · exact hold
        · rw [List.mem_singleton.mp hself] at hindexed
          exact absurd hindexed hfresh
      · rintro ⟨hwaits, -⟩ entry hmem hindexed
        rcases (hadded _).mp hindexed with hold | hself
        · exact List.mem_append_left _ (hwaits entry hmem hold)
        · exact List.mem_append_right _ (List.mem_singleton.mpr hself)
    | error e =>
      -- the block is in the index, and it is not in the queue
      have hfails : FailsIndexed env o block s.node := ⟨e, node', hrun, hfresh, (hadded _).mpr (.inr rfl)⟩
      rw [if_neg (by exact nofun)]
      refine ⟨fun hash hmem => (hadded hash).mpr (.inl (hhashes hash hmem)), ?_, ?_⟩
      · refine fun hwaits => ⟨fun entry hmem hindexed =>
          hwaits entry hmem ((hadded _).mpr (.inl hindexed)), fun _ => ?_⟩
        refine List.eq_nil_iff_forall_not_mem.mpr fun other hother => ?_
        have hin := hwaits _ (OrphanBlocks.mem_waiting.mp hother) ((hadded _).mpr (.inr rfl))
        exact hfresh (hhashes _ hin)
      · rintro ⟨hwaits, hsettles⟩ entry hmem hindexed
        rcases (hadded _).mp hindexed with hold | hself
        · exact hwaits entry hmem hold
        · have hother : entry.2 ∈ s.orphans.waiting (block.getHash env) :=
            OrphanBlocks.mem_waiting.mpr (hself ▸ hmem)
          rw [hsettles hfails] at hother
          cases hother

theorem acceptOrphans_frame {children : List CBlock} {n n' : Nat} {vWorkQueue vWorkQueue' : List Uint256}
    {s s' : ProcessState} (hrun : acceptOrphans env out children n vWorkQueue s = .ok (vWorkQueue', n', s')) :
    s'.orphans.mapOrphanBlocksByPrev = s.orphans.mapOrphanBlocksByPrev ∧
      (∀ hash, s'.orphans.mapOrphanBlocks.lookup hash =
        if hash ∈ children.map (CBlock.getHash env) then none else s.orphans.mapOrphanBlocks.lookup hash) ∧
      vWorkQueue'.length ≤ vWorkQueue.length + children.length := by
  induction children generalizing n vWorkQueue s with
  | nil =>
    cases hrun
    exact ⟨rfl, fun hash => by simp, Nat.le_refl _⟩
  | cons pblockOrphan rest ih =>
    unfold acceptOrphans at hrun
    split at hrun
    · cases hrun
    · next accepted node haccept =>
      obtain ⟨hprev, hlookup, hlen⟩ := ih hrun
      refine ⟨hprev, fun hash => ?_, hlen.trans ?_⟩
      · rw [hlookup, List.map_cons]
        unfold OrphanBlocks.eraseHash
        by_cases hself : hash = pblockOrphan.getHash env
        · subst hself
          rw [Finmap.lookup_erase, ite_self, if_pos List.mem_cons_self]
        · rw [Finmap.lookup_erase_ne hself]
          simp only [List.mem_cons, hself, false_or]
      · rw [List.length_cons]
        split
        · rw [List.length_append, List.length_singleton]
          omega
        · omega

/-- **The inner loop**: who waited for the queue before does so after, if and only if its calls
settle. -/
theorem waits_acceptOrphans {children : List CBlock} {n n' : Nat} {hashPrev : Uint256}
    {vWorkQueue vWorkQueue' : List Uint256} {s s' : ProcessState}
    (hhashes : ∀ hash ∈ hashPrev :: vWorkQueue, s.node.mapBlockIndex.Indexed hash)
    (hrun : acceptOrphans env out children n vWorkQueue s = .ok (vWorkQueue', n', s')) :
    (∀ hash ∈ hashPrev :: vWorkQueue', s'.node.mapBlockIndex.Indexed hash) ∧
      (s'.Waits (hashPrev :: vWorkQueue') ↔
        s.Waits (hashPrev :: vWorkQueue) ∧ OrphansSettle env out children n s) := by
  induction children generalizing n vWorkQueue s with
  | nil =>
    cases hrun
    exact ⟨hhashes, (and_iff_left trivial).symm⟩
  | cons pblockOrphan rest ih =>
    unfold acceptOrphans at hrun
    split at hrun
    · cases hrun
    · next accepted node haccept =>
      obtain ⟨hindexed, hwaits⟩ := waits_acceptBlock _
        (s.orphans.eraseHash (pblockOrphan.getHash env)) hhashes haccept rfl
      have hqueue : (if accepted.toOption.isSome then
          hashPrev :: vWorkQueue ++ [pblockOrphan.getHash env] else hashPrev :: vWorkQueue) =
          hashPrev :: if accepted.toOption.isSome then vWorkQueue ++ [pblockOrphan.getHash env]
            else vWorkQueue := by split <;> rfl
      rw [hqueue] at hindexed hwaits
      obtain ⟨hindexed', hrest⟩ := ih hindexed hrun
      refine ⟨hindexed', ?_⟩
      rw [hrest, hwaits, OrphansSettle, and_assoc]
      refine and_congr_right fun _ => and_congr_right fun _ => ?_
      refine ⟨fun hsettle accepted' node' haccept' => ?_, fun hsettle => hsettle _ _ haccept⟩
      rw [haccept] at haccept'
      cases haccept'
      exact hsettle

/-- **The work queue**: at its end no waiting block has its predecessor in the index, if and
only if all who had waited for the queue and the calls settle. -/
theorem drain_spec {rounds n : Nat} {vWorkQueue : List Uint256} {s s' : ProcessState}
    (h : s.orphans.Agree env) (hhashes : ∀ hash ∈ vWorkQueue, s.node.mapBlockIndex.Indexed hash)
    (hrun : drain env out rounds vWorkQueue n s = .ok s') : s'.orphans.Agree env ∧
      (s'.Waits [] ↔ s.Waits vWorkQueue ∧ DrainSettles env out rounds vWorkQueue n s) := by
  induction rounds generalizing n vWorkQueue s with
  | zero => cases hrun
  | succ rounds ih =>
    cases vWorkQueue with
    | nil =>
      cases hrun
      exact ⟨h, (and_iff_left trivial).symm⟩
    | cons hashPrev vWorkQueue =>
      unfold drain at hrun
      split at hrun
      · cases hrun
      · next vWorkQueue' n' s₁ haccept =>
        obtain ⟨hprev, hlookup, -⟩ := acceptOrphans_frame haccept
        obtain ⟨hindexed, hwaits⟩ := waits_acceptOrphans hhashes haccept
        have hagree : (s₁.orphans.erasePrev hashPrev).Agree env := by
          have herased := h.erasePrev hlookup
          rw [← hprev] at herased
          exact herased
        obtain ⟨hagree', hrest⟩ := ih
          (s := { s₁ with orphans := s₁.orphans.erasePrev hashPrev }) hagree
          (fun hash hmem => hindexed hash (List.mem_cons_of_mem _ hmem)) hrun
        refine ⟨hagree', ?_⟩
        -- with its entries erased nobody waits for `hashPrev` any more
        have herase : ({ s₁ with orphans := s₁.orphans.erasePrev hashPrev } : ProcessState).Waits
            vWorkQueue' ↔ s₁.Waits (hashPrev :: vWorkQueue') := by
          constructor
          · intro hall entry hmem hin
            by_cases heq : entry.1 = hashPrev
            · exact heq ▸ List.mem_cons_self
            · exact List.mem_cons_of_mem _
                (hall entry (List.mem_filter.mpr ⟨hmem, decide_eq_true heq⟩) hin)
          · intro hall entry hmem hin
            obtain ⟨hmem, hne⟩ := List.mem_filter.mp hmem
            exact (List.mem_cons.mp (hall entry hmem hin)).resolve_left (of_decide_eq_true hne)
        rw [hrest, herase, hwaits, DrainSettles, and_assoc]
        refine and_congr_right fun _ => and_congr_right fun _ => ?_
        refine ⟨fun hsettle v m s₂ haccept' => ?_, fun hsettle => hsettle _ _ _ haccept⟩
        rw [haccept] at haccept'
        cases haccept'
        exact hsettle

/-- **The work queue is worked off**: each round takes one hash, and puts at most as many in as
it takes blocks out of the map. What `AcceptBlock` keeps of the node is kept. -/
theorem drain_isOk (hreturns : ∀ n block node, P node →
      ∃ accepted node', acceptBlock env (out n) block node = .ok (accepted, node') ∧ P node')
    (rounds n : Nat) (vWorkQueue : List Uint256) (s : ProcessState) (hP : P s.node)
    (hrounds : vWorkQueue.length + s.orphans.mapOrphanBlocksByPrev.length < rounds) :
    ∃ s', drain env out rounds vWorkQueue n s = .ok s' ∧ P s'.node := by
  have hinner : ∀ (children : List CBlock) (n : Nat) (vWorkQueue : List Uint256) (s : ProcessState), P s.node →
      ∃ vWorkQueue' n' s', acceptOrphans env out children n vWorkQueue s = .ok (vWorkQueue', n', s') ∧
        P s'.node := by
    intro children
    induction children with
    | nil => exact fun n vWorkQueue s hP => ⟨_, _, _, rfl, hP⟩
    | cons pblockOrphan rest ih =>
      intro n vWorkQueue s hP
      obtain ⟨accepted, node, haccept, hP⟩ := hreturns n pblockOrphan s.node hP
      unfold acceptOrphans
      rw [haccept]
      exact ih _ _ _ hP
  induction rounds generalizing n vWorkQueue s with
  | zero => exact absurd hrounds (Nat.not_lt_zero _)
  | succ rounds ih =>
    cases vWorkQueue with
    | nil => exact ⟨s, rfl, hP⟩
    | cons hashPrev vWorkQueue =>
      obtain ⟨vWorkQueue', n', s₁, haccept, hP⟩ := hinner (s.orphans.waiting hashPrev) n vWorkQueue s hP
      obtain ⟨hprev, -, hlen⟩ := acceptOrphans_frame haccept
      unfold drain
      rw [haccept]
      refine ih _ _ _ hP ?_
      have hsplit := List.length_eq_countP_add_countP
        (fun entry : Uint256 × CBlock => decide (entry.1 = hashPrev))
        (l := s.orphans.mapOrphanBlocksByPrev)
      have hwaiting : (s.orphans.waiting hashPrev).length =
          s.orphans.mapOrphanBlocksByPrev.countP fun entry => decide (entry.1 = hashPrev) := by
        rw [OrphanBlocks.waiting, List.length_map, List.countP_eq_length_filter]
      have herased : (s₁.orphans.erasePrev hashPrev).mapOrphanBlocksByPrev.length =
          s.orphans.mapOrphanBlocksByPrev.countP fun entry => decide (entry.1 ≠ hashPrev) := by
        rw [OrphanBlocks.erasePrev, hprev, List.countP_eq_length_filter]
      simp only [decide_eq_true_eq] at hsplit
      simp only [ne_eq] at herased
      rw [List.length_cons] at hrounds
      show vWorkQueue'.length + (s₁.orphans.erasePrev hashPrev).mapOrphanBlocksByPrev.length < rounds
      omega

/-- A call of `ProcessBlock` returns when its calls of `AcceptBlock` do. -/
theorem processBlock_isOk (hreturns : ∀ n block node, P node →
      ∃ accepted node', acceptBlock env (out n) block node = .ok (accepted, node') ∧ P node')
    (pfrom : Bool) (block : CBlock) (s : ProcessState) (hP : P s.node) :
    ∃ result s', processBlock env out pfrom block s = .ok (result, s') ∧ P s'.node := by
  unfold processBlock
  split
  · exact ⟨_, _, rfl, hP⟩
  · split
    · exact ⟨_, _, rfl, by split <;> exact hP⟩
    · obtain ⟨accepted, node, haccept, hP⟩ := hreturns 0 block s.node hP
      rw [haccept]
      cases accepted with
      | error e => exact ⟨_, _, rfl, hP⟩
      | ok _ =>
        have hrounds : [block.getHash env].length + s.orphans.mapOrphanBlocksByPrev.length <
            drainRounds s := by
          rw [drainRounds, List.length_singleton]
          omega
        obtain ⟨s', hdrain, hP⟩ := drain_isOk hreturns (drainRounds s) 1 [block.getHash env]
          { s with node := node } hP hrounds
        dsimp only
        rw [hdrain]
        exact ⟨_, _, rfl, hP⟩

end Settles

/-! ### Calls -/

/-- A call of `ProcessBlock`. -/
structure ProcessCall where
  out : Nat → AcceptOutside
  pfrom : Bool
  block : CBlock

namespace ProcessCall

def run (env : Env) (s : ProcessState) (call : ProcessCall) :
    Except Stuck (Except ProcessError Unit × ProcessState) :=
  processBlock env call.out call.pfrom call.block s

/-- The state after a call that returns. -/
def step (env : Env) (s : ProcessState) (call : ProcessCall) : Option ProcessState :=
  match call.run env s with
  | .error _ => none
  | .ok (_, s) => some s

/-- The state after a sequence of calls, from a node without orphans. -/
def runAll (env : Env) (node : Node) (calls : List ProcessCall) : Option ProcessState :=
  calls.foldlM (step env) ⟨node, .empty⟩

/-- The condition on a call: no `AcceptBlock` that it makes returns false for a block that it
has entered in the index and that a stored block waits for. -/
def Settles (env : Env) (s : ProcessState) (call : ProcessCall) : Prop :=
  processBlockChecks env (call.out 0).out.nAdjustedTime call.block s = .ok () →
    isOrphan call.block s.node = false →
    AcceptSettles env (call.out 0) call.block s ∧
      ∀ node, acceptBlock env (call.out 0) call.block s.node = .ok (.ok (), node) →
        DrainSettles env call.out (drainRounds s) [call.block.getHash env] 1 { s with node := node }

variable {env : Env} {s s' : ProcessState}

theorem lookup_of_processBlockChecks {nAdjustedTime : Int} {block : CBlock}
    (h : processBlockChecks env nAdjustedTime block s = .ok ()) :
    s.orphans.mapOrphanBlocks.lookup (block.getHash env) = none := by
  unfold processBlockChecks at h
  split at h
  · cases h
  · split at h
    · cases h
    · next horphan => exact Option.not_isSome_iff_eq_none.mp horphan

/-- **One call** keeps the maps in step; it leaves no waiting block with an indexed predecessor,
if and only if its calls of `AcceptBlock` settle. -/
theorem kept_run {call : ProcessCall} {result : Except ProcessError Unit} (h : s.orphans.Agree env)
    (hdetached : s.Detached) (hrun : call.run env s = .ok (result, s')) :
    s'.orphans.Agree env ∧ (s'.Detached ↔ call.Settles env s) := by
  have hwaits := (ProcessState.detached_iff_not_indexed h).mp hdetached
  unfold run processBlock at hrun
  unfold Settles
  split at hrun
  · next e hchecks =>
    cases hrun
    refine ⟨h, iff_of_true hdetached fun hok => ?_⟩
    rw [hchecks] at hok
    cases hok
  · next hchecks =>
    split at hrun
    · next horphan =>
      cases hrun
      have hagree := h.store (lookup_of_processBlockChecks hchecks)
      cases call.pfrom with
      | false => exact ⟨h, iff_of_true hdetached fun _ hnot => by rw [horphan] at hnot; cases hnot⟩
      | true =>
        refine ⟨hagree, iff_of_true ?_ fun _ hnot => by rw [horphan] at hnot; cases hnot⟩
        refine (ProcessState.detached_iff_not_indexed hagree).mpr fun entry hmem hindexed => ?_
        rcases List.mem_append.mp hmem with hold | hself
        · exact hwaits entry hold hindexed
        · -- the previous block is unknown
          rw [List.mem_singleton.mp hself] at hindexed
          obtain ⟨e, he⟩ := hindexed
          have hnone := (Bool.and_eq_true_iff.mp horphan).2
          rw [show s.node.mapBlockIndex.entry call.block.hashPrevBlock = some e from he] at hnone
          cases hnone
    · next horphan =>
      rw [Bool.not_eq_true] at horphan
      simp only [hchecks, horphan, forall_const]
      split at hrun
      · cases hrun
      · next e node haccept =>
        cases hrun
        refine ⟨h, ?_⟩
        obtain ⟨-, hsettle⟩ := waits_acceptBlock [] s.orphans nofun haccept rfl
        rw [ProcessState.detached_iff_not_indexed (s := { s with node := node }) h]
        refine hsettle.trans
          ⟨fun hand => ⟨hand.2, fun node' haccept' => ?_⟩, fun hand => ⟨hwaits, hand.1⟩⟩
        rw [haccept] at haccept'
        cases haccept'
      · next node haccept =>
        split at hrun
        · cases hrun
        · next s₁ hdrain =>
          cases hrun
          obtain ⟨hindexed, hsettle⟩ := waits_acceptBlock [] s.orphans nofun haccept rfl
          obtain ⟨hagree, hfinal⟩ := drain_spec (s := { s with node := node }) h hindexed hdrain
          refine ⟨hagree, ?_⟩
          rw [ProcessState.detached_iff_not_indexed hagree, hfinal]
          have hstart := (hsettle.trans ⟨And.right, fun hsettles => ⟨hwaits, hsettles⟩⟩)
          refine (and_congr hstart Iff.rfl).trans (and_congr_right fun _ => ?_)
          refine ⟨fun hall node' haccept' => ?_, fun hall => hall node haccept⟩
          rw [haccept] at haccept'
          cases haccept'
          exact hall

theorem step_eq_some {call : ProcessCall} :
    step env s call = some s' ↔ ∃ result, call.run env s = .ok (result, s') := by
  unfold step
  constructor
  · intro h
    split at h
    · cases h
    · next result s₁ hrun =>
      cases h
      exact ⟨result, hrun⟩
  · rintro ⟨result, hrun⟩
    rw [hrun]

theorem runAll_concat {node : Node} (pre : List ProcessCall) (call : ProcessCall) :
    runAll env node (pre ++ [call]) = some s' ↔
      ∃ s, runAll env node pre = some s ∧ ∃ result, call.run env s = .ok (result, s') := by
  unfold runAll
  rw [List.foldlM_append]
  refine Option.bind_eq_some_iff.trans (exists_congr fun s => and_congr_right fun _ => ?_)
  rw [List.foldlM_cons, ← step_eq_some]
  exact Option.bind_eq_some_iff.trans
    ⟨fun ⟨_, hstep, hpure⟩ => Option.some.inj hpure ▸ hstep, fun hstep => ⟨s', hstep, rfl⟩⟩

/-- The maps hold the same blocks and no waiting block has an indexed predecessor. -/
def Kept (env : Env) (s : ProcessState) : Prop := s.orphans.Agree env ∧ s.Detached

theorem kept_runAll {node : Node} {calls : List ProcessCall}
    (h : ∀ pre call s result s', pre ++ [call] <+: calls → runAll env node pre = some s →
      call.run env s = .ok (result, s') → Kept env s')
    (hrun : runAll env node calls = some s) : Kept env s := by
  rcases List.eq_nil_or_concat' calls with rfl | ⟨pre, call, rfl⟩
  · cases hrun
    exact ⟨OrphanBlocks.agree_empty, fun hash block hlookup => by simp [OrphanBlocks.empty] at hlookup⟩
  · obtain ⟨s₀, hpre, result, hcall⟩ := (runAll_concat pre call).mp hrun
    exact h pre call s₀ result s (List.prefix_refl _) hpre hcall

/-- **Orphan blocks.** In every sequence of `ProcessBlock` calls each call leaves two maps that
hold the same blocks, with no block whose predecessor is indexed, if and only if no call of
`AcceptBlock` returns false for a block that it has entered and that a stored block waits for. -/
theorem detached_iff (env : Env) (node : Node) (calls : List ProcessCall) :
    (∀ pre call s result s', pre ++ [call] <+: calls → runAll env node pre = some s →
        call.run env s = .ok (result, s') → Kept env s') ↔
      ∀ pre call s result s', pre ++ [call] <+: calls → runAll env node pre = some s →
        call.run env s = .ok (result, s') → call.Settles env s := by
  constructor
  · intro hkept pre call s result s' hpre hrun hcall
    have hbefore : Kept env s := kept_runAll (fun pre' call' s₀ result' s₁ hpre' =>
      hkept pre' call' s₀ result' s₁ (hpre'.trans ((List.prefix_append pre [call]).trans hpre))) hrun
    exact (kept_run hbefore.1 hbefore.2 hcall).2.mp (hkept pre call s result s' hpre hrun hcall).2
  · intro hsettles pre call s result s' hpre hrun hcall
    -- by induction on the run: the calls before settled, so the state before is kept
    induction hlen : pre.length using Nat.strongRecOn generalizing pre call s result s' with
    | ind n ih =>
      have hbefore : Kept env s := by
        refine kept_runAll (fun pre' call' s₀ result' s₁ hpre' hrun' hcall' => ?_) hrun
        refine ih pre'.length ?_ pre' call' s₀ result' s₁ ?_ hrun' hcall' rfl
        · have hle := hpre'.length_le
          rw [List.length_append, List.length_singleton] at hle
          omega
        · exact hpre'.trans ((List.prefix_append pre [call]).trans hpre)
      obtain ⟨hagree, hdetached⟩ := kept_run hbefore.1 hbefore.2 hcall
      exact ⟨hagree, hdetached.mpr (hsettles pre call s result s' hpre hrun hcall)⟩

def sampleAcceptOutside : AcceptOutside := ⟨sampleOutside, true, true, 1⟩

def sampleOrphanBlock : CBlock :=
  ⟨⟨1, 1002, 3, 650, 0x1d0fffff, 1003⟩, [sampleCoinBase 3 650 COIN], []⟩

/-- The first block, then the third, then the second, which `ConnectBlock` refuses. -/
def sampleProcessCalls : List ProcessCall :=
  [Ledger.sampleFirstBlock, sampleOrphanBlock, sampleGreedyBlock].map
    (ProcessCall.mk (fun _ => sampleAcceptOutside) true)

theorem runAll_sampleProcessCalls :
    (runAll sampleEnv sampleLoaded sampleProcessCalls).map (fun s =>
      (s.orphans.mapOrphanBlocks.lookup 1003 == some sampleOrphanBlock,
        (s.node.mapBlockIndex.entry 1002).isSome)) = some (true, true) := by decide +kernel

/-- The third block waits for ever: the second is in the index. -/
theorem not_forall_detached :
    ¬ ∀ (node : Node) (calls pre : List ProcessCall) (call : ProcessCall) (s : ProcessState)
      (result : Except ProcessError Unit) (s' : ProcessState), pre ++ [call] <+: calls →
      runAll sampleEnv node pre = some s → call.run sampleEnv s = .ok (result, s') →
        Kept sampleEnv s' := by
  intro h
  obtain ⟨s, hrun, hobserved⟩ := Option.map_eq_some_iff.mp runAll_sampleProcessCalls
  rw [Prod.mk.injEq] at hobserved
  have hkept : Kept sampleEnv s := kept_runAll (h sampleLoaded sampleProcessCalls) hrun
  obtain ⟨e, he⟩ := Option.isSome_iff_exists.mp hobserved.2
  exact hkept.2 1003 sampleOrphanBlock (beq_iff_eq.mp hobserved.1) ⟨e, he⟩

end ProcessCall

end Manna
