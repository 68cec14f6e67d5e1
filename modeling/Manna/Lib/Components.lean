import Mathlib.Data.Finset.Lattice.Fold
import Mathlib.Logic.Relation
import Mathlib.Order.Lattice.Nat

/-!
The components of a family of groups, found by taking the groups in one at a time.

* `Together`: two elements are in one group;
* `IsComponents`: blocks that are the components of the groups seen;
* `IsComponents.absorb`: a group is merged with the blocks it meets;
* `IsComponents.same_iff`: two elements are in one block if and only if a chain of groups links them.
-/

namespace Components

variable {α : Type*}

/-- Two elements are in one of the groups. -/
def Together (groups : Set (Finset α)) (a b : α) : Prop := ∃ group ∈ groups, a ∈ group ∧ b ∈ group

instance (groups : Set (Finset α)) : Std.Symm (Together groups) where
  symm _ _ := fun ⟨group, hgroup, ha, hb⟩ => ⟨group, hgroup, hb, ha⟩

theorem chain_mono {groups groups' : Set (Finset α)} (hsub : groups ⊆ groups') {a b : α}
    (h : Relation.ReflTransGen (Together groups) a b) : Relation.ReflTransGen (Together groups') a b := by
  refine Relation.ReflTransGen.mono ?_ _ _ h
  rintro c d ⟨group, hgroup, hmem⟩
  exact ⟨group, hsub hgroup, hmem⟩

/-- **The blocks are the components of the groups**: none is empty, no two meet, each group is in one,
and what is in one is linked. -/
structure IsComponents (groups : Set (Finset α)) (blocks : Finset (Finset α)) : Prop where
  nonempty : ∀ block ∈ blocks, block.Nonempty
  unique : ∀ block ∈ blocks, ∀ block' ∈ blocks, ∀ a, a ∈ block → a ∈ block' → block = block'
  covered : ∀ group ∈ groups, ∃ block ∈ blocks, group ⊆ block
  grouped : ∀ block ∈ blocks, ∀ a ∈ block, ∃ group ∈ groups, a ∈ group
  linked : ∀ block ∈ blocks, ∀ a ∈ block, ∀ b ∈ block, Relation.ReflTransGen (Together groups) a b

variable {groups : Set (Finset α)} {blocks : Finset (Finset α)} {group : Finset α} {a b : α}

theorem isComponents_empty : IsComponents (∅ : Set (Finset α)) ∅ where
  nonempty _ h := absurd h (Finset.notMem_empty _)
  unique _ h := absurd h (Finset.notMem_empty _)
  covered _ h := absurd h (Set.notMem_empty _)
  grouped _ h := absurd h (Finset.notMem_empty _)
  linked _ h := absurd h (Finset.notMem_empty _)

/-- The blocks cover what is in a group. -/
theorem IsComponents.mem_block_iff (h : IsComponents groups blocks) :
    (∃ block ∈ blocks, a ∈ block) ↔ ∃ group ∈ groups, a ∈ group := by
  constructor
  · rintro ⟨block, hblock, ha⟩
    exact h.grouped block hblock a ha
  · rintro ⟨group, hgroup, ha⟩
    obtain ⟨block, hblock, hsub⟩ := h.covered group hgroup
    exact ⟨block, hblock, hsub ha⟩

/-- **One block, one component.** -/
theorem IsComponents.same_iff (h : IsComponents groups blocks) (hblock : ∃ block ∈ blocks, a ∈ block) :
    (∃ block ∈ blocks, a ∈ block ∧ b ∈ block) ↔ Relation.ReflTransGen (Together groups) a b := by
  constructor
  · rintro ⟨block, hblock, ha, hb⟩
    exact h.linked block hblock a ha b hb
  · intro hchain
    obtain ⟨block, hblock, ha⟩ := hblock
    refine ⟨block, hblock, ha, ?_⟩
    -- along the chain the block stays the same
    induction hchain with
    | refl => exact ha
    | @tail b c _ hstep ih =>
      obtain ⟨group, hgroup, hb, hc⟩ := hstep
      obtain ⟨block', hblock', hsub⟩ := h.covered group hgroup
      rw [h.unique block hblock block' hblock' b ih (hsub hb)]
      exact hsub hc

/-! ### Merging -/

variable [DecidableEq α]

def hits (blocks : Finset (Finset α)) (group : Finset α) : Finset (Finset α) :=
  blocks.filter fun block => ∃ a ∈ group, a ∈ block

def merged (blocks : Finset (Finset α)) (group : Finset α) : Finset α :=
  group ∪ (hits blocks group).sup id

/-- The blocks once a group is merged with those it meets. -/
def absorb (blocks : Finset (Finset α)) (group : Finset α) : Finset (Finset α) :=
  insert (merged blocks group) (blocks \ hits blocks group)

theorem mem_hits {block : Finset α} :
    block ∈ hits blocks group ↔ block ∈ blocks ∧ ∃ a ∈ group, a ∈ block := Finset.mem_filter

theorem mem_merged : a ∈ merged blocks group ↔ a ∈ group ∨ ∃ block ∈ hits blocks group, a ∈ block := by
  rw [merged, Finset.mem_union, Finset.mem_sup]
  rfl

theorem mem_absorb {block : Finset α} : block ∈ absorb blocks group ↔
    block = merged blocks group ∨ block ∈ blocks ∧ ¬ ∃ a ∈ group, a ∈ block := by
  rw [absorb, Finset.mem_insert, Finset.mem_sdiff, mem_hits, not_and]
  exact or_congr_right ⟨fun h => ⟨h.1, h.2 h.1⟩, fun h => ⟨h.1, fun _ => h.2⟩⟩

theorem IsComponents.notMem_merged (h : IsComponents groups blocks) {block : Finset α}
    (hblock : block ∈ blocks) (hmiss : ¬ ∃ a ∈ group, a ∈ block) (ha : a ∈ block) :
    a ∉ merged blocks group := by
  rw [mem_merged]
  rintro (hgroup | ⟨block', hhit, ha'⟩)
  · exact hmiss ⟨a, hgroup, ha⟩
  · obtain ⟨hblock', hmeets⟩ := mem_hits.mp hhit
    rw [h.unique block hblock block' hblock' a ha ha'] at hmiss
    exact hmiss hmeets

theorem IsComponents.linked_group (h : IsComponents groups blocks) (ha : a ∈ merged blocks group) :
    ∃ c ∈ group, Relation.ReflTransGen (Together (insert group groups)) a c := by
  rcases mem_merged.mp ha with hgroup | ⟨block, hhit, hblock⟩
  · exact ⟨a, hgroup, .refl⟩
  · obtain ⟨hmem, c, hc, hcblock⟩ := mem_hits.mp hhit
    exact ⟨c, hc, chain_mono (Set.subset_insert _ _) (h.linked block hmem a hblock c hcblock)⟩

/-- **A group taken in.** -/
theorem IsComponents.absorb (h : IsComponents groups blocks) (hgroup : group.Nonempty) :
    IsComponents (insert group groups) (absorb blocks group) where
  nonempty block hblock := by
    rcases mem_absorb.mp hblock with rfl | ⟨hblock, -⟩
    · obtain ⟨c, hc⟩ := hgroup
      exact ⟨c, mem_merged.mpr (.inl hc)⟩
    · exact h.nonempty block hblock
  unique block hblock block' hblock' c hc hc' := by
    rcases mem_absorb.mp hblock with rfl | ⟨hold, hmiss⟩
    · rcases mem_absorb.mp hblock' with rfl | ⟨hold', hmiss'⟩
      · rfl
      · exact absurd hc (h.notMem_merged hold' hmiss' hc')
    · rcases mem_absorb.mp hblock' with rfl | ⟨hold', -⟩
      · exact absurd hc' (h.notMem_merged hold hmiss hc)
      · exact h.unique block hold block' hold' c hc hc'
  covered group' hgroup' := by
    rcases Set.mem_insert_iff.mp hgroup' with rfl | hold
    · exact ⟨_, mem_absorb.mpr (.inl rfl), fun c hc => mem_merged.mpr (.inl hc)⟩
    · obtain ⟨block, hblock, hsub⟩ := h.covered group' hold
      by_cases hmeets : ∃ c ∈ group, c ∈ block
      · refine ⟨_, mem_absorb.mpr (.inl rfl), fun c hc => ?_⟩
        exact mem_merged.mpr (.inr ⟨block, mem_hits.mpr ⟨hblock, hmeets⟩, hsub hc⟩)
      · exact ⟨block, mem_absorb.mpr (.inr ⟨hblock, hmeets⟩), hsub⟩
  grouped block hblock c hc := by
    have hold : ∀ block ∈ blocks, c ∈ block → ∃ group' ∈ insert group groups, c ∈ group' := by
      intro block hblock hc
      obtain ⟨group', hgroup', hc'⟩ := h.grouped block hblock c hc
      exact ⟨group', Set.mem_insert_of_mem _ hgroup', hc'⟩
    rcases mem_absorb.mp hblock with rfl | ⟨hblock, -⟩
    · rcases mem_merged.mp hc with hin | ⟨block, hhit, hin⟩
      · exact ⟨group, Set.mem_insert _ _, hin⟩
      · exact hold block (mem_hits.mp hhit).1 hin
    · exact hold block hblock hc
  linked block hblock c hc d hd := by
    rcases mem_absorb.mp hblock with rfl | ⟨hblock, -⟩
    · obtain ⟨c', hc', hcc'⟩ := h.linked_group hc
      obtain ⟨d', hd', hdd'⟩ := h.linked_group hd
      have hstep : Together (insert group groups) c' d' := ⟨group, Set.mem_insert _ _, hc', hd'⟩
      exact (hcc'.tail hstep).trans (Std.Symm.symm _ _ hdd')
    · exact chain_mono (Set.subset_insert _ _) (h.linked block hblock c hc d hd)

end Components
