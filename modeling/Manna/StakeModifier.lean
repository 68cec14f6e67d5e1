import Manna.Ancestry
import Mathlib.Data.List.Sort

/-!
Stake modifiers (`kernel.cpp`: `ComputeNextStakeModifier`; `main.h`: `CBlockIndex` with
`PPCOINSTAKE`).

A new modifier is made of one bit each of up to 64 blocks. A round selects one of the candidates,
which are sorted by time, that is not selected yet; the scan of a round ends at the stop time of
the round, but not before it has selected a block.

* `selectBlockFromCandidates_spec`: a round finds a block while one is left;
* `selectBlocks_spec`: the rounds select as many blocks as there can be, without repetition;
* `computeNextStakeModifier_congr`: only the ancestors of the block and its own time are read.
-/

namespace Manna

/-! ### The index of the proof-of-stake build -/

/-- The fields of `CBlockIndex` that `PPCOINSTAKE` adds; the first three are bits of `nFlags`. -/
structure StakeFields where
  fProofOfStake : Bool
  fStakeEntropy : Bool
  fGeneratedStakeModifier : Bool
  nStakeModifier : Nat
  nStakeModifierChecksum : Nat
  prevoutStake : COutPoint
  nStakeTime : Nat
  hashProofOfStake : Uint256
deriving DecidableEq, Repr

/-- `mapBlockIndex` with `PPCOINSTAKE`. -/
structure StakeIndex where
  tree : BlockTree
  fields : Uint256 → StakeFields

/-- What the kernel protocol calls but does not define: the hashes of its streams. -/
structure StakeEnv where
  /-- `Hash` of a proof hash and the previous modifier. -/
  hashSelection : Uint256 → Nat → Uint256
  /-- `Hash` of the modifier, the time of the block, the offset, the time and the output of the
  transaction spent, and the time of the coinstake. -/
  hashKernel : Nat → Nat → Nat → Nat → Nat → Nat → Uint256
  /-- The same with `nBits` in the place of the modifier. -/
  hashKernelV02 : Nat → Nat → Nat → Nat → Nat → Nat → Uint256
  /-- `Hash` of the flags, the proof hash and the modifier after the checksum before. -/
  hashChecksum : Option Nat → StakeFields → Uint256
  fTestNet : Bool

/-- `IsProtocolV03`. -/
def isProtocolV03 (env : StakeEnv) (nTimeCoinStake : Nat) : Bool :=
  decide ((if env.fTestNet then 1359781000 else 1735689600) ≤ nTimeCoinStake)

def isProtocolV04 (env : StakeEnv) (nTimeBlock : Nat) : Bool :=
  decide ((if env.fTestNet then 1395700000 else 1736294400) ≤ nTimeBlock)

def MODIFIER_INTERVAL : Int := 3 * 60 * 60

def MODIFIER_INTERVAL_RATIO : Int := 3

def getStakeModifierSelectionIntervalSection (nSection : Nat) : Int :=
  MODIFIER_INTERVAL * 63 / (63 + (63 - nSection) * ( MODIFIER_INTERVAL_RATIO - 1))

def getStakeModifierSelectionInterval : Int :=
  ((List.range 64).map getStakeModifierSelectionIntervalSection).sum

namespace StakeIndex

variable (env : StakeEnv) (x : StakeIndex)

/-- `GetBlockTime` of the entry with a hash. -/
def blockTime (hash : Uint256) : Int := ((x.tree.entry hash).map (·.getBlockTime)).getD 0

/-- `GetLastStakeModifier`, on an entry and those before it: the modifier and its time. -/
def getLastStakeModifier : List Uint256 → Option (Nat × Int)
  | [] => none
  | hash :: rest =>
    if (x.fields hash).fGeneratedStakeModifier then
      some ((x.fields hash).nStakeModifier, x.blockTime hash)
    else getLastStakeModifier rest

/-- `hashSelection`: the proof hash with the previous modifier, smaller for proof of stake. -/
def selectionHash (nStakeModifierPrev : Nat) (hash : Uint256) : Uint256 :=
  if (x.fields hash).fProofOfStake then
    env.hashSelection (x.fields hash).hashProofOfStake nStakeModifierPrev / 2 ^ 32
  else env.hashSelection hash nStakeModifierPrev

/-- The loop of `SelectBlockFromCandidates`, with `hashBest` and `*pindexSelected` once
`fSelected`. A candidate that is not indexed ends it with an error. -/
def selectLoop (mapSelectedBlocks : List Uint256) (nSelectionIntervalStop : Int)
    (nStakeModifierPrev : Nat) :
    List (Int × Uint256) → Option (Uint256 × Uint256) → Option (Option (Uint256 × Uint256))
  | [], best => some best
  | item :: rest, best =>
    match x.tree.entry item.2 with
    | none => none
    | some pindex =>
      if best.isSome ∧ pindex.getBlockTime > nSelectionIntervalStop then some best
      else if pindex.phashBlock ∈ mapSelectedBlocks then
        selectLoop mapSelectedBlocks nSelectionIntervalStop nStakeModifierPrev rest best
      else
        let hashSelection := x.selectionHash env nStakeModifierPrev pindex.phashBlock
        match best with
        | some (hashBest, _) =>
          selectLoop mapSelectedBlocks nSelectionIntervalStop nStakeModifierPrev rest
            (if hashSelection < hashBest then some (hashSelection, pindex.phashBlock) else best)
        | none =>
          selectLoop mapSelectedBlocks nSelectionIntervalStop nStakeModifierPrev rest
            (some (hashSelection, pindex.phashBlock))

/-- `SelectBlockFromCandidates`: the block selected; `none` where the source returns false. -/
def selectBlockFromCandidates (vSortedByTimestamp : List (Int × Uint256))
    (mapSelectedBlocks : List Uint256) (nSelectionIntervalStop : Int) (nStakeModifierPrev : Nat) :
    Option Uint256 :=
  match x.selectLoop env mapSelectedBlocks nSelectionIntervalStop nStakeModifierPrev
      vSortedByTimestamp none with
  | some (some (_, pindexSelected)) => some pindexSelected
  | _ => none

/-- What the rounds of `ComputeNextStakeModifier` change. -/
structure Selection where
  nSelectionIntervalStop : Int
  nStakeModifierNew : Nat
  mapSelectedBlocks : List Uint256

/-- The rounds of `ComputeNextStakeModifier`, from round `nRound` on; `none` where no block can be
selected. -/
def selectRounds (vSortedByTimestamp : List (Int × Uint256)) (nStakeModifier : Nat) :
    Nat → Nat → Selection → Option Selection
  | 0, _, s => some s
  | rounds + 1, nRound, s =>
    let nSelectionIntervalStop := s.nSelectionIntervalStop + getStakeModifierSelectionIntervalSection nRound
    match x.selectBlockFromCandidates env vSortedByTimestamp s.mapSelectedBlocks
        nSelectionIntervalStop nStakeModifier with
    | none => none
    | some pindex =>
      selectRounds vSortedByTimestamp nStakeModifier rounds (nRound + 1)
        ⟨nSelectionIntervalStop,
          s.nStakeModifierNew ||| (x.fields pindex).fStakeEntropy.toNat <<< nRound,
          pindex :: s.mapSelectedBlocks⟩

/-- `nSelectionIntervalStart`. -/
def selectionIntervalStart (pindexPrev : Uint256) : Int :=
  x.blockTime pindexPrev / MODIFIER_INTERVAL * MODIFIER_INTERVAL - getStakeModifierSelectionInterval

/-- The blocks in the selection interval, from `pindexPrev` backwards. -/
def candidates (pindexPrev : Uint256) : List Uint256 :=
  (x.tree.ancestry (some pindexPrev)).takeWhile fun hash =>
    decide (x.selectionIntervalStart pindexPrev ≤ x.blockTime hash)

/-- The order of `pair<int64_t, uint256>`. -/
def pairLe (a b : Int × Uint256) : Prop := a.1 < b.1 ∨ a.1 = b.1 ∧ a.2 ≤ b.2

instance : DecidableRel pairLe := fun a b => by
  unfold pairLe
  infer_instance

/-- `vSortedByTimestamp`. -/
def sortedByTimestamp (pindexPrev : Uint256) : List (Int × Uint256) :=
  (((x.candidates pindexPrev).map fun hash => (x.blockTime hash, hash)).reverse).insertionSort pairLe

def selectBlocks (pindexPrev : Uint256) (nStakeModifier : Nat) : Option Selection :=
  let vSortedByTimestamp := x.sortedByTimestamp pindexPrev
  x.selectRounds env vSortedByTimestamp nStakeModifier (min 64 vSortedByTimestamp.length) 0
    ⟨x.selectionIntervalStart pindexPrev, 0, []⟩

end StakeIndex

/-- The error exits of `ComputeNextStakeModifier`. -/
inductive ModifierError where
  | unableToGetLastModifier
  | unableToSelectBlock
deriving DecidableEq, Repr

/-- `ComputeNextStakeModifier`: the modifier, and whether it was generated by this block. -/
def computeNextStakeModifier (env : StakeEnv) (x : StakeIndex) (pindexCurrent : CBlockIndex) :
    Except ModifierError (Nat × Bool) :=
  match pindexCurrent.pprev with
  | none => .ok (0, true)
  | some pindexPrev =>
    match x.getLastStakeModifier (x.tree.ancestry (some pindexPrev)) with
    | none => .error .unableToGetLastModifier
    | some (nStakeModifier, nModifierTime) =>
      if nModifierTime / MODIFIER_INTERVAL ≥ x.blockTime pindexPrev / MODIFIER_INTERVAL then
        .ok (nStakeModifier, false)
      else if nModifierTime / MODIFIER_INTERVAL ≥ pindexCurrent.getBlockTime / MODIFIER_INTERVAL ∧
          isProtocolV04 env pindexCurrent.nTime then
        .ok (nStakeModifier, false)
      else
        match x.selectBlocks env pindexPrev nStakeModifier with
        | none => .error .unableToSelectBlock
        | some s => .ok (s.nStakeModifierNew, true)

/-! ### A round -/

namespace StakeIndex

section Round

variable (env : StakeEnv) {x : StakeIndex} {mapSelectedBlocks : List Uint256}
  (nSelectionIntervalStop : Int) (nStakeModifierPrev : Nat)

/-- **The scan selects a block** when it has one already or one is left in the list. -/
theorem selectLoop_spec {l : List (Int × Uint256)} (best : Option (Uint256 × Uint256))
    (hindexed : ∀ item ∈ l, x.tree.Indexed item.2)
    (hleft : best.isSome ∨ ∃ item ∈ l, item.2 ∉ mapSelectedBlocks) : ∃ hashBest selected,
      x.selectLoop env mapSelectedBlocks nSelectionIntervalStop nStakeModifierPrev l best =
        some (some (hashBest, selected)) ∧ ((∃ hash, best = some (hash, selected)) ∨
        selected ∈ l.map (·.2) ∧ selected ∉ mapSelectedBlocks) := by
  induction l generalizing best with
  | nil =>
    rcases hleft with hsome | ⟨item, hmem, -⟩
    · obtain ⟨⟨hashBest, selected⟩, rfl⟩ := Option.isSome_iff_exists.mp hsome
      exact ⟨hashBest, selected, rfl, .inl ⟨hashBest, rfl⟩⟩
    · cases hmem
  | cons item rest ih =>
    obtain ⟨pindex, hentry⟩ := hindexed item List.mem_cons_self
    have hhash := x.tree.hash_eq hentry
    have hrest : ∀ item ∈ rest, x.tree.Indexed item.2 := fun item hmem =>
      hindexed item (List.mem_cons_of_mem _ hmem)
    -- What the rest of the scan selects, from a block that is selected now.
    have hkeep : ∀ {selected' : Uint256} {hash' : Uint256},
        ((∃ hash, best = some (hash, selected')) ∨ selected' = item.2 ∧
          item.2 ∉ mapSelectedBlocks) →
        ∃ hashBest selected,
          x.selectLoop env mapSelectedBlocks nSelectionIntervalStop nStakeModifierPrev rest
            (some (hash', selected')) = some (some (hashBest, selected)) ∧
          ((∃ hash, best = some (hash, selected)) ∨
            selected ∈ (item :: rest).map (·.2) ∧ selected ∉ mapSelectedBlocks) := by
      intro selected' hash' hfrom
      obtain ⟨hashBest, selected, hloop, hsel⟩ := ih (some (hash', selected')) hrest (.inl rfl)
      refine ⟨hashBest, selected, hloop, ?_⟩
      rcases hsel with ⟨hash, heq⟩ | ⟨hmem, hnew⟩
      · obtain rfl : selected' = selected := (Prod.mk.inj (Option.some.inj heq)).2
        rcases hfrom with hbest | ⟨rfl, hnew⟩
        · exact .inl hbest
        · exact .inr ⟨by simp, hnew⟩
      · exact .inr ⟨by simp [hmem], hnew⟩
    simp only [selectLoop, hentry, hhash]
    split
    · rename_i hbreak
      obtain ⟨⟨hashBest, selected⟩, rfl⟩ := Option.isSome_iff_exists.mp hbreak.1
      exact ⟨hashBest, selected, rfl, .inl ⟨hashBest, rfl⟩⟩
    · split
      · rename_i hselected
        have hleft' : best.isSome ∨ ∃ item ∈ rest, item.2 ∉ mapSelectedBlocks := by
          rcases hleft with hsome | ⟨item', hmem, hnew⟩
          · exact .inl hsome
          · rcases List.mem_cons.mp hmem with rfl | hmem
            · exact absurd hselected hnew
            · exact .inr ⟨item', hmem, hnew⟩
        obtain ⟨hashBest, selected, hloop, hsel⟩ := ih best hrest hleft'
        refine ⟨hashBest, selected, hloop, ?_⟩
        rcases hsel with hbest | ⟨hmem, hnew⟩
        · exact .inl hbest
        · exact .inr ⟨by simp [hmem], hnew⟩
      · rename_i hnew
        cases best with
        | none => exact hkeep (.inr ⟨rfl, hnew⟩)
        | some best =>
          obtain ⟨hashBest, selected⟩ := best
          simp only
          split
          · exact hkeep (.inr ⟨rfl, hnew⟩)
          · exact hkeep (.inl ⟨hashBest, rfl⟩)

variable {vSortedByTimestamp : List (Int × Uint256)}

/-- **A round finds a block** while one is left, and one that is not selected yet. -/
theorem selectBlockFromCandidates_spec (hindexed : ∀ item ∈ vSortedByTimestamp, x.tree.Indexed item.2)
    (hleft : ∃ item ∈ vSortedByTimestamp, item.2 ∉ mapSelectedBlocks) : ∃ selected,
      x.selectBlockFromCandidates env vSortedByTimestamp mapSelectedBlocks nSelectionIntervalStop
        nStakeModifierPrev = some selected ∧
      selected ∈ vSortedByTimestamp.map (·.2) ∧ selected ∉ mapSelectedBlocks := by
  obtain ⟨hashBest, selected, hloop, hsel⟩ :=
    selectLoop_spec env nSelectionIntervalStop nStakeModifierPrev none hindexed (.inr hleft)
  rcases hsel with ⟨hash, heq⟩ | hsel
  · cases heq
  · refine ⟨selected, ?_, hsel⟩
    rw [selectBlockFromCandidates, hloop]

/-! ### All rounds -/

/-- What is selected after a number of rounds. -/
structure Selection.Sound (s : Selection) (vSortedByTimestamp : List (Int × Uint256))
    (rounds : Nat) : Prop where
  length : s.mapSelectedBlocks.length = rounds
  nodup : s.mapSelectedBlocks.Nodup
  subset : ∀ hash ∈ s.mapSelectedBlocks, hash ∈ vSortedByTimestamp.map (·.2)

/-- While fewer blocks are selected than there are, one is left. -/
theorem Selection.Sound.exists_left {s : Selection} {rounds : Nat} (h : s.Sound vSortedByTimestamp rounds)
    (hnodup : (vSortedByTimestamp.map (·.2)).Nodup) (hlt : rounds < vSortedByTimestamp.length) :
    ∃ item ∈ vSortedByTimestamp, item.2 ∉ s.mapSelectedBlocks := by
  by_contra hnone
  have hall : vSortedByTimestamp.map (·.2) ⊆ s.mapSelectedBlocks := by
    intro hash hmem
    obtain ⟨item, hitem, rfl⟩ := List.mem_map.mp hmem
    by_contra hnew
    exact hnone ⟨item, hitem, hnew⟩
  have hle := (List.subperm_of_subset hnodup hall).length_le
  rw [List.length_map, h.length] at hle
  omega

/-- **The rounds do not fail** and select a new block each. -/
theorem selectRounds_spec (hindexed : ∀ item ∈ vSortedByTimestamp, x.tree.Indexed item.2)
    (hnodup : (vSortedByTimestamp.map (·.2)).Nodup) (nStakeModifier : Nat) :
    ∀ (rounds nRound : Nat) (s : Selection), s.Sound vSortedByTimestamp nRound →
      nRound + rounds ≤ vSortedByTimestamp.length →
      ∃ s', x.selectRounds env vSortedByTimestamp nStakeModifier rounds nRound s = some s' ∧
        s'.Sound vSortedByTimestamp (nRound + rounds)
  | 0, nRound, s, hs, _ => ⟨s, rfl, hs⟩
  | rounds + 1, nRound, s, hs, hle => by
    obtain ⟨selected, hselect, hmem, hnew⟩ := selectBlockFromCandidates_spec env
      (s.nSelectionIntervalStop + getStakeModifierSelectionIntervalSection nRound) nStakeModifier
      hindexed (hs.exists_left hnodup (by omega))
    rw [selectRounds, hselect]
    have hs' := selectRounds_spec hindexed hnodup nStakeModifier rounds (nRound + 1)
      ⟨s.nSelectionIntervalStop + getStakeModifierSelectionIntervalSection nRound,
        s.nStakeModifierNew ||| (x.fields selected).fStakeEntropy.toNat <<< nRound,
        selected :: s.mapSelectedBlocks⟩
      ⟨by rw [List.length_cons, hs.length], List.nodup_cons.mpr ⟨hnew, hs.nodup⟩, ?_⟩ (by omega)
    · rwa [Nat.add_assoc, Nat.add_comm 1 rounds] at hs'
    · intro hash hhash
      rcases List.mem_cons.mp hhash with rfl | hhash
      · exact hmem
      · exact hs.subset hash hhash

theorem mem_of_selectLoop {l : List (Int × Uint256)} {best : Option (Uint256 × Uint256)}
    {hashBest selected : Uint256}
    (h : x.selectLoop env mapSelectedBlocks nSelectionIntervalStop nStakeModifierPrev l best =
      some (some (hashBest, selected))) :
    (∃ hash, best = some (hash, selected)) ∨ selected ∈ l.map (·.2) := by
  induction l generalizing best with
  | nil =>
    obtain rfl := Option.some.inj h
    exact .inl ⟨hashBest, rfl⟩
  | cons item rest ih =>
    rw [selectLoop] at h
    split at h
    · cases h
    · rename_i pindex hentry
      have hhash := x.tree.hash_eq hentry
      -- A block of the rest is one of the list.
      have hrest : selected ∈ rest.map (·.2) → selected ∈ (item :: rest).map (·.2) := by
        intro hmem
        rw [List.map_cons]
        exact List.mem_cons_of_mem _ hmem
      have hself : ∀ {hash : Uint256},
          (∃ hash' : Uint256, some (hash, pindex.phashBlock) = some (hash', selected)) →
          selected ∈ (item :: rest).map (·.2) := by
        rintro hash ⟨hash', heq⟩
        rw [← (Prod.mk.inj (Option.some.inj heq)).2, hhash, List.map_cons]
        exact List.mem_cons_self
      split at h
      · obtain rfl := Option.some.inj h
        exact .inl ⟨hashBest, rfl⟩
      · split at h
        · exact (ih h).imp_right hrest
        · split at h
          · simp only at h
            split at h
            · rcases ih h with hnow | hmem
              · exact .inr (hself hnow)
              · exact .inr (hrest hmem)
            · exact (ih h).imp_right hrest
          · rcases ih h with hnow | hmem
            · exact .inr (hself hnow)
            · exact .inr (hrest hmem)

theorem mem_of_selectBlockFromCandidates {selected : Uint256}
    (h : x.selectBlockFromCandidates env vSortedByTimestamp mapSelectedBlocks nSelectionIntervalStop
      nStakeModifierPrev = some selected) : selected ∈ vSortedByTimestamp.map (·.2) := by
  rw [selectBlockFromCandidates] at h
  split at h
  · rename_i hashBest pindexSelected hloop
    obtain rfl := Option.some.inj h
    rcases mem_of_selectLoop env nSelectionIntervalStop nStakeModifierPrev hloop with ⟨hash, heq⟩ | hmem
    · cases heq
    · exact hmem
  · cases h

end Round

section Candidates

variable {env : StakeEnv} {x : StakeIndex} {pindexPrev : Uint256}

theorem sortedByTimestamp_perm (x : StakeIndex) (pindexPrev : Uint256) :
    ((x.sortedByTimestamp pindexPrev).map (·.2)).Perm (x.candidates pindexPrev) := by
  have hperm := (List.perm_insertionSort pairLe
    ((x.candidates pindexPrev).map fun hash => (x.blockTime hash, hash)).reverse).trans
      (List.reverse_perm _)
  have hmap := hperm.map (·.2)
  rwa [List.map_map, Function.comp_def, List.map_id'] at hmap

theorem nodup_candidates (x : StakeIndex) (pindexPrev : Uint256) : (x.candidates pindexPrev).Nodup :=
  (x.tree.ancestry_nodup _).sublist (List.takeWhile_sublist _)

theorem candidates_subset (x : StakeIndex) (pindexPrev : Uint256) :
    ∀ hash ∈ x.candidates pindexPrev, hash ∈ x.tree.ancestry (some pindexPrev) := fun _ hmem =>
  (List.takeWhile_sublist _).subset hmem

theorem mem_sortedByTimestamp {item : Int × Uint256} (h : item ∈ x.sortedByTimestamp pindexPrev) :
    item.2 ∈ x.candidates pindexPrev :=
  (x.sortedByTimestamp_perm pindexPrev).subset (List.mem_map_of_mem h)

/-- **The selection of the blocks does not fail**: as many as there can be are selected, each
once, from the candidates. -/
theorem selectBlocks_spec (env : StakeEnv) (hindexed : x.tree.Indexed pindexPrev)
    (nStakeModifier : Nat) : ∃ s, x.selectBlocks env pindexPrev nStakeModifier = some s ∧
      s.mapSelectedBlocks.length = min 64 (x.candidates pindexPrev).length ∧ s.mapSelectedBlocks.Nodup ∧
      ∀ hash ∈ s.mapSelectedBlocks, hash ∈ x.candidates pindexPrev := by
  have hperm := x.sortedByTimestamp_perm pindexPrev
  have hlen : (x.sortedByTimestamp pindexPrev).length = (x.candidates pindexPrev).length := by
    rw [← hperm.length_eq, List.length_map]
  have hall : ∀ item ∈ x.sortedByTimestamp pindexPrev, x.tree.Indexed item.2 := fun item hmem =>
    BlockTree.indexed_of_mem hindexed (x.candidates_subset pindexPrev _ (mem_sortedByTimestamp hmem))
  obtain ⟨s, hselect, hs⟩ := selectRounds_spec env hall
    (hperm.nodup_iff.mpr (x.nodup_candidates pindexPrev)) nStakeModifier
    (min 64 (x.sortedByTimestamp pindexPrev).length) 0 ⟨x.selectionIntervalStart pindexPrev, 0, []⟩
    ⟨rfl, List.nodup_nil, fun hash hmem => absurd hmem List.not_mem_nil⟩ (by omega)
  refine ⟨s, hselect, ?_, hs.nodup, fun hash hmem => hperm.subset (hs.subset hash hmem)⟩
  rw [hs.length, hlen, Nat.zero_add]

end Candidates

/-! ### What the modifier depends on -/

/-- Two nodes have indexed the same ancestors: entries that agree but for `pnext`, the status and
the supply, with the same stake fields. -/
def SameAncestors (x x' : StakeIndex) (pindexPrev : Uint256) : Prop :=
  ∀ a ∈ x.tree.ancestry (some pindexPrev),
    (∃ e e', x.tree.entry a = some e ∧ x'.tree.entry a = some e' ∧ e'.fixed = e.fixed) ∧
      x'.fields a = x.fields a

section Same

variable {env : StakeEnv} {x x' : StakeIndex} {pindexPrev : Uint256}

theorem SameAncestors.ancestry_eq (h : x.SameAncestors x' pindexPrev) :
    x'.tree.ancestry (some pindexPrev) = x.tree.ancestry (some pindexPrev) := by
  induction pindexPrev using x.tree.ancestry_induction with
  | step hash ih =>
    obtain ⟨⟨e, e', he, he', hfixed⟩, -⟩ := h hash (x.tree.mem_ancestry_self hash)
    have hpprev : x'.tree.pprevOf hash = x.tree.pprevOf hash := by
      rw [BlockTree.pprevOf_eq he, BlockTree.pprevOf_eq he',
        (CBlockIndex.fixed_eq_iff.mp hfixed).2.1]
    rw [BlockTree.ancestry_some, BlockTree.ancestry_some, hpprev]
    cases hprev : x.tree.pprevOf hash with
    | none => rfl
    | some pprev =>
      rw [ih pprev hprev]
      intro a ha
      apply h a
      rw [BlockTree.mem_ancestry, hprev]
      exact .inr ha

theorem SameAncestors.blockTime_eq (h : x.SameAncestors x' pindexPrev) {a : Uint256}
    (ha : a ∈ x.tree.ancestry (some pindexPrev)) : x'.blockTime a = x.blockTime a := by
  obtain ⟨⟨e, e', he, he', hfixed⟩, -⟩ := h a ha
  have htime := (CBlockIndex.fixed_eq_iff.mp hfixed).2.2.2.2.1
  rw [blockTime, blockTime, he, he', Option.map_some, Option.map_some, Option.getD_some,
    Option.getD_some, CBlockIndex.getBlockTime, CBlockIndex.getBlockTime, htime]

theorem SameAncestors.getLastStakeModifier_eq (h : x.SameAncestors x' pindexPrev)
    {l : List Uint256} (hl : ∀ a ∈ l, a ∈ x.tree.ancestry (some pindexPrev)) :
    x'.getLastStakeModifier l = x.getLastStakeModifier l := by
  induction l with
  | nil => rfl
  | cons a l ih =>
    have ha := hl a List.mem_cons_self
    rw [getLastStakeModifier, getLastStakeModifier, (h a ha).2, h.blockTime_eq ha,
      ih fun b hb => hl b (List.mem_cons_of_mem a hb)]

theorem SameAncestors.candidates_eq (h : x.SameAncestors x' pindexPrev) :
    x'.candidates pindexPrev = x.candidates pindexPrev := by
  have hstart : x'.selectionIntervalStart pindexPrev = x.selectionIntervalStart pindexPrev := by
    rw [selectionIntervalStart, selectionIntervalStart,
      h.blockTime_eq (x.tree.mem_ancestry_self pindexPrev)]
  rw [candidates, candidates, h.ancestry_eq, hstart]
  have hcongr : ∀ l : List Uint256, (∀ a ∈ l, a ∈ x.tree.ancestry (some pindexPrev)) →
      (l.takeWhile fun hash => decide (x.selectionIntervalStart pindexPrev ≤ x'.blockTime hash)) =
        l.takeWhile fun hash => decide (x.selectionIntervalStart pindexPrev ≤ x.blockTime hash) := by
    intro l hl
    induction l with
    | nil => rfl
    | cons a l ih =>
      rw [List.takeWhile_cons, List.takeWhile_cons, h.blockTime_eq (hl a List.mem_cons_self),
        ih fun b hb => hl b (List.mem_cons_of_mem a hb)]
  exact hcongr _ fun a ha => ha

theorem SameAncestors.sortedByTimestamp_eq (h : x.SameAncestors x' pindexPrev) :
    x'.sortedByTimestamp pindexPrev = x.sortedByTimestamp pindexPrev := by
  have htimes : (x.candidates pindexPrev).map (fun hash => (x'.blockTime hash, hash)) =
      (x.candidates pindexPrev).map fun hash => (x.blockTime hash, hash) := by
    apply List.map_congr_left
    intro a ha
    rw [h.blockTime_eq (x.candidates_subset pindexPrev a ha)]
  rw [sortedByTimestamp, sortedByTimestamp, h.candidates_eq, htimes]

theorem SameAncestors.selectLoop_eq (h : x.SameAncestors x' pindexPrev)
    {mapSelectedBlocks : List Uint256} {nSelectionIntervalStop : Int} {nStakeModifierPrev : Nat}
    {l : List (Int × Uint256)} (hl : ∀ item ∈ l, item.2 ∈ x.tree.ancestry (some pindexPrev))
    (best : Option (Uint256 × Uint256)) :
    x'.selectLoop env mapSelectedBlocks nSelectionIntervalStop nStakeModifierPrev l best =
      x.selectLoop env mapSelectedBlocks nSelectionIntervalStop nStakeModifierPrev l best := by
  induction l generalizing best with
  | nil => rfl
  | cons item rest ih =>
    have hitem := hl item List.mem_cons_self
    have hrest := fun best => ih (fun item' hmem => hl item' (List.mem_cons_of_mem item hmem)) best
    obtain ⟨⟨e, e', he, he', hfixed⟩, hfields⟩ := h item.2 hitem
    have hhash : x'.selectionHash env nStakeModifierPrev item.2 =
        x.selectionHash env nStakeModifierPrev item.2 := by
      rw [selectionHash, selectionHash, hfields]
    have htime : e'.getBlockTime = e.getBlockTime := by
      rw [CBlockIndex.getBlockTime, CBlockIndex.getBlockTime,
        (CBlockIndex.fixed_eq_iff.mp hfixed).2.2.2.2.1]
    simp only [selectLoop, he, he', x.tree.hash_eq he, x'.tree.hash_eq he', hhash, htime, hrest]

theorem SameAncestors.selectRounds_eq (h : x.SameAncestors x' pindexPrev)
    {vSortedByTimestamp : List (Int × Uint256)} {nStakeModifier : Nat}
    (hl : ∀ item ∈ vSortedByTimestamp, item.2 ∈ x.tree.ancestry (some pindexPrev))
    (rounds nRound : Nat) (s : Selection) :
    x'.selectRounds env vSortedByTimestamp nStakeModifier rounds nRound s =
      x.selectRounds env vSortedByTimestamp nStakeModifier rounds nRound s := by
  induction rounds generalizing nRound s with
  | zero => rfl
  | succ rounds ih =>
    have hround : ∀ stop, x'.selectBlockFromCandidates env vSortedByTimestamp s.mapSelectedBlocks
        stop nStakeModifier =
        x.selectBlockFromCandidates env vSortedByTimestamp s.mapSelectedBlocks stop
          nStakeModifier := by
      intro stop
      rw [selectBlockFromCandidates, selectBlockFromCandidates, h.selectLoop_eq hl]
    rw [selectRounds, selectRounds, hround]
    cases hselect : x.selectBlockFromCandidates env vSortedByTimestamp s.mapSelectedBlocks
        (s.nSelectionIntervalStop + getStakeModifierSelectionIntervalSection nRound)
        nStakeModifier with
    | none => rfl
    | some pindex =>
      obtain ⟨item, hitem, rfl⟩ := List.mem_map.mp (mem_of_selectBlockFromCandidates env _ _ hselect)
      simp only [(h item.2 (hl item hitem)).2, ih]

theorem SameAncestors.selectBlocks_eq (h : x.SameAncestors x' pindexPrev) (nStakeModifier : Nat) :
    x'.selectBlocks env pindexPrev nStakeModifier = x.selectBlocks env pindexPrev nStakeModifier := by
  have hstart : x'.selectionIntervalStart pindexPrev = x.selectionIntervalStart pindexPrev := by
    rw [selectionIntervalStart, selectionIntervalStart,
      h.blockTime_eq (x.tree.mem_ancestry_self pindexPrev)]
  rw [selectBlocks, selectBlocks, h.sortedByTimestamp_eq, hstart]
  exact h.selectRounds_eq
    (fun item hmem => x.candidates_subset pindexPrev _ (mem_sortedByTimestamp hmem)) _ _ _

end Same

end StakeIndex

/-! ### The next modifier -/

section Next

variable {env : StakeEnv} {x x' : StakeIndex}

/-- **Only the ancestors of the block and its own time are read.** -/
theorem computeNextStakeModifier_congr {e e' : CBlockIndex} (hprev : e'.pprev = e.pprev)
    (htime : e'.nTime = e.nTime)
    (hsame : ∀ pindexPrev, e.pprev = some pindexPrev → x.SameAncestors x' pindexPrev) :
    computeNextStakeModifier env x' e' = computeNextStakeModifier env x e := by
  rw [computeNextStakeModifier, computeNextStakeModifier, hprev, CBlockIndex.getBlockTime,
    CBlockIndex.getBlockTime, htime]
  cases hpprev : e.pprev with
  | none => rfl
  | some pindexPrev =>
    have h := hsame pindexPrev hpprev
    simp only [h.ancestry_eq, h.getLastStakeModifier_eq (fun a ha => ha),
      h.blockTime_eq (x.tree.mem_ancestry_self pindexPrev), h.selectBlocks_eq]

theorem computeNextStakeModifier_eq_ok {e : CBlockIndex} {pindexPrev : Uint256}
    {nStakeModifier : Nat} (hpprev : e.pprev = some pindexPrev)
    (hok : computeNextStakeModifier env x e = .ok (nStakeModifier, true)) :
    ∃ nStakeModifierPrev nModifierTime s, x.getLastStakeModifier (x.tree.ancestry (some pindexPrev)) =
        some (nStakeModifierPrev, nModifierTime) ∧
      x.selectBlocks env pindexPrev nStakeModifierPrev = some s ∧ nStakeModifier = s.nStakeModifierNew := by
  rw [computeNextStakeModifier, hpprev] at hok
  simp only at hok
  split at hok
  · cases hok
  · rename_i nStakeModifierPrev nModifierTime hlast
    split_ifs at hok
    · cases hok
    · cases hok
    · split at hok
      · cases hok
      · rename_i s hselect
        cases hok
        exact ⟨nStakeModifierPrev, nModifierTime, s, hlast, hselect, rfl⟩

/-- **The exit for a round that selects no block is never taken.** -/
theorem computeNextStakeModifier_ne_unableToSelectBlock {e : CBlockIndex}
    (hprev : ∀ pindexPrev, e.pprev = some pindexPrev → x.tree.Indexed pindexPrev) :
    computeNextStakeModifier env x e ≠ .error .unableToSelectBlock := by
  rw [computeNextStakeModifier]
  split
  · exact fun h => nomatch h
  · rename_i pindexPrev hpprev
    split
    · exact fun h => nomatch h
    · rename_i nStakeModifier nModifierTime _
      obtain ⟨s, hselect, -⟩ := StakeIndex.selectBlocks_spec env (hprev pindexPrev hpprev) nStakeModifier
      rw [hselect]
      split_ifs <;> exact fun h => nomatch h

/-- **The selection of the modifier**: its round exit is not taken, a new modifier is made of as
many different blocks of the interval as there are, up to 64, and two nodes that know the same
ancestors compute the same. -/
theorem computeNextStakeModifier_spec (env : StakeEnv) (x : StakeIndex) {hash : Uint256}
    {e : CBlockIndex} (he : x.tree.entry hash = some e) :
    computeNextStakeModifier env x e ≠ .error .unableToSelectBlock ∧
    (∀ pindexPrev nStakeModifier, e.pprev = some pindexPrev →
      computeNextStakeModifier env x e = .ok (nStakeModifier, true) →
      ∃ nStakeModifierPrev nModifierTime s,
        x.getLastStakeModifier (x.tree.ancestry (some pindexPrev)) =
          some (nStakeModifierPrev, nModifierTime) ∧
        x.selectBlocks env pindexPrev nStakeModifierPrev = some s ∧
        nStakeModifier = s.nStakeModifierNew ∧
        s.mapSelectedBlocks.length = min 64 (x.candidates pindexPrev).length ∧
        s.mapSelectedBlocks.Nodup ∧
        ∀ hash ∈ s.mapSelectedBlocks, hash ∈ x.candidates pindexPrev) ∧
    ∀ x' e', e'.pprev = e.pprev → e'.nTime = e.nTime →
      (∀ pindexPrev, e.pprev = some pindexPrev → x.SameAncestors x' pindexPrev) →
      computeNextStakeModifier env x' e' = computeNextStakeModifier env x e := by
  have hprev : ∀ pindexPrev, e.pprev = some pindexPrev → x.tree.Indexed pindexPrev := by
    intro pindexPrev hpprev
    obtain ⟨p, hp, -⟩ := x.tree.parent he hpprev
    exact ⟨p, hp⟩
  refine ⟨computeNextStakeModifier_ne_unableToSelectBlock hprev, ?_,
    fun x' e' => computeNextStakeModifier_congr⟩
  intro pindexPrev nStakeModifier hpprev hok
  obtain ⟨nStakeModifierPrev, nModifierTime, s, hlast, hselect, rfl⟩ :=
    computeNextStakeModifier_eq_ok hpprev hok
  obtain ⟨s', hselect', hspec⟩ :=
    StakeIndex.selectBlocks_spec env (hprev pindexPrev hpprev) nStakeModifierPrev
  obtain rfl : s = s' := Option.some.inj (hselect.symm.trans hselect')
  exact ⟨nStakeModifierPrev, nModifierTime, s, hlast, hselect, rfl, hspec⟩

end Next

/-! ### Samples -/

/-- A tree with one more block, unless its hash is taken. -/
def sampleExtend (t : BlockTree) (name pprev : Uint256) (nTime : Nat) : BlockTree :=
  match hp : t.entry pprev with
  | none => t
  | some p =>
    if h : t.entry name = none ∧ p.nHeight + 1 ≤ INT_MAX then
      t.insert (sampleEntry name (some pprev) (p.nHeight + 1) nTime)
        { fresh := h.1
          parent := fun hprev => by
            cases hprev
            exact ⟨p, hp, rfl⟩
          root := fun hprev => by cases hprev
          height_le := h.2 }
    else t

theorem pprev_sampleEntry (nTime : Nat) : (sampleEntry 1000 none 0 nTime).pprev = none := rfl

theorem nHeight_sampleEntry (nTime : Nat) : (sampleEntry 1000 none 0 nTime).nHeight = 0 := rfl

/-- The index of a node that knows the genesis block, which is of `nTime`. -/
def sampleGenesis (nTime : Nat) : BlockTree :=
  .single (sampleEntry 1000 none 0 nTime) (pprev_sampleEntry nTime) (nHeight_sampleEntry nTime)

theorem entry_sampleGenesis (nTime : Nat) (hash : Uint256) : (sampleGenesis nTime).entry hash =
      if hash = 1000 then some (sampleEntry 1000 none 0 nTime) else none :=
  BlockTree.entry_single ..

/-- The fields of a proof-of-work block. -/
def sampleStakeFields (fGeneratedStakeModifier : Bool) (nStakeModifier : Nat) : StakeFields :=
  ⟨false, true, fGeneratedStakeModifier, nStakeModifier, 0, ⟨0, 0⟩, 0, 0⟩

/-- Hashes that add up what they are given. -/
def sampleStakeEnv : StakeEnv where
  hashSelection hashProof nStakeModifier := hashProof + nStakeModifier
  hashKernel nStakeModifier nTimeBlockFrom nTxPrevOffset nTimeTxPrev n nTimeTx :=
    nStakeModifier + nTimeBlockFrom + nTxPrevOffset + nTimeTxPrev + n + nTimeTx
  hashKernelV02 nBits nTimeBlockFrom nTxPrevOffset nTimeTxPrev n nTimeTx :=
    nBits + nTimeBlockFrom + nTxPrevOffset + nTimeTxPrev + n + nTimeTx
  hashChecksum _ fields := fields.nStakeModifier
  fTestNet := false

/-- A chain into the second interval after the start of version 0.4, with two blocks on its end:
one of the first interval, as its time may be, and one of the second. -/
def sampleTwoTimes : StakeIndex where
  tree :=
    sampleExtend (sampleExtend (sampleExtend (sampleExtend (sampleGenesis 1736294400)
      1001 1000 1736294401) 1002 1001 1736305200) 1003 1002 1736305199) 1004 1002 1736305201
  fields hash := sampleStakeFields (hash == 1000) 0

theorem computeNextStakeModifier_sample :
    (∃ e, sampleTwoTimes.tree.entry 1004 = some e ∧
      computeNextStakeModifier sampleStakeEnv sampleTwoTimes e = .ok (7, true)) ∧
    ∃ e, sampleTwoTimes.tree.entry 1004 = some e ∧
      computeNextStakeModifier sampleStakeEnv sampleTwoTimes e ≠ .error .unableToSelectBlock := by
  have he : sampleTwoTimes.tree.entry 1004 = some (sampleEntry 1004 (some 1002) 3 1736305201) := by
    decide
  exact ⟨⟨_, he, by decide⟩,
    ⟨_, he, (computeNextStakeModifier_spec sampleStakeEnv sampleTwoTimes he).1⟩⟩

/-- **The time of the block itself is read**: on the same ancestors one block keeps the modifier
and the other makes a new one. -/
theorem not_forall_computeNextStakeModifier_eq :
    ¬ ∀ (env : StakeEnv) (x : StakeIndex) (hash hash' : Uint256) (e e' : CBlockIndex),
      x.tree.entry hash = some e → x.tree.entry hash' = some e' → e'.pprev = e.pprev →
      computeNextStakeModifier env x e' = computeNextStakeModifier env x e := by
  intro h
  have heq := h sampleStakeEnv sampleTwoTimes 1003 1004 (sampleEntry 1003 (some 1002) 3 1736305199)
    (sampleEntry 1004 (some 1002) 3 1736305201) (by decide) (by decide) rfl
  have hkeep : computeNextStakeModifier sampleStakeEnv sampleTwoTimes
      (sampleEntry 1003 (some 1002) 3 1736305199) = .ok (0, false) := by decide
  have hnew : computeNextStakeModifier sampleStakeEnv sampleTwoTimes
      (sampleEntry 1004 (some 1002) 3 1736305201) = .ok (7, true) := by decide
  rw [hkeep, hnew] at heq
  cases heq

end Manna
