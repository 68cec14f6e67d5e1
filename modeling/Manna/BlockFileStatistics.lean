import Mathlib.Data.List.Induction
import Mathlib.Order.Bounds.Basic
import Manna.BlockFile

/-!
The statistics of a block file (`main.h`: `CBlockFileInfo::AddBlock`).

The greatest height is not kept as the others are: a height replaces `nHeightLast` where it lies above
`nHeightFirst`, also when it is less than `nHeightLast`.

* `after_addBlocks`: what the fields are after some calls;
* `statistics_iff`: when they are the number of calls and the bounds of heights and times.
-/

namespace Manna

namespace CBlockFileInfo

/-- `AddBlock` of one block after the other: heights and times. -/
def addBlocks (calls : List (Nat × Nat)) : CBlockFileInfo :=
  calls.foldl (fun info call => info.addBlock call.1 call.2) null

/-- The heights, or the times, of some calls. -/
def values (calls : List (Nat × Nat)) (field : Nat × Nat → Nat) : Set Nat := {n | n ∈ calls.map field}

/-- **The statistics of some calls**: their number, and the bounds of heights and times. -/
structure Statistics (calls : List (Nat × Nat)) (info : CBlockFileInfo) : Prop where
  nBlocks : info.nBlocks = calls.length
  heights : calls ≠ [] → IsLeast (values calls Prod.fst) info.nHeightFirst ∧
    IsGreatest (values calls Prod.fst) info.nHeightLast
  times : calls ≠ [] → IsLeast (values calls Prod.snd) info.nTimeFirst ∧
    IsGreatest (values calls Prod.snd) info.nTimeLast

/-- A height is above an earlier one. -/
def Rises (heights : List Nat) (h : Nat) : Prop := ∃ earlier ∈ heights, earlier < h

/-- **The last height that is above an earlier one.** -/
def LastRise (heights : List Nat) (h : Nat) : Prop :=
  ∃ before after, heights = before ++ h :: after ∧ Rises before h ∧
    ∀ later x rest, after = later ++ x :: rest → ¬ Rises (before ++ h :: later) x

variable {calls : List (Nat × Nat)} {heights : List Nat} {h x : Nat}

theorem lastRise_nil : ¬ LastRise [] h := by
  rintro ⟨before, after, heq, -⟩
  cases before <;> cases heq

theorem lastRise_concat : LastRise (heights ++ [x]) h ↔ Rises heights x ∧ h = x ∨ ¬ Rises heights x ∧ LastRise heights h := by
  constructor
  · rintro ⟨before, after, heq, hrises, hlast⟩
    cases after using List.reverseRecOn with
    | nil =>
      obtain ⟨rfl, hx⟩ := List.append_inj' heq rfl
      cases hx
      exact .inl ⟨hrises, rfl⟩
    | append_singleton after y =>
      rw [← List.cons_append, ← List.append_assoc] at heq
      obtain ⟨rfl, hy⟩ := List.append_inj' heq rfl
      cases hy
      refine .inr ⟨hlast after x [] rfl, before, after, rfl, hrises, ?_⟩
      rintro later y rest rfl
      exact hlast later y (rest ++ [x]) (by simp)
  · rintro (⟨hrises, rfl⟩ | ⟨hnot, before, after, rfl, hrises, hlast⟩)
    · exact ⟨heights, [], rfl, hrises, fun later y rest hnil => by cases later <;> cases hnil⟩
    · refine ⟨before, after ++ [x], by simp, hrises, ?_⟩
      intro later y rest heq
      cases rest using List.reverseRecOn with
      | nil =>
        obtain ⟨rfl, hy⟩ := List.append_inj' heq rfl
        cases hy
        exact hnot
      | append_singleton rest z =>
        rw [← List.cons_append, ← List.append_assoc] at heq
        obtain ⟨rfl, -⟩ := List.append_inj' heq rfl
        exact hlast later y rest rfl

/-- What the fields are after some calls. -/
structure After (calls : List (Nat × Nat)) (info : CBlockFileInfo) : Prop where
  nBlocks : info.nBlocks = calls.length
  heightFirst : calls ≠ [] → IsLeast (values calls Prod.fst) info.nHeightFirst
  heightLast : ∀ h, LastRise (calls.map Prod.fst) h → info.nHeightLast = h
  noRise : (∀ h, ¬ LastRise (calls.map Prod.fst) h) → info.nHeightLast = 0
  timeFirst : calls ≠ [] → IsLeast (values calls Prod.snd) info.nTimeFirst
  timeLast : IsGreatest (insert 0 (values calls Prod.snd)) info.nTimeLast

theorem values_concat (calls : List (Nat × Nat)) (call : Nat × Nat) (field : Nat × Nat → Nat) :
    values (calls ++ [call]) field = insert (field call) (values calls field) := by
  ext n
  simp [values, or_comm]

/-- The lowest of some values and one more. -/
theorem isLeast_values_concat {call : Nat × Nat} {field : Nat × Nat → Nat} {first : Nat}
    (hfirst : calls ≠ [] → IsLeast (values calls field) first) : IsLeast (values (calls ++ [call]) field)
      (if calls.length = 0 ∨ first > field call then field call else first) := by
  rw [values_concat]
  by_cases hcalls : calls = []
  · subst hcalls
    rw [if_pos (.inl rfl)]
    simp [values, isLeast_singleton]
  · have hmin : (if calls.length = 0 ∨ first > field call then field call else first) = min (field call) first := by
      have hlength := List.length_pos_of_ne_nil hcalls
      split <;> omega
    rw [hmin]
    exact (hfirst hcalls).insert (field call)

/-- **One call.** -/
theorem After.addBlock {info : CBlockFileInfo} (h : After calls info) (call : Nat × Nat)
    (hlength : calls.length + 1 < 2 ^ 32) : After (calls ++ [call]) (info.addBlock call.1 call.2) := by
  have hfirst := @isLeast_values_concat _ call _ _ h.heightFirst
  rw [← h.nBlocks] at hfirst
  -- above the new `nHeightFirst` means above a height before
  have hrises : Rises (calls.map Prod.fst) call.1 ↔
      call.1 > (if info.nBlocks = 0 ∨ info.nHeightFirst > call.1 then call.1 else info.nHeightFirst) := by
    constructor
    · rintro ⟨earlier, hmem, hlt⟩
      have hle := hfirst.2 (show earlier ∈ values (calls ++ [call]) Prod.fst by
        rw [values_concat]
        exact .inr hmem)
      exact hle.trans_lt hlt
    · intro hlt
      have hmem := hfirst.1
      rw [values_concat] at hmem
      rcases hmem with hself | hearlier
      · omega
      · exact ⟨_, hearlier, hlt⟩
  refine ⟨?_, fun _ => hfirst, ?_, ?_, fun _ => ?_, ?_⟩
  · rw [List.length_append, List.length_singleton, CBlockFileInfo.addBlock, h.nBlocks, uint32_of_lt hlength]
  · intro height hlast
    rw [List.map_append, List.map_singleton, lastRise_concat, hrises] at hlast
    rcases hlast with ⟨hrise, rfl⟩ | ⟨hnot, hlast⟩
    · exact if_pos hrise
    · exact (if_neg hnot).trans (h.heightLast height hlast)
  · intro hnone
    simp only [List.map_append, List.map_singleton, lastRise_concat, hrises] at hnone
    have hnot : ¬ _ := fun hrise => hnone call.1 (.inl ⟨hrise, rfl⟩)
    exact (if_neg hnot).trans (h.noRise fun height hlast => hnone height (.inr ⟨hnot, hlast⟩))
  · have htime := @isLeast_values_concat _ call _ _ h.timeFirst
    rwa [← h.nBlocks] at htime
  · have hmax : (info.addBlock call.1 call.2).nTimeLast = max call.2 info.nTimeLast := by
      rw [CBlockFileInfo.addBlock]
      dsimp only
      split <;> omega
    rw [values_concat, Set.insert_comm, hmax]
    exact h.timeLast.insert call.2

theorem after_addBlocks (hlength : calls.length < 2 ^ 32) : After calls (addBlocks calls) := by
  induction calls using List.reverseRecOn with
  | nil =>
    refine ⟨rfl, fun hne => absurd rfl hne, fun h hlast => absurd hlast lastRise_nil, fun _ => rfl,
      fun hne => absurd rfl hne, ?_⟩
    simp [values, addBlocks, null]
  | append_singleton calls call ih =>
    rw [List.length_append, List.length_singleton] at hlength
    rw [addBlocks, List.foldl_append]
    exact (ih (by omega)).addBlock call hlength

/-- The number of blocks wraps at the width of `nBlocks`. -/
theorem nBlocks_addBlocks_lt (calls : List (Nat × Nat)) : (addBlocks calls).nBlocks < 2 ^ 32 := by
  cases calls using List.reverseRecOn with
  | nil => decide
  | append_singleton calls call =>
    rw [addBlocks, List.foldl_append]
    exact Nat.mod_lt _ (by decide)

/-- **When the statistics are those of the calls**: there are less than 2^32, and the last height above an
earlier one is the greatest, or without such a height all are zero. -/
theorem statistics_iff (calls : List (Nat × Nat)) :
    Statistics calls (addBlocks calls) ↔ calls.length < 2 ^ 32 ∧
      (∀ h, LastRise (calls.map Prod.fst) h → ∀ other ∈ calls.map Prod.fst, other ≤ h) ∧
      ((∀ h, ¬ LastRise (calls.map Prod.fst) h) → ∀ other ∈ calls.map Prod.fst, other = 0) := by
  constructor
  · intro hstat
    have hlength : calls.length < 2 ^ 32 := hstat.nBlocks ▸ nBlocks_addBlocks_lt calls
    have hafter := after_addBlocks hlength
    have hgreatest : ∀ other ∈ calls.map Prod.fst, other ≤ (addBlocks calls).nHeightLast := by
      intro other hmem
      have hne : calls ≠ [] := by
        rintro rfl
        cases hmem
      exact (hstat.heights hne).2.2 hmem
    refine ⟨hlength, fun h hlast => ?_, fun hnone other hmem => ?_⟩
    · rwa [hafter.heightLast h hlast] at hgreatest
    · have hle := hgreatest other hmem
      rw [hafter.noRise hnone] at hle
      omega
  · rintro ⟨hlength, hlast, hnone⟩
    have hafter := after_addBlocks hlength
    refine ⟨hafter.nBlocks, fun hne => ⟨hafter.heightFirst hne, ?_⟩, fun hne => ⟨hafter.timeFirst hne, ?_⟩⟩
    · by_cases hrise : ∃ h, LastRise (calls.map Prod.fst) h
      · obtain ⟨h, hh⟩ := hrise
        rw [hafter.heightLast h hh]
        obtain ⟨before, after, heq, -⟩ := id hh
        exact ⟨show h ∈ calls.map Prod.fst by rw [heq]; simp, fun other hmem => hlast h hh other hmem⟩
      · push Not at hrise
        rw [hafter.noRise hrise]
        have hzero := hnone hrise
        refine ⟨?_, fun other hmem => (hzero other hmem).le⟩
        obtain ⟨other, hmem⟩ := List.exists_mem_of_ne_nil _ (mt List.map_eq_nil_iff.mp hne)
        exact hzero other hmem ▸ hmem
    · obtain ⟨hmem, hupper⟩ := hafter.timeLast
      refine ⟨?_, fun other hother => hupper (.inr hother)⟩
      rcases hmem with hzero | hmem
      · obtain ⟨other, hother⟩ := List.exists_mem_of_ne_nil _ (mt List.map_eq_nil_iff.mp hne)
        have hle := hupper (.inr hother)
        rw [hzero] at hle ⊢
        obtain rfl := Nat.le_zero.mp hle
        exact hother
      · exact hmem

/-- Heights 5, 9 and 7: the last one is 7. A single block has none. -/
theorem not_forall_statistics :
    ¬ Statistics [(5, 0), (9, 0), (7, 0)] (addBlocks [(5, 0), (9, 0), (7, 0)]) ∧
      ¬ Statistics [(5, 0)] (addBlocks [(5, 0)]) := by
  constructor
  · intro h
    have hle := (h.heights (by simp)).2.2 (show 9 ∈ values _ _ by simp [values])
    exact absurd hle (by decide)
  · intro h
    have hle := (h.heights (by simp)).2.2 (show 5 ∈ values _ _ by simp [values])
    exact absurd hle (by decide)

end CBlockFileInfo

end Manna
