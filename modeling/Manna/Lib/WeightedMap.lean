import Mathlib.Algebra.BigOperators.Finprod
import Mathlib.Algebra.BigOperators.Group.Finset.Piecewise
import Mathlib.Algebra.Order.BigOperators.Group.Finset
import Mathlib.Algebra.Order.Ring.Int
import Mathlib.Tactic.Abel
import Mathlib.Tactic.Linarith

/-!
Totals over partial maps with a finite domain.

A partial map `f : K → Option V` has a weight at each key of its domain. `total w f` is
the sum of the weights. It changes by one weight when one key is updated
(`total_update`), so it is additive in the keys removed (`total_erase_list`), and a sum
over some keys never exceeds it when weights are not negative (`sum_le_total`).
-/

namespace WeightedMap

variable {K V : Type}

def FiniteDom (f : K → Option V) : Prop := {k | f k ≠ none}.Finite

/-- The weight at a key, zero outside the domain. -/
def weightAt (w : V → ℤ) (f : K → Option V) (k : K) : ℤ := (f k).elim 0 w

/-- The sum of the weights. -/
noncomputable def total (w : V → ℤ) (f : K → Option V) : ℤ := ∑ᶠ k, weightAt w f k

variable {w : V → ℤ} {f g : K → Option V}

theorem finiteDom_none : FiniteDom (fun _ : K => (none : Option V)) := by
  simp [FiniteDom]

theorem FiniteDom.mono (h : FiniteDom f) (hsub : ∀ k, g k ≠ none → f k ≠ none) : FiniteDom g :=
  h.subset fun k hk => hsub k hk

theorem total_none : total w (fun _ : K => (none : Option V)) = 0 := by
  simp [total, weightAt]

theorem total_eq_sum {s : Finset K} (hs : ∀ k, f k ≠ none → k ∈ s) : total w f = ∑ k ∈ s, weightAt w f k := by
  refine finsum_eq_sum_of_support_subset _ fun k hk => ?_
  refine hs k fun hnone => hk ?_
  simp [weightAt, hnone]

theorem total_nonneg (h : FiniteDom f) (hw : ∀ k v, f k = some v → 0 ≤ w v) : 0 ≤ total w f := by
  rw [total_eq_sum fun k hk => h.mem_toFinset.mpr hk]
  refine Finset.sum_nonneg fun k _ => ?_
  unfold weightAt
  cases hk : f k with
  | none => exact le_rfl
  | some v => exact hw k v hk

section Update

variable [DecidableEq K]

theorem FiniteDom.update (h : FiniteDom f) (k : K) (x : Option V) : FiniteDom (Function.update f k x) := by
  refine (h.insert k).subset fun k' hk' => ?_
  by_cases heq : k' = k
  · exact .inl heq
  · rw [Set.mem_ofPred_eq, Function.update_of_ne heq] at hk'
    exact .inr hk'

/-- **One key changes the total by its weights.** -/
theorem total_update (h : FiniteDom f) (k : K) (x : Option V) :
    total w (Function.update f k x) = total w f - weightAt w f k + x.elim 0 w := by
  have hf : ∀ k', f k' ≠ none → k' ∈ insert k h.toFinset := fun k' hk' =>
    Finset.mem_insert_of_mem (h.mem_toFinset.mpr hk')
  have hupdate : ∀ k', Function.update f k x k' ≠ none → k' ∈ insert k h.toFinset := by
    intro k' hk'
    by_cases heq : k' = k
    · exact heq ▸ Finset.mem_insert_self ..
    · rw [Function.update_of_ne heq] at hk'
      exact hf k' hk'
  have hrest : ∑ k' ∈ (insert k h.toFinset).erase k, weightAt w (Function.update f k x) k' =
      ∑ k' ∈ (insert k h.toFinset).erase k, weightAt w f k' := by
    refine Finset.sum_congr rfl fun k' hk' => ?_
    rw [weightAt, Function.update_of_ne (Finset.ne_of_mem_erase hk')]
    rfl
  rw [total_eq_sum hf, total_eq_sum hupdate,
    ← Finset.add_sum_erase _ _ (Finset.mem_insert_self k h.toFinset),
    ← Finset.add_sum_erase _ _ (Finset.mem_insert_self k h.toFinset), hrest]
  simp only [weightAt, Function.update_self]
  abel

/-- **Other keys** do not change the total. -/
theorem total_rename {r : K → K} (hf : FiniteDom f) (hinj : Set.InjOn r {k | f k ≠ none})
    (hcover : ∀ k', g k' ≠ none → ∃ k, f k ≠ none ∧ r k = k')
    (hweight : ∀ k, f k ≠ none → weightAt w g (r k) = weightAt w f k) : total w g = total w f := by
  have hg : ∀ k', g k' ≠ none → k' ∈ hf.toFinset.image r := by
    intro k' hk'
    obtain ⟨k, hk, rfl⟩ := hcover k' hk'
    exact Finset.mem_image_of_mem r (hf.mem_toFinset.mpr hk)
  have hinj' : Set.InjOn r hf.toFinset := fun k hk l hl heq =>
    hinj (hf.mem_toFinset.mp hk) (hf.mem_toFinset.mp hl) heq
  rw [total_eq_sum hg, Finset.sum_image hinj', total_eq_sum fun k hk => hf.mem_toFinset.mpr hk]
  exact Finset.sum_congr rfl fun k hk => hweight k (hf.mem_toFinset.mp hk)

def eraseList (f : K → Option V) (keys : List K) : K → Option V := fun k =>
  if k ∈ keys then none else f k

theorem eraseList_cons (f : K → Option V) (k : K) (keys : List K) :
    eraseList f (k :: keys) = eraseList (Function.update f k none) keys := by
  funext k'
  unfold eraseList
  by_cases hmem : k' ∈ keys
  · simp [hmem]
  · by_cases heq : k' = k
    · simp [heq]
    · simp [hmem, heq]

theorem FiniteDom.eraseList (h : FiniteDom f) (keys : List K) : FiniteDom (eraseList f keys) := by
  refine h.mono fun k hk hnone => hk ?_
  simp [WeightedMap.eraseList, hnone]

theorem total_eraseList (h : FiniteDom f) {keys : List K} (hnodup : keys.Nodup) :
    total w (eraseList f keys) = total w f - (keys.map (weightAt w f)).sum := by
  induction keys generalizing f with
  | nil =>
    have : eraseList f [] = f := by
      funext k
      simp [eraseList]
    simp [this]
  | cons k keys ih =>
    rw [List.nodup_cons] at hnodup
    have hrest : keys.map (weightAt w (Function.update f k none)) = keys.map (weightAt w f) := by
      refine List.map_congr_left fun k' hk' => ?_
      have : k' ≠ k := fun heq => hnodup.1 (heq ▸ hk')
      simp [weightAt, Function.update_of_ne this]
    rw [eraseList_cons, ih (h.update k none) hnodup.2, hrest, total_update h]
    simp only [List.map_cons, List.sum_cons, Option.elim_none]
    abel

theorem sum_le_total (h : FiniteDom f) (hw : ∀ k v, f k = some v → 0 ≤ w v) {keys : List K}
    (hnodup : keys.Nodup) : (keys.map (weightAt w f)).sum ≤ total w f := by
  have hrest : 0 ≤ total w (eraseList f keys) := by
    refine total_nonneg (h.eraseList keys) fun k v hk => ?_
    unfold eraseList at hk
    split at hk
    · cases hk
    · exact hw k v hk
  rw [total_eraseList h hnodup] at hrest
  linarith

end Update

end WeightedMap
