import Mathlib.Data.List.Sort

/-!
The elements of a list by their rank.

The list is sorted; the rank of an element counts the elements below it. Bounds on the element of a rank
are counts in the list itself, so they survive when elements come in and go out.

* `getElem?_sorted_iff`: a lower set holds the element of a rank iff it has more elements than the rank;
* `upperMedian_push`: the median of the last elements does not fall while later elements are above it.
-/

namespace OrderStatistic

variable {α : Type*} [LinearOrder α]

theorem getElem?_sorted_iff {p : α → Prop} [DecidablePred p] (hp : ∀ {a b}, a ≤ b → p b → p a)
    {l : List α} (hsorted : l.Pairwise (· ≤ ·)) {k : Nat} {a : α} (ha : l[k]? = some a) :
    p a ↔ k < l.countP p := by
  induction l generalizing k with
  | nil => cases ha
  | cons b l ih =>
    obtain ⟨hle, htail⟩ := List.pairwise_cons.mp hsorted
    by_cases hb : p b
    · rw [List.countP_cons_of_pos (by simpa using hb)]
      cases k with
      | zero =>
        cases ha
        exact iff_of_true hb (Nat.succ_pos _)
      | succ k => exact (ih htail ha).trans Nat.succ_lt_succ_iff.symm
    · have hnone : l.countP p = 0 := by
        rw [List.countP_eq_zero]
        intro c hc hpc
        exact hb (hp (hle c hc) (of_decide_eq_true hpc))
      have hnot : ¬ p a := by
        cases k with
        | zero =>
          cases ha
          exact hb
        | succ k => exact fun hpa => hb (hp (hle a (List.mem_of_getElem? ha)) hpa)
      rw [List.countP_cons_of_neg (by simpa using hb), hnone]
      exact iff_of_false hnot (Nat.not_lt_zero _)

/-- The element of the middle rank; of an even number of elements, the upper one. -/
def upperMedian (l : List α) : Option α := (l.insertionSort (· ≤ ·))[l.length / 2]?

section Median

variable {l : List α} {x t : α}

theorem upperMedian_iff {p : α → Prop} [DecidablePred p] (hp : ∀ {a b}, a ≤ b → p b → p a)
    (hx : upperMedian l = some x) : p x ↔ l.length / 2 < l.countP p := by
  rw [getElem?_sorted_iff hp (List.pairwise_insertionSort _ l) hx,
    (List.perm_insertionSort (· ≤ ·) l).countP_eq]

theorem exists_upperMedian (hl : l ≠ []) : ∃ x, upperMedian l = some x := by
  have hpos := List.length_pos_of_ne_nil hl
  exact ⟨_, List.getElem?_eq_getElem (by rw [List.length_insertionSort]; omega)⟩

omit [LinearOrder α] in
theorem countP_take_succ (p : α → Bool) (l : List α) (n : Nat) :
    (l.take n).countP p ≤ (l.take (n + 1)).countP p ∧
      (l.take (n + 1)).countP p + (l.take n).length ≤ (l.take n).countP p + (l.take (n + 1)).length := by
  have hle : l[n]?.toList.countP p ≤ l[n]?.toList.length := List.countP_le_length
  rw [List.take_add_one, List.countP_append, List.length_append]
  omega

/-- **The median of the last elements.** When an element above it is pushed, it does not fall, and does
not pass the element. -/
theorem upperMedian_push {n : Nat} (hx : upperMedian (l.take (n + 1)) = some x) (hlt : x < t) :
    ∃ y, upperMedian ((t :: l).take (n + 1)) = some y ∧ x ≤ y ∧ y ≤ t := by
  obtain ⟨y, hy⟩ := exists_upperMedian (show (t :: l).take (n + 1) ≠ [] by simp)
  have hnew : (t :: l).take (n + 1) = t :: l.take n := List.take_succ_cons
  have hlength : (l.take n).length ≤ (l.take (n + 1)).length ∧
      (l.take (n + 1)).length ≤ (l.take n).length + 1 := by
    rw [List.length_take, List.length_take]
    omega
  refine ⟨y, hy, ?_, ?_⟩
  · -- Not more elements are below `x` than were, and at least as many are there.
    have hself := (upperMedian_iff (fun hab hb => hab.trans_lt hb) hx).not.mp (lt_irrefl x)
    have hcount := (countP_take_succ (· < x) l n).1
    rw [← not_lt, upperMedian_iff (p := (· < x)) (fun hab hb => hab.trans_lt hb) hy, hnew,
      List.countP_cons_of_neg (by simpa using hlt.le), List.length_cons]
    omega
  · -- The new element makes up for the one that goes out.
    have hold := (upperMedian_iff (p := (· ≤ t)) (fun hab hb => hab.trans hb) hx).mp hlt.le
    have hcount := (countP_take_succ (· ≤ t) l n).2
    rw [upperMedian_iff (p := (· ≤ t)) (fun hab hb => hab.trans hb) hy, hnew,
      List.countP_cons_of_pos (by simp), List.length_cons]
    omega

end Median

end OrderStatistic
