import Mathlib.Data.List.Forall2

/-!
Greedy matching of a list into another, in order.

`greedy r as bs` goes through `bs` once, and takes the next of `as` whenever it is related to the
item at hand. It succeeds exactly if `as` is related, item by item, to a sublist of `bs`
(`List.SublistForall₂`).

* `greedy_iff`: it is complete;
* `greedy_of_length_lt`: it may stop when fewer items are left than are to be matched;
* `sublistForall₂_reverse_iff`: the lists may be read from either end.
-/

namespace GreedyMatch

variable {α β : Type} {r : α → β → Bool}

/-- **Greedy matching.** -/
def greedy (r : α → β → Bool) : List α → List β → Bool
  | [], _ => true
  | _ :: _, [] => false
  | a :: as, b :: bs => if r a b then greedy r as bs else greedy r (a :: as) bs

theorem sublistForall₂_tail {R : α → β → Prop} {a : α} {as : List α} {bs : List β}
    (h : List.SublistForall₂ R (a :: as) bs) : List.SublistForall₂ R as bs := by
  generalize hl : a :: as = l at h
  induction h with
  | nil => cases hl
  | cons _ h _ =>
    cases hl
    exact .cons_right h
  | cons_right _ ih => exact .cons_right (ih hl)

theorem greedy_iff {as : List α} {bs : List β} :
    greedy r as bs = true ↔ List.SublistForall₂ (fun a b => r a b = true) as bs := by
  induction bs generalizing as with
  | nil =>
    cases as with
    | nil => exact iff_of_true rfl .nil
    | cons a as => exact iff_of_false Bool.false_ne_true nofun
  | cons b bs ih =>
    cases as with
    | nil => exact iff_of_true rfl .nil
    | cons a as =>
      rw [greedy]
      split_ifs with hr
      · rw [ih]
        constructor
        · exact .cons hr
        · intro h
          cases h with
          | cons _ h => exact h
          | cons_right h => exact sublistForall₂_tail h
      · rw [ih]
        constructor
        · exact .cons_right
        · intro h
          cases h with
          | cons hr' _ => exact absurd hr' hr
          | cons_right h => exact h

/-- **Too many are left** to be matched. -/
theorem greedy_of_length_lt {as : List α} {bs : List β} (h : bs.length < as.length) :
    greedy r as bs = false := by
  rw [← Bool.not_eq_true, greedy_iff, List.sublistForall₂_iff]
  rintro ⟨bs', hr, hsub⟩
  have hlen := hr.length_eq
  have hle := hsub.length_le
  omega

theorem sublistForall₂_reverse {R : α → β → Prop} {as : List α} {bs : List β}
    (h : List.SublistForall₂ R as bs) : List.SublistForall₂ R as.reverse bs.reverse := by
  obtain ⟨bs', hr, hsub⟩ := List.sublistForall₂_iff.mp h
  exact List.sublistForall₂_iff.mpr ⟨bs'.reverse, List.rel_reverse hr, hsub.reverse⟩

theorem sublistForall₂_reverse_iff {R : α → β → Prop} {as : List α} {bs : List β} :
    List.SublistForall₂ R as.reverse bs.reverse ↔ List.SublistForall₂ R as bs := by
  constructor
  · intro h
    have hback := sublistForall₂_reverse h
    rwa [List.reverse_reverse, List.reverse_reverse] at hback
  · exact sublistForall₂_reverse

end GreedyMatch
