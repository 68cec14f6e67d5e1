import Mathlib.Data.Set.Basic

/-!
Filters that mark positions.

An element has some positions, and it is in a filter when all of them are marked. Marks are only added.

* `holds_mark`: what is marked is in the filter;
* `Holds.mono`: and stays in it.
-/

namespace BitFilter

variable {α ι : Type*} (positions : α → Set ι)

/-- An element is in the filter. -/
def Holds (marks : Set ι) (x : α) : Prop := positions x ⊆ marks

/-- The marks with those of an element. -/
def mark (marks : Set ι) (x : α) : Set ι := marks ∪ positions x

variable {positions} {marks marks' : Set ι} {x : α}

theorem holds_mark : Holds positions (mark positions marks x) x := Set.subset_union_right

/-- **More marks** lose no element. -/
theorem Holds.mono (h : Holds positions marks x) (hmarks : marks ⊆ marks') : Holds positions marks' x :=
  h.trans hmarks

end BitFilter
