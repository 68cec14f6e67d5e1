import Mathlib.Computability.Language

/-!
Masks with wildcards.

A mask is a list of tokens: a character for itself, one arbitrary character, or any string. The language of a
mask is the product of the languages of its tokens; `mem_one_cons`, `mem_lit_cons` and `mem_any_cons` say what
it is from the first token on.
-/

namespace Wildcard

variable {α : Type}

/-- What may stand in a mask. -/
inductive Token (α : Type) where
  | lit (a : α)
  | one
  | any

/-- The strings that a token stands for. -/
def Token.language : Token α → Language α
  | .lit a => {[a]}
  | .one => {w | w.length = 1}
  | .any => ⊤

/-- The strings that a mask stands for. -/
def language (mask : List (Token α)) : Language α := (mask.map Token.language).prod

variable {mask : List (Token α)} {w : List α} {a : α}

@[simp] theorem language_nil : language ([] : List (Token α)) = 1 := rfl

theorem language_cons (t : Token α) : language (t :: mask) = t.language * language mask := by
  rw [language, List.map_cons, List.prod_cons, language]

theorem mem_nil : w ∈ language ([] : List (Token α)) ↔ w = [] := Language.mem_one w

theorem mem_lit_cons : w ∈ language (.lit a :: mask) ↔ ∃ v, w = a :: v ∧ v ∈ language mask := by
  rw [language_cons, Language.mem_mul]
  constructor
  · rintro ⟨u, hu, v, hv, rfl⟩
    obtain rfl : u = [a] := hu
    exact ⟨v, rfl, hv⟩
  · rintro ⟨v, rfl, hv⟩
    exact ⟨[a], rfl, v, hv, rfl⟩

theorem mem_one_cons : w ∈ language (.one :: mask) ↔ ∃ a v, w = a :: v ∧ v ∈ language mask := by
  rw [language_cons, Language.mem_mul]
  constructor
  · rintro ⟨u, hu, v, hv, rfl⟩
    obtain ⟨a, rfl⟩ := List.length_eq_one_iff.mp hu
    exact ⟨a, v, rfl, hv⟩
  · rintro ⟨a, v, rfl, hv⟩
    exact ⟨[a], rfl, v, hv, rfl⟩

/-- **Any string is the empty one, or a character and any string.** -/
theorem mem_any_cons :
    w ∈ language (.any :: mask) ↔ w ∈ language mask ∨ ∃ a v, w = a :: v ∧ v ∈ language (.any :: mask) := by
  simp only [language_cons, Language.mem_mul]
  constructor
  · rintro ⟨u, -, v, hv, rfl⟩
    cases u with
    | nil => exact .inl hv
    | cons a u => exact .inr ⟨a, u ++ v, rfl, u, trivial, v, hv, rfl⟩
  · rintro (hw | ⟨a, v', rfl, u, -, v, hv, rfl⟩)
    · exact ⟨[], trivial, w, hw, rfl⟩
    · exact ⟨a :: u, trivial, v, hv, rfl⟩

end Wildcard
