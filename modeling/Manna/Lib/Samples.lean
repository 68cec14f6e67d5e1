import Mathlib.Order.Monotone.Basic
import Mathlib.Order.Nat
import Mathlib.Order.WellFounded

/-!
Samples of a list at growing positions.

`samples f l` lists the elements of `l` at the positions `f 0`, `f 1`, … as far as `l` goes.

* `samplesFrom_eq_cons`, `samplesFrom_eq_nil`: the equations of the samples;
* `samples_cases`: the first sample in a final part of the list, or none.
-/

namespace Samples

variable {α : Type*}

def samplesFrom (f : Nat → Nat) (l : List α) (i n : Nat) : List α :=
  (List.range' i n).filterMap fun i => l[f i]?

def samples (f : Nat → Nat) (l : List α) : List α := samplesFrom f l 0 l.length

section Samples

variable {f : Nat → Nat} {l : List α} {a : α}

@[simp] theorem samplesFrom_zero (i : Nat) : samplesFrom f l i 0 = [] := rfl

theorem samplesFrom_eq_cons {i n : Nat} (ha : l[f i]? = some a) :
    samplesFrom f l i (n + 1) = a :: samplesFrom f l (i + 1) n := by
  simp only [samplesFrom, List.range'_succ, List.filterMap_cons, ha]

theorem samplesFrom_eq_nil (hf : StrictMono f) {i n : Nat} (hend : l.length ≤ f i) :
    samplesFrom f l i n = [] := by
  rw [samplesFrom, List.filterMap_eq_nil_iff]
  intro j hj
  have hle := hf.monotone (List.mem_range'_1.mp hj).1
  exact List.getElem?_eq_none (by omega)

/-- **Where a final part of the list is sampled first.** `P` holds of the elements from the position
`start` on. Either some samples miss it and the next one is the first position that does not, or all
samples miss it. -/
theorem samplesFrom_cases (hf : StrictMono f) {P : α → Prop} {start : Nat}
    (hP : ∀ {d a}, l[d]? = some a → (P a ↔ start ≤ d)) {i n : Nat} (hend : l.length ≤ f (i + n)) :
    (∃ missed a rest, samplesFrom f l i n = missed ++ a :: rest ∧ (∀ b ∈ missed, ¬ P b) ∧ P a ∧
        l[f (i + missed.length)]? = some a ∧ ∀ j, i ≤ j → j < i + missed.length → f j < start) ∨
      (∀ b ∈ samplesFrom f l i n, ¬ P b) ∧ l.length ≤ f (i + (samplesFrom f l i n).length) ∧
        ∀ j, i ≤ j → j < i + (samplesFrom f l i n).length → f j < start := by
  induction n generalizing i with
  | zero => exact .inr ⟨nofun, hend, fun j hij hj => absurd hj (Nat.not_lt.mpr hij)⟩
  | succ n ih =>
    cases ha : l[f i]? with
    | none =>
      have hle := List.getElem?_eq_none_iff.mp ha
      rw [samplesFrom_eq_nil hf hle]
      exact .inr ⟨nofun, hle, fun j hij hj => absurd hj (Nat.not_lt.mpr hij)⟩
    | some a =>
      rw [samplesFrom_eq_cons ha]
      by_cases hstart : start ≤ f i
      · exact .inl ⟨[], a, _, rfl, nofun, (hP ha).mpr hstart, ha,
          fun j hij hj => absurd hj (Nat.not_lt.mpr hij)⟩
      have hmissed : ∀ {rest : List α}, (∀ b ∈ rest, ¬ P b) → ∀ b ∈ a :: rest, ¬ P b := by
        intro rest hrest b hb
        rcases List.mem_cons.mp hb with rfl | hb
        · exact fun hb => hstart ((hP ha).mp hb)
        · exact hrest b hb
      have hearlier : ∀ {m}, (∀ j, i + 1 ≤ j → j < i + 1 + m → f j < start) →
          ∀ j, i ≤ j → j < i + (m + 1) → f j < start := by
        intro m hm j hij hj
        rcases Nat.eq_or_lt_of_le hij with rfl | hlt
        · exact Nat.lt_of_not_le hstart
        · exact hm j hlt (by omega)
      have hshift : ∀ m, i + 1 + m = i + (m + 1) := fun m => by omega
      rcases ih (hshift n ▸ hend) with ⟨missed, b, rest, heq, hnot, hb, hat, hbefore⟩ |
          ⟨hnot, hlength, hbefore⟩
      · refine .inl ⟨a :: missed, b, rest, by rw [heq, List.cons_append], hmissed hnot, hb, ?_, ?_⟩
        · rwa [List.length_cons, ← hshift]
        · exact hearlier hbefore
      · refine .inr ⟨hmissed hnot, ?_, ?_⟩
        · rwa [List.length_cons, ← hshift]
        · exact hearlier hbefore

theorem samples_cases (hf : StrictMono f) {P : α → Prop} {start : Nat}
    (hP : ∀ {d a}, l[d]? = some a → (P a ↔ start ≤ d)) :
    (∃ missed a rest, samples f l = missed ++ a :: rest ∧ (∀ b ∈ missed, ¬ P b) ∧ P a ∧
        l[f missed.length]? = some a ∧ ∀ j < missed.length, f j < start) ∨
      (∀ b ∈ samples f l, ¬ P b) ∧ l.length ≤ f (samples f l).length ∧
        ∀ j < (samples f l).length, f j < start := by
  have hend : l.length ≤ f (0 + l.length) := by
    rw [Nat.zero_add]
    exact hf.le_apply
  simpa only [samples, Nat.zero_add, Nat.zero_le, true_implies] using samplesFrom_cases hf hP hend

theorem mem_samples_iff (hf : StrictMono f) : a ∈ samples f l ↔ ∃ i, l[f i]? = some a := by
  simp only [samples, samplesFrom, List.mem_filterMap, List.mem_range'_1, Nat.zero_le, true_and,
    Nat.zero_add]
  constructor
  · rintro ⟨i, -, hi⟩
    exact ⟨i, hi⟩
  · rintro ⟨i, hi⟩
    exact ⟨i, hf.le_apply.trans_lt (List.getElem?_eq_some_iff.mp hi).1, hi⟩

end Samples

end Samples
