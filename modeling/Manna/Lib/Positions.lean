import Mathlib.Data.List.Basic
import Mathlib.Data.List.Nodup
import Mathlib.Logic.Function.Basic

/-!
A vector whose members know where they stand.

`Matches v pos` says that the position kept for each member is where the vector has it, and that none
is kept for anything else. Members are added at the end, exchanged, and taken from the end; to take one
out of the middle, exchange it with the last one first.

* `Matches.push`, `Matches.swap`, `Matches.pop`: the three operations keep it;
* `Matches.nodup`, `Matches.mem_iff`: the vector lists each known member once.
-/

namespace Positions

variable {K : Type}

/-- The vector and the positions of its members say the same. -/
structure Matches (v : List K) (pos : K → Option Int) : Prop where
  at_iff : ∀ (i : Nat) (k : K), v[i]? = some k ↔ pos k = some (i : Int)
  nonneg : ∀ k p, pos k = some p → 0 ≤ p

variable {v : List K} {pos : K → Option Int} {k : K}

theorem Matches.nil : Matches ([] : List K) fun _ => none where
  at_iff i k := by simp
  nonneg := nofun

/-- Where a member stands. -/
theorem Matches.index (h : Matches v pos) {p : Int} (hp : pos k = some p) :
    ∃ i : Nat, p = i ∧ i < v.length ∧ v[i]? = some k := by
  have hnonneg := h.nonneg k p hp
  have hi : v[p.toNat]? = some k := (h.at_iff _ _).mpr (by rw [hp, Int.toNat_of_nonneg hnonneg])
  exact ⟨p.toNat, (Int.toNat_of_nonneg hnonneg).symm, (List.getElem?_eq_some_iff.mp hi).1, hi⟩

theorem Matches.mem_iff (h : Matches v pos) : k ∈ v ↔ ∃ p, pos k = some p := by
  rw [List.mem_iff_getElem?]
  constructor
  · rintro ⟨i, hi⟩
    exact ⟨i, (h.at_iff i k).mp hi⟩
  · rintro ⟨p, hp⟩
    obtain ⟨i, -, -, hi⟩ := h.index hp
    exact ⟨i, hi⟩

/-- **No member stands twice.** -/
theorem Matches.nodup (h : Matches v pos) : v.Nodup := by
  rw [List.nodup_iff_pairwise_ne, List.pairwise_iff_getElem]
  intro i j hi hj hlt heq
  have hat := (h.at_iff i _).mp (List.getElem?_eq_getElem hi)
  rw [heq, (h.at_iff j _).mp (List.getElem?_eq_getElem hj)] at hat
  have : (j : Int) = i := Option.some.inj hat
  omega

theorem Matches.congr (h : Matches v pos) {pos' : K → Option Int} (heq : ∀ k, pos' k = pos k) :
    Matches v pos' := by
  rwa [funext heq]

variable [DecidableEq K]

theorem Matches.push (h : Matches v pos) (hk : pos k = none) :
    Matches (v ++ [k]) (Function.update pos k (some (v.length : Int))) where
  at_iff i k' := by
    have hlt := h.at_iff i k'
    by_cases hkk : k' = k
    · subst hkk
      rw [Function.update_self, List.getElem?_append]
      split
      · next hi =>
        rw [hlt, hk]
        simp only [reduceCtorEq, Option.some.injEq, false_iff]
        omega
      · next hi =>
        rw [List.getElem?_singleton]
        split
        · simp only [true_iff, Option.some.injEq]
          omega
        · simp only [reduceCtorEq, Option.some.injEq, false_iff]
          omega
    · rw [Function.update_of_ne hkk, ← hlt, List.getElem?_append]
      split
      · exact Iff.rfl
      · next hi =>
        rw [List.getElem?_eq_none (Nat.not_lt.mp hi), List.getElem?_singleton]
        split
        · simp [Ne.symm hkk]
        · simp
  nonneg k' p hp := by
    by_cases hkk : k' = k
    · subst hkk
      rw [Function.update_self] at hp
      rw [← Option.some.inj hp]
      exact Int.natCast_nonneg _
    · rw [Function.update_of_ne hkk] at hp
      exact h.nonneg k' p hp

omit [DecidableEq K] in
theorem getElem?_swap {i j : Nat} (hi : i < v.length) (hj : j < v.length) (a b : K) (n : Nat) :
    ((v.set i b).set j a)[n]? = if n = j then some a else if n = i then some b else v[n]? := by
  by_cases hnj : n = j
  · subst hnj
    rw [if_pos rfl, List.getElem?_set_self (by rwa [List.length_set])]
  · rw [if_neg hnj, List.getElem?_set_ne (Ne.symm hnj)]
    by_cases hni : n = i
    · subst hni
      rw [if_pos rfl, List.getElem?_set_self hi]
    · rw [if_neg hni, List.getElem?_set_ne (Ne.symm hni)]

/-- **Two members exchanged**, with their positions. -/
theorem Matches.swap (h : Matches v pos) {i j : Nat} {a b : K} (ha : v[i]? = some a) (hb : v[j]? = some b)
    (hne : i ≠ j) : Matches ((v.set i b).set j a)
      (Function.update (Function.update pos a (some (j : Int))) b (some (i : Int))) where
  at_iff n k := by
    have hposa := (h.at_iff i a).mp ha
    have hposb := (h.at_iff j b).mp hb
    have hn := h.at_iff n k
    rw [getElem?_swap (List.getElem?_eq_some_iff.mp ha).1 (List.getElem?_eq_some_iff.mp hb).1]
    by_cases hkb : k = b
    · subst hkb
      rw [Function.update_self]
      by_cases hnj : n = j
      · subst hnj
        have hab : a ≠ k := fun heq => hne (Int.ofNat.inj (Option.some.inj (hposa.symm.trans (heq ▸ hposb))))
        simp only [if_pos, Option.some.injEq, hab, false_iff]
        omega
      · by_cases hni : n = i
        · simp [hni, hne]
        · rw [hposb] at hn
          simp only [hnj, hni, if_false, hn, Option.some.injEq]
          omega
    · rw [Function.update_of_ne hkb]
      by_cases hka : k = a
      · subst hka
        rw [Function.update_self]
        by_cases hnj : n = j
        · simp [hnj]
        · rw [hposa] at hn
          by_cases hni : n = i
          · simp only [hni, hne, if_false, if_true, Option.some.injEq, Ne.symm hkb, false_iff]
            omega
          · simp only [hnj, hni, if_false, hn, Option.some.injEq]
            omega
      · rw [Function.update_of_ne hka, ← hn]
        by_cases hnj : n = j
        · subst hnj
          simp [Ne.symm hka, hb, Ne.symm hkb]
        · by_cases hni : n = i
          · subst hni
            simp [hnj, ha, Ne.symm hka, Ne.symm hkb]
          · simp [hnj, hni]
  nonneg k p hp := by
    rw [Function.update_apply, Function.update_apply] at hp
    split_ifs at hp
    · rw [← Option.some.inj hp]
      exact Int.natCast_nonneg _
    · rw [← Option.some.inj hp]
      exact Int.natCast_nonneg _
    · exact h.nonneg k p hp

theorem Matches.pop (h : Matches v pos) (hk : v[v.length - 1]? = some k) :
    Matches v.dropLast (Function.update pos k none) where
  at_iff i k' := by
    have hi := h.at_iff i k'
    have hpos := (h.at_iff _ k).mp hk
    have hlen := (List.getElem?_eq_some_iff.mp hk).1
    rw [List.getElem?_dropLast]
    by_cases hkk : k' = k
    · subst hkk
      rw [Function.update_self]
      split
      · next hlt =>
        rw [hi, hpos]
        simp only [Option.some.injEq, reduceCtorEq, iff_false]
        omega
      · simp
    · rw [Function.update_of_ne hkk, ← hi]
      split
      · exact Iff.rfl
      · next hge =>
        simp only [reduceCtorEq, false_iff]
        intro hv
        have hlt := (List.getElem?_eq_some_iff.mp hv).1
        obtain rfl : i = v.length - 1 := by omega
        exact hkk (Option.some.inj (hv.symm.trans hk))
  nonneg k' p hp := by
    rw [Function.update_apply] at hp
    split_ifs at hp
    exact h.nonneg k' p hp

end Positions
