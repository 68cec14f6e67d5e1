import Mathlib.Data.Int.ModEq
import Mathlib.Data.List.GetD

/-!
Rings: the last elements of a sequence in cells that are used over again.

The element at a position is in the cell `position % n`. `Holds` says that a ring of `n` cells has the
elements between two positions, as far as `n` positions reach back; what is put behind the last one takes
the place of the oldest.

* `Holds.put`: the ring after elements were put into it;
* `Holds.cells`: cells that lie beside each other are a part of the sequence.
-/

namespace Ring

variable {α : Type*} {ring : Nat → α} {n lo hi : Nat} {seq : List α}

/-- The ring has the elements from `lo` to `hi` that lie at most `n` positions back. -/
def Holds (ring : Nat → α) (n : Nat) (seq : List α) (lo hi : Nat) : Prop :=
  ∀ p, lo ≤ p → p < hi → hi ≤ p + n → seq[p]? = some (ring (p % n))

/-- Elements put into the cells from `pos` on. -/
def put (ring : Nat → α) (pos : Nat) (xs : List α) : Nat → α :=
  fun i => if pos ≤ i then xs.getD (i - pos) (ring i) else ring i

theorem put_of_lt {pos i : Nat} {xs : List α} (h : i < pos) : put ring pos xs i = ring i :=
  if_neg (Nat.not_le.mpr h)

theorem put_of_le {pos i : Nat} {xs : List α} (h : pos + xs.length ≤ i) : put ring pos xs i = ring i := by
  rw [put, List.getD_eq_default _ _ (by omega), ite_self]

theorem put_add {pos i : Nat} {xs : List α} (h : i < xs.length) : put ring pos xs (pos + i) = xs[i] := by
  rw [put, if_pos (Nat.le_add_right _ _), Nat.add_sub_cancel_left, List.getD_eq_getElem _ _ h]

theorem mod_add_lt {p k : Nat} (h : p % n + k < n) : (p + k) % n = p % n + k := by
  rw [Nat.add_mod, Nat.mod_eq_of_lt (b := n) (a := k) (by omega), Nat.mod_eq_of_lt h]

/-- **Elements are put behind the last one.** -/
theorem Holds.put {xs : List α} (h : Holds ring n seq lo hi) (hfits : hi % n + xs.length ≤ n)
    (hxs : xs <+: seq.drop hi) : Holds (put ring (hi % n) xs) n seq lo (hi + xs.length) := by
  intro p hlo hlt hback
  by_cases hnew : hi ≤ p
  · obtain ⟨i, rfl⟩ := Nat.exists_eq_add_of_le hnew
    have hi' : i < xs.length := by omega
    have hget : (seq.drop hi)[i]? = xs[i]? := by
      obtain ⟨rest, hrest⟩ := hxs
      rw [← hrest, List.getElem?_append_left hi']
    rw [mod_add_lt (by omega), put_add hi', ← List.getElem?_drop, hget, List.getElem?_eq_getElem hi']
  · have hold := h p hlo (by omega) (by omega)
    rw [hold]
    -- an older position that is kept lies less than a round back, in a cell before or behind the new ones
    have hcell : p % n < hi % n ∨ hi % n + xs.length ≤ p % n := by
      by_contra hcell
      obtain ⟨k, hk⟩ := Nat.exists_eq_add_of_le (show hi % n ≤ p % n by omega)
      have hk' : k < xs.length := by omega
      have hsame : (hi + k) % n = p % n := by rw [mod_add_lt (by omega), hk]
      have hdvd : n ∣ hi + k - p := (Nat.modEq_iff_dvd' (by omega)).mp hsame.symm
      have hle := Nat.le_of_dvd (by omega) hdvd
      omega
    rcases hcell with hbefore | hbehind
    · rw [put_of_lt hbefore]
    · rw [put_of_le hbehind]

/-- **Cells beside each other.** -/
theorem Holds.cells {p k : Nat} (h : Holds ring n seq lo hi) (hlo : lo ≤ p) (hhi : p + k ≤ hi)
    (hback : hi ≤ p + n) (hfits : p % n + k ≤ n) :
    ((List.range k).map fun i => ring (p % n + i)) = (seq.drop p).take k := by
  refine List.ext_getElem? fun i => ?_
  rw [List.getElem?_map, List.getElem?_take, List.getElem?_drop]
  by_cases hi' : i < k
  · rw [List.getElem?_range hi', if_pos hi', Option.map_some, h (p + i) (by omega) (by omega) (by omega),
      mod_add_lt (by omega)]
  · rw [if_neg hi', List.getElem?_eq_none (by rw [List.length_range]; omega), Option.map_none]

end Ring
