import Mathlib.Data.Nat.Bitwise

/-!
Numbers in limbs of 32 bits, the lowest first.

`value` is the number of some limbs. It is told by its bits (`testBit_value`), and of as many limbs only one
list has it (`value_inj`).
-/

namespace Limbs

/-- The number of some limbs. -/
def value : List UInt32 → Nat
  | [] => 0
  | a :: l => a.toNat + 2 ^ 32 * value l

variable {l m : List UInt32}

@[simp] theorem value_nil : value [] = 0 := rfl

@[simp] theorem value_cons (a : UInt32) (l : List UInt32) : value (a :: l) = a.toNat + 2 ^ 32 * value l := rfl

theorem pow_succ_limb (n : Nat) : 2 ^ (32 * (n + 1)) = 2 ^ 32 * 2 ^ (32 * n) := by
  rw [Nat.mul_add, Nat.pow_add, Nat.mul_comm]

theorem value_append (l m : List UInt32) : value (l ++ m) = value l + 2 ^ (32 * l.length) * value m := by
  induction l with
  | nil => simp
  | cons a l ih =>
    rw [List.cons_append, value_cons, ih, value_cons, List.length_cons, pow_succ_limb, Nat.mul_add,
      Nat.mul_assoc, Nat.add_assoc]

theorem value_lt (l : List UInt32) : value l < 2 ^ (32 * l.length) := by
  induction l with
  | nil => simp
  | cons a l ih =>
    have ha := a.toNat_lt
    have carry : 1 + value l ≤ 2 ^ (32 * l.length) := by omega
    calc value (a :: l) < 2 ^ 32 * (1 + value l) := by rw [value_cons]; omega
      _ ≤ 2 ^ 32 * 2 ^ (32 * l.length) := Nat.mul_le_mul_left _ carry
      _ = 2 ^ (32 * (a :: l).length) := (pow_succ_limb _).symm

theorem mod_cons {x : Nat} (hx : x < 2 ^ 32) (y n : Nat) :
    (x + 2 ^ 32 * y) % (2 ^ 32 * n) = x + 2 ^ 32 * (y % n) := by
  rw [Nat.mod_mul, Nat.add_mul_mod_self_left, Nat.mod_eq_of_lt hx, Nat.add_mul_div_left _ _ (by decide),
    Nat.div_eq_of_lt hx, Nat.zero_add]

theorem value_inj (hlen : l.length = m.length) (h : value l = value m) : l = m := by
  induction l generalizing m with
  | nil => exact (List.length_eq_zero_iff.mp hlen.symm).symm
  | cons a l ih =>
    cases m with
    | nil => cases hlen
    | cons b m =>
      have ha := a.toNat_lt
      have hb := b.toNat_lt
      rw [value_cons, value_cons] at h
      have low : a.toNat = b.toNat := by omega
      rw [UInt32.toNat_inj.mp low, ih (Nat.succ.inj hlen) (by omega)]

theorem value_replicate_zero (n : Nat) : value (List.replicate n 0) = 0 := by
  induction n with
  | zero => rfl
  | succ n ih => rw [List.replicate_succ, value_cons, ih]; rfl

/-- **A bit of the number is a bit of a limb.** -/
theorem testBit_value (l : List UInt32) (t : Nat) :
    (value l).testBit t = (l.getD (t / 32) 0).toNat.testBit (t % 32) := by
  induction l generalizing t with
  | nil => simp
  | cons a l ih =>
    rw [value_cons, Nat.add_comm, Nat.testBit_two_pow_mul_add _ a.toNat_lt]
    by_cases ht : t < 32
    · rw [if_pos ht, Nat.div_eq_of_lt ht, Nat.mod_eq_of_lt ht, List.getD_cons_zero]
    · obtain ⟨u, rfl⟩ : ∃ u, t = u + 32 := ⟨t - 32, by omega⟩
      rw [if_neg ht, Nat.add_sub_cancel, ih, Nat.add_mod_right, Nat.add_div_right _ (by decide),
        List.getD_cons_succ]

/-- **The complement.** -/
theorem value_map_not (l : List UInt32) : value (l.map (~~~ ·)) + value l + 1 = 2 ^ (32 * l.length) := by
  induction l with
  | nil => rfl
  | cons a l ih =>
    have ha := a.toNat_lt
    have not : (~~~a).toNat = 2 ^ 32 - 1 - a.toNat := UInt32.toNat_not a
    rw [List.map_cons, value_cons, value_cons, not, List.length_cons, pow_succ_limb, ← ih]
    omega

end Limbs
