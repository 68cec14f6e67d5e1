import Mathlib.Data.List.Induction
import Mathlib.Algebra.Order.Ring.Nat

/-!
Bijective numeration: every digit counts one more than in positional notation.

The value of a list of digits below `b`, the most significant one first, is `Σ (d_i + 1) * b ^ i`. No list is
longer than it must be, so that two lists never have one value.

* `value_inj`: lists of one value are the same.
-/

namespace Bijective

def value (b : Nat) (digits : List Nat) : Nat := digits.foldl (fun acc d => acc * b + d + 1) 0

variable {b : Nat} {digits digits' : List Nat}

@[simp] theorem value_nil : value b [] = 0 := rfl

@[simp] theorem value_concat (d : Nat) : value b (digits ++ [d]) = value b digits * b + d + 1 := by
  rw [value, List.foldl_append]
  rfl

/-- **Lists of one value are the same.** -/
theorem value_inj (hdigits : ∀ d ∈ digits, d < b) (hdigits' : ∀ d ∈ digits', d < b)
    (h : value b digits = value b digits') : digits = digits' := by
  induction digits using List.reverseRecOn generalizing digits' with
  | nil =>
    cases digits' using List.reverseRecOn with
    | nil => rfl
    | append_singleton init d => simp at h
  | append_singleton init d ih =>
    cases digits' using List.reverseRecOn with
    | nil => simp at h
    | append_singleton init' d' =>
      rw [value_concat, value_concat] at h
      have hd : d < b := hdigits d (by simp)
      have hd' : d' < b := hdigits' d' (by simp)
      -- quotient and remainder by `b` tell the last digit from the others
      have hsum : value b init * b + d = value b init' * b + d' := by omega
      have hlast : d = d' := by
        have hmod := congrArg (· % b) hsum
        simpa [Nat.mod_eq_of_lt hd, Nat.mod_eq_of_lt hd'] using hmod
      have hinit : value b init = value b init' := by
        subst hlast
        exact Nat.eq_of_mul_eq_mul_right (Nat.zero_lt_of_lt hd) (by omega)
      rw [hlast, ih (fun d h => hdigits d (List.mem_append_left _ h))
        (fun d h => hdigits' d (List.mem_append_left _ h)) hinit]

end Bijective
