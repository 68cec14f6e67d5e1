import Mathlib.Data.Nat.Digits.Lemmas

/-!
Digits of one width regrouped as digits of another one.

A coder takes digits of `a` bits, the first one highest, and puts digits of `b` bits; what it has not put yet
is left. How it does that is for the coder; what it has put is fixed by what it has taken.

* `Regrouped.take`, `Regrouped.emit`: one digit;
* `Regrouped.swap`, `Regrouped.pad`: the same digits in the other direction;
* `Regrouped.unique`, `Regrouped.taken_unique`: two coders put the same, and the same is taken from what is put.
-/

namespace Regroup

def value (b : Nat) (digits : List Nat) : Nat := Nat.ofDigits (2 ^ b) digits.reverse

@[simp] theorem value_concat (b : Nat) (digits : List Nat) (d : Nat) :
    value b (digits ++ [d]) = d + 2 ^ b * value b digits := by
  simp [value, Nat.ofDigits_cons]

theorem value_inj {b : Nat} (hb : 0 < b) {digits digits' : List Nat} (hlen : digits.length = digits'.length)
    (h : ∀ d ∈ digits, d < 2 ^ b) (h' : ∀ d ∈ digits', d < 2 ^ b)
    (hvalue : value b digits = value b digits') : digits = digits' := by
  have hrev : digits.reverse = digits'.reverse := by
    refine Nat.ofDigits_inj_of_len_eq (Nat.one_lt_two_pow hb.ne') (by simpa using hlen) ?_ ?_ hvalue
    · simpa using h
    · simpa using h'
  exact List.reverse_inj.mp hrev

/-- Digits of `a` bits are taken and digits of `b` bits put, and `n` bits with the value `left` are left. -/
structure Regrouped (a b : Nat) (taken put : List Nat) (n left : Nat) : Prop where
  bits : a * taken.length = b * put.length + n
  value : value a taken = value b put * 2 ^ n + left
  left_lt : left < 2 ^ n
  put_lt : ∀ d ∈ put, d < 2 ^ b

variable {a b n m left right d : Nat} {taken put put' : List Nat}

namespace Regrouped

theorem nil : Regrouped a b [] [] 0 0 := ⟨rfl, rfl, by simp, by simp⟩

/-- **A digit is taken.** -/
theorem take (h : Regrouped a b taken put n left) (hd : d < 2 ^ a) :
    Regrouped a b (taken ++ [d]) put (n + a) (left * 2 ^ a + d) where
  bits := by
    have hbits := h.bits
    rw [List.length_append, List.length_singleton, Nat.mul_add]
    omega
  value := by
    rw [value_concat, h.value]
    ring
  left_lt := by
    calc left * 2 ^ a + d < left * 2 ^ a + 2 ^ a := by omega
      _ = (left + 1) * 2 ^ a := by ring
      _ ≤ 2 ^ n * 2 ^ a := Nat.mul_le_mul_right _ h.left_lt
      _ = 2 ^ (n + a) := (pow_add _ _ _).symm
  put_lt := h.put_lt

/-- **A digit is put**: the highest bits of what is left. -/
theorem emit (h : Regrouped a b taken put (n + b) left) :
    Regrouped a b taken (put ++ [left / 2 ^ n]) n (left % 2 ^ n) where
  bits := by
    have hbits := h.bits
    rw [List.length_append, List.length_singleton, Nat.mul_add]
    omega
  value := by
    have hdiv := Nat.div_add_mod left (2 ^ n)
    calc Regroup.value a taken = Regroup.value b put * 2 ^ (n + b) + left := h.value
      _ = Regroup.value b put * 2 ^ (n + b) + (2 ^ n * (left / 2 ^ n) + left % 2 ^ n) := by rw [hdiv]
      _ = _ := by
        rw [value_concat]
        ring
  left_lt := Nat.mod_lt _ (Nat.two_pow_pos n)
  put_lt := by
    intro d hd
    rcases List.mem_append.mp hd with hd | hd
    · exact h.put_lt d hd
    · obtain rfl := List.mem_singleton.mp hd
      exact Nat.div_lt_of_lt_mul (pow_add 2 n b ▸ h.left_lt)

theorem push {bytes : List UInt8} {bits : Nat} (h : Regrouped a 8 taken (bytes.map UInt8.toNat) (n + 8) bits)
    (hm : m = bits / 2 ^ n) :
    Regrouped a 8 taken ((bytes ++ [UInt8.ofNat m]).map UInt8.toNat) n (bits % 2 ^ n) := by
  have hemit := h.emit
  have hbyte := hemit.put_lt (bits / 2 ^ n) (List.mem_append_right _ List.mem_cons_self)
  rwa [hm, List.map_append, List.map_singleton, UInt8.toNat_ofNat_of_lt' hbyte]

theorem swap (h : Regrouped a b taken put 0 left) (htaken : ∀ d ∈ taken, d < 2 ^ a) :
    Regrouped b a put taken 0 0 where
  bits := h.bits.symm
  value := by
    have hvalue := h.value
    have hleft := h.left_lt
    simp only [pow_zero] at hvalue hleft ⊢
    omega
  left_lt := by simp
  put_lt := htaken

/-- The last digit is filled with zeros, which are left on the way back. -/
theorem pad (h : Regrouped a b taken put n left) (hn : n ≤ b) (htaken : ∀ d ∈ taken, d < 2 ^ a) :
    Regrouped b a (put ++ [left * 2 ^ (b - n)]) taken (b - n) 0 where
  bits := by
    have hbits := h.bits
    rw [List.length_append, List.length_singleton, Nat.mul_add]
    omega
  value := by
    have hpow : 2 ^ b = 2 ^ n * 2 ^ (b - n) := by rw [← pow_add, Nat.add_sub_cancel' hn]
    rw [value_concat, h.value, hpow]
    ring
  left_lt := Nat.two_pow_pos _
  put_lt := htaken

/-- **What is put is fixed** by what is taken, where less than a digit is left. -/
theorem unique (hb : 0 < b) (h : Regrouped a b taken put n left) (h' : Regrouped a b taken put' m right)
    (hn : n < b) (hm : m < b) : put = put' ∧ n = m ∧ left = right := by
  have hbits : b * put.length + n = b * put'.length + m := h.bits.symm.trans h'.bits
  have hlen : put.length = put'.length := by
    have hdiv := congrArg (· / b) hbits
    simpa [Nat.mul_add_div hb, Nat.div_eq_of_lt hn, Nat.div_eq_of_lt hm] using hdiv
  have hnm : n = m := by
    rw [hlen] at hbits
    omega
  subst hnm
  have hvalue : Regroup.value b put * 2 ^ n + left = Regroup.value b put' * 2 ^ n + right :=
    h.value.symm.trans h'.value
  have hput : Regroup.value b put = Regroup.value b put' := by
    have hdiv := congrArg (· / 2 ^ n) hvalue
    simpa [Nat.add_comm, Nat.add_mul_div_right _ _ (Nat.two_pow_pos n), Nat.div_eq_of_lt h.left_lt,
      Nat.div_eq_of_lt h'.left_lt] using hdiv
  rw [hput] at hvalue
  exact ⟨value_inj hb hlen h.put_lt h'.put_lt hput, rfl, by omega⟩

/-- **What is taken is fixed** by what is put, where less than a digit of it is left and that is zero. -/
theorem taken_unique (ha : 0 < a) {taken' : List Nat} (h : Regrouped a b taken put n 0)
    (h' : Regrouped a b taken' put m 0) (hn : n < a) (hm : m < a) (htaken : ∀ d ∈ taken, d < 2 ^ a)
    (htaken' : ∀ d ∈ taken', d < 2 ^ a) : taken = taken' := by
  have hbits := h.bits
  have hbits' := h'.bits
  have hlen : taken.length = taken'.length := by
    rcases Nat.lt_trichotomy taken.length taken'.length with hlt | heq | hlt
    · have := Nat.mul_le_mul_left a (Nat.succ_le_of_lt hlt)
      rw [Nat.mul_succ] at this
      omega
    · exact heq
    · have := Nat.mul_le_mul_left a (Nat.succ_le_of_lt hlt)
      rw [Nat.mul_succ] at this
      omega
  have hnm : n = m := by
    rw [hlen] at hbits
    omega
  subst hnm
  exact value_inj ha hlen htaken htaken' (h.value.trans h'.value.symm)

end Regrouped

end Regroup
