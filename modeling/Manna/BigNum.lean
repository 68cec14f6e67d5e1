import Mathlib.Data.Nat.Size
import Mathlib.Data.Nat.Bitwise
import Mathlib.Tactic.Ring
import Mathlib.Tactic.NormNum
import Mathlib.Tactic.SplitIfs

/-!
The compact representation of targets (`bignum.h`: `SetCompact`, `GetCompact`).

A `CBigNum` is an `Int`. The compact form keeps three bytes of the magnitude, the number
of its bytes and a sign bit.

* `setCompact_getCompact`: decoding what was encoded gives a value of the same sign,
  not larger in magnitude, and not zero when the number is not;
* `setCompact_getCompact_pos_iff`: in particular positivity survives exactly.
-/

namespace Manna

def numBytes (n : Nat) : Nat := (n.size + 7) / 8

def setCompact (nCompact : Nat) : Int :=
  let nSize := nCompact >>> 24
  let fNegative := nCompact &&& 0x00800000 ≠ 0
  let nWord := nCompact &&& 0x007fffff
  let magnitude := if nSize ≤ 3 then nWord >>> (8 * (3 - nSize)) else nWord <<< (8 * (nSize - 3))
  if fNegative then -(magnitude : Int) else magnitude

/-- The three leading bytes of a magnitude, as `GetCompact` takes them. -/
def leadingWord (n : Nat) : Nat :=
  if numBytes n ≤ 3 then n <<< (8 * (3 - numBytes n)) else n >>> (8 * (numBytes n - 3))

/-- Mantissa and exponent after the sign bit has been kept free. -/
def compactParts (n : Nat) : Nat × Nat :=
  if leadingWord n &&& 0x00800000 ≠ 0 then (leadingWord n >>> 8, numBytes n + 1)
  else (leadingWord n, numBytes n)

def getCompact (n : Int) : Nat :=
  let (nCompact, nSize) := compactParts n.natAbs
  (nCompact ||| (nSize <<< 24) % 2 ^ 32) ||| if n < 0 then 0x00800000 else 0

/-! ### Magnitudes and bytes -/

theorem numBytes_zero : numBytes 0 = 0 := rfl

theorem lt_pow_numBytes (n : Nat) : n < 256 ^ numBytes n := by
  have hsize := Nat.lt_size_self n
  refine hsize.trans_le ?_
  rw [show (256 : Nat) = 2 ^ 8 from rfl, ← pow_mul]
  exact Nat.pow_le_pow_right (by norm_num) (by unfold numBytes; omega)

theorem pow_numBytes_le {n : Nat} (h : 0 < n) : 256 ^ (numBytes n - 1) ≤ n := by
  have hsize : 0 < n.size := Nat.size_pos.mpr h
  have hle : 2 ^ (n.size - 1) ≤ n := Nat.lt_size.mp (by omega)
  refine le_trans ?_ hle
  rw [show (256 : Nat) = 2 ^ 8 from rfl, ← pow_mul]
  exact Nat.pow_le_pow_right (by norm_num) (by unfold numBytes; omega)

theorem numBytes_pos {n : Nat} (h : 0 < n) : 0 < numBytes n := by
  have hsize : 0 < n.size := Nat.size_pos.mpr h
  unfold numBytes
  omega

theorem numBytes_eq {n k : Nat} (hle : 256 ^ k ≤ n) (hlt : n < 256 ^ (k + 1)) : numBytes n = k + 1 := by
  have hpos : 0 < n := (Nat.pow_pos (by norm_num)).trans_le hle
  have hlow : 256 ^ (numBytes n - 1) < 256 ^ (k + 1) := (pow_numBytes_le hpos).trans_lt hlt
  have hhigh : 256 ^ k < 256 ^ numBytes n := hle.trans_lt (lt_pow_numBytes n)
  rw [Nat.pow_lt_pow_iff_right (by norm_num)] at hlow hhigh
  have := numBytes_pos hpos
  omega

theorem leadingWord_lt (n : Nat) : leadingWord n < 2 ^ 24 := by
  have hlt := lt_pow_numBytes n
  unfold leadingWord
  split
  · next hle =>
    rw [Nat.shiftLeft_eq]
    calc n * 2 ^ (8 * (3 - numBytes n))
        < 256 ^ numBytes n * 2 ^ (8 * (3 - numBytes n)) :=
          Nat.mul_lt_mul_of_pos_right hlt (Nat.pow_pos (by norm_num))
      _ = 2 ^ 24 := by
          rw [show (256 : Nat) = 2 ^ 8 from rfl, ← pow_mul, ← pow_add]
          congr 1
          omega
  · next hle =>
    rw [Nat.shiftRight_eq_div_pow, Nat.div_lt_iff_lt_mul (Nat.pow_pos (by norm_num))]
    refine hlt.trans_eq ?_
    rw [show (256 : Nat) = 2 ^ 8 from rfl, ← pow_mul, ← pow_add]
    congr 1
    omega

theorem le_leadingWord {n : Nat} (h : 0 < n) : 2 ^ 16 ≤ leadingWord n := by
  have hle := pow_numBytes_le h
  have hpos := numBytes_pos h
  unfold leadingWord
  split
  · next hthree =>
    rw [Nat.shiftLeft_eq]
    calc 2 ^ 16 = 256 ^ (numBytes n - 1) * 2 ^ (8 * (3 - numBytes n)) := by
          rw [show (256 : Nat) = 2 ^ 8 from rfl, ← pow_mul, ← pow_add]
          congr 1
          omega
      _ ≤ n * 2 ^ (8 * (3 - numBytes n)) := Nat.mul_le_mul_right _ hle
  · next hthree =>
    rw [Nat.shiftRight_eq_div_pow, Nat.le_div_iff_mul_le (Nat.pow_pos (by norm_num))]
    refine le_of_eq_of_le ?_ hle
    rw [show (256 : Nat) = 2 ^ 8 from rfl, ← pow_mul, ← pow_add]
    congr 1
    omega

theorem and_signBit_ne_zero {w : Nat} (h : w < 2 ^ 24) : w &&& 0x00800000 ≠ 0 ↔ 2 ^ 23 ≤ w := by
  rw [show (0x00800000 : Nat) = 2 ^ 23 from rfl, Nat.and_two_pow]
  rw [Nat.testBit_eq_decide_div_mod_eq]
  by_cases hset : w / 2 ^ 23 % 2 = 1
  · simp only [hset, decide_true, Bool.toNat_true, one_mul]
    omega
  · simp only [hset, decide_false, Bool.toNat_false, zero_mul]
    omega

/-! ### Encoding and decoding -/

/-- The magnitude `SetCompact` reads from a mantissa and an exponent. -/
def partsValue (parts : Nat × Nat) : Nat :=
  if parts.2 ≤ 3 then parts.1 >>> (8 * (3 - parts.2)) else parts.1 <<< (8 * (parts.2 - 3))

theorem compactParts_lt (n : Nat) : (compactParts n).1 < 2 ^ 23 := by
  have hlt := leadingWord_lt n
  unfold compactParts
  split
  · rw [Nat.shiftRight_eq_div_pow]
    omega
  · next hbit =>
    rw [and_signBit_ne_zero hlt] at hbit
    omega

/-- The mantissa that belongs to the exponent, whether the sign bit was in the way or not. -/
theorem compactParts_fst (n : Nat) :
    (compactParts n).1 = if (compactParts n).2 ≤ 3 then n <<< (8 * (3 - (compactParts n).2))
      else n >>> (8 * ((compactParts n).2 - 3)) := by
  unfold compactParts
  split
  · -- The mantissa gives up a byte to the sign bit.
    simp only
    unfold leadingWord
    split_ifs with hthree hfew hfew
    · rw [show 8 * (3 - numBytes n) = 8 * (3 - (numBytes n + 1)) + 8 by omega, Nat.shiftLeft_add,
        Nat.shiftLeft_shiftRight]
    · have hbytes : numBytes n = 3 := by omega
      simp [hbytes]
    · omega
    · rw [← Nat.shiftRight_add]
      congr 1
      omega
  · rfl

theorem le_compactParts_fst {n : Nat} (h : 0 < n) : 2 ^ 15 ≤ (compactParts n).1 := by
  have hword := le_leadingWord h
  have hlt := leadingWord_lt n
  unfold compactParts
  split
  · next hbit =>
    rw [and_signBit_ne_zero hlt] at hbit
    simp only [Nat.shiftRight_eq_div_pow]
    omega
  · simp only
    omega

theorem partsValue_compactParts_eq (n : Nat) : partsValue (compactParts n) =
      n / 2 ^ (8 * ((compactParts n).2 - 3)) * 2 ^ (8 * ((compactParts n).2 - 3)) := by
  have hfst := compactParts_fst n
  unfold partsValue
  split at hfst
  · next hthree =>
    rw [if_pos hthree, hfst, Nat.shiftLeft_shiftRight, Nat.sub_eq_zero_of_le hthree]
    simp
  · next hthree => rw [if_neg hthree, hfst, Nat.shiftLeft_eq, Nat.shiftRight_eq_div_pow]

theorem partsValue_compactParts (n : Nat) :
    partsValue (compactParts n) ≤ n ∧ (0 < n → 0 < partsValue (compactParts n)) := by
  refine ⟨partsValue_compactParts_eq n ▸ Nat.div_mul_le_self _ _, fun hpos => ?_⟩
  have hfst := compactParts_fst n
  have hle := le_compactParts_fst hpos
  rw [partsValue_compactParts_eq]
  split at hfst
  · next hthree =>
    rw [Nat.sub_eq_zero_of_le hthree]
    simpa using hpos
  · rw [Nat.shiftRight_eq_div_pow] at hfst
    exact Nat.mul_pos (by omega) (Nat.pow_pos (by norm_num))

/-- A mantissa below the sign bit, an exponent byte and a sign, put together. -/
theorem assembled_eq {word nSize : Nat} (hword : word < 2 ^ 23) (hsize : nSize < 256) (negative : Bool) :
    ((word ||| (nSize <<< 24) % 2 ^ 32) ||| if negative then 0x00800000 else 0) =
      2 ^ 24 * nSize + (word + if negative then 2 ^ 23 else 0) := by
  have hmod : (nSize <<< 24) % 2 ^ 32 = nSize <<< 24 := by
    rw [Nat.shiftLeft_eq]
    exact Nat.mod_eq_of_lt (by omega)
  rw [hmod, Nat.lor_assoc, Nat.lor_comm (nSize <<< 24), ← Nat.lor_assoc]
  have hlow : (word ||| if negative then 0x00800000 else 0) =
      word + if negative then 2 ^ 23 else 0 := by
    cases negative with
    | false => simp
    | true =>
      have := Nat.two_pow_add_eq_or_of_lt hword 1
      simp only [mul_one] at this
      simp only [if_true]
      rw [show (0x00800000 : Nat) = 2 ^ 23 from rfl, Nat.lor_comm, ← this]
      omega
  rw [hlow, Nat.lor_comm, Nat.shiftLeft_eq, mul_comm nSize]
  refine (Nat.two_pow_add_eq_or_of_lt ?_ nSize).symm
  split <;> omega

theorem signBit_ne_zero_iff (nCompact : Nat) : nCompact &&& 0x00800000 ≠ 0 ↔ nCompact / 2 ^ 23 % 2 = 1 := by
  rw [show (0x00800000 : Nat) = 2 ^ 23 from rfl, Nat.and_two_pow, Nat.testBit_eq_decide_div_mod_eq]
  simp

theorem setCompact_assembled {word nSize : Nat} (hword : word < 2 ^ 23) (hsize : nSize < 256)
    (negative : Bool) :
    setCompact ((word ||| (nSize <<< 24) % 2 ^ 32) ||| if negative then 0x00800000 else 0) =
      if negative then -(partsValue (word, nSize) : Int) else partsValue (word, nSize) := by
  rw [assembled_eq hword hsize]
  have hlow : word + (if negative then 2 ^ 23 else 0) < 2 ^ 24 := by split <;> omega
  generalize htotal : 2 ^ 24 * nSize + (word + if negative then 2 ^ 23 else 0) = total
  have hshift : total >>> 24 = nSize := by
    rw [Nat.shiftRight_eq_div_pow]
    omega
  have hmask : total &&& 0x007fffff = word := by
    rw [show (0x007fffff : Nat) = 2 ^ 23 - 1 from rfl, Nat.and_two_pow_sub_one_eq_mod, ← htotal]
    split <;> omega
  have hsign : (total &&& 0x00800000 ≠ 0) ↔ negative = true := by
    rw [signBit_ne_zero_iff]
    cases negative with
    | false =>
      simp only [Bool.false_eq_true, if_false] at htotal
      simp only [Bool.false_eq_true, iff_false]
      omega
    | true =>
      simp only [if_true] at htotal
      simp only [iff_true]
      omega
  unfold setCompact
  simp only [hshift, hmask, hsign, partsValue]

theorem compactParts_size_lt {n : Nat} (h : n < 256 ^ 254) : (compactParts n).2 < 256 := by
  have hbytes : numBytes n ≤ 254 := by
    rcases Nat.eq_zero_or_pos n with rfl | hpos
    · simp [numBytes_zero]
    · by_contra hlt
      have := pow_numBytes_le hpos
      have hpow : 256 ^ 254 ≤ 256 ^ (numBytes n - 1) := Nat.pow_le_pow_right (by norm_num) (by omega)
      omega
  unfold compactParts
  split <;> simp only <;> omega

/-- Decoding what was encoded: the sign is kept, the magnitude loses low bytes only. -/
theorem setCompact_getCompact {n : Int} (h : n.natAbs < 256 ^ 254) : setCompact (getCompact n) =
      if n < 0 then -(partsValue (compactParts n.natAbs) : Int) else partsValue (compactParts n.natAbs) := by
  have := setCompact_assembled (compactParts_lt n.natAbs) (compactParts_size_lt h) (decide (n < 0))
  simpa [getCompact] using this

/-- The sign bit makes a compact number nonpositive, whatever the other bits are. -/
theorem setCompact_nonpos_of_sign (nCompact : Nat) : setCompact (nCompact ||| 0x00800000) ≤ 0 := by
  have hsign : (nCompact ||| 0x00800000) &&& 0x00800000 ≠ 0 := by
    rw [show (0x00800000 : Nat) = 2 ^ 23 from rfl, Nat.and_two_pow, Nat.testBit_or,
      Nat.testBit_two_pow_self, Bool.or_true]
    decide
  unfold setCompact
  simp only [hsign, ne_eq, not_false_eq_true, if_true]
  omega

/-- Encoding neither creates nor destroys positivity, below the largest exponent. -/
theorem setCompact_getCompact_pos_iff {n : Int} (h : n < 256 ^ 254) :
    0 < setCompact (getCompact n) ↔ 0 < n := by
  rcases lt_trichotomy n 0 with hneg | rfl | hpos
  · have := setCompact_nonpos_of_sign
      ((compactParts n.natAbs).1 ||| ((compactParts n.natAbs).2 <<< 24) % 2 ^ 32)
    unfold getCompact
    simp only [hneg, if_true]
    omega
  · decide
  · obtain ⟨-, hvalue⟩ := partsValue_compactParts n.natAbs
    rw [setCompact_getCompact (by omega), if_neg (by omega)]
    have := hvalue (by omega)
    omega

theorem setCompact_getCompact_le {n bound : Int} (h : n < 256 ^ 254) (hn : n ≤ bound)
    (hbound : 0 ≤ bound) : setCompact (getCompact n) ≤ bound := by
  rcases lt_or_ge 0 n with hpos | hnonpos
  · obtain ⟨hle, -⟩ := partsValue_compactParts n.natAbs
    rw [setCompact_getCompact (by omega), if_neg (by omega)]
    omega
  · have := (setCompact_getCompact_pos_iff h).not.mpr (by omega)
    omega

end Manna
