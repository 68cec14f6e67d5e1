import Manna.BigNum

/-!
What the compact form keeps of a number (`bignum.h`: `SetCompact`, `GetCompact`).

The mantissa of a number has from 16 to 23 bits, so the exponent is determined by the number. The exponent
has one byte: from `2 ^ 2039` on it does not fit.

* `compactParts_bounds`: the bounds of the mantissa;
* `getCompact_setCompact_iff`: which compact numbers are encodings;
* `compactTarget`: what is lost, the order, and that nothing overflows.
-/

namespace Manna

/-! ### The mantissa and the exponent -/

def lostBits (n : Nat) : Nat := 8 * ((compactParts n).2 - 3)

/-- **The bounds of the mantissa** decide how many bits are lost. -/
theorem compactParts_bounds (n : Nat) :
    n < 2 ^ 23 * 2 ^ lostBits n ∧ (0 < lostBits n → 2 ^ 15 * 2 ^ lostBits n ≤ n) := by
  have hfst := compactParts_fst n
  have hlt := compactParts_lt n
  unfold lostBits
  split at hfst
  · next hthree =>
    rw [Nat.sub_eq_zero_of_le hthree]
    refine ⟨?_, fun h => absurd h (by decide)⟩
    rw [hfst, Nat.shiftLeft_eq] at hlt
    exact ((Nat.le_mul_of_pos_right n (Nat.pow_pos (by decide))).trans_lt hlt).trans_eq (by norm_num)
  · next hthree =>
    have hpos : 0 < 2 ^ (8 * ((compactParts n).2 - 3)) := Nat.pow_pos (by decide)
    rw [Nat.shiftRight_eq_div_pow] at hfst
    rw [hfst] at hlt
    refine ⟨(Nat.div_lt_iff_lt_mul hpos).mp hlt, fun _ => ?_⟩
    rcases Nat.eq_zero_or_pos n with rfl | hn
    · exact absurd (show (compactParts 0).2 ≤ 3 by decide) hthree
    · exact (Nat.le_div_iff_mul_le hpos).mp (hfst ▸ le_compactParts_fst hn)

/-- The exponent fits into its byte below `2 ^ 2039`. -/
theorem compactParts_snd_lt_iff {n : Nat} : (compactParts n).2 < 256 ↔ n < 2 ^ 2039 := by
  obtain ⟨hlt, hle⟩ := compactParts_bounds n
  constructor
  · intro hsize
    have hbits : lostBits n ≤ 2016 := by
      unfold lostBits
      omega
    calc n < 2 ^ 23 * 2 ^ lostBits n := hlt
      _ ≤ 2 ^ 23 * 2 ^ 2016 := Nat.mul_le_mul_left _ (pow_le_pow_right₀ (by decide) hbits)
      _ = 2 ^ 2039 := by rw [← pow_add]
  · intro hn
    by_contra hsize
    have hbits : 2024 ≤ lostBits n := by
      unfold lostBits
      omega
    have hlow : 2 ^ 2039 ≤ n := by
      calc 2 ^ 2039 = 2 ^ 15 * 2 ^ 2024 := by rw [← pow_add]
        _ ≤ 2 ^ 15 * 2 ^ lostBits n := Nat.mul_le_mul_left _ (pow_le_pow_right₀ (by decide) hbits)
        _ ≤ n := hle (by omega)
    exact absurd hn (not_lt.mpr hlow)

theorem mantissa_le {a b : Nat} (h : a + 8 ≤ b) : 2 ^ 23 * 2 ^ a ≤ 2 ^ 15 * 2 ^ b := by
  calc 2 ^ 23 * 2 ^ a = 2 ^ 15 * 2 ^ (a + 8) := by ring
    _ ≤ 2 ^ 15 * 2 ^ b := Nat.mul_le_mul_left _ (Nat.pow_le_pow_right (by decide) h)

/-- Numbers of one exponent after the other: more lost bits mean a number beyond. -/
theorem lostBits_mono {n m : Nat} (h : n ≤ m) : lostBits n ≤ lostBits m := by
  by_contra hlt
  have hbits : lostBits m + 8 ≤ lostBits n := by
    unfold lostBits at hlt ⊢
    omega
  have hn := (compactParts_bounds n).2 (by omega)
  have hm := (compactParts_bounds m).1
  exact absurd h (not_le.mpr (hm.trans_le ((mantissa_le hbits).trans hn)))

/-- **What is kept has the order of the numbers.** -/
theorem partsValue_mono {n m : Nat} (h : n ≤ m) :
    partsValue (compactParts n) ≤ partsValue (compactParts m) := by
  rw [partsValue_compactParts_eq, partsValue_compactParts_eq]
  change n / 2 ^ lostBits n * 2 ^ lostBits n ≤ m / 2 ^ lostBits m * 2 ^ lostBits m
  rcases (lostBits_mono h).lt_or_eq with hlt | heq
  · -- All of the smaller number is below the least mantissa of the larger one.
    have hbits : lostBits n + 8 ≤ lostBits m := by
      unfold lostBits at hlt ⊢
      omega
    have hpos : 0 < 2 ^ lostBits m := Nat.pow_pos (by decide)
    have hmantissa : 2 ^ 15 ≤ m / 2 ^ lostBits m :=
      (Nat.le_div_iff_mul_le hpos).mpr ((compactParts_bounds m).2 (by omega))
    calc n / 2 ^ lostBits n * 2 ^ lostBits n ≤ n := Nat.div_mul_le_self _ _
      _ ≤ 2 ^ 23 * 2 ^ lostBits n := (compactParts_bounds n).1.le
      _ ≤ 2 ^ 15 * 2 ^ lostBits m := mantissa_le hbits
      _ ≤ m / 2 ^ lostBits m * 2 ^ lostBits m := Nat.mul_le_mul_right _ hmantissa
  · rw [heq]
    exact Nat.mul_le_mul_right _ (Nat.div_le_div_right h)

/-- **Less than a `2 ^ -15` fraction is lost.** -/
theorem sub_partsValue_lt {n : Nat} (hn : 0 < n) : 2 ^ 15 * (n - partsValue (compactParts n)) < n := by
  rw [partsValue_compactParts_eq]
  change 2 ^ 15 * (n - n / 2 ^ lostBits n * 2 ^ lostBits n) < n
  have hmod : n - n / 2 ^ lostBits n * 2 ^ lostBits n = n % 2 ^ lostBits n := by
    have := Nat.div_add_mod' n (2 ^ lostBits n)
    omega
  have hlt : n % 2 ^ lostBits n < 2 ^ lostBits n := Nat.mod_lt _ (Nat.pow_pos (by decide))
  rw [hmod]
  rcases Nat.eq_zero_or_pos (lostBits n) with hzero | hpos
  · rw [hzero, pow_zero, Nat.mod_one]
    simpa using hn
  · have := (compactParts_bounds n).2 hpos
    omega

/-! ### Canonical compact numbers -/

/-- The mantissa of a compact number. -/
def compactWord (nCompact : Nat) : Nat := nCompact &&& 0x007fffff

/-- A compact number is canonical if its mantissa has 16 bits at least and no more bytes than the exponent
says; zero is canonical too. -/
def CanonicalCompact (nCompact : Nat) : Prop :=
  nCompact = 0 ∨ 2 ^ 15 ≤ compactWord nCompact ∧
    2 ^ (8 * (3 - nCompact >>> 24)) ∣ compactWord nCompact

theorem dvd_compactParts (n : Nat) : 2 ^ (8 * (3 - (compactParts n).2)) ∣ (compactParts n).1 := by
  have hfst := compactParts_fst n
  split at hfst
  · rw [hfst, Nat.shiftLeft_eq]
    exact Nat.dvd_mul_left _ _
  · next hthree =>
    rw [Nat.sub_eq_zero_of_le (by omega)]
    exact Nat.one_dvd _

/-- Two mantissas of one number with different exponents would differ by a byte. -/
theorem exponent_unique {n a b : Nat} (ha : n * 2 ^ (8 * a) < 2 ^ 23) (hb : 2 ^ 15 ≤ n * 2 ^ (8 * b)) :
    a ≤ b := by
  by_contra hlt
  have hstep : n * 2 ^ (8 * b) * 2 ^ 8 ≤ n * 2 ^ (8 * a) := by
    rw [mul_assoc, ← pow_add]
    exact Nat.mul_le_mul_left _ (Nat.pow_le_pow_right (by decide) (by omega))
  omega

/-- A mantissa of three bytes at most: nothing is lost, and the mantissas tell the exponents. -/
theorem compactParts_of_mul_lt {n nSize : Nat} (hlt : n * 2 ^ (8 * (3 - nSize)) < 2 ^ 23)
    (hle : 2 ^ 15 ≤ n * 2 ^ (8 * (3 - nSize))) (hthree : nSize ≤ 3) :
    compactParts n = (n * 2 ^ (8 * (3 - nSize)), nSize) := by
  have hpos : 0 < n := by
    by_contra hzero
    obtain rfl : n = 0 := by omega
    omega
  have hsmall : n < 2 ^ 23 := (Nat.le_mul_of_pos_right n (Nat.pow_pos (by decide))).trans_lt hlt
  have hfew : (compactParts n).2 ≤ 3 := by
    by_contra hmany
    have hbits : 2 ^ 8 ≤ 2 ^ (8 * ((compactParts n).2 - 3)) := Nat.pow_le_pow_right (by decide) (by omega)
    have hbounds := (compactParts_bounds n).2 (by rw [lostBits]; omega)
    rw [lostBits] at hbounds
    omega
  have hfst := compactParts_fst n
  have hfstlt := compactParts_lt n
  have hfstle := le_compactParts_fst hpos
  rw [if_pos hfew, Nat.shiftLeft_eq] at hfst
  rw [hfst] at hfstlt hfstle
  have hsize : (compactParts n).2 = nSize := by
    have hup := exponent_unique hlt hfstle
    have hdown := exponent_unique hfstlt hle
    omega
  rw [hsize] at hfst
  exact Prod.ext hfst hsize

/-- A mantissa in front of some bytes: the number tells the exponent. -/
theorem compactParts_mul {word nSize : Nat} (hlt : word < 2 ^ 23) (hle : 2 ^ 15 ≤ word) (hthree : ¬ nSize ≤ 3) :
    compactParts (word * 2 ^ (8 * (nSize - 3))) = (word, nSize) := by
  have hpos : 0 < 2 ^ (8 * (nSize - 3)) := Nat.pow_pos (by decide)
  have hhigh := Nat.mul_lt_mul_of_pos_right hlt hpos
  have hlow := Nat.mul_le_mul_right (2 ^ (8 * (nSize - 3))) hle
  generalize hn : word * 2 ^ (8 * (nSize - 3)) = n at hhigh hlow
  have hbounds := compactParts_bounds n
  rw [lostBits] at hbounds
  have hsize : (compactParts n).2 = nSize := by
    rcases lt_trichotomy ((compactParts n).2 - 3) (nSize - 3) with hless | heq | hmore
    · exfalso
      have hstep := @mantissa_le (8 * ((compactParts n).2 - 3)) (8 * (nSize - 3)) (by omega)
      have hupper := hbounds.1
      omega
    · omega
    · exfalso
      have hstep := @mantissa_le (8 * (nSize - 3)) (8 * ((compactParts n).2 - 3)) (by omega)
      have hlower := hbounds.2 (by omega)
      omega
  have hfst := compactParts_fst n
  rw [hsize, if_neg hthree, ← hn, Nat.shiftRight_eq_div_pow, Nat.mul_div_cancel _ hpos] at hfst
  exact Prod.ext (hn ▸ hfst) hsize

/-- **Canonical parts are the parts of their value.** -/
theorem compactParts_partsValue {word nSize : Nat} (hlt : word < 2 ^ 23) (hle : 2 ^ 15 ≤ word)
    (hdvd : 2 ^ (8 * (3 - nSize)) ∣ word) : compactParts (partsValue (word, nSize)) = (word, nSize) := by
  rw [partsValue]
  dsimp only
  split
  · next hthree =>
    obtain ⟨n, rfl⟩ := hdvd
    rw [Nat.shiftRight_eq_div_pow, Nat.mul_div_cancel_left _ (Nat.pow_pos (by decide)), mul_comm]
    rw [mul_comm] at hlt hle
    exact compactParts_of_mul_lt hlt hle hthree
  · next hthree =>
    rw [Nat.shiftLeft_eq]
    exact compactParts_mul hlt hle hthree

section Compact

variable {nCompact : Nat}

theorem compactWord_eq (nCompact : Nat) : compactWord nCompact = nCompact % 2 ^ 23 := by
  rw [compactWord, show (0x007fffff : Nat) = 2 ^ 23 - 1 from rfl, Nat.and_two_pow_sub_one_eq_mod]

theorem setCompact_eq (nCompact : Nat) : setCompact nCompact =
    if nCompact &&& 0x00800000 ≠ 0 then -(partsValue (compactWord nCompact, nCompact >>> 24) : Int)
    else partsValue (compactWord nCompact, nCompact >>> 24) := rfl

/-- The magnitude that `SetCompact` reads. -/
theorem natAbs_setCompact (nCompact : Nat) :
    (setCompact nCompact).natAbs = partsValue (compactWord nCompact, nCompact >>> 24) := by
  rw [setCompact_eq]
  split <;> omega

theorem setCompact_neg_iff (nCompact : Nat) : setCompact nCompact < 0 ↔
    nCompact &&& 0x00800000 ≠ 0 ∧ 0 < partsValue (compactWord nCompact, nCompact >>> 24) := by
  rw [setCompact_eq]
  split
  · next hset => exact ⟨fun h => ⟨hset, by omega⟩, fun h => by omega⟩
  · next hclear => exact ⟨fun h => absurd h (by omega), fun h => absurd h.1 hclear⟩

theorem natAbs_setCompact_lt (h : nCompact < 2 ^ 32) : (setCompact nCompact).natAbs < 2 ^ 2039 := by
  have hsize : nCompact >>> 24 < 256 := by
    rw [Nat.shiftRight_eq_div_pow]
    omega
  have hword : compactWord nCompact < 2 ^ 23 := compactWord_eq nCompact ▸ Nat.mod_lt _ (by decide)
  rw [natAbs_setCompact, partsValue]
  dsimp only
  split
  · rw [Nat.shiftRight_eq_div_pow]
    calc compactWord nCompact / 2 ^ (8 * (3 - nCompact >>> 24)) ≤ compactWord nCompact :=
          Nat.div_le_self _ _
      _ < 2 ^ 23 := hword
      _ ≤ 2 ^ 2039 := pow_le_pow_right₀ (by decide) (by decide)
  · rw [Nat.shiftLeft_eq]
    calc compactWord nCompact * 2 ^ (8 * (nCompact >>> 24 - 3))
        < 2 ^ 23 * 2 ^ (8 * (nCompact >>> 24 - 3)) :=
          Nat.mul_lt_mul_of_pos_right hword (Nat.pow_pos (by decide))
      _ ≤ 2 ^ 23 * 2 ^ 2016 := Nat.mul_le_mul_left _ (pow_le_pow_right₀ (by decide) (by omega))
      _ = 2 ^ 2039 := by rw [← pow_add]

theorem compact_eq (nCompact : Nat) : nCompact = 2 ^ 24 * (nCompact >>> 24) +
    (compactWord nCompact + if nCompact &&& 0x00800000 ≠ 0 then 2 ^ 23 else 0) := by
  rw [compactWord_eq, Nat.shiftRight_eq_div_pow]
  have hsign := signBit_ne_zero_iff nCompact
  split
  · next hset =>
    have := hsign.mp hset
    omega
  · next hclear =>
    have := hsign.not.mp hclear
    omega

theorem getCompact_eq {n : Int} (h : n.natAbs < 2 ^ 2039) :
    getCompact n = 2 ^ 24 * (compactParts n.natAbs).2 +
      ((compactParts n.natAbs).1 + if n < 0 then 2 ^ 23 else 0) := by
  have hassembled := assembled_eq (compactParts_lt n.natAbs) (compactParts_snd_lt_iff.mpr h) (decide (n < 0))
  simpa [getCompact] using hassembled

/-- **Encodings are the canonical compact numbers.** -/
theorem getCompact_setCompact_iff (h : nCompact < 2 ^ 32) :
    getCompact (setCompact nCompact) = nCompact ↔ CanonicalCompact nCompact := by
  have hencode := getCompact_eq (natAbs_setCompact_lt h)
  have hfields := compact_eq nCompact
  have hword : compactWord nCompact < 2 ^ 23 := compactWord_eq nCompact ▸ Nat.mod_lt _ (by decide)
  have hneg := setCompact_neg_iff nCompact
  rw [natAbs_setCompact] at hencode
  constructor
  · intro hsame
    rcases Nat.eq_zero_or_pos (partsValue (compactWord nCompact, nCompact >>> 24)) with hzero | hpos
    · have hnot : ¬ setCompact nCompact < 0 := fun hlt => absurd (hneg.mp hlt).2 (by omega)
      rw [hzero, if_neg hnot] at hencode
      exact .inl (hsame.symm.trans (hencode.trans (by decide)))
    · right
      have hlt := compactParts_lt (partsValue (compactWord nCompact, nCompact >>> 24))
      have hle := le_compactParts_fst hpos
      have hdvd := dvd_compactParts (partsValue (compactWord nCompact, nCompact >>> 24))
      generalize compactParts (partsValue (compactWord nCompact, nCompact >>> 24)) = parts at hencode hlt hle hdvd
      have hparts : parts.1 = compactWord nCompact ∧ parts.2 = nCompact >>> 24 := by
        split at hencode <;> split at hfields <;> omega
      rw [hparts.1, hparts.2] at hdvd
      exact ⟨hparts.1 ▸ hle, hdvd⟩
  · rintro (rfl | ⟨hle, hdvd⟩)
    · decide
    · have hparts := compactParts_partsValue hword hle hdvd
      have hpos : 0 < partsValue (compactWord nCompact, nCompact >>> 24) := by
        by_contra hzero
        rw [Nat.eq_zero_of_not_pos hzero] at hparts
        have hnone : compactWord nCompact = 0 := (congrArg Prod.fst hparts).symm
        omega
      rw [hparts] at hencode
      rw [hencode]
      have hsign : setCompact nCompact < 0 ↔ nCompact &&& 0x00800000 ≠ 0 := hneg.trans (and_iff_left hpos)
      simp only [hsign]
      exact hfields.symm

end Compact

/-! ### Decoding an encoding -/

theorem partsValue_mono_exponent (word : Nat) {a b : Nat} (h : a ≤ b) :
    partsValue (word, a) ≤ partsValue (word, b) := by
  unfold partsValue
  dsimp only
  split_ifs with ha hb
  · rw [Nat.shiftRight_eq_div_pow, Nat.shiftRight_eq_div_pow]
    exact Nat.div_le_div_left (Nat.pow_le_pow_right (by decide) (by omega)) (Nat.pow_pos (by decide))
  · rw [Nat.shiftRight_eq_div_pow, Nat.shiftLeft_eq]
    exact (Nat.div_le_self _ _).trans (Nat.le_mul_of_pos_right _ (Nat.pow_pos (by decide)))
  · omega
  · rw [Nat.shiftLeft_eq, Nat.shiftLeft_eq]
    exact Nat.mul_le_mul_left _ (Nat.pow_le_pow_right (by decide) (by omega))

theorem setCompact_getCompact_natCast (n : Nat) :
    setCompact (getCompact n) = partsValue ((compactParts n).1, (compactParts n).2 % 256) := by
  have hbyte : (compactParts n).2 <<< 24 % 2 ^ 32 = ((compactParts n).2 % 256) <<< 24 % 2 ^ 32 := by
    rw [Nat.shiftLeft_eq, Nat.shiftLeft_eq]
    omega
  have hassembled := setCompact_assembled (compactParts_lt n)
    (Nat.mod_lt (compactParts n).2 (show 0 < 256 by decide)) false
  have hnot : ¬ (n : Int) < 0 := by omega
  unfold getCompact
  rw [Int.natAbs_natCast, if_neg hnot]
  dsimp only
  rw [hbyte]
  simpa using hassembled

theorem setCompact_getCompact_of_lt {n : Nat} (h : n < 2 ^ 2039) :
    setCompact (getCompact n) = partsValue (compactParts n) := by
  rw [setCompact_getCompact_natCast, Nat.mod_eq_of_lt (compactParts_snd_lt_iff.mpr h)]

/-- **Nothing overflows**: the shifts of `SetCompact`, and of `GetCompact` on the number that it sets, are
less than the width of what they shift and lose no bit, and the sign bit is free. -/
structure NoOverflow (nCompact : Nat) : Prop where
  setRight : nCompact >>> 24 ≤ 3 → 8 * (3 - nCompact >>> 24) < 32
  setLeft : 8 * (nCompact >>> 24 - 3) < 2 ^ 31
  getWord : numBytes (setCompact nCompact).natAbs ≤ 3 → (setCompact nCompact).natAbs < 2 ^ 64
  getLeft : 8 * (3 - numBytes (setCompact nCompact).natAbs) < 64
  leadingWord : leadingWord (setCompact nCompact).natAbs < 2 ^ 32
  exponent : (compactParts (setCompact nCompact).natAbs).2 <<< 24 < 2 ^ 32
  signBit : (compactParts (setCompact nCompact).natAbs).1 &&& 0x00800000 = 0

theorem noOverflow {nCompact : Nat} (h : nCompact < 2 ^ 32) : NoOverflow nCompact := by
  have hsize : nCompact >>> 24 < 256 := by
    rw [Nat.shiftRight_eq_div_pow]
    omega
  have hexponent := compactParts_snd_lt_iff.mpr (natAbs_setCompact_lt h)
  have hword := compactParts_lt (setCompact nCompact).natAbs
  refine ⟨fun _ => by omega, by omega, fun hfew => ?_, by omega, ?_, ?_, ?_⟩
  · calc (setCompact nCompact).natAbs < 256 ^ numBytes (setCompact nCompact).natAbs := lt_pow_numBytes _
      _ ≤ 256 ^ 3 := Nat.pow_le_pow_right (by decide) hfew
      _ ≤ 2 ^ 64 := by decide
  · exact (leadingWord_lt _).trans (by decide)
  · rw [Nat.shiftLeft_eq]
    omega
  · by_contra hset
    have := (and_signBit_ne_zero (hword.trans (by decide))).mp hset
    omega

/-- **The compact form**: what is decoded is not more; up to the largest exponent less than a `2 ^ -15`
fraction is lost and the order is kept; canonical compact numbers are restored; and nothing overflows. -/
theorem compactTarget :
    (∀ n : Nat, setCompact (getCompact n) ≤ n) ∧
    (∀ n : Nat, 0 < n → n < 2 ^ 2039 → 2 ^ 15 * (n - setCompact (getCompact n)) < n) ∧
    (∀ nCompact < 2 ^ 32, CanonicalCompact nCompact → getCompact (setCompact nCompact) = nCompact) ∧
    (∀ n m : Nat, n ≤ m → m < 2 ^ 2039 → setCompact (getCompact n) ≤ setCompact (getCompact m)) ∧
    ∀ nCompact < 2 ^ 32, NoOverflow nCompact := by
  refine ⟨fun n => ?_, fun n hpos hn => ?_, fun nCompact h => (getCompact_setCompact_iff h).mpr,
    fun n m hle hm => ?_, fun nCompact => noOverflow⟩
  · rw [setCompact_getCompact_natCast]
    have hexponent := partsValue_mono_exponent (compactParts n).1 (Nat.mod_le (compactParts n).2 256)
    have hle := (partsValue_compactParts n).1
    exact_mod_cast hexponent.trans hle
  · have hlost := sub_partsValue_lt hpos
    have hle := (partsValue_compactParts n).1
    rw [setCompact_getCompact_of_lt hn]
    omega
  · rw [setCompact_getCompact_of_lt hm, setCompact_getCompact_of_lt (hle.trans_lt hm)]
    exact_mod_cast partsValue_mono hle

theorem compactTarget_sample :
    2 ^ 15 * ((0x123456789 : Nat) - setCompact (getCompact (0x123456789 : Nat))) < (0x123456789 : Nat) ∧
      getCompact (setCompact 0x05009234) = 0x05009234 ∧
      setCompact (getCompact (5 : Nat)) ≤ setCompact (getCompact (7 : Nat)) ∧ NoOverflow 0xff7fffff :=
  have hsmall : 0x123456789 < 2 ^ 2039 :=
    (show 0x123456789 < 2 ^ 64 by decide).trans_le (pow_le_pow_right₀ (by decide) (by decide))
  ⟨compactTarget.2.1 _ (by decide) hsmall,
    compactTarget.2.2.1 0x05009234 (by decide) (.inr ⟨by decide, by decide⟩),
    compactTarget.2.2.2.1 5 7 (by decide)
      ((show 7 < 2 ^ 3 by decide).trans_le (pow_le_pow_right₀ (by decide) (by decide))),
    compactTarget.2.2.2.2 0xff7fffff (by decide)⟩

/-- Beyond the largest exponent everything may be lost. -/
theorem not_forall_lost : ¬ ∀ n : Nat, 0 < n → 2 ^ 15 * (n - setCompact (getCompact n)) < n := by
  intro h
  have hexponent : 15 + 8 * (256 - 3) = 2039 := by decide
  have hparts : compactParts (2 ^ 2039) = (2 ^ 15, 256) := by
    rw [← hexponent, pow_add]
    exact compactParts_mul (by decide) le_rfl (by decide)
  have hzero : setCompact (getCompact ((2 ^ 2039 : Nat) : Int)) = 0 := by
    rw [setCompact_getCompact_natCast, hparts]
    rfl
  have hpos : 0 < 2 ^ 2039 := by positivity
  have hlost := h (2 ^ 2039) hpos
  rw [hzero, sub_zero] at hlost
  generalize (2 : Nat) ^ 2039 = n at hlost hpos
  omega

end Manna
