import Mathlib.Data.List.TakeWhile
import Mathlib.Data.Nat.Digits.Lemmas
import Mathlib.Tactic.Ring

/-!
Decimal numbers as text, in bytes.

* `printNat`, `printInt`: the shortest decimal, with a sign where it is negative;
* `parseNat`, `parseInt`: the longest decimal at the front, behind white space and a sign, and into the
  range of a machine integer;
* `parseInt_printInt`: what was printed is parsed back;
* `value`: the number that digits write, and `printPadded`: a number with zeros before it.
-/

namespace Decimal

def digit (d : Nat) : UInt8 := UInt8.ofNat (48 + d)

def isDigit (b : UInt8) : Bool := decide (48 ≤ b ∧ b ≤ 57)

/-- Space and the control characters from tab to carriage return. -/
def isSpace (b : UInt8) : Bool := decide (b = 32 ∨ 9 ≤ b ∧ b ≤ 13)

def printNat (n : Nat) : List UInt8 := if n = 0 then [48] else (Nat.digits 10 n).reverse.map digit

/-- A minus sign is the byte 45. -/
def printInt (n : Int) : List UInt8 := if n < 0 then 45 :: printNat n.natAbs else printNat n.natAbs

/-- The value of the digits at the front. -/
def parseNat (s : List UInt8) : Nat :=
  (s.takeWhile isDigit).foldl (fun n b => n * 10 + (b.toNat - 48)) 0

/-- Behind white space and one sign; a value out of the range is moved to its end. -/
def parseInt (low high : Int) (s : List UInt8) : Int :=
  match s.dropWhile isSpace with
  | 45 :: s => max low (-(parseNat s))
  | 43 :: s => min high (parseNat s)
  | s => min high (parseNat s)

theorem toNat_digit {d : Nat} (hd : d < 10) : (digit d).toNat = 48 + d := by
  rw [digit, UInt8.toNat_ofNat']
  omega

theorem isDigit_digit {d : Nat} (hd : d < 10) : isDigit (digit d) = true := by
  have htoNat := toNat_digit hd
  rw [isDigit, decide_eq_true_eq, UInt8.le_iff_toNat_le, UInt8.le_iff_toNat_le, htoNat]
  exact ⟨by simp, by simp; omega⟩

theorem foldl_digits {l : List Nat} (hl : ∀ d ∈ l, d < 10) :
    (l.reverse.map digit).foldl (fun n b => n * 10 + (b.toNat - 48)) 0 = Nat.ofDigits 10 l := by
  rw [List.map_reverse, List.foldl_reverse]
  induction l with
  | nil => rfl
  | cons d l ih =>
    rw [List.forall_mem_cons] at hl
    rw [List.map_cons, List.foldr_cons, ih hl.2, toNat_digit hl.1, Nat.ofDigits_cons]
    simp
    omega

theorem isDigit_of_mem_printNat {n : Nat} {b : UInt8} (hb : b ∈ printNat n) : isDigit b = true := by
  rw [printNat] at hb
  split at hb
  · obtain rfl := List.mem_singleton.mp hb
    rfl
  · obtain ⟨d, hd, rfl⟩ := List.mem_map.mp hb
    exact isDigit_digit (Nat.digits_lt_base (by decide) (List.mem_reverse.mp hd))

theorem parseNat_printNat (n : Nat) : parseNat (printNat n) = n := by
  have htake : (printNat n).takeWhile isDigit = printNat n :=
    List.takeWhile_eq_self_iff.mpr fun b hb => isDigit_of_mem_printNat hb
  rw [parseNat, htake, printNat]
  split
  · next hzero =>
    rw [hzero]
    rfl
  · rw [foldl_digits fun d hd => Nat.digits_lt_base (by decide) hd, Nat.ofDigits_digits]

theorem printNat_eq_cons (n : Nat) : ∃ b s, printNat n = b :: s ∧ isDigit b = true := by
  cases hprint : printNat n with
  | nil =>
    rw [printNat] at hprint
    split at hprint
    · cases hprint
    · next hne =>
      exact absurd (by simpa [Nat.digits_eq_nil_iff_eq_zero] using hprint) hne
  | cons b s => exact ⟨b, s, rfl, isDigit_of_mem_printNat (hprint ▸ List.mem_cons_self)⟩

theorem parseInt_printNat (low : Int) {high : Int} {n : Nat} (hn : n ≤ high) :
    parseInt low high (printNat n) = n := by
  obtain ⟨b, s, hprint, hb⟩ := printNat_eq_cons n
  have hdigit : 48 ≤ b ∧ b ≤ 57 := of_decide_eq_true hb
  have hspace : (printNat n).dropWhile isSpace = b :: s := by
    rw [hprint, List.dropWhile_cons_of_neg]
    intro hspace
    rcases of_decide_eq_true hspace with rfl | ⟨-, hle⟩
    · exact absurd hdigit.1 (by decide)
    · exact absurd (UInt8.le_trans hdigit.1 hle) (by decide)
  unfold parseInt
  split
  · next heq =>
    cases hspace.symm.trans heq
    exact absurd hdigit.1 (by decide)
  · next heq =>
    cases hspace.symm.trans heq
    exact absurd hdigit.1 (by decide)
  · rw [hspace, ← hprint, parseNat_printNat]
    omega

/-- **What was printed is parsed back**, in the range. -/
theorem parseInt_printInt {low high n : Int} (hlow : low ≤ n) (hhigh : n ≤ high) :
    parseInt low high (printInt n) = n := by
  rw [printInt]
  split
  · next hneg =>
    have hdrop : (45 :: printNat n.natAbs).dropWhile isSpace = 45 :: printNat n.natAbs := by
      rw [List.dropWhile_cons_of_neg (by decide)]
    rw [parseInt, hdrop]
    simp only
    rw [parseNat_printNat]
    omega
  · rw [parseInt_printNat low (by omega)]
    omega

theorem not_isSpace_of_isDigit {b : UInt8} (h : isDigit b = true) : isSpace b = false := by
  have hdigit := of_decide_eq_true h
  refine decide_eq_false fun hspace => ?_
  rcases hspace with rfl | ⟨-, hle⟩
  · exact absurd hdigit.1 (by decide)
  · exact absurd (UInt8.le_trans hdigit.1 hle) (by decide)

theorem dropWhile_isSpace_eq_self {s : List UInt8} (h : ∀ b ∈ s.head?, isSpace b = false) :
    s.dropWhile isSpace = s := by
  cases s with
  | nil => rfl
  | cons b s => exact List.dropWhile_cons_of_neg (by simp [h b rfl])

/-- What a C string shows: the bytes before the first zero. -/
def cStr (s : List UInt8) : List UInt8 := s.takeWhile (· ≠ 0)

theorem cStr_eq_self {s : List UInt8} (h : ∀ b ∈ s, b ≠ 0) : cStr s = s :=
  List.takeWhile_eq_self_iff.mpr fun b hb => decide_eq_true (h b hb)

theorem ne_zero_of_isDigit {b : UInt8} (h : isDigit b = true) : b ≠ 0 := by
  rintro rfl
  cases h

/-! ### Digits and their value -/

/-- The number that digits write. -/
def value (s : List UInt8) : Nat := s.foldl (fun n b => n * 10 + (b.toNat - 48)) 0

theorem parseNat_eq_value {s : List UInt8} (h : ∀ b ∈ s, isDigit b = true) : parseNat s = value s := by
  rw [parseNat, List.takeWhile_eq_self_iff.mpr h, value]

theorem value_printNat (n : Nat) : value (printNat n) = n := by
  rw [← parseNat_eq_value fun b => isDigit_of_mem_printNat, parseNat_printNat]

theorem foldl_eq_value (s : List UInt8) (n : Nat) :
    s.foldl (fun n b => n * 10 + (b.toNat - 48)) n = n * 10 ^ s.length + value s := by
  induction s generalizing n with
  | nil => simp [value]
  | cons b s ih =>
    have htail : value (b :: s) = (b.toNat - 48) * 10 ^ s.length + value s := by
      rw [value, List.foldl_cons, ih]
      simp
    rw [List.foldl_cons, ih, htail, List.length_cons, pow_succ]
    ring

theorem value_append (s t : List UInt8) : value (s ++ t) = value s * 10 ^ t.length + value t := by
  rw [value, List.foldl_append, foldl_eq_value]
  rfl

theorem value_cons (b : UInt8) (s : List UInt8) :
    value (b :: s) = (b.toNat - 48) * 10 ^ s.length + value s := by
  rw [value, List.foldl_cons, foldl_eq_value]
  simp

theorem digit_le {b : UInt8} (h : isDigit b = true) : b.toNat - 48 ≤ 9 := by
  have hle : b ≤ 57 := (of_decide_eq_true h).2
  have : b.toNat ≤ 57 := UInt8.le_iff_toNat_le.mp hle
  omega

theorem value_lt {s : List UInt8} (h : ∀ b ∈ s, isDigit b = true) : value s < 10 ^ s.length := by
  induction s with
  | nil => exact Nat.one_pos
  | cons b s ih =>
    obtain ⟨hb, hs⟩ := List.forall_mem_cons.mp h
    have hdigit := digit_le hb
    have hrest := ih hs
    have hmul := Nat.mul_le_mul_right (10 ^ s.length) hdigit
    rw [value_cons, List.length_cons, pow_succ]
    omega

theorem value_replicate_zero (k : Nat) : value (List.replicate k 48) = 0 := by
  induction k with
  | zero => rfl
  | succ k ih =>
    rw [List.replicate_succ, value_cons, ih]
    simp

theorem length_printNat_le_iff {n k : Nat} (hk : 0 < k) : (printNat n).length ≤ k ↔ n < 10 ^ k := by
  rw [printNat]
  split
  · next hzero =>
    rw [hzero]
    exact iff_of_true hk (Nat.pow_pos (by decide))
  · rw [List.length_map, List.length_reverse]
    exact Nat.digits_length_le_iff (by decide) n

/-- A number with zeros before it, up to a width. -/
def printPadded (width n : Nat) : List UInt8 :=
  List.replicate (width - (printNat n).length) 48 ++ printNat n

theorem isDigit_of_mem_printPadded {width n : Nat} {b : UInt8} (h : b ∈ printPadded width n) :
    isDigit b = true := by
  rcases List.mem_append.mp h with hzero | hdigit
  · rw [(List.mem_replicate.mp hzero).2]
    rfl
  · exact isDigit_of_mem_printNat hdigit

theorem value_printPadded (width n : Nat) : value (printPadded width n) = n := by
  rw [printPadded, value_append, value_replicate_zero, value_printNat, zero_mul, zero_add]

theorem length_printPadded {width n : Nat} (hwidth : 0 < width) (h : n < 10 ^ width) :
    (printPadded width n).length = width := by
  have := (length_printNat_le_iff hwidth).mpr h
  rw [printPadded, List.length_append, List.length_replicate]
  omega

end Decimal
