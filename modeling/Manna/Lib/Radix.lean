import Manna.Lib.Codec
import Mathlib.Data.List.TakeWhile
import Mathlib.Data.Nat.Digits.Lemmas

/-!
Positional numerals.

* `ofBytes`, `toBytes`: a number and its bytes, the lowest first;
* `convert`: digits of one base, the highest first, in another one, where each leading zero stays a zero;
* `convert_convert`: there and back.
-/

namespace Radix

/-! ### Bytes -/

/-- The number of some bytes, the lowest first. -/
def ofBytes (l : List UInt8) : Nat := Nat.ofDigits 256 (l.map UInt8.toNat)

/-- The bytes of a number, the lowest first. -/
def toBytes (n : Nat) : List UInt8 := (Nat.digits 256 n).map UInt8.ofNat

@[simp]
theorem ofBytes_nil : ofBytes [] = 0 := rfl

@[simp]
theorem ofBytes_cons (b : UInt8) (l : List UInt8) : ofBytes (b :: l) = b.toNat + 256 * ofBytes l := by
  simp [ofBytes, Nat.ofDigits_cons]

theorem ofBytes_append (l m : List UInt8) : ofBytes (l ++ m) = ofBytes l + 256 ^ l.length * ofBytes m := by
  simp [ofBytes, Nat.ofDigits_append]

theorem map_toNat_toBytes (n : Nat) : (toBytes n).map UInt8.toNat = Nat.digits 256 n := by
  have hdigit : ∀ d ∈ Nat.digits 256 n, (UInt8.toNat ∘ UInt8.ofNat) d = id d := by
    intro d hd
    rw [Function.comp_apply, UInt8.toNat_ofNat']
    exact Nat.mod_eq_of_lt (Nat.digits_lt_base (by decide) hd)
  rw [toBytes, List.map_map, List.map_congr_left hdigit, List.map_id]

theorem ofBytes_toBytes (n : Nat) : ofBytes (toBytes n) = n := by
  rw [ofBytes, map_toNat_toBytes, Nat.ofDigits_digits]

theorem ofBytes_lt (l : List UInt8) : ofBytes l < 256 ^ l.length := by
  have hlt := Nat.ofDigits_lt_base_pow_length (b := 256) (l := l.map UInt8.toNat) (by decide)
    (fun d hd => by
      obtain ⟨b, -, rfl⟩ := List.mem_map.mp hd
      exact b.toNat_lt)
  rwa [List.length_map] at hlt

theorem ofBytes_inj {l m : List UInt8} (hlen : l.length = m.length) (h : ofBytes l = ofBytes m) : l = m := by
  induction l generalizing m with
  | nil => exact (List.length_eq_zero_iff.mp hlen.symm).symm
  | cons b l ih =>
    cases m with
    | nil => cases hlen
    | cons c m =>
      have hb := b.toNat_lt
      have hc := c.toNat_lt
      rw [ofBytes_cons, ofBytes_cons] at h
      have hlow : b.toNat = c.toNat := by omega
      rw [UInt8.toNat_inj.mp hlow, ih (Nat.succ.inj hlen) (by omega)]

theorem ofBytes_littleEndian (k n : Nat) : ofBytes (Codec.littleEndian k n) = n % 256 ^ k := by
  induction k generalizing n with
  | zero => rw [Codec.littleEndian, ofBytes_nil, pow_zero, Nat.mod_one]
  | succ k ih =>
    have hbyte : (UInt8.ofNat (n % 256)).toNat = n % 256 := by
      rw [UInt8.toNat_ofNat']
      exact Nat.mod_mod _ _
    rw [Codec.littleEndian, ofBytes_cons, hbyte, ih, pow_succ', Nat.mod_mul]

theorem getLast?_toBytes_ne_zero {n : Nat} : ∀ b ∈ (toBytes n).getLast?, b ≠ 0 := by
  rintro b hb rfl
  have hlast : (Nat.digits 256 n).getLast? = some 0 := by
    rw [← map_toNat_toBytes, List.getLast?_map, Option.mem_def.mp hb]
    rfl
  have hne : Nat.digits 256 n ≠ [] := by
    rintro hnil
    rw [hnil] at hlast
    cases hlast
  have hpos : n ≠ 0 := Nat.digits_ne_nil_iff_ne_zero.mp hne
  rw [List.getLast?_eq_getLast_of_ne_nil hne] at hlast
  exact Nat.getLast_digit_ne_zero 256 hpos (Option.some.inj hlast)

/-! ### Digits, the highest first -/

/-- The number that some digits write. -/
def value (b : Nat) (l : List Nat) : Nat := Nat.ofDigits b l.reverse

/-- The digits of a number. -/
def numeral (b n : Nat) : List Nat := (Nat.digits b n).reverse

/-- How many zeros there are before the other digits. -/
def leading (l : List Nat) : Nat := (l.takeWhile (· = 0)).length

/-- The digits in another base: a zero for each leading zero, and then the number. -/
def convert (b b' : Nat) (l : List Nat) : List Nat :=
  List.replicate (leading l) 0 ++ numeral b' (value b l)

theorem value_numeral (b n : Nat) : value b (numeral b n) = n := by
  rw [value, numeral, List.reverse_reverse, Nat.ofDigits_digits]

theorem lt_of_mem_numeral {b n d : Nat} (hb : 1 < b) (hd : d ∈ numeral b n) : d < b :=
  Nat.digits_lt_base hb (List.mem_reverse.mp hd)

theorem head_numeral_ne_zero {b n : Nat} : ∀ d ∈ (numeral b n).head?, d ≠ 0 := by
  rintro d hd rfl
  rw [numeral, List.head?_reverse] at hd
  have hne : Nat.digits b n ≠ [] := by
    intro hnil
    rw [hnil] at hd
    cases hd
  rw [List.getLast?_eq_getLast_of_ne_nil hne] at hd
  exact Nat.getLast_digit_ne_zero b (Nat.digits_ne_nil_iff_ne_zero.mp hne) (Option.some.inj hd)

theorem leading_replicate_append {k : Nat} {l : List Nat} (h : ∀ d ∈ l.head?, d ≠ 0) :
    leading (List.replicate k 0 ++ l) = k := by
  have hrest : l.takeWhile (fun d => decide (d = 0)) = [] := by
    cases l with
    | nil => rfl
    | cons d l => exact List.takeWhile_cons_of_neg (by simpa using h d rfl)
  have hzeros : ∀ d ∈ List.replicate k 0, decide (d = 0) = true := fun d hd =>
    decide_eq_true (List.mem_replicate.mp hd).2
  rw [leading, List.takeWhile_append_of_pos hzeros, hrest, List.append_nil, List.length_replicate]

theorem value_replicate_append (b k : Nat) (l : List Nat) :
    value b (List.replicate k 0 ++ l) = value b l := by
  rw [value, List.reverse_append, List.reverse_replicate, Nat.ofDigits_append_replicate_zero, value]

theorem replicate_append_numeral {b : Nat} (hb : 1 < b) {l : List Nat} (h : ∀ d ∈ l, d < b) :
    List.replicate (leading l) 0 ++ numeral b (value b l) = l := by
  have hsplit := List.takeWhile_append_dropWhile (p := fun d => decide (d = 0)) (l := l)
  have hzeros : l.takeWhile (fun d => decide (d = 0)) = List.replicate (leading l) 0 := by
    refine List.eq_replicate_iff.mpr ⟨rfl, fun d hd => ?_⟩
    exact of_decide_eq_true (List.mem_takeWhile_imp (p := fun d => decide (d = 0)) hd)
  have hrest : numeral b (value b (l.dropWhile fun d => decide (d = 0))) =
      l.dropWhile fun d => decide (d = 0) := by
    rw [numeral, value, Nat.digits_ofDigits b hb, List.reverse_reverse]
    · intro d hd
      exact h d ((List.dropWhile_sublist _).mem (List.mem_reverse.mp hd))
    · intro hne hzero
      rw [List.getLast_reverse] at hzero
      have hhead := List.head_dropWhile_not (fun d => decide (d = 0)) (l := l) (by simpa using hne)
      rw [hzero] at hhead
      cases hhead
  rw [hzeros] at hsplit
  have hvalue : value b l = value b (l.dropWhile fun d => decide (d = 0)) := by
    rw [← hsplit, value_replicate_append, hsplit]
  rw [hvalue, hrest, hsplit]

theorem leading_convert (b b' : Nat) (l : List Nat) : leading (convert b b' l) = leading l :=
  leading_replicate_append head_numeral_ne_zero

theorem value_convert (b b' : Nat) (l : List Nat) : value b' (convert b b' l) = value b l := by
  rw [convert, value_replicate_append, value_numeral]

theorem lt_of_mem_convert {b b' : Nat} (hb' : 1 < b') {l : List Nat} : ∀ d ∈ convert b b' l, d < b' := by
  intro d hd
  rcases List.mem_append.mp hd with hzero | hdigit
  · rw [(List.mem_replicate.mp hzero).2]
    exact Nat.zero_lt_of_lt hb'
  · exact lt_of_mem_numeral hb' hdigit

/-- **There and back**: digits are converted into another base without loss. -/
theorem convert_convert {b : Nat} (hb : 1 < b) (b' : Nat) {l : List Nat} (h : ∀ d ∈ l, d < b) :
    convert b' b (convert b b' l) = l := by
  rw [convert, leading_convert, value_convert, replicate_append_numeral hb h]

end Radix
