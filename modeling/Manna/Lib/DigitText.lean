import Manna.Lib.Regroup
import Mathlib.Data.List.GetD
import Mathlib.Data.List.TakeWhile

/-!
Bytes written in the digits of an alphabet, with padding.

An `Alphabet` has the characters of the digits below `2 ^ a`. A `Code` encodes bytes in as many digits as
have their bits, and pads them to groups; its decoder reads the characters that a string begins with.

* `Encoded.one`, `Encoded.two`, `Encoded.last`: what an encoder does with a byte, and at the end;
* `Decoded.keep`, `Decoded.push`: what a decoder does with a digit;
* `Code.decode_encode`: what is encoded is decoded;
* `Code.encode_decode`: what is decoded is encoded as it was, up to what the alphabet does not tell apart.
-/

namespace DigitText

open Regroup

/-- The characters before the first one that is no digit. -/
def alphabetPrefix (dec : UInt8 → Int) (p : List UInt8) : List UInt8 := p.takeWhile (dec · ≠ -1)

def behindAlphabet (dec : UInt8 → Int) (p : List UInt8) : List UInt8 := p.dropWhile (dec · ≠ -1)

def digitsOf (dec : UInt8 → Int) (p : List UInt8) : List Nat := p.map fun ch => (dec ch).toNat

/-- The padding that a number of characters requires, for groups of `group` characters. -/
def padding (group n : Nat) : List UInt8 := List.replicate ((group - n % group) % group) 61

/-- Digits of `a` bits and their characters; `fold` takes a character to the one that the encoder writes. -/
structure Alphabet (a : Nat) where
  dec : UInt8 → Int
  letter : Nat → UInt8
  fold : UInt8 → UInt8
  dec_letter : ∀ d < 2 ^ a, dec (letter d) = d
  dec_lt : ∀ c, dec c ≠ -1 → (dec c).toNat < 2 ^ a
  letter_dec : ∀ c, dec c ≠ -1 → letter (dec c).toNat = fold c
  dec_padding : dec 61 = -1
  dec_zero : dec 0 = -1

namespace Alphabet

variable {a : Nat} (A : Alphabet a) {p : List UInt8} {digits : List Nat}

theorem dec_of_mem {c : UInt8} (hc : c ∈ alphabetPrefix A.dec p) : A.dec c ≠ -1 := by
  simpa using List.mem_takeWhile_imp hc

theorem lt_of_mem_digitsOf : ∀ d ∈ digitsOf A.dec (alphabetPrefix A.dec p), d < 2 ^ a := by
  intro d hd
  obtain ⟨c, hc, rfl⟩ := List.mem_map.mp hd
  exact A.dec_lt c (A.dec_of_mem hc)

/-- Characters are told by their digits, up to `fold`. -/
theorem map_letter_digitsOf (p : List UInt8) :
    (digitsOf A.dec (alphabetPrefix A.dec p)).map A.letter = (alphabetPrefix A.dec p).map A.fold := by
  rw [digitsOf, List.map_map]
  exact List.map_congr_left fun c hc => A.letter_dec c (A.dec_of_mem hc)

theorem digitsOf_letters (hdigits : ∀ d ∈ digits, d < 2 ^ a) : digitsOf A.dec (digits.map A.letter) = digits := by
  rw [digitsOf, List.map_map]
  refine (List.map_congr_left fun d hd => ?_).trans (List.map_id digits)
  rw [Function.comp_apply, A.dec_letter d (hdigits d hd), Int.toNat_natCast, id]

theorem alphabetPrefix_letters (hdigits : ∀ d ∈ digits, d < 2 ^ a) (group k : Nat) :
    alphabetPrefix A.dec (digits.map A.letter ++ padding group k) = digits.map A.letter ∧
      behindAlphabet A.dec (digits.map A.letter ++ padding group k) = padding group k := by
  have hletters : ∀ c ∈ digits.map A.letter, decide (A.dec c ≠ -1) = true := by
    intro c hc
    obtain ⟨d, hd, rfl⟩ := List.mem_map.mp hc
    rw [A.dec_letter d (hdigits d hd)]
    exact decide_eq_true (by omega)
  rw [alphabetPrefix, behindAlphabet, List.takeWhile_append_of_pos hletters, List.dropWhile_append_of_pos hletters]
  cases heq : padding group k with
  | nil => simp
  | cons c rest =>
    have hc : c = 61 := (List.mem_replicate.mp (heq ▸ List.mem_cons_self ..)).2
    have hpad := A.dec_padding
    rw [hc, List.takeWhile_cons_of_neg (by simp [hpad]), List.dropWhile_cons_of_neg (by simp [hpad]), List.append_nil]
    exact ⟨rfl, rfl⟩

/-- The padding that is required stands behind the characters, and no digit behind it. -/
def Padded (group : Nat) (p : List UInt8) : Prop :=
  let n := (padding group (alphabetPrefix A.dec p).length).length
  (∀ i < n, (behindAlphabet A.dec p).getD i 0 = 61) ∧ A.dec ((behindAlphabet A.dec p).getD n 0) = -1

end Alphabet

theorem mul_two_pow_or {b k : Nat} (hb : b < 2 ^ k) (a : Nat) : a * 2 ^ k ||| b = a * 2 ^ k + b := by
  rw [← Nat.shiftLeft_eq, ← Nat.shiftLeft_add_eq_or_of_lt hb]

theorem shiftLeft_or {b k : Nat} (hb : b < 2 ^ k) (a : Nat) : a <<< k ||| b = a * 2 ^ k + b := by
  rw [← Nat.shiftLeft_add_eq_or_of_lt hb, Nat.shiftLeft_eq]

theorem upper_bits {b k m : Nat} (hb : b < 2 ^ (k + m)) (left : Nat) :
    left * 2 ^ k ||| b >>> m = (left * 2 ^ (k + m) + b) / 2 ^ m := by
  have hpow : 2 ^ (k + m) = 2 ^ m * 2 ^ k := by rw [pow_add, Nat.mul_comm]
  have hupper : b / 2 ^ m < 2 ^ k := Nat.div_lt_of_lt_mul (hpow ▸ hb)
  have hfactor : left * 2 ^ (k + m) + b = b + 2 ^ m * (left * 2 ^ k) := by
    rw [hpow]
    ring
  rw [Nat.shiftRight_eq_div_pow, mul_two_pow_or hupper, hfactor, Nat.add_mul_div_left _ _ (Nat.two_pow_pos m),
    Nat.add_comm]

theorem lower_bits {k m : Nat} (h : m ≤ k) (left b : Nat) : b &&& (2 ^ m - 1) = (left * 2 ^ k + b) % 2 ^ m := by
  have hfactor : left * 2 ^ k + b = b + 2 ^ m * (left * 2 ^ (k - m)) := by
    rw [← Nat.add_sub_cancel' h, pow_add, Nat.add_sub_cancel_left]
    ring
  rw [Nat.and_two_pow_sub_one_eq_mod, hfactor, Nat.add_mul_mod_self_left]

/-! ### Coders -/

theorem foldl_append {α σ : Type} {P : List α → σ → Prop} {f : σ → α → σ} (more : List α)
    (step : ∀ l s, ∀ c ∈ more, P l s → P (l ++ [c]) (f s c)) {l : List α} {s : σ} (h : P l s) :
    P (l ++ more) (more.foldl f s) := by
  induction more generalizing l s with
  | nil => rwa [List.append_nil]
  | cons c more ih =>
    have hrest := ih (fun l s c hc => step l s c (List.mem_cons_of_mem _ hc)) (step l s c List.mem_cons_self h)
    rwa [List.append_assoc] at hrest

section Coders

variable {a n m k bits d : Nat} {letter : Nat → UInt8} {pch str bytes : List UInt8} {digits : List Nat}

/-- **What an encoder has**: the bytes are regrouped, and the `n` bits that are left are in their place. -/
def Encoded (a : Nat) (letter : Nat → UInt8) (pch str : List UInt8) (n bits : Nat) : Prop :=
  ∃ digits left, str = digits.map letter ∧ Regrouped 8 a (pch.map UInt8.toNat) digits n left ∧
    (n ≠ 0 → bits = left * 2 ^ (a - n))

theorem Encoded.nil : Encoded a letter [] [] 0 bits := ⟨[], 0, rfl, .nil, fun h => absurd rfl h⟩

theorem Encoded.start (h : Encoded a letter pch str 0 bits) (bits' : Nat) : Encoded a letter pch str 0 bits' := by
  obtain ⟨digits, left, hstr, hregrouped, -⟩ := h
  exact ⟨digits, left, hstr, hregrouped, fun h => absurd rfl h⟩

theorem Encoded.take (h : Encoded a letter pch str n bits) (c : UInt8) (hbits : n = 0 → bits = 0) :
    ∃ digits left, str = digits.map letter ∧
      Regrouped 8 a ((pch ++ [c]).map UInt8.toNat) digits (n + 8) (left * 2 ^ 8 + c.toNat) ∧
      bits = left * 2 ^ (a - n) := by
  obtain ⟨digits, left, hstr, hregrouped, hleft⟩ := h
  refine ⟨digits, left, hstr, ?_, ?_⟩
  · rw [List.map_append]
    exact hregrouped.take c.toNat_lt
  · by_cases hn : n = 0
    · have hlt := hregrouped.left_lt
      rw [hn, pow_zero, Nat.lt_one_iff] at hlt
      rw [hbits hn, hlt, Nat.zero_mul]
    · exact hleft hn

/-- **A byte completes a digit.** -/
theorem Encoded.one (h : Encoded a letter pch str n bits) (c : UInt8) (hbits : n = 0 → bits = 0)
    (hna : n ≤ a) (hm : n + 8 = m + a) :
    Encoded a letter (pch ++ [c]) (str ++ [letter (bits ||| c.toNat >>> m)]) m
      ((c.toNat &&& (2 ^ m - 1)) <<< (a - m)) := by
  obtain ⟨digits, left, hstr, htake, hleft⟩ := h.take c hbits
  rw [hm] at htake
  refine ⟨_, _, ?_, htake.emit, fun _ => ?_⟩
  · have hwidth : 8 = a - n + m := by omega
    have hdigit := upper_bits (k := a - n) (m := m) (hwidth ▸ c.toNat_lt) left
    rw [← hwidth, ← hleft] at hdigit
    rw [hstr, hdigit, List.map_append, List.map_singleton]
  · rw [Nat.shiftLeft_eq, lower_bits (show m ≤ 8 by omega) left]

theorem Encoded.first (h : Encoded a letter pch str 0 bits) (c : UInt8) (hm : 0 + 8 = m + a) :
    Encoded a letter (pch ++ [c]) (str ++ [letter (c.toNat >>> m)]) m ((c.toNat &&& (2 ^ m - 1)) <<< (a - m)) := by
  have hone := (h.start 0).one c (fun _ => rfl) (Nat.zero_le a) hm
  rwa [Nat.zero_or] at hone

/-- **A byte completes two digits.** -/
theorem Encoded.two (h : Encoded a letter pch str n bits) (c : UInt8) (hn : n ≠ 0)
    (hna : n ≤ a) (hm : n + 8 = m + a + a) : Encoded a letter (pch ++ [c])
      (str ++ [letter (bits ||| c.toNat >>> (m + a)), letter ((c.toNat >>> m) &&& (2 ^ a - 1))]) m
      ((c.toNat &&& (2 ^ m - 1)) <<< (a - m)) := by
  obtain ⟨digits, left, hstr, htake, hleft⟩ := h.take c fun h => absurd h hn
  rw [hm] at htake
  have hmod : ∀ x, x % 2 ^ (m + a) % 2 ^ m = x % 2 ^ m := fun x =>
    Nat.mod_mod_of_dvd x (pow_dvd_pow 2 (Nat.le_add_right m a))
  refine ⟨_, _, ?_, htake.emit.emit, fun _ => ?_⟩
  · have hwidth : 8 = a - n + (m + a) := by omega
    have hfirst := upper_bits (k := a - n) (m := m + a) (hwidth ▸ c.toNat_lt) left
    rw [← hwidth, ← hleft] at hfirst
    have hsecond : (c.toNat >>> m) &&& (2 ^ a - 1) = (left * 2 ^ 8 + c.toNat) % 2 ^ (m + a) / 2 ^ m := by
      rw [← lower_bits (show m + a ≤ 8 by omega) left, Nat.and_two_pow_sub_one_eq_mod, Nat.and_two_pow_sub_one_eq_mod,
        Nat.shiftRight_eq_div_pow, pow_add, Nat.mod_mul_right_div_self]
    rw [hstr, hfirst, hsecond, List.map_append, List.map_append, List.append_assoc]
    rfl
  · rw [Nat.shiftLeft_eq, hmod, lower_bits (show m ≤ 8 by omega) left]

/-- **At the end** the bits that are left are the digit of their place, which goes back to the bytes. -/
theorem Encoded.last (h : Encoded a letter pch str n bits) (hna : n ≤ a) :
    ∃ digits, (if n = 0 then str else str ++ [letter bits]) = digits.map letter ∧
      Regrouped a 8 digits (pch.map UInt8.toNat) (if n = 0 then 0 else a - n) 0 ∧ ∀ d ∈ digits, d < 2 ^ a := by
  obtain ⟨digits, left, hstr, hregrouped, hleft⟩ := h
  have hbytes : ∀ d ∈ pch.map UInt8.toNat, d < 2 ^ 8 := by
    intro d hd
    obtain ⟨c, -, rfl⟩ := List.mem_map.mp hd
    exact c.toNat_lt
  by_cases hn : n = 0
  · subst hn
    exact ⟨digits, hstr, hregrouped.swap hbytes, hregrouped.put_lt⟩
  · rw [if_neg hn, if_neg hn]
    refine ⟨digits ++ [left * 2 ^ (a - n)], ?_, hregrouped.pad hna hbytes, fun d hd => ?_⟩
    · rw [hstr, hleft hn, List.map_append, List.map_singleton]
    · rcases List.mem_append.mp hd with hd | hd
      · exact hregrouped.put_lt d hd
      · obtain rfl := List.mem_singleton.mp hd
        have hpow : 2 ^ n * 2 ^ (a - n) = 2 ^ a := by rw [← pow_add, Nat.add_sub_cancel' hna]
        exact hpow ▸ Nat.mul_lt_mul_of_pos_right hregrouped.left_lt (Nat.two_pow_pos _)

/-- **What a decoder has**: the digits are regrouped, and the `n` bits that are left. -/
def Decoded (a : Nat) (digits : List Nat) (bytes : List UInt8) (n bits : Nat) : Prop :=
  ∃ left, Regrouped a 8 digits (bytes.map UInt8.toNat) n left ∧ (n ≠ 0 → bits = left)

theorem Decoded.nil : Decoded a [] [] 0 bits := ⟨0, .nil, fun h => absurd rfl h⟩

theorem Decoded.start (h : Decoded a digits bytes 0 bits) (bits' : Nat) : Decoded a digits bytes 0 bits' := by
  obtain ⟨left, hregrouped, -⟩ := h
  exact ⟨left, hregrouped, fun h => absurd rfl h⟩

theorem Decoded.keep (h : Decoded a digits bytes n bits) (hd : d < 2 ^ a) (hn : n ≠ 0) :
    Decoded a (digits ++ [d]) bytes (n + a) ((bits <<< a) ||| d) := by
  obtain ⟨left, hregrouped, hleft⟩ := h
  refine ⟨_, hregrouped.take hd, fun _ => ?_⟩
  rw [hleft hn, shiftLeft_or hd]

theorem Decoded.first (h : Decoded a digits bytes 0 bits) (hd : d < 2 ^ a) :
    Decoded a (digits ++ [d]) bytes (0 + a) d := by
  obtain ⟨left, hregrouped, -⟩ := h
  have hlt := hregrouped.left_lt
  rw [pow_zero, Nat.lt_one_iff] at hlt
  refine ⟨_, hregrouped.take hd, fun _ => ?_⟩
  rw [hlt, Nat.zero_mul, Nat.zero_add]

/-- **A digit completes a byte.** -/
theorem Decoded.push (h : Decoded a digits bytes n bits) (hd : d < 2 ^ a) (hn : n ≠ 0) (hma : m ≤ a)
    (hm : n + a = m + 8) :
    Decoded a (digits ++ [d]) (bytes ++ [UInt8.ofNat ((bits <<< (a - m)) ||| d >>> m)]) m (d &&& (2 ^ m - 1)) := by
  obtain ⟨left, hregrouped, hleft⟩ := h
  have htake := hregrouped.take hd
  rw [hm] at htake
  refine ⟨_, htake.push ?_, fun _ => lower_bits hma left d⟩
  have hwidth : a = a - m + m := by omega
  have hbyte := upper_bits (k := a - m) (m := m) (hwidth ▸ hd) left
  rw [← hwidth] at hbyte
  rw [hleft hn, Nat.shiftLeft_eq, hbyte]

end Coders

/-- An encoder and a decoder, which also says whether the string is invalid: if a character or a bit of the last
one is left over, or the padding is not there. -/
structure Code (a group : Nat) extends Alphabet a where
  encode : List UInt8 → List UInt8
  decode : List UInt8 → List UInt8 × Bool
  pos : 0 < a
  le : a ≤ 8
  encode_spec : ∀ x, ∃ digits n, encode x = digits.map letter ++ padding group digits.length ∧
    Regrouped a 8 digits (x.map UInt8.toNat) n 0 ∧ n < a ∧ ∀ d ∈ digits, d < 2 ^ a
  decode_spec : ∀ p, ∃ n left,
    Regrouped a 8 (digitsOf dec (alphabetPrefix dec p)) ((decode p).1.map UInt8.toNat) n left ∧ n < 8 ∧
      ((decode p).2 = false ↔ n < a ∧ left = 0 ∧ (n = 0 ∨ toAlphabet.Padded group p))

namespace Code

variable {a group : Nat} (code : Code a group)

/-- **What is encoded is decoded**, and not invalid. -/
theorem decode_encode (x : List UInt8) : code.decode (code.encode x) = (x, false) := by
  obtain ⟨digits, n, hencode, hback, hn, hdigits⟩ := code.encode_spec x
  obtain ⟨halphabet, hbehind⟩ := code.alphabetPrefix_letters hdigits group digits.length
  rw [← hencode] at halphabet hbehind
  obtain ⟨m, left, hregrouped, hm, hiff⟩ := code.decode_spec (code.encode x)
  rw [halphabet, code.digitsOf_letters hdigits] at hregrouped
  obtain ⟨hbytes, rfl, rfl⟩ := hregrouped.unique (by decide) hback hm (hn.trans_le code.le)
  have hpadded : code.toAlphabet.Padded group (code.encode x) := by
    rw [Alphabet.Padded, halphabet, hbehind, List.length_map]
    refine ⟨fun i hi => ?_, ?_⟩
    · rw [List.getD_eq_getElem _ _ hi]
      exact (List.mem_replicate.mp (List.getElem_mem hi)).2
    · rw [List.getD_eq_default _ _ le_rfl]
      exact code.dec_zero
  exact Prod.ext ((List.map_injective_iff.mpr fun _ _ => UInt8.toNat_inj.mp) hbytes)
    (hiff.mpr ⟨hn, rfl, .inr hpadded⟩)

/-- **What is decoded is encoded** as the characters that were read, up to `fold`, and their padding, unless it
is invalid. -/
theorem encode_decode {p : List UInt8} (hvalid : (code.decode p).2 = false) : code.encode (code.decode p).1 =
      (alphabetPrefix code.dec p).map code.fold ++ padding group (alphabetPrefix code.dec p).length := by
  obtain ⟨n, left, hregrouped, -, hiff⟩ := code.decode_spec p
  obtain ⟨hn, rfl, -⟩ := hiff.mp hvalid
  obtain ⟨digits, m, hencode, hback, hm, hdigits⟩ := code.encode_spec (code.decode p).1
  obtain rfl := hback.taken_unique code.pos hregrouped hm hn hdigits code.lt_of_mem_digitsOf
  rw [hencode, code.map_letter_digitsOf, digitsOf, List.length_map]

end Code

end DigitText
