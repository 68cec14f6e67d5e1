import Manna.HostPort
import Manna.Lib.DigitText

/-!
Base 32 (`util.cpp`: `EncodeBase32`, `DecodeBase32`).

Both functions keep in `mode` how many bits are left over, and in `left` the bits themselves; the encoder has
them in place for its next character.

* `Encodes.feed`, `Decodes.feed`: one byte, one character;
* `encodeBase32_eq`, `decodeBase32_spec`: all bytes, all characters;
* `base32`: both functions are a code, up to case.
-/

namespace Manna

open Regroup DigitText

namespace HostPort

/-! ### DecodeBase32 -/

def decode32_table : List Int :=
  List.replicate 50 (-1) ++ [26, 27, 28, 29, 30, 31] ++ List.replicate 9 (-1) ++
    [0, 1, 2, 3, 4, 5, 6, 7, 8, 9, 10, 11, 12, 13, 14, 15, 16, 17, 18, 19, 20, 21, 22, 23, 24, 25] ++
    List.replicate 6 (-1) ++
    [0, 1, 2, 3, 4, 5, 6, 7, 8, 9, 10, 11, 12, 13, 14, 15, 16, 17, 18, 19, 20, 21, 22, 23, 24, 25] ++
    List.replicate 133 (-1)

def dec32 (ch : UInt8) : Int := decode32_table.getD ch.toNat (-1)

/-- What `DecodeBase32` has done so far. -/
structure Base32Decoder where
  mode : Nat
  left : Nat
  vchRet : List UInt8

/-- A character, according to how many bits there are: none, five, two, seven, four, one, six or three. -/
def Base32Decoder.feed (state : Base32Decoder) (dec : Nat) : Base32Decoder :=
  let pushed (n : Nat) : List UInt8 := state.vchRet ++ [UInt8.ofNat n]
  match state.mode with
  | 0 => ⟨1, dec, state.vchRet⟩
  | 1 => ⟨2, dec &&& 3, pushed ((state.left <<< 3) ||| (dec >>> 2))⟩
  | 2 => ⟨3, (state.left <<< 5) ||| dec, state.vchRet⟩
  | 3 => ⟨4, dec &&& 15, pushed ((state.left <<< 1) ||| (dec >>> 4))⟩
  | 4 => ⟨5, dec &&& 1, pushed ((state.left <<< 4) ||| (dec >>> 1))⟩
  | 5 => ⟨6, (state.left <<< 5) ||| dec, state.vchRet⟩
  | 6 => ⟨7, dec &&& 7, pushed ((state.left <<< 2) ||| (dec >>> 3))⟩
  | 7 => ⟨0, state.left, pushed ((state.left <<< 5) ||| dec)⟩
  | _ => state

/-- Up to the first character that is not of the alphabet, as the terminator. -/
def Base32Decoder.run (state : Base32Decoder) : List UInt8 → Base32Decoder × List UInt8
  | [] => (state, [])
  | ch :: p => if dec32 ch = -1 then (state, ch :: p) else run (state.feed (dec32 ch).toNat) p

/-- Bits are left, or there are not just so many `'='` behind the characters. -/
def isUnpadded (left : Nat) (p : List UInt8) (n : Nat) : Bool :=
  left ≠ 0 || (List.range n).any (fun i => p.getD i 0 ≠ 61) || dec32 (p.getD n 0) ≠ -1

/-- `DecodeBase32` of a C string, and `*pfInvalid`. -/
def decodeBase32 (p : List UInt8) : List UInt8 × Bool :=
  let (state, p) := Base32Decoder.run ⟨0, 0, []⟩ p
  let fInvalid := match state.mode with
    | 1 | 3 | 6 => true
    | 2 => isUnpadded state.left p 6
    | 4 => isUnpadded state.left p 4
    | 5 => isUnpadded state.left p 3
    | 7 => isUnpadded state.left p 1
    | _ => false
  (state.vchRet, fInvalid)

/-- The character of a digit. -/
def letter (d : Nat) : UInt8 := pbase32.getD d 0

def Encodes (pch : List UInt8) (state : Base32) : Prop :=
  ∃ n, (state.mode, n) ∈ [(0, 0), (1, 3), (2, 1), (3, 4), (4, 2)] ∧ Encoded 5 letter pch state.strRet n state.left

theorem Encodes.feed {pch : List UInt8} {state : Base32} (h : Encodes pch state) (c : UInt8) :
    Encodes (pch ++ [c]) (state.feed c) := by
  obtain ⟨mode, left, strRet⟩ := state
  obtain ⟨n, hmode, h⟩ := h
  simp only [List.mem_cons, Prod.mk.injEq, List.not_mem_nil, or_false] at hmode
  rcases hmode with ⟨rfl, rfl⟩ | ⟨rfl, rfl⟩ | ⟨rfl, rfl⟩ | ⟨rfl, rfl⟩ | ⟨rfl, rfl⟩
  · exact ⟨3, by simp [Base32.feed], h.first c rfl⟩
  · exact ⟨1, by simp [Base32.feed],
      by simpa [Base32.feed, letter] using h.two (m := 1) c (by decide) (by decide) rfl⟩
  · exact ⟨4, by simp [Base32.feed],
      by simpa [Base32.feed, letter] using h.one (m := 4) c nofun (by decide) rfl⟩
  · exact ⟨2, by simp [Base32.feed],
      by simpa [Base32.feed, letter] using h.two (m := 2) c (by decide) (by decide) rfl⟩
  · exact ⟨0, by simp [Base32.feed],
      by simpa [Base32.feed, letter] using (h.two (m := 0) c (by decide) (by decide) rfl).start left⟩

/-- **What is encoded**: the letters of digits that go back to the bytes, and padding. -/
theorem encodeBase32_eq (pch : List UInt8) :
    ∃ digits n, encodeBase32 pch = digits.map letter ++ padding 8 digits.length ∧
      Regrouped 5 8 digits (pch.map UInt8.toNat) n 0 ∧ n < 5 ∧ ∀ d ∈ digits, d < 2 ^ 5 := by
  have hnil : Encodes [] ⟨0, 0, []⟩ := ⟨0, by simp, .nil⟩
  obtain ⟨n, hmode, h⟩ := foldl_append pch (fun _ _ c _ h => h.feed c) hnil
  simp only [List.mem_cons, Prod.mk.injEq, List.not_mem_nil, or_false] at hmode
  obtain ⟨digits, hstr, hback, hdigits⟩ := h.last (by omega)
  have hbits := hback.bits
  refine ⟨digits, _, ?_, hback, by split <;> omega, hdigits⟩
  unfold encodeBase32
  dsimp only
  generalize pch.foldl Base32.feed ⟨0, 0, []⟩ = state at *
  have hpadding : nPadding.getD state.mode 0 = (8 - digits.length % 8) % 8 := by
    rcases hmode with ⟨hm, rfl⟩ | ⟨hm, rfl⟩ | ⟨hm, rfl⟩ | ⟨hm, rfl⟩ | ⟨hm, rfl⟩ <;>
      simp [hm, nPadding] at hbits ⊢ <;> omega
  rw [padding, ← hpadding, ← hstr]
  by_cases hn : n = 0
  · have hzero : state.mode = 0 := by omega
    simp [hn, hzero, nPadding]
  · have hmode : state.mode ≠ 0 := by omega
    simp [hn, hmode, letter]

/-! ### Decoding -/

theorem dec32_letter {d : Nat} (hd : d < 2 ^ 5) : dec32 (letter d) = d := by
  have hall : (List.range 32).all (fun d => dec32 (letter d) == d) = true := by decide +kernel
  exact beq_iff_eq.mp (List.all_eq_true.mp hall d (List.mem_range.mpr hd))

def Decodes (digits : List Nat) (state : Base32Decoder) : Prop :=
  ∃ n, (state.mode, n) ∈ [(0, 0), (1, 5), (2, 2), (3, 7), (4, 4), (5, 1), (6, 6), (7, 3)] ∧
    Decoded 5 digits state.vchRet n state.left

theorem Decodes.feed {digits : List Nat} {state : Base32Decoder} (h : Decodes digits state) {dec : Nat}
    (hdec : dec < 2 ^ 5) : Decodes (digits ++ [dec]) (state.feed dec) := by
  obtain ⟨mode, left, vchRet⟩ := state
  obtain ⟨n, hmode, h⟩ := h
  simp only [List.mem_cons, Prod.mk.injEq, List.not_mem_nil, or_false] at hmode
  rcases hmode with ⟨rfl, rfl⟩ | ⟨rfl, rfl⟩ | ⟨rfl, rfl⟩ | ⟨rfl, rfl⟩ | ⟨rfl, rfl⟩ | ⟨rfl, rfl⟩ | ⟨rfl, rfl⟩ | ⟨rfl, rfl⟩
  · exact ⟨5, by simp [Base32Decoder.feed], h.first hdec⟩
  · exact ⟨2, by simp [Base32Decoder.feed],
      by simpa [Base32Decoder.feed] using h.push (m := 2) hdec (by decide) (by decide) rfl⟩
  · exact ⟨7, by simp [Base32Decoder.feed], h.keep hdec (by decide)⟩
  · exact ⟨4, by simp [Base32Decoder.feed],
      by simpa [Base32Decoder.feed] using h.push (m := 4) hdec (by decide) (by decide) rfl⟩
  · exact ⟨1, by simp [Base32Decoder.feed],
      by simpa [Base32Decoder.feed] using h.push (m := 1) hdec (by decide) (by decide) rfl⟩
  · exact ⟨6, by simp [Base32Decoder.feed], h.keep hdec (by decide)⟩
  · exact ⟨3, by simp [Base32Decoder.feed],
      by simpa [Base32Decoder.feed] using h.push (m := 3) hdec (by decide) (by decide) rfl⟩
  · exact ⟨0, by simp [Base32Decoder.feed],
      by simpa [Base32Decoder.feed] using (h.push (m := 0) hdec (by decide) (by decide) rfl).start left⟩

def toLower (c : UInt8) : UInt8 := if 65 ≤ c ∧ c ≤ 90 then c + 32 else c

/-- A character of the alphabet has a digit, which stands for it up to its case. -/
theorem dec32_spec (c : UInt8) : dec32 c ≠ -1 → (dec32 c).toNat < 2 ^ 5 ∧ letter (dec32 c).toNat = toLower c := by
  have hall : (List.range 256).all (fun n => decide (dec32 (UInt8.ofNat n) ≠ -1 →
      (dec32 (UInt8.ofNat n)).toNat < 2 ^ 5 ∧
        letter (dec32 (UInt8.ofNat n)).toNat = toLower (UInt8.ofNat n))) = true := by decide +kernel
  have hc := List.all_eq_true.mp hall c.toNat (List.mem_range.mpr c.toNat_lt)
  rw [UInt8.ofNat_toNat] at hc
  exact of_decide_eq_true hc

/-- The alphabet of base 32, in which small letters are written. -/
def alphabet32 : Alphabet 5 where
  dec := dec32
  letter := letter
  fold := toLower
  dec_letter := fun _ => dec32_letter
  dec_lt := fun c hc => (dec32_spec c hc).1
  letter_dec := fun c hc => (dec32_spec c hc).2
  dec_padding := by decide
  dec_zero := by decide

theorem run_eq (state : Base32Decoder) (p : List UInt8) : state.run p =
      ((digitsOf dec32 (alphabetPrefix dec32 p)).foldl Base32Decoder.feed state, behindAlphabet dec32 p) := by
  induction p generalizing state with
  | nil => rfl
  | cons c p ih =>
    rw [Base32Decoder.run, alphabetPrefix, behindAlphabet, List.takeWhile_cons, List.dropWhile_cons]
    by_cases hc : dec32 c = -1
    · simp [hc, digitsOf]
    · simp [hc, ih, digitsOf, alphabetPrefix, behindAlphabet]

theorem isUnpadded_eq_false {bits : Nat} {p : List UInt8} {n : Nat} :
    isUnpadded bits p n = false ↔ bits = 0 ∧ (∀ i < n, p.getD i 0 = 61) ∧ dec32 (p.getD n 0) = -1 := by
  simp [isUnpadded, and_assoc]

/-- **What is decoded**: the bytes of the digits, and whether no bit of them is left over and the padding is
there. -/
theorem decodeBase32_spec (p : List UInt8) :
    ∃ n left, Regrouped 5 8 (digitsOf dec32 (alphabetPrefix dec32 p)) ((decodeBase32 p).1.map UInt8.toNat) n left ∧
      n < 8 ∧ ((decodeBase32 p).2 = false ↔ n < 5 ∧ left = 0 ∧ (n = 0 ∨ alphabet32.Padded 8 p)) := by
  have hdigits : ∀ d ∈ digitsOf dec32 (alphabetPrefix dec32 p), d < 2 ^ 5 := alphabet32.lt_of_mem_digitsOf
  have hnil : Decodes [] ⟨0, 0, []⟩ := ⟨0, by simp, .nil⟩
  obtain ⟨n, hmode, left, hregrouped, hleft⟩ := foldl_append _ (fun _ _ d hd h => h.feed (hdigits d hd)) hnil
  have hbits := hregrouped.bits
  have hlt := hregrouped.left_lt
  have hlen : (digitsOf dec32 (alphabetPrefix dec32 p)).length = (alphabetPrefix dec32 p).length :=
    List.length_map _
  rw [List.nil_append] at hregrouped hbits
  rw [hlen] at hbits
  refine ⟨n, left, ?_, ?_, ?_⟩
  · rw [decodeBase32, run_eq]
    exact hregrouped
  · simp only [List.mem_cons, Prod.mk.injEq, List.not_mem_nil, or_false] at hmode
    omega
  · have hpad : (padding 8 (alphabetPrefix dec32 p).length).length = (8 - (alphabetPrefix dec32 p).length % 8) % 8 :=
      List.length_replicate
    have required : ∀ k, (8 - (alphabetPrefix dec32 p).length % 8) % 8 = k →
        (isUnpadded left (behindAlphabet dec32 p) k = false ↔ left = 0 ∧ alphabet32.Padded 8 p) := by
      rintro k rfl
      rw [isUnpadded_eq_false, ← hpad]
      rfl
    rw [decodeBase32, run_eq]
    generalize (digitsOf dec32 (alphabetPrefix dec32 p)).foldl Base32Decoder.feed ⟨0, 0, []⟩ = state at *
    obtain ⟨mode, sleft, vchRet⟩ := state
    simp only [List.mem_cons, Prod.mk.injEq, List.not_mem_nil, or_false] at hmode hleft
    rcases hmode with ⟨rfl, rfl⟩ | ⟨rfl, rfl⟩ | ⟨rfl, rfl⟩ | ⟨rfl, rfl⟩ | ⟨rfl, rfl⟩ | ⟨rfl, rfl⟩ | ⟨rfl, rfl⟩ | ⟨rfl, rfl⟩
    · simpa using Nat.lt_one_iff.mp hlt
    · simp
    · obtain rfl := hleft (by decide)
      simpa using required 6 (by omega)
    · simp
    · obtain rfl := hleft (by decide)
      simpa using required 4 (by omega)
    · obtain rfl := hleft (by decide)
      simpa using required 3 (by omega)
    · simp
    · obtain rfl := hleft (by decide)
      simpa using required 1 (by omega)

def base32 : Code 5 8 where
  toAlphabet := alphabet32
  encode := encodeBase32
  decode := decodeBase32
  pos := by decide
  le := by decide
  encode_spec := encodeBase32_eq
  decode_spec := decodeBase32_spec

theorem decodeBase32_encodeBase32 (pch : List UInt8) : decodeBase32 (encodeBase32 pch) = (pch, false) :=
  base32.decode_encode pch

end HostPort

end Manna
