import Manna.Base32

/-!
Base 64 (`util.cpp`: `EncodeBase64`, `DecodeBase64`).

Like the functions of base 32, with three and four phases.

* `Encodes.feed`, `Decodes.feed`: one byte, one character;
* `encodeBase64_eq`, `decodeBase64_spec`: all bytes, all characters;
* `base64_base32`: what is encoded is decoded, and what is decoded is encoded as it was.
-/

namespace Manna

open Regroup DigitText

namespace Base64

/-! ### EncodeBase64 -/

/-- Capital letters, small letters, digits, `'+'` and `'/'`. -/
def pbase64 : List UInt8 :=
  [65, 66, 67, 68, 69, 70, 71, 72, 73, 74, 75, 76, 77, 78, 79, 80, 81, 82, 83, 84, 85, 86, 87, 88, 89, 90,
    97, 98, 99, 100, 101, 102, 103, 104, 105, 106, 107, 108, 109, 110, 111, 112, 113, 114, 115, 116, 117, 118,
    119, 120, 121, 122, 48, 49, 50, 51, 52, 53, 54, 55, 56, 57, 43, 47]

/-- What `EncodeBase64` has done so far. -/
structure Encoder where
  mode : Nat
  left : Nat
  strRet : List UInt8

/-- A byte, according to how many bits there are: none, two or four. -/
def Encoder.feed (state : Encoder) (pch : UInt8) : Encoder :=
  let enc := pch.toNat
  let put (n : Nat) : UInt8 := pbase64.getD n 0
  match state.mode with
  | 0 => ⟨1, (enc &&& 3) <<< 4, state.strRet ++ [put (enc >>> 2)]⟩
  | 1 => ⟨2, (enc &&& 15) <<< 2, state.strRet ++ [put (state.left ||| (enc >>> 4))]⟩
  | 2 => ⟨0, state.left, state.strRet ++ [put (state.left ||| (enc >>> 6)), put (enc &&& 63)]⟩
  | _ => state

def encodeBase64 (pch : List UInt8) : List UInt8 :=
  let state := pch.foldl Encoder.feed ⟨0, 0, []⟩
  if state.mode ≠ 0 then
    state.strRet ++ [pbase64.getD state.left 0, 61] ++ if state.mode = 1 then [61] else []
  else state.strRet

/-! ### DecodeBase64 -/

def decode64_table : List Int :=
  List.replicate 43 (-1) ++ [62, -1, -1, -1, 63, 52, 53, 54, 55, 56, 57, 58, 59, 60, 61] ++
    List.replicate 7 (-1) ++
    [0, 1, 2, 3, 4, 5, 6, 7, 8, 9, 10, 11, 12, 13, 14, 15, 16, 17, 18, 19, 20, 21, 22, 23, 24, 25] ++
    List.replicate 6 (-1) ++
    [26, 27, 28, 29, 30, 31, 32, 33, 34, 35, 36, 37, 38, 39, 40, 41, 42, 43, 44, 45, 46, 47, 48, 49, 50, 51] ++
    List.replicate 133 (-1)

def dec64 (ch : UInt8) : Int := decode64_table.getD ch.toNat (-1)

/-- What `DecodeBase64` has done so far. -/
structure Decoder where
  mode : Nat
  left : Nat
  vchRet : List UInt8

/-- A character, according to how many bits there are: none, six, four or two. -/
def Decoder.feed (state : Decoder) (dec : Nat) : Decoder :=
  let pushed (n : Nat) : List UInt8 := state.vchRet ++ [UInt8.ofNat n]
  match state.mode with
  | 0 => ⟨1, dec, state.vchRet⟩
  | 1 => ⟨2, dec &&& 15, pushed ((state.left <<< 2) ||| (dec >>> 4))⟩
  | 2 => ⟨3, dec &&& 3, pushed ((state.left <<< 4) ||| (dec >>> 2))⟩
  | 3 => ⟨0, state.left, pushed ((state.left <<< 6) ||| dec)⟩
  | _ => state

/-- Up to the first character that is not of the alphabet, as the terminator. -/
def Decoder.run (state : Decoder) : List UInt8 → Decoder × List UInt8
  | [] => (state, [])
  | ch :: p => if dec64 ch = -1 then (state, ch :: p) else run (state.feed (dec64 ch).toNat) p

/-- `DecodeBase64` of a C string, and `*pfInvalid`. -/
def decodeBase64 (p : List UInt8) : List UInt8 × Bool :=
  let (state, p) := Decoder.run ⟨0, 0, []⟩ p
  let fInvalid := match state.mode with
    | 1 => true
    | 2 => state.left ≠ 0 || p.getD 0 0 ≠ 61 || p.getD 1 0 ≠ 61 || dec64 (p.getD 2 0) ≠ -1
    | 3 => state.left ≠ 0 || p.getD 0 0 ≠ 61 || dec64 (p.getD 1 0) ≠ -1
    | _ => false
  (state.vchRet, fInvalid)

/-- The character of a digit. -/
def letter (d : Nat) : UInt8 := pbase64.getD d 0

def Encodes (pch : List UInt8) (state : Encoder) : Prop :=
  ∃ n, (state.mode, n) ∈ [(0, 0), (1, 2), (2, 4)] ∧ Encoded 6 letter pch state.strRet n state.left

theorem Encodes.feed {pch : List UInt8} {state : Encoder} (h : Encodes pch state) (c : UInt8) :
    Encodes (pch ++ [c]) (state.feed c) := by
  obtain ⟨mode, left, strRet⟩ := state
  obtain ⟨n, hmode, h⟩ := h
  simp only [List.mem_cons, Prod.mk.injEq, List.not_mem_nil, or_false] at hmode
  rcases hmode with ⟨rfl, rfl⟩ | ⟨rfl, rfl⟩ | ⟨rfl, rfl⟩
  · exact ⟨2, by simp [Encoder.feed], h.first c rfl⟩
  · exact ⟨4, by simp [Encoder.feed], h.one c nofun (by decide) rfl⟩
  · exact ⟨0, by simp [Encoder.feed], (h.two c (by decide) (by decide) rfl).start left⟩

/-- **What is encoded**: the letters of digits that go back to the bytes, and padding. -/
theorem encodeBase64_eq (pch : List UInt8) :
    ∃ digits n, encodeBase64 pch = digits.map letter ++ padding 4 digits.length ∧
      Regrouped 6 8 digits (pch.map UInt8.toNat) n 0 ∧ n < 6 ∧ ∀ d ∈ digits, d < 2 ^ 6 := by
  have hnil : Encodes [] ⟨0, 0, []⟩ := ⟨0, by simp, .nil⟩
  obtain ⟨n, hmode, h⟩ := foldl_append pch (fun _ _ c _ h => h.feed c) hnil
  simp only [List.mem_cons, Prod.mk.injEq, List.not_mem_nil, or_false] at hmode
  obtain ⟨digits, hstr, hback, hdigits⟩ := h.last (by omega)
  have hbits := hback.bits
  refine ⟨digits, _, ?_, hback, by split <;> omega, hdigits⟩
  unfold encodeBase64
  dsimp only
  generalize pch.foldl Encoder.feed ⟨0, 0, []⟩ = state at *
  have hpadding : (if n = 0 then 0 else if state.mode = 1 then 2 else 1) = (4 - digits.length % 4) % 4 := by
    rcases hmode with ⟨hm, rfl⟩ | ⟨hm, rfl⟩ | ⟨hm, rfl⟩ <;> simp [hm] at hbits ⊢ <;> omega
  rw [padding, ← hpadding, ← hstr]
  rcases hmode with ⟨hm, rfl⟩ | ⟨hm, rfl⟩ | ⟨hm, rfl⟩ <;> simp [hm, letter, List.replicate_succ]

/-! ### Decoding -/

theorem dec64_letter {d : Nat} (hd : d < 2 ^ 6) : dec64 (letter d) = d := by
  have hall : (List.range 64).all (fun d => dec64 (letter d) == d) = true := by decide +kernel
  exact beq_iff_eq.mp (List.all_eq_true.mp hall d (List.mem_range.mpr hd))

theorem dec64_spec (c : UInt8) : dec64 c ≠ -1 → (dec64 c).toNat < 2 ^ 6 ∧ letter (dec64 c).toNat = c := by
  have hall : (List.range 256).all (fun n => decide (dec64 (UInt8.ofNat n) ≠ -1 →
      (dec64 (UInt8.ofNat n)).toNat < 2 ^ 6 ∧
        letter (dec64 (UInt8.ofNat n)).toNat = UInt8.ofNat n)) = true := by decide +kernel
  have hc := List.all_eq_true.mp hall c.toNat (List.mem_range.mpr c.toNat_lt)
  rw [UInt8.ofNat_toNat] at hc
  exact of_decide_eq_true hc

def alphabet64 : Alphabet 6 where
  dec := dec64
  letter := letter
  fold := id
  dec_letter := fun _ => dec64_letter
  dec_lt := fun c hc => (dec64_spec c hc).1
  letter_dec := fun c hc => (dec64_spec c hc).2
  dec_padding := by decide
  dec_zero := by decide

theorem run_eq (state : Decoder) (p : List UInt8) : state.run p =
      ((digitsOf dec64 (alphabetPrefix dec64 p)).foldl Decoder.feed state, behindAlphabet dec64 p) := by
  induction p generalizing state with
  | nil => rfl
  | cons c p ih =>
    rw [Decoder.run, alphabetPrefix, behindAlphabet, List.takeWhile_cons, List.dropWhile_cons]
    by_cases hc : dec64 c = -1
    · simp [hc, digitsOf]
    · simp [hc, ih, digitsOf, alphabetPrefix, behindAlphabet]

def Decodes (digits : List Nat) (state : Decoder) : Prop :=
  ∃ n, (state.mode, n) ∈ [(0, 0), (1, 6), (2, 4), (3, 2)] ∧ Decoded 6 digits state.vchRet n state.left

theorem Decodes.feed {digits : List Nat} {state : Decoder} (h : Decodes digits state) {dec : Nat}
    (hdec : dec < 2 ^ 6) : Decodes (digits ++ [dec]) (state.feed dec) := by
  obtain ⟨mode, left, vchRet⟩ := state
  obtain ⟨n, hmode, h⟩ := h
  simp only [List.mem_cons, Prod.mk.injEq, List.not_mem_nil, or_false] at hmode
  rcases hmode with ⟨rfl, rfl⟩ | ⟨rfl, rfl⟩ | ⟨rfl, rfl⟩ | ⟨rfl, rfl⟩
  · exact ⟨6, by simp [Decoder.feed], h.first hdec⟩
  · exact ⟨4, by simp [Decoder.feed], h.push hdec (by decide) (by decide) rfl⟩
  · exact ⟨2, by simp [Decoder.feed], h.push hdec (by decide) (by decide) rfl⟩
  · exact ⟨0, by simp [Decoder.feed], (h.push hdec (by decide) (by decide) rfl).start left⟩

/-- **What is decoded**: the bytes of the digits, and whether no bit of them is left over and the padding is
there. -/
theorem decodeBase64_spec (p : List UInt8) :
    ∃ n left, Regrouped 6 8 (digitsOf dec64 (alphabetPrefix dec64 p)) ((decodeBase64 p).1.map UInt8.toNat) n left ∧
      n < 8 ∧ ((decodeBase64 p).2 = false ↔ n < 6 ∧ left = 0 ∧ (n = 0 ∨ alphabet64.Padded 4 p)) := by
  have hdigits : ∀ d ∈ digitsOf dec64 (alphabetPrefix dec64 p), d < 2 ^ 6 := alphabet64.lt_of_mem_digitsOf
  have hnil : Decodes [] ⟨0, 0, []⟩ := ⟨0, by simp, .nil⟩
  obtain ⟨n, hmode, left, hregrouped, hleft⟩ := foldl_append _ (fun _ _ d hd h => h.feed (hdigits d hd)) hnil
  have hbits := hregrouped.bits
  have hlt := hregrouped.left_lt
  have hlen : (digitsOf dec64 (alphabetPrefix dec64 p)).length = (alphabetPrefix dec64 p).length :=
    List.length_map _
  rw [List.nil_append] at hregrouped hbits
  rw [hlen] at hbits
  refine ⟨n, left, ?_, ?_, ?_⟩
  · rw [decodeBase64, run_eq]
    exact hregrouped
  · simp only [List.mem_cons, Prod.mk.injEq, List.not_mem_nil, or_false] at hmode
    omega
  · have required : ∀ k, (4 - (alphabetPrefix dec64 p).length % 4) % 4 = k → (alphabet64.Padded 4 p ↔
        (∀ i < k, (behindAlphabet dec64 p).getD i 0 = 61) ∧ dec64 ((behindAlphabet dec64 p).getD k 0) = -1) := by
      rintro k rfl
      rw [Alphabet.Padded, padding, List.length_replicate]
      rfl
    rw [decodeBase64, run_eq]
    generalize (digitsOf dec64 (alphabetPrefix dec64 p)).foldl Decoder.feed ⟨0, 0, []⟩ = state at *
    obtain ⟨mode, sleft, vchRet⟩ := state
    simp only [List.mem_cons, Prod.mk.injEq, List.not_mem_nil, or_false] at hmode hleft
    rcases hmode with ⟨rfl, rfl⟩ | ⟨rfl, rfl⟩ | ⟨rfl, rfl⟩ | ⟨rfl, rfl⟩
    · simpa using Nat.lt_one_iff.mp hlt
    · simp
    · obtain rfl := hleft (by decide)
      have both {q : Nat → Prop} : (∀ i < 2, q i) ↔ q 0 ∧ q 1 := by
        simp only [Nat.forall_lt_succ_right, Nat.not_lt_zero, false_implies, implies_true, true_and]
      rw [required 2 (by omega), both]
      simp [and_assoc]
    · obtain rfl := hleft (by decide)
      rw [required 1 (by omega)]
      simp [and_assoc]

def base64 : Code 6 4 where
  toAlphabet := alphabet64
  encode := encodeBase64
  decode := decodeBase64
  pos := by decide
  le := by decide
  encode_spec := encodeBase64_eq
  decode_spec := decodeBase64_spec

/-- **Both codes are inverse to each other**: on all bytes, and on all strings that are not invalid, of which
the characters of the alphabet and the padding that they require are left. -/
theorem base64_base32 :
    (∀ x, decodeBase64 (encodeBase64 x) = (x, false)) ∧
    (∀ x, HostPort.decodeBase32 (HostPort.encodeBase32 x) = (x, false)) ∧
    (∀ p, (decodeBase64 p).2 = false →
      encodeBase64 (decodeBase64 p).1 =
        alphabetPrefix dec64 p ++ padding 4 (alphabetPrefix dec64 p).length) ∧
    ∀ p, (HostPort.decodeBase32 p).2 = false →
      HostPort.encodeBase32 (HostPort.decodeBase32 p).1 =
        (alphabetPrefix HostPort.dec32 p).map HostPort.toLower ++
          padding 8 (alphabetPrefix HostPort.dec32 p).length := by
  refine ⟨base64.decode_encode, HostPort.base32.decode_encode, fun p hvalid => ?_,
    fun p hvalid => HostPort.base32.encode_decode hvalid⟩
  have encoded := base64.encode_decode hvalid
  rwa [show base64.fold = id from rfl, List.map_id] at encoded

/-- `QUI=` and `IFBA====` are the codes of two letters. -/
theorem base64_base32_sample :
    encodeBase64 (decodeBase64 [81, 85, 73, 61]).1 = [81, 85, 73, 61] ∧
      HostPort.encodeBase32 (HostPort.decodeBase32 [73, 70, 66, 65, 61, 61, 61, 61]).1 =
        [105, 102, 98, 97, 61, 61, 61, 61] :=
  ⟨base64_base32.2.2.1 [81, 85, 73, 61] (by decide),
    base64_base32.2.2.2 [73, 70, 66, 65, 61, 61, 61, 61] (by decide)⟩

end Base64

end Manna
