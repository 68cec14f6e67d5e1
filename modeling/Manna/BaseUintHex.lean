import Manna.BaseUint
import Manna.Lib.Decimal
import Manna.Lib.Radix

/-!
Numbers of fixed width in hexadecimal digits (`uintBIG.h`: `GetHex`, `SetHex`).

* `setHex_getHex`: what is printed is read back;
* `baseUint_agrees`: the operators of `base_uint` on the numbers of the limbs.
-/

namespace Manna

namespace BaseUint

open Decimal (isSpace)

/-! ### GetHex -/

def bytes (pn : List UInt32) : List UInt8 := pn.flatMap fun a => Codec.littleEndian 4 a.toNat

def hexDigit (d : Nat) : UInt8 := UInt8.ofNat (if d < 10 then 48 + d else 87 + d)

/-- `%02x`. -/
def printByte (b : UInt8) : List UInt8 := [hexDigit (b.toNat / 16), hexDigit (b.toNat % 16)]

variable {WIDTH : Nat}

def getHex (x : BaseUint WIDTH) : List UInt8 := (bytes x.pn).reverse.flatMap printByte

/-! ### SetHex -/

def phexdigit : List UInt8 :=
  List.replicate 48 0 ++ [0, 1, 2, 3, 4, 5, 6, 7, 8, 9, 0, 0, 0, 0, 0, 0] ++
    [0, 0xa, 0xb, 0xc, 0xd, 0xe, 0xf, 0, 0, 0, 0, 0, 0, 0, 0, 0] ++ List.replicate 16 0 ++
    [0, 0xa, 0xb, 0xc, 0xd, 0xe, 0xf, 0, 0, 0, 0, 0, 0, 0, 0, 0] ++ List.replicate 144 0

/-- `phexdigit[(unsigned char)c]`. -/
def hexValue (c : UInt8) : UInt8 := phexdigit.getD c.toNat 0

def skip0x : List UInt8 → List UInt8
  | 48 :: 120 :: psz => psz
  | 48 :: 88 :: psz => psz
  | psz => psz

/-- The bytes from `p1` to `pend`, filled with the digits from the last one on. -/
def fillBytes : Nat → List UInt8 → List UInt8
  | 0, _ => []
  | n + 1, [] => 0 :: fillBytes n []
  | n + 1, [d] => hexValue d :: fillBytes n []
  | n + 1, d :: e :: digits => (hexValue d ||| hexValue e <<< 4) :: fillBytes n digits

/-- `pn` in a memory of these bytes. -/
def limbsOf : Nat → List UInt8 → List UInt32
  | 0, _ => []
  | n + 1, l => UInt32.ofNat (Radix.ofBytes (l.take 4)) :: limbsOf n (l.drop 4)

theorem length_limbsOf (n : Nat) (l : List UInt8) : (limbsOf n l).length = n := by
  induction n generalizing l with
  | zero => rfl
  | succ n ih => rw [limbsOf, List.length_cons, ih]

/-- The digits that `SetHex` reads; the terminator is none. -/
def hexDigits (psz : List UInt8) : List UInt8 :=
  (skip0x (psz.dropWhile isSpace)).takeWhile fun c => hexValue c ≠ 0 ∨ c = 48

def setHex (psz : List UInt8) : BaseUint WIDTH :=
  ⟨limbsOf WIDTH (fillBytes (WIDTH * 4) (hexDigits psz).reverse), length_limbsOf _ _⟩

/-! ### There and back -/

theorem length_bytes (pn : List UInt32) : (bytes pn).length = pn.length * 4 := by
  induction pn with
  | nil => rfl
  | cons a pn ih =>
    rw [bytes, List.flatMap_cons, List.length_append, Codec.length_littleEndian, ← bytes, ih, List.length_cons]
    omega

theorem limbsOf_bytes (pn : List UInt32) : limbsOf pn.length (bytes pn) = pn := by
  induction pn with
  | nil => rfl
  | cons a pn ih =>
    have length := Codec.length_littleEndian 4 a.toNat
    have first : (bytes (a :: pn)).take 4 = Codec.littleEndian 4 a.toNat := List.take_left' length
    have rest : (bytes (a :: pn)).drop 4 = bytes pn := List.drop_left' length
    have fits : a.toNat % 256 ^ 4 = a.toNat := Nat.mod_eq_of_lt a.toNat_lt
    rw [List.length_cons, limbsOf, first, rest, ih, Radix.ofBytes_littleEndian, fits, UInt32.ofNat_toNat]

theorem hexDigit_spec : ∀ d < 16, hexValue (hexDigit d) = UInt8.ofNat d ∧ isSpace (hexDigit d) = false ∧
    hexDigit d ≠ 120 ∧ hexDigit d ≠ 88 ∧ (hexValue (hexDigit d) ≠ 0 ∨ hexDigit d = 48) := by
  decide

theorem digits_byte (b : UInt8) :
    hexValue (hexDigit (b.toNat % 16)) ||| hexValue (hexDigit (b.toNat / 16)) <<< 4 = b := by
  have hb := b.toNat_lt
  have low : (UInt8.ofNat (b.toNat % 16)).toNat = b.toNat % 16 := by
    rw [UInt8.toNat_ofNat']
    omega
  have high : (UInt8.ofNat (b.toNat / 16) <<< 4).toNat = 2 ^ 4 * (b.toNat / 16) := by
    rw [UInt8.toNat_shiftLeft, UInt8.toNat_ofNat', Nat.shiftLeft_eq, show (4 : UInt8).toNat % 8 = 4 from rfl]
    omega
  rw [(hexDigit_spec (b.toNat % 16) (by omega)).1, (hexDigit_spec (b.toNat / 16) (by omega)).1]
  refine UInt8.toNat_inj.mp ?_
  rw [UInt8.toNat_or, low, high, Nat.or_comm, ← Nat.two_pow_add_eq_or_of_lt (by omega)]
  omega

theorem fillBytes_digits (l : List UInt8) :
    fillBytes l.length (l.flatMap fun b => (printByte b).reverse) = l := by
  induction l with
  | nil => rfl
  | cons b l ih =>
    rw [List.flatMap_cons, printByte, List.length_cons]
    simp only [List.reverse_cons, List.reverse_nil, List.nil_append, List.cons_append]
    rw [fillBytes, ih, digits_byte]

/-- `SetHex` finds nothing to skip in digits, and stops behind them. -/
theorem hexDigits_eq_self {l : List UInt8} (h : ∀ c ∈ l, ∃ d < 16, c = hexDigit d) : hexDigits l = l := by
  have digits : l.takeWhile (fun c => hexValue c ≠ 0 ∨ c = 48) = l := by
    rw [List.takeWhile_eq_self_iff]
    intro c hc
    obtain ⟨d, hd, rfl⟩ := h c hc
    exact decide_eq_true (hexDigit_spec d hd).2.2.2.2
  have blanks : l.dropWhile isSpace = l := by
    cases l with
    | nil => rfl
    | cons c l =>
      obtain ⟨d, hd, rfl⟩ := h c (List.mem_cons_self ..)
      exact List.dropWhile_cons_of_neg (by rw [(hexDigit_spec d hd).2.1]; exact Bool.false_ne_true)
  have noPrefix : skip0x l = l := by
    have second : ∀ x y rest, l = x :: y :: rest → y ≠ 120 ∧ y ≠ 88 := by
      rintro x y rest rfl
      obtain ⟨d, hd, rfl⟩ := h y (by simp)
      exact ⟨(hexDigit_spec d hd).2.2.1, (hexDigit_spec d hd).2.2.2.1⟩
    unfold skip0x
    split
    next => exact absurd rfl (second _ _ _ rfl).1
    next => exact absurd rfl (second _ _ _ rfl).2
    next => rfl
  rw [hexDigits, blanks, noPrefix, digits]

/-- **What `GetHex` prints `SetHex` reads back.** -/
theorem setHex_getHex (x : BaseUint WIDTH) : setHex x.getHex = x := by
  have printed : ∀ c ∈ x.getHex, ∃ d < 16, c = hexDigit d := by
    intro c hc
    obtain ⟨b, -, hb⟩ := List.mem_flatMap.mp hc
    have hlt := b.toNat_lt
    rcases List.mem_cons.mp hb with rfl | hb
    · exact ⟨_, by omega, rfl⟩
    · exact ⟨_, Nat.mod_lt _ (by decide), List.mem_singleton.mp hb⟩
  obtain ⟨pn, rfl⟩ := x
  have back : (getHex ⟨pn, rfl⟩).reverse = (bytes pn).flatMap fun b => (printByte b).reverse := by
    rw [getHex, List.reverse_flatMap, List.reverse_reverse]
    rfl
  have limbs : limbsOf pn.length (fillBytes (pn.length * 4) (hexDigits (getHex ⟨pn, rfl⟩)).reverse) = pn := by
    rw [hexDigits_eq_self printed, back, ← length_bytes, fillBytes_digits, limbsOf_bytes]
  rw [setHex]
  congr

/-- **`base_uint` computes modulo `2 ^ BITS` and compares the numbers of its limbs, at every width.** -/
theorem baseUint_agrees (x y : BaseUint WIDTH) (shift : UInt32) :
    let residue : Int → Int := fun z => z % (2 ^ (32 * WIDTH) : Nat)
    ((x.add y).value = residue (x.value + y.value) ∧ (x.sub y).value = residue (x.value - y.value) ∧
      x.neg.value = residue (-x.value) ∧ x.incr.value = residue (x.value + 1) ∧
      x.postIncr = (x, x.incr) ∧ x.decr.value = residue (x.value - 1) ∧ x.postDecr = (x, x.decr) ∧
      (x.shl shift).value = residue (x.value * 2 ^ shift.toNat) ∧
      (x.shr shift).value = residue (x.value / 2 ^ shift.toNat)) ∧
    ((x.lt y = true ↔ x.value < y.value) ∧ (x.le y = true ↔ x.value ≤ y.value) ∧
      (x.gt y = true ↔ x.value > y.value) ∧ (x.ge y = true ↔ x.value ≥ y.value) ∧
      (x.eq y = true ↔ x.value = y.value) ∧ (x.ne y = true ↔ x.value ≠ y.value)) ∧
    (∀ n (z : BaseUint (n + 2)) (b : UInt64),
      let residue : Int → Int := fun z => z % (2 ^ (32 * (n + 2)) : Nat)
      (z.addUInt64 b).value = residue (z.value + b.toNat) ∧ (z.subUInt64 b).value = residue (z.value - b.toNat) ∧
        (z.eqUInt64 b = true ↔ z.value = b.toNat) ∧ (z.neUInt64 b = true ↔ z.value ≠ b.toNat) ∧
        (z.lt (ofUInt64 b) = true ↔ z.value < b.toNat) ∧ (z.le (ofUInt64 b) = true ↔ z.value ≤ b.toNat) ∧
        (z.gt (ofUInt64 b) = true ↔ z.value > b.toNat) ∧ (z.ge (ofUInt64 b) = true ↔ z.value ≥ b.toNat)) ∧
    setHex x.getHex = x := by
  have fits : (x.value / 2 ^ shift.toNat : Nat) < 2 ^ (32 * WIDTH) :=
    (Nat.div_le_self _ _).trans_lt x.value_lt
  refine ⟨⟨?_, residue_sub x y, residue_neg x, ?_, rfl, residue_decr x, rfl, ?_, ?_⟩,
    ⟨lt_iff x y, le_iff x y, gt_iff x y, ge_iff x y, eq_iff x y, ne_iff x y⟩, ?_, setHex_getHex x⟩
  · rw [value_add, cast_add]
  · rw [value_incr, cast_add]
    rfl
  · rw [value_shl, Int.natCast_emod, Int.natCast_mul, Int.natCast_pow]
    rfl
  · rw [value_shr, ← Nat.mod_eq_of_lt fits, Int.natCast_emod, Int.natCast_ediv, Int.natCast_pow]
    rfl
  · intro n z b residue
    have value := value_ofUInt64 (n := n) b
    have difference := residue_sub z (ofUInt64 b)
    rw [value] at difference
    refine ⟨?_, difference, eqUInt64_iff z b, neUInt64_iff z b, ?_, ?_, ?_, ?_⟩
    · rw [addUInt64, value_add, cast_add, value]
    · rw [lt_iff, value]
    · rw [le_iff, value]
    · rw [gt_iff, value]
    · rw [ge_iff, value]

end BaseUint

end Manna
