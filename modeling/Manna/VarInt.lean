import Manna.Lib.Codec
import Mathlib.Algebra.Order.Ring.Int
import Mathlib.Tactic.SplitIfs

/-!
Base-128 integers (`serialize.h`: `WriteVarInt`, `ReadVarInt`, `GetSizeOfVarInt`).

The most significant group comes first, every byte but the last carries the
continuation bit, and one is subtracted at each continuation, so that no number has two
encodings. The three templates are used with `int`, `unsigned int` and `uint64_t`: the
writer is one function on `Int`, where `n & 0x7F` and `n >> 7` are remainder and
quotient, and the reader is given the width of the type.

* `reads_writeVarInt`: a number of the type is read back from the bytes written;
* `length_writeVarInt`: `GetSizeOfVarInt` counts them.
-/

namespace Manna

open Codec

/-- `(n & 0x7F) | (len ? 0x80 : 0x00)`. -/
def varIntByte (fMore : Bool) (n : Int) : UInt8 :=
  UInt8.ofNat ((n % 128).toNat + if fMore then 0x80 else 0x00)

/-- The loop of `WriteVarInt`: `tmp` grows by one byte a round and is kept in the order
of writing; `fMore` says that it is not empty. -/
def varIntBytes (fMore : Bool) (n : Int) (tmp : List UInt8) : List UInt8 :=
  if n ≤ 0x7F then varIntByte fMore n :: tmp
  else varIntBytes true (n / 128 - 1) (varIntByte fMore n :: tmp)
termination_by n.toNat
decreasing_by omega

def writeVarInt (n : Int) : List UInt8 := varIntBytes false n []

def getSizeOfVarInt (n : Int) : Nat := if n ≤ 0x7F then 1 else getSizeOfVarInt (n / 128 - 1) + 1
termination_by n.toNat
decreasing_by omega

/-- The loop of `ReadVarInt` at an unsigned type of `w` bits, with the number so far. -/
def readVarIntLoop (w : Nat) : Nat → Reader Nat
  | _, [] => none
  | n, ch :: s =>
    let n := (n * 128 + ch.toNat % 128) % 2 ^ w
    if 128 ≤ ch.toNat then readVarIntLoop w ((n + 1) % 2 ^ w) s else some (n, s)

/-- `ReadVarInt` at an unsigned type of `w` bits. -/
def readVarInt (w : Nat) : Reader Nat := readVarIntLoop w 0

/-- `ReadVarInt` at `int`: the same bits, read as a signed number. -/
def readVarIntSigned : Reader Int := do
  let n ← readVarInt 32
  return Int.bmod n (2 ^ 32)

theorem length_varIntBytes (fMore : Bool) (n : Int) (tmp : List UInt8) :
    (varIntBytes fMore n tmp).length = getSizeOfVarInt n + tmp.length := by
  induction fMore, n, tmp using varIntBytes.induct with
  | case1 fMore n tmp hn =>
    rw [varIntBytes, getSizeOfVarInt, if_pos hn, if_pos hn, List.length_cons]
    exact Nat.add_comm _ _
  | case2 fMore n tmp hn ih =>
    rw [varIntBytes, getSizeOfVarInt, if_neg hn, if_neg hn, ih, List.length_cons]
    omega

/-- **The size counts the bytes.** -/
theorem length_writeVarInt (n : Int) : (writeVarInt n).length = getSizeOfVarInt n :=
  length_varIntBytes false n []

theorem getSizeOfVarInt_pos (n : Int) : 0 < getSizeOfVarInt n := by
  rw [getSizeOfVarInt]
  split <;> omega

theorem getSizeOfVarInt_le {k : Nat} : ∀ {n : Int}, n < 128 ^ (k + 1) → getSizeOfVarInt n ≤ k + 1 := by
  induction k with
  | zero =>
    intro n hn
    rw [getSizeOfVarInt, if_pos (by omega)]
  | succ k ih =>
    intro n hn
    rw [getSizeOfVarInt]
    split
    · omega
    · have hquot : n / 128 - 1 < 128 ^ (k + 1) := by
        rw [pow_succ] at hn
        omega
      exact Nat.succ_le_succ (ih hquot)

theorem writeVarInt_of_small {n : Nat} (hn : n ≤ 0x7F) : writeVarInt n = [UInt8.ofNat n] := by
  have hmod : ((n : Int) % 128).toNat = n := by omega
  rw [writeVarInt, varIntBytes, if_pos (by omega), varIntByte, hmod]
  rfl

/-! ### Reading back -/

section Reading

variable {w : Nat} {n : Int}

/-- The number a byte of the writer carries, and whether it continues. -/
theorem toNat_varIntByte (fMore : Bool) (n : Int) :
    (varIntByte fMore n).toNat = (n % 128).toNat + if fMore then 128 else 0 := by
  rw [varIntByte, UInt8.toNat_ofNat']
  apply Nat.mod_eq_of_lt
  split <;> omega

theorem readVarIntLoop_more {acc : Nat} (hn : 0 ≤ n) (hacc : acc * 128 + (n % 128).toNat = n.toNat)
    (hlt : n + 1 < 2 ^ w) (s : List UInt8) :
    readVarIntLoop w acc (varIntByte true n :: s) = readVarIntLoop w (n + 1).toNat s := by
  have hpow : ((2 ^ w : Nat) : Int) = 2 ^ w := Int.natCast_pow 2 w
  simp only [readVarIntLoop, toNat_varIntByte, if_true]
  have hlow : ((n % 128).toNat + 128) % 128 = (n % 128).toNat := by omega
  rw [if_pos (Nat.le_add_left _ _), hlow, hacc, Nat.mod_eq_of_lt (by omega : n.toNat < 2 ^ w),
    Nat.mod_eq_of_lt (by omega : n.toNat + 1 < 2 ^ w)]
  congr 1
  omega

theorem readVarIntLoop_last {acc : Nat} (hn : 0 ≤ n)
    (hacc : acc * 128 + (n % 128).toNat = n.toNat) (hlt : n < 2 ^ w) (s : List UInt8) :
    readVarIntLoop w acc (varIntByte false n :: s) = some (n.toNat, s) := by
  have hpow : ((2 ^ w : Nat) : Int) = 2 ^ w := Int.natCast_pow 2 w
  simp only [readVarIntLoop, toNat_varIntByte, Bool.false_eq_true, if_false, Nat.add_zero]
  have hlow : (n % 128).toNat % 128 = (n % 128).toNat := by omega
  rw [if_neg (by omega), hlow, hacc, Nat.mod_eq_of_lt (by omega : n.toNat < 2 ^ w)]

theorem readVarIntLoop_varIntBytes {tmp rest : List UInt8} (hn : 0 ≤ n) (hlt : n + 1 < 2 ^ w) :
    readVarIntLoop w 0 (varIntBytes true n tmp ++ rest) = readVarIntLoop w (n + 1).toNat (tmp ++ rest) := by
  induction hm : n.toNat using Nat.strongRecOn generalizing n tmp with
  | ind m ih =>
    rw [varIntBytes]
    split
    · exact readVarIntLoop_more hn (by omega) hlt _
    · rw [ih (n / 128 - 1).toNat (by omega) (by omega) (by omega) rfl, List.cons_append]
      exact readVarIntLoop_more hn (by omega) hlt _

/-- **A number of the type is read back** from exactly the bytes written. -/
theorem reads_writeVarInt (hn : 0 ≤ n) (hlt : n < 2 ^ w) : Reads (readVarInt w) (writeVarInt n) n.toNat := by
  intro rest
  rw [readVarInt, writeVarInt, varIntBytes]
  split
  · exact readVarIntLoop_last hn (by omega) hlt rest
  · rw [readVarIntLoop_varIntBytes (by omega) (by omega), List.cons_append]
    exact readVarIntLoop_last hn (by omega) hlt rest

theorem bmod_of_nonneg {m : Nat} (hn : 0 ≤ n) (hlt : n < m) : Int.bmod (n.toNat : Int) (2 * m) = n := by
  rw [Int.toNat_of_nonneg hn, Int.bmod_def, Int.emod_eq_of_lt hn (by omega), if_pos (by omega)]

theorem reads_writeVarInt_signed (hn : 0 ≤ n) (hlt : n < 2 ^ 31) :
    Reads readVarIntSigned (writeVarInt n) n := by
  have hwide : n < 2 ^ 32 := by omega
  have hread := (reads_writeVarInt hn hwide).map (f := fun m : Nat => Int.bmod m (2 ^ 32))
  rwa [show (2 ^ 32 : Nat) = 2 * 2 ^ 31 by rfl, bmod_of_nonneg hn hlt] at hread

end Reading

end Manna
