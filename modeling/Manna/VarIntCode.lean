import Mathlib.Data.PNat.Basic
import Manna.Lib.Bijective
import Manna.VarInt

/-!
The code of base-128 integers (`serialize.h`: `WriteVarInt`, `ReadVarInt`).

The reader shifts within the width of its type and does not ask whether the number fits. A byte string
stands for the number that the comment of the source gives it; the reader takes it modulo the width.

* `readVarInt_encoding`: what is read from an encoding;
* `encodedNumber_inj`: without a width, one number has one encoding;
* `varIntCode_iff`: the numbers of a type, and the byte strings that are no second encoding.
-/

namespace Manna

open Codec Bijective

/-- The byte strings that the reader takes whole: all bytes but the last continue. -/
def IsEncoding (s : List UInt8) : Prop :=
  ∃ init last, s = init ++ [last] ∧ (∀ ch ∈ init, 128 ≤ ch.toNat) ∧ last.toNat < 128

/-- The number of an encoding: `(a[len-1] & 0x7F) + sum(i=1..len-1, 128^i*((a[len-i-1] & 0x7F)+1))`. -/
def encodedNumber (s : List UInt8) : Nat := value 128 (s.map fun ch => ch.toNat % 128) - 1

variable {w n : Nat} {s init : List UInt8} {last : UInt8}

theorem value_encoding (h : IsEncoding s) :
    value 128 (s.map fun ch => ch.toNat % 128) = encodedNumber s + 1 := by
  obtain ⟨init, last, rfl, -, -⟩ := h
  rw [encodedNumber, List.map_append, List.map_singleton, value_concat, Nat.add_sub_cancel]

/-- **One number, one encoding.** -/
theorem encodedNumber_inj {t : List UInt8} (hs : IsEncoding s) (ht : IsEncoding t)
    (h : encodedNumber s = encodedNumber t) : s = t := by
  have hdigits : ∀ r : List UInt8, ∀ d ∈ r.map fun ch => ch.toNat % 128, d < 128 := by
    intro r d hd
    obtain ⟨ch, -, rfl⟩ := List.mem_map.mp hd
    exact Nat.mod_lt _ (by decide)
  have hvalue := value_inj (hdigits s) (hdigits t) (by rw [value_encoding hs, value_encoding ht, h])
  obtain ⟨init, last, rfl, hinit, hlast⟩ := hs
  obtain ⟨init', last', rfl, hinit', hlast'⟩ := ht
  rw [List.map_append, List.map_append, List.map_singleton, List.map_singleton] at hvalue
  obtain ⟨hinits, hlasts⟩ := List.append_inj' hvalue rfl
  have hbytes : init = init' := by
    have hlen : init.length = init'.length := by simpa using congrArg List.length hinits
    refine List.ext_getElem hlen fun i hi hi' => UInt8.toNat_inj.mp ?_
    have hget : (init[i].toNat % 128) = init'[i].toNat % 128 := by
      have hboth := congrArg (fun l => l[i]?) hinits
      simpa [List.getElem?_eq_getElem hi, List.getElem?_eq_getElem hi'] using hboth
    have hmore := hinit _ (List.getElem_mem hi)
    have hmore' := hinit' _ (List.getElem_mem hi')
    have hlt := init[i].toNat_lt
    have hlt' := init'[i].toNat_lt
    omega
  have hends : last = last' := UInt8.toNat_inj.mp (by
    have hmod := List.singleton_inj.mp hlasts
    omega)
  rw [hbytes, hends]

/-! ### What is read -/

theorem readVarIntLoop_init (hinit : ∀ ch ∈ init, 128 ≤ ch.toNat) (digits : List Nat) (rest : List UInt8) :
    readVarIntLoop w (value 128 digits % 2 ^ w) (init ++ rest) =
      readVarIntLoop w (value 128 (digits ++ init.map fun ch => ch.toNat % 128) % 2 ^ w) rest := by
  induction init generalizing digits with
  | nil => simp
  | cons ch init ih =>
    rw [List.forall_mem_cons] at hinit
    have hstep : ((value 128 digits % 2 ^ w * 128 + ch.toNat % 128) % 2 ^ w + 1) % 2 ^ w =
        value 128 (digits ++ [ch.toNat % 128]) % 2 ^ w := by
      rw [value_concat, Nat.mod_add_mod, Nat.add_assoc, ← Nat.mod_add_mod, Nat.mod_mul_mod, Nat.mod_add_mod,
        ← Nat.add_assoc]
    rw [List.cons_append, readVarIntLoop, if_pos hinit.1, hstep, ih hinit.2, List.map_cons, List.append_assoc, List.singleton_append]

/-- **An encoding is read** modulo the width. -/
theorem readVarInt_encoding (h : IsEncoding s) : readVarInt w s = some (encodedNumber s % 2 ^ w, []) := by
  obtain ⟨init, last, rfl, hinit, hlast⟩ := h
  have hloop := @readVarIntLoop_init w init hinit [] [last]
  rw [value_nil, Nat.zero_mod, List.nil_append] at hloop
  rw [readVarInt, hloop, readVarIntLoop, if_neg (by omega), encodedNumber, List.map_append, List.map_singleton, value_concat, Nat.add_sub_cancel,
    ← Nat.mod_add_mod, Nat.mod_mul_mod, Nat.mod_add_mod]

theorem isEncoding_of_readVarIntLoop {acc : Nat} (h : readVarIntLoop w acc s = some (n, [])) : IsEncoding s := by
  induction s generalizing acc with
  | nil => cases h
  | cons ch s ih =>
    rw [readVarIntLoop] at h
    split at h
    · next hmore =>
      obtain ⟨init, last, rfl, hinit, hlast⟩ := ih h
      exact ⟨ch :: init, last, rfl, List.forall_mem_cons.mpr ⟨hmore, hinit⟩, hlast⟩
    · next hends =>
      cases h
      exact ⟨[], ch, rfl, by simp, by omega⟩

theorem IsEncoding.cons (h : IsEncoding s) (n : Int) : IsEncoding (varIntByte true n :: s) := by
  obtain ⟨init, last, rfl, hinit, hlast⟩ := h
  refine ⟨varIntByte true n :: init, last, rfl, List.forall_mem_cons.mpr ⟨?_, hinit⟩, hlast⟩
  rw [toNat_varIntByte, if_pos rfl]
  omega

theorem isEncoding_varIntBytes {n : Int} {tmp : List UInt8} (htmp : IsEncoding tmp) :
    IsEncoding (varIntBytes true n tmp) := by
  generalize hmore : true = fMore at *
  induction fMore, n, tmp using varIntBytes.induct with
  | case1 fMore n tmp hn =>
    subst hmore
    rw [varIntBytes, if_pos hn]
    exact htmp.cons n
  | case2 fMore n tmp hn ih =>
    subst hmore
    rw [varIntBytes, if_neg hn]
    exact ih (htmp.cons n) rfl

theorem isEncoding_writeVarInt (n : Nat) : IsEncoding (writeVarInt n) := by
  have hlast : IsEncoding [varIntByte false n] := by
    refine ⟨[], _, rfl, by simp, ?_⟩
    rw [toNat_varIntByte, if_neg Bool.false_ne_true]
    omega
  rw [writeVarInt, varIntBytes]
  split
  · exact hlast
  · exact isEncoding_varIntBytes hlast

/-- **The number of what the writer makes.** -/
theorem encodedNumber_writeVarInt (n : Nat) : encodedNumber (writeVarInt n) = n := by
  -- a width at which neither number is cut
  have hlt : ∀ m ≤ n + encodedNumber (writeVarInt n), m < 2 ^ (n + encodedNumber (writeVarInt n)) := fun m hm =>
    Nat.lt_two_pow_self.trans_le (Nat.pow_le_pow_right (by decide) hm)
  have hback : readVarInt _ (writeVarInt n ++ []) = some ((n : Int).toNat, []) :=
    reads_writeVarInt (Int.natCast_nonneg n) (by exact_mod_cast hlt n (Nat.le_add_right _ _)) []
  rw [List.append_nil, readVarInt_encoding (isEncoding_writeVarInt n),
    Nat.mod_eq_of_lt (hlt _ (Nat.le_add_left _ _))] at hback
  simpa using hback

/-! ### The code -/

/-- **An encoding is that of the number read from it** where its number fits into the width. -/
theorem writeVarInt_eq_iff (h : IsEncoding s) :
    writeVarInt (encodedNumber s % 2 ^ w : Nat) = s ↔ encodedNumber s < 2 ^ w := by
  constructor
  · intro hwrite
    rw [← hwrite, encodedNumber_writeVarInt]
    exact Nat.mod_lt _ (Nat.two_pow_pos w)
  · intro hfits
    rw [Nat.mod_eq_of_lt hfits]
    exact encodedNumber_inj (isEncoding_writeVarInt _) h (encodedNumber_writeVarInt _)

/-- **The code of a number** at a type of so many bytes: it is read back from the bytes written, which are as
many as are counted and fit into `tmp`, and no other number has them. -/
structure VarIntCode (nBytes : ℕ+) (n : Nat) : Prop where
  reads : Reads (readVarInt (8 * nBytes)) (writeVarInt n) n
  length : (writeVarInt n).length = getSizeOfVarInt n
  tmp : (writeVarInt n).length ≤ (nBytes * 8 + 6) / 7
  one : ∀ m : Nat, writeVarInt m = writeVarInt n → m = n

theorem varIntCode {nBytes : ℕ+} (hn : n < 2 ^ (8 * (nBytes : Nat))) : VarIntCode nBytes n where
  reads := by
    have hreads := @reads_writeVarInt (8 * nBytes) n (Int.natCast_nonneg n) (by exact_mod_cast hn)
    rwa [Int.toNat_natCast] at hreads
  length := length_writeVarInt n
  tmp := by
    have hpos := nBytes.pos
    rw [length_writeVarInt]
    cases hbuffer : ((nBytes : Nat) * 8 + 6) / 7 with
    | zero => omega
    | succ k =>
      have hwide : 2 ^ (8 * (nBytes : Nat)) ≤ 128 ^ (k + 1) := by
        rw [show 128 = 2 ^ 7 by rfl, ← pow_mul]
        exact Nat.pow_le_pow_right (by decide) (by omega)
      exact getSizeOfVarInt_le (by exact_mod_cast hn.trans_le hwide)
  one m h := by
    rw [← encodedNumber_writeVarInt m, h, encodedNumber_writeVarInt]

/-- No second encoding of a number is taken: the byte string, where it is taken whole, is what the writer
makes of the number. -/
def OneEncoding (nBytes : ℕ+) (s : List UInt8) : Prop :=
  ∀ n, readVarInt (8 * nBytes) s = some (n, []) → writeVarInt n = s

/-- **Base-128 integers**: every number has its code, and a byte string is no second encoding exactly where
the number it stands for, if it is an encoding, fits into the type. -/
theorem varIntCode_iff (nBytes : ℕ+) (hn : n < 2 ^ (8 * (nBytes : Nat))) (s : List UInt8) :
    VarIntCode nBytes n ∧
      (OneEncoding nBytes s ↔ (IsEncoding s → encodedNumber s < 2 ^ (8 * (nBytes : Nat)))) := by
  refine ⟨varIntCode hn, ?_⟩
  constructor
  · intro h henc
    exact (writeVarInt_eq_iff henc).mp (h _ (readVarInt_encoding henc))
  · intro h m hread
    have henc := isEncoding_of_readVarIntLoop hread
    rw [readVarInt_encoding henc] at hread
    cases hread
    exact (writeVarInt_eq_iff henc).mpr (h henc)

theorem varIntCode_iff_sample : VarIntCode 4 300 ∧ OneEncoding 4 [0x81, 0x2C] :=
  have hcode := varIntCode_iff 4 (show 300 < 2 ^ (8 * (4 : ℕ+) : Nat) by decide) [0x81, 0x2C]
  ⟨hcode.1, hcode.2.mpr fun _ => by decide⟩

/-- The five bytes of 2^32 are a second encoding of zero at `unsigned int`. -/
theorem not_forall_oneEncoding :
    readVarInt (8 * (4 : ℕ+)) [0x00] = some (0, []) ∧
      readVarInt (8 * (4 : ℕ+)) [0x8E, 0xFE, 0xFE, 0xFF, 0x00] = some (0, []) ∧
      ¬ OneEncoding 4 [0x8E, 0xFE, 0xFE, 0xFF, 0x00] := by
  refine ⟨by decide, by decide, fun h => ?_⟩
  have hwrite := h 0 (by decide)
  rw [Nat.cast_zero, show (0 : Int) = (0 : Nat) by rfl, writeVarInt_of_small (by decide)] at hwrite
  cases hwrite

end Manna
