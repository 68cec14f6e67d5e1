import Manna.CanonicalSignature
import Manna.Lib.Codec
import Manna.Lib.Radix
import Manna.ScriptRun

/-!
Numbers in scripts (`bignum.h`: `CBigNum::setint64`, `setuint64`, `getuint64`, `setuint256`, `getuint256`,
`setvch`, `getvch`; `script.h`: `CScript::push_int64`, `push_uint64`; `script.cpp`: `CastToBigNum`).

A number goes through the MPI format of OpenSSL: its size in four bytes and its bytes, the highest first,
of which the highest bit is the sign. In a script the bytes are the other way round.

* `signMagnitude_bnGetVch`, `length_bnGetVch_le_iff`: `getvch` gives the shortest bytes of a number;
* `mpiValue_mpiLoop`: what the loops of the setters write;
* `evalScript_pushInt64`: a number that is pushed onto a script is on the stack afterwards.
-/

namespace Manna

open Radix

/-! ### Numbers and their bytes -/

theorem leNat_eq_ofBytes (l : List UInt8) : leNat l = ofBytes l := by
  induction l with
  | nil => rfl
  | cons b l ih => rw [leNat, ofBytes_cons, ih]

theorem leBytes_eq_toBytes {fuel n : Nat} (h : n ≤ fuel) : leBytes fuel n = toBytes n := by
  induction fuel generalizing n with
  | zero =>
    obtain rfl : n = 0 := Nat.le_zero.mp h
    rfl
  | succ fuel ih =>
    rw [leBytes]
    split
    · next hzero =>
      subst hzero
      rfl
    · next hne =>
      have hdigits := Nat.digits_def' (b := 256) (by decide) (Nat.pos_of_ne_zero hne)
      rw [toBytes, hdigits, List.map_cons, ih (by omega), toBytes]
      congr 1
      rw [← UInt8.toNat_inj, UInt8.toNat_ofNat', UInt8.toNat_ofNat', Nat.mod_mod]

/-- The value of bytes, the lowest first, as a magnitude with a sign bit. -/
def signMagnitude (vch : Valtype) : Int :=
  if 2 * ofBytes vch < 256 ^ vch.length then ofBytes vch
  else -((ofBytes vch - 256 ^ vch.length / 2 : Nat) : Int)

theorem ofBytes_concat (l : List UInt8) (b : UInt8) :
    ofBytes (l ++ [b]) = ofBytes l + 256 ^ l.length * b.toNat := by
  rw [ofBytes_append, ofBytes_cons, ofBytes_nil, mul_zero, add_zero]

theorem lt_signBit_iff (b : UInt8) : b < 0x80 ↔ b.toNat < 128 := UInt8.lt_iff_toNat_lt

theorem signMagnitude_concat (l : List UInt8) (top : UInt8) : signMagnitude (l ++ [top]) =
      if top.toNat < 128 then ((ofBytes l + 256 ^ l.length * top.toNat : Nat) : Int)
      else -((ofBytes l + 256 ^ l.length * (top.toNat - 128) : Nat) : Int) := by
  have hl := ofBytes_lt l
  have htop := top.toNat_lt
  rw [signMagnitude, ofBytes_concat, List.length_append, List.length_singleton, pow_succ]
  by_cases hsign : top.toNat < 128
  · have hle := Nat.mul_le_mul_left (256 ^ l.length) (Nat.le_of_lt_succ hsign)
    rw [if_pos hsign, if_pos (by omega)]
  · obtain ⟨t, ht⟩ : ∃ t, top.toNat = 128 + t := ⟨top.toNat - 128, by omega⟩
    have hmul := Nat.mul_add (256 ^ l.length) 128 t
    rw [if_neg hsign, ht, Nat.add_sub_cancel_left, hmul, if_neg (by omega)]
    congr 2
    omega

theorem bnSetVch_eq (vch : Valtype) : bnSetVch vch = signMagnitude vch := by
  rcases List.eq_nil_or_concat vch with rfl | ⟨l, top, rfl⟩
  · rfl
  · rw [List.concat_eq_append, signMagnitude_concat, bnSetVch, List.getLast?_concat]
    simp only [lt_signBit_iff]
    split
    · rw [leNat_eq_ofBytes, ofBytes_concat]
    · next hsign =>
      have hle : (0x80 : UInt8) ≤ top := UInt8.le_iff_toNat_le.mpr (Nat.not_lt.mp hsign)
      have hsub : (top - 0x80).toNat = top.toNat - 128 := UInt8.toNat_sub_of_le _ _ hle
      rw [leNat_eq_ofBytes, List.dropLast_concat, ofBytes_concat, hsub]

theorem exists_toBytes_concat {n : Nat} (h : n ≠ 0) :
    ∃ l top, toBytes n = l ++ [top] ∧ top ≠ 0 ∧ n = ofBytes l + 256 ^ l.length * top.toNat := by
  rcases List.eq_nil_or_concat (toBytes n) with hnil | ⟨l, top, hbytes⟩
  · have hvalue := ofBytes_toBytes n
    rw [hnil] at hvalue
    exact absurd hvalue.symm h
  · rw [List.concat_eq_append] at hbytes
    have hne : top ≠ 0 := getLast?_toBytes_ne_zero top (by rw [hbytes, List.getLast?_concat]; rfl)
    exact ⟨l, top, hbytes, hne, by rw [← ofBytes_concat, ← hbytes, ofBytes_toBytes]⟩

def signByte (bn : Int) : UInt8 := if bn < 0 then 0x80 else 0

/-- What `getvch` gives: the bytes with the sign in the highest one, or in a byte of its own. -/
theorem bnGetVch_eq {bn : Int} (h : bn ≠ 0) : ∃ l top, top ≠ 0 ∧ toBytes bn.natAbs = l ++ [top] ∧
      bn.natAbs = ofBytes l + 256 ^ l.length * top.toNat ∧ bnGetVch bn =
        if top.toNat < 128 then l ++ [top + signByte bn] else l ++ [top] ++ [signByte bn] := by
  obtain ⟨l, top, hbytes, hne, hvalue⟩ := exists_toBytes_concat (Int.natAbs_ne_zero.mpr h)
  refine ⟨l, top, hne, hbytes, hvalue, ?_⟩
  rw [bnGetVch, leBytes_eq_toBytes (Nat.le_refl _), hbytes, List.getLast?_concat]
  simp only [lt_signBit_iff, List.dropLast_concat]
  rfl

theorem bnGetVch_zero : bnGetVch 0 = [] := rfl

theorem sign_cases (bn : Int) :
    bn = -(bn.natAbs : Int) ∧ signByte bn = 0x80 ∨ bn = bn.natAbs ∧ signByte bn = 0 := by
  unfold signByte
  split
  · exact .inl ⟨by omega, rfl⟩
  · exact .inr ⟨by omega, rfl⟩

/-- **The bytes of a number have its value.** -/
theorem signMagnitude_bnGetVch (bn : Int) : signMagnitude (bnGetVch bn) = bn := by
  by_cases hzero : bn = 0
  · subst hzero
    rfl
  · obtain ⟨l, top, -, -, hvalue, hvch⟩ := bnGetVch_eq hzero
    rw [hvch]
    split
    · next htop =>
      rw [signMagnitude_concat]
      rcases sign_cases bn with ⟨hbn, hbyte⟩ | ⟨hbn, hbyte⟩
      · have hadd : (top + 0x80).toNat = top.toNat + 128 := by
          rw [UInt8.toNat_add]
          exact Nat.mod_eq_of_lt (Nat.add_lt_add_right htop 128)
        rw [hbyte, hadd, if_neg (by omega), Nat.add_sub_cancel, ← hvalue]
        exact hbn.symm
      · rw [hbyte, UInt8.add_zero, if_pos htop, ← hvalue]
        exact hbn.symm
    · rw [signMagnitude_concat, ofBytes_concat, ← hvalue]
      rcases sign_cases bn with ⟨hbn, hbyte⟩ | ⟨hbn, hbyte⟩
      · rw [hbyte, if_neg (by decide)]
        exact hbn.symm
      · rw [hbyte, if_pos (by decide)]
        exact hbn.symm

/-- **How many bytes a number takes**: with its sign bit. -/
theorem length_bnGetVch_le_iff {bn : Int} {k : Nat} : (bnGetVch bn).length ≤ k ↔ 2 * bn.natAbs < 256 ^ k := by
  by_cases hzero : bn = 0
  · subst hzero
    simp [bnGetVch_zero]
  · obtain ⟨l, top, hne, -, hvalue, hvch⟩ := bnGetVch_eq hzero
    have hl := ofBytes_lt l
    have htop := top.toNat_lt
    have hpos : top.toNat ≠ 0 := fun h => hne (UInt8.toNat_inj.mp h)
    have hlow := Nat.mul_le_mul_left (256 ^ l.length) (Nat.one_le_iff_ne_zero.mpr hpos)
    rw [hvch, hvalue]
    split
    · next hsign =>
      have hhigh := Nat.mul_le_mul_left (256 ^ l.length) (Nat.le_of_lt_succ hsign)
      rw [List.length_append, List.length_singleton]
      constructor
      · intro hk
        have hmono := Nat.pow_le_pow_right (n := 256) (by decide) hk
        rw [pow_succ] at hmono
        omega
      · intro hlt
        by_contra hk
        have hmono := Nat.pow_le_pow_right (n := 256) (by decide) (show k ≤ l.length by omega)
        omega
    · next hsign =>
      have hlow := Nat.mul_le_mul_left (256 ^ l.length) (Nat.not_lt.mp hsign)
      have hhigh := Nat.mul_le_mul_left (256 ^ l.length) (Nat.le_of_lt_succ htop)
      rw [List.length_append, List.length_append, List.length_singleton, List.length_singleton]
      constructor
      · intro hk
        have hmono := Nat.pow_le_pow_right (n := 256) (by decide) hk
        rw [pow_succ, pow_succ] at hmono
        omega
      · intro hlt
        by_contra hk
        have hmono := Nat.pow_le_pow_right (n := 256) (by decide) (show k ≤ l.length + 1 by omega)
        rw [pow_succ] at hmono
        omega

theorem natAbs_signMagnitude_lt {vch : Valtype} (h : vch ≠ []) :
    2 * (signMagnitude vch).natAbs < 256 ^ vch.length := by
  rcases List.eq_nil_or_concat vch with rfl | ⟨l, top, rfl⟩
  · exact absurd rfl h
  · have hl := ofBytes_lt l
    have htop := top.toNat_lt
    rw [List.concat_eq_append, signMagnitude_concat, List.length_append, List.length_singleton, pow_succ]
    split
    · next hsign =>
      have hhigh := Nat.mul_le_mul_left (256 ^ l.length) (Nat.le_of_lt_succ hsign)
      rw [Int.natAbs_natCast]
      omega
    · have hhigh := Nat.mul_le_mul_left (256 ^ l.length) (show top.toNat - 128 ≤ 127 by omega)
      rw [Int.natAbs_neg, Int.natAbs_natCast]
      omega

/-- **`getvch` is minimal**: no other bytes with the value are as short. -/
theorem bnGetVch_minimal {vch : Valtype} {bn : Int} (h : signMagnitude vch = bn) :
    vch = bnGetVch bn ∨ (bnGetVch bn).length < vch.length := by
  subst h
  by_cases hnil : vch = []
  · subst hnil
    exact .inl rfl
  · have hle := length_bnGetVch_le_iff.mpr (natAbs_signMagnitude_lt hnil)
    rcases Nat.lt_or_eq_of_le hle with hlt | hlen
    · exact .inr hlt
    · -- Bytes of one length with one value, which is not zero as the shortest ones are not empty.
      have hsame := signMagnitude_bnGetVch (signMagnitude vch)
      generalize hout : bnGetVch (signMagnitude vch) = out at hlen hsame
      have hne : signMagnitude vch ≠ 0 := by
        intro hzero
        rw [hzero, bnGetVch_zero] at hout
        rw [← hout] at hlen
        exact hnil (List.length_eq_zero_iff.mp hlen.symm)
      left
      refine (ofBytes_inj hlen ?_).symm
      unfold signMagnitude at hsame hne
      rw [hlen] at hsame
      by_cases hpos : 2 * ofBytes vch < 256 ^ vch.length
      · rw [if_pos hpos] at hsame hne
        split at hsame <;> omega
      · rw [if_neg hpos] at hsame hne
        split at hsame <;> omega

/-! ### The MPI format -/

/-- The bytes of a number in the MPI format, the highest first: the highest bit is the sign. -/
def mpiNumber (bn : Int) : List UInt8 :=
  match (toBytes bn.natAbs).reverse with
  | [] => []
  | top :: rest => if top.toNat < 128 then (top + signByte bn) :: rest else signByte bn :: top :: rest

/-- What bytes in the MPI format stand for. -/
def mpiValue : List UInt8 → Int
  | [] => 0
  | top :: rest =>
    let magnitude := ofBytes ((top &&& 0x7f) :: rest).reverse
    if top &&& 0x80 ≠ 0 then -(magnitude : Int) else magnitude

/-- The four bytes of a size. -/
def mpiSize (nSize : Nat) : List UInt8 :=
  [UInt8.ofNat (nSize >>> 24 &&& 0xff), UInt8.ofNat (nSize >>> 16 &&& 0xff),
    UInt8.ofNat (nSize >>> 8 &&& 0xff), UInt8.ofNat (nSize >>> 0 &&& 0xff)]

/-- A `BIGNUM`: the number of its bits is an `int`. -/
def IsBignum (bn : Int) : Prop := bn.natAbs.size < 2 ^ 31

/-- The big numbers of OpenSSL, as far as the code converts them: words, and the MPI format. -/
structure OpenSSL where
  /-- `BN_set_word`. -/
  setWord : UInt64 → Int
  /-- `BN_mpi2bn`. -/
  mpi2bn : List UInt8 → Int
  /-- `BN_bn2mpi`. -/
  bn2mpi : Int → List UInt8
  setWord_eq : ∀ n, setWord n = n.toNat
  mpi2bn_eq : ∀ number, number.length < 2 ^ 31 → mpi2bn (mpiSize number.length ++ number) = mpiValue number
  bn2mpi_eq : ∀ bn, IsBignum bn → bn2mpi bn = mpiSize (mpiNumber bn).length ++ mpiNumber bn

namespace CBigNum

section Conversions

variable (lib : OpenSSL)

/-- What the setters write before the call of `BN_mpi2bn`: no leading zero bytes, and the sign in the highest bit
or in a byte of its own. -/
def mpiLoop (fNegative : Bool) : Bool → List UInt8 → List UInt8
  | _, [] => []
  | true, c :: psrc =>
    if c = 0 then mpiLoop fNegative true psrc
    else if c &&& 0x80 ≠ 0 then
      (if fNegative then 0x80 else 0) :: c :: mpiLoop fNegative false psrc
    else if fNegative then (c ||| 0x80) :: mpiLoop fNegative false psrc
    else c :: mpiLoop fNegative false psrc
  | false, c :: psrc => c :: mpiLoop fNegative false psrc

def topBytes : Nat → UInt64 → List UInt8
  | 0, _ => []
  | i + 1, n => (n >>> 56 &&& 0xff).toUInt8 :: topBytes i (n <<< 8)

/-- The size before the bytes, and `BN_mpi2bn`. -/
def fromMpi (number : List UInt8) : Int := lib.mpi2bn (mpiSize number.length ++ number)

/-- `setint64`: the most negative number is negated after a step towards zero. -/
def setint64 (sn : Int64) : Int :=
  let n : UInt64 := if sn < 0 then (-(sn + 1)).toUInt64 + 1 else sn.toUInt64
  fromMpi lib (mpiLoop (decide (sn < 0)) true (topBytes 8 n))

def setuint64 (n : UInt64) : Int := fromMpi lib (mpiLoop false true (topBytes 8 n))

/-- `setuint256`: the bytes in memory, from the last one on. -/
def setuint256 (n : BitVec 256) : Int :=
  fromMpi lib (mpiLoop false true (Codec.littleEndian 32 n.toNat).reverse)

/-- What `getuint64` and `getuint256` copy into a number of some bytes: without the sign bit, from the last
byte on. -/
def copyMpi (width : Nat) (bn : Int) : Nat :=
  let vch := lib.bn2mpi bn
  if vch.length < 4 then 0
  else
    let vch := if vch.length > 4 then vch.modify 4 (· &&& 0x7f) else vch
    ofBytes ((vch.drop 4).reverse.take width)

def getuint64 (bn : Int) : UInt64 := UInt64.ofNat (copyMpi lib 8 bn)

def getuint256 (bn : Int) : BitVec 256 := BitVec.ofNat 256 (copyMpi lib 32 bn)

def setvch (vch : Valtype) : Int := fromMpi lib vch.reverse

def getvch (bn : Int) : Valtype :=
  let vch := lib.bn2mpi bn
  if vch.length ≤ 4 then [] else (vch.drop 4).reverse

def ofLong (n : Int64) : Int := if n ≥ 0 then lib.setWord n.toUInt64 else setint64 lib n

/-- `CBigNum(unsigned long)`. -/
def ofULong (n : UInt64) : Int := lib.setWord n

end Conversions

/-! ### The format and its bytes -/

theorem toNat_and_low (b : UInt8) : (b &&& 0x7f).toNat = b.toNat % 128 := by
  rw [UInt8.toNat_and]
  exact Nat.and_two_pow_sub_one_eq_mod b.toNat 7

theorem mpiNumber_eq (bn : Int) : mpiNumber bn = (bnGetVch bn).reverse := by
  by_cases hzero : bn = 0
  · subst hzero
    rfl
  · obtain ⟨l, top, -, hbytes, -, hvch⟩ := bnGetVch_eq hzero
    rw [mpiNumber, hbytes, hvch, List.reverse_append]
    simp only [List.reverse_singleton, List.singleton_append]
    split <;> simp

theorem mpiValue_cons (top : UInt8) (rest : List UInt8) : mpiValue (top :: rest) =
      if top.toNat < 128 then ((ofBytes rest.reverse + 256 ^ rest.length * top.toNat : Nat) : Int)
      else -((ofBytes rest.reverse + 256 ^ rest.length * (top.toNat - 128) : Nat) : Int) := by
  have htop := top.toNat_lt
  simp only [mpiValue, List.reverse_cons, ofBytes_concat, List.length_reverse, toNat_and_low,
    and_highBit_ne_zero]
  by_cases hsign : top.toNat < 128
  · rw [if_neg (Nat.not_le.mpr hsign), if_pos hsign, Nat.mod_eq_of_lt hsign]
  · have hmod : top.toNat % 128 = top.toNat - 128 := by omega
    rw [if_pos (Nat.not_lt.mp hsign), if_neg hsign, hmod]

theorem mpiValue_reverse (vch : Valtype) : mpiValue vch.reverse = bnSetVch vch := by
  rw [bnSetVch_eq]
  rcases List.eq_nil_or_concat vch with rfl | ⟨l, top, rfl⟩
  · rfl
  · rw [List.concat_eq_append, signMagnitude_concat, List.reverse_append, List.reverse_singleton,
      List.singleton_append, mpiValue_cons, List.reverse_reverse, List.length_reverse]

theorem mpiValue_mpiNumber (bn : Int) : mpiValue (mpiNumber bn) = bn := by
  rw [mpiNumber_eq, mpiValue_reverse, bnSetVch_eq, signMagnitude_bnGetVch]

theorem length_mpiSize (n : Nat) : (mpiSize n).length = 4 := rfl

/-- A `BIGNUM` is short enough for the format. -/
theorem length_mpiNumber_lt {bn : Int} (h : IsBignum bn) : (mpiNumber bn).length < 2 ^ 31 := by
  have hsize : bn.natAbs < 2 ^ bn.natAbs.size := Nat.lt_size_self _
  have hle : (bnGetVch bn).length ≤ bn.natAbs.size / 8 + 1 := by
    rw [length_bnGetVch_le_iff]
    calc 2 * bn.natAbs < 2 * 2 ^ bn.natAbs.size := by omega
      _ = 2 ^ (bn.natAbs.size + 1) := by rw [pow_succ]; ring
      _ ≤ 2 ^ (8 * (bn.natAbs.size / 8 + 1)) := Nat.pow_le_pow_right (by decide) (by omega)
      _ = 256 ^ (bn.natAbs.size / 8 + 1) := pow_mul 2 8 _
  unfold IsBignum at h
  rw [mpiNumber_eq, List.length_reverse]
  omega

section Laws

variable (lib : OpenSSL)

theorem fromMpi_eq {number : List UInt8} (h : number.length < 2 ^ 31) :
    fromMpi lib number = mpiValue number := lib.mpi2bn_eq number h

theorem setvch_eq {vch : Valtype} (h : vch.length < 2 ^ 31) : setvch lib vch = bnSetVch vch := by
  rw [setvch, fromMpi_eq lib (by rwa [List.length_reverse]), mpiValue_reverse]

theorem getvch_eq {bn : Int} (h : IsBignum bn) : getvch lib bn = bnGetVch bn := by
  have hdrop : ((mpiSize (mpiNumber bn).length ++ mpiNumber bn).drop 4) = mpiNumber bn := rfl
  unfold getvch
  dsimp only
  rw [lib.bn2mpi_eq bn h, hdrop, mpiNumber_eq, List.reverse_reverse]
  split
  · next hlen =>
    rw [List.length_append, length_mpiSize, List.length_reverse] at hlen
    exact (List.length_eq_zero_iff.mp (by omega)).symm
  · rfl

/-- **The sign byte is taken back off**: the magnitude is copied, as far as it fits. -/
theorem copyMpi_eq {bn : Int} (h : IsBignum bn) (width : Nat) :
    copyMpi lib width bn = bn.natAbs % 256 ^ width := by
  have htake : ∀ l : List UInt8, ofBytes (l.take width) = ofBytes l % 256 ^ width := by
    intro l
    rcases Nat.le_total width l.length with hle | hle
    · conv_rhs => rw [← List.take_append_drop width l, ofBytes_append, List.length_take, Nat.min_eq_left hle]
      have hlt := ofBytes_lt (l.take width)
      rw [List.length_take, Nat.min_eq_left hle] at hlt
      rw [Nat.add_mul_mod_self_left, Nat.mod_eq_of_lt hlt]
    · rw [List.take_of_length_le hle, Nat.mod_eq_of_lt]
      exact (ofBytes_lt l).trans_le (Nat.pow_le_pow_right (by decide) hle)
  have hvalue := mpiValue_mpiNumber bn
  unfold copyMpi
  rw [lib.bn2mpi_eq bn h]
  generalize mpiNumber bn = number at hvalue
  simp only
  rw [List.length_append, length_mpiSize, if_neg (by omega)]
  cases number with
  | nil =>
    rw [← hvalue]
    simp [mpiValue, mpiSize]
  | cons top rest =>
    have hmodify : ((mpiSize (top :: rest).length ++ top :: rest).modify 4 (· &&& 0x7f)).drop 4 =
        (top &&& 0x7f) :: rest := rfl
    have hmagnitude : bn.natAbs = ofBytes ((top &&& 0x7f) :: rest).reverse := by
      rw [← hvalue, mpiValue]
      split
      · rw [Int.natAbs_neg, Int.natAbs_natCast]
      · rw [Int.natAbs_natCast]
    rw [if_pos (by rw [List.length_cons]; omega), hmodify, htake, hmagnitude]

/-! ### The setters -/

theorem toInt_emod (x : Int64) : x.toInt % 2 ^ 64 = x.toUInt64.toNat := by
  have hbmod : x.toInt = (x.toUInt64.toNat : Int).bmod (2 ^ 64) := BitVec.toInt_eq_toNat_bmod x.toBitVec
  have hlt := x.toUInt64.toNat_lt
  have hmod := @Int.bmod_emod x.toUInt64.toNat (2 ^ 64)
  rw [hbmod]
  simp only [Nat.cast_pow, Nat.cast_ofNat] at hmod ⊢
  omega

/-- The magnitude that `setint64` takes. -/
theorem toNat_magnitude (sn : Int64) :
    (if sn < 0 then (-(sn + 1)).toUInt64 + 1 else sn.toUInt64).toNat = sn.toInt.natAbs := by
  have hmod := toInt_emod sn
  have hlow := sn.le_toInt
  have hhigh := sn.toInt_lt
  have hneg : sn < 0 ↔ sn.toInt < 0 := Int64.lt_iff_toInt_lt
  split
  · next hsign =>
    have hone : (1 : Int64).toUInt64.toNat = 1 := rfl
    rw [hneg] at hsign
    rw [UInt64.toNat_add, Int64.toUInt64_neg, UInt64.toNat_neg, Int64.toUInt64_add, UInt64.toNat_add, hone]
    simp only [UInt64.size, UInt64.toNat_one]
    omega
  · next hsign =>
    rw [hneg] at hsign
    omega

theorem mpiLoop_false (fNegative : Bool) (psrc : List UInt8) : mpiLoop fNegative false psrc = psrc := by
  induction psrc with
  | nil => rfl
  | cons c psrc ih => rw [mpiLoop, ih]

theorem length_mpiLoop_le (fNegative : Bool) (psrc : List UInt8) :
    (mpiLoop fNegative true psrc).length ≤ psrc.length + 1 := by
  induction psrc with
  | nil => exact Nat.zero_le _
  | cons c psrc ih =>
    simp only [mpiLoop, mpiLoop_false]
    split_ifs <;> simp only [List.length_cons] <;> omega

/-- **What the loops of the setters write** is the number, with its sign. -/
theorem mpiValue_mpiLoop (fNegative : Bool) (psrc : List UInt8) : mpiValue (mpiLoop fNegative true psrc) =
      if fNegative then -(ofBytes psrc.reverse : Int) else ofBytes psrc.reverse := by
  induction psrc with
  | nil => cases fNegative <;> rfl
  | cons c psrc ih =>
    simp only [mpiLoop, mpiLoop_false]
    split
    · next hzero =>
      rw [ih, hzero, List.reverse_cons, ofBytes_concat]
      simp
    · have hvalue := ofBytes_concat psrc.reverse c
      rw [List.length_reverse, ← List.reverse_cons] at hvalue
      split
      · -- The sign is in a byte of its own.
        cases fNegative with
        | false => simp [mpiValue_cons]
        | true => simp [mpiValue_cons]
      · next hsign =>
        have hlow : c.toNat < 128 := by
          rw [and_highBit_ne_zero] at hsign
          omega
        cases fNegative with
        | false =>
          rw [hvalue, if_neg (by decide), mpiValue_cons, if_pos hlow]
          rfl
        | true =>
          have hor : (c ||| 0x80).toNat = 128 + c.toNat := by
            rw [UInt8.toNat_or, Nat.or_comm]
            exact (Nat.two_pow_add_eq_or_of_lt (i := 7) hlow 1).symm
          rw [hvalue, if_pos rfl, mpiValue_cons, hor, if_neg (by omega), Nat.add_sub_cancel_left]
          rfl

theorem topBytes_eq {i : Nat} (hi : i ≤ 8) (n : UInt64) :
    (topBytes i n).length = i ∧ ofBytes (topBytes i n).reverse = n.toNat / 256 ^ (8 - i) := by
  induction i generalizing n with
  | zero =>
    have := n.toNat_lt
    refine ⟨rfl, ?_⟩
    rw [topBytes, List.reverse_nil, ofBytes_nil]
    omega
  | succ i ih =>
    obtain ⟨hlen, hvalue⟩ := ih (by omega) (n <<< 8)
    have hn := n.toNat_lt
    have hbyte : (n >>> 56 &&& 0xff).toUInt8.toNat = n.toNat / 2 ^ 56 := by
      have hand : (n >>> 56 &&& 0xff).toNat = n.toNat / 2 ^ 56 % 256 := by
        rw [UInt64.toNat_and, UInt64.toNat_shiftRight]
        exact (Nat.and_two_pow_sub_one_eq_mod _ 8).trans (by rw [Nat.shiftRight_eq_div_pow]; rfl)
      rw [UInt64.toNat_toUInt8, hand]
      omega
    have hshift : (n <<< 8).toNat = n.toNat % 2 ^ 56 * 256 := by
      rw [UInt64.toNat_shiftLeft]
      simp [Nat.shiftLeft_eq]
      omega
    refine ⟨by rw [topBytes, List.length_cons, hlen], ?_⟩
    rw [topBytes, List.reverse_cons, ofBytes_concat, List.length_reverse, hlen, hvalue, hbyte, hshift]
    -- The quotient of the upper byte is whole, that of the others comes after the shift.
    have hpow : 256 ^ (7 - i) * 256 ^ i = 2 ^ 56 := by
      rw [← pow_add, Nat.sub_add_cancel (by omega)]
      rfl
    have hsucc : 256 ^ (8 - i) = 256 ^ (7 - i) * 256 := by
      rw [← pow_succ]
      congr 1
      omega
    have hpos : 0 < 256 ^ (7 - i) := Nat.pow_pos (by decide)
    rw [show 8 - (i + 1) = 7 - i by omega, hsucc, Nat.mul_div_mul_right _ _ (by decide)]
    conv_rhs => rw [← Nat.mod_add_div n.toNat (2 ^ 56), ← hpow, mul_assoc,
      Nat.add_mul_div_left _ _ hpos, hpow]

theorem setuint64_eq (n : UInt64) : setuint64 lib n = n.toNat := by
  obtain ⟨hlen, hvalue⟩ := topBytes_eq (Nat.le_refl 8) n
  have hle := length_mpiLoop_le false (topBytes 8 n)
  rw [setuint64, fromMpi_eq lib (by omega), mpiValue_mpiLoop, hvalue]
  simp

theorem setuint256_eq (n : BitVec 256) : setuint256 lib n = n.toNat := by
  have hlen := Codec.length_littleEndian 32 n.toNat
  have hle := length_mpiLoop_le false (Codec.littleEndian 32 n.toNat).reverse
  rw [List.length_reverse] at hle
  have hlt : n.toNat < 256 ^ 32 := n.isLt
  rw [setuint256, fromMpi_eq lib (by omega), mpiValue_mpiLoop, List.reverse_reverse, ofBytes_littleEndian,
    Nat.mod_eq_of_lt hlt]
  rfl

/-- **`setint64` sets every number**, the most negative one too. -/
theorem setint64_eq (sn : Int64) : setint64 lib sn = sn.toInt := by
  have hn := toNat_magnitude sn
  unfold setint64
  dsimp only
  generalize (if sn < 0 then (-(sn + 1)).toUInt64 + 1 else sn.toUInt64) = n at hn
  obtain ⟨hlen, hvalue⟩ := topBytes_eq (Nat.le_refl 8) n
  have hle := length_mpiLoop_le (decide (sn < 0)) (topBytes 8 n)
  rw [fromMpi_eq lib (by omega), mpiValue_mpiLoop, hvalue, hn, Nat.sub_self, pow_zero, Nat.div_one]
  have hneg : sn < 0 ↔ sn.toInt < 0 := Int64.lt_iff_toInt_lt
  simp only [decide_eq_true_eq, hneg]
  split <;> omega

theorem ofLong_eq (n : Int64) : ofLong lib n = n.toInt := by
  unfold ofLong
  split
  · next hn =>
    have hmod := toInt_emod n
    have hlow : 0 ≤ n.toInt := Int64.le_iff_toInt_le.mp hn
    have hhigh := n.toInt_lt
    rw [lib.setWord_eq]
    omega
  · exact setint64_eq lib n

theorem isBignum_of_lt {bn : Int} (h : bn.natAbs < 2 ^ 256) : IsBignum bn :=
  (Nat.size_le.mpr h).trans_lt (by decide)

end Laws

end CBigNum

/-! ### Numbers that are pushed -/

namespace CScript

def pushInt64 (lib : OpenSSL) (n : Int64) (script : CScript) : CScript :=
  if n = -1 ∨ (n ≥ 1 ∧ n ≤ 16) then script ++ [UInt8.ofInt (n.toInt + (OP_1 - 1 : Nat))]
  else script ++ pushData (CBigNum.getvch lib (CBigNum.ofLong lib n))

def pushUInt64 (lib : OpenSSL) (n : UInt64) (script : CScript) : CScript :=
  if n ≥ 1 ∧ n ≤ 16 then script ++ [UInt8.ofInt (n.toNat + (OP_1 - 1 : Nat))]
  else script ++ pushData (CBigNum.getvch lib (CBigNum.ofULong lib n))

end CScript

section Push

open CBigNum CScript

variable (lib : OpenSSL) (env : ScriptEnv) (flags : ScriptFlags)

theorem evalScript_small {n : Int} (h : n = -1 ∨ (1 ≤ n ∧ n ≤ 16)) :
    evalScript env flags [UInt8.ofInt (n + (OP_1 - 1 : Nat))] [] = ⟨true, [bnGetVch n], 0⟩ := by
  rcases h with rfl | ⟨hlow, hhigh⟩
  · rfl
  · interval_cases n <;> rfl

theorem evalScript_pushData {vch : Valtype} (h : vch.length ≤ MAX_SCRIPT_ELEMENT_SIZE) :
    evalScript env flags (pushData vch) [] = ⟨true, [vch], 0⟩ := by
  have hpush : pushAll [vch] = pushData vch := List.append_nil _
  rw [← hpush]
  exact evalScript_pushAll (by simpa using h) (by simp)

theorem length_bnGetVch_le {bn : Int} (h : bn.natAbs ≤ 2 ^ 64) :
    (bnGetVch bn).length ≤ MAX_SCRIPT_ELEMENT_SIZE := by
  have hlen : (bnGetVch bn).length ≤ 9 := length_bnGetVch_le_iff.mpr (by omega)
  exact hlen.trans (by decide)

/-- **A number that is pushed** is on the stack when the script has been executed. -/
theorem evalScript_pushInt64 (n : Int64) :
    evalScript env flags (pushInt64 lib n []) [] = ⟨true, [getvch lib (ofLong lib n)], 0⟩ := by
  have hlow := n.le_toInt
  have hhigh := n.toInt_lt
  have hfits : IsBignum n.toInt := isBignum_of_lt (by omega)
  rw [pushInt64, ofLong_eq, getvch_eq lib hfits, List.nil_append, List.nil_append]
  split
  · next hsmall =>
    refine evalScript_small env flags ?_
    rcases hsmall with rfl | ⟨hone, hsixteen⟩
    · exact .inl rfl
    · exact .inr ⟨Int64.le_iff_toInt_le.mp hone, Int64.le_iff_toInt_le.mp hsixteen⟩
  · exact evalScript_pushData env flags (length_bnGetVch_le (by omega))

/-- **`setvch` inverts `getvch`**, for every `BIGNUM`. -/
theorem setvch_getvch {bn : Int} (h : IsBignum bn) : setvch lib (getvch lib bn) = bn := by
  have hlen := length_mpiNumber_lt h
  rw [mpiNumber_eq, List.length_reverse] at hlen
  rw [getvch_eq lib h, setvch_eq lib hlen, bnSetVch_eq, signMagnitude_bnGetVch]

/-- `CastToBigNum` with the conversions of the library. -/
theorem castToBigNum_eq {vch : Valtype} (h : vch.length ≤ nMaxNumSize) (s : Stacks) :
    castToBigNum vch s = .ok (setvch lib (getvch lib (setvch lib vch))) s := by
  have hlt : vch.length < 2 ^ 31 := Nat.lt_of_le_of_lt h (by decide)
  have hfits : IsBignum (bnSetVch vch) := by
    refine isBignum_of_lt ?_
    rw [bnSetVch_eq]
    by_cases hnil : vch = []
    · subst hnil
      decide
    · have hmagnitude := natAbs_signMagnitude_lt hnil
      have hmono : 256 ^ vch.length ≤ 256 ^ 4 := Nat.pow_le_pow_right (by decide) h
      omega
  rw [setvch_eq lib hlt, setvch_getvch lib hfits, castToBigNum, if_neg (Nat.not_lt.mpr h), bnSetVch_eq,
    bnSetVch_eq, signMagnitude_bnGetVch]
  rfl

/-- The shortest bytes of a number, the lowest first, the highest bit its sign. -/
structure IsMinimalVch (bn : Int) (vch : Valtype) : Prop where
  value : signMagnitude vch = bn
  shortest : ∀ other, signMagnitude other = bn → other = vch ∨ vch.length < other.length

/-- **The numbers of scripts**: what a pushed number leaves, and which conversions invert which. -/
structure ScriptNumbers (lib : OpenSSL) : Prop where
  pushed : ∀ (env : ScriptEnv) (flags : ScriptFlags) (n : Int64), ∃ vch,
    evalScript env flags (pushInt64 lib n []) [] = ⟨true, [vch], 0⟩ ∧
      (vch.length ≤ nMaxNumSize → ∀ s, castToBigNum vch s = .ok n.toInt s)
  minimal : ∀ n : Int64, IsMinimalVch n.toInt (getvch lib (ofLong lib n))
  vch : ∀ bn, IsBignum bn → setvch lib (getvch lib bn) = bn
  int64 : ∀ n : Int64, setint64 lib n = n.toInt ∧ (getuint64 lib (setint64 lib n)).toNat = n.toInt.natAbs
  int64_range : ∀ bn : Int, -2 ^ 63 ≤ bn → bn < 2 ^ 63 → setint64 lib (Int64.ofInt bn) = bn
  uint64 : ∀ n, getuint64 lib (setuint64 lib n) = n
  uint64_range : ∀ bn : Int, 0 ≤ bn → bn < 2 ^ 64 → setuint64 lib (getuint64 lib bn) = bn
  uint256 : ∀ n, getuint256 lib (setuint256 lib n) = n
  uint256_range : ∀ bn : Int, 0 ≤ bn → bn < 2 ^ 256 → setuint256 lib (getuint256 lib bn) = bn

theorem toNat_getuint64 {bn : Int} (h : bn.natAbs < 2 ^ 64) : (getuint64 lib bn).toNat = bn.natAbs := by
  rw [getuint64, copyMpi_eq lib (isBignum_of_lt (by omega)), UInt64.toNat_ofNat']
  omega

theorem toNat_getuint256 {bn : Int} (h : bn.natAbs < 2 ^ 256) : (getuint256 lib bn).toNat = bn.natAbs := by
  rw [getuint256, copyMpi_eq lib (isBignum_of_lt h), BitVec.toNat_ofNat]
  omega

theorem isMinimalVch_bnGetVch (bn : Int) : IsMinimalVch bn (bnGetVch bn) :=
  ⟨signMagnitude_bnGetVch bn, fun _ h => bnGetVch_minimal h⟩

theorem scriptNumbers : ScriptNumbers lib where
  pushed env flags n := by
    have hlow := n.le_toInt
    have hhigh := n.toInt_lt
    have hfits : IsBignum n.toInt := isBignum_of_lt (by omega)
    refine ⟨_, evalScript_pushInt64 lib env flags n, fun hlen s => ?_⟩
    rw [castToBigNum_eq lib hlen, ofLong_eq, setvch_getvch lib hfits, setvch_getvch lib hfits]
  minimal n := by
    have hlow := n.le_toInt
    have hhigh := n.toInt_lt
    rw [ofLong_eq, getvch_eq lib (isBignum_of_lt (by omega))]
    exact isMinimalVch_bnGetVch n.toInt
  vch _ h := setvch_getvch lib h
  int64 n := by
    have hlow := n.le_toInt
    have hhigh := n.toInt_lt
    rw [setint64_eq]
    exact ⟨rfl, toNat_getuint64 lib (by omega)⟩
  int64_range bn hlow hhigh := by
    rw [setint64_eq]
    exact Int64.toInt_ofInt_of_le hlow hhigh
  uint64 n := by
    have hlt := n.toNat_lt
    rw [← UInt64.toNat_inj, setuint64_eq, toNat_getuint64 lib (by omega), Int.natAbs_natCast]
  uint64_range bn hlow hhigh := by
    rw [setuint64_eq, toNat_getuint64 lib (by omega)]
    omega
  uint256 n := by
    have hlt := n.isLt
    rw [← BitVec.toNat_inj, setuint256_eq, toNat_getuint256 lib (by omega), Int.natAbs_natCast]
  uint256_range bn hlow hhigh := by
    rw [setuint256_eq, toNat_getuint256 lib (by omega)]
    omega

/-- With the format itself for the library. -/
theorem scriptNumbers_mpi : ScriptNumbers {
    setWord := fun n => n.toNat
    mpi2bn := fun pch => mpiValue (pch.drop 4)
    bn2mpi := fun bn => mpiSize (mpiNumber bn).length ++ mpiNumber bn
    setWord_eq := fun _ => rfl
    mpi2bn_eq := fun _ _ => rfl
    bn2mpi_eq := fun _ _ => rfl } := scriptNumbers _

end Push

end Manna
