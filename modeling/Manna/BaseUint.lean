import Manna.Lib.Limbs

/-!
Numbers of fixed width (`uintBIG.h`: `base_uint`).

* `value`: the number of the limbs, modulo which the operators compute;
* `incrLimbs_spec`, `decrLimbs_spec`, `addLimbs_spec`: the loops that carry;
* `precedes_iff`: the loops that compare.
-/

namespace Manna

/-- `base_uint<BITS>`, of `WIDTH = BITS/32` limbs. -/
structure BaseUint (WIDTH : Nat) where
  pn : List UInt32
  length_pn : pn.length = WIDTH
deriving DecidableEq

namespace BaseUint

/-! ### The loops -/

/-- The loop of `operator++`: `++pn[i]` while it becomes zero and is not the last one. -/
def incrLimbs : List UInt32 → List UInt32
  | [] => []
  | a :: l => if a + 1 = 0 then (a + 1) :: incrLimbs l else (a + 1) :: l

/-- The loop of `operator--`: `--pn[i]` while it becomes `-1` and is not the last one. -/
def decrLimbs : List UInt32 → List UInt32
  | [] => []
  | a :: l => if a - 1 = 0xffffffff then (a - 1) :: decrLimbs l else (a - 1) :: l

/-- The loop of `operator+=`. -/
def addLimbs : UInt64 → List UInt32 → List UInt32 → List UInt32
  | carry, a :: l, b :: m =>
    let n := carry + a.toUInt64 + b.toUInt64
    (n &&& 0xffffffff).toUInt32 :: addLimbs (n >>> 32) l m
  | _, _, _ => []

def orAt (pn : List UInt32) (i : Nat) (x : UInt32) : List UInt32 := pn.modify i (· ||| x)

/-- A round of the loop of `operator<<=`, over the limbs `a` of the copy. -/
def shlRound (a : List UInt32) (k : Nat) (shift : UInt32) (pn : List UInt32) (i : Nat) : List UInt32 :=
  let pn := if i + k + 1 < a.length ∧ shift ≠ 0 then orAt pn (i + k + 1) (a.getD i 0 >>> (32 - shift)) else pn
  if i + k < a.length then orAt pn (i + k) (a.getD i 0 <<< shift) else pn

/-- A round of the loop of `operator>>=`. -/
def shrRound (a : List UInt32) (k : Nat) (shift : UInt32) (pn : List UInt32) (i : Nat) : List UInt32 :=
  let pn := if k + 1 ≤ i ∧ shift ≠ 0 then orAt pn (i - k - 1) (a.getD i 0 <<< (32 - shift)) else pn
  if k ≤ i then orAt pn (i - k) (a.getD i 0 >>> shift) else pn

/-- The loop of `operator<<=`, with `k = shift / 32` and `shift % 32`. -/
def shlLimbs (a : List UInt32) (shift : UInt32) : List UInt32 :=
  (List.range a.length).foldl (shlRound a (shift / 32).toNat (shift % 32)) (List.replicate a.length 0)

/-- The loop of `operator>>=`, with `k = shift / 32` and `shift % 32`. -/
def shrLimbs (a : List UInt32) (shift : UInt32) : List UInt32 :=
  (List.range a.length).foldl (shrRound a (shift / 32).toNat (shift % 32)) (List.replicate a.length 0)

/-- The loops of the comparisons, over the limbs of both operands from the highest one: whether the first
operand precedes the second one, and `atEnd` if they are equal. -/
def precedes (atEnd : Bool) : List (UInt32 × UInt32) → Bool
  | [] => atEnd
  | (a, b) :: rest => if a < b then true else if b < a then false else precedes atEnd rest

/-- The loop of `operator==`. -/
def eqLimbs : List UInt32 → List UInt32 → Bool
  | a :: l, b :: m => if a ≠ b then false else eqLimbs l m
  | _, _ => true

theorem length_incrLimbs (l : List UInt32) : (incrLimbs l).length = l.length := by
  induction l with
  | nil => rfl
  | cons a l ih =>
    rw [incrLimbs]
    split <;> simp [ih]

theorem length_decrLimbs (l : List UInt32) : (decrLimbs l).length = l.length := by
  induction l with
  | nil => rfl
  | cons a l ih =>
    rw [decrLimbs]
    split <;> simp [ih]

theorem length_addLimbs {l m : List UInt32} (h : l.length = m.length) (carry : UInt64) :
    (addLimbs carry l m).length = l.length := by
  induction l generalizing m carry with
  | nil => rfl
  | cons a l ih =>
    cases m with
    | nil => cases h
    | cons b m => rw [addLimbs, List.length_cons, ih (Nat.succ.inj h), List.length_cons]

theorem length_shlRound (a : List UInt32) (k : Nat) (shift : UInt32) (pn : List UInt32) (i : Nat) :
    (shlRound a k shift pn i).length = pn.length := by
  rw [shlRound]
  split <;> split <;> simp [orAt]

theorem length_shrRound (a : List UInt32) (k : Nat) (shift : UInt32) (pn : List UInt32) (i : Nat) :
    (shrRound a k shift pn i).length = pn.length := by
  rw [shrRound]
  split <;> split <;> simp [orAt]

theorem length_foldl {round : List UInt32 → Nat → List UInt32} (h : ∀ pn i, (round pn i).length = pn.length)
    (is : List Nat) (pn : List UInt32) : (is.foldl round pn).length = pn.length := by
  induction is generalizing pn with
  | nil => rfl
  | cons i is ih => rw [List.foldl_cons, ih, h]

theorem length_shlLimbs (a : List UInt32) (shift : UInt32) : (shlLimbs a shift).length = a.length := by
  rw [shlLimbs, length_foldl (length_shlRound a _ _), List.length_replicate]

theorem length_shrLimbs (a : List UInt32) (shift : UInt32) : (shrLimbs a shift).length = a.length := by
  rw [shrLimbs, length_foldl (length_shrRound a _ _), List.length_replicate]

/-! ### The operators -/

variable {WIDTH : Nat}

/-- The number of the limbs. -/
def value (x : BaseUint WIDTH) : Nat := Limbs.value x.pn

/-- `operator~`. -/
def compl (x : BaseUint WIDTH) : BaseUint WIDTH := ⟨x.pn.map (~~~ ·), by rw [List.length_map, x.length_pn]⟩

/-- `operator++()`. -/
def incr (x : BaseUint WIDTH) : BaseUint WIDTH := ⟨incrLimbs x.pn, by rw [length_incrLimbs, x.length_pn]⟩

/-- `operator++(int)`: what it returns and what it leaves. -/
def postIncr (x : BaseUint WIDTH) : BaseUint WIDTH × BaseUint WIDTH := (x, x.incr)

/-- `operator--()`. -/
def decr (x : BaseUint WIDTH) : BaseUint WIDTH := ⟨decrLimbs x.pn, by rw [length_decrLimbs, x.length_pn]⟩

/-- `operator--(int)`: what it returns and what it leaves. -/
def postDecr (x : BaseUint WIDTH) : BaseUint WIDTH × BaseUint WIDTH := (x, x.decr)

/-- `operator-()`: the complement, then `ret++`. -/
def neg (x : BaseUint WIDTH) : BaseUint WIDTH := x.compl.postIncr.2

/-- `operator+=`. -/
def add (x b : BaseUint WIDTH) : BaseUint WIDTH :=
  ⟨addLimbs 0 x.pn b.pn, by rw [length_addLimbs (x.length_pn.trans b.length_pn.symm), x.length_pn]⟩

/-- `operator-=`: `*this += -b`. -/
def sub (x b : BaseUint WIDTH) : BaseUint WIDTH := x.add b.neg

/-- `operator<<=`. -/
def shl (x : BaseUint WIDTH) (shift : UInt32) : BaseUint WIDTH :=
  ⟨shlLimbs x.pn shift, by rw [length_shlLimbs, x.length_pn]⟩

/-- `operator>>=`. -/
def shr (x : BaseUint WIDTH) (shift : UInt32) : BaseUint WIDTH :=
  ⟨shrLimbs x.pn shift, by rw [length_shrLimbs, x.length_pn]⟩

/-- `operator<`. -/
def lt (a b : BaseUint WIDTH) : Bool := precedes false (a.pn.reverse.zip b.pn.reverse)

/-- `operator<=`. -/
def le (a b : BaseUint WIDTH) : Bool := precedes true (a.pn.reverse.zip b.pn.reverse)

/-- `operator>`. -/
def gt (a b : BaseUint WIDTH) : Bool := precedes false (b.pn.reverse.zip a.pn.reverse)

/-- `operator>=`. -/
def ge (a b : BaseUint WIDTH) : Bool := precedes true (b.pn.reverse.zip a.pn.reverse)

/-- `operator==`. -/
def eq (a b : BaseUint WIDTH) : Bool := eqLimbs a.pn b.pn

/-- `operator!=`. -/
def ne (a b : BaseUint WIDTH) : Bool := !a.eq b

/-! ### Operands of 64 bits

All instances have at least the two limbs that these operators name. -/

/-- `operator=(uint64_t)`. -/
def ofUInt64 {n : Nat} (b : UInt64) : BaseUint (n + 2) :=
  ⟨b.toUInt32 :: (b >>> 32).toUInt32 :: List.replicate n 0, by simp⟩

/-- `operator+=(uint64_t)`. -/
def addUInt64 {n : Nat} (x : BaseUint (n + 2)) (b64 : UInt64) : BaseUint (n + 2) := x.add (ofUInt64 b64)

/-- `operator-=(uint64_t)`. -/
def subUInt64 {n : Nat} (x : BaseUint (n + 2)) (b64 : UInt64) : BaseUint (n + 2) := x.add (ofUInt64 b64).neg

def eqUInt64 {n : Nat} (a : BaseUint (n + 2)) (b : UInt64) : Bool :=
  if a.pn.getD 0 0 ≠ b.toUInt32 then false
  else if a.pn.getD 1 0 ≠ (b >>> 32).toUInt32 then false
  else (a.pn.drop 2).all (· = 0)

def neUInt64 {n : Nat} (a : BaseUint (n + 2)) (b : UInt64) : Bool := !a.eqUInt64 b

/-! ### Arithmetic -/

theorem value_lt (x : BaseUint WIDTH) : x.value < 2 ^ (32 * WIDTH) := by
  have limbs := Limbs.value_lt x.pn
  rwa [x.length_pn] at limbs

/-- **The loop of `operator++`.** -/
theorem incrLimbs_spec (l : List UInt32) :
    Limbs.value (incrLimbs l) = (Limbs.value l + 1) % 2 ^ (32 * l.length) := by
  induction l with
  | nil => rfl
  | cons a l ih =>
    have ha := a.toNat_lt
    have sum : (a + 1).toNat = (a.toNat + 1) % 2 ^ 32 := UInt32.toNat_add a 1
    rw [incrLimbs, List.length_cons, Limbs.pow_succ_limb]
    by_cases wraps : a + 1 = 0
    · have full : a.toNat + 1 = 2 ^ 32 := by
        have zero := congrArg UInt32.toNat wraps
        rw [sum, UInt32.toNat_zero] at zero
        omega
      have carried : Limbs.value (a :: l) + 1 = 0 + 2 ^ 32 * (Limbs.value l + 1) := by
        rw [Limbs.value_cons]
        omega
      rw [if_pos wraps, Limbs.value_cons, wraps, ih, carried, Limbs.mod_cons (by decide)]
      rfl
    · have room : a.toNat + 1 < 2 ^ 32 := by
        by_contra hfull
        have full : a.toNat + 1 = 2 ^ 32 := by omega
        exact wraps (UInt32.toNat_inj.mp (by rw [sum, full]; rfl))
      have here : Limbs.value (a :: l) + 1 = a.toNat + 1 + 2 ^ 32 * Limbs.value l := by
        rw [Limbs.value_cons]
        omega
      rw [if_neg wraps, Limbs.value_cons, sum, Nat.mod_eq_of_lt room, here, Limbs.mod_cons room,
        Nat.mod_eq_of_lt (Limbs.value_lt l)]

/-- **The loop of `operator--`.** -/
theorem decrLimbs_spec (l : List UInt32) :
    Limbs.value (decrLimbs l) = (Limbs.value l + (2 ^ (32 * l.length) - 1)) % 2 ^ (32 * l.length) := by
  induction l with
  | nil => rfl
  | cons a l ih =>
    have ha := a.toNat_lt
    have diff : (a - 1).toNat = (2 ^ 32 - 1 + a.toNat) % 2 ^ 32 := UInt32.toNat_sub a 1
    have pos : 0 < 2 ^ (32 * l.length) := Nat.two_pow_pos _
    have below := Limbs.value_lt l
    rw [decrLimbs, List.length_cons, Limbs.pow_succ_limb]
    generalize 2 ^ (32 * l.length) = M at ih pos below ⊢
    by_cases wraps : a - 1 = 0xffffffff
    · have zero : a.toNat = 0 := by
        have all := congrArg UInt32.toNat wraps
        have ones : (0xffffffff : UInt32).toNat = 2 ^ 32 - 1 := rfl
        rw [diff, ones] at all
        omega
      have borrowed : Limbs.value (a :: l) + (2 ^ 32 * M - 1) = 2 ^ 32 - 1 + 2 ^ 32 * (Limbs.value l + (M - 1)) := by
        rw [Limbs.value_cons]
        omega
      rw [if_pos wraps, Limbs.value_cons, wraps, ih, borrowed, Limbs.mod_cons (by decide)]
      rfl
    · have some : 0 < a.toNat := by
        by_contra hzero
        have zero : a.toNat = 0 := by omega
        exact wraps (UInt32.toNat_inj.mp (by rw [diff, zero]; rfl))
      have here : Limbs.value (a :: l) + (2 ^ 32 * M - 1) = a.toNat - 1 + 2 ^ 32 * (Limbs.value l + M) := by
        rw [Limbs.value_cons]
        omega
      have low : (a - 1).toNat = a.toNat - 1 := by omega
      rw [if_neg wraps, Limbs.value_cons, low, here, Limbs.mod_cons (by omega), Nat.add_mod_right,
        Nat.mod_eq_of_lt below]

/-- What a round of `operator+=` computes. -/
theorem carry_spec {carry : UInt64} (hcarry : carry.toNat ≤ 1) (a b : UInt32) :
    let n := carry + a.toUInt64 + b.toUInt64
    (n &&& 0xffffffff).toUInt32.toNat = (carry.toNat + a.toNat + b.toNat) % 2 ^ 32 ∧
      (n >>> 32).toNat = (carry.toNat + a.toNat + b.toNat) / 2 ^ 32 := by
  intro n
  have ha := a.toNat_lt
  have hb := b.toNat_lt
  have sum : n.toNat = carry.toNat + a.toNat + b.toNat := by
    rw [UInt64.toNat_add, UInt64.toNat_add, UInt32.toNat_toUInt64, UInt32.toNat_toUInt64]
    omega
  constructor
  · rw [UInt64.toNat_toUInt32, UInt64.toNat_and, sum]
    have low := Nat.and_two_pow_sub_one_eq_mod (carry.toNat + a.toNat + b.toNat) 32
    rw [show (0xffffffff : UInt64).toNat = 2 ^ 32 - 1 from rfl, low, Nat.mod_mod]
  · rw [UInt64.toNat_shiftRight, sum, Nat.shiftRight_eq_div_pow]
    rfl

/-- **The loop of `operator+=`.** -/
theorem addLimbs_spec {l m : List UInt32} (hlen : l.length = m.length) {carry : UInt64} (hcarry : carry.toNat ≤ 1) :
    Limbs.value (addLimbs carry l m) = (carry.toNat + Limbs.value l + Limbs.value m) % 2 ^ (32 * l.length) := by
  induction l generalizing m carry with
  | nil => rw [addLimbs, Limbs.value_nil, List.length_nil, Nat.mul_zero, Nat.pow_zero, Nat.mod_one]; simp
  | cons a l ih =>
    cases m with
    | nil => cases hlen
    | cons b m =>
      obtain ⟨low, high⟩ := carry_spec hcarry a b
      have ha := a.toNat_lt
      have hb := b.toNat_lt
      have carried : ((carry + a.toUInt64 + b.toUInt64) >>> 32).toNat ≤ 1 := by
        rw [high]
        omega
      have split : carry.toNat + Limbs.value (a :: l) + Limbs.value (b :: m) =
          (carry.toNat + a.toNat + b.toNat) % 2 ^ 32 +
            2 ^ 32 * ((carry.toNat + a.toNat + b.toNat) / 2 ^ 32 + Limbs.value l + Limbs.value m) := by
        rw [Limbs.value_cons, Limbs.value_cons]
        omega
      rw [addLimbs, Limbs.value_cons, low, ih (Nat.succ.inj hlen) carried, high, List.length_cons,
        Limbs.pow_succ_limb, split, Limbs.mod_cons (Nat.mod_lt _ (by decide))]

theorem value_incr (x : BaseUint WIDTH) : x.incr.value = (x.value + 1) % 2 ^ (32 * WIDTH) := by
  have limbs := incrLimbs_spec x.pn
  rwa [x.length_pn] at limbs

theorem value_decr (x : BaseUint WIDTH) :
    x.decr.value = (x.value + (2 ^ (32 * WIDTH) - 1)) % 2 ^ (32 * WIDTH) := by
  have limbs := decrLimbs_spec x.pn
  rwa [x.length_pn] at limbs

theorem value_add (x b : BaseUint WIDTH) : (x.add b).value = (x.value + b.value) % 2 ^ (32 * WIDTH) := by
  have limbs := addLimbs_spec (x.length_pn.trans b.length_pn.symm) (show (0 : UInt64).toNat ≤ 1 by decide)
  rw [x.length_pn, UInt64.toNat_zero, Nat.zero_add] at limbs
  exact limbs

/-- **The complement and one more is the negative.** -/
theorem value_neg (x : BaseUint WIDTH) : x.neg.value = (2 ^ (32 * WIDTH) - x.value) % 2 ^ (32 * WIDTH) := by
  have ones := Limbs.value_map_not x.pn
  rw [x.length_pn] at ones
  have complement : x.compl.value + 1 = 2 ^ (32 * WIDTH) - x.value := by
    change Limbs.value (x.pn.map (~~~ ·)) + 1 = _ - Limbs.value x.pn
    omega
  rw [neg, postIncr, value_incr, complement]

/-! ### Shifts -/

theorem getD_orAt (pn : List UInt32) (i j : Nat) (x : UInt32) (hi : i < pn.length) :
    (orAt pn i x).getD j 0 = if i = j then pn.getD j 0 ||| x else pn.getD j 0 := by
  rw [orAt, List.getD_eq_getElem?_getD, List.getElem?_modify]
  split
  next heq =>
    subst heq
    rw [List.getD_eq_getElem?_getD, List.getElem?_eq_getElem hi]
    rfl
  next => rw [List.getD_eq_getElem?_getD]; simp

def limbBit (l : List UInt32) (j b : Nat) : Bool := (l.getD j 0).toNat.testBit b

theorem limbBit_orAt {pn : List UInt32} {i : Nat} (hi : i < pn.length) (x : UInt32) (j b : Nat) :
    limbBit (orAt pn i x) j b = (limbBit pn j b || (decide (i = j) && x.toNat.testBit b)) := by
  rw [limbBit, getD_orAt pn i j x hi, limbBit]
  by_cases heq : i = j
  · rw [if_pos heq, UInt32.toNat_or, Nat.testBit_or]
    simp [heq]
  · simp [heq]

/-- **What a loop of rounds ors into a bit.** -/
theorem limbBit_foldl {round : List UInt32 → Nat → List UInt32} {ored : Nat → Bool} {W j b : Nat}
    (hlen : ∀ pn i, (round pn i).length = pn.length)
    (hround : ∀ pn i, pn.length = W → i < W → limbBit (round pn i) j b = (limbBit pn j b || ored i))
    {is : List Nat} (his : ∀ i ∈ is, i < W) {pn : List UInt32} (hpn : pn.length = W) :
    limbBit (is.foldl round pn) j b = (limbBit pn j b || is.any ored) := by
  induction is generalizing pn with
  | nil => simp
  | cons i is ih =>
    rw [List.forall_mem_cons] at his
    rw [List.foldl_cons, ih his.2 ((hlen pn i).trans hpn), hround pn i hpn his.1, List.any_cons, Bool.or_assoc]

theorem limbBit_replicate (n j b : Nat) : limbBit (List.replicate n 0) j b = false := by
  have zero : (List.replicate n (0 : UInt32)).getD j 0 = 0 := by
    rw [List.getD_eq_getElem?_getD, List.getElem?_replicate]
    split <;> rfl
  rw [limbBit, zero, UInt32.toNat_zero, Nat.zero_testBit]

theorem limbBit_of_le (l : List UInt32) (j : Nat) {b : Nat} (hb : 32 ≤ b) : limbBit l j b = false :=
  Nat.testBit_lt_two_pow ((UInt32.toNat_lt _).trans_le (Nat.pow_le_pow_right (by decide) hb))

theorem limbBit_of_length_le {l : List UInt32} {j : Nat} (hj : l.length ≤ j) (b : Nat) : limbBit l j b = false := by
  rw [limbBit, List.getD_eq_getElem?_getD, List.getElem?_eq_none hj]
  exact Nat.zero_testBit b

section Limb

variable {s : UInt32} {b : Nat} (x : UInt32)

theorem testBit_shiftLeft (hs : s.toNat < 32) (hb : b < 32) :
    (x <<< s).toNat.testBit b = (decide (s.toNat ≤ b) && x.toNat.testBit (b - s.toNat)) := by
  rw [UInt32.toNat_shiftLeft, Nat.mod_eq_of_lt hs, Nat.testBit_mod_two_pow, Nat.testBit_shiftLeft]
  simp [hb]

theorem testBit_shiftRight (hs : s.toNat < 32) :
    (x >>> s).toNat.testBit b = x.toNat.testBit (s.toNat + b) := by
  rw [UInt32.toNat_shiftRight, Nat.mod_eq_of_lt hs, Nat.testBit_shiftRight]

theorem toNat_rest (hs : s.toNat < 32) (hzero : s ≠ 0) : (32 - s).toNat = 32 - s.toNat := by
  have pos : s.toNat ≠ 0 := fun heq => hzero (UInt32.toNat_inj.mp heq)
  rw [UInt32.toNat_sub_of_le _ _ (UInt32.le_iff_toNat_le.mpr hs.le)]
  rfl

end Limb

section Shift

variable {a pn : List UInt32} {s : UInt32} {k i j b : Nat}

/-- What a round of `operator<<=` ors into the bit `b` of the limb `j`. -/
def shlBit (a : List UInt32) (k s j b i : Nat) : Bool :=
  (decide (i + k + 1 = j ∧ b < s) && limbBit a i (32 - s + b)) || (decide (i + k = j ∧ s ≤ b) && limbBit a i (b - s))

theorem limbBit_ite_orAt {P : Prop} [Decidable P] {n : Nat} {x : UInt32} (bit : Bool)
    (inside : P → n < pn.length) (here : P → n = j → x.toNat.testBit b = bit)
    (nowhere : ¬ P → n = j → bit = false) :
    limbBit (if P then orAt pn n x else pn) j b = (limbBit pn j b || (decide (n = j) && bit)) := by
  by_cases hP : P
  · rw [if_pos hP, limbBit_orAt (inside hP)]
    by_cases hn : n = j
    · rw [here hP hn]
    · simp [hn]
  · rw [if_neg hP]
    by_cases hn : n = j
    · simp [nowhere hP hn]
    · simp [hn]

theorem length_ite_orAt {P : Prop} [Decidable P] (n : Nat) (x : UInt32) :
    (if P then orAt pn n x else pn).length = pn.length := by
  split <;> simp [orAt]

/-- The upper part of a limb that is moved up by `s` bits. -/
theorem testBit_upper (hs : s.toNat < 32) (hzero : s ≠ 0) (a : List UInt32) (i b : Nat) :
    (a.getD i 0 >>> (32 - s)).toNat.testBit b = (decide (b < s.toNat) && limbBit a i (32 - s.toNat + b)) := by
  have rest := toNat_rest hs hzero
  have pos : s.toNat ≠ 0 := fun heq => hzero (UInt32.toNat_inj.mp heq)
  rw [testBit_shiftRight _ (by omega), rest]
  by_cases hb : b < s.toNat
  · simp [hb, limbBit]
  · have above := limbBit_of_le a i (b := 32 - s.toNat + b) (by omega)
    rw [limbBit] at above
    rw [above]
    simp [hb]

theorem limbBit_shlRound (hs : s.toNat < 32) (hj : j < a.length) (hb : b < 32) (hpn : pn.length = a.length) :
    limbBit (shlRound a k s pn i) j b = (limbBit pn j b || shlBit a k s.toNat j b i) := by
  have zero : ¬ s ≠ 0 → s.toNat = 0 := fun h => by rw [not_not.mp h]; rfl
  rw [shlRound, limbBit_ite_orAt (decide (s.toNat ≤ b) && limbBit a i (b - s.toNat)),
    limbBit_ite_orAt (decide (b < s.toNat) && limbBit a i (32 - s.toNat + b)), shlBit]
  · simp only [Bool.decide_and, Bool.or_assoc, Bool.and_assoc]
  · exact fun h => hpn ▸ h.1
  · exact fun h _ => testBit_upper hs h.2 a i b
  · intro h heq
    have none := zero fun hne => h ⟨by omega, hne⟩
    simp [none]
  · exact fun h => by rw [length_ite_orAt, hpn]; exact h
  · exact fun _ _ => testBit_shiftLeft _ hs hb
  · exact fun h heq => absurd (heq ▸ hj) h

/-- **`operator<<=` moves the bits up.** -/
theorem limbBit_shlLimbs (a : List UInt32) (shift : UInt32) {j b : Nat} (hj : j < a.length) (hb : b < 32) :
    limbBit (shlLimbs a shift) j b = (decide (shift.toNat ≤ 32 * j + b) &&
        limbBit a ((32 * j + b - shift.toNat) / 32) ((32 * j + b - shift.toNat) % 32)) := by
  have hk : (shift / 32).toNat = shift.toNat / 32 := UInt32.toNat_div shift 32
  have hs : (shift % 32).toNat = shift.toNat % 32 := UInt32.toNat_mod shift 32
  have small : (shift % 32).toNat < 32 := by omega
  rw [shlLimbs, limbBit_foldl (W := a.length) (length_shlRound a _ _)
      (fun pn i hpn _ => limbBit_shlRound small hj hb hpn) (fun i hi => List.mem_range.mp hi)
      List.length_replicate, limbBit_replicate, Bool.false_or, hk, hs]
  rw [Bool.eq_iff_iff, List.any_eq_true]
  simp only [List.mem_range, shlBit, Bool.or_eq_true, Bool.and_eq_true, decide_eq_true_eq]
  constructor
  · rintro ⟨i, -, ⟨⟨hij, hlow⟩, hbit⟩ | ⟨⟨hij, hlow⟩, hbit⟩⟩
    · have index : (32 * j + b - shift.toNat) / 32 = i := by omega
      have offset : (32 * j + b - shift.toNat) % 32 = 32 - shift.toNat % 32 + b := by omega
      rw [index, offset]
      exact ⟨by omega, hbit⟩
    · have index : (32 * j + b - shift.toNat) / 32 = i := by omega
      have offset : (32 * j + b - shift.toNat) % 32 = b - shift.toNat % 32 := by omega
      rw [index, offset]
      exact ⟨by omega, hbit⟩
  · rintro ⟨hle, hbit⟩
    refine ⟨(32 * j + b - shift.toNat) / 32, by omega, ?_⟩
    by_cases hlow : b < shift.toNat % 32
    · have offset : (32 * j + b - shift.toNat) % 32 = 32 - shift.toNat % 32 + b := by omega
      rw [offset] at hbit
      exact .inl ⟨⟨by omega, hlow⟩, hbit⟩
    · have offset : (32 * j + b - shift.toNat) % 32 = b - shift.toNat % 32 := by omega
      rw [offset] at hbit
      exact .inr ⟨⟨by omega, by omega⟩, hbit⟩

/-- What a round of `operator>>=` ors into the bit `b` of the limb `j`. -/
def shrBit (a : List UInt32) (k s j b i : Nat) : Bool :=
  (decide (i - k - 1 = j) && (decide (k + 1 ≤ i ∧ 32 - s ≤ b) && limbBit a i (b - (32 - s)))) ||
    (decide (i - k = j) && (decide (k ≤ i) && limbBit a i (s + b)))

theorem limbBit_shrRound (hs : s.toNat < 32) (hb : b < 32) (hpn : pn.length = a.length) (hi : i < a.length) :
    limbBit (shrRound a k s pn i) j b = (limbBit pn j b || shrBit a k s.toNat j b i) := by
  have zero : ¬ s ≠ 0 → s.toNat = 0 := fun h => by rw [not_not.mp h]; rfl
  rw [shrRound, limbBit_ite_orAt (decide (k ≤ i) && limbBit a i (s.toNat + b)),
    limbBit_ite_orAt (decide (k + 1 ≤ i ∧ 32 - s.toNat ≤ b) && limbBit a i (b - (32 - s.toNat))), shrBit,
    Bool.or_assoc]
  · exact fun _ => by omega
  · intro h _
    have rest := toNat_rest hs h.2
    have pos : s.toNat ≠ 0 := fun heq => h.2 (UInt32.toNat_inj.mp heq)
    rw [testBit_shiftLeft _ (by omega) hb, rest]
    simp [h.1, limbBit]
  · intro h _
    have above : ¬ (k + 1 ≤ i ∧ 32 - s.toNat ≤ b) := by
      rintro ⟨hki, hrest⟩
      have none := zero fun hne => h ⟨hki, hne⟩
      omega
    rw [decide_eq_false above, Bool.false_and]
  · exact fun _ => by rw [length_ite_orAt]; omega
  · intro h _
    rw [testBit_shiftRight _ hs]
    simp [h, limbBit]
  · intro h _
    simp [h]

/-- **`operator>>=` moves the bits down.** -/
theorem limbBit_shrLimbs (a : List UInt32) (shift : UInt32) (j : Nat) {b : Nat} (hb : b < 32) :
    limbBit (shrLimbs a shift) j b =
      limbBit a ((32 * j + b + shift.toNat) / 32) ((32 * j + b + shift.toNat) % 32) := by
  have hk : (shift / 32).toNat = shift.toNat / 32 := UInt32.toNat_div shift 32
  have hs : (shift % 32).toNat = shift.toNat % 32 := UInt32.toNat_mod shift 32
  have small : (shift % 32).toNat < 32 := by omega
  rw [shrLimbs, limbBit_foldl (W := a.length) (length_shrRound a _ _)
      (fun pn i hpn hi => limbBit_shrRound small hb hpn hi) (fun i hi => List.mem_range.mp hi)
      List.length_replicate, limbBit_replicate, Bool.false_or, hk, hs]
  rw [Bool.eq_iff_iff, List.any_eq_true]
  simp only [List.mem_range, shrBit, Bool.or_eq_true, Bool.and_eq_true, decide_eq_true_eq]
  constructor
  · rintro ⟨i, -, ⟨hij, ⟨hki, hrest⟩, hbit⟩ | ⟨hij, hki, hbit⟩⟩
    · have index : (32 * j + b + shift.toNat) / 32 = i := by omega
      have offset : (32 * j + b + shift.toNat) % 32 = b - (32 - shift.toNat % 32) := by omega
      rw [index, offset]
      exact hbit
    · by_cases hin : shift.toNat % 32 + b < 32
      · have index : (32 * j + b + shift.toNat) / 32 = i := by omega
        have offset : (32 * j + b + shift.toNat) % 32 = shift.toNat % 32 + b := by omega
        rw [index, offset]
        exact hbit
      · rw [limbBit_of_le a i (by omega)] at hbit
        cases hbit
  · intro hbit
    have inside : (32 * j + b + shift.toNat) / 32 < a.length := by
      by_contra hout
      rw [limbBit_of_length_le (by omega)] at hbit
      cases hbit
    refine ⟨(32 * j + b + shift.toNat) / 32, inside, ?_⟩
    by_cases hin : shift.toNat % 32 + b < 32
    · have offset : (32 * j + b + shift.toNat) % 32 = shift.toNat % 32 + b := by omega
      rw [offset] at hbit
      exact .inr ⟨by omega, by omega, hbit⟩
    · have offset : (32 * j + b + shift.toNat) % 32 = b - (32 - shift.toNat % 32) := by omega
      rw [offset] at hbit
      exact .inl ⟨by omega, ⟨by omega, by omega⟩, hbit⟩

end Shift

theorem testBit_value (x : BaseUint WIDTH) (t : Nat) : x.value.testBit t = limbBit x.pn (t / 32) (t % 32) :=
  Limbs.testBit_value x.pn t

theorem value_shl (x : BaseUint WIDTH) (shift : UInt32) :
    (x.shl shift).value = x.value * 2 ^ shift.toNat % 2 ^ (32 * WIDTH) := by
  refine Nat.eq_of_testBit_eq fun t => ?_
  rw [Nat.testBit_mod_two_pow, Nat.mul_comm x.value, Nat.testBit_two_pow_mul, testBit_value, testBit_value]
  have split : 32 * (t / 32) + t % 32 = t := Nat.div_add_mod t 32
  by_cases ht : t < 32 * WIDTH
  · have hj : t / 32 < x.pn.length := by rw [x.length_pn]; omega
    rw [shl, limbBit_shlLimbs x.pn shift hj (Nat.mod_lt _ (by decide)), split]
    simp [ht]
  · rw [limbBit_of_length_le (by rw [(x.shl shift).length_pn]; omega)]
    simp [ht]

theorem value_shr (x : BaseUint WIDTH) (shift : UInt32) : (x.shr shift).value = x.value / 2 ^ shift.toNat := by
  refine Nat.eq_of_testBit_eq fun t => ?_
  rw [Nat.testBit_div_two_pow, testBit_value, testBit_value, shr, limbBit_shrLimbs x.pn shift (t / 32)
    (Nat.mod_lt _ (by decide)), Nat.div_add_mod]

/-! ### Comparisons -/

theorem limb_lt {a b : UInt32} {v w n : Nat} (hv : v < n) (h : a < b) : v + n * a.toNat < w + n * b.toNat := by
  have next : n * (a.toNat + 1) ≤ n * b.toNat := Nat.mul_le_mul_left _ (UInt32.lt_iff_toNat_lt.mp h)
  rw [Nat.mul_add, Nat.mul_one] at next
  omega

/-- **The loops that compare, over limbs from the highest one on.** -/
theorem precedes_iff {l m : List UInt32} (hlen : l.length = m.length) (atEnd : Bool) :
    precedes atEnd (l.zip m) = true ↔ Limbs.value l.reverse < Limbs.value m.reverse ∨
        Limbs.value l.reverse = Limbs.value m.reverse ∧ atEnd = true := by
  induction l generalizing m with
  | nil =>
    obtain rfl : m = [] := List.length_eq_zero_iff.mp hlen.symm
    simp [precedes]
  | cons a l ih =>
    cases m with
    | nil => cases hlen
    | cons b m =>
      have hl := Limbs.value_lt l.reverse
      have hm := Limbs.value_lt m.reverse
      have same : m.reverse.length = l.reverse.length := by
        rw [List.length_reverse, List.length_reverse, Nat.succ.inj hlen]
      rw [List.zip_cons_cons, precedes, List.reverse_cons, List.reverse_cons, Limbs.value_append,
        Limbs.value_append, same]
      rw [same] at hm
      simp only [Limbs.value_cons, Limbs.value_nil, Nat.mul_zero, Nat.add_zero]
      rcases Nat.lt_trichotomy a.toNat b.toNat with hab | hab | hba
      · rw [← UInt32.lt_iff_toNat_lt] at hab
        rw [if_pos hab]
        exact iff_of_true rfl (.inl (limb_lt hl hab))
      · obtain rfl := UInt32.toNat_inj.mp hab
        simp [ih (Nat.succ.inj hlen)]
      · rw [← UInt32.lt_iff_toNat_lt] at hba
        have above := limb_lt (w := Limbs.value l.reverse) hm hba
        have not : ¬ a < b := UInt32.lt_asymm hba
        rw [if_neg not, if_pos hba]
        constructor
        · intro hfalse
          cases hfalse
        · rintro (hlt | ⟨heq, -⟩) <;> omega

theorem precedes_reverse_iff (a b : BaseUint WIDTH) (atEnd : Bool) :
    precedes atEnd (a.pn.reverse.zip b.pn.reverse) = true ↔
      a.value < b.value ∨ a.value = b.value ∧ atEnd = true := by
  have limbs := precedes_iff (l := a.pn.reverse) (m := b.pn.reverse)
    (by rw [List.length_reverse, List.length_reverse, a.length_pn, b.length_pn]) atEnd
  rwa [List.reverse_reverse, List.reverse_reverse] at limbs

theorem lt_iff (a b : BaseUint WIDTH) : a.lt b = true ↔ a.value < b.value := by
  simp [lt, precedes_reverse_iff]

theorem le_iff (a b : BaseUint WIDTH) : a.le b = true ↔ a.value ≤ b.value := by
  simp [le, precedes_reverse_iff, Nat.le_iff_lt_or_eq]

theorem gt_iff (a b : BaseUint WIDTH) : a.gt b = true ↔ b.value < a.value := by
  simp [gt, precedes_reverse_iff]

theorem ge_iff (a b : BaseUint WIDTH) : a.ge b = true ↔ b.value ≤ a.value := by
  simp [ge, precedes_reverse_iff, Nat.le_iff_lt_or_eq]

theorem eqLimbs_iff {l m : List UInt32} (hlen : l.length = m.length) : eqLimbs l m = true ↔ l = m := by
  induction l generalizing m with
  | nil =>
    obtain rfl : m = [] := List.length_eq_zero_iff.mp hlen.symm
    simp [eqLimbs]
  | cons a l ih =>
    cases m with
    | nil => cases hlen
    | cons b m =>
      rw [eqLimbs]
      by_cases hab : a = b
      · simp [hab, ih (Nat.succ.inj hlen)]
      · simp [hab]

theorem eq_iff (a b : BaseUint WIDTH) : a.eq b = true ↔ a.value = b.value := by
  rw [eq, eqLimbs_iff (a.length_pn.trans b.length_pn.symm)]
  exact ⟨congrArg Limbs.value, Limbs.value_inj (a.length_pn.trans b.length_pn.symm)⟩

theorem ne_iff (a b : BaseUint WIDTH) : a.ne b = true ↔ a.value ≠ b.value := by
  rw [ne, Bool.not_eq_true', ← Bool.not_eq_true, eq_iff]

theorem value_ofUInt64 {n : Nat} (b : UInt64) : (ofUInt64 b : BaseUint (n + 2)).value = b.toNat := by
  have hb := b.toNat_lt
  have high : (b >>> 32).toUInt32.toNat = b.toNat / 2 ^ 32 := by
    rw [UInt64.toNat_toUInt32, UInt64.toNat_shiftRight, Nat.shiftRight_eq_div_pow]
    exact Nat.mod_eq_of_lt (by rw [Nat.div_lt_iff_lt_mul (by decide)]; exact hb)
  have low : b.toUInt32.toNat = b.toNat % 2 ^ 32 := UInt64.toNat_toUInt32 b
  rw [value, ofUInt64, Limbs.value_cons, Limbs.value_cons, Limbs.value_replicate_zero, low, high]
  omega

theorem eqLimbs_zeros (l : List UInt32) : eqLimbs l (List.replicate l.length 0) = l.all (· = 0) := by
  induction l with
  | nil => rfl
  | cons a l ih =>
    rw [List.length_cons, List.replicate_succ, eqLimbs, List.all_cons, ih]
    by_cases ha : a = 0 <;> simp [ha]

/-- The comparison with a number of 64 bits is the one with its limbs. -/
theorem eqUInt64_eq {n : Nat} (a : BaseUint (n + 2)) (b : UInt64) : a.eqUInt64 b = a.eq (ofUInt64 b) := by
  obtain ⟨pn, hpn⟩ := a
  match pn, hpn with
  | x :: y :: rest, hpn =>
    obtain rfl : rest.length = n := by simpa using hpn
    simp only [eqUInt64, eq, ofUInt64, eqLimbs, List.getD_cons_zero, List.getD_cons_succ, List.drop_succ_cons,
      List.drop_zero, eqLimbs_zeros]

theorem eqUInt64_iff {n : Nat} (a : BaseUint (n + 2)) (b : UInt64) : a.eqUInt64 b = true ↔ a.value = b.toNat := by
  rw [eqUInt64_eq, eq_iff, value_ofUInt64]

theorem neUInt64_iff {n : Nat} (a : BaseUint (n + 2)) (b : UInt64) : a.neUInt64 b = true ↔ a.value ≠ b.toNat := by
  rw [neUInt64, Bool.not_eq_true', ← Bool.not_eq_true, eqUInt64_iff]

section Residues

theorem cast_add (a b M : Nat) : (((a + b) % M : Nat) : Int) = ((a : Int) + b) % M := by
  rw [Int.natCast_emod, Int.natCast_add]

theorem cast_neg {a M : Nat} (ha : a ≤ M) : (((M - a) % M : Nat) : Int) = (-(a : Int)) % M := by
  rw [Int.natCast_emod, Int.natCast_sub ha, sub_eq_add_neg, Int.add_emod_left]

theorem residue_neg (x : BaseUint WIDTH) : (x.neg.value : Int) = (-(x.value : Int)) % (2 ^ (32 * WIDTH) : Nat) := by
  rw [value_neg, cast_neg x.value_lt.le]

theorem residue_sub (x b : BaseUint WIDTH) :
    ((x.sub b).value : Int) = ((x.value : Int) - b.value) % (2 ^ (32 * WIDTH) : Nat) := by
  rw [sub, value_add, cast_add, residue_neg, Int.add_emod_emod, ← sub_eq_add_neg]

theorem residue_decr (x : BaseUint WIDTH) :
    (x.decr.value : Int) = ((x.value : Int) - 1) % (2 ^ (32 * WIDTH) : Nat) := by
  have pos : 1 ≤ 2 ^ (32 * WIDTH) := Nat.two_pow_pos _
  rw [value_decr, cast_add, Int.natCast_sub pos, ← add_sub_assoc, add_comm, add_sub_assoc, Int.add_emod_left]
  rfl

end Residues

end BaseUint

end Manna
