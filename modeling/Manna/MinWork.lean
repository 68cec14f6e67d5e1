import Manna.Retarget
import Mathlib.Tactic.Linarith

/-!
The least work a block may have (`manna.cpp`: `ComputeMinWork`) and the check of
`ProcessBlock` that uses it.

The compact form drops low bytes (`truncate`), so comparing a target in compact form with a
bound is comparing it with the bound itself. What `ComputeMinWork` allows is then a power of
two times the target it starts from, and what `GetNextTargetRequired` demands grows with
the spacings of the blocks before, by at most their factors.

* `target_le_computeMinWork_iff`: the closed form of `ComputeMinWork`;
* `Accepted.target_le_growth`: along an accepted chain the factors bound the targets;
* `Accepted.checkMinWork_ok`: when they stay below what `ComputeMinWork` allows, which they need
  not (`not_forall_computeMinWork`): the gap before the checkpoint counts for the next block.
-/

namespace Manna

def minWorkLoop (bnResult nTime : Int) : Int :=
  if nTime > 0 ∧ bnResult < bnProofOfWorkLimit then minWorkLoop (bnResult * 2) (nTime - 3 * 60 * 60)
  else bnResult
termination_by nTime.toNat
decreasing_by omega

def computeMinWork (nBase : Nat) (nTime : Int) : Nat :=
  let bnResult := setCompact nBase * 2
  let bnResult := minWorkLoop bnResult nTime
  let bnResult := if bnResult > bnProofOfWorkLimit then bnProofOfWorkLimit else bnResult
  getCompact bnResult

/-- The check of `ProcessBlock` against the last checkpoint, for a block that does not
extend the best chain. -/
def checkMinWork (pcheckpoint : CBlockIndex) (block : CBlockHeader) : Except Halt Unit :=
  let deltaTime := block.getBlockTime - pcheckpoint.getBlockTime
  if deltaTime < 0 then
    .error (.dos 100 "ProcessBlock() : block with timestamp before last checkpoint" false)
  else if setCompact block.nBits > setCompact (computeMinWork pcheckpoint.nBits deltaTime) then
    .error (.dos 100 "ProcessBlock() : block with too little proof-of-work" false)
  else .ok ()

/-! ### What the compact form keeps -/

/-- The low bytes the compact form drops. -/
def droppedBytes (n : Nat) : Nat := (n.size + 8) / 8 - 3

/-- A number without the bytes its compact form drops. -/
def truncate (n : Nat) : Nat := n / 256 ^ droppedBytes n * 256 ^ droppedBytes n

/-- The mantissa reaches into the sign bit when the leading byte does. -/
theorem le_leadingWord_iff {n : Nat} (h : 0 < n) : 2 ^ 23 ≤ leadingWord n ↔ n.size = 8 * numBytes n := by
  have hsize : 0 < n.size := Nat.size_pos.mpr h
  have hbytes : numBytes n = (n.size + 7) / 8 := rfl
  have hbit : 2 ^ (8 * numBytes n - 1) ≤ n ↔ n.size = 8 * numBytes n := by
    rw [← Nat.lt_size]
    omega
  rw [← hbit]
  unfold leadingWord
  split
  · next hfew =>
    rw [Nat.shiftLeft_eq, show 23 = 8 * numBytes n - 1 + 8 * (3 - numBytes n) by omega, pow_add]
    exact Nat.mul_le_mul_right_iff (Nat.pow_pos (by decide))
  · next hmany =>
    rw [Nat.shiftRight_eq_div_pow, Nat.le_div_iff_mul_le (Nat.pow_pos (by decide)), ← pow_add,
      show 23 + 8 * (numBytes n - 3) = 8 * numBytes n - 1 by omega]

/-- **The compact form drops low bytes**, and nothing else. -/
theorem partsValue_eq_truncate (n : Nat) : partsValue (compactParts n) = truncate n := by
  rcases Nat.eq_zero_or_pos n with rfl | hpos
  · decide
  have hsize : 0 < n.size := Nat.size_pos.mpr hpos
  have hbytes : numBytes n = (n.size + 7) / 8 := rfl
  have hsign := le_leadingWord_iff hpos
  have hpow : ∀ k, 256 ^ k = 2 ^ (8 * k) := fun k => by
    rw [show (256 : Nat) = 2 ^ 8 by rfl, ← pow_mul]
  rw [truncate, droppedBytes, hpow]
  unfold compactParts
  split
  · next hbit =>
    rw [and_signBit_ne_zero (leadingWord_lt n), hsign] at hbit
    have hdropped : (n.size + 8) / 8 - 3 = numBytes n + 1 - 3 := by omega
    rw [hdropped, partsValue]
    by_cases hfew : numBytes n ≤ 2
    · have hshift : leadingWord n >>> 8 = n <<< (8 * (2 - numBytes n)) := by
        rw [leadingWord, if_pos (by omega), Nat.shiftLeft_eq, Nat.shiftLeft_eq,
          Nat.shiftRight_eq_div_pow,
          show 8 * (3 - numBytes n) = 8 * (2 - numBytes n) + 8 by omega, pow_add, ← mul_assoc]
        exact Nat.mul_div_cancel _ (by decide)
      rw [if_pos (by omega), hshift, show 3 - (numBytes n + 1) = 2 - numBytes n by omega,
        Nat.shiftLeft_shiftRight, show numBytes n + 1 - 3 = 0 by omega]
      simp
    · have hshift : leadingWord n >>> 8 = n / 2 ^ (8 * (numBytes n + 1 - 3)) := by
        unfold leadingWord
        split
        · next hthree =>
          have : numBytes n = 3 := by omega
          simp [this, Nat.shiftRight_eq_div_pow]
        · rw [Nat.shiftRight_eq_div_pow, Nat.shiftRight_eq_div_pow, Nat.div_div_eq_div_mul,
            ← pow_add]
          congr 2
          omega
      rw [if_neg (by omega), hshift, Nat.shiftLeft_eq]
  · next hbit =>
    rw [and_signBit_ne_zero (leadingWord_lt n), hsign] at hbit
    have hdropped : (n.size + 8) / 8 - 3 = numBytes n - 3 := by omega
    rw [hdropped, partsValue]
    by_cases hfew : numBytes n ≤ 3
    · rw [if_pos hfew, leadingWord, if_pos hfew, Nat.shiftLeft_shiftRight,
        show numBytes n - 3 = 0 by omega]
      simp
    · rw [if_neg hfew, leadingWord, if_neg hfew, Nat.shiftRight_eq_div_pow, Nat.shiftLeft_eq]

theorem truncate_le (n : Nat) : truncate n ≤ n := Nat.div_mul_le_self _ _

theorem le_truncate {n k : Nat} (hsize : k + 1 = n.size) (j : Nat) (hj : j ≤ k)
    (hdropped : 8 * droppedBytes n ≤ j) : 2 ^ j ≤ truncate n := by
  have hle : 2 ^ j ≤ n := by
    rw [← Nat.lt_size]
    omega
  have hmul : 2 ^ j = 2 ^ (j - 8 * droppedBytes n) * 256 ^ droppedBytes n := by
    rw [show (256 : Nat) = 2 ^ 8 by rfl, ← pow_mul, ← pow_add, Nat.sub_add_cancel hdropped]
  rw [truncate, hmul]
  apply Nat.mul_le_mul_right
  rw [Nat.le_div_iff_mul_le (Nat.pow_pos (by decide)), ← hmul]
  exact hle

/-- **Truncation keeps the order.** -/
theorem truncate_mono {a b : Nat} (h : a ≤ b) : truncate a ≤ truncate b := by
  have hsize : a.size ≤ b.size := Nat.size_le_size h
  have hdropped : droppedBytes a ≤ droppedBytes b := by
    unfold droppedBytes
    omega
  rcases Nat.eq_or_lt_of_le hdropped with heq | hlt
  · rw [truncate, truncate, heq]
    exact Nat.mul_le_mul_right _ (Nat.div_le_div_right h)
  · -- the shorter number stays below the leading bit of the longer one
    have ha : a < 2 ^ (8 * (droppedBytes b + 2) - 1) := by
      rw [← Nat.size_le]
      unfold droppedBytes at hlt ⊢
      omega
    have hb : 2 ^ (8 * (droppedBytes b + 2) - 1) ≤ truncate b := by
      have hpos : 0 < droppedBytes b := by omega
      apply le_truncate (k := b.size - 1)
      · unfold droppedBytes at hpos
        omega
      · unfold droppedBytes at hpos ⊢
        omega
      · omega
    exact (truncate_le a).trans (ha.le.trans hb)

theorem truncate_truncate (n : Nat) : truncate (truncate n) = truncate n := by
  rcases Nat.eq_zero_or_pos n with rfl | hpos
  · decide
  have hsize : 0 < n.size := Nat.size_pos.mpr hpos
  have hlead : 2 ^ (n.size - 1) ≤ truncate n := by
    apply le_truncate (k := n.size - 1)
    · omega
    · exact le_refl _
    · unfold droppedBytes
      omega
  have hsame : (truncate n).size = n.size := by
    have hle : (truncate n).size ≤ n.size := Nat.size_le_size (truncate_le n)
    have hlt := Nat.lt_size.mpr hlead
    omega
  have hdropped : droppedBytes (truncate n) = droppedBytes n := by
    rw [droppedBytes, hsame]
    rfl
  rw [truncate, hdropped, truncate, Nat.mul_div_cancel _ (Nat.pow_pos (by decide))]

/-- A truncated number respects a bound exactly when it respects the truncated bound. -/
theorem truncate_le_truncate_iff (a b : Nat) : truncate a ≤ truncate b ↔ truncate a ≤ b := by
  constructor
  · exact fun h => h.trans (truncate_le b)
  · intro h
    have hmono := truncate_mono h
    rwa [truncate_truncate] at hmono

/-! ### The closed form -/

def periods (nTime : Int) : Nat := ((nTime + 10799) / 10800).toNat

theorem min_minWorkLoop {bnResult : Int} (nTime : Int) (hpos : 0 < bnResult) :
    min (minWorkLoop bnResult nTime) bnProofOfWorkLimit =
      min (bnResult * 2 ^ periods nTime) bnProofOfWorkLimit := by
  induction bnResult, nTime using minWorkLoop.induct with
  | case1 bnResult nTime hgo ih =>
    have hperiods : periods nTime = periods (nTime - 3 * 60 * 60) + 1 := by
      unfold periods
      omega
    rw [minWorkLoop, if_pos hgo, ih (by omega), hperiods, pow_succ]
    congr 1
    ring
  | case2 bnResult nTime hstop =>
    rw [minWorkLoop, if_neg hstop]
    by_cases htime : nTime > 0
    · have hlimit : bnProofOfWorkLimit ≤ bnResult := by
        by_contra hlt
        exact hstop ⟨htime, by omega⟩
      have hgrow : bnResult ≤ bnResult * 2 ^ periods nTime :=
        le_mul_of_one_le_right hpos.le (one_le_pow₀ (by decide))
      rw [min_eq_right hlimit, min_eq_right (hlimit.trans hgrow)]
    · have hzero : periods nTime = 0 := by
        unfold periods
        omega
      rw [hzero, pow_zero, mul_one]

theorem bnProofOfWorkLimit_lt : bnProofOfWorkLimit < 256 ^ 254 := by decide

theorem setCompact_getCompact_eq_truncate {n : Int} (hpos : 0 ≤ n) (hle : n ≤ bnProofOfWorkLimit) :
    setCompact (getCompact n) = truncate n.toNat := by
  have hlimit := bnProofOfWorkLimit_lt
  rw [setCompact_getCompact (by omega), if_neg (by omega), partsValue_eq_truncate]
  congr 2
  omega

/-- The target `ComputeMinWork` gives. -/
theorem setCompact_computeMinWork {nBase : Nat} (nTime : Int) (hbase : 0 < setCompact nBase) :
    setCompact (computeMinWork nBase nTime) =
      truncate (min (2 ^ (1 + periods nTime) * setCompact nBase) bnProofOfWorkLimit).toNat := by
  have hdouble : 0 < setCompact nBase * 2 := by omega
  have hloop := min_minWorkLoop nTime hdouble
  have hclamp : (if minWorkLoop (setCompact nBase * 2) nTime > bnProofOfWorkLimit then
      bnProofOfWorkLimit else minWorkLoop (setCompact nBase * 2) nTime) =
        min (2 ^ (1 + periods nTime) * setCompact nBase) bnProofOfWorkLimit := by
    have hmul : 2 ^ (1 + periods nTime) * setCompact nBase =
        setCompact nBase * 2 * 2 ^ periods nTime := by
      rw [pow_add, pow_one]
      ring
    rw [hmul, ← hloop]
    split
    · exact (min_eq_right (by omega)).symm
    · exact (min_eq_left (by omega)).symm
  have hnonneg : 0 ≤ min (2 ^ (1 + periods nTime) * setCompact nBase) bnProofOfWorkLimit :=
    le_min (mul_nonneg (pow_nonneg (by decide) _) hbase.le) (by decide)
  simp only [computeMinWork, hclamp]
  exact setCompact_getCompact_eq_truncate hnonneg (min_le_right _ _)

/-- **A target respects the bound exactly when it is not above the target it starts from,
doubled once and once more for every three hours begun.** -/
theorem target_le_computeMinWork_iff {nBase : Nat} {nTime n : Int} (hbase : 0 < setCompact nBase)
    (hle : n ≤ bnProofOfWorkLimit) : setCompact (getCompact n) ≤ setCompact (computeMinWork nBase nTime) ↔
      setCompact (getCompact n) ≤ 2 ^ (1 + periods nTime) * setCompact nBase := by
  have hbound : 0 < 2 ^ (1 + periods nTime) * setCompact nBase := mul_pos (pow_pos (by decide) _) hbase
  rw [setCompact_computeMinWork nTime hbase]
  have hlimit := bnProofOfWorkLimit_lt
  rcases lt_or_ge 0 n with hpos | hnonpos
  · rw [setCompact_getCompact_eq_truncate hpos.le hle, Int.ofNat_le, truncate_le_truncate_iff]
    have hself := truncate_le n.toNat
    generalize 2 ^ (1 + periods nTime) * setCompact nBase = bound at hbound ⊢
    have hlimitpos : 0 < bnProofOfWorkLimit := by decide
    omega
  · have htarget := (setCompact_getCompact_pos_iff (n := n) (by omega)).not.mpr (by omega)
    apply iff_of_true <;> omega

/-! ### The targets along a chain -/

/-- What the spacing of two blocks multiplies the target by. -/
def spacingFactor (pindexPrev pindexPrevPrev : CBlockIndex) : Rat :=
  (86310 + 2 * (pindexPrev.getBlockTime - pindexPrevPrev.getBlockTime)) / 86490

/-- The product of the factors along a chain, newest block first. -/
def growth : List CBlockIndex → Rat
  | pindexPrev :: pindexPrevPrev :: rest =>
    spacingFactor pindexPrev pindexPrevPrev * growth (pindexPrevPrev :: rest)
  | _ => 1

theorem Accepted.nBits_eq {pindex pindexPrev : CBlockIndex} {ancestors : List CBlockIndex}
    (h : Accepted (pindex :: pindexPrev :: ancestors)) : Accepted (pindexPrev :: ancestors) ∧
      pindex.nBits = getNextTrustRequired (pindexPrev :: ancestors) := by
  cases h with
  | extend block _ hprev hchecks hbits htime hheight =>
    exact ⟨hprev, hbits.trans (acceptBlockHeader_eq_ok.mp hchecks).1⟩

theorem getNextTrustRequired_eq_getCompact (chain : List CBlockIndex) :
    ∃ n, n ≤ bnProofOfWorkLimit ∧ getNextTrustRequired chain = getCompact n := by
  match chain with
  | [] => exact ⟨_, le_refl _, rfl⟩
  | [_] => exact ⟨_, le_refl _, rfl⟩
  | [_, _] => exact ⟨_, le_refl _, rfl⟩
  | pindexPrev :: pindexPrevPrev :: third :: rest =>
    exact ⟨_, min_le_left _ _, getNextTargetRequired_retarget pindexPrev pindexPrevPrev third rest⟩

theorem TargetInRange.bounds {bnTarget : Int} (h : TargetInRange bnTarget) :
    0 < bnTarget ∧ bnTarget ≤ bnProofOfWorkLimit := by
  unfold TargetInRange at h
  omega

/-- A block's target is at most that of its parent by the factor of the spacing before. -/
theorem Accepted.target_le_factor {pindex pindexPrev pindexPrevPrev third : CBlockIndex}
    {rest : List CBlockIndex}
    (h : Accepted (pindex :: pindexPrev :: pindexPrevPrev :: third :: rest))
    (hpos : 0 < setCompact pindex.nBits) :
    (setCompact pindex.nBits : Rat) ≤ setCompact pindexPrev.nBits * spacingFactor pindexPrev pindexPrevPrev := by
  have hbits := h.nBits_eq.2
  rw [getNextTrustRequired, getNextTargetRequired_retarget] at hbits
  rw [hbits] at hpos ⊢
  set product := setCompact pindexPrev.nBits *
    (86310 + 2 * (pindexPrev.getBlockTime - pindexPrevPrev.getBlockTime)) with hproduct
  have hlimit := bnProofOfWorkLimit_lt
  have hle : min bnProofOfWorkLimit (product.tdiv 86490) ≤ bnProofOfWorkLimit := min_le_left _ _
  have hquotient := (setCompact_getCompact_pos_iff (by omega)).mp hpos
  rw [setCompact_getCompact_eq_truncate hquotient.le hle]
  have htruncate := truncate_le (min bnProofOfWorkLimit (product.tdiv 86490)).toNat
  have hnonneg : 0 ≤ product := by
    by_contra hneg
    have hopposite := Int.tdiv_nonneg (a := -product) (b := 86490) (by omega) (by decide)
    rw [Int.neg_tdiv] at hopposite
    omega
  rw [Int.tdiv_eq_ediv_of_nonneg hnonneg] at htruncate hquotient ⊢
  -- Truncating, clamping and dividing round down.
  have hdown : (truncate (min bnProofOfWorkLimit (product / 86490)).toNat : Int) * 86490 ≤ product := by
    omega
  have hcast : ((truncate (min bnProofOfWorkLimit (product / 86490)).toNat : Int) : Rat) * 86490 ≤
      product := by exact_mod_cast hdown
  rw [spacingFactor, ← mul_div_assoc, le_div_iff₀ (by norm_num)]
  rw [hproduct] at hcast
  push_cast at hcast ⊢
  exact hcast

theorem growth_take_succ (pindexPrev pindexPrevPrev : CBlockIndex) (rest : List CBlockIndex) (m : Nat) :
    growth ((pindexPrev :: pindexPrevPrev :: rest).take (m + 2)) =
      spacingFactor pindexPrev pindexPrevPrev * growth ((pindexPrevPrev :: rest).take (m + 1)) := rfl

/-- **The factors bound the targets**: from the `m`-th block before the tip on, where the blocks
between are above the second one. -/
theorem Accepted.target_le_growth {tip start : CBlockIndex} {chain : List CBlockIndex}
    (h : Accepted (tip :: chain)) (m : Nat) (hstart : (tip :: chain)[m]? = some start)
    (hlong : m = 0 ∨ m + 1 < chain.length)
    (hpos : ∀ pindex ∈ (tip :: chain).take (m + 1), 0 < setCompact pindex.nBits) :
    (setCompact tip.nBits : Rat) ≤ setCompact start.nBits * growth (chain.take (m + 1)) := by
  induction m generalizing tip chain with
  | zero =>
    rw [List.getElem?_cons_zero, Option.some.injEq] at hstart
    have hone : growth (chain.take 1) = 1 := by
      cases chain with
      | nil => rfl
      | cons pindex chain => rfl
    rw [hstart, Nat.zero_add, hone, mul_one]
  | succ m ih =>
    have hlen : m + 2 < chain.length := by omega
    obtain ⟨pindexPrev, pindexPrevPrev, third, rest, rfl⟩ : ∃ p q r rest, chain = p :: q :: r :: rest := by
      match chain, hlen with
      | [], hlen => exact absurd hlen (by simp)
      | [_], hlen => exact absurd hlen (by simp)
      | [_, _], hlen => exact absurd hlen (by simp)
      | p :: q :: r :: rest, _ => exact ⟨p, q, r, rest, rfl⟩
    rw [List.take_succ_cons, List.forall_mem_cons] at hpos
    have hprev := ih h.nBits_eq.1 (by rwa [List.getElem?_cons_succ] at hstart)
      (.inr (by simpa using hlen)) hpos.2
    have hstep := h.target_le_factor hpos.1
    have htip : (0 : Rat) < setCompact tip.nBits := by exact_mod_cast hpos.1
    have hparent : (0 : Rat) < setCompact pindexPrev.nBits := by
      exact_mod_cast hpos.2 pindexPrev (by rw [List.take_succ_cons]; exact List.mem_cons_self)
    have hfactor : 0 ≤ spacingFactor pindexPrev pindexPrevPrev :=
      (pos_of_mul_pos_right (htip.trans_le hstep) hparent.le).le
    rw [growth_take_succ]
    calc (setCompact tip.nBits : Rat)
        ≤ setCompact pindexPrev.nBits * spacingFactor pindexPrev pindexPrevPrev := hstep
      _ ≤ setCompact start.nBits * growth ((pindexPrevPrev :: third :: rest).take (m + 1)) *
            spacingFactor pindexPrev pindexPrevPrev := mul_le_mul_of_nonneg_right hprev hfactor
      _ = _ := by ring

/-- Along the chain from `c` to the parent of a block the factors stay below `2 ^ (1 + k)`: from
`c` with its target on, or from a later block on with the limit, which no target is above. -/
def GrowthCovered (c : CBlockIndex) (newer older : List CBlockIndex) (k : Nat) : Prop :=
  ∃ m ≤ newer.length + 1, (m = 0 ∨ m + 1 < (newer ++ c :: older).length) ∧
    (if m = newer.length + 1 then (setCompact c.nBits : Rat) else bnProofOfWorkLimit) *
      growth ((newer ++ c :: older).take (m + 1)) ≤ 2 ^ (1 + k) * setCompact c.nBits

theorem Accepted.target_le_of_covered {b c : CBlockIndex} {newer older : List CBlockIndex} {k : Nat}
    (h : Accepted (b :: (newer ++ c :: older)))
    (hrange : ∀ pindex ∈ b :: (newer ++ [c]), TargetInRange (setCompact pindex.nBits))
    (hcovered : GrowthCovered c newer older k) :
    setCompact b.nBits ≤ 2 ^ (1 + k) * setCompact c.nBits := by
  obtain ⟨m, hm, hlong, hbound⟩ := hcovered
  have hpath : b :: (newer ++ c :: older) = (b :: (newer ++ [c])) ++ older := by simp
  obtain ⟨start, hstart⟩ : ∃ start, (b :: (newer ++ [c]))[m]? = some start :=
    ⟨_, List.getElem?_eq_getElem (by simp; omega)⟩
  have hfull : (b :: (newer ++ c :: older))[m]? = some start := by
    rw [hpath, List.getElem?_append_left (by simp; omega), hstart]
  have htake : (b :: (newer ++ c :: older)).take (m + 1) = (b :: (newer ++ [c])).take (m + 1) := by
    rw [hpath, List.take_append_of_le_length (by simp; omega)]
  have hpos : ∀ pindex ∈ (b :: (newer ++ c :: older)).take (m + 1), 0 < setCompact pindex.nBits := by
    intro pindex hmem
    rw [htake] at hmem
    exact (hrange pindex (List.mem_of_mem_take hmem)).bounds.1
  have hgrowth := h.target_le_growth m hfull hlong hpos
  have hb : (0 : Rat) < setCompact b.nBits := by exact_mod_cast (hrange b List.mem_cons_self).bounds.1
  have hstartpos : (0 : Rat) < setCompact start.nBits := by
    exact_mod_cast (hrange start (List.mem_of_getElem? hstart)).bounds.1
  have hfactors : 0 ≤ growth ((newer ++ c :: older).take (m + 1)) :=
    (pos_of_mul_pos_right (hb.trans_le hgrowth) hstartpos.le).le
  have hvalue : (setCompact start.nBits : Rat) ≤
      if m = newer.length + 1 then (setCompact c.nBits : Rat) else bnProofOfWorkLimit := by
    split
    · next hc =>
      rw [hc, List.getElem?_cons_succ, List.getElem?_append_right (le_refl _), Nat.sub_self,
        List.getElem?_cons_zero, Option.some.injEq] at hstart
      rw [hstart]
    · exact_mod_cast (hrange start (List.mem_of_getElem? hstart)).bounds.2
  have hrat := (hgrowth.trans (mul_le_mul_of_nonneg_right hvalue hfactors)).trans hbound
  exact_mod_cast hrat

/-- **When the bound holds.** For a block and a descendant of it that is not earlier, in an
accepted chain, where the spacings from the one before the block on raise the target by at most a
factor of two and of two more for every three hours begun between them: the target of the
descendant respects `ComputeMinWork`, and `ProcessBlock` lets the descendant pass. -/
theorem Accepted.checkMinWork_ok {b c : CBlockIndex} {newer older : List CBlockIndex}
    (h : Accepted (b :: (newer ++ c :: older)))
    (hrange : ∀ pindex ∈ b :: (newer ++ [c]), TargetInRange (setCompact pindex.nBits))
    (htime : c.getBlockTime ≤ b.getBlockTime)
    (hcovered : GrowthCovered c newer older (periods (b.getBlockTime - c.getBlockTime)))
    (block : CBlockHeader) (hblock : block.nBits = b.nBits ∧ block.nTime = b.nTime) :
    setCompact b.nBits ≤ setCompact (computeMinWork c.nBits (b.getBlockTime - c.getBlockTime)) ∧
      checkMinWork c block = .ok () := by
  have hpos : 0 < setCompact c.nBits := (hrange c (by simp)).bounds.1
  have hle := h.target_le_of_covered hrange hcovered
  obtain ⟨pindexPrev, ancestors, hprev⟩ : ∃ pindexPrev ancestors,
      newer ++ c :: older = pindexPrev :: ancestors := List.exists_cons_of_ne_nil (by simp)
  rw [hprev] at h
  obtain ⟨n, hlimit, hn⟩ := getNextTrustRequired_eq_getCompact (pindexPrev :: ancestors)
  have hbits : b.nBits = getCompact n := h.nBits_eq.2.trans hn
  have hwork : setCompact b.nBits ≤
      setCompact (computeMinWork c.nBits (b.getBlockTime - c.getBlockTime)) := by
    rw [hbits] at hle ⊢
    exact (target_le_computeMinWork_iff hpos hlimit).mpr hle
  have hsame : block.getBlockTime = b.getBlockTime := by
    simp only [CBlockHeader.getBlockTime, CBlockIndex.getBlockTime, hblock.2]
  refine ⟨hwork, ?_⟩
  simp only [checkMinWork, hsame, hblock.1]
  rw [if_neg (by omega), if_neg (by omega)]

/-! ### A gap before the checkpoint -/

/-- Three blocks on a genesis block, the last one back after a jump ahead: the next target is
a fourteenth of the limit. -/
def lowTargetChain : List CBlockIndex :=
  [sampleIndex 3 1400000003 0x1d0fffff, sampleIndex 2 1400040001 0x1d0fffff,
    sampleIndex 1 1400000001 0x1d0fffff, sampleIndex 0 1400000000 0x1d0fffff]

/-- A block ten days later. -/
def sampleCheckpoint : CBlockIndex := sampleIndex 4 1400864003 0x1d012b04

/-- Its successor, a second later. -/
def sampleSuccessor : CBlockIndex := sampleIndex 5 1400864004 0x1d0fffff

theorem required_limit : 0x1d0fffff = getNextTrustRequired lowTargetChain.tail := by
  rw [getNextTrustRequired, lowTargetChain, List.tail_cons, getNextTargetRequired_retarget]
  exact getCompact_bnInitialHashTarget.symm

theorem required_checkpoint : 0x1d012b04 = getNextTrustRequired lowTargetChain := by
  rw [getNextTrustRequired, lowTargetChain, getNextTargetRequired_retarget]
  have hbytes : numBytes (min bnProofOfWorkLimit ((setCompact 0x1d0fffff *
      (86310 + 2 * (1400000003 - 1400040001))).tdiv 86490)).natAbs = 29 :=
    numBytes_eq (by decide) (by decide)
  have hcompact : getCompact (min bnProofOfWorkLimit ((setCompact 0x1d0fffff *
      (86310 + 2 * (1400000003 - 1400040001))).tdiv 86490)) = 0x1d012b04 := by
    simp only [getCompact, compactParts, leadingWord, hbytes]
    decide
  exact hcompact.symm

theorem required_successor : 0x1d0fffff = getNextTrustRequired (sampleCheckpoint :: lowTargetChain) := by
  rw [getNextTrustRequired, lowTargetChain, getNextTargetRequired_retarget]
  exact getCompact_bnInitialHashTarget.symm

theorem accepted_lowTargetChain : Accepted lowTargetChain :=
  .extend (sampleHeader 1400000003 0x1d0fffff) _
    (.extend (sampleHeader 1400040001 0x1d0fffff) _
      (.extend (sampleHeader 1400000001 0x1d0fffff) _ (.genesis _)
        (acceptBlockHeader_eq_ok.mpr ⟨getCompact_bnInitialHashTarget.symm, by decide, by decide⟩)
        rfl rfl rfl)
      (acceptBlockHeader_eq_ok.mpr ⟨getCompact_bnInitialHashTarget.symm, by decide, by decide⟩)
      rfl rfl rfl)
    (acceptBlockHeader_eq_ok.mpr ⟨required_limit, by decide, by decide⟩) rfl rfl rfl

theorem accepted_sampleCheckpoint : Accepted (sampleCheckpoint :: lowTargetChain) :=
  .extend (sampleHeader 1400864003 0x1d012b04) _ accepted_lowTargetChain
    (acceptBlockHeader_eq_ok.mpr ⟨required_checkpoint, by decide, by decide⟩) rfl rfl rfl

theorem accepted_sampleSuccessor : Accepted (sampleSuccessor :: ([] ++ sampleCheckpoint :: lowTargetChain)) :=
  .extend (sampleHeader 1400864004 0x1d0fffff) _ accepted_sampleCheckpoint
    (acceptBlockHeader_eq_ok.mpr ⟨required_successor, by decide, by decide⟩) rfl rfl rfl

/-- The checkpoint two blocks after the jump ahead: the spacings between lower the target. -/
theorem Accepted.checkMinWork_ok_sample :
    setCompact sampleCheckpoint.nBits ≤ setCompact (computeMinWork 0x1d0fffff
        (sampleCheckpoint.getBlockTime - 1400040001)) ∧
      checkMinWork (sampleIndex 2 1400040001 0x1d0fffff) (sampleHeader 1400864003 0x1d012b04) = .ok () :=
  @Accepted.checkMinWork_ok _ _ [sampleIndex 3 1400000003 0x1d0fffff] _
    accepted_sampleCheckpoint (by decide) (by decide)
    ⟨2, by decide, by decide, by
      have hgrowth : growth (lowTargetChain.take 3) = 6314 / 86490 * (166310 / 86490) := by
        norm_num [lowTargetChain, growth, spacingFactor, sampleIndex, CBlockIndex.getBlockTime]
      have hk : periods (sampleCheckpoint.getBlockTime - 1400040001) = 77 := by decide
      have hpos : (0 : Rat) < setCompact 0x1d0fffff := by exact_mod_cast (by decide : 0 < setCompact 0x1d0fffff)
      show (setCompact 0x1d0fffff : Rat) * growth (lowTargetChain.take 3) ≤
        2 ^ (1 + periods (sampleCheckpoint.getBlockTime - 1400040001)) * setCompact 0x1d0fffff
      rw [hgrowth, hk]
      linarith⟩
    (sampleHeader 1400864003 0x1d012b04) ⟨rfl, rfl⟩

/-- **The bound is not sound**: a gap of ten days before a block raises the target of its
successor above what `ComputeMinWork` allows for the second between them. -/
theorem not_forall_computeMinWork :
    ¬ ∀ b c newer older, Accepted (b :: (newer ++ c :: older)) →
      TargetInRange (setCompact c.nBits) → c.getBlockTime ≤ b.getBlockTime →
        setCompact b.nBits ≤
          setCompact (computeMinWork c.nBits (b.getBlockTime - c.getBlockTime)) := by
  intro hall
  have hbound := hall sampleSuccessor sampleCheckpoint [] lowTargetChain accepted_sampleSuccessor
    (by decide) (by decide)
  have hpos : 0 < setCompact sampleCheckpoint.nBits := by decide
  have hlimit : setCompact sampleSuccessor.nBits = setCompact (getCompact bnProofOfWorkLimit) :=
    congrArg setCompact getCompact_bnInitialHashTarget.symm
  rw [hlimit, target_le_computeMinWork_iff hpos (le_refl _), ← hlimit] at hbound
  revert hbound
  decide

end Manna
