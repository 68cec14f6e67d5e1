import Manna.Block
import Mathlib.Data.List.Sort

/-!
The target of the next block (`manna.cpp`: `GetNextTargetRequired`,
`AcceptBlockTimestamp`) and the header checks of `AcceptBlock` that fix it.

A `CBlockIndex*` is read here together with its ancestors: a list, the entry itself
first, with `[]` for the null pointer.

* `nextTrustRequired_inRange`: the demanded target passes the range test of
  `CheckProofOfWork` exactly when the product of the last target and the adjustment
  reaches the divisor; only the upper clamp exists in the code;
* `Accepted.inRange`: along a chain that keeps to this condition every target was in
  range;
* `Accepted.retarget_iff`: both, for the chains `AcceptBlock` lets through, which need
  not keep to it (`not_forall_accepted_inRange`).
-/

namespace Manna

def STAKE_TARGET_SPACING : Int := 90
def nTargetTimespan : Int := 24 * 60 * 60
def nTargetSpacingWorkMax : Int := 12 * STAKE_TARGET_SPACING
/-- `~uint256(0) >> 28`. -/
def bnInitialHashTarget : Int := 2 ^ 228 - 1

/-- `GetNextTargetRequired(pindexLast, false)`. `GetLastBlockIndex` returns its argument,
since no block is proof-of-stake, so `pindexPrev` is `pindexLast`. -/
def getNextTargetRequired : List CBlockIndex → Nat
  | [] => getCompact bnProofOfWorkLimit
  | [_] => getCompact bnInitialHashTarget
  | [_, _] => getCompact bnInitialHashTarget
  | pindexLast :: pindexPrevPrev :: _ :: _ =>
    let pindexPrev := pindexLast
    let nActualSpacing := pindexPrev.getBlockTime - pindexPrevPrev.getBlockTime
    let bnNew := setCompact pindexPrev.nBits
    let nTargetSpacing := min nTargetSpacingWorkMax
      (STAKE_TARGET_SPACING * (1 + pindexLast.nHeight - pindexPrev.nHeight))
    let nInterval := nTargetTimespan.tdiv nTargetSpacing
    let bnNew := bnNew * ((nInterval - 1) * nTargetSpacing + nActualSpacing + nActualSpacing)
    let bnNew := bnNew.tdiv ((nInterval + 1) * nTargetSpacing)
    let bnNew := if bnNew > bnProofOfWorkLimit then bnProofOfWorkLimit else bnNew
    getCompact bnNew

def getNextTrustRequired (pindexLast : List CBlockIndex) : Nat := getNextTargetRequired pindexLast

/-! ### AcceptBlock -/

/-- `GetMedianTimePast`: the median of the last eleven block times. -/
def getMedianTimePast (pindex : List CBlockIndex) : Int :=
  let times := ((pindex.take 11).map CBlockIndex.getBlockTime).insertionSort (· ≤ ·)
  times.getD (times.length / 2) 0

def minimum_time_fork : Int := 250000
def minimum_time_fork_2 : Int := 250000

def acceptBlockTimestamp (pindexPrev : CBlockIndex) (block : CBlockHeader) : Except Halt Unit :=
  let delta := block.getBlockTime - pindexPrev.getBlockTime
  let nHeight := pindexPrev.nHeight + 1
  let time_allow : Int := if nHeight > minimum_time_fork_2 then 30 else -30
  if nHeight ≥ minimum_time_fork_2 ∧ delta ≤ time_allow then
    .error (.invalid s!"AcceptBlock(height={nHeight}) : block time delta {delta} too short")
  else if nHeight ≥ minimum_time_fork ∧ delta ≤ MINIMUM_BLOCK_SPACING then
    .error (.dos 10 s!"AcceptBlock(height={nHeight}) : block time delta {delta} too short" false)
  else .ok ()

/-- The header checks of `AcceptBlock` against the previous entry. -/
def acceptBlockHeader (block : CBlockHeader) (pindexPrev : CBlockIndex)
    (ancestors : List CBlockIndex) : Except Halt Unit :=
  let nHeight := pindexPrev.nHeight + 1
  if block.nBits ≠ getNextTrustRequired (pindexPrev :: ancestors) then
    .error (.dos 100 s!"AcceptBlock(height={nHeight}) : incorrect proof-of-work" false)
  else if block.getBlockTime ≤ getMedianTimePast (pindexPrev :: ancestors) then
    .error (.invalid "AcceptBlock() : block's timestamp is too early")
  else acceptBlockTimestamp pindexPrev block

theorem acceptBlockHeader_eq_ok {block : CBlockHeader} {pindexPrev : CBlockIndex}
    {ancestors : List CBlockIndex} : acceptBlockHeader block pindexPrev ancestors = .ok () ↔
      block.nBits = getNextTrustRequired (pindexPrev :: ancestors) ∧
        getMedianTimePast (pindexPrev :: ancestors) < block.getBlockTime ∧
          acceptBlockTimestamp pindexPrev block = .ok () := by
  unfold acceptBlockHeader
  simp only
  split
  · next hne => simp [hne]
  · next heq =>
    split
    · next hle => simp [hle]
    · next hlt => simp [not_not.mp heq, not_le.mp hlt]

/-- A chain, tip first, from a genesis entry through blocks that passed those checks. -/
inductive Accepted : List CBlockIndex → Prop
  | genesis (pindex : CBlockIndex) : Accepted [pindex]
  | extend {pindexPrev : CBlockIndex} {ancestors : List CBlockIndex} (block : CBlockHeader)
      (pindex : CBlockIndex) (hprev : Accepted (pindexPrev :: ancestors))
      (hchecks : acceptBlockHeader block pindexPrev ancestors = .ok ())
      (hbits : pindex.nBits = block.nBits) (htime : pindex.nTime = block.nTime)
      (hheight : pindex.nHeight = pindexPrev.nHeight + 1) :
      Accepted (pindex :: pindexPrev :: ancestors)

/-! ### The range of the next target -/

/-- The product `GetNextTargetRequired` divides reaches the divisor: the last target is
not brought down to nothing, and not below, by the spacing of the last two blocks. -/
def RetargetPositive : List CBlockIndex → Prop
  | pindexPrev :: pindexPrevPrev :: _ :: _ =>
    86490 ≤ setCompact pindexPrev.nBits *
      (86310 + 2 * (pindexPrev.getBlockTime - pindexPrevPrev.getBlockTime))
  | _ => True

instance (chain : List CBlockIndex) : Decidable (RetargetPositive chain) := by
  unfold RetargetPositive
  split <;> infer_instance

/-- With every entry proof-of-work the spacing is 90 seconds and the interval 960. -/
theorem getNextTargetRequired_retarget (pindexPrev pindexPrevPrev third : CBlockIndex)
    (rest : List CBlockIndex) : getNextTargetRequired (pindexPrev :: pindexPrevPrev :: third :: rest) =
      getCompact (min bnProofOfWorkLimit ((setCompact pindexPrev.nBits *
        (86310 + 2 * (pindexPrev.getBlockTime - pindexPrevPrev.getBlockTime))).tdiv 86490)) := by
  have hspacing : min nTargetSpacingWorkMax
      (STAKE_TARGET_SPACING * (1 + pindexPrev.nHeight - pindexPrev.nHeight)) = 90 := by
    simp only [nTargetSpacingWorkMax, STAKE_TARGET_SPACING]
    omega
  simp only [getNextTargetRequired, hspacing]
  rw [show nTargetTimespan.tdiv 90 = 960 from rfl,
    show (960 - 1 : Int) * 90 + (pindexPrev.getBlockTime - pindexPrevPrev.getBlockTime) +
      (pindexPrev.getBlockTime - pindexPrevPrev.getBlockTime) =
        86310 + 2 * (pindexPrev.getBlockTime - pindexPrevPrev.getBlockTime) by ring,
    show (960 + 1 : Int) * 90 = 86490 from rfl]
  congr 1
  split
  · exact (min_eq_left (by omega)).symm
  · exact (min_eq_right (by omega)).symm

/-- A quotient rounded towards zero is positive once the dividend reaches the divisor. -/
theorem tdiv_pos_iff {a b : Int} (hb : 0 < b) : 0 < a.tdiv b ↔ b ≤ a := by
  rcases lt_or_ge a 0 with hneg | hnonneg
  · have hflip := Int.neg_tdiv (-a) b
    rw [neg_neg] at hflip
    have := Int.tdiv_nonneg (show 0 ≤ -a by omega) hb.le
    omega
  · rw [Int.tdiv_eq_ediv_of_nonneg hnonneg, Int.lt_iff_add_one_le, zero_add,
      Int.le_ediv_iff_mul_le hb, one_mul]

theorem getCompact_bnInitialHashTarget : getCompact bnInitialHashTarget = 0x1d0fffff := by
  have hbytes : numBytes bnInitialHashTarget.natAbs = 29 := numBytes_eq (by decide) (by decide)
  simp only [getCompact, compactParts, leadingWord, hbytes]
  decide

theorem targetInRange_initial : TargetInRange (setCompact (getCompact bnInitialHashTarget)) := by
  rw [getCompact_bnInitialHashTarget]
  decide

/-- What `GetNextTrustRequired` demands passes the range test of `CheckProofOfWork` if and
only if the retarget product reaches its divisor. -/
theorem nextTrustRequired_inRange (chain : List CBlockIndex) :
    TargetInRange (setCompact (getNextTrustRequired chain)) ↔ RetargetPositive chain := by
  match chain with
  | [] => exact iff_of_true targetInRange_initial trivial
  | [_] => exact iff_of_true targetInRange_initial trivial
  | [_, _] => exact iff_of_true targetInRange_initial trivial
  | pindexPrev :: pindexPrevPrev :: third :: rest =>
    simp only [getNextTrustRequired, getNextTargetRequired_retarget, RetargetPositive]
    generalize setCompact pindexPrev.nBits *
      (86310 + 2 * (pindexPrev.getBlockTime - pindexPrevPrev.getBlockTime)) = product
    have hlimit : bnProofOfWorkLimit < 256 ^ 254 := by decide
    have hbound : min bnProofOfWorkLimit (product.tdiv 86490) < 256 ^ 254 := by omega
    have hpos := setCompact_getCompact_pos_iff hbound
    have hle := setCompact_getCompact_le hbound (min_le_left _ _)
      (show 0 ≤ bnProofOfWorkLimit by decide)
    have hdiv := tdiv_pos_iff (a := product) (b := 86490) (by decide)
    have hlimitpos : 0 < bnProofOfWorkLimit := by decide
    unfold TargetInRange
    omega

/-- In a chain that kept to the condition at every block, every block after the genesis
carries a target in range. -/
theorem Accepted.inRange {chain : List CBlockIndex} (hchain : Accepted chain)
    (hpositive : ∀ earlier, earlier <:+ chain → RetargetPositive earlier) :
    ∀ pindex ∈ chain.dropLast, TargetInRange (setCompact pindex.nBits) := by
  induction hchain with
  | genesis pindex => simp
  | @extend pindexPrev ancestors block pindex hprev hchecks hbits htime hheight ih =>
    have ih := ih fun earlier hsuffix => hpositive earlier (hsuffix.trans (List.suffix_cons _ _))
    intro entry hentry
    rw [List.dropLast_cons_of_ne_nil (List.cons_ne_nil _ _), List.mem_cons] at hentry
    rcases hentry with rfl | hentry
    · obtain ⟨hrequired, -, -⟩ := acceptBlockHeader_eq_ok.mp hchecks
      rw [hbits, hrequired, nextTrustRequired_inRange]
      exact hpositive _ (List.suffix_cons _ _)
    · exact ih entry hentry

/-- **The exact range condition**: after a chain that `AcceptBlock` let through, the
demanded target is in range if and only if the retarget product reaches its divisor, and
where it always did every block so far carries a target in range. -/
theorem Accepted.retarget_iff {chain : List CBlockIndex} (hchain : Accepted chain) :
    (TargetInRange (setCompact (getNextTrustRequired chain)) ↔ RetargetPositive chain) ∧
      ((∀ earlier, earlier <:+ chain → RetargetPositive earlier) →
        ∀ pindex ∈ chain.dropLast, TargetInRange (setCompact pindex.nBits)) :=
  ⟨nextTrustRequired_inRange chain, hchain.inRange⟩

/-- An entry at a height with a time, asking for the initial target. -/
def sampleIndex (nHeight : Int) (nTime nBits : Nat) : CBlockIndex :=
  ⟨0, none, none, nHeight, 0, ⟨BLOCK_VALID_TRANSACTIONS, true, false, false, false⟩, 0, nTime, nBits⟩

def sampleHeader (nTime nBits : Nat) : CBlockHeader := ⟨1, 0, 0, nTime, nBits, 0⟩

/-- Three blocks on a genesis block: the second jumps a day ahead, the third goes back
to just after the median. -/
def backwardsChain : List CBlockIndex :=
  [sampleIndex 3 1400000002 0x1d0fffff, sampleIndex 2 1400100001 0x1d0fffff,
    sampleIndex 1 1400000001 0x1d0fffff, sampleIndex 0 1400000000 0x1d0fffff]

theorem required_backwardsChain : 0x1d0fffff = getNextTrustRequired backwardsChain.tail := by
  rw [getNextTrustRequired, backwardsChain, List.tail_cons, getNextTargetRequired_retarget]
  exact getCompact_bnInitialHashTarget.symm

theorem accepted_backwardsChain : Accepted backwardsChain :=
  .extend (sampleHeader 1400000002 0x1d0fffff) _
    (.extend (sampleHeader 1400100001 0x1d0fffff) _
      (.extend (sampleHeader 1400000001 0x1d0fffff) _ (.genesis _)
        (acceptBlockHeader_eq_ok.mpr ⟨getCompact_bnInitialHashTarget.symm, by decide, by decide⟩)
        rfl rfl rfl)
      (acceptBlockHeader_eq_ok.mpr ⟨getCompact_bnInitialHashTarget.symm, by decide, by decide⟩)
      rfl rfl rfl)
    (acceptBlockHeader_eq_ok.mpr ⟨required_backwardsChain, by decide, by decide⟩) rfl rfl rfl

theorem retarget_iff_backwardsChain :
    Accepted backwardsChain ∧
      ((TargetInRange (setCompact (getNextTrustRequired backwardsChain)) ↔
          RetargetPositive backwardsChain) ∧
        ((∀ earlier, earlier <:+ backwardsChain → RetargetPositive earlier) →
          ∀ pindex ∈ backwardsChain.dropLast, TargetInRange (setCompact pindex.nBits))) :=
  ⟨accepted_backwardsChain, accepted_backwardsChain.retarget_iff⟩

/-- **The range is not kept**: after this chain the demanded target is negative. -/
theorem not_forall_accepted_inRange :
    ¬ ∀ chain, Accepted chain → TargetInRange (setCompact (getNextTrustRequired chain)) := by
  intro hall
  have hrange := hall _ accepted_backwardsChain
  rw [nextTrustRequired_inRange] at hrange
  revert hrange
  decide

end Manna
