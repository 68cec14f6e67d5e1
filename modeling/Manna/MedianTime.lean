import Manna.Lib.OrderStatistic
import Manna.Retarget

/-!
The median time past and the time of a block template (`main.cpp`: `CBlockHeader::UpdateTime`).

Block times may go back below the fork height of the tight rule, but a block is later than the median of
the eleven blocks before it.

* `Accepted.updateTime_spec`: the time of a template passes both rules, where `nTime` holds it.
-/

namespace Manna

open OrderStatistic

def toUnsignedInt (n : Int) : Nat := (n % 2 ^ 32).toNat

def CBlockHeader.updateTime (fTestNet : Bool) (adjustedTime : Int) (pindexPrev : CBlockIndex)
    (ancestors : List CBlockIndex) (block : CBlockHeader) : CBlockHeader :=
  let block := { block with
    nTime := toUnsignedInt
      (max (pindexPrev.getBlockTime + MINIMUM_BLOCK_SPACING + 1) block.getBlockTime) }
  let block := { block with nTime := toUnsignedInt (max adjustedTime block.getBlockTime) }
  if fTestNet then { block with nBits := getNextTrustRequired (pindexPrev :: ancestors) } else block

/-- Both rules for the time of a block on a tip: it is after the median time, and more than the minimal
spacing after the tip. `AcceptBlockTimestamp` lets it pass. -/
structure TimeAccepted (block : CBlockHeader) (pindexPrev : CBlockIndex) (ancestors : List CBlockIndex) :
    Prop where
  median : getMedianTimePast (pindexPrev :: ancestors) < block.getBlockTime
  spacing : MINIMUM_BLOCK_SPACING < block.getBlockTime - pindexPrev.getBlockTime
  timestamp : acceptBlockTimestamp pindexPrev block = .ok ()

section Median

variable {pindex pindexPrev : CBlockIndex} {ancestors chain : List CBlockIndex}

theorem upperMedian_times (pindex : CBlockIndex) (ancestors : List CBlockIndex) :
    upperMedian (((pindex :: ancestors).map CBlockIndex.getBlockTime).take 11) =
      some (getMedianTimePast (pindex :: ancestors)) := by
  obtain ⟨x, hx⟩ :=
    exists_upperMedian (show ((pindex :: ancestors).map CBlockIndex.getBlockTime).take 11 ≠ [] by simp)
  rw [hx]
  rw [upperMedian, ← List.map_take] at hx
  rw [getMedianTimePast, List.length_insertionSort, List.getD_eq_getElem?_getD, hx, Option.getD_some]

/-- **One block.** -/
theorem getMedianTimePast_cons (hlater : getMedianTimePast (pindexPrev :: ancestors) < pindex.getBlockTime) :
    getMedianTimePast (pindexPrev :: ancestors) ≤ getMedianTimePast (pindex :: pindexPrev :: ancestors) ∧
      getMedianTimePast (pindex :: pindexPrev :: ancestors) ≤ pindex.getBlockTime := by
  obtain ⟨y, hy, hle, hle'⟩ := upperMedian_push (upperMedian_times pindexPrev ancestors) hlater
  rw [← List.map_cons, upperMedian_times pindex, Option.some.injEq] at hy
  rw [hy]
  exact ⟨hle, hle'⟩

theorem Accepted.later (h : Accepted (pindex :: pindexPrev :: ancestors)) :
    Accepted (pindexPrev :: ancestors) ∧
      getMedianTimePast (pindexPrev :: ancestors) < pindex.getBlockTime := by
  cases h with
  | extend block _ hprev hchecks _ htime _ =>
    obtain ⟨-, hlater, -⟩ := acceptBlockHeader_eq_ok.mp hchecks
    exact ⟨hprev, by rwa [CBlockIndex.getBlockTime, htime]⟩

theorem Accepted.getMedianTimePast_le (h : Accepted (pindex :: ancestors)) :
    getMedianTimePast (pindex :: ancestors) ≤ pindex.getBlockTime := by
  cases ancestors with
  | nil => simp [getMedianTimePast]
  | cons pindexPrev ancestors => exact (getMedianTimePast_cons h.later.2).2

/-- **The median does not fall** along a chain. -/
theorem Accepted.getMedianTimePast_mono {earlier : List CBlockIndex} (h : Accepted chain)
    (hsuffix : earlier <:+ chain) (hne : earlier ≠ []) :
    Accepted earlier ∧ getMedianTimePast earlier ≤ getMedianTimePast chain := by
  induction chain with
  | nil => exact absurd (List.suffix_nil.mp hsuffix) hne
  | cons pindex chain ih =>
    rcases List.suffix_cons_iff.mp hsuffix with rfl | hsuffix
    · exact ⟨h, Int.le_refl _⟩
    · cases chain with
      | nil => exact absurd (List.suffix_nil.mp hsuffix) hne
      | cons pindexPrev ancestors =>
        obtain ⟨hprev, hlater⟩ := h.later
        obtain ⟨haccepted, hle⟩ := ih hprev hsuffix
        exact ⟨haccepted, hle.trans (getMedianTimePast_cons hlater).1⟩

end Median

/-! ### The time of a template -/

section UpdateTime

variable {pindexPrev : CBlockIndex} {ancestors : List CBlockIndex} {block : CBlockHeader}
  {fTestNet : Bool} {adjustedTime : Int}

theorem toUnsignedInt_eq {n : Int} (hnonneg : 0 ≤ n) (hlt : n < 2 ^ 32) : (toUnsignedInt n : Int) = n := by
  rw [toUnsignedInt, Int.emod_eq_of_lt hnonneg hlt, Int.toNat_of_nonneg hnonneg]

/-- `AcceptBlockTimestamp` refuses no block that is later by more than the minimal spacing. -/
theorem acceptBlockTimestamp_eq_ok
    (hspacing : MINIMUM_BLOCK_SPACING < block.getBlockTime - pindexPrev.getBlockTime) :
    acceptBlockTimestamp pindexPrev block = .ok () := by
  simp only [MINIMUM_BLOCK_SPACING] at hspacing
  unfold acceptBlockTimestamp
  dsimp only
  rw [if_neg, if_neg]
  · rintro ⟨-, hle⟩
    simp only [MINIMUM_BLOCK_SPACING] at hle
    omega
  · rintro ⟨-, hle⟩
    split at hle <;> omega

theorem CBlockHeader.updateTime_getBlockTime
    (hprev : pindexPrev.getBlockTime + MINIMUM_BLOCK_SPACING + 1 < 2 ^ 32)
    (hblock : block.getBlockTime < 2 ^ 32) (hadjusted : adjustedTime < 2 ^ 32) :
    (block.updateTime fTestNet adjustedTime pindexPrev ancestors).getBlockTime =
      max adjustedTime (max (pindexPrev.getBlockTime + MINIMUM_BLOCK_SPACING + 1) block.getBlockTime) := by
  have hnonneg : 0 ≤ block.getBlockTime := Int.natCast_nonneg _
  have hfirst := toUnsignedInt_eq (hnonneg.trans (le_max_right _ _)) (max_lt hprev hblock)
  have hsecond := toUnsignedInt_eq
    ((hnonneg.trans (le_max_right _ _)).trans (le_max_right adjustedTime _))
    (max_lt hadjusted (max_lt hprev hblock))
  unfold updateTime
  cases fTestNet
  all_goals
    simp only [CBlockHeader.getBlockTime, if_true, Bool.false_eq_true, if_false] at hfirst hsecond ⊢
    rw [hfirst, hsecond]

theorem Accepted.timeAccepted (h : Accepted (pindexPrev :: ancestors))
    (hspacing : MINIMUM_BLOCK_SPACING < block.getBlockTime - pindexPrev.getBlockTime) :
    TimeAccepted block pindexPrev ancestors where
  median := by
    have hle := h.getMedianTimePast_le
    simp only [MINIMUM_BLOCK_SPACING] at hspacing
    omega
  spacing := hspacing
  timestamp := acceptBlockTimestamp_eq_ok hspacing

/-- **Median time and template time.** Along every chain that was accepted the median time past does not
fall, and it never exceeds the time of its block. The time of a template on the tip passes both rules, where
the times fit the 32 bits of `nTime`. -/
theorem Accepted.updateTime_spec (h : Accepted (pindexPrev :: ancestors)) :
    (∀ earlier later, earlier <:+ later → later <:+ pindexPrev :: ancestors → earlier ≠ [] →
        getMedianTimePast earlier ≤ getMedianTimePast later) ∧
      (∀ pindex older, pindex :: older <:+ pindexPrev :: ancestors →
        getMedianTimePast (pindex :: older) ≤ pindex.getBlockTime) ∧
      ∀ (fTestNet : Bool) (adjustedTime : Int) (block : CBlockHeader),
        pindexPrev.getBlockTime + MINIMUM_BLOCK_SPACING + 1 < 2 ^ 32 →
        block.getBlockTime < 2 ^ 32 → adjustedTime < 2 ^ 32 →
        TimeAccepted (block.updateTime fTestNet adjustedTime pindexPrev ancestors) pindexPrev ancestors := by
  refine ⟨fun earlier later hearlier hlater hne => ?_, fun pindex older hsuffix => ?_,
    fun fTestNet adjustedTime block hprev hblock hadjusted => h.timeAccepted ?_⟩
  · have hne' : later ≠ [] := by
      rintro rfl
      exact hne (List.suffix_nil.mp hearlier)
    exact ((h.getMedianTimePast_mono hlater hne').1.getMedianTimePast_mono hearlier hne).2
  · exact (h.getMedianTimePast_mono hsuffix (List.cons_ne_nil _ _)).1.getMedianTimePast_le
  · rw [CBlockHeader.updateTime_getBlockTime hprev hblock hadjusted]
    have hmax := (le_max_left (pindexPrev.getBlockTime + MINIMUM_BLOCK_SPACING + 1)
      block.getBlockTime).trans (le_max_right adjustedTime _)
    omega

end UpdateTime

/-- A block an hour after the genesis block. -/
def sampleHourChain : List CBlockIndex :=
  [sampleIndex 1 1400003600 0x1d0fffff, sampleIndex 0 1400000000 0x1d0fffff]

theorem accepted_sampleHourChain : Accepted sampleHourChain :=
  .extend (sampleHeader 1400003600 0x1d0fffff) _ (.genesis _)
    (acceptBlockHeader_eq_ok.mpr ⟨getCompact_bnInitialHashTarget.symm, by decide, by decide⟩) rfl rfl rfl

theorem Accepted.updateTime_spec_sampleHourChain :
    (∀ earlier later, earlier <:+ later → later <:+ sampleHourChain → earlier ≠ [] →
        getMedianTimePast earlier ≤ getMedianTimePast later) ∧
      (∀ pindex older, pindex :: older <:+ sampleHourChain →
        getMedianTimePast (pindex :: older) ≤ pindex.getBlockTime) ∧
      ∀ (fTestNet : Bool) (adjustedTime : Int) (block : CBlockHeader),
        (sampleIndex 1 1400003600 0x1d0fffff).getBlockTime + MINIMUM_BLOCK_SPACING + 1 < 2 ^ 32 →
        block.getBlockTime < 2 ^ 32 → adjustedTime < 2 ^ 32 →
        TimeAccepted (block.updateTime fTestNet adjustedTime (sampleIndex 1 1400003600 0x1d0fffff)
          [sampleIndex 0 1400000000 0x1d0fffff]) (sampleIndex 1 1400003600 0x1d0fffff)
          [sampleIndex 0 1400000000 0x1d0fffff] :=
  Accepted.updateTime_spec accepted_sampleHourChain

/-- A block with the last time that `nTime` holds. -/
def lastTimeChain : List CBlockIndex :=
  [sampleIndex 1 (2 ^ 32 - 1) 0x1d0fffff, sampleIndex 0 1400000000 0x1d0fffff]

theorem accepted_lastTimeChain : Accepted lastTimeChain :=
  .extend (sampleHeader (2 ^ 32 - 1) 0x1d0fffff) _ (.genesis _)
    (acceptBlockHeader_eq_ok.mpr ⟨getCompact_bnInitialHashTarget.symm, by decide, by decide⟩) rfl rfl rfl

/-- On a tip with the last time the template gets a time that has wrapped around. -/
theorem updateTime_not_timeAccepted :
    ¬ ∀ pindexPrev ancestors, Accepted (pindexPrev :: ancestors) →
      (∀ pindex ∈ pindexPrev :: ancestors, pindex.nTime < 2 ^ 32) →
      ∀ (fTestNet : Bool) (adjustedTime : Int) (block : CBlockHeader), block.nTime < 2 ^ 32 →
        TimeAccepted (block.updateTime fTestNet adjustedTime pindexPrev ancestors) pindexPrev ancestors := by
  intro hall
  have htime := hall _ _ accepted_lastTimeChain (by decide) false 1400000000
    (sampleHeader 1400000000 0x1d0fffff) (by decide)
  exact absurd htime.spacing (by decide)

end Manna
