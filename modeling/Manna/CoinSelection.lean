import Manna.CreateTransaction
import Manna.StakeCoins

/-!
Whether and what a selection finds (`wallet.cpp`: `CWallet::SelectCoinsMinConf`, `SelectCoins`), in the
manna build and with `PPCOINSTAKE`, where no coin may be newer than the payment.

* `BestSubset.Sound`: the sums of `ApproximateBestSubset` are those of its subsets, whatever is drawn;
* `selectCoinsMinConfAt_spec`: true exactly when the eligible coins reach the target, with coins that are
  eligible, their value, and enough of it;
* `selectCoins_exact`: with the three calls of `SelectCoins`;
* `not_forall_selectCoins_exact`: not for coins whose sum is no `int64_t`.

A sum is an `int64_t`. Those in `ApproximateBestSubset` are of coins that `nTotalLower` counts, and are
integers here: where `nTotalLower` is exact, so are they.
-/

namespace Manna

namespace Wallet

/-! ### The source in both builds -/

section Source

variable (env : WalletEnv) (chain : ChainView) (w : CWallet)

/-- What an `int64_t` keeps of an integer. -/
def wrapInt64 (n : Int) : Int := n.bmod (2 ^ 64)

/-- The loop of `SelectCoinsMinConf` over the coins; `nSpendTime` counts with `PPCOINSTAKE` only. -/
def sortCoinsAt (nSpendTime : Option Nat) (nTargetValue nConfMine nConfTheirs : Int) :
    List COutput → List COutput → Int → Option COutput → Option Sorted
  | [], vValue, nTotalLower, coinLowestLarger => some (.split vValue nTotalLower coinLowestLarger)
  | coin :: vCoins, vValue, nTotalLower, coinLowestLarger =>
    match coin.tx.isFromMe env w chain with
    | none => none
    | some fFromMe =>
      if coin.nDepth < (if fFromMe then nConfMine else nConfTheirs) then
        sortCoinsAt nSpendTime nTargetValue nConfMine nConfTheirs vCoins vValue nTotalLower
          coinLowestLarger
      else if ∃ time ∈ nSpendTime, coin.tx.nTime > time then
        -- "timestamp must not exceed spend time"
        sortCoinsAt nSpendTime nTargetValue nConfMine nConfTheirs vCoins vValue nTotalLower
          coinLowestLarger
      else if coin.nValue = nTargetValue then some (.exact coin)
      else if coin.nValue < wrapInt64 (nTargetValue + CENT) then
        sortCoinsAt nSpendTime nTargetValue nConfMine nConfTheirs vCoins (vValue ++ [coin])
          (wrapInt64 (nTotalLower + coin.nValue)) coinLowestLarger
      else if coin.nValue < (coinLowestLarger.map COutput.nValue).getD (2 ^ 63 - 1) then
        sortCoinsAt nSpendTime nTargetValue nConfMine nConfTheirs vCoins vValue nTotalLower
          (some coin)
      else
        sortCoinsAt nSpendTime nTargetValue nConfMine nConfTheirs vCoins vValue nTotalLower
          coinLowestLarger

/-- `setCoinsRet` with some coins, and `nValueRet`. -/
def coinsRetAt (coins : List COutput) : List COutput × Int :=
  ((coinsRet env coins).1, wrapInt64 (coinsRet env coins).2)

/-- `SelectCoinsMinConf`: what it returns, `setCoinsRet` and `nValueRet`. -/
def selectCoinsMinConfAt (nSpendTime : Option Nat) (choice : Choice)
    (nTargetValue nConfMine nConfTheirs : Int) (vCoins : List COutput) :
    Option (Bool × List COutput × Int) :=
  match sortCoinsAt env chain w nSpendTime nTargetValue nConfMine nConfTheirs (choice.shuffle vCoins)
    [] 0 none with
  | none => none
  | some (.exact coin) => some (true, coinsRetAt env [coin])
  | some (.split vValue nTotalLower coinLowestLarger) =>
    if nTotalLower = nTargetValue then some (true, coinsRetAt env vValue)
    else if nTotalLower < nTargetValue then
      match coinLowestLarger with
      | none => some (false, [], 0)
      | some coin => some (true, coinsRetAt env [coin])
    else
      some (true, coinsRetAt env (selectSubset choice nTargetValue nTotalLower vValue coinLowestLarger))

/-- `AvailableCoins`. With `PPCOINSTAKE` the coins of immature coinstakes are left out too. -/
def availableCoinsAt (nSpendTime : Option Nat) (rounds : Nat) (coinControl : Option CCoinControl) :
    Option (List COutput) :=
  (w.availableCoins env chain rounds true coinControl).map fun vCoins =>
    match nSpendTime with
    | none => vCoins
    | some _ => vCoins.filter fun out => !(out.tx.isCoinStakePPC &&
        decide (max 0 (COINBASE_MATURITY + 20 - chain.getDepthInMainChain out.tx.toCMerkleTx) > 0))

def selectCoinsAt (nSpendTime : Option Nat) (rounds : Nat) (choice : Fin 3 → Choice)
    (nTargetValue : Int) (coinControl : Option CCoinControl) : Option (Bool × List COutput × Int) :=
  match availableCoinsAt env chain w nSpendTime rounds coinControl with
  | none => none
  | some vCoins =>
    if ∃ control ∈ coinControl, control.setSelected ≠ ∅ then
      some (decide ((coinsRetAt env vCoins).2 ≥ nTargetValue), coinsRetAt env vCoins)
    else
      match selectCoinsMinConfAt env chain w nSpendTime (choices choice).1 nTargetValue 1 6 vCoins with
      | none => none
      | some (true, ret) => some (true, ret)
      | some (false, _) =>
        match selectCoinsMinConfAt env chain w nSpendTime (choices choice).2.1 nTargetValue 1 1 vCoins with
        | none => none
        | some (true, ret) => some (true, ret)
        | some (false, _) =>
          selectCoinsMinConfAt env chain w nSpendTime (choices choice).2.2 nTargetValue 0 1 vCoins

end Source

section Spec

variable (env : WalletEnv) (chain : ChainView) (w : CWallet)

/-- The sum of the values of coins. -/
def coinsValue (coins : List COutput) : Int := (coins.map COutput.nValue).sum

def Eligible (nSpendTime : Option Nat) (nConfMine nConfTheirs : Int) (coin : COutput) : Prop :=
  ∃ fFromMe, coin.tx.isFromMe env w chain = some fFromMe ∧
    (if fFromMe then nConfMine else nConfTheirs) ≤ coin.nDepth ∧
    ∀ time ∈ nSpendTime, coin.tx.nTime ≤ time

instance (nSpendTime : Option Nat) (nConfMine nConfTheirs : Int) (coin : COutput) :
    Decidable (Eligible env chain w nSpendTime nConfMine nConfTheirs coin) :=
  match h : coin.tx.isFromMe env w chain with
  | none => isFalse fun ⟨fFromMe, hmine, _⟩ => by
    rw [h] at hmine
    cases hmine
  | some fFromMe =>
    decidable_of_iff ((if fFromMe then nConfMine else nConfTheirs) ≤ coin.nDepth ∧
      ∀ time ∈ nSpendTime, coin.tx.nTime ≤ time) (by simp [Eligible, h])

def eligibleCoins (nSpendTime : Option Nat) (nConfMine nConfTheirs : Int) (vCoins : List COutput) :
    List COutput :=
  vCoins.filter fun coin => decide (Eligible env chain w nSpendTime nConfMine nConfTheirs coin)

/-- Distinct outputs, with values that `CheckTransaction` passes. -/
structure Listed (vCoins : List COutput) : Prop where
  distinct : (vCoins.map (COutput.outpoint env)).Nodup
  inRange : ∀ coin ∈ vCoins, moneyRange coin.nValue = true

/-- An `int64_t` has the sum of the coins. -/
def Summable (vCoins : List COutput) : Prop := coinsValue vCoins < 2 ^ 63

/-- A target that is positive, and to which `CENT` can be added. -/
def InReach (nTargetValue : Int) : Prop := 0 < nTargetValue ∧ nTargetValue + CENT < 2 ^ 63

/-- **What is asked of `SelectCoinsMinConf`**: it returns true exactly when the eligible coins reach the
target, and then with eligible coins, their value, and enough of it. -/
structure Answers (nSpendTime : Option Nat) (nTargetValue nConfMine nConfTheirs : Int)
    (vCoins : List COutput) (fOk : Bool) (setCoinsRet : List COutput) (nValueRet : Int) : Prop where
  exactly : fOk = true ↔
    nTargetValue ≤ coinsValue (eligibleCoins env chain w nSpendTime nConfMine nConfTheirs vCoins)
  eligible : fOk = true → ∀ coin ∈ setCoinsRet,
    coin ∈ eligibleCoins env chain w nSpendTime nConfMine nConfTheirs vCoins
  value : fOk = true → nValueRet = coinsValue setCoinsRet
  enough : fOk = true → nTargetValue ≤ nValueRet

end Spec

/-! ### The sums of a subset -/

/-- The value of the coins that are marked. -/
def subsetValue : List COutput → List Bool → Int
  | coin :: vValue, f :: vf => (if f then coin.nValue else 0) + subsetValue vValue vf
  | _, _ => 0

theorem subsetValue_replicate_false (vValue : List COutput) (n : Nat) :
    subsetValue vValue (List.replicate n false) = 0 := by
  induction vValue generalizing n with
  | nil => cases n <;> rfl
  | cons coin vValue ih =>
    cases n with
    | zero => rfl
    | succ n => simp [List.replicate_succ, subsetValue, ih]

theorem subsetValue_replicate_true (vValue : List COutput) :
    subsetValue vValue (List.replicate vValue.length true) = coinsValue vValue := by
  induction vValue with
  | nil => rfl
  | cons coin vValue ih =>
    rw [List.length_cons, List.replicate_succ, subsetValue, ih, if_pos rfl]
    rfl

theorem subsetValue_set {vValue : List COutput} {vf : List Bool} {i : Nat} {coin : COutput}
    (hlen : vf.length = vValue.length) (hcoin : vValue[i]? = some coin) (hfree : vf.getD i false = false) :
    subsetValue vValue (vf.set i true) = subsetValue vValue vf + coin.nValue := by
  induction vValue generalizing vf i with
  | nil => simp at hcoin
  | cons first vValue ih =>
    cases vf with
    | nil => simp at hlen
    | cons f vf =>
      cases i with
      | zero =>
        obtain rfl : first = coin := by simpa using hcoin
        obtain rfl : f = false := by simpa using hfree
        simp [subsetValue, add_comm]
      | succ i =>
        have hrest := ih (by simpa using hlen) (by simpa using hcoin) (by simpa using hfree)
        rw [List.set_cons_succ, subsetValue, hrest, subsetValue, add_assoc]

theorem coinsValue_subsetCoins (vValue : List COutput) (vf : List Bool) :
    coinsValue (subsetCoins vValue vf) = subsetValue vValue vf := by
  suffices ∀ (vValue : List COutput) (k : Nat) (all : List Bool),
      coinsValue (((vValue.zipIdx k).filter fun coin => all.getD coin.2 false).map Prod.fst) =
        subsetValue vValue (all.drop k) from this vValue 0 vf
  intro vValue
  induction vValue with
  | nil => intro k all; rfl
  | cons coin vValue ih =>
    intro k all
    rw [List.zipIdx_cons, List.filter_cons]
    cases hdrop : all.drop k with
    | nil =>
      have hk : all.getD k false = false := by
        rw [List.getD_eq_getElem?_getD, List.getElem?_eq_none (List.drop_eq_nil_iff.mp hdrop)]
        rfl
      have hdrop' : all.drop (k + 1) = [] := by
        rw [← List.drop_drop, hdrop, List.drop_nil]
      have hrest := ih (k + 1) all
      rw [hdrop'] at hrest
      rw [if_neg (by simpa using hk), hrest]
      cases vValue <;> rfl
    | cons f vf =>
      have hk : all.getD k false = f := by
        have hget : (all.drop k)[0]? = some f := by rw [hdrop]; rfl
        rw [List.getElem?_drop, Nat.add_zero] at hget
        rw [List.getD_eq_getElem?_getD, hget]
        rfl
      have hdrop' : all.drop (k + 1) = vf := by
        rw [← List.drop_drop, hdrop]
        rfl
      have hrest := ih (k + 1) all
      rw [hdrop'] at hrest
      dsimp only
      rw [hk, subsetValue, ← hrest]
      cases f <;> simp [coinsValue]

/-! ### The best subset -/

namespace BestSubset

variable {vValue : List COutput} {nTargetValue : Int} {s : BestSubset}

/-- **What the search keeps**: both sums are those of their subsets, and the best one reaches the target. -/
structure Sound (vValue : List COutput) (nTargetValue : Int) (s : BestSubset) : Prop where
  length : s.vfIncluded.length = vValue.length
  total : s.nTotal = subsetValue vValue s.vfIncluded
  best : s.nBest = subsetValue vValue s.vfBest
  reached : nTargetValue ≤ s.nBest

/-- A coin that is not included yet is tried. -/
theorem Sound.addCoin (h : s.Sound vValue nTargetValue) {i : Nat} {coin : COutput}
    (hcoin : vValue[i]? = some coin) (hfree : s.vfIncluded.getD i false = false) :
    (s.addCoin nTargetValue (coin, i)).Sound vValue nTargetValue := by
  have hset := subsetValue_set h.length hcoin hfree
  have hsame : (s.vfIncluded.set i true).set i false = s.vfIncluded := by
    rw [List.set_set]
    refine List.ext_getElem? fun j => ?_
    rw [List.getElem?_set]
    split_ifs with hij hlt
    · subst hij
      rw [List.getD_eq_getElem?_getD, List.getElem?_eq_getElem hlt] at hfree
      rw [List.getElem?_eq_getElem hlt, ← hfree]
      rfl
    · rw [List.getElem?_eq_none (by omega)]
    · rfl
  have htotal := h.total
  unfold BestSubset.addCoin
  dsimp only
  split_ifs with hreached hbetter
  · refine ⟨?_, ?_, ?_, ?_⟩
    · rw [hsame]
      exact h.length
    · rw [hsame]
      exact htotal
    · rw [hset, htotal]
    · exact hreached
  · refine ⟨?_, ?_, h.best, h.reached⟩
    · rw [hsame]
      exact h.length
    · rw [hsame]
      exact htotal
  · refine ⟨?_, ?_, h.best, h.reached⟩
    · rw [List.length_set]
      exact h.length
    · rw [hset, htotal]

theorem getD_addCoin {coin : COutput × Nat} {j : Nat} (hj : coin.2 ≠ j) :
    (s.addCoin nTargetValue coin).vfIncluded.getD j false = s.vfIncluded.getD j false := by
  unfold BestSubset.addCoin
  dsimp only
  split_ifs <;> simp [hj]

/-- **A pass** over the coins from a place on, none of which is tried when it is included already. -/
theorem Sound.pass {f : BestSubset → Nat → Bool} {rest : List COutput} {k : Nat}
    (h : s.Sound vValue nTargetValue) (hrest : vValue.drop k = rest)
    (hfree : ∀ j, k ≤ j → f s j = true → s.vfIncluded.getD j false = false)
    (hkeep : ∀ (t : BestSubset) (coin : COutput) (i j : Nat), i < j →
      f (t.addCoin nTargetValue (coin, i)) j = true → f t j = true) : ((rest.zipIdx k).foldl
      (fun s coin => if f s coin.2 then s.addCoin nTargetValue coin else s) s).Sound vValue nTargetValue := by
  induction rest generalizing s k with
  | nil => exact h
  | cons coin rest ih =>
    have hcoin : vValue[k]? = some coin := by
      have hget : (vValue.drop k)[0]? = some coin := by rw [hrest]; rfl
      rwa [List.getElem?_drop, Nat.add_zero] at hget
    have hdrop : vValue.drop (k + 1) = rest := by
      rw [← List.drop_drop, hrest]
      rfl
    rw [List.zipIdx_cons, List.foldl_cons]
    dsimp only
    split_ifs with htries
    · refine ih (h.addCoin hcoin (hfree k (le_refl k) htries)) hdrop fun j hj hj' => ?_
      rw [getD_addCoin (Nat.ne_of_lt hj)]
      exact hfree j (Nat.le_of_succ_le hj) (hkeep s coin k j hj hj')
    · exact ih h hdrop fun j hj => hfree j (Nat.le_of_succ_le hj)

theorem Sound.rep (bits : Nat → Bool) (hbest : s.nBest = subsetValue vValue s.vfBest)
    (hreached : nTargetValue ≤ s.nBest) : (s.rep bits nTargetValue vValue).Sound vValue nTargetValue := by
  have hstart : BestSubset.Sound vValue nTargetValue
      { s with nTotal := 0, vfIncluded := List.replicate vValue.length false
               fReachedTarget := false } :=
    ⟨List.length_replicate, (subsetValue_replicate_false vValue _).symm, hbest, hreached⟩
  have hfirst := hstart.pass (f := fun _ i => bits i) (k := 0) rfl
    (fun j _ _ => by simp [List.getElem?_replicate]; split <;> rfl) fun _ _ _ _ _ hj => hj
  unfold BestSubset.rep
  dsimp only
  split_ifs
  · exact hfirst
  · refine hfirst.pass (f := fun s i => !s.vfIncluded.getD i false) (k := 0) rfl
      (fun j _ hj => by simpa using hj) fun t coin i j hij hj => ?_
    rwa [getD_addCoin (Nat.ne_of_lt hij)] at hj

theorem Sound.repeats {bits : Nat → Nat → Bool} {iterations : Nat}
    (hbest : s.nBest = subsetValue vValue s.vfBest) (hreached : nTargetValue ≤ s.nBest) :
    let t := repeats bits nTargetValue vValue iterations s
    t.nBest = subsetValue vValue t.vfBest ∧ nTargetValue ≤ t.nBest := by
  induction iterations generalizing s with
  | zero => exact ⟨hbest, hreached⟩
  | succ iterations ih =>
    unfold BestSubset.repeats
    dsimp only
    split_ifs
    · exact ⟨hbest, hreached⟩
    · have hrep := Sound.rep (bits iterations) hbest hreached
      exact ih hrep.best hrep.reached

end BestSubset

/-- **`ApproximateBestSubset`**: whatever is drawn, `nBest` is the sum of the subset, and reaches the
target if the sum of all does. -/
theorem approximateBestSubset_spec (bits : Nat → Nat → Bool) {vValue : List COutput}
    {nTotalLower nTargetValue : Int} (htotal : nTotalLower = coinsValue vValue)
    (hreached : nTargetValue ≤ nTotalLower) :
    let best := approximateBestSubset bits vValue nTotalLower nTargetValue
    best.2 = subsetValue vValue best.1 ∧ nTargetValue ≤ best.2 := by
  refine BestSubset.Sound.repeats ?_ hreached
  rw [subsetValue_replicate_true]
  exact htotal

/-! ### Sorting the coins -/

section SortCoins

variable {env : WalletEnv} {chain : ChainView} {w : CWallet} {nSpendTime : Option Nat}
  {nTargetValue nConfMine nConfTheirs : Int}

/-- **What the loop over the coins found** among those that are eligible: one of the value, or the small
ones and one of the others, if there is any. -/
def Sorted.Of (nTargetValue : Int) (coins : List COutput) : Sorted → Prop
  | .exact coin => coin ∈ coins ∧ coin.nValue = nTargetValue
  | .split vValue nTotalLower coinLowestLarger =>
    vValue = coins.filter (fun coin => decide (coin.nValue < nTargetValue + CENT)) ∧
      nTotalLower = coinsValue vValue ∧
      (∀ coin ∈ coinLowestLarger, coin ∈ coins ∧ nTargetValue + CENT ≤ coin.nValue) ∧
      (coinLowestLarger = none → ∀ coin ∈ coins, coin.nValue < nTargetValue + CENT)

theorem wrapInt64_eq {n : Int} (hpos : 0 ≤ n) (hlt : n < 2 ^ 63) : wrapInt64 n = n :=
  Int.bmod_eq_of_le (by omega) (by omega)

theorem wrapInt64_target (h : InReach nTargetValue) : wrapInt64 (nTargetValue + CENT) = nTargetValue + CENT := by
  have hCENT : (0 : Int) ≤ CENT := by decide
  exact wrapInt64_eq (by have := h.1; omega) h.2

theorem coinsValue_le_of_sublist {coins coins' : List COutput} (hsub : coins.Sublist coins')
    (h : ∀ coin ∈ coins', 0 ≤ coin.nValue) : coinsValue coins ≤ coinsValue coins' := by
  induction hsub with
  | slnil => exact le_refl _
  | @cons coins coins' coin _ ih =>
    have hcoin := h coin List.mem_cons_self
    have hrest := ih fun c hc => h c (List.mem_cons_of_mem coin hc)
    simp only [coinsValue, List.map_cons, List.sum_cons] at hrest ⊢
    omega
  | @cons_cons coins coins' coin _ ih =>
    have hrest := ih fun c hc => h c (List.mem_cons_of_mem coin hc)
    simp only [coinsValue, List.map_cons, List.sum_cons] at hrest ⊢
    omega

theorem coinsValue_nonneg {coins : List COutput} (h : ∀ coin ∈ coins, moneyRange coin.nValue = true) :
    0 ≤ coinsValue coins :=
  coinsValue_le_of_sublist (List.nil_sublist coins) fun coin hmem => (moneyRange_iff.mp (h coin hmem)).1

section Step

variable {coin : COutput} {vCoins vValue : List COutput} {nTotalLower : Int} {coinLowestLarger : Option COutput}

theorem eligibleCoins_cons_of_neg (hnot : ¬ Eligible env chain w nSpendTime nConfMine nConfTheirs coin) :
    eligibleCoins env chain w nSpendTime nConfMine nConfTheirs (coin :: vCoins) =
      eligibleCoins env chain w nSpendTime nConfMine nConfTheirs vCoins := by
  rw [eligibleCoins, List.filter_cons_of_neg (by simpa using hnot)]
  rfl

theorem eligibleCoins_cons_of_pos (hyes : Eligible env chain w nSpendTime nConfMine nConfTheirs coin) :
    eligibleCoins env chain w nSpendTime nConfMine nConfTheirs (coin :: vCoins) =
      coin :: eligibleCoins env chain w nSpendTime nConfMine nConfTheirs vCoins := by
  rw [eligibleCoins, List.filter_cons_of_pos (by simpa using hyes)]
  rfl

/-- **A coin that is not eligible** is passed over. -/
theorem sortCoinsAt_skip {sorted : Sorted}
    (hnot : ¬ Eligible env chain w nSpendTime nConfMine nConfTheirs coin)
    (hsort : sortCoinsAt env chain w nSpendTime nTargetValue nConfMine nConfTheirs (coin :: vCoins) vValue
      nTotalLower coinLowestLarger = some sorted) :
    sortCoinsAt env chain w nSpendTime nTargetValue nConfMine nConfTheirs vCoins vValue nTotalLower
      coinLowestLarger = some sorted := by
  unfold sortCoinsAt at hsort
  cases hmine : coin.tx.isFromMe env w chain with
  | none =>
    rw [hmine] at hsort
    cases hsort
  | some fFromMe =>
    rw [hmine] at hsort
    dsimp only at hsort
    by_cases hdepth : coin.nDepth < (if fFromMe then nConfMine else nConfTheirs)
    · rwa [if_pos hdepth] at hsort
    · by_cases htime : ∃ time ∈ nSpendTime, coin.tx.nTime > time
      · rwa [if_neg hdepth, if_pos htime] at hsort
      · exact absurd ⟨fFromMe, hmine, not_lt.mp hdepth, fun time hin =>
          Nat.not_lt.mp fun hnew => htime ⟨time, hin, hnew⟩⟩ hnot

/-- **An eligible coin** is the payment, one of the small ones, or one of the others. -/
theorem sortCoinsAt_take (hyes : Eligible env chain w nSpendTime nConfMine nConfTheirs coin) :
    sortCoinsAt env chain w nSpendTime nTargetValue nConfMine nConfTheirs (coin :: vCoins) vValue nTotalLower
      coinLowestLarger =
    if coin.nValue = nTargetValue then some (.exact coin)
    else if coin.nValue < wrapInt64 (nTargetValue + CENT) then
      sortCoinsAt env chain w nSpendTime nTargetValue nConfMine nConfTheirs vCoins (vValue ++ [coin])
        (wrapInt64 (nTotalLower + coin.nValue)) coinLowestLarger
    else
      sortCoinsAt env chain w nSpendTime nTargetValue nConfMine nConfTheirs vCoins vValue nTotalLower
        (if coin.nValue < (coinLowestLarger.map COutput.nValue).getD (2 ^ 63 - 1) then some coin
          else coinLowestLarger) := by
  obtain ⟨fFromMe, hmine, hdeep, htime⟩ := hyes
  have hnone : ¬ ∃ time ∈ nSpendTime, coin.tx.nTime > time := fun ⟨time, hin, hnew⟩ =>
    absurd (htime time hin) (Nat.not_le.mpr hnew)
  rw [sortCoinsAt, hmine]
  dsimp only
  rw [if_neg (not_lt.mpr hdeep), if_neg hnone]
  split_ifs <;> rfl

variable {seen : List COutput}

theorem Sorted.Of.lower (h : Sorted.Of nTargetValue seen (.split vValue nTotalLower coinLowestLarger))
    (hlower : coin.nValue < nTargetValue + CENT) :
    Sorted.Of nTargetValue (seen ++ [coin])
      (.split (vValue ++ [coin]) (nTotalLower + coin.nValue) coinLowestLarger) := by
  obtain ⟨hvalue, htotal, hlarger, hnone⟩ := h
  refine ⟨?_, ?_, ?_, ?_⟩
  · rw [List.filter_append, hvalue]
    simp [hlower]
  · rw [htotal]
    simp [coinsValue]
  · intro c hc
    exact ⟨List.mem_append_left _ (hlarger c hc).1, (hlarger c hc).2⟩
  · intro hno c hc
    rcases List.mem_append.mp hc with hc | hc
    · exact hnone hno c hc
    · rwa [List.mem_singleton.mp hc]

theorem Sorted.Of.larger (h : Sorted.Of nTargetValue seen (.split vValue nTotalLower coinLowestLarger))
    (hcoin : moneyRange coin.nValue = true) (hlower : ¬ coin.nValue < nTargetValue + CENT) :
    Sorted.Of nTargetValue (seen ++ [coin]) (.split vValue nTotalLower
      (if coin.nValue < (coinLowestLarger.map COutput.nValue).getD (2 ^ 63 - 1) then some coin
        else coinLowestLarger)) := by
  obtain ⟨hvalue, htotal, hlarger, hnone⟩ := h
  have hfilter : vValue = (seen ++ [coin]).filter fun c => decide (c.nValue < nTargetValue + CENT) := by
    rw [List.filter_append, ← hvalue]
    simp [hlower]
  split_ifs with hleast
  · refine ⟨hfilter, htotal, ?_, nofun⟩
    rintro c ⟨⟩
    exact ⟨List.mem_append_right _ List.mem_cons_self, not_lt.mp hlower⟩
  · refine ⟨hfilter, htotal, ?_, ?_⟩
    · intro c hc
      exact ⟨List.mem_append_left _ (hlarger c hc).1, (hlarger c hc).2⟩
    · rintro rfl
      -- no amount in range reaches what stands for no coin
      refine absurd ?_ hleast
      have hmax : MAX_MONEY < 2 ^ 63 - 1 := by decide
      exact lt_of_le_of_lt (moneyRange_iff.mp hcoin).2 hmax

end Step

theorem sortCoinsAt_spec {vCoins vValue : List COutput} (seen : List COutput) {nTotalLower : Int}
    {coinLowestLarger : Option COutput} {sorted : Sorted} (hreach : InReach nTargetValue)
    (hsort : sortCoinsAt env chain w nSpendTime nTargetValue nConfMine nConfTheirs vCoins vValue
      nTotalLower coinLowestLarger = some sorted) (hrange : ∀ coin ∈ vCoins, moneyRange coin.nValue = true)
    (hpos : 0 ≤ nTotalLower) (hsum : nTotalLower + coinsValue vCoins < 2 ^ 63)
    (hseen : Sorted.Of nTargetValue seen (.split vValue nTotalLower coinLowestLarger)) :
    (∃ coin, sorted = .exact coin ∧ coin.nValue = nTargetValue ∧
      coin ∈ eligibleCoins env chain w nSpendTime nConfMine nConfTheirs vCoins) ∨
    ∃ vValue nTotalLower coinLowestLarger, sorted = .split vValue nTotalLower coinLowestLarger ∧
      sorted.Of nTargetValue (seen ++ eligibleCoins env chain w nSpendTime nConfMine nConfTheirs vCoins) := by
  induction vCoins generalizing seen vValue nTotalLower coinLowestLarger with
  | nil =>
    cases hsort
    exact .inr ⟨_, _, _, rfl, by simpa [eligibleCoins] using hseen⟩
  | cons coin vCoins ih =>
    have hcoin := hrange coin List.mem_cons_self
    have hle := (moneyRange_iff.mp hcoin).1
    have hrest : ∀ coin ∈ vCoins, moneyRange coin.nValue = true :=
      fun c hc => hrange c (List.mem_cons_of_mem coin hc)
    have hrestsum := coinsValue_nonneg hrest
    have hcons : coinsValue (coin :: vCoins) = coin.nValue + coinsValue vCoins := List.sum_cons
    by_cases heligible : Eligible env chain w nSpendTime nConfMine nConfTheirs coin
    · rw [sortCoinsAt_take heligible, wrapInt64_target hreach] at hsort
      have happend : seen ++ eligibleCoins env chain w nSpendTime nConfMine nConfTheirs (coin :: vCoins) =
          (seen ++ [coin]) ++ eligibleCoins env chain w nSpendTime nConfMine nConfTheirs vCoins := by
        rw [eligibleCoins_cons_of_pos heligible, List.append_assoc]
        rfl
      rw [happend]
      have hlater : ∀ c, c ∈ eligibleCoins env chain w nSpendTime nConfMine nConfTheirs vCoins →
          c ∈ eligibleCoins env chain w nSpendTime nConfMine nConfTheirs (coin :: vCoins) := fun c hc => by
        rw [eligibleCoins_cons_of_pos heligible]
        exact List.mem_cons_of_mem coin hc
      by_cases hexact : coin.nValue = nTargetValue
      · rw [if_pos hexact] at hsort
        cases hsort
        refine .inl ⟨coin, rfl, hexact, ?_⟩
        rw [eligibleCoins_cons_of_pos heligible]
        exact List.mem_cons_self
      rw [if_neg hexact] at hsort
      by_cases hlower : coin.nValue < nTargetValue + CENT
      · rw [if_pos hlower, wrapInt64_eq (by omega) (by omega)] at hsort
        exact (ih (seen ++ [coin]) hsort hrest (by omega) (by omega) (hseen.lower hlower)).imp_left
          fun ⟨c, hc, hv, hin⟩ => ⟨c, hc, hv, hlater c hin⟩
      · rw [if_neg hlower] at hsort
        exact (ih (seen ++ [coin]) hsort hrest hpos (by omega) (hseen.larger hcoin hlower)).imp_left
          fun ⟨c, hc, hv, hin⟩ => ⟨c, hc, hv, hlater c hin⟩
    · rw [eligibleCoins_cons_of_neg heligible]
      exact ih seen (sortCoinsAt_skip heligible hsort) hrest hpos (by omega) hseen

end SortCoins

/-! ### What is returned -/

section Select

variable {env : WalletEnv} {chain : ChainView} {w : CWallet} {nSpendTime : Option Nat}
  {nTargetValue nConfMine nConfTheirs : Int} {vCoins : List COutput}

variable {coins : List COutput}

theorem coinsRet_of_nodup (h : (coins.map (COutput.outpoint env)).Nodup) :
    coinsRet env coins = (coins, coinsValue coins) := by
  suffices ∀ (setCoins : List COutput), ((setCoins ++ coins).map (COutput.outpoint env)).Nodup →
      coins.foldl (insertCoin env) setCoins = setCoins ++ coins by
    rw [coinsRet, this [] h]
    rfl
  clear h
  induction coins with
  | nil =>
    intro setCoins _
    rw [List.append_nil]
    rfl
  | cons coin coins ih =>
    intro setCoins hnodup
    have hnew : insertCoin env setCoins coin = setCoins ++ [coin] := by
      refine if_neg ?_
      rw [List.any_eq_true]
      rintro ⟨coin', hmem, heq⟩
      rw [List.map_append, List.nodup_append] at hnodup
      exact hnodup.2.2 _ (List.mem_map_of_mem hmem) _ List.mem_cons_self (of_decide_eq_true heq)
    rw [List.foldl_cons, hnew, ih (setCoins ++ [coin]) (by rwa [List.append_assoc]),
      List.append_assoc]
    rfl

theorem nValue_le_coinsValue {coin : COutput} (hmem : coin ∈ coins)
    (h : ∀ coin ∈ coins, 0 ≤ coin.nValue) : coin.nValue ≤ coinsValue coins := by
  have hsub := coinsValue_le_of_sublist (List.singleton_sublist.mpr hmem) h
  simpa [coinsValue] using hsub

theorem subsetCoins_sublist (vValue : List COutput) (vf : List Bool) :
    (subsetCoins vValue vf).Sublist vValue := by
  have hsub := (List.filter_sublist (l := vValue.zipIdx)
    (p := fun coin => vf.getD coin.2 false)).map Prod.fst
  rwa [List.zipIdx_map_fst] at hsub

theorem selectSubset_eq (choice : Choice) {nTotalLower : Int} {vValue : List COutput}
    (htotal : nTotalLower = coinsValue vValue) (hreached : nTargetValue ≤ nTotalLower)
    (coinLowestLarger : Option COutput) :
    ∃ best : List Bool × Int, best.2 = subsetValue (choice.sort vValue) best.1 ∧
      nTargetValue ≤ best.2 ∧
      selectSubset choice nTargetValue nTotalLower vValue coinLowestLarger =
        match coinLowestLarger with
        | none => subsetCoins (choice.sort vValue) best.1
        | some coin =>
          if (best.2 ≠ nTargetValue ∧ best.2 < nTargetValue + CENT) ∨ coin.nValue ≤ best.2 then
            [coin]
          else subsetCoins (choice.sort vValue) best.1 := by
  have hsorted : nTotalLower = coinsValue (choice.sort vValue) :=
    htotal.trans ((choice.sort_perm vValue).map _).sum_eq.symm
  have hCENT : (0 : Int) ≤ CENT := by decide
  obtain ⟨hfirst, hfirstle⟩ := approximateBestSubset_spec (choice.bits false) hsorted hreached
  unfold selectSubset
  dsimp only
  split_ifs with hagain
  · obtain ⟨hsum, hle⟩ := approximateBestSubset_spec (choice.bits true) hsorted hagain.2
    exact ⟨_, hsum, by omega, rfl⟩
  · exact ⟨_, hfirst, hfirstle, rfl⟩

/-- **The subset that is taken** reaches the target: it is the coin that is larger, or the best subset. -/
theorem selectSubset_spec (choice : Choice) {nTotalLower : Int} {vValue : List COutput}
    {coinLowestLarger : Option COutput} (htotal : nTotalLower = coinsValue vValue)
    (hreached : nTargetValue ≤ nTotalLower)
    (hlarger : ∀ coin ∈ coinLowestLarger, nTargetValue + CENT ≤ coin.nValue) : nTargetValue ≤
        coinsValue (selectSubset choice nTargetValue nTotalLower vValue coinLowestLarger) ∧
      ((∃ coin, coinLowestLarger = some coin ∧
        selectSubset choice nTargetValue nTotalLower vValue coinLowestLarger = [coin]) ∨
        ∃ vf, selectSubset choice nTargetValue nTotalLower vValue coinLowestLarger =
          subsetCoins (choice.sort vValue) vf) := by
  obtain ⟨best, hsum, hle, heq⟩ := selectSubset_eq choice htotal hreached coinLowestLarger
  have hsubset : nTargetValue ≤ coinsValue (subsetCoins (choice.sort vValue) best.1) := by
    rw [coinsValue_subsetCoins, ← hsum]
    exact hle
  rw [heq]
  cases coinLowestLarger with
  | none => exact ⟨hsubset, .inr ⟨best.1, rfl⟩⟩
  | some coin =>
    have hcoin := hlarger coin rfl
    dsimp only
    split_ifs
    · refine ⟨?_, .inl ⟨coin, rfl, rfl⟩⟩
      have hone : coinsValue [coin] = coin.nValue := by simp [coinsValue]
      have hCENT : (0 : Int) ≤ CENT := by decide
      omega
    · exact ⟨hsubset, .inr ⟨best.1, rfl⟩⟩

theorem coinsRetAt_of_nodup (h : (coins.map (COutput.outpoint env)).Nodup) (hpos : 0 ≤ coinsValue coins)
    (hlt : coinsValue coins < 2 ^ 63) : coinsRetAt env coins = (coins, coinsValue coins) := by
  rw [coinsRetAt, coinsRet_of_nodup h, wrapInt64_eq hpos hlt]

theorem answers_true (hreach : InReach nTargetValue)
    (hlt : coinsValue (eligibleCoins env chain w nSpendTime nConfMine nConfTheirs vCoins) < 2 ^ 63)
    (hin : ∀ coin ∈ coins, coin ∈ eligibleCoins env chain w nSpendTime nConfMine nConfTheirs vCoins)
    (hnodup : (coins.map (COutput.outpoint env)).Nodup) (henough : nTargetValue ≤ coinsValue coins)
    (hle : coinsValue coins ≤
      coinsValue (eligibleCoins env chain w nSpendTime nConfMine nConfTheirs vCoins)) :
    Answers env chain w nSpendTime nTargetValue nConfMine nConfTheirs vCoins true
      (coinsRetAt env coins).1 (coinsRetAt env coins).2 := by
  have hpos := hreach.1
  rw [coinsRetAt_of_nodup hnodup (by omega) (by omega)]
  exact ⟨iff_of_true rfl (henough.trans hle), fun _ => hin, fun _ => rfl, fun _ => henough⟩

/-- **`SelectCoinsMinConf`**, whatever is drawn. -/
theorem selectCoinsMinConfAt_spec (choice : Choice) (hlisted : Listed env vCoins) (hsum : Summable vCoins)
    (hreach : InReach nTargetValue)
    {fOk : Bool} {setCoinsRet : List COutput} {nValueRet : Int}
    (h : selectCoinsMinConfAt env chain w nSpendTime choice nTargetValue nConfMine nConfTheirs vCoins =
      some (fOk, setCoinsRet, nValueRet)) :
    Answers env chain w nSpendTime nTargetValue nConfMine nConfTheirs vCoins fOk setCoinsRet nValueRet := by
  unfold selectCoinsMinConfAt at h
  have hperm := choice.shuffle_perm vCoins
  have heligible : (eligibleCoins env chain w nSpendTime nConfMine nConfTheirs
      (choice.shuffle vCoins)).Perm
      (eligibleCoins env chain w nSpendTime nConfMine nConfTheirs vCoins) := hperm.filter _
  have hvalue : coinsValue (eligibleCoins env chain w nSpendTime nConfMine nConfTheirs
      (choice.shuffle vCoins)) =
      coinsValue (eligibleCoins env chain w nSpendTime nConfMine nConfTheirs vCoins) :=
    (heligible.map _).sum_eq
  have hlt : coinsValue (eligibleCoins env chain w nSpendTime nConfMine nConfTheirs vCoins) < 2 ^ 63 :=
    lt_of_le_of_lt (coinsValue_le_of_sublist List.filter_sublist fun coin hmem =>
      (moneyRange_iff.mp (hlisted.inRange coin hmem)).1) hsum
  generalize hcoins : eligibleCoins env chain w nSpendTime nConfMine nConfTheirs
    (choice.shuffle vCoins) = coins at heligible hvalue
  have hnodup : (coins.map (COutput.outpoint env)).Nodup := by
    rw [(heligible.map _).nodup_iff]
    exact hlisted.distinct.sublist (List.filter_sublist.map _)
  have hpos : ∀ coin ∈ coins, 0 ≤ coin.nValue := fun coin hmem =>
    (moneyRange_iff.mp (hlisted.inRange coin
      (List.mem_of_mem_filter (heligible.mem_iff.mp hmem)))).1
  have hone : ∀ coin ∈ coins, nTargetValue ≤ coin.nValue →
      Answers env chain w nSpendTime nTargetValue nConfMine nConfTheirs vCoins true
        (coinsRetAt env [coin]).1 (coinsRetAt env [coin]).2 := by
    intro coin hmem hle
    have hsingle : coinsValue [coin] = coin.nValue := by simp [coinsValue]
    refine answers_true hreach hlt ?_ (List.nodup_singleton _) (by omega) ?_
    · rintro c hc
      rw [List.mem_singleton.mp hc]
      exact heligible.mem_iff.mp hmem
    · rw [hsingle, ← hvalue]
      exact nValue_le_coinsValue hmem hpos
  cases hsort : sortCoinsAt env chain w nSpendTime nTargetValue nConfMine nConfTheirs
    (choice.shuffle vCoins) [] 0 none with
  | none =>
    rw [hsort] at h
    cases h
  | some sorted =>
    have hshuffled : coinsValue (choice.shuffle vCoins) < 2 ^ 63 :=
      lt_of_eq_of_lt (hperm.map _).sum_eq hsum
    have hspec := sortCoinsAt_spec [] hreach hsort
      (fun coin hmem => hlisted.inRange coin (hperm.mem_iff.mp hmem)) le_rfl (by rwa [zero_add])
      ⟨rfl, rfl, fun _ hc => (nomatch hc), fun _ _ hc => (nomatch hc)⟩
    rw [hcoins, List.nil_append] at hspec
    rw [hsort] at h
    obtain ⟨coin, rfl, hexact, hmem⟩ | ⟨vValue, nTotalLower, coinLowestLarger, rfl, hsplit⟩ := hspec
    · cases h
      exact hone coin hmem hexact.ge
    · obtain ⟨hlow, htotal, hlarger, hnone⟩ := hsplit
      have hsub : vValue.Sublist coins := hlow ▸ List.filter_sublist
      dsimp only at h
      split_ifs at h with hequal hless
      · cases h
        refine answers_true hreach hlt (fun coin hmem => heligible.mem_iff.mp (hsub.subset hmem))
          (hnodup.sublist (hsub.map _)) (by omega) ?_
        rw [← hvalue]
        exact coinsValue_le_of_sublist hsub hpos
      · cases coinLowestLarger with
        | none =>
          -- all eligible coins are small, and do not reach the target
          cases h
          have hall : vValue = coins := by
            rw [hlow]
            exact List.filter_eq_self.mpr fun coin hmem =>
              decide_eq_true (hnone rfl coin hmem)
          refine ⟨iff_of_false Bool.false_ne_true ?_, nofun, nofun, nofun⟩
          rw [← hvalue, ← hall, ← htotal]
          exact not_le.mpr hless
        | some coin =>
          cases h
          obtain ⟨hmem, hle⟩ := hlarger coin rfl
          have hCENT : (0 : Int) ≤ CENT := by decide
          exact hone coin hmem (by omega)
      · cases h
        have hreached : nTargetValue ≤ nTotalLower := by omega
        obtain ⟨henough, htaken⟩ := selectSubset_spec choice htotal hreached fun coin hcoin =>
          (hlarger coin hcoin).2
        rcases htaken with ⟨coin, hsome, hcoin⟩ | ⟨vf, hsubset⟩
        · rw [hcoin] at henough ⊢
          have hsingle : coinsValue [coin] = coin.nValue := by simp [coinsValue]
          exact hone coin (hlarger coin hsome).1 (by omega)
        · rw [hsubset] at henough ⊢
          have hsublist := subsetCoins_sublist (choice.sort vValue) vf
          have hsort := choice.sort_perm vValue
          refine answers_true hreach hlt ?_ ?_ henough ?_
          · intro coin hmem
            exact heligible.mem_iff.mp (hsub.subset (hsort.mem_iff.mp (hsublist.subset hmem)))
          · have hvalues : ((choice.sort vValue).map (COutput.outpoint env)).Nodup := by
              rw [(hsort.map _).nodup_iff]
              exact hnodup.sublist (hsub.map _)
            exact hvalues.sublist (hsublist.map _)
          · have hle := coinsValue_le_of_sublist hsublist fun coin hmem =>
              hpos coin (hsub.subset (hsort.mem_iff.mp hmem))
            have hsum : coinsValue (choice.sort vValue) = coinsValue vValue := (hsort.map _).sum_eq
            have hall := coinsValue_le_of_sublist hsub hpos
            omega

/-- It returns wherever `IsFromMe` does not throw. -/
theorem selectCoinsMinConfAt_isSome (choice : Choice)
    (h : ∀ coin ∈ vCoins, (coin.tx.isFromMe env w chain).isSome = true) :
    (selectCoinsMinConfAt env chain w nSpendTime choice nTargetValue nConfMine nConfTheirs
      vCoins).isSome = true := by
  have hsort : ∀ (vCoins vValue : List COutput) (nTotalLower : Int)
      (coinLowestLarger : Option COutput),
      (∀ coin ∈ vCoins, (coin.tx.isFromMe env w chain).isSome = true) →
      ∃ sorted, sortCoinsAt env chain w nSpendTime nTargetValue nConfMine nConfTheirs vCoins vValue
        nTotalLower coinLowestLarger = some sorted := by
    intro vCoins
    induction vCoins with
    | nil => exact fun _ _ _ _ => ⟨_, rfl⟩
    | cons coin vCoins ih =>
      intro vValue nTotalLower coinLowestLarger hall
      obtain ⟨fFromMe, hmine⟩ := Option.isSome_iff_exists.mp (hall coin List.mem_cons_self)
      have hrest := fun vValue nTotalLower coinLowestLarger =>
        ih vValue nTotalLower coinLowestLarger fun c hc => hall c (List.mem_cons_of_mem coin hc)
      unfold sortCoinsAt
      rw [hmine]
      dsimp only
      generalize (if fFromMe = true then nConfMine else nConfTheirs) = nConf
      split_ifs
      · exact hrest _ _ _
      · exact hrest _ _ _
      · exact ⟨_, rfl⟩
      · exact hrest _ _ _
      · exact hrest _ _ _
      · exact hrest _ _ _
  obtain ⟨sorted, hsorted⟩ := hsort (choice.shuffle vCoins) [] 0 none fun coin hmem =>
    h coin ((choice.shuffle_perm vCoins).mem_iff.mp hmem)
  unfold selectCoinsMinConfAt
  rw [hsorted]
  cases sorted with
  | exact coin => rfl
  | split vValue nTotalLower coinLowestLarger =>
    dsimp only
    split_ifs
    · rfl
    · cases coinLowestLarger <;> rfl
    · rfl

theorem eligibleCoins_mono {nConfMine' nConfTheirs' : Int} (hmine : nConfMine' ≤ nConfMine)
    (htheirs : nConfTheirs' ≤ nConfTheirs) (h : ∀ coin ∈ vCoins, 0 ≤ coin.nValue) :
    coinsValue (eligibleCoins env chain w nSpendTime nConfMine nConfTheirs vCoins) ≤
      coinsValue (eligibleCoins env chain w nSpendTime nConfMine' nConfTheirs' vCoins) := by
  refine coinsValue_le_of_sublist ?_ fun coin hmem => h coin (List.mem_of_mem_filter hmem)
  refine List.monotone_filter_right vCoins fun coin hcoin => ?_
  obtain ⟨fFromMe, hfrom, hdeep, htime⟩ := of_decide_eq_true hcoin
  refine decide_eq_true ⟨fFromMe, hfrom, ?_, htime⟩
  cases fFromMe with
  | true => exact hmine.trans hdeep
  | false => exact htheirs.trans hdeep

end Select

/-- **Coin selection**, of coins that can be summed. Whatever is drawn, `SelectCoinsMinConf` returns true exactly when the eligible coins
reach the target, and then eligible coins with their value; `SelectCoins` without coin control returns true
exactly when the coins that its loosest pass admits reach the target. -/
theorem selectCoins_exact (env : WalletEnv) (chain : ChainView) (w : CWallet)
    (nSpendTime : Option Nat) (nTargetValue : Int) (hreach : InReach nTargetValue) :
    (∀ (choice : Choice) (nConfMine nConfTheirs : Int) (vCoins : List COutput),
      Listed env vCoins → Summable vCoins →
        ((∀ coin ∈ vCoins, (coin.tx.isFromMe env w chain).isSome = true) →
          (selectCoinsMinConfAt env chain w nSpendTime choice nTargetValue nConfMine nConfTheirs
            vCoins).isSome = true) ∧
        ∀ fOk setCoinsRet nValueRet,
          selectCoinsMinConfAt env chain w nSpendTime choice nTargetValue nConfMine nConfTheirs vCoins =
            some (fOk, setCoinsRet, nValueRet) →
          Answers env chain w nSpendTime nTargetValue nConfMine nConfTheirs vCoins fOk setCoinsRet
            nValueRet) ∧
    ∀ (rounds : Nat) (choice : Fin 3 → Choice) (coinControl : Option CCoinControl)
      (vCoins : List COutput), NoneSelected coinControl →
      availableCoinsAt env chain w nSpendTime rounds coinControl = some vCoins →
      Listed env vCoins → Summable vCoins →
      ∀ fOk setCoinsRet nValueRet,
        selectCoinsAt env chain w nSpendTime rounds choice nTargetValue coinControl =
          some (fOk, setCoinsRet, nValueRet) →
        (fOk = true ↔
          nTargetValue ≤ coinsValue (eligibleCoins env chain w nSpendTime 0 1 vCoins)) := by
  refine ⟨fun choice nConfMine nConfTheirs vCoins hlisted hsum =>
    ⟨selectCoinsMinConfAt_isSome choice, fun _ _ _ => selectCoinsMinConfAt_spec choice hlisted hsum hreach⟩, ?_⟩
  intro rounds choice coinControl vCoins hnone havailable hlisted hsum fOk setCoinsRet nValueRet
    hselect
  have hpos : ∀ coin ∈ vCoins, 0 ≤ coin.nValue := fun coin hmem =>
    (moneyRange_iff.mp (hlisted.inRange coin hmem)).1
  have hnot : ¬ ∃ control ∈ coinControl, control.setSelected ≠ ∅ := fun ⟨control, hin, hne⟩ =>
    hne (hnone control hin)
  unfold selectCoinsAt at hselect
  rw [havailable] at hselect
  dsimp only at hselect
  rw [if_neg hnot] at hselect
  -- a strict pass that succeeds implies that the loosest would
  split at hselect
  · cases hselect
  · next hfirst =>
    cases hselect
    have hreached := (selectCoinsMinConfAt_spec _ hlisted hsum hreach hfirst).exactly.mp rfl
    exact iff_of_true rfl (hreached.trans (eligibleCoins_mono (by decide) (by decide) hpos))
  · split at hselect
    · cases hselect
    · next hsecond =>
      cases hselect
      have hreached := (selectCoinsMinConfAt_spec _ hlisted hsum hreach hsecond).exactly.mp rfl
      exact iff_of_true rfl (hreached.trans (eligibleCoins_mono (by decide) (by decide) hpos))
    · exact (selectCoinsMinConfAt_spec _ hlisted hsum hreach hselect).exactly

namespace SelectSample

/-- A transaction that pays 2, 4 and 3 CENT to the wallet. -/
def wtx : CWalletTx :=
  .ofTransaction ⟨1, 0, [⟨⟨7, 0⟩, [], 0⟩], [⟨2 * CENT, []⟩, ⟨4 * CENT, []⟩, ⟨3 * CENT, []⟩], 0⟩

def payee : CWallet where
  mapWallet := Finmap.singleton 0 wtx
  keystore := ⟨fun _ => true, fun _ => true, fun _ => true⟩
  mapAddressBook := ∅
  vchDefaultKey := none
  setLockedCoins := ∅

def coins : List COutput := [⟨wtx, 0, 1⟩, ⟨wtx, 1, 1⟩, ⟨wtx, 2, 1⟩]

/-- Nothing is shuffled, and the greatest coin is never drawn. -/
def choice : Choice where
  shuffle := id
  shuffle_perm := List.Perm.refl
  sort vValue := vValue.insertionSort fun coin coin' => coin'.nValue ≤ coin.nValue
  sort_perm vValue := vValue.perm_insertionSort _
  sort_sorted vValue :=
    have : Std.Total fun coin coin' : COutput => coin'.nValue ≤ coin.nValue := ⟨fun _ _ => le_total _ _⟩
    have : IsTrans COutput fun coin coin' => coin'.nValue ≤ coin.nValue := ⟨fun _ _ _ h h' => h'.trans h⟩
    vValue.pairwise_insertionSort _
  bits _ _ i := decide (0 < i)

/-- 189 coins whose sum is above `2 ^ 63`. -/
def rich : List COutput := (List.range 189).map fun i =>
  ⟨.ofTransaction ⟨1, 0, [⟨⟨7, 0⟩, [], 0⟩], [⟨49000000000000000, []⟩], i⟩, 0, 1⟩

end SelectSample

open LockSample SelectSample in
/-- A payment of 5 CENT is found by the subset search. -/
theorem selectCoins_exact_sample :
    (∃ setCoinsRet, selectCoinsMinConfAt env chain payee none choice (5 * CENT) 1 1 coins =
        some (true, setCoinsRet, 5 * CENT) ∧
      Answers env chain payee none (5 * CENT) 1 1 coins true setCoinsRet (5 * CENT)) ∧
    (∃ setCoinsRet, selectCoinsAt env chain payee none 0 (fun _ => choice) (5 * CENT) none =
        some (true, setCoinsRet, 5 * CENT)) ∧
      5 * CENT ≤ coinsValue (eligibleCoins env chain payee none 0 1 coins) := by
  have hlisted : Listed env coins := ⟨by decide, by decide⟩
  have hsum : Summable coins := by unfold Summable; decide
  have hkeys : payee.mapWallet.keys.sort (· ≤ ·) = [0] := by
    change (Finmap.keys (Finmap.singleton _ _)).sort _ = _
    rw [Finmap.keys_singleton, Finset.sort_singleton]
  have havailable : availableCoinsAt env chain payee none 0 none = some coins := by
    rw [availableCoinsAt, CWallet.availableCoins, hkeys]
    rfl
  have hret : ∃ setCoinsRet, selectCoinsAt env chain payee none 0 (fun _ => choice) (5 * CENT) none =
      some (true, setCoinsRet, 5 * CENT) := by
    rw [selectCoinsAt, havailable]
    exact ⟨_, rfl⟩
  obtain ⟨hmin, hselect⟩ := selectCoins_exact env chain payee none (5 * CENT) ⟨by decide, by decide⟩
  obtain ⟨-, hanswers⟩ := hmin choice 1 1 coins hlisted hsum
  obtain ⟨setCoinsRet, hret⟩ := hret
  refine ⟨⟨_, rfl, hanswers _ _ _ rfl⟩, ⟨setCoinsRet, hret⟩, ?_⟩
  exact (hselect 0 (fun _ => choice) none coins nofun havailable hlisted hsum _ _ _ hret).mp rfl

open LockSample SelectSample in
/-- **A sum that is no `int64_t`**: the coins reach the target, and are not found to. -/
theorem not_forall_selectCoins_exact : Listed env rich ∧
    (selectCoinsMinConfAt env chain payee none choice 50000000000000000 1 1 rich).map Prod.fst = some false ∧
    50000000000000000 ≤ coinsValue (eligibleCoins env chain payee none 1 1 rich) := by
  refine ⟨⟨?_, ?_⟩, ?_, ?_⟩
  · decide +kernel
  · decide +kernel
  · decide +kernel
  · decide +kernel

end Wallet

end Manna
