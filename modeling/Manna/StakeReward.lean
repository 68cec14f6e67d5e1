import Manna.MoneyString
import Manna.ScriptNum
import Manna.StakeKernel

/-!
The reward of a coin stake (`mannastake.cpp`: `PPCoin_StakeReward`, `GetSeigniorage`; `main.h`:
`GetProofOfStakeReward`; `main.cpp`: `CTransaction::GetCoinAge`, `CheckInputs`), as built with `PPCOINSTAKE`.

`GetProofOfStakeReward` asks `GetSeigniorage`, which for an age asks `GetProofOfStakeReward`; nobody asks
`PPCoin_StakeReward`. Calls have fuel.

* `getProofOfStakeReward_outcome`: no call comes back with a reward;
* `checkCoinStake_ne_ok`: no coin stake passes the check of its reward;
* `not_stakeReward`: the reward of an age, for every age.
-/

namespace Manna

open MoneyString CBigNum

def ppCoin_StakeReward (nCoinAge : Int) : Except Halt Int := do
  let nRewardCoinYear := CENT
  mulInt64 ((← mulInt64 nCoinAge 33).tdiv (365 * 33 + 8)) nRewardCoinYear

/-- `GetProofOfWorkReward(int)` of `mannastake.cpp`, which has no rewards for later heights. -/
def getProofOfWorkRewardStake (env : Env) (nHeight : Int) : Int :=
  if !env.fTestNet ∧ nHeight ≥ 300000 then 10 * COIN else getProofOfWorkReward env nHeight

mutual

def getSeigniorage (env : Env) : Nat → Option CBlockIndex → Int → Int → Option (Except Halt Int)
  | 0, _, _, _ => none
  | fuel + 1, block, _nFees, CoinAge =>
    if CoinAge = 0 then
      match block with
      | none => some (.error .undefined)
      | some block => some (.ok (getProofOfWorkRewardStake env block.nHeight))
    else getProofOfStakeReward env fuel CoinAge none

def getProofOfStakeReward (env : Env) : Nat → Int → Option CBlockIndex → Option (Except Halt Int)
  | 0, _, _ => none
  | fuel + 1, nCoinAge, pPrev =>
    if nCoinAge > 0 then getSeigniorage env fuel pPrev 0 nCoinAge else some (.error .assertion)

end

/-! ### Coin age -/

/-- What `GetCoinAge` looks up. -/
structure CoinAgeEnv where
  lib : OpenSSL
  /-- `nTime` of the coins of a transaction, if the view has them. -/
  getCoins : Uint256 → Option Nat
  /-- `ReadTxIndex`, if it finds the transaction, and then the time of its block and the transaction, if they
  can be read. -/
  readTxIndex : Uint256 → Option (Option (Int × CTransaction))

/-- The inputs of `GetCoinAge`: cent-seconds. -/
def coinAgeLoop (env : Env) (ages : CoinAgeEnv) (nTime : Nat) : List CTxIn → Int → Option Int
  | [], bnCentSecond => some bnCentSecond
  | txin :: vin, bnCentSecond =>
    match ages.getCoins txin.prevout.hash with
    | none => coinAgeLoop env ages nTime vin bnCentSecond
    | some coinsTime =>
      if nTime < coinsTime then none
      else if !env.fTxIndex then none
      else
        match ages.readTxIndex txin.prevout.hash with
        | none => none
        | some none => none
        | some (some (blockTime, txPrev)) =>
          if env.txHash txPrev ≠ txin.prevout.hash then none
          else if blockTime + nStakeMinAge > nTime then coinAgeLoop env ages nTime vin bnCentSecond
          else
            match txPrev.vout[txin.prevout.n]? with
            | none => none
            | some txout =>
              let age : Int := ((nTime : Int) - txPrev.nTime) % 2 ^ 32
              coinAgeLoop env ages nTime vin (bnCentSecond + (txout.nValue * age).tdiv CENT)

/-- `GetCoinAge`: coin-days. -/
def getCoinAge (env : Env) (ages : CoinAgeEnv) (tx : CTransaction) : Option UInt64 :=
  if tx.isCoinBase then some 0
  else (coinAgeLoop env ages tx.nTime tx.vin 0).map fun bnCentSecond =>
    getuint64 ages.lib (((bnCentSecond * CENT).tdiv COIN).tdiv (24 * 60 * 60))

def checkCoinStake (env : Env) (ages : CoinAgeEnv) (fuel : Nat) (tx : CTransaction) (pindexprev : CBlockIndex)
    (nValueIn : Int) : Option (Except Halt Unit) :=
  match getCoinAge env ages tx with
  | none => some (.error (.error "CheckInputs() : unable to get coin age for coinstake"))
  | some nCoinAge =>
    match tx.getValueOut >>= (subInt64 · nValueIn) with
    | .error e => some (.error e)
    | .ok nStakeReward =>
      (getProofOfStakeReward env fuel nCoinAge.toInt64.toInt (some pindexprev)).map fun reward => do
        let nBound ← subInt64 (← reward) (tx.getMinFee env.fees 1 false .block 0)
        let nBound ← addInt64 nBound env.fees.nMinTxFee
        if nStakeReward > nBound then
          .error (.dos 100 "CheckInputs() : stake reward exceeded" false)

/-- **The reward of an age**: the call comes back with the reward for that age, older coins get no less, and
the sums of the check are in the range of the type. -/
structure StakeReward (env : Env) (nCoinAge : Int) (pindexprev : CBlockIndex) : Prop where
  returns : ∃ fuel, getProofOfStakeReward env fuel nCoinAge (some pindexprev) =
    some (ppCoin_StakeReward nCoinAge)
  mono : ∀ older ≥ nCoinAge, ∀ fuel reward reward',
    getProofOfStakeReward env fuel nCoinAge (some pindexprev) = some (.ok reward) →
      getProofOfStakeReward env fuel older (some pindexprev) = some (.ok reward') → reward ≤ reward'
  fits : ∀ fuel reward nMinFee, moneyRange nMinFee →
    getProofOfStakeReward env fuel nCoinAge (some pindexprev) = some (.ok reward) →
      InInt64 (reward - nMinFee) ∧ InInt64 (reward - nMinFee + env.fees.nMinTxFee)

/-! ### No call comes back with a reward -/

variable (env : Env) {nCoinAge : Int}

/-- For an age each function asks the other one. -/
theorem rewards_of_pos (h : 0 < nCoinAge) (fuel : Nat) :
    (∀ block nFees, getSeigniorage env fuel block nFees nCoinAge = none) ∧
      ∀ pPrev, getProofOfStakeReward env fuel nCoinAge pPrev = none := by
  induction fuel with
  | zero => exact ⟨fun _ _ => by rw [getSeigniorage], fun _ => by rw [getProofOfStakeReward]⟩
  | succ fuel ih =>
    constructor
    · intro block nFees
      rw [getSeigniorage.eq_def]
      exact (if_neg h.ne').trans (ih.2 none)
    · intro pPrev
      rw [getProofOfStakeReward, if_pos h, ih.1]

/-- **The outcome of a call**: none, or the failed assertion where there is no age. -/
theorem getProofOfStakeReward_outcome (fuel : Nat) (nCoinAge : Int) (pPrev : Option CBlockIndex) :
    getProofOfStakeReward env fuel nCoinAge pPrev = none ∨
      nCoinAge ≤ 0 ∧ getProofOfStakeReward env fuel nCoinAge pPrev = some (.error .assertion) := by
  by_cases hage : 0 < nCoinAge
  · exact .inl ((rewards_of_pos env hage fuel).2 pPrev)
  · cases fuel with
    | zero => exact .inl (by rw [getProofOfStakeReward])
    | succ fuel => exact .inr ⟨not_lt.mp hage, by rw [getProofOfStakeReward, if_neg hage]⟩

/-- **No coin stake passes the check of its reward.** -/
theorem checkCoinStake_ne_ok (ages : CoinAgeEnv) (fuel : Nat) (tx : CTransaction) (pindexprev : CBlockIndex)
    (nValueIn : Int) : checkCoinStake env ages fuel tx pindexprev nValueIn ≠ some (.ok ()) := by
  unfold checkCoinStake
  split
  · nofun
  · next nCoinAge _ =>
    split
    · nofun
    · rcases getProofOfStakeReward_outcome env fuel nCoinAge.toInt64.toInt (some pindexprev) with h | ⟨-, h⟩
      · rw [h]
        nofun
      · rw [h]
        nofun

theorem ppCoin_StakeReward_eq (nCoinAge : Int) : ppCoin_StakeReward nCoinAge =
      if InInt64 (nCoinAge * 33) then toInt64 ((nCoinAge * 33).tdiv (365 * 33 + 8) * CENT)
      else .error .overflow := by
  unfold ppCoin_StakeReward mulInt64
  by_cases h : InInt64 (nCoinAge * 33)
  · rw [toInt64_of_inInt64 h, if_pos h]
    rfl
  · rw [toInt64, if_neg h, if_neg h]
    rfl

theorem ppCoin_StakeReward_ne_assertion (nCoinAge : Int) : ppCoin_StakeReward nCoinAge ≠ .error .assertion := by
  rw [ppCoin_StakeReward_eq, toInt64]
  split
  · split <;> nofun
  · nofun

/-- **The reward of a stake**: for no age does the code give it. -/
theorem not_stakeReward (env : Env) (nCoinAge : Int) (pindexprev : CBlockIndex) :
    ¬ StakeReward env nCoinAge pindexprev := by
  rintro ⟨⟨fuel, h⟩, -, -⟩
  rcases getProofOfStakeReward_outcome env fuel nCoinAge (some pindexprev) with hnone | ⟨-, hassert⟩
  · cases hnone.symm.trans h
  · have heq := Option.some.inj (hassert.symm.trans h)
    exact ppCoin_StakeReward_ne_assertion nCoinAge heq.symm

/-- At one coin-day each function asks the other one, and without a coin-day the assertion fails. -/
theorem not_forall_stakeReward :
    (∀ fuel, getProofOfStakeReward sampleEnv fuel 1 (some (sampleEntry 1 none 0 0)) = none) ∧
      getProofOfStakeReward sampleEnv 1 0 (some (sampleEntry 1 none 0 0)) = some (.error .assertion) ∧
      ¬ StakeReward sampleEnv 1 (sampleEntry 1 none 0 0) := by
  have hnone : ∀ fuel, getProofOfStakeReward sampleEnv fuel 1 (some (sampleEntry 1 none 0 0)) = none :=
    fun fuel => (rewards_of_pos sampleEnv (by decide) fuel).2 _
  refine ⟨hnone, rfl, ?_⟩
  rintro ⟨⟨fuel, h⟩, -, -⟩
  cases (hnone fuel).symm.trans h

end Manna
