import Manna.Lib.WeightedMap
import Manna.DisconnectBlock

/-!
Where value goes when a block is connected.

`totalValue` is the sum over all unspent outputs. One transaction moves it by what it
takes in and puts out (`totalValue_connectTransaction`); over the loop of `ConnectBlock`
the total, plus the fees, minus the coinbase outputs does not change
(`connectTransactions_flow`). The same bookkeeping bounds every sum the checks form, so none
of them leaves `int64_t`, and a block that does not connect is rejected, never worse
(`connectTransactions_rejects`).
-/

namespace Manna

open OpProg WeightedMap

/-! ### Totals -/

def Coin.value (coin : Coin) : Int := coin.txout.nValue

noncomputable def totalValue (u : Utxo) : Int := total Coin.value u

/-- A set of unspent outputs that can have come from checked transactions: finitely many,
each with an amount that is one. -/
structure Sound (u : Utxo) : Prop where
  finite : FiniteDom u
  range : ∀ out coin, u out = some coin → 0 ≤ coin.value ∧ coin.value ≤ MAX_MONEY

theorem Sound.empty : Sound fun _ => none :=
  ⟨finiteDom_none, fun _ _ h => by cases h⟩

theorem totalValue_empty : totalValue (fun _ => none) = 0 := total_none

theorem Utxo.eraseInputs_eq (u : Utxo) (vin : List CTxIn) :
    u.eraseInputs vin = eraseList u (vin.map (·.prevout)) := rfl

variable {u : Utxo} {vin : List CTxIn} {coins : List Coin} {tx : CTransaction} {nSpendHeight : Int}
  {env : Env} {params : ConnectParams} {state : ConnectState} {vtx : List CTransaction}

theorem Sound.eraseInputs (h : Sound u) (vin : List CTxIn) : Sound (u.eraseInputs vin) where
  finite := h.finite.eraseList _
  range out coin hcoin := by
    unfold Utxo.eraseInputs at hcoin
    split at hcoin
    · cases hcoin
    · exact h.range out coin hcoin

/-- The sum of the values of some coins. -/
def coinSum (coins : List Coin) : Int := (coins.map Coin.value).sum

theorem weightAt_coinsOf (h : coinsOf u vin = some coins) :
    ((vin.map (·.prevout)).map (weightAt Coin.value u)).sum = coinSum coins := by
  have hpairs := coinsOf_forall₂ h
  unfold coinSum
  clear h
  induction hpairs with
  | nil => rfl
  | cons hcoin _ ih =>
    rw [List.map_cons, List.map_cons, List.sum_cons, ih]
    simp [weightAt, hcoin]

theorem totalValue_eraseInputs (h : Sound u)
    (hnodup : (vin.map (·.prevout)).Nodup) (hcoins : coinsOf u vin = some coins) :
    totalValue (u.eraseInputs vin) = totalValue u - coinSum coins := by
  rw [Utxo.eraseInputs_eq, totalValue, total_eraseList h.finite hnodup, weightAt_coinsOf hcoins]
  rfl

/-- The coins of distinct inputs are worth no more than everything. -/
theorem coinSum_le_totalValue (h : Sound u)
    (hnodup : (vin.map (·.prevout)).Nodup) (hcoins : coinsOf u vin = some coins) :
    coinSum coins ≤ totalValue u := by
  have := sum_le_total h.finite (fun out coin hcoin => (h.range out coin hcoin).1) hnodup
  rwa [weightAt_coinsOf hcoins] at this

theorem Sound.coins_range (h : Sound u) (hcoins : coinsOf u vin = some coins) :
    ∀ coin ∈ coins, 0 ≤ coin.value ∧ coin.value ≤ MAX_MONEY := by
  have hpairs := coinsOf_forall₂ hcoins
  clear hcoins
  induction hpairs with
  | nil => exact fun coin hmem => absurd hmem List.not_mem_nil
  | cons hcoin _ ih => exact List.forall_mem_cons.mpr ⟨h.range _ _ hcoin, ih⟩

/-! ### Adding outputs -/

/-- The outputs of one hash, over a map. -/
def withOutputs (u : Utxo) (txhash : Uint256) (mk : CTxOut → Coin) (vout : List CTxOut) : Utxo :=
  fun o => if o.hash = txhash then vout[o.n]?.map mk else u o

theorem withOutputs_concat (u : Utxo) (txhash : Uint256) (mk : CTxOut → Coin) (vout : List CTxOut)
    (txout : CTxOut) : withOutputs u txhash mk (vout ++ [txout]) =
      Function.update (withOutputs u txhash mk vout) ⟨txhash, vout.length⟩ (some (mk txout)) := by
  funext o
  unfold withOutputs
  by_cases hlast : o = ⟨txhash, vout.length⟩
  · subst hlast
    simp
  · rw [Function.update_of_ne hlast]
    by_cases hhash : o.hash = txhash
    · have hne : o.n ≠ vout.length := fun heq => hlast (by cases o; simp_all)
      rw [if_pos hhash, if_pos hhash]
      rcases Nat.lt_or_ge o.n vout.length with hlt | hge
      · rw [List.getElem?_append_left hlt]
      · rw [List.getElem?_eq_none hge, List.getElem?_eq_none (by simp; omega)]
    · rw [if_neg hhash, if_neg hhash]

theorem valueSum_append (vout vout' : List CTxOut) :
    valueSum (vout ++ vout') = valueSum vout + valueSum vout' := by
  simp [valueSum]

theorem withOutputs_total (hfinite : FiniteDom u) {txhash : Uint256}
    (hfresh : ∀ n, u ⟨txhash, n⟩ = none) {mk : CTxOut → Coin}
    (hmk : ∀ txout, (mk txout).value = txout.nValue) (vout : List CTxOut) :
    FiniteDom (withOutputs u txhash mk vout) ∧
      totalValue (withOutputs u txhash mk vout) = totalValue u + valueSum vout := by
  induction vout using List.reverseRecOn with
  | nil =>
    have : withOutputs u txhash mk [] = u := by
      funext o
      unfold withOutputs
      split
      · next hhash => rw [show o = ⟨txhash, o.n⟩ from by rw [← hhash], hfresh]; rfl
      · rfl
    rw [this]
    exact ⟨hfinite, by simp⟩
  | append_singleton vout txout ih =>
    rw [withOutputs_concat]
    refine ⟨ih.1.update _ _, ?_⟩
    have hfree : weightAt Coin.value (withOutputs u txhash mk vout) ⟨txhash, vout.length⟩ = 0 := by
      simp [weightAt, withOutputs]
    rw [totalValue, total_update ih.1, hfree, valueSum_append, sub_zero, ← add_assoc, ← ih.2]
    simp [totalValue, hmk]

theorem addOutputs_eq (hchecked : Checked tx) (nHeight : Int) (txhash : Uint256) :
    u.addOutputs tx nHeight txhash =
      withOutputs u txhash (fun txout => ⟨txout, tx.isCoinBase, nHeight, tx.nVersion⟩) tx.vout := by
  funext o
  unfold Utxo.addOutputs withOutputs
  split
  · show (CCoins.output _ _).map _ = _
    congr 1
    unfold CCoins.output
    cases hget : tx.vout[o.n]? with
    | none => simp [CCoins.ofTx, hget]
    | some txout =>
      simp [CCoins.ofTx, hget, Option.filter,
        hchecked.not_isNull (List.mem_of_getElem? hget)]
  · rfl

theorem Sound.addOutputs (h : Sound u) (hchecked : Checked tx)
    (nHeight : Int) {txhash : Uint256} (hfresh : ∀ n, u ⟨txhash, n⟩ = none) :
    Sound (u.addOutputs tx nHeight txhash) ∧
      totalValue (u.addOutputs tx nHeight txhash) = totalValue u + valueSum tx.vout := by
  have hsum := withOutputs_total h.finite hfresh
    (fun txout => show Coin.value ⟨txout, tx.isCoinBase, nHeight, tx.nVersion⟩ = _ from rfl) tx.vout
  rw [← addOutputs_eq hchecked] at hsum
  refine ⟨⟨hsum.1, fun out coin hcoin => ?_⟩, hsum.2⟩
  rw [addOutputs_eq hchecked] at hcoin
  unfold withOutputs at hcoin
  split at hcoin
  · obtain ⟨txout, hget, rfl⟩ := Option.map_eq_some_iff.mp hcoin
    exact hchecked.value_range txout (List.mem_of_getElem? hget)
  · exact h.range out coin hcoin

/-! ### The sums of the checks -/

theorem sumValues_eq_ok {acc total : Int}
    (h : sumValues coins acc = .ok total) : total = acc + coinSum coins := by
  induction coins generalizing acc with
  | nil =>
    simp only [sumValues, Except.ok.injEq] at h
    simp [coinSum, h]
  | cons coin coins ih =>
    unfold sumValues at h
    split at h
    · cases h
    · next hadd =>
      obtain ⟨rfl, -⟩ := addInt64_eq_ok.mp hadd
      rw [ih h]
      simp only [coinSum, List.map_cons, List.sum_cons, Coin.value]
      omega

theorem sumValues_of_le {acc : Int} (hacc : 0 ≤ acc)
    (hcoins : ∀ coin ∈ coins, 0 ≤ coin.value) (hle : acc + coinSum coins ≤ int64Max) :
    sumValues coins acc = .ok (acc + coinSum coins) := by
  induction coins generalizing acc with
  | nil => simp [sumValues, coinSum]
  | cons coin coins ih =>
    rw [List.forall_mem_cons] at hcoins
    have hrest : 0 ≤ coinSum coins :=
      List.sum_nonneg fun v hv => by
        obtain ⟨c, hc, rfl⟩ := List.mem_map.mp hv
        exact hcoins.2 c hc
    have hcons : coinSum (coin :: coins) = coin.value + coinSum coins := by
      simp [coinSum]
    rw [hcons] at hle ⊢
    have hrange : InInt64 (acc + coin.txout.nValue) := by
      have := hcoins.1
      simp only [Coin.value] at *
      simp only [InInt64, int64Min, int64Max] at *
      omega
    unfold sumValues
    rw [show addInt64 acc coin.txout.nValue = .ok (acc + coin.value) from
      toInt64_of_inInt64 hrange]
    simp only
    rw [ih (by have := hcoins.1; omega) hcoins.2 (by omega), ← add_assoc]

theorem checkMaturityAndValue_eq_ok {acc total : Int}
    (h : checkMaturityAndValue nSpendHeight coins acc = .ok total) : total = acc + coinSum coins := by
  induction coins generalizing acc with
  | nil =>
    simp only [checkMaturityAndValue, Except.ok.injEq] at h
    simp [coinSum, h]
  | cons coin coins ih =>
    unfold checkMaturityAndValue at h
    split at h
    · cases h
    · split at h
      · cases h
      · next hadd =>
        obtain ⟨rfl, -⟩ := addInt64_eq_ok.mp hadd
        split at h
        · cases h
        · rw [ih h]
          simp only [coinSum, List.map_cons, List.sum_cons, Coin.value]
          omega

theorem checkMaturityAndValue_range {acc total : Int} (hacc : 0 ≤ acc ∧ acc ≤ MAX_MONEY)
    (h : checkMaturityAndValue nSpendHeight coins acc = .ok total) : 0 ≤ total ∧ total ≤ MAX_MONEY := by
  induction coins generalizing acc with
  | nil =>
    simp only [checkMaturityAndValue, Except.ok.injEq] at h
    exact h ▸ hacc
  | cons coin coins ih =>
    unfold checkMaturityAndValue at h
    split at h
    · cases h
    · split at h
      · cases h
      · split at h
        · cases h
        · next hmoney =>
          simp only [Bool.or_eq_true, Bool.not_eq_true', not_or, Bool.not_eq_false] at hmoney
          exact ih (moneyRange_iff.mp hmoney.2) h

theorem checkMaturityAndValue_rejects {acc : Int} (hacc : 0 ≤ acc ∧ acc ≤ MAX_MONEY)
    (hcoins : ∀ coin ∈ coins, 0 ≤ coin.value ∧ coin.value ≤ MAX_MONEY) :
    Rejects (checkMaturityAndValue nSpendHeight coins acc) := by
  induction coins generalizing acc with
  | nil => simp [checkMaturityAndValue]
  | cons coin coins ih =>
    rw [List.forall_mem_cons] at hcoins
    have hrange : InInt64 (acc + coin.txout.nValue) := by
      have := hcoins.1
      simp only [Coin.value] at this
      exact inInt64_of_money (by simp only [MAX_MONEY, COIN] at *; omega)
        (by simp only [MAX_MONEY, COIN] at *; omega)
    unfold checkMaturityAndValue
    rw [show addInt64 acc coin.txout.nValue = .ok (acc + coin.txout.nValue) from
      toInt64_of_inInt64 hrange]
    split
    · simp
    · simp only
      split
      · simp
      · next hmoney =>
        simp only [Bool.or_eq_true, Bool.not_eq_true', not_or, Bool.not_eq_false] at hmoney
        exact ih (moneyRange_iff.mp hmoney.2) hcoins.2

/-- What passing the fee test means: the fee is the difference, and it is not negative. -/
theorem checkFee_eq_ok (hchecked : checkTransaction tx = .ok ())
    {nValueIn : Int} (h : checkFee env tx nValueIn = .ok ()) : valueSum tx.vout ≤ nValueIn := by
  unfold checkFee at h
  rw [(checkTransaction_valueOut hchecked).1] at h
  simp only at h
  split at h
  · cases h
  · next hle => exact Int.not_lt.mp hle

theorem checkFee_rejects (hchecked : checkTransaction tx = .ok ())
    {nValueIn : Int} (hin : 0 ≤ nValueIn ∧ nValueIn ≤ MAX_MONEY) : Rejects (checkFee env tx nValueIn) := by
  obtain ⟨hout, hout0, houtmax⟩ := checkTransaction_valueOut hchecked
  have hsub : subInt64 nValueIn (valueSum tx.vout) = .ok (nValueIn - valueSum tx.vout) :=
    toInt64_of_inInt64 (inInt64_of_money (by simp only [MAX_MONEY, COIN] at *; omega)
      (by simp only [MAX_MONEY, COIN] at *; omega))
  have hadd : addInt64 0 (nValueIn - valueSum tx.vout) = .ok (0 + (nValueIn - valueSum tx.vout)) :=
    toInt64_of_inInt64 (inInt64_of_money (by simp only [MAX_MONEY, COIN] at *; omega)
      (by simp only [MAX_MONEY, COIN] at *; omega))
  unfold checkFee
  rw [hout]
  simp only [hsub, hadd]
  split_ifs <;> simp

theorem runScriptChecks_rejects (env : Env) (flags : ScriptFlags) (checks : List CScriptCheck) :
    Rejects (runScriptChecks env flags checks) := by
  induction checks with
  | nil => simp [runScriptChecks]
  | cons check checks ih =>
    unfold runScriptChecks
    split
    · exact ih
    · split <;> simp

theorem checkInputCoins_rejects (hchecked : checkTransaction tx = .ok ()) {fScriptChecks pvChecks : Bool}
    {flags : ScriptFlags} (hcoins : ∀ coin ∈ coins, 0 ≤ coin.value ∧ coin.value ≤ MAX_MONEY) :
    Rejects (checkInputCoins env tx nSpendHeight fScriptChecks flags pvChecks coins) := by
  have hvalue : Rejects (checkMaturityAndValue nSpendHeight coins 0) :=
    checkMaturityAndValue_rejects (by decide) hcoins
  unfold checkInputCoins
  cases hsum : checkMaturityAndValue nSpendHeight coins 0 with
  | error e => rw [hsum] at hvalue; simpa using hvalue
  | ok nValueIn =>
    have hfee : Rejects (checkFee env tx nValueIn) :=
      checkFee_rejects hchecked (checkMaturityAndValue_range (by decide) hsum)
    simp only
    cases hcheck : checkFee env tx nValueIn with
    | error e => rw [hcheck] at hfee; simpa using hfee
    | ok _ =>
      have hscripts := runScriptChecks_rejects env flags (scriptChecks tx flags coins 0)
      simp only
      split
      · split
        · simp
        · cases hrun : runScriptChecks env flags (scriptChecks tx flags coins 0) with
          | error e => rw [hrun] at hscripts; simpa using hscripts
          | ok _ => simp
      · simp

/-- Passing `CheckInputs` bounds what the transaction puts out by what it takes in. -/
theorem checkInputCoins_value (hchecked : checkTransaction tx = .ok ()) {fScriptChecks pvChecks : Bool}
    {flags : ScriptFlags} {vChecks : List CScriptCheck}
    (h : checkInputCoins env tx nSpendHeight fScriptChecks flags pvChecks coins = .ok vChecks) :
    valueSum tx.vout ≤ coinSum coins := by
  unfold checkInputCoins at h
  cases hsum : checkMaturityAndValue nSpendHeight coins 0 with
  | error e => simp [hsum] at h
  | ok nValueIn =>
    simp only [hsum] at h
    cases hcheck : checkFee env tx nValueIn with
    | error e => simp [hcheck] at h
    | ok _ =>
      have := checkFee_eq_ok hchecked hcheck
      rwa [checkMaturityAndValue_eq_ok hsum, zero_add] at this

/-! ### One transaction -/

theorem addFee_eq_ok {nFees nTxValueIn nFees' : Int}
    (hchecked : checkTransaction tx = .ok ()) (h : addFee nFees nTxValueIn tx = .ok nFees') :
    nFees' = nFees + (nTxValueIn - valueSum tx.vout) := by
  unfold addFee at h
  rw [(checkTransaction_valueOut hchecked).1] at h
  simp only [bind, Except.bind] at h
  split at h
  · cases h
  · next hsub =>
    obtain ⟨rfl, -⟩ := subInt64_eq_ok.mp hsub
    exact (addInt64_eq_ok.mp h).1.symm

theorem addFee_of_range {nFees nTxValueIn : Int}
    (hchecked : checkTransaction tx = .ok ()) (hfees : 0 ≤ nFees) (hin : 0 ≤ nTxValueIn)
    (hle : nFees + nTxValueIn ≤ int64Max) :
    addFee nFees nTxValueIn tx = .ok (nFees + (nTxValueIn - valueSum tx.vout)) := by
  obtain ⟨hout, hout0, houtmax⟩ := checkTransaction_valueOut hchecked
  have hsub : subInt64 nTxValueIn (valueSum tx.vout) = .ok (nTxValueIn - valueSum tx.vout) :=
    toInt64_of_inInt64 (by simp only [InInt64, int64Min, int64Max, MAX_MONEY, COIN] at *; omega)
  have hadd : addInt64 nFees (nTxValueIn - valueSum tx.vout) =
      .ok (nFees + (nTxValueIn - valueSum tx.vout)) :=
    toInt64_of_inInt64 (by simp only [InInt64, int64Min, int64Max, MAX_MONEY, COIN] at *; omega)
  unfold addFee
  rw [hout]
  simp only [bind, Except.bind, hsub, hadd]

theorem addValueOut_eq_ok {nValueOut nValueOut' : Int}
    (hchecked : checkTransaction tx = .ok ()) (h : addValueOut nValueOut tx = .ok nValueOut') :
    nValueOut' = nValueOut + valueSum tx.vout := by
  unfold addValueOut at h
  rw [(checkTransaction_valueOut hchecked).1] at h
  exact (addInt64_eq_ok.mp h).1.symm

theorem addValueOut_of_range {nValueOut : Int}
    (hchecked : checkTransaction tx = .ok ()) (hnonneg : 0 ≤ nValueOut)
    (hle : nValueOut + valueSum tx.vout ≤ int64Max) :
    addValueOut nValueOut tx = .ok (nValueOut + valueSum tx.vout) := by
  obtain ⟨hout, hout0, -⟩ := checkTransaction_valueOut hchecked
  unfold addValueOut
  rw [hout]
  exact toInt64_of_inInt64 (by simp only [InInt64, int64Min, int64Max] at *; omega)

/-- What a coinbase puts out; nothing for other transactions. -/
def coinbaseOut (tx : CTransaction) : Int := if tx.isCoinBase then valueSum tx.vout else 0

theorem fresh_eraseInputs {txhash : Uint256} (hfresh : ∀ n, u ⟨txhash, n⟩ = none)
    (vin : List CTxIn) : ∀ n, u.eraseInputs vin ⟨txhash, n⟩ = none := by
  intro n
  unfold Utxo.eraseInputs
  rw [hfresh]
  exact ite_self none

/-- **One transaction in the balance**: what is unspent, plus the fees, minus the coinbase
outputs stays as it was; no fee is negative. -/
theorem connectTransaction_flow
    {state' : ConnectState} {s s' : CoinsMap} (hchecked : checkTransaction tx = .ok ())
    (hfresh : ∀ n, s.utxo ⟨env.txHash tx, n⟩ = none) (hsound : Sound s.utxo)
    (h : (connectTransaction env params tx state).run CoinsMap.handler s = (.ok state', s')) :
    Sound s'.utxo ∧ totalValue s'.utxo + state'.nFees = totalValue s.utxo + state.nFees + coinbaseOut tx ∧
      state.nFees ≤ state'.nFees ∧ state'.nValueOut = state.nValueOut + coinbaseOut tx ∧
      state'.nValueIn = state.nValueIn := by
  obtain ⟨checked, txundo, hchecks, hupdate, rfl⟩ := connectTransaction_ok h
  have hutxo := (updateCoins_ok hupdate).1
  have hwell := checkTransaction_eq_ok hchecked
  rcases connectChecksAt_ok hchecks with ⟨hcb, nValueOut, hadd, rfl⟩ | ⟨hcb, hinputs⟩
  · rw [hcb, if_pos rfl, Utxo.eraseInputs_nil] at hutxo
    obtain ⟨hsound', htotal⟩ := hsound.addOutputs hwell params.pindex.nHeight hfresh
    rw [← hutxo] at hsound' htotal
    have := addValueOut_eq_ok hchecked hadd
    simp only [hcb, if_true, coinbaseOut]
    exact ⟨hsound', by omega, le_rfl, this, trivial⟩
  · obtain ⟨coins, nTxValueIn, nFees, nHeight, vChecks, hcoins, hsum, hfee, -, hcheck, rfl⟩ :=
      connectInputsAt_ok hinputs
    rw [hcb, if_neg Bool.false_ne_true] at hutxo
    obtain ⟨hsound', htotal⟩ := (hsound.eraseInputs tx.vin).addOutputs hwell params.pindex.nHeight
      (fresh_eraseInputs hfresh tx.vin)
    rw [totalValue_eraseInputs hsound hwell.prevout_nodup hcoins] at htotal
    rw [← hutxo] at hsound' htotal
    have hin := sumValues_eq_ok hsum
    have hfees := addFee_eq_ok hchecked hfee
    have hpays := checkInputCoins_value hchecked hcheck
    simp only [hcb, Bool.false_eq_true, if_false, coinbaseOut, add_zero]
    simp only at hfees
    exact ⟨hsound', by omega, by omega, trivial, trivial⟩

/-! ### Failing means rejecting -/

/-- The heights of the best block are known to the checks. -/
def KnowsBest (heights : Uint256 → Option Int) (s : CoinsMap) : Prop :=
  ∃ nHeight, s.best.bind heights = some nHeight

theorem connectInputsAt_rejects {nHeight : Int}
    (hchecked : checkTransaction tx = .ok ()) (hsound : Sound u) (hfees : 0 ≤ state.nFees)
    (hle : totalValue u + state.nFees ≤ int64Max) :
    Rejects (connectInputsAt env params tx state u (some nHeight)) := by
  unfold connectInputsAt
  cases hcoins : coinsOf u tx.vin with
  | none => simp
  | some coins =>
    have hrange := hsound.coins_range hcoins
    have hin := coinSum_le_totalValue hsound (checkTransaction_eq_ok hchecked).prevout_nodup hcoins
    have hin0 : 0 ≤ coinSum coins := List.sum_nonneg fun v hv => by
      obtain ⟨coin, hmem, rfl⟩ := List.mem_map.mp hv
      exact (hrange coin hmem).1
    have hcheck : Rejects (checkInputsAt env tx params.fScriptChecks params.flags
        (env.nScriptCheckThreads ≠ 0) u (some nHeight)) := by
      unfold checkInputsAt
      rw [hcoins]
      exact checkInputCoins_rejects hchecked hrange
    simp only
    generalize (if params.fStrictPayToScriptHash then sumP2SHSigOps (tx.vin.zip coins) else 0) = nP2SH
    by_cases hsigops : state.nSigOps + nP2SH > MAX_BLOCK_SIGOPS
    · simp [hsigops]
    · rw [if_neg hsigops, sumValues_of_le le_rfl (fun coin hmem => (hrange coin hmem).1) (by omega),
        zero_add]
      simp only
      rw [addFee_of_range hchecked hfees hin0 (by omega)]
      simp only
      generalize checkInputsAt env tx params.fScriptChecks params.flags
        (env.nScriptCheckThreads ≠ 0) u (some nHeight) = checked at hcheck ⊢
      cases checked with
      | error e => simpa using hcheck
      | ok vChecks => simp

/-- **A transaction that does not connect is rejected**: the checks of one round do not
leave `int64_t`, and what they let pass can be spent. -/
theorem connectTransaction_rejects {s : CoinsMap} (hchecked : checkTransaction tx = .ok ())
    (hsound : Sound s.utxo) (hfees : 0 ≤ state.nFees) (hout : 0 ≤ state.nValueOut)
    (hle : totalValue s.utxo + state.nFees ≤ int64Max)
    (houtle : state.nValueOut + coinbaseOut tx ≤ int64Max) (hbest : KnowsBest params.heights s) :
    Rejects ((connectTransaction env params tx state).run CoinsMap.handler s).1 := by
  obtain ⟨nHeight, hheight⟩ := hbest
  intro e herror
  have h : (connectTransaction env params tx state).run CoinsMap.handler s =
      (.error e, ((connectTransaction env params tx state).run CoinsMap.handler s).2) :=
    Prod.ext herror rfl
  rcases Prog.run_bind_eq_error.mp h with hchecks | ⟨checked, s₁, hchecks, hrest⟩
  · rw [run_connectChecks, Prod.mk.injEq, hheight] at hchecks
    have hfail := hchecks.1
    unfold connectChecksAt at hfail
    simp only at hfail
    split at hfail
    · cases hfail
      rfl
    · cases hcb : tx.isCoinBase with
      | true =>
        simp only [hcb, if_true] at hfail
        rw [coinbaseOut, hcb, if_pos rfl] at houtle
        rw [addValueOut_of_range hchecked hout houtle] at hfail
        cases hfail
      | false =>
        simp only [hcb, Bool.false_eq_true, if_false] at hfail
        have hinputs : Rejects (connectInputsAt env params tx
            { state with nSigOps := state.nSigOps + tx.getLegacySigOpCount } s.utxo
            (some nHeight)) :=
          connectInputsAt_rejects hchecked hsound hfees hle
        exact hinputs e hfail
  · rw [run_connectChecks, Prod.mk.injEq] at hchecks
    obtain ⟨hpassed, rfl⟩ := hchecks
    have hpresent : tx.isCoinBase = false → ∀ txin ∈ tx.vin, (s.utxo txin.prevout).isSome = true := by
      intro hcb txin hin
      rcases connectChecksAt_ok hpassed with ⟨hcb', -⟩ | ⟨-, hinputs⟩
      · rw [hcb] at hcb'
        cases hcb'
      · obtain ⟨coins, -, -, -, -, hcoins, -⟩ := connectInputsAt_ok hinputs
        exact coinsOf_isSome_iff.mp (by rw [hcoins]; rfl) txin hin
    obtain ⟨txundo, s', hupdate⟩ : ∃ txundo s', (updateCoins tx params.pindex.nHeight
        (env.txHash tx)).run CoinsMap.handler s = (.ok txundo, s') :=
      updateCoins_isOk (checkTransaction_eq_ok hchecked).prevout_nodup hpresent
    rw [Prog.run_bind_of_ok hupdate] at hrest
    cases congrArg Prod.fst hrest

/-! ### The loop -/

/-- None of the transactions has unspent outputs, and no two share a hash: what BIP30 and
`CheckBlock` have established when the loop starts. -/
structure Fresh (env : Env) (u : Utxo) (vtx : List CTransaction) : Prop where
  nodup : (vtx.map env.txHash).Nodup
  unspent : ∀ tx ∈ vtx, ∀ n, u ⟨env.txHash tx, n⟩ = none

/-- Connecting one transaction keeps the others fresh. -/
theorem Fresh.tail {s s' : CoinsMap} {nHeight : Int} {txundo : CTxUndo} (h : Fresh env s.utxo (tx :: vtx))
    (hupdate : (updateCoins tx nHeight (env.txHash tx)).run CoinsMap.handler s = (.ok txundo, s')) :
    Fresh env s'.utxo vtx := by
  have hnodup := h.nodup
  rw [List.map_cons, List.nodup_cons] at hnodup
  refine ⟨hnodup.2, fun tx' hmem n => ?_⟩
  have hne : env.txHash tx' ≠ env.txHash tx := fun heq =>
    hnodup.1 (heq ▸ List.mem_map_of_mem hmem)
  rw [(updateCoins_ok hupdate).1, Utxo.addOutputs, if_neg hne]
  exact fresh_eraseInputs (h.unspent tx' (List.mem_cons_of_mem _ hmem)) _ n

def coinbaseSum (vtx : List CTransaction) : Int := (vtx.map coinbaseOut).sum

theorem coinbaseSum_cons (tx : CTransaction) (vtx : List CTransaction) :
    coinbaseSum (tx :: vtx) = coinbaseOut tx + coinbaseSum vtx := rfl

theorem coinbaseOut_nonneg (hchecked : checkTransaction tx = .ok ()) :
    0 ≤ coinbaseOut tx ∧ coinbaseOut tx ≤ MAX_MONEY := by
  have hout := (checkTransaction_valueOut hchecked).2
  unfold coinbaseOut
  split
  · exact hout
  · exact ⟨le_rfl, by decide⟩

theorem coinbaseSum_nonneg (hchecked : ∀ tx ∈ vtx, checkTransaction tx = .ok ()) : 0 ≤ coinbaseSum vtx:=
  List.sum_nonneg fun v hv => by
    obtain ⟨tx, hmem, rfl⟩ := List.mem_map.mp hv
    exact (coinbaseOut_nonneg (hchecked tx hmem)).1

/-- **The balance over the loop.** -/
theorem connectTransactions_flow {state' : ConnectState} {s s' : CoinsMap}
    (hchecked : ∀ tx ∈ vtx, checkTransaction tx = .ok ()) (hfresh : Fresh env s.utxo vtx)
    (hsound : Sound s.utxo)
    (h : (connectTransactions env params vtx state).run CoinsMap.handler s = (.ok state', s')) :
    Sound s'.utxo ∧ totalValue s'.utxo + state'.nFees = totalValue s.utxo + state.nFees + coinbaseSum vtx ∧
      state.nFees ≤ state'.nFees ∧ state'.nValueOut = state.nValueOut + coinbaseSum vtx ∧
      state'.nValueIn = state.nValueIn := by
  induction vtx generalizing state s with
  | nil =>
    simp only [connectTransactions, Prog.run_pure, Prod.mk.injEq, Except.ok.injEq] at h
    obtain ⟨rfl, rfl⟩ := h
    exact ⟨hsound, by simp [coinbaseSum], le_rfl, by simp [coinbaseSum], rfl⟩
  | cons tx vtx ih =>
    rw [List.forall_mem_cons] at hchecked
    obtain ⟨state₁, s₁, hfirst, hrest⟩ := Prog.run_bind_eq_ok.mp h
    obtain ⟨-, txundo, -, hupdate, -⟩ := connectTransaction_ok hfirst
    obtain ⟨hsound₁, hbalance₁, hfees₁, hout₁, hin₁⟩ :=
      connectTransaction_flow hchecked.1 (hfresh.unspent tx (List.mem_cons_self ..)) hsound hfirst
    obtain ⟨hsound', hbalance, hfees, hout, hin⟩ := ih hchecked.2 (hfresh.tail hupdate) hsound₁ hrest
    rw [coinbaseSum_cons]
    exact ⟨hsound', by omega, by omega, by omega, by omega⟩

/-- **The loop rejects or goes through**, as long as everything unspent and created stays
within `int64_t`. -/
theorem connectTransactions_rejects {s : CoinsMap}
    (hchecked : ∀ tx ∈ vtx, checkTransaction tx = .ok ()) (hfresh : Fresh env s.utxo vtx)
    (hsound : Sound s.utxo) (hfees : 0 ≤ state.nFees) (hout : 0 ≤ state.nValueOut)
    (hle : totalValue s.utxo + state.nFees + coinbaseSum vtx ≤ int64Max)
    (houtle : state.nValueOut + coinbaseSum vtx ≤ int64Max) (hbest : KnowsBest params.heights s) :
    Rejects ((connectTransactions env params vtx state).run CoinsMap.handler s).1 := by
  induction vtx generalizing state s with
  | nil => exact rejects_ok _
  | cons tx vtx ih =>
    rw [List.forall_mem_cons] at hchecked
    rw [coinbaseSum_cons] at hle houtle
    have hcb := coinbaseOut_nonneg hchecked.1
    have hsum := coinbaseSum_nonneg hchecked.2
    show Rejects ((connectTransaction env params tx state >>= fun state =>
      connectTransactions env params vtx state).run CoinsMap.handler s).1
    rw [Prog.run_bind]
    have hfirst : Rejects ((connectTransaction env params tx state).run CoinsMap.handler s).1 :=
      connectTransaction_rejects hchecked.1 hsound hfees hout (by omega) (by omega) hbest
    cases hrun : (connectTransaction env params tx state).run CoinsMap.handler s with
    | mk outcome s₁ =>
      rw [hrun] at hfirst
      cases outcome with
      | error e => simpa using hfirst
      | ok state₁ =>
        obtain ⟨-, txundo, -, hupdate, -⟩ := connectTransaction_ok hrun
        obtain ⟨hsound₁, hbalance₁, hfees₁, hout₁, -⟩ :=
          connectTransaction_flow hchecked.1 (hfresh.unspent tx (List.mem_cons_self ..)) hsound
            hrun
        refine ih hchecked.2 (hfresh.tail hupdate) hsound₁ (by omega) (by omega) (by omega)
          (by omega) ?_
        rw [KnowsBest, (updateCoins_ok hupdate).2]
        exact hbest

/-! ### Nothing is spent twice -/

/-- The outpoints the transactions of a list spend, in order. -/
def spentOutpoints (vtx : List CTransaction) : List COutPoint :=
  vtx.flatMap fun tx => if tx.isCoinBase then [] else tx.vin.map (·.prevout)

theorem connectTransaction_inputs {state' : ConnectState} {s s' : CoinsMap}
    (h : (connectTransaction env params tx state).run CoinsMap.handler s = (.ok state', s')) :
    ∀ out ∈ spentOutpoints [tx], (s.utxo out).isSome = true := by
  obtain ⟨checked, txundo, hchecks, -, -⟩ := connectTransaction_ok h
  intro out hmem
  simp only [spentOutpoints, List.flatMap_cons, List.flatMap_nil, List.append_nil] at hmem
  rcases connectChecksAt_ok hchecks with ⟨hcb, -⟩ | ⟨hcb, hinputs⟩
  · rw [hcb, if_pos rfl] at hmem
    exact absurd hmem List.not_mem_nil
  · rw [hcb, if_neg Bool.false_ne_true] at hmem
    obtain ⟨txin, hin, rfl⟩ := List.mem_map.mp hmem
    obtain ⟨coins, -, -, -, -, hcoins, -⟩ := connectInputsAt_ok hinputs
    exact coinsOf_isSome_iff.mp (by rw [hcoins]; rfl) txin hin

theorem Updates.utxo_none {nHeight : Int}
    {undos : List CTxUndo} {s s' : CoinsMap} (h : Updates env nHeight s vtx undos s')
    {out : COutPoint} (hout : s.utxo out = none) (hhash : out.hash ∉ vtx.map env.txHash) :
    s'.utxo out = none := by
  induction h with
  | nil s => exact hout
  | @cons s s₁ s' tx vtx txundo undos hupdate _ ih =>
    rw [List.map_cons, List.mem_cons, not_or] at hhash
    refine ih ?_ hhash.2
    rw [(updateCoins_ok hupdate).1, Utxo.addOutputs, if_neg hhash.1, Utxo.eraseInputs, hout]
    exact ite_self none

/-- **Nothing is spent twice**: in a block an outpoint is spent once, it was there when it
was spent, and it is gone when the block ends, since no later transaction has its hash. -/
theorem connectTransactions_spent {state' : ConnectState} {s s' : CoinsMap}
    (hchecked : ∀ tx ∈ vtx, checkTransaction tx = .ok ()) (hfresh : Fresh env s.utxo vtx)
    (h : (connectTransactions env params vtx state).run CoinsMap.handler s = (.ok state', s')) :
    (spentOutpoints vtx).Nodup ∧
      (∀ out ∈ spentOutpoints vtx, (s.utxo out).isSome = true ∨ out.hash ∈ vtx.map env.txHash) ∧
      ∀ out ∈ spentOutpoints vtx, s'.utxo out = none := by
  induction vtx generalizing state s with
  | nil =>
    exact ⟨List.nodup_nil, fun _ h => absurd h List.not_mem_nil, fun _ h => absurd h List.not_mem_nil⟩
  | cons tx vtx ih =>
    rw [List.forall_mem_cons] at hchecked
    obtain ⟨state₁, s₁, hfirst, hrest⟩ := Prog.run_bind_eq_ok.mp h
    obtain ⟨-, txundo, -, hupdate, -⟩ := connectTransaction_ok hfirst
    have hinputs := connectTransaction_inputs hfirst
    obtain ⟨hnodup, horigin, hgone⟩ := ih hchecked.2 (hfresh.tail hupdate) hrest
    obtain ⟨undos, hupdates, -⟩ := connectTransactions_updates hrest
    have hutxo := (updateCoins_ok hupdate).1
    have hsplit : spentOutpoints (tx :: vtx) = spentOutpoints [tx] ++ spentOutpoints vtx := by
      simp [spentOutpoints]
    have hfirstNodup : (spentOutpoints [tx]).Nodup := by
      simp only [spentOutpoints, List.flatMap_cons, List.flatMap_nil, List.append_nil]
      split
      · exact List.nodup_nil
      · exact (checkTransaction_eq_ok hchecked.1).prevout_nodup
    -- What the first transaction spends has none of the hashes and is gone after it.
    have hspent : ∀ out ∈ spentOutpoints [tx],
        s₁.utxo out = none ∧ out.hash ∉ vtx.map env.txHash := by
      intro out hmem
      have hsome := hinputs out hmem
      have hhash : ∀ tx' ∈ tx :: vtx, out.hash ≠ env.txHash tx' := by
        intro tx' hmem' heq
        have := hfresh.unspent tx' hmem' out.n
        rw [← heq] at this
        simp [this] at hsome
      refine ⟨?_, fun hmem' => ?_⟩
      · rw [hutxo, Utxo.addOutputs, if_neg (hhash tx (List.mem_cons_self ..)), Utxo.eraseInputs,
          if_pos]
        simpa [spentOutpoints, apply_ite, List.map_nil] using hmem
      · obtain ⟨tx', hmem', heq⟩ := List.mem_map.mp hmem'
        exact hhash tx' (List.mem_cons_of_mem _ hmem') heq.symm
    rw [hsplit]
    refine ⟨List.nodup_append.mpr ⟨hfirstNodup, hnodup, ?_⟩, ?_, ?_⟩
    · rintro out hmem _ hlater rfl
      rcases horigin out hlater with hsome | hhash
      · simp [(hspent out hmem).1] at hsome
      · exact (hspent out hmem).2 hhash
    · intro out hmem
      rcases List.mem_append.mp hmem with hmem | hlater
      · exact .inl (hinputs out hmem)
      · rcases horigin out hlater with hsome | hhash
        · by_cases hhash : out.hash = env.txHash tx
          · exact .inr (List.mem_cons.mpr (.inl hhash))
          · rw [hutxo, Utxo.addOutputs, if_neg hhash, Utxo.eraseInputs] at hsome
            generalize (if tx.isCoinBase then [] else tx.vin) = vin at hsome
            split at hsome
            · cases hsome
            · exact .inl hsome
        · exact .inr (List.mem_cons_of_mem _ hhash)
    · intro out hmem
      rcases List.mem_append.mp hmem with hmem | hlater
      · exact hupdates.utxo_none (hspent out hmem).1 (hspent out hmem).2
      · exact hgone out hlater

end Manna
