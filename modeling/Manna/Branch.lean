import Manna.BlockTree
import Manna.Undo
import Manna.ValueFlow

/-!
The views along a branch of the block index.

`ConnectsTo` says that the blocks from the genesis block up to a given one connect, one
after the other, and what view they lead to. The view is determined up to pruned records
(`ConnectsTo.viewEq`), whatever the clock and whatever changed in the index since, so it
serves as the meaning of "the whole ancestry of this block is valid".

* `connectBlockChecks_congr`: the checks read the fixed part of the entry and the height of
  the best block;
* `ConnectsTo.sound`: amounts, heights and the total value in such a view;
* `ConnectsTo.disconnect`: `DisconnectBlock` goes back from any view like it.
-/

namespace Manna

open OpProg

/-! ### What the checks read -/

theorem run_connectTransactions_congr {env : Env} {params params' : ConnectParams}
    {vtx : List CTransaction} {state : ConnectState} {s : CoinsMap}
    (hheight : params.pindex.nHeight = params'.pindex.nHeight)
    (hscripts : params.fScriptChecks = params'.fScriptChecks)
    (hp2sh : params.fStrictPayToScriptHash = params'.fStrictPayToScriptHash)
    (hflags : params.flags = params'.flags)
    (hbest : s.best.bind params.heights = s.best.bind params'.heights) :
    (connectTransactions env params vtx state).run CoinsMap.handler s =
      (connectTransactions env params' vtx state).run CoinsMap.handler s := by
  have hchecks : ∀ (tx : CTransaction) (state : ConnectState) (u : Utxo) (nBestHeight : Option Int),
      connectChecksAt env params tx state u nBestHeight =
        connectChecksAt env params' tx state u nBestHeight := by
    intro tx state u nBestHeight
    simp only [connectChecksAt, connectInputsAt, hscripts, hp2sh, hflags]
  induction vtx generalizing state s with
  | nil => rfl
  | cons tx vtx ih =>
    have hstep : (connectTransaction env params tx state).run CoinsMap.handler s =
        (connectTransaction env params' tx state).run CoinsMap.handler s := by
      unfold connectTransaction
      rw [Prog.run_bind, Prog.run_bind, run_connectChecks, run_connectChecks, hbest, hchecks,
        hheight]
    show (connectTransaction env params tx state >>= _).run CoinsMap.handler s =
      (connectTransaction env params' tx state >>= _).run CoinsMap.handler s
    rw [Prog.run_bind, Prog.run_bind, ← hstep]
    cases hrun : (connectTransaction env params tx state).run CoinsMap.handler s with
    | mk outcome s₁ =>
      cases outcome with
      | error e => rfl
      | ok state₁ =>
        obtain ⟨-, txundo, -, hupdate, -⟩ := connectTransaction_ok hrun
        exact ih (by rw [(updateCoins_ok hupdate).2]; exact hbest)

/-- **What the checks read** of entry and index: the fixed part and the height of the best
block. -/
theorem connectBlockChecks_congr {env : Env} {nAdjustedTime : Int}
    {heights heights' : Uint256 → Option Int} {block : CBlock} {pindex pindex' : CBlockIndex}
    {fJustCheck : Bool} {s : CoinsMap} (hfixed : pindex.fixed = pindex'.fixed)
    (hbest : s.best.bind heights = s.best.bind heights') :
    (connectBlockChecks env nAdjustedTime heights block pindex fJustCheck).run CoinsMap.handler s =
      (connectBlockChecks env nAdjustedTime heights' block pindex' fJustCheck).run CoinsMap.handler s := by
  obtain ⟨hhash, hprev, hheight, -, htime, -⟩ := CBlockIndex.fixed_eq_iff.mp hfixed
  have hblocktime : pindex.getBlockTime = pindex'.getBlockTime := congrArg Nat.cast htime
  have hfinish : ∀ state, connectFinish env block pindex state =
      connectFinish env block pindex' state := by
    intro state
    simp only [connectFinish, getBlockValue, hheight]
    rfl
  have htxs : ∀ vtx, (connectTransactions env (.of heights pindex) vtx .init).run CoinsMap.handler s =
      (connectTransactions env (.of heights' pindex') vtx .init).run CoinsMap.handler s := by
    intro vtx
    exact run_connectTransactions_congr hheight
      (by simp only [ConnectParams.of, hheight]) (by simp only [ConnectParams.of, hblocktime])
      (by simp only [ConnectParams.of, hblocktime]) hbest
  classical
  unfold connectBlockChecks
  rw [hprev, hhash, Prog.run_bind, Prog.run_bind]
  cases checkBlock env nAdjustedTime block (!fJustCheck) (!fJustCheck) with
  | error e => rfl
  | ok _ =>
    rw [Prog.run_ofExcept]
    simp only
    rw [Prog.run_bind, Prog.run_bind, CoinsM.run_getBestBlock]
    simp only
    split
    · rfl
    · split
      · rfl
      · rw [Prog.run_bind, Prog.run_bind, run_checkOverwrite]
        split
        · next heq =>
          obtain ⟨-, rfl⟩ := Prod.mk.inj heq
          rw [Prog.run_bind, Prog.run_bind, htxs]
          simp only [hfinish]
        · rfl

/-- Two runs of the checks that succeed, at any times and from views equal up to pruned
records, end alike. -/
theorem connectBlockChecks_unique {env : Env} {t t' : Int} {heights : Uint256 → Option Int}
    {block : CBlock} {pindex : CBlockIndex} {s s' r r' : CoinsMap} {state state' : ConnectState}
    (hview : CoinsMap.ViewEq s s')
    (hrun : (connectBlockChecks env t heights block pindex false).run CoinsMap.handler s =
      (.ok (some state), r))
    (hrun' : (connectBlockChecks env t' heights block pindex false).run CoinsMap.handler s' =
      (.ok (some state'), r')) : state = state' ∧ CoinsMap.ViewEq r r' := by
  have htime : ∀ {t : Int} {s r : CoinsMap} {state : ConnectState},
      (connectBlockChecks env t heights block pindex false).run CoinsMap.handler s =
        (.ok (some state), r) → block.getBlockTime ≤ t + nMaxClockDrift := by
    intro t s r state hrun
    obtain ⟨_, s₁, hcheck, -⟩ := Prog.run_bind_eq_ok.mp hrun
    rw [Prog.run_ofExcept, Prod.mk.injEq] at hcheck
    exact (checkBlock_eq_ok.mp hcheck.1).2.2.1
  have hsame : connectBlockChecks env t heights block pindex false =
      connectBlockChecks env t' heights block pindex false := by
    unfold connectBlockChecks
    rw [checkBlock_clock (htime hrun) (htime hrun')]
  rw [hsame] at hrun
  obtain ⟨r₁, hrun₁, hview₁⟩ := (related_connectBlockChecks env t' heights block pindex false).ok hview hrun
  rw [hrun', Prod.mk.injEq, Except.ok.injEq, Option.some.injEq] at hrun₁
  obtain ⟨rfl, rfl⟩ := hrun₁
  exact ⟨rfl, hview₁⟩

/-! ### Branches that connect -/

/-- Every block from the genesis block up to `hash` connects on its predecessors, and they
lead to the view `s`. -/
inductive ConnectsTo (env : Env) (t : BlockTree) (blocks : Uint256 → Option CBlock) :
    Uint256 → CoinsMap → Prop
  | genesis {e : CBlockIndex} (hentry : t.entry env.hashGenesisBlock = some e)
      (hroot : e.pprev = none) :
      ConnectsTo env t blocks env.hashGenesisBlock
        ⟨fun _ => none, some env.hashGenesisBlock⟩
  | connect {hash pprev : Uint256} {e : CBlockIndex} {block : CBlock} {nAdjustedTime : Int}
      {s s' : CoinsMap} {state : ConnectState} (hbranch : ConnectsTo env t blocks pprev s)
      (hentry : t.entry hash = some e) (hprev : e.pprev = some pprev)
      (hblock : blocks hash = some block)
      (hchecks : (connectBlockChecks env nAdjustedTime (heightOf t.entry) block e false).run
        CoinsMap.handler s = (.ok (some state), s')) :
      ConnectsTo env t blocks hash (s'.setBest hash)

section Branch

variable {env : Env} {t t' : BlockTree} {blocks blocks' : Uint256 → Option CBlock}
  {hash : Uint256} {s s' : CoinsMap}

theorem ConnectsTo.entry (h : ConnectsTo env t blocks hash s) : ∃ e, t.entry hash = some e := by
  cases h with
  | genesis hentry _ => exact ⟨_, hentry⟩
  | connect _ hentry _ _ _ => exact ⟨_, hentry⟩

theorem ConnectsTo.best (h : ConnectsTo env t blocks hash s) : s.best = some hash := by
  cases h <;> rfl

/-- A branch reads the same height of its best block in a larger index. -/
theorem ConnectsTo.heightOf_extends (h : ConnectsTo env t blocks hash s) (htree : t'.Extends t) :
    s.best.bind (heightOf t'.entry) = s.best.bind (heightOf t.entry) := by
  obtain ⟨p, hp⟩ := h.entry
  obtain ⟨p', hp', hfixed⟩ := htree _ _ hp
  simp only [h.best, Option.bind_some, heightOf, hp, hp', Option.map_some,
    (CBlockIndex.fixed_eq_iff.mp hfixed).2.2.1]

theorem ConnectsTo.knowsBest (h : ConnectsTo env t blocks hash s) : KnowsBest (heightOf t.entry) s := by
  obtain ⟨p, hp⟩ := h.entry
  exact ⟨p.nHeight, by simp [h.best, heightOf, hp]⟩

theorem ConnectsTo.root (h : ConnectsTo env t blocks hash s) :
    ∃ e, t.entry env.hashGenesisBlock = some e ∧ e.pprev = none := by
  induction h with
  | genesis hentry hroot => exact ⟨_, hentry, hroot⟩
  | connect _ _ _ _ _ ih => exact ih

/-- **The view of a branch is determined** up to pruned records. -/
theorem ConnectsTo.viewEq (h : ConnectsTo env t blocks hash s) (h' : ConnectsTo env t blocks hash s') :
    CoinsMap.ViewEq s s' := by
  induction h generalizing s' with
  | genesis hentry hroot =>
    generalize hgenesis : env.hashGenesisBlock = hash at h'
    cases h' with
    | genesis _ _ => exact ⟨rfl, rfl⟩
    | connect _ hentry' hprev' _ _ =>
      rw [← hgenesis, hentry, Option.some.injEq] at hentry'
      rw [← hentry', hroot] at hprev'
      cases hprev'
  | connect _ hentry hprev hblock hchecks ih =>
    cases h' with
    | genesis hentry' hroot' =>
      rw [hentry, Option.some.injEq] at hentry'
      rw [← hentry', hprev] at hroot'
      cases hroot'
    | connect hbranch' hentry' hprev' hblock' hchecks' =>
      obtain rfl := Option.some.inj (hentry.symm.trans hentry')
      obtain rfl := Option.some.inj (hprev.symm.trans hprev')
      obtain rfl := Option.some.inj (hblock.symm.trans hblock')
      obtain ⟨-, hview⟩ := connectBlockChecks_unique (ih hbranch') hchecks hchecks'
      exact ⟨hview.1, rfl⟩

/-- A branch keeps connecting when the index and the files grow, and when entries change
outside their fixed parts. -/
theorem ConnectsTo.extends (h : ConnectsTo env t blocks hash s) (htree : t'.Extends t)
    (hblocks : ∀ hash e, t.entry hash = some e → ∀ block, blocks hash = some block →
      blocks' hash = some block) : ConnectsTo env t' blocks' hash s := by
  induction h with
  | genesis hentry hroot =>
    obtain ⟨e', hentry', hfixed⟩ := htree _ _ hentry
    exact .genesis hentry' ((CBlockIndex.fixed_eq_iff.mp hfixed).2.1.trans hroot)
  | @connect hash pprev e block nAdjustedTime s s' state hbranch hentry hprev hblock hchecks ih =>
    obtain ⟨e', hentry', hfixed⟩ := htree _ _ hentry
    have hrun : (connectBlockChecks env nAdjustedTime (heightOf t'.entry) block e' false).run
        CoinsMap.handler s = (.ok (some state), s') := by
      rw [connectBlockChecks_congr hfixed (hbranch.heightOf_extends htree), hchecks]
    exact .connect ih hentry' ((CBlockIndex.fixed_eq_iff.mp hfixed).2.1.trans hprev)
      (hblocks _ _ hentry _ hblock) hrun

theorem ConnectsTo.step (h : ConnectsTo env t blocks hash s) {e : CBlockIndex} {pprev : Uint256}
    (hentry : t.entry hash = some e) (hprev : e.pprev = some pprev) :
    ∃ block nAdjustedTime state s₀ s₁, ConnectsTo env t blocks pprev s₀ ∧ blocks hash = some block ∧
      (connectBlockChecks env nAdjustedTime (heightOf t.entry) block e false).run CoinsMap.handler
        s₀ = (.ok (some state), s₁) ∧ s = s₁.setBest hash := by
  cases h with
  | genesis hentry' hroot' =>
    rw [hentry', Option.some.injEq] at hentry
    rw [hentry, hprev] at hroot'
    cases hroot'
  | connect hbranch hentry' hprev' hblock hchecks =>
    obtain rfl := Option.some.inj (hentry.symm.trans hentry')
    obtain rfl := Option.some.inj (hprev.symm.trans hprev')
    exact ⟨_, _, _, _, _, hbranch, hblock, hchecks, rfl⟩

/-! ### Amounts and heights along a branch -/

/-- The most that can have been minted up to a height. -/
def supplyBound (nHeight : Int) : Int :=
  if nHeight ≤ 0 then 0 else 10000000000 * COIN + 400 * COIN * (nHeight - 1)

theorem supplyBound_nonneg (nHeight : Int) : 0 ≤ supplyBound nHeight := by
  unfold supplyBound
  split
  · exact le_rfl
  · simp only [COIN]
    omega

theorem supplyBound_succ {nHeight : Int} (h : 0 ≤ nHeight) :
    supplyBound (nHeight + 1) = supplyBound nHeight + maxReward (nHeight + 1) := by
  unfold supplyBound maxReward
  rw [if_neg (by omega)]
  split
  · rw [if_pos (by omega)]
    simp only [COIN]
    omega
  · rw [if_neg (by omega)]
    simp only [COIN]
    omega

/-- An `int` of blocks mints far less than an `int64_t` holds. -/
theorem supplyBound_le {nHeight : Int} (h : nHeight ≤ INT_MAX) :
    supplyBound nHeight ≤ 1000000000000000000 := by
  unfold supplyBound
  split
  · decide
  · simp only [COIN, INT_MAX] at *
    omega

/-- What the coinbases up to a height may pay. -/
def plannedSupply (env : Env) : Nat → Int
  | 0 => 0
  | n + 1 => plannedSupply env n + getProofOfWorkReward env (n + 1)

theorem getProofOfWorkReward_of_late {env : Env} {nHeight : Int} (h : 1300000 ≤ nHeight) :
    getProofOfWorkReward env nHeight = COIN := by
  unfold getProofOfWorkReward getProofOfWorkRewardTestNet
  by_cases htest : env.fTestNet = true
  · rw [if_pos htest]
    repeat' rw [if_neg (by omega)]
  · rw [if_neg htest]
    repeat' rw [if_neg (by omega)]
    exact one_mul COIN

theorem plannedSupply_le (env : Env) (n : Nat) :
    plannedSupply env n ≤ 10000000000 * COIN + 400 * COIN * min (n : Int) 1300000 + COIN * n := by
  induction n with
  | zero => simp [plannedSupply, COIN]
  | succ n ih =>
    have hrange := (getProofOfWorkReward_range env (n + 1)).2
    have hlate := @getProofOfWorkReward_of_late env (n + 1)
    rw [plannedSupply]
    unfold maxReward at hrange
    unfold COIN at *
    push_cast
    rcases Nat.eq_zero_or_pos n with rfl | hpos
    · simp [plannedSupply] at *
      omega
    · rw [if_neg (by omega)] at hrange
      rcases le_or_gt 1300000 ((n : Int) + 1) with h | h
      · rw [hlate h]
        omega
      · omega

/-- However long the chain gets, the rewards stay a valid amount. -/
theorem plannedSupply_le_maxMoney {env : Env} {nHeight : Int} (h : nHeight ≤ INT_MAX) :
    plannedSupply env nHeight.toNat ≤ MAX_MONEY := by
  have hle := plannedSupply_le env nHeight.toNat
  simp only [INT_MAX, MAX_MONEY, COIN] at *
  omega

variable {block : CBlock}

theorem CheckedBlock.coinbaseSum (h : CheckedBlock env block) :
    ∃ coinbase vtx, block.vtx = coinbase :: vtx ∧ coinbaseSum block.vtx = valueSum coinbase.vout ∧
      coinbase.getValueOut = .ok (valueSum coinbase.vout) ∧
      0 ≤ valueSum coinbase.vout ∧ valueSum coinbase.vout ≤ MAX_MONEY := by
  obtain ⟨coinbase, vtx, hvtx, hfirst, hrest⟩ := h.coinbase
  have hzero : Manna.coinbaseSum vtx = 0 :=
    List.sum_eq_zero fun v hv => by
      obtain ⟨tx, hmem, rfl⟩ := List.mem_map.mp hv
      simp [coinbaseOut, hrest tx hmem]
  have hout := checkTransaction_valueOut
    (h.transactions coinbase (hvtx ▸ List.mem_cons_self ..)).1
  refine ⟨coinbase, vtx, hvtx, ?_, hout⟩
  rw [hvtx, coinbaseSum_cons, hzero, coinbaseOut, if_pos hfirst, add_zero]

/-- **What one block does to the total**: it adds what the coinbase pays, at most the block
value, and takes the fees away. -/
theorem connectBlockChecks_value {nAdjustedTime : Int} {heights : Uint256 → Option Int}
    {pindex : CBlockIndex} {fJustCheck : Bool} {state : ConnectState} (hsound : Sound s.utxo)
    (h : (connectBlockChecks env nAdjustedTime heights block pindex fJustCheck).run
      CoinsMap.handler s = (.ok (some state), s')) :
    Sound s'.utxo ∧ totalValue s'.utxo = totalValue s.utxo + state.nValueOut - state.nFees ∧
      0 ≤ state.nFees ∧ state.nValueIn = 0 ∧ state.nValueOut = coinbaseSum block.vtx ∧
      0 ≤ state.nValueOut ∧ state.nValueOut ≤ getBlockValue env pindex state.nFees := by
  obtain ⟨hblock, -, hfresh, htxs, hfinish⟩ := connectBlockChecks_ok h
  obtain ⟨hsound', hbalance, hfees, hout, hin⟩ :=
    connectTransactions_flow (fun tx hmem => (hblock.transactions tx hmem).1)
      ⟨hblock.txids_nodup, hfresh⟩ hsound htxs
  obtain ⟨-, -, coinbase, vtx, nValueOut, hvtx, hvalue, hpays⟩ := connectFinish_ok hfinish
  obtain ⟨coinbase', vtx', hvtx', hsum, hvalue', hnonneg, -⟩ := hblock.coinbaseSum
  obtain ⟨rfl, rfl⟩ := List.cons.inj (hvtx.symm.trans hvtx')
  obtain rfl := Except.ok.inj (hvalue.symm.trans hvalue')
  simp only [ConnectState.init, add_zero, zero_add] at hbalance hfees hout hin
  exact ⟨hsound', by omega, hfees, hin, hout, by omega, by omega⟩

/-- **A block that does not connect is rejected**, in any view whose total is an `int64_t`
with room for one more block. -/
theorem connectBlockChecks_rejects {nAdjustedTime : Int} {heights : Uint256 → Option Int}
    {pindex : CBlockIndex} {fJustCheck : Bool} (hsound : Sound s.utxo)
    (htotal : totalValue s.utxo ≤ 1000000000000000000) (hbest : KnowsBest heights s)
    (hprev : pindex.pprev = s.best) :
    Rejects ((connectBlockChecks env nAdjustedTime heights block pindex fJustCheck).run
      CoinsMap.handler s).1 := by
  classical
  intro e herror
  have h : (connectBlockChecks env nAdjustedTime heights block pindex fJustCheck).run
      CoinsMap.handler s = (.error e, ((connectBlockChecks env nAdjustedTime heights block pindex
        fJustCheck).run CoinsMap.handler s).2) := Prod.ext herror rfl
  rcases Prog.run_bind_eq_error.mp h with hcheck | ⟨_, s₁, hcheck, h⟩
  · rw [Prog.run_ofExcept, Prod.mk.injEq] at hcheck
    exact checkBlock_rejects env nAdjustedTime block _ _ e hcheck.1
  · rw [Prog.run_ofExcept, Prod.mk.injEq] at hcheck
    obtain ⟨hcheck, rfl⟩ := hcheck
    have hblock := CheckedBlock.of_checkBlock hcheck
    obtain ⟨coinbase, vtx, hvtx, hsum, hvalue, hnonneg, hmax⟩ := hblock.coinbaseSum
    rw [Prog.run_bind, CoinsM.run_getBestBlock] at h
    simp only [hprev, ne_eq, not_true_eq_false, if_false] at h
    split at h
    · cases congrArg Prod.fst h
    · rcases Prog.run_bind_eq_error.mp h with hfresh | ⟨_, s₁, hfresh, h⟩
      · rw [run_checkOverwrite, Prod.mk.injEq] at hfresh
        have hfail := hfresh.1
        split at hfail
        · cases hfail
        · cases hfail
          rfl
      · rw [run_checkOverwrite, Prod.mk.injEq] at hfresh
        obtain ⟨hfresh, rfl⟩ := hfresh
        have hunspent : ∀ tx ∈ block.vtx, ∀ n, s.utxo ⟨env.txHash tx, n⟩ = none := by
          split at hfresh
          · next hall => exact fun tx hmem => hall _ (List.mem_map_of_mem hmem)
          · cases hfresh
        have hchecked : ∀ tx ∈ block.vtx, checkTransaction tx = .ok () := fun tx hmem =>
          (hblock.transactions tx hmem).1
        have hloop : Rejects ((connectTransactions env (.of heights pindex) block.vtx .init).run
            CoinsMap.handler s).1 :=
          connectTransactions_rejects hchecked ⟨hblock.txids_nodup, hunspent⟩ hsound le_rfl le_rfl
          (by simp only [hsum, ConnectState.init, MAX_MONEY, COIN, int64Max] at *; omega)
          (by simp only [hsum, ConnectState.init, MAX_MONEY, COIN, int64Max] at *; omega) hbest
        rcases Prog.run_bind_eq_error.mp h with htxs | ⟨state, s₁, htxs, h⟩
        · exact hloop e (congrArg Prod.fst htxs)
        · rcases Prog.run_bind_eq_error.mp h with hfinish | ⟨state', s₂, -, hpure⟩
          · rw [Prog.run_ofExcept, Prod.mk.injEq] at hfinish
            have hfail := hfinish.1
            unfold connectFinish at hfail
            simp only [hvtx, hvalue] at hfail
            split_ifs at hfail <;> cases hfail <;> rfl
          · cases congrArg Prod.fst hpure

/-- **Amounts along a branch**: the unspent outputs are finitely many valid amounts of
positive height, and their total is within the supply bound of the height. -/
theorem ConnectsTo.sound (h : ConnectsTo env t blocks hash s) {e : CBlockIndex}
    (hentry : t.entry hash = some e) :
    Sound s.utxo ∧ totalValue s.utxo ≤ supplyBound e.nHeight ∧ HeightsPos s.utxo := by
  induction h generalizing e with
  | genesis hentry' hroot =>
    have hutxo : CoinsMap.utxo ⟨fun _ => none, some env.hashGenesisBlock⟩ = fun _ => none := rfl
    rw [hutxo, totalValue_empty]
    exact ⟨.empty, supplyBound_nonneg _, fun _ _ hcoin => by cases hcoin⟩
  | @connect hash pprev e' block nAdjustedTime s s' state hbranch hentry' hprev hblock hchecks ih =>
    obtain rfl := Option.some.inj (hentry.symm.trans hentry')
    obtain ⟨p, hp, hheight⟩ := t.parent hentry hprev
    obtain ⟨hsound, htotal, hpos⟩ := ih hp
    obtain ⟨hsound', htotal', hfees, -, -, -, hpays⟩ := connectBlockChecks_value hsound hchecks
    have hreward := (getProofOfWorkReward_range env e.nHeight).2
    rw [hheight] at hreward
    have hsucc := supplyBound_succ (t.height_nonneg hp)
    simp only [getBlockValue, hheight] at hpays
    refine ⟨hsound', ?_, ?_⟩
    · rw [CoinsMap.setBest_utxo, hheight]
      omega
    · obtain ⟨-, -, -, htxs, -⟩ := connectBlockChecks_ok hchecks
      obtain ⟨undos, hupdates, -⟩ := connectTransactions_updates htxs
      have hparent := t.height_nonneg hp
      exact hupdates.heightsPos hpos (by simp only [ConnectParams.of]; omega)

theorem ConnectsTo.totalValue_le (h : ConnectsTo env t blocks hash s) {e : CBlockIndex}
    (hentry : t.entry hash = some e) : totalValue s.utxo ≤ plannedSupply env e.nHeight.toNat := by
  induction h generalizing e with
  | genesis hentry' hroot =>
    obtain rfl := Option.some.inj (hentry.symm.trans hentry')
    rw [show CoinsMap.utxo ⟨fun _ => none, some env.hashGenesisBlock⟩ = fun _ => none from rfl, totalValue_empty,
      t.root hentry hroot]
    exact le_rfl
  | connect hbranch hentry' hprev _ hchecks ih =>
    obtain rfl := Option.some.inj (hentry.symm.trans hentry')
    obtain ⟨p, hp, hheight⟩ := t.parent hentry hprev
    have hparent := t.height_nonneg hp
    obtain ⟨-, htotal, hfees, -, -, -, hpays⟩ := connectBlockChecks_value (hbranch.sound hp).1 hchecks
    have hsucc : e.nHeight.toNat = p.nHeight.toNat + 1 := by omega
    have hreward : ((p.nHeight.toNat : Int) + 1) = e.nHeight := by omega
    have hprevious := ih hp
    rw [getBlockValue] at hpays
    rw [CoinsMap.setBest_utxo, hsucc, plannedSupply, hreward]
    omega

/-- **Going back along a branch**: from any clean view like it, `DisconnectBlock` with the
undo data of the connection returns true, without inconsistency, in a view like the one of
the predecessor. -/
theorem ConnectsTo.disconnect {pprev : Uint256} {e : CBlockIndex}
    {nAdjustedTime : Int} {state : ConnectState} {s₀ s₁ r : CoinsMap}
    (hbranch : ConnectsTo env t blocks pprev s₀) (hentry : t.entry hash = some e)
    (hprev : e.pprev = some pprev)
    (hchecks : (connectBlockChecks env nAdjustedTime (heightOf t.entry) block e false).run
      CoinsMap.handler s₀ = (.ok (some state), s₁))
    (hview : CoinsMap.ViewEq r (s₁.setBest hash)) (hclean : CleanOn (fun _ => True) r) :
    ∃ r', (disconnectBlock env (.ok ⟨state.vtxundo⟩) block e).run CoinsMap.handler r =
        (.ok true, r') ∧ CoinsMap.ViewEq r' s₀ ∧ CleanOn (fun _ => True) r' := by
  obtain ⟨p, hp, hheight⟩ := t.parent hentry hprev
  have hparent := t.height_nonneg hp
  have hbest : r.best = some e.phashBlock := by rw [hview.2, t.hash_eq hentry]; rfl
  obtain ⟨r', hrun, hutxo, hbest', hbest₀, hclean'⟩ :=
    disconnectBlock_map hchecks hprev (by omega) (hbranch.sound hp).2.2 ⟨rfl, rfl, rfl⟩ hview.1
      hbest hclean fun _ _ => trivial
  exact ⟨r', hrun, ⟨hutxo, hbest'.trans hbest₀.symm⟩, hclean'⟩

end Branch

end Manna
