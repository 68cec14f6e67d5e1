import Manna.Ancestry
import Manna.Supply

/-!
`nMoneySupply` against the unspent outputs (`main.cpp`: `CBlock::ConnectBlock`).

`ConnectBlock` records the supply of the predecessor plus what the coinbase pays: `nValueIn`
and the rest of `nValueOut` are gathered in the proof-of-stake build only. What is really
unspent is less by the fees, which no one receives.

* `feesOf`: the fees of a list of transactions, from what they spend and put out;
* `BurnedTo`: the fees along a branch;
* `Ledger.Reachable.nMoneySupply_eq_iff`: in every run, the supply recorded for a connected
  block is the total of its unspent outputs exactly when no fee was paid up to it.
-/

namespace Manna

open OpProg

/-- What a transaction spends less what it puts out. -/
def feeOf (u : Utxo) (tx : CTransaction) : Int :=
  if tx.isCoinBase then 0 else ((coinsOf u tx.vin).map coinSum).getD 0 - valueSum tx.vout

/-- The unspent outputs after a transaction. -/
def Utxo.afterTx (env : Env) (nHeight : Int) (tx : CTransaction) (u : Utxo) : Utxo :=
  (u.eraseInputs (if tx.isCoinBase then [] else tx.vin)).addOutputs tx nHeight (env.txHash tx)

def feesOf (env : Env) (nHeight : Int) : List CTransaction → Utxo → Int
  | [], _ => 0
  | tx :: vtx, u => feeOf u tx + feesOf env nHeight vtx (u.afterTx env nHeight tx)

theorem connectTransaction_fee {env : Env} {params : ConnectParams} {tx : CTransaction}
    {state state' : ConnectState} {s s' : CoinsMap} (hchecked : checkTransaction tx = .ok ())
    (h : (connectTransaction env params tx state).run CoinsMap.handler s = (.ok state', s')) :
    state'.nFees = state.nFees + feeOf s.utxo tx ∧ s'.utxo = s.utxo.afterTx env params.pindex.nHeight tx := by
  obtain ⟨checked, txundo, hchecks, hupdate, rfl⟩ := connectTransaction_ok h
  refine ⟨?_, (updateCoins_ok hupdate).1⟩
  rcases connectChecksAt_ok hchecks with ⟨hcb, nValueOut, -, rfl⟩ | ⟨hcb, hinputs⟩
  · simp [hcb, feeOf]
  · obtain ⟨coins, nTxValueIn, nFees, nHeight, vChecks, hcoins, hsum, hfee, -, -, rfl⟩ :=
      connectInputsAt_ok hinputs
    have hin := sumValues_eq_ok hsum
    have hfees := addFee_eq_ok hchecked hfee
    simp only at hfees
    simp only [hcb, Bool.false_eq_true, if_false, feeOf, hcoins, Option.map_some, Option.getD_some]
    omega

/-- **The fees of a block** are what the loop gathers. -/
theorem connectTransactions_fees {env : Env} {params : ConnectParams} {vtx : List CTransaction}
    {state state' : ConnectState} {s s' : CoinsMap} (hchecked : ∀ tx ∈ vtx, checkTransaction tx = .ok ())
    (h : (connectTransactions env params vtx state).run CoinsMap.handler s = (.ok state', s')) :
    state'.nFees = state.nFees + feesOf env params.pindex.nHeight vtx s.utxo := by
  induction vtx generalizing state s with
  | nil =>
    simp only [connectTransactions, Prog.run_pure, Prod.mk.injEq, Except.ok.injEq] at h
    obtain ⟨rfl, -⟩ := h
    simp [feesOf]
  | cons tx vtx ih =>
    rw [List.forall_mem_cons] at hchecked
    obtain ⟨state₁, s₁, hfirst, hrest⟩ := Prog.run_bind_eq_ok.mp h
    obtain ⟨hfee, hutxo⟩ := connectTransaction_fee hchecked.1 hfirst
    have htail := ih hchecked.2 hrest
    rw [hutxo] at htail
    rw [feesOf]
    omega

theorem connectBlockChecks_fees {env : Env} {nAdjustedTime : Int} {heights : Uint256 → Option Int}
    {block : CBlock} {pindex : CBlockIndex} {fJustCheck : Bool} {state : ConnectState}
    {s s' : CoinsMap} (h : (connectBlockChecks env nAdjustedTime heights block pindex fJustCheck).run
      CoinsMap.handler s = (.ok (some state), s')) :
    state.nFees = feesOf env pindex.nHeight block.vtx s.utxo := by
  obtain ⟨hblock, -, -, htxs, -⟩ := connectBlockChecks_ok h
  have hfees := connectTransactions_fees (fun tx hmem => (hblock.transactions tx hmem).1) htxs
  simpa [ConnectState.init, ConnectParams.of] using hfees

/-! ### Fees along a branch -/

/-- The fees paid from the genesis block up to a block, and the view of the branch. -/
inductive BurnedTo (env : Env) (t : BlockTree) (blocks : Uint256 → Option CBlock) :
    Uint256 → CoinsMap → Int → Prop
  | genesis {e : CBlockIndex} (hentry : t.entry env.hashGenesisBlock = some e)
      (hroot : e.pprev = none) :
      BurnedTo env t blocks env.hashGenesisBlock ⟨fun _ => none, some env.hashGenesisBlock⟩ 0
  | connect {hash pprev : Uint256} {e : CBlockIndex} {block : CBlock} {nAdjustedTime nBurned : Int}
      {s s' : CoinsMap} {state : ConnectState} (hburned : BurnedTo env t blocks pprev s nBurned)
      (hentry : t.entry hash = some e) (hprev : e.pprev = some pprev)
      (hblock : blocks hash = some block)
      (hchecks : (connectBlockChecks env nAdjustedTime (heightOf t.entry) block e false).run
        CoinsMap.handler s = (.ok (some state), s')) :
      BurnedTo env t blocks hash (s'.setBest hash)
        (nBurned + feesOf env e.nHeight block.vtx s.utxo)

/-- No transaction of the blocks up to `hash` pays a fee. -/
def NoFees (env : Env) (t : BlockTree) (blocks : Uint256 → Option CBlock) (hash : Uint256) : Prop :=
  ∀ hash' ∈ t.ancestry (some hash), ∀ e pprev block s, t.entry hash' = some e →
    e.pprev = some pprev → blocks hash' = some block → ConnectsTo env t blocks pprev s →
      feesOf env e.nHeight block.vtx s.utxo = 0

section Branch

variable {env : Env} {t t' : BlockTree} {blocks blocks' : Uint256 → Option CBlock}
  {hash : Uint256} {s s' : CoinsMap} {nBurned : Int}

theorem BurnedTo.connectsTo (h : BurnedTo env t blocks hash s nBurned) : ConnectsTo env t blocks hash s := by
  induction h with
  | genesis hentry hroot => exact .genesis hentry hroot
  | connect _ hentry hprev hblock hchecks ih => exact .connect ih hentry hprev hblock hchecks

theorem BurnedTo.extends (h : BurnedTo env t blocks hash s nBurned) (htree : t'.Extends t)
    (hblocks : ∀ hash e, t.entry hash = some e → ∀ block, blocks hash = some block →
      blocks' hash = some block) : BurnedTo env t' blocks' hash s nBurned := by
  induction h with
  | genesis hentry hroot =>
    obtain ⟨e', hentry', hfixed⟩ := htree _ _ hentry
    exact .genesis hentry' ((CBlockIndex.fixed_eq_iff.mp hfixed).2.1.trans hroot)
  | @connect hash pprev e block nAdjustedTime nBurned s s' state hburned hentry hprev hblock hchecks ih =>
    obtain ⟨e', hentry', hfixed⟩ := htree _ _ hentry
    obtain ⟨-, hprev', hheight, -⟩ := CBlockIndex.fixed_eq_iff.mp hfixed
    have hrun : (connectBlockChecks env nAdjustedTime (heightOf t'.entry) block e' false).run
        CoinsMap.handler s = (.ok (some state), s') := by
      rw [connectBlockChecks_congr hfixed (hburned.connectsTo.heightOf_extends htree), hchecks]
    rw [← hheight]
    exact .connect ih hentry' (hprev'.trans hprev) (hblocks _ _ hentry _ hblock) hrun

/-- **Fees are never negative**, and there are none exactly when no block has any. -/
theorem BurnedTo.eq_zero_iff (h : BurnedTo env t blocks hash s nBurned) :
    0 ≤ nBurned ∧ (nBurned = 0 ↔ NoFees env t blocks hash) := by
  induction h with
  | @genesis e hentry hroot =>
    refine ⟨le_rfl, fun _ hash' hmem e' pprev block s hentry' hprev => ?_, fun _ => rfl⟩
    have hpprev : t.pprevOf env.hashGenesisBlock = none := by
      rw [BlockTree.pprevOf, hentry, Option.bind_some, hroot]
    rw [BlockTree.ancestry_some, hpprev] at hmem
    obtain rfl := List.mem_singleton.mp hmem
    obtain rfl := Option.some.inj (hentry.symm.trans hentry')
    rw [hroot] at hprev
    cases hprev
  | @connect hash pprev e block nAdjustedTime nBurned s s' state hburned hentry hprev hblock hchecks ih =>
    obtain ⟨p, hp, -⟩ := t.parent hentry hprev
    obtain ⟨hsound, -⟩ := hburned.connectsTo.sound hp
    have hfees := (connectBlockChecks_value hsound hchecks).2.2.1
    rw [connectBlockChecks_fees hchecks] at hfees
    have hpprev : t.pprevOf hash = some pprev := by
      rw [BlockTree.pprevOf, hentry, Option.bind_some, hprev]
    have hancestry : t.ancestry (some hash) = hash :: t.ancestry (some pprev) := by
      rw [BlockTree.ancestry_some, hpprev]
    have hsplit : NoFees env t blocks hash ↔
        feesOf env e.nHeight block.vtx s.utxo = 0 ∧ NoFees env t blocks pprev := by
      unfold NoFees
      rw [hancestry, List.forall_mem_cons]
      refine and_congr_left fun _ => ⟨fun hall => ?_, fun hzero => ?_⟩
      · exact hall e pprev block s hentry hprev hblock hburned.connectsTo
      · intro e' pprev' block' s' hentry' hprev' hblock' hconnects
        obtain rfl := Option.some.inj (hentry.symm.trans hentry')
        obtain rfl := Option.some.inj (hprev.symm.trans hprev')
        obtain rfl := Option.some.inj (hblock.symm.trans hblock')
        rw [(hconnects.viewEq hburned.connectsTo).1, hzero]
    rw [hsplit, ← ih.2]
    exact ⟨by omega, by omega⟩

end Branch

/-! ### The invariant -/

namespace Ledger

variable {σ : Type} [CoinsView σ] {env : Env} {l l' : Ledger σ}

/-- The recorded supplies: of every block that was connected, the total of its branch and the
fees along it; of the genesis block, nothing. -/
structure SupplyRecorded (env : Env) (l : Ledger σ) : Prop where
  connected : ∀ hash e, l.mapBlockIndex.entry hash = some e → e.nStatus.haveUndo = true →
    ∃ s nBurned, BurnedTo env l.mapBlockIndex l.disk.blocks hash s nBurned ∧
      e.nMoneySupply = totalValue s.utxo + nBurned
  genesis : ∃ e, l.mapBlockIndex.entry env.hashGenesisBlock = some e ∧ e.pprev = none ∧
    e.nMoneySupply = 0

theorem Initial.supplyRecorded (h : Initial env l) : SupplyRecorded env l where
  connected hash e hentry hundo := by
    rw [(h.unconnected hash e hentry).1] at hundo
    cases hundo
  genesis := by
    obtain ⟨e, hentry, hroot⟩ := h.genesis
    exact ⟨e, hentry, hroot, (h.unconnected _ _ hentry).2⟩

omit [CoinsView σ] in
/-- What is recorded for a block that can be disconnected, or is the genesis block. -/
theorem SupplyRecorded.undoable (h : SupplyRecorded env l) {hash : Uint256} {s : CoinsMap}
    (hbranch : ConnectsTo env l.mapBlockIndex l.disk.blocks hash s)
    (hundoable : Undoable l.mapBlockIndex hash) : ∃ e s' nBurned, l.mapBlockIndex.entry hash = some e ∧
      BurnedTo env l.mapBlockIndex l.disk.blocks hash s' nBurned ∧
      e.nMoneySupply = totalValue s'.utxo + nBurned := by
  obtain ⟨e, hentry, hroot | hundo⟩ := hundoable
  · obtain ⟨g, hg, hgroot, hsupply⟩ := h.genesis
    cases hbranch with
    | genesis _ _ =>
      obtain rfl := Option.some.inj (hentry.symm.trans hg)
      exact ⟨e, _, _, hentry, .genesis hentry hroot, by
        rw [hsupply, show CoinsMap.utxo ⟨fun _ => none, some env.hashGenesisBlock⟩ = fun _ => none
          from rfl, totalValue_empty, add_zero]⟩
    | connect _ hentry' hprev _ _ =>
      rw [← Option.some.inj (hentry.symm.trans hentry'), hroot] at hprev
      cases hprev
  · obtain ⟨s', nBurned, hburned, hsupply⟩ := h.connected hash e hentry hundo
    exact ⟨e, s', nBurned, hentry, hburned, hsupply⟩

variable {block : CBlock} {state : ConnectState}

omit [CoinsView σ] in
theorem SupplyRecorded.store (h : SupplyRecorded env l) {e : CBlockIndex}
    (hentry : l.mapBlockIndex.New e) (hnew : e.nStatus.haveUndo = false ∧ e.nMoneySupply = 0) :
    SupplyRecorded env (⟨l.view, l.mapBlockIndex.insert e hentry,
      { l.disk with blocks := Function.update l.disk.blocks e.phashBlock (some block) }⟩ :
        Ledger σ) := by
  have htree := BlockTree.extends_insert hentry
  have hblocks := blocks_update hentry l.disk.blocks block
  refine ⟨fun hash e₀ he₀ hundo => ?_, ?_⟩
  · rw [BlockTree.entry_insert] at he₀
    split at he₀
    · obtain rfl := Option.some.inj he₀
      rw [hnew.1] at hundo
      cases hundo
    · obtain ⟨s, nBurned, hburned, hsupply⟩ := h.connected hash e₀ he₀ hundo
      exact ⟨s, nBurned, hburned.extends htree hblocks, hsupply⟩
  · obtain ⟨g, hg, hroot, hsupply⟩ := h.genesis
    exact ⟨g, BlockTree.entry_insert_of_entry hentry hg, hroot, hsupply⟩

/-- **Connecting a block** records the supply of its branch and the fees along it. -/
theorem SupplyRecorded.connect (h : SupplyRecorded env l) (hcons : Consistent env l) {io : DiskIO}
    {nAdjustedTime : Int} {hash : Uint256} {e : CBlockIndex} {undo : CBlockUndo}
    (hentry : l.mapBlockIndex.entry hash = some e) (hread : readBlock env io l.disk e = some block)
    (hconnect : l.connect env io nAdjustedTime block e = (.ok undo, l')) : SupplyRecorded env l' := by
  obtain ⟨pprev, s₀, state, s₁, result, hbranch₀, -, hundoable, hblock, hresult, -, htree, hdisk⟩ :=
    hcons.connect_ok hentry hread hconnect
  obtain ⟨p, s, nBurned, hp, hburned, hsupply⟩ := h.undoable hbranch₀ hundoable
  obtain ⟨t', hchecks₁⟩ := hresult.checks
  obtain ⟨s', hchecks, -⟩ := (related_connectBlockChecks env t' (heightOf l.mapBlockIndex.entry) block e
    false).ok (hbranch₀.viewEq hburned.connectsTo) hchecks₁
  obtain ⟨nMoneySupply, hwritten⟩ := hresult.written
  obtain ⟨hnew, hfixed, hothers⟩ := hwritten.entry hentry
  have hextends := (l.mapBlockIndex.extends_setWritten result.pindex).1
  have hblocks := hwritten.blocks
  obtain ⟨hsound, -⟩ := hburned.connectsTo.sound hp
  obtain ⟨-, htotal, -, hin, -⟩ := connectBlockChecks_value hsound hchecks
  have hrecorded := moneySupply_ok hresult.supply
  simp only [Manna.prevSupply, hresult.prev, Option.bind_some, hp, Option.map_some,
    Option.getD_some, hin, sub_zero, hsupply] at hrecorded
  rw [connectBlockChecks_fees hchecks] at htotal
  refine ⟨fun hash' e' he' hundo' => ?_, ?_⟩
  · simp only [htree, hdisk, hblocks] at he' ⊢
    by_cases heq : hash' = hash
    · subst heq
      obtain rfl := Option.some.inj (hnew.symm.trans he')
      refine ⟨s'.setBest hash', _, BurnedTo.extends (.connect hburned hentry hresult.prev hblock
        hchecks) hextends fun _ _ _ _ => id, ?_⟩
      rw [hrecorded, CoinsMap.setBest_utxo, htotal]
      omega
    · rw [hothers hash' heq] at he'
      obtain ⟨s₁, nBurned₁, hburned₁, hsupply₁⟩ := h.connected hash' e' he' hundo'
      exact ⟨s₁, nBurned₁, hburned₁.extends hextends fun _ _ _ _ => id, hsupply₁⟩
  · obtain ⟨g, hg, hroot, hgsupply⟩ := h.genesis
    refine ⟨g, ?_, hroot, hgsupply⟩
    rw [htree, hothers _ fun heq => ?_, hg]
    -- The genesis block is not connected to a predecessor.
    rw [heq, hentry] at hg
    rw [← Option.some.inj hg, hresult.prev] at hroot
    cases hroot

theorem Reachable.supplyRecorded (h : Reachable env l) : SupplyRecorded env l := by
  induction h with
  | initial h => exact h.supplyRecorded
  | @step l l' h hstep ih =>
    cases hstep with
    | store _ hentry hnew => exact ih.store hentry hnew
    | connect hentry hread hconnect => exact ih.connect h.consistent hentry hread hconnect
    | disconnect hentry hread hdisconnect =>
      rw [Ledger.disconnect, Prod.mk.injEq] at hdisconnect
      obtain ⟨-, rfl⟩ := hdisconnect
      exact ⟨ih.connected, ih.genesis⟩

/-- **The recorded supply is the real one exactly when no fees were paid.** In every run, for
every block that was connected, `nMoneySupply` of its entry is the total of the unspent
outputs of its branch if and only if no transaction of the blocks up to it pays a fee; for the
best block these are the unspent outputs of the view. -/
theorem Reachable.nMoneySupply_eq_iff (h : Reachable env l) {hash : Uint256} {e : CBlockIndex}
    (hentry : l.mapBlockIndex.entry hash = some e) (hconnected : e.nStatus.haveUndo = true) :
    (∃ s, ConnectsTo env l.mapBlockIndex l.disk.blocks hash s) ∧
    (∀ s, ConnectsTo env l.mapBlockIndex l.disk.blocks hash s →
      (e.nMoneySupply = totalValue s.utxo ↔ NoFees env l.mapBlockIndex l.disk.blocks hash)) ∧
    (l.view.contents.best = some hash →
      (e.nMoneySupply = totalValue l.view.contents.utxo ↔
        NoFees env l.mapBlockIndex l.disk.blocks hash)) := by
  obtain ⟨s, nBurned, hburned, hsupply⟩ := h.supplyRecorded.connected hash e hentry hconnected
  have hiff : ∀ s', ConnectsTo env l.mapBlockIndex l.disk.blocks hash s' →
      (e.nMoneySupply = totalValue s'.utxo ↔ NoFees env l.mapBlockIndex l.disk.blocks hash) := by
    intro s' hconnects
    rw [(hconnects.viewEq hburned.connectsTo).1, hsupply, ← hburned.eq_zero_iff.2]
    omega
  refine ⟨⟨s, hburned.connectsTo⟩, hiff, fun hbest => ?_⟩
  obtain ⟨best, s', hbranch, hview, -⟩ := h.consistent.branch
  rw [hview.2, hbranch.best, Option.some.injEq] at hbest
  subst hbest
  rw [hview.1]
  exact hiff s' hbranch

/-! ### Blocks that connect -/

theorem writeBlock_good (env : Env) {nPrevSupply nMoneySupply : Int}
    (h : moneySupply nPrevSupply state = .ok nMoneySupply) (pindex : CBlockIndex) (disk : BlockFiles) :
    (writeBlock env .good nPrevSupply state pindex disk).1 = .ok () := by
  have hentry : ∀ pindex, (writeIndexEntry .good ⟨state.vtxundo⟩ pindex disk).1 = .ok () := by
    intro pindex
    unfold writeIndexEntry writeUndoData
    cases hundo : pindex.nStatus.haveUndo <;> simp [ DiskIO.good, hundo]
    split <;> rfl
  have hwritten := hentry { pindex with nMoneySupply := nMoneySupply }
  unfold writeBlock
  rw [h]
  dsimp only
  generalize writeIndexEntry .good ⟨state.vtxundo⟩ { pindex with nMoneySupply := nMoneySupply } disk =
    written at hwritten
  obtain ⟨outcome, pindex', disk'⟩ := written
  dsimp only at hwritten
  subst hwritten
  simp [ DiskIO.good]

theorem connectTransaction_of_checks {params : ConnectParams} {tx : CTransaction}
    {checked : ConnectState} {s : CoinsMap} (hwell : checkTransaction tx = .ok ())
    (hchecks : connectChecksAt env params tx state s.utxo (s.best.bind params.heights) = .ok checked) :
    ∃ state' s', (connectTransaction env params tx state).run CoinsMap.handler s = (.ok state', s') ∧
      state'.nFees = checked.nFees ∧ state'.vChecks = checked.vChecks ∧
      state'.nSigOps = checked.nSigOps ∧ state'.nValueOut = checked.nValueOut ∧
      s'.utxo = s.utxo.afterTx env params.pindex.nHeight tx ∧ s'.best = s.best := by
  have hpresent : tx.isCoinBase = false → ∀ txin ∈ tx.vin, (s.utxo txin.prevout).isSome = true := by
    intro hcb
    rcases connectChecksAt_ok hchecks with ⟨hcb', -⟩ | ⟨-, hinputs⟩
    · rw [hcb] at hcb'
      cases hcb'
    · obtain ⟨coins, -, -, -, -, hcoins, -⟩ := connectInputsAt_ok hinputs
      exact coinsOf_isSome_iff.mp (by rw [hcoins]; rfl)
  obtain ⟨txundo, s', hupdate⟩ : ∃ txundo s', (updateCoins tx params.pindex.nHeight
      (env.txHash tx)).run CoinsMap.handler s = (.ok txundo, s') :=
    updateCoins_isOk (checkTransaction_eq_ok hwell).prevout_nodup hpresent
  refine ⟨if tx.isCoinBase then checked else { checked with vtxundo := checked.vtxundo ++ [txundo] },
    s', ?_, ?_⟩
  · unfold connectTransaction
    rw [Prog.run_bind, run_connectChecks, hchecks]
    dsimp only
    rw [Prog.run_bind, hupdate]
    rfl
  · obtain ⟨hutxo, hbest⟩ := updateCoins_ok hupdate
    refine ⟨?_, ?_, ?_, ?_, hutxo, hbest⟩ <;> split <;> rfl

theorem connectBlockChecks_of_loop {nAdjustedTime : Int} {heights : Uint256 → Option Int}
    {pindex : CBlockIndex} {s s' : CoinsMap}
    (hcheck : checkBlock env nAdjustedTime block true true = .ok ()) (hprev : pindex.pprev = s.best)
    (hgenesis : block.getHash env ≠ env.hashGenesisBlock)
    (hfresh : ∀ tx ∈ block.vtx, ∀ n, s.utxo ⟨env.txHash tx, n⟩ = none)
    (hloop : (connectTransactions env (.of heights pindex) block.vtx .init).run CoinsMap.handler s =
      (.ok state, s')) (hfinish : connectFinish env block pindex state = .ok state) :
    (connectBlockChecks env nAdjustedTime heights block pindex false).run CoinsMap.handler s =
      (.ok (some state), s') := by
  unfold connectBlockChecks
  rw [Bool.not_false, Prog.run_bind, Prog.run_ofExcept, hcheck]
  dsimp only
  rw [Prog.run_bind, CoinsM.run_getBestBlock]
  dsimp only
  rw [if_neg (not_not.mpr hprev), if_neg hgenesis, Prog.run_bind, run_checkOverwrite,
    if_pos fun hash hmem => ?_]
  · dsimp only
    rw [Prog.run_bind, hloop]
    dsimp only
    rw [Prog.run_bind, Prog.run_ofExcept, hfinish]
    rfl
  · obtain ⟨tx, hin, rfl⟩ := List.mem_map.mp hmem
    exact hfresh tx hin

theorem connectFinish_of {pindex : CBlockIndex}
    {coinbase : CTransaction} {vtx : List CTransaction} {nValueOut : Int}
    (hvtx : block.vtx = coinbase :: vtx) (hout : coinbase.getValueOut = .ok nValueOut)
    (hpays : nValueOut ≤ getBlockValue env pindex state.nFees)
    (hscripts : state.vChecks.all (CScriptCheck.passes env) = true) :
    connectFinish env block pindex state = .ok state := by
  unfold connectFinish
  rw [hvtx]
  dsimp only
  rw [hout]
  dsimp only
  rw [if_neg (Int.not_lt.mpr hpays), if_pos hscripts]

theorem Consistent.connect_of_checks (h : Consistent env l) {nAdjustedTime : Int}
    {e : CBlockIndex} {s : CoinsMap}
    (hchecks : (connectBlockChecks env nAdjustedTime (heightOf l.mapBlockIndex.entry) block e
      false).run CoinsMap.handler l.view.contents = (.ok (some state), s)) :
    (l.connect env .good nAdjustedTime block e).1 = .ok ⟨state.vtxundo⟩ := by
  have hmoney := h.moneySupply_of_checks hchecks
  rw [Ledger.connect, (connectBlock_contents env .good nAdjustedTime l.mapBlockIndex.entry block e false
    l.view l.disk).1]
  unfold connectBlock connectBlockWrites
  rw [hchecks]
  simp only [Bool.false_eq_true, if_false]
  have hwrite := writeBlock_good env hmoney e l.disk
  generalize writeBlock env .good (Manna.prevSupply l.mapBlockIndex.entry e) state e l.disk =
    written at hwrite
  obtain ⟨outcome, pindex', disk'⟩ := written
  dsimp only at hwrite
  subst hwrite
  rfl

/-! ### A chain that pays a fee -/

/-- What the coinbases of a chain of blocks without transactions pay. -/
def chainReward (k : Nat) : Int := if k = 0 then 5 * COIN else CENT

def chainTx (k : Nat) : CTransaction := sampleCoinBase (5001 + k) 500 (chainReward k)

def chainBlock (k : Nat) : CBlock :=
  ⟨⟨1, 1000 + k, 5001 + k, 500, 0x1d0fffff, 1001 + k⟩, [chainTx k], []⟩


theorem checkProofOfWork_sample : checkProofOfWork 0 0x1d0fffff = true := by decide

theorem chainReward_le (k : Nat) (hk : k < 500) :
    0 ≤ chainReward k ∧ chainReward k ≤ getProofOfWorkReward sampleEnv (k + 1) := by
  by_cases hzero : k = 0
  · subst hzero
    decide
  · have hreward : getProofOfWorkReward sampleEnv (k + 1) = CENT := by
      unfold getProofOfWorkReward
      rw [if_neg (show ¬ sampleEnv.fTestNet = true by decide), if_neg (by omega), if_pos (by omega)]
    rw [hreward, chainReward, if_neg hzero]
    decide

theorem checkTransaction_chainTx (k : Nat) : checkTransaction (chainTx k) = .ok () := by
  unfold chainTx chainReward
  split <;> rfl

theorem checkBlock_chainBlock (k : Nat) : checkBlock sampleEnv 1000 (chainBlock k) true true = .ok () := by
  have hsize : (chainBlock k).serializeSize = 148 := rfl
  refine checkBlock_eq_ok.mpr ⟨⟨?_, ?_⟩, fun _ => ?_, ?_, checkBlockContents_eq_ok.mpr
    ⟨⟨chainTx k, [], rfl, rfl, by simp⟩, fun tx hmem => ?_, ?_, ?_, fun _ => ⟨rfl, rfl⟩⟩⟩
  · rw [hsize]
    decide
  · show 1 ≤ MAX_BLOCK_SIZE
    decide
  · exact checkProofOfWork_sample
  · show (500 : Int) ≤ 1000 + nMaxClockDrift
    decide
  · obtain rfl := List.mem_singleton.mp hmem
    exact ⟨checkTransaction_chainTx k, le_rfl⟩
  · exact List.nodup_singleton _
  · show 0 ≤ MAX_BLOCK_SIGOPS
    decide

theorem afterTx_chainTx (k : Nat) (nHeight : Int) (u : Utxo) (j : Uint256) (n : Nat) :
    u.afterTx sampleEnv nHeight (chainTx k) ⟨j, n⟩ =
      if j = 5001 + k then (CCoins.ofTx (chainTx k) nHeight).coinAt n else u ⟨j, n⟩ := by
  rw [Utxo.afterTx, if_pos (show (chainTx k).isCoinBase = true from rfl), Utxo.eraseInputs_nil]
  rfl

/-- A ledger with `k` blocks of the chain. -/
structure ChainOf (k : Nat) (l : Ledger CCoinsViewDB) : Prop where
  reachable : Reachable sampleEnv l
  best : l.view.contents.best = some (1000 + k)
  tip : ∃ e, l.mapBlockIndex.entry (1000 + k) = some e ∧ e.nHeight = k
  free : ∀ j, k < j → l.mapBlockIndex.entry (1000 + j) = none
  unspent : ∀ j n, 5000 + k < j → l.view.contents.utxo ⟨j, n⟩ = none
  first : 0 < k → l.view.contents.utxo ⟨5001, 0⟩ = some ⟨⟨5 * COIN, []⟩, true, 1, 1⟩

theorem chainOf_sample : ChainOf 0 sample where
  reachable := .initial (by
    refine ⟨?_, ⟨_, entry_sampleTree _, rfl⟩, fun hash e hentry => ?_⟩
    · rw [sample, CCoinsViewCache.contents_new]
      rfl
    · rw [sample, entry_sampleTree] at hentry
      split at hentry
      · exact Option.some.inj hentry ▸ ⟨rfl, rfl⟩
      · cases hentry)
  best := by
    rw [sample, CCoinsViewCache.contents_new]
    rfl
  tip := ⟨_, entry_sampleTree _, rfl⟩
  free j hj := by
    rw [sample, entry_sampleTree, if_neg (by show ¬ 1000 + j = 1000; omega)]
  unspent j n _ := by
    rw [sample, CCoinsViewCache.contents_new]
    rfl
  first h := absurd h (lt_irrefl 0)

/-- The block `1001 + k`, whose transactions pass, is connected to a chain of `k` blocks. -/
theorem ChainOf.extend {k : Nat} {l : Ledger CCoinsViewDB} (h : ChainOf k l) (hk : k < 1000)
    (block : CBlock) (hhash : block.getHash sampleEnv = 1001 + k)
    (hpow : checkProofOfWork (sampleEnv.powHash block.toCBlockHeader) block.nBits = true)
    (hchecks : ∀ heights : Uint256 → Option Int, heights (1000 + k) = some (k : Int) →
      ∃ state s', (connectBlockChecks sampleEnv 1000 heights block
        (sampleEntry (1001 + k) (some (1000 + k)) (k + 1) 500) false).run CoinsMap.handler
          l.view.contents = (.ok (some state), s')) : ∃ (l' : Ledger CCoinsViewDB) (e : CBlockIndex),
      Reachable sampleEnv l' ∧ l'.view.contents.best = some (1001 + k) ∧
      l'.mapBlockIndex.entry (1001 + k) = some e ∧ e.nHeight = k + 1 ∧
      e.nStatus.haveUndo = true ∧ e.pprev = some (1000 + k) ∧ l'.disk.blocks (1001 + k) = some block ∧
      (∀ j, k + 1 < j → l'.mapBlockIndex.entry (1000 + j) = none) ∧
      (∃ s, ConnectsTo sampleEnv l'.mapBlockIndex l'.disk.blocks (1000 + k) s ∧
        s.utxo = l.view.contents.utxo) ∧ ∃ heights state s', heights (1000 + k) = some (k : Int) ∧
        (connectBlockChecks sampleEnv 1000 heights block
          (sampleEntry (1001 + k) (some (1000 + k)) (k + 1) 500) false).run CoinsMap.handler
            l.view.contents = (.ok (some state), s') ∧ l'.view.contents.utxo = s'.utxo := by
  obtain ⟨p, hp, hheight⟩ := h.tip
  have hnew : l.mapBlockIndex.New (sampleEntry (1001 + k) (some (1000 + k)) (k + 1) 500) := by
    refine ⟨?_, fun hprev => ?_, fun hprev => ?_, ?_⟩
    · show l.mapBlockIndex.entry (1001 + k) = none
      rw [show 1001 + k = 1000 + (k + 1) by omega]
      exact h.free _ (Nat.lt_succ_self k)
    · cases hprev
      exact ⟨p, hp, by rw [hheight]; rfl⟩
    · cases hprev
    · show ((k : Int) + 1) ≤ INT_MAX
      simp only [INT_MAX]
      omega
  -- The block is stored and indexed, then connected.
  have hstore : Reachable sampleEnv _ := .step h.reachable (.store hhash hnew ⟨rfl, rfl⟩)
  have hentry : (l.mapBlockIndex.insert _ hnew).entry (1001 + k) = some _ := BlockTree.entry_insert_self hnew
  have hold := BlockTree.entry_insert_of_entry hnew hp
  generalize hl₁ : (⟨l.view, l.mapBlockIndex.insert _ hnew, { l.disk with
    blocks := Function.update l.disk.blocks (sampleEntry (1001 + k) (some (1000 + k)) (k + 1)
      500).phashBlock (some block) }⟩ : Ledger CCoinsViewDB) = l₁ at hstore
  have hview : l₁.view = l.view := by rw [← hl₁]
  have htree : l₁.mapBlockIndex = l.mapBlockIndex.insert _ hnew := by rw [← hl₁]
  have hblock : l₁.disk.blocks (1001 + k) = some block := by
    rw [← hl₁]
    exact Function.update_self ..
  rw [← htree] at hentry hold
  have hheights : heightOf l₁.mapBlockIndex.entry (1000 + k) = some (k : Int) := by
    rw [heightOf, hold, Option.map_some, hheight]
  obtain ⟨state, s', hrun⟩ := hchecks _ hheights
  have hrun' := hrun
  rw [← hview] at hrun'
  have hread : readBlock sampleEnv .good l₁.disk (sampleEntry (1001 + k) (some (1000 + k)) (k + 1) 500) =
      some block := by
    unfold readBlock
    simp only [ DiskIO.good, Bool.not_true, Bool.false_eq_true, if_false, sampleEntry, hblock, hpow,
      hhash, ne_eq, not_true_eq_false]
  obtain ⟨l', hconnect⟩ : ∃ l', l₁.connect sampleEnv .good 1000 block
      (sampleEntry (1001 + k) (some (1000 + k)) (k + 1) 500) = (.ok ⟨state.vtxundo⟩, l') :=
    ⟨_, Prod.ext (hstore.consistent.connect_of_checks hrun') rfl⟩
  obtain ⟨pprev, s, _, _, result, hbranch, hviewEq, -, -, hresult, -, htree', hdisk⟩ :=
    hstore.consistent.connect_ok hentry hread hconnect
  obtain ⟨state₁, s₁, hrun₁, hcontents⟩ := Ledger.connect_ok hconnect
  rw [hrun'] at hrun₁
  cases hrun₁
  obtain ⟨_, hwritten⟩ := hresult.written
  obtain ⟨hself, hfixed, hothers⟩ := hwritten.entry hentry
  obtain ⟨-, hprev', hheight', -⟩ := CBlockIndex.fixed_eq_iff.mp hfixed
  obtain rfl : 1000 + k = pprev := Option.some.inj hresult.prev
  refine ⟨l', result.pindex, .step hstore (.connect hentry hread hconnect), ?_, ?_, hheight',
    hresult.haveUndo, hprev', ?_, fun j hj => ?_, ⟨s, ?_, ?_⟩, _, state, s', hheights, hrun, ?_⟩
  · rw [hcontents]
    rfl
  · rw [htree', hself]
  · rw [hdisk, hwritten.blocks, hblock]
  · have hne : 1000 + j ≠ 1001 + k := by omega
    rw [htree', hothers _ hne, htree, BlockTree.entry_insert]
    exact (if_neg hne).trans (h.free j (by omega))
  · rw [htree', hdisk, hwritten.blocks]
    exact hbranch.extends (BlockTree.extends_setWritten _ _).1 fun _ _ _ _ => id
  · rw [← hviewEq.1, hview]
  · rw [hcontents]
    rfl

theorem connectTransaction_chainTx (k : Nat) (heights : Uint256 → Option Int) (e : CBlockIndex)
    (s : CoinsMap) : ∃ state' s', (connectTransaction sampleEnv (.of heights e) (chainTx k) .init).run
        CoinsMap.handler s = (.ok state', s') ∧ state'.nFees = 0 ∧ state'.vChecks = [] ∧
      state'.nSigOps = 0 ∧ s'.utxo = s.utxo.afterTx sampleEnv e.nHeight (chainTx k) ∧ s'.best = s.best := by
  have hadd : addValueOut 0 (chainTx k) = .ok (chainReward k) := by
    unfold chainTx chainReward
    split <;> rfl
  have hpassed : connectChecksAt sampleEnv (.of heights e) (chainTx k) .init s.utxo
      (s.best.bind heights) = .ok { ConnectState.init with nValueOut := chainReward k } := by
    have hsigops : (chainTx k).getLegacySigOpCount = 0 := rfl
    have hcb : (chainTx k).isCoinBase = true := rfl
    unfold connectChecksAt
    simp only [ConnectState.init, hsigops, hcb, hadd]
    rfl
  obtain ⟨state', s', hrun, hfees, hchecks, hsigops, -, hutxo, hbest⟩ :=
    connectTransaction_of_checks (checkTransaction_chainTx k) hpassed
  exact ⟨state', s', hrun, hfees, hchecks, hsigops, hutxo, hbest⟩

theorem getValueOut_chainTx (k : Nat) : (chainTx k).getValueOut = .ok (chainReward k) := by
  unfold chainTx chainReward
  split <;> rfl

theorem ChainOf.connect_chainBlock {k : Nat} {l : Ledger CCoinsViewDB} (h : ChainOf k l)
    (hk : k < 500) (heights : Uint256 → Option Int) :
    ∃ state s', (connectBlockChecks sampleEnv 1000 heights (chainBlock k)
      (sampleEntry (1001 + k) (some (1000 + k)) (k + 1) 500) false).run CoinsMap.handler
        l.view.contents = (.ok (some state), s') := by
  obtain ⟨state', s', hrun, -, hchecks', -⟩ := connectTransaction_chainTx k heights
    (sampleEntry (1001 + k) (some (1000 + k)) (k + 1) 500) l.view.contents
  refine ⟨state', s', connectBlockChecks_of_loop (checkBlock_chainBlock k) h.best.symm ?_ ?_ ?_ ?_⟩
  · show ¬ 1001 + k = 1000
    omega
  · intro tx hmem n
    obtain rfl := List.mem_singleton.mp hmem
    exact h.unspent (5001 + k) n (by omega)
  · show (connectTransactions _ _ [chainTx k] _).run _ _ = _
    unfold connectTransactions
    rw [Prog.run_bind, hrun]
    rfl
  · refine connectFinish_of rfl (getValueOut_chainTx k) (chainReward_le k hk).2 ?_
    rw [hchecks']
    rfl

theorem ChainOf.succ {k : Nat} {l : Ledger CCoinsViewDB} (h : ChainOf k l) (hk : k < 500) :
    ∃ l', ChainOf (k + 1) l' := by
  obtain ⟨l', e, hreach, hbest, hentry, hheight, -, -, -, hfree, -, heights, state, s', -, hrun, hutxo⟩ :=
    h.extend (by omega) (chainBlock k) rfl checkProofOfWork_sample fun heights _ =>
      h.connect_chainBlock hk heights
  obtain ⟨-, -, -, htxs, -⟩ := connectBlockChecks_ok hrun
  obtain ⟨state₁, s₁, hfirst, hrest⟩ := Prog.run_bind_eq_ok.mp htxs
  obtain rfl : s₁ = s' := congrArg Prod.snd hrest
  rw [(connectTransaction_fee (checkTransaction_chainTx k) hfirst).2] at hutxo
  have hcoin : ∀ j n, l'.view.contents.utxo ⟨j, n⟩ =
      if j = 5001 + k then (CCoins.ofTx (chainTx k) (k + 1)).coinAt n
      else l.view.contents.utxo ⟨j, n⟩ := by
    rw [hutxo]
    exact afterTx_chainTx k (k + 1) l.view.contents.utxo
  refine ⟨l', hreach, ?_, ⟨e, ?_, hheight⟩, fun j hj => hfree j hj, fun j n hj => ?_, fun _ => ?_⟩
  · rw [hbest, show 1001 + k = 1000 + (k + 1) by omega]
  · rw [show 1000 + (k + 1) = 1001 + k by omega, hentry]
  · rw [hcoin, if_neg (Nat.ne_of_gt (by omega))]
    exact h.unspent j n (by omega)
  · rw [hcoin]
    split
    · next hzero =>
      obtain rfl : k = 0 := Nat.left_eq_add.mp hzero
      rfl
    · next hpos => exact h.first (Nat.pos_of_ne_zero fun hzero => hpos (by rw [hzero]))

theorem chainOf_exists (k : Nat) (hk : k ≤ 500) : ∃ l, ChainOf k l := by
  induction k with
  | zero => exact ⟨_, chainOf_sample⟩
  | succ k ih =>
    obtain ⟨l, hl⟩ := ih (by omega)
    exact hl.succ (by omega)

/-- The block that pays a fee: it spends the first coinbase, which is mature then. -/
def feeTx : CTransaction := sampleTx 9000 500 [sampleIn 5001 0] [4 * COIN]

theorem coinsOf_feeTx {u : Utxo} (h : u ⟨5001, 0⟩ = some ⟨⟨5 * COIN, []⟩, true, 1, 1⟩) :
    coinsOf u feeTx.vin = some [⟨⟨5 * COIN, []⟩, true, 1, 1⟩] :=
  coinsOf_cons_eq_some.mpr ⟨_, [], h, rfl, rfl⟩

def feeBlock : CBlock := ⟨⟨1, 1500, 0, 500, 0x1d0fffff, 1501⟩, [chainTx 500, feeTx], []⟩


theorem checkBlock_feeBlock : checkBlock sampleEnv 1000 feeBlock true true = .ok () := by
  decide

theorem ChainOf.connect_feeBlock {l : Ledger CCoinsViewDB} (h : ChainOf 500 l)
    (heights : Uint256 → Option Int) (hheights : heights 1500 = some 500) :
    ∃ state s', (connectBlockChecks sampleEnv 1000 heights feeBlock
      (sampleEntry 1501 (some 1500) 501 500) false).run CoinsMap.handler l.view.contents =
        (.ok (some state), s') := by
  obtain ⟨state₁, s₁, hrun₁, hfees, hchecks, hsigops, hutxo, hbest⟩ := connectTransaction_chainTx 500
    heights (sampleEntry 1501 (some 1500) 501 500) l.view.contents
  have hcoins : coinsOf s₁.utxo feeTx.vin = some [⟨⟨5 * COIN, []⟩, true, 1, 1⟩] := by
    rw [hutxo]
    exact coinsOf_feeTx ((afterTx_chainTx ..).trans (h.first (by decide)))
  have hheight : s₁.best.bind heights = some 500 := by rw [hbest, h.best]; exact hheights
  obtain ⟨nFees, nValueIn, nValueOut, nSigOps, vtxundo, vChecks⟩ := state₁
  dsimp only at hfees hchecks hsigops
  subst hfees hchecks hsigops
  have hinputs : connectInputsAt sampleEnv (.of heights (sampleEntry 1501 (some 1500) 501 500)) feeTx
      ⟨0, nValueIn, nValueOut, 0, vtxundo, []⟩ s₁.utxo (some 500) =
        .ok ⟨COIN, nValueIn, nValueOut, 0, vtxundo, []⟩ := by
    unfold connectInputsAt checkInputsAt
    rw [hcoins]
    rfl
  have hpassed : connectChecksAt sampleEnv (.of heights (sampleEntry 1501 (some 1500) 501 500)) feeTx
      ⟨0, nValueIn, nValueOut, 0, vtxundo, []⟩ s₁.utxo (s₁.best.bind heights) =
        .ok ⟨COIN, nValueIn, nValueOut, 0, vtxundo, []⟩ := by
    rw [hheight]
    exact hinputs
  obtain ⟨state₂, s₂, hrun₂, -, hchecks₂, -⟩ := connectTransaction_of_checks rfl hpassed
  refine ⟨state₂, s₂, connectBlockChecks_of_loop checkBlock_feeBlock h.best.symm (by decide) ?_ ?_ ?_⟩
  · intro tx hmem n
    rcases List.mem_pair.mp hmem with rfl | rfl
    · exact h.unspent _ n (by decide)
    · exact h.unspent _ n (by decide)
  · show (connectTransactions _ _ [chainTx 500, feeTx] _).run _ _ = _
    unfold connectTransactions
    rw [Prog.run_bind, hrun₁]
    dsimp only
    unfold connectTransactions
    rw [Prog.run_bind, hrun₂]
    rfl
  · refine connectFinish_of rfl (getValueOut_chainTx 500) (by
      show chainReward 500 ≤ getProofOfWorkReward sampleEnv 501
      decide) ?_
    rw [hchecks₂]
    rfl

theorem nMoneySupply_eq_iff_chain :
    ∃ (l : Ledger CCoinsViewDB) (e : CBlockIndex), l.mapBlockIndex.entry 1001 = some e ∧
      (e.nMoneySupply = totalValue l.view.contents.utxo ↔
        NoFees sampleEnv l.mapBlockIndex l.disk.blocks 1001) := by
  obtain ⟨l, e, hreach, hbest, hentry, -, hundo, -⟩ := chainOf_sample.extend (by decide)
    (chainBlock 0) rfl checkProofOfWork_sample fun heights _ =>
      chainOf_sample.connect_chainBlock (by decide) heights
  exact ⟨l, e, hentry, (hreach.nMoneySupply_eq_iff hentry hundo).2.2 hbest⟩

/-- **A fee makes the recorded supply wrong.** -/
theorem not_forall_nMoneySupply :
    ¬ ∀ l : Ledger CCoinsViewDB, Reachable sampleEnv l → ∀ hash e, l.mapBlockIndex.entry hash = some e →
      e.nStatus.haveUndo = true → l.view.contents.best = some hash →
        e.nMoneySupply = totalValue l.view.contents.utxo := by
  intro hall
  obtain ⟨l, h⟩ := chainOf_exists 500 le_rfl
  obtain ⟨l', e, hreach, hbest, hentry, hheight, hundo, hprev, hblock, -, ⟨s, hbranch, hutxo⟩, -⟩ :=
    h.extend (by decide) feeBlock rfl checkProofOfWork_sample fun heights hheights =>
      h.connect_feeBlock heights hheights
  have hnone := ((hreach.nMoneySupply_eq_iff hentry hundo).2.2 hbest).mp (hall l' hreach 1501 e hentry
    hundo hbest)
  have hfees := hnone 1501 (BlockTree.mem_ancestry_self _ _) e 1500 feeBlock s hentry hprev hblock hbranch
  have hcoin : s.utxo ⟨5001, 0⟩ = some ⟨⟨5 * COIN, []⟩, true, 1, 1⟩ := by
    rw [hutxo]
    exact h.first (by decide)
  -- The coinbase pays no fee, the other transaction one coin.
  have hsecond : coinsOf (s.utxo.afterTx sampleEnv e.nHeight (chainTx 500)) feeTx.vin =
      some [⟨⟨5 * COIN, []⟩, true, 1, 1⟩] :=
    coinsOf_feeTx ((afterTx_chainTx ..).trans hcoin)
  have hfee : feesOf sampleEnv e.nHeight feeBlock.vtx s.utxo = COIN := by
    show feeOf s.utxo (chainTx 500) +
      (feeOf (s.utxo.afterTx sampleEnv e.nHeight (chainTx 500)) feeTx + 0) = COIN
    rw [feeOf, if_pos (show (chainTx 500).isCoinBase = true from rfl), feeOf,
      if_neg (show ¬ feeTx.isCoinBase = true by decide), hsecond]
    rfl
  rw [hfee] at hfees
  cases hfees
end Ledger

end Manna
