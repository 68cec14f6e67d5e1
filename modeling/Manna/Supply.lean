import Manna.UndoFiles

/-!
The money supply over runs of `ConnectBlock` and `DisconnectBlock`.

A `Ledger` is what the two functions work on: a cache, the block index, the files. Its
steps are the successful calls and the arrival of blocks, from an empty set of unspent
outputs after the genesis block, in any order and with any reorganisation.

* `Ledger.Reachable.consistent`: the view is always that of the branch of its best block;
* `Ledger.Reachable.no_inflation`: what a successful `ConnectBlock` does to the total value,
  and that no call forms a sum outside `int64_t`;
* `Ledger.Reachable.supply_inRange`: the total value stays below the rewards, and `MAX_MONEY`.
-/

namespace Manna

open OpProg

/-- A cache blocks are connected to, the block index and the files. -/
structure Ledger (σ : Type) where
  view : CCoinsViewCache σ
  mapBlockIndex : BlockTree
  disk : BlockFiles

namespace Ledger

variable {σ : Type} [CoinsView σ]

/-- `ConnectBlock` of an indexed block; a failed call is for the caller to discard. -/
def connect (env : Env) (io : DiskIO) (nAdjustedTime : Int) (block : CBlock) (pindex : CBlockIndex)
    (l : Ledger σ) : Except Halt CBlockUndo × Ledger σ :=
  let result := connectBlock CCoinsViewCache.handler env io nAdjustedTime l.mapBlockIndex.entry
    block pindex false l.view l.disk
  (result.outcome, ⟨result.view, l.mapBlockIndex.setWritten result.pindex, result.disk⟩)

def disconnect (env : Env) (io : DiskIO) (block : CBlock) (pindex : CBlockIndex) (l : Ledger σ) :
    Except Halt Bool × Ledger σ :=
  let result := (disconnectBlock env (readUndo io l.disk pindex) block pindex).run
    CCoinsViewCache.handler l.view
  (result.1, { l with view := result.2 })

/-- `ConnectBlock` on what the cache stands for. -/
theorem connect_contents (env : Env) (io : DiskIO) (nAdjustedTime : Int) (block : CBlock)
    (pindex : CBlockIndex) (l : Ledger σ) :
    let result := connectBlock CoinsMap.handler env io nAdjustedTime l.mapBlockIndex.entry block pindex
      false l.view.contents l.disk
    let after := l.connect env io nAdjustedTime block pindex
    after.1 = result.outcome ∧ after.2.view.contents = result.view ∧
      after.2.mapBlockIndex = l.mapBlockIndex.setWritten result.pindex ∧ after.2.disk = result.disk := by
  obtain ⟨houtcome, hcontents, hpindex, hdisk⟩ := connectBlock_contents env io nAdjustedTime
    l.mapBlockIndex.entry block pindex false l.view l.disk
  exact ⟨houtcome, hcontents, congrArg l.mapBlockIndex.setWritten hpindex, hdisk⟩

/-- A successful `ConnectBlock` makes its block the best one, after its checks. -/
theorem connect_ok {env : Env} {io : DiskIO} {nAdjustedTime : Int} {l l' : Ledger σ} {block : CBlock}
    {pindex : CBlockIndex} {undo : CBlockUndo}
    (h : l.connect env io nAdjustedTime block pindex = (.ok undo, l')) :
    ∃ state s, (connectBlockChecks env nAdjustedTime (heightOf l.mapBlockIndex.entry) block pindex
        false).run CoinsMap.handler l.view.contents = (.ok state, s) ∧
      l'.view.contents = s.setBest pindex.phashBlock := by
  obtain ⟨hok, hcontents, -⟩ := connect_contents env io nAdjustedTime block pindex l
  rw [h] at hok hcontents
  unfold connectBlock connectBlockWrites at hok hcontents
  generalize hrun : (connectBlockChecks env nAdjustedTime (heightOf l.mapBlockIndex.entry) block
    pindex false).run CoinsMap.handler l.view.contents = checked at hok hcontents
  obtain ⟨outcome, s⟩ := checked
  rcases outcome with e | _ | state
  · cases hok
  · refine ⟨none, s, rfl, hcontents.trans ?_⟩
    rw [(connectBlockChecks_none hrun).2.2]
    rfl
  · refine ⟨some state, s, rfl, hcontents.trans ?_⟩
    simp only [Bool.false_eq_true, if_false] at hok ⊢
    generalize writeBlock env io (prevSupply l.mapBlockIndex.entry pindex) state pindex l.disk = written
      at hok ⊢
    obtain ⟨outcome, pindex', disk'⟩ := written
    cases outcome with
    | error e => cases hok
    | ok _ => rfl

/-- The start: the genesis block is the best block, nothing is unspent, nothing was ever
connected. -/
structure Initial (env : Env) (l : Ledger σ) : Prop where
  view : l.view.contents = ⟨fun _ => none, some env.hashGenesisBlock⟩
  genesis : ∃ e, l.mapBlockIndex.entry env.hashGenesisBlock = some e ∧ e.pprev = none
  unconnected : ∀ hash e, l.mapBlockIndex.entry hash = some e →
    e.nStatus.haveUndo = false ∧ e.nMoneySupply = 0

/-- One step: a block is stored and indexed, connected, or disconnected. -/
inductive Step (env : Env) : Ledger σ → Ledger σ → Prop
  | store {l : Ledger σ} {block : CBlock} {e : CBlockIndex} (hhash : block.getHash env = e.phashBlock)
      (hentry : l.mapBlockIndex.New e) (hnew : e.nStatus.haveUndo = false ∧ e.nMoneySupply = 0) :
      Step env l ⟨l.view, l.mapBlockIndex.insert e hentry,
        { l.disk with blocks := Function.update l.disk.blocks e.phashBlock (some block) }⟩
  | connect {l l' : Ledger σ} {io : DiskIO} {nAdjustedTime : Int} {hash : Uint256} {block : CBlock}
      {e : CBlockIndex} {undo : CBlockUndo} (hentry : l.mapBlockIndex.entry hash = some e)
      (hread : readBlock env io l.disk e = some block)
      (hconnect : l.connect env io nAdjustedTime block e = (.ok undo, l')) : Step env l l'
  | disconnect {l l' : Ledger σ} {io : DiskIO} {hash : Uint256} {block : CBlock} {e : CBlockIndex}
      {fClean : Bool} (hentry : l.mapBlockIndex.entry hash = some e)
      (hread : readBlock env io l.disk e = some block)
      (hdisconnect : l.disconnect env io block e = (.ok fClean, l')) : Step env l l'

/-- The states of a run. -/
inductive Reachable (env : Env) : Ledger σ → Prop
  | initial {l : Ledger σ} (h : Initial env l) : Reachable env l
  | step {l l' : Ledger σ} (h : Reachable env l) (hstep : Step env l l') : Reachable env l'

/-! ### The invariant -/

/-- The view is that of the branch of its best block, which can be disconnected again, and
no entry claims more supply than its height allows. -/
structure Consistent (env : Env) (l : Ledger σ) : Prop where
  branch : ∃ hash s, ConnectsTo env l.mapBlockIndex l.disk.blocks hash s ∧
    CoinsMap.ViewEq l.view.contents s ∧ Undoable l.mapBlockIndex hash
  clean : CleanOn (fun _ => True) l.view.contents
  undo : UndoFiles env l.mapBlockIndex l.disk
  supply : ∀ hash e, l.mapBlockIndex.entry hash = some e →
    0 ≤ e.nMoneySupply ∧ e.nMoneySupply ≤ supplyBound e.nHeight

variable {env : Env} {l : Ledger σ} {block : CBlock} {e : CBlockIndex}

theorem Initial.consistent (h : Initial env l) : Consistent env l where
  branch := by
    obtain ⟨e, hentry, hroot⟩ := h.genesis
    exact ⟨_, _, .genesis hentry hroot, by rw [h.view]; exact .refl _, e, hentry, .inl hroot⟩
  clean := by rw [h.view]; exact fun _ _ _ hcoins => by cases hcoins
  undo := .of_haveUndo fun hash e hentry => (h.unconnected hash e hentry).1
  supply hash e hentry := by
    rw [(h.unconnected hash e hentry).2]
    exact ⟨le_rfl, supplyBound_nonneg _⟩

/-- A new block is stored beside those of the index. -/
theorem blocks_update {t : BlockTree} (hentry : t.New e) (blocks : Uint256 → Option CBlock)
    (block : CBlock) : ∀ hash e₀, t.entry hash = some e₀ → ∀ block₀, blocks hash = some block₀ →
      Function.update blocks e.phashBlock (some block) hash = some block₀ := by
  intro hash e₀ he₀ block₀ hblock₀
  rw [Function.update_of_ne, hblock₀]
  rintro rfl
  rw [hentry.fresh] at he₀
  cases he₀

theorem Consistent.store (h : Consistent env l) (hentry : l.mapBlockIndex.New e)
    (hnew : e.nStatus.haveUndo = false ∧ e.nMoneySupply = 0) :
    Consistent env (⟨l.view, l.mapBlockIndex.insert e hentry,
      { l.disk with blocks := Function.update l.disk.blocks e.phashBlock (some block) }⟩ :
        Ledger σ) := by
  have htree := BlockTree.extends_insert hentry
  have hblocks := blocks_update hentry l.disk.blocks block
  -- An entry of the larger index is the new one or an old one.
  have hcases : ∀ hash e₀, (l.mapBlockIndex.insert e hentry).entry hash = some e₀ →
      e₀ = e ∨ l.mapBlockIndex.entry hash = some e₀ := by
    intro hash e₀ he₀
    rw [BlockTree.entry_insert] at he₀
    split at he₀
    · exact .inl (Option.some.inj he₀).symm
    · exact .inr he₀
  have hkeep : ∀ hash, Undoable l.mapBlockIndex hash →
      Undoable (l.mapBlockIndex.insert e hentry) hash := by
    rintro hash ⟨e₀, he₀, hundo⟩
    exact ⟨e₀, BlockTree.entry_insert_of_entry hentry he₀, hundo⟩
  obtain ⟨hash, s, hbranch, hview, hundoable⟩ := h.branch
  refine ⟨⟨hash, s, hbranch.extends htree hblocks, hview, hkeep _ hundoable⟩, h.clean,
    h.undo.extends htree hblocks rfl ?_ hkeep, ?_⟩
  · intro hash e₀ he₀ hflag
    rcases hcases hash e₀ he₀ with rfl | hold
    · rw [hnew.1] at hflag
      cases hflag
    · exact ⟨e₀, hold, hflag, rfl⟩
  · intro hash e₀ he₀
    rcases hcases hash e₀ he₀ with rfl | hold
    · rw [hnew.2]
      exact ⟨le_rfl, supplyBound_nonneg _⟩
    · exact h.supply hash e₀ hold

/-- The supply at the predecessor, as `ConnectBlock` reads it. -/
theorem Consistent.prevSupply (h : Consistent env l) (e : CBlockIndex) :
    0 ≤ prevSupply l.mapBlockIndex.entry e ∧ prevSupply l.mapBlockIndex.entry e ≤ 1000000000000000000 := by
  unfold Manna.prevSupply
  cases hp : e.pprev.bind l.mapBlockIndex.entry with
  | none => exact ⟨le_rfl, by decide⟩
  | some p =>
    obtain ⟨pprev, -, hentry⟩ := Option.bind_eq_some_iff.mp hp
    obtain ⟨hnonneg, hle⟩ := h.supply pprev p hentry
    exact ⟨hnonneg, hle.trans (supplyBound_le (l.mapBlockIndex.height_le hentry))⟩

/-- A successful `ConnectBlock`, seen from the branch. -/
theorem Consistent.connect_ok {l' : Ledger σ} (h : Consistent env l) {io : DiskIO}
    {nAdjustedTime : Int} {hash : Uint256} {undo : CBlockUndo}
    (hentry : l.mapBlockIndex.entry hash = some e) (hread : readBlock env io l.disk e = some block)
    (hconnect : l.connect env io nAdjustedTime block e = (.ok undo, l')) : ∃ pprev s state s' result,
      ConnectsTo env l.mapBlockIndex l.disk.blocks pprev s ∧
      CoinsMap.ViewEq l.view.contents s ∧ Undoable l.mapBlockIndex pprev ∧ l.disk.blocks hash = some block ∧
      ConnectedTo env l.mapBlockIndex l.disk e block pprev s result state s' ∧
      l'.view.contents = result.view ∧ l'.mapBlockIndex = l.mapBlockIndex.setWritten result.pindex ∧
      l'.disk = result.disk := by
  obtain ⟨pprev, s, hbranch, hview, hundoable⟩ := h.branch
  obtain ⟨hblock, hhash⟩ := readBlock_eq_some hread
  obtain ⟨hok, hcontents, htree, hdisk⟩ := connect_contents env io nAdjustedTime block e l
  rw [hconnect] at hok hcontents htree hdisk
  obtain ⟨state, s', hresult⟩ := hbranch.connectBlock_ok hview h.clean hentry hhash hok.symm
  rw [l.mapBlockIndex.hash_eq hentry] at hblock
  exact ⟨pprev, s, state, s', _, hbranch, hview, hundoable, hblock, hresult, hcontents, htree, hdisk⟩

theorem moneySupply_ok {nPrevSupply nMoneySupply : Int} {state : ConnectState}
    (h : moneySupply nPrevSupply state = .ok nMoneySupply) :
    nMoneySupply = nPrevSupply + state.nValueOut - state.nValueIn := by
  unfold moneySupply at h
  simp only [bind, Except.bind] at h
  split at h
  · cases h
  · next hadd =>
    obtain ⟨rfl, -⟩ := addInt64_eq_ok.mp hadd
    exact (subInt64_eq_ok.mp h).1.symm

theorem Consistent.connect {l' : Ledger σ} (h : Consistent env l) {io : DiskIO}
    {nAdjustedTime : Int} {hash : Uint256} {undo : CBlockUndo}
    (hentry : l.mapBlockIndex.entry hash = some e) (hread : readBlock env io l.disk e = some block)
    (hconnect : l.connect env io nAdjustedTime block e = (.ok undo, l')) : Consistent env l' := by
  obtain ⟨pprev, s, state, s', result, hbranch, hview, hundoable, hblock, hresult, hcontents, htree,
    hdisk⟩ := h.connect_ok hentry hread hconnect
  obtain ⟨t', hchecks⟩ := hresult.checks
  obtain ⟨nMoneySupply, hwritten⟩ := hresult.written
  obtain ⟨hundo, hblocks, hkeep, hself⟩ :=
    h.undo.connect hbranch hentry hresult.prev hblock hchecks hwritten hundoable
  obtain ⟨hnew, hfixed, hothers⟩ := hwritten.entry hentry
  have hhash := l.mapBlockIndex.hash_eq hentry
  refine ⟨⟨hash, s'.setBest hash, ?_, ?_, ?_⟩, ?_, ?_, ?_⟩
  · rw [htree, hdisk, hblocks]
    exact (hresult.branch hbranch hentry hblock).extends (l.mapBlockIndex.extends_setWritten _).1
      fun _ _ _ _ => id
  · rw [hcontents, ← hhash]
    exact hresult.view
  · rw [htree]
    exact hself hresult.haveUndo
  · rw [hcontents]
    exact hresult.clean
  · rw [htree, hdisk]
    exact hundo
  · intro hash' e' he'
    rw [htree] at he'
    by_cases heq : hash' = hash
    · subst heq
      obtain rfl := Option.some.inj (hnew.symm.trans he')
      obtain ⟨p, hp, hheight⟩ := l.mapBlockIndex.parent hentry hresult.prev
      obtain ⟨hsound, -⟩ := hbranch.sound hp
      obtain ⟨-, -, -, hin, -, hout0, hpays⟩ := connectBlockChecks_value hsound hchecks
      obtain ⟨hprev0, hprevle⟩ := h.supply pprev p hp
      have hsupply := moneySupply_ok hresult.supply
      have hreward := (getProofOfWorkReward_range env e.nHeight).2
      have hsucc := supplyBound_succ (l.mapBlockIndex.height_nonneg hp)
      simp only [Manna.prevSupply, hresult.prev, Option.bind_some, hp, Option.map_some,
        Option.getD_some, hin, sub_zero] at hsupply
      simp only [getBlockValue] at hpays
      rw [(CBlockIndex.fixed_eq_iff.mp hfixed).2.2.1]
      rw [hheight] at hreward hpays ⊢
      rw [hsupply]
      exact ⟨by omega, by omega⟩
    · rw [hothers hash' heq] at he'
      exact h.supply hash' e' he'

theorem Consistent.disconnect {l' : Ledger σ} (h : Consistent env l) {io : DiskIO}
    {hash : Uint256} {fClean : Bool}
    (hentry : l.mapBlockIndex.entry hash = some e) (hread : readBlock env io l.disk e = some block)
    (hdisconnect : l.disconnect env io block e = (.ok fClean, l')) : Consistent env l' := by
  obtain ⟨best, s, hbranch, hview, hundoable⟩ := h.branch
  obtain ⟨hval, hcontents⟩ := Prog.run_abstracts CCoinsViewCache.handler_abstracts
    (disconnectBlock env (readUndo io l.disk e) block e) l.view
  rw [Ledger.disconnect, Prod.mk.injEq] at hdisconnect
  obtain ⟨hok, rfl⟩ := hdisconnect
  rw [hval] at hok
  have hrun : (disconnectBlock env (readUndo io l.disk e) block e).run CoinsMap.handler
      l.view.contents = (.ok fClean, ((disconnectBlock env (readUndo io l.disk e) block e).run
        CoinsMap.handler l.view.contents).2) := Prod.ext hok rfl
  -- The call asserts that the block is the best one and reads its undo data.
  obtain ⟨b, v, hbest, hrest⟩ := Prog.run_bind_eq_ok.mp hrun
  rw [CoinsM.run_getBestBlock, Prod.mk.injEq, Except.ok.injEq] at hbest
  obtain ⟨rfl, rfl⟩ := hbest
  rw [hview.2, hbranch.best, l.mapBlockIndex.hash_eq hentry] at hrest
  by_cases hsame : best = hash
  · subst hsame
    simp only [ne_eq, not_true_eq_false, if_false] at hrest
    obtain ⟨undo, v, hundo, hrest⟩ := Prog.run_bind_eq_ok.mp hrest
    rw [Prog.run_ofExcept, Prod.mk.injEq] at hundo
    obtain ⟨hundo, rfl⟩ := hundo
    cases hprev : e.pprev with
    | none =>
      simp only [hprev] at hrest
      cases congrArg Prod.fst hrest
    | some pprev =>
      obtain ⟨block', undo', s₀, r', hblock', hstored, hhave, hbranch₀, hrun', hview', hclean',
        hundoable'⟩ := h.undo.disconnect hbranch hundoable hentry hprev hview h.clean
      obtain rfl := Option.some.inj
        (hblock'.symm.trans (l.mapBlockIndex.hash_eq hentry ▸ (readBlock_eq_some hread).1))
      have hread' : readUndo io l.disk e = .ok undo' := by
        unfold readUndo at hundo ⊢
        rw [l.mapBlockIndex.hash_eq hentry, hstored] at hundo ⊢
        split_ifs at hundo ⊢
        rfl
      have hafter : ((disconnectBlock env (readUndo io l.disk e) block' e).run
          CCoinsViewCache.handler l.view).2.contents = r' := by rw [hcontents, hread', hrun']
      exact ⟨⟨pprev, s₀, hbranch₀, by rw [hafter]; exact hview', hundoable'⟩,
        by rw [hafter]; exact hclean', h.undo, h.supply⟩
  · simp only [ne_eq, Option.some.injEq, hsame, not_false_eq_true, if_true] at hrest
    cases congrArg Prod.fst hrest

/-- **Every step keeps the view on a branch**, and with it every run. -/
theorem Reachable.consistent (h : Reachable env l) : Consistent env l := by
  induction h with
  | initial h => exact h.consistent
  | step _ hstep ih =>
    cases hstep with
    | store _ hentry hnew => exact ih.store hentry hnew
    | connect hentry hread hconnect => exact ih.connect hentry hread hconnect
    | disconnect hentry hread hdisconnect => exact ih.disconnect hentry hread hdisconnect

/-! ### No inflation -/

theorem Consistent.moneySupply_of_checks (h : Consistent env l)
    {nAdjustedTime : Int} {heights : Uint256 → Option Int} {pindex : CBlockIndex}
    {fJustCheck : Bool} {state : ConnectState} {s' : CoinsMap}
    (hrun : (connectBlockChecks env nAdjustedTime heights block pindex fJustCheck).run CoinsMap.handler
      l.view.contents = (.ok (some state), s')) :
    moneySupply (Manna.prevSupply l.mapBlockIndex.entry pindex) state =
      .ok (Manna.prevSupply l.mapBlockIndex.entry pindex + state.nValueOut) := by
  obtain ⟨hash, s, hbranch, hview, -⟩ := h.branch
  obtain ⟨e, hentry⟩ := hbranch.entry
  have hsound : Sound l.view.contents.utxo := hview.1 ▸ (hbranch.sound hentry).1
  obtain ⟨-, -, -, hin, -, hout0, hpays⟩ := connectBlockChecks_value hsound hrun
  have hreward := (getProofOfWorkReward_range env pindex.nHeight).2
  obtain ⟨hprev0, hprevle⟩ := h.prevSupply pindex
  have hmax : maxReward pindex.nHeight ≤ 10000000000000000 := by
    unfold maxReward
    split <;> simp [COIN]
  simp only [getBlockValue] at hpays
  have hadd : addInt64 (Manna.prevSupply l.mapBlockIndex.entry pindex) state.nValueOut =
      .ok (Manna.prevSupply l.mapBlockIndex.entry pindex + state.nValueOut) :=
    toInt64_of_inInt64 (by simp only [InInt64, int64Min, int64Max]; omega)
  have hsub : subInt64 (Manna.prevSupply l.mapBlockIndex.entry pindex + state.nValueOut) 0 =
      .ok (Manna.prevSupply l.mapBlockIndex.entry pindex + state.nValueOut - 0) :=
    toInt64_of_inInt64 (by simp only [InInt64, int64Min, int64Max]; omega)
  unfold moneySupply
  rw [hin, hadd]
  simp only [bind, Except.bind]
  rw [hsub, sub_zero]

/-- On a view of a branch no sum of `ConnectBlock` leaves `int64_t`, whatever block it is
given. -/
theorem Consistent.connectBlock_ne_overflow (h : Consistent env l)
    (io : DiskIO) (nAdjustedTime : Int) (block : CBlock) (pindex : CBlockIndex) (fJustCheck : Bool) :
    (connectBlock CCoinsViewCache.handler env io nAdjustedTime l.mapBlockIndex.entry block pindex
      fJustCheck l.view l.disk).outcome ≠ .error .overflow := by
  obtain ⟨hash, s, hbranch, hview, -⟩ := h.branch
  obtain ⟨e, hentry⟩ := hbranch.entry
  obtain ⟨hsound, htotal, -⟩ := hbranch.sound hentry
  have hle := htotal.trans (supplyBound_le (l.mapBlockIndex.height_le hentry))
  rw [← hview.1] at hsound hle
  have hknows : KnowsBest (heightOf l.mapBlockIndex.entry) l.view.contents := by
    rw [KnowsBest, hview.2]
    exact hbranch.knowsBest
  rw [(connectBlock_contents env io nAdjustedTime l.mapBlockIndex.entry block pindex fJustCheck l.view
    l.disk).1]
  intro hover
  unfold connectBlock connectBlockWrites at hover
  cases hrun : (connectBlockChecks env nAdjustedTime (heightOf l.mapBlockIndex.entry) block pindex
      fJustCheck).run CoinsMap.handler l.view.contents with
  | mk outcome s' =>
    rw [hrun] at hover
    rcases outcome with err | _ | state
    · simp only [Except.error.injEq] at hover
      subst hover
      by_cases hprev : pindex.pprev = l.view.contents.best
      · have hrejects : Rejects ((connectBlockChecks env nAdjustedTime
            (heightOf l.mapBlockIndex.entry) block pindex fJustCheck).run CoinsMap.handler
            l.view.contents).1 :=
          connectBlockChecks_rejects hsound hle hknows hprev
        rw [hrun] at hrejects
        simp [Halt.isInvalid] at hrejects
      · rcases Prog.run_bind_eq_error.mp hrun with hcheck | ⟨_, s₁, hcheck, hrest⟩
        · rw [Prog.run_ofExcept, Prod.mk.injEq] at hcheck
          have := checkBlock_rejects env nAdjustedTime block _ _ _ hcheck.1
          simp [Halt.isInvalid] at this
        · rw [Prog.run_ofExcept, Prod.mk.injEq] at hcheck
          obtain ⟨-, rfl⟩ := hcheck
          rw [Prog.run_bind, CoinsM.run_getBestBlock] at hrest
          simp only [ne_eq, hprev, not_false_eq_true, if_true] at hrest
          cases congrArg Prod.fst hrest
    · cases hover
    · have hmoney := h.moneySupply_of_checks hrun
      dsimp only at hover
      split at hover
      · cases hover
      · have herror : ∀ e, (writeBlock env io (Manna.prevSupply l.mapBlockIndex.entry pindex)
            state pindex l.disk).1 = .error e → ∃ reason, e = .error reason ∨ e = .abort reason :=
          fun e => writeBlock_error hmoney
        generalize writeBlock env io (Manna.prevSupply l.mapBlockIndex.entry pindex) state pindex
          l.disk = written at hover herror
        obtain ⟨outcome, pindex', disk'⟩ := written
        cases outcome with
        | ok _ => cases hover
        | error err =>
          obtain ⟨reason, heq | heq⟩ := herror err rfl
          all_goals
            subst heq
            simp at hover

/-- **No inflation.** In every run of successful `ConnectBlock` and `DisconnectBlock` calls
from the empty set of unspent outputs: each `ConnectBlock` changes the total value of all
unspent outputs by what the coinbase pays, at most `GetBlockValue`, less the fees, which no
one receives; no outpoint is spent twice in the block, and what it spends is gone after it.
No sum formed by `CheckTransaction`, or anywhere in a call of `ConnectBlock`, successful or
not, leaves `int64_t`. -/
theorem Reachable.no_inflation {env : Env} {l : Ledger σ} (h : Reachable env l) :
    Sound l.view.contents.utxo ∧
    (∀ (io : DiskIO) (nAdjustedTime : Int) (hash : Uint256) (block : CBlock) (e : CBlockIndex)
      (undo : CBlockUndo) (l' : Ledger σ),
      l.mapBlockIndex.entry hash = some e → readBlock env io l.disk e = some block →
      l.connect env io nAdjustedTime block e = (.ok undo, l') →
      ∃ nFees, 0 ≤ nFees ∧
        totalValue l'.view.contents.utxo - totalValue l.view.contents.utxo =
          coinbaseSum block.vtx - nFees ∧
        totalValue l'.view.contents.utxo - totalValue l.view.contents.utxo ≤
          getBlockValue env e nFees ∧
        coinbaseSum block.vtx ≤ getBlockValue env e nFees ∧
        (spentOutpoints block.vtx).Nodup ∧
        (∀ out ∈ spentOutpoints block.vtx, (l.view.contents.utxo out).isSome = true ∨
          out.hash ∈ block.vtx.map env.txHash) ∧
        ∀ out ∈ spentOutpoints block.vtx, l'.view.contents.utxo out = none) ∧
    (∀ (io : DiskIO) (nAdjustedTime : Int) (block : CBlock) (pindex : CBlockIndex)
      (fJustCheck : Bool),
      (connectBlock CCoinsViewCache.handler env io nAdjustedTime l.mapBlockIndex.entry block pindex
        fJustCheck l.view l.disk).outcome ≠ .error .overflow) ∧
    ∀ tx, checkTransaction tx ≠ .error .overflow := by
  have hcons := h.consistent
  obtain ⟨best, s₀, hbranch₀, hview₀, -⟩ := hcons.branch
  obtain ⟨e₀, hentry₀⟩ := hbranch₀.entry
  refine ⟨?_, ?_, hcons.connectBlock_ne_overflow, fun tx hover => ?_⟩
  · rw [hview₀.1]
    exact (hbranch₀.sound hentry₀).1
  · intro io nAdjustedTime hash block e undo l' hentry hread hconnect
    obtain ⟨pprev, s, state, s', result, hbranch, hview, -, hblock, hresult, hcontents, -, -⟩ :=
      hcons.connect_ok hentry hread hconnect
    obtain ⟨t', hchecks⟩ := hresult.checks
    obtain ⟨p, hp, -⟩ := l.mapBlockIndex.parent hentry hresult.prev
    obtain ⟨hsound, -⟩ := hbranch.sound hp
    obtain ⟨-, htotal, hfees, -, hout, -, hpays⟩ := connectBlockChecks_value hsound hchecks
    obtain ⟨hchecked, -, hfresh, htxs, -⟩ := connectBlockChecks_ok hchecks
    obtain ⟨hnodup, horigin, hgone⟩ := connectTransactions_spent
      (fun tx hmem => (hchecked.transactions tx hmem).1) ⟨hchecked.txids_nodup, hfresh⟩ htxs
    have hafter : l'.view.contents.utxo = s'.utxo := by rw [hcontents, hresult.view.1]; rfl
    rw [hafter, hview.1]
    exact ⟨state.nFees, hfees, by omega, by omega, by omega, hnodup, horigin, hgone⟩
  · have := checkTransaction_rejects tx _ hover
    simp [Halt.isInvalid] at this

/-- **The supply stays in range.** In every run of successful calls the unspent outputs are together worth at
most the rewards of the heights up to the best block, and less than `MAX_MONEY` at any height an `int` holds: no
sum over distinct ones is out of range. -/
theorem Reachable.supply_inRange {env : Env} {l : Ledger σ} (h : Reachable env l) :
    ∃ hash e, l.view.contents.best = some hash ∧ l.mapBlockIndex.entry hash = some e ∧
      totalValue l.view.contents.utxo ≤ plannedSupply env e.nHeight.toNat ∧
      ∀ outs : List COutPoint, outs.Nodup →
        moneyRange (outs.map (WeightedMap.weightAt Coin.value l.view.contents.utxo)).sum = true := by
  obtain ⟨hash, s, hbranch, hview, -⟩ := h.consistent.branch
  obtain ⟨e, hentry⟩ := hbranch.entry
  have hsound := (hbranch.sound hentry).1
  have htotal := hbranch.totalValue_le hentry
  rw [← hview.1] at hsound htotal
  have hrange := fun out coin hcoin => (hsound.range out coin hcoin).1
  refine ⟨hash, e, hview.2.trans hbranch.best, hentry, htotal, fun outs hnodup => moneyRange_iff.mpr ⟨?_, ?_⟩⟩
  · refine List.sum_nonneg fun value hmem => ?_
    obtain ⟨out, -, rfl⟩ := List.mem_map.mp hmem
    unfold WeightedMap.weightAt
    cases hcoin : l.view.contents.utxo out with
    | none => exact le_rfl
    | some coin => exact hrange out coin hcoin
  · have hsum := WeightedMap.sum_le_total hsound.finite hrange hnodup
    exact hsum.trans (htotal.trans (plannedSupply_le_maxMoney (l.mapBlockIndex.height_le hentry)))

/-- The ledger of a node that knows the genesis block only. -/
def sample : Ledger CCoinsViewDB :=
  ⟨.new ⟨fun _ => none, some 1000⟩, sampleTree, emptyFiles⟩

def sampleFirstBlock : CBlock := sampleBlock 1001 1000 500 [sampleCoinBase 0 500 (5 * COIN)]

theorem new_sampleEntry : sample.mapBlockIndex.New (sampleEntry 1001 (some 1000) 1 500) where
  fresh := entry_sampleTree _
  parent h := by
    cases h
    exact ⟨_, entry_sampleTree _, rfl⟩
  root h := by cases h
  height_le := by decide

/-- The same after its first block arrived. -/
def sampleStored : Ledger CCoinsViewDB :=
  ⟨sample.view, sample.mapBlockIndex.insert (sampleEntry 1001 (some 1000) 1 500) new_sampleEntry,
    { sample.disk with
      blocks := Function.update sample.disk.blocks 1001 (some sampleFirstBlock) }⟩

theorem reachable_sampleStored : Reachable sampleEnv sampleStored := by
  refine .step (.initial (l := sample) ⟨?_, ⟨_, entry_sampleTree _, rfl⟩, fun hash e hentry => ?_⟩)
    (.store rfl new_sampleEntry ⟨rfl, rfl⟩)
  · rw [sample, CCoinsViewCache.contents_new]
    rfl
  · rw [sample, entry_sampleTree] at hentry
    split at hentry
    · exact Option.some.inj hentry ▸ ⟨rfl, rfl⟩
    · cases hentry

/-- After the first block. -/
def sampleConnected : Ledger CCoinsViewDB :=
  (sampleStored.connect sampleEnv .good 1000 sampleFirstBlock (sampleEntry 1001 (some 1000) 1 500)).2

theorem connect_sampleStored :
    sampleStored.connect sampleEnv .good 1000 sampleFirstBlock (sampleEntry 1001 (some 1000) 1 500) =
      (.ok ⟨[]⟩, sampleConnected) :=
  Prod.ext (by decide) rfl

theorem no_inflation_sample :
    (sampleStored.connect sampleEnv .good 1000 sampleFirstBlock
        (sampleEntry 1001 (some 1000) 1 500)).1 = .ok ⟨[]⟩ ∧
      totalValue (sampleStored.connect sampleEnv .good 1000 sampleFirstBlock
          (sampleEntry 1001 (some 1000) 1 500)).2.view.contents.utxo -
        totalValue sampleStored.view.contents.utxo ≤ 10000000000 * COIN := by
  obtain ⟨nFees, -, -, hle, -⟩ := reachable_sampleStored.no_inflation.2.1 .good 1000 1001
    sampleFirstBlock (sampleEntry 1001 (some 1000) 1 500) ⟨[]⟩ _ (by decide)
    (by decide) connect_sampleStored
  exact ⟨congrArg Prod.fst connect_sampleStored, hle⟩

/-- The output of the first block, and one that is not there. -/
theorem supply_inRange_sample :
    WeightedMap.weightAt Coin.value sampleConnected.view.contents.utxo ⟨0, 0⟩ = 5 * COIN ∧
    moneyRange (([⟨0, 0⟩, ⟨1000, 0⟩] : List COutPoint).map
      (WeightedMap.weightAt Coin.value sampleConnected.view.contents.utxo)).sum = true := by
  have hentry : sampleStored.mapBlockIndex.entry 1001 = some (sampleEntry 1001 (some 1000) 1 500) := by decide
  have hreachable : Reachable sampleEnv sampleConnected :=
    reachable_sampleStored.step (.connect hentry (by decide) connect_sampleStored)
  obtain ⟨hash, e, -, -, -, hrange⟩ := hreachable.supply_inRange
  exact ⟨by decide, hrange _ (by decide)⟩

end Ledger

end Manna
