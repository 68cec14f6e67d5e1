import Manna.Reorg

/-!
What a reorganisation does to the unspent outputs (`main.cpp`: the two loops of `SetBestChain`).

An output that is no longer unspent was spent by a transaction that was connected, or was an output
of one that was disconnected.

* `connectBlocks_applies`: connecting blocks applies their transactions, one after the other;
* `Applies.kept`, `Applies.created`: where an output goes;
* `disconnectBlocks_lost`: what disconnecting blocks takes away.
-/

namespace Manna

open OpProg

/-! ### Applying transactions -/

/-- Transactions, one after the other, spend their inputs and add their outputs, each under a hash
that had no unspent output. -/
inductive Applies (env : Env) : Utxo → List CTransaction → Utxo → Prop
  | nil (u : Utxo) : Applies env u [] u
  | cons {u u' : Utxo} {tx : CTransaction} {vtx : List CTransaction} {nHeight : Int}
      (hchecked : Checked tx) (hfresh : ∀ n, u ⟨env.txHash tx, n⟩ = none)
      (hrest : Applies env ((u.eraseInputs (if tx.isCoinBase then [] else tx.vin)).addOutputs tx
        nHeight (env.txHash tx)) vtx u') :
      Applies env u (tx :: vtx) u'

/-- A transaction of the list spends the output. -/
def SpentBy (vtx : List CTransaction) (out : COutPoint) : Prop :=
  ∃ tx ∈ vtx, out ∈ tx.vin.map (·.prevout)

def OutputOf (env : Env) (tx : CTransaction) (out : COutPoint) : Prop :=
  out.hash = env.txHash tx ∧ out.n < tx.vout.length

section Applies

variable {env : Env} {u u' u'' : Utxo} {vtx vtx' : List CTransaction} {tx : CTransaction}
  {out : COutPoint}

theorem SpentBy.mono (h : SpentBy vtx out) (hsub : ∀ tx ∈ vtx, tx ∈ vtx') : SpentBy vtx' out := by
  obtain ⟨tx, htx, hmem⟩ := h
  exact ⟨tx, hsub tx htx, hmem⟩

theorem SpentBy.tail (h : SpentBy vtx out) : SpentBy (tx :: vtx) out :=
  h.mono fun _ => List.mem_cons_of_mem _

theorem Applies.append (h : Applies env u vtx u') (h' : Applies env u' vtx' u'') :
    Applies env u (vtx ++ vtx') u'' := by
  induction h with
  | nil => exact h'
  | cons hchecked hfresh _ ih => exact .cons hchecked hfresh (ih h')

theorem Checked.addOutputs_isSome (hchecked : Checked tx) (u : Utxo) (nHeight : Int)
    (hout : OutputOf env tx out) : (u.addOutputs tx nHeight (env.txHash tx) out).isSome = true := by
  rw [Utxo.addOutputs, if_pos hout.1, ← CCoins.isAvailable_iff, CCoins.isAvailable]
  have hget : (CCoins.ofTx tx nHeight).vout[out.n]? = some (tx.vout.get ⟨out.n, hout.2⟩) :=
    List.getElem?_eq_getElem hout.2
  rw [hget]
  exact Bool.not_eq_true' _ ▸ hchecked.not_isNull (List.getElem_mem hout.2)

/-- **An unspent output stays unspent**, unless one of the transactions spends it. -/
theorem Applies.kept (h : Applies env u vtx u') (hout : (u out).isSome = true) :
    (u' out).isSome = true ∨ SpentBy vtx out := by
  induction h with
  | nil => exact .inl hout
  | @cons u u' tx vtx nHeight hchecked hfresh hrest ih =>
    by_cases hspent : out ∈ tx.vin.map (·.prevout)
    · exact .inr ⟨tx, List.mem_cons_self .., hspent⟩
    · have hne : out.hash ≠ env.txHash tx := by
        intro heq
        have hnone := hfresh out.n
        rw [← heq] at hnone
        rw [hnone] at hout
        cases hout
      have hnot : out ∉ (if tx.isCoinBase then [] else tx.vin).map (·.prevout) := by
        split
        · exact List.not_mem_nil
        · exact hspent
      refine (ih ?_).imp_right SpentBy.tail
      rw [Utxo.addOutputs, if_neg hne, Utxo.eraseInputs, if_neg hnot]
      exact hout

theorem Applies.created_head (h : Applies env u (tx :: vtx) u') (hout : OutputOf env tx out) :
    (u' out).isSome = true ∨ SpentBy vtx out := by
  cases h with
  | cons hchecked _ hrest => exact hrest.kept (hchecked.addOutputs_isSome _ _ hout)

/-- **The outputs of the transactions** are unspent at the end, or one of them spends them. -/
theorem Applies.created (h : Applies env u vtx u') (hmem : tx ∈ vtx) (hout : OutputOf env tx out) :
    (u' out).isSome = true ∨ SpentBy vtx out := by
  induction h with
  | nil => cases hmem
  | cons hchecked hfresh hrest ih =>
    rcases List.mem_cons.mp hmem with rfl | hmem
    · exact ((Applies.cons hchecked hfresh hrest).created_head hout).imp_right SpentBy.tail
    · exact (ih hmem).imp_right SpentBy.tail

/-- The loop of `ConnectBlock` applies the transactions of the block. -/
theorem Updates.applies {nHeight : Int} {undos : List CTxUndo} {s s' : CoinsMap}
    (h : Updates env nHeight s vtx undos s') (hchecked : ∀ tx ∈ vtx, Checked tx)
    (hnodup : (vtx.map env.txHash).Nodup) (hfresh : ∀ tx ∈ vtx, ∀ n, s.utxo ⟨env.txHash tx, n⟩ = none) :
    Applies env s.utxo vtx s'.utxo := by
  induction h with
  | nil s => exact .nil _
  | @cons s s₁ s' tx vtx txundo undos hupdate hrest ih =>
    have hutxo := (updateCoins_ok hupdate).1
    rw [List.map_cons, List.nodup_cons] at hnodup
    rw [List.forall_mem_cons] at hchecked hfresh
    have happlies : Applies env s₁.utxo vtx s'.utxo := by
      refine ih hchecked.2 hnodup.2 fun tx' hmem n => ?_
      have hne : env.txHash tx' ≠ env.txHash tx := fun heq =>
        hnodup.1 (heq ▸ List.mem_map_of_mem hmem)
      rw [hutxo, Utxo.addOutputs, if_neg hne, Utxo.eraseInputs, hfresh.2 tx' hmem]
      exact ite_self none
    rw [hutxo] at happlies
    exact .cons hchecked.1 hfresh.1 happlies

end Applies

/-! ### Connecting -/

section Connect

variable {σ : Type} [CoinsView σ] {env : Env} {io : DiskIO} {nAdjustedTime : Int}

def GenesisRoot (env : Env) (t : BlockTree) : Prop :=
  ∃ e, t.entry env.hashGenesisBlock = some e ∧ e.pprev = none

theorem GenesisRoot.extends {t t' : BlockTree} (h : GenesisRoot env t) (hextends : t'.Extends t) :
    GenesisRoot env t' := by
  obtain ⟨e, he, hroot⟩ := h
  obtain ⟨e', he', hfixed⟩ := hextends _ _ he
  exact ⟨e', he', (CBlockIndex.fixed_eq_iff.mp hfixed).2.1.trans hroot⟩

/-- A successful `ConnectBlock` after the genesis block applies the transactions of its block. -/
theorem Ledger.connect_applies {l l' : Ledger σ} {hash : Uint256} {block : CBlock}
    {pindex : CBlockIndex} {undo : CBlockUndo} (hroot : GenesisRoot env l.mapBlockIndex)
    (hbest : l.view.contents.best ≠ none) (he : l.mapBlockIndex.entry hash = some pindex)
    (hhash : block.getHash env = pindex.phashBlock)
    (h : l.connect env io nAdjustedTime block pindex = (.ok undo, l')) :
    Applies env l.view.contents.utxo block.vtx l'.view.contents.utxo := by
  obtain ⟨state, s, hrun, hview⟩ := Ledger.connect_ok h
  rw [hview]
  cases state with
  | none =>
    -- The genesis block has no predecessor, but the view has a best block.
    obtain ⟨hprev, hgenesis, -⟩ := connectBlockChecks_none hrun
    obtain ⟨e, hentry, hnone⟩ := hroot
    rw [← hgenesis, hhash, l.mapBlockIndex.hash_eq he, he] at hentry
    obtain rfl := Option.some.inj hentry
    exact absurd (hprev.symm.trans hnone) hbest
  | some state =>
    obtain ⟨hblock, -, hfresh, htxs, -⟩ := connectBlockChecks_ok hrun
    obtain ⟨undos, hupdates, -⟩ := connectTransactions_updates htxs
    exact hupdates.applies
      (fun tx hmem => checkTransaction_eq_ok (hblock.transactions tx hmem).1) hblock.txids_nodup hfresh

/-- **Connecting blocks applies their transactions**, which are those queued for deletion. -/
theorem connectBlocks_applies {vConnect : List Uint256} {l l' : Ledger σ} {vDelete : List CTransaction}
    (hroot : GenesisRoot env l.mapBlockIndex) (hbest : l.view.contents.best ≠ none)
    (h : connectBlocks env io nAdjustedTime vConnect l = (.ok vDelete, l')) :
    Applies env l.view.contents.utxo vDelete l'.view.contents.utxo := by
  induction vConnect generalizing l vDelete with
  | nil =>
    cases h
    exact .nil _
  | cons hash vConnect ih =>
    obtain ⟨pindex, block, undo, l₁, vDelete₁, he, hread, hconnect, hrest, rfl⟩ := connectBlocks_cons.mp h
    have hkeeps := Ledger.connect_keeps env io nAdjustedTime he block
    rw [hconnect] at hkeeps
    have hbest₁ : l₁.view.contents.best ≠ none := by
      rw [Ledger.connect_best hconnect]
      exact Option.some_ne_none _
    exact (Ledger.connect_applies hroot hbest he (readBlock_eq_some hread).2
      hconnect).append (ih (hroot.extends hkeeps.entries.extends) hbest₁ hrest)

def ConnectedTx (blocks : Uint256 → Option CBlock) (vConnect : List Uint256) (tx : CTransaction) :
    Prop :=
  ∃ hash ∈ vConnect, ∃ block, blocks hash = some block ∧ tx ∈ block.vtx

theorem connectBlocks_vDelete {vConnect : List Uint256} {l l' : Ledger σ} {vDelete : List CTransaction}
    (h : connectBlocks env io nAdjustedTime vConnect l = (.ok vDelete, l')) (tx : CTransaction) :
    tx ∈ vDelete ↔ ConnectedTx l.disk.blocks vConnect tx := by
  induction vConnect generalizing l vDelete with
  | nil =>
    cases h
    refine iff_of_false List.not_mem_nil ?_
    rintro ⟨hash, hmem, -⟩
    cases hmem
  | cons hash vConnect ih =>
    obtain ⟨pindex, block, undo, l₁, vDelete₁, he, hread, hconnect, hrest, rfl⟩ := connectBlocks_cons.mp h
    have hkeeps := Ledger.connect_keeps env io nAdjustedTime he block
    rw [hconnect] at hkeeps
    have hblock := (readBlock_eq_some hread).1
    rw [l.mapBlockIndex.hash_eq he] at hblock
    rw [List.mem_append, ih hrest, hkeeps.blocks]
    constructor
    · rintro (hmem | ⟨hash', hmem, hrest⟩)
      · exact ⟨hash, List.mem_cons_self .., block, hblock, hmem⟩
      · exact ⟨hash', List.mem_cons_of_mem _ hmem, hrest⟩
    · rintro ⟨hash', hmem, block', hblock', htx⟩
      rcases List.mem_cons.mp hmem with rfl | hmem
      · obtain rfl := Option.some.inj (hblock.symm.trans hblock')
        exact .inl htx
      · exact .inr ⟨hash', hmem, block', hblock', htx⟩

end Connect

/-! ### Disconnecting -/

def DisconnectedTx (t : BlockTree) (blocks : Uint256 → Option CBlock) (vDisconnect : List Uint256)
    (pindex : CBlockIndex) (tx : CTransaction) : Prop :=
  ∃ hash ∈ vDisconnect, t.entry hash = some pindex ∧ ∃ block, blocks hash = some block ∧ tx ∈ block.vtx

/-- A transaction that the first loop queues to resurrect. -/
def Queued (pindex : CBlockIndex) (tx : CTransaction) : Prop :=
  tx.isGenerated = false ∧ getTotalBlocksEstimate < pindex.nHeight

section Disconnect

variable {σ : Type} [CoinsView σ] {env : Env} {io : DiskIO} {s s' : CoinsMap} {out : COutPoint}

theorem CCoins.output_putOutput_of_ne (coins : CCoins) {n m : Nat} (hne : n ≠ m) (txout : CTxOut) :
    (coins.putOutput n txout).output m = coins.output m := by
  show ((extend coins.vout (n + 1)).set n txout)[m]?.filter _ = _
  rw [List.getElem?_set_ne hne]
  exact getElem?_extend _ _ _

theorem CCoins.coinAt_isSome {coins : CCoins} {n : Nat} :
    (coins.coinAt n).isSome = (coins.output n).isSome := by
  unfold coinAt
  cases coins.output n <;> rfl

theorem restoreInput_kept {prevout : COutPoint} {undo : CTxInUndo} {fClean : Bool}
    (h : (restoreInput prevout undo fClean).run CoinsMap.handler s = (.ok true, s')) :
    fClean = true ∧ ((s.utxo out).isSome = true → (s'.utxo out).isSome = true) := by
  rw [run_restoreInput, Prod.mk.injEq, Except.ok.injEq, Bool.and_eq_true] at h
  obtain ⟨⟨hclean, hconsistent⟩, rfl⟩ := h
  refine ⟨hclean, fun hsome => ?_⟩
  rw [CoinsMap.utxo_setCoins]
  split
  · next hhash =>
    rw [show out = ⟨prevout.hash, out.n⟩ from by rw [← hhash], ← CoinsMap.coinAt_record] at hsome
    unfold restoreConsistent at hconsistent
    rw [Bool.and_eq_true, Bool.not_eq_true'] at hconsistent
    by_cases hheight : undo.nHeight ≠ 0
    · -- The metadata comes from the undo data only for a record without unspent outputs.
      rw [if_pos hheight] at hconsistent
      rw [CCoins.isPruned_iff.mp hconsistent.1] at hsome
      cases hsome
    · have hbase : restoreBase undo (s.record prevout.hash) = s.record prevout.hash :=
        if_neg hheight
      rw [hbase] at hconsistent ⊢
      have hne : prevout.n ≠ out.n := by
        intro heq
        rw [heq, Bool.eq_false_iff] at hconsistent
        exact hconsistent.2 (CCoins.isAvailable_iff.mpr hsome)
      rw [CCoins.coinAt_isSome, CCoins.output_putOutput_of_ne _ hne, ← CCoins.coinAt_isSome]
      exact hsome
  · exact hsome

theorem restoreInputs_kept {inputs : List (CTxIn × CTxInUndo)} {fClean : Bool}
    (h : (restoreInputs inputs fClean).run CoinsMap.handler s = (.ok true, s')) :
    fClean = true ∧ ((s.utxo out).isSome = true → (s'.utxo out).isSome = true) := by
  induction inputs generalizing s' with
  | nil =>
    simp only [restoreInputs, Prog.run_pure, Prod.mk.injEq, Except.ok.injEq] at h
    exact ⟨h.1, fun hsome => h.2 ▸ hsome⟩
  | cons input rest ih =>
    obtain ⟨fRest, s₁, hrest, hlast⟩ := Prog.run_bind_eq_ok.mp h
    obtain ⟨rfl, hkept⟩ := restoreInput_kept hlast
    obtain ⟨hclean, hkept₁⟩ := ih hrest
    exact ⟨hclean, fun hsome => hkept (hkept₁ hsome)⟩

theorem disconnectTransaction_lost {nHeight : Int} {tx : CTransaction} {txundo : Option CTxUndo}
    {fClean : Bool}
    (h : (disconnectTransaction env nHeight tx txundo fClean).run CoinsMap.handler s = (.ok true, s')) :
    fClean = true ∧ ((s.utxo out).isSome = true → (s'.utxo out).isSome = true ∨ OutputOf env tx out) := by
  unfold disconnectTransaction at h
  rw [Prog.run_bind, CoinsM.run_getCoins] at h
  dsimp only at h
  rw [Prog.run_bind, CoinsM.run_setCoins] at h
  dsimp only at h
  -- Restoring starts without the record of the transaction, if that was as it should be.
  have hrestored : (fClean = true ∧ (s.coins (env.txHash tx)).isSome = true ∧
      ((s.coins (env.txHash tx)).getD CCoins.empty).vout = tx.vout) ∧
      (((s.setCoins (env.txHash tx) CCoins.empty).utxo out).isSome = true →
        (s'.utxo out).isSome = true) := by
    have hvout : ∀ c : CCoins, (if (CCoins.ofTx tx nHeight).nVersion < 0 then
        { c with nVersion := (CCoins.ofTx tx nHeight).nVersion } else c).vout = c.vout := by
      intro c
      split <;> rfl
    split at h
    · simp only [Prog.run_pure, Prod.mk.injEq, Except.ok.injEq, Bool.and_eq_true, beq_iff_eq] at h
      obtain ⟨⟨⟨hclean, hfound⟩, hequal⟩, rfl⟩ := h
      exact ⟨⟨hclean, hfound, (hvout _).symm.trans (congrArg CCoins.vout hequal)⟩, id⟩
    · split at h
      · cases congrArg Prod.fst h
      · obtain ⟨hall, hkept⟩ := restoreInputs_kept h
        simp only [Bool.and_eq_true, beq_iff_eq] at hall
        obtain ⟨⟨hclean, hfound⟩, hequal⟩ := hall
        exact ⟨⟨hclean, hfound, (hvout _).symm.trans (congrArg CCoins.vout hequal)⟩, hkept⟩
  obtain ⟨⟨hclean, hfound, hvout⟩, hkept⟩ := hrestored
  refine ⟨hclean, fun hsome => ?_⟩
  by_cases hhash : out.hash = env.txHash tx
  · refine .inr ⟨hhash, ?_⟩
    obtain ⟨coins, hcoins⟩ := Option.isSome_iff_exists.mp hfound
    rw [hcoins, Option.getD_some] at hvout
    rw [show out = ⟨env.txHash tx, out.n⟩ from by rw [← hhash], CoinsMap.utxo_of_coins hcoins,
      CCoins.coinAt_isSome] at hsome
    obtain ⟨txout, htxout⟩ := Option.isSome_iff_exists.mp hsome
    have hget := (CCoins.output_eq_some.mp htxout).1
    rw [hvout] at hget
    exact (List.getElem?_eq_some_iff.mp hget).1
  · refine .inl (hkept ?_)
    rw [CoinsMap.utxo_setCoins, if_neg hhash]
    exact hsome

theorem disconnectTransactions_lost {nHeight : Int} {l : List (CTransaction × Option CTxUndo)} {fClean : Bool}
    (h : (disconnectTransactions env nHeight l fClean).run CoinsMap.handler s = (.ok true, s'))
    (hsome : (s.utxo out).isSome = true) :
    (s'.utxo out).isSome = true ∨ ∃ entry ∈ l, OutputOf env entry.1 out := by
  induction l generalizing s' with
  | nil =>
    simp only [disconnectTransactions, Prog.run_pure, Prod.mk.injEq] at h
    exact .inl (h.2 ▸ hsome)
  | cons entry rest ih =>
    obtain ⟨fRest, s₁, hrest, hlast⟩ := Prog.run_bind_eq_ok.mp h
    obtain ⟨rfl, hlost⟩ := disconnectTransaction_lost hlast
    rcases ih hrest with hkept | ⟨entry', hmem, hout⟩
    · exact (hlost hkept).imp_right fun hout => ⟨entry, List.mem_cons_self .., hout⟩
    · exact .inr ⟨entry', List.mem_cons_of_mem _ hmem, hout⟩

/-- A clean `DisconnectBlock` was of a block with a predecessor, and takes away outputs of its
transactions only. -/
theorem Ledger.disconnect_lost {l l' : Ledger σ} {block : CBlock} {pindex : CBlockIndex}
    (h : l.disconnect env io block pindex = (.ok true, l')) :
    pindex.pprev ≠ none ∧ ∀ out, (l.view.contents.utxo out).isSome = true →
      (l'.view.contents.utxo out).isSome = true ∨ ∃ tx ∈ block.vtx, OutputOf env tx out := by
  obtain ⟨pprev, undo, s, hprev, htxs, hview⟩ := Ledger.disconnect_ok h
  refine ⟨hprev ▸ Option.some_ne_none _, fun out hsome => ?_⟩
  rw [hview]
  refine (disconnectTransactions_lost htxs hsome).imp_right ?_
  rintro ⟨entry, hmem, hout⟩
  exact ⟨entry.1, (List.of_mem_zip hmem).1, hout⟩

/-- **What disconnecting blocks takes away**: outputs of their transactions, which are queued to
resurrect unless they are generated or too old. The view still has a best block. -/
theorem disconnectBlocks_lost {vDisconnect : List Uint256} {l l' : Ledger σ}
    {vResurrect : List CTransaction} (hbest : l.view.contents.best ≠ none)
    (h : disconnectBlocks env io vDisconnect l = (.ok vResurrect, l')) : l'.view.contents.best ≠ none ∧
      (∀ tx ∈ vResurrect, ∃ pindex, DisconnectedTx l.mapBlockIndex l.disk.blocks vDisconnect pindex tx) ∧
      ∀ out, (l.view.contents.utxo out).isSome = true → (l'.view.contents.utxo out).isSome = true ∨
          ∃ pindex tx, DisconnectedTx l.mapBlockIndex l.disk.blocks vDisconnect pindex tx ∧
            OutputOf env tx out ∧ (tx ∈ vResurrect ∨ ¬ Queued pindex tx) := by
  induction vDisconnect generalizing l vResurrect with
  | nil =>
    cases h
    exact ⟨hbest, fun _ hmem => absurd hmem List.not_mem_nil, fun _ hsome => .inl hsome⟩
  | cons hash vDisconnect ih =>
    obtain ⟨pindex, block, l₁, vRest, he, hread, hdisconnect, hrest, rfl⟩ := disconnectBlocks_cons h
    obtain ⟨hprev, hlost⟩ := Ledger.disconnect_lost hdisconnect
    have hbest₁ : l₁.view.contents.best ≠ none := by
      rw [Ledger.disconnect_best hdisconnect]
      exact hprev
    have hl₁ : l₁.mapBlockIndex = l.mapBlockIndex ∧ l₁.disk = l.disk := by
      rw [Ledger.disconnect, Prod.mk.injEq] at hdisconnect
      rw [← hdisconnect.2]
      exact ⟨rfl, rfl⟩
    obtain ⟨hbest', hmem, hlost'⟩ := ih hbest₁ hrest
    rw [hl₁.1, hl₁.2] at hmem hlost'
    have hblock := (readBlock_eq_some hread).1
    rw [l.mapBlockIndex.hash_eq he] at hblock
    have hfirst : ∀ tx ∈ block.vtx, DisconnectedTx l.mapBlockIndex l.disk.blocks
        (hash :: vDisconnect) pindex tx := fun tx htx =>
      ⟨hash, List.mem_cons_self .., he, block, hblock, htx⟩
    have hother : ∀ {pindex tx}, DisconnectedTx l.mapBlockIndex l.disk.blocks vDisconnect
        pindex tx → DisconnectedTx l.mapBlockIndex l.disk.blocks (hash :: vDisconnect)
        pindex tx := by
      rintro pindex tx ⟨hash', hmem, hrest⟩
      exact ⟨hash', List.mem_cons_of_mem _ hmem, hrest⟩
    refine ⟨hbest', fun tx htx => ?_, fun out hsome => ?_⟩
    · rcases List.mem_append.mp htx with htx | htx
      · exact ⟨pindex, hfirst tx (List.mem_of_mem_filter htx)⟩
      · exact (hmem tx htx).imp fun _ => hother
    · rcases hlost out hsome with hkept | ⟨tx, htx, hout⟩
      · refine (hlost' out hkept).imp_right ?_
        rintro ⟨pindex', tx, htx, hout, hqueued⟩
        exact ⟨pindex', tx, hother htx, hout,
          hqueued.imp_left fun hmem => List.mem_append_right _ hmem⟩
      · refine .inr ⟨pindex, tx, hfirst tx htx, hout, ?_⟩
        by_cases hqueued : Queued pindex tx
        · refine .inl (List.mem_append_left _ (List.mem_filter.mpr ⟨htx, ?_⟩))
          rw [hqueued.1, Bool.not_false, Bool.true_and, decide_eq_true_eq]
          exact hqueued.2
        · exact .inr hqueued

end Disconnect

end Manna
