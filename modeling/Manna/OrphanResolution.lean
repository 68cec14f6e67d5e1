import Manna.OrphanTx

/-!
What becomes of the orphans that wait for an accepted transaction.

`Resolved` is the purpose of the work queue: nothing that waits for the transaction could
still enter the memory pool, and nothing is thrown away that only lacked an input.

* `OrphanPool.Keyed`: orphans are stored under their hashes;
* `resolved_processTx_iff`: one message;
* `OrphanCall.resolved_iff`: a message after any sequence of calls. The work queue offers
  the transaction of the message instead of the orphan, so the purpose is met only where
  no orphan could have been accepted anyway.
-/

namespace Manna

namespace OrphanPool

variable {env : Env} {orphans : OrphanPool}

/-- An orphan waits for a transaction, directly or through other orphans. -/
inductive Depends (orphans : OrphanPool) (prev : Uint256) : Uint256 → Prop where
  | direct {hash : Uint256} {tx : CTransaction} :
      orphans.lookup hash = some tx → prev ∈ tx.prevHashes → Depends orphans prev hash
  | step {mid hash : Uint256} {tx : CTransaction} :
      Depends orphans prev mid → orphans.lookup hash = some tx → mid ∈ tx.prevHashes →
        Depends orphans prev hash

/-- Every orphan is stored under its hash. -/
def Keyed (env : Env) (orphans : OrphanPool) : Prop :=
  ∀ hash tx, orphans.lookup hash = some tx → env.txHash tx = hash

theorem Keyed.addOrphanTx (h : orphans.Keyed env) (tx : CTransaction) :
    (orphans.addOrphanTx env tx).2.Keyed env := by
  unfold OrphanPool.addOrphanTx
  split_ifs
  · exact h
  · exact h
  · intro hash tx' hlookup
    by_cases heq : hash = env.txHash tx
    · subst heq
      rw [lookup, Finmap.lookup_insert] at hlookup
      cases hlookup
      rfl
    · rw [lookup, Finmap.lookup_insert_of_ne _ heq] at hlookup
      exact h hash tx' hlookup

theorem Keyed.eraseOrphanTx (h : orphans.Keyed env) (hash : Uint256) :
    (orphans.eraseOrphanTx hash).Keyed env := by
  intro hash' tx hlookup
  rw [lookup_eraseOrphanTx] at hlookup
  split_ifs at hlookup
  exact h hash' tx hlookup

theorem Keyed.eraseQueue (h : orphans.Keyed env) (hashes : List Uint256) :
    (orphans.eraseQueue hashes).Keyed env := by
  intro hash tx hlookup
  rw [lookup_eraseQueue] at hlookup
  split_ifs at hlookup
  exact h hash tx hlookup

theorem Keyed.limitOrphanTxSize (h : orphans.Keyed env) (nMaxOrphans : Nat)
    (randomhash : Nat → Uint256) : (orphans.limitOrphanTxSize nMaxOrphans randomhash).2.Keyed env := by
  obtain ⟨hashes, heq⟩ := limitLoop_eq nMaxOrphans randomhash orphans.size 0 orphans
  rw [OrphanPool.limitOrphanTxSize, heq]
  exact h.eraseQueue hashes

theorem Keyed.settle (h : orphans.Keyed env) (prev : Uint256) : (orphans.settle prev).Keyed env := by
  intro hash tx hlookup
  rw [lookup_settle] at hlookup
  split_ifs at hlookup
  exact h hash tx hlookup

end OrphanPool

section Resolution

variable {σ : Type} [CoinsView σ] {env : Env}

theorem OrphanCall.keyed_run {orphans : OrphanPool} (h : orphans.Keyed env) (call : OrphanCall σ) :
    (call.run env orphans).Keyed env := by
  cases call with
  | add tx => exact h.addOrphanTx tx
  | erase hash => exact h.eraseOrphanTx hash
  | limit nMaxOrphans randomhash => exact h.limitOrphanTxSize nMaxOrphans randomhash
  | message ctx randomhash tx pcoinsTip pool =>
    cases hout : (pool.accept env (ctx 0) tx true true pcoinsTip).outcome with
    | ok _ =>
      rw [OrphanCall.run_message_of_ok hout]
      exact h.settle _
    | error e =>
      rw [OrphanCall.run_message_of_error hout]
      split_ifs
      · exact (h.addOrphanTx tx).limitOrphanTxSize _ _
      · exact h

theorem OrphanCall.keyed_runAll (env : Env) (calls : List (OrphanCall σ)) :
    (OrphanCall.runAll env calls).Keyed env := by
  induction calls using List.reverseRecOn with
  | nil =>
    intro hash tx hlookup
    rw [OrphanPool.lookup] at hlookup
    cases hlookup
  | append_singleton calls call ih =>
    rw [OrphanCall.runAll_concat]
    exact OrphanCall.keyed_run ih call

/-! ### The purpose of the work queue -/

/-- `AcceptToMemoryPool` would admit a transaction. -/
def Admits (env : Env) (ctx : AcceptContext) (s : TxState σ) (tx : CTransaction) : Prop :=
  (s.pool.accept env ctx tx true true s.pcoinsTip).outcome = .ok ()

/-- `AcceptToMemoryPool` would reject a transaction for another reason than missing inputs. -/
def Refuses (env : Env) (ctx : AcceptContext) (s : TxState σ) (tx : CTransaction) : Prop :=
  (∃ e, (s.pool.accept env ctx tx true true s.pcoinsTip).outcome = .error e) ∧
    (s.pool.accept env ctx tx true true s.pcoinsTip).fMissingInputs = false

/-- **Orphans are resolved.** Every orphan that depends on the transaction and could enter
the pool is in it, and every erased orphan is in the pool or rejected for another reason
than missing inputs. -/
structure Resolved (env : Env) (ctx : AcceptContext) (orphans : OrphanPool) (tx : CTransaction)
    (after : TxState σ) : Prop where
  admitted : ∀ hash orphanTx, orphans.lookup hash = some orphanTx →
    orphans.Depends (env.txHash tx) hash → Admits env ctx after orphanTx →
      (after.pool.mapTx.lookup hash).isSome = true
  erased : ∀ hash orphanTx, orphans.lookup hash = some orphanTx →
    after.orphans.lookup hash = none →
      (after.pool.mapTx.lookup hash).isSome = true ∨ Refuses env ctx after orphanTx

/-- Nothing is left to resolve once the transaction is in the pool: no orphan that depends on
it would be admitted, and none that spends from it lacks another input. -/
def NothingToResolve (env : Env) (ctx : AcceptContext) (orphans : OrphanPool) (tx : CTransaction)
    (entered : TxState σ) : Prop :=
  (∀ hash orphanTx, orphans.lookup hash = some orphanTx →
    orphans.Depends (env.txHash tx) hash → ¬ Admits env ctx entered orphanTx) ∧
  ∀ hash orphanTx, orphans.lookup hash = some orphanTx → env.txHash tx ∈ orphanTx.prevHashes →
    Refuses env ctx entered orphanTx

/-- The state once the transaction of a message is in the pool. -/
def TxState.entered (env : Env) (ctx : AcceptContext) (tx : CTransaction) (s : TxState σ) :
    TxState σ :=
  { s with
    pcoinsTip := (s.pool.accept env ctx tx true true s.pcoinsTip).pcoinsTip
    pool := (s.pool.accept env ctx tx true true s.pcoinsTip).pool }

variable {ctx : Nat → AcceptContext} {randomhash : Nat → Uint256} {tx : CTransaction}
  {s : TxState σ}

theorem refuses_of_isSome {ctx : AcceptContext}
    (h : (s.pool.mapTx.lookup (env.txHash tx)).isSome = true) : Refuses env ctx s tx := by
  obtain ⟨e, he⟩ := CTxMemPool.accept_again h ctx true true s.pcoinsTip
  rw [Refuses, he]
  exact ⟨⟨e, rfl⟩, rfl⟩

theorem Refuses.not_admits {ctx : AcceptContext} (h : Refuses env ctx s tx) : ¬ Admits env ctx s tx := by
  intro hadmits
  obtain ⟨⟨e, he⟩, -⟩ := h
  rw [Admits, he] at hadmits
  cases hadmits

theorem isSome_entered (h : Admits env (ctx 0) s tx) :
    ((s.entered env (ctx 0) tx).pool.mapTx.lookup (env.txHash tx)).isSome = true := by
  rcases s.pool.accept_pool env (ctx 0) tx true true s.pcoinsTip with ⟨⟨e, he⟩, -⟩ | ⟨-, -, hpool⟩
  · rw [Admits, he] at h
    cases h
  · rw [TxState.entered, hpool, CTxMemPool.addUnchecked, Finmap.lookup_insert]
    rfl

/-- **One message** resolves the orphans if and only if there is nothing to resolve. -/
theorem resolved_processTx_iff (ctx : Nat → AcceptContext) (randomhash : Nat → Uint256)
    (hexact : s.orphans.Exact) (hkeyed : s.orphans.Keyed env) (hadmits : Admits env (ctx 0) s tx)
    (ctxAfter : AcceptContext) : Resolved env ctxAfter s.orphans tx (processTx env ctx randomhash tx s) ↔
      NothingToResolve env ctxAfter s.orphans tx (s.entered env (ctx 0) tx) := by
  rw [processTx_accepted hadmits]
  have hin := isSome_entered hadmits
  constructor
  · intro h
    refine ⟨fun hash orphanTx hstored hdepends hadmitted => ?_, fun hash orphanTx hstored hprev => ?_⟩
    · have hpool := h.admitted hash orphanTx hstored hdepends hadmitted
      rw [← hkeyed hash orphanTx hstored] at hpool
      exact (refuses_of_isSome (s := s.entered env (ctx 0) tx) hpool).not_admits hadmitted
    · have hgone : (s.orphans.settle (env.txHash tx)).lookup hash = none := by
        rw [OrphanPool.lookup_settle,
          if_pos (Or.inr ((OrphanPool.mem_byPrev hexact).mpr ⟨orphanTx, hstored, hprev⟩))]
      rcases h.erased hash orphanTx hstored hgone with hpool | hrefuses
      · rw [← hkeyed hash orphanTx hstored] at hpool
        exact refuses_of_isSome (s := s.entered env (ctx 0) tx) hpool
      · exact hrefuses
  · rintro ⟨hnone, hrefuses⟩
    refine ⟨fun hash orphanTx hstored hdepends hadmitted => ?_, fun hash orphanTx hstored hgone => ?_⟩
    · exact absurd hadmitted (hnone hash orphanTx hstored hdepends)
    · have hgone' : (s.orphans.settle (env.txHash tx)).lookup hash = none := hgone
      rw [OrphanPool.lookup_settle] at hgone'
      by_cases hsettled : hash = env.txHash tx ∨ hash ∈ s.orphans.byPrev (env.txHash tx)
      · rcases hsettled with rfl | hwaits
        · exact Or.inl hin
        · obtain ⟨orphanTx', hstored', hprev⟩ := (OrphanPool.mem_byPrev hexact).mp hwaits
          rw [hstored] at hstored'
          cases hstored'
          exact Or.inr (hrefuses hash orphanTx hstored hprev)
      · rw [if_neg hsettled, hstored] at hgone'
        cases hgone'

/-- **Orphan resolution.** After any sequence of calls, a message whose transaction is
accepted resolves the orphans if and only if there was nothing to resolve. -/
theorem OrphanCall.resolved_iff (env : Env) (calls : List (OrphanCall σ))
    (ctx : Nat → AcceptContext) (randomhash : Nat → Uint256) (tx : CTransaction)
    (pcoinsTip : CCoinsViewCache σ) (pool : CTxMemPool) (ctxAfter : AcceptContext)
    (haccepted : (pool.accept env (ctx 0) tx true true pcoinsTip).outcome = .ok ()) :
    let s : TxState σ := ⟨pcoinsTip, pool, OrphanCall.runAll env calls⟩
    Resolved env ctxAfter s.orphans tx (processTx env ctx randomhash tx s) ↔
      NothingToResolve env ctxAfter s.orphans tx (s.entered env (ctx 0) tx) := by
  intro s
  have hadmits : Admits env (ctx 0) s tx := haccepted
  exact resolved_processTx_iff (s := s) ctx randomhash (exact_runAll env calls)
    (keyed_runAll env calls) hadmits ctxAfter

end Resolution

/-- A child of `sampleParent` that pays out more than it has. -/
def sampleGreedyChild : CTransaction := sampleTx 24 500 [sampleIn 22 0] [4 * CENT]

def sampleGreedyWaiting : List (OrphanCall CCoinsViewDB) :=
  [.message (fun _ => sampleOrphanContext) (fun _ => 0) sampleGreedyChild sampleOrphanTip .empty]

/-- A child waits that is rejected when its parent is there. -/
theorem OrphanCall.resolved_iff_sample :
    (OrphanCall.runAll sampleEnv sampleGreedyWaiting).lookup 24 = some sampleGreedyChild ∧
      Resolved sampleEnv sampleOrphanContext (OrphanCall.runAll sampleEnv sampleGreedyWaiting) sampleParent
        (processTx sampleEnv (fun _ => sampleOrphanContext) (fun _ => 0) sampleParent
          ⟨sampleOrphanTip, .empty, OrphanCall.runAll sampleEnv sampleGreedyWaiting⟩) := by
  have hchild : (OrphanCall.runAll sampleEnv sampleGreedyWaiting).lookup 24 = some sampleGreedyChild := by
    decide
  have hkeys : (OrphanCall.runAll sampleEnv sampleGreedyWaiting).mapOrphanTransactions.keys = {24} := by decide
  have honly : ∀ hash orphanTx, (OrphanCall.runAll sampleEnv sampleGreedyWaiting).lookup hash = some orphanTx →
      orphanTx = sampleGreedyChild := by
    intro hash orphanTx hlookup
    have hmem := Finmap.mem_keys.mpr (Finmap.mem_of_lookup_eq_some hlookup)
    rw [hkeys, Finset.mem_singleton] at hmem
    subst hmem
    exact Option.some.inj (hlookup.symm.trans hchild)
  have hrefuses : Refuses sampleEnv sampleOrphanContext
      (TxState.entered sampleEnv sampleOrphanContext sampleParent
        ⟨sampleOrphanTip, .empty, OrphanCall.runAll sampleEnv sampleGreedyWaiting⟩) sampleGreedyChild := by
    unfold Refuses
    exact ⟨⟨_, rfl⟩, by decide⟩
  refine ⟨hchild, (OrphanCall.resolved_iff sampleEnv sampleGreedyWaiting (fun _ => sampleOrphanContext)
    (fun _ => 0) sampleParent sampleOrphanTip .empty sampleOrphanContext accept_sampleParent).mpr ⟨?_, ?_⟩⟩
  · intro hash orphanTx hlookup _ hadmits
    obtain rfl := honly hash orphanTx hlookup
    obtain ⟨⟨e, he⟩, -⟩ := hrefuses
    cases hadmits.symm.trans he
  · intro hash orphanTx hlookup _
    obtain rfl := honly hash orphanTx hlookup
    exact hrefuses

/-- The message that leaves the child of `sampleParent` among the orphans. -/
def sampleWaiting : List (OrphanCall CCoinsViewDB) :=
  [.message (fun _ => sampleOrphanContext) (fun _ => 0) sampleChild sampleOrphanTip .empty]

theorem lookup_sampleWaiting :
    (OrphanCall.runAll sampleEnv sampleWaiting).lookup 23 = some sampleChild := by decide

theorem admits_sampleChild : Admits sampleEnv sampleOrphanContext
    (TxState.entered sampleEnv sampleOrphanContext sampleParent
      ⟨sampleOrphanTip, .empty, OrphanCall.runAll sampleEnv sampleWaiting⟩) sampleChild := by
  unfold Admits
  decide

/-- The child waits, its parent is accepted, and the child is erased although it would be
admitted. -/
theorem OrphanCall.not_forall_resolved :
    ¬ ∀ (calls : List (OrphanCall CCoinsViewDB)) (ctx : Nat → AcceptContext)
      (randomhash : Nat → Uint256) (tx : CTransaction) (pcoinsTip : CCoinsViewCache CCoinsViewDB)
      (pool : CTxMemPool) (ctxAfter : AcceptContext),
      (pool.accept sampleEnv (ctx 0) tx true true pcoinsTip).outcome = .ok () →
        Resolved sampleEnv ctxAfter (OrphanCall.runAll sampleEnv calls) tx
          (processTx sampleEnv ctx randomhash tx
            ⟨pcoinsTip, pool, OrphanCall.runAll sampleEnv calls⟩) := by
  intro h
  have hresolved := h sampleWaiting (fun _ => sampleOrphanContext) (fun _ => 0) sampleParent
    sampleOrphanTip .empty sampleOrphanContext accept_sampleParent
  have hadmits : Admits sampleEnv sampleOrphanContext
      (⟨sampleOrphanTip, .empty, OrphanCall.runAll sampleEnv sampleWaiting⟩ :
        TxState CCoinsViewDB) sampleParent := accept_sampleParent
  have hnothing := (resolved_processTx_iff (fun _ => sampleOrphanContext) (fun _ => 0)
    (OrphanCall.exact_runAll sampleEnv sampleWaiting)
    (OrphanCall.keyed_runAll sampleEnv sampleWaiting) hadmits sampleOrphanContext).mp hresolved
  exact hnothing.1 23 sampleChild lookup_sampleWaiting
    (.direct lookup_sampleWaiting (List.mem_singleton.mpr rfl)) admits_sampleChild

end Manna
