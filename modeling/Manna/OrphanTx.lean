import Manna.Lib.BackIndex
import Manna.PoolIndex
import Mathlib.Data.Finset.Sort

/-!
Orphan transactions (`main.cpp`: `AddOrphanTx`, `EraseOrphanTx`, `LimitOrphanTxSize` and the
`tx` message of `ProcessMessage`).

`mapOrphanTransactions` keeps transactions whose inputs are unknown and
`mapOrphanTransactionsByPrev` says who waits for what. A `tx` message offers its
transaction to the memory pool; when it is accepted, a work queue offers what depends on
it, and what is settled is erased at the end.

* `processTx_accepted`: the calls of the work queue are made on the transaction of the
  message, so they all fail and everything that depends on it is erased;
* `OrphanCall.index_iff`: the index is exact after every call, and has no empty set, as
  long as every accepted transaction has an orphan waiting for it.
-/

namespace Manna

open BackIndex

def MAX_ORPHAN_TRANSACTIONS : Nat := MAX_BLOCK_SIZE / 100

/-- The transactions a transaction spends outputs of. -/
def CTransaction.prevHashes (tx : CTransaction) : List Uint256 :=
  tx.vin.map fun txin => txin.prevout.hash

/-- The two maps of orphan transactions. -/
structure OrphanPool where
  mapOrphanTransactions : Finmap fun _ : Uint256 => CTransaction
  mapOrphanTransactionsByPrev : Index Uint256 Uint256

namespace OrphanPool

def empty : OrphanPool := ⟨∅, ∅⟩

def size (orphans : OrphanPool) : Nat := orphans.mapOrphanTransactions.keys.card

/-- The stored transaction of a hash. -/
def lookup (orphans : OrphanPool) (hash : Uint256) : Option CTransaction :=
  orphans.mapOrphanTransactions.lookup hash

/-- `mapOrphanTransactionsByPrev[hashPrev]`, as a value. -/
def byPrev (orphans : OrphanPool) (hashPrev : Uint256) : Finset Uint256 :=
  orphans.mapOrphanTransactionsByPrev.at hashPrev

def addOrphanTx (env : Env) (tx : CTransaction) (orphans : OrphanPool) : Bool × OrphanPool :=
  if (orphans.lookup (env.txHash tx)).isSome then (false, orphans)
  else if tx.serializeSize > 5000 then (false, orphans)
  else (true,
    { mapOrphanTransactions := orphans.mapOrphanTransactions.insert (env.txHash tx) tx
      mapOrphanTransactionsByPrev :=
        link (env.txHash tx) tx.prevHashes orphans.mapOrphanTransactionsByPrev })

def eraseOrphanTx (hash : Uint256) (orphans : OrphanPool) : OrphanPool :=
  match orphans.lookup hash with
  | none => orphans
  | some tx =>
    { mapOrphanTransactions := orphans.mapOrphanTransactions.erase hash
      mapOrphanTransactionsByPrev :=
        unlink hash tx.prevHashes orphans.mapOrphanTransactionsByPrev }

def eraseQueue (hashes : List Uint256) (orphans : OrphanPool) : OrphanPool :=
  hashes.foldl (fun orphans hash => orphans.eraseOrphanTx hash) orphans

/-- The map after `mapOrphanTransactionsByPrev[hashPrev]` was named: there is a set. -/
def named (hashPrev : Uint256) (orphans : OrphanPool) : OrphanPool :=
  { orphans with
    mapOrphanTransactionsByPrev := touch hashPrev orphans.mapOrphanTransactionsByPrev }

/-- The entry `LimitOrphanTxSize` evicts: the first one from a random hash on, or else the
first one. -/
def victim (orphans : OrphanPool) (randomhash : Uint256) : Option Uint256 :=
  let order := orphans.mapOrphanTransactions.keys.sort (· ≤ ·)
  (order.find? fun hash => decide (randomhash ≤ hash)).or order.head?

/-- The loop of `LimitOrphanTxSize`, for at most so many rounds; the hashes are those
`GetRandHash` gives one after the other. -/
def limitLoop (nMaxOrphans : Nat) (randomhash : Nat → Uint256) :
    Nat → Nat → OrphanPool → Nat × OrphanPool
  | 0, nEvicted, orphans => (nEvicted, orphans)
  | rounds + 1, nEvicted, orphans =>
    if orphans.size > nMaxOrphans then
      match orphans.victim (randomhash nEvicted) with
      | none => (nEvicted, orphans)
      | some hash =>
        limitLoop nMaxOrphans randomhash rounds (nEvicted + 1) (orphans.eraseOrphanTx hash)
    else (nEvicted, orphans)

/-- `LimitOrphanTxSize`: the number of evicted entries and what is left. Every round takes
one out. -/
def limitOrphanTxSize (nMaxOrphans : Nat) (randomhash : Nat → Uint256) (orphans : OrphanPool) :
    Nat × OrphanPool := limitLoop nMaxOrphans randomhash orphans.size 0 orphans

end OrphanPool

/-! ### The message -/

/-- What a `tx` message reads and changes. -/
structure TxState (σ : Type) where
  pcoinsTip : CCoinsViewCache σ
  pool : CTxMemPool
  orphans : OrphanPool

/-- The state of the work queue; `calls` counts the calls of `AcceptToMemoryPool`. -/
structure WorkState (σ : Type) extends TxState σ where
  vWorkQueue : List Uint256
  vEraseQueue : List Uint256
  calls : Nat

section Message

variable {σ : Type} [CoinsView σ]

/-- The body of the inner loop. The source reads `orphanTx` from `mapOrphanTransactions` to
relay it, but offers `tx` to the pool. -/
def offerOrphan (env : Env) (ctx : Nat → AcceptContext) (tx : CTransaction) (s : WorkState σ)
    (orphanHash : Uint256) : WorkState σ :=
  let result := s.pool.accept env (ctx s.calls) tx true true s.pcoinsTip
  let s := { s with
    pcoinsTip := result.pcoinsTip
    pool := result.pool
    calls := s.calls + 1 }
  match result.outcome with
  | .ok _ => { s with
      vWorkQueue := s.vWorkQueue ++ [orphanHash]
      vEraseQueue := s.vEraseQueue ++ [orphanHash] }
  | .error _ =>
    if result.fMissingInputs then s else { s with vEraseQueue := s.vEraseQueue ++ [orphanHash] }

/-- One round of the outer loop: everything that waits for `hashPrev`. Naming the set
enters it in the map. -/
def offerChildren (env : Env) (ctx : Nat → AcceptContext) (tx : CTransaction) (hashPrev : Uint256)
    (s : WorkState σ) : WorkState σ :=
  let s := { s with orphans := s.orphans.named hashPrev }
  ((s.orphans.byPrev hashPrev).sort (· ≤ ·)).foldl (offerOrphan env ctx tx) s

def workLoop (env : Env) (ctx : Nat → AcceptContext) (tx : CTransaction) :
    Nat → Nat → WorkState σ → WorkState σ
  | 0, _, s => s
  | rounds + 1, i, s =>
    match s.vWorkQueue[i]? with
    | none => s
    | some hashPrev => workLoop env ctx tx rounds (i + 1) (offerChildren env ctx tx hashPrev s)

/-- The `tx` message of `ProcessMessage`. An orphan is accepted at most once, so the work
queue holds no more hashes than there are orphans and the one it starts with. -/
def processTx (env : Env) (ctx : Nat → AcceptContext) (randomhash : Nat → Uint256)
    (tx : CTransaction) (s : TxState σ) : TxState σ :=
  let result := s.pool.accept env (ctx 0) tx true true s.pcoinsTip
  let s := { s with pcoinsTip := result.pcoinsTip, pool := result.pool }
  match result.outcome with
  | .ok _ =>
    let hash := env.txHash tx
    let s := workLoop env ctx tx (s.orphans.size + 1) 0
      { s with vWorkQueue := [hash], vEraseQueue := [hash], calls := 1 }
    { s.toTxState with orphans := s.orphans.eraseQueue s.vEraseQueue }
  | .error _ =>
    if result.fMissingInputs then
      { s with orphans :=
        ((s.orphans.addOrphanTx env tx).2.limitOrphanTxSize MAX_ORPHAN_TRANSACTIONS
          randomhash).2 }
    else s

/-! ### What the work queue does -/

/-- The orphans after a transaction and everything that waits for it were erased. -/
def OrphanPool.settle (hash : Uint256) (orphans : OrphanPool) : OrphanPool :=
  (orphans.named hash).eraseQueue (hash :: (orphans.byPrev hash).sort (· ≤ ·))

theorem CTxMemPool.accept_again {env : Env} {pool : CTxMemPool} {tx : CTransaction}
    (h : (pool.mapTx.lookup (env.txHash tx)).isSome = true) (ctx : AcceptContext)
    (fCheckInputs fLimitFree : Bool) (pcoinsTip : CCoinsViewCache σ) :
    ∃ e, pool.accept env ctx tx fCheckInputs fLimitFree pcoinsTip = ⟨.error e, false, pcoinsTip, pool⟩ := by
  cases hloose : acceptLoose env ctx tx pool with
  | error e => exact ⟨e, by rw [CTxMemPool.accept, hloose]⟩
  | ok _ =>
    rw [(acceptLoose_ok hloose).fresh] at h
    cases h

variable {env : Env} {ctx : Nat → AcceptContext} {tx : CTransaction}

/-- Once its transaction is in the pool, a round of the inner loop only queues the orphan to
be erased. -/
theorem offerOrphan_eq {s : WorkState σ} (h : (s.pool.mapTx.lookup (env.txHash tx)).isSome = true)
    (orphanHash : Uint256) : offerOrphan env ctx tx s orphanHash =
      { s with
        vEraseQueue := s.vEraseQueue ++ [orphanHash]
        calls := s.calls + 1 } := by
  obtain ⟨e, he⟩ := CTxMemPool.accept_again h (ctx s.calls) true true s.pcoinsTip
  simp only [offerOrphan, he, Bool.false_eq_true, if_false]

theorem foldl_offerOrphan (hashes : List Uint256) {s : WorkState σ}
    (h : (s.pool.mapTx.lookup (env.txHash tx)).isSome = true) :
    hashes.foldl (offerOrphan env ctx tx) s =
      { s with
        vEraseQueue := s.vEraseQueue ++ hashes
        calls := s.calls + hashes.length } := by
  induction hashes generalizing s with
  | nil => simp
  | cons hash hashes ih =>
    rw [List.foldl_cons, offerOrphan_eq h]
    refine Eq.trans (ih h) ?_
    simp only [List.append_assoc, List.singleton_append, List.length_cons]
    congr 1
    omega

/-- **What an accepted message does to the orphans**: everything that depends on its
transaction is erased, and nothing of it is offered to the pool. -/
theorem processTx_accepted {randomhash : Nat → Uint256} {s : TxState σ}
    (h : (s.pool.accept env (ctx 0) tx true true s.pcoinsTip).outcome = .ok ()) :
    processTx env ctx randomhash tx s =
      { pcoinsTip := (s.pool.accept env (ctx 0) tx true true s.pcoinsTip).pcoinsTip
        pool := (s.pool.accept env (ctx 0) tx true true s.pcoinsTip).pool
        orphans := s.orphans.settle (env.txHash tx) } := by
  have hin : ((s.pool.accept env (ctx 0) tx true true s.pcoinsTip).pool.mapTx.lookup
      (env.txHash tx)).isSome = true := by
    rcases s.pool.accept_pool env (ctx 0) tx true true s.pcoinsTip with ⟨⟨e, he⟩, -⟩ | ⟨-, -, hpool⟩
    · rw [h] at he
      cases he
    · rw [hpool, CTxMemPool.addUnchecked, Finmap.lookup_insert]
      rfl
  rw [processTx]
  generalize s.pool.accept env (ctx 0) tx true true s.pcoinsTip = result at h hin
  have hchildren : (s.orphans.named (env.txHash tx)).byPrev (env.txHash tx) =
      s.orphans.byPrev (env.txHash tx) := at_touch _ _ _
  simp only [h, workLoop, List.getElem?_cons_zero, offerChildren, hchildren]
  rw [foldl_offerOrphan _ hin]
  -- the queue holds no second hash, so the loop ends with its first round
  cases s.orphans.size <;> simp [workLoop, OrphanPool.settle]

end Message

/-! ### The index stays exact -/

namespace OrphanPool

variable {orphans : OrphanPool} {env : Env} {hash prev : Uint256}

/-- The index says exactly which orphans have an input from a transaction. -/
def Exact (orphans : OrphanPool) : Prop :=
  BackIndex.Exact orphans.mapOrphanTransactions CTransaction.prevHashes
    orphans.mapOrphanTransactionsByPrev

/-- The index has no empty set for a transaction. -/
def TightAt (orphans : OrphanPool) (prev : Uint256) : Prop :=
  BackIndex.TightAt orphans.mapOrphanTransactionsByPrev prev

theorem exact_empty : empty.Exact := BackIndex.exact_empty _

theorem tightAt_empty (prev : Uint256) : empty.TightAt prev := BackIndex.tightAt_empty prev

theorem Exact.addOrphanTx (h : orphans.Exact) (env : Env) (tx : CTransaction) :
    (orphans.addOrphanTx env tx).2.Exact := by
  unfold OrphanPool.addOrphanTx
  split_ifs with hknown
  · exact h
  · exact h
  · rw [Bool.not_eq_true, Option.isSome_eq_false_iff, Option.isNone_iff_eq_none] at hknown
    exact BackIndex.Exact.insert h hknown

theorem TightAt.addOrphanTx (h : orphans.TightAt prev) (env : Env) (tx : CTransaction) :
    (orphans.addOrphanTx env tx).2.TightAt prev := by
  unfold OrphanPool.addOrphanTx
  split_ifs
  · exact h
  · exact h
  · exact BackIndex.TightAt.link h _ _

theorem lookup_eraseOrphanTx (hash hash' : Uint256) (orphans : OrphanPool) :
    (orphans.eraseOrphanTx hash).lookup hash' = if hash' = hash then none else orphans.lookup hash' := by
  unfold eraseOrphanTx
  split
  · next hnone =>
    split_ifs with heq
    · rw [heq, hnone]
    · rfl
  · next tx _ =>
    show (orphans.mapOrphanTransactions.erase hash).lookup hash' = _
    split_ifs with heq
    · rw [heq, Finmap.lookup_erase]
    · exact Finmap.lookup_erase_ne heq

theorem Exact.eraseOrphanTx (h : orphans.Exact) (hash : Uint256) : (orphans.eraseOrphanTx hash).Exact := by
  unfold OrphanPool.eraseOrphanTx
  split
  · exact h
  · next tx hstored => exact BackIndex.Exact.erase h hstored

theorem TightAt.eraseOrphanTx (h : orphans.TightAt prev) (hash : Uint256) :
    (orphans.eraseOrphanTx hash).TightAt prev := by
  unfold OrphanPool.eraseOrphanTx
  split
  · exact h
  · exact BackIndex.TightAt.unlink h _ _

/-- Erasing an orphan leaves no empty set for a transaction it has an input from. -/
theorem tightAt_eraseOrphanTx {tx : CTransaction} (hstored : orphans.lookup hash = some tx)
    (hprev : prev ∈ tx.prevHashes) : (orphans.eraseOrphanTx hash).TightAt prev := by
  simp only [eraseOrphanTx, hstored]
  exact BackIndex.tightAt_unlink hash hprev _

theorem lookup_byPrev_eraseOrphanTx (hprev : ∀ tx, orphans.lookup hash = some tx → prev ∉ tx.prevHashes) :
    (orphans.eraseOrphanTx hash).mapOrphanTransactionsByPrev.lookup prev =
      orphans.mapOrphanTransactionsByPrev.lookup prev := by
  cases hstored : orphans.lookup hash with
  | none => simp only [eraseOrphanTx, hstored]
  | some tx =>
    simp only [eraseOrphanTx, hstored]
    rw [BackIndex.lookup_unlink, if_neg (hprev tx hstored)]

theorem lookup_eraseQueue (hashes : List Uint256) (hash : Uint256) (orphans : OrphanPool) :
    (orphans.eraseQueue hashes).lookup hash = if hash ∈ hashes then none else orphans.lookup hash := by
  induction hashes generalizing orphans with
  | nil => rfl
  | cons head hashes ih =>
    show ((orphans.eraseOrphanTx head).eraseQueue hashes).lookup hash = _
    rw [ih, lookup_eraseOrphanTx]
    by_cases heq : hash = head
    · subst heq
      rw [if_pos rfl, ite_self, if_pos List.mem_cons_self]
    · simp only [List.mem_cons, heq, false_or, if_false]

theorem Exact.eraseQueue (h : orphans.Exact) (hashes : List Uint256) : (orphans.eraseQueue hashes).Exact := by
  induction hashes generalizing orphans with
  | nil => exact h
  | cons hash hashes ih => exact ih (h.eraseOrphanTx hash)

theorem TightAt.eraseQueue (h : orphans.TightAt prev) (hashes : List Uint256) :
    (orphans.eraseQueue hashes).TightAt prev := by
  induction hashes generalizing orphans with
  | nil => exact h
  | cons hash hashes ih => exact ih (h.eraseOrphanTx hash)

/-- Erasing a queue with an orphan that has an input from a transaction leaves no empty set
for it. -/
theorem tightAt_eraseQueue {tx : CTransaction} {hashes : List Uint256} (hin : hash ∈ hashes)
    (hstored : orphans.lookup hash = some tx) (hprev : prev ∈ tx.prevHashes) :
    (orphans.eraseQueue hashes).TightAt prev := by
  induction hashes generalizing orphans with
  | nil => cases hin
  | cons head hashes ih =>
    by_cases heq : hash = head
    · subst heq
      exact (tightAt_eraseOrphanTx hstored hprev).eraseQueue hashes
    · have hin' := (List.mem_cons.mp hin).resolve_left heq
      apply ih hin'
      rw [lookup_eraseOrphanTx, if_neg heq, hstored]

theorem lookup_byPrev_eraseQueue (hashes : List Uint256)
    (hprev : ∀ hash tx, orphans.lookup hash = some tx → prev ∉ tx.prevHashes) :
    (orphans.eraseQueue hashes).mapOrphanTransactionsByPrev.lookup prev =
      orphans.mapOrphanTransactionsByPrev.lookup prev := by
  induction hashes generalizing orphans with
  | nil => rfl
  | cons head hashes ih =>
    show ((orphans.eraseOrphanTx head).eraseQueue hashes).mapOrphanTransactionsByPrev.lookup prev = _
    rw [ih, lookup_byPrev_eraseOrphanTx (hprev head)]
    intro hash tx hstored
    rw [lookup_eraseOrphanTx] at hstored
    split_ifs at hstored
    exact hprev hash tx hstored

theorem mem_byPrev (h : orphans.Exact) :
    hash ∈ orphans.byPrev prev ↔ ∃ tx, orphans.lookup hash = some tx ∧ prev ∈ tx.prevHashes :=
  h prev hash

/-- What is left: what neither is the transaction nor waits for it. -/
theorem lookup_settle (prev hash : Uint256) (orphans : OrphanPool) : (orphans.settle prev).lookup hash =
      if hash = prev ∨ hash ∈ orphans.byPrev prev then none else orphans.lookup hash := by
  rw [settle, lookup_eraseQueue]
  simp only [List.mem_cons, Finset.mem_sort]
  rfl

theorem Exact.settle (h : orphans.Exact) (prev : Uint256) : (orphans.settle prev).Exact := by
  have hnamed : (orphans.named prev).Exact := BackIndex.Exact.touch h prev
  exact hnamed.eraseQueue _

theorem TightAt.settle_ne (h : orphans.TightAt hash) (hne : hash ≠ prev) :
    (orphans.settle prev).TightAt hash := by
  have hnamed : (orphans.named prev).TightAt hash := BackIndex.TightAt.touch_ne h hne
  exact hnamed.eraseQueue _

/-- **An empty set stays where nothing waited.** -/
theorem tightAt_settle_iff (h : orphans.Exact) :
    (orphans.settle prev).TightAt prev ↔ orphans.byPrev prev ≠ ∅ := by
  constructor
  · intro htight hempty
    have hnone : ∀ hash tx, (orphans.named prev).lookup hash = some tx → prev ∉ tx.prevHashes := by
      intro hash tx hstored hprev
      have hmem := (mem_byPrev h).mpr ⟨tx, hstored, hprev⟩
      rw [hempty] at hmem
      exact Finset.notMem_empty hash hmem
    apply htight
    rw [settle, lookup_byPrev_eraseQueue _ hnone]
    show (touch prev orphans.mapOrphanTransactionsByPrev).lookup prev = some ∅
    rw [touch, Finmap.lookup_insert]
    exact congrArg some hempty
  · intro hne
    obtain ⟨hash, hmem⟩ := Finset.nonempty_iff_ne_empty.mpr hne
    obtain ⟨tx, hstored, hprev⟩ := (mem_byPrev h).mp hmem
    have hin : hash ∈ prev :: (orphans.byPrev prev).sort (· ≤ ·) :=
      List.mem_cons_of_mem prev ((Finset.mem_sort _).mpr hmem)
    exact tightAt_eraseQueue hin (show (orphans.named prev).lookup hash = some tx from hstored) hprev

theorem size_settle (prev : Uint256) (orphans : OrphanPool) : (orphans.settle prev).size =
      (orphans.mapOrphanTransactions.keys \ insert prev (orphans.byPrev prev)).card := by
  unfold size
  congr 1
  ext hash
  rw [Finset.mem_sdiff, Finmap.mem_keys, Finmap.mem_keys, ← Finmap.lookup_isSome,
    ← Finmap.lookup_isSome, Finset.mem_insert]
  have hlookup := lookup_settle prev hash orphans
  simp only [lookup] at hlookup
  rw [hlookup]
  split_ifs with hgone
  · exact iff_of_false Bool.false_ne_true fun h => h.2 hgone
  · exact (and_iff_left hgone).symm

/-! ### The limit -/

theorem size_eraseOrphanTx (h : (orphans.lookup hash).isSome = true) :
    (orphans.eraseOrphanTx hash).size = orphans.size - 1 := by
  obtain ⟨tx, htx⟩ := Option.isSome_iff_exists.mp h
  have hmem : hash ∈ orphans.mapOrphanTransactions.keys := by
    rw [Finmap.mem_keys, ← Finmap.lookup_isSome]
    exact h
  simp only [size, eraseOrphanTx, htx]
  rw [Finmap.keys_erase, Finset.card_erase_of_mem hmem]

theorem victim_isSome (orphans : OrphanPool) (randomhash : Uint256) (h : 0 < orphans.size) :
    ∃ hash, orphans.victim randomhash = some hash ∧ (orphans.lookup hash).isSome = true := by
  have hne : orphans.mapOrphanTransactions.keys.sort (· ≤ ·) ≠ [] := by
    rw [← List.length_pos_iff, Finset.length_sort]
    exact h
  have hstored : ∀ hash ∈ orphans.mapOrphanTransactions.keys.sort (· ≤ ·),
      (orphans.lookup hash).isSome = true := by
    intro hash hmem
    rw [Finset.mem_sort, Finmap.mem_keys] at hmem
    exact Finmap.lookup_isSome.mpr hmem
  cases hfind : (orphans.mapOrphanTransactions.keys.sort (· ≤ ·)).find?
      fun hash => decide (randomhash ≤ hash) with
  | some hash =>
    refine ⟨hash, ?_, hstored hash (List.mem_of_find?_eq_some hfind)⟩
    simp only [victim, hfind, Option.some_or]
  | none =>
    obtain ⟨hash, rest, hcons⟩ := List.exists_cons_of_ne_nil hne
    refine ⟨hash, ?_, hstored hash (hcons ▸ List.mem_cons_self)⟩
    simp only [victim, hfind, Option.none_or]
    rw [hcons, List.head?_cons]

theorem limitLoop_eq (nMaxOrphans : Nat) (randomhash : Nat → Uint256) (rounds nEvicted : Nat)
    (orphans : OrphanPool) : ∃ hashes,
      (limitLoop nMaxOrphans randomhash rounds nEvicted orphans).2 = orphans.eraseQueue hashes := by
  induction rounds generalizing nEvicted orphans with
  | zero => exact ⟨[], rfl⟩
  | succ rounds ih =>
    rw [limitLoop]
    split_ifs
    · cases orphans.victim (randomhash nEvicted) with
      | none => exact ⟨[], rfl⟩
      | some hash =>
        obtain ⟨hashes, heq⟩ := ih (nEvicted + 1) (orphans.eraseOrphanTx hash)
        exact ⟨hash :: hashes, heq⟩
    · exact ⟨[], rfl⟩

theorem size_limitLoop_le (nMaxOrphans : Nat) (randomhash : Nat → Uint256) (rounds nEvicted : Nat)
    (orphans : OrphanPool) (h : orphans.size ≤ rounds + nMaxOrphans) :
    (limitLoop nMaxOrphans randomhash rounds nEvicted orphans).2.size ≤ nMaxOrphans := by
  induction rounds generalizing nEvicted orphans with
  | zero => exact le_trans h (Nat.le_of_eq (Nat.zero_add _))
  | succ rounds ih =>
    rw [limitLoop]
    split_ifs with hover
    · obtain ⟨hash, hvictim, hstored⟩ :=
        victim_isSome orphans (randomhash nEvicted) (by omega)
      rw [hvictim]
      apply ih
      rw [size_eraseOrphanTx hstored]
      omega
    · exact Nat.le_of_not_gt hover

/-- **The limit holds** after `LimitOrphanTxSize`. -/
theorem size_limitOrphanTxSize_le (nMaxOrphans : Nat) (randomhash : Nat → Uint256)
    (orphans : OrphanPool) : (orphans.limitOrphanTxSize nMaxOrphans randomhash).2.size ≤ nMaxOrphans :=
  size_limitLoop_le nMaxOrphans randomhash orphans.size 0 orphans (Nat.le_add_right _ _)

theorem Exact.limitOrphanTxSize (h : orphans.Exact) (nMaxOrphans : Nat)
    (randomhash : Nat → Uint256) : (orphans.limitOrphanTxSize nMaxOrphans randomhash).2.Exact := by
  obtain ⟨hashes, heq⟩ := limitLoop_eq nMaxOrphans randomhash orphans.size 0 orphans
  rw [OrphanPool.limitOrphanTxSize, heq]
  exact h.eraseQueue hashes

theorem TightAt.limitOrphanTxSize (h : orphans.TightAt prev) (nMaxOrphans : Nat)
    (randomhash : Nat → Uint256) : (orphans.limitOrphanTxSize nMaxOrphans randomhash).2.TightAt prev := by
  obtain ⟨hashes, heq⟩ := limitLoop_eq nMaxOrphans randomhash orphans.size 0 orphans
  rw [OrphanPool.limitOrphanTxSize, heq]
  exact h.eraseQueue hashes

end OrphanPool

/-! ### Sequences of calls -/

/-- A call that changes the orphans. A message finds any memory pool and any coins. -/
inductive OrphanCall (σ : Type) where
  | add (tx : CTransaction)
  | erase (hash : Uint256)
  | limit (nMaxOrphans : Nat) (randomhash : Nat → Uint256)
  | message (ctx : Nat → AcceptContext) (randomhash : Nat → Uint256) (tx : CTransaction)
      (pcoinsTip : CCoinsViewCache σ) (pool : CTxMemPool)

namespace OrphanCall

variable {σ : Type} [CoinsView σ]

/-- What a call does to the orphans. -/
def run (env : Env) (orphans : OrphanPool) : OrphanCall σ → OrphanPool
  | .add tx => (orphans.addOrphanTx env tx).2
  | .erase hash => orphans.eraseOrphanTx hash
  | .limit nMaxOrphans randomhash => (orphans.limitOrphanTxSize nMaxOrphans randomhash).2
  | .message ctx randomhash tx pcoinsTip pool =>
    (processTx env ctx randomhash tx ⟨pcoinsTip, pool, orphans⟩).orphans

/-- The orphans after a sequence of calls on the empty maps. -/
def runAll (env : Env) (calls : List (OrphanCall σ)) : OrphanPool :=
  calls.foldl (fun orphans call => call.run env orphans) .empty

/-- What the index promises after a call: it is exact, has no empty set, and after a message
the orphans are within the limit. -/
structure Kept (call : OrphanCall σ) (orphans : OrphanPool) : Prop where
  exact_ : orphans.Exact
  tight : ∀ prev, orphans.TightAt prev
  limit : ∀ ctx randomhash tx pcoinsTip pool, call = .message ctx randomhash tx pcoinsTip pool →
    orphans.size ≤ MAX_ORPHAN_TRANSACTIONS

/-- What a call has to find. An accepted transaction has an orphan waiting for it, and with
what waits for it gone the orphans are within the limit; a transaction rejected for another
reason than missing inputs finds them within the limit. -/
def Finds (env : Env) (orphans : OrphanPool) : OrphanCall σ → Prop
  | .message ctx _ tx pcoinsTip pool =>
    ((pool.accept env (ctx 0) tx true true pcoinsTip).outcome = .ok () →
      orphans.byPrev (env.txHash tx) ≠ ∅ ∧
        (orphans.mapOrphanTransactions.keys \
          insert (env.txHash tx) (orphans.byPrev (env.txHash tx))).card ≤
            MAX_ORPHAN_TRANSACTIONS) ∧
    (∀ e, (pool.accept env (ctx 0) tx true true pcoinsTip).outcome = .error e →
      (pool.accept env (ctx 0) tx true true pcoinsTip).fMissingInputs = false →
        orphans.size ≤ MAX_ORPHAN_TRANSACTIONS)
  | _ => True

variable {env : Env} {orphans : OrphanPool} {ctx : Nat → AcceptContext}
  {randomhash : Nat → Uint256} {tx : CTransaction} {pcoinsTip : CCoinsViewCache σ}
  {pool : CTxMemPool}

theorem run_message_of_error {e : Halt}
    (h : (pool.accept env (ctx 0) tx true true pcoinsTip).outcome = .error e) :
    run env orphans (.message ctx randomhash tx pcoinsTip pool) =
      if (pool.accept env (ctx 0) tx true true pcoinsTip).fMissingInputs then
        ((orphans.addOrphanTx env tx).2.limitOrphanTxSize MAX_ORPHAN_TRANSACTIONS randomhash).2
      else orphans := by
  simp only [run, processTx, h]
  split_ifs <;> rfl

theorem run_message_of_ok (h : (pool.accept env (ctx 0) tx true true pcoinsTip).outcome = .ok ()) :
    run env orphans (.message ctx randomhash tx pcoinsTip pool) = orphans.settle (env.txHash tx) := by
  rw [run, processTx_accepted (s := ⟨pcoinsTip, pool, orphans⟩) h]

/-- **The index is exact after every call.** -/
theorem exact_run (h : orphans.Exact) (call : OrphanCall σ) : (call.run env orphans).Exact := by
  cases call with
  | add tx => exact h.addOrphanTx env tx
  | erase hash => exact h.eraseOrphanTx hash
  | limit nMaxOrphans randomhash => exact h.limitOrphanTxSize nMaxOrphans randomhash
  | message ctx randomhash tx pcoinsTip pool =>
    cases hout : (pool.accept env (ctx 0) tx true true pcoinsTip).outcome with
    | ok _ =>
      rw [run_message_of_ok hout]
      exact h.settle _
    | error e =>
      rw [run_message_of_error hout]
      split_ifs
      · exact (h.addOrphanTx env tx).limitOrphanTxSize _ _
      · exact h

/-- **One call**: what it promises is what it has to find. -/
theorem kept_run_iff (h : orphans.Exact) (htight : ∀ prev, orphans.TightAt prev)
    (call : OrphanCall σ) : call.Kept (call.run env orphans) ↔ call.Finds env orphans := by
  have hexact : (call.run env orphans).Exact := exact_run h call
  cases call with
  | add tx => exact iff_of_true ⟨hexact, fun prev => (htight prev).addOrphanTx env tx, nofun⟩ trivial
  | erase hash => exact iff_of_true ⟨hexact, fun prev => (htight prev).eraseOrphanTx hash, nofun⟩ trivial
  | limit nMaxOrphans randomhash =>
    exact iff_of_true
      ⟨hexact, fun prev => (htight prev).limitOrphanTxSize nMaxOrphans randomhash, nofun⟩ trivial
  | message ctx randomhash tx pcoinsTip pool =>
    cases hout : (pool.accept env (ctx 0) tx true true pcoinsTip).outcome with
    | ok _ =>
      have hrun : run env orphans (.message ctx randomhash tx pcoinsTip pool) =
          orphans.settle (env.txHash tx) := run_message_of_ok hout
      rw [hrun] at hexact ⊢
      constructor
      · intro hkept
        refine ⟨fun _ => ⟨?_, ?_⟩, fun e he => ?_⟩
        · exact (OrphanPool.tightAt_settle_iff h).mp (hkept.tight _)
        · rw [← OrphanPool.size_settle]
          exact hkept.limit _ _ _ _ _ rfl
        · rw [hout] at he
          cases he
      · intro hfinds
        obtain ⟨hwaits, hcard⟩ := hfinds.1 hout
        refine ⟨hexact, fun prev => ?_, fun _ _ _ _ _ _ => ?_⟩
        · by_cases hprev : prev = env.txHash tx
          · rw [hprev]
            exact (OrphanPool.tightAt_settle_iff h).mpr hwaits
          · exact (htight prev).settle_ne hprev
        · rw [OrphanPool.size_settle]
          exact hcard
    | error e =>
      rw [run_message_of_error hout] at hexact ⊢
      have hnot : ¬ (pool.accept env (ctx 0) tx true true pcoinsTip).outcome = .ok () := by
        rw [hout]
        exact nofun
      cases hmissing : (pool.accept env (ctx 0) tx true true pcoinsTip).fMissingInputs with
      | true =>
        rw [hmissing] at hexact
        apply iff_of_true
        · refine ⟨hexact, fun prev => ?_, fun _ _ _ _ _ _ => ?_⟩
          · exact ((htight prev).addOrphanTx env tx).limitOrphanTxSize _ _
          · exact OrphanPool.size_limitOrphanTxSize_le _ _ _
        · refine ⟨fun hok => absurd hok hnot, fun _ _ hfalse => ?_⟩
          rw [hmissing] at hfalse
          cases hfalse
      | false =>
        constructor
        · exact fun hkept => ⟨fun hok => absurd hok hnot,
            fun _ _ _ => hkept.limit _ _ _ _ _ rfl⟩
        · exact fun hfinds => ⟨h, htight, fun _ _ _ _ _ _ => hfinds.2 e hout hmissing⟩

theorem runAll_concat (env : Env) (calls : List (OrphanCall σ)) (call : OrphanCall σ) :
    runAll env (calls ++ [call]) = call.run env (runAll env calls) := by
  rw [runAll, List.foldl_append]
  rfl

theorem exact_runAll (env : Env) (calls : List (OrphanCall σ)) : (runAll env calls).Exact := by
  induction calls using List.reverseRecOn with
  | nil => exact OrphanPool.exact_empty
  | append_singleton calls call ih =>
    rw [runAll_concat]
    exact exact_run ih call

theorem tightAt_runAll {calls : List (OrphanCall σ)}
    (h : ∀ pre call, pre ++ [call] <+: calls → call.Kept (runAll env (pre ++ [call]))) (prev : Uint256) :
    (runAll env calls).TightAt prev := by
  rcases List.eq_nil_or_concat' calls with rfl | ⟨pre, call, rfl⟩
  · exact OrphanPool.tightAt_empty prev
  · exact (h pre call (List.prefix_refl _)).tight prev

/-- **The orphan index.** In every sequence of calls each call leaves an exact index without
empty sets, and each message leaves the orphans within the limit, if and only if each
message finds what it needs: an accepted transaction an orphan that waits for it, and the
limit kept wherever no orphan is added. -/
theorem index_iff (env : Env) (calls : List (OrphanCall σ)) :
    (∀ pre call, pre ++ [call] <+: calls → call.Kept (runAll env (pre ++ [call]))) ↔
      ∀ pre call, pre ++ [call] <+: calls → call.Finds env (runAll env pre) := by
  constructor
  · intro hkept pre call hpre
    have htight := tightAt_runAll fun pre' call' hpre' =>
      hkept pre' call' (hpre'.trans ((List.prefix_append pre [call]).trans hpre))
    have hcall := hkept pre call hpre
    rw [runAll_concat] at hcall
    exact (kept_run_iff (exact_runAll env pre) htight call).mp hcall
  · intro hfinds pre call hpre
    -- by induction on the run: what was found before makes the index tight here
    induction hlen : pre.length using Nat.strongRecOn generalizing pre call with
    | ind n ih =>
      have htight : ∀ prev, (runAll env pre).TightAt prev := by
        apply tightAt_runAll
        intro pre' call' hpre'
        apply ih pre'.length
        · have hle := hpre'.length_le
          rw [List.length_append, List.length_singleton] at hle
          omega
        · exact hpre'.trans ((List.prefix_append pre [call]).trans hpre)
        · rfl
      rw [runAll_concat]
      exact (kept_run_iff (exact_runAll env pre) htight call).mpr (hfinds pre call hpre)

end OrphanCall

/-- The coins of a chain of 100 blocks with one output of 4 CENT. -/
def sampleOrphanTip : CCoinsViewCache CCoinsViewDB :=
  .new ⟨fun txid => if txid = 7 then some ⟨false, [⟨4 * CENT, []⟩], 1, 1⟩ else none, some 1000⟩

def sampleOrphanContext : AcceptContext :=
  ⟨100, 1000, fun hash => if hash = 1000 then some 100 else none, false⟩

theorem accept_sampleParent : (CTxMemPool.empty.accept sampleEnv sampleOrphanContext sampleParent
    true true sampleOrphanTip).outcome = .ok () := by decide

/-- The first accepted transaction leaves a key with an empty set. -/
theorem OrphanCall.not_forall_kept :
    ¬ ∀ (calls : List (OrphanCall CCoinsViewDB)) pre call, pre ++ [call] <+: calls →
      call.Kept (OrphanCall.runAll sampleEnv (pre ++ [call])) := by
  intro h
  have hkept := h [.message (fun _ => sampleOrphanContext) (fun _ => 0) sampleParent sampleOrphanTip
    .empty] [] _ (List.prefix_refl _)
  have hrun : OrphanCall.runAll sampleEnv ([] ++ [.message (fun _ => sampleOrphanContext)
      (fun _ => 0) sampleParent sampleOrphanTip .empty]) = OrphanPool.empty.settle 22 :=
    OrphanCall.run_message_of_ok accept_sampleParent
  rw [hrun] at hkept
  exact (OrphanPool.tightAt_settle_iff OrphanPool.exact_empty).mp (hkept.tight 22) rfl

end Manna
