import Manna.MemPool

/-!
The index of the memory pool and its recursive removal.

`Indexed` says that `mapNextTx` is exactly the map from the outpoints pool transactions
spend to the inputs that spend them. Every operation keeps it; a recursive removal follows
it from a transaction to what spends its outputs.

The hash names transactions: the facts hold for a set of transactions in which no two share
a hash and none is, through hashes, its own ancestor (`Hashed`).
-/

namespace Manna

/-- The hash function on the transactions a pool ever meets: no two share a hash, and
following inputs to the transactions they name never goes in a circle. -/
structure Hashed (env : Env) (T : Set CTransaction) : Prop where
  injective : ∀ tx ∈ T, ∀ tx' ∈ T, env.txHash tx = env.txHash tx' → tx = tx'
  acyclic : ∃ rank : Uint256 → Nat, ∀ tx ∈ T, ∀ txin ∈ tx.vin,
    rank txin.prevout.hash < rank (env.txHash tx)

namespace CTxMemPool

/-- An input of a pool transaction, by position. -/
def InputAt (pool : CTxMemPool) (inpoint : CInPoint) (out : COutPoint) : Prop :=
  ∃ tx txin, pool.mapTx.lookup inpoint.ptx = some tx ∧ tx.vin[inpoint.n]? = some txin ∧
    txin.prevout = out

/-- `mapTx` is keyed by hash and `mapNextTx` is exactly the index of its inputs. -/
structure Indexed (env : Env) (T : Set CTransaction) (pool : CTxMemPool) : Prop where
  hash : ∀ {hash tx}, pool.mapTx.lookup hash = some tx → env.txHash tx = hash ∧ tx ∈ T
  next : ∀ out inpoint, pool.mapNextTx.lookup out = some inpoint ↔ pool.InputAt inpoint out

/-- The smaller pool has fewer transactions. -/
def Sub (pool' pool : CTxMemPool) : Prop :=
  ∀ hash tx, pool'.mapTx.lookup hash = some tx → pool.mapTx.lookup hash = some tx

theorem Sub.refl (pool : CTxMemPool) : pool.Sub pool := fun _ _ => id

theorem Sub.trans {pool pool' pool'' : CTxMemPool} (h : pool''.Sub pool') (h' : pool'.Sub pool) :
    pool''.Sub pool := fun hash tx hmem => h' hash tx (h hash tx hmem)

variable {env : Env} {T : Set CTransaction} {pool pool' : CTxMemPool} {tx : CTransaction}

theorem indexed_empty : Indexed env T empty where
  hash h := by cases h
  next out inpoint := by
    constructor
    · intro h; cases h
    · rintro ⟨tx, txin, h, -⟩
      cases h

/-- **No outpoint is spent twice** in an indexed pool. -/
theorem Indexed.unique (h : Indexed env T pool) (p p' : CInPoint) {out : COutPoint}
    (hp : pool.InputAt p out) (hp' : pool.InputAt p' out) : p = p' :=
  Option.some.inj (((h.next out p).mpr hp).symm.trans ((h.next out p').mpr hp'))

/-! ### Adding -/

theorem lookup_pointInputs (hash : Uint256) {vin : List CTxIn}
    (hnodup : (vin.map (·.prevout)).Nodup) (i : Nat)
    (mapNextTx : Finmap fun _ : COutPoint => CInPoint) (out : COutPoint) (inpoint : CInPoint) :
    (pointInputs hash vin i mapNextTx).lookup out = some inpoint ↔
      (∃ n txin, vin[n]? = some txin ∧ txin.prevout = out ∧ inpoint = ⟨hash, i + n⟩) ∨
        (out ∉ vin.map (·.prevout) ∧ mapNextTx.lookup out = some inpoint) := by
  induction vin generalizing i mapNextTx with
  | nil => simp [pointInputs]
  | cons txin vin ih =>
    rw [List.map_cons, List.nodup_cons] at hnodup
    unfold pointInputs
    rw [ih hnodup.2 (i + 1)]
    constructor
    · rintro (⟨n, txin', hget, hout, rfl⟩ | ⟨hnotin, hlookup⟩)
      · exact .inl ⟨n + 1, txin', by simpa using hget, hout, by congr 1; omega⟩
      · by_cases heq : out = txin.prevout
        · subst heq
          rw [Finmap.lookup_insert, Option.some.injEq] at hlookup
          exact .inl ⟨0, txin, rfl, rfl, hlookup.symm⟩
        · rw [Finmap.lookup_insert_of_ne _ heq] at hlookup
          exact .inr ⟨by simp [heq, hnotin], hlookup⟩
    · rintro (⟨n, txin', hget, hout, rfl⟩ | ⟨hnotin, hlookup⟩)
      · cases n with
        | zero =>
          obtain rfl : txin = txin' := by simpa using hget
          subst hout
          exact .inr ⟨hnodup.1, by rw [Finmap.lookup_insert]; rfl⟩
        | succ n => exact .inl ⟨n, txin', by simpa using hget, hout, by congr 1; omega⟩
      · rw [List.map_cons, List.mem_cons, not_or] at hnotin
        exact .inr ⟨hnotin.2, by rw [Finmap.lookup_insert_of_ne _ hnotin.1, hlookup]⟩

/-- **Adding keeps the index.** -/
theorem Indexed.addUnchecked (h : Indexed env T pool) (hloose : Loose env tx pool) (hT : tx ∈ T) :
    Indexed env T (pool.addUnchecked (env.txHash tx) tx) := by
  have hnodup := (checkTransaction_eq_ok hloose.checked).prevout_nodup
  refine ⟨?_, fun out inpoint => ?_⟩
  · intro hash tx' hlookup
    simp only [CTxMemPool.addUnchecked] at hlookup
    by_cases heq : hash = env.txHash tx
    · subst heq
      rw [Finmap.lookup_insert, Option.some.injEq] at hlookup
      exact hlookup ▸ ⟨rfl, hT⟩
    · rw [Finmap.lookup_insert_of_ne _ heq] at hlookup
      exact h.hash hlookup
  · show (pointInputs (env.txHash tx) tx.vin 0 pool.mapNextTx).lookup out = some inpoint ↔ _
    rw [lookup_pointInputs _ hnodup]
    constructor
    · rintro (⟨n, txin, hget, hout, rfl⟩ | ⟨-, hlookup⟩)
      · exact ⟨tx, txin, Finmap.lookup_insert _, by simpa using hget, hout⟩
      · obtain ⟨tx', txin, hlookup', hget, hout⟩ := (h.next out inpoint).mp hlookup
        refine ⟨tx', txin, ?_, hget, hout⟩
        have hne : inpoint.ptx ≠ env.txHash tx := by
          intro heq
          rw [heq, hloose.fresh] at hlookup'
          cases hlookup'
        simpa only [CTxMemPool.addUnchecked, Finmap.lookup_insert_of_ne _ hne] using hlookup'
    · rintro ⟨tx', txin, hlookup, hget, hout⟩
      simp only [CTxMemPool.addUnchecked] at hlookup
      by_cases heq : inpoint.ptx = env.txHash tx
      · rw [heq, Finmap.lookup_insert, Option.some.injEq] at hlookup
        subst hlookup
        exact .inl ⟨inpoint.n, txin, hget, hout, by rw [← heq, zero_add]⟩
      · rw [Finmap.lookup_insert_of_ne _ heq] at hlookup
        have hnext := (h.next out inpoint).mpr ⟨tx', txin, hlookup, hget, hout⟩
        refine .inr ⟨fun hmem => ?_, hnext⟩
        obtain ⟨txin', hin, hprevout⟩ := List.mem_map.mp hmem
        rw [← hprevout, hloose.unspent txin' hin] at hnext
        cases hnext

/-! ### Removing one transaction -/

theorem lookup_eraseInputs (vin : List CTxIn) (mapNextTx : Finmap fun _ : COutPoint => CInPoint)
    (out : COutPoint) : (eraseInputs vin mapNextTx).lookup out =
      if out ∈ vin.map (·.prevout) then none else mapNextTx.lookup out := by
  induction vin generalizing mapNextTx with
  | nil => rfl
  | cons txin vin ih =>
    unfold eraseInputs
    rw [ih]
    by_cases heq : out = txin.prevout
    · subst heq
      simp [Finmap.lookup_erase]
    · simp [heq, Finmap.lookup_erase_ne heq]

theorem removeSingle_mapTx (env : Env) (tx : CTransaction) (pool : CTxMemPool) (hash : Uint256) :
    (pool.removeSingle env tx).mapTx.lookup hash =
      if hash = env.txHash tx then none else pool.mapTx.lookup hash := by
  unfold removeSingle
  by_cases heq : hash = env.txHash tx
  · subst heq
    split
    · simp
    · next habsent => simpa using habsent
  · rw [if_neg heq]
    split
    · exact Finmap.lookup_erase_ne heq
    · rfl

theorem removeSingle_sub (env : Env) (tx : CTransaction) (pool : CTxMemPool) :
    (pool.removeSingle env tx).Sub pool := by
  intro hash tx' hlookup
  rw [removeSingle_mapTx] at hlookup
  split at hlookup
  · cases hlookup
  · exact hlookup

/-- **Removing one transaction keeps the index.** -/
theorem Indexed.removeSingle (h : Indexed env T pool) (hhash : Hashed env T) (hT : tx ∈ T) :
    Indexed env T (pool.removeSingle env tx) := by
  refine ⟨fun hlookup => h.hash (removeSingle_sub env tx pool _ _ hlookup), fun out inpoint => ?_⟩
  cases hlookup : pool.mapTx.lookup (env.txHash tx) with
  | none => simpa [CTxMemPool.removeSingle, hlookup] using h.next out inpoint
  | some tx' =>
    obtain rfl : tx' = tx := hhash.injective tx' (h.hash hlookup).2 tx hT (h.hash hlookup).1
    have hnext : (pool.removeSingle env tx').mapNextTx = eraseInputs tx'.vin pool.mapNextTx := by
      simp [CTxMemPool.removeSingle, hlookup]
    rw [hnext, lookup_eraseInputs]
    constructor
    · intro hsome
      split at hsome
      · cases hsome
      · next hnotin =>
        obtain ⟨tx'', txin, hlookup', hget, hout⟩ := (h.next out inpoint).mp hsome
        refine ⟨tx'', txin, ?_, hget, hout⟩
        rw [removeSingle_mapTx, if_neg]
        · exact hlookup'
        · intro heq
          rw [heq, hlookup, Option.some.injEq] at hlookup'
          subst hlookup'
          exact hnotin (hout ▸ List.mem_map_of_mem (List.mem_of_getElem? hget))
    · rintro ⟨tx'', txin, hlookup', hget, hout⟩
      rw [removeSingle_mapTx] at hlookup'
      split at hlookup'
      · cases hlookup'
      · next hne =>
        rw [if_neg]
        · exact (h.next out inpoint).mpr ⟨tx'', txin, hlookup', hget, hout⟩
        · intro hmem
          obtain ⟨txin', hin, hprevout⟩ := List.mem_map.mp hmem
          obtain ⟨n, hn⟩ := List.mem_iff_getElem?.mp hin
          have hsame := h.unique inpoint ⟨env.txHash tx', n⟩
            ⟨tx'', txin, hlookup', hget, hout⟩ ⟨tx', txin', hlookup, hn, hprevout⟩
          exact hne (congrArg CInPoint.ptx hsame)

/-! ### Recursive removal -/

def SpendsOutput (env : Env) (child parent : CTransaction) : Prop :=
  ∃ txin ∈ child.vin, txin.prevout.hash = env.txHash parent ∧ txin.prevout.n < parent.vout.length

/-- What a removal leaves: a smaller indexed pool in which nothing spends an output of what
was taken out. -/
structure Removed (env : Env) (T : Set CTransaction) (pool pool' : CTxMemPool) : Prop where
  sub : pool'.Sub pool
  indexed : Indexed env T pool'
  closed : ∀ hash parent, pool.mapTx.lookup hash = some parent →
    pool'.mapTx.lookup hash = none →
    ∀ hash' child, pool'.mapTx.lookup hash' = some child → ¬ SpendsOutput env child parent

theorem Removed.refl (h : Indexed env T pool) : Removed env T pool pool :=
  ⟨.refl pool, h, fun hash parent hsome hnone => by rw [hsome] at hnone; cases hnone⟩

theorem Removed.trans {pool'' : CTxMemPool} (h : Removed env T pool pool')
    (h' : Removed env T pool' pool'') : Removed env T pool pool'' := by
  refine ⟨h'.sub.trans h.sub, h'.indexed, fun hash parent hsome hnone hash' child hchild => ?_⟩
  cases hmid : pool'.mapTx.lookup hash with
  | none => exact h.closed hash parent hsome hmid hash' child (h'.sub _ _ hchild)
  | some parent' =>
    obtain rfl := Option.some.inj (hsome.symm.trans (h.sub _ _ hmid))
    exact h'.closed hash parent hmid hnone hash' child hchild

/-- A recursive removal did what it is for: the transaction is gone, nothing spends its
outputs, and the same holds of all that went with it. -/
structure RemovedAll (env : Env) (T : Set CTransaction) (pool : CTxMemPool) (tx : CTransaction)
    (pool' : CTxMemPool) : Prop extends Removed env T pool pool' where
  gone : pool'.mapTx.lookup (env.txHash tx) = none
  unspent : ∀ hash child, pool'.mapTx.lookup hash = some child → ¬ SpendsOutput env child tx

/-- The loop over the outputs, from what the recursion does. -/
theorem removeSpenders_spec {recurse : CTransaction → CTxMemPool → Option CTxMemPool}
    (hrecurse : ∀ child pool pool', child ∈ T → Indexed env T pool →
      recurse child pool = some pool' → RemovedAll env T pool child pool')
    {hash : Uint256} {i count : Nat} (h : Indexed env T pool)
    (hrun : removeSpenders recurse hash i count pool = some pool') : Removed env T pool pool' ∧
      ∀ n, i ≤ n → n < i + count → pool'.mapNextTx.lookup ⟨hash, n⟩ = none := by
  induction count generalizing i pool with
  | zero =>
    obtain rfl := Option.some.inj hrun
    exact ⟨.refl h, fun n _ _ => by omega⟩
  | succ count ih =>
    -- A free outpoint stays free in a smaller pool.
    have hkeep : ∀ {pool₁ : CTxMemPool}, Indexed env T pool₁ → Removed env T pool₁ pool' →
        pool₁.mapNextTx.lookup ⟨hash, i⟩ = none → pool'.mapNextTx.lookup ⟨hash, i⟩ = none := by
      intro pool₁ h₁ hremoved hfree
      cases hlookup : pool'.mapNextTx.lookup ⟨hash, i⟩ with
      | none => rfl
      | some inpoint =>
        obtain ⟨tx, txin, htx, hget, hout⟩ := (hremoved.indexed.next _ _).mp hlookup
        rw [(h₁.next _ inpoint).mpr ⟨tx, txin, hremoved.sub _ _ htx, hget, hout⟩] at hfree
        cases hfree
    unfold removeSpenders at hrun
    cases hnext : pool.mapNextTx.lookup ⟨hash, i⟩ with
    | none =>
      rw [hnext] at hrun
      obtain ⟨hremoved, hfree⟩ := ih h hrun
      refine ⟨hremoved, fun n hle hlt => ?_⟩
      rcases Nat.eq_or_lt_of_le hle with rfl | hlt'
      · exact hkeep h hremoved hnext
      · exact hfree n (by omega) (by omega)
    | some inpoint =>
      obtain ⟨child, txin, hchild, hget, hout⟩ := (h.next _ _).mp hnext
      simp only [hnext, hchild] at hrun
      cases hrec : recurse child pool with
      | none => simp [hrec] at hrun
      | some pool₁ =>
        simp only [hrec] at hrun
        have hfirst := hrecurse child pool pool₁ (h.hash hchild).2 h hrec
        obtain ⟨hremoved, hfree⟩ := ih hfirst.indexed hrun
        refine ⟨hfirst.toRemoved.trans hremoved, fun n hle hlt => ?_⟩
        rcases Nat.eq_or_lt_of_le hle with rfl | hlt'
        · refine hkeep hfirst.indexed hremoved ?_
          cases hlookup : pool₁.mapNextTx.lookup ⟨hash, i⟩ with
          | none => rfl
          | some inpoint' =>
            -- The outpoint had one spender, and that one is gone.
            obtain ⟨tx, txin', htx, hget', hout'⟩ := (hfirst.indexed.next _ _).mp hlookup
            have hsame := h.unique inpoint' inpoint
              ⟨tx, txin', hfirst.sub _ _ htx, hget', hout'⟩ ⟨child, txin, hchild, hget, hout⟩
            have hgone := hfirst.gone
            rw [(h.hash hchild).1, ← hsame, htx] at hgone
            cases hgone
        · exact hfree n (by omega) (by omega)

/-- **A recursive removal that ends** leaves no transaction that spends an output of what it
removed. -/
theorem removeRecursive_spec (hhash : Hashed env T) {depth : Nat} (hT : tx ∈ T)
    (h : Indexed env T pool) (hrun : removeRecursive env depth tx pool = some pool') :
    RemovedAll env T pool tx pool' := by
  induction depth generalizing tx pool pool' with
  | zero => cases hrun
  | succ depth ih =>
    obtain ⟨pool₁, hloop, rfl⟩ := Option.map_eq_some_iff.mp hrun
    obtain ⟨hremoved, hfree⟩ := removeSpenders_spec
      (fun child pool pool' hchild hindexed hrec => ih hchild hindexed hrec) h hloop
    have hsub := removeSingle_sub env tx pool₁
    have hindexed := hremoved.indexed.removeSingle hhash hT
    have hunspent : ∀ hash child, (pool₁.removeSingle env tx).mapTx.lookup hash = some child →
        ¬ SpendsOutput env child tx := by
      rintro hash child hlookup ⟨txin, hin, hprevhash, hlt⟩
      obtain ⟨n, hn⟩ := List.mem_iff_getElem?.mp hin
      have hnext := (hremoved.indexed.next txin.prevout ⟨hash, n⟩).mpr
        ⟨child, txin, hsub _ _ hlookup, hn, rfl⟩
      have hnone := hfree txin.prevout.n (Nat.zero_le _) (by omega)
      rw [← hprevhash, hnext] at hnone
      cases hnone
    have hself : (pool₁.removeSingle env tx).mapTx.lookup (env.txHash tx) = none := by
      rw [removeSingle_mapTx, if_pos rfl]
    refine ⟨hremoved.trans ⟨hsub, hindexed, ?_⟩, hself, hunspent⟩
    intro hash parent hsome hnone hash' child hchild
    rw [removeSingle_mapTx] at hnone
    split at hnone
    · next heq =>
      obtain rfl : parent = tx := hhash.injective parent (hremoved.indexed.hash hsome).2 tx hT
        ((hremoved.indexed.hash hsome).1.trans heq)
      exact hunspent hash' child hchild
    · rw [hsome] at hnone
      cases hnone

/-! ### It ends -/

/-- The transactions of a pool that can be met below a rank. -/
def above (rank : Uint256 → Nat) (r : Nat) (pool : CTxMemPool) : Finset Uint256 :=
  pool.mapTx.keys.filter fun hash => r < rank hash

theorem above_subset {rank : Uint256 → Nat} {r r' : Nat} (hsub : pool'.Sub pool) (hle : r ≤ r') :
    above rank r' pool' ⊆ above rank r pool := by
  intro hash hmem
  simp only [above, Finset.mem_filter, Finmap.mem_keys] at hmem ⊢
  obtain ⟨tx, htx⟩ := Finmap.mem_iff.mp hmem.1
  exact ⟨Finmap.mem_iff.mpr ⟨tx, hsub _ _ htx⟩, by omega⟩

/-- **A recursive removal ends**, within as many levels as there are transactions above the
one removed. -/
theorem removeRecursive_isSome (hhash : Hashed env T) {rank : Uint256 → Nat}
    (hrank : ∀ tx ∈ T, ∀ txin ∈ tx.vin, rank txin.prevout.hash < rank (env.txHash tx))
    {depth : Nat} (hT : tx ∈ T) (h : Indexed env T pool)
    (hdepth : (above rank (rank (env.txHash tx)) pool).card < depth) :
    (removeRecursive env depth tx pool).isSome = true := by
  induction depth generalizing tx pool with
  | zero => omega
  | succ depth ih =>
    rw [removeRecursive, Option.isSome_map]
    -- What spends an output of the transaction lies above it.
    suffices hloop : ∀ (count i : Nat) (pool₁ : CTxMemPool), Indexed env T pool₁ →
        pool₁.Sub pool →
        (removeSpenders (removeRecursive env depth) (env.txHash tx) i count pool₁).isSome = true from
      hloop _ 0 pool h (.refl pool)
    intro count
    induction count with
    | zero => exact fun _ _ _ _ => rfl
    | succ count ihcount =>
      intro i pool₁ h₁ hsub
      unfold removeSpenders
      cases hnext : pool₁.mapNextTx.lookup ⟨env.txHash tx, i⟩ with
      | none => exact ihcount (i + 1) pool₁ h₁ hsub
      | some inpoint =>
        obtain ⟨child, txin, hchild, hget, hout⟩ := (h₁.next _ _).mp hnext
        obtain ⟨hchildhash, hchildT⟩ := h₁.hash hchild
        simp only [hchild]
        have hlt : rank (env.txHash tx) < rank (env.txHash child) := by
          have := hrank child hchildT txin (List.mem_of_getElem? hget)
          rwa [hout] at this
        have hsmaller : above rank (rank (env.txHash child)) pool₁ ⊂
            above rank (rank (env.txHash tx)) pool := by
          refine Finset.ssubset_iff_subset_ne.mpr ⟨above_subset hsub hlt.le, fun heq => ?_⟩
          have hin : env.txHash child ∈ above rank (rank (env.txHash tx)) pool := by
            simp only [above, Finset.mem_filter, Finmap.mem_keys]
            exact ⟨Finmap.mem_iff.mpr ⟨child, hchildhash ▸ hsub _ _ hchild⟩, hlt⟩
          rw [← heq] at hin
          simp [above] at hin
        have hcard := Finset.card_lt_card hsmaller
        have hrec := ih hchildT h₁ (by omega)
        obtain ⟨pool₂, hpool₂⟩ := Option.isSome_iff_exists.mp hrec
        simp only [hpool₂]
        have hremoved := removeRecursive_spec hhash hchildT h₁ hpool₂
        exact ihcount (i + 1) pool₂ hremoved.indexed (hremoved.sub.trans hsub)

theorem removeRecursive_mono {depth depth' : Nat} (hle : depth ≤ depth')
    (hrun : removeRecursive env depth tx pool = some pool') :
    removeRecursive env depth' tx pool = some pool' := by
  induction depth generalizing depth' tx pool pool' with
  | zero => cases hrun
  | succ depth ih =>
    cases depth' with
    | zero => omega
    | succ depth' =>
      have hloop : ∀ (count i : Nat) (pool pool' : CTxMemPool),
          removeSpenders (removeRecursive env depth) (env.txHash tx) i count pool = some pool' →
          removeSpenders (removeRecursive env depth') (env.txHash tx) i count pool =
            some pool' := by
        intro count
        induction count with
        | zero => exact fun _ _ _ => id
        | succ count ihcount =>
          intro i pool pool' hrun
          unfold removeSpenders at hrun ⊢
          split at hrun
          · exact ihcount _ _ _ hrun
          · split at hrun
            · cases hrun
            · split at hrun
              · cases hrun
              · next hrec =>
                rw [ih (by omega) hrec]
                exact ihcount _ _ _ hrun
      obtain ⟨pool₁, hloop₁, rfl⟩ := Option.map_eq_some_iff.mp hrun
      rw [removeRecursive, hloop _ _ _ _ hloop₁]
      rfl

/-- **The recursion of `remove` ends**, with the same result at every depth above the size of
the pool. -/
theorem removeRecursive_eq_remove (hhash : Hashed env T) (hT : tx ∈ T) (h : Indexed env T pool)
    {depth : Nat} (hdepth : pool.mapTx.keys.card < depth) :
    removeRecursive env depth tx pool = some (pool.remove env tx true) := by
  obtain ⟨rank, hrank⟩ := hhash.acyclic
  have hcard : (above rank (rank (env.txHash tx)) pool).card < pool.mapTx.keys.card + 1 :=
    Nat.lt_succ_of_le (Finset.card_le_card (Finset.filter_subset ..))
  obtain ⟨pool', hpool'⟩ := Option.isSome_iff_exists.mp (removeRecursive_isSome hhash hrank hT h hcard)
  rw [remove, if_pos rfl, hpool']
  exact removeRecursive_mono hdepth hpool'

/-- What a recursive `remove` leaves. -/
theorem remove_spec (hhash : Hashed env T) (hT : tx ∈ T) (h : Indexed env T pool) :
    RemovedAll env T pool tx (pool.remove env tx true) :=
  removeRecursive_spec hhash hT h (removeRecursive_eq_remove hhash hT h (Nat.lt_succ_self _))

/-- `removeConflicts` takes out, recursively, whatever else spends an input. -/
theorem removeConflict_spec (hhash : Hashed env T) (h : Indexed env T pool) (txin : CTxIn) :
    Removed env T pool (pool.removeConflict env tx txin) ∧
      ∀ hash tx', (pool.removeConflict env tx txin).mapTx.lookup hash = some tx' →
        txin.prevout ∈ tx'.vin.map (·.prevout) → tx' = tx := by
  unfold removeConflict
  cases hnext : pool.mapNextTx.lookup txin.prevout with
  | none =>
    refine ⟨.refl h, fun hash tx' hlookup hmem => ?_⟩
    obtain ⟨txin', hin, hprevout⟩ := List.mem_map.mp hmem
    obtain ⟨n, hn⟩ := List.mem_iff_getElem?.mp hin
    rw [(h.next txin.prevout ⟨hash, n⟩).mpr ⟨tx', txin', hlookup, hn, hprevout⟩] at hnext
    cases hnext
  | some inpoint =>
    obtain ⟨txConflict, txin', hlookup, hget, hout⟩ := (h.next _ _).mp hnext
    -- There is one spender; it stays only when it is the transaction itself.
    have hspender : ∀ hash tx', pool.mapTx.lookup hash = some tx' →
        txin.prevout ∈ tx'.vin.map (·.prevout) → hash = inpoint.ptx ∧ tx' = txConflict := by
      intro hash tx' hlookup' hmem
      obtain ⟨txin'', hin, hprevout⟩ := List.mem_map.mp hmem
      obtain ⟨n, hn⟩ := List.mem_iff_getElem?.mp hin
      have hsame := h.unique ⟨hash, n⟩ inpoint
        ⟨tx', txin'', hlookup', hn, hprevout⟩ ⟨txConflict, txin', hlookup, hget, hout⟩
      have hhash' : hash = inpoint.ptx := congrArg CInPoint.ptx hsame
      rw [hhash', hlookup, Option.some.injEq] at hlookup'
      exact ⟨hhash', hlookup'.symm⟩
    simp only [hlookup]
    split
    · have hspec := remove_spec hhash (h.hash hlookup).2 h
      refine ⟨hspec.toRemoved, fun hash tx' hlookup' hmem => ?_⟩
      obtain ⟨rfl, rfl⟩ := hspender hash tx' (hspec.sub _ _ hlookup') hmem
      have hgone := hspec.gone
      rw [(h.hash hlookup).1, hlookup'] at hgone
      cases hgone
    · next heq =>
      refine ⟨.refl h, fun hash tx' hlookup' hmem => ?_⟩
      rw [(hspender hash tx' hlookup' hmem).2]
      exact not_not.mp heq

theorem removeConflicts_spec (hhash : Hashed env T) (h : Indexed env T pool) :
    Removed env T pool (pool.removeConflicts env tx) ∧
      ∀ hash tx', (pool.removeConflicts env tx).mapTx.lookup hash = some tx' →
        ∀ txin ∈ tx.vin, txin.prevout ∈ tx'.vin.map (·.prevout) → tx' = tx := by
  unfold removeConflicts
  generalize tx.vin = vin
  induction vin generalizing pool with
  | nil => exact ⟨.refl h, fun _ _ _ _ hmem => absurd hmem List.not_mem_nil⟩
  | cons txin vin ih =>
    obtain ⟨hfirst, hspender⟩ : Removed env T pool (pool.removeConflict env tx txin) ∧ _ :=
      removeConflict_spec hhash h txin
    obtain ⟨hrest, hspenders⟩ := ih hfirst.indexed
    refine ⟨hfirst.trans hrest, fun hash tx' hlookup txin' hmem hin => ?_⟩
    rcases List.mem_cons.mp hmem with rfl | hmem
    · exact hspender hash tx' (hrest.sub _ _ hlookup) hin
    · exact hspenders hash tx' hlookup txin' hmem hin

/-! ### What stays -/

/-- A transaction is in the pool. -/
def Holds (pool : CTxMemPool) (tx : CTransaction) : Prop := ∃ hash, pool.mapTx.lookup hash = some tx

/-- What goes when a transaction is removed: itself, and what spends outputs of what goes. -/
inductive Falls (env : Env) (present : CTransaction → Prop) (tx : CTransaction) : CTransaction → Prop
  | self : Falls env present tx tx
  | child {parent child : CTransaction} (hparent : Falls env present tx parent) (hchild : present child)
      (hspends : SpendsOutput env child parent) : Falls env present tx child

theorem Falls.mono {present present' : CTransaction → Prop} (hsub : ∀ tx, present tx → present' tx)
    {fallen : CTransaction} (h : Falls env present tx fallen) : Falls env present' tx fallen := by
  induction h with
  | self => exact .self
  | child _ hchild hspends ih => exact .child ih (hsub _ hchild) hspends

theorem Falls.trans {present : CTransaction → Prop} {middle fallen : CTransaction}
    (h : Falls env present tx middle) (h' : Falls env present middle fallen) :
    Falls env present tx fallen := by
  induction h' with
  | self => exact h
  | child _ hchild hspends ih => exact .child ih hchild hspends

theorem Sub.holds (h : pool'.Sub pool) (tx : CTransaction) : pool'.Holds tx → pool.Holds tx :=
  fun ⟨hash, hlookup⟩ => ⟨hash, h hash tx hlookup⟩

/-- All but what falls with a transaction stays. -/
def Keeps (env : Env) (tx : CTransaction) (pool pool' : CTxMemPool) : Prop :=
  ∀ other, pool.Holds other → ¬ Falls env pool.Holds tx other → pool'.Holds other

theorem Indexed.removeSingle_holds (h : Indexed env T pool) (hhash : Hashed env T) (hT : tx ∈ T)
    {other : CTransaction} (hholds : pool.Holds other) (hne : other ≠ tx) :
    (pool.removeSingle env tx).Holds other := by
  obtain ⟨hash, hlookup⟩ := hholds
  refine ⟨hash, ?_⟩
  rw [removeSingle_mapTx, if_neg]
  · exact hlookup
  · intro heq
    have hother := h.hash hlookup
    exact hne (hhash.injective other hother.2 tx hT (hother.1.trans heq))

theorem removeSpenders_keeps {recurse : CTransaction → CTxMemPool → Option CTxMemPool}
    (hrecurse : ∀ child pool pool', child ∈ T → Indexed env T pool →
      recurse child pool = some pool' → Indexed env T pool' ∧ pool'.Sub pool ∧ Keeps env child pool pool')
    {i count : Nat} (hcount : i + count ≤ tx.vout.length) (h : Indexed env T pool)
    (hrun : removeSpenders recurse (env.txHash tx) i count pool = some pool') :
    Keeps env tx pool pool' := by
  induction count generalizing i pool with
  | zero =>
    obtain rfl := Option.some.inj hrun
    exact fun _ hholds _ => hholds
  | succ count ih =>
    unfold removeSpenders at hrun
    cases hnext : pool.mapNextTx.lookup ⟨env.txHash tx, i⟩ with
    | none =>
      rw [hnext] at hrun
      exact ih (by omega) h hrun
    | some inpoint =>
      obtain ⟨child, txin, hchild, hget, hout⟩ := (h.next _ _).mp hnext
      simp only [hnext, hchild] at hrun
      cases hrec : recurse child pool with
      | none => simp [hrec] at hrun
      | some pool₁ =>
        simp only [hrec] at hrun
        obtain ⟨hindexed, hsub, hkeeps⟩ := hrecurse child pool pool₁ (h.hash hchild).2 h hrec
        have hspends : SpendsOutput env child tx :=
          ⟨txin, List.mem_of_getElem? hget, by rw [hout], by rw [hout]; show i < _; omega⟩
        have hfalls : Falls env pool.Holds tx child := .child .self ⟨_, hchild⟩ hspends
        intro other hholds hstays
        exact ih (by omega) hindexed hrun other
          (hkeeps other hholds fun hfallen => hstays (hfalls.trans hfallen))
          fun hfallen => hstays (hfallen.mono hsub.holds)

theorem removeRecursive_keeps (hhash : Hashed env T) {depth : Nat} (hT : tx ∈ T)
    (h : Indexed env T pool) (hrun : removeRecursive env depth tx pool = some pool') :
    Keeps env tx pool pool' := by
  induction depth generalizing tx pool pool' with
  | zero => cases hrun
  | succ depth ih =>
    obtain ⟨pool₁, hloop, rfl⟩ := Option.map_eq_some_iff.mp hrun
    have hkeeps := removeSpenders_keeps (fun child pool pool' hchild hindexed hrec =>
      have hspec := removeRecursive_spec hhash hchild hindexed hrec
      ⟨hspec.indexed, hspec.sub, ih hchild hindexed hrec⟩) (by omega) h hloop
    have hremoved := (removeSpenders_spec (fun child pool pool' hchild hindexed hrec =>
      removeRecursive_spec hhash hchild hindexed hrec) h hloop).1
    intro other hholds hstays
    refine hremoved.indexed.removeSingle_holds hhash hT (hkeeps other hholds hstays) ?_
    rintro rfl
    exact hstays .self

/-- **A recursive `remove` takes nothing else.** -/
theorem remove_keeps (hhash : Hashed env T) (hT : tx ∈ T) (h : Indexed env T pool) :
    Keeps env tx pool (pool.remove env tx true) :=
  removeRecursive_keeps hhash hT h (removeRecursive_eq_remove hhash hT h (Nat.lt_succ_self _))

/-- **`removeConflicts` takes nothing else** than what falls with a transaction that spends an input
of `tx` otherwise. -/
theorem removeConflicts_keeps (hhash : Hashed env T) (h : Indexed env T pool) {other : CTransaction}
    (hholds : pool.Holds other)
    (hstays : ∀ conflict, pool.Holds conflict → conflict ≠ tx →
      (∃ txin ∈ tx.vin, txin.prevout ∈ conflict.vin.map (·.prevout)) →
        ¬ Falls env pool.Holds conflict other) :
    (pool.removeConflicts env tx).Holds other := by
  unfold removeConflicts
  generalize tx.vin = vin at hstays ⊢
  induction vin generalizing pool with
  | nil => exact hholds
  | cons txin vin ih =>
    have hspec : Removed env T pool (pool.removeConflict env tx txin) := (removeConflict_spec hhash h txin).1
    refine ih hspec.indexed ?_ fun conflict hin hne hshares hfallen => ?_
    · show (pool.removeConflict env tx txin).Holds other
      unfold removeConflict
      split
      · exact hholds
      · next inpoint hnext =>
        obtain ⟨conflict, txin', hlookup, hget, hout⟩ := (h.next _ _).mp hnext
        simp only [hlookup]
        split
        · next hne =>
          refine remove_keeps hhash (h.hash hlookup).2 h other hholds ?_
          exact hstays conflict ⟨_, hlookup⟩ hne ⟨txin, List.mem_cons_self,
            hout ▸ List.mem_map_of_mem (List.mem_of_getElem? hget)⟩
        · exact hholds
    · obtain ⟨txin', hmem, hshared⟩ := hshares
      exact hstays conflict (hspec.sub.holds _ hin) hne ⟨txin', List.mem_cons_of_mem _ hmem, hshared⟩
        (hfallen.mono hspec.sub.holds)

/-! ### Runs -/

/-- A pool transaction that spends an output of `tx`, or of a pool transaction that
does. -/
inductive Descends (env : Env) (pool : CTxMemPool) (tx : CTransaction) : CTransaction → Prop
  | direct {hash : Uint256} {child : CTransaction} (hchild : pool.mapTx.lookup hash = some child)
      (hspends : SpendsOutput env child tx) : Descends env pool tx child
  | step {hash : Uint256} {parent child : CTransaction} (hparent : Descends env pool tx parent)
      (hchild : pool.mapTx.lookup hash = some child) (hspends : SpendsOutput env child parent) :
      Descends env pool tx child

/-- No descendant survives a recursive removal. -/
theorem RemovedAll.descends (h : RemovedAll env T pool tx pool') (hindexed : Indexed env T pool)
    {child : CTransaction} (hdescends : Descends env pool tx child) :
    pool.mapTx.lookup (env.txHash child) = some child ∧ pool'.mapTx.lookup (env.txHash child) = none := by
  have hgone : ∀ {hash : Uint256} {child : CTransaction}, pool.mapTx.lookup hash = some child →
      (∀ hash', pool'.mapTx.lookup hash' ≠ some child) →
      pool.mapTx.lookup (env.txHash child) = some child ∧
        pool'.mapTx.lookup (env.txHash child) = none := by
    intro hash child hchild hnone
    have hhash := (hindexed.hash hchild).1
    rw [hhash]
    refine ⟨hchild, ?_⟩
    cases hlookup : pool'.mapTx.lookup hash with
    | none => rfl
    | some child' =>
      obtain rfl := Option.some.inj (hchild.symm.trans (h.sub _ _ hlookup))
      exact absurd hlookup (hnone hash)
  induction hdescends with
  | direct hchild hspends => exact hgone hchild fun hash hlookup => h.unspent hash _ hlookup hspends
  | step _ hchild hspends ih =>
    exact hgone hchild fun hash hlookup => h.closed _ _ ih.1 ih.2 hash _ hlookup hspends

end CTxMemPool

/-- A call that changes a pool, with what it is given. -/
inductive PoolCall (σ : Type) where
  | accept (ctx : AcceptContext) (tx : CTransaction) (fCheckInputs fLimitFree : Bool)
      (pcoinsTip : CCoinsViewCache σ)
  | remove (tx : CTransaction) (fRecursive : Bool)
  | removeConflicts (tx : CTransaction)
  | clear

namespace PoolCall

variable {σ : Type}

/-- The transaction a call is given. -/
def tx? : PoolCall σ → Option CTransaction
  | .accept _ tx _ _ _ => some tx
  | .remove tx _ => some tx
  | .removeConflicts tx => some tx
  | .clear => none

def run [CoinsView σ] (env : Env) (pool : CTxMemPool) : PoolCall σ → CTxMemPool
  | .accept ctx tx fCheckInputs fLimitFree pcoinsTip =>
    (pool.accept env ctx tx fCheckInputs fLimitFree pcoinsTip).pool
  | .remove tx fRecursive => pool.remove env tx fRecursive
  | .removeConflicts tx => pool.removeConflicts env tx
  | .clear => pool.clear

/-- **Every call keeps the index.** -/
theorem indexed_run [CoinsView σ] {env : Env} {T : Set CTransaction} (hhash : Hashed env T)
    {pool : CTxMemPool} (h : pool.Indexed env T) (call : PoolCall σ)
    (hT : ∀ tx ∈ call.tx?, tx ∈ T) : (call.run env pool).Indexed env T := by
  cases call with
  | accept ctx tx fCheckInputs fLimitFree pcoinsTip =>
    rcases pool.accept_pool env ctx tx fCheckInputs fLimitFree pcoinsTip with
      ⟨-, hpool⟩ | ⟨-, hloose, hpool⟩
    · exact (congrArg (CTxMemPool.Indexed env T) hpool).mpr h
    · exact (congrArg (CTxMemPool.Indexed env T) hpool).mpr (h.addUnchecked hloose (hT tx rfl))
  | remove tx fRecursive =>
    cases fRecursive with
    | true => exact (CTxMemPool.remove_spec hhash (hT tx rfl) h).indexed
    | false => exact h.removeSingle hhash (hT tx rfl)
  | removeConflicts tx => exact (CTxMemPool.removeConflicts_spec hhash h).1.indexed
  | clear =>
    have hempty : CTxMemPool.Indexed env T .empty := CTxMemPool.indexed_empty
    exact ⟨fun hlookup => hempty.hash hlookup, hempty.next⟩

def runAll [CoinsView σ] (env : Env) (calls : List (PoolCall σ)) : CTxMemPool :=
  calls.foldl (fun pool call => call.run env pool) .empty

theorem indexed_runAll [CoinsView σ] {env : Env} {T : Set CTransaction} (hhash : Hashed env T)
    (calls : List (PoolCall σ)) (hT : ∀ call ∈ calls, ∀ tx ∈ call.tx?, tx ∈ T) :
    (runAll env calls).Indexed env T := by
  have hfold : ∀ pool : CTxMemPool, pool.Indexed env T →
      (calls.foldl (fun pool call => call.run env pool) pool).Indexed env T := by
    induction calls with
    | nil => exact fun _ => id
    | cons call calls ih =>
      rw [List.forall_mem_cons] at hT
      exact fun pool h => ih hT.2 _ (indexed_run hhash h call hT.1)
  exact hfold _ CTxMemPool.indexed_empty

/-- **The pool index.** After every sequence of calls `mapNextTx` is exactly the map from the
outpoints spent in the pool to the inputs that spend them, so no outpoint is spent twice;
and a recursive removal of any transaction ends, at every depth above the size of the pool
with the same result, and leaves no descendant of it. -/
theorem index_exact [CoinsView σ] {env : Env} {T : Set CTransaction} (hhash : Hashed env T)
    (calls : List (PoolCall σ)) (hT : ∀ call ∈ calls, ∀ tx ∈ call.tx?, tx ∈ T) :
    let pool := runAll env calls
    (∀ out inpoint, pool.mapNextTx.lookup out = some inpoint ↔ pool.InputAt inpoint out) ∧
      (∀ out p p', pool.InputAt p out → pool.InputAt p' out → p = p') ∧
      ∀ tx ∈ T,
        (∀ depth, pool.mapTx.keys.card < depth →
          CTxMemPool.removeRecursive env depth tx pool = some (pool.remove env tx true)) ∧
        (pool.remove env tx true).mapTx.lookup (env.txHash tx) = none ∧
        ∀ child, CTxMemPool.Descends env pool tx child →
          (pool.remove env tx true).mapTx.lookup (env.txHash child) = none := by
  intro pool
  have h : pool.Indexed env T := indexed_runAll hhash calls hT
  refine ⟨h.next, fun out p p' => h.unique p p', fun tx htx => ?_⟩
  have hspec := CTxMemPool.remove_spec hhash htx h
  exact ⟨fun depth hdepth => CTxMemPool.removeRecursive_eq_remove hhash htx h hdepth, hspec.gone,
    fun child hdescends => (hspec.descends h hdescends).2⟩

end PoolCall

def sampleParent : CTransaction := sampleTx 22 500 [sampleIn 7 0] [3 * CENT]
def sampleChild : CTransaction := sampleTx 23 500 [sampleIn 22 0] [2 * CENT]

theorem hashed_samples : Hashed sampleEnv {sampleParent, sampleChild} where
  injective := by
    rintro tx (rfl | rfl) tx' (rfl | rfl) heq
    · rfl
    · cases heq
    · cases heq
    · rfl
  acyclic := by
    refine ⟨id, ?_⟩
    rintro tx (rfl | rfl) txin hin
    all_goals
      obtain rfl := List.mem_singleton.mp hin
      decide

def sampleCalls : List (PoolCall CCoinsViewDB) :=
  [.accept ⟨100, 1000, fun _ => none, false⟩ sampleParent false false (.new ⟨fun _ => none, none⟩),
    .accept ⟨100, 1000, fun _ => none, false⟩ sampleChild false false (.new ⟨fun _ => none, none⟩)]

theorem index_exact_sample :
    (PoolCall.runAll sampleEnv sampleCalls).mapTx.lookup 23 = some sampleChild ∧
      ((PoolCall.runAll sampleEnv sampleCalls).remove sampleEnv sampleParent true).mapTx.lookup 23 =
        none := by
  have hchild : (PoolCall.runAll sampleEnv sampleCalls).mapTx.lookup 23 = some sampleChild := by
    decide
  refine ⟨hchild, ((PoolCall.index_exact hashed_samples sampleCalls ?_).2.2 sampleParent
    (.inl rfl)).2.2 sampleChild (.direct hchild ⟨sampleIn 22 0, ?_, rfl, by decide⟩)⟩
  · intro call hcall tx htx
    rcases List.mem_cons.mp hcall with rfl | hcall
    · exact .inl (Option.some.inj htx).symm
    · rcases List.mem_singleton.mp hcall with rfl
      exact .inr (Option.some.inj htx).symm
  · exact List.mem_singleton.mpr rfl

end Manna
