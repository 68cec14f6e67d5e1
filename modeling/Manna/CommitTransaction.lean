import Manna.KeyPool
import Manna.PoolRun
import Manna.SelectCoins
import Manna.SpentFlags

/-!
Committing a wallet transaction (`wallet.cpp`: `CWallet::CommitTransaction`, `CWallet::GetBalance`).

The reserved key is kept, the transaction is added to the wallet and its coins are marked before the
memory pool is asked. Where the pool refuses, nothing is taken back.

* `unchanged_iff`: when a commitment that fails leaves everything as it was.
-/

namespace Manna

/-! ### A key is taken -/

namespace KeyPool

section Consumes

variable {PubKey : Type} {w w' w'' : CWallet PubKey}

/-- A key was generated, or an index was taken out of the set. -/
def Consumes (w w' : CWallet PubKey) : Prop :=
  w.keys ⊂ w'.keys ∨ (w'.keys = w.keys ∧ w'.setKeyPool ⊂ w.setKeyPool)

theorem Consumes.not_same (h : Consumes w w') (hkeys : w'.keys = w.keys) : w'.setKeyPool ≠ w.setKeyPool := by
  rcases h with hmore | ⟨-, hset⟩
  · exact absurd hkeys.symm hmore.ne
  · exact hset.ne

theorem Consumes.trans (h : Consumes w w') (h' : Consumes w' w'') : Consumes w w'' := by
  rcases h with hkeys | ⟨hkeys, hset⟩
  · rcases h' with hkeys' | ⟨hkeys', -⟩
    · exact .inl (hkeys.trans hkeys')
    · exact .inl (hkeys'.symm ▸ hkeys)
  · rcases h' with hkeys' | ⟨hkeys', hset'⟩
    · exact .inl (hkeys ▸ hkeys')
    · exact .inr ⟨hkeys'.trans hkeys, hset'.trans hset⟩

theorem consumes_erase (hsame : w' = w ∨ w.keys ⊂ w'.keys) {nIndex : Nat} (hmem : nIndex ∈ w'.setKeyPool) :
    Consumes w { w' with setKeyPool := w'.setKeyPool.erase nIndex } := by
  rcases hsame with rfl | hkeys
  · exact .inr ⟨rfl, Finset.erase_ssubset hmem⟩
  · exact .inl hkeys

end Consumes

section Take

variable {PubKey : Type} [DecidableEq PubKey]

theorem keys_addNewKey (generate : Generator PubKey) (w : CWallet PubKey) (nIndex : Nat) :
    w.keys ⊂ (w.addNewKey generate nIndex).keys := Finset.ssubset_insert (generate w.keys).2

theorem topUpLoop_cases (generate : Generator PubKey) (nSize fuel : Nat) (w : CWallet PubKey) :
    CWallet.topUpLoop generate nSize fuel w = w ∨ w.keys ⊂ (CWallet.topUpLoop generate nSize fuel w).keys := by
  induction fuel generalizing w with
  | zero => exact .inl rfl
  | succ fuel ih =>
    rw [CWallet.topUpLoop]
    split
    · right
      rcases ih (w.addNewKey generate w.nEnd) with hsame | hmore
      · rw [hsame]
        exact keys_addNewKey generate w w.nEnd
      · exact (keys_addNewKey generate w w.nEnd).trans hmore
    · exact .inl rfl

theorem locked_topUpLoop (generate : Generator PubKey) (nSize fuel : Nat) (w : CWallet PubKey) :
    (CWallet.topUpLoop generate nSize fuel w).locked = w.locked := by
  induction fuel generalizing w with
  | zero => rfl
  | succ fuel ih =>
    rw [CWallet.topUpLoop]
    split
    · exact ih _
    · rfl

theorem getKeyFromPool_empty (generate : Generator PubKey) (nKeypool : Nat) {w : CWallet PubKey}
    (hlocked : w.locked = true) (hempty : w.setKeyPool = ∅) :
    w.reserveKeyFromKeyPool generate nKeypool = (.empty, w) ∧
      w.getKeyFromPool generate nKeypool false = (none, w) := by
  have hreserve : w.reserveKeyFromKeyPool generate nKeypool = (.empty, w) := by
    simp [CWallet.reserveKeyFromKeyPool, hlocked, hempty]
  refine ⟨hreserve, ?_⟩
  rw [CWallet.getKeyFromPool, hreserve]
  simp [hlocked]

/-- **Any other pool is changed** when a key is taken from it. -/
theorem getKeyFromPool_cases (generate : Generator PubKey) (nKeypool : Nat) (w : CWallet PubKey) :
    (w.locked = true ∧ w.setKeyPool = ∅) ∨ Consumes w (w.getKeyFromPool generate nKeypool false).2 := by
  set w₁ := if w.locked then w else (w.topUpKeyPool generate nKeypool).2 with hw₁
  have hsame : w₁ = w ∨ w.keys ⊂ w₁.keys := by
    rw [hw₁]
    split
    · exact .inl rfl
    · next hlocked =>
      rw [CWallet.topUpKeyPool, if_neg hlocked]
      exact topUpLoop_cases generate _ _ w
  have hlocked₁ : w₁.locked = w.locked := by
    rw [hw₁]
    split
    · rfl
    · next hlocked =>
      rw [CWallet.topUpKeyPool, if_neg hlocked]
      exact locked_topUpLoop generate _ _ w
  by_cases hset : w₁.setKeyPool.Nonempty
  · right
    have hconsumes := consumes_erase hsame (w₁.setKeyPool.min'_mem hset)
    rw [CWallet.getKeyFromPool, CWallet.reserveKeyFromKeyPool]
    simp only [← hw₁, dif_pos hset]
    split
    · next hreserved =>
      split at hreserved
      · cases hreserved
      · split at hreserved <;> cases hreserved
    · next hreserved =>
      split at hreserved
      · cases hreserved
      · split at hreserved
        · cases hreserved
          exact hconsumes
        · cases hreserved
    · next hreserved =>
      split at hreserved
      · cases hreserved
        exact hconsumes
      · split at hreserved
        · cases hreserved
        · cases hreserved
          exact hconsumes
  · have hreserve : w.reserveKeyFromKeyPool generate nKeypool = (.empty, w₁) := by
      rw [CWallet.reserveKeyFromKeyPool]
      simp only [← hw₁, dif_neg hset]
    have hget : w.getKeyFromPool generate nKeypool false = if w₁.locked then (none, w₁)
        else (some (generate w₁.keys).1, { w₁ with keys := insert (generate w₁.keys).1 w₁.keys }) := by
      rw [CWallet.getKeyFromPool, hreserve]
      rfl
    rw [hget, hlocked₁]
    split
    · next hlocked =>
      have hself : w₁ = w := by rw [hw₁, if_pos hlocked]
      rw [hself] at hset
      exact .inl ⟨hlocked, Finset.not_nonempty_iff_eq_empty.mp hset⟩
    · right
      have hnew : w₁.keys ⊂ insert (generate w₁.keys).1 w₁.keys := Finset.ssubset_insert (generate w₁.keys).2
      rcases hsame with hself | hkeys
      · rw [hself] at hnew
        exact .inl (by rw [hself]; exact hnew)
      · exact .inl (hkeys.trans hnew)

end Take

end KeyPool

namespace Wallet

open SpentFlags

/-! ### CommitTransaction -/

/-- What `CommitTransaction` uses besides the wallet. -/
structure CommitEnv (PubKey : Type) where
  wallet : WalletEnv
  pool : Env
  ctx : AcceptContext
  chain : ChainView
  generate : KeyPool.Generator PubKey
  nKeypool : Nat
  /-- `CPubKey::GetID`. -/
  keyID : PubKey → Valtype
  /-- The key store with these keys. -/
  keystore : Finset PubKey → KeyStoreView

/-- The wallet, its key pool with the `CReserveKey` objects, and the memory pool. -/
structure CommitState (PubKey : Type) where
  wallet : CWallet
  session : KeyPool.Session PubKey
  pool : PoolState

section Commit

variable {PubKey : Type} [DecidableEq PubKey] (env : CommitEnv PubKey)

/-- How many outputs pay to the default key that `AddToWallet` replaces. -/
def defaultKeyUses (w : CWallet) (vout : List CTxOut) : Nat :=
  match w.vchDefaultKey with
  | none => 0
  | some keyID =>
    if env.wallet.fQtGui then 0 else vout.countP fun txout => txout.scriptPubKey = payToKeyID keyID

/-- `GetKeyFromPool(newDefaultKey, false)` for so many outputs, with `SetDefaultKey`; `none` where it
throws. -/
def takeKeys : Nat → KeyPool.CWallet PubKey → Option (List NewKey × KeyPool.CWallet PubKey)
  | 0, w => some ([], w)
  | n + 1, w =>
    match w.reserveKeyFromKeyPool env.generate env.nKeypool with
    | (.thrown _, _) => none
    | _ =>
      match w.getKeyFromPool env.generate env.nKeypool false with
      | (none, w) => takeKeys n w
      | (some key, w) =>
        (takeKeys n { w with vchDefaultKey := some key }).map fun (newKeys, w') =>
          (⟨env.keyID key, env.keystore w.keys⟩ :: newKeys, w')

/-- `AcceptToMemoryPool(true, false)`, which catches a runtime error; `none` where `accept` ends the
program. -/
def acceptToMemoryPool (tx : CTransaction) (pool : PoolState) : Option (Bool × PoolState) :=
  let result := pool.pool.accept env.pool env.ctx tx true false pool.pcoinsTip
  let pool : PoolState := ⟨result.pcoinsTip, result.pool⟩
  match result.outcome with
  | .ok _ => some (true, pool)
  | .error .assertion | .error .undefined => none
  | .error _ => some (false, pool)

/-- `CommitTransaction` with a reserved key; `none` where it throws. -/
def commitTransaction (id : Nat) (wtxNew : CWalletTx) (s : CommitState PubKey) :
    Option (Bool × CommitState PubKey) := do
  -- "Take key pair from key pool so it won't be used again"
  let session := s.session.keepKey id
  -- "Add tx to wallet, because if it has change it's also ours"
  let vout := ((s.wallet.insertTx env.wallet wtxNew).foundTx env.wallet wtxNew).vout
  let (newKeys, keyPool) ← takeKeys env (defaultKeyUses env s.wallet vout) session.wallet
  let (fAdded, wallet) := s.wallet.addToWallet env.wallet env.chain newKeys wtxNew
  if !fAdded then none
  else
    -- "Mark old coins as spent"
    let wallet ← markCoins wtxNew.vin wallet
    -- "This must not fail. The transaction has already been signed and recorded."
    let (fAccepted, pool) ← acceptToMemoryPool env wtxNew.toCTransaction s.pool
    some (fAccepted, ⟨wallet, { session with wallet := keyPool }, pool⟩)

end Commit

/-- A transaction without its caches, with a flag for each output. -/
def CWalletTx.plain (wtx : CWalletTx) : CWalletTx :=
  { wtx with vfSpent := (List.range wtx.vout.length).map wtx.isSpent, cached := fun _ => none }

/-- A wallet without caches. -/
def CWallet.plain (w : CWallet) : CWallet :=
  have hkeys : ∀ hash, ((w.mapWallet.lookup hash).map CWalletTx.plain).isSome = true ↔ hash ∈ w.mapWallet.keys := by
    intro hash
    rw [Option.isSome_map, Finmap.lookup_isSome, Finmap.mem_keys]
  { w with
    mapWallet := Finmap.keysLookupEquiv.symm
      ⟨(w.mapWallet.keys, fun hash => (w.mapWallet.lookup hash).map CWalletTx.plain), hkeys⟩ }

/-- `GetBalance`, with so many rounds of the loop of `IsConfirmed` at most; `none` where it throws. -/
def CWallet.getBalance (env : WalletEnv) (chain : ChainView) (rounds : Nat) (w : CWallet) : Option Int :=
  ((w.mapWallet.keys.sort (· ≤ ·)).mapM fun hash =>
    match w.mapWallet.lookup hash with
    | none => some 0
    | some pcoin =>
      (pcoin.isConfirmed env w chain rounds).bind fun fConfirmed =>
        if fConfirmed then (pcoin.getAvailableCredit env w chain true).1 else some 0).map List.sum

/-- **Nothing is changed**: the transactions with their spent flags, the key pool and the balance. -/
structure Unchanged {PubKey : Type} (env : WalletEnv) (s s' : CommitState PubKey) : Prop where
  mapWallet : ∀ hash, (s'.wallet.mapWallet.lookup hash).map CWalletTx.plain =
    (s.wallet.mapWallet.lookup hash).map CWalletTx.plain
  keyPool : s'.session.wallet = s.session.wallet
  balance : ∀ chain rounds, s'.wallet.plain.getBalance env chain rounds = s.wallet.plain.getBalance env chain rounds

/-- A recorded transaction that takes nothing over from one that is added again. -/
structure Recorded (wtxIn wtx : CWalletTx) : Prop where
  hashBlock : wtxIn.hashBlock ≠ 0 → wtxIn.hashBlock = wtx.hashBlock
  branch : wtxIn.nIndex ≠ -1 → wtxIn.vMerkleBranch = wtx.vMerkleBranch ∧ wtxIn.nIndex = wtx.nIndex
  fFromMe : wtxIn.fFromMe = true → wtx.fFromMe = true
  flags : ∀ i < wtx.vout.length, i < wtx.vfSpent.length → wtxIn.isSpent i = true → wtx.isSpent i = true

/-- **There is nothing to do**: no key is reserved, the transaction is recorded already, no output of it
pays to a default key that can be replaced, and all that it spends is marked. -/
structure NothingToDo {PubKey : Type} [DecidableEq PubKey] (env : CommitEnv PubKey) (id : Nat)
    (wtxNew : CWalletTx) (s : CommitState PubKey) : Prop where
  reserved : ∀ nIndex, s.session.Outstanding id nIndex → s.session.wallet.pool nIndex = none
  recorded : ∃ wtx, s.wallet.mapWallet.lookup (env.wallet.txHash wtxNew.toCTransaction) = some wtx ∧
    Recorded wtxNew wtx ∧
    (defaultKeyUses env s.wallet wtx.vout = 0 ∨
      s.session.wallet.locked = true ∧ s.session.wallet.setKeyPool = ∅) ∧
    ∀ txin ∈ wtx.vin, Own s.wallet txin.prevout → spentFlag s.wallet txin.prevout = true
  marked : ∀ txin ∈ wtxNew.vin, spentFlag s.wallet txin.prevout = true

section Keys

variable {PubKey : Type} [DecidableEq PubKey] (env : CommitEnv PubKey)

/-- **The keys of the default key** come from the pool, or none is needed or there. -/
theorem takeKeys_cases {n : Nat} {w w' : KeyPool.CWallet PubKey} {newKeys : List NewKey}
    (h : takeKeys env n w = some (newKeys, w')) :
    ((n = 0 ∨ w.locked = true ∧ w.setKeyPool = ∅) ∧ newKeys = [] ∧ w' = w) ∨ KeyPool.Consumes w w' := by
  induction n generalizing w newKeys with
  | zero =>
    cases h
    exact .inl ⟨.inl rfl, rfl, rfl⟩
  | succ n ih =>
    rw [takeKeys] at h
    rcases KeyPool.getKeyFromPool_cases env.generate env.nKeypool w with
      ⟨hlocked, hempty⟩ | hconsumes
    · obtain ⟨hreserve, hget⟩ := KeyPool.getKeyFromPool_empty env.generate env.nKeypool hlocked hempty
      rw [hreserve, hget] at h
      rcases ih h with ⟨-, hkeys, hsame⟩ | hconsumes
      · exact .inl ⟨.inr ⟨hlocked, hempty⟩, hkeys, hsame⟩
      · exact .inr hconsumes
    · right
      split at h
      · cases h
      · split at h
        · next w₁ hget =>
          rw [hget] at hconsumes
          rcases ih h with ⟨-, -, rfl⟩ | hlater
          · exact hconsumes
          · exact hconsumes.trans hlater
        · next key w₁ hget =>
          rw [hget] at hconsumes
          obtain ⟨⟨keys, w₂⟩, htake, heq⟩ := Option.map_eq_some_iff.mp h
          cases heq
          rcases ih htake with ⟨-, -, rfl⟩ | hlater
          · exact hconsumes
          · exact hconsumes.trans hlater

theorem takeKeys_eq {n : Nat} {w : KeyPool.CWallet PubKey}
    (h : n = 0 ∨ w.locked = true ∧ w.setKeyPool = ∅) : takeKeys env n w = some ([], w) := by
  induction n with
  | zero => rfl
  | succ n ih =>
    obtain ⟨hlocked, hempty⟩ := h.resolve_left (Nat.succ_ne_zero n)
    obtain ⟨hreserve, hget⟩ := KeyPool.getKeyFromPool_empty env.generate env.nKeypool hlocked hempty
    rw [takeKeys, hreserve, hget]
    exact ih (.inr ⟨hlocked, hempty⟩)

end Keys

/-! ### What is left of a transaction without its caches -/

namespace CWalletTx

variable {wtx wtx' wtx'' : CWalletTx}

theorem isSpent_plain {i : Nat} (hi : i < wtx.vout.length) : wtx.plain.isSpent i = wtx.isSpent i := by
  simp [isSpent, plain, List.getD_eq_getElem?_getD, hi]

theorem plain_eq_iff : wtx'.plain = wtx.plain ↔ wtx'.toCMerkleTx = wtx.toCMerkleTx ∧
    wtx'.vtxPrev = wtx.vtxPrev ∧ wtx'.fFromMe = wtx.fFromMe ∧
      ∀ i < wtx.vout.length, wtx'.isSpent i = wtx.isSpent i := by
  constructor
  · intro h
    have htx : wtx'.toCMerkleTx = wtx.toCMerkleTx := congrArg (fun wtx => wtx.toCMerkleTx) h
    have hvout : wtx'.vout = wtx.vout := congrArg (fun mtx => mtx.vout) htx
    refine ⟨htx, congrArg (fun wtx => wtx.vtxPrev) h, congrArg (fun wtx => wtx.fFromMe) h, fun i hi => ?_⟩
    rw [← isSpent_plain hi, ← isSpent_plain (hvout ▸ hi), h]
  · rintro ⟨htx, hprev, hfrom, hspent⟩
    have hflags : (List.range wtx.vout.length).map wtx'.isSpent = (List.range wtx.vout.length).map wtx.isSpent :=
      List.map_congr_left fun i hi => hspent i (List.mem_range.mp hi)
    simp only [plain, htx, hprev, hfrom, hflags]

/-- **Only flags are set.** -/
structure Flagged (wtx wtx' : CWalletTx) : Prop where
  tx : wtx'.toCMerkleTx = wtx.toCMerkleTx
  vtxPrev : wtx'.vtxPrev = wtx.vtxPrev
  fFromMe : wtx'.fFromMe = wtx.fFromMe
  kept : ∀ i < wtx.vout.length, wtx.isSpent i = true → wtx'.isSpent i = true

theorem Flagged.refl (wtx : CWalletTx) : Flagged wtx wtx := ⟨rfl, rfl, rfl, fun _ _ => id⟩

theorem Flagged.vout (h : Flagged wtx wtx') : wtx'.vout = wtx.vout :=
  congrArg (fun mtx => mtx.vout) h.tx

theorem Flagged.trans (h : Flagged wtx wtx') (h' : Flagged wtx' wtx'') : Flagged wtx wtx'' :=
  ⟨h'.tx.trans h.tx, h'.vtxPrev.trans h.vtxPrev, h'.fFromMe.trans h.fFromMe, fun i hi hspent =>
    h'.kept i (h.vout ▸ hi) (h.kept i hi hspent)⟩

/-- `MarkSpent`, of a transaction with other caches. -/
theorem flagged_setSpent (wtx : CWalletTx) (cached : Cache → Option Int) (nOut : Nat) :
    Flagged wtx (setSpent { wtx with cached } nOut true) := by
  refine ⟨?_, ?_, ?_, fun i hi hspent => ?_⟩
  · unfold setSpent
    dsimp only
    split_ifs <;> rfl
  · unfold setSpent
    dsimp only
    split_ifs <;> rfl
  · unfold setSpent
    dsimp only
    split_ifs <;> rfl
  · rw [isSpent_setSpent { wtx with cached } true hi]
    split_ifs
    · rfl
    · exact hspent

theorem getD_mergeSpent (vfNewSpent vfSpent : List Bool) (i : Nat) :
    (mergeSpent vfNewSpent vfSpent).getD i false =
      (vfSpent.getD i false || (decide (i < vfSpent.length) && vfNewSpent.getD i false)) := by
  induction vfNewSpent generalizing vfSpent i with
  | nil => cases vfSpent <;> simp [mergeSpent]
  | cons fNew vfNewSpent ih =>
    cases vfSpent with
    | nil => simp [mergeSpent]
    | cons f vfSpent =>
      cases i with
      | zero => simp [mergeSpent]
      | succ i => simpa [mergeSpent] using ih vfSpent i

theorem isSpent_updateSpent (wtx : CWalletTx) (vfNewSpent : List Bool) (i : Nat) :
    (wtx.updateSpent vfNewSpent).isSpent i =
      (wtx.isSpent i || (decide (i < wtx.vfSpent.length) && vfNewSpent.getD i false)) := by
  rw [isSpent, isSpent, ← getD_mergeSpent, updateSpent]
  split_ifs with hsame
  · rw [hsame]
  · rfl

end CWalletTx

/-! ### A transaction that is added again -/

section Merge

variable {wtxIn wtx final : CWalletTx}

theorem updateSpent_fields (wtx : CWalletTx) (vfNewSpent : List Bool) :
    (wtx.updateSpent vfNewSpent).toCMerkleTx = wtx.toCMerkleTx ∧
      (wtx.updateSpent vfNewSpent).vtxPrev = wtx.vtxPrev ∧
        (wtx.updateSpent vfNewSpent).fFromMe = wtx.fFromMe := by
  unfold CWalletTx.updateSpent
  split_ifs <;> exact ⟨rfl, rfl, rfl⟩

theorem mergeTx_fields (wtxIn wtx : CWalletTx) :
    (CWallet.mergeTx wtxIn wtx.markDirty).toCMerkleTx = { wtx.toCMerkleTx with
      hashBlock := if wtxIn.hashBlock ≠ 0 then wtxIn.hashBlock else wtx.hashBlock
      vMerkleBranch := if wtxIn.nIndex ≠ -1 then wtxIn.vMerkleBranch else wtx.vMerkleBranch
      nIndex := if wtxIn.nIndex ≠ -1 then wtxIn.nIndex else wtx.nIndex } ∧
    (CWallet.mergeTx wtxIn wtx.markDirty).vtxPrev = wtx.vtxPrev ∧
    (CWallet.mergeTx wtxIn wtx.markDirty).fFromMe = (wtxIn.fFromMe || wtx.fFromMe) ∧
    ∀ i, (CWallet.mergeTx wtxIn wtx.markDirty).isSpent i =
      (wtx.isSpent i || (decide (i < wtx.vfSpent.length) && wtxIn.isSpent i)) := by
  have heq : CWallet.mergeTx wtxIn wtx.markDirty = CWalletTx.updateSpent { wtx.markDirty with
      hashBlock := if wtxIn.hashBlock ≠ 0 then wtxIn.hashBlock else wtx.hashBlock
      vMerkleBranch := if wtxIn.nIndex ≠ -1 then wtxIn.vMerkleBranch else wtx.vMerkleBranch
      nIndex := if wtxIn.nIndex ≠ -1 then wtxIn.nIndex else wtx.nIndex
      fFromMe := wtxIn.fFromMe || wtx.fFromMe } wtxIn.vfSpent := by
    unfold CWallet.mergeTx
    dsimp only
    congr 1
    split_ifs <;> simp_all [CWalletTx.markDirty, CWalletTx.reset]
  rw [heq]
  obtain ⟨htx, hprev, hfrom⟩ := updateSpent_fields { wtx.markDirty with
    hashBlock := if wtxIn.hashBlock ≠ 0 then wtxIn.hashBlock else wtx.hashBlock
    vMerkleBranch := if wtxIn.nIndex ≠ -1 then wtxIn.vMerkleBranch else wtx.vMerkleBranch
    nIndex := if wtxIn.nIndex ≠ -1 then wtxIn.nIndex else wtx.nIndex
    fFromMe := wtxIn.fFromMe || wtx.fFromMe } wtxIn.vfSpent
  exact ⟨htx, hprev, hfrom, fun i => CWalletTx.isSpent_updateSpent _ wtxIn.vfSpent i⟩

/-- **A merge that changes nothing.** -/
theorem plain_mergeTx (h : Recorded wtxIn wtx) : (CWallet.mergeTx wtxIn wtx.markDirty).plain = wtx.plain := by
  obtain ⟨htx, hprev, hfrom, hspent⟩ := mergeTx_fields wtxIn wtx
  have hblock : (if wtxIn.hashBlock ≠ 0 then wtxIn.hashBlock else wtx.hashBlock) = wtx.hashBlock := by
    split_ifs with hset
    · exact h.hashBlock hset
    · rfl
  have hbranch : (if wtxIn.nIndex ≠ -1 then wtxIn.vMerkleBranch else wtx.vMerkleBranch) = wtx.vMerkleBranch := by
    split_ifs with hset
    · exact (h.branch hset).1
    · rfl
  have hindex : (if wtxIn.nIndex ≠ -1 then wtxIn.nIndex else wtx.nIndex) = wtx.nIndex := by
    split_ifs with hset
    · exact (h.branch hset).2
    · rfl
  rw [CWalletTx.plain_eq_iff, htx, hblock, hbranch, hindex, hprev, hfrom]
  refine ⟨rfl, rfl, ?_, fun i hi => ?_⟩
  · cases hmine : wtxIn.fFromMe with
    | false => rfl
    | true => rw [h.fFromMe hmine, Bool.true_or]
  · rw [hspent, Bool.or_eq_left_iff_imp, Bool.and_eq_true, decide_eq_true_eq]
    exact fun hset => h.flags i hi hset.1 hset.2

/-- A transaction that is as it was after a merge took nothing over. -/
theorem recorded_of_flagged (h : CWalletTx.Flagged (CWallet.mergeTx wtxIn wtx.markDirty) final)
    (hplain : final.plain = wtx.plain) : Recorded wtxIn wtx := by
  obtain ⟨htx, hprev, hfrom, hspent⟩ := mergeTx_fields wtxIn wtx
  obtain ⟨htx', -, hfrom', hspent'⟩ := CWalletTx.plain_eq_iff.mp hplain
  have hsame := htx.symm.trans (h.tx.symm.trans htx')
  have hvout : (CWallet.mergeTx wtxIn wtx.markDirty).vout = wtx.vout := congrArg (fun mtx => mtx.vout) htx
  refine ⟨fun hset => ?_, fun hset => ⟨?_, ?_⟩, fun hmine => ?_, fun i hi hlt hset => ?_⟩
  · have hblock : (if wtxIn.hashBlock ≠ 0 then wtxIn.hashBlock else wtx.hashBlock) = wtx.hashBlock :=
      congrArg CMerkleTx.hashBlock hsame
    rwa [if_pos hset] at hblock
  · have hbranch : (if wtxIn.nIndex ≠ -1 then wtxIn.vMerkleBranch else wtx.vMerkleBranch) =
        wtx.vMerkleBranch := congrArg CMerkleTx.vMerkleBranch hsame
    rwa [if_pos hset] at hbranch
  · have hindex : (if wtxIn.nIndex ≠ -1 then wtxIn.nIndex else wtx.nIndex) = wtx.nIndex :=
      congrArg CMerkleTx.nIndex hsame
    rwa [if_pos hset] at hindex
  · rw [← hfrom', h.fFromMe, hfrom, hmine, Bool.true_or]
  · rw [← hspent' i hi]
    refine h.kept i (hvout ▸ hi) ?_
    rw [hspent, decide_eq_true hlt, hset, Bool.true_and, Bool.or_true]

end Merge

/-! ### Calls that set flags -/

section Calls

variable {env : WalletEnv} {chain : ChainView} {w w' w'' : CWallet} {vin : List CTxIn}

theorem lookup_plain (w : CWallet) (hash : Uint256) :
    w.plain.mapWallet.lookup hash = (w.mapWallet.lookup hash).map CWalletTx.plain :=
  Finmap.keysLookupEquiv_symm_apply_lookup _ hash

/-- Wallets with the same transactions are the same without caches. -/
theorem plain_congr {m : Finmap fun _ : Uint256 => CWalletTx}
    (h : ∀ hash, (m.lookup hash).map CWalletTx.plain = (w.mapWallet.lookup hash).map CWalletTx.plain) :
    CWallet.plain { w with mapWallet := m } = w.plain := by
  have hmap : (CWallet.plain { w with mapWallet := m }).mapWallet = w.plain.mapWallet := by
    apply Finmap.ext_lookup
    intro hash
    rw [lookup_plain, lookup_plain]
    exact h hash
  have hfields : CWallet.plain { w with mapWallet := m } =
      { w with mapWallet := (CWallet.plain { w with mapWallet := m }).mapWallet } := rfl
  rw [hfields, hmap]
  rfl

theorem spentFlag_congr {o : COutPoint}
    (h : (w'.mapWallet.lookup o.hash).map CWalletTx.plain = (w.mapWallet.lookup o.hash).map CWalletTx.plain) :
    spentFlag w' o = spentFlag w o := by
  unfold spentFlag
  cases hnew : w'.mapWallet.lookup o.hash with
  | none =>
    rw [hnew, Option.map_none, eq_comm, Option.map_eq_none_iff] at h
    rw [h]
  | some wtx' =>
    rw [hnew, Option.map_some, eq_comm, Option.map_eq_some_iff] at h
    obtain ⟨wtx, hold, hplain⟩ := h
    obtain ⟨htx, -, -, hspent⟩ := CWalletTx.plain_eq_iff.mp hplain
    have hvout : wtx.vout = wtx'.vout := congrArg (fun mtx => mtx.vout) htx
    rw [hold]
    dsimp only
    rw [hvout]
    by_cases hlt : o.n < wtx'.vout.length
    · rw [hspent o.n hlt]
    · rw [decide_eq_false hlt, Bool.false_and, Bool.false_and]

theorem txAt_congr {hash : Uint256}
    (h : (w'.mapWallet.lookup hash).map CWalletTx.plain = (w.mapWallet.lookup hash).map CWalletTx.plain) :
    txAt w' hash = txAt w hash := by
  have htx := congrArg (Option.map fun wtx : CWalletTx => wtx.toCTransaction) h
  rw [Option.map_map, Option.map_map] at htx
  exact htx

/-- **Only flags are set** in the transactions of a wallet. -/
structure OnlyFlags (w w' : CWallet) : Prop where
  rest : { w' with mapWallet := w.mapWallet } = w
  some : ∀ hash wtx, w.mapWallet.lookup hash = some wtx →
    ∃ wtx', w'.mapWallet.lookup hash = some wtx' ∧ wtx.Flagged wtx'
  none : ∀ hash, w.mapWallet.lookup hash = none → w'.mapWallet.lookup hash = none

theorem OnlyFlags.refl (w : CWallet) : OnlyFlags w w :=
  ⟨rfl, fun _ wtx h => ⟨wtx, h, .refl wtx⟩, fun _ h => h⟩

theorem OnlyFlags.trans (h : OnlyFlags w w') (h' : OnlyFlags w' w'') : OnlyFlags w w'' where
  rest := by
    obtain ⟨m, ks, book, key, locked⟩ := w
    obtain ⟨m', ks', book', key', locked'⟩ := w'
    obtain ⟨m'', ks'', book'', key'', locked''⟩ := w''
    cases h.rest
    cases h'.rest
    rfl
  some hash wtx hlookup := by
    obtain ⟨wtx', hlookup', hflagged⟩ := h.some hash wtx hlookup
    obtain ⟨wtx'', hlookup'', hflagged'⟩ := h'.some hash wtx' hlookup'
    exact ⟨wtx'', hlookup'', hflagged.trans hflagged'⟩
  none hash hlookup := h'.none hash (h.none hash hlookup)

theorem onlyFlags_insert {hash : Uint256} {wtx wtx' : CWalletTx} (hlookup : w.mapWallet.lookup hash = some wtx)
    (h : wtx.Flagged wtx') : OnlyFlags w { w with mapWallet := w.mapWallet.insert hash wtx' } where
  rest := rfl
  some hash' wtx₁ hlookup₁ := by
    by_cases heq : hash' = hash
    · rw [heq, hlookup] at hlookup₁
      obtain rfl := Option.some.inj hlookup₁
      exact ⟨wtx', by rw [heq]; exact Finmap.lookup_insert _, h⟩
    · exact ⟨wtx₁, (Finmap.lookup_insert_of_ne _ heq).trans hlookup₁, .refl wtx₁⟩
  none hash' hnone := by
    by_cases heq : hash' = hash
    · rw [heq, hlookup] at hnone
      cases hnone
    · exact (Finmap.lookup_insert_of_ne _ heq).trans hnone

/-- A round of `WalletUpdateSpent`. -/
theorem updateSpentBy_onlyFlags {txin : CTxIn} (h : w.updateSpentBy env chain txin = some w') :
    OnlyFlags w w' := by
  unfold CWallet.updateSpentBy at h
  split at h
  · cases h
    exact .refl w
  · next wtx hlookup =>
    split at h
    · cases h
      exact .refl w
    · split at h
      · obtain ⟨cached, heq⟩ := wtx.getCached_fields env w chain true .credit
        have hcredit : (wtx.getCredit env w chain true).2 = { wtx with cached } := heq
        generalize wtx.getCredit env w chain true = result at h hcredit
        obtain ⟨nCredit, wtx'⟩ := result
        obtain ⟨n, -, rfl⟩ := Option.map_eq_some_iff.mp h
        obtain rfl : wtx' = { wtx with cached } := hcredit
        exact onlyFlags_insert hlookup (CWalletTx.flagged_setSpent wtx cached _)
      · cases h
        exact .refl w

/-- `WalletUpdateSpent`. -/
theorem walletUpdateSpent_onlyFlags (h : CWallet.walletUpdateSpent env chain vin w = (true, w')) :
    OnlyFlags w w' := by
  induction vin generalizing w with
  | nil =>
    cases h
    exact .refl _
  | cons txin vin ih =>
    rw [CWallet.walletUpdateSpent] at h
    split at h
    · cases h
    · next w₁ hround => exact (updateSpentBy_onlyFlags hround).trans (ih h)

theorem markCoins_onlyFlags (h : markCoins vin w = some w') :
    OnlyFlags w w' ∧ ∀ txin ∈ vin, spentFlag w' txin.prevout = true := by
  induction vin generalizing w with
  | nil =>
    cases h
    exact ⟨.refl _, fun _ h => absurd h List.not_mem_nil⟩
  | cons txin vin ih =>
    rw [markCoins] at h
    split at h
    · cases h
    · next coin hlookup =>
      split at h
      · cases h
      · next coin' hcoin =>
        rw [CWalletTx.markSpent] at hcoin
        split at hcoin
        · cases hcoin
        · next hlt =>
          obtain rfl := Option.some.inj hcoin
          have hn : txin.prevout.n < coin.vout.length := Nat.lt_of_not_le hlt
          obtain ⟨honly, hmarked⟩ := ih h
          have hfirst := onlyFlags_insert hlookup
            (CWalletTx.flagged_setSpent coin coin.markDirty.cached txin.prevout.n)
          have hflag := (marks_setSpent coin.markDirty hlookup rfl rfl hn).2
          refine ⟨hfirst.trans honly, ?_⟩
          rw [List.forall_mem_cons]
          exact ⟨(markCoins_spec h).kept _ hflag, hmarked⟩

theorem OnlyFlags.plain_lookup (h : OnlyFlags w w') (hflags : ∀ o, spentFlag w' o = true → spentFlag w o = true)
    (hash : Uint256) :
    (w'.mapWallet.lookup hash).map CWalletTx.plain = (w.mapWallet.lookup hash).map CWalletTx.plain := by
  cases hlookup : w.mapWallet.lookup hash with
  | none => rw [h.none hash hlookup]
  | some wtx =>
    obtain ⟨wtx', hlookup', hflagged⟩ := h.some hash wtx hlookup
    rw [hlookup', Option.map_some, Option.map_some]
    congr 1
    rw [CWalletTx.plain_eq_iff]
    refine ⟨hflagged.tx, hflagged.vtxPrev, hflagged.fFromMe, fun i hi => ?_⟩
    have hold : spentFlag w ⟨hash, i⟩ = wtx.isSpent i := by
      simp [spentFlag, hlookup, hi]
    have hnew : spentFlag w' ⟨hash, i⟩ = wtx'.isSpent i := by
      simp [spentFlag, hlookup', hflagged.vout, hi]
    have hback := hflags ⟨hash, i⟩
    rw [hold, hnew] at hback
    exact Bool.eq_iff_iff.mpr ⟨hback, hflagged.kept i hi⟩

/-- `WalletUpdateSpent` does nothing where the own outputs are marked. -/
theorem walletUpdateSpent_eq (h : ∀ txin ∈ vin, Own w txin.prevout → spentFlag w txin.prevout = true) :
    CWallet.walletUpdateSpent env chain vin w = (true, w) := by
  induction vin with
  | nil => rfl
  | cons txin vin ih =>
    rw [List.forall_mem_cons] at h
    have hround : w.updateSpentBy env chain txin = some w := by
      unfold CWallet.updateSpentBy
      split
      · rfl
      · next wtx hlookup =>
        split
        · rfl
        · next txout hout =>
          rw [if_neg]
          rintro ⟨hunspent, hmine⟩
          have hown : Own w txin.prevout :=
            ⟨wtx.toCTransaction, txout, by rw [txAt, hlookup]; rfl, hout, hmine⟩
          have hspent := h.1 hown
          simp [spentFlag, hlookup] at hspent
          simp [hspent.2] at hunspent
    rw [CWallet.walletUpdateSpent, hround]
    exact ih h.2

theorem addToWallet_flagged {newKeys : List NewKey} {wtxNew : CWalletTx}
    (hadd : w.addToWallet env chain newKeys wtxNew = (true, w')) (hmark : markCoins vin w' = some w'') :
    ∃ final, w''.mapWallet.lookup (env.txHash wtxNew.toCTransaction) = some final ∧
      CWalletTx.Flagged ((w.insertTx env wtxNew).foundTx env wtxNew) final := by
  set hash := env.txHash wtxNew.toCTransaction with hhash
  have hfound : (w.insertTx env wtxNew).mapWallet.lookup hash =
      some ((w.insertTx env wtxNew).foundTx env wtxNew) := by
    unfold CWallet.foundTx CWallet.insertTx
    dsimp only
    rw [← hhash]
    cases w.mapWallet.lookup hash with
    | none => simp [Finmap.lookup_insert]
    | some wtx => simp [Finmap.lookup_insert]
  have hupdated : ((w.insertTx env wtxNew).updateDefaultKey env
      ((w.insertTx env wtxNew).foundTx env wtxNew).vout newKeys).mapWallet.lookup hash =
        some ((w.insertTx env wtxNew).foundTx env wtxNew) := by
    rw [CWallet.mapWallet_updateDefaultKey, hfound]
  obtain ⟨wtx, hlookup, hflagged⟩ := (walletUpdateSpent_onlyFlags hadd).some hash _ hupdated
  obtain ⟨final, hfinal, hflagged'⟩ := (markCoins_onlyFlags hmark).1.some hash wtx hlookup
  exact ⟨final, hfinal, hflagged.trans hflagged'⟩

theorem updateDefaultKey_nil (env : WalletEnv) (w : CWallet) (vout : List CTxOut) :
    w.updateDefaultKey env vout [] = w := by
  unfold CWallet.updateDefaultKey
  split
  · rfl
  · split
    · rfl
    · cases vout with
      | nil => rw [CWallet.replaceDefaultKey]; exact fun _ _ _ _ h => absurd h.symm (List.cons_ne_nil _ _)
      | cons txout vout => rw [CWallet.replaceDefaultKey]; exact fun _ _ _ _ _ h => absurd h.symm (List.cons_ne_nil _ _)

theorem insertTx_recorded {wtxNew wtx : CWalletTx}
    (hlookup : w.mapWallet.lookup (env.txHash wtxNew.toCTransaction) = some wtx) :
    w.insertTx env wtxNew = { w with
      mapWallet := w.mapWallet.insert (env.txHash wtxNew.toCTransaction) (CWallet.mergeTx wtxNew wtx.markDirty) } ∧
    (w.insertTx env wtxNew).foundTx env wtxNew = CWallet.mergeTx wtxNew wtx.markDirty := by
  have hinsert : w.insertTx env wtxNew = { w with
      mapWallet := w.mapWallet.insert (env.txHash wtxNew.toCTransaction) (CWallet.mergeTx wtxNew wtx.markDirty) } := by
    simp only [CWallet.insertTx, hlookup]
  refine ⟨hinsert, ?_⟩
  rw [CWallet.foundTx, hinsert, Finmap.lookup_insert]
  rfl

theorem addToWallet_recorded {wtxNew wtx : CWalletTx}
    (hlookup : w.mapWallet.lookup (env.txHash wtxNew.toCTransaction) = some wtx) :
    w.addToWallet env chain [] wtxNew =
      CWallet.walletUpdateSpent env chain wtx.vin (w.insertTx env wtxNew) := by
  have htx : ((w.insertTx env wtxNew).foundTx env wtxNew).toCTransaction = wtx.toCTransaction := by
    rw [(insertTx_recorded hlookup).2]
    exact CWallet.toCTransaction_mergeTx wtxNew wtx.markDirty
  have hvin := congrArg CTransaction.vin htx
  rw [CWallet.addToWallet, updateDefaultKey_nil, hvin]

/-- **A recorded transaction that is added again** leaves the transactions as they are. -/
theorem plain_lookup_insertTx {wtxNew wtx : CWalletTx}
    (hlookup : w.mapWallet.lookup (env.txHash wtxNew.toCTransaction) = some wtx) (h : Recorded wtxNew wtx)
    (hash : Uint256) : ((w.insertTx env wtxNew).mapWallet.lookup hash).map CWalletTx.plain =
      (w.mapWallet.lookup hash).map CWalletTx.plain := by
  rw [(insertTx_recorded hlookup).1]
  dsimp only
  by_cases heq : hash = env.txHash wtxNew.toCTransaction
  · rw [heq, Finmap.lookup_insert, hlookup, Option.map_some, Option.map_some, plain_mergeTx h]
  · rw [Finmap.lookup_insert_of_ne _ heq]

end Calls

/-! ### When a failed commitment changes nothing -/

section Atomic

variable {PubKey : Type} [DecidableEq PubKey] {env : CommitEnv PubKey} {id : Nat} {wtxNew : CWalletTx}
  {s s' : CommitState PubKey} {fRet : Bool}

/-- What `CommitTransaction` does, step by step. -/
theorem commitTransaction_eq_some (h : commitTransaction env id wtxNew s = some (fRet, s')) :
    ∃ newKeys keyPool wallet pool, takeKeys env (defaultKeyUses env s.wallet
        ((s.wallet.insertTx env.wallet wtxNew).foundTx env.wallet wtxNew).vout)
          (s.session.keepKey id).wallet = some (newKeys, keyPool) ∧
      s.wallet.addToWallet env.wallet env.chain newKeys wtxNew = (true, wallet) ∧
      markCoins wtxNew.vin wallet = some s'.wallet ∧
      acceptToMemoryPool env wtxNew.toCTransaction s.pool = some (fRet, pool) ∧
      s'.session.wallet = keyPool := by
  simp only [commitTransaction, Option.bind_eq_bind, Option.bind_eq_some_iff, Prod.exists] at h
  obtain ⟨newKeys, keyPool, htake, h⟩ := h
  cases hadd : s.wallet.addToWallet env.wallet env.chain newKeys wtxNew with
  | mk fAdded wallet =>
    rw [hadd] at h
    cases fAdded with
    | false => simp at h
    | true =>
      simp only [Bool.not_true, Bool.false_eq_true, if_false, Option.bind_eq_some_iff, Prod.exists,
        Option.some.injEq, Prod.mk.injEq] at h
      obtain ⟨marked, hmark, fAccepted, pool, haccept, rfl, rfl⟩ := h
      exact ⟨newKeys, keyPool, wallet, pool, htake, hadd, hmark, haccept, rfl⟩

omit [DecidableEq PubKey] in
theorem keepKey_wallet_eq_iff (session : KeyPool.Session PubKey) (id : Nat) :
    (session.keepKey id).wallet = session.wallet ↔
      ∀ nIndex, session.Outstanding id nIndex → session.wallet.pool nIndex = none := by
  unfold KeyPool.Session.Outstanding KeyPool.Session.keepKey
  cases (session.reserveKeys id).nIndex with
  | none => exact ⟨fun _ _ h => absurd h (Option.some_ne_none _).symm, fun _ => rfl⟩
  | some nIndex =>
    constructor
    · intro hsame _ hindex
      obtain rfl := Option.some.inj hindex
      have hpool : Function.update session.wallet.pool nIndex none nIndex = session.wallet.pool nIndex :=
        congrFun (congrArg KeyPool.CWallet.pool hsame) nIndex
      rw [← hpool, Function.update_self]
    · intro hnone
      have hpool : Function.update session.wallet.pool nIndex none = session.wallet.pool :=
        Function.update_eq_self_iff.mpr (hnone nIndex rfl).symm
      change { session.wallet with pool := Function.update session.wallet.pool nIndex none } = session.wallet
      rw [hpool]

/-- The pool accepts the transaction. -/
def Accepted (env : CommitEnv PubKey) (wtxNew : CWalletTx) (s : CommitState PubKey) : Prop :=
  (s.pool.pool.accept env.pool env.ctx wtxNew.toCTransaction true false s.pool.pcoinsTip).outcome = .ok ()

omit [DecidableEq PubKey] in
theorem fRet_eq_true_iff {pool : PoolState}
    (h : acceptToMemoryPool env wtxNew.toCTransaction s.pool = some (fRet, pool)) :
    fRet = true ↔ Accepted env wtxNew s := by
  unfold acceptToMemoryPool at h
  unfold Accepted
  dsimp only at h
  generalize (s.pool.pool.accept env.pool env.ctx wtxNew.toCTransaction true false
    s.pool.pcoinsTip).outcome = outcome at h
  split at h
  · cases h
    simp
  all_goals
    cases h
    try simp

omit [DecidableEq PubKey] in
/-- Of the pool, `KeepKey` changes the records only. -/
theorem keepKey_wallet (session : KeyPool.Session PubKey) (id : Nat) :
    (session.keepKey id).wallet.keys = session.wallet.keys ∧
      (session.keepKey id).wallet.setKeyPool = session.wallet.setKeyPool ∧
        (session.keepKey id).wallet.locked = session.wallet.locked := by
  unfold KeyPool.Session.keepKey
  split <;> exact ⟨rfl, rfl, rfl⟩

theorem NothingToDo.of_unchanged (h : commitTransaction env id wtxNew s = some (fRet, s'))
    (hsame : Unchanged env.wallet s s') : NothingToDo env id wtxNew s := by
  obtain ⟨newKeys, keyPool, wallet, pool, htake, hadd, hmark, -, hsession⟩ := commitTransaction_eq_some h
  have hflag : ∀ o, spentFlag s'.wallet o = spentFlag s.wallet o := fun o =>
    spentFlag_congr (hsame.mapWallet o.hash)
  obtain ⟨hkeys, hset, hlocked⟩ := keepKey_wallet s.session id
  -- no key was taken, or the pool would show it
  have hpool : keyPool = s.session.wallet := hsession.symm.trans hsame.keyPool
  obtain ⟨hnone, hnil, hkept⟩ := (takeKeys_cases env htake).resolve_right fun hconsumes =>
    hconsumes.not_same (by rw [hpool, hkeys]) (by rw [hpool, hset])
  rw [hlocked, hset] at hnone
  -- and the transaction was recorded
  obtain ⟨final, hfinal, hflagged⟩ := addToWallet_flagged hadd hmark
  have hplain := hsame.mapWallet (env.wallet.txHash wtxNew.toCTransaction)
  rw [hfinal, Option.map_some, eq_comm, Option.map_eq_some_iff] at hplain
  obtain ⟨wtx, hlookup, hplain⟩ := hplain
  have hfound := (insertTx_recorded hlookup).2
  have htx : ((s.wallet.insertTx env.wallet wtxNew).foundTx env.wallet wtxNew).toCTransaction =
      wtx.toCTransaction := by
    rw [hfound]
    exact CWallet.toCTransaction_mergeTx wtxNew wtx.markDirty
  have hrecorded := recorded_of_flagged (hfound ▸ hflagged) hplain.symm
  refine ⟨(keepKey_wallet_eq_iff s.session id).mp (hkept.symm.trans hpool),
    ⟨wtx, hlookup, hrecorded, ?_, ?_⟩, ?_⟩
  · rwa [congrArg CTransaction.vout htx] at hnone
  · intro txin hmem hown
    rw [hnil, addToWallet_recorded hlookup] at hadd
    have hkeystore : (s.wallet.insertTx env.wallet wtxNew).keystore = s.wallet.keystore := by
      rw [(insertTx_recorded hlookup).1]
    have hown' : Own (s.wallet.insertTx env.wallet wtxNew) txin.prevout :=
      (own_congr hkeystore fun hash => txAt_congr (plain_lookup_insertTx hlookup hrecorded hash)).mpr hown
    rw [← hflag]
    exact (markCoins_spec hmark).kept _ ((walletUpdateSpent_spec hadd).2 txin hmem hown')
  · intro txin hmem
    rw [← hflag]
    exact (markCoins_onlyFlags hmark).2 txin hmem

theorem NothingToDo.unchanged (h : commitTransaction env id wtxNew s = some (fRet, s'))
    (hnothing : NothingToDo env id wtxNew s) : Unchanged env.wallet s s' := by
  obtain ⟨newKeys, keyPool, wallet, pool, htake, hadd, hmark, -, hsession⟩ := commitTransaction_eq_some h
  obtain ⟨wtx, hlookup, hrecorded, hnone, hspent⟩ := hnothing.recorded
  obtain ⟨-, hset, hlocked⟩ := keepKey_wallet s.session id
  have hvout : ((s.wallet.insertTx env.wallet wtxNew).foundTx env.wallet wtxNew).vout = wtx.vout := by
    rw [(insertTx_recorded hlookup).2]
    exact congrArg CTransaction.vout (CWallet.toCTransaction_mergeTx wtxNew wtx.markDirty)
  rw [hvout, takeKeys_eq env (by rw [hlocked, hset]; exact hnone)] at htake
  cases htake
  set added := s.wallet.insertTx env.wallet wtxNew with hadded
  have hinsert : ∀ hash, (added.mapWallet.lookup hash).map CWalletTx.plain =
      (s.wallet.mapWallet.lookup hash).map CWalletTx.plain := plain_lookup_insertTx hlookup hrecorded
  have hfields : { added with mapWallet := s.wallet.mapWallet } = s.wallet := by
    rw [hadded, (insertTx_recorded hlookup).1]
  have hkeystore : added.keystore = s.wallet.keystore := by
    rw [hadded, (insertTx_recorded hlookup).1]
  have hupdate : CWallet.walletUpdateSpent env.wallet env.chain wtx.vin added = (true, added) := by
    refine walletUpdateSpent_eq fun txin hmem hown => ?_
    rw [spentFlag_congr (hinsert txin.prevout.hash)]
    exact hspent txin hmem ((own_congr hkeystore fun hash => txAt_congr (hinsert hash)).mp hown)
  rw [addToWallet_recorded hlookup, hupdate] at hadd
  obtain rfl : added = wallet := (Prod.mk.inj hadd).2
  -- all that is marked was marked
  have hflags : ∀ o, spentFlag s'.wallet o = true → spentFlag added o = true := by
    intro o ho
    rcases (markCoins_spec hmark).cause o ho with hold | hmem
    · exact hold
    · obtain ⟨txin, hin, rfl⟩ := List.mem_map.mp hmem
      rw [spentFlag_congr (hinsert txin.prevout.hash)]
      exact hnothing.marked txin hin
  have honly := (markCoins_onlyFlags hmark).1
  have hmap : ∀ hash, (s'.wallet.mapWallet.lookup hash).map CWalletTx.plain =
      (s.wallet.mapWallet.lookup hash).map CWalletTx.plain := fun hash =>
    (honly.plain_lookup hflags hash).trans (hinsert hash)
  have hrest : s'.wallet = { s.wallet with mapWallet := s'.wallet.mapWallet } := by
    rw [← hfields, ← honly.rest]
  refine ⟨hmap, hsession.trans ((keepKey_wallet_eq_iff s.session id).mpr hnothing.reserved), fun chain rounds => ?_⟩
  rw [hrest, plain_congr hmap]

/-- **When a failed commitment changes nothing**: when there is nothing to do. -/
theorem unchanged_iff (h : commitTransaction env id wtxNew s = some (fRet, s')) :
    (fRet = false → Unchanged env.wallet s s') ↔ Accepted env wtxNew s ∨ NothingToDo env id wtxNew s := by
  obtain ⟨newKeys, keyPool, wallet, pool, -, -, -, haccept, -⟩ := commitTransaction_eq_some h
  have hret := fRet_eq_true_iff haccept
  constructor
  · intro hsame
    cases fRet with
    | true => exact .inl (hret.mp rfl)
    | false => exact .inr (.of_unchanged h (hsame rfl))
  · rintro (haccepted | hnothing) hfalse
    · exact absurd (hfalse.symm.trans (hret.mpr haccepted)) Bool.false_ne_true
    · exact hnothing.unchanged h

end Atomic

def sampleCommitEnv : CommitEnv Nat where
  wallet := ⟨sampleEnv.txHash, id, 0, true⟩
  pool := sampleEnv
  ctx := sampleContext
  chain := ⟨100, 1000, fun _ => 1⟩
  generate := KeyPool.Sample.generate
  nKeypool := 1
  keyID _ := []
  keystore _ := ⟨fun _ => true, fun _ => true, fun _ => true⟩

/-- The transaction of the coin 7. -/
def sampleFunding : CWalletTx := .ofTransaction (sampleTx 7 400 [sampleIn 3 0] [3 * CENT])

/-- It spends the coin that `sampleParent` spends too. -/
def sampleSpending : CWalletTx := .ofTransaction (sampleTx 24 500 [sampleIn 7 0] [2 * CENT])

/-- A wallet with a coin and a reserved key, and a pool in which a copy of the wallet has spent the coin. -/
def sampleCommitState : CommitState Nat where
  wallet :=
    { mapWallet := Finmap.singleton 7 sampleFunding
      keystore := ⟨fun _ => true, fun _ => true, fun _ => true⟩
      mapAddressBook := ∅
      vchDefaultKey := none
      setLockedCoins := ∅ }
  session :=
    { wallet := ⟨{5}, ∅, fun nIndex => if nIndex = 1 then some 5 else none, false, none⟩
      reserveKeys := fun _ => ⟨some 1, some 5⟩
      handedOut := [] }
  pool := sampleFunded.poolState.accept sampleEnv sampleContext sampleParent true

theorem commitTransaction_sample :
    (commitTransaction sampleCommitEnv 0 sampleSpending sampleCommitState).map Prod.fst = some false := by
  decide +kernel

theorem unchanged_iff_sample : ∃ s', commitTransaction sampleCommitEnv 0 sampleSpending sampleCommitState =
      some (false, s') ∧
    ((false = false → Unchanged sampleCommitEnv.wallet sampleCommitState s') ↔
      Accepted sampleCommitEnv sampleSpending sampleCommitState ∨
        NothingToDo sampleCommitEnv 0 sampleSpending sampleCommitState) := by
  obtain ⟨⟨fRet, s'⟩, hcommit, rfl⟩ := Option.map_eq_some_iff.mp commitTransaction_sample
  exact ⟨s', hcommit, unchanged_iff hcommit⟩

/-- **A commitment that fails and changes the wallet**: the transaction is recorded and the coin is marked,
though the pool refuses. -/
theorem not_forall_unchanged : ¬ ∀ (env : CommitEnv Nat) (id : Nat) (wtxNew : CWalletTx)
    (s s' : CommitState Nat), commitTransaction env id wtxNew s = some (false, s') →
      Unchanged env.wallet s s' := by
  intro hall
  obtain ⟨⟨fRet, s'⟩, hcommit, rfl⟩ := Option.map_eq_some_iff.mp commitTransaction_sample
  have hnothing := NothingToDo.of_unchanged hcommit (hall _ _ _ _ _ hcommit)
  obtain ⟨wtx, hlookup, -⟩ := hnothing.recorded
  have hnone : sampleCommitState.wallet.mapWallet.lookup 24 = none := by decide
  exact absurd (hlookup.symm.trans hnone) (Option.some_ne_none wtx)

end Wallet

end Manna
