import Manna.CheckInputs

/-!
The memory pool (`main.cpp`: `CTxMemPool`, `IsStandard`, `AreInputsStandard`).

`mapTx` holds the transactions, `mapNextTx` points from an outpoint to the input of a pool
transaction that spends it; a pointer to a pool transaction is its hash. Accepting a
transaction runs `acceptInputs` on a fresh cache over the pool over `pcoinsTip`, and may
fill the caches of `pcoinsTip` on the way.

* `removeRecursive` follows the recursion of the source with a bound on its depth; it gives
  `none` when it would go deeper or follow a pointer to nothing;
* `accept_pool`: what `accept` does to the pool.
-/

namespace Manna

open OpProg

/-- `CInPoint`: an input of a pool transaction. -/
structure CInPoint where
  ptx : Uint256
  n : Nat
deriving DecidableEq, Repr

/-- `CTxMemPool`, with the update counter beside it. -/
structure CTxMemPool where
  mapTx : Finmap fun _ : Uint256 => CTransaction
  mapNextTx : Finmap fun _ : COutPoint => CInPoint
  nTransactionsUpdated : Nat

namespace CTxMemPool

def empty : CTxMemPool := ⟨∅, ∅, 0⟩

/-- `exists`. -/
def exists_ (pool : CTxMemPool) (hash : Uint256) : Bool := (pool.mapTx.lookup hash).isSome

/-! ### Adding and removing -/

/-- The loop of `addUnchecked` over the inputs, from a position on. -/
def pointInputs (hash : Uint256) : List CTxIn → Nat → (Finmap fun _ : COutPoint => CInPoint) →
    Finmap fun _ : COutPoint => CInPoint
  | [], _, mapNextTx => mapNextTx
  | txin :: vin, i, mapNextTx => pointInputs hash vin (i + 1) (mapNextTx.insert txin.prevout ⟨hash, i⟩)

def addUnchecked (hash : Uint256) (tx : CTransaction) (pool : CTxMemPool) : CTxMemPool where
  mapTx := pool.mapTx.insert hash tx
  mapNextTx := pointInputs hash tx.vin 0 pool.mapNextTx
  nTransactionsUpdated := pool.nTransactionsUpdated + 1

def eraseInputs : List CTxIn → (Finmap fun _ : COutPoint => CInPoint) →
    Finmap fun _ : COutPoint => CInPoint
  | [], mapNextTx => mapNextTx
  | txin :: vin, mapNextTx => eraseInputs vin (mapNextTx.erase txin.prevout)

def removeSingle (env : Env) (tx : CTransaction) (pool : CTxMemPool) : CTxMemPool :=
  if (pool.mapTx.lookup (env.txHash tx)).isSome then
    { mapTx := pool.mapTx.erase (env.txHash tx)
      mapNextTx := eraseInputs tx.vin pool.mapNextTx
      nTransactionsUpdated := pool.nTransactionsUpdated + 1 }
  else pool

/-- The loop of a recursive removal over the outputs `i`, ..., `i + count - 1` of a
transaction: remove what spends each. -/
def removeSpenders (recurse : CTransaction → CTxMemPool → Option CTxMemPool) (hash : Uint256) :
    Nat → Nat → CTxMemPool → Option CTxMemPool
  | _, 0, pool => some pool
  | i, count + 1, pool =>
    match pool.mapNextTx.lookup ⟨hash, i⟩ with
    | none => removeSpenders recurse hash (i + 1) count pool
    | some inpoint =>
      match pool.mapTx.lookup inpoint.ptx with
      | none => none
      | some child =>
        match recurse child pool with
        | none => none
        | some pool => removeSpenders recurse hash (i + 1) count pool

def removeRecursive (env : Env) : Nat → CTransaction → CTxMemPool → Option CTxMemPool
  | 0, _, _ => none
  | depth + 1, tx, pool =>
    (removeSpenders (removeRecursive env depth) (env.txHash tx) 0 tx.vout.length pool).map
      (removeSingle env tx)

/-- `remove`. The depth given is enough wherever the recursion ends
(`removeRecursive_isSome`); where it would not end, nothing is removed. -/
def remove (env : Env) (tx : CTransaction) (fRecursive : Bool) (pool : CTxMemPool) : CTxMemPool :=
  if fRecursive then (removeRecursive env (pool.mapTx.keys.card + 1) tx pool).getD pool
  else removeSingle env tx pool

def removeConflict (env : Env) (tx : CTransaction) (txin : CTxIn) (pool : CTxMemPool) : CTxMemPool :=
  match pool.mapNextTx.lookup txin.prevout with
  | none => pool
  | some inpoint =>
    match pool.mapTx.lookup inpoint.ptx with
    | none => pool
    | some txConflict => if txConflict ≠ tx then pool.remove env txConflict true else pool

def removeConflicts (env : Env) (tx : CTransaction) (pool : CTxMemPool) : CTxMemPool :=
  tx.vin.foldl (fun pool txin => pool.removeConflict env tx txin) pool

def clear (pool : CTxMemPool) : CTxMemPool := ⟨∅, ∅, pool.nTransactionsUpdated + 1⟩

end CTxMemPool

def CTransaction.CURRENT_VERSION : Int := 1

/-- `CTxOut::IsDust`: the test is disabled. -/
def CTxOut.isDust (_ : CTxOut) : Bool := false

def standardInputs : List CTxIn → Except String Unit
  | [] => .ok ()
  | txin :: vin =>
    if txin.scriptSig.length > 500 then .error "scriptsig-size"
    else if !isPushOnly txin.scriptSig then .error "scriptsig-not-pushonly"
    else standardInputs vin

/-- The loop of `IsStandard` over the outputs. -/
def standardOutputs (env : Env) : List CTxOut → Except String Unit
  | [] => .ok ()
  | txout :: vout =>
    if !env.isStandardScript txout.scriptPubKey then .error "scriptpubkey"
    else if txout.isDust then .error "dust"
    else standardOutputs env vout

/-- `CTransaction::IsStandard`, with the reason why not. -/
def CTransaction.isStandard (env : Env) (nBestHeight nAdjustedTime : Int) (tx : CTransaction) :
    Except String Unit :=
  if tx.nVersion > CTransaction.CURRENT_VERSION ∨ tx.nVersion < 1 then .error "version"
  else if !tx.isFinal nBestHeight nAdjustedTime then .error "not-final"
  else if tx.serializeSize ≥ MAX_STANDARD_TX_SIZE then .error "tx-size"
  else
    match standardInputs tx.vin with
    | .error reason => .error reason
    | .ok _ => standardOutputs env tx.vout

/-- The inputs of a transaction against the outputs they spend, from a position on. -/
def standardSpends (env : Env) (tx : CTransaction) : List Coin → Nat → Bool
  | [], _ => true
  | coin :: coins, i => env.isStandardInput coin.txout tx i && standardSpends env tx coins (i + 1)

def areInputsStandard (env : Env) (tx : CTransaction) : CoinsM Bool :=
  if tx.isCoinBase then pure true
  else do
    let coins ← accessCoins tx.vin
    pure (standardSpends env tx coins 0)

/-! ### Accepting -/

/-- What `accept` reads besides the pool and the coins. `fRateLimited` is what the rate
limiter for free transactions would decide. -/
structure AcceptContext where
  nBestHeight : Int
  nAdjustedTime : Int
  heights : Uint256 → Option Int
  fRateLimited : Bool

/-- The fee tests of `accept`. -/
def checkRelayFee (env : Env) (ctx : AcceptContext) (tx : CTransaction) (fLimitFree : Bool)
    (nFees : Int) : Except Halt Unit :=
  let txMinFee := tx.getMinFee env.fees 1000 true .relay 0
  if fLimitFree ∧ nFees < txMinFee then .error (.error "CTxMemPool::accept() : not enough fees")
  else if fLimitFree ∧ nFees < env.fees.nMinRelayTxFee ∧ ctx.fRateLimited then
    .error (.error "CTxMemPool::accept() : free transaction rejected by rate limiter")
  else .ok ()

/-- The part of `accept` under `fCheckInputs`, on a cache over the pool; `false` when an
input transaction is missing. Once the inputs are read they are cached, so the view may
stay where the source switches to a dummy. -/
def acceptInputs (env : Env) (ctx : AcceptContext) (tx : CTransaction) (fLimitFree : Bool) :
    CoinsM Bool := do
  let known ← CoinsM.haveCoins (env.txHash tx)
  if known then Prog.fail (.error "")
  else
    let found ← haveRecords tx.vin
    if !found then pure false
    else
      let available ← haveInputs tx
      if !available then Prog.fail (.invalid "CTxMemPool::accept() : inputs already spent")
      else
        let _ ← CoinsM.getBestBlock
        let standard ← areInputsStandard env tx
        if !standard && !env.fTestNet then
          Prog.fail (.error "CTxMemPool::accept() : nonstandard transaction input")
        else
          let nValueIn ← getValueIn tx
          let nValueOut ← Prog.ofExcept tx.getValueOut
          let nFees ← Prog.ofExcept (subInt64 nValueIn nValueOut)
          Prog.ofExcept (checkRelayFee env ctx tx fLimitFree nFees)
          let _ ← checkInputs env ctx.heights tx true ⟨true, true, false⟩ false
          pure true

/-- The tests of `accept` that read no coins. -/
def acceptLoose (env : Env) (ctx : AcceptContext) (tx : CTransaction) (pool : CTxMemPool) :
    Except Halt Unit :=
  match checkTransaction tx with
  | .error e => .error e
  | .ok _ =>
    if tx.isCoinBase then
      .error (.dos 100 "CTxMemPool::accept() : coinbase as individual tx" false)
    else if (tx.nLockTime : Int) > 2147483647 then
      .error (.error "CTxMemPool::accept() : not accepting nLockTime beyond 2038 yet")
    else
      match (if env.fTestNet then .ok () else tx.isStandard env ctx.nBestHeight ctx.nAdjustedTime) with
      | .error reason =>
        .error (.error ("CTxMemPool::accept() : nonstandard transaction (" ++ reason ++ ")"))
      | .ok _ =>
        if pool.exists_ (env.txHash tx) then .error (.error "")
        else if tx.vin.any fun txin => (pool.mapNextTx.lookup txin.prevout).isSome then
          .error (.error "")
        else .ok ()

/-- What `accept` returns and leaves. -/
structure AcceptResult (σ : Type) where
  outcome : Except Halt Unit
  fMissingInputs : Bool
  pcoinsTip : CCoinsViewCache σ
  pool : CTxMemPool

/-- `CTxMemPool::accept`. -/
def CTxMemPool.accept {σ : Type} [CoinsView σ] (env : Env) (ctx : AcceptContext) (tx : CTransaction)
    (fCheckInputs fLimitFree : Bool) (pcoinsTip : CCoinsViewCache σ) (pool : CTxMemPool) :
    AcceptResult σ :=
  match acceptLoose env ctx tx pool with
  | .error e => ⟨.error e, false, pcoinsTip, pool⟩
  | .ok _ =>
    if fCheckInputs then
      let result := (acceptInputs env ctx tx fLimitFree).run CCoinsViewCache.handler
        (.new (⟨pcoinsTip, pool.mapTx⟩ : CCoinsViewMemPool (CCoinsViewCache σ)))
      match result.1 with
      | .error e => ⟨.error e, false, result.2.base.base, pool⟩
      | .ok false => ⟨.error (.error ""), true, result.2.base.base, pool⟩
      | .ok true => ⟨.ok (), false, result.2.base.base, pool.addUnchecked (env.txHash tx) tx⟩
    else ⟨.ok (), false, pcoinsTip, pool.addUnchecked (env.txHash tx) tx⟩

/-! ### What accepting means -/

/-- A transaction that may enter a pool: well formed, not a coinbase, new, and spending
nothing a pool transaction spends. -/
structure Loose (env : Env) (tx : CTransaction) (pool : CTxMemPool) : Prop where
  checked : checkTransaction tx = .ok ()
  not_coinBase : tx.isCoinBase = false
  fresh : pool.mapTx.lookup (env.txHash tx) = none
  unspent : ∀ txin ∈ tx.vin, pool.mapNextTx.lookup txin.prevout = none

theorem acceptLoose_ok {env : Env} {ctx : AcceptContext} {tx : CTransaction} {pool : CTxMemPool}
    (h : acceptLoose env ctx tx pool = .ok ()) : Loose env tx pool := by
  unfold acceptLoose at h
  split at h
  · cases h
  · next hchecked =>
    split at h
    · cases h
    · next hcb =>
      split at h
      · cases h
      · split at h
        · cases h
        · split at h
          · cases h
          · next hfresh =>
            split at h
            · cases h
            · next hunspent =>
              simp only [CTxMemPool.exists_, Bool.not_eq_true, Option.isSome_eq_false_iff,
                Option.isNone_iff_eq_none] at hfresh
              refine ⟨hchecked, by simpa using hcb, hfresh, fun txin hmem => ?_⟩
              cases hlookup : pool.mapNextTx.lookup txin.prevout with
              | none => rfl
              | some inpoint =>
                exact absurd (List.any_eq_true.mpr ⟨txin, hmem, by rw [hlookup]; rfl⟩) hunspent

/-- **What `accept` does to the pool**: nothing, or it adds a loose transaction. -/
theorem CTxMemPool.accept_pool {σ : Type} [CoinsView σ] (env : Env) (ctx : AcceptContext)
    (tx : CTransaction) (fCheckInputs fLimitFree : Bool) (pcoinsTip : CCoinsViewCache σ) (pool : CTxMemPool) :
    ((∃ e, (pool.accept env ctx tx fCheckInputs fLimitFree pcoinsTip).outcome = .error e) ∧
      (pool.accept env ctx tx fCheckInputs fLimitFree pcoinsTip).pool = pool) ∨
    ((pool.accept env ctx tx fCheckInputs fLimitFree pcoinsTip).outcome = .ok () ∧ Loose env tx pool ∧
      (pool.accept env ctx tx fCheckInputs fLimitFree pcoinsTip).pool =
        pool.addUnchecked (env.txHash tx) tx) := by
  unfold CTxMemPool.accept
  cases hloose : acceptLoose env ctx tx pool with
  | error e => exact .inl ⟨⟨e, rfl⟩, rfl⟩
  | ok _ =>
    have hok := acceptLoose_ok hloose
    cases fCheckInputs with
    | false => exact .inr ⟨rfl, hok, rfl⟩
    | true =>
      simp only [if_true]
      generalize (acceptInputs env ctx tx fLimitFree).run CCoinsViewCache.handler
        (.new (⟨pcoinsTip, pool.mapTx⟩ : CCoinsViewMemPool (CCoinsViewCache σ))) = result
      match hresult : result.1 with
      | .error e => exact .inl ⟨⟨e, rfl⟩, rfl⟩
      | .ok false => exact .inl ⟨⟨_, rfl⟩, rfl⟩
      | .ok true => exact .inr ⟨rfl, hok, rfl⟩

/-- **Accepting changes no coins**: only the caches of `pcoinsTip` fill. -/
theorem CTxMemPool.accept_pcoinsTip {σ : Type} [CoinsView σ] (env : Env) (ctx : AcceptContext)
    (tx : CTransaction) (fCheckInputs fLimitFree : Bool) (pcoinsTip : CCoinsViewCache σ)
    (pool : CTxMemPool) : (pool.accept env ctx tx fCheckInputs fLimitFree pcoinsTip).pcoinsTip.contents =
      pcoinsTip.contents := by
  unfold CTxMemPool.accept
  cases acceptLoose env ctx tx pool with
  | error e => rfl
  | ok _ =>
    cases fCheckInputs with
    | false => rfl
    | true =>
      have hframe := CCoinsViewMemPool.run_base_contents (acceptInputs env ctx tx fLimitFree)
        (.new (⟨pcoinsTip, pool.mapTx⟩ : CCoinsViewMemPool (CCoinsViewCache σ)))
      simp only [if_true]
      generalize (acceptInputs env ctx tx fLimitFree).run CCoinsViewCache.handler
        (.new (⟨pcoinsTip, pool.mapTx⟩ : CCoinsViewMemPool (CCoinsViewCache σ))) = result
        at hframe
      match result.1 with
      | .error e => exact hframe
      | .ok false => exact hframe
      | .ok true => exact hframe

end Manna
