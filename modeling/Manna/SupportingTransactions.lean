import Manna.PoolRun

/-!
Resubmitting the transactions that a wallet transaction builds on (`main.cpp`: `AcceptWalletTransaction`;
`wallet.cpp`: `AddSupportingTransactions`).

* `supportingSubmitted_iff`: a supporting transaction that is needed is never submitted.
-/

namespace Manna

/-! ### AddSupportingTransactions -/

/-- What `AddSupportingTransactions` reads: the transactions of the wallet with what they were collected
with, and what `SetMerkleBranch` returns. -/
structure SupportView where
  mapWallet : Uint256 → Option CWalletTx
  setMerkleBranch : CTransaction → Int

def COPY_DEPTH : Int := 3

/-- The loop over `vWorkQueue`. It takes a round for every entry; `none`: there are more. -/
def supportingLoop (env : Env) (view : SupportView) : Nat → List Uint256 → (Uint256 → Option CTransaction) →
    Finset Uint256 → List CTransaction → Option (List CTransaction)
  | _, [], _, _, vtxPrev => some vtxPrev
  | 0, _ :: _, _, _, _ => none
  | fuel + 1, hash :: vWorkQueue, mapWalletPrev, setAlreadyDone, vtxPrev =>
    if hash ∈ setAlreadyDone then
      supportingLoop env view fuel vWorkQueue mapWalletPrev setAlreadyDone vtxPrev
    else
      let setAlreadyDone := insert hash setAlreadyDone
      let (found, mapWalletPrev) : Option CTransaction × (Uint256 → Option CTransaction) :=
        match view.mapWallet hash with
        | some wtx => (some wtx.tx, wtx.vtxPrev.foldl (fun mapWalletPrev txWalletPrev =>
          Function.update mapWalletPrev (env.txHash txWalletPrev) (some txWalletPrev)) mapWalletPrev)
        | none => (mapWalletPrev hash, mapWalletPrev)
      match found with
      | none => supportingLoop env view fuel vWorkQueue mapWalletPrev setAlreadyDone vtxPrev
      | some tx =>
        let vWorkQueue := if view.setMerkleBranch tx < COPY_DEPTH then
            vWorkQueue ++ tx.vin.map (·.prevout.hash) else vWorkQueue
        supportingLoop env view fuel vWorkQueue mapWalletPrev setAlreadyDone (vtxPrev ++ [tx])

/-- `AddSupportingTransactions`: the new `vtxPrev`. -/
def addSupportingTransactions (env : Env) (view : SupportView) (fuel : Nat) (tx : CTransaction) :
    Option (List CTransaction) :=
  if view.setMerkleBranch tx < COPY_DEPTH then
    (supportingLoop env view fuel (tx.vin.map (·.prevout.hash)) (fun _ => none) ∅ []).map List.reverse
  else some []

/-! ### What AcceptWalletTransaction submits -/

/-- A round calls `AcceptToMemoryPool`. -/
def submitsSupporting (env : Env) (state : PoolState) (tx : CTransaction) : Bool :=
  !tx.isCoinBase && !state.pool.exists_ (env.txHash tx) && (state.haveCoins (env.txHash tx)).1

def submittedSupporting (env : Env) (ctx : AcceptContext) (fCheckInputs : Bool) :
    List CTransaction → PoolState → List CTransaction
  | [], _ => []
  | tx :: vtxPrev, state =>
    (if submitsSupporting env state tx then [tx] else []) ++
      submittedSupporting env ctx fCheckInputs vtxPrev (acceptSupporting env ctx fCheckInputs state tx)

/-- A supporting transaction that is neither in the pool nor in the set of unspent outputs. -/
def NeededSupporting (env : Env) (state : PoolState) (tx : CTransaction) : Prop :=
  tx.isCoinBase = false ∧ state.pool.exists_ (env.txHash tx) = false ∧
    state.pcoinsTip.contents.coins (env.txHash tx) = none

/-- **Supporting transactions first**: those that are needed are submitted before the transaction, parents
before their children. -/
structure SupportingSubmitted (env : Env) (ctx : AcceptContext) (fCheckInputs : Bool) (wtx : CWalletTx)
    (state : PoolState) : Prop where
  submitted : ∀ tx ∈ wtx.vtxPrev, NeededSupporting env state tx →
    tx ∈ submittedSupporting env ctx fCheckInputs wtx.vtxPrev state
  ordered : ∀ before child after,
    submittedSupporting env ctx fCheckInputs wtx.vtxPrev state = before ++ child :: after →
    NeededSupporting env state child → ∀ parent ∈ wtx.vtxPrev, NeededSupporting env state parent →
    CTxMemPool.SpendsOutput env child parent → parent ∈ before

section Submitted

variable {env : Env} {ctx : AcceptContext} {fCheckInputs : Bool} {state : PoolState} {tx : CTransaction}

/-- Which coins there are does not depend on the pool. -/
theorem contents_acceptSupporting (env : Env) (ctx : AcceptContext) (fCheckInputs : Bool) (state : PoolState)
    (tx : CTransaction) :
    (acceptSupporting env ctx fCheckInputs state tx).pcoinsTip.contents = state.pcoinsTip.contents := by
  have hfetch := (CCoinsViewCache.fetchCoins_spec (env.txHash tx) state.pcoinsTip).2.1
  unfold acceptSupporting
  split
  · rfl
  · split
    · rfl
    · dsimp only
      split
      · exact (CTxMemPool.accept_pcoinsTip env ctx tx fCheckInputs false
          (state.haveCoins (env.txHash tx)).2.pcoinsTip _).trans hfetch
      · exact hfetch

theorem coins_of_submitsSupporting (h : submitsSupporting env state tx = true) :
    state.pcoinsTip.contents.coins (env.txHash tx) ≠ none := by
  rw [submitsSupporting, Bool.and_eq_true] at h
  have hfetch := (CCoinsViewCache.fetchCoins_spec (env.txHash tx) state.pcoinsTip).1
  intro hnone
  have hhave : (state.haveCoins (env.txHash tx)).1 = false := by
    show (state.pcoinsTip.fetchCoins (env.txHash tx)).1.isSome = false
    rw [hfetch, hnone]
    rfl
  rw [hhave] at h
  exact absurd h.2 Bool.false_ne_true

/-- **Only transactions with coins are submitted.** -/
theorem coins_of_mem_submittedSupporting {vtxPrev : List CTransaction}
    (h : tx ∈ submittedSupporting env ctx fCheckInputs vtxPrev state) :
    state.pcoinsTip.contents.coins (env.txHash tx) ≠ none := by
  induction vtxPrev generalizing state with
  | nil => cases h
  | cons first vtxPrev ih =>
    rw [submittedSupporting, List.mem_append] at h
    rcases h with h | h
    · split at h
      · next hsubmits =>
        obtain rfl := List.mem_singleton.mp h
        exact coins_of_submitsSupporting hsubmits
      · cases h
    · rw [← contents_acceptSupporting env ctx fCheckInputs state first]
      exact ih h

theorem not_submitted_of_needed {vtxPrev : List CTransaction} (h : NeededSupporting env state tx) :
    tx ∉ submittedSupporting env ctx fCheckInputs vtxPrev state :=
  fun hmem => coins_of_mem_submittedSupporting hmem h.2.2

/-- **When supporting transactions come first**: when none is needed. -/
theorem supportingSubmitted_iff (env : Env) (ctx : AcceptContext) (fCheckInputs : Bool) (wtx : CWalletTx)
    (state : PoolState) :
    SupportingSubmitted env ctx fCheckInputs wtx state ↔
      ∀ tx ∈ wtx.vtxPrev, ¬ NeededSupporting env state tx := by
  constructor
  · intro h tx hmem hneeded
    exact not_submitted_of_needed hneeded (h.submitted tx hmem hneeded)
  · intro h
    exact ⟨fun tx hmem hneeded => absurd hneeded (h tx hmem),
      fun _ _ _ _ _ parent hmem hneeded => absurd hneeded (h parent hmem)⟩

end Submitted

/-- A wallet with an unconfirmed transaction. -/
def sampleSupport : SupportView where
  mapWallet hash := if hash = 22 then some ⟨sampleParent, [], false, 0⟩ else none
  setMerkleBranch _ := 0

theorem needed_sampleParent : NeededSupporting sampleEnv sampleFunded.poolState sampleParent := by
  refine ⟨by decide, by decide, ?_⟩
  rw [← (CCoinsViewCache.fetchCoins_spec _ _).1]
  decide

/-- The parent of an unconfirmed transaction is collected and not submitted. -/
theorem not_supportingSubmitted_sample :
    ∃ vtxPrev, addSupportingTransactions sampleEnv sampleSupport 5 sampleChild = some vtxPrev ∧
      ¬ SupportingSubmitted sampleEnv sampleContext false ⟨sampleChild, vtxPrev, false, 0⟩
        sampleFunded.poolState := by
  refine ⟨[sampleParent], by decide +kernel, fun h => ?_⟩
  exact not_submitted_of_needed needed_sampleParent
    (h.submitted sampleParent (List.mem_singleton_self _) needed_sampleParent)

end Manna
