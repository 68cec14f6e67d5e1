import Manna.PoolInputs

/-!
Resubmitting wallet transactions (`wallet.cpp`: `ReacceptWalletTransactions`; `main.cpp`:
`AcceptWalletTransaction`) and the pool over whole runs.

A resubmission accepts transactions without looking at their inputs.

* `PoolState.Sound.reaccept`: a resubmission that finds the inputs keeps them available;
* `PoolRun.inputs_available`: in every run whose steps meet their conditions, every input of the pool is
  available in every state;
* `not_forall_reaccept_connected`: without the condition a resubmission breaks this.
-/

namespace Manna

/-- A condition that holds before every round of a loop. -/
def EachRound {α β : Type} (f : β → α → β) (P : α → β → Prop) : List α → β → Prop
  | [], _ => True
  | a :: l, b => P a b ∧ EachRound f P l (f b a)

theorem EachRound.foldl {α β : Type} {f : β → α → β} {P : α → β → Prop} {Inv : β → Prop} {l : List α}
    {b : β} (hstep : ∀ a ∈ l, ∀ b, Inv b → P a b → Inv (f b a)) (h : EachRound f P l b) (hb : Inv b) :
    Inv (l.foldl f b) := by
  induction l generalizing b with
  | nil => exact hb
  | cons a l ih =>
    rw [List.forall_mem_cons] at hstep
    exact ih hstep.2 h.2 (hstep.1 b hb h.1)

/-! ### Resubmitting -/

/-- A wallet transaction with what a resubmission reads of it: the supporting transactions,
`IsSpent(0)` and `GetDepthInMainChain()`. -/
structure CWalletTx where
  tx : CTransaction
  vtxPrev : List CTransaction
  fSpent : Bool
  nDepthInMainChain : Int

namespace PoolState

/-- `AcceptToMemoryPool(fCheckInputs, false)`, whose result is not looked at. -/
def accept (env : Env) (ctx : AcceptContext) (tx : CTransaction) (fCheckInputs : Bool)
    (state : PoolState) : PoolState :=
  let result := state.pool.accept env ctx tx fCheckInputs false state.pcoinsTip
  ⟨result.pcoinsTip, result.pool⟩

/-- `pcoinsTip->HaveCoins(txid)`. -/
def haveCoins (txid : Uint256) (state : PoolState) : Bool × PoolState :=
  let (coins, pcoinsTip) := state.pcoinsTip.fetchCoins txid
  (coins.isSome, { state with pcoinsTip := pcoinsTip })

end PoolState

/-- A round of the loop of `AcceptWalletTransaction` over `vtxPrev`. -/
def acceptSupporting (env : Env) (ctx : AcceptContext) (fCheckInputs : Bool) (state : PoolState)
    (tx : CTransaction) : PoolState :=
  if tx.isCoinBase then state
  else if state.pool.exists_ (env.txHash tx) then state
  else
    let (fHave, state) := state.haveCoins (env.txHash tx)
    if fHave then state.accept env ctx tx fCheckInputs else state

def acceptWalletTransaction (env : Env) (ctx : AcceptContext) (fCheckInputs : Bool) (wtx : CWalletTx)
    (state : PoolState) : PoolState :=
  (wtx.vtxPrev.foldl (acceptSupporting env ctx fCheckInputs) state).accept env ctx wtx.tx fCheckInputs

/-- A round of the loop of `ReacceptWalletTransactions`, as far as it concerns the pool: marking
outputs as spent is left out. -/
def reacceptWalletTransaction (env : Env) (ctx : AcceptContext) (state : PoolState) (wtx : CWalletTx) :
    PoolState :=
  if wtx.tx.isCoinBase && wtx.fSpent then state
  else
    let (fFound, state) := state.haveCoins (env.txHash wtx.tx)
    if fFound ∨ wtx.nDepthInMainChain > 0 then state
    else if wtx.tx.isGenerated then state
    else acceptWalletTransaction env ctx false wtx state

/-- `ReacceptWalletTransactions`: one pass over `mapWallet`. -/
def reacceptWalletTransactions (env : Env) (ctx : AcceptContext) (mapWallet : List CWalletTx)
    (state : PoolState) : PoolState :=
  mapWallet.foldl (reacceptWalletTransaction env ctx) state

/-- If the inputs are not checked, those of a transaction that is admitted are available. -/
def PoolState.Guarded (env : Env) (ctx : AcceptContext) (tx : CTransaction) (fCheckInputs : Bool)
    (state : PoolState) : Prop :=
  fCheckInputs = true ∨ (acceptLoose env ctx tx state.pool = .ok () → ∀ txin ∈ tx.vin,
    state.pool.Available state.pcoinsTip.contents.utxo txin.prevout)

def CWalletTx.Guarded (env : Env) (ctx : AcceptContext) (fCheckInputs : Bool) (wtx : CWalletTx)
    (state : PoolState) : Prop :=
  EachRound (acceptSupporting env ctx fCheckInputs)
      (fun tx state => (state.haveCoins (env.txHash tx)).1 = true →
        state.Guarded env ctx tx fCheckInputs) wtx.vtxPrev state ∧
    (wtx.vtxPrev.foldl (acceptSupporting env ctx fCheckInputs) state).Guarded env ctx wtx.tx fCheckInputs

def ReacceptGuarded (env : Env) (ctx : AcceptContext) (mapWallet : List CWalletTx)
    (state : PoolState) : Prop :=
  EachRound (reacceptWalletTransaction env ctx)
    (fun wtx state => (state.haveCoins (env.txHash wtx.tx)).1 = false → wtx.nDepthInMainChain ≤ 0 →
      wtx.Guarded env ctx false (state.haveCoins (env.txHash wtx.tx)).2) mapWallet state

/-! ### What a resubmission keeps -/

/-- The pool is indexed and every input of it is available; the coins are those of a view. -/
structure PoolState.Sound (env : Env) (T : Set CTransaction) (s : CoinsMap) (state : PoolState) :
    Prop where
  contents : state.pcoinsTip.contents = s
  indexed : state.pool.Indexed env T
  connected : state.pool.Connected s.utxo

namespace PoolState.Sound

variable {env : Env} {T : Set CTransaction} {s : CoinsMap} {state : PoolState} {ctx : AcceptContext}
  {tx : CTransaction} {fCheckInputs : Bool} {wtx : CWalletTx}

theorem haveCoins (h : state.Sound env T s) (txid : Uint256) : (state.haveCoins txid).2.Sound env T s :=
  ⟨(CCoinsViewCache.fetchCoins_spec txid state.pcoinsTip).2.1.trans h.contents, h.indexed, h.connected⟩

theorem haveCoins_pool (txid : Uint256) (state : PoolState) :
    (state.haveCoins txid).2.pool = state.pool := rfl

/-- Reading the coins changes nothing that a guard looks at. -/
theorem guarded_haveCoins (h : state.Sound env T s) (txid : Uint256)
    (hguarded : state.Guarded env ctx tx fCheckInputs) :
    (state.haveCoins txid).2.Guarded env ctx tx fCheckInputs := by
  unfold PoolState.Guarded
  rw [haveCoins_pool, (h.haveCoins txid).contents, ← h.contents]
  exact hguarded

/-- **A guarded call** keeps the inputs available. -/
theorem accept (h : state.Sound env T s) (hT : tx ∈ T)
    (hguarded : state.Guarded env ctx tx fCheckInputs) (fLimitFree : Bool) : PoolState.Sound env T s
      ⟨(state.pool.accept env ctx tx fCheckInputs fLimitFree state.pcoinsTip).pcoinsTip,
        (state.pool.accept env ctx tx fCheckInputs fLimitFree state.pcoinsTip).pool⟩ := by
  have hcontents := (CTxMemPool.accept_pcoinsTip env ctx tx fCheckInputs fLimitFree state.pcoinsTip
    state.pool).trans h.contents
  rcases CTxMemPool.accept_pool env ctx tx fCheckInputs fLimitFree state.pcoinsTip state.pool with
    ⟨-, hpool⟩ | ⟨hok, hloose, hpool⟩
  · rw [hpool]
    exact ⟨hcontents, h.indexed, h.connected⟩
  · have hinputs : ∀ txin ∈ tx.vin, state.pool.Available s.utxo txin.prevout := by
      rw [← h.contents]
      cases fCheckInputs with
      | true => exact CTxMemPool.accept_available hok
      | false =>
        refine (hguarded.resolve_left Bool.false_ne_true) ?_
        unfold CTxMemPool.accept at hok
        cases hresult : acceptLoose env ctx tx state.pool with
        | ok _ => rfl
        | error e =>
          rw [hresult] at hok
          cases hok
    rw [hpool]
    refine ⟨hcontents, h.indexed.addUnchecked hloose hT, CTxMemPool.AvailableBut.connected ?_⟩
    exact ((h.connected.availableBut fun _ => False).addUnchecked hloose.fresh hinputs).mono
      fun _ => And.left

theorem acceptSupporting (h : state.Sound env T s) (hT : tx ∈ T)
    (hguarded : (state.haveCoins (env.txHash tx)).1 = true → state.Guarded env ctx tx fCheckInputs) :
    (acceptSupporting env ctx fCheckInputs state tx).Sound env T s := by
  unfold Manna.acceptSupporting
  split
  · exact h
  · split
    · exact h
    · dsimp only
      split
      · next hhave =>
        exact (h.haveCoins _).accept hT (h.guarded_haveCoins _ (hguarded hhave)) false
      · exact h.haveCoins _

theorem acceptWalletTransaction (h : state.Sound env T s) (hT : wtx.tx ∈ T ∧ ∀ tx ∈ wtx.vtxPrev, tx ∈ T)
    (hguarded : wtx.Guarded env ctx fCheckInputs state) :
    (acceptWalletTransaction env ctx fCheckInputs wtx state).Sound env T s := by
  have hsupporting : (wtx.vtxPrev.foldl (Manna.acceptSupporting env ctx fCheckInputs) state).Sound
      env T s :=
    hguarded.1.foldl (fun tx hmem state hsound => hsound.acceptSupporting (hT.2 tx hmem)) h
  exact hsupporting.accept hT.1 hguarded.2 false

/-- **A guarded resubmission** keeps the inputs available. -/
theorem reaccept {mapWallet : List CWalletTx} (h : state.Sound env T s)
    (hT : ∀ wtx ∈ mapWallet, wtx.tx ∈ T ∧ ∀ tx ∈ wtx.vtxPrev, tx ∈ T)
    (hguarded : ReacceptGuarded env ctx mapWallet state) :
    (reacceptWalletTransactions env ctx mapWallet state).Sound env T s := by
  refine EachRound.foldl (fun wtx hmem state hsound hround => ?_) hguarded h
  unfold reacceptWalletTransaction
  split
  · exact hsound
  · dsimp only
    split
    · exact hsound.haveCoins _
    · next hcalled =>
      rw [not_or, Bool.not_eq_true, not_lt] at hcalled
      split
      · exact hsound.haveCoins _
      · exact (hsound.haveCoins _).acceptWalletTransaction (hT wtx hmem)
          (hround hcalled.1 hcalled.2)

end PoolState.Sound

/-! ### Runs -/

def Node.poolState (node : Node) : PoolState := ⟨node.pcoinsTip, node.mempool⟩

def Node.withPool (node : Node) (state : PoolState) : Node :=
  { node with pcoinsTip := state.pcoinsTip, mempool := state.pool }

/-- **A run**: from a loaded node with an empty pool, calls that change the pool or the best chain,
each under its condition. Blocks may be stored and entries marked in between. `T` are the
transactions that occur. -/
inductive PoolRun (env : Env) (T : Set CTransaction) : Node → Prop
  | start {node : Node} (hcoherent : node.Coherent) (hbest : node.pindexBest ≠ none)
      (hroot : GenesisRoot env node.mapBlockIndex) (hempty : node.mempool = .empty) :
      PoolRun env T node
  | other {node node' : Node} (h : PoolRun env T node) (hsame : node'.Unchanged node) :
      PoolRun env T node'
  | insertBlock {node : Node} (h : PoolRun env T node) (block : CBlock)
      (hnew : node.mapBlockIndex.New (newEntry env node.mapBlockIndex block)) :
      PoolRun env T (node.insertBlock env block hnew)
  | accept {node : Node} (h : PoolRun env T node) (ctx : AcceptContext) (tx : CTransaction)
      (fCheckInputs fLimitFree : Bool) (hT : tx ∈ T)
      (hguarded : node.poolState.Guarded env ctx tx fCheckInputs) :
      PoolRun env T (node.withPool
        ⟨(node.mempool.accept env ctx tx fCheckInputs fLimitFree node.pcoinsTip).pcoinsTip,
          (node.mempool.accept env ctx tx fCheckInputs fLimitFree node.pcoinsTip).pool⟩)
  | acceptWallet {node : Node} (h : PoolRun env T node) (ctx : AcceptContext) (wtx : CWalletTx)
      (fCheckInputs : Bool) (hT : wtx.tx ∈ T ∧ ∀ tx ∈ wtx.vtxPrev, tx ∈ T)
      (hguarded : wtx.Guarded env ctx fCheckInputs node.poolState) :
      PoolRun env T (node.withPool (acceptWalletTransaction env ctx fCheckInputs wtx node.poolState))
  | reaccept {node : Node} (h : PoolRun env T node) (ctx : AcceptContext) (mapWallet : List CWalletTx)
      (hT : ∀ wtx ∈ mapWallet, wtx.tx ∈ T ∧ ∀ tx ∈ wtx.vtxPrev, tx ∈ T)
      (hguarded : ReacceptGuarded env ctx mapWallet node.poolState) :
      PoolRun env T (node.withPool (reacceptWalletTransactions env ctx mapWallet node.poolState))
  | setBestChain {node node' : Node} (h : PoolRun env T node) (out : Outside)
      (connectBest : Node → Call Unit) (pindexNew : Uint256) {outcome : Except ChainError Unit}
      (hindexed : node.mapBlockIndex.Indexed pindexNew) (hstored : node.Stored T)
      (hwritten : out.fDiskSpace pindexNew = true ∧ out.fCoinFlush pindexNew = true)
      (hqueued : node.QueuedForPool env pindexNew)
      (hrun : setBestChain env out connectBest pindexNew node = .ok (outcome, node')) :
      PoolRun env T node'

/-- What a run keeps. -/
structure PoolInvariant (env : Env) (T : Set CTransaction) (node : Node) : Prop where
  coherent : node.Coherent
  best : node.pindexBest ≠ none
  root : GenesisRoot env node.mapBlockIndex
  sound : node.poolState.Sound env T node.pcoinsTip.contents

namespace PoolInvariant

variable {env : Env} {T : Set CTransaction} {node node' : Node}

theorem unchanged (h : PoolInvariant env T node) (hsame : node'.Unchanged node) :
    PoolInvariant env T node' where
  coherent := h.coherent.unchanged hsame
  best := hsame.pindexBest ▸ h.best
  root := h.root.extends hsame.extends_
  sound := by
    refine ⟨rfl, ?_, ?_⟩
    · rw [Node.poolState, hsame.mempool]
      exact h.sound.indexed
    · rw [hsame.coins, Node.poolState, hsame.mempool]
      exact h.sound.connected

/-- Calls that change the pool and the caches of `pcoinsTip` only. -/
theorem withPool (h : PoolInvariant env T node) {state : PoolState}
    (hsound : state.Sound env T node.pcoinsTip.contents) : PoolInvariant env T (node.withPool state) where
  coherent := by
    obtain ⟨htip, hnext, hindexed, hhash, hheight, htrust⟩ := h.coherent
    exact ⟨(congrArg CoinsMap.best hsound.contents).trans htip, hnext, hindexed, hhash, hheight, htrust⟩
  best := h.best
  root := h.root
  sound := ⟨rfl, hsound.indexed, by
    rw [show (node.withPool state).pcoinsTip = state.pcoinsTip from rfl, hsound.contents]
    exact hsound.connected⟩

theorem setBestChain (hhash : Hashed env T) (h : PoolInvariant env T node) {out : Outside}
    {connectBest : Node → Call Unit} {pindexNew : Uint256} {outcome : Except ChainError Unit}
    (hindexed : node.mapBlockIndex.Indexed pindexNew) (hstored : node.Stored T)
    (hwritten : out.fDiskSpace pindexNew = true ∧ out.fCoinFlush pindexNew = true)
    (hqueued : node.QueuedForPool env pindexNew)
    (hrun : setBestChain env out connectBest pindexNew node = .ok (outcome, node')) :
    PoolInvariant env T node' := by
  cases outcome with
  | error e =>
    exact h.unchanged (setBestChain_error h.coherent hrun
      (Node.writeCoins_ne_error_of_space hwritten.1 hwritten.2))
  | ok _ =>
    obtain ⟨hcoherent, hbest, hextends, -, -⟩ := setBestChain_ok h.coherent hindexed hrun
    obtain ⟨hpool, hconnected⟩ := setBestChain_connected hhash h.coherent h.best h.root hstored
      h.sound.indexed h.sound.connected hwritten hqueued hrun
    refine ⟨hcoherent, ?_, h.root.extends hextends, rfl, hpool, hconnected⟩
    rw [hbest]
    exact Option.some_ne_none _

end PoolInvariant

/-- **Every input of the pool is available in every state of a run**: an unspent output, or an
output of a pool transaction. -/
theorem PoolRun.inputs_available {env : Env} {T : Set CTransaction} (hhash : Hashed env T)
    {node : Node} (h : PoolRun env T node) : node.mempool.Connected node.pcoinsTip.contents.utxo := by
  have hinvariant : PoolInvariant env T node := by
    induction h with
    | @start node hcoherent hbest hroot hempty =>
      refine ⟨hcoherent, hbest, hroot, rfl, ?_, ?_⟩
      · rw [Node.poolState, hempty]
        exact CTxMemPool.indexed_empty
      · rw [Node.poolState, hempty]
        exact CTxMemPool.connected_empty _
    | other _ hsame ih => exact ih.unchanged hsame
    | @insertBlock node _ block hnew ih =>
      exact ⟨ih.coherent.insertBlock hnew, ih.best,
        ih.root.extends (BlockTree.extends_insert hnew), ih.sound⟩
    | accept _ ctx tx fCheckInputs fLimitFree hT hguarded ih =>
      exact ih.withPool (ih.sound.accept hT hguarded fLimitFree)
    | acceptWallet _ ctx wtx fCheckInputs hT hguarded ih =>
      exact ih.withPool (ih.sound.acceptWalletTransaction hT hguarded)
    | reaccept _ ctx mapWallet hT hguarded ih =>
      exact ih.withPool (ih.sound.reaccept hT hguarded)
    | setBestChain _ out connectBest pindexNew hindexed hstored hwritten hqueued hrun ih =>
      exact ih.setBestChain hhash hindexed hstored hwritten hqueued hrun
  exact hinvariant.sound.connected

/-! ### Samples -/

/-- A node whose coins hold an output of the transaction 7. -/
def sampleFunded : Node :=
  loadBlockIndexDB sampleTree
    (.new ⟨fun txid => if txid = 7 then some ⟨false, [⟨COIN, []⟩], 0, 1⟩ else none, some 1000⟩) 0
    emptyFiles

def sampleContext : AcceptContext := ⟨100, 1000, fun _ => some 0, false⟩

def sampleWallet : List CWalletTx := [⟨sampleChild, [], false, 0⟩]

theorem poolRun_sampleFunded (T : Set CTransaction) : PoolRun sampleEnv T sampleFunded := by
  refine .start (coherent_loadBlockIndexDB (fun hash => ?_) (fun best h => ?_) _ _)
    (by decide) ?_ rfl
  · rw [BlockTree.pnextOf, entry_sampleTree]
    split <;> rfl
  · rw [CCoinsViewCache.contents_new] at h
    cases h
    exact ⟨_, entry_sampleTree _⟩
  · have hgenesis : (sampleFunded.mapBlockIndex.entry 1000).map (·.pprev) = some none := by
      decide +kernel
    obtain ⟨e, he, hroot⟩ := Option.map_eq_some_iff.mp hgenesis
    exact ⟨e, he, hroot⟩

/-- A transaction is accepted, then its child is resubmitted. -/
theorem inputs_available_sample :
    ∃ node : Node, node.mempool.mapTx.lookup 23 = some sampleChild ∧
      node.mempool.Connected node.pcoinsTip.contents.utxo := by
  have hparent := (poolRun_sampleFunded {sampleParent, sampleChild}).accept sampleContext sampleParent
    true false (.inl rfl) (.inl rfl)
  have hlookup : (sampleFunded.mempool.accept sampleEnv sampleContext sampleParent true false
      sampleFunded.pcoinsTip).pool.mapTx.lookup 22 = some sampleParent := by decide
  have hchild := hparent.reaccept sampleContext sampleWallet
    (fun wtx hmem => ⟨.inr (congrArg CWalletTx.tx (List.mem_singleton.mp hmem)), by
      rw [List.mem_singleton.mp hmem]
      exact fun tx htx => absurd htx List.not_mem_nil⟩) ?_
  · exact ⟨_, by decide, hchild.inputs_available hashed_samples⟩
  · refine ⟨fun _ _ => ⟨trivial, .inr fun _ txin hmem => .inr ⟨sampleParent, ?_, ?_⟩⟩, trivial⟩
    · rw [List.mem_singleton.mp hmem]
      exact hlookup
    · rw [List.mem_singleton.mp hmem]
      decide

/-- **A resubmission does not look at the inputs**: a wallet transaction whose input is neither in
the coins nor in the pool is in the pool afterwards. -/
theorem not_forall_reaccept_connected :
    ¬ ∀ (env : Env) (T : Set CTransaction) (node : Node) (ctx : AcceptContext)
      (mapWallet : List CWalletTx), PoolRun env T node →
      (reacceptWalletTransactions env ctx mapWallet node.poolState).pool.Connected
        (reacceptWalletTransactions env ctx mapWallet node.poolState).pcoinsTip.contents.utxo := by
  intro h
  have hconnected := h sampleEnv ∅ sampleFunded sampleContext sampleWallet (poolRun_sampleFunded ∅)
  have hadmitted : (reacceptWalletTransactions sampleEnv sampleContext sampleWallet
      sampleFunded.poolState).pool.mapTx.lookup 23 = some sampleChild := by decide
  rcases hconnected 23 sampleChild hadmitted (sampleIn 22 0) (List.mem_singleton.mpr rfl) with
    hsome | ⟨parent, hparent, -⟩
  · revert hsome
    decide
  · have hnone : (reacceptWalletTransactions sampleEnv sampleContext sampleWallet
        sampleFunded.poolState).pool.mapTx.lookup 22 = none := by decide
    rw [show (sampleIn 22 0).prevout.hash = 22 from rfl, hnone] at hparent
    cases hparent

end Manna
