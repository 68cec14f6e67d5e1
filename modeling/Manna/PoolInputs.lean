import Manna.Coherent
import Manna.PoolIndex
import Manna.UtxoChange

/-!
The inputs of pool transactions (`main.cpp`: `CTxMemPool::accept`, the memory pool loops of
`SetBestChain`).

An input is `Available` when it is an unspent output or an output of a pool transaction. While a
reorganisation works on the pool some inputs are not; `AvailableBut` says which these may be.

* `accept_available`: what is accepted with its inputs checked has available inputs;
* `foldl_resurrect`: the queued transactions are in the pool, or nothing in it depends on them;
* `foldl_deleteConnected`: nothing in the pool spends what a connected block spent;
* `setBestChain_connected`: a reorganisation as a whole.
-/

namespace Manna

open OpProg

namespace CTxMemPool

/-- An unspent output, or an output of a pool transaction. -/
def Available (pool : CTxMemPool) (u : Utxo) (out : COutPoint) : Prop :=
  (u out).isSome = true ∨
    ∃ parent, pool.mapTx.lookup out.hash = some parent ∧ out.n < parent.vout.length

/-- Every input of a pool transaction is available or one of those that are missing. -/
def AvailableBut (pool : CTxMemPool) (u : Utxo) (missing : COutPoint → Prop) : Prop :=
  ∀ hash tx, pool.mapTx.lookup hash = some tx → ∀ txin ∈ tx.vin,
    pool.Available u txin.prevout ∨ missing txin.prevout

/-- **Every input of a pool transaction is available.** -/
def Connected (pool : CTxMemPool) (u : Utxo) : Prop :=
  ∀ hash tx, pool.mapTx.lookup hash = some tx → ∀ txin ∈ tx.vin, pool.Available u txin.prevout

section Pool

variable {env : Env} {T : Set CTransaction} {pool pool' : CTxMemPool} {u u' : Utxo}
  {missing missing' : COutPoint → Prop} {tx : CTransaction}

theorem Connected.availableBut (h : pool.Connected u) (missing : COutPoint → Prop) :
    pool.AvailableBut u missing :=
  fun hash tx hlookup txin hmem => .inl (h hash tx hlookup txin hmem)

theorem AvailableBut.connected (h : pool.AvailableBut u fun _ => False) : pool.Connected u :=
  fun hash tx hlookup txin hmem => (h hash tx hlookup txin hmem).resolve_right id

theorem AvailableBut.mono (h : pool.AvailableBut u missing) (hle : ∀ out, missing out → missing' out) :
    pool.AvailableBut u missing' :=
  fun hash tx hlookup txin hmem => (h hash tx hlookup txin hmem).imp_right (hle _)

theorem connected_empty (u : Utxo) : CTxMemPool.empty.Connected u := by
  intro hash tx hlookup
  cases hlookup

theorem AvailableBut.addUnchecked (h : pool.AvailableBut u missing)
    (hfresh : pool.mapTx.lookup (env.txHash tx) = none)
    (hinputs : ∀ txin ∈ tx.vin, pool.Available u txin.prevout) :
    (pool.addUnchecked (env.txHash tx) tx).AvailableBut u fun out =>
      missing out ∧ ¬ OutputOf env tx out := by
  have hgrows : ∀ {out}, pool.Available u out →
      (pool.addUnchecked (env.txHash tx) tx).Available u out := by
    rintro out (hsome | ⟨parent, hparent, hlt⟩)
    · exact .inl hsome
    · refine .inr ⟨parent, ?_, hlt⟩
      have hne : out.hash ≠ env.txHash tx := by
        intro heq
        rw [heq, hfresh] at hparent
        cases hparent
      exact (Finmap.lookup_insert_of_ne _ hne).trans hparent
  intro hash tx' hlookup txin hmem
  by_cases heq : hash = env.txHash tx
  · subst heq
    obtain rfl := Option.some.inj ((Finmap.lookup_insert _).symm.trans hlookup)
    exact .inl (hgrows (hinputs txin hmem))
  · have hold := (Finmap.lookup_insert_of_ne _ heq).symm.trans hlookup
    by_cases hout : OutputOf env tx txin.prevout
    · exact .inl (.inr ⟨tx, hout.1 ▸ Finmap.lookup_insert _, hout.2⟩)
    · exact (h hash tx' hold txin hmem).imp hgrows fun hmissing => ⟨hmissing, hout⟩

theorem AvailableBut.removed (h : pool.AvailableBut u missing) (hindexed : Indexed env T pool)
    (hremoved : Removed env T pool pool') : pool'.AvailableBut u missing := by
  intro hash child hlookup txin hmem
  rcases h hash child (hremoved.sub _ _ hlookup) txin hmem with
    (hsome | ⟨parent, hparent, hlt⟩) | hmissing
  · exact .inl (.inl hsome)
  · have hhash := (hindexed.hash hparent).1
    cases hstays : pool'.mapTx.lookup txin.prevout.hash with
    | some parent' =>
      obtain rfl := Option.some.inj (hparent.symm.trans (hremoved.sub _ _ hstays))
      exact .inl (.inr ⟨parent, hstays, hlt⟩)
    | none =>
      exact absurd ⟨txin, hmem, hhash.symm, hlt⟩
        (hremoved.closed _ _ hparent hstays hash child hlookup)
  · exact .inr hmissing

end Pool

/-! ### Accepting -/

theorem available_of_view {σ : Type} [CoinsView σ] {pool : CTxMemPool} {pcoinsTip : CCoinsViewCache σ}
    {out : COutPoint}
    (h : ((⟨pcoinsTip, pool.mapTx⟩ : CCoinsViewMemPool (CCoinsViewCache σ)).contents.utxo out).isSome =
      true) : pool.Available pcoinsTip.contents.utxo out := by
  -- The view has the records of the coins first, then those of the pool.
  have hview : ((pcoinsTip.contents.coins out.hash <|> (pool.mapTx.lookup out.hash).map fun tx =>
      CCoins.ofTx tx MEMPOOL_HEIGHT).bind fun coins => coins.coinAt out.n).isSome = true := h
  cases hbase : pcoinsTip.contents.coins out.hash with
  | some coins =>
    rw [hbase] at hview
    refine .inl ?_
    unfold CoinsMap.utxo
    rw [hbase]
    exact hview
  | none =>
    rw [hbase] at hview
    cases hlookup : pool.mapTx.lookup out.hash with
    | none =>
      rw [hlookup] at hview
      cases hview
    | some parent =>
      rw [hlookup] at hview
      have hcoin : ((CCoins.ofTx parent MEMPOOL_HEIGHT).coinAt out.n).isSome = true := hview
      rw [CCoins.coinAt_isSome] at hcoin
      obtain ⟨txout, htxout⟩ := Option.isSome_iff_exists.mp hcoin
      have hget := (CCoins.output_eq_some.mp htxout).1
      exact .inr ⟨parent, hlookup, (List.getElem?_eq_some_iff.mp hget).1⟩

/-- The part of `accept` under `fCheckInputs` finds every input. -/
theorem acceptInputs_ok {env : Env} {ctx : AcceptContext} {tx : CTransaction} {fLimitFree : Bool}
    {s s' : CoinsMap} (hcb : tx.isCoinBase = false)
    (h : (acceptInputs env ctx tx fLimitFree).run CoinsMap.handler s = (.ok true, s')) :
    ∀ txin ∈ tx.vin, (s.utxo txin.prevout).isSome = true := by
  obtain ⟨known, s₁, hknown, hrest⟩ := Prog.run_bind_eq_ok.mp h
  rw [CoinsM.run_haveCoins, Prod.mk.injEq] at hknown
  obtain ⟨-, rfl⟩ := hknown
  split at hrest
  · cases congrArg Prod.fst hrest
  · obtain ⟨found, s₂, hfound, hrest⟩ := Prog.run_bind_eq_ok.mp hrest
    rw [run_haveRecords, Prod.mk.injEq] at hfound
    obtain ⟨-, rfl⟩ := hfound
    split at hrest
    · cases congrArg Prod.fst hrest
    · obtain ⟨available, s₃, havailable, hrest⟩ := Prog.run_bind_eq_ok.mp hrest
      rw [run_haveInputs, Prod.mk.injEq, Except.ok.injEq, hcb, Bool.false_or] at havailable
      obtain ⟨rfl, rfl⟩ := havailable
      split at hrest
      · cases congrArg Prod.fst hrest
      · next hnot =>
        rw [Bool.not_eq_true', Bool.not_eq_false] at hnot
        exact coinsOf_isSome_iff.mp hnot

/-- **What is accepted has available inputs**, if they are checked. -/
theorem accept_available {σ : Type} [CoinsView σ] {env : Env} {ctx : AcceptContext} {tx : CTransaction}
    {fLimitFree : Bool} {pcoinsTip : CCoinsViewCache σ} {pool : CTxMemPool}
    (h : (pool.accept env ctx tx true fLimitFree pcoinsTip).outcome = .ok ()) :
    ∀ txin ∈ tx.vin, pool.Available pcoinsTip.contents.utxo txin.prevout := by
  unfold CTxMemPool.accept at h
  cases hloose : acceptLoose env ctx tx pool with
  | error e =>
    rw [hloose] at h
    cases h
  | ok _ =>
    rw [hloose] at h
    simp only [if_true] at h
    obtain ⟨hval, -⟩ := Prog.run_abstracts CCoinsViewCache.handler_abstracts
      (acceptInputs env ctx tx fLimitFree)
      (.new (⟨pcoinsTip, pool.mapTx⟩ : CCoinsViewMemPool (CCoinsViewCache σ)))
    rw [CCoinsViewCache.contents_new] at hval
    generalize (acceptInputs env ctx tx fLimitFree).run CCoinsViewCache.handler
      (.new (⟨pcoinsTip, pool.mapTx⟩ : CCoinsViewMemPool (CCoinsViewCache σ))) = result at h hval
    match hresult : result.1 with
    | .error e =>
      rw [hresult] at h
      cases h
    | .ok false =>
      rw [hresult] at h
      cases h
    | .ok true =>
      rw [hresult] at hval
      have hok := Prod.ext (y := (Except.ok true, _)) hval.symm rfl
      exact fun txin hmem => available_of_view
        (acceptInputs_ok (acceptLoose_ok hloose).not_coinBase hok txin hmem)

end CTxMemPool

/-! ### The loops of `SetBestChain` over the pool -/

section Loops

open CTxMemPool

variable {env : Env} {T : Set CTransaction} {u u' : Utxo} {missing : COutPoint → Prop}

/-- A round of the first loop: the transaction is in the pool then, or nothing there spends its
outputs. -/
theorem resurrect_availableBut (ctx : AcceptContext) (hhash : Hashed env T) {state : PoolState}
    {tx : CTransaction} (hT : tx ∈ T) (hindexed : state.pool.Indexed env T)
    (h : state.pool.AvailableBut state.pcoinsTip.contents.utxo missing) :
    (resurrect env ctx state tx).pool.Indexed env T ∧
      (resurrect env ctx state tx).pool.AvailableBut state.pcoinsTip.contents.utxo fun out =>
        missing out ∧ ¬ OutputOf env tx out := by
  unfold resurrect
  dsimp only
  rcases CTxMemPool.accept_pool env ctx tx true false state.pcoinsTip state.pool with
    ⟨⟨e, he⟩, hpool⟩ | ⟨hok, hloose, hpool⟩
  · rw [he]
    dsimp only
    rw [hpool]
    have hremoved := remove_spec hhash hT hindexed
    refine ⟨hremoved.indexed, fun hash child hlookup txin hmem => ?_⟩
    refine (h.removed hindexed hremoved.toRemoved hash child hlookup txin hmem).imp_right
      fun hmissing => ⟨hmissing, fun hout => ?_⟩
    exact hremoved.unspent hash child hlookup ⟨txin, hmem, hout⟩
  · have hinputs := accept_available hok
    rw [hok]
    dsimp only
    rw [hpool]
    exact ⟨hindexed.addUnchecked hloose hT, h.addUnchecked hloose.fresh hinputs⟩

theorem resurrect_pcoinsTip (env : Env) (ctx : AcceptContext) (state : PoolState) (tx : CTransaction) :
    (resurrect env ctx state tx).pcoinsTip.contents = state.pcoinsTip.contents :=
  foldl_resurrect_pcoinsTip env ctx [tx] state

/-- **The first loop**: no input of the pool is missing for a transaction that was queued. -/
theorem foldl_resurrect (ctx : AcceptContext) (hhash : Hashed env T)
    {vResurrect : List CTransaction} (state : PoolState) (hT : ∀ tx ∈ vResurrect, tx ∈ T)
    (hindexed : state.pool.Indexed env T)
    (h : state.pool.AvailableBut state.pcoinsTip.contents.utxo missing) :
    (vResurrect.foldl (resurrect env ctx) state).pool.Indexed env T ∧
      (vResurrect.foldl (resurrect env ctx) state).pool.AvailableBut state.pcoinsTip.contents.utxo
        fun out => missing out ∧ ∀ tx ∈ vResurrect, ¬ OutputOf env tx out := by
  induction vResurrect generalizing state missing with
  | nil => exact ⟨hindexed, h.mono fun out hout => ⟨hout, fun tx hmem => absurd hmem List.not_mem_nil⟩⟩
  | cons tx vResurrect ih =>
    rw [List.forall_mem_cons] at hT
    obtain ⟨hindexed₁, h₁⟩ := resurrect_availableBut ctx hhash hT.1 hindexed h
    rw [← resurrect_pcoinsTip env ctx state tx] at h₁
    obtain ⟨hindexed', h'⟩ := ih _ hT.2 hindexed₁ h₁
    rw [resurrect_pcoinsTip] at h'
    refine ⟨hindexed', h'.mono fun out hout => ⟨hout.1.1, ?_⟩⟩
    rw [List.forall_mem_cons]
    exact ⟨hout.1.2, hout.2⟩

/-- A round of the second loop: what the pool loses with the connected transaction is unspent, or
spent by a later one. -/
theorem deleteConnected_availableBut (hhash : Hashed env T) {pool : CTxMemPool} {tx : CTransaction}
    {vDelete : List CTransaction} (hT : tx ∈ T) (hindexed : pool.Indexed env T)
    (happlies : Applies env u (tx :: vDelete) u') (h : pool.AvailableBut u' (SpentBy (tx :: vDelete))) :
    (deleteConnected env pool tx).Indexed env T ∧
      (deleteConnected env pool tx).AvailableBut u' (SpentBy vDelete) := by
  have hsingle : (pool.remove env tx false).Indexed env T := hindexed.removeSingle hhash hT
  obtain ⟨hremoved, hspender⟩ :
      Removed env T (pool.remove env tx false) (deleteConnected env pool tx) ∧ _ :=
    removeConflicts_spec hhash hsingle
  -- Without the transaction itself.
  have h₁ : (pool.remove env tx false).AvailableBut u' (SpentBy (tx :: vDelete)) := by
    intro hash child hlookup txin hmem
    have hold := removeSingle_sub env tx pool _ _ hlookup
    rcases h hash child hold txin hmem with (hsome | ⟨parent, hparent, hlt⟩) | hspent
    · exact .inl (.inl hsome)
    · by_cases heq : txin.prevout.hash = env.txHash tx
      · have hsame : parent = tx := hhash.injective _ (hindexed.hash hparent).2 _ hT
          ((hindexed.hash hparent).1.trans heq)
        subst hsame
        rcases happlies.created_head ⟨heq, hlt⟩ with hsome | hspent
        · exact .inl (.inl hsome)
        · exact .inr hspent.tail
      · refine .inl (.inr ⟨parent, ?_, hlt⟩)
        exact (removeSingle_mapTx env tx pool _).trans ((if_neg heq).trans hparent)
    · exact .inr hspent
  refine ⟨hremoved.indexed, fun hash child hlookup txin hmem => ?_⟩
  refine (h₁.removed hsingle hremoved hash child hlookup txin hmem).imp_right ?_
  rintro ⟨tx', htx', hin⟩
  rcases List.mem_cons.mp htx' with rfl | htx'
  · -- Whatever shares an input with the transaction is the transaction, which is gone.
    obtain ⟨txin', hmem', heq⟩ := List.mem_map.mp hin
    obtain rfl := hspender hash child hlookup txin' hmem'
      (heq ▸ List.mem_map_of_mem hmem)
    have hsub := hremoved.sub _ _ hlookup
    have hgone := removeSingle_mapTx env child pool hash
    rw [show pool.removeSingle env child = pool.remove env child false from rfl, hsub,
      if_pos (hsingle.hash hsub).1.symm] at hgone
    cases hgone
  · exact ⟨tx', htx', hin⟩

/-- **The second loop**: no input of the pool is missing because a connected transaction spent it. -/
theorem foldl_deleteConnected (hhash : Hashed env T) {pool : CTxMemPool} {vDelete : List CTransaction}
    (hT : ∀ tx ∈ vDelete, tx ∈ T) (hindexed : pool.Indexed env T) (happlies : Applies env u vDelete u')
    (h : pool.AvailableBut u' (SpentBy vDelete)) : (vDelete.foldl (deleteConnected env) pool).Indexed env T ∧
      (vDelete.foldl (deleteConnected env) pool).Connected u' := by
  induction vDelete generalizing pool u with
  | nil =>
    refine ⟨hindexed, (h.mono ?_).connected⟩
    rintro out ⟨tx, hmem, -⟩
    cases hmem
  | cons tx vDelete ih =>
    rw [List.forall_mem_cons] at hT
    obtain ⟨hindexed₁, h₁⟩ := deleteConnected_availableBut hhash hT.1 hindexed happlies h
    cases happlies with
    | cons _ _ hrest => exact ih hT.2 hindexed₁ hrest h₁

end Loops

/-! ### A reorganisation -/

section Reorganisation

variable {env : Env} {T : Set CTransaction} {out : Outside} {connectBest : Node → Call Unit}
  {pindexNew : Uint256} {node node' : Node}

/-- No pool transaction spends an output of a disconnected transaction that is not queued, unless a
connected block contains that transaction as well or spends the output too. -/
def Node.QueuedForPool (env : Env) (pindexNew : Uint256) (node : Node) : Prop :=
  ∀ pfork, node.mapBlockIndex.findFork node.pindexTip (some pindexNew) = some pfork →
    ∀ pindex tx, DisconnectedTx node.mapBlockIndex node.disk.blocks
        (node.mapBlockIndex.above node.pindexTip pfork) pindex tx → ¬ Queued pindex tx →
      ∀ hash child, node.mempool.mapTx.lookup hash = some child → ∀ txin ∈ child.vin,
        OutputOf env tx txin.prevout →
          ∃ tx', ConnectedTx node.disk.blocks (node.vConnect pindexNew pfork) tx' ∧
            (tx' = tx ∨ txin.prevout ∈ tx'.vin.map (·.prevout))

/-- The transactions of the block files. -/
def Node.Stored (T : Set CTransaction) (node : Node) : Prop :=
  ∀ hash block, node.disk.blocks hash = some block → ∀ tx ∈ block.vtx, tx ∈ T

theorem writeCoins_accept_spec {l' : Ledger (CCoinsViewCache CCoinsViewDB)} {node₁ : Node}
    (hkeeps : l'.Keeps node.ledger) (hcoins : (node.accept l').writeCoins out pindexNew = (.ok (), node₁)) :
    node₁.pcoinsTip.contents.utxo = l'.view.contents.utxo ∧ node₁.mempool = node.mempool := by
  have hinto := CCoinsViewCache.contents_flushInto (hkeeps.tipRead node.ledger_spec.2)
  rcases Node.writeCoins_spec out pindexNew (node.accept l') with ⟨e, heq, -⟩ | ⟨pcoinsTip, heq, hcases⟩
  · rw [heq] at hcoins
    cases congrArg Prod.fst hcoins
  · rw [heq, Prod.mk.injEq] at hcoins
    rw [← hcoins.2]
    refine ⟨?_, rfl⟩
    rcases hcases with rfl | rfl
    · exact congrArg CoinsMap.utxo hinto
    · exact ((CCoinsViewCache.viewEq_flush _).1).trans (congrArg CoinsMap.utxo hinto)

/-- What the pool lacks when the coins are switched: outputs of queued transactions, and outputs
that connected transactions spent. -/
theorem Disconnected.availableBut {pfork : Option Uint256} {vResurrect vDelete : List CTransaction}
    {l l' : Ledger (CCoinsViewCache CCoinsViewDB)} (hcoherent : node.Coherent)
    (hbest : node.pindexBest ≠ none) (hroot : GenesisRoot env node.mapBlockIndex)
    (hqueued : node.QueuedForPool env pindexNew)
    (hconnected : node.mempool.Connected node.pcoinsTip.contents.utxo)
    (hdisconnected : Disconnected env out pindexNew node pfork vResurrect l)
    (hconnect : connectBlocks env out.io out.nAdjustedTime (node.vConnect pindexNew pfork) l =
      (.ok vDelete, l')) :
    Applies env l.view.contents.utxo vDelete l'.view.contents.utxo ∧
      node.mempool.AvailableBut l'.view.contents.utxo fun out =>
        (∃ tx ∈ vResurrect, OutputOf env tx out) ∨ SpentBy vDelete out := by
  obtain ⟨-, htree, hdisk⟩ := hdisconnected.keeps
  have hledger : node.ledger.view.contents.best ≠ none := by
    rw [node.ledger_spec.1, hcoherent.tip]
    exact hbest
  obtain ⟨hbest', -, hlost⟩ := disconnectBlocks_lost hledger hdisconnected.run
  have happlies := connectBlocks_applies (htree ▸ hroot) hbest' hconnect
  refine ⟨happlies, fun hash child hlookup txin hmem => ?_⟩
  rcases hconnected hash child hlookup txin hmem with hsome | hparent
  · rw [← node.ledger_spec.1] at hsome
    rcases hlost _ hsome with hkept | ⟨pindex, tx, htx, hout, hresurrect⟩
    · exact (happlies.kept hkept).imp .inl .inr
    · by_cases hmem' : tx ∈ vResurrect
      · exact .inr (.inl ⟨tx, hmem', hout⟩)
      · obtain ⟨tx', hconnected', hcase⟩ := hqueued pfork hdisconnected.fork pindex tx htx
          (hresurrect.resolve_left hmem') hash child hlookup txin hmem hout
        rw [← hdisk, ← connectBlocks_vDelete hconnect] at hconnected'
        rcases hcase with rfl | hspends
        · exact (happlies.created hconnected' hout).imp .inl .inr
        · exact .inr (.inr ⟨tx', hconnected', hspends⟩)
  · exact .inl (.inr hparent)

/-- **A call of `SetBestChain` keeps the inputs of the pool available**, whether it succeeds or
not. -/
theorem setBestChain_connected (hhash : Hashed env T) (hcoherent : node.Coherent)
    (hbest : node.pindexBest ≠ none) (hroot : GenesisRoot env node.mapBlockIndex)
    (hstored : node.Stored T) (hindexed : node.mempool.Indexed env T)
    (hconnected : node.mempool.Connected node.pcoinsTip.contents.utxo)
    (hwritten : out.fDiskSpace pindexNew = true ∧ out.fCoinFlush pindexNew = true)
    (hqueued : node.QueuedForPool env pindexNew) {outcome : Except ChainError Unit}
    (hrun : setBestChain env out connectBest pindexNew node = .ok (outcome, node')) :
    node'.mempool.Indexed env T ∧ node'.mempool.Connected node'.pcoinsTip.contents.utxo := by
  cases outcome with
  | error e =>
    have hsame := setBestChain_error hcoherent hrun
      (Node.writeCoins_ne_error_of_space hwritten.1 hwritten.2)
    rw [hsame.mempool, hsame.coins]
    exact ⟨hindexed, hconnected⟩
  | ok _ =>
    have hsteps := setBestChain_steps env out connectBest pindexNew node
    rw [hrun] at hsteps
    generalize hresult : (Except.ok (Except.ok (), node') : Call Unit) = result at hsteps
    cases hsteps with
    | @done pfork vResurrect vDelete l l' node₁ hdisconnected hconnect hcoins =>
      cases hresult
      obtain ⟨happlies, hbut⟩ := hdisconnected.availableBut hcoherent hbest hroot hqueued
        hconnected hconnect
      obtain ⟨hutxo, hpool⟩ := writeCoins_accept_spec (hdisconnected.connect_keeps hconnect) hcoins
      have hledger : node.ledger.view.contents.best ≠ none := by
        rw [node.ledger_spec.1, hcoherent.tip]
        exact hbest
      have hresurrectT : ∀ tx ∈ vResurrect, tx ∈ T := by
        intro tx hmem
        obtain ⟨pindex, hash, -, -, block, hblock, htx⟩ :=
          (disconnectBlocks_lost hledger hdisconnected.run).2.1 tx hmem
        exact hstored hash block hblock tx htx
      have hdeleteT : ∀ tx ∈ vDelete, tx ∈ T := by
        intro tx hmem
        obtain ⟨hash, -, block, hblock, htx⟩ := (connectBlocks_vDelete hconnect tx).mp hmem
        rw [hdisconnected.keeps.2.2] at hblock
        exact hstored hash block hblock tx htx
      rw [← hutxo] at happlies hbut
      rw [← hpool] at hbut hindexed
      obtain ⟨hindexed₁, h₁⟩ := foldl_resurrect (node₁.acceptContext out.nAdjustedTime
          ((node.vConnect pindexNew pfork).foldl BlockTree.linkNext
            ((node.mapBlockIndex.above node.pindexTip pfork).foldl BlockTree.unlinkNext
              node₁.mapBlockIndex)))
        hhash ⟨node₁.pcoinsTip, node₁.mempool⟩ hresurrectT hindexed hbut
      obtain ⟨hindexed₂, h₂⟩ := foldl_deleteConnected hhash hdeleteT hindexed₁ happlies
        (h₁.mono fun out hout => hout.1.resolve_left fun ⟨tx, hmem, houtput⟩ =>
          hout.2 tx hmem houtput)
      refine ⟨⟨hindexed₂.hash, hindexed₂.next⟩, ?_⟩
      unfold Node.switchTo
      dsimp only
      rw [foldl_resurrect_pcoinsTip]
      exact h₂
    | _ => cases hresult

end Reorganisation

end Manna
