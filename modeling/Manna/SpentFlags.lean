import Manna.PoolIndex
import Manna.Wallet

/-!
The spent flags of wallet transactions (`wallet.cpp`: `AddToWallet`, `WalletUpdateSpent`,
`CommitTransaction`; `main.cpp`: `SyncWithWallets`, `SetBestChain`, `CTxMemPool`).

A flag is set in the record of a transaction when one that spends the output is seen, and no function
of the build clears one. When the spender is gone again, the coin is stuck.

* `Event.apply`: what happens to the chain, the memory pool and the wallet;
* `FlagsFollow`: what is asked of the flags;
* `Event.Lost`: what a reorganisation takes out of the pool;
* `Clean`: no last spender is lost, and no parent comes after its child;
* `flagsFollow_of_run`: along runs of clean events the flags follow the chain.
-/

namespace Manna

namespace Wallet

namespace SpentFlags

/-- What a call of the wallet finds outside: the chain, and the keys of the key pool. -/
structure Outside where
  chain : ChainView
  newKeys : List NewKey

/-- A call of `SyncWithWallets`. -/
structure Sync where
  tx : CTransaction
  place : Option BlockPlace
  outside : Outside

/-- A call into the wallet; what `CommitTransaction` is given has no flags set. -/
inductive Notice where
  | sync (call : Sync)
  | commit (wtxNew : CWalletTx) (fresh : wtxNew.vfSpent = []) (outside : Outside)

def Notice.tx : Notice → CTransaction
  | .sync call => call.tx
  | .commit wtxNew _ _ => wtxNew.toCTransaction

def Notice.outside : Notice → Outside
  | .sync call => call.outside
  | .commit _ _ outside => outside

/-- "Mark old coins as spent"; `none` where `MarkSpent` throws, as it does for a transaction that
`mapWallet[]` creates without outputs. -/
def markCoins : List CTxIn → CWallet → Option CWallet
  | [], w => some w
  | txin :: vin, w =>
    match w.mapWallet.lookup txin.prevout.hash with
    | none => none
    | some coin =>
      match coin.markDirty.markSpent txin.prevout.n with
      | none => none
      | some coin =>
        markCoins vin { w with mapWallet := w.mapWallet.insert txin.prevout.hash coin }

def notify (env : WalletEnv) (w : CWallet) : Notice → Option CWallet
  | .sync call =>
    match w.addToWalletIfInvolvingMe env call.outside.chain call.outside.newKeys call.place call.tx
      true with
    | (true, w) => some w
    | (false, _) => none
  | .commit wtxNew _ outside =>
    match w.addToWallet env outside.chain outside.newKeys wtxNew with
    | (true, w) => markCoins wtxNew.vin w
    | (false, _) => none

/-- Calls one after the other. -/
def notifyAll (env : WalletEnv) : List Notice → CWallet → Option CWallet
  | [], w => some w
  | n :: notices, w => (notify env w n).bind (notifyAll env notices)

/-! ### Events -/

/-- The active chain after the genesis block, block by block, the memory pool and the wallet. -/
structure NodeState where
  vBlocks : List (List CTransaction)
  mempool : CTxMemPool
  wallet : CWallet

/-- **What happens**: a transaction is accepted; the wallet commits one, which is accepted or not; the
chain is reorganised, and what was disconnected is accepted again or not; or a reorganisation fails
after some blocks were connected. -/
inductive Event where
  | acceptToMemoryPool (tx : CTransaction) (accepted : Option Outside)
  | commitTransaction (wtxNew : CWalletTx) (fresh : wtxNew.vfSpent = []) (outside : Outside)
    (accepted : Option Outside)
  | setBestChain (nKeep nBlocksEstimate : Nat) (vConnect : List (List Sync))
    (accepts : CTransaction → Option Outside)
  | setBestChainFails (vConnected : List Sync)

section Events

variable (env : Env) (s : NodeState)

/-- "Queue memory transactions to resurrect": of the blocks above the last checkpoint, the last block
first. -/
def vResurrect (nKeep nBlocksEstimate : Nat) : List CTransaction :=
  (((s.vBlocks.zipIdx 1).drop nKeep).reverse.filter fun block => block.2 > nBlocksEstimate).flatMap
    fun block => block.1.filter fun tx => !tx.isGenerated

/-- What `AcceptToMemoryPool` asks of the pool: the transaction is well formed, new to it, and spends
nothing that is spent in it. -/
def loose (mempool : CTxMemPool) (tx : CTransaction) : Bool :=
  (checkTransaction tx).toOption.isSome && !tx.isCoinBase &&
    (mempool.mapTx.lookup (env.txHash tx)).isNone &&
      tx.vin.all fun txin => (mempool.mapNextTx.lookup txin.prevout).isNone

/-- `AcceptToMemoryPool`, whose other checks are given with their answers. -/
def answer (accepts : CTransaction → Option Outside) (mempool : CTxMemPool) (tx : CTransaction) :
    Option Outside :=
  if loose env mempool tx then accepts tx else none

/-- "Resurrect memory transactions that were in the disconnected branch": the answers and the pool. -/
def resurrect (accepts : CTransaction → Option Outside) :
    List CTransaction → CTxMemPool → List (CTransaction × Option Outside) × CTxMemPool
  | [], mempool => ([], mempool)
  | tx :: txs, mempool =>
    let result := resurrect accepts txs
      (match answer env accepts mempool tx with
        | some _ => mempool.addUnchecked (env.txHash tx) tx
        | none => mempool.remove env tx true)
    ((tx, answer env accepts mempool tx) :: result.1, result.2)

/-- "Delete redundant memory transactions that are in the connected branch". -/
def deleteRedundant (mempool : CTxMemPool) (vDelete : List CTransaction) : CTxMemPool :=
  vDelete.foldl (fun mempool tx => (mempool.remove env tx false).removeConflicts env tx) mempool

/-- The transactions of the blocks that are connected. -/
def Event.connected : Event → List CTransaction
  | .setBestChain _ _ vConnect _ => vConnect.flatten.map Sync.tx
  | _ => []

/-- What was resurrected or not. -/
def Event.resurrected : Event → List (CTransaction × Option Outside)
  | .setBestChain nKeep nBlocksEstimate _ accepts =>
    (resurrect env accepts (vResurrect s nKeep nBlocksEstimate) s.mempool).1
  | _ => []

/-- The answers of `AcceptToMemoryPool`. -/
def Event.answers : Event → List (CTransaction × Option Outside)
  | .acceptToMemoryPool tx accepted => [(tx, answer env (fun _ => accepted) s.mempool tx)]
  | .commitTransaction wtxNew _ _ accepted =>
    [(wtxNew.toCTransaction, answer env (fun _ => accepted) s.mempool wtxNew.toCTransaction)]
  | e => e.resurrected env s

/-- What is accepted is passed to the wallet. -/
def Event.accepted (e : Event) : List Sync :=
  (e.answers env s).filterMap fun entry => entry.2.map fun outside => ⟨entry.1, none, outside⟩

def Event.notices (e : Event) : List Notice :=
  (match e with
    | .acceptToMemoryPool _ _ => []
    | .commitTransaction wtxNew fresh outside _ => [.commit wtxNew fresh outside]
    | .setBestChain _ _ vConnect _ => vConnect.flatten.map .sync
    | .setBestChainFails vConnected => vConnected.map .sync) ++ (e.accepted env s).map .sync

def Event.vBlocks : Event → List (List CTransaction)
  | .setBestChain nKeep _ vConnect _ =>
    s.vBlocks.take nKeep ++ vConnect.map fun block => block.map Sync.tx
  | _ => s.vBlocks

def Event.mempool : Event → CTxMemPool
  | .setBestChain nKeep nBlocksEstimate vConnect accepts =>
    deleteRedundant env (resurrect env accepts (vResurrect s nKeep nBlocksEstimate) s.mempool).2
      (vConnect.flatten.map Sync.tx)
  | e => (e.accepted env s).foldl
      (fun mempool call => mempool.addUnchecked (env.txHash call.tx) call.tx) s.mempool

/-- An event; `none` where a call into the wallet throws. -/
def Event.apply (wenv : WalletEnv) (e : Event) : Option NodeState :=
  (notifyAll wenv (e.notices env s) s.wallet).map fun wallet => ⟨e.vBlocks s, e.mempool env s, wallet⟩

end Events

/-- The transaction that the wallet has under a hash. -/
def txAt (w : CWallet) (hash : Uint256) : Option CTransaction :=
  (w.mapWallet.lookup hash).map fun wtx => wtx.toCTransaction

def spentFlag (w : CWallet) (o : COutPoint) : Bool :=
  match w.mapWallet.lookup o.hash with
  | none => false
  | some wtx => decide (o.n < wtx.vout.length) && wtx.isSpent o.n

/-- An own output of a wallet transaction. -/
def Own (w : CWallet) (o : COutPoint) : Prop :=
  ∃ tx txout, txAt w o.hash = some tx ∧ tx.vout[o.n]? = some txout ∧
    w.keystore.isMine txout.scriptPubKey = true

/-- A transaction spends an output. -/
def Spends (tx : CTransaction) (o : COutPoint) : Prop := o ∈ tx.vin.map CTxIn.prevout

instance (tx : CTransaction) (o : COutPoint) : Decidable (Spends tx o) :=
  inferInstanceAs (Decidable (o ∈ _))

section Spec

variable (env : Env) (s : NodeState)

/-- The transactions of the active chain, in order. -/
def NodeState.chainTxs : List CTransaction := s.vBlocks.flatten

/-- A transaction of the memory pool. -/
def NodeState.InPool (tx : CTransaction) : Prop := s.mempool.Holds tx

/-- A transaction takes its inputs out of the UTXO set and puts its outputs in. -/
def stepUtxo (o : COutPoint) (unspent : Bool) (tx : CTransaction) : Bool :=
  (unspent && decide (¬ Spends tx o)) ||
    (o.hash == env.txHash tx && decide (o.n < tx.vout.length))

/-- **The UTXO set** of a chain. -/
def chainUtxo (txs : List CTransaction) (o : COutPoint) : Bool := txs.foldl (stepUtxo env o) false

def NodeState.utxo (o : COutPoint) : Bool := chainUtxo env s.chainTxs o

/-- An output was spent by a transaction of the active chain, and was not created again. -/
def NodeState.SpentByChain (o : COutPoint) : Prop :=
  (∃ tx ∈ s.chainTxs, Spends tx o) ∧ s.utxo env o = false

/-- A transaction of the memory pool spends an output. -/
def NodeState.SpentByPool (o : COutPoint) : Prop := ∃ tx, s.InPool tx ∧ Spends tx o

/-- An input of a transaction is still available: it is in the UTXO set, or an output of a transaction
of the memory pool, and no other transaction of the memory pool spends it. -/
def NodeState.Available (tx : CTransaction) (o : COutPoint) : Prop :=
  (s.utxo env o = true ∨
    ∃ parent, s.InPool parent ∧ env.txHash parent = o.hash ∧ o.n < parent.vout.length) ∧
    ∀ other, s.InPool other → Spends other o → other = tx

/-- A wallet transaction whose inputs are all still available spends an output. -/
def NodeState.SpentByWallet (o : COutPoint) : Prop :=
  ∃ hash tx, txAt s.wallet hash = some tx ∧ Spends tx o ∧
    ∀ txin ∈ tx.vin, s.Available env tx txin.prevout

/-- **The spent flags follow the chain.** -/
structure FlagsFollow : Prop where
  unspent : ∀ o, Own s.wallet o → s.utxo env o = true → ¬ s.SpentByPool o →
    ¬ s.SpentByWallet env o → spentFlag s.wallet o = false
  spent : ∀ o, Own s.wallet o → s.SpentByChain env o ∨ s.SpentByPool o → spentFlag s.wallet o = true

/-- An output is spent by something. -/
def NodeState.Covered (o : COutPoint) : Prop :=
  s.SpentByChain env o ∨ s.SpentByPool o ∨ s.SpentByWallet env o

end Spec

/-! ### What a call does to the flags -/

section Calls

variable {env : WalletEnv} {w w' w'' : CWallet} {vin : List CTxIn}

/-- **Flags are set**: the transactions and the keys stay, and the flags that are new are of outputs
that the inputs spend. -/
structure Marks (w w' : CWallet) (vin : List CTxIn) : Prop where
  keystore : w'.keystore = w.keystore
  txAt : ∀ hash, txAt w' hash = txAt w hash
  kept : ∀ o, spentFlag w o = true → spentFlag w' o = true
  cause : ∀ o, spentFlag w' o = true → spentFlag w o = true ∨ o ∈ vin.map CTxIn.prevout

theorem Marks.refl (w : CWallet) (vin : List CTxIn) : Marks w w vin :=
  ⟨rfl, fun _ => rfl, fun _ => id, fun _ => .inl⟩

theorem Marks.cons {txin : CTxIn} (h : Marks w w' [txin]) (h' : Marks w' w'' vin) :
    Marks w w'' (txin :: vin) where
  keystore := h'.keystore.trans h.keystore
  txAt hash := (h'.txAt hash).trans (h.txAt hash)
  kept o ho := h'.kept o (h.kept o ho)
  cause o ho := by
    rcases h'.cause o ho with ho | hmem
    · rcases h.cause o ho with ho | hmem
      · exact .inl ho
      · exact .inr (List.mem_cons.mpr (.inl (List.mem_singleton.mp hmem)))
    · exact .inr (List.mem_cons_of_mem _ hmem)

/-- The outputs that are the wallet's own depend on its transactions and keys. -/
theorem own_congr (hkeys : w'.keystore = w.keystore) (htx : ∀ hash, txAt w' hash = txAt w hash)
    {o : COutPoint} : Own w' o ↔ Own w o := by
  unfold Own
  rw [hkeys, htx]

theorem txAt_insert (w : CWallet) (hash hash' : Uint256) (wtx : CWalletTx) :
    txAt { w with mapWallet := w.mapWallet.insert hash wtx } hash' =
      if hash' = hash then some wtx.toCTransaction else txAt w hash' := by
  unfold txAt
  split_ifs with heq
  · rw [heq, Finmap.lookup_insert]
    rfl
  · rw [Finmap.lookup_insert_of_ne _ heq]

theorem spentFlag_insert (w : CWallet) (hash : Uint256) (wtx : CWalletTx) (o : COutPoint) :
    spentFlag { w with mapWallet := w.mapWallet.insert hash wtx } o =
      if o.hash = hash then decide (o.n < wtx.vout.length) && wtx.isSpent o.n
      else spentFlag w o := by
  unfold spentFlag
  split_ifs with heq
  · rw [heq, Finmap.lookup_insert]
  · rw [Finmap.lookup_insert_of_ne _ heq]

/-- **An output is marked.** -/
theorem marks_setSpent (wtx' : CWalletTx) {txin : CTxIn} {wtx : CWalletTx}
    (hlookup : w.mapWallet.lookup txin.prevout.hash = some wtx)
    (htx : wtx'.toCTransaction = wtx.toCTransaction) (hspent : wtx'.vfSpent = wtx.vfSpent)
    (hn : txin.prevout.n < wtx.vout.length) :
    Marks w { w with
      mapWallet := w.mapWallet.insert txin.prevout.hash (wtx'.setSpent txin.prevout.n true) } [txin] ∧
    spentFlag { w with
      mapWallet := w.mapWallet.insert txin.prevout.hash (wtx'.setSpent txin.prevout.n true) }
      txin.prevout = true := by
  have hvout : wtx'.vout = wtx.vout := congrArg CTransaction.vout htx
  have hvout' : (wtx'.setSpent txin.prevout.n true).vout = wtx.vout :=
    (congrArg CTransaction.vout (wtx'.toCTransaction_setSpent _ true)).trans hvout
  have hold : ∀ {o : COutPoint}, o.hash = txin.prevout.hash →
      spentFlag w o = (decide (o.n < wtx.vout.length) && wtx.isSpent o.n) := by
    intro o heq
    unfold spentFlag
    rw [heq, hlookup]
  have hflag : ∀ {i : Nat}, i < wtx.vout.length → (wtx'.setSpent txin.prevout.n true).isSpent i =
      if i = txin.prevout.n then true else wtx.isSpent i := by
    intro i hi
    rw [wtx'.isSpent_setSpent true (by rwa [hvout])]
    unfold CWalletTx.isSpent
    rw [hspent]
  refine ⟨⟨rfl, fun hash => ?_, fun o ho => ?_, fun o ho => ?_⟩, ?_⟩
  · rw [txAt_insert, wtx'.toCTransaction_setSpent, htx]
    split_ifs with heq
    · unfold txAt
      rw [heq, hlookup]
      rfl
    · rfl
  · rw [spentFlag_insert]
    split_ifs with heq
    · rw [hold heq, Bool.and_eq_true, decide_eq_true_eq] at ho
      rw [hvout', hflag ho.1, decide_eq_true ho.1, Bool.true_and]
      split_ifs
      · rfl
      · exact ho.2
    · exact ho
  · rw [spentFlag_insert] at ho
    split_ifs at ho with heq
    · rw [hvout', Bool.and_eq_true, decide_eq_true_eq] at ho
      obtain ⟨hlt, hset⟩ := ho
      rw [hflag hlt] at hset
      by_cases hsame : o.n = txin.prevout.n
      · have hout : o = txin.prevout := by
          cases o
          exact congrArg₂ COutPoint.mk heq hsame
        exact .inr (List.mem_singleton.mpr hout)
      · rw [if_neg hsame] at hset
        rw [hold heq, hset, decide_eq_true hlt]
        exact .inl rfl
    · exact .inl ho
  · rw [spentFlag_insert, if_pos rfl, hvout', hflag hn, if_pos rfl, decide_eq_true hn]
    rfl

/-- **`WalletUpdateSpent`** marks the own outputs that the inputs spend. -/
theorem walletUpdateSpent_spec {chain : ChainView}
    (h : CWallet.walletUpdateSpent env chain vin w = (true, w')) :
    Marks w w' vin ∧ ∀ txin ∈ vin, Own w txin.prevout → spentFlag w' txin.prevout = true := by
  induction vin generalizing w with
  | nil =>
    cases h
    exact ⟨.refl _ [], fun _ hin => nomatch hin⟩
  | cons txin vin ih =>
    have hround : ∀ w₁, w.updateSpentBy env chain txin = some w₁ →
        Marks w w₁ [txin] ∧ (Own w txin.prevout → spentFlag w₁ txin.prevout = true) := by
      intro w₁ hw₁
      unfold CWallet.updateSpentBy at hw₁
      cases hlookup : w.mapWallet.lookup txin.prevout.hash with
      | none =>
        rw [hlookup] at hw₁
        cases hw₁
        refine ⟨.refl w _, ?_⟩
        rintro ⟨tx, -, htx, -⟩
        unfold txAt at htx
        rw [hlookup] at htx
        cases htx
      | some wtx =>
        have htx : ∀ {tx}, txAt w txin.prevout.hash = some tx → tx = wtx.toCTransaction := by
          intro tx htx
          unfold txAt at htx
          rw [hlookup] at htx
          exact (Option.some.inj htx).symm
        rw [hlookup] at hw₁
        dsimp only at hw₁
        cases hout : wtx.vout[txin.prevout.n]? with
        | none =>
          rw [hout] at hw₁
          cases hw₁
          refine ⟨.refl w _, ?_⟩
          rintro ⟨tx, txout, hat, hout', -⟩
          rw [htx hat] at hout'
          cases hout.symm.trans hout'
        | some txout =>
          have hn : txin.prevout.n < wtx.vout.length := (List.getElem?_eq_some_iff.mp hout).1
          rw [hout] at hw₁
          dsimp only at hw₁
          split_ifs at hw₁ with hmark
          · obtain ⟨n, -, rfl⟩ := Option.map_eq_some_iff.mp hw₁
            obtain ⟨cached, heq⟩ := wtx.getCached_fields env w chain true .credit
            have hcredit : (wtx.getCredit env w chain true).2 = { wtx with cached } := heq
            rw [hcredit]
            have hspec := marks_setSpent { wtx with cached } hlookup rfl rfl hn
            exact ⟨hspec.1, fun _ => hspec.2⟩
          · cases hw₁
            refine ⟨.refl w _, ?_⟩
            rintro ⟨tx, txout', hat, hout', hmine⟩
            rw [htx hat, hout] at hout'
            cases hout'
            have hspent : wtx.isSpent txin.prevout.n = true := by
              by_contra hunspent
              exact hmark ⟨by simpa using hunspent, hmine⟩
            unfold spentFlag
            rw [hlookup]
            dsimp only
            rw [hspent, decide_eq_true hn]
            rfl
    unfold CWallet.walletUpdateSpent at h
    split at h
    · cases h
    · next w₁ hw₁ =>
        obtain ⟨hmarks, hfirst⟩ := hround w₁ hw₁
        obtain ⟨hrest, hlater⟩ := ih h
        refine ⟨hmarks.cons hrest, fun txin' hin hown => ?_⟩
        rcases List.mem_cons.mp hin with rfl | hin
        · exact hrest.kept _ (hfirst hown)
        · exact hlater txin' hin ((own_congr hmarks.keystore hmarks.txAt).mpr hown)

theorem markCoins_spec (h : markCoins vin w = some w') : Marks w w' vin := by
  induction vin generalizing w with
  | nil =>
    cases h
    exact .refl _ []
  | cons txin vin ih =>
    unfold markCoins at h
    split at h
    · cases h
    · next coin hlookup =>
        split at h
        · cases h
        · next coin' hcoin =>
            unfold CWalletTx.markSpent at hcoin
            split_ifs at hcoin with hlt
            cases hcoin
            have hmarks := marks_setSpent coin.markDirty hlookup rfl rfl
              (Nat.lt_of_not_le hlt)
            exact hmarks.1.cons (ih h)

end Calls

/-! ### What is taken for granted of a call -/

/-- **Proper calls**: no other transaction has the hash, and nobody has paid yet to a key that was just
generated. -/
structure Proper (env : WalletEnv) (w : CWallet) (n : Notice) : Prop where
  hash : ∀ tx, txAt w (env.txHash n.tx) = some tx → tx = n.tx
  keys : ∀ key ∈ n.outside.newKeys, ∀ tx, (∃ hash, txAt w hash = some tx) ∨ tx = n.tx →
    ∀ txout ∈ tx.vout,
      key.keystore.isMine txout.scriptPubKey = w.keystore.isMine txout.scriptPubKey

/-- **What a call does**: the transactions stay; the keys do, or a new one is added; an own output was
one before, or is of the transaction, which is new; flags stay, flags that are new are of outputs that
it spends, and those are marked. -/
structure Notified (env : WalletEnv) (w w' : CWallet) (newKeys : List NewKey) (tx : CTransaction) :
    Prop where
  stays : ∀ hash tx', txAt w hash = some tx' → txAt w' hash = some tx'
  keystore : w'.keystore = w.keystore ∨ ∃ key ∈ newKeys, w'.keystore = key.keystore
  own : ∀ o, Own w' o → Own w o ∨ txAt w o.hash = none ∧ o.hash = env.txHash tx ∧
    ∃ txout, tx.vout[o.n]? = some txout ∧ w.keystore.isMine txout.scriptPubKey = true
  kept : ∀ o, spentFlag w o = true → spentFlag w' o = true
  cause : ∀ o, spentFlag w' o = true → spentFlag w o = true ∨ Spends tx o
  marked : ∀ o, Own w' o → Spends tx o → spentFlag w' o = true

section Notify

variable {env : WalletEnv} {w w' : CWallet} {n : Notice}

theorem notified_of_marks {newKeys : List NewKey} {tx : CTransaction} (h : Marks w w' tx.vin)
    (hmarked : ∀ txin ∈ tx.vin, Own w txin.prevout → spentFlag w' txin.prevout = true) :
    Notified env w w' newKeys tx where
  stays hash tx' htx := (h.txAt hash).trans htx
  keystore := .inl h.keystore
  own o ho := .inl ((own_congr h.keystore h.txAt).mp ho)
  kept := h.kept
  cause := h.cause
  marked o ho hspends := by
    obtain ⟨txin, hin, rfl⟩ := List.mem_map.mp hspends
    exact hmarked txin hin ((own_congr h.keystore h.txAt).mp ho)

theorem spentFlag_eq_false_of_txAt {o : COutPoint} (h : txAt w o.hash = none) : spentFlag w o = false := by
  unfold txAt at h
  unfold spentFlag
  rw [Option.map_eq_none_iff.mp h]

/-- **A transaction is inserted or found**, without flags. -/
theorem insertTx_spec {wtxIn : CWalletTx} (hfresh : wtxIn.vfSpent = [])
    (hhash : ∀ tx, txAt w (env.txHash wtxIn.toCTransaction) = some tx → tx = wtxIn.toCTransaction) :
    (w.insertTx env wtxIn).keystore = w.keystore ∧ (∀ hash, txAt (w.insertTx env wtxIn) hash =
      if hash = env.txHash wtxIn.toCTransaction then some wtxIn.toCTransaction else txAt w hash) ∧
    (∀ o, spentFlag (w.insertTx env wtxIn) o = spentFlag w o) ∧
    ((w.insertTx env wtxIn).foundTx env wtxIn).toCTransaction = wtxIn.toCTransaction := by
  unfold CWallet.insertTx CWallet.foundTx
  dsimp only
  cases hlookup : w.mapWallet.lookup (env.txHash wtxIn.toCTransaction) with
  | none =>
    refine ⟨rfl, fun hash => ?_, fun o => ?_, ?_⟩
    · rw [txAt_insert]
      rfl
    · rw [spentFlag_insert]
      split_ifs with heq
      · have hnone : txAt w o.hash = none := by
          unfold txAt
          rw [heq, hlookup]
          rfl
        have hflag : wtxIn.markDirty.isSpent o.n = false := by
          unfold CWalletTx.isSpent CWalletTx.markDirty CWalletTx.reset
          rw [hfresh]
          rfl
        rw [spentFlag_eq_false_of_txAt hnone, hflag, Bool.and_false]
      · rfl
    · dsimp only
      rw [Finmap.lookup_insert]
      rfl
  | some wtx =>
    have htx : wtx.toCTransaction = wtxIn.toCTransaction := by
      refine hhash _ ?_
      unfold txAt
      rw [hlookup]
      rfl
    have hmerge : (CWallet.mergeTx wtxIn wtx.markDirty).toCTransaction = wtxIn.toCTransaction :=
      (CWallet.toCTransaction_mergeTx wtxIn wtx.markDirty).trans htx
    refine ⟨rfl, fun hash => ?_, fun o => ?_, ?_⟩
    · rw [txAt_insert, hmerge]
    · rw [spentFlag_insert]
      split_ifs with heq
      · have hvout : (CWallet.mergeTx wtxIn wtx.markDirty).vout = wtx.vout :=
          congrArg CTransaction.vout (CWallet.toCTransaction_mergeTx wtxIn wtx.markDirty)
        unfold spentFlag CWalletTx.isSpent
        rw [heq, hlookup, hvout, CWallet.vfSpent_mergeTx hfresh]
        rfl
      · rfl
    · dsimp only
      rw [Finmap.lookup_insert]
      exact hmerge

/-- **What `AddToWallet` does**, if it returns. -/
theorem addToWallet_spec {chain : ChainView} {newKeys : List NewKey} {wtxIn : CWalletTx}
    (hfresh : wtxIn.vfSpent = [])
    (hhash : ∀ tx, txAt w (env.txHash wtxIn.toCTransaction) = some tx → tx = wtxIn.toCTransaction)
    (hkeys : ∀ key ∈ newKeys, ∀ tx, (∃ hash, txAt w hash = some tx) ∨ tx = wtxIn.toCTransaction →
      ∀ txout ∈ tx.vout, key.keystore.isMine txout.scriptPubKey = w.keystore.isMine txout.scriptPubKey)
    (h : w.addToWallet env chain newKeys wtxIn = (true, w')) :
    Notified env w w' newKeys wtxIn.toCTransaction ∧
      txAt w' (env.txHash wtxIn.toCTransaction) = some wtxIn.toCTransaction := by
  obtain ⟨hkeystore, htxAt, hflag, hfound⟩ := insertTx_spec hfresh hhash
  unfold CWallet.addToWallet at h
  dsimp only at h
  have hmap := CWallet.mapWallet_updateDefaultKey env (w.insertTx env wtxIn)
    ((w.insertTx env wtxIn).foundTx env wtxIn).vout newKeys
  have hstore := CWallet.keystore_updateDefaultKey env (w.insertTx env wtxIn)
    ((w.insertTx env wtxIn).foundTx env wtxIn).vout newKeys
  rw [congrArg CTransaction.vin hfound] at h
  generalize (w.insertTx env wtxIn).updateDefaultKey env
    ((w.insertTx env wtxIn).foundTx env wtxIn).vout newKeys = w₂ at h hmap hstore
  have htxAt₂ : ∀ hash, txAt w₂ hash =
      if hash = env.txHash wtxIn.toCTransaction then some wtxIn.toCTransaction else txAt w hash := by
    intro hash
    rw [← htxAt]
    unfold txAt
    rw [hmap]
  have hflag₂ : ∀ o, spentFlag w₂ o = spentFlag w o := by
    intro o
    rw [← hflag]
    unfold spentFlag
    rw [hmap]
  -- the new keys own none of the outputs
  have hmine : ∀ {tx}, (∃ hash, txAt w hash = some tx) ∨ tx = wtxIn.toCTransaction →
      ∀ txout ∈ tx.vout,
        w₂.keystore.isMine txout.scriptPubKey = w.keystore.isMine txout.scriptPubKey := by
    intro tx htx txout hout
    rcases hstore with hsame | ⟨key, hkey, hsame⟩
    · rw [hsame, hkeystore]
    · rw [hsame, hkeys key hkey tx htx txout hout]
  have hown : ∀ o, Own w₂ o → Own w o ∨ txAt w o.hash = none ∧
      o.hash = env.txHash wtxIn.toCTransaction ∧ ∃ txout, wtxIn.vout[o.n]? = some txout ∧
        w.keystore.isMine txout.scriptPubKey = true := by
    rintro o ⟨tx, txout, htx, hout, howned⟩
    have hmem := List.mem_of_getElem? hout
    rw [htxAt₂] at htx
    split_ifs at htx with heq
    · cases htx
      rw [hmine (.inr rfl) txout hmem] at howned
      cases hat : txAt w o.hash with
      | none => exact .inr ⟨rfl, heq, txout, hout, howned⟩
      | some tx =>
        rw [heq] at hat
        have hsame := hhash tx hat
        exact .inl ⟨tx, txout, by rw [heq, hat], by rw [hsame]; exact hout, howned⟩
    · rw [hmine (.inl ⟨_, htx⟩) txout hmem] at howned
      exact .inl ⟨tx, txout, htx, hout, howned⟩
  obtain ⟨hmarks, hmarked⟩ := walletUpdateSpent_spec h
  have hnotified : Notified env w₂ w' newKeys wtxIn.toCTransaction := notified_of_marks hmarks hmarked
  refine ⟨?_, by rw [hmarks.txAt, htxAt₂, if_pos rfl]⟩
  constructor
  · intro hash tx' htx
    rw [hmarks.txAt, htxAt₂]
    split_ifs with heq
    · rw [heq] at htx
      rw [hhash tx' htx]
    · exact htx
  · rw [hmarks.keystore]
    rcases hstore with hsame | ⟨key, hkey, hsame⟩
    · exact .inl (hsame.trans hkeystore)
    · exact .inr ⟨key, hkey, hsame⟩
  · intro o ho
    exact hown o ((own_congr hmarks.keystore hmarks.txAt).mp ho)
  · intro o ho
    exact hnotified.kept o (by rwa [hflag₂])
  · intro o ho
    rcases hnotified.cause o ho with ho | hspends
    · exact .inl (by rwa [hflag₂] at ho)
    · exact .inr hspends
  · exact hnotified.marked

/-- **What a call does**, if it does not throw. -/
theorem notify_spec (hproper : Proper env w n) (h : notify env w n = some w') :
    Notified env w w' n.outside.newKeys n.tx := by
  cases n with
  | sync call =>
    have hfields : (CWalletTx.ofPlaced call.tx call.place).vfSpent = [] ∧
        (CWalletTx.ofPlaced call.tx call.place).toCTransaction = call.tx := by
      cases call.place <;> exact ⟨rfl, rfl⟩
    have hadd : w.addToWallet env call.outside.chain call.outside.newKeys
        (.ofPlaced call.tx call.place) = (true, w') →
          Notified env w w' call.outside.newKeys call.tx := by
      intro hadd
      have hspec := (addToWallet_spec hfields.1 (by rw [hfields.2]; exact hproper.hash)
        (by rw [hfields.2]; exact hproper.keys) hadd).1
      rwa [hfields.2] at hspec
    unfold notify at h
    dsimp only at h
    split at h
    · next w₁ hw₁ =>
        cases h
        unfold CWallet.addToWalletIfInvolvingMe at hw₁
        dsimp only at hw₁
        split_ifs at hw₁ with hexisted hinvolved
        · exact absurd hexisted.2 (by decide)
        · exact hadd hw₁
        · split at hw₁
          · cases hw₁
          · exact hadd hw₁
          · obtain ⟨hmarks, hmarked⟩ := walletUpdateSpent_spec hw₁
            exact notified_of_marks hmarks hmarked
    · cases h
  | commit wtxNew hfresh outside =>
    unfold notify at h
    dsimp only at h
    split at h
    · next w₁ hw₁ =>
        obtain ⟨hspec, -⟩ := addToWallet_spec hfresh hproper.hash hproper.keys hw₁
        have hmarks := markCoins_spec h
        have hown : ∀ o, Own w' o → Own w₁ o := fun o =>
          (own_congr hmarks.keystore hmarks.txAt).mp
        constructor
        · exact fun hash tx' htx => (hmarks.txAt hash).trans (hspec.stays hash tx' htx)
        · rw [hmarks.keystore]
          exact hspec.keystore
        · exact fun o ho => hspec.own o (hown o ho)
        · exact fun o ho => hmarks.kept o (hspec.kept o ho)
        · intro o ho
          rcases hmarks.cause o ho with ho | hspends
          · exact hspec.cause o ho
          · exact .inr hspends
        · exact fun o ho hspends => hmarks.kept o (hspec.marked o (hown o ho) hspends)
    · cases h

/-- `CommitTransaction` puts the transaction into the wallet. -/
theorem txAt_commit {wtxNew : CWalletTx} {fresh : wtxNew.vfSpent = []} {outside : Outside}
    (hproper : Proper env w (.commit wtxNew fresh outside))
    (h : notify env w (.commit wtxNew fresh outside) = some w') :
    txAt w' (env.txHash wtxNew.toCTransaction) = some wtxNew.toCTransaction := by
  unfold notify at h
  dsimp only at h
  split at h
  · next w₁ hw₁ =>
      rw [(markCoins_spec h).txAt]
      exact (addToWallet_spec fresh hproper.hash hproper.keys hw₁).2
  · cases h

end Notify

/-! ### Clean events -/

section Runs

variable {env : Env} {wenv : WalletEnv} {T : Set CTransaction} {s₀ s s' : NodeState} {w w' : CWallet}

/-- No parent comes after its child: where a transaction is new to the wallet, no transaction that was
seen before spends an own output of it. -/
def ParentFirst (wenv : WalletEnv) (seen : CTransaction → Prop) (w : CWallet) (n : Notice) : Prop :=
  txAt w (wenv.txHash n.tx) = none → ∀ child, seen child → ∀ o, Spends child o →
    o.hash = wenv.txHash n.tx → ∀ txout ∈ n.tx.vout[o.n]?,
      w.keystore.isMine txout.scriptPubKey = false

/-- A condition on each of the calls, and what was seen before it. -/
def Along (wenv : WalletEnv) (P : (CTransaction → Prop) → CWallet → Notice → Prop) :
    List Notice → (CTransaction → Prop) → CWallet → Prop
  | [], _, _ => True
  | n :: notices, seen, w => P seen w n ∧ ∀ w', notify wenv w n = some w' →
      Along wenv P notices (fun tx => tx = n.tx ∨ seen tx) w'

/-- The transactions of the chain and of the memory pool. -/
def NodeState.Seen (s : NodeState) (tx : CTransaction) : Prop := tx ∈ s.chainTxs ∨ s.InPool tx

section Survival

variable (env : Env) (wenv : WalletEnv) (s : NodeState) (e : Event)

/-- A transaction that is in the pool or comes into it. -/
def Event.Candidate (tx : CTransaction) : Prop :=
  s.InPool tx ∨ ∃ outside, (tx, some outside) ∈ e.answers env s

/-- **A transaction that the pool loses**: it goes with a transaction of the disconnected blocks that is
not accepted again, or with one that spends otherwise what a connected one spends. -/
def Event.Lost (tx : CTransaction) : Prop :=
  (∃ before refused after, e.resurrected env s = before ++ (refused, none) :: after ∧
    (s.InPool tx ∨ ∃ outside, (tx, some outside) ∈ before) ∧
    CTxMemPool.Falls env (fun other => s.InPool other ∨ ∃ outside, (other, some outside) ∈ before)
      refused tx) ∨
  ∃ connected ∈ e.connected, ∃ conflict, e.Candidate env s conflict ∧ conflict ≠ connected ∧
    (∃ txin ∈ connected.vin, Spends conflict txin.prevout) ∧
    CTxMemPool.Falls env (e.Candidate env s) conflict tx

/-- A transaction that stays in the pool or comes into it. -/
def Event.StaysInPool (tx : CTransaction) : Prop :=
  e.Candidate env s tx ∧ ¬ e.Lost env s tx ∧ tx ∉ e.connected

/-- A transaction that is in the wallet or is committed to it. -/
def Event.InWallet (tx : CTransaction) : Prop :=
  (∃ hash, txAt s.wallet hash = some tx) ∨
    ∃ wtxNew fresh outside accepted, e = .commitTransaction wtxNew fresh outside accepted ∧
      tx = wtxNew.toCTransaction

/-- An input of a transaction that stays available: it is unspent by the chain that the event leads to,
or an output of a transaction that stays in the pool, and no other candidate spends it. -/
def Event.StaysAvailable (tx : CTransaction) (o : COutPoint) : Prop :=
  (chainUtxo env (e.vBlocks s).flatten o = true ∨
    ∃ parent, e.StaysInPool env s parent ∧ env.txHash parent = o.hash ∧ o.n < parent.vout.length) ∧
    ∀ other, e.Candidate env s other → Spends other o → other = tx

/-- Something that spends an output is not lost. -/
def Event.KeepsSpender (o : COutPoint) : Prop :=
  (∃ tx ∈ (e.vBlocks s).flatten, Spends tx o) ∨
    (∃ tx, e.Candidate env s tx ∧ ¬ e.Lost env s tx ∧ Spends tx o) ∨
    ∃ tx, e.InWallet s tx ∧ Spends tx o ∧ ∀ txin ∈ tx.vin, e.StaysAvailable env s tx txin.prevout

/-- An own output, or one of a transaction that is passed to the wallet and pays to its keys. -/
def Event.OwnSoon (o : COutPoint) : Prop :=
  Own s.wallet o ∨ ∃ n ∈ e.notices env s, o.hash = wenv.txHash n.tx ∧
    ∃ txout, n.tx.vout[o.n]? = some txout ∧ (s.wallet.keystore.isMine txout.scriptPubKey = true ∨
      ∃ m ∈ e.notices env s, ∃ key ∈ m.outside.newKeys,
        key.keystore.isMine txout.scriptPubKey = true)

end Survival

/-- No transaction of a chain spends an output of its own or of a later one. -/
def Ordered (env : Env) (txs : List CTransaction) : Prop :=
  ∀ before tx after, txs = before ++ tx :: after → ∀ o, Spends tx o →
    ∀ later ∈ tx :: after, env.txHash later ≠ o.hash

/-- **A clean event**: parents come before their children, and of an own output that something spends,
or that a transaction of the event spends, a spender is kept. -/
structure Clean (env : Env) (wenv : WalletEnv) (s : NodeState) (e : Event) : Prop where
  inOrder : Along wenv (ParentFirst wenv) (e.notices env s) s.Seen s.wallet
  ordered : Ordered env (e.vBlocks s).flatten
  kept : ∀ o, e.OwnSoon env wenv s o →
    s.Covered env o ∨ (∃ n ∈ e.notices env s, Spends n.tx o) → e.KeepsSpender env s o

/-- **The invariant**: the pool is indexed, an own output whose flag is set is spent by something, and
one that a transaction of the chain or of the memory pool spends has its flag set. -/
structure Consistent (env : Env) (T : Set CTransaction) (s : NodeState) : Prop where
  indexed : CTxMemPool.Indexed env T s.mempool
  covered : ∀ o, Own s.wallet o → spentFlag s.wallet o = true → s.Covered env o
  marked : ∀ o, Own s.wallet o → ∀ tx, s.Seen tx → Spends tx o → spentFlag s.wallet o = true

theorem Consistent.flagsFollow (h : Consistent env T s) : FlagsFollow env s where
  unspent o hown hutxo hpool hwallet := by
    by_contra hflag
    rcases h.covered o hown (by simpa using hflag) with hchain | hin | hin
    · cases hutxo.symm.trans hchain.2
    · exact hpool hin
    · exact hwallet hin
  spent o hown hspent := by
    rcases hspent with ⟨⟨tx, hmem, hspends⟩, -⟩ | ⟨tx, hin, hspends⟩
    · exact h.marked o hown tx (.inl hmem) hspends
    · exact h.marked o hown tx (.inr hin) hspends

/-- An empty wallet. -/
theorem consistent_of_empty (h : s.wallet.mapWallet = ∅)
    (hindexed : CTxMemPool.Indexed env T s.mempool) : Consistent env T s := by
  have hnone : ∀ o, ¬ Own s.wallet o := by
    rintro o ⟨tx, -, htx, -⟩
    unfold txAt at htx
    rw [h, Finmap.lookup_empty] at htx
    cases htx
  exact ⟨hindexed, fun o hown => absurd hown (hnone o), fun o hown => absurd hown (hnone o)⟩

/-- **What calls do**: a flag of an own output was set before, or a transaction spends the output; and
own outputs that were spent by what was seen have their flags set. -/
theorem notifyAll_spec {notices : List Notice} {seen : CTransaction → Prop}
    (h : notifyAll wenv notices w = some w') (hproper : Along wenv (fun _ => Proper wenv) notices seen w)
    (horder : Along wenv (ParentFirst wenv) notices seen w)
    (hmarked : ∀ o, Own w o → ∀ tx, seen tx → Spends tx o → spentFlag w o = true) :
    (∀ o, Own w' o → spentFlag w' o = true →
      (Own w o ∧ spentFlag w o = true) ∨ ∃ n ∈ notices, Spends n.tx o) ∧
    ∀ o, Own w' o → ∀ tx, seen tx ∨ (∃ n ∈ notices, tx = n.tx) → Spends tx o → spentFlag w' o = true := by
  induction notices generalizing seen w with
  | nil =>
    cases h
    refine ⟨fun o hown hflag => .inl ⟨hown, hflag⟩, fun o hown tx htx hspends => ?_⟩
    rcases htx with hseen | ⟨n, hn, -⟩
    · exact hmarked o hown tx hseen hspends
    · cases hn
  | cons n notices ih =>
    obtain ⟨w₁, hw₁, hrest⟩ := Option.bind_eq_some_iff.mp h
    have hspec := notify_spec hproper.1 hw₁
    have hmarked₁ : ∀ o, Own w₁ o → ∀ tx, (tx = n.tx ∨ seen tx) → Spends tx o →
        spentFlag w₁ o = true := by
      rintro o hown tx (rfl | hseen) hspends
      · exact hspec.marked o hown hspends
      · rcases hspec.own o hown with hold | ⟨hnone, heq, txout, hout, hmine⟩
        · exact hspec.kept o (hmarked o hold tx hseen hspends)
        · rw [heq] at hnone
          have hother := horder.1 hnone tx hseen o hspends heq txout hout
          cases hmine.symm.trans hother
    obtain ⟨hcause, hset⟩ := ih hrest (hproper.2 w₁ hw₁) (horder.2 w₁ hw₁) hmarked₁
    refine ⟨fun o hown hflag => ?_, fun o hown tx htx hspends => ?_⟩
    · rcases hcause o hown hflag with ⟨hown₁, hflag₁⟩ | ⟨m, hm, hspends⟩
      · rcases hspec.cause o hflag₁ with hold | hspends
        · rcases hspec.own o hown₁ with hown₀ | ⟨hnone, -⟩
          · exact .inl ⟨hown₀, hold⟩
          · cases (spentFlag_eq_false_of_txAt hnone).symm.trans hold
        · exact .inr ⟨n, List.mem_cons_self, hspends⟩
      · exact .inr ⟨m, List.mem_cons_of_mem n hm, hspends⟩
    · refine hset o hown tx ?_ hspends
      rcases htx with hseen | ⟨m, hm, rfl⟩
      · exact .inl (.inr hseen)
      · rcases List.mem_cons.mp hm with rfl | hm
        · exact .inl (.inl rfl)
        · exact .inr ⟨m, hm, rfl⟩

theorem notifyAll_txAt {notices : List Notice} {seen : CTransaction → Prop}
    (h : notifyAll wenv notices w = some w') (hproper : Along wenv (fun _ => Proper wenv) notices seen w)
    {hash : Uint256} {tx : CTransaction} (htx : txAt w hash = some tx) : txAt w' hash = some tx := by
  induction notices generalizing seen w with
  | nil =>
    cases h
    exact htx
  | cons n notices ih =>
    obtain ⟨w₁, hw₁, hrest⟩ := Option.bind_eq_some_iff.mp h
    exact ih hrest (hproper.2 w₁ hw₁) ((notify_spec hproper.1 hw₁).stays hash tx htx)

/-- **Own outputs after calls** were so before, or are of a transaction that was passed. -/
theorem notifyAll_own {notices : List Notice} {seen : CTransaction → Prop}
    (h : notifyAll wenv notices w = some w') (hproper : Along wenv (fun _ => Proper wenv) notices seen w)
    {o : COutPoint} (hown : Own w' o) : Own w o ∨ ∃ n ∈ notices, o.hash = wenv.txHash n.tx ∧
      ∃ txout, n.tx.vout[o.n]? = some txout ∧ (w.keystore.isMine txout.scriptPubKey = true ∨
        ∃ m ∈ notices, ∃ key ∈ m.outside.newKeys, key.keystore.isMine txout.scriptPubKey = true) := by
  induction notices generalizing seen w with
  | nil =>
    cases h
    exact .inl hown
  | cons n notices ih =>
    obtain ⟨w₁, hw₁, hrest⟩ := Option.bind_eq_some_iff.mp h
    have hspec := notify_spec hproper.1 hw₁
    rcases ih hrest (hproper.2 w₁ hw₁) with hown₁ | ⟨m, hm, heq, txout, hout, hmine⟩
    · rcases hspec.own o hown₁ with hown₀ | ⟨-, heq, txout, hout, hmine⟩
      · exact .inl hown₀
      · exact .inr ⟨n, List.mem_cons_self, heq, txout, hout, .inl hmine⟩
    · refine .inr ⟨m, List.mem_cons_of_mem n hm, heq, txout, hout, ?_⟩
      rcases hmine with hmine | ⟨m', hm', key, hkey, hmine⟩
      · rcases hspec.keystore with hsame | ⟨key, hkey, hsame⟩
        · exact .inl (hsame ▸ hmine)
        · exact .inr ⟨n, List.mem_cons_self, key, hkey, hsame ▸ hmine⟩
      · exact .inr ⟨m', List.mem_cons_of_mem n hm', key, hkey, hmine⟩

/-! ### The chain and the pool -/

theorem removeSpenders_sub {recurse : CTransaction → CTxMemPool → Option CTxMemPool}
    (hrecurse : ∀ {tx pool pool'}, recurse tx pool = some pool' → pool'.Sub pool) {hash : Uint256}
    {i count : Nat} {pool pool' : CTxMemPool}
    (h : CTxMemPool.removeSpenders recurse hash i count pool = some pool') : pool'.Sub pool := by
  induction count generalizing i pool with
  | zero =>
    cases h
    exact .refl _
  | succ count ih =>
    unfold CTxMemPool.removeSpenders at h
    split at h
    · exact ih h
    · split at h
      · cases h
      · split at h
        · cases h
        · next pool₁ hpool₁ => exact .trans (ih h) (hrecurse hpool₁)

theorem removeRecursive_sub {depth : Nat} {tx : CTransaction} {pool pool' : CTxMemPool}
    (h : CTxMemPool.removeRecursive env depth tx pool = some pool') : pool'.Sub pool := by
  induction depth generalizing tx pool pool' with
  | zero => cases h
  | succ depth ih =>
    obtain ⟨pool₁, hpool₁, rfl⟩ := Option.map_eq_some_iff.mp h
    exact .trans (CTxMemPool.removeSingle_sub env tx pool₁) (removeSpenders_sub ih hpool₁)

theorem remove_sub (tx : CTransaction) (fRecursive : Bool) (pool : CTxMemPool) :
    (pool.remove env tx fRecursive).Sub pool := by
  unfold CTxMemPool.remove
  split_ifs
  · cases hremoved : CTxMemPool.removeRecursive env (pool.mapTx.keys.card + 1) tx pool with
    | none => exact .refl pool
    | some pool' => exact removeRecursive_sub hremoved
  · exact CTxMemPool.removeSingle_sub env tx pool

theorem removeConflicts_sub (tx : CTransaction) (pool : CTxMemPool) :
    (pool.removeConflicts env tx).Sub pool := by
  have hround : ∀ (txin : CTxIn) (pool : CTxMemPool), (pool.removeConflict env tx txin).Sub pool := by
    intro txin pool
    unfold CTxMemPool.removeConflict
    split
    · exact .refl pool
    · split
      · exact .refl pool
      · split_ifs
        · exact remove_sub _ _ _
        · exact .refl pool
  unfold CTxMemPool.removeConflicts
  generalize tx.vin = vin
  induction vin generalizing pool with
  | nil => exact .refl _
  | cons txin vin ih => exact .trans (ih _) (hround txin pool)

theorem loose_spec {mempool : CTxMemPool} {tx : CTransaction} (h : loose env mempool tx = true) :
    Loose env tx mempool := by
  simp only [loose, Bool.and_eq_true, Bool.not_eq_true', Option.isNone_iff_eq_none, List.all_eq_true] at h
  obtain ⟨⟨⟨hchecked, hcoinbase⟩, hfresh⟩, hunspent⟩ := h
  refine ⟨?_, hcoinbase, hfresh, hunspent⟩
  cases hcheck : checkTransaction tx with
  | error e =>
    rw [hcheck] at hchecked
    cases hchecked
  | ok _ => rfl

theorem loose_of_answer {accepts : CTransaction → Option Outside} {mempool : CTxMemPool}
    {tx : CTransaction} {outside : Outside} (h : answer env accepts mempool tx = some outside) :
    Loose env tx mempool := by
  unfold answer at h
  split_ifs at h with hloose
  exact loose_spec hloose

theorem holds_addUnchecked {mempool : CTxMemPool} {tx other : CTransaction}
    (hfresh : mempool.mapTx.lookup (env.txHash tx) = none) :
    (mempool.addUnchecked (env.txHash tx) tx).Holds other ↔ mempool.Holds other ∨ other = tx := by
  constructor
  · rintro ⟨hash, hlookup⟩
    by_cases heq : hash = env.txHash tx
    · rw [heq] at hlookup
      cases (Finmap.lookup_insert mempool.mapTx).symm.trans hlookup
      exact .inr rfl
    · exact .inl ⟨hash, (Finmap.lookup_insert_of_ne mempool.mapTx heq).symm.trans hlookup⟩
  · rintro (⟨hash, hlookup⟩ | rfl)
    · have hne : hash ≠ env.txHash tx := by
        rintro rfl
        rw [hfresh] at hlookup
        cases hlookup
      exact ⟨hash, (Finmap.lookup_insert_of_ne mempool.mapTx hne).trans hlookup⟩
    · exact ⟨_, Finmap.lookup_insert mempool.mapTx⟩

/-- **What resurrecting leaves**: an indexed pool, of what it held or accepted, without what falls with a
transaction that is refused while it is there. -/
theorem resurrect_spec (hhash : Hashed env T) (accepts : CTransaction → Option Outside)
    {txs : List CTransaction} (hT : ∀ tx ∈ txs, tx ∈ T) {mempool : CTxMemPool}
    (h : CTxMemPool.Indexed env T mempool) :
    CTxMemPool.Indexed env T (resurrect env accepts txs mempool).2 ∧
      (∀ tx, (resurrect env accepts txs mempool).2.Holds tx →
        mempool.Holds tx ∨ ∃ outside, (tx, some outside) ∈ (resurrect env accepts txs mempool).1) ∧
      ∀ tx, (mempool.Holds tx ∨ ∃ outside, (tx, some outside) ∈ (resurrect env accepts txs mempool).1) →
        (∀ before refused after,
          (resurrect env accepts txs mempool).1 = before ++ (refused, none) :: after →
          mempool.Holds tx ∨ (∃ outside, (tx, some outside) ∈ before) →
          ¬ CTxMemPool.Falls env
            (fun other => mempool.Holds other ∨ ∃ outside, (other, some outside) ∈ before) refused tx) →
        (resurrect env accepts txs mempool).2.Holds tx := by
  induction txs generalizing mempool with
  | nil => exact ⟨h, fun _ => .inl, fun _ hthere _ => hthere.resolve_right fun ⟨_, hmem⟩ => nomatch hmem⟩
  | cons head txs ih =>
    rw [List.forall_mem_cons] at hT
    unfold resurrect
    cases hanswer : answer env accepts mempool head with
    | some outside =>
      have hloose := loose_of_answer hanswer
      have hadd : ∀ {tx}, (mempool.addUnchecked (env.txHash head) head).Holds tx ↔
          mempool.Holds tx ∨ tx = head := holds_addUnchecked hloose.fresh
      obtain ⟨hindexed, hholds, hkeeps⟩ := ih hT.2 (h.addUnchecked hloose hT.1)
      -- What is there later was there, or was accepted, from here on.
      have hwiden : ∀ {before : List (CTransaction × Option Outside)} other,
          (mempool.addUnchecked (env.txHash head) head).Holds other ∨
            (∃ outside, (other, some outside) ∈ before) → mempool.Holds other ∨
              ∃ outside', (other, some outside') ∈ (head, some outside) :: before := by
        rintro before other (hold | ⟨outside', hmem⟩)
        · rcases hadd.mp hold with hold | rfl
          · exact .inl hold
          · exact .inr ⟨outside, List.mem_cons_self⟩
        · exact .inr ⟨outside', List.mem_cons_of_mem _ hmem⟩
      refine ⟨hindexed, fun tx htx => hwiden tx (hholds tx htx), fun tx hthere hstays => hkeeps tx ?_
        fun before refused after heq hin hfalls => ?_⟩
      · rcases hthere with hthere | ⟨outside', hmem⟩
        · exact .inl (hadd.mpr (.inl hthere))
        · rcases List.mem_cons.mp hmem with heq | hmem
          · cases heq
            exact .inl (hadd.mpr (.inr rfl))
          · exact .inr ⟨outside', hmem⟩
      · exact hstays ((head, some outside) :: before) refused after (congrArg _ heq) (hwiden tx hin)
          (hfalls.mono hwiden)
    | none =>
      have hspec := CTxMemPool.remove_spec hhash hT.1 h
      obtain ⟨hindexed, hholds, hkeeps⟩ := ih hT.2 hspec.indexed
      have hwiden : ∀ {before : List (CTransaction × Option Outside)} other,
          (mempool.remove env head true).Holds other ∨ (∃ outside, (other, some outside) ∈ before) →
            mempool.Holds other ∨ ∃ outside', (other, some outside') ∈ (head, none) :: before := by
        rintro before other (hold | ⟨outside', hmem⟩)
        · exact .inl (hspec.sub.holds other hold)
        · exact .inr ⟨outside', List.mem_cons_of_mem _ hmem⟩
      refine ⟨hindexed, fun tx htx => hwiden tx (hholds tx htx), fun tx hthere hstays => hkeeps tx ?_
        fun before refused after heq hin hfalls => ?_⟩
      · rcases hthere with hthere | ⟨outside', hmem⟩
        · refine .inl (CTxMemPool.remove_keeps hhash hT.1 h tx hthere fun hfalls => ?_)
          exact hstays [] head _ rfl (.inl hthere) (hfalls.mono fun _ => .inl)
        · rcases List.mem_cons.mp hmem with heq | hmem
          · cases heq
          · exact .inr ⟨outside', hmem⟩
      · exact hstays ((head, none) :: before) refused after (congrArg _ heq) (hwiden tx hin)
          (hfalls.mono hwiden)

/-- **What deleting the redundant transactions leaves and keeps.** -/
theorem deleteRedundant_spec (hhash : Hashed env T) {vDelete : List CTransaction}
    (hT : ∀ tx ∈ vDelete, tx ∈ T) {mempool : CTxMemPool} (h : CTxMemPool.Indexed env T mempool) :
    CTxMemPool.Indexed env T (deleteRedundant env mempool vDelete) ∧
      (deleteRedundant env mempool vDelete).Sub mempool ∧ ∀ tx, mempool.Holds tx → tx ∉ vDelete →
        (∀ connected ∈ vDelete, ∀ conflict, mempool.Holds conflict → conflict ≠ connected →
          (∃ txin ∈ connected.vin, Spends conflict txin.prevout) →
            ¬ CTxMemPool.Falls env mempool.Holds conflict tx) →
        (deleteRedundant env mempool vDelete).Holds tx := by
  induction vDelete generalizing mempool with
  | nil => exact ⟨h, .refl mempool, fun tx hholds _ _ => hholds⟩
  | cons connected vDelete ih =>
    rw [List.forall_mem_cons] at hT
    have hsingle := h.removeSingle hhash hT.1
    have hsub := CTxMemPool.removeSingle_sub env connected mempool
    have hremoved := @CTxMemPool.removeConflicts_spec env T _ connected hhash hsingle |>.1
    have hboth := hremoved.sub.trans hsub
    obtain ⟨hindexed, hrest, hkeeps⟩ := ih hT.2 hremoved.indexed
    refine ⟨hindexed, hrest.trans hboth, fun tx hholds hnot hstays => hkeeps tx ?_ (fun hmem => hnot (List.mem_cons_of_mem _ hmem))
      fun connected' hmem conflict hin hne hshares hfalls => ?_⟩
    · refine CTxMemPool.removeConflicts_keeps hhash hsingle
        (h.removeSingle_holds hhash hT.1 hholds fun heq => hnot (heq ▸ List.mem_cons_self)) ?_
      intro conflict hin hne hshares hfalls
      exact hstays connected List.mem_cons_self conflict (hsub.holds _ hin) hne hshares
        (hfalls.mono hsub.holds)
    · exact hstays connected' (List.mem_cons_of_mem _ hmem) conflict (hboth.holds _ hin) hne hshares
        (hfalls.mono hboth.holds)

/-- The transactions of an event are of a set. -/
def Event.Within (env : Env) (s : NodeState) (T : Set CTransaction) (e : Event) : Prop :=
  (∀ tx ∈ e.connected, tx ∈ T) ∧ ∀ entry ∈ e.answers env s, entry.1 ∈ T

theorem answers_resurrect (accepts : CTransaction → Option Outside) (txs : List CTransaction)
    (mempool : CTxMemPool) : (resurrect env accepts txs mempool).1.map Prod.fst = txs := by
  induction txs generalizing mempool with
  | nil => rfl
  | cons tx txs ih => exact congrArg (tx :: ·) (ih _)

/-- One answer: the pool holds what it held, and what is accepted. -/
theorem add_spec {tx : CTransaction} (hT : tx ∈ T) (accepted : Option Outside) {mempool mempool' : CTxMemPool}
    (h : CTxMemPool.Indexed env T mempool)
    (hrun : ([(tx, answer env (fun _ => accepted) mempool tx)].filterMap fun entry =>
      entry.2.map fun outside => (⟨entry.1, none, outside⟩ : Sync)).foldl
        (fun mempool call => mempool.addUnchecked (env.txHash call.tx) call.tx) mempool = mempool') :
    CTxMemPool.Indexed env T mempool' ∧ ∀ other, mempool'.Holds other ↔ mempool.Holds other ∨
      ∃ outside, (other, some outside) ∈ [(tx, answer env (fun _ => accepted) mempool tx)] := by
  subst hrun
  cases hanswer : answer env (fun _ => accepted) mempool tx with
  | none => exact ⟨h, fun other => ⟨.inl, fun hin => hin.resolve_right fun ⟨_, hmem⟩ => by simp at hmem⟩⟩
  | some outside =>
    have hloose := loose_of_answer hanswer
    refine ⟨h.addUnchecked hloose hT, fun other => (holds_addUnchecked hloose.fresh).trans ?_⟩
    simp

/-- **The pool after an event**: indexed, of candidates, and with all that stay. -/
theorem mempool_spec (hhash : Hashed env T) {e : Event} (h : CTxMemPool.Indexed env T s.mempool)
    (hwithin : e.Within env s T) : CTxMemPool.Indexed env T (e.mempool env s) ∧
      (∀ tx, (e.mempool env s).Holds tx → e.Candidate env s tx) ∧
      ∀ tx, e.StaysInPool env s tx → (e.mempool env s).Holds tx := by
  cases e with
  | setBestChain nKeep nBlocksEstimate vConnect accepts =>
    obtain ⟨hconnected, hanswers⟩ := hwithin
    have hT : ∀ tx ∈ vResurrect s nKeep nBlocksEstimate, tx ∈ T := by
      intro tx htx
      rw [← @answers_resurrect env accepts (vResurrect s nKeep nBlocksEstimate) s.mempool] at htx
      obtain ⟨entry, hentry, rfl⟩ := List.mem_map.mp htx
      exact hanswers entry hentry
    obtain ⟨hindexed, hholds, hstays⟩ := resurrect_spec hhash accepts hT h
    obtain ⟨hindexed', hsub, hkeeps⟩ := deleteRedundant_spec hhash hconnected hindexed
    refine ⟨hindexed', fun tx htx => hholds tx (hsub.holds tx htx),
      fun tx ⟨hcandidate, hlost, hnot⟩ => ?_⟩
    refine hkeeps tx (hstays tx hcandidate fun before refused after heq hin hfalls => ?_) hnot ?_
    · exact hlost (.inl ⟨before, refused, after, heq, hin, hfalls⟩)
    · intro connected hmem conflict hin hne hshares hfalls
      exact hlost (.inr ⟨connected, hmem, conflict, hholds conflict hin, hne, hshares,
        hfalls.mono hholds⟩)
  | acceptToMemoryPool tx accepted =>
    obtain ⟨hindexed, hholds⟩ := add_spec (hwithin.2 _ List.mem_cons_self) accepted h rfl
    exact ⟨hindexed, fun tx => (hholds tx).mp, fun tx hstays => (hholds tx).mpr hstays.1⟩
  | commitTransaction wtxNew fresh outside accepted =>
    obtain ⟨hindexed, hholds⟩ := add_spec (hwithin.2 _ List.mem_cons_self) accepted h rfl
    exact ⟨hindexed, fun tx => (hholds tx).mp, fun tx hstays => (hholds tx).mpr hstays.1⟩
  | setBestChainFails vConnected =>
    exact ⟨h, fun tx => .inl, fun tx hstays => hstays.1.resolve_right fun ⟨_, hmem⟩ => by cases hmem⟩

theorem mem_notices_of_answers {e : Event} {tx : CTransaction} {outside : Outside}
    (h : (tx, some outside) ∈ e.answers env s) : ∃ n ∈ e.notices env s, tx = n.tx := by
  refine ⟨.sync ⟨tx, none, outside⟩, List.mem_append_right _ (List.mem_map_of_mem ?_), rfl⟩
  exact List.mem_filterMap.mpr ⟨_, h, rfl⟩

/-- **What an event brings was passed to the wallet.** -/
theorem seen_of_apply (hhash : Hashed env T) {e : Event} (hindexed : CTxMemPool.Indexed env T s.mempool)
    (hwithin : e.Within env s T) (h : e.apply env s wenv = some s') {tx : CTransaction}
    (hseen : s'.Seen tx) : s.Seen tx ∨ ∃ n ∈ e.notices env s, tx = n.tx := by
  obtain ⟨wallet, -, rfl⟩ := Option.map_eq_some_iff.mp h
  rcases hseen with hchain | hpool
  · change tx ∈ (e.vBlocks s).flatten at hchain
    cases e with
    | setBestChain nKeep nBlocksEstimate vConnect accepts =>
      rw [Event.vBlocks, List.flatten_append, List.mem_append] at hchain
      rcases hchain with hkept | hnew
      · obtain ⟨block, hblock, hmem⟩ := List.mem_flatten.mp hkept
        exact .inl (.inl (List.mem_flatten.mpr ⟨block, List.mem_of_mem_take hblock, hmem⟩))
      · obtain ⟨txs, htxs, hmem⟩ := List.mem_flatten.mp hnew
        obtain ⟨block, hblock, rfl⟩ := List.mem_map.mp htxs
        obtain ⟨call, hcall, rfl⟩ := List.mem_map.mp hmem
        refine .inr ⟨.sync call, List.mem_append_left _ ?_, rfl⟩
        exact List.mem_map_of_mem (List.mem_flatten.mpr ⟨block, hblock, hcall⟩)
    | acceptToMemoryPool tx accepted => exact .inl (.inl hchain)
    | commitTransaction wtxNew fresh outside accepted => exact .inl (.inl hchain)
    | setBestChainFails vConnected => exact .inl (.inl hchain)
  · rcases (mempool_spec hhash hindexed hwithin).2.1 tx hpool with hold | ⟨outside, hmem⟩
    · exact .inl (.inr hold)
    · exact .inr (mem_notices_of_answers hmem)

/-- In an ordered chain what is spent is not in the UTXO set. -/
theorem chainUtxo_eq_false {txs : List CTransaction} (h : Ordered env txs) {tx : CTransaction}
    (hmem : tx ∈ txs) {o : COutPoint} (hspends : Spends tx o) : chainUtxo env txs o = false := by
  obtain ⟨before, after, rfl⟩ := List.append_of_mem hmem
  have hlater := h before tx after rfl o hspends
  have hfold : ∀ txs : List CTransaction, (∀ later ∈ txs, env.txHash later ≠ o.hash) →
      txs.foldl (stepUtxo env o) false = false := by
    intro txs
    induction txs with
    | nil => exact fun _ => rfl
    | cons later txs ih =>
      intro hne
      rw [List.forall_mem_cons] at hne
      have hstep : stepUtxo env o false later = false := by
        simp [stepUtxo, beq_eq_false_iff_ne.mpr hne.1.symm]
      rw [List.foldl_cons, hstep]
      exact ih hne.2
  have hstep : ∀ unspent, stepUtxo env o unspent tx = false := by
    intro unspent
    simp [stepUtxo, hspends, beq_eq_false_iff_ne.mpr (hlater tx List.mem_cons_self).symm]
  rw [chainUtxo, List.foldl_append, List.foldl_cons, hstep]
  exact hfold after fun later hin => hlater later (List.mem_cons_of_mem _ hin)

/-- What is in the wallet or committed to it is in the wallet after the event. -/
theorem txAt_of_apply {e : Event} {wallet : CWallet}
    (hwallet : notifyAll wenv (e.notices env s) s.wallet = some wallet)
    (hproper : Along wenv (fun _ => Proper wenv) (e.notices env s) s.Seen s.wallet)
    {tx : CTransaction} (h : e.InWallet s tx) : ∃ hash, txAt wallet hash = some tx := by
  rcases h with ⟨hash, htx⟩ | ⟨wtxNew, fresh, outside, accepted, rfl, rfl⟩
  · exact ⟨hash, notifyAll_txAt hwallet hproper htx⟩
  · obtain ⟨w₁, hw₁, hrest⟩ := Option.bind_eq_some_iff.mp hwallet
    exact ⟨_, notifyAll_txAt hrest (hproper.2 w₁ hw₁) (txAt_commit hproper.1 hw₁)⟩

/-- **A spender that is kept covers the output** after the event. -/
theorem covered_of_kept (hhash : Hashed env T) (hindexed : CTxMemPool.Indexed env T s.mempool)
    {e : Event} (hwithin : e.Within env s T) (happly : e.apply env s wenv = some s')
    (hproper : Along wenv (fun _ => Proper wenv) (e.notices env s) s.Seen s.wallet)
    (hordered : Ordered env (e.vBlocks s).flatten) {o : COutPoint} (h : e.KeepsSpender env s o) :
    s'.Covered env o := by
  obtain ⟨wallet, hwallet, rfl⟩ := Option.map_eq_some_iff.mp happly
  obtain ⟨-, hcandidates, hstaying⟩ := mempool_spec hhash hindexed hwithin
  have hchain : ∀ tx ∈ (e.vBlocks s).flatten, Spends tx o →
      NodeState.Covered env ⟨e.vBlocks s, e.mempool env s, wallet⟩ o := fun tx hmem hspends =>
    .inl ⟨⟨tx, hmem, hspends⟩, chainUtxo_eq_false hordered hmem hspends⟩
  rcases h with ⟨tx, hmem, hspends⟩ | ⟨tx, hcandidate, hlost, hspends⟩ | ⟨tx, hin, hspends, havailable⟩
  · exact hchain tx hmem hspends
  · by_cases hconnected : tx ∈ e.connected
    · refine hchain tx ?_ hspends
      cases e with
      | setBestChain nKeep nBlocksEstimate vConnect accepts =>
        rw [Event.vBlocks, List.flatten_append, List.mem_append]
        refine .inr ?_
        rwa [Event.connected, List.map_flatten] at hconnected
      | acceptToMemoryPool tx accepted => cases hconnected
      | commitTransaction wtxNew fresh outside accepted => cases hconnected
      | setBestChainFails vConnected => cases hconnected
    · exact .inr (.inl ⟨tx, hstaying tx ⟨hcandidate, hlost, hconnected⟩, hspends⟩)
  · obtain ⟨hash, htx⟩ := txAt_of_apply hwallet hproper hin
    refine .inr (.inr ⟨hash, tx, htx, hspends, fun txin hmem => ?_⟩)
    obtain ⟨hsource, hother⟩ := havailable txin hmem
    refine ⟨?_, fun other hpool => hother other (hcandidates other hpool)⟩
    rcases hsource with hutxo | ⟨parent, hstays, hparent⟩
    · exact .inl hutxo
    · exact .inr ⟨parent, hstaying parent hstays, hparent⟩

/-- **A clean event keeps the invariant.** -/
theorem Consistent.apply (hhash : Hashed env T) (h : Consistent env T s) {e : Event}
    (happly : e.apply env s wenv = some s') (hwithin : e.Within env s T)
    (hproper : Along wenv (fun _ => Proper wenv) (e.notices env s) s.Seen s.wallet)
    (hclean : Clean env wenv s e) : Consistent env T s' := by
  obtain ⟨wallet, hwallet, heq⟩ := Option.map_eq_some_iff.mp happly
  have hsame : s'.wallet = wallet := by rw [← heq]
  have hpool : s'.mempool = e.mempool env s := by rw [← heq]
  obtain ⟨hcause, hset⟩ := notifyAll_spec hwallet hproper hclean.inOrder h.marked
  rw [← hsame] at hcause hset
  refine ⟨hpool ▸ (mempool_spec hhash h.indexed hwithin).1, fun o hown hflag => ?_,
    fun o hown tx hseen hspends =>
      hset o hown tx (seen_of_apply hhash h.indexed hwithin happly hseen) hspends⟩
  refine covered_of_kept hhash h.indexed hwithin happly hproper hclean.ordered (hclean.kept o ?_ ?_)
  · exact notifyAll_own hwallet hproper (hsame ▸ hown)
  · rcases hcause o hown hflag with ⟨hown₀, hflag₀⟩ | hspends
    · exact .inl (h.covered o hown₀ hflag₀)
    · exact .inr hspends

/-- Events one after the other; `none` where a call into the wallet throws. -/
def applyAll (env : Env) (wenv : WalletEnv) : List Event → NodeState → Option NodeState
  | [], s => some s
  | e :: events, s => (e.apply env s wenv).bind (applyAll env wenv events)

/-- **Runs of clean events**, on transactions of a set. -/
inductive CleanRun (env : Env) (wenv : WalletEnv) (T : Set CTransaction) (s₀ : NodeState) :
    NodeState → Prop where
  | refl : CleanRun env wenv T s₀ s₀
  | step {s s' : NodeState} (e : Event) (run : CleanRun env wenv T s₀ s)
      (apply : e.apply env s wenv = some s') (within : e.Within env s T)
      (proper : Along wenv (fun _ => Proper wenv) (e.notices env s) s.Seen s.wallet)
      (clean : Clean env wenv s e) : CleanRun env wenv T s₀ s'

/-- **The spent flags follow the chain** after every run of clean events. -/
theorem flagsFollow_of_run (hhash : Hashed env T) (hstart : Consistent env T s₀)
    (h : CleanRun env wenv T s₀ s) : FlagsFollow env s := by
  suffices Consistent env T s from this.flagsFollow
  induction h with
  | refl => exact hstart
  | step e _ happly hwithin hproper hclean ih => exact ih.apply hhash happly hwithin hproper hclean

end Runs

namespace Sample

/-- The wallet owns the empty script. -/
def wenv : WalletEnv := ⟨sampleEnv.txHash, id, 0, true⟩

def outside : Outside := ⟨⟨100, 1000, fun _ => 1⟩, []⟩

def sync (tx : CTransaction) : Sync := ⟨tx, none, outside⟩

/-- A chain with two outputs of others, and an empty wallet. -/
def start : NodeState where
  vBlocks := [[⟨1, 0, [], [⟨9 * CENT, [0]⟩, ⟨9 * CENT, [0]⟩], 100⟩]]
  mempool := .empty
  wallet :=
    { mapWallet := ∅
      keystore := ⟨fun _ => true, fun _ => true, fun script => script == []⟩
      mapAddressBook := ∅
      vchDefaultKey := none
      setLockedCoins := ∅ }

def payment : CTransaction := ⟨1, 0, [sampleIn 100 0], [⟨8 * CENT, []⟩], 1⟩

/-- A payment among others. -/
def other : CTransaction := ⟨1, 0, [sampleIn 100 1], [⟨8 * CENT, [0]⟩], 2⟩

/-- It spends the coin of the wallet and one of another. -/
def joint : CTransaction := ⟨1, 0, [sampleIn 1 0, sampleIn 2 0], [⟨15 * CENT, [0]⟩], 3⟩

/-- It spends the other coin again. -/
def conflict : CTransaction := ⟨1, 0, [sampleIn 2 0], [⟨7 * CENT, [0]⟩], 4⟩

/-- The events: the payments are connected, the wallet's coin and the other one are spent together in
the pool, and a block spends the other coin otherwise. -/
def events : List Event :=
  [.setBestChain 1 0 [[sync payment, sync other]] fun _ => none,
    .acceptToMemoryPool joint (some outside),
    .setBestChain 2 0 [[sync conflict]] fun _ => none]

/-- What they end with. -/
def final : NodeState := (applyAll sampleEnv wenv events start).getD start

theorem applyAll_events : applyAll sampleEnv wenv events start = some final := by
  have hsome : (applyAll sampleEnv wenv events start).isSome = true := by decide
  obtain ⟨s, hs⟩ := Option.isSome_iff_exists.mp hsome
  rw [final, hs, Option.getD_some]

theorem not_inPool (tx : CTransaction) : ¬ final.InPool tx := by
  rintro ⟨hash, hlookup⟩
  have hempty : final.mempool.mapTx = ∅ := by decide
  rw [hempty, Finmap.lookup_empty] at hlookup
  cases hlookup

theorem not_spentByWallet : ¬ final.SpentByWallet sampleEnv ⟨1, 0⟩ := by
  rintro ⟨hash, tx, htx, hspends, havailable⟩
  have hkeys : final.wallet.mapWallet.keys = {1, 3} := by decide
  have hmem : hash ∈ final.wallet.mapWallet.keys := by
    obtain ⟨wtx, hlookup, -⟩ := Option.map_eq_some_iff.mp htx
    exact Finmap.mem_keys.mpr (Finmap.mem_of_lookup_eq_some hlookup)
  rw [hkeys, Finset.mem_insert, Finset.mem_singleton] at hmem
  rcases hmem with rfl | rfl
  · have hpayment : txAt final.wallet 1 = some payment := by decide
    cases hpayment.symm.trans htx
    exact absurd hspends (by decide)
  · have hjoint : txAt final.wallet 3 = some joint := by decide
    cases hjoint.symm.trans htx
    rcases (havailable (sampleIn 2 0) (by decide)).1 with hutxo | ⟨parent, hin, -⟩
    · exact absurd hutxo (by decide)
    · exact not_inPool parent hin

/-- It spends the coin of the wallet. -/
def spend : CTransaction := ⟨1, 0, [sampleIn 1 0], [⟨7 * CENT, [0]⟩], 5⟩

/-- It spends what the payment among others spends. -/
def rival : CTransaction := ⟨1, 0, [sampleIn 100 1], [⟨7 * CENT, [0]⟩], 6⟩

/-- The payment is connected. -/
def connectPayment : Event := .setBestChain 1 0 [[sync payment]] fun _ => none

/-- A block takes the payment among others out of the pool. -/
def connectRival : Event := .setBestChain 2 0 [[sync rival]] fun _ => none

/-- Events without a loss: the wallet's coin is spent in the pool, and stays so. -/
def cleanEvents : List Event := [connectPayment, .acceptToMemoryPool spend (some outside), connectRival]

/-- The payment among others is in the pool. -/
def waiting : NodeState := { start with mempool := start.mempool.addUnchecked 2 other }

/-- The state after some events. -/
def after (n : Nat) : NodeState := (applyAll sampleEnv wenv (cleanEvents.take n) waiting).getD waiting

theorem loose_other : Loose sampleEnv other start.mempool := loose_spec (by decide)

theorem not_spends_of_seen {tx : CTransaction} (h : waiting.Seen tx) : ¬ Spends tx ⟨1, 0⟩ := by
  rcases h with hchain | hpool
  · cases List.mem_singleton.mp hchain
    decide
  · rcases (holds_addUnchecked loose_other.fresh).mp hpool with ⟨hash, hlookup⟩ | rfl
    · cases hlookup
    · decide

theorem hashed : Hashed sampleEnv {payment, spend, other, rival} where
  injective := by
    simp only [Set.mem_insert_iff, Set.mem_singleton_iff]
    rintro tx (rfl | rfl | rfl | rfl) tx' (rfl | rfl | rfl | rfl) heq <;> first | rfl | cases heq
  acyclic := by
    refine ⟨fun hash => if hash = 100 then 0 else if hash = 1 then 1 else 2, ?_⟩
    simp only [Set.mem_insert_iff, Set.mem_singleton_iff]
    rintro tx (rfl | rfl | rfl | rfl) <;> decide

theorem ordered_cons {env : Env} {tx : CTransaction} {txs : List CTransaction}
    (htx : ∀ txin ∈ tx.vin, ∀ later ∈ tx :: txs, env.txHash later ≠ txin.prevout.hash)
    (h : Ordered env txs) : Ordered env (tx :: txs) := by
  intro before tx' after heq o hspends
  cases before with
  | nil =>
    cases heq
    obtain ⟨txin, hin, rfl⟩ := List.mem_map.mp hspends
    exact htx txin hin
  | cons first before =>
    cases heq
    exact h before tx' after rfl o hspends

theorem ordered_nil (env : Env) : Ordered env [] := by
  intro before tx after heq
  simp at heq

/-- The wallet of the samples. -/
structure Mine (w : CWallet) : Prop where
  keystore : w.keystore = start.wallet.keystore
  keys : w.mapWallet.keys ⊆ {1, 5}
  payment : txAt w 1 ∈ [none, some payment]
  spend : txAt w 5 ∈ [none, some spend]

/-- A call for one of the transactions. -/
def IsCall (n : Notice) : Prop :=
  n = .sync (sync payment) ∨ n = .sync (sync spend) ∨ n = .sync (sync rival)

theorem own_output {tx : CTransaction} (htx : tx ∈ [payment, spend, rival]) {n : Nat} {txout : CTxOut}
    (hout : tx.vout[n]? = some txout) (hmine : start.wallet.keystore.isMine txout.scriptPubKey = true) :
    tx = payment ∧ n = 0 := by
  simp only [List.mem_cons, List.not_mem_nil, or_false] at htx
  cases n with
  | zero =>
    rcases htx with rfl | rfl | rfl
    · exact ⟨rfl, rfl⟩
    all_goals
      cases hout
      exact absurd hmine (by decide)
  | succ n => rcases htx with rfl | rfl | rfl <;> cases hout

/-- The coin of the wallet is its only output. -/
theorem soon_eq {s : NodeState} {e : Event} {n : Notice} (hwallet : Mine s.wallet)
    (hnotices : e.notices sampleEnv s = [n]) (hn : IsCall n) {o : COutPoint}
    (h : e.OwnSoon sampleEnv wenv s o) : o = ⟨1, 0⟩ := by
  have hone : ∃ tx ∈ [payment, spend, rival], o.hash = sampleEnv.txHash tx ∧
      ∃ txout, tx.vout[o.n]? = some txout ∧
        start.wallet.keystore.isMine txout.scriptPubKey = true := by
    rcases h with ⟨tx, txout, htx, hout, hmine⟩ | ⟨m, hm, heq, txout, hout, hmine⟩
    · have hmem : o.hash ∈ s.wallet.mapWallet.keys := by
        obtain ⟨wtx, hlookup, -⟩ := Option.map_eq_some_iff.mp htx
        exact Finmap.mem_keys.mpr (Finmap.mem_of_lookup_eq_some hlookup)
      rw [hwallet.keystore] at hmine
      have hkey := hwallet.keys hmem
      rw [Finset.mem_insert, Finset.mem_singleton] at hkey
      rcases hkey with hhash | hhash
      · have hat := hwallet.payment
        rw [← hhash, htx] at hat
        cases (show some tx = some payment by simpa using hat)
        exact ⟨payment, by decide, hhash, txout, hout, hmine⟩
      · have hat := hwallet.spend
        rw [← hhash, htx] at hat
        cases (show some tx = some spend by simpa using hat)
        exact ⟨spend, by decide, hhash, txout, hout, hmine⟩
    · rw [hnotices, List.mem_singleton] at hm
      rw [hnotices] at hmine
      subst hm
      have hkeys : m.outside.newKeys = [] := by
        rcases hn with rfl | rfl | rfl <;> rfl
      rw [hwallet.keystore] at hmine
      refine ⟨m.tx, ?_, heq, txout, hout, hmine.resolve_right ?_⟩
      · rcases hn with rfl | rfl | rfl <;> decide
      · rintro ⟨m', hm', key, hkey, -⟩
        rw [List.mem_singleton.mp hm', hkeys] at hkey
        cases hkey
  obtain ⟨tx, htx, hhash, txout, hout, hmine⟩ := hone
  obtain ⟨rfl, hzero⟩ := own_output htx hout hmine
  cases o
  exact congrArg₂ COutPoint.mk hhash hzero

/-- An event with one call for a transaction that is new to the wallet. -/
theorem clean_step {s s' : NodeState} {e : Event} {n : Notice}
    (hrun : CleanRun sampleEnv wenv {payment, spend, other, rival} waiting s)
    (happly : e.apply sampleEnv s wenv = some s')
    (hwithin : e.Within sampleEnv s {payment, spend, other, rival}) (hwallet : Mine s.wallet)
    (hnotices : e.notices sampleEnv s = [n]) (hn : IsCall n)
    (hfresh : txAt s.wallet (sampleEnv.txHash n.tx) = none)
    (hparent : n.tx = payment → ∀ tx, s.Seen tx → ¬ Spends tx ⟨1, 0⟩)
    (hordered : Ordered sampleEnv (e.vBlocks s).flatten)
    (hkept : s.Covered sampleEnv ⟨1, 0⟩ ∨ Spends n.tx ⟨1, 0⟩ → e.KeepsSpender sampleEnv s ⟨1, 0⟩) :
    CleanRun sampleEnv wenv {payment, spend, other, rival} waiting s' := by
  have hcall : n.outside.newKeys = [] ∧ n.tx ∈ [payment, spend, rival] := by
    rcases hn with rfl | rfl | rfl <;> exact ⟨rfl, by decide⟩
  refine .step e hrun happly hwithin ?_ ⟨?_, hordered, fun o hown hspent => ?_⟩
  · rw [hnotices]
    refine ⟨⟨fun tx htx => ?_, fun key hkey => ?_⟩, fun _ _ => trivial⟩
    · cases hfresh.symm.trans htx
    · rw [hcall.1] at hkey
      cases hkey
  · rw [hnotices]
    refine ⟨fun _ child hseen o hspends heq txout hout => ?_, fun _ _ => trivial⟩
    rw [hwallet.keystore]
    by_contra hmine
    obtain ⟨htx, hzero⟩ := own_output hcall.2 hout (by simpa using hmine)
    obtain rfl : o = ⟨1, 0⟩ := by
      cases o
      exact congrArg₂ COutPoint.mk (heq.trans (congrArg sampleEnv.txHash htx)) hzero
    exact hparent htx child hseen hspends
  · cases soon_eq hwallet hnotices hn hown
    rw [hnotices] at hspent
    refine hkept (hspent.imp_right ?_)
    rintro ⟨m, hm, hspends⟩
    rwa [List.mem_singleton.mp hm] at hspends

end Sample

open Sample in
/-- The wallet's coin is spent in the pool, and a conflict takes another transaction out of it. -/
theorem flagsFollow_of_run_sample : FlagsFollow sampleEnv (after 3) ∧
    spentFlag (after 3).wallet ⟨1, 0⟩ = true ∧ (after 3).mempool.mapTx.keys = {5} := by
  have hstart : Mine waiting.wallet := ⟨rfl, by decide, by decide, by decide⟩
  have hindexed := CTxMemPool.indexed_empty.addUnchecked loose_other
    (show other ∈ ({payment, spend, other, rival} : Set CTransaction) by simp)
  have hrun₁ : CleanRun sampleEnv wenv {payment, spend, other, rival} waiting (after 1) := by
    refine clean_step (n := .sync (sync payment)) (e := connectPayment) .refl rfl ?_ hstart rfl (.inl rfl)
      rfl (fun _ _ => not_spends_of_seen) ?_ ?_
    · exact ⟨by simp [connectPayment, Event.connected, sync], by decide⟩
    · exact ordered_cons (by decide) (ordered_cons (by decide) (ordered_nil _))
    · rintro ((⟨⟨tx, hchain, hspends⟩, -⟩ | ⟨tx, hpool, hspends⟩ | ⟨hash, tx, htx, -⟩) | hspends)
      · exact absurd hspends (not_spends_of_seen (.inl hchain))
      · exact absurd hspends (not_spends_of_seen (.inr hpool))
      · cases htx
      · exact absurd hspends (by decide)
  have hwallet : Mine (after 1).wallet ∧ Mine (after 2).wallet :=
    ⟨⟨rfl, by decide, by decide, by decide⟩, ⟨rfl, by decide, by decide, by decide⟩⟩
  have hrun₂ : CleanRun sampleEnv wenv {payment, spend, other, rival} waiting (after 2) := by
    refine clean_step (n := .sync (sync spend)) (e := .acceptToMemoryPool spend (some outside)) hrun₁ rfl
      ⟨fun _ hmem => absurd hmem List.not_mem_nil, ?_⟩ hwallet.1 rfl
      (.inr (.inl rfl)) rfl (fun heq => absurd heq (by decide)) ?_ fun _ => ?_
    · rintro entry hentry
      cases List.mem_singleton.mp hentry
      simp
    · exact ordered_cons (by decide) (ordered_cons (by decide) (ordered_nil _))
    · refine .inr (.inl ⟨spend, .inr ⟨outside, List.mem_singleton_self _⟩, ?_, by decide⟩)
      rintro (⟨before, refused, later, heq, -⟩ | ⟨connected, hmem, -⟩)
      · simp [Event.resurrected] at heq
      · cases hmem
  -- The pool loses what the block conflicts with, and nothing with it.
  have hrun₃ : CleanRun sampleEnv wenv {payment, spend, other, rival} waiting (after 3) := by
    refine clean_step (n := .sync (sync rival)) (e := connectRival) hrun₂ rfl
      ⟨by simp [connectRival, Event.connected, sync], fun _ hmem => absurd hmem List.not_mem_nil⟩ hwallet.2 rfl
      (.inr (.inr rfl)) rfl (fun heq => absurd heq (by decide)) ?_ fun _ => ?_
    · exact ordered_cons (by decide) (ordered_cons (by decide) (ordered_cons (by decide) (ordered_nil _)))
    · refine .inr (.inl ⟨spend, .inl ⟨5, rfl⟩, ?_, by decide⟩)
      have hpool : ∀ tx, connectRival.Candidate sampleEnv (after 2) tx → tx = spend ∨ tx = other := by
        rintro tx (⟨hash, hlookup⟩ | ⟨outside, hmem⟩)
        · have hkeys : (after 2).mempool.mapTx.keys = {5, 2} := by decide
          have hkey : hash ∈ (after 2).mempool.mapTx.keys :=
            Finmap.mem_keys.mpr (Finmap.mem_of_lookup_eq_some hlookup)
          rw [hkeys, Finset.mem_insert, Finset.mem_singleton] at hkey
          rcases hkey with rfl | rfl
          · exact .inl (Option.some.inj (hlookup.symm.trans rfl))
          · exact .inr (Option.some.inj (hlookup.symm.trans rfl))
        · cases hmem
      rintro (⟨before, refused, later, heq, -⟩ | ⟨connected, hmem, conflict, hin, -, hshares, hfalls⟩)
      · have hnone : connectRival.resurrected sampleEnv (after 2) = [] := rfl
        rw [hnone] at heq
        simp at heq
      · cases List.mem_singleton.mp hmem
        obtain rfl : conflict = other := by
          rcases hpool conflict hin with rfl | rfl
          · exact absurd hshares (by decide)
          · rfl
        have honly : ∀ tx, CTxMemPool.Falls sampleEnv (connectRival.Candidate sampleEnv (after 2)) other tx →
            tx = other := by
          intro tx hfalls
          induction hfalls with
          | self => rfl
          | child _ hchild hspends ih =>
            subst ih
            obtain ⟨txin, hin, hhash, -⟩ := hspends
            rcases hpool _ hchild with rfl | rfl <;> cases List.mem_singleton.mp hin <;> cases hhash
        exact absurd (honly spend hfalls) (by decide)
  exact ⟨flagsFollow_of_run hashed (consistent_of_empty rfl hindexed) hrun₃, by decide, by decide⟩

open Sample in
/-- **A coin is stuck**: the transaction that spent it is gone, and its flag stays. -/
theorem not_forall_flagsFollow :
    ¬ ∀ (env : Env) (wenv : WalletEnv) (s₀ s : NodeState) (events : List Event),
      s₀.wallet.mapWallet = ∅ → applyAll env wenv events s₀ = some s → FlagsFollow env s := by
  intro hall
  have hfollow := hall sampleEnv wenv start final events rfl applyAll_events
  have hown : Own final.wallet ⟨1, 0⟩ := ⟨payment, ⟨8 * CENT, []⟩, by decide, rfl, by decide⟩
  have hflag := hfollow.unspent ⟨1, 0⟩ hown (by decide)
    (fun ⟨tx, hin, _⟩ => not_inPool tx hin) not_spentByWallet
  exact absurd hflag (by decide)

end SpentFlags

end Wallet

end Manna
