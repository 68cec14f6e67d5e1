import Manna.ConnectBlock

/-!
Disconnecting a block (`main.cpp`: `CBlock::DisconnectBlock`) and why it undoes
`ConnectBlock`.

The undo data of a spent output carries the metadata of its record only when the spend
left the record empty. So restoring is followed on the unspent outputs, where an empty
record and a missing one look alike:

* `restoreInput_ok`: restoring reverses one spend, on any view that shows the outputs
  the spend left;
* `disconnectTransactions_ok`: by induction along the transactions of a block, restoring
  in reverse order reverses a chain of `UpdateCoins` steps, and reports no inconsistency.
-/

namespace Manna

open OpProg

/-! ### Restoring -/

/-- The record an output is put back into: a fresh one with the metadata of the undo data
when there is a height in it, the one found otherwise. -/
def restoreBase (undo : CTxInUndo) (coins : CCoins) : CCoins :=
  if undo.nHeight ≠ 0 then ⟨undo.fCoinBase, [], undo.nHeight, undo.nVersion⟩ else coins

/-- The three inconsistencies restoring can meet, each of which clears `fClean`. -/
def restoreConsistent (out : COutPoint) (undo : CTxInUndo) (coins : CCoins) : Bool :=
  (if undo.nHeight ≠ 0 then coins.isPruned else !coins.isPruned) &&
    !(restoreBase undo coins).isAvailable out.n

/-- One round of the loop over the inputs: put the spent output back. -/
def restoreInput (out : COutPoint) (undo : CTxInUndo) (fClean : Bool) : CoinsM Bool := do
  let found ← CoinsM.getCoins out.hash
  let coins := found.getD CCoins.empty
  CoinsM.setCoins out.hash ((restoreBase undo coins).putOutput out.n undo.txout)
  pure (fClean && restoreConsistent out undo coins)

def restoreInputs : List (CTxIn × CTxInUndo) → Bool → CoinsM Bool
  | [], fClean => pure fClean
  | (txin, undo) :: rest, fClean => do
    let fClean ← restoreInputs rest fClean
    restoreInput txin.prevout undo fClean

/-- One round of the loop over the transactions: take the outputs away and restore the
inputs. The first transaction, the coinbase, comes without undo data. -/
def disconnectTransaction (env : Env) (nHeight : Int) (tx : CTransaction)
    (txundo : Option CTxUndo) (fClean : Bool) : CoinsM Bool := do
  let hash := env.txHash tx
  let found ← CoinsM.getCoins hash
  let outs := found.getD CCoins.empty
  let outsBlock := CCoins.ofTx tx nHeight
  let outs := if outsBlock.nVersion < 0 then { outs with nVersion := outsBlock.nVersion } else outs
  let fClean := fClean && found.isSome && outs == outsBlock
  CoinsM.setCoins hash CCoins.empty
  match txundo with
  | none => pure fClean
  | some txundo =>
    if txundo.vprevout.length ≠ tx.vin.length then
      Prog.fail (.error "DisconnectBlock() : transaction and undo data inconsistent")
    else restoreInputs (tx.vin.zip txundo.vprevout) fClean

/-- The loop over the transactions, which runs from the last to the first. -/
def disconnectTransactions (env : Env) (nHeight : Int) :
    List (CTransaction × Option CTxUndo) → Bool → CoinsM Bool
  | [], fClean => pure fClean
  | (tx, txundo) :: rest, fClean => do
    let fClean ← disconnectTransactions env nHeight rest fClean
    disconnectTransaction env nHeight tx txundo fClean

def readUndo (io : DiskIO) (disk : BlockFiles) (pindex : CBlockIndex) : Except Halt CBlockUndo :=
  if !pindex.nStatus.haveUndo then
    .error (.error "DisconnectBlock() : no undo data available")
  else if !io.readUndo pindex.phashBlock then
    .error (.error "DisconnectBlock() : failure reading undo data")
  else
    match disk.undo pindex.phashBlock with
    | none => .error (.error "DisconnectBlock() : failure reading undo data")
    | some blockUndo => .ok blockUndo

/-- `CBlock::DisconnectBlock` given what reading the undo data returned. The value is
`fClean`: what `*pfClean` is set to, or what is returned when `pfClean` is null. -/
def disconnectBlock (env : Env) (blockUndo : Except Halt CBlockUndo) (block : CBlock)
    (pindex : CBlockIndex) : CoinsM Bool := do
  let best ← CoinsM.getBestBlock
  if best ≠ some pindex.phashBlock then Prog.fail .assertion
  else
    let blockUndo ← Prog.ofExcept blockUndo
    match pindex.pprev with
    | none => Prog.fail .undefined
    | some pprev =>
      if blockUndo.vtxundo.length + 1 ≠ block.vtx.length then
        Prog.fail (.error "DisconnectBlock() : block and undo data inconsistent")
      else
        let fClean ← disconnectTransactions env pindex.nHeight
          (block.vtx.zip (none :: blockUndo.vtxundo.map some)) true
        CoinsM.setBestBlock pprev
        pure fClean

/-! ### Reversing a spend -/

/-- Every unspent coin has a positive height. -/
def HeightsPos (u : Utxo) : Prop := ∀ out coin, u out = some coin → 0 < coin.nHeight

/-- The records of some transactions end in an unspent output. -/
def CleanOn (P : Uint256 → Prop) (s : CoinsMap) : Prop :=
  ∀ txid, P txid → ∀ coins, s.coins txid = some coins → coins.Clean

variable {P : Uint256 → Prop} {tx : CTransaction} {nHeight : Int} {undos : List CTxUndo} {txhash : Uint256}
  {env : Env} {vtx : List CTransaction}

theorem CleanOn.setCoins {s : CoinsMap} (h : CleanOn P s) {txid : Uint256}
    {coins : CCoins} (hclean : P txid → coins.Clean) : CleanOn P (s.setCoins txid coins) := by
  intro txid' hP coins' hcoins'
  by_cases heq : txid' = txid
  · subst heq
    rw [CoinsMap.setCoins_coins_self, Option.some.injEq] at hcoins'
    exact hcoins' ▸ hclean hP
  · rw [CoinsMap.setCoins_coins_of_ne s coins heq] at hcoins'
    exact h txid' hP coins' hcoins'

theorem CleanOn.record {s : CoinsMap} (h : CleanOn P s) {txid : Uint256}
    (hP : P txid) : (s.record txid).Clean := by
  unfold CoinsMap.record
  cases hcoins : s.coins txid with
  | none => exact CCoins.clean_empty
  | some coins => exact h txid hP coins hcoins

theorem run_restoreInput (out : COutPoint) (undo : CTxInUndo) (fClean : Bool) (t : CoinsMap) :
    (restoreInput out undo fClean).run CoinsMap.handler t =
      (.ok (fClean && restoreConsistent out undo (t.record out.hash)),
        t.setCoins out.hash ((restoreBase undo (t.record out.hash)).putOutput out.n undo.txout)) :=
  rfl

/-- **Restoring reverses a spend**, on any view that shows the outputs the spend left. -/
theorem restoreInput_ok {s s' t : CoinsMap} {out : COutPoint}
    {undo : CTxInUndo} (hspend : (spendCoin out).run CoinsMap.handler s = (.ok undo, s'))
    (hheights : HeightsPos s.utxo) (hutxo : t.utxo = s'.utxo) (hclean : CleanOn P t) :
    ∃ t', (restoreInput out undo true).run CoinsMap.handler t = (.ok true, t') ∧
      t'.utxo = s.utxo ∧ CleanOn P t' ∧ t'.best = t.best := by
  obtain ⟨coins, coins', hcoins, hcspend, rfl⟩ := spendCoin_ok hspend
  obtain ⟨hcoin, herase⟩ := utxo_spend hcoins hcspend
  obtain ⟨hout, hclean', hmeta, hrest, hundo⟩ := CCoins.spend_eq_some hcspend
  have hpos : coins.nHeight ≠ 0 := (hheights _ _ hcoin).ne'
  have hnull : undo.txout.isNull = false := (CCoins.output_eq_some.mp hout).2
  -- The record met when restoring shows what the spend left of the record.
  have hrecord : ∀ n, (t.record out.hash).coinAt n = coins'.coinAt n := fun n => by
    rw [CoinsMap.coinAt_record, hutxo, CoinsMap.utxo_of_coins (CoinsMap.setCoins_coins_self ..)]
  have hpruned : (t.record out.hash).isPruned = decide (coins'.vout = []) := by
    rw [CCoins.isPruned_congr hrecord, Bool.eq_iff_iff, decide_eq_true_iff]
    constructor
    · exact hclean'.vout_eq_nil
    · intro hnil
      simp [CCoins.isPruned, hnil]
  have hrestored : ∀ restored : CCoins,
      (∀ n, restored.output n = if out.n = n then some undo.txout else coins.output n) →
      (restored.fCoinBase = coins.fCoinBase ∧ restored.nHeight = coins.nHeight ∧
        restored.nVersion = coins.nVersion) →
      (t.setCoins out.hash restored).utxo = s.utxo := by
    intro restored hroutput hrmeta
    funext o
    rw [CoinsMap.utxo_setCoins]
    split
    · next hhash =>
      rw [show o = ⟨out.hash, o.n⟩ from by rw [← hhash], CoinsMap.utxo_of_coins hcoins]
      refine CCoins.coinAt_congr (fun n => ?_) hrmeta o.n
      rw [hroutput]
      split
      · next hn => rw [← hn, hout]
      · rfl
    · next hhash => rw [hutxo, CoinsMap.utxo_setCoins, if_neg hhash]
  rw [run_restoreInput, Bool.true_and]
  by_cases hempty : coins'.vout = []
  · -- The spend emptied the record: its metadata comes from the undo data.
    rw [if_pos hempty] at hundo
    have hheight : undo.nHeight = coins.nHeight := by rw [hundo]
    have hbase : restoreBase undo (t.record out.hash) =
        ⟨coins.fCoinBase, [], coins.nHeight, coins.nVersion⟩ := by
      rw [restoreBase, if_pos (hheight ▸ hpos), hundo]
    have hconsistent : restoreConsistent out undo (t.record out.hash) = true := by
      simp [restoreConsistent, hbase, hheight, hpos, hpruned, hempty, CCoins.isAvailable]
    rw [hconsistent, hbase]
    refine ⟨_, rfl, ?_, hclean.setCoins fun _ => ?_, rfl⟩
    · refine hrestored _ (fun n => ?_) ⟨rfl, rfl, rfl⟩
      rw [CCoins.output_putOutput _ _ _ hnull]
      split
      · rfl
      · next hn =>
        have := hrest n
        rw [if_neg hn] at this
        rw [← this]
        simp [CCoins.output, hempty]
    · exact CCoins.Clean.putOutput (fun hne => absurd rfl hne) _ hnull
  · -- Outputs were left: the record still has its metadata.
    rw [if_neg hempty] at hundo
    have hzero : undo.nHeight = 0 := by rw [hundo]; rfl
    have hunpruned : (t.record out.hash).isPruned = false := by simp [hpruned, hempty]
    have hsame := CCoins.meta_eq hrecord hunpruned
    have houtput := CCoins.output_eq_of_coinAt hrecord
    have hbase : restoreBase undo (t.record out.hash) = t.record out.hash := by
      simp [restoreBase, hzero]
    have hfree : (t.record out.hash).isAvailable out.n = false := by
      rw [Bool.eq_false_iff, ne_eq, CCoins.isAvailable_iff, hrecord, CCoins.coinAt, hrest]
      simp
    have hconsistent : restoreConsistent out undo (t.record out.hash) = true := by
      simp [restoreConsistent, hbase, hzero, hunpruned, hfree]
    rw [hconsistent, hbase]
    refine ⟨_, rfl, ?_, hclean.setCoins fun hP => ?_, rfl⟩
    · refine hrestored _ (fun n => ?_)
        ⟨hsame.1.trans hmeta.1, hsame.2.1.trans hmeta.2.1, hsame.2.2.trans hmeta.2.2⟩
      rw [CCoins.output_putOutput _ _ _ hnull]
      split
      · rfl
      · next hn => rw [houtput, hrest, if_neg hn]
    · exact (hclean.record hP).putOutput _ hnull

theorem HeightsPos.erase {u : Utxo} (h : HeightsPos u) (out : COutPoint) : HeightsPos (u.erase out) := by
  intro o coin hcoin
  unfold Utxo.erase at hcoin
  split at hcoin
  · cases hcoin
  · exact h o coin hcoin

theorem HeightsPos.eraseInputs {u : Utxo} (h : HeightsPos u) (vin : List CTxIn) :
    HeightsPos (u.eraseInputs vin) := by
  intro o coin hcoin
  unfold Utxo.eraseInputs at hcoin
  split at hcoin
  · cases hcoin
  · exact h o coin hcoin

theorem HeightsPos.addOutputs {u : Utxo} (h : HeightsPos u)
    (hpos : 0 < nHeight) (txhash : Uint256) : HeightsPos (u.addOutputs tx nHeight txhash) := by
  intro o coin hcoin
  unfold Utxo.addOutputs at hcoin
  split at hcoin
  · exact (CCoins.coinAt_eq_some.mp hcoin).2.2.1 ▸ hpos
  · exact h o coin hcoin

/-- The loop over the inputs reversed, by induction on the inputs spent. -/
theorem restoreInputs_ok {vin : List CTxIn} {s s' t : CoinsMap}
    {undos : List CTxInUndo} (hspend : (spendCoins vin).run CoinsMap.handler s = (.ok undos, s'))
    (hheights : HeightsPos s.utxo) (hutxo : t.utxo = s'.utxo) (hclean : CleanOn P t) :
    undos.length = vin.length ∧
      ∃ t', (restoreInputs (vin.zip undos) true).run CoinsMap.handler t = (.ok true, t') ∧
        t'.utxo = s.utxo ∧ CleanOn P t' ∧ t'.best = t.best := by
  induction vin generalizing s undos with
  | nil =>
    simp only [spendCoins, Prog.run_pure, Prod.mk.injEq, Except.ok.injEq] at hspend
    obtain ⟨rfl, rfl⟩ := hspend
    exact ⟨rfl, t, rfl, hutxo, hclean, rfl⟩
  | cons txin vin ih =>
    obtain ⟨undo, s₁, hfirst, hrest⟩ := Prog.run_bind_eq_ok.mp hspend
    obtain ⟨undos', s₂, hvin, hpure⟩ := Prog.run_bind_eq_ok.mp hrest
    rw [Prog.run_pure, Prod.mk.injEq, Except.ok.injEq] at hpure
    obtain ⟨rfl, rfl⟩ := hpure
    have hheights₁ : HeightsPos s₁.utxo := (spendCoin_utxo hfirst).2.1 ▸ hheights.erase _
    obtain ⟨hlen, t₁, hrun, hutxo₁, hclean₁, hbest₁⟩ := ih hvin hheights₁
    obtain ⟨t', hrun', hutxo', hclean', hbest'⟩ := restoreInput_ok hfirst hheights hutxo₁ hclean₁
    refine ⟨by simp [hlen], t', ?_, hutxo', hclean', hbest'.trans hbest₁⟩
    show (restoreInputs ((txin, undo) :: vin.zip undos') true).run CoinsMap.handler t = _
    unfold restoreInputs
    rw [Prog.run_bind_of_ok hrun, hrun']

/-! ### Reversing the transactions of a block -/

/-- A chain of `UpdateCoins` steps, with the undo data of each transaction. -/
inductive Updates (env : Env) (nHeight : Int) :
    CoinsMap → List CTransaction → List CTxUndo → CoinsMap → Prop
  | nil (s : CoinsMap) : Updates env nHeight s [] [] s
  | cons {s s₁ s' : CoinsMap} {tx : CTransaction} {vtx : List CTransaction} {txundo : CTxUndo}
      {undos : List CTxUndo}
      (hupdate : (updateCoins tx nHeight (env.txHash tx)).run CoinsMap.handler s = (.ok txundo, s₁))
      (hrest : Updates env nHeight s₁ vtx undos s') :
      Updates env nHeight s (tx :: vtx) (txundo :: undos) s'

/-- The undo data `DisconnectBlock` has for a transaction: none for a coinbase. -/
def undoFor (tx : CTransaction) (txundo : CTxUndo) : Option CTxUndo :=
  if tx.isCoinBase then none else some txundo

/-- The record of a transaction is still exactly what `UpdateCoins` stored, in any view that shows
what it left. -/
theorem coins_eq_ofTx {s t : CoinsMap} (hchecked : Checked tx)
    (hutxo : t.utxo = (s.setCoins txhash (CCoins.ofTx tx nHeight)).utxo) (hclean : CleanOn P t)
    (hP : P txhash) : t.coins txhash = some (CCoins.ofTx tx nHeight) := by
  have hfull : ∀ txout ∈ (CCoins.ofTx tx nHeight).vout, txout.isNull = false :=
    fun txout hmem => hchecked.not_isNull hmem
  have hrecord : ∀ n, (t.record txhash).coinAt n = (CCoins.ofTx tx nHeight).coinAt n := fun n => by
    rw [CoinsMap.coinAt_record, hutxo, CoinsMap.utxo_of_coins (CoinsMap.setCoins_coins_self ..)]
  have houts : t.record txhash = CCoins.ofTx tx nHeight :=
    (hclean.record hP).eq_of_coinAt hchecked.vout_ne_nil hfull hrecord
  unfold CoinsMap.record at houts
  cases hcoins : t.coins txhash with
  | some coins => rw [hcoins] at houts; exact congrArg some houts
  | none =>
    rw [hcoins] at houts
    exact absurd (congrArg CCoins.vout houts).symm hchecked.vout_ne_nil

theorem spendInputs_fresh {vprevout : List CTxInUndo} {s s₁ : CoinsMap}
    (hspend : (spendInputs tx).run CoinsMap.handler s = (.ok vprevout, s₁))
    (hfresh : ∀ n, s.utxo ⟨txhash, n⟩ = none) (n : Nat) : s₁.utxo ⟨txhash, n⟩ = none := by
  unfold spendInputs at hspend
  split at hspend
  · rw [Prog.run_pure, Prod.mk.injEq] at hspend
    rw [← hspend.2, hfresh]
  · rw [(spendCoins_utxo hspend).1, Utxo.eraseInputs, hfresh]
    exact ite_self none

theorem utxo_removeOutputs {s₁ t : CoinsMap}
    (hutxo : t.utxo = (s₁.setCoins txhash (CCoins.ofTx tx nHeight)).utxo)
    (hfresh₁ : ∀ n, s₁.utxo ⟨txhash, n⟩ = none) : (t.setCoins txhash CCoins.empty).utxo = s₁.utxo := by
  funext o
  rw [CoinsMap.utxo_setCoins, hutxo, CoinsMap.utxo_setCoins]
  split
  · next hhash =>
    rw [CCoins.coinAt_empty, show o = ⟨txhash, o.n⟩ from by rw [← hhash], hfresh₁]
  · rfl

theorem disconnectTransaction_ok {txundo : CTxUndo} {s s' t : CoinsMap}
    (hupdate : (updateCoins tx nHeight (env.txHash tx)).run CoinsMap.handler s = (.ok txundo, s'))
    (hchecked : Checked tx) (hfresh : ∀ n, s.utxo ⟨env.txHash tx, n⟩ = none)
    (hheights : HeightsPos s.utxo) (hutxo : t.utxo = s'.utxo) (hclean : CleanOn P t)
    (hP : P (env.txHash tx)) :
    ∃ t', (disconnectTransaction env nHeight tx (undoFor tx txundo) true).run CoinsMap.handler t =
        (.ok true, t') ∧ t'.utxo = s.utxo ∧ CleanOn P t' ∧ t'.best = t.best := by
  obtain ⟨vprevout, s₁, hspend, hrest⟩ := Prog.run_bind_eq_ok.mp hupdate
  rw [Prog.run_bind, CoinsM.run_setCoins] at hrest
  simp only [Prog.run_pure, Prod.mk.injEq, Except.ok.injEq] at hrest
  obtain ⟨rfl, rfl⟩ := hrest
  have hfound := coins_eq_ofTx hchecked hutxo hclean hP
  have hutxo₁ := utxo_removeOutputs hutxo (spendInputs_fresh hspend hfresh)
  have hclean₁ : CleanOn P (t.setCoins (env.txHash tx) CCoins.empty) :=
    hclean.setCoins fun _ => CCoins.clean_empty
  have hversion : (if (CCoins.ofTx tx nHeight).nVersion < 0 then
      { CCoins.ofTx tx nHeight with nVersion := (CCoins.ofTx tx nHeight).nVersion }
      else CCoins.ofTx tx nHeight) = CCoins.ofTx tx nHeight := by
    split <;> rfl
  unfold disconnectTransaction
  rw [Prog.run_bind, CoinsM.run_getCoins]
  simp only [hfound, Option.getD_some, Option.isSome_some, hversion, beq_self_eq_true,
    Bool.and_true]
  rw [Prog.run_bind, CoinsM.run_setCoins]
  simp only
  unfold spendInputs at hspend
  unfold undoFor
  cases hcb : tx.isCoinBase with
  | true =>
    rw [hcb, if_pos rfl, Prog.run_pure, Prod.mk.injEq] at hspend
    exact ⟨_, rfl, by rw [hutxo₁, hspend.2], hclean₁, rfl⟩
  | false =>
    rw [hcb, if_neg Bool.false_ne_true] at hspend
    obtain ⟨hlen, t', hrun, hutxo', hclean', hbest'⟩ := restoreInputs_ok hspend hheights hutxo₁ hclean₁
    simp only [Bool.false_eq_true, if_false, hlen, ne_eq, not_true_eq_false]
    exact ⟨t', hrun, hutxo', hclean', hbest'⟩

/-- **A chain of `UpdateCoins` steps is reversed** from any view with the unspent outputs
it ended in, when none of the transactions had unspent outputs before. -/
theorem disconnectTransactions_ok {s s' t : CoinsMap} (hupdates : Updates env nHeight s vtx undos s')
    (hchecked : ∀ tx ∈ vtx, Checked tx) (hnodup : (vtx.map env.txHash).Nodup)
    (hfresh : ∀ tx ∈ vtx, ∀ n, s.utxo ⟨env.txHash tx, n⟩ = none)
    (hheights : HeightsPos s.utxo) (hpos : 0 < nHeight)
    (hutxo : t.utxo = s'.utxo) (hclean : CleanOn P t) (hP : ∀ tx ∈ vtx, P (env.txHash tx)) :
    ∃ t', (disconnectTransactions env nHeight (vtx.zip (List.zipWith undoFor vtx undos)) true).run
        CoinsMap.handler t = (.ok true, t') ∧ t'.utxo = s.utxo ∧ CleanOn P t' ∧ t'.best = t.best := by
  induction hupdates with
  | nil s => exact ⟨t, rfl, hutxo, hclean, rfl⟩
  | @cons s s₁ s' tx vtx txundo undos hupdate hrest ih =>
    have hutxo₁ := (updateCoins_ok hupdate).1
    rw [List.map_cons, List.nodup_cons] at hnodup
    have hfresh₁ : ∀ tx' ∈ vtx, ∀ n, s₁.utxo ⟨env.txHash tx', n⟩ = none := by
      intro tx' hmem n
      have hne : env.txHash tx' ≠ env.txHash tx := fun heq =>
        hnodup.1 (heq ▸ List.mem_map_of_mem hmem)
      rw [hutxo₁, Utxo.addOutputs, if_neg hne, Utxo.eraseInputs,
        hfresh tx' (List.mem_cons_of_mem _ hmem)]
      exact ite_self none
    have hheights₁ : HeightsPos s₁.utxo := hutxo₁ ▸ (hheights.eraseInputs _).addOutputs hpos _
    obtain ⟨t₁, hrun₁, hutxot, hcleant, hbestt⟩ :=
      ih (fun tx' hmem => hchecked tx' (List.mem_cons_of_mem _ hmem)) hnodup.2 hfresh₁ hheights₁
        hutxo (fun tx' hmem => hP tx' (List.mem_cons_of_mem _ hmem))
    obtain ⟨t', hrun', hutxo', hclean', hbest'⟩ :=
      disconnectTransaction_ok hupdate (hchecked tx (List.mem_cons_self ..))
        (hfresh tx (List.mem_cons_self ..)) hheights hutxot hcleant (hP tx (List.mem_cons_self ..))
    refine ⟨t', ?_, hutxo', hclean', hbest'.trans hbestt⟩
    show (disconnectTransactions env nHeight ((tx, undoFor tx txundo) ::
      vtx.zip (List.zipWith undoFor vtx undos)) true).run CoinsMap.handler t = _
    unfold disconnectTransactions
    rw [Prog.run_bind_of_ok hrun₁, hrun']

/-! ### Reversing a block -/

theorem CCoins.clean_ofTx (h : Checked tx) (nHeight : Int) :
    (CCoins.ofTx tx nHeight).Clean := fun hne => h.not_isNull (List.getLast_mem hne)

theorem CleanOn.spendCoins {vin : List CTxIn} {s s' : CoinsMap} {undos : List CTxInUndo} (h : CleanOn P s)
    (hspend : (spendCoins vin).run CoinsMap.handler s = (.ok undos, s')) : CleanOn P s' := by
  induction vin generalizing s undos with
  | nil =>
    simp only [Manna.spendCoins, Prog.run_pure, Prod.mk.injEq] at hspend
    exact hspend.2 ▸ h
  | cons txin vin ih =>
    obtain ⟨undo, s₁, hfirst, hrest⟩ := Prog.run_bind_eq_ok.mp hspend
    obtain ⟨undos', s₂, hvin, hpure⟩ := Prog.run_bind_eq_ok.mp hrest
    rw [Prog.run_pure, Prod.mk.injEq] at hpure
    obtain ⟨-, rfl⟩ := hpure
    obtain ⟨coins, coins', -, hcspend, rfl⟩ := spendCoin_ok hfirst
    exact ih (h.setCoins fun _ => (CCoins.spend_eq_some hcspend).2.1) hvin

theorem CleanOn.updateCoins {txundo : CTxUndo} {s s' : CoinsMap} (h : CleanOn P s) (hchecked : Checked tx)
    (hupdate : (updateCoins tx nHeight txhash).run CoinsMap.handler s = (.ok txundo, s')) :
    CleanOn (fun txid => P txid ∨ txid = txhash) s' := by
  obtain ⟨vprevout, s₁, hspend, hrest⟩ := Prog.run_bind_eq_ok.mp hupdate
  rw [Prog.run_bind, CoinsM.run_setCoins] at hrest
  simp only [Prog.run_pure, Prod.mk.injEq] at hrest
  obtain ⟨-, rfl⟩ := hrest
  have hclean₁ : CleanOn P s₁ := by
    unfold spendInputs at hspend
    split at hspend
    · rw [Prog.run_pure, Prod.mk.injEq] at hspend
      exact hspend.2 ▸ h
    · exact h.spendCoins hspend
  intro txid hP coins hcoins
  by_cases heq : txid = txhash
  · subst heq
    rw [CoinsMap.setCoins_coins_self, Option.some.injEq] at hcoins
    exact hcoins ▸ CCoins.clean_ofTx hchecked _
  · rw [CoinsMap.setCoins_coins_of_ne _ _ heq] at hcoins
    exact hclean₁ txid (hP.resolve_right heq) coins hcoins

/-- After a chain of steps the records of its transactions are clean. -/
theorem Updates.cleanOn {s s' : CoinsMap} (h : Updates env nHeight s vtx undos s')
    (hclean : CleanOn P s) (hchecked : ∀ tx ∈ vtx, Checked tx) :
    CleanOn (fun txid => P txid ∨ txid ∈ vtx.map env.txHash) s' := by
  induction h generalizing P with
  | nil s => exact fun txid hP => hclean txid (hP.resolve_right List.not_mem_nil)
  | @cons s s₁ s' tx vtx txundo undos hupdate hrest ih =>
    have hclean₁ := hclean.updateCoins (hchecked tx (List.mem_cons_self ..)) hupdate
    have := ih hclean₁ fun tx' hmem => hchecked tx' (List.mem_cons_of_mem _ hmem)
    intro txid hP
    refine this txid ?_
    rcases hP with hP | hmem
    · exact .inl (.inl hP)
    · rcases List.mem_cons.mp hmem with heq | hmem
      · exact .inl (.inr heq)
      · exact .inr hmem

theorem Updates.heightsPos {s s' : CoinsMap} (h : Updates env nHeight s vtx undos s')
    (hheights : HeightsPos s.utxo) (hpos : 0 < nHeight) : HeightsPos s'.utxo := by
  induction h with
  | nil s => exact hheights
  | cons hupdate _ ih =>
    exact ih ((updateCoins_ok hupdate).1 ▸ (hheights.eraseInputs _).addOutputs hpos _)

theorem connectChecksAt_vtxundo {params : ConnectParams}
    {state state' : ConnectState} {u : Utxo} {nBestHeight : Option Int}
    (h : connectChecksAt env params tx state u nBestHeight = .ok state') :
    state'.vtxundo = state.vtxundo := by
  rcases connectChecksAt_ok h with ⟨-, nValueOut, -, rfl⟩ | ⟨-, hinputs⟩
  · rfl
  · obtain ⟨coins, nTxValueIn, nFees, nHeight, vChecks, -, -, -, -, -, rfl⟩ :=
      connectInputsAt_ok hinputs
    rfl

/-- The loop of `ConnectBlock` is a chain of `UpdateCoins` steps and collects the undo data
of all but coinbases. -/
theorem connectTransactions_updates {params : ConnectParams} {state state' : ConnectState} {s s' : CoinsMap}
    (h : (connectTransactions env params vtx state).run CoinsMap.handler s = (.ok state', s')) :
    ∃ undos, Updates env params.pindex.nHeight s vtx undos s' ∧
      state'.vtxundo = state.vtxundo ++ (List.zipWith undoFor vtx undos).filterMap id := by
  induction vtx generalizing state s with
  | nil =>
    simp only [connectTransactions, Prog.run_pure, Prod.mk.injEq, Except.ok.injEq] at h
    obtain ⟨rfl, rfl⟩ := h
    exact ⟨[], .nil s, by simp⟩
  | cons tx vtx ih =>
    obtain ⟨state₁, s₁, hfirst, hrest⟩ := Prog.run_bind_eq_ok.mp h
    obtain ⟨checked, txundo, hchecked, hupdate, hstate⟩ := connectTransaction_ok hfirst
    obtain ⟨undos, hupdates, hvtxundo⟩ := ih hrest
    refine ⟨txundo :: undos, .cons hupdate hupdates, ?_⟩
    have hsame := connectChecksAt_vtxundo hchecked
    rw [hvtxundo, hstate, List.zipWith_cons_cons]
    cases hcb : tx.isCoinBase with
    | true => simp [hsame, undoFor, hcb]
    | false => simp [hsame, undoFor, hcb]

theorem connectBlockChecks_ok {nAdjustedTime : Int} {heights : Uint256 → Option Int}
    {block : CBlock} {pindex : CBlockIndex} {fJustCheck : Bool} {s s' : CoinsMap} {state : ConnectState}
    (h : (connectBlockChecks env nAdjustedTime heights block pindex fJustCheck).run CoinsMap.handler s =
      (.ok (some state), s')) : CheckedBlock env block ∧ pindex.pprev = s.best ∧
      (∀ tx ∈ block.vtx, ∀ n, s.utxo ⟨env.txHash tx, n⟩ = none) ∧
      (connectTransactions env (.of heights pindex) block.vtx .init).run CoinsMap.handler s =
        (.ok state, s') ∧ connectFinish env block pindex state = .ok state := by
  classical
  obtain ⟨_, s₁, hcheck, h⟩ := Prog.run_bind_eq_ok.mp h
  rw [Prog.run_ofExcept, Prod.mk.injEq] at hcheck
  obtain ⟨hcheck, rfl⟩ := hcheck
  obtain ⟨best, s₁, hbest, h⟩ := Prog.run_bind_eq_ok.mp h
  rw [CoinsM.run_getBestBlock, Prod.mk.injEq, Except.ok.injEq] at hbest
  obtain ⟨rfl, rfl⟩ := hbest
  split at h
  · simp at h
  · next hprev =>
    split at h
    · rw [Prog.run_bind, CoinsM.run_setBestBlock] at h
      simp at h
    · obtain ⟨_, s₁, hfresh, h⟩ := Prog.run_bind_eq_ok.mp h
      rw [run_checkOverwrite, Prod.mk.injEq] at hfresh
      obtain ⟨hfresh, rfl⟩ := hfresh
      obtain ⟨state₁, s₁, htxs, h⟩ := Prog.run_bind_eq_ok.mp h
      obtain ⟨state₂, s₂, hfinish, h⟩ := Prog.run_bind_eq_ok.mp h
      rw [Prog.run_ofExcept, Prod.mk.injEq] at hfinish
      obtain ⟨hfinish, rfl⟩ := hfinish
      rw [Prog.run_pure, Prod.mk.injEq, Except.ok.injEq, Option.some.injEq] at h
      obtain ⟨rfl, rfl⟩ := h
      obtain rfl := (connectFinish_ok hfinish).1
      refine ⟨.of_checkBlock hcheck, not_not.mp hprev, ?_, htxs, hfinish⟩
      split at hfresh
      · next hall =>
        exact fun tx hmem => hall _ (List.mem_map_of_mem hmem)
      · cases hfresh

theorem connectBlockChecks_none {nAdjustedTime : Int} {heights : Uint256 → Option Int}
    {block : CBlock} {pindex : CBlockIndex} {fJustCheck : Bool} {s s' : CoinsMap}
    (h : (connectBlockChecks env nAdjustedTime heights block pindex fJustCheck).run CoinsMap.handler s =
      (.ok none, s')) : pindex.pprev = s.best ∧ block.getHash env = env.hashGenesisBlock ∧
      s' = s.setBest pindex.phashBlock := by
  obtain ⟨_, s₁, hcheck, hrest⟩ := Prog.run_bind_eq_ok.mp h
  rw [Prog.run_ofExcept, Prod.mk.injEq] at hcheck
  obtain ⟨-, rfl⟩ := hcheck
  obtain ⟨best, s₂, hread, hrest⟩ := Prog.run_bind_eq_ok.mp hrest
  rw [CoinsM.run_getBestBlock, Prod.mk.injEq, Except.ok.injEq] at hread
  obtain ⟨rfl, rfl⟩ := hread
  split at hrest
  · cases congrArg Prod.fst hrest
  · next hprev =>
    split at hrest
    · next hgenesis =>
      obtain ⟨_, s₃, hset, hpure⟩ := Prog.run_bind_eq_ok.mp hrest
      rw [CoinsM.run_setBestBlock, Prod.mk.injEq] at hset
      cases hpure
      exact ⟨not_not.mp hprev, hgenesis, hset.2.symm⟩
    · obtain ⟨_, s₃, -, hrest⟩ := Prog.run_bind_eq_ok.mp hrest
      obtain ⟨_, s₄, -, hrest⟩ := Prog.run_bind_eq_ok.mp hrest
      obtain ⟨_, s₅, -, hrest⟩ := Prog.run_bind_eq_ok.mp hrest
      cases congrArg Prod.fst hrest

end Manna
