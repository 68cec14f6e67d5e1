import Manna.CheckInputs

/-!
Spending the inputs and adding the outputs of a transaction (`main.cpp`: `UpdateCoins`).

* `spendCoin_ok`, `updateCoins_ok`: the effect, step by step on the map and as a whole on
  its `utxo`;
* `related_updateCoins`: on views that are equal up to pruned records the outcome, the
  undo data included, is the same.
-/

namespace Manna

open OpProg

/-- One round of the loop that marks inputs spent. -/
def spendCoin (prevout : COutPoint) : CoinsM CTxInUndo := do
  let coins ← CoinsM.fetch prevout.hash
  match coins.spend prevout with
  | none => Prog.fail .assertion
  | some (coins, undo) =>
    CoinsM.setCoins prevout.hash coins
    pure undo

def spendCoins : List CTxIn → CoinsM (List CTxInUndo)
  | [] => pure []
  | txin :: vin => do
    let undo ← spendCoin txin.prevout
    let undos ← spendCoins vin
    pure (undo :: undos)

/-- The loop that marks inputs spent; a coinbase has none. -/
def spendInputs (tx : CTransaction) : CoinsM (List CTxInUndo) :=
  if tx.isCoinBase then pure [] else spendCoins tx.vin

def updateCoins (tx : CTransaction) (nHeight : Int) (txhash : Uint256) : CoinsM CTxUndo := do
  let vprevout ← spendInputs tx
  CoinsM.setCoins txhash (CCoins.ofTx tx nHeight)
  pure ⟨vprevout⟩

/-! ### The effect -/

/-- Removing one outpoint. -/
def Utxo.erase (u : Utxo) (out : COutPoint) : Utxo := fun o => if o = out then none else u o

def Utxo.eraseInputs (u : Utxo) (vin : List CTxIn) : Utxo := fun o =>
  if o ∈ vin.map (·.prevout) then none else u o

/-- Adding the outputs of a transaction over whatever its hash had. -/
def Utxo.addOutputs (u : Utxo) (tx : CTransaction) (nHeight : Int) (txhash : Uint256) : Utxo :=
  fun o => if o.hash = txhash then (CCoins.ofTx tx nHeight).coinAt o.n else u o

theorem Utxo.eraseInputs_nil (u : Utxo) : u.eraseInputs [] = u := by
  funext o
  simp [Utxo.eraseInputs]

theorem Utxo.eraseInputs_cons (u : Utxo) (txin : CTxIn) (vin : List CTxIn) :
    u.eraseInputs (txin :: vin) = (u.erase txin.prevout).eraseInputs vin := by
  funext o
  by_cases h : o = txin.prevout
  · simp [Utxo.eraseInputs, Utxo.erase, h]
  · simp [Utxo.eraseInputs, Utxo.erase, h]

variable {prevout : COutPoint} {s : CoinsMap} {undo : CTxInUndo}

theorem spendCoin_ok {s' : CoinsMap} (h : (spendCoin prevout).run CoinsMap.handler s = (.ok undo, s')) :
    ∃ coins coins', s.coins prevout.hash = some coins ∧
      coins.spend prevout = some (coins', undo) ∧ s' = s.setCoins prevout.hash coins' := by
  unfold spendCoin at h
  rw [Prog.run_bind, CoinsM.run_fetch] at h
  cases hcoins : s.coins prevout.hash with
  | none => simp [hcoins] at h
  | some coins =>
    simp only [hcoins] at h
    cases hspend : coins.spend prevout with
    | none => simp [hspend] at h
    | some out =>
      obtain ⟨coins', undo'⟩ := out
      simp only [hspend] at h
      rw [Prog.run_bind, CoinsM.run_setCoins] at h
      simp only [Prog.run_pure, Prod.mk.injEq, Except.ok.injEq] at h
      obtain ⟨rfl, rfl⟩ := h
      exact ⟨coins, coins', rfl, hspend, rfl⟩

theorem utxo_spend {coins coins' : CCoins} (hcoins : s.coins prevout.hash = some coins)
    (hspend : coins.spend prevout = some (coins', undo)) :
    s.utxo prevout = some ⟨undo.txout, coins.fCoinBase, coins.nHeight, coins.nVersion⟩ ∧
      (s.setCoins prevout.hash coins').utxo = s.utxo.erase prevout := by
  obtain ⟨hout, -, hmeta, hrest, -⟩ := CCoins.spend_eq_some hspend
  refine ⟨?_, ?_⟩
  · rw [show prevout = ⟨prevout.hash, prevout.n⟩ from rfl, CoinsMap.utxo_of_coins hcoins]
    exact CCoins.coinAt_eq_some.mpr ⟨hout, rfl, rfl, rfl⟩
  · funext o
    rw [CoinsMap.utxo_setCoins]
    unfold Utxo.erase
    by_cases hhash : o.hash = prevout.hash
    · have hself : s.utxo o = coins.coinAt o.n := by
        rw [show o = ⟨prevout.hash, o.n⟩ from by rw [← hhash], CoinsMap.utxo_of_coins hcoins]
      rw [if_pos hhash, hself]
      unfold CCoins.coinAt
      rw [hrest, hmeta.1, hmeta.2.1, hmeta.2.2]
      by_cases hn : prevout.n = o.n
      · have : o = prevout := by
          cases o
          cases prevout
          simp_all
        simp [this]
      · have : o ≠ prevout := fun heq => hn (by rw [heq])
        simp [hn, this]
    · have : o ≠ prevout := fun heq => hhash (by rw [heq])
      rw [if_neg hhash, if_neg this]

theorem spendCoin_utxo {s' : CoinsMap} (h : (spendCoin prevout).run CoinsMap.handler s = (.ok undo, s')) :
    (s.utxo prevout).isSome = true ∧ s'.utxo = s.utxo.erase prevout ∧ s'.best = s.best := by
  obtain ⟨coins, coins', hcoins, hspend, rfl⟩ := spendCoin_ok h
  obtain ⟨hsome, herase⟩ := utxo_spend hcoins hspend
  exact ⟨by rw [hsome]; rfl, herase, rfl⟩

/-- A successful round of spending: the inputs are unspent, one after the other. -/
theorem spendCoins_utxo {vin : List CTxIn} {s' : CoinsMap} {undos : List CTxInUndo}
    (h : (spendCoins vin).run CoinsMap.handler s = (.ok undos, s')) :
    s'.utxo = s.utxo.eraseInputs vin ∧ s'.best = s.best := by
  induction vin generalizing s undos with
  | nil =>
    simp only [spendCoins, Prog.run_pure, Prod.mk.injEq] at h
    exact ⟨by rw [← h.2, Utxo.eraseInputs_nil], by rw [← h.2]⟩
  | cons txin vin ih =>
    obtain ⟨undo, s₁, hfirst, hrest⟩ := Prog.run_bind_eq_ok.mp h
    obtain ⟨undos', s₂, hvin, hpure⟩ := Prog.run_bind_eq_ok.mp hrest
    simp only [Prog.run_pure, Prod.mk.injEq] at hpure
    obtain ⟨-, rfl⟩ := hpure
    obtain ⟨-, hutxo, hbest⟩ := spendCoin_utxo hfirst
    obtain ⟨hutxo', hbest'⟩ := ih hvin
    exact ⟨by rw [hutxo', hutxo, Utxo.eraseInputs_cons], by rw [hbest', hbest]⟩

/-- `UpdateCoins` on the unspent outputs: the inputs go, the outputs come. -/
theorem updateCoins_ok {tx : CTransaction} {nHeight : Int} {txhash : Uint256} {s' : CoinsMap}
    {txundo : CTxUndo} (h : (updateCoins tx nHeight txhash).run CoinsMap.handler s = (.ok txundo, s')) :
    s'.utxo = (s.utxo.eraseInputs (if tx.isCoinBase then [] else tx.vin)).addOutputs
        tx nHeight txhash ∧ s'.best = s.best := by
  obtain ⟨vprevout, s₁, hspend, hrest⟩ := Prog.run_bind_eq_ok.mp h
  rw [Prog.run_bind, CoinsM.run_setCoins] at hrest
  simp only [Prog.run_pure, Prod.mk.injEq] at hrest
  obtain ⟨-, rfl⟩ := hrest
  have heffect : s₁.utxo = s.utxo.eraseInputs (if tx.isCoinBase then [] else tx.vin) ∧
      s₁.best = s.best := by
    unfold spendInputs at hspend
    cases hcb : tx.isCoinBase with
    | true =>
      simp only [hcb, if_true, Prog.run_pure, Prod.mk.injEq] at hspend
      rw [← hspend.2]
      exact ⟨(Utxo.eraseInputs_nil _).symm, rfl⟩
    | false =>
      simp only [hcb, Bool.false_eq_true, if_false] at hspend
      exact spendCoins_utxo hspend
  refine ⟨?_, heffect.2⟩
  funext o
  rw [CoinsMap.utxo_setCoins, heffect.1]
  rfl

theorem spendCoin_isOk (h : (s.utxo prevout).isSome = true) :
    ∃ undo s', (spendCoin prevout).run CoinsMap.handler s = (.ok undo, s') := by
  unfold spendCoin
  rw [Prog.run_bind, CoinsM.run_fetch]
  rw [show prevout = ⟨prevout.hash, prevout.n⟩ from rfl] at h
  cases hcoins : s.coins prevout.hash with
  | none => simp [CoinsMap.utxo_of_none hcoins] at h
  | some coins =>
    rw [CoinsMap.utxo_of_coins hcoins] at h
    obtain ⟨coins', undo, hspend⟩ := CCoins.spend_isSome (CCoins.isAvailable_iff.mpr h)
    simp only [hspend]
    exact ⟨undo, _, rfl⟩

/-- Distinct inputs that are unspent can be spent, one after the other. -/
theorem spendCoins_isOk {vin : List CTxIn} (hnodup : (vin.map (·.prevout)).Nodup)
    (h : ∀ txin ∈ vin, (s.utxo txin.prevout).isSome = true) :
    ∃ undos s', (spendCoins vin).run CoinsMap.handler s = (.ok undos, s') := by
  induction vin generalizing s with
  | nil => exact ⟨[], s, rfl⟩
  | cons txin vin ih =>
    rw [List.map_cons, List.nodup_cons] at hnodup
    rw [List.forall_mem_cons] at h
    obtain ⟨undo, s₁, hfirst⟩ := spendCoin_isOk h.1
    obtain ⟨undos, s₂, hvin⟩ := ih (s := s₁) hnodup.2 (fun txin' hmem => by
      have hne : txin'.prevout ≠ txin.prevout := fun heq =>
        hnodup.1 (heq ▸ List.mem_map_of_mem hmem)
      rw [(spendCoin_utxo hfirst).2.1, Utxo.erase, if_neg hne]
      exact h.2 txin' hmem)
    refine ⟨undo :: undos, s₂, ?_⟩
    unfold spendCoins
    rw [Prog.run_bind_of_ok hfirst, Prog.run_bind_of_ok hvin]
    rfl

/-- `UpdateCoins` does not fail on a transaction whose inputs are there. -/
theorem updateCoins_isOk {tx : CTransaction} {nHeight : Int} {txhash : Uint256}
    (hnodup : (tx.vin.map (·.prevout)).Nodup)
    (h : tx.isCoinBase = false → ∀ txin ∈ tx.vin, (s.utxo txin.prevout).isSome = true) :
    ∃ txundo s', (updateCoins tx nHeight txhash).run CoinsMap.handler s = (.ok txundo, s') := by
  have hspend : ∃ undos s₁, (spendInputs tx).run CoinsMap.handler s = (.ok undos, s₁) := by
    unfold spendInputs
    split
    · exact ⟨[], s, rfl⟩
    · next hcb => exact spendCoins_isOk hnodup (h (by simpa using hcb))
  obtain ⟨undos, s₁, hspend⟩ := hspend
  refine ⟨⟨undos⟩, s₁.setCoins txhash (CCoins.ofTx tx nHeight), ?_⟩
  unfold updateCoins
  rw [Prog.run_bind_of_ok hspend]
  rfl

/-! ### Independence from pruned records -/

theorem CCoins.spend_congr {c d c' : CCoins} {out : COutPoint}
    (h : ∀ n, c.coinAt n = d.coinAt n) (hc : c.spend out = some (c', undo)) :
    ∃ d', d.spend out = some (d', undo) ∧ ∀ n, c'.coinAt n = d'.coinAt n := by
  have havail : d.isAvailable out.n = true := by
    rw [isAvailable_iff, ← h, coinAt, (spend_eq_some hc).1]
    rfl
  obtain ⟨d', undo', hd⟩ := spend_isSome havail
  obtain ⟨hout, hclean, hmeta, hrest, hundo⟩ := spend_eq_some hc
  obtain ⟨hout', hclean', hmeta', hrest', hundo'⟩ := spend_eq_some hd
  have houtput := output_eq_of_coinAt h
  have hunpruned : c.isPruned = false := by
    by_contra hp
    have := isPruned_iff.mp (Bool.not_eq_false _ ▸ hp) out.n
    simp [coinAt, hout] at this
  have hsame := meta_eq h hunpruned
  have hcoin : ∀ n, c'.coinAt n = d'.coinAt n :=
    coinAt_congr (fun n => by rw [hrest, hrest', houtput])
      ⟨by rw [hmeta.1, hmeta'.1, hsame.1], by rw [hmeta.2.1, hmeta'.2.1, hsame.2.1],
        by rw [hmeta.2.2, hmeta'.2.2, hsame.2.2]⟩
  have hempty : c'.vout = [] ↔ d'.vout = [] := by
    constructor
    · intro hnil
      exact hclean'.vout_eq_nil (isPruned_congr hcoin ▸ by simp [isPruned, hnil])
    · intro hnil
      exact hclean.vout_eq_nil (isPruned_congr hcoin ▸ by simp [isPruned, hnil])
  have htxout : undo'.txout = undo.txout := by
    rw [houtput, hout'] at hout
    exact Option.some.inj hout
  refine ⟨d', ?_, hcoin⟩
  rw [hd, hundo, hundo', htxout, hsame.1, hsame.2.1, hsame.2.2]
  simp only [hempty]

theorem CCoins.spend_eq_none_congr {c d : CCoins} {out : COutPoint}
    (h : ∀ n, c.coinAt n = d.coinAt n) (hc : c.spend out = none) : d.spend out = none := by
  cases hd : d.spend out with
  | none => rfl
  | some result =>
    obtain ⟨d', undo⟩ := result
    obtain ⟨c', hc', -⟩ := spend_congr (fun n => (h n).symm) hd
    rw [hc] at hc'
    cases hc'

open CoinsMap in
theorem related_spendCoin (prevout : COutPoint) :
    Related handler handler ViewEq Eq (spendCoin prevout) (spendCoin prevout) := by
  intro s t hview
  have hutxo : ∀ n, s.utxo ⟨prevout.hash, n⟩ = t.utxo ⟨prevout.hash, n⟩ := fun n => by rw [hview.1]
  have hcoin : ∀ n, (s.record prevout.hash).coinAt n = (t.record prevout.hash).coinAt n := fun n => by
    rw [coinAt_record, coinAt_record, hutxo]
  -- A missing record and an empty one both fail, with the same assertion.
  have hrun : ∀ u : CoinsMap, (spendCoin prevout).run handler u =
      match (u.record prevout.hash).spend prevout with
      | none => (.error .assertion, u)
      | some (coins, undo) => (.ok undo, u.setCoins prevout.hash coins) := by
    intro u
    unfold spendCoin record
    rw [Prog.run_bind, CoinsM.run_fetch]
    cases u.coins prevout.hash with
    | none => rfl
    | some coins =>
      simp only [Option.getD_some]
      cases coins.spend prevout with
      | none => rfl
      | some out => rfl
  rw [hrun, hrun]
  cases hs : (s.record prevout.hash).spend prevout with
  | none =>
    rw [CCoins.spend_eq_none_congr hcoin hs]
    exact ⟨rfl, hview⟩
  | some out =>
    obtain ⟨c', undo⟩ := out
    obtain ⟨d', hd, hcoin'⟩ := CCoins.spend_congr hcoin hs
    rw [hd]
    refine ⟨rfl, ?_, hview.2⟩
    funext o
    rw [utxo_setCoins, utxo_setCoins, hview.1, hcoin']

open CoinsMap in
theorem related_setCoins (txid : Uint256) (coins : CCoins) :
    Related handler handler ViewEq Eq (CoinsM.setCoins txid coins) (CoinsM.setCoins txid coins) := by
  intro s t hview
  refine ⟨rfl, ?_, hview.2⟩
  funext o
  show (s.setCoins txid coins).utxo o = (t.setCoins txid coins).utxo o
  rw [utxo_setCoins, utxo_setCoins, hview.1]

open CoinsMap in
theorem related_spendCoins (vin : List CTxIn) :
    Related handler handler ViewEq Eq (spendCoins vin) (spendCoins vin) := by
  induction vin with
  | nil => exact Related.ret rfl
  | cons txin vin ih =>
    refine Related.bind (related_spendCoin txin.prevout) fun undo undo' hundo => ?_
    refine Related.bind ih fun undos undos' hundos => ?_
    exact Related.ret (by rw [hundo, hundos])

open CoinsMap in
theorem related_updateCoins (tx : CTransaction) (nHeight : Int) (txhash : Uint256) :
    Related handler handler ViewEq Eq (updateCoins tx nHeight txhash) (updateCoins tx nHeight txhash) := by
  refine Related.bind (V := Eq) ?_ fun undos undos' hundos => ?_
  · unfold spendInputs
    exact Related.ite Iff.rfl (fun _ => Related.ret rfl) fun _ => related_spendCoins tx.vin
  · refine Related.bind (related_setCoins _ _) fun _ _ _ => ?_
    exact Related.ret (by rw [hundos])

end Manna
