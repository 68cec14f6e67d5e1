import Manna.CoinsView
import Manna.SpentFlags

/-!
The repair of the spent flags (`wallet.cpp`: `FixSpentCoins`, as built with `PPCOINSTAKE`).

The flags are compared with the records of the UTXO set. A transaction without a record is passed over, also
where it is fully spent, and the memory pool is not asked.

* `fixOutputs_spec`, `fixTransactions_spec`: what the loops find, and what they do about it;
* `fixSpentCoins_repairs`: where there is a record, the flags follow it;
* `not_forall_fixed`: a pending spend is forgotten, and a fully spent transaction is not repaired.
-/

namespace Manna

namespace Wallet

open SpentFlags

namespace FixSpentCoins

/-! ### The source -/

/-- What a run reports, and what `WriteToDisk` writes on the way. -/
structure Report where
  nMismatchFound : Int32
  nBalanceInQuestion : Int64
  vWritten : List (Uint256 × CWalletTx)

/-- A run: the wallet, and its view above `pcoinsTip`. -/
structure FixRun (σ : Type) where
  wallet : CWallet
  view : CCoinsViewCache σ
  report : Report

section Source

variable (env : WalletEnv) (keystore : KeyStoreView) (fCheckOnly : Bool)

/-- A coin is found lost or spent: it is counted, and marked if this is a repair. -/
def found (mark : CWalletTx → Nat → Option CWalletTx) (output : CTxOut × Nat) (s : CWalletTx × Report) :
    Option (CWalletTx × Report) :=
  let report :=
    { s.2 with
      nMismatchFound := s.2.nMismatchFound + 1
      nBalanceInQuestion := s.2.nBalanceInQuestion + Int64.ofInt output.1.nValue }
  if fCheckOnly then some (s.1, report)
  else
    (mark s.1 output.2).map fun pcoin =>
      (pcoin, { report with vWritten := report.vWritten ++ [(env.txHash pcoin.toCTransaction, pcoin)] })

/-- A round of the loop over the outputs. -/
def fixOutput (coins : CCoins) (s : CWalletTx × Report) (output : CTxOut × Nat) :
    Option (CWalletTx × Report) :=
  if keystore.isMine output.1.scriptPubKey && s.1.isSpent output.2 && coins.isAvailable output.2 then
    found env fCheckOnly CWalletTx.markUnspent output s
  else if keystore.isMine output.1.scriptPubKey && !s.1.isSpent output.2 && !coins.isAvailable output.2 then
    found env fCheckOnly CWalletTx.markSpent output s
  else some s

variable {σ : Type} [CoinsView σ]

/-- A round of the loop over the transactions. -/
def fixTransaction (s : FixRun σ) (hash : Uint256) : Option (FixRun σ) :=
  match s.wallet.mapWallet.lookup hash with
  | none => some s
  | some pcoin =>
    match s.view.fetchCoins (env.txHash pcoin.toCTransaction) with
    | (none, view) => some { s with view }
    | (some coins, view) =>
      (pcoin.vout.zipIdx.foldlM (fixOutput env s.wallet.keystore fCheckOnly coins)
        (pcoin, s.report)).map fun (pcoin, report) =>
          { wallet := { s.wallet with mapWallet := s.wallet.mapWallet.insert hash pcoin }, view, report }

/-- `FixSpentCoins`; `none` where it throws. -/
def fixSpentCoins (pcoinsTip : σ) (w : CWallet) : Option (FixRun σ) :=
  (w.mapWallet.keys.sort (· ≤ ·)).foldlM (fixTransaction env fCheckOnly) ⟨w, .new pcoinsTip, ⟨0, 0, []⟩⟩

end Source

def outputsAt (w : CWallet) (hash : Uint256) : List (COutPoint × CTxOut) :=
  match w.mapWallet.lookup hash with
  | none => []
  | some wtx => wtx.vout.zipIdx.map fun output => (⟨hash, output.2⟩, output.1)

/-- The outputs of the wallet, one after the other. -/
def outputs (w : CWallet) : List (COutPoint × CTxOut) :=
  (w.mapWallet.keys.sort (· ≤ ·)).flatMap (outputsAt w)

/-- The outputs whose flag is another one afterwards. -/
def flipped (w w' : CWallet) : List (COutPoint × CTxOut) :=
  (outputs w).filter fun o => spentFlag w o.1 != spentFlag w' o.1

/-- A view has the UTXO set of the active chain. -/
def IsUtxo (env : Env) (s : NodeState) (m : CoinsMap) : Prop := ∀ o, (m.utxo o).isSome = s.utxo env o

/-- **The flags are fixed**: every own output of a transaction of the active chain is flagged spent exactly
when it is not in the UTXO set or a transaction of the memory pool spends it. -/
def Fixed (env : WalletEnv) (s : NodeState) (m : CoinsMap) (w : CWallet) : Prop :=
  ∀ hash wtx, w.mapWallet.lookup hash = some wtx → wtx.toCTransaction ∈ s.chainTxs →
    ∀ n txout, wtx.vout[n]? = some txout → w.keystore.isMine txout.scriptPubKey = true →
      (wtx.isSpent n = true ↔ m.utxo ⟨env.txHash wtx.toCTransaction, n⟩ = none ∨
        s.SpentByPool ⟨env.txHash wtx.toCTransaction, n⟩)

/-- **The flags follow the records** of the UTXO set. -/
def FollowsRecords (env : WalletEnv) (m : CoinsMap) (w : CWallet) : Prop :=
  ∀ hash wtx, w.mapWallet.lookup hash = some wtx → (m.coins (env.txHash wtx.toCTransaction)).isSome = true →
    ∀ n txout, wtx.vout[n]? = some txout → w.keystore.isMine txout.scriptPubKey = true →
      (wtx.isSpent n = true ↔ m.utxo ⟨env.txHash wtx.toCTransaction, n⟩ = none)

section Reports

variable {report report' report'' : Report} {vFound vFound' : List CTxOut}

/-- What was found is added to a report. -/
structure Report.Adds (vFound : List CTxOut) (report report' : Report) : Prop where
  nMismatchFound : report'.nMismatchFound = report.nMismatchFound + Int32.ofNat vFound.length
  nBalanceInQuestion :
    report'.nBalanceInQuestion = report.nBalanceInQuestion + Int64.ofInt (vFound.map CTxOut.nValue).sum

theorem Report.Adds.refl (report : Report) : report.Adds [] report where
  nMismatchFound := (Int32.add_zero _).symm
  nBalanceInQuestion := (Int64.add_zero _).symm

theorem Report.Adds.append (h : report.Adds vFound report') (h' : report'.Adds vFound' report'') :
    report.Adds (vFound ++ vFound') report'' where
  nMismatchFound := by
    rw [h'.nMismatchFound, h.nMismatchFound, List.length_append, Int32.ofNat_add, Int32.add_assoc]
  nBalanceInQuestion := by
    rw [h'.nBalanceInQuestion, h.nBalanceInQuestion, List.map_append, List.sum_append, Int64.ofInt_add,
      Int64.add_assoc]

end Reports

/-! ### The loop over the outputs -/

section Outputs

variable {env : WalletEnv} {keystore : KeyStoreView} {fCheckOnly : Bool} {coins : CCoins}
  {pcoin pcoin' pcoin'' : CWalletTx} {report report' report'' : Report} {vFound vFound' : List (CTxOut × Nat)}

/-- An own output whose flag does not follow the record. -/
def mismatched (keystore : KeyStoreView) (coins : CCoins) (pcoin : CWalletTx) (output : CTxOut × Nat) : Bool :=
  keystore.isMine output.1.scriptPubKey && (pcoin.isSpent output.2 == coins.isAvailable output.2)

/-- **What the loop over the outputs does** about those it finds: a repair flips their flags, and nothing is
touched otherwise. -/
structure Repairs (fCheckOnly : Bool) (vFound : List (CTxOut × Nat)) (pcoin : CWalletTx) (report : Report)
    (pcoin' : CWalletTx) (report' : Report) : Prop where
  toCTransaction : pcoin'.toCTransaction = pcoin.toCTransaction
  isSpent : ∀ i < pcoin.vout.length,
    pcoin'.isSpent i = (pcoin.isSpent i ^^ (!fCheckOnly && decide (i ∈ vFound.map Prod.snd)))
  adds : report.Adds (vFound.map Prod.fst) report'
  untouched : fCheckOnly = true ∨ vFound = [] → pcoin' = pcoin ∧ report'.vWritten = report.vWritten

theorem Repairs.refl (fCheckOnly : Bool) (pcoin : CWalletTx) (report : Report) :
    Repairs fCheckOnly [] pcoin report pcoin report where
  toCTransaction := rfl
  isSpent i _ := by simp
  adds := .refl report
  untouched _ := ⟨rfl, rfl⟩

theorem Repairs.append (h : Repairs fCheckOnly vFound pcoin report pcoin' report')
    (h' : Repairs fCheckOnly vFound' pcoin' report' pcoin'' report'')
    (hnew : ∀ i ∈ vFound.map Prod.snd, i ∉ vFound'.map Prod.snd) :
    Repairs fCheckOnly (vFound ++ vFound') pcoin report pcoin'' report'' where
  toCTransaction := h'.toCTransaction.trans h.toCTransaction
  isSpent i hi := by
    have htx : pcoin'.vout = pcoin.vout := congrArg CTransaction.vout h.toCTransaction
    rw [h'.isSpent i (by rwa [htx]), h.isSpent i hi, List.map_append]
    by_cases hmem : i ∈ vFound.map Prod.snd
    · have hfresh := hnew i hmem
      simp only [List.mem_append, hmem, hfresh, true_or, decide_true, decide_false, Bool.and_false, Bool.xor_false]
    · simp only [List.mem_append, hmem, false_or, decide_false, Bool.and_false, Bool.xor_false]
  adds := by
    rw [List.map_append]
    exact h.adds.append h'.adds
  untouched hkeep := by
    have hkeep' : (fCheckOnly = true ∨ vFound = []) ∧ (fCheckOnly = true ∨ vFound' = []) := by
      rcases hkeep with hcheck | hnil
      · exact ⟨.inl hcheck, .inl hcheck⟩
      · obtain ⟨hnil, hnil'⟩ := List.append_eq_nil_iff.mp hnil
        exact ⟨.inr hnil, .inr hnil'⟩
    obtain ⟨hcoin, hwritten⟩ := h.untouched hkeep'.1
    obtain ⟨hcoin', hwritten'⟩ := h'.untouched hkeep'.2
    exact ⟨hcoin'.trans hcoin, hwritten'.trans hwritten⟩

/-- A coin that is found is counted, and its flag set. -/
theorem found_spec {mark : CWalletTx → Nat → Option CWalletTx} {fSpent : Bool} {output : CTxOut × Nat}
    (hmark : mark pcoin output.2 = some (pcoin.setSpent output.2 fSpent))
    (hflag : pcoin.isSpent output.2 = !fSpent) (report : Report) :
    ∃ pcoin' report', found env fCheckOnly mark output (pcoin, report) = some (pcoin', report') ∧
      Repairs fCheckOnly [output] pcoin report pcoin' report' := by
  have hadds : ∀ vWritten, report.Adds [output.1]
      ⟨report.nMismatchFound + 1, report.nBalanceInQuestion + Int64.ofInt output.1.nValue, vWritten⟩ := by
    intro vWritten
    exact ⟨rfl, by simp⟩
  unfold found
  cases fCheckOnly with
  | true => exact ⟨pcoin, _, rfl, rfl, fun i _ => by simp, hadds _, fun _ => ⟨rfl, rfl⟩⟩
  | false =>
    rw [hmark]
    refine ⟨_, _, rfl, pcoin.toCTransaction_setSpent output.2 fSpent, fun i hi => ?_, hadds _, fun hkeep => ?_⟩
    · rw [pcoin.isSpent_setSpent fSpent hi]
      by_cases heq : i = output.2
      · subst heq
        simp [hflag]
      · simp [heq]
    · simp at hkeep

/-- **A round** finds the output if its flag does not follow the record. -/
theorem fixOutput_spec (env : WalletEnv) (keystore : KeyStoreView) (fCheckOnly : Bool) (coins : CCoins)
    {output : CTxOut × Nat} (hout : pcoin.vout[output.2]? = some output.1) (report : Report) :
    ∃ pcoin' report', fixOutput env keystore fCheckOnly coins (pcoin, report) output = some (pcoin', report') ∧
      Repairs fCheckOnly ([output].filter (mismatched keystore coins pcoin)) pcoin report pcoin' report' := by
  have hlt : output.2 < pcoin.vout.length := (List.getElem?_eq_some_iff.mp hout).1
  have hspent : pcoin.markSpent output.2 = some (pcoin.setSpent output.2 true) := if_neg (by omega)
  have hunspent : pcoin.markUnspent output.2 = some (pcoin.setSpent output.2 false) := if_neg (by omega)
  unfold fixOutput
  dsimp only
  rw [List.filter_cons, List.filter_nil, mismatched]
  cases hmine : keystore.isMine output.1.scriptPubKey <;> cases hflag : pcoin.isSpent output.2 <;>
    cases hcoin : coins.isAvailable output.2
  case true.true.true => exact found_spec hunspent hflag report
  case true.false.false => exact found_spec hspent hflag report
  all_goals exact ⟨pcoin, report, rfl, .refl fCheckOnly pcoin report⟩

/-- **The loop over the outputs** finds those whose flags do not follow the record. -/
theorem fixOutputs_spec (env : WalletEnv) (keystore : KeyStoreView) (fCheckOnly : Bool) (coins : CCoins) :
    ∀ (vout : List (CTxOut × Nat)) (pcoin : CWalletTx) (report : Report),
      (∀ output ∈ vout, pcoin.vout[output.2]? = some output.1) → (vout.map Prod.snd).Nodup →
      ∃ pcoin' report',
        vout.foldlM (fixOutput env keystore fCheckOnly coins) (pcoin, report) = some (pcoin', report') ∧
        Repairs fCheckOnly (vout.filter (mismatched keystore coins pcoin)) pcoin report pcoin' report'
  | [], pcoin, report, _, _ => ⟨pcoin, report, rfl, .refl fCheckOnly pcoin report⟩
  | output :: vout, pcoin, report, hmem, hnodup => by
    obtain ⟨hnew, hnodup⟩ := List.nodup_cons.mp hnodup
    have hout := hmem output List.mem_cons_self
    obtain ⟨pcoin', report', hround, hrepairs⟩ := fixOutput_spec env keystore fCheckOnly coins hout report
    have htx : pcoin'.vout = pcoin.vout := congrArg CTransaction.vout hrepairs.toCTransaction
    obtain ⟨pcoin'', report'', hrest, hrepairs'⟩ := fixOutputs_spec env keystore fCheckOnly coins vout pcoin' report'
      (fun o ho => htx ▸ hmem o (List.mem_cons_of_mem _ ho)) hnodup
    have honly : ∀ i ∈ ([output].filter (mismatched keystore coins pcoin)).map Prod.snd, i = output.2 := by
      intro i hi
      obtain ⟨o, ho, rfl⟩ := List.mem_map.mp hi
      rw [List.mem_singleton.mp (List.mem_of_mem_filter ho)]
    -- the round leaves the flags of the outputs after it
    have hlater : vout.filter (mismatched keystore coins pcoin') = vout.filter (mismatched keystore coins pcoin) := by
      refine List.filter_congr fun o ho => ?_
      have hlt := (List.getElem?_eq_some_iff.mp (hmem o (List.mem_cons_of_mem _ ho))).1
      have hother : o.2 ∉ ([output].filter (mismatched keystore coins pcoin)).map Prod.snd := fun hin =>
        hnew (honly _ hin ▸ List.mem_map_of_mem ho)
      rw [mismatched, mismatched, hrepairs.isSpent o.2 hlt, decide_eq_false hother, Bool.and_false, Bool.xor_false]
    rw [hlater] at hrepairs'
    refine ⟨pcoin'', report'', ?_, ?_⟩
    · rw [List.foldlM_cons, hround]
      exact hrest
    · have happend := hrepairs.append hrepairs' fun i hi hi' => by
        obtain ⟨o, ho, heq⟩ := List.mem_map.mp hi'
        exact hnew (honly i hi ▸ heq ▸ List.mem_map_of_mem (List.mem_of_mem_filter ho))
      rwa [← List.filter_append] at happend

end Outputs

/-! ### The loop over the transactions -/

section Transactions

variable {env : WalletEnv} {fCheckOnly : Bool} {σ : Type} [CoinsView σ] {hashes : List Uint256}
  {s s' s'' : FixRun σ}

/-- An own output of the wallet whose flag does not follow the record. -/
def misflagged (env : WalletEnv) (m : CoinsMap) (w : CWallet) (o : COutPoint) : Bool :=
  match w.mapWallet.lookup o.hash with
  | none => false
  | some pcoin =>
    match m.coins (env.txHash pcoin.toCTransaction), pcoin.vout[o.n]? with
    | some coins, some txout => mismatched w.keystore coins pcoin (txout, o.n)
    | _, _ => false

def foundAt (env : WalletEnv) (m : CoinsMap) (w : CWallet) (hashes : List Uint256) : List (COutPoint × CTxOut) :=
  (hashes.flatMap (outputsAt w)).filter fun o => misflagged env m w o.1

/-- **What the loop over the transactions does** at the given hashes. -/
structure RepairsAt (env : WalletEnv) (fCheckOnly : Bool) (hashes : List Uint256) (s s' : FixRun σ) : Prop where
  frame : ∃ mapWallet, s'.wallet = { s.wallet with mapWallet }
  contents : s'.view.contents = s.view.contents
  base : CoinsView.contents s'.view.base = CoinsView.contents s.view.base
  txAt : ∀ hash, txAt s'.wallet hash = txAt s.wallet hash
  elsewhere : ∀ hash ∉ hashes, s'.wallet.mapWallet.lookup hash = s.wallet.mapWallet.lookup hash
  flags : ∀ o, spentFlag s'.wallet o = (spentFlag s.wallet o ^^
    (!fCheckOnly && decide (o.hash ∈ hashes) && misflagged env s.view.contents s.wallet o))
  adds : s.report.Adds ((foundAt env s.view.contents s.wallet hashes).map Prod.snd) s'.report
  untouched : fCheckOnly = true ∨ foundAt env s.view.contents s.wallet hashes = [] →
    s'.wallet = s.wallet ∧ s'.report.vWritten = s.report.vWritten

theorem RepairsAt.refl (s : FixRun σ) : RepairsAt env fCheckOnly [] s s where
  frame := ⟨s.wallet.mapWallet, rfl⟩
  contents := rfl
  base := rfl
  txAt _ := rfl
  elsewhere _ _ := rfl
  flags o := by simp
  adds := .refl s.report
  untouched _ := ⟨rfl, rfl⟩

theorem RepairsAt.keystore (h : RepairsAt env fCheckOnly hashes s s') :
    s'.wallet.keystore = s.wallet.keystore := by
  obtain ⟨mapWallet, heq⟩ := h.frame
  rw [heq]

variable {m : CoinsMap} {hash : Uint256}

/-- What is found depends on the keys and on the transactions. -/
theorem misflagged_congr {w w' : CWallet} (hkeys : w'.keystore = w.keystore) {o : COutPoint}
    (hlookup : w'.mapWallet.lookup o.hash = w.mapWallet.lookup o.hash) :
    misflagged env m w' o = misflagged env m w o := by
  rw [misflagged, misflagged, hlookup, hkeys]

theorem hash_of_mem_outputsAt {w : CWallet} {o : COutPoint × CTxOut}
    (h : o ∈ outputsAt w hash) : o.1.hash = hash := by
  unfold outputsAt at h
  cases hlookup : w.mapWallet.lookup hash with
  | none => simp [hlookup] at h
  | some wtx =>
    rw [hlookup] at h
    obtain ⟨output, _, rfl⟩ := List.mem_map.mp h
    rfl

theorem foundAt_congr {w w' : CWallet} (hkeys : w'.keystore = w.keystore)
    (hlookup : ∀ hash ∈ hashes, w'.mapWallet.lookup hash = w.mapWallet.lookup hash) :
    foundAt env m w' hashes = foundAt env m w hashes := by
  have houtputs : hashes.flatMap (outputsAt w') = hashes.flatMap (outputsAt w) :=
    List.flatMap_congr fun hash hmem => by rw [outputsAt, outputsAt, hlookup hash hmem]
  rw [foundAt, foundAt, houtputs]
  refine List.filter_congr fun o ho => ?_
  obtain ⟨hash, hmem, ho⟩ := List.mem_flatMap.mp ho
  exact misflagged_congr hkeys (by rw [hash_of_mem_outputsAt ho, hlookup hash hmem])

theorem foundAt_cons (m : CoinsMap) (w : CWallet) (hash : Uint256) (hashes : List Uint256) :
    foundAt env m w (hash :: hashes) = foundAt env m w [hash] ++ foundAt env m w hashes := by
  rw [foundAt, List.flatMap_cons, List.filter_append, foundAt, foundAt, List.flatMap_singleton]

theorem RepairsAt.cons (h : RepairsAt env fCheckOnly [hash] s s')
    (h' : RepairsAt env fCheckOnly hashes s' s'') (hnew : hash ∉ hashes) :
    RepairsAt env fCheckOnly (hash :: hashes) s s'' := by
  have hlookup : ∀ other ∈ hashes, s'.wallet.mapWallet.lookup other = s.wallet.mapWallet.lookup other :=
    fun other hmem => h.elsewhere other fun heq => hnew (List.mem_singleton.mp heq ▸ hmem)
  have hfound : foundAt env s'.view.contents s'.wallet hashes = foundAt env s.view.contents s.wallet hashes := by
    rw [h.contents]
    exact foundAt_congr h.keystore hlookup
  exact {
    frame := by
      obtain ⟨mapWallet, heq⟩ := h.frame
      obtain ⟨mapWallet', heq'⟩ := h'.frame
      exact ⟨mapWallet', by rw [heq', heq]⟩
    contents := h'.contents.trans h.contents
    base := h'.base.trans h.base
    txAt := fun hash => (h'.txAt hash).trans (h.txAt hash)
    elsewhere := fun other hother => by
      obtain ⟨hne, hother⟩ := not_or.mp (mt List.mem_cons.mpr hother)
      rw [h'.elsewhere other hother, h.elsewhere other fun heq => hne (List.mem_singleton.mp heq)]
    flags := fun o => by
      rw [h'.flags o, h.flags o]
      by_cases hmem : o.hash ∈ hashes
      · have hne : o.hash ≠ hash := fun heq => hnew (heq ▸ hmem)
        rw [misflagged_congr h.keystore (hlookup o.hash hmem), h.contents]
        simp [hmem, hne]
      · simp [hmem]
    adds := by
      rw [foundAt_cons, List.map_append, ← hfound]
      exact h.adds.append h'.adds
    untouched := fun hkeep => by
      rw [foundAt_cons, List.append_eq_nil_iff, ← hfound] at hkeep
      obtain ⟨hwallet, hwritten⟩ := h.untouched (hkeep.imp_right And.left)
      obtain ⟨hwallet', hwritten'⟩ := h'.untouched (hkeep.imp_right And.right)
      exact ⟨hwallet'.trans hwallet, hwritten'.trans hwritten⟩ }

theorem misflagged_eq {w : CWallet} {o : COutPoint} {pcoin : CWalletTx} {coins : CCoins}
    {txout : CTxOut} (hlookup : w.mapWallet.lookup o.hash = some pcoin)
    (hcoins : m.coins (env.txHash pcoin.toCTransaction) = some coins) (hout : pcoin.vout[o.n]? = some txout) :
    misflagged env m w o = mismatched w.keystore coins pcoin (txout, o.n) := by
  rw [misflagged, hlookup]
  dsimp only
  rw [hcoins, hout]

theorem foundAt_eq_nil {w : CWallet} (h : ∀ o, o.hash ∈ hashes → misflagged env m w o = false) :
    foundAt env m w hashes = [] := by
  rw [foundAt, List.filter_eq_nil_iff]
  intro o ho
  obtain ⟨hash, hmem, ho⟩ := List.mem_flatMap.mp ho
  rw [h o.1 (by rwa [hash_of_mem_outputsAt ho])]
  exact Bool.false_ne_true

theorem foundAt_singleton {w : CWallet} {pcoin : CWalletTx} {coins : CCoins}
    (hlookup : w.mapWallet.lookup hash = some pcoin)
    (hcoins : m.coins (env.txHash pcoin.toCTransaction) = some coins) :
    foundAt env m w [hash] = (pcoin.vout.zipIdx.filter (mismatched w.keystore coins pcoin)).map
      fun output => (⟨hash, output.2⟩, output.1) := by
  rw [foundAt, List.flatMap_singleton, outputsAt, hlookup, List.filter_map]
  refine congrArg _ (List.filter_congr fun output hmem => ?_)
  exact misflagged_eq (o := ⟨hash, output.2⟩) hlookup hcoins (List.mem_zipIdx_iff_getElem?.mp hmem)

/-- **A transaction without a record**, or a hash without a transaction, is passed over. -/
theorem RepairsAt.skip {view : CCoinsViewCache σ} (hcontents : view.contents = s.view.contents)
    (hbase : CoinsView.contents view.base = CoinsView.contents s.view.base)
    (h : ∀ o : COutPoint, o.hash = hash → misflagged env s.view.contents s.wallet o = false) :
    RepairsAt env fCheckOnly [hash] s { s with view } := by
  have hnil : foundAt env s.view.contents s.wallet [hash] = [] :=
    foundAt_eq_nil fun o ho => h o (List.mem_singleton.mp ho)
  exact {
    frame := ⟨s.wallet.mapWallet, rfl⟩
    contents := hcontents
    base := hbase
    txAt := fun _ => rfl
    elsewhere := fun _ _ => rfl
    flags := fun o => by
      by_cases heq : o.hash = hash
      · rw [h o heq, Bool.and_false, Bool.xor_false]
      · rw [decide_eq_false (mt List.mem_singleton.mp heq), Bool.and_false, Bool.false_and, Bool.xor_false]
    adds := hnil ▸ .refl s.report
    untouched := fun _ => ⟨rfl, rfl⟩ }

/-- **A transaction with a record**: its outputs are gone through. -/
theorem RepairsAt.record {view : CCoinsViewCache σ} {pcoin pcoin' : CWalletTx}
    {report' : Report} {coins : CCoins} (hcontents : view.contents = s.view.contents)
    (hbase : CoinsView.contents view.base = CoinsView.contents s.view.base)
    (hlookup : s.wallet.mapWallet.lookup hash = some pcoin)
    (hcoins : s.view.contents.coins (env.txHash pcoin.toCTransaction) = some coins)
    (h : Repairs fCheckOnly (pcoin.vout.zipIdx.filter (mismatched s.wallet.keystore coins pcoin)) pcoin s.report
      pcoin' report') : RepairsAt env fCheckOnly [hash] s
      ⟨{ s.wallet with mapWallet := s.wallet.mapWallet.insert hash pcoin' }, view, report'⟩ := by
  have hfound := foundAt_singleton hlookup hcoins
  have hvout : pcoin'.vout = pcoin.vout := congrArg CTransaction.vout h.toCTransaction
  exact {
    frame := ⟨_, rfl⟩
    contents := hcontents
    base := hbase
    txAt := fun other => by
      rw [txAt_insert]
      split_ifs with heq
      · rw [heq, SpentFlags.txAt, hlookup, h.toCTransaction]
        rfl
      · rfl
    elsewhere := fun other hother => Finmap.lookup_insert_of_ne _ (mt List.mem_singleton.mpr hother)
    flags := fun o => by
      rw [spentFlag_insert]
      split_ifs with heq
      · rw [spentFlag, heq, hlookup, hvout, decide_eq_true (List.mem_singleton_self hash), Bool.and_true]
        dsimp only
        cases hout : pcoin.vout[o.n]? with
        | none =>
          have hge : ¬ o.n < pcoin.vout.length := Nat.not_lt.mpr (List.getElem?_eq_none_iff.mp hout)
          rw [decide_eq_false hge, misflagged, heq, hlookup]
          dsimp only
          rw [hcoins, hout, Bool.and_false, Bool.false_and]
          rfl
        | some txout =>
          have hlt : o.n < pcoin.vout.length := (List.getElem?_eq_some_iff.mp hout).1
          have hmem : o.n ∈ (pcoin.vout.zipIdx.filter (mismatched s.wallet.keystore coins pcoin)).map Prod.snd ↔
              mismatched s.wallet.keystore coins pcoin (txout, o.n) = true := by
            rw [List.mem_map]
            constructor
            · rintro ⟨output, hmem, hn⟩
              obtain ⟨hmem, hmis⟩ := List.mem_filter.mp hmem
              have hout' := List.mem_zipIdx_iff_getElem?.mp hmem
              rw [hn, hout, Option.some.injEq] at hout'
              rwa [← hn, hout']
            · intro hmis
              exact ⟨(txout, o.n), List.mem_filter.mpr ⟨List.mem_zipIdx_iff_getElem?.mpr hout, hmis⟩, rfl⟩
          rw [h.isSpent o.n hlt, decide_eq_true hlt, Bool.true_and, Bool.true_and,
            misflagged_eq (heq ▸ hlookup) hcoins hout]
          simp only [hmem, Bool.decide_eq_true]
      · rw [decide_eq_false (mt List.mem_singleton.mp heq), Bool.and_false, Bool.false_and, Bool.xor_false]
    adds := by
      rw [hfound, List.map_map]
      exact h.adds
    untouched := fun hkeep => by
      rw [hfound, List.map_eq_nil_iff] at hkeep
      obtain ⟨rfl, hwritten⟩ := h.untouched hkeep
      refine ⟨?_, hwritten⟩
      have hsame : s.wallet.mapWallet.insert hash pcoin' = s.wallet.mapWallet := by
        refine Finmap.ext_lookup fun other => ?_
        by_cases heq : other = hash
        · rw [heq, Finmap.lookup_insert, hlookup]
        · rw [Finmap.lookup_insert_of_ne _ heq]
      rw [hsame] }

/-- **A round of the loop over the transactions.** -/
theorem fixTransaction_spec (env : WalletEnv) (fCheckOnly : Bool) (s : FixRun σ) (hash : Uint256) :
    ∃ s', fixTransaction env fCheckOnly s hash = some s' ∧ RepairsAt env fCheckOnly [hash] s s' := by
  unfold fixTransaction
  cases hlookup : s.wallet.mapWallet.lookup hash with
  | none =>
    refine ⟨s, rfl, .skip rfl rfl fun o ho => ?_⟩
    rw [misflagged, ho, hlookup]
  | some pcoin =>
    obtain ⟨hfetch, hcontents, hbase⟩ := s.view.fetchCoins_spec (env.txHash pcoin.toCTransaction)
    dsimp only
    generalize s.view.fetchCoins (env.txHash pcoin.toCTransaction) = fetched at hfetch hcontents hbase
    obtain ⟨record, view⟩ := fetched
    dsimp only at hfetch hcontents hbase
    cases record with
    | none =>
      refine ⟨_, rfl, .skip hcontents hbase fun o ho => ?_⟩
      rw [misflagged, ho, hlookup]
      dsimp only
      rw [← hfetch]
    | some coins =>
      have hnodup : (pcoin.vout.zipIdx.map Prod.snd).Nodup := by
        rw [List.zipIdx_map_snd]
        exact List.nodup_range'
      obtain ⟨pcoin', report', hloop, hrepairs⟩ := fixOutputs_spec env s.wallet.keystore fCheckOnly coins
        pcoin.vout.zipIdx pcoin s.report (fun output hmem => List.mem_zipIdx_iff_getElem?.mp hmem) hnodup
      dsimp only
      rw [hloop]
      exact ⟨_, rfl, .record hcontents hbase hlookup hfetch.symm hrepairs⟩

/-- **The loop over the transactions.** -/
theorem fixTransactions_spec (env : WalletEnv) (fCheckOnly : Bool) :
    ∀ (hashes : List Uint256) (s : FixRun σ), hashes.Nodup →
      ∃ s', hashes.foldlM (fixTransaction env fCheckOnly) s = some s' ∧ RepairsAt env fCheckOnly hashes s s'
  | [], s, _ => ⟨s, rfl, .refl s⟩
  | hash :: hashes, s, hnodup => by
    obtain ⟨hnew, hnodup⟩ := List.nodup_cons.mp hnodup
    obtain ⟨s', hround, hrepairs⟩ := fixTransaction_spec env fCheckOnly s hash
    obtain ⟨s'', hrest, hrepairs'⟩ := fixTransactions_spec env fCheckOnly hashes s' hnodup
    refine ⟨s'', ?_, hrepairs.cons hrepairs' hnew⟩
    rw [List.foldlM_cons, hround]
    exact hrest

end Transactions

/-! ### The runs -/

section Runs

variable {env : WalletEnv} {σ : Type} [CoinsView σ] {m : CoinsMap} {w : CWallet}

theorem fixSpentCoins_spec (env : WalletEnv) (fCheckOnly : Bool) (pcoinsTip : σ) (w : CWallet) :
    ∃ r, fixSpentCoins env fCheckOnly pcoinsTip w = some r ∧
      RepairsAt env fCheckOnly (w.mapWallet.keys.sort (· ≤ ·)) ⟨w, .new pcoinsTip, ⟨0, 0, []⟩⟩ r :=
  fixTransactions_spec env fCheckOnly _ _ (Finset.sort_nodup _ _)

theorem FollowsRecords.misflagged (h : FollowsRecords env m w) (o : COutPoint) :
    misflagged env m w o = false := by
  unfold FixSpentCoins.misflagged
  cases hlookup : w.mapWallet.lookup o.hash with
  | none => rfl
  | some pcoin =>
    dsimp only
    cases hcoins : m.coins (env.txHash pcoin.toCTransaction) with
    | none => rfl
    | some coins =>
      cases hout : pcoin.vout[o.n]? with
      | none => rfl
      | some txout =>
        dsimp only
        rw [mismatched, Bool.and_eq_false_imp]
        intro hmine
        have hflag := h o.hash pcoin hlookup (by rw [hcoins]; rfl) o.n txout hout hmine
        rw [CoinsMap.utxo_of_coins hcoins] at hflag
        have havailable := coins.isAvailable_iff (n := o.n)
        dsimp only
        cases hcoin : coins.coinAt o.n with
        | none =>
          rw [hcoin] at hflag havailable
          rw [hflag.mpr rfl, Bool.eq_false_iff.mpr (mt havailable.mp Bool.false_ne_true)]
          rfl
        | some coin =>
          rw [hcoin] at hflag havailable
          rw [Bool.eq_false_iff.mpr (mt hflag.mp (Option.some_ne_none coin)), havailable.mpr rfl]
          rfl

/-- **A repair** makes the flags follow the records. -/
theorem RepairsAt.followsRecords {hashes : List Uint256} {s s' : FixRun σ}
    (h : RepairsAt env false hashes s s') (hall : ∀ hash ∈ s.wallet.mapWallet.keys, hash ∈ hashes) :
    FollowsRecords env s.view.contents s'.wallet := by
  intro hash wtx' hlookup' hrecord n txout hout hmine
  have htx := h.txAt hash
  unfold SpentFlags.txAt at htx
  rw [hlookup', Option.map_some] at htx
  obtain ⟨wtx, hlookup, heq⟩ := Option.map_eq_some_iff.mp htx.symm
  rw [← heq] at hrecord ⊢
  obtain ⟨coins, hcoins⟩ := Option.isSome_iff_exists.mp hrecord
  have hvout : wtx.vout = wtx'.vout := congrArg CTransaction.vout heq
  have hlt : n < wtx'.vout.length := (List.getElem?_eq_some_iff.mp hout).1
  have hkey : hash ∈ hashes :=
    hall hash (Finmap.mem_keys.mpr (Finmap.lookup_isSome.mp (by rw [hlookup]; rfl)))
  have hflag := h.flags ⟨hash, n⟩
  rw [misflagged_eq hlookup hcoins (hvout ▸ hout), mismatched, ← h.keystore, hmine, spentFlag, spentFlag] at hflag
  dsimp only at hflag
  rw [hlookup, hlookup'] at hflag
  dsimp only at hflag
  rw [hvout, decide_eq_true hlt, decide_eq_true hkey] at hflag
  rw [CoinsMap.utxo_of_coins hcoins, ← Option.not_isSome_iff_eq_none, ← coins.isAvailable_iff]
  cases hspent : wtx.isSpent n <;> cases hcoin : coins.isAvailable n <;>
    simpa [hspent, hcoin] using hflag

/-- **What a repair flips** is what is found. -/
theorem flipped_eq {hashes : List Uint256} {s s' : FixRun σ} (h : RepairsAt env false hashes s s')
    (hall : hashes = s.wallet.mapWallet.keys.sort (· ≤ ·)) :
    flipped s.wallet s'.wallet = foundAt env s.view.contents s.wallet hashes := by
  rw [flipped, outputs, foundAt, ← hall]
  refine List.filter_congr fun o ho => ?_
  obtain ⟨hash, hmem, ho⟩ := List.mem_flatMap.mp ho
  rw [h.flags o.1, hash_of_mem_outputsAt ho, decide_eq_true hmem]
  cases spentFlag s.wallet o.1 <;> cases misflagged env s.view.contents s.wallet o.1 <;> rfl

/-- **`FixSpentCoins`**, for every wallet and UTXO set: a check changes nothing and reports the number and the
total value of the outputs that the repair flips, as an `int` and an `int64_t`; after the repair the flags
follow the records; and a second run, of either kind, finds nothing and changes nothing. -/
theorem fixSpentCoins_repairs (env : WalletEnv) (pcoinsTip : σ) (w : CWallet) :
    ∃ check repair,
      fixSpentCoins env true pcoinsTip w = some check ∧ fixSpentCoins env false pcoinsTip w = some repair ∧
      (check.wallet = w ∧ check.report.vWritten = [] ∧
        CoinsView.contents check.view.base = CoinsView.contents pcoinsTip) ∧
      check.report.nMismatchFound = Int32.ofNat (flipped w repair.wallet).length ∧
      check.report.nBalanceInQuestion =
        Int64.ofInt ((flipped w repair.wallet).map fun output => output.2.nValue).sum ∧
      (∀ hash, txAt repair.wallet hash = txAt w hash) ∧
      FollowsRecords env (CoinsView.contents pcoinsTip) repair.wallet ∧
      ∀ fCheckOnly, ∃ again, fixSpentCoins env fCheckOnly repair.view.base repair.wallet = some again ∧
        again.report = ⟨0, 0, []⟩ ∧ again.wallet = repair.wallet := by
  obtain ⟨check, hcheck, hchecked⟩ := fixSpentCoins_spec env true pcoinsTip w
  obtain ⟨repair, hrepair, hrepaired⟩ := fixSpentCoins_spec env false pcoinsTip w
  have hnew : (CCoinsViewCache.new pcoinsTip).contents = CoinsView.contents pcoinsTip :=
    CCoinsViewCache.contents_new pcoinsTip
  have hflipped := flipped_eq hrepaired rfl
  have hfollows : FollowsRecords env (CoinsView.contents pcoinsTip) repair.wallet :=
    hnew ▸ hrepaired.followsRecords fun hash hmem => (Finset.mem_sort _).mpr hmem
  have hkept := hchecked.untouched (.inl rfl)
  refine ⟨check, repair, hcheck, hrepair, ⟨hkept.1, hkept.2, hchecked.base⟩, ?_, ?_, hrepaired.txAt, hfollows,
    fun fCheckOnly => ?_⟩
  · rw [hchecked.adds.nMismatchFound, hflipped, List.length_map]
    exact Int32.zero_add _
  · rw [hchecked.adds.nBalanceInQuestion, hflipped, List.map_map]
    exact Int64.zero_add _
  · obtain ⟨again, hagain, hruns⟩ := fixSpentCoins_spec env fCheckOnly repair.view.base repair.wallet
    have hnil : foundAt env (CCoinsViewCache.new repair.view.base).contents repair.wallet
        (repair.wallet.mapWallet.keys.sort (· ≤ ·)) = [] := by
      refine foundAt_eq_nil fun o _ => FollowsRecords.misflagged ?_ o
      rw [CCoinsViewCache.contents_new, hrepaired.base]
      exact hfollows
    obtain ⟨hwallet, hwritten⟩ := hruns.untouched (.inr hnil)
    have hadds := hruns.adds
    rw [hnil] at hadds
    refine ⟨again, hagain, ?_, hwallet⟩
    obtain ⟨report, hreport⟩ : ∃ report, again.report = report := ⟨_, rfl⟩
    rw [hreport] at hadds hwritten ⊢
    obtain ⟨nMismatchFound, nBalanceInQuestion, vWritten⟩ := report
    cases hadds.nMismatchFound
    cases hadds.nBalanceInQuestion
    cases hwritten
    rfl

end Runs

/-! ### Samples -/

namespace Sample

open SpentFlags.Sample (wenv start payment spend)

def walletOf (vfSpent : List Bool) : CWallet :=
  { start.wallet with mapWallet := Finmap.singleton 1 { CWalletTx.ofTransaction payment with vfSpent } }

/-- The coin is spent in the memory pool, and flagged. -/
def pending : NodeState := ⟨start.vBlocks ++ [[payment]], CTxMemPool.empty.addUnchecked 5 spend, walletOf [true]⟩

/-- The coin is spent in the chain, and not flagged. -/
def gone : NodeState := ⟨start.vBlocks ++ [[payment], [spend]], .empty, walletOf [false]⟩

/-- The record of the transaction before. -/
def payer : CCoins := ⟨false, [.null, ⟨9 * CENT, [0]⟩], 1, 1⟩

def pendingCoins : CCoinsViewDB :=
  ⟨fun txid => if txid = 100 then some payer else if txid = 1 then some (.ofTx payment 2) else none, none⟩

def goneCoins : CCoinsViewDB :=
  ⟨fun txid => if txid = 100 then some payer else if txid = 5 then some (.ofTx spend 3) else none, none⟩

theorem isUtxo_pending : IsUtxo sampleEnv pending (CoinsView.contents pendingCoins) := by
  rintro ⟨hash, n⟩
  by_cases hpayer : hash = 100
  · subst hpayer
    rcases n with _ | _ | n
    · decide
    · decide
    · simp [NodeState.utxo, chainUtxo, stepUtxo, NodeState.chainTxs, pending, start, payment, Spends,
        CoinsMap.utxo, CoinsView.contents, pendingCoins, payer, CCoins.coinAt, CCoins.output, sampleIn, sampleEnv]
  · by_cases hpayment : hash = 1
    · subst hpayment
      rcases n with _ | n
      · decide
      · simp [NodeState.utxo, chainUtxo, stepUtxo, NodeState.chainTxs, pending, start, payment, Spends,
          CoinsMap.utxo,
          CoinsView.contents, pendingCoins, CCoins.ofTx, CCoins.coinAt, CCoins.output, sampleIn, sampleEnv]
    · simp [NodeState.utxo, chainUtxo, stepUtxo, NodeState.chainTxs, pending, start, payment, Spends,
        CoinsMap.utxo, CoinsView.contents, pendingCoins, hpayer, hpayment, sampleIn, sampleEnv]

theorem isUtxo_gone : IsUtxo sampleEnv gone (CoinsView.contents goneCoins) := by
  rintro ⟨hash, n⟩
  by_cases hpayer : hash = 100
  · subst hpayer
    rcases n with _ | _ | n
    · decide
    · decide
    · simp [NodeState.utxo, chainUtxo, stepUtxo, NodeState.chainTxs, gone, start, payment, spend, Spends,
        CoinsMap.utxo, CoinsView.contents, goneCoins, payer, CCoins.coinAt, CCoins.output, sampleIn, sampleEnv]
  · by_cases hspend : hash = 5
    · subst hspend
      rcases n with _ | n
      · decide
      · simp [NodeState.utxo, chainUtxo, stepUtxo, NodeState.chainTxs, gone, start, payment, spend, Spends,
        CoinsMap.utxo, CoinsView.contents, goneCoins, CCoins.ofTx, CCoins.coinAt, CCoins.output, sampleIn, sampleEnv]
    · simp [NodeState.utxo, chainUtxo, stepUtxo, NodeState.chainTxs, gone, start, payment, spend, Spends,
        CoinsMap.utxo, CoinsView.contents, goneCoins, hpayer, hspend, sampleIn, sampleEnv]

theorem not_fixed_of_flag {s : NodeState} {m : CoinsMap} {w : CWallet} (htx : txAt w 1 = some payment)
    (hkeys : w.keystore = start.wallet.keystore) (hflag : spentFlag w ⟨1, 0⟩ = false)
    (hchain : payment ∈ s.chainTxs) (hspent : m.utxo ⟨1, 0⟩ = none ∨ s.SpentByPool ⟨1, 0⟩) :
    ¬ Fixed wenv s m w := by
  intro hfixed
  obtain ⟨wtx, hlookup, heq⟩ := Option.map_eq_some_iff.mp htx
  have hvout : wtx.vout[0]? = some ⟨8 * CENT, []⟩ := by
    rw [show wtx.vout = payment.vout from congrArg CTransaction.vout heq]
    rfl
  have hset := (hfixed 1 wtx hlookup (heq ▸ hchain) 0 _ hvout (by rw [hkeys]; rfl)).mpr (heq ▸ hspent)
  rw [spentFlag, hlookup] at hflag
  dsimp only at hflag
  rw [hset, decide_eq_true (List.getElem?_eq_some_iff.mp hvout).1] at hflag
  cases hflag

end Sample

open Sample SpentFlags.Sample in
/-- **The flags are not fixed**: the flag of a coin that is spent in the memory pool is cleared, and that of
a fully spent transaction stays clear. -/
theorem not_forall_fixed :
    ¬ (∀ r, fixSpentCoins wenv false pendingCoins pending.wallet = some r →
      Fixed wenv pending (CoinsView.contents pendingCoins) r.wallet) ∧
    ¬ (∀ r, fixSpentCoins wenv false goneCoins gone.wallet = some r →
      Fixed wenv gone (CoinsView.contents goneCoins) r.wallet) ∧
    IsUtxo sampleEnv pending (CoinsView.contents pendingCoins) ∧
    IsUtxo sampleEnv gone (CoinsView.contents goneCoins) := by
  refine ⟨fun hall => ?_, fun hall => ?_, isUtxo_pending, isUtxo_gone⟩
  · obtain ⟨r, hrun, hrepairs⟩ := fixSpentCoins_spec wenv false pendingCoins pending.wallet
    have hpool : pending.SpentByPool ⟨1, 0⟩ := ⟨spend, ⟨5, rfl⟩, by decide⟩
    refine not_fixed_of_flag ((hrepairs.txAt 1).trans rfl) hrepairs.keystore ?_ (by decide) (.inr hpool) (hall r hrun)
    have hmem : 1 ∈ pending.wallet.mapWallet.keys.sort (· ≤ ·) := (Finset.mem_sort _).mpr (by decide)
    rw [hrepairs.flags, decide_eq_true hmem]
    decide
  · obtain ⟨r, hrun, hrepairs⟩ := fixSpentCoins_spec wenv false goneCoins gone.wallet
    refine not_fixed_of_flag ((hrepairs.txAt 1).trans rfl) hrepairs.keystore ?_ (by decide) (.inl rfl) (hall r hrun)
    have hmem : 1 ∈ gone.wallet.mapWallet.keys.sort (· ≤ ·) := (Finset.mem_sort _).mpr (by decide)
    rw [hrepairs.flags, decide_eq_true hmem]
    decide

end FixSpentCoins

end Wallet

end Manna
