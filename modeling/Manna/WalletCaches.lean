import Manna.Lib.Memo
import Manna.Wallet

/-!
The cached amounts of wallet transactions (`wallet.h`, `wallet.cpp`).

A cached amount depends on other transactions of the wallet, on its keys and scripts and on its
address book. What changes those does not always reset what depends on them.

* `Transparent`: what is asked of the caches;
* `Clean`: a step that changes nothing a cached amount depends on;
* `transparent_of_run`: runs of clean steps keep the caches transparent.
-/

namespace Manna

namespace Wallet

namespace WalletCaches

open Memo

/-- A wallet, and the chain it looks at. -/
structure State where
  wallet : CWallet
  chain : ChainView

/-- What may happen to a wallet. -/
inductive Action where
  | addToWallet (newKeys : List NewKey) (wtxIn : CWalletTx)
  | markSpent (hash : Uint256) (nOut : Nat)
  | markUnspent (hash : Uint256) (nOut : Nat)
  | updateSpent (hash : Uint256) (vfNewSpent : List Bool)
  | bindWallet (hash : Uint256)
  | markDirty
  | setChain (chain : ChainView)
  /-- `AddKey` and `AddCScript`, with which the key store answers otherwise. -/
  | addKey (keystore : KeyStoreView)
  | get (hash : Uint256) (fUseCache : Bool) (c : Cache)

/-- A step; a function that throws leaves the transaction as it was. -/
def step (env : WalletEnv) (s : State) : Action → State
  | .addToWallet newKeys wtxIn =>
    { s with wallet := (s.wallet.addToWallet env s.chain newKeys wtxIn).2 }
  | .markSpent hash nOut =>
    { s with wallet := s.wallet.modifyTx hash fun wtx => (wtx.markSpent nOut).getD wtx }
  | .markUnspent hash nOut =>
    { s with wallet := s.wallet.modifyTx hash fun wtx => (wtx.markUnspent nOut).getD wtx }
  | .updateSpent hash vfNewSpent =>
    { s with wallet := s.wallet.modifyTx hash fun wtx => wtx.updateSpent vfNewSpent }
  | .bindWallet hash => { s with wallet := s.wallet.modifyTx hash CWalletTx.markDirty }
  | .markDirty => { s with wallet := s.wallet.markDirty }
  | .setChain chain => { s with chain }
  | .addKey keystore => { s with wallet := { s.wallet with keystore } }
  | .get hash fUseCache c =>
    { s with
      wallet := s.wallet.modifyTx hash fun wtx =>
        (wtx.getCached env s.wallet s.chain fUseCache c).2 }

/-- **The caches are transparent**: every getter returns what it returns when it computes anew. -/
def Transparent (env : WalletEnv) (s : State) : Prop :=
  ∀ hash wtx, s.wallet.mapWallet.lookup hash = some wtx → ∀ c,
    (wtx.getCached env s.wallet s.chain true c).1 = (wtx.getCached env s.wallet s.chain false c).1

/-- The outputs that an amount counts keep their side when keys, scripts or addresses come in; an
output of no value does not matter. -/
def Unmoved (env : WalletEnv) (w w' : CWallet) (wtx : CWalletTx) : Cache → Prop
  | .debit => ∀ txin ∈ wtx.vin, ∀ txout ∈ w.prevOut txin, txout.nValue ≠ 0 →
      w'.keystore.isMine txout.scriptPubKey = w.keystore.isMine txout.scriptPubKey
  | .credit | .immatureCredit => ∀ txout ∈ wtx.vout, txout.nValue ≠ 0 →
      w'.keystore.isMine txout.scriptPubKey = w.keystore.isMine txout.scriptPubKey
  | .availableCredit => ∀ txout ∈ wtx.vout.zipIdx, wtx.isSpent txout.2 = false →
      txout.1.nValue ≠ 0 →
      w'.keystore.isMine txout.1.scriptPubKey = w.keystore.isMine txout.1.scriptPubKey
  | .change => ∀ txout ∈ wtx.vout, txout.nValue ≠ 0 → w'.isChange env txout = w.isChange env txout

/-- Keys, scripts or addresses come in that no cached amount depends on. -/
def CleanKeys (env : WalletEnv) (w w' : CWallet) : Prop :=
  ∀ hash wtx, w.mapWallet.lookup hash = some wtx → ∀ c, wtx.cached c ≠ none → Unmoved env w w' wtx c

/-- A transaction comes in without a cached immature credit, and no transaction with a cached debit
spends an own output of it. -/
def CleanInsert (env : WalletEnv) (w : CWallet) (wtxIn : CWalletTx) : Prop :=
  w.mapWallet.lookup (env.txHash wtxIn.toCTransaction) = none →
    wtxIn.cached .immatureCredit = none ∧
    ∀ hash wtx, w.mapWallet.lookup hash = some wtx → wtx.cached .debit ≠ none →
      ∀ txin ∈ wtx.vin, txin.prevout.hash = env.txHash wtxIn.toCTransaction →
        ∀ txout ∈ wtxIn.vout[txin.prevout.n]?, w.keystore.isMine txout.scriptPubKey = true →
          txout.nValue = 0

/-- **A clean step** changes nothing that a cached amount depends on. -/
def Clean (env : WalletEnv) (s : State) : Action → Prop
  | .addToWallet newKeys wtxIn =>
    let w := s.wallet.insertTx env wtxIn
    CleanInsert env s.wallet wtxIn ∧
      CleanKeys env w (w.updateDefaultKey env (w.foundTx env wtxIn).vout newKeys)
  | .addKey keystore => CleanKeys env s.wallet { s.wallet with keystore }
  | _ => True

/-! ### What the amounts depend on -/

section Compute

variable {env : WalletEnv} {w w' : CWallet} {wtx wtx' : CWalletTx}

theorem sumMoney_congr {α : Type} {amount amount' : α → Option Int} {as : List α}
    (h : ∀ a ∈ as, amount a = amount' a) (nTotal : Int) :
    sumMoney amount as nTotal = sumMoney amount' as nTotal := by
  induction as generalizing nTotal with
  | nil => rfl
  | cons a as ih =>
    have hrest := ih fun b hb => h b (List.mem_cons_of_mem a hb)
    simp only [sumMoney, h a List.mem_cons_self, hrest]

theorem getCreditOut_congr {txout : CTxOut} (h : txout.nValue ≠ 0 →
    w'.keystore.isMine txout.scriptPubKey = w.keystore.isMine txout.scriptPubKey) :
    w'.getCreditOut txout = w.getCreditOut txout := by
  unfold CWallet.getCreditOut
  by_cases hzero : txout.nValue = 0
  · rw [hzero, ite_self, ite_self]
  · rw [h hzero]

theorem getChangeOut_congr {txout : CTxOut}
    (h : txout.nValue ≠ 0 → w'.isChange env txout = w.isChange env txout) :
    w'.getChangeOut env txout = w.getChangeOut env txout := by
  unfold CWallet.getChangeOut
  by_cases hzero : txout.nValue = 0
  · rw [hzero, ite_self, ite_self]
  · rw [h hzero]

theorem getDebitIn_congr {txin : CTxIn} (hprev : w'.prevOut txin = w.prevOut txin)
    (h : ∀ txout ∈ w.prevOut txin, txout.nValue ≠ 0 →
      w'.keystore.isMine txout.scriptPubKey = w.keystore.isMine txout.scriptPubKey) :
    w'.getDebitIn txin = w.getDebitIn txin := by
  unfold CWallet.getDebitIn
  rw [hprev]
  cases hout : w.prevOut txin with
  | none => rfl
  | some txout =>
    dsimp only
    by_cases hzero : txout.nValue = 0
    · rw [hzero, ite_self, ite_self]
    · rw [h txout hout hzero]

/-- **Keys, scripts or addresses come in**: an amount whose outputs keep their side is the same. -/
theorem compute_unmoved (hmap : w'.mapWallet = w.mapWallet) {c : Cache}
    (h : Unmoved env w w' wtx c) : wtx.compute env w' c = wtx.compute env w c := by
  have hcredit : (∀ txout ∈ wtx.vout, txout.nValue ≠ 0 →
      w'.keystore.isMine txout.scriptPubKey = w.keystore.isMine txout.scriptPubKey) →
      w'.getCredit wtx.toCTransaction = w.getCredit wtx.toCTransaction := fun hsame =>
    sumMoney_congr (fun txout hout => getCreditOut_congr (hsame txout hout)) 0
  cases c with
  | debit =>
    refine sumMoney_congr (fun txin hin => congrArg some (getDebitIn_congr ?_ (h txin hin))) 0
    unfold CWallet.prevOut
    rw [hmap]
  | credit => exact hcredit h
  | immatureCredit => exact hcredit h
  | availableCredit =>
    refine sumMoney_congr (fun txout hout => getCreditOut_congr ?_) 0
    obtain ⟨hout, hspent⟩ := List.mem_filter.mp hout
    exact h txout hout (by simpa using hspent)
  | change => exact sumMoney_congr (fun txout hout => getChangeOut_congr (h txout hout)) 0

/-- **Transactions come in**: only the debit depends on them. -/
theorem compute_congr (hkeys : w'.keystore = w.keystore)
    (hbook : w'.mapAddressBook = w.mapAddressBook) {c : Cache}
    (hdebit : c = .debit → ∀ txin ∈ wtx.vin, w'.getDebitIn txin = w.getDebitIn txin) :
    wtx.compute env w' c = wtx.compute env w c := by
  have hcredit : w'.getCreditOut = w.getCreditOut :=
    funext fun txout => getCreditOut_congr fun _ => by rw [hkeys]
  have hchange : w'.getChangeOut env = w.getChangeOut env :=
    funext fun txout => getChangeOut_congr fun _ => by unfold CWallet.isChange; rw [hkeys, hbook]
  cases c with
  | debit => exact sumMoney_congr (fun txin hin => congrArg some (hdebit rfl txin hin)) 0
  | credit => exact congrArg (sumMoney · wtx.vout 0) hcredit
  | immatureCredit => exact congrArg (sumMoney · wtx.vout 0) hcredit
  | availableCredit =>
    change w'.getAvailable wtx = w.getAvailable wtx
    unfold CWallet.getAvailable
    rw [hcredit]
  | change => exact congrArg (sumMoney · wtx.vout 0) hchange

theorem getAvailable_congr (hvout : wtx'.vout = wtx.vout)
    (hspent : ∀ i < wtx.vout.length, wtx'.isSpent i = wtx.isSpent i) :
    w.getAvailable wtx' = w.getAvailable wtx := by
  unfold CWallet.getAvailable
  rw [hvout]
  congr 1
  refine List.filter_congr fun txout hout => ?_
  rw [hspent]
  have hi := List.mem_zipIdx hout
  omega

end Compute

/-! ### One transaction -/

section Tx

variable {env : WalletEnv} {w : CWallet} {wtx : CWalletTx}

/-- The cached amounts of a transaction are what is computed. -/
def Good (env : WalletEnv) (w : CWallet) (wtx : CWalletTx) : Prop :=
  Valid (wtx.compute env w) wtx.cached

theorem compute_eq_of_fields {wtx' : CWalletTx} (htx : wtx'.toCTransaction = wtx.toCTransaction)
    {c : Cache} (havailable : c = .availableCredit → w.getAvailable wtx' = w.getAvailable wtx) :
    wtx'.compute env w c = wtx.compute env w c := by
  cases c with
  | debit => exact congrArg w.getDebit htx
  | credit => exact congrArg w.getCredit htx
  | immatureCredit => exact congrArg w.getCredit htx
  | availableCredit => exact havailable rfl
  | change => exact congrArg (w.getChange env) htx

theorem Good.reset (h : Good env w wtx) (caches : List Cache) : Good env w (wtx.reset caches) := by
  have hcompute : (wtx.reset caches).compute env w = wtx.compute env w :=
    funext fun c => compute_eq_of_fields rfl fun _ => rfl
  unfold Good
  rw [hcompute]
  refine h.mono fun c => ?_
  unfold CWalletTx.reset
  dsimp only
  split_ifs
  · exact .inl rfl
  · exact .inr rfl

theorem Good.spend (h : Good env w wtx) (vfSpent : List Bool) :
    Good env w ({ wtx with vfSpent }.reset [.availableCredit]) := by
  intro c n hc
  have hne : c ≠ .availableCredit := by
    rintro rfl
    cases hc
  have hcached : wtx.cached c = some n := by
    rw [← hc]
    exact (if_neg (by rwa [List.mem_singleton])).symm
  have htx : ({ wtx with vfSpent }.reset [.availableCredit]).toCTransaction = wtx.toCTransaction := rfl
  rw [← h hcached]
  exact compute_eq_of_fields htx fun heq => absurd heq hne

theorem Good.setSpent (h : Good env w wtx) (nOut : Nat) (fSpent : Bool) :
    Good env w (wtx.setSpent nOut fSpent) := by
  unfold CWalletTx.setSpent
  dsimp only
  split_ifs
  · have hspent : ∀ i < wtx.vout.length,
        ((wtx.vfSpent ++ List.replicate wtx.vout.length false).take wtx.vout.length).getD i false =
          wtx.isSpent i := fun i hi => CWalletTx.getD_resize _ hi
    intro c n hc
    rw [← h hc]
    refine compute_eq_of_fields ?_ fun _ => getAvailable_congr ?_ hspent
    · rfl
    · rfl
  · exact h.spend _

theorem Good.updateSpent (h : Good env w wtx) (vfNewSpent : List Bool) :
    Good env w (wtx.updateSpent vfNewSpent) := by
  unfold CWalletTx.updateSpent
  split_ifs
  · exact h
  · exact h.spend _

theorem Good.getCached (h : Good env w wtx) (chain : ChainView) (fUseCache : Bool) (c : Cache) :
    Good env w (wtx.getCached env w chain fUseCache c).2 := by
  unfold CWalletTx.getCached
  split_ifs
  · exact h
  all_goals
    split
    · exact h
    · split
      · exact h
      · next n hn =>
          have hupdate := h.update hn
          intro c' n' hc'
          rw [← hupdate hc']
          exact compute_eq_of_fields rfl fun _ => rfl

/-- The fields of the chain and `fFromMe` are in no amount. -/
theorem Good.mergeTx (h : Good env w wtx) (wtxIn : CWalletTx) : Good env w (CWallet.mergeTx wtxIn wtx) := by
  have hfields : ∀ {wtx wtx' : CWalletTx}, Good env w wtx →
      wtx'.toCTransaction = wtx.toCTransaction → wtx'.vfSpent = wtx.vfSpent →
      wtx'.cached = wtx.cached → Good env w wtx' := by
    intro wtx wtx' hgood htx hspent hcached c n hc
    rw [hcached] at hc
    rw [← hgood hc]
    refine compute_eq_of_fields htx fun _ => getAvailable_congr (congrArg _ htx) fun i _ => ?_
    unfold CWalletTx.isSpent
    rw [hspent]
  unfold CWallet.mergeTx
  refine Good.updateSpent ?_ _
  have hblock : Good env w
      (if wtxIn.hashBlock ≠ 0 then { wtx with hashBlock := wtxIn.hashBlock } else wtx) := by
    split_ifs
    · exact hfields h rfl rfl rfl
    · exact h
  generalize (if wtxIn.hashBlock ≠ 0 then _ else wtx : CWalletTx) = wtx₁ at hblock
  split_ifs
  · exact hfields hblock rfl rfl rfl
  · exact hfields hblock rfl rfl rfl
  · exact hfields hblock rfl rfl rfl
  · exact hblock

end Tx

/-! ### The wallet -/

section Wallet

variable {env : WalletEnv} {w w' : CWallet} {hash : Uint256} {wtx wtx' : CWalletTx}

/-- The cached amounts of all transactions are what is computed. -/
def AllGood (env : WalletEnv) (w : CWallet) : Prop :=
  ∀ ⦃hash wtx⦄, w.mapWallet.lookup hash = some wtx → Good env w wtx

theorem AllGood.cleanKeys (h : AllGood env w) (hmap : w'.mapWallet = w.mapWallet)
    (hclean : CleanKeys env w w') : AllGood env w' := by
  intro hash wtx hlookup
  rw [hmap] at hlookup
  exact (h hlookup).congr fun c hc => compute_unmoved hmap (hclean hash wtx hlookup c hc)

theorem AllGood.replace (h : AllGood env w) (hlookup : w.mapWallet.lookup hash = some wtx)
    (htx : wtx'.toCTransaction = wtx.toCTransaction) (hgood : Good env w wtx') :
    AllGood env { w with mapWallet := w.mapWallet.insert hash wtx' } := by
  have hprev : ∀ txin, CWallet.prevOut { w with mapWallet := w.mapWallet.insert hash wtx' } txin =
      w.prevOut txin := by
    intro txin
    unfold CWallet.prevOut
    by_cases heq : txin.prevout.hash = hash
    · rw [heq, Finmap.lookup_insert, hlookup, Option.bind_some, Option.bind_some, htx]
    · rw [Finmap.lookup_insert_of_ne _ heq]
  have hsame : ∀ (wtx : CWalletTx) (c : Cache),
      wtx.compute env { w with mapWallet := w.mapWallet.insert hash wtx' } c =
        wtx.compute env w c := by
    intro wtx c
    refine compute_congr ?_ ?_ fun _ txin _ => getDebitIn_congr (hprev txin) fun _ _ _ => ?_
    all_goals rfl
  intro hash₁ wtx₁ hlookup₁
  have hgood₁ : Good env w wtx₁ := by
    by_cases heq : hash₁ = hash
    · rw [heq] at hlookup₁
      cases (Finmap.lookup_insert w.mapWallet).symm.trans hlookup₁
      exact hgood
    · exact h ((Finmap.lookup_insert_of_ne w.mapWallet heq).symm.trans hlookup₁)
  exact hgood₁.congr fun c _ => hsame wtx₁ c

theorem AllGood.modifyTx (h : AllGood env w) {f : CWalletTx → CWalletTx}
    (htx : ∀ wtx, (f wtx).toCTransaction = wtx.toCTransaction)
    (hgood : ∀ wtx, Good env w wtx → Good env w (f wtx)) : AllGood env (w.modifyTx hash f) := by
  unfold CWallet.modifyTx
  cases hlookup : w.mapWallet.lookup hash with
  | none => exact h
  | some wtx => exact h.replace hlookup (htx wtx) (hgood wtx (h hlookup))

theorem AllGood.markDirty (h : AllGood env w) : AllGood env w.markDirty := by
  have hfold : ∀ (hashes : List Uint256) (w : CWallet), AllGood env w →
      AllGood env (hashes.foldl (fun w hash => w.modifyTx hash CWalletTx.markDirty) w) := by
    intro hashes
    induction hashes with
    | nil => exact fun _ h => h
    | cons hash hashes ih =>
      intro w h
      exact ih _ (h.modifyTx (fun _ => rfl) fun _ hgood => hgood.reset _)
  exact hfold _ w h

theorem AllGood.walletUpdateSpent (h : AllGood env w) (chain : ChainView) (vin : List CTxIn) :
    AllGood env (CWallet.walletUpdateSpent env chain vin w).2 := by
  induction vin generalizing w with
  | nil => exact h
  | cons txin vin ih =>
    have hround : ∀ w', w.updateSpentBy env chain txin = some w' → AllGood env w' := by
      intro w' hw'
      unfold CWallet.updateSpentBy at hw'
      split at hw'
      · cases hw'
        exact h
      · next wtx hlookup =>
          split at hw'
          · cases hw'
            exact h
          · split_ifs at hw'
            · obtain ⟨n, -, rfl⟩ := Option.map_eq_some_iff.mp hw'
              refine h.replace hlookup ?_ (((h hlookup).getCached chain true .credit).setSpent _ _)
              rw [CWalletTx.toCTransaction_setSpent]
              exact CWalletTx.toCTransaction_getCached env w chain wtx true .credit
            · cases hw'
              exact h
    unfold CWallet.walletUpdateSpent
    split
    · exact h
    · next w' hw' => exact ih (hround w' hw')

theorem AllGood.insertTx (h : AllGood env w) {wtxIn : CWalletTx} (hclean : CleanInsert env w wtxIn) :
    AllGood env (w.insertTx env wtxIn) := by
  unfold CWallet.insertTx
  dsimp only
  cases hlookup : w.mapWallet.lookup (env.txHash wtxIn.toCTransaction) with
  | some wtx =>
    refine h.replace hlookup ?_ (Good.mergeTx ((h hlookup).reset _) wtxIn)
    rw [CWallet.toCTransaction_mergeTx]
    rfl
  | none =>
    obtain ⟨himmature, hdebit⟩ := hclean hlookup
    intro hash wtx hwtx
    by_cases heq : hash = env.txHash wtxIn.toCTransaction
    · rw [heq] at hwtx
      cases (Finmap.lookup_insert w.mapWallet).symm.trans hwtx
      intro c n hc
      have hnone : wtxIn.markDirty.cached c = none := by
        cases c with
        | immatureCredit => exact himmature
        | _ => rfl
      cases hnone.symm.trans hc
    · have hold : w.mapWallet.lookup hash = some wtx :=
        (Finmap.lookup_insert_of_ne w.mapWallet heq).symm.trans hwtx
      refine (h hold).congr fun c hc => compute_congr ?_ ?_ ?_
      · rfl
      · rfl
      rintro rfl txin hin
      unfold CWallet.getDebitIn CWallet.prevOut
      dsimp only
      by_cases hparent : txin.prevout.hash = env.txHash wtxIn.toCTransaction
      · -- the output spent is one of the new transaction
        rw [hparent, Finmap.lookup_insert, hlookup]
        cases hout : wtxIn.vout[txin.prevout.n]? with
        | none =>
          have hmark : wtxIn.markDirty.vout[txin.prevout.n]? = none := hout
          rw [Option.bind_some, hmark]
          rfl
        | some txout =>
          have hmark : wtxIn.markDirty.vout[txin.prevout.n]? = some txout := hout
          rw [Option.bind_some, hmark]
          dsimp only [Option.bind_none]
          split_ifs with hmine
          · exact hdebit hash wtx hold hc txin hin hparent txout hout hmine
          · rfl
      · rw [Finmap.lookup_insert_of_ne _ hparent]

end Wallet

/-! ### Runs -/

section Run

variable {env : WalletEnv} {s₀ s : State}

/-- **A clean step keeps the cached amounts what is computed.** -/
theorem AllGood.step (h : AllGood env s.wallet) {a : Action} (hclean : Clean env s a) :
    AllGood env (step env s a).wallet := by
  cases a with
  | addToWallet newKeys wtxIn =>
    have hinsert := h.insertTx hclean.1
    exact (hinsert.cleanKeys (CWallet.mapWallet_updateDefaultKey _ _ _ _) hclean.2).walletUpdateSpent _ _
  | markSpent hash nOut =>
    refine h.modifyTx (fun wtx => ?_) fun wtx hgood => ?_
    · unfold CWalletTx.markSpent
      split_ifs
      · rfl
      · exact CWalletTx.toCTransaction_setSpent wtx nOut true
    · unfold CWalletTx.markSpent
      split_ifs
      · exact hgood
      · exact hgood.setSpent nOut true
  | markUnspent hash nOut =>
    refine h.modifyTx (fun wtx => ?_) fun wtx hgood => ?_
    · unfold CWalletTx.markUnspent
      split_ifs
      · rfl
      · exact CWalletTx.toCTransaction_setSpent wtx nOut false
    · unfold CWalletTx.markUnspent
      split_ifs
      · exact hgood
      · exact hgood.setSpent nOut false
  | updateSpent hash vfNewSpent =>
    exact h.modifyTx (fun wtx => CWalletTx.toCTransaction_updateSpent wtx vfNewSpent)
      fun _ hgood => hgood.updateSpent vfNewSpent
  | bindWallet hash => exact h.modifyTx (fun _ => rfl) fun _ hgood => hgood.reset _
  | markDirty => exact h.markDirty
  | setChain chain => exact h
  | addKey keystore => exact h.cleanKeys rfl hclean
  | get hash fUseCache c =>
    exact h.modifyTx (fun wtx => CWalletTx.toCTransaction_getCached env s.wallet s.chain wtx fUseCache c)
      fun _ hgood => hgood.getCached s.chain fUseCache c

theorem AllGood.transparent (h : AllGood env s.wallet) : Transparent env s := by
  intro hash wtx hlookup c
  unfold CWalletTx.getCached
  by_cases hzero : wtx.isZero s.chain c = true
  · rw [if_pos hzero, if_pos hzero]
  · rw [if_neg hzero, if_neg hzero, if_pos rfl, if_neg Bool.false_ne_true]
    cases hcached : wtx.cached c with
    | none => rfl
    | some n =>
      rw [h hlookup hcached]

/-- A wallet that was just loaded has nothing cached. -/
def Loaded (s : State) : Prop :=
  ∀ hash wtx, s.wallet.mapWallet.lookup hash = some wtx → wtx.cached = fun _ => none

/-- **Runs of clean steps**, in any order. -/
inductive CleanRun (env : WalletEnv) (s₀ : State) : State → Prop where
  | refl : CleanRun env s₀ s₀
  | step {s : State} (a : Action) (run : CleanRun env s₀ s) (clean : Clean env s a) :
      CleanRun env s₀ (step env s a)

theorem CleanRun.allGood (h : CleanRun env s₀ s) (hloaded : Loaded s₀) : AllGood env s.wallet := by
  induction h with
  | refl =>
    intro hash wtx hlookup
    unfold Good
    rw [hloaded hash wtx hlookup]
    exact valid_empty
  | step a _ hclean ih => exact ih.step hclean

/-- **The caches are transparent** after every run that changes nothing a cached amount depends on
without resetting it. -/
theorem transparent_of_run (hloaded : Loaded s₀) (h : CleanRun env s₀ s) : Transparent env s :=
  (h.allGood hloaded).transparent

end Run

namespace Sample

def env : WalletEnv := ⟨fun tx => tx.nLockTime, id, 0, true⟩

/-- An empty wallet to which every script belongs. -/
def start : State where
  wallet :=
    { mapWallet := ∅
      keystore := ⟨fun _ => true, fun _ => true, fun _ => true⟩
      mapAddressBook := ∅
      vchDefaultKey := none
      setLockedCoins := ∅ }
  chain := ⟨100, 1000, fun _ => 1⟩

def parent : CWalletTx := .ofTransaction ⟨1, 0, [⟨⟨7, 0⟩, [], 0⟩], [⟨5, []⟩], 1⟩

/-- It spends what the parent pays. -/
def child : CWalletTx := .ofTransaction ⟨1, 0, [⟨⟨1, 0⟩, [], 0⟩], [⟨4, []⟩], 2⟩

theorem loaded : Loaded start := fun _ _ h => nomatch h

theorem cleanKeys_qt (w : CWallet) (vout : List CTxOut) (newKeys : List NewKey) :
    CleanKeys env w (w.updateDefaultKey env vout newKeys) := by
  have hsame : w.updateDefaultKey env vout newKeys = w := by
    unfold CWallet.updateDefaultKey
    split <;> rfl
  rw [hsame]
  intro _ _ _ c _
  cases c <;> simp [Unmoved]

end Sample

open Sample in
/-- The debit of the parent is asked for. -/
theorem transparent_of_run_sample :
    Transparent env ([.addToWallet [] parent, .get 1 true .debit].foldl (step env) start) := by
  refine transparent_of_run loaded (.step (.get 1 true .debit)
    (.step (.addToWallet [] parent) .refl ⟨fun _ => ⟨rfl, ?_⟩, cleanKeys_qt _ _ _⟩) trivial)
  exact fun _ _ hlookup => nomatch hlookup

open Sample in
/-- **A cached debit is stale**: it was asked for before the transaction came in that is spent. -/
theorem not_forall_transparent :
    ¬ ∀ (env : WalletEnv) (s : State) (actions : List Action), Loaded s →
      Transparent env (actions.foldl (step env) s) := by
  intro hall
  have hdebit := hall env start
    [.addToWallet [] child, .get 2 true .debit, .addToWallet [] parent] loaded 2 _ rfl .debit
  exact absurd hdebit (by decide)

end WalletCaches

end Wallet

end Manna
