import Manna.MemPool
import Manna.SelectCoins
import Manna.SignSignature

/-!
Building a payment (`wallet.cpp`: `CWallet::CreateTransaction`).

The locked coins are in a set of their own, which `AvailableCoins` does not look at: a coin that is
locked is available, and may be taken, like any other.

* `createTransaction`: as in the source, in the manna build;
* `NeverSpent`: what is asked of locked coins;
* `neverSpent_iff`: it holds exactly of the wallets that could not take one anyway.
-/

namespace Manna

namespace Wallet

variable {CKey : Type}

/-! ### The source -/

/-- Why `CreateTransaction` returns false. -/
inductive CreateError where
  /-- `Transaction amounts must be positive`. -/
  | amounts
  /-- `Transaction amount too small`. -/
  | dust
  /-- `Insufficient funds`. -/
  | funds
  /-- `Signing transaction failed`. -/
  | signing
  /-- `Transaction too large`. -/
  | size

/-- **What a round of the loop finds outside**: the selection, the order of the coins in their set,
the key of the change, and the position of the change among so many. -/
structure Round where
  choice : Fin 3 → Choice
  order : List COutput → List COutput
  order_perm (setCoins : List COutput) : (order setCoins).Perm setCoins
  /-- `GetReservedKey`, which the code asserts to succeed. -/
  reservedKey : Option Valtype
  position : Nat → Nat

/-- The settings of the payments. -/
structure PaySettings where
  fees : FeeSettings
  nTransactionFee : Int

/-- What a round ends with. -/
inductive RoundResult where
  | failed (strFailReason : CreateError)
  | retry (nFeeRet : Int)
  | created (txNew : CTransaction) (nFeeRet : Int)

/-- The sum of the amounts, where no sum before the last is negative. -/
def sendValue : List (CScript × Int) → Int → Option Int
  | [], nValue => if nValue < 0 then none else some nValue
  | s :: vecSend, nValue => if nValue < 0 then none else sendValue vecSend (nValue + s.2)

def moveToFee (fees : FeeSettings) (nChange nFeeRet : Int) : Int × Int :=
  let moved :=
    if nFeeRet < fees.nMinTxFee ∧ nChange > 0 ∧ nChange < CENT then
      let nMoveToFee := min nChange (fees.nMinTxFee - nFeeRet)
      (nChange - nMoveToFee, nFeeRet + nMoveToFee)
    else (nChange, nFeeRet)
  if moved.1 > 0 ∧ moved.1 < fees.nMinTxFee then (0, moved.2 + moved.1) else moved

def scriptChange (coinControl : Option CCoinControl) (round : Round) : Option CScript :=
  match coinControl.map CCoinControl.destChange with
  | none | some .noDestination => round.reservedKey.map payToKeyID
  | some destChange => some destChange.toScript

/-- The change is inserted among the outputs, unless there is none; `IsDust` is false of it. -/
def addChange (coinControl : Option CCoinControl) (round : Round) (nChange : Int)
    (vout : List CTxOut) : Option (List CTxOut) :=
  if nChange > 0 then
    (scriptChange coinControl round).map fun scriptPubKey =>
      vout.insertIdx (round.position (vout.length + 1)) ⟨nChange, scriptPubKey⟩
  else some vout

/-- `SIGHASH_ALL` is the hash type of `SignSignature` when none is given. -/
def signInputs {senv : SignEnv CKey} (keys : CKeyStore senv) :
    List COutput → Nat → CTransaction → Option (Bool × CTransaction)
  | [], _, txNew => some (true, txNew)
  | coin :: setCoins, nIn, txNew =>
    match coin.tx.vout[coin.i]? with
    | none => none
    | some txout =>
      match signSignature keys txout.scriptPubKey txNew nIn SIGHASH_ALL with
      | none => none
      | some (false, txNew) => some (false, txNew)
      | some (true, txNew) => signInputs keys setCoins (nIn + 1) txNew

section Create

variable (env : WalletEnv) (chain : ChainView) (w : CWallet) {senv : SignEnv CKey}
  (keys : CKeyStore senv) (settings : PaySettings) (rounds : Nat)
  (coinControl : Option CCoinControl) (vecSend : List (CScript × Int)) (wtxNew : CTransaction)

def payWith (round : Round) (nValue nFeeRet nValueIn : Int) (setCoins : List COutput) :
    Option RoundResult :=
  let moved := moveToFee settings.fees (nValueIn - nValue - nFeeRet) nFeeRet
  let vout := vecSend.map fun s => (⟨s.2, s.1⟩ : CTxOut)
  match addChange coinControl round moved.1 vout with
  | none => none
  | some vout =>
    let setCoins := round.order setCoins
    let vin := setCoins.map fun coin => (⟨coin.outpoint env, [], UINT_MAX⟩ : CTxIn)
    match signInputs keys setCoins 0 { wtxNew with vin, vout } with
    | none => none
    | some (false, _) => some (.failed .signing)
    | some (true, txNew) =>
      let nBytes := txNew.serializeSize
      if nBytes ≥ MAX_STANDARD_TX_SIZE then some (.failed .size)
      else
        let nPayFee := settings.nTransactionFee * (1 + (nBytes : Int) / 1000)
        -- `AllowFree` is false in this build
        let nMinFee := txNew.getMinFee settings.fees 1 false .send 0
        if moved.2 < max nPayFee nMinFee then some (.retry (max nPayFee nMinFee))
        else some (.created txNew moved.2)

def createRound (round : Round) (nValue nFeeRet : Int) : Option RoundResult :=
  if vecSend.any fun s => (⟨s.2, s.1⟩ : CTxOut).isDust then some (.failed .dust)
  else
    match selectCoins env chain w rounds round.choice (nValue + nFeeRet) coinControl with
    | none => none
    | some (false, _, _) => some (.failed .funds)
    | some (true, setCoins, nValueIn) =>
      payWith env keys settings coinControl vecSend wtxNew round nValue nFeeRet nValueIn setCoins

/-- The loop; `none` where an assertion fails, a function throws, or it does not end in time. -/
def createLoop (nValue : Int) : List Round → Int → Option (Except CreateError (CTransaction × Int))
  | [], _ => none
  | round :: later, nFeeRet =>
    match createRound env chain w keys settings rounds coinControl vecSend wtxNew round nValue
      nFeeRet with
    | none => none
    | some (.failed e) => some (.error e)
    | some (.retry nFeeRet) => createLoop nValue later nFeeRet
    | some (.created txNew nFeeRet) => some (.ok (txNew, nFeeRet))

def createTransaction (outside : List Round) : Option (Except CreateError (CTransaction × Int)) :=
  match sendValue vecSend 0 with
  | none => some (.error .amounts)
  | some nValue =>
    if vecSend = [] then some (.error .amounts)
    else
      createLoop env chain w keys settings rounds coinControl vecSend wtxNew nValue outside
        settings.nTransactionFee

end Create

def NoneSelected (coinControl : Option CCoinControl) : Prop :=
  ∀ control ∈ coinControl, control.setSelected = ∅

/-- **What is asked of locked coins**: none is available, none is selected, and none is an input of a
payment that was built without a selection of coins. -/
structure NeverSpent (env : WalletEnv) (chain : ChainView) (w : CWallet) : Prop where
  available : ∀ (rounds : Nat) (fOnlyConfirmed : Bool) (coinControl : Option CCoinControl)
    (vCoins : List COutput),
    w.availableCoins env chain rounds fOnlyConfirmed coinControl = some vCoins →
      ∀ out ∈ vCoins, w.isLockedCoin (out.outpoint env) = false
  selected : ∀ (rounds : Nat) (choice : Fin 3 → Choice) (nTargetValue : Int)
    (coinControl : Option CCoinControl) (fOk : Bool) (setCoins : List COutput) (nValueRet : Int),
    selectCoins env chain w rounds choice nTargetValue coinControl = some (fOk, setCoins, nValueRet) →
      ∀ coin ∈ setCoins, w.isLockedCoin (coin.outpoint env) = false
  created : ∀ (CKey : Type) (senv : SignEnv CKey) (keys : CKeyStore senv) (settings : PaySettings)
    (rounds : Nat) (coinControl : Option CCoinControl) (vecSend : List (CScript × Int))
    (wtxNew : CTransaction) (outside : List Round) (txNew : CTransaction) (nFeeRet : Int),
    NoneSelected coinControl →
    createTransaction env chain w keys settings rounds coinControl vecSend wtxNew outside =
      some (.ok (txNew, nFeeRet)) →
      ∀ txin ∈ txNew.vin, w.isLockedCoin txin.prevout = false

/-- An output that `AvailableCoins` passes: unspent, the wallet's own, of some value, and of a
transaction that is final and mature. -/
def Takeable (env : WalletEnv) (chain : ChainView) (w : CWallet) (outpoint : COutPoint) : Prop :=
  ∃ hash pcoin txout, w.mapWallet.lookup hash = some pcoin ∧
    env.txHash pcoin.toCTransaction = outpoint.hash ∧ pcoin.isFinalNow chain = true ∧
    pcoin.getBlocksToMaturity chain ≤ 0 ∧ pcoin.vout[outpoint.n]? = some txout ∧
    pcoin.isSpent outpoint.n = false ∧ w.keystore.isMine txout.scriptPubKey = true ∧
    txout.nValue > 0

/-! ### From one layer to the next -/

section Layers

variable {env : WalletEnv} {chain : ChainView} {w : CWallet}

theorem hasAvailable_eq_true {rounds : Nat} {fOnlyConfirmed : Bool} {pcoin : CWalletTx}
    (h : w.hasAvailable env chain rounds fOnlyConfirmed pcoin = some true) :
    pcoin.isFinalNow chain = true ∧ pcoin.getBlocksToMaturity chain ≤ 0 := by
  unfold CWallet.hasAvailable at h
  cases hfinal : pcoin.isFinalNow chain with
  | false =>
    rw [hfinal] at h
    cases h
  | true =>
    refine ⟨rfl, ?_⟩
    rw [hfinal, Bool.not_true, if_neg Bool.false_ne_true] at h
    split at h
    · cases h
    · rw [Option.some.injEq, Bool.and_eq_true, decide_eq_true_eq] at h
      exact h.2

variable {coinControl : Option CCoinControl}

theorem takeable_of_available {rounds : Nat} {fOnlyConfirmed : Bool} {vCoins : List COutput}
    (h : w.availableCoins env chain rounds fOnlyConfirmed coinControl = some vCoins)
    {out : COutput} (hmem : out ∈ vCoins) : Takeable env chain w (out.outpoint env) := by
  obtain ⟨hash, pcoin, hlookup, hpass, hcoin⟩ := (mem_availableCoins h).mp hmem
  obtain ⟨txout, hout, havailable, rfl, -⟩ := mem_coinsOf.mp hcoin
  obtain ⟨hfinal, hmature⟩ := hasAvailable_eq_true hpass
  unfold CWallet.isAvailable at havailable
  simp only [Bool.and_eq_true, Bool.not_eq_true', decide_eq_true_eq] at havailable
  obtain ⟨⟨⟨hspent, hmine⟩, hvalue⟩, -⟩ := havailable
  exact ⟨hash, out.tx, txout, hlookup, rfl, hfinal, hmature, hout, hspent, hmine, hvalue⟩

/-- What may be taken is available, with unconfirmed transactions and without coin control. -/
theorem Takeable.available {outpoint : COutPoint} (h : Takeable env chain w outpoint) :
    ∃ vCoins, w.availableCoins env chain 0 false none = some vCoins ∧
      ∃ out ∈ vCoins, out.outpoint env = outpoint := by
  obtain ⟨hash, pcoin, txout, hlookup, hhash, hfinal, hmature, hout, hspent, hmine, hvalue⟩ := h
  have hfound : ∃ vCoins, w.availableCoins env chain 0 false none = some vCoins := availableCoins_unconfirmed
  obtain ⟨vCoins, hcoins⟩ := hfound
  refine ⟨vCoins, hcoins,
    ⟨pcoin, outpoint.n, chain.getDepthInMainChain pcoin.toCMerkleTx⟩, ?_, ?_⟩
  · refine (mem_availableCoins hcoins).mpr ⟨hash, pcoin, hlookup, ?_, ?_⟩
    · unfold CWallet.hasAvailable
      rw [hfinal]
      exact congrArg some (decide_eq_true hmature)
    · refine mem_coinsOf.mpr ⟨txout, hout, ?_, rfl, rfl⟩
      unfold CWallet.isAvailable CWallet.admits
      rw [hspent, hmine, decide_eq_true hvalue]
      rfl
  · unfold COutput.outpoint
    rw [hhash]

theorem prevouts_setScriptSig (tx : CTransaction) (nIn : Nat) (scriptSig : CScript) :
    (tx.setScriptSig nIn scriptSig).vin.map CTxIn.prevout = tx.vin.map CTxIn.prevout := by
  unfold CTransaction.setScriptSig
  dsimp only
  refine List.ext_getElem? fun i => ?_
  rw [List.getElem?_map, List.getElem?_map, List.getElem?_modify]
  split_ifs <;> cases tx.vin[i]? <;> rfl

theorem prevouts_signInputs {CKey : Type} {senv : SignEnv CKey} {keys : CKeyStore senv}
    {setCoins : List COutput} {nIn : Nat} {txNew txSigned : CTransaction} {fOk : Bool}
    (h : signInputs keys setCoins nIn txNew = some (fOk, txSigned)) :
    txSigned.vin.map CTxIn.prevout = txNew.vin.map CTxIn.prevout := by
  induction setCoins generalizing nIn txNew with
  | nil =>
    cases h
    rfl
  | cons coin setCoins ih =>
    have hsign : ∀ {fromPubKey : CScript} {fOk : Bool} {txTo : CTransaction},
        signSignature keys fromPubKey txNew nIn SIGHASH_ALL = some (fOk, txTo) →
          txTo.vin.map CTxIn.prevout = txNew.vin.map CTxIn.prevout := by
      intro fromPubKey fOk txTo hsigned
      unfold signSignature at hsigned
      split_ifs at hsigned
      cases hsigned
      exact prevouts_setScriptSig _ _ _
    unfold signInputs at h
    split at h
    · cases h
    · split at h
      · cases h
      · next hsigned =>
          cases h
          exact hsign hsigned
      · next hsigned => exact (ih h).trans (hsign hsigned)

theorem mem_vin_payWith {CKey : Type} {senv : SignEnv CKey} {keys : CKeyStore senv}
    {settings : PaySettings} {vecSend : List (CScript × Int)}
    {wtxNew txNew : CTransaction} {round : Round} {nValue nFeeRet nValueIn nFee : Int}
    {setCoins : List COutput}
    (h : payWith env keys settings coinControl vecSend wtxNew round nValue nFeeRet nValueIn setCoins =
      some (.created txNew nFee)) {txin : CTxIn} (hmem : txin ∈ txNew.vin) :
    ∃ coin ∈ setCoins, txin.prevout = coin.outpoint env := by
  unfold payWith at h
  dsimp only at h
  split at h
  · cases h
  · split at h
    · cases h
    · cases h
    · next hsigned =>
        split_ifs at h
        · cases h
        · cases h
        · cases h
          have hprevouts := prevouts_signInputs hsigned
          have hin : txin.prevout ∈ txNew.vin.map CTxIn.prevout := List.mem_map_of_mem hmem
          rw [hprevouts, List.map_map, List.mem_map] at hin
          obtain ⟨coin, hcoin, heq⟩ := hin
          exact ⟨coin, (round.order_perm setCoins).mem_iff.mp hcoin, heq.symm⟩

/-- **The inputs of a payment are available coins.** -/
theorem mem_vin_createTransaction {CKey : Type} {senv : SignEnv CKey} {keys : CKeyStore senv}
    {settings : PaySettings} {rounds : Nat}
    {vecSend : List (CScript × Int)} {wtxNew txNew : CTransaction} {outside : List Round} {nFeeRet : Int}
    (h : createTransaction env chain w keys settings rounds coinControl vecSend wtxNew outside =
      some (.ok (txNew, nFeeRet))) {txin : CTxIn} (hmem : txin ∈ txNew.vin) :
    ∃ vCoins, w.availableCoins env chain rounds true coinControl = some vCoins ∧
      ∃ coin ∈ vCoins, txin.prevout = coin.outpoint env := by
  have hround : ∀ {round : Round} {nValue nFee : Int},
      createRound env chain w keys settings rounds coinControl vecSend wtxNew round nValue nFee =
        some (.created txNew nFeeRet) →
      ∃ vCoins, w.availableCoins env chain rounds true coinControl = some vCoins ∧
        ∃ coin ∈ vCoins, txin.prevout = coin.outpoint env := by
    intro round nValue nFee hcreated
    unfold createRound at hcreated
    split at hcreated
    · cases hcreated
    · split at hcreated
      · cases hcreated
      · cases hcreated
      · next hselect =>
          obtain ⟨coin, hcoin, heq⟩ := mem_vin_payWith hcreated hmem
          obtain ⟨vCoins, hcoins, hin⟩ := mem_of_selectCoins hselect hcoin
          exact ⟨vCoins, hcoins, coin, hin, heq⟩
  have hloop : ∀ {nValue nFee : Int},
      createLoop env chain w keys settings rounds coinControl vecSend wtxNew nValue outside nFee =
        some (.ok (txNew, nFeeRet)) →
      ∃ vCoins, w.availableCoins env chain rounds true coinControl = some vCoins ∧
        ∃ coin ∈ vCoins, txin.prevout = coin.outpoint env := by
    clear h
    intro nValue nFee hloop
    induction outside generalizing nFee with
    | nil => cases hloop
    | cons round later ih =>
      unfold createLoop at hloop
      split at hloop
      · cases hloop
      · cases hloop
      · exact ih hloop
      · next hcreated =>
          cases hloop
          exact hround hcreated
  unfold createTransaction at h
  split at h
  · cases h
  · split at h
    · cases h
    · exact hloop h

/-- **Locked coins are never spent exactly where none of them could be taken**: no locked coin is an
unspent own output, of some value, of a final and mature transaction. -/
theorem neverSpent_iff (env : WalletEnv) (chain : ChainView) (w : CWallet) :
    NeverSpent env chain w ↔ ∀ outpoint ∈ w.setLockedCoins, ¬ Takeable env chain w outpoint := by
  constructor
  · intro h outpoint hlocked htake
    obtain ⟨vCoins, hcoins, out, hmem, rfl⟩ := htake.available
    exact of_decide_eq_false (h.available 0 false none vCoins hcoins out hmem) hlocked
  · intro h
    have havailable : ∀ {rounds fOnlyConfirmed coinControl vCoins},
        w.availableCoins env chain rounds fOnlyConfirmed coinControl = some vCoins →
          ∀ out ∈ vCoins, w.isLockedCoin (out.outpoint env) = false :=
      fun hcoins out hmem => decide_eq_false fun hlocked =>
        h _ hlocked (takeable_of_available hcoins hmem)
    constructor
    · exact fun _ _ _ _ hcoins => havailable hcoins
    · intro rounds choice nTargetValue coinControl fOk setCoins nValueRet hselect coin hcoin
      obtain ⟨vCoins, hcoins, hmem⟩ := mem_of_selectCoins hselect hcoin
      exact havailable hcoins coin hmem
    · intro CKey senv keys settings rounds coinControl vecSend wtxNew outside txNew nFeeRet _
        hcreate txin hin
      obtain ⟨vCoins, hcoins, coin, hmem, heq⟩ := mem_vin_createTransaction hcreate hin
      rw [heq]
      exact havailable hcoins coin hmem

end Layers

namespace LockSample

def env : WalletEnv := ⟨fun tx => tx.nLockTime, id, 0, true⟩

def chain : ChainView := ⟨100, 1000, fun _ => 1⟩

/-- A transaction that pays 5 to the wallet, in a block of the chain. -/
def wtx : CWalletTx := .ofTransaction ⟨1, 0, [⟨⟨7, 0⟩, [], 0⟩], [⟨5, []⟩], 0⟩

/-- A wallet with this transaction, whose only coin is locked. -/
def wallet : CWallet :=
  CWallet.lockCoin
    { mapWallet := Finmap.singleton 0 wtx
      keystore := ⟨fun _ => true, fun _ => true, fun _ => true⟩
      mapAddressBook := ∅
      vchDefaultKey := none
      setLockedCoins := ∅ } ⟨0, 0⟩

end LockSample

open LockSample in
/-- **A locked coin is available.** -/
theorem not_forall_neverSpent :
    ¬ ∀ (env : WalletEnv) (chain : ChainView) (w : CWallet), NeverSpent env chain w := by
  intro hall
  have htake : Takeable env chain wallet ⟨0, 0⟩ :=
    ⟨0, wtx, ⟨5, []⟩, Finmap.lookup_singleton_eq, rfl, rfl, by decide, rfl, rfl, rfl, by decide⟩
  obtain ⟨vCoins, hcoins, out, hmem, heq⟩ := htake.available
  have hfree := (hall env chain wallet).available 0 false none vCoins hcoins out hmem
  rw [heq] at hfree
  exact of_decide_eq_false hfree (by decide)

end Wallet

end Manna
