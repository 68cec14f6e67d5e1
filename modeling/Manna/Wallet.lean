import Mathlib.Data.Finmap
import Mathlib.Data.Finset.Sort
import Manna.Solver
import Manna.Transaction

/-!
The wallet (`wallet.h`, `wallet.cpp`: `CWalletTx`, `CWallet`).

What is left out: times and order of the transactions, accounts, the wallet file, which is written
without errors, and what is notified. The keys and scripts count by what they make the wallet's own.
The amounts that a `CWalletTx` keeps in `fDebitCached`, `nDebitCached` and so on are one function from
the names of the amounts; a function that throws returns `none`.

* `CWalletTx.getCached`: the five getters;
* `CWallet.addToWallet`, `CWallet.walletUpdateSpent`: how transactions get into the wallet.
-/

namespace Manna

namespace Wallet

/-- `CTxDestination`. -/
inductive CTxDestination where
  | noDestination
  | keyID (hash : Valtype)
  | scriptID (hash : Valtype)
deriving DecidableEq

/-- `CScript() << OP_DUP << OP_HASH160 << keyID << OP_EQUALVERIFY << OP_CHECKSIG`. -/
def payToKeyID (keyID : Valtype) : CScript :=
  opcodes [OP_DUP, OP_HASH160] ++ (pushData keyID ++ opcodes [OP_EQUALVERIFY, OP_CHECKSIG])

def CTxDestination.toScript : CTxDestination → CScript
  | .noDestination => []
  | .keyID hash => payToKeyID hash
  | .scriptID hash => opcodes [OP_HASH160] ++ (pushData hash ++ opcodes [OP_EQUAL])

/-- `ExtractDestination`; `getID` gives the identifier of a public key. -/
def extractDestination (getID : Valtype → Valtype) (scriptPubKey : CScript) :
    Option CTxDestination :=
  match solver scriptPubKey with
  | (true, .pubkey, vSolutions) => some (.keyID (getID (vSolutions.headD [])))
  | (true, .pubkeyhash, vSolutions) => some (.keyID (vSolutions.headD []))
  | (true, .scripthash, vSolutions) => some (.scriptID (vSolutions.headD []))
  | _ => none

/-- What the key store answers with the keys and scripts it has. -/
structure KeyStoreView where
  haveKey : Valtype → Bool
  haveCScript : Valtype → Bool
  /-- `::IsMine` of a script. -/
  isMine : CScript → Bool

/-- `::IsMine` of a destination. -/
def KeyStoreView.isMineDest (keystore : KeyStoreView) : CTxDestination → Bool
  | .noDestination => false
  | .keyID hash => keystore.haveKey hash
  | .scriptID hash => keystore.haveCScript hash

/-! ### Wallet transactions -/

/-- `CMerkleTx`. -/
structure CMerkleTx extends CTransaction where
  hashBlock : Uint256
  vMerkleBranch : List Uint256
  nIndex : Int
deriving DecidableEq

/-- The amounts that are cached. -/
inductive Cache where
  | debit | credit | immatureCredit | availableCredit | change
deriving DecidableEq

/-- `CWalletTx`. -/
structure CWalletTx extends CMerkleTx where
  vtxPrev : List CMerkleTx
  fFromMe : Bool
  /-- Which outputs are already spent. -/
  vfSpent : List Bool
  cached : Cache → Option Int

/-- `CWalletTx(pwallet, tx)`. -/
def CWalletTx.ofTransaction (tx : CTransaction) : CWalletTx :=
  { tx with
    hashBlock := 0, vMerkleBranch := [], nIndex := -1, vtxPrev := [], fFromMe := false,
    vfSpent := [], cached := fun _ => none }

/-- Where a transaction is in a block. -/
structure BlockPlace where
  hashBlock : Uint256
  vMerkleBranch : List Uint256
  nIndex : Int

/-- `CWalletTx(this, tx)`, and `SetMerkleBranch` where there is a block. -/
def CWalletTx.ofPlaced (tx : CTransaction) : Option BlockPlace → CWalletTx
  | none => .ofTransaction tx
  | some place =>
    { CWalletTx.ofTransaction tx with
      hashBlock := place.hashBlock
      vMerkleBranch := place.vMerkleBranch
      nIndex := place.nIndex }

/-- What a wallet transaction reads of the chain. -/
structure ChainView where
  nBestHeight : Int
  nAdjustedTime : Int
  /-- `CMerkleTx::GetDepthInMainChain`. -/
  getDepthInMainChain : CMerkleTx → Int

namespace CMerkleTx

variable (chain : ChainView) (mtx : CMerkleTx)

/-- `IsFinal` at the best height and the adjusted time. -/
def isFinalNow : Bool := mtx.isFinal chain.nBestHeight chain.nAdjustedTime

def getBlocksToMaturity : Int :=
  if mtx.isGenerated then max 0 (COINBASE_MATURITY + 20 - chain.getDepthInMainChain mtx) else 0

def isInMainChain : Bool := chain.getDepthInMainChain mtx > 0

end CMerkleTx

namespace CWalletTx

variable (wtx : CWalletTx)

/-- `IsSpent`, of an output that is there. -/
def isSpent (nOut : Nat) : Bool := wtx.vfSpent.getD nOut false

def reset (caches : List Cache) : CWalletTx :=
  { wtx with cached := fun c => if c ∈ caches then none else wtx.cached c }

/-- `MarkDirty`, which is all that `BindWallet` does. -/
def markDirty : CWalletTx := wtx.reset [.credit, .availableCredit, .debit, .change]

/-- `vfSpent.resize(vout.size())` and `vfSpent[nOut] = fSpent`, if it was otherwise. -/
def setSpent (nOut : Nat) (fSpent : Bool) : CWalletTx :=
  let vfSpent := (wtx.vfSpent ++ List.replicate wtx.vout.length false).take wtx.vout.length
  if vfSpent.getD nOut false = fSpent then { wtx with vfSpent }
  else { wtx with vfSpent := vfSpent.set nOut fSpent }.reset [.availableCredit]

/-- `MarkSpent`; `none` where it throws. -/
def markSpent (nOut : Nat) : Option CWalletTx :=
  if nOut ≥ wtx.vout.length then none else some (wtx.setSpent nOut true)

/-- `MarkUnspent`; `none` where it throws. -/
def markUnspent (nOut : Nat) : Option CWalletTx :=
  if nOut ≥ wtx.vout.length then none else some (wtx.setSpent nOut false)

/-- The loop of `UpdateSpent`: the flags that are set in both vectors or in the new one. -/
def mergeSpent : List Bool → List Bool → List Bool
  | fNew :: vfNewSpent, f :: vfSpent => (f || fNew) :: mergeSpent vfNewSpent vfSpent
  | _, vfSpent => vfSpent

def updateSpent (vfNewSpent : List Bool) : CWalletTx :=
  if mergeSpent vfNewSpent wtx.vfSpent = wtx.vfSpent then wtx
  else { wtx with vfSpent := mergeSpent vfNewSpent wtx.vfSpent }.reset [.availableCredit]

end CWalletTx

/-! ### The wallet -/

/-- What does not change while the wallet is used. -/
structure WalletEnv where
  /-- `CTransaction::GetHash`. -/
  txHash : CTransaction → Uint256
  /-- The identifier of a public key. -/
  getID : Valtype → Valtype
  nMinimumInputValue : Int
  /-- Whether `QT_GUI` is defined. -/
  fQtGui : Bool

/-- `CWallet`. -/
structure CWallet where
  mapWallet : Finmap fun _ : Uint256 => CWalletTx
  keystore : KeyStoreView
  /-- The destinations in `mapAddressBook`. -/
  mapAddressBook : Finset CTxDestination
  /-- The identifier of `vchDefaultKey`, if that is valid. -/
  vchDefaultKey : Option Valtype
  setLockedCoins : Finset COutPoint

/-- The sum of amounts, each of which may throw, with a test of the range after each. -/
def sumMoney {α : Type} (amount : α → Option Int) : List α → Int → Option Int
  | [], nTotal => some nTotal
  | a :: as, nTotal =>
    match amount a with
    | none => none
    | some n => if moneyRange (nTotal + n) then sumMoney amount as (nTotal + n) else none

namespace CWallet

variable (env : WalletEnv) (chain : ChainView) (w : CWallet)

/-- The output that an input spends, if its transaction is in the wallet. -/
def prevOut (txin : CTxIn) : Option CTxOut :=
  (w.mapWallet.lookup txin.prevout.hash).bind fun prev => prev.vout[txin.prevout.n]?

/-- `GetDebit` of an input. -/
def getDebitIn (txin : CTxIn) : Int :=
  match w.prevOut txin with
  | none => 0
  | some txout => if w.keystore.isMine txout.scriptPubKey then txout.nValue else 0

/-- `GetCredit` of an output. -/
def getCreditOut (txout : CTxOut) : Option Int :=
  if !moneyRange txout.nValue then none
  else some (if w.keystore.isMine txout.scriptPubKey then txout.nValue else 0)

def isChange (txout : CTxOut) : Bool :=
  match extractDestination env.getID txout.scriptPubKey with
  | none => false
  | some address => w.keystore.isMineDest address && decide (address ∉ w.mapAddressBook)

/-- `GetChange` of an output. -/
def getChangeOut (txout : CTxOut) : Option Int :=
  if !moneyRange txout.nValue then none
  else some (if w.isChange env txout then txout.nValue else 0)

def getDebit (tx : CTransaction) : Option Int :=
  sumMoney (fun txin => some (w.getDebitIn txin)) tx.vin 0

def getCredit (tx : CTransaction) : Option Int := sumMoney w.getCreditOut tx.vout 0

def getChange (tx : CTransaction) : Option Int := sumMoney (w.getChangeOut env) tx.vout 0

/-- The sum of `GetAvailableCredit`, over the outputs that are not spent. -/
def getAvailable (wtx : CWalletTx) : Option Int :=
  sumMoney (fun txout => w.getCreditOut txout.1)
    (wtx.vout.zipIdx.filter fun txout => !wtx.isSpent txout.2) 0

/-- `IsMine` of a transaction. -/
def isMineTx (tx : CTransaction) : Bool :=
  tx.vout.any fun txout =>
    w.keystore.isMine txout.scriptPubKey && decide (txout.nValue ≥ env.nMinimumInputValue)

/-- `IsFromMe` of a transaction. -/
def isFromMe (tx : CTransaction) : Option Bool := (w.getDebit tx).map fun nDebit => nDebit > 0

end CWallet

namespace CWalletTx

variable (env : WalletEnv) (w : CWallet) (chain : ChainView) (fUseCache : Bool) (wtx : CWalletTx)

def compute : Cache → Option Int
  | .debit => w.getDebit wtx.toCTransaction
  | .credit | .immatureCredit => w.getCredit wtx.toCTransaction
  | .availableCredit => w.getAvailable wtx
  | .change => w.getChange env wtx.toCTransaction

/-- When a getter returns 0 without a look at its cache. -/
def isZero : Cache → Bool
  | .debit => wtx.vin.isEmpty
  | .credit | .availableCredit => wtx.isGenerated && decide (wtx.getBlocksToMaturity chain > 0)
  | .immatureCredit =>
    !(wtx.isCoinBase && decide (wtx.getBlocksToMaturity chain > 0) && wtx.isInMainChain chain)
  | .change => false

/-- **A getter**: what it returns, and the transaction with what it caches. -/
def getCached (c : Cache) : Option Int × CWalletTx :=
  if wtx.isZero chain c then (some 0, wtx)
  else
    match if fUseCache then wtx.cached c else none with
    | some n => (some n, wtx)
    | none =>
      match wtx.compute env w c with
      | none => (none, wtx)
      | some n => (some n, { wtx with cached := Function.update wtx.cached c (some n) })

def getDebit : Option Int × CWalletTx := wtx.getCached env w chain true .debit

def getCredit : Option Int × CWalletTx := wtx.getCached env w chain fUseCache .credit

def getImmatureCredit : Option Int × CWalletTx := wtx.getCached env w chain fUseCache .immatureCredit

def getAvailableCredit : Option Int × CWalletTx :=
  wtx.getCached env w chain fUseCache .availableCredit

def getChange : Option Int × CWalletTx := wtx.getCached env w chain true .change

/-- `IsFromMe`, with the cached debit. -/
def isFromMe : Option Bool := (wtx.getDebit env w chain).1.map fun nDebit => nDebit > 0

end CWalletTx

/-! ### Into the wallet -/

/-- What `GetKeyFromPool` hands out: the identifier of the key, and the key store with the keys that
may have been generated. -/
structure NewKey where
  keyID : Valtype
  keystore : KeyStoreView

namespace CWallet

variable (env : WalletEnv) (chain : ChainView) (w : CWallet)

/-- A transaction of the wallet is changed. -/
def modifyTx (hash : Uint256) (f : CWalletTx → CWalletTx) : CWallet :=
  match w.mapWallet.lookup hash with
  | none => w
  | some wtx => { w with mapWallet := w.mapWallet.insert hash (f wtx) }

/-- One round of `WalletUpdateSpent`; `none` where `GetCredit` throws. -/
def updateSpentBy (txin : CTxIn) : Option CWallet :=
  match w.mapWallet.lookup txin.prevout.hash with
  | none => some w
  | some wtx =>
    match wtx.vout[txin.prevout.n]? with
    | none => some w
    | some txout =>
      if !wtx.isSpent txin.prevout.n ∧ w.keystore.isMine txout.scriptPubKey then
        -- "WalletUpdateSpent found spent coin" comes with the credit
        let (nCredit, wtx) := wtx.getCredit env w chain true
        nCredit.map fun _ =>
          { w with
            mapWallet := w.mapWallet.insert txin.prevout.hash
              (wtx.setSpent txin.prevout.n true) }
      else some w

def walletUpdateSpent : List CTxIn → CWallet → Bool × CWallet
  | [], w => (true, w)
  | txin :: vin, w =>
    match w.updateSpentBy env chain txin with
    | none => (false, w)
    | some w => walletUpdateSpent vin w

/-- The merge of `AddToWallet` into a transaction that is there. -/
def mergeTx (wtxIn wtx : CWalletTx) : CWalletTx :=
  let wtx := if wtxIn.hashBlock ≠ 0 then { wtx with hashBlock := wtxIn.hashBlock } else wtx
  let wtx := if wtxIn.nIndex ≠ -1 then
    { wtx with vMerkleBranch := wtxIn.vMerkleBranch, nIndex := wtxIn.nIndex } else wtx
  let wtx := if wtxIn.fFromMe then { wtx with fFromMe := true } else wtx
  wtx.updateSpent wtxIn.vfSpent

/-- "Inserts only if not already there", else merges; what is inserted comes with its caches. -/
def insertTx (wtxIn : CWalletTx) : CWallet :=
  let hash := env.txHash wtxIn.toCTransaction
  match w.mapWallet.lookup hash with
  | none => { w with mapWallet := w.mapWallet.insert hash wtxIn.markDirty }
  | some wtx => { w with mapWallet := w.mapWallet.insert hash (mergeTx wtxIn wtx.markDirty) }

/-- The new default key: `SetDefaultKey`, and `SetAddressBookName` with an empty name. -/
def setDefaultKey (key : NewKey) : CWallet :=
  { w with
    keystore := key.keystore
    vchDefaultKey := some key.keyID
    mapAddressBook := insert (.keyID key.keyID) w.mapAddressBook }

/-- "If default receiving address gets used, replace it with a new one"; `newKeys` are the keys that
`GetKeyFromPool` has, one for each output that pays to the default key. -/
def replaceDefaultKey (scriptDefaultKey : CScript) : List CTxOut → List NewKey → CWallet → CWallet
  | txout :: vout, key :: newKeys, w =>
    if txout.scriptPubKey = scriptDefaultKey then
      replaceDefaultKey scriptDefaultKey vout newKeys (w.setDefaultKey key)
    else replaceDefaultKey scriptDefaultKey vout (key :: newKeys) w
  | _, _, w => w

def updateDefaultKey (vout : List CTxOut) (newKeys : List NewKey) : CWallet :=
  match w.vchDefaultKey with
  | none => w
  | some keyID =>
    if env.fQtGui then w else w.replaceDefaultKey (payToKeyID keyID) vout newKeys

/-- The transaction of the wallet that `AddToWallet` has inserted or found. -/
def foundTx (wtxIn : CWalletTx) : CWalletTx :=
  (w.mapWallet.lookup (env.txHash wtxIn.toCTransaction)).getD wtxIn

/-- `AddToWallet`: whether it returns, and the wallet. -/
def addToWallet (newKeys : List NewKey) (wtxIn : CWalletTx) : Bool × CWallet :=
  let w := w.insertTx env wtxIn
  let wtx := w.foundTx env wtxIn
  walletUpdateSpent env chain wtx.vin (w.updateDefaultKey env wtx.vout newKeys)

/-- `AddToWalletIfInvolvingMe`: whether it returns, and the wallet; `place` is what `SetMerkleBranch`
finds for a transaction of a block. -/
def addToWalletIfInvolvingMe (newKeys : List NewKey) (place : Option BlockPlace)
    (tx : CTransaction) (fUpdate : Bool) : Bool × CWallet :=
  let fExisted := (w.mapWallet.lookup (env.txHash tx)).isSome
  if fExisted ∧ !fUpdate then (true, w)
  else if fExisted ∨ w.isMineTx env tx then
    w.addToWallet env chain newKeys (.ofPlaced tx place)
  else
    match w.isFromMe tx with
    | none => (false, w)
    | some true => w.addToWallet env chain newKeys (.ofPlaced tx place)
    | some false => walletUpdateSpent env chain tx.vin w

/-- `CWallet::MarkDirty`, over the transactions in the order of the map. -/
def markDirty : CWallet :=
  (w.mapWallet.keys.sort (· ≤ ·)).foldl (fun w hash => w.modifyTx hash CWalletTx.markDirty) w

end CWallet

/-! ### What stays -/

namespace CWalletTx

variable (env : WalletEnv) (w : CWallet) (chain : ChainView) (wtx : CWalletTx)

theorem toCTransaction_setSpent (nOut : Nat) (fSpent : Bool) :
    (wtx.setSpent nOut fSpent).toCTransaction = wtx.toCTransaction := by
  unfold setSpent
  dsimp only
  split_ifs <;> rfl

theorem toCTransaction_updateSpent (vfNewSpent : List Bool) :
    (wtx.updateSpent vfNewSpent).toCTransaction = wtx.toCTransaction := by
  unfold updateSpent
  split_ifs <;> rfl

theorem getCached_fields (fUseCache : Bool) (c : Cache) :
    ∃ cached, (wtx.getCached env w chain fUseCache c).2 = { wtx with cached } := by
  unfold getCached
  split_ifs
  · exact ⟨wtx.cached, rfl⟩
  all_goals
    split
    · exact ⟨wtx.cached, rfl⟩
    · split
      · exact ⟨wtx.cached, rfl⟩
      · exact ⟨_, rfl⟩

theorem toCTransaction_getCached (fUseCache : Bool) (c : Cache) :
    (wtx.getCached env w chain fUseCache c).2.toCTransaction = wtx.toCTransaction := by
  obtain ⟨cached, heq⟩ := wtx.getCached_fields env w chain fUseCache c
  rw [heq]

theorem getD_resize (vfSpent : List Bool) {i n : Nat} (hi : i < n) :
    ((vfSpent ++ List.replicate n false).take n).getD i false = vfSpent.getD i false := by
  rw [List.getD_eq_getElem?_getD, List.getD_eq_getElem?_getD, List.getElem?_take_of_lt hi]
  rcases Nat.lt_or_ge i vfSpent.length with hlt | hge
  · rw [List.getElem?_append_left hlt]
  · rw [List.getElem?_append_right hge, List.getElem?_eq_none hge, List.getElem?_replicate]
    split_ifs <;> rfl

/-- **The flags after `MarkSpent` and `MarkUnspent`**, of the outputs that are there. -/
theorem isSpent_setSpent {nOut i : Nat} (fSpent : Bool) (hi : i < wtx.vout.length) :
    (wtx.setSpent nOut fSpent).isSpent i = if i = nOut then fSpent else wtx.isSpent i := by
  have hresize := getD_resize wtx.vfSpent hi
  have hlength : ((wtx.vfSpent ++ List.replicate wtx.vout.length false).take
      wtx.vout.length).length = wtx.vout.length := by
    rw [List.length_take, List.length_append, List.length_replicate]
    omega
  unfold setSpent
  dsimp only
  split_ifs with hsame hout hout
  · rw [← hsame, ← hout]
    rfl
  · exact hresize
  · rw [← hout]
    change List.getD (List.set _ i fSpent) i false = fSpent
    rw [List.getD_eq_getElem?_getD, List.getElem?_set_self (by rwa [hlength]), Option.getD_some]
  · change List.getD (List.set _ nOut fSpent) i false = wtx.isSpent i
    rw [List.getD_eq_getElem?_getD, List.getElem?_set_ne (Ne.symm hout),
      ← List.getD_eq_getElem?_getD]
    exact hresize

theorem updateSpent_nil : wtx.updateSpent [] = wtx := by
  have hmerge : mergeSpent [] wtx.vfSpent = wtx.vfSpent := by
    cases wtx.vfSpent <;> rfl
  rw [updateSpent, if_pos hmerge]

end CWalletTx

namespace CWallet

theorem toCTransaction_mergeTx (wtxIn wtx : CWalletTx) :
    (mergeTx wtxIn wtx).toCTransaction = wtx.toCTransaction := by
  unfold mergeTx
  rw [CWalletTx.toCTransaction_updateSpent]
  split_ifs <;> rfl

theorem vfSpent_mergeTx {wtxIn : CWalletTx} (hfresh : wtxIn.vfSpent = []) (wtx : CWalletTx) :
    (mergeTx wtxIn wtx).vfSpent = wtx.vfSpent := by
  unfold mergeTx
  dsimp only
  rw [hfresh, CWalletTx.updateSpent_nil]
  split_ifs <;> rfl

theorem mapWallet_replaceDefaultKey (scriptDefaultKey : CScript) (vout : List CTxOut)
    (newKeys : List NewKey) (w : CWallet) :
    (w.replaceDefaultKey scriptDefaultKey vout newKeys).mapWallet = w.mapWallet := by
  induction vout generalizing newKeys w with
  | nil => rw [replaceDefaultKey]; exact fun _ _ _ _ h => nomatch h
  | cons txout vout ih =>
    cases newKeys with
    | nil => rw [replaceDefaultKey]; exact fun _ _ _ _ _ h => nomatch h
    | cons key newKeys =>
      rw [replaceDefaultKey]
      split_ifs
      · exact ih _ _
      · exact ih _ _

theorem mapWallet_updateDefaultKey (env : WalletEnv) (w : CWallet) (vout : List CTxOut)
    (newKeys : List NewKey) : (w.updateDefaultKey env vout newKeys).mapWallet = w.mapWallet := by
  unfold updateDefaultKey
  split
  · rfl
  · split_ifs
    · rfl
    · exact mapWallet_replaceDefaultKey _ _ _ w

theorem keystore_replaceDefaultKey (scriptDefaultKey : CScript) (vout : List CTxOut)
    (newKeys : List NewKey) (w : CWallet) :
    (w.replaceDefaultKey scriptDefaultKey vout newKeys).keystore = w.keystore ∨
      ∃ key ∈ newKeys, (w.replaceDefaultKey scriptDefaultKey vout newKeys).keystore = key.keystore := by
  induction vout generalizing newKeys w with
  | nil => rw [replaceDefaultKey]; exacts [.inl rfl, fun _ _ _ _ h => nomatch h]
  | cons txout vout ih =>
    cases newKeys with
    | nil => rw [replaceDefaultKey]; exacts [.inl rfl, fun _ _ _ _ _ h => nomatch h]
    | cons key newKeys =>
      rw [replaceDefaultKey]
      split_ifs
      · rcases ih newKeys (w.setDefaultKey key) with hsame | ⟨key', hmem, hkey⟩
        · exact .inr ⟨key, List.mem_cons_self, hsame⟩
        · exact .inr ⟨key', List.mem_cons_of_mem key hmem, hkey⟩
      · exact ih _ _

theorem keystore_updateDefaultKey (env : WalletEnv) (w : CWallet) (vout : List CTxOut)
    (newKeys : List NewKey) : (w.updateDefaultKey env vout newKeys).keystore = w.keystore ∨
      ∃ key ∈ newKeys, (w.updateDefaultKey env vout newKeys).keystore = key.keystore := by
  unfold updateDefaultKey
  split
  · exact .inl rfl
  · split_ifs
    · exact .inl rfl
    · exact keystore_replaceDefaultKey _ _ _ w

end CWallet

end Wallet

end Manna
