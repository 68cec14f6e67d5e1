import Manna.CoinsView
import Manna.Block

/-!
Transactions checked against a view (`main.cpp`: `HaveInputs`, `GetValueIn`,
`GetP2SHSigOpCount`, `CheckInputs`).

Everything read here is a coin: an unspent output with its record's metadata. So each
check, run on a map, is a function of its `utxo` and leaves the map alone
(`run_haveInputs`, `run_getValueIn`, `run_checkInputs`).
-/

namespace Manna

open OpProg

/-- The coin an input refers to. The record is behind the assertion of `GetCoins`, the
output behind the one of `GetOutputFor`; `CheckInputs` reads after `HaveInputs`. -/
def accessCoin (prevout : COutPoint) : CoinsM Coin := do
  let coins ← CoinsM.fetch prevout.hash
  match coins.coinAt prevout.n with
  | none => Prog.fail .assertion
  | some coin => pure coin

def accessCoins : List CTxIn → CoinsM (List Coin)
  | [] => pure []
  | txin :: vin => do
    let coin ← accessCoin txin.prevout
    let coins ← accessCoins vin
    pure (coin :: coins)

/-- The first loop of `HaveInputs`: is information about the transactions available. -/
def haveRecords : List CTxIn → CoinsM Bool
  | [] => pure true
  | txin :: vin => do
    let have_ ← CoinsM.haveCoins txin.prevout.hash
    if have_ then haveRecords vin else pure false

/-- The second loop: are the outputs themselves available. -/
def haveOutputs : List CTxIn → CoinsM Bool
  | [] => pure true
  | txin :: vin => do
    let coins ← CoinsM.fetch txin.prevout.hash
    if coins.isAvailable txin.prevout.n then haveOutputs vin else pure false

def haveInputs (tx : CTransaction) : CoinsM Bool :=
  if tx.isCoinBase then pure true
  else do
    let records ← haveRecords tx.vin
    if records then haveOutputs tx.vin else pure false

/-- The sum `GetValueIn` forms. -/
def sumValues : List Coin → Int → Except Halt Int
  | [], nResult => .ok nResult
  | coin :: coins, nResult =>
    match addInt64 nResult coin.txout.nValue with
    | .error e => .error e
    | .ok nResult => sumValues coins nResult

def getValueIn (tx : CTransaction) : CoinsM Int :=
  if tx.isCoinBase then pure 0
  else do
    let coins ← accessCoins tx.vin
    Prog.ofExcept (sumValues coins 0)

def sumP2SHSigOps : List (CTxIn × Coin) → Nat
  | [] => 0
  | (txin, coin) :: rest =>
    (if isPayToScriptHash coin.txout.scriptPubKey then
      getSigOpCountP2SH coin.txout.scriptPubKey txin.scriptSig
    else 0) + sumP2SHSigOps rest

def getP2SHSigOpCount (tx : CTransaction) : CoinsM Nat :=
  if tx.isCoinBase then pure 0
  else do
    let coins ← accessCoins tx.vin
    pure (sumP2SHSigOps (tx.vin.zip coins))

/-! ### CheckInputs -/

/-- `CScriptCheck`: one script verification to be run. -/
structure CScriptCheck where
  scriptPubKey : CScript
  txTo : CTransaction
  nIn : Nat
  nFlags : ScriptFlags
deriving DecidableEq, Repr

/-- `CScriptCheck::operator()`. -/
def CScriptCheck.passes (env : Env) (check : CScriptCheck) : Bool :=
  match check.txTo.vin[check.nIn]? with
  | none => false
  | some txin => env.verifyScript txin.scriptSig check.scriptPubKey check.txTo check.nIn check.nFlags

def checkMaturityAndValue (nSpendHeight : Int) : List Coin → Int → Except Halt Int
  | [], nValueIn => .ok nValueIn
  | coin :: coins, nValueIn =>
    if coin.fCoinBase ∧ nSpendHeight - coin.nHeight < COINBASE_MATURITY then
      .error (.invalid "CheckInputs() : tried to spend coinbase too early")
    else
      match addInt64 nValueIn coin.txout.nValue with
      | .error e => .error e
      | .ok nValueIn =>
        if !moneyRange coin.txout.nValue || !moneyRange nValueIn then
          .error (.dos 100 "CheckInputs() : txin values out of range" false)
        else checkMaturityAndValue nSpendHeight coins nValueIn

def checkFee (env : Env) (tx : CTransaction) (nValueIn : Int) : Except Halt Unit :=
  match tx.getValueOut with
  | .error e => .error e
  | .ok nValueOut =>
    if nValueIn < nValueOut then
      .error (.dos 100 "CheckInputs() : value in < value out" false)
    else
      match subInt64 nValueIn nValueOut with
      | .error e => .error e
      | .ok nTxFee =>
        if nTxFee < 0 then .error (.dos 100 "CheckInputs() : nTxFee < 0" false)
        else if nTxFee < tx.getMinFee env.fees 1 false .block 0 then
          .error (.dos 100 "CheckInputs() : not paying required fee" false)
        else
          match addInt64 0 nTxFee with
          | .error e => .error e
          | .ok nFees =>
            if !moneyRange nFees then
              .error (.dos 100 "CheckInputs() : nFees out of range" false)
            else .ok ()

def scriptChecks (tx : CTransaction) (flags : ScriptFlags) : List Coin → Nat → List CScriptCheck
  | [], _ => []
  | coin :: coins, i => ⟨coin.txout.scriptPubKey, tx, i, flags⟩ :: scriptChecks tx flags coins (i + 1)

def runScriptChecks (env : Env) (flags : ScriptFlags) : List CScriptCheck → Except Halt Unit
  | [] => .ok ()
  | check :: checks =>
    if check.passes env then runScriptChecks env flags checks
    else if flags.strictEnc ∧
        ({ check with nFlags := { flags with strictEnc := false } } : CScriptCheck).passes env then
      .error (.invalid "")
    else .error (.dos 100 "" false)

/-- `CheckInputs` on the coins of a transaction that is not a coinbase: the checks left to
a queue when `pvChecks`, otherwise none. -/
def checkInputCoins (env : Env) (tx : CTransaction) (nSpendHeight : Int) (fScriptChecks : Bool)
    (flags : ScriptFlags) (pvChecks : Bool) (coins : List Coin) :
    Except Halt (List CScriptCheck) :=
  match checkMaturityAndValue nSpendHeight coins 0 with
  | .error e => .error e
  | .ok nValueIn =>
    match checkFee env tx nValueIn with
    | .error e => .error e
    | .ok _ =>
      if fScriptChecks then
        if pvChecks then .ok (scriptChecks tx flags coins 0)
        else
          match runScriptChecks env flags (scriptChecks tx flags coins 0) with
          | .error e => .error e
          | .ok _ => .ok []
      else .ok []

/-- `CTransaction::CheckInputs`. `heights` reads `nHeight` of an index entry. -/
def checkInputs (env : Env) (heights : Uint256 → Option Int) (tx : CTransaction)
    (fScriptChecks : Bool) (flags : ScriptFlags) (pvChecks : Bool) :
    CoinsM (List CScriptCheck) :=
  if tx.isCoinBase then pure []
  else do
    let have_ ← haveInputs tx
    if have_ then
      let pindexprev ← CoinsM.getBestBlock
      match pindexprev.bind heights with
      | none => Prog.fail .undefined
      | some nHeight =>
        let coins ← accessCoins tx.vin
        Prog.ofExcept (checkInputCoins env tx (nHeight + 1) fScriptChecks flags pvChecks coins)
    else Prog.fail (.invalid "CheckInputs() : inputs unavailable")

/-! ### The checks as functions of the unspent outputs -/

def coinsOf (u : Utxo) : List CTxIn → Option (List Coin)
  | [] => some []
  | txin :: vin =>
    match u txin.prevout, coinsOf u vin with
    | some coin, some coins => some (coin :: coins)
    | _, _ => none

theorem coinsOf_cons (u : Utxo) (txin : CTxIn) (vin : List CTxIn) :
    coinsOf u (txin :: vin) =
      match u txin.prevout, coinsOf u vin with
      | some coin, some coins => some (coin :: coins)
      | _, _ => none := rfl

theorem coinsOf_cons_eq_some {u : Utxo} {txin : CTxIn} {vin : List CTxIn} {coins : List Coin} :
    coinsOf u (txin :: vin) = some coins ↔
      ∃ coin rest, u txin.prevout = some coin ∧ coinsOf u vin = some rest ∧ coins = coin :: rest := by
  rw [coinsOf_cons]
  cases u txin.prevout with
  | none => simp
  | some coin =>
    cases coinsOf u vin with
    | none => simp
    | some rest => simp [eq_comm]

theorem coinsOf_isSome_iff {u : Utxo} {vin : List CTxIn} :
    (coinsOf u vin).isSome = true ↔ ∀ txin ∈ vin, (u txin.prevout).isSome = true := by
  induction vin with
  | nil => simp [coinsOf]
  | cons txin vin ih =>
    rw [List.forall_mem_cons, ← ih, coinsOf_cons]
    cases u txin.prevout <;> cases coinsOf u vin <;> simp

theorem coinsOf_forall₂ {u : Utxo} {vin : List CTxIn} {coins : List Coin} (h : coinsOf u vin = some coins) :
    List.Forall₂ (fun txin coin => u txin.prevout = some coin) vin coins := by
  induction vin generalizing coins with
  | nil =>
    simp only [coinsOf, Option.some.injEq] at h
    exact h ▸ .nil
  | cons txin vin ih =>
    obtain ⟨coin, rest, hcoin, hrest, rfl⟩ := coinsOf_cons_eq_some.mp h
    exact .cons hcoin (ih hrest)

section Run

variable {s : CoinsMap}

theorem run_accessCoin (prevout : COutPoint) (s : CoinsMap) :
    (accessCoin prevout).run CoinsMap.handler s =
      match s.utxo prevout with
      | none => (.error .assertion, s)
      | some coin => (.ok coin, s) := by
  unfold accessCoin
  rw [Prog.run_bind, CoinsM.run_fetch]
  unfold CoinsMap.utxo
  cases s.coins prevout.hash with
  | none => rfl
  | some coins =>
    simp only [Option.bind_some]
    cases coins.coinAt prevout.n <;> rfl

theorem run_accessCoins (vin : List CTxIn) (s : CoinsMap) :
    (accessCoins vin).run CoinsMap.handler s =
      match coinsOf s.utxo vin with
      | none => (.error .assertion, s)
      | some coins => (.ok coins, s) := by
  induction vin with
  | nil => rfl
  | cons txin vin ih =>
    unfold accessCoins
    rw [Prog.run_bind, run_accessCoin, coinsOf_cons]
    cases s.utxo txin.prevout with
    | none => rfl
    | some coin =>
      simp only
      rw [Prog.run_bind, ih]
      cases coinsOf s.utxo vin <;> rfl

theorem run_haveRecords (vin : List CTxIn) (s : CoinsMap) : (haveRecords vin).run CoinsMap.handler s =
      (.ok (vin.all fun txin => (s.coins txin.prevout.hash).isSome), s) := by
  induction vin with
  | nil => rfl
  | cons txin vin ih =>
    unfold haveRecords
    rw [Prog.run_bind, CoinsM.run_haveCoins]
    simp only [List.all_cons]
    cases (s.coins txin.prevout.hash).isSome with
    | false => rfl
    | true => simpa using ih

theorem run_haveOutputs {vin : List CTxIn} {s : CoinsMap}
    (h : ∀ txin ∈ vin, (s.coins txin.prevout.hash).isSome = true) : (haveOutputs vin).run CoinsMap.handler s =
      (.ok (vin.all fun txin => (s.utxo txin.prevout).isSome), s) := by
  induction vin with
  | nil => rfl
  | cons txin vin ih =>
    obtain ⟨coins, hcoins⟩ := Option.isSome_iff_exists.mp (h txin (List.mem_cons_self ..))
    have hutxo : (s.utxo txin.prevout).isSome = coins.isAvailable txin.prevout.n := by
      rw [Bool.eq_iff_iff, CCoins.isAvailable_iff]
      simp [CoinsMap.utxo, hcoins]
    unfold haveOutputs
    rw [Prog.run_bind, CoinsM.run_fetch, hcoins]
    simp only [List.all_cons, hutxo]
    cases coins.isAvailable txin.prevout.n with
    | false => rfl
    | true => simpa using ih fun txin hin => h txin (List.mem_cons_of_mem _ hin)

/-- `HaveInputs` says whether every input refers to an unspent output. -/
theorem run_haveInputs (tx : CTransaction) (s : CoinsMap) : (haveInputs tx).run CoinsMap.handler s =
      (.ok (tx.isCoinBase || (coinsOf s.utxo tx.vin).isSome), s) := by
  unfold haveInputs
  cases hcb : tx.isCoinBase with
  | true => rfl
  | false =>
    simp only [Bool.false_eq_true, if_false, Bool.false_or]
    rw [Prog.run_bind, run_haveRecords]
    simp only
    by_cases hall : ∀ txin ∈ tx.vin, (s.coins txin.prevout.hash).isSome = true
    · rw [if_pos (by simpa using hall), run_haveOutputs hall]
      congr 2
      rw [Bool.eq_iff_iff, coinsOf_isSome_iff]
      simp
    · rw [if_neg (by simpa using hall)]
      have hnone : (coinsOf s.utxo tx.vin).isSome = false := by
        rw [Bool.eq_false_iff, ne_eq, coinsOf_isSome_iff]
        intro havail
        refine hall fun txin hin => ?_
        have := havail txin hin
        unfold CoinsMap.utxo at this
        cases hcoins : s.coins txin.prevout.hash with
        | none => simp [hcoins] at this
        | some coins => rfl
      rw [hnone]
      rfl

theorem run_getValueIn {tx : CTransaction} (hcb : tx.isCoinBase = false) {coins : List Coin}
    (h : coinsOf s.utxo tx.vin = some coins) :
    (getValueIn tx).run CoinsMap.handler s = (sumValues coins 0, s) := by
  unfold getValueIn
  rw [if_neg (by simp [hcb]), Prog.run_bind, run_accessCoins, h]
  simp

theorem run_getP2SHSigOpCount {tx : CTransaction} (hcb : tx.isCoinBase = false) {coins : List Coin}
    (h : coinsOf s.utxo tx.vin = some coins) : (getP2SHSigOpCount tx).run CoinsMap.handler s =
      (.ok (sumP2SHSigOps (tx.vin.zip coins)), s) := by
  unfold getP2SHSigOpCount
  rw [if_neg (by simp [hcb]), Prog.run_bind, run_accessCoins, h]
  rfl

/-- `CheckInputs` as a function of the unspent outputs and the height of the best block. -/
def checkInputsAt (env : Env) (tx : CTransaction) (fScriptChecks : Bool) (flags : ScriptFlags)
    (pvChecks : Bool) (u : Utxo) (nBestHeight : Option Int) : Except Halt (List CScriptCheck) :=
  match coinsOf u tx.vin with
  | none => .error (.invalid "CheckInputs() : inputs unavailable")
  | some coins =>
    match nBestHeight with
    | none => .error .undefined
    | some nHeight => checkInputCoins env tx (nHeight + 1) fScriptChecks flags pvChecks coins

theorem run_checkInputs {env : Env} {heights : Uint256 → Option Int} {tx : CTransaction}
    {fScriptChecks pvChecks : Bool} {flags : ScriptFlags} (hcb : tx.isCoinBase = false) (s : CoinsMap) :
    (checkInputs env heights tx fScriptChecks flags pvChecks).run CoinsMap.handler s =
      (checkInputsAt env tx fScriptChecks flags pvChecks s.utxo (s.best.bind heights), s) := by
  unfold checkInputs checkInputsAt
  rw [if_neg (by simp [hcb]), Prog.run_bind, run_haveInputs]
  simp only [hcb, Bool.false_or]
  cases hcoins : coinsOf s.utxo tx.vin with
  | none => rfl
  | some coins =>
    simp only [Option.isSome_some, if_true]
    rw [Prog.run_bind, CoinsM.run_getBestBlock]
    simp only
    cases s.best.bind heights with
    | none => rfl
    | some nHeight =>
      simp only
      rw [Prog.run_bind, run_accessCoins, hcoins]
      simp

end Run

end Manna
