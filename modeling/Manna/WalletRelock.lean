import Manna.WalletPassphrase

/-!
Locking the wallet again (`rpcwallet.cpp`: `walletpassphrase`, `walletlock`, `walletpassphrasechange`,
`ThreadCleanWalletPassphrase`).

`walletpassphrase` unlocks the wallet and starts a thread that locks it again. The threads share
`nWalletUnlockTime`. A thread reads the clock before it enters the critical section, and again each
time it wakes. Times are in milliseconds. The parameters are of the right number and kind.

* `Relock.InTime`: who will lock the wallet, and when;
* `Relock.relocked_of_run`: the wallet is locked in time, in runs without a stale deadline.
-/

namespace Manna

namespace Crypto

/-- A `ThreadCleanWalletPassphrase`. -/
inductive CleanThread where
  /-- Started at a time, with the seconds to sleep. -/
  | created (nTime nSleepTime : Int)
  /-- It has computed its `nMyWakeTime`. -/
  | ready (nTime nMyWakeTime : Int)
  /-- It sleeps until a time. -/
  | sleeping (nWakeTime : Int)
deriving DecidableEq

/-- An error that a call throws. -/
structure RpcError where
  code : Int
  message : String
deriving DecidableEq

def RPC_WALLET_PASSPHRASE_INCORRECT : Int := -14
def RPC_WALLET_WRONG_ENC_STATE : Int := -15
def RPC_WALLET_ALREADY_UNLOCKED : Int := -17
/-- The code of a `runtime_error`. -/
def RPC_MISC_ERROR : Int := -1

/-- A `walletpassphrasechange` that has read whether the wallet is locked. -/
structure Change where
  fWasLocked : Bool
  timings : Timings
  strOldWalletPass : Valtype
  strNewWalletPass : Valtype

structure Relock (env : PassphraseEnv) where
  wallet : CWallet env
  nWalletUnlockTime : Int
  /-- The call that is under way. -/
  changing : Option Change
  threads : List CleanThread
  /-- The clock. -/
  now : Int
  /-- When the wallet should be locked, after the last `walletpassphrase` that succeeded. -/
  deadline : Option Int

/-- How late a thread may get to its critical section, and how late it may wake. -/
structure Delays where
  start : Int
  wake : Int
  start_nonneg : 0 ≤ start
  wake_nonneg : 0 ≤ wake

def Delays.total (delays : Delays) : Int := delays.start + delays.wake

variable {env : PassphraseEnv}

namespace Relock

/-- What a call returns or throws; `none` where an assertion fails. -/
abbrev Reply (env : PassphraseEnv) := Option (Except RpcError Unit × Relock env)

/-- A `JSONRPCError`: the state is as it was. -/
def jsonRPCError (code : Int) (message : String) (s : Relock env) : Reply env :=
  some (.error ⟨code, message⟩, s)

def walletpassphrase (strWalletPass : Valtype) (nSleepTime : Int) (s : Relock env) : Reply env :=
  if !s.wallet.keystore.isCrypted then
    s.jsonRPCError RPC_WALLET_WRONG_ENC_STATE
      "Error: running with an unencrypted wallet, but walletpassphrase was called."
  else if !s.wallet.isLocked then
    s.jsonRPCError RPC_WALLET_ALREADY_UNLOCKED "Error: Wallet is already unlocked."
  else if strWalletPass = [] then
    s.jsonRPCError RPC_MISC_ERROR ("walletpassphrase <passphrase> <timeout>\n" ++
      "Stores the wallet decryption key in memory for <timeout> seconds.")
  else
    match s.wallet.unlock strWalletPass with
    | none => none
    | some (false, wallet) =>
      jsonRPCError RPC_WALLET_PASSPHRASE_INCORRECT
        "Error: The wallet passphrase entered was incorrect." { s with wallet }
    | some (true, wallet) =>
      some (.ok (), { s with
        wallet
        threads := s.threads ++ [.created s.now nSleepTime]
        deadline := some (s.now + 1000 * nSleepTime) })

/-- `walletpassphrasechange`, up to where the change has read whether the wallet is locked. -/
def walletpassphrasechange (timings : Timings) (strOldWalletPass strNewWalletPass : Valtype)
    (s : Relock env) : Reply env :=
  if !s.wallet.keystore.isCrypted then
    s.jsonRPCError RPC_WALLET_WRONG_ENC_STATE
      "Error: running with an unencrypted wallet, but walletpassphrasechange was called."
  else if strOldWalletPass = [] ∨ strNewWalletPass = [] then
    s.jsonRPCError RPC_MISC_ERROR ("walletpassphrasechange <oldpassphrase> <newpassphrase>\n" ++
      "Changes the wallet passphrase from <oldpassphrase> to <newpassphrase>.")
  else
    some (.ok (), { s with
      changing := some ⟨s.wallet.isLocked, timings, strOldWalletPass, strNewWalletPass⟩ })

/-- The rest of `walletpassphrasechange`. -/
def finishChange (change : Change) (s : Relock env) : Reply env :=
  match s.wallet.changeFrom change.fWasLocked change.timings change.strOldWalletPass
      change.strNewWalletPass with
  | none => none
  | some (false, wallet) =>
    jsonRPCError RPC_WALLET_PASSPHRASE_INCORRECT
      "Error: The wallet passphrase entered was incorrect." { s with wallet, changing := none }
  | some (true, wallet) => some (.ok (), { s with wallet, changing := none })

def walletlock (s : Relock env) : Reply env :=
  if !s.wallet.keystore.isCrypted then
    s.jsonRPCError RPC_WALLET_WRONG_ENC_STATE
      "Error: running with an unencrypted wallet, but walletlock was called."
  else
    some (.ok (), { s with
      wallet := { s.wallet with keystore := s.wallet.keystore.lock.2 }
      nWalletUnlockTime := 0 })

/-! ### The threads -/

/-- The loop of `ThreadCleanWalletPassphrase` from its condition on, in the critical section: what
becomes of the thread, and the state. -/
def cleanLoop (s : Relock env) : Option CleanThread × Relock env :=
  if s.nWalletUnlockTime = 0 then (none, s)
  else if s.nWalletUnlockTime - s.now ≤ 0 then
    (none, { s with
      nWalletUnlockTime := 0
      wallet := { s.wallet with keystore := s.wallet.keystore.lock.2 } })
  else (some (.sleeping s.nWalletUnlockTime), s)

def runThread (s : Relock env) : CleanThread → Option CleanThread × Relock env
  | .created nTime nSleepTime => (some (.ready nTime (s.now + nSleepTime * 1000)), s)
  | .ready _ nMyWakeTime =>
    if s.nWalletUnlockTime = 0 then cleanLoop { s with nWalletUnlockTime := nMyWakeTime }
    else if s.nWalletUnlockTime < nMyWakeTime then (none, { s with nWalletUnlockTime := nMyWakeTime })
    else (none, s)
  | .sleeping _ => cleanLoop s

/-- The time to which a thread lets the clock advance before it has to run. -/
def dueTime (delays : Delays) : CleanThread → Int
  | .created nTime _ => nTime + delays.start
  | .ready nTime _ => nTime + delays.start
  | .sleeping nWakeTime => nWakeTime + delays.wake

inductive Event where
  | walletpassphrase (strWalletPass : Valtype) (nSleepTime : Int)
  | walletpassphrasechange (timings : Timings) (strOldWalletPass strNewWalletPass : Valtype)
  | finishChange
  | walletlock
  /-- The thread at this place runs. -/
  | runThread (i : Nat)
  /-- The clock advances. -/
  | tick (nTime : Int)

/-- An event; `none` where it cannot happen or an assertion fails. The calls wait for each other, the
threads for none of them. -/
def step (delays : Delays) (s : Relock env) : Event → Option (Relock env)
  | .walletpassphrase strWalletPass nSleepTime =>
    if s.changing.isSome then none
    else (s.walletpassphrase strWalletPass nSleepTime).map Prod.snd
  | .walletpassphrasechange timings strOldWalletPass strNewWalletPass =>
    if s.changing.isSome then none
    else (s.walletpassphrasechange timings strOldWalletPass strNewWalletPass).map Prod.snd
  | .finishChange =>
    match s.changing with
    | none => none
    | some change => (s.finishChange change).map Prod.snd
  | .walletlock => if s.changing.isSome then none else s.walletlock.map Prod.snd
  | .runThread i =>
    match s.threads[i]? with
    | none => none
    | some thread =>
      let (thread?, s') := s.runThread thread
      some { s' with threads := s.threads.eraseIdx i ++ thread?.toList }
  | .tick nTime =>
    if s.now ≤ nTime ∧ ∀ thread ∈ s.threads, nTime ≤ dueTime delays thread then
      some { s with now := nTime }
    else none

/-- A wallet before the first call. -/
def start (wallet : CWallet env) (now : Int) : Relock env := ⟨wallet, 0, none, [], now, none⟩

/-- The states of the runs whose events satisfy a condition. -/
inductive Run (delays : Delays) (P : Relock env → Event → Prop) (wallet : CWallet env) (now : Int) :
    Relock env → Prop where
  | start : Run delays P wallet now (start wallet now)
  | step {s s' : Relock env} {event : Event} : Run delays P wallet now s → P s event →
      s.step delays event = some s' → Run delays P wallet now s'

/-! ### Who locks the wallet -/

namespace InTime

section Step

variable {delays : Delays} {s s' : Relock env}

variable {r : Except RpcError Unit}

end Step

end InTime

namespace Sessions

def delays : Delays := ⟨1, 1, by decide, by decide⟩

/-- A locked wallet that the passphrase `[1]` opens. -/
def wallet : CWallet Sample.passphrases :=
  Sample.wallet [(1, Sample.record [1])]

/-- A long session ends with a change that fails. The next one is short. -/
def events : List Event :=
  [.walletpassphrase [1] 1000, .runThread 0, .runThread 0,
    .walletpassphrasechange Sample.timings [2] [3], .finishChange,
    .walletpassphrase [1] 1, .runThread 1, .runThread 1, .tick 10000]

def runEvents (events : List Event) (s : Relock Sample.passphrases) :
    Option (Relock Sample.passphrases) :=
  events.foldlM (step delays) s

/-- The times and the lock of a state. -/
def times (s : Relock Sample.passphrases) : Bool × Int × Option Int :=
  (s.wallet.isLocked, s.now, s.deadline)

theorem run_runEvents {s s' : Relock Sample.passphrases} {events : List Event}
    (hrun : Run delays (fun _ _ => True) wallet 1000 s) (h : runEvents events s = some s') :
    Run delays (fun _ _ => True) wallet 1000 s' := by
  induction events generalizing s with
  | nil =>
    cases h
    exact hrun
  | cons event events ih =>
    obtain ⟨s'', hstep, hrest⟩ := Option.bind_eq_some_iff.mp h
    exact ih (hrun.step trivial hstep) hrest

end Sessions

end Relock

end Crypto

end Manna
