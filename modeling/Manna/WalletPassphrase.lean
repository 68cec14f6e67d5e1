import Manna.CryptoKeyStore

/-!
Passphrases of an encrypted wallet (`crypter.cpp`: `SetKeyFromPassphrase`; `wallet.cpp`: `Unlock`,
`ChangeWalletPassphrase`).

A record of `mapMasterKeys` holds the master key, encrypted with a key that is derived from a
passphrase. The iteration counts that the timings lead to are taken from outside, and the file the
records are written to is left out.

* `unlockExact_iff`: when `Unlock` finds the record that opens the store;
* `changeAtomic_iff`: when `ChangeWalletPassphrase` changes nothing where it fails.
-/

namespace Manna

namespace Crypto

def WALLET_CRYPTO_SALT_SIZE : Nat := 8

/-- The other functions of the library. -/
structure PassphraseEnv extends CryptoEnv where
  /-- `EVP_BytesToKey`: a key and a vector from a passphrase, a salt and a number of rounds; `none`
  where the key has another length. -/
  evpBytesToKey : Valtype → Valtype → Nat → Option (Valtype × Valtype)
  /-- What an encryption that fails leaves in the buffer. -/
  evpLeftover : Valtype → Valtype → CKeyingMaterial → Valtype

/-- `CMasterKey`. -/
structure CMasterKey where
  vchCryptedKey : Valtype
  vchSalt : Valtype
  nDerivationMethod : Nat
  nDeriveIterations : Nat
deriving DecidableEq

/-- `CCrypter::SetKeyFromPassphrase`: the key and the vector that it sets. -/
def setKeyFromPassphrase (env : PassphraseEnv) (strKeyData chSalt : Valtype) (nRounds : Nat)
    (nDerivationMethod : Nat) : Option (Valtype × Valtype) :=
  if nRounds < 1 ∨ chSalt.length ≠ WALLET_CRYPTO_SALT_SIZE then none
  else if nDerivationMethod = 0 then env.evpBytesToKey strKeyData chSalt nRounds
  else none

/-- The part of `CWallet` that passphrases are about. -/
structure CWallet (env : PassphraseEnv) where
  keystore : CCryptoKeyStore env.toCryptoEnv
  mapMasterKeys : List (Nat × CMasterKey)

/-- The iteration counts that the timings of `ChangeWalletPassphrase` lead to. -/
structure Timings where
  first : Nat → Nat
  second : Nat → Nat

variable {env : PassphraseEnv}

namespace CMasterKey

/-- Decrypting a record with a passphrase. -/
def decrypt (env : PassphraseEnv) (strWalletPassphrase : Valtype) (masterKey : CMasterKey) :
    Option CKeyingMaterial :=
  match setKeyFromPassphrase env strWalletPassphrase masterKey.vchSalt masterKey.nDeriveIterations
      masterKey.nDerivationMethod with
  | none => none
  | some (chKey, chIV) => env.evpDecrypt chKey chIV masterKey.vchCryptedKey

/-- What `ChangeWalletPassphrase` does to the record that opens the store, and whether it goes
through. -/
def rewrap (env : PassphraseEnv) (timings : Timings) (strNewWalletPassphrase : Valtype)
    (vMasterKey : CKeyingMaterial) (masterKey : CMasterKey) : Bool × CMasterKey :=
  let nDeriveIterations := timings.second (timings.first masterKey.nDeriveIterations)
  let masterKey := { masterKey with
    nDeriveIterations := if nDeriveIterations < 25000 then 25000 else nDeriveIterations }
  match setKeyFromPassphrase env strNewWalletPassphrase masterKey.vchSalt
      masterKey.nDeriveIterations masterKey.nDerivationMethod with
  | none => (false, masterKey)
  | some (chKey, chIV) =>
    match env.evpEncrypt chKey chIV vMasterKey with
    | none => (false, { masterKey with vchCryptedKey := env.evpLeftover chKey chIV vMasterKey })
    | some vchCryptedKey => (true, { masterKey with vchCryptedKey })

end CMasterKey

namespace CWallet

def isLocked (w : CWallet env) : Bool := w.keystore.isLocked

/-- The loop of `Unlock`; `none` where an assertion fails. -/
def unlockLoop (strWalletPassphrase : Valtype) :
    List (Nat × CMasterKey) → CCryptoKeyStore env.toCryptoEnv →
      Option (Bool × CCryptoKeyStore env.toCryptoEnv)
  | [], keystore => some (false, keystore)
  | pMasterKey :: records, keystore =>
    match pMasterKey.2.decrypt env strWalletPassphrase with
    | none => some (false, keystore)
    | some vMasterKey =>
      match keystore.unlock vMasterKey with
      | none => none
      | some (true, keystore) => some (true, keystore)
      | some (false, keystore) => unlockLoop strWalletPassphrase records keystore

def unlock (strWalletPassphrase : Valtype) (w : CWallet env) : Option (Bool × CWallet env) :=
  if !w.isLocked then some (false, w)
  else
    match unlockLoop strWalletPassphrase w.mapMasterKeys w.keystore with
    | none => none
    | some (r, keystore) => some (r, { w with keystore })

/-- The loop of `ChangeWalletPassphrase`: what it returns, the records and the store. -/
def changeLoop (timings : Timings) (fWasLocked : Bool)
    (strOldWalletPassphrase strNewWalletPassphrase : Valtype) :
    List (Nat × CMasterKey) → CCryptoKeyStore env.toCryptoEnv →
      Option (Bool × List (Nat × CMasterKey) × CCryptoKeyStore env.toCryptoEnv)
  | [], keystore => some (false, [], keystore)
  | pMasterKey :: records, keystore =>
    match pMasterKey.2.decrypt env strOldWalletPassphrase with
    | none => some (false, pMasterKey :: records, keystore)
    | some vMasterKey =>
      match keystore.unlock vMasterKey with
      | none => none
      | some (true, keystore) =>
        let (done, masterKey) := pMasterKey.2.rewrap env timings strNewWalletPassphrase vMasterKey
        some (done, (pMasterKey.1, masterKey) :: records,
          if done && fWasLocked then keystore.lock.2 else keystore)
      | some (false, keystore) =>
        match changeLoop timings fWasLocked strOldWalletPassphrase strNewWalletPassphrase
            records keystore with
        | none => none
        | some (r, records, keystore) => some (r, pMasterKey :: records, keystore)

def changeFrom (fWasLocked : Bool) (timings : Timings)
    (strOldWalletPassphrase strNewWalletPassphrase : Valtype) (w : CWallet env) :
    Option (Bool × CWallet env) :=
  match changeLoop timings fWasLocked strOldWalletPassphrase strNewWalletPassphrase w.mapMasterKeys
      w.keystore.lock.2 with
  | none => none
  | some (r, mapMasterKeys, keystore) => some (r, ⟨keystore, mapMasterKeys⟩)

def changeWalletPassphrase (timings : Timings) (strOldWalletPassphrase strNewWalletPassphrase : Valtype)
    (w : CWallet env) : Option (Bool × CWallet env) :=
  w.changeFrom w.isLocked timings strOldWalletPassphrase strNewWalletPassphrase

end CWallet

/-! ### What the operations promise -/

/-- What a record answers to a passphrase. -/
inductive Answer where
  /-- It does not decrypt. -/
  | fails
  /-- It decrypts to a key that the store does not take. -/
  | refused
  /-- It decrypts to a key that opens the store. -/
  | opens (vMasterKey : CKeyingMaterial)
  /-- It decrypts to a key at which an assertion fails. -/
  | asserts
deriving DecidableEq

def CMasterKey.answer (keystore : CCryptoKeyStore env.toCryptoEnv) (strWalletPassphrase : Valtype)
    (masterKey : CMasterKey) : Answer :=
  match masterKey.decrypt env strWalletPassphrase with
  | none => .fails
  | some vMasterKey =>
    match keystore.opens vMasterKey with
    | none => .asserts
    | some false => .refused
    | some true => .opens vMasterKey

namespace CWallet

/-- The first record that is not refused: there both loops stop. -/
def firstStop (strWalletPassphrase : Valtype) (w : CWallet env) : Option CMasterKey :=
  (w.mapMasterKeys.map Prod.snd).find? fun masterKey =>
    masterKey.answer w.keystore strWalletPassphrase ≠ .refused

/-- The record at which the loops stop opens the store. -/
def OpenedBy (strWalletPassphrase : Valtype) (w : CWallet env) : Prop :=
  ∃ masterKey vMasterKey, w.firstStop strWalletPassphrase = some masterKey ∧
    masterKey.answer w.keystore strWalletPassphrase = .opens vMasterKey

/-- Some record decrypts to a key that opens the store. -/
def HasRecord (strWalletPassphrase : Valtype) (w : CWallet env) : Prop :=
  ∃ pMasterKey ∈ w.mapMasterKeys, ∃ vMasterKey,
    pMasterKey.2.decrypt env strWalletPassphrase = some vMasterKey ∧
      w.keystore.opens vMasterKey = some true

/-- **Unlock succeeds** exactly when some record opens the store. -/
def UnlockExact (strWalletPassphrase : Valtype) (w : CWallet env) : Prop :=
  (∃ w', w.unlock strWalletPassphrase = some (true, w')) ↔ w.HasRecord strWalletPassphrase

/-- `Unlock` accepts a passphrase when the wallet is locked. -/
def Accepts (strWalletPassphrase : Valtype) (w : CWallet env) : Prop :=
  ∃ w', { w with keystore := w.keystore.lock.2 }.unlock strWalletPassphrase = some (true, w')

/-- **A change that fails** leaves the records, the accepted passphrases and the lock. -/
def ChangeAtomic (timings : Timings) (strOldWalletPassphrase strNewWalletPassphrase : Valtype)
    (w : CWallet env) : Prop :=
  ∀ w', w.changeWalletPassphrase timings strOldWalletPassphrase strNewWalletPassphrase =
      some (false, w') →
    w'.mapMasterKeys = w.mapMasterKeys ∧ (∀ passphrase, w'.Accepts passphrase ↔ w.Accepts passphrase) ∧
      w'.isLocked = w.isLocked

/-- The loop of `Unlock` stops at no record that fails while another one opens the store. -/
def FindsRecord (strWalletPassphrase : Valtype) (w : CWallet env) : Prop :=
  ∀ masterKey, w.firstStop strWalletPassphrase = some masterKey →
    (∀ vMasterKey, masterKey.answer w.keystore strWalletPassphrase ≠ .opens vMasterKey) →
      ¬ w.HasRecord strWalletPassphrase

/-- The wallet was locked before a change that does not get to a record. One that gets there goes
through, or leaves an unlocked wallet and the record as they were. -/
def LosesNothing (timings : Timings) (strOldWalletPassphrase strNewWalletPassphrase : Valtype)
    (w : CWallet env) : Prop :=
  match w.firstStop strOldWalletPassphrase with
  | none => w.isLocked = true
  | some masterKey =>
    match masterKey.answer w.keystore strOldWalletPassphrase with
    | .fails | .refused => w.isLocked = true
    | .asserts => True
    | .opens vMasterKey =>
      (masterKey.rewrap env timings strNewWalletPassphrase vMasterKey).1 = true ∨
        w.isLocked = false ∧
          (masterKey.rewrap env timings strNewWalletPassphrase vMasterKey).2 = masterKey

end CWallet

/-! ### The loops -/

section Loops

variable {keystore : CCryptoKeyStore env.toCryptoEnv} {strWalletPassphrase : Valtype}
  {records pre post : List (Nat × CMasterKey)} {pMasterKey : Nat × CMasterKey}

theorem unlock_of_isCrypted (hcrypted : keystore.isCrypted = true) (vMasterKeyIn : CKeyingMaterial) :
    keystore.unlock vMasterKeyIn =
      match keystore.opens vMasterKeyIn with
      | none => none
      | some false => some (false, keystore)
      | some true => some (true, { keystore with vMasterKey := vMasterKeyIn }) := by
  have hset : keystore.setCrypted = (true, keystore) := if_pos hcrypted
  exact CCryptoKeyStore.unlock_of_setCrypted hset

theorem unlock_of_refused (hcrypted : keystore.isCrypted = true)
    (hrefused : pMasterKey.2.answer keystore strWalletPassphrase = .refused) :
    ∃ vMasterKey, pMasterKey.2.decrypt env strWalletPassphrase = some vMasterKey ∧
      keystore.unlock vMasterKey = some (false, keystore) := by
  unfold CMasterKey.answer at hrefused
  split at hrefused
  · cases hrefused
  · next vMasterKey hdecrypt =>
    refine ⟨vMasterKey, hdecrypt, ?_⟩
    rw [unlock_of_isCrypted hcrypted]
    split at hrefused
    · cases hrefused
    · rfl
    · cases hrefused

theorem answer_eq_opens_iff {vMasterKey : CKeyingMaterial} :
    pMasterKey.2.answer keystore strWalletPassphrase = .opens vMasterKey ↔
      pMasterKey.2.decrypt env strWalletPassphrase = some vMasterKey ∧
        keystore.opens vMasterKey = some true := by
  unfold CMasterKey.answer
  cases hdecrypt : pMasterKey.2.decrypt env strWalletPassphrase with
  | none => simp
  | some vMasterKey' =>
    dsimp only
    constructor
    · intro h
      split at h
      · cases h
      · cases h
      · next hopens =>
        cases h
        exact ⟨rfl, hopens⟩
    · rintro ⟨heq, hopens⟩
      obtain rfl := Option.some.inj heq
      rw [hopens]

theorem unlockLoop_append (hcrypted : keystore.isCrypted = true) (post : List (Nat × CMasterKey))
    (hpre : ∀ p ∈ pre, p.2.answer keystore strWalletPassphrase = .refused) :
    CWallet.unlockLoop strWalletPassphrase (pre ++ post) keystore =
      CWallet.unlockLoop strWalletPassphrase post keystore := by
  induction pre with
  | nil => rfl
  | cons p pre ih =>
    rw [List.forall_mem_cons] at hpre
    obtain ⟨vMasterKey, hdecrypt, hunlock⟩ := unlock_of_refused hcrypted hpre.1
    rw [List.cons_append, CWallet.unlockLoop, hdecrypt]
    dsimp only
    rw [hunlock]
    exact ih hpre.2

theorem changeLoop_append (hcrypted : keystore.isCrypted = true) (timings : Timings) (fWasLocked : Bool)
    (strNewWalletPassphrase : Valtype) (post : List (Nat × CMasterKey))
    (hpre : ∀ p ∈ pre, p.2.answer keystore strWalletPassphrase = .refused) :
    CWallet.changeLoop timings fWasLocked strWalletPassphrase strNewWalletPassphrase (pre ++ post)
        keystore = (CWallet.changeLoop timings fWasLocked strWalletPassphrase strNewWalletPassphrase post
        keystore).map fun out => (out.1, pre ++ out.2.1, out.2.2) := by
  induction pre with
  | nil => simp
  | cons p pre ih =>
    rw [List.forall_mem_cons] at hpre
    obtain ⟨vMasterKey, hdecrypt, hunlock⟩ := unlock_of_refused hcrypted hpre.1
    rw [List.cons_append, CWallet.changeLoop, hdecrypt]
    dsimp only
    rw [hunlock]
    dsimp only
    rw [ih hpre.2]
    cases CWallet.changeLoop timings fWasLocked strWalletPassphrase strNewWalletPassphrase post keystore
      with
    | none => rfl
    | some out => rfl

theorem stop_cases (w : CWallet env) (strWalletPassphrase : Valtype) :
    (w.firstStop strWalletPassphrase = none ∧
      ∀ p ∈ w.mapMasterKeys, p.2.answer w.keystore strWalletPassphrase = .refused) ∨
    ∃ pre p post, w.mapMasterKeys = pre ++ p :: post ∧ w.firstStop strWalletPassphrase = some p.2 ∧
      (∀ p ∈ pre, p.2.answer w.keystore strWalletPassphrase = .refused) ∧
      p.2.answer w.keystore strWalletPassphrase ≠ .refused := by
  unfold CWallet.firstStop
  induction w.mapMasterKeys with
  | nil => exact .inl ⟨rfl, List.forall_mem_nil _⟩
  | cons p records ih =>
    rw [List.map_cons, List.find?_cons]
    by_cases hrefused : p.2.answer w.keystore strWalletPassphrase = .refused
    · rw [decide_eq_false (not_not.mpr hrefused)]
      rcases ih with ⟨hnone, hall⟩ | ⟨pre, q, post, hsplit, hsome, hpre, hstop⟩
      · exact .inl ⟨hnone, List.forall_mem_cons.mpr ⟨hrefused, hall⟩⟩
      · refine .inr ⟨p :: pre, q, post, ?_, hsome, List.forall_mem_cons.mpr ⟨hrefused, hpre⟩, hstop⟩
        rw [hsplit, List.cons_append]
    · rw [decide_eq_true hrefused]
      exact .inr ⟨[], p, records, rfl, rfl, List.forall_mem_nil _, hrefused⟩

end Loops

/-! ### Unlock -/

section Unlock

variable {w : CWallet env} {strWalletPassphrase : Valtype}

theorem isCrypted_of_isLocked {s : CCryptoKeyStore env.toCryptoEnv} (h : s.isLocked = true) :
    s.isCrypted = true := (Bool.and_eq_true_iff.mp h).1

/-- **What `Unlock` returns**: it opens the store with the first record that is not refused. -/
theorem unlock_iff (hlocked : w.isLocked = true) :
    (∃ w', w.unlock strWalletPassphrase = some (true, w')) ↔ w.OpenedBy strWalletPassphrase := by
  have hcrypted : w.keystore.isCrypted = true := isCrypted_of_isLocked hlocked
  unfold CWallet.unlock CWallet.OpenedBy
  rw [hlocked, Bool.not_true, if_neg Bool.false_ne_true]
  rcases stop_cases w strWalletPassphrase with ⟨hnone, hall⟩ |
    ⟨pre, p, post, hsplit, hsome, hpre, hstop⟩
  · have hloop := unlockLoop_append hcrypted [] hall
    rw [List.append_nil] at hloop
    rw [hloop, hnone]
    exact iff_of_false (fun ⟨_, heq⟩ => nomatch heq) nofun
  · rw [hsplit, unlockLoop_append hcrypted _ hpre, hsome, CWallet.unlockLoop]
    simp only [Option.some.injEq, exists_and_left, exists_eq_left']
    unfold CMasterKey.answer at hstop ⊢
    cases hdecrypt : p.2.decrypt env strWalletPassphrase with
    | none => exact iff_of_false (fun ⟨_, heq⟩ => nomatch heq) nofun
    | some vMasterKey =>
      dsimp only
      rw [hdecrypt] at hstop
      dsimp only at hstop
      rw [unlock_of_isCrypted hcrypted]
      cases hopens : w.keystore.opens vMasterKey with
      | none => exact iff_of_false nofun nofun
      | some opened =>
        cases opened with
        | false =>
          rw [hopens] at hstop
          exact absurd rfl hstop
        | true => exact iff_of_true ⟨_, rfl⟩ ⟨_, rfl⟩

theorem hasRecord_iff : w.HasRecord strWalletPassphrase ↔ ∃ pMasterKey ∈ w.mapMasterKeys, ∃ vMasterKey,
    pMasterKey.2.answer w.keystore strWalletPassphrase = .opens vMasterKey := by
  unfold CWallet.HasRecord
  simp only [answer_eq_opens_iff]

/-- **Unlock is exact** if and only if no record that fails keeps it from one that opens the store. -/
theorem unlockExact_iff (hlocked : w.isLocked = true) :
    w.UnlockExact strWalletPassphrase ↔ w.FindsRecord strWalletPassphrase := by
  unfold CWallet.UnlockExact CWallet.FindsRecord
  rw [unlock_iff hlocked]
  constructor
  · intro hexact masterKey hstop hnot hrecord
    obtain ⟨masterKey', vMasterKey, hstop', hopens⟩ := hexact.mpr hrecord
    obtain rfl : masterKey' = masterKey := Option.some.inj (hstop'.symm.trans hstop)
    exact hnot vMasterKey hopens
  · intro hfinds
    constructor
    · rintro ⟨masterKey, vMasterKey, hstop, hopens⟩
      obtain ⟨p, hp, rfl⟩ := List.mem_map.mp (List.mem_of_find?_eq_some hstop)
      exact hasRecord_iff.mpr ⟨p, hp, vMasterKey, hopens⟩
    · intro hrecord
      obtain ⟨p, hp, vMasterKey, hopens⟩ := hasRecord_iff.mp hrecord
      rcases stop_cases w strWalletPassphrase with ⟨-, hall⟩ | ⟨-, q, -, -, hstop, -⟩
      · rw [hall p hp] at hopens
        cases hopens
      · by_contra hnone
        refine hfinds q.2 hstop (fun vMasterKey' hopens' => ?_) hrecord
        exact hnone ⟨q.2, vMasterKey', hstop, hopens'⟩

end Unlock

/-! ### ChangeWalletPassphrase -/

section Change

variable {w : CWallet env} {timings : Timings} {strOldWalletPassphrase strNewWalletPassphrase : Valtype}

theorem lock_of_isCrypted {s : CCryptoKeyStore env.toCryptoEnv} (hcrypted : s.isCrypted = true) :
    s.lock = (true, { s with vMasterKey := [] }) := by
  have hset : s.setCrypted = (true, s) := if_pos hcrypted
  unfold CCryptoKeyStore.lock
  rw [hset]

theorem ne_nil_of_opens {s : CCryptoKeyStore env.toCryptoEnv} (hne : s.mapCryptedKeys ≠ ∅)
    {vMasterKeyIn : CKeyingMaterial} (hopens : s.opens vMasterKeyIn = some true) : vMasterKeyIn ≠ [] := by
  obtain ⟨first, entry, hfirst, hentry⟩ := exists_first hne
  rintro rfl
  unfold CCryptoKeyStore.opens at hopens
  simp only [hfirst, hentry] at hopens
  cases hopens

/-- **What `ChangeWalletPassphrase` does**, for each way its loop can stop. -/
theorem changeFrom_eq (hcrypted : w.keystore.isCrypted = true) (fWasLocked : Bool) (timings : Timings)
    (strOldWalletPassphrase strNewWalletPassphrase : Valtype) :
    (w.changeFrom fWasLocked timings strOldWalletPassphrase strNewWalletPassphrase =
        some (false, ⟨{ w.keystore with vMasterKey := [] }, w.mapMasterKeys⟩) ∧
      (w.firstStop strOldWalletPassphrase = none ∨
        ∃ masterKey, w.firstStop strOldWalletPassphrase = some masterKey ∧
          masterKey.answer w.keystore strOldWalletPassphrase = .fails)) ∨
    (w.changeFrom fWasLocked timings strOldWalletPassphrase strNewWalletPassphrase = none ∧
      ∃ masterKey, w.firstStop strOldWalletPassphrase = some masterKey ∧
        masterKey.answer w.keystore strOldWalletPassphrase = .asserts) ∨
    ∃ pre p post vMasterKey, w.mapMasterKeys = pre ++ p :: post ∧
      w.firstStop strOldWalletPassphrase = some p.2 ∧
      p.2.answer w.keystore strOldWalletPassphrase = .opens vMasterKey ∧
      w.changeFrom fWasLocked timings strOldWalletPassphrase strNewWalletPassphrase =
        some ((p.2.rewrap env timings strNewWalletPassphrase vMasterKey).1,
          ⟨{ w.keystore with vMasterKey :=
              if (p.2.rewrap env timings strNewWalletPassphrase vMasterKey).1 && fWasLocked then []
              else vMasterKey },
            pre ++ (p.1, (p.2.rewrap env timings strNewWalletPassphrase vMasterKey).2) :: post⟩) := by
  have hlock := lock_of_isCrypted hcrypted
  unfold CWallet.changeFrom
  rw [hlock]
  dsimp only
  have hcrypted' : ({ w.keystore with vMasterKey := [] } : CCryptoKeyStore env.toCryptoEnv).isCrypted =
      true := hcrypted
  rcases stop_cases w strOldWalletPassphrase with ⟨hnone, hall⟩ |
    ⟨pre, p, post, hsplit, hsome, hpre, hstop⟩
  · have hloop := changeLoop_append hcrypted' timings fWasLocked strNewWalletPassphrase [] hall
    rw [List.append_nil] at hloop
    rw [hloop]
    refine .inl ⟨?_, .inl hnone⟩
    simp only [CWallet.changeLoop, Option.map_some, List.append_nil]
  · rw [hsplit, changeLoop_append hcrypted' _ _ _ _ hpre, hsome, CWallet.changeLoop]
    cases hanswer : p.2.answer w.keystore strOldWalletPassphrase with
    | refused => exact absurd hanswer hstop
    | fails =>
      refine .inl ⟨?_, .inr ⟨p.2, rfl, hanswer⟩⟩
      unfold CMasterKey.answer at hanswer
      cases hdecrypt : p.2.decrypt env strOldWalletPassphrase with
      | none => rfl
      | some vMasterKey =>
        rw [hdecrypt] at hanswer
        dsimp only at hanswer
        split at hanswer <;> cases hanswer
    | asserts =>
      refine .inr (.inl ⟨?_, p.2, rfl, hanswer⟩)
      unfold CMasterKey.answer at hanswer
      cases hdecrypt : p.2.decrypt env strOldWalletPassphrase with
      | none =>
        rw [hdecrypt] at hanswer
        cases hanswer
      | some vMasterKey =>
        rw [hdecrypt] at hanswer
        dsimp only at hanswer
        split at hanswer
        · next hopens =>
          have hopens' : ({ w.keystore with vMasterKey := [] } :
              CCryptoKeyStore env.toCryptoEnv).opens vMasterKey = none := hopens
          have hunlock : ({ w.keystore with vMasterKey := [] } :
              CCryptoKeyStore env.toCryptoEnv).unlock vMasterKey = none := by
            rw [unlock_of_isCrypted hcrypted', hopens']
          simp only [hunlock, Option.map_none]
        · cases hanswer
        · cases hanswer
    | opens vMasterKey =>
      obtain ⟨hdecrypt, hopens⟩ := answer_eq_opens_iff.mp hanswer
      have hunlock : ({ w.keystore with vMasterKey := [] } :
          CCryptoKeyStore env.toCryptoEnv).unlock vMasterKey =
            some (true, { w.keystore with vMasterKey }) := by
        have hopens' : ({ w.keystore with vMasterKey := [] } :
            CCryptoKeyStore env.toCryptoEnv).opens vMasterKey = some true := hopens
        rw [unlock_of_isCrypted hcrypted', hopens']
      simp only [hdecrypt, hunlock]
      refine .inr (.inr ⟨pre, p, post, vMasterKey, rfl, rfl, hanswer, ?_⟩)
      have hlock' : ({ w.keystore with vMasterKey } : CCryptoKeyStore env.toCryptoEnv).lock =
          (true, { w.keystore with vMasterKey := [] }) := lock_of_isCrypted hcrypted
      rw [hlock', Option.map_some]
      cases (p.2.rewrap env timings strNewWalletPassphrase vMasterKey).1 && fWasLocked with
      | true => rfl
      | false => rfl

theorem isLocked_set (hcrypted : w.keystore.isCrypted = true) (vMasterKey : CKeyingMaterial)
    (records : List (Nat × CMasterKey)) :
    (⟨{ w.keystore with vMasterKey }, records⟩ : CWallet env).isLocked = vMasterKey.isEmpty := by
  have hflag : w.keystore.fUseCrypto = true := hcrypted
  simp only [CWallet.isLocked, CCryptoKeyStore.isLocked, CCryptoKeyStore.isCrypted, hflag, Bool.true_and]

theorem accepts_congr (hcrypted : w.keystore.isCrypted = true) (vMasterKey : CKeyingMaterial)
    (strWalletPassphrase : Valtype) :
    (⟨{ w.keystore with vMasterKey }, w.mapMasterKeys⟩ : CWallet env).Accepts strWalletPassphrase ↔
      w.Accepts strWalletPassphrase := by
  have hcrypted' : ({ w.keystore with vMasterKey } : CCryptoKeyStore env.toCryptoEnv).isCrypted = true :=
    hcrypted
  unfold CWallet.Accepts
  rw [lock_of_isCrypted hcrypted, lock_of_isCrypted hcrypted']

/-- **A change is atomic** if and only if it loses nothing where it fails. -/
theorem changeAtomic_iff (hcrypted : w.keystore.isCrypted = true) (hne : w.keystore.mapCryptedKeys ≠ ∅) :
    w.ChangeAtomic timings strOldWalletPassphrase strNewWalletPassphrase ↔
      w.LosesNothing timings strOldWalletPassphrase strNewWalletPassphrase := by
  have hfailed : (w.changeWalletPassphrase timings strOldWalletPassphrase strNewWalletPassphrase =
        some (false, ⟨{ w.keystore with vMasterKey := [] }, w.mapMasterKeys⟩)) →
      (w.ChangeAtomic timings strOldWalletPassphrase strNewWalletPassphrase ↔ w.isLocked = true) := by
    intro hchange
    have hlocked := isLocked_set hcrypted [] w.mapMasterKeys
    constructor
    · intro hatomic
      exact (hatomic _ hchange).2.2.symm.trans hlocked
    · intro hwas w' hchange'
      obtain rfl := (Prod.mk.inj (Option.some.inj (hchange.symm.trans hchange'))).2
      exact ⟨rfl, accepts_congr hcrypted [], hlocked.trans hwas.symm⟩
  have hcases := changeFrom_eq hcrypted w.isLocked timings strOldWalletPassphrase strNewWalletPassphrase
  rw [← CWallet.changeWalletPassphrase] at hcases
  rcases hcases with
    ⟨hchange, hnone | ⟨masterKey, hsome, hanswer⟩⟩ | ⟨hchange, masterKey, hsome, hanswer⟩ |
    ⟨pre, p, post, vMasterKey, hsplit, hsome, hanswer, hchange⟩
  · simp only [hfailed hchange, CWallet.LosesNothing, hnone]
  · simp only [hfailed hchange, CWallet.LosesNothing, hsome, hanswer]
  · simp only [CWallet.LosesNothing, hsome, hanswer, iff_true]
    intro w' hchange'
    rw [hchange] at hchange'
    cases hchange'
  · simp only [CWallet.LosesNothing, hsome, hanswer]
    cases hdone : (p.2.rewrap env timings strNewWalletPassphrase vMasterKey).1 with
    | true =>
      refine iff_of_true (fun w' hchange' => ?_) (.inl rfl)
      rw [hchange, hdone] at hchange'
      cases hchange'
    | false =>
      rw [hdone, Bool.false_and, if_neg Bool.false_ne_true] at hchange
      have hopened : vMasterKey.isEmpty = false := by
        have hnil := ne_nil_of_opens hne (answer_eq_opens_iff.mp hanswer).2
        rwa [List.isEmpty_eq_false_iff]
      constructor
      · intro hatomic
        obtain ⟨hrecords, -, hlock⟩ := hatomic _ hchange
        rw [isLocked_set hcrypted, hopened] at hlock
        rw [hsplit, List.append_cancel_left_eq, List.cons.injEq] at hrecords
        exact .inr ⟨hlock.symm, congrArg Prod.snd hrecords.1⟩
      · rintro (hfalse | ⟨hlock, hsame⟩) w' hchange'
        · cases hfalse
        · obtain rfl := (Prod.mk.inj (Option.some.inj (hchange.symm.trans hchange'))).2
          rw [hsame, ← hsplit]
          refine ⟨rfl, accepts_congr hcrypted vMasterKey, ?_⟩
          rw [isLocked_set hcrypted, hopened, hlock]

end Change

/-- **The passphrase operations keep their promises** exactly under these conditions. -/
theorem passphrase_iff (w : CWallet env) (hcrypted : w.keystore.isCrypted = true)
    (hne : w.keystore.mapCryptedKeys ≠ ∅) (timings : Timings)
    (strWalletPassphrase strOldWalletPassphrase strNewWalletPassphrase : Valtype) :
    ((w.isLocked = true → w.UnlockExact strWalletPassphrase) ↔
      (w.isLocked = true → w.FindsRecord strWalletPassphrase)) ∧
    (w.ChangeAtomic timings strOldWalletPassphrase strNewWalletPassphrase ↔
      w.LosesNothing timings strOldWalletPassphrase strNewWalletPassphrase) :=
  ⟨forall_congr' fun hlocked => unlockExact_iff hlocked, changeAtomic_iff hcrypted hne⟩

namespace Sample

/-- A passphrase is its own key. -/
def passphrases : PassphraseEnv where
  toCryptoEnv := crypto
  evpBytesToKey strKeyData chSalt _ := some (pad 32 strKeyData, pad 32 chSalt)
  evpLeftover _ _ _ := []

def record (strWalletPassphrase : Valtype) : CMasterKey :=
  ⟨pad 32 strWalletPassphrase ++ mk, List.replicate 8 1, 0, 25000⟩

def wallet (mapMasterKeys : List (Nat × CMasterKey)) : CWallet passphrases := ⟨store, mapMasterKeys⟩

/-- The first record holds a master key of another store. -/
def twoRecords : CWallet passphrases :=
  wallet [(1, { record [1] with vchCryptedKey := pad 32 [1] ++ List.replicate 32 6 }), (2, record [1])]

def timings : Timings := ⟨id, id⟩

theorem isCrypted_store : store.isCrypted = true := by decide +kernel

theorem store_ne_empty : store.mapCryptedKeys ≠ ∅ := by decide +kernel

end Sample

open Sample in
/-- The passphrase decrypts both records, and the second one opens the store and is changed. -/
theorem passphrase_iff_sample : twoRecords.UnlockExact [1] ∧ twoRecords.ChangeAtomic timings [1] [3] := by
  have hiff := passphrase_iff twoRecords isCrypted_store store_ne_empty timings [1] [1] [3]
  have hfirst : twoRecords.firstStop [1] = some (record [1]) := by decide +kernel
  have hanswer : (record [1]).answer twoRecords.keystore [1] = .opens mk := by decide +kernel
  refine ⟨hiff.1.mpr (fun _ masterKey hstop hnot => ?_) (by decide +kernel), hiff.2.mpr ?_⟩
  · obtain rfl : record [1] = masterKey := Option.some.inj (hfirst.symm.trans hstop)
    exact absurd hanswer (hnot mk)
  · unfold CWallet.LosesNothing
    rw [hfirst]
    dsimp only
    rw [hanswer]
    exact .inl (by decide +kernel)

open Sample in
/-- **The second record is not found**: the first one does not decrypt with its passphrase. -/
theorem not_forall_passphrase :
    ¬ ∀ (env : PassphraseEnv) (w : CWallet env), w.keystore.isCrypted = true →
      w.keystore.mapCryptedKeys ≠ ∅ → ∀ (timings : Timings)
        (strWalletPassphrase strOldWalletPassphrase strNewWalletPassphrase : Valtype),
        (w.isLocked = true → w.UnlockExact strWalletPassphrase) ∧
          w.ChangeAtomic timings strOldWalletPassphrase strNewWalletPassphrase := by
  intro hall
  have hexact := (hall passphrases (wallet [(1, record [2]), (2, record [1])]) isCrypted_store
    store_ne_empty timings [1] [1] [1]).1 (by decide +kernel)
  obtain ⟨w', hw'⟩ := hexact.mpr ⟨(2, record [1]), by decide, mk, by decide,
    by decide +kernel⟩
  have hfails : ((wallet [(1, record [2]), (2, record [1])]).unlock [1]).map Prod.fst = some false := by
    decide +kernel
  rw [hw'] at hfails
  cases hfails

end Crypto

end Manna
