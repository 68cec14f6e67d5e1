import Mathlib.Data.Finmap
import Mathlib.Data.Finset.Sort
import Manna.Lib.Codec
import Manna.SignatureCache

/-!
The key store whose keys are encrypted (`crypter.cpp`, `keystore.h`, `keystore.cpp`).

AES, the curve and the hash functions are parameters. Keys, like everything in C++ that is checked
when it is set, carry the proof that they are valid. Scripts and notifications are left out.

* `CCryptoKeyStore.Kept`: what holds of the store after every operation;
* `keyStore_of_run`: the store never loses a key, and opens for one master key.
-/

namespace Manna

open Codec

namespace Crypto

def WALLET_CRYPTO_KEY_SIZE : Nat := 32

/-- `CKeyID`. -/
abbrev CKeyID := Nat

/-- `CKeyingMaterial`. -/
abbrev CKeyingMaterial := List UInt8

/-- What is taken from outside. -/
structure CryptoEnv where
  /-- `Hash`. -/
  hash : Valtype → Uint256
  /-- `Hash160`. -/
  hash160 : Valtype → CKeyID
  /-- `CKey::Check`. -/
  check : Valtype → Bool
  /-- The public key that belongs to secret bytes, compressed or not. -/
  pubKeyOf : Valtype → Bool → CPubKey
  /-- AES-256-CBC with a key and an initialisation vector. -/
  evpEncrypt : Valtype → Valtype → CKeyingMaterial → Option Valtype
  evpDecrypt : Valtype → Valtype → Valtype → Option CKeyingMaterial

/-- A valid `CKey`. -/
structure CKey (env : CryptoEnv) where
  vch : CKeyingMaterial
  fCompressed : Bool
  size : vch.length = 32
  valid : env.check vch = true
deriving DecidableEq

variable {env : CryptoEnv}

namespace CKey

/-- `CKey::Set`; `none` where the key is not valid. -/
def set (vch : CKeyingMaterial) (fCompressed : Bool) : Option (CKey env) :=
  if h : vch.length = 32 ∧ env.check vch = true then some ⟨vch, fCompressed, h.1, h.2⟩ else none

def getPubKey (key : CKey env) : CPubKey := env.pubKeyOf key.vch key.fCompressed

theorem set_vch (key : CKey env) : set key.vch key.fCompressed = some key :=
  dif_pos ⟨key.size, key.valid⟩

end CKey

def getID (env : CryptoEnv) (pubkey : CPubKey) : CKeyID := env.hash160 pubkey.vch

def isCompressed (pubkey : CPubKey) : Bool := pubkey.vch.length == 33

/-- The initialisation vector of a key: the bytes of `GetHash`. -/
def chIV (env : CryptoEnv) (pubkey : CPubKey) : Valtype := littleEndian 32 (env.hash pubkey.vch)

def encryptSecret (env : CryptoEnv) (vMasterKey vchPlaintext : CKeyingMaterial) (pubkey : CPubKey) :
    Option Valtype :=
  if vMasterKey.length ≠ WALLET_CRYPTO_KEY_SIZE then none
  else env.evpEncrypt vMasterKey (chIV env pubkey) vchPlaintext

def decryptSecret (env : CryptoEnv) (vMasterKey : CKeyingMaterial) (vchCiphertext : Valtype)
    (pubkey : CPubKey) : Option CKeyingMaterial :=
  if vMasterKey.length ≠ WALLET_CRYPTO_KEY_SIZE then none
  else env.evpDecrypt vMasterKey (chIV env pubkey) vchCiphertext

/-! ### The store -/

/-- `CCryptoKeyStore`. -/
structure CCryptoKeyStore (env : CryptoEnv) where
  mapKeys : Finmap fun _ : CKeyID => CKey env
  mapCryptedKeys : Finmap fun _ : CKeyID => CPubKey × Valtype
  vMasterKey : CKeyingMaterial
  fUseCrypto : Bool

namespace CCryptoKeyStore

def empty (env : CryptoEnv) : CCryptoKeyStore env := ⟨∅, ∅, [], false⟩

def isCrypted (s : CCryptoKeyStore env) : Bool := s.fUseCrypto

def isLocked (s : CCryptoKeyStore env) : Bool := s.isCrypted && s.vMasterKey.isEmpty

/-- `SetCrypted`. -/
def setCrypted (s : CCryptoKeyStore env) : Bool × CCryptoKeyStore env :=
  if s.fUseCrypto then (true, s)
  else if s.mapKeys ≠ ∅ then (false, s)
  else (true, { s with fUseCrypto := true })

def lock (s : CCryptoKeyStore env) : Bool × CCryptoKeyStore env :=
  match s.setCrypted with
  | (false, s) => (false, s)
  | (true, s) => (true, { s with vMasterKey := [] })

/-- What `Unlock` finds out about the first entry: `none` where `GetPubKey` meets an invalid key,
which is a failed assertion. -/
def opens (vMasterKeyIn : CKeyingMaterial) (s : CCryptoKeyStore env) : Option Bool :=
  match s.mapCryptedKeys.keys.sort.head? with
  | none => some true
  | some first =>
    match s.mapCryptedKeys.lookup first with
    | none => some true
    | some (vchPubKey, vchCryptedSecret) =>
      match decryptSecret env vMasterKeyIn vchCryptedSecret vchPubKey with
      | none => some false
      | some vchSecret =>
        if vchSecret.length ≠ 32 then some false
        else
          match (CKey.set vchSecret (isCompressed vchPubKey) : Option (CKey env)) with
          | none => none
          | some key => some (decide (key.getPubKey = vchPubKey))

/-- `Unlock`; `none` where an assertion fails. -/
def unlock (vMasterKeyIn : CKeyingMaterial) (s : CCryptoKeyStore env) :
    Option (Bool × CCryptoKeyStore env) :=
  match s.setCrypted with
  | (false, s) => some (false, s)
  | (true, s) =>
    match s.opens vMasterKeyIn with
    | none => none
    | some false => some (false, s)
    | some true => some (true, { s with vMasterKey := vMasterKeyIn })

theorem unlock_of_setCrypted {vMasterKeyIn : CKeyingMaterial} {s s' : CCryptoKeyStore env}
    (hset : s.setCrypted = (true, s')) :
    s.unlock vMasterKeyIn =
      match s'.opens vMasterKeyIn with
      | none => none
      | some false => some (false, s')
      | some true => some (true, { s' with vMasterKey := vMasterKeyIn }) := by
  unfold unlock
  rw [hset]

def addCryptedKey (vchPubKey : CPubKey) (vchCryptedSecret : Valtype) (s : CCryptoKeyStore env) :
    Bool × CCryptoKeyStore env :=
  match s.setCrypted with
  | (false, s) => (false, s)
  | (true, s) =>
    (true, { s with
      mapCryptedKeys := s.mapCryptedKeys.insert (getID env vchPubKey) (vchPubKey, vchCryptedSecret) })

def addKeyPubKey (key : CKey env) (pubkey : CPubKey) (s : CCryptoKeyStore env) :
    Bool × CCryptoKeyStore env :=
  if !s.isCrypted then (true, { s with mapKeys := s.mapKeys.insert (getID env pubkey) key })
  else if s.isLocked then (false, s)
  else
    match encryptSecret env s.vMasterKey key.vch pubkey with
    | none => (false, s)
    | some vchCryptedSecret => s.addCryptedKey pubkey vchCryptedSecret

def addKey (key : CKey env) (s : CCryptoKeyStore env) : Bool × CCryptoKeyStore env :=
  s.addKeyPubKey key key.getPubKey

def haveKey (address : CKeyID) (s : CCryptoKeyStore env) : Bool :=
  if !s.isCrypted then decide (address ∈ s.mapKeys) else decide (address ∈ s.mapCryptedKeys)

/-- `GetKey`: what it returns and, where that is true, the key, which may be an invalid one. -/
def getKey (address : CKeyID) (s : CCryptoKeyStore env) : Option (Option (CKey env)) :=
  if !s.isCrypted then (s.mapKeys.lookup address).map some
  else
    match s.mapCryptedKeys.lookup address with
    | none => none
    | some (vchPubKey, vchCryptedSecret) =>
      match decryptSecret env s.vMasterKey vchCryptedSecret vchPubKey with
      | none => none
      | some vchSecret =>
        if vchSecret.length ≠ 32 then none
        else some (CKey.set vchSecret (isCompressed vchPubKey))

def getPubKey (address : CKeyID) (s : CCryptoKeyStore env) : Option CPubKey :=
  if !s.isCrypted then (s.mapKeys.lookup address).map CKey.getPubKey
  else (s.mapCryptedKeys.lookup address).map Prod.fst

def encryptLoop (vMasterKeyIn : CKeyingMaterial) :
    List (CKey env) → CCryptoKeyStore env → Bool × CCryptoKeyStore env
  | [], s => (true, s)
  | key :: keys, s =>
    match encryptSecret env vMasterKeyIn key.vch key.getPubKey with
    | none => (false, s)
    | some vchCryptedSecret =>
      match s.addCryptedKey key.getPubKey vchCryptedSecret with
      | (false, s) => (false, s)
      | (true, s) => encryptLoop vMasterKeyIn keys s

/-- The keys of `mapKeys`, in the order of the map. -/
def keys (s : CCryptoKeyStore env) : List (CKey env) := s.mapKeys.keys.sort.filterMap s.mapKeys.lookup

def encryptKeys (vMasterKeyIn : CKeyingMaterial) (s : CCryptoKeyStore env) :
    Bool × CCryptoKeyStore env :=
  if s.mapCryptedKeys ≠ ∅ || s.isCrypted then (false, s)
  else
    match encryptLoop vMasterKeyIn s.keys { s with fUseCrypto := true } with
    | (false, s) => (false, s)
    | (true, s) => (true, { s with mapKeys := ∅ })

end CCryptoKeyStore

/-- The operations. -/
inductive Op (env : CryptoEnv) where
  | addKey (key : CKey env)
  | encryptKeys (vMasterKeyIn : CKeyingMaterial)
  | lock
  | unlock (vMasterKeyIn : CKeyingMaterial)

namespace Op

/-- What an operation returns, and the store it leaves; `none` where an assertion fails. -/
def apply (s : CCryptoKeyStore env) : Op env → Option (Bool × CCryptoKeyStore env)
  | addKey key => some (s.addKey key)
  | encryptKeys vMasterKeyIn => some (s.encryptKeys vMasterKeyIn)
  | lock => some s.lock
  | unlock vMasterKeyIn => s.unlock vMasterKeyIn

def Encrypts (s : CCryptoKeyStore env) : Op env → Prop
  | encryptKeys vMasterKeyIn => s.isCrypted = false →
      ∀ key ∈ s.keys, (encryptSecret env vMasterKeyIn key.vch key.getPubKey).isSome
  | _ => True

def added (r : Bool) (keys : CKeyID → Option (CKey env)) : Op env → CKeyID → Option (CKey env)
  | addKey key => if r then Function.update keys (getID env key.getPubKey) (some key) else keys
  | _ => keys

end Op

/-- **Runs**: the store, and the last key that was added under each identifier. -/
inductive Run (env : CryptoEnv) : CCryptoKeyStore env → (CKeyID → Option (CKey env)) → Prop where
  | start : Run env (.empty env) fun _ => none
  | step {s s' : CCryptoKeyStore env} {keys : CKeyID → Option (CKey env)} {r : Bool} (op : Op env)
      (run : Run env s keys) (encrypts : op.Encrypts s) (apply : op.apply s = some (r, s')) :
      Run env s' (op.added r keys)

/-- What the cipher and the curve are trusted with. -/
structure CryptoEnv.Laws (env : CryptoEnv) : Prop where
  /-- Decryption with the same key and the same vector gives back what was encrypted. -/
  decrypts : ∀ key iv plain cipher, env.evpEncrypt key iv plain = some cipher →
    env.evpDecrypt key iv cipher = some plain
  /-- A wrong key never yields the right public key. -/
  wrongKey : ∀ (mk mk' : CKeyingMaterial) (key key' : CKey env) (cipher : Valtype), mk ≠ mk' →
    encryptSecret env mk key.vch key.getPubKey = some cipher →
      decryptSecret env mk' cipher key.getPubKey = some key'.vch →
        key'.fCompressed = key.fCompressed → key'.getPubKey ≠ key.getPubKey
  /-- A public key is compressed when it is asked for so. -/
  compressed : ∀ vch fCompressed, isCompressed (env.pubKeyOf vch fCompressed) = fCompressed

/-! ### What is kept -/

/-- An entry holds a key, encrypted with this master key. -/
def Sealed (mk : CKeyingMaterial) : Option (CKey env) → Option (CPubKey × Valtype) → Prop
  | none, none => True
  | some key, some (vchPubKey, vchCryptedSecret) => vchPubKey = key.getPubKey ∧
      encryptSecret env mk key.vch key.getPubKey = some vchCryptedSecret
  | _, _ => False

/-- **What holds after every operation** of the store and the keys that were added. -/
structure CCryptoKeyStore.Kept (s : CCryptoKeyStore env) (keys : CKeyID → Option (CKey env)) :
    Prop where
  ids : ∀ id key, keys id = some key → getID env key.getPubKey = id
  plain : s.isCrypted = false → s.mapCryptedKeys = ∅ ∧ s.vMasterKey = [] ∧
    ∀ id, s.mapKeys.lookup id = keys id
  crypted : s.isCrypted = true → s.mapKeys = ∅ ∧
    ∃ mk, (∀ id, Sealed mk (keys id) (s.mapCryptedKeys.lookup id)) ∧
      (s.vMasterKey ≠ [] → s.mapCryptedKeys ≠ ∅ → s.vMasterKey = mk)

section Kept

variable {s s' : CCryptoKeyStore env} {keys : CKeyID → Option (CKey env)} {mk : CKeyingMaterial}
  {key : CKey env}

theorem length_of_encryptSecret {plain : CKeyingMaterial} {pubkey : CPubKey} {cipher : Valtype}
    (h : encryptSecret env mk plain pubkey = some cipher) : mk.length = WALLET_CRYPTO_KEY_SIZE := by
  unfold encryptSecret at h
  split at h
  · cases h
  · next hlen => exact not_not.mp hlen

/-- **The right key decrypts.** -/
theorem decryptSecret_encryptSecret (laws : env.Laws) {plain : CKeyingMaterial} {pubkey : CPubKey}
    {cipher : Valtype} (h : encryptSecret env mk plain pubkey = some cipher) :
    decryptSecret env mk cipher pubkey = some plain := by
  have hlen := length_of_encryptSecret h
  unfold encryptSecret at h
  unfold decryptSecret
  rw [if_neg (not_not.mpr hlen)] at h ⊢
  exact laws.decrypts _ _ _ _ h

theorem isCompressed_getPubKey (laws : env.Laws) (key : CKey env) :
    isCompressed key.getPubKey = key.fCompressed := laws.compressed ..

theorem Sealed.of_none {entry : Option (CPubKey × Valtype)} (h : Sealed mk (none : Option (CKey env)) entry) :
    entry = none := by
  cases entry with
  | none => rfl
  | some entry => exact h.elim

theorem Sealed.of_some {entry : Option (CPubKey × Valtype)} (h : Sealed mk (some key) entry) :
    ∃ cipher, entry = some (key.getPubKey, cipher) ∧
      encryptSecret env mk key.vch key.getPubKey = some cipher := by
  cases entry with
  | none => exact h.elim
  | some entry => exact ⟨entry.2, congrArg some (Prod.ext h.1 rfl), h.2⟩

theorem Sealed.exists_key {key? : Option (CKey env)} {entry : CPubKey × Valtype}
    (h : Sealed mk key? (some entry)) : ∃ key, key? = some key ∧ entry.1 = key.getPubKey ∧
      encryptSecret env mk key.vch key.getPubKey = some entry.2 := by
  cases key? with
  | none => exact h.elim
  | some key => exact ⟨key, rfl, h⟩

theorem exists_first {β : Type} {m : Finmap fun _ : CKeyID => β} (h : m ≠ ∅) :
    ∃ first entry, m.keys.sort.head? = some first ∧ m.lookup first = some entry := by
  cases hsort : m.keys.sort with
  | nil =>
    have hkeys : m.keys = ∅ := by
      have hset : m.keys.sort.toFinset = m.keys := Finset.sort_toFinset ..
      rw [← hset, hsort, List.toFinset_nil]
    refine absurd (Finmap.ext_lookup fun id => ?_) h
    rw [Finmap.lookup_empty, Finmap.lookup_eq_none, ← Finmap.mem_keys, hkeys]
    exact Finset.notMem_empty id
  | cons first rest =>
    have hhead : first ∈ m.keys.sort := hsort ▸ List.mem_cons_self
    have hmem : first ∈ m.keys := (Finset.mem_sort _).mp hhead
    obtain ⟨entry, hentry⟩ := Option.isSome_iff_exists.mp
      (Finmap.lookup_isSome.mpr (Finmap.mem_keys.mp hmem))
    exact ⟨first, entry, rfl, hentry⟩

/-- **The first entry speaks for all**: it opens with the one master key and no other. -/
theorem opens_iff (laws : env.Laws) (hsealed : ∀ id, Sealed mk (keys id) (s.mapCryptedKeys.lookup id))
    (hne : s.mapCryptedKeys ≠ ∅) (vMasterKeyIn : CKeyingMaterial) :
    s.opens vMasterKeyIn = some true ↔ vMasterKeyIn = mk := by
  obtain ⟨first, ⟨vchPubKey, vchCryptedSecret⟩, hfirst, hentry⟩ := exists_first hne
  have hseal := hsealed first
  rw [hentry] at hseal
  obtain ⟨key, -, hpub, hcipher⟩ := hseal.exists_key
  dsimp only at hpub hcipher
  subst hpub
  unfold CCryptoKeyStore.opens
  simp only [hfirst, hentry]
  constructor
  · intro hopens
    by_contra hwrong
    cases hdecrypt : decryptSecret env vMasterKeyIn vchCryptedSecret key.getPubKey with
    | none => simp only [hdecrypt, Option.some.injEq, Bool.false_eq_true] at hopens
    | some vchSecret =>
      simp only [hdecrypt] at hopens
      split at hopens
      · cases hopens
      · cases hset : (CKey.set vchSecret (isCompressed key.getPubKey) : Option (CKey env)) with
        | none => simp only [hset, reduceCtorEq] at hopens
        | some key' =>
          simp only [hset, Option.some.injEq, decide_eq_true_eq] at hopens
          unfold CKey.set at hset
          split at hset
          · cases hset
            exact laws.wrongKey mk vMasterKeyIn key _ _ (Ne.symm hwrong) hcipher hdecrypt
              (isCompressed_getPubKey laws key) hopens
          · cases hset
  · rintro rfl
    simp only [decryptSecret_encryptSecret laws hcipher, key.size, ne_eq, not_true_eq_false, if_false,
      isCompressed_getPubKey laws key, CKey.set_vch, decide_true]

/-- What `SetCrypted` does: it fails where there are plain keys, and else only sets the flag. -/
theorem setCrypted_cases (h : s.Kept keys) : s.setCrypted = (false, s) ∧ s.isCrypted = false ∨
      ∃ t, s.setCrypted = (true, t) ∧ t.isCrypted = true ∧ t.Kept keys ∧
        t.vMasterKey = s.vMasterKey ∧ t.mapCryptedKeys = s.mapCryptedKeys ∧
        (s.isCrypted = false → ∀ id, keys id = none) := by
  unfold CCryptoKeyStore.setCrypted
  cases hcrypted : s.fUseCrypto with
  | true =>
    refine .inr ⟨s, if_pos rfl, hcrypted, h, rfl, rfl, fun hplain => ?_⟩
    rw [CCryptoKeyStore.isCrypted, hcrypted] at hplain
    cases hplain
  | false =>
    rw [if_neg Bool.false_ne_true]
    obtain ⟨hnone, hmaster, hkeys⟩ := h.plain hcrypted
    by_cases hempty : s.mapKeys = ∅
    · have hall : ∀ id, keys id = none := fun id => by
        rw [← hkeys, hempty, Finmap.lookup_empty]
      refine .inr ⟨{ s with fUseCrypto := true }, if_neg (not_not.mpr hempty), rfl,
        ⟨h.ids, nofun, fun _ => ⟨hempty, [], fun id => ?_, fun hset => absurd hmaster hset⟩⟩,
        rfl, rfl, fun _ => hall⟩
      rw [hall, hnone, Finmap.lookup_empty]
      trivial
    · exact .inl ⟨if_pos hempty, hcrypted⟩

theorem CCryptoKeyStore.Kept.of_crypted (hids : ∀ id key, keys id = some key → getID env key.getPubKey = id)
    (hcrypted : s.isCrypted = true) (hempty : s.mapKeys = ∅)
    (hsealed : ∀ id, Sealed mk (keys id) (s.mapCryptedKeys.lookup id))
    (hmaster : s.vMasterKey ≠ [] → s.mapCryptedKeys ≠ ∅ → s.vMasterKey = mk) : s.Kept keys where
  ids := hids
  plain hplain := by
    rw [hcrypted] at hplain
    cases hplain
  crypted _ := ⟨hempty, mk, hsealed, hmaster⟩

/-- **Lock.** -/
theorem CCryptoKeyStore.Kept.lock (h : s.Kept keys) : s.lock.2.Kept keys := by
  unfold CCryptoKeyStore.lock
  rcases setCrypted_cases h with ⟨hset, -⟩ | ⟨t, hset, hcrypted, hkept, -⟩
  · rw [hset]
    exact h
  · rw [hset]
    obtain ⟨hempty, mk, hsealed, -⟩ := hkept.crypted hcrypted
    exact .of_crypted h.ids hcrypted hempty hsealed fun hne => absurd rfl hne

/-- **Unlock** keeps a master key that opens the first entry, and so all of them. -/
theorem CCryptoKeyStore.Kept.unlock (laws : env.Laws) (h : s.Kept keys) {vMasterKeyIn : CKeyingMaterial}
    {r : Bool} (hunlock : s.unlock vMasterKeyIn = some (r, s')) : s'.Kept keys := by
  unfold CCryptoKeyStore.unlock at hunlock
  rcases setCrypted_cases h with ⟨hset, -⟩ | ⟨t, hset, hcrypted, hkept, -⟩
  · rw [hset] at hunlock
    cases hunlock
    exact h
  · rw [hset] at hunlock
    dsimp only at hunlock
    split at hunlock
    · cases hunlock
    · cases hunlock
      exact hkept
    · next hopens =>
      cases hunlock
      obtain ⟨hempty, mk, hsealed, -⟩ := hkept.crypted hcrypted
      exact .of_crypted h.ids hcrypted hempty hsealed fun _ hne => (opens_iff laws hsealed hne _).mp hopens

theorem eq_none_of_sealed (hsealed : ∀ id, Sealed mk (keys id) (s.mapCryptedKeys.lookup id))
    (hempty : s.mapCryptedKeys = ∅) (id : CKeyID) : keys id = none := by
  have hseal := hsealed id
  rw [hempty, Finmap.lookup_empty] at hseal
  cases hkey : keys id with
  | none => rfl
  | some key =>
    rw [hkey] at hseal
    exact hseal.elim

theorem ids_update (h : ∀ id key, keys id = some key → getID env key.getPubKey = id) (key : CKey env) :
    ∀ id key', Function.update keys (getID env key.getPubKey) (some key) id = some key' →
      getID env key'.getPubKey = id := by
  intro id key' hkey'
  rw [Function.update_apply] at hkey'
  split at hkey'
  · next heq =>
    cases hkey'
    exact heq.symm
  · exact h id key' hkey'

/-- What `AddKey` does. -/
theorem addKey_cases (s : CCryptoKeyStore env) (key : CKey env) :
    s.addKey key = (false, s) ∨
    s.isCrypted = false ∧
      s.addKey key = (true, { s with mapKeys := s.mapKeys.insert (getID env key.getPubKey) key }) ∨
    s.isCrypted = true ∧ ∃ vchCryptedSecret,
      encryptSecret env s.vMasterKey key.vch key.getPubKey = some vchCryptedSecret ∧
      s.addKey key = (true, { s with
        mapCryptedKeys := s.mapCryptedKeys.insert (getID env key.getPubKey)
          (key.getPubKey, vchCryptedSecret) }) := by
  unfold CCryptoKeyStore.addKey CCryptoKeyStore.addKeyPubKey
  cases hcrypted : s.isCrypted with
  | false => exact .inr (.inl ⟨rfl, rfl⟩)
  | true =>
    cases hlocked : s.isLocked with
    | true => exact .inl rfl
    | false =>
      cases hcipher : encryptSecret env s.vMasterKey key.vch key.getPubKey with
      | none => exact .inl rfl
      | some vchCryptedSecret =>
        have hset : s.setCrypted = (true, s) := if_pos hcrypted
        refine .inr (.inr ⟨rfl, vchCryptedSecret, rfl, ?_⟩)
        simp only [Bool.not_true, Bool.false_eq_true, if_false, CCryptoKeyStore.addCryptedKey, hset]

/-- **AddKey** stores the key under its identifier, plain or encrypted with the master key. -/
theorem CCryptoKeyStore.Kept.addKey (h : s.Kept keys) (key : CKey env) :
    (s.addKey key).2.Kept ((Op.addKey key).added (s.addKey key).1 keys) := by
  rcases addKey_cases s key with hadd | ⟨hcrypted, hadd⟩ | ⟨hcrypted, vchCryptedSecret, hcipher, hadd⟩
  · rw [hadd]
    exact h
  · rw [hadd]
    obtain ⟨hnone, hmaster, hkeys⟩ := h.plain hcrypted
    refine ⟨ids_update h.ids key, fun _ => ⟨hnone, hmaster, fun id => ?_⟩, fun hcrypted' => ?_⟩
    · show (s.mapKeys.insert (getID env key.getPubKey) key).lookup id =
        Function.update keys (getID env key.getPubKey) (some key) id
      rw [Function.update_apply]
      split
      · next heq => rw [heq, Finmap.lookup_insert]
      · next hne => rw [Finmap.lookup_insert_of_ne _ hne, hkeys]
    · exact absurd (hcrypted.symm.trans hcrypted') Bool.false_ne_true
  · rw [hadd]
    obtain ⟨hempty, mk, hsealed, hmaster⟩ := h.crypted hcrypted
    have hne : s.vMasterKey ≠ [] := by
      intro hnil
      have hlen := length_of_encryptSecret hcipher
      rw [hnil] at hlen
      cases hlen
    -- the master key is the one of the entries, if there are any
    have hsealed' : ∀ id, Sealed s.vMasterKey (keys id) (s.mapCryptedKeys.lookup id) := by
      intro id
      by_cases hnone : s.mapCryptedKeys = ∅
      · rw [eq_none_of_sealed hsealed hnone, hnone, Finmap.lookup_empty]
        trivial
      · rw [hmaster hne hnone]
        exact hsealed id
    refine .of_crypted (ids_update h.ids key) hcrypted hempty (fun id => (?_ : Sealed s.vMasterKey _ _))
      fun _ _ => rfl
    show Sealed s.vMasterKey (Function.update keys (getID env key.getPubKey) (some key) id)
      ((s.mapCryptedKeys.insert (getID env key.getPubKey) (key.getPubKey, vchCryptedSecret)).lookup id)
    rw [Function.update_apply]
    split
    · next heq =>
      rw [heq, Finmap.lookup_insert]
      exact ⟨rfl, hcipher⟩
    · next hne' =>
      rw [Finmap.lookup_insert_of_ne _ hne']
      exact hsealed' id

theorem mem_keys {key : CKey env} : key ∈ s.keys ↔ ∃ id, s.mapKeys.lookup id = some key := by
  unfold CCryptoKeyStore.keys
  rw [List.mem_filterMap]
  constructor
  · rintro ⟨id, -, hid⟩
    exact ⟨id, hid⟩
  · rintro ⟨id, hid⟩
    exact ⟨id, (Finset.mem_sort _).mpr (Finmap.mem_keys.mpr (Finmap.mem_of_lookup_eq_some hid)), hid⟩

/-- **The loop of EncryptKeys**: each key gets an entry under its identifier. -/
theorem encryptLoop_spec {l : List (CKey env)} (hcrypted : s.isCrypted = true)
    (hids : ∀ key ∈ l, ∀ key' ∈ l, getID env key.getPubKey = getID env key'.getPubKey → key = key')
    (hencrypts : ∀ key ∈ l, (encryptSecret env mk key.vch key.getPubKey).isSome) :
    ∃ t, CCryptoKeyStore.encryptLoop mk l s = (true, t) ∧ t.isCrypted = true ∧ t.vMasterKey = s.vMasterKey ∧
      (∀ key ∈ l, Sealed mk (some key) (t.mapCryptedKeys.lookup (getID env key.getPubKey))) ∧
      ∀ id, (∀ key ∈ l, getID env key.getPubKey ≠ id) →
        t.mapCryptedKeys.lookup id = s.mapCryptedKeys.lookup id := by
  induction l generalizing s with
  | nil => exact ⟨s, rfl, hcrypted, rfl, List.forall_mem_nil _, fun _ _ => rfl⟩
  | cons key l ih =>
    obtain ⟨vchCryptedSecret, hcipher⟩ := Option.isSome_iff_exists.mp (hencrypts key List.mem_cons_self)
    have hset : s.setCrypted = (true, s) := if_pos hcrypted
    let s₁ : CCryptoKeyStore env := { s with
      mapCryptedKeys := s.mapCryptedKeys.insert (getID env key.getPubKey)
        (key.getPubKey, vchCryptedSecret) }
    obtain ⟨t, hloop, hcrypted', hmaster, hentries, hothers⟩ := ih (s := s₁) hcrypted
      (fun k hk k' hk' => hids k (List.mem_cons_of_mem _ hk) k' (List.mem_cons_of_mem _ hk'))
      (fun k hk => hencrypts k (List.mem_cons_of_mem _ hk))
    refine ⟨t, ?_, hcrypted', hmaster, fun k hk => ?_, fun id hid => ?_⟩
    · simp only [CCryptoKeyStore.encryptLoop, hcipher, CCryptoKeyStore.addCryptedKey, hset]
      exact hloop
    · by_cases hmem : k ∈ l
      · exact hentries k hmem
      · obtain rfl : k = key := (List.mem_cons.mp hk).resolve_right hmem
        rw [hothers _ fun k' hk' heq => hmem
          (hids k' (List.mem_cons_of_mem _ hk') k List.mem_cons_self heq ▸ hk')]
        rw [show s₁.mapCryptedKeys.lookup (getID env k.getPubKey) = _ from Finmap.lookup_insert _]
        exact ⟨rfl, hcipher⟩
    · rw [hothers id fun k hk => hid k (List.mem_cons_of_mem _ hk)]
      exact Finmap.lookup_insert_of_ne _ (hid key List.mem_cons_self).symm

/-- **EncryptKeys** encrypts every key with the one master key. -/
theorem CCryptoKeyStore.Kept.encryptKeys (h : s.Kept keys)
    (hencrypts : (Op.encryptKeys mk).Encrypts s) : (s.encryptKeys mk).2.Kept keys := by
  unfold CCryptoKeyStore.encryptKeys
  cases hcrypted : s.isCrypted with
  | true =>
    rw [Bool.or_true, if_pos rfl]
    exact h
  | false =>
    obtain ⟨hnone, hmaster, hkeys⟩ := h.plain hcrypted
    have hmem : ∀ key ∈ s.keys, keys (getID env key.getPubKey) = some key := by
      intro key hkey
      obtain ⟨id, hid⟩ := mem_keys.mp hkey
      rw [hkeys] at hid
      rw [h.ids id key hid, hid]
    obtain ⟨t, hloop, hcrypted', hmaster', hentries, hothers⟩ :=
      encryptLoop_spec (s := { s with fUseCrypto := true }) (l := s.keys) rfl
        (fun key hkey key' hkey' heq => Option.some.inj
          ((hmem key hkey).symm.trans (heq ▸ hmem key' hkey')))
        (hencrypts hcrypted)
    rw [if_neg (by simp [hnone]), hloop]
    refine .of_crypted h.ids hcrypted' rfl (fun id => (?_ : Sealed mk _ _))
      fun hset _ => absurd (hmaster'.trans hmaster) hset
    cases hkey : keys id with
    | some key =>
      have hin : key ∈ s.keys := mem_keys.mpr ⟨id, (hkeys id).trans hkey⟩
      rw [← h.ids id key hkey]
      exact hentries key hin
    | none =>
      have hnot : t.mapCryptedKeys.lookup id = s.mapCryptedKeys.lookup id := by
        refine hothers id fun key hin heq => ?_
        have hsome := hmem key hin
        rw [heq, hkey] at hsome
        cases hsome
      dsimp only
      rw [hnot, hnone, Finmap.lookup_empty]
      trivial

/-- **An operation** keeps what holds. -/
theorem CCryptoKeyStore.Kept.apply (laws : env.Laws) (h : s.Kept keys) {op : Op env} {r : Bool}
    (hencrypts : op.Encrypts s) (happly : op.apply s = some (r, s')) : s'.Kept (op.added r keys) := by
  cases op with
  | addKey key =>
    have hkept := h.addKey key
    rw [Option.some.inj happly] at hkept
    exact hkept
  | encryptKeys vMasterKeyIn =>
    have hkept := h.encryptKeys hencrypts
    rw [Option.some.inj happly] at hkept
    exact hkept
  | lock =>
    have hkept := h.lock
    rw [Option.some.inj happly] at hkept
    exact hkept
  | unlock vMasterKeyIn => exact h.unlock laws happly

theorem kept_empty : (CCryptoKeyStore.empty env).Kept fun _ => none where
  ids _ _ hkey := nomatch hkey
  plain _ := ⟨rfl, rfl, fun _ => Finmap.lookup_empty _⟩
  crypted hcrypted := nomatch hcrypted

theorem Run.kept (laws : env.Laws) (run : Run env s keys) : s.Kept keys := by
  induction run with
  | start => exact kept_empty
  | step op _ hencrypts happly ih => exact ih.apply laws hencrypts happly

/-! ### What is answered -/

/-- `HaveKey` and `GetPubKey` answer for the keys that were added, locked or not. -/
theorem CCryptoKeyStore.Kept.answers (h : s.Kept keys) (id : CKeyID) :
    s.haveKey id = (keys id).isSome ∧ s.getPubKey id = (keys id).map CKey.getPubKey := by
  unfold CCryptoKeyStore.haveKey CCryptoKeyStore.getPubKey
  cases hcrypted : s.isCrypted with
  | false =>
    obtain ⟨-, -, hkeys⟩ := h.plain hcrypted
    simp only [Bool.not_false, if_true, ← hkeys, ← Finmap.lookup_isSome, Bool.decide_eq_true, and_self]
  | true =>
    obtain ⟨-, mk, hsealed, -⟩ := h.crypted hcrypted
    have hseal := hsealed id
    simp only [Bool.not_true, Bool.false_eq_true, if_false, ← Finmap.lookup_isSome, Bool.decide_eq_true]
    cases hkey : keys id with
    | none =>
      rw [hkey] at hseal
      rw [hseal.of_none]
      exact ⟨rfl, rfl⟩
    | some key =>
      rw [hkey] at hseal
      obtain ⟨vchCryptedSecret, hentry, -⟩ := hseal.of_some
      rw [hentry]
      exact ⟨rfl, rfl⟩

/-- **Unlocked**, the store returns every key. -/
theorem CCryptoKeyStore.Kept.getKey (laws : env.Laws) (h : s.Kept keys) (hlocked : s.isLocked = false)
    (id : CKeyID) : s.getKey id = (keys id).map some := by
  unfold CCryptoKeyStore.getKey
  cases hcrypted : s.isCrypted with
  | false =>
    obtain ⟨-, -, hkeys⟩ := h.plain hcrypted
    rw [Bool.not_false, if_pos rfl, hkeys]
  | true =>
    obtain ⟨-, mk, hsealed, hmaster⟩ := h.crypted hcrypted
    have hseal := hsealed id
    simp only [Bool.not_true, Bool.false_eq_true, if_false]
    cases hkey : keys id with
    | none =>
      rw [hkey] at hseal
      rw [hseal.of_none]
      rfl
    | some key =>
      rw [hkey] at hseal
      obtain ⟨vchCryptedSecret, hentry, hcipher⟩ := hseal.of_some
      have hne : s.vMasterKey ≠ [] := by
        intro hnil
        rw [isLocked, hcrypted, hnil] at hlocked
        cases hlocked
      have hnonempty : s.mapCryptedKeys ≠ ∅ := by
        intro hempty
        rw [hempty, Finmap.lookup_empty] at hentry
        cases hentry
      simp only [hentry, hmaster hne hnonempty, decryptSecret_encryptSecret laws hcipher, key.size,
        ne_eq, not_true_eq_false, if_false, isCompressed_getPubKey laws key, CKey.set_vch,
        Option.map_some]

/-- **Locked**, it returns none. -/
theorem getKey_of_isLocked (hlocked : s.isLocked = true) (id : CKeyID) : s.getKey id = none := by
  obtain ⟨hcrypted, hempty⟩ := Bool.and_eq_true_iff.mp hlocked
  unfold CCryptoKeyStore.getKey
  rw [hcrypted, Bool.not_true, if_neg Bool.false_ne_true]
  cases s.mapCryptedKeys.lookup id with
  | none => rfl
  | some entry =>
    have hnone : decryptSecret env s.vMasterKey entry.2 entry.1 = none := by
      rw [List.isEmpty_iff.mp hempty]
      rfl
    simp only [hnone]

theorem added_of_ne_addKey {op : Op env} (hop : ∀ key, op ≠ .addKey key) (r : Bool) :
    op.added r keys = keys := by
  cases op with
  | addKey key => exact absurd rfl (hop key)
  | encryptKeys vMasterKeyIn => rfl
  | lock => rfl
  | unlock vMasterKeyIn => rfl

theorem CCryptoKeyStore.Kept.unlock_iff (laws : env.Laws) (h : s.Kept keys) (hcrypted : s.isCrypted = true)
    (hne : s.mapCryptedKeys ≠ ∅) : ∃ mk, (∀ id entry, s.mapCryptedKeys.lookup id = some entry →
        ∃ key, keys id = some key ∧ entry.1 = key.getPubKey ∧
          encryptSecret env mk key.vch key.getPubKey = some entry.2) ∧
      ∀ vMasterKeyIn, (∃ s', s.unlock vMasterKeyIn = some (true, s')) ↔ vMasterKeyIn = mk := by
  obtain ⟨-, mk, hsealed, -⟩ := h.crypted hcrypted
  refine ⟨mk, fun id entry hentry => ?_, fun vMasterKeyIn => ?_⟩
  · have hseal := hsealed id
    rw [hentry] at hseal
    exact hseal.exists_key
  · have hset : s.setCrypted = (true, s) := if_pos hcrypted
    rw [← opens_iff laws hsealed hne]
    unfold CCryptoKeyStore.unlock
    rw [hset]
    dsimp only
    cases s.opens vMasterKeyIn with
    | none => exact iff_of_false nofun nofun
    | some opened =>
      cases opened with
      | false => exact iff_of_false (fun ⟨_, heq⟩ => nomatch heq) nofun
      | true => exact iff_of_true ⟨_, rfl⟩ rfl

end Kept

/-- What a store is trusted with, and the last key that was added under each identifier. -/
structure Trusted (s : CCryptoKeyStore env) (keys : CKeyID → Option (CKey env)) : Prop where
  /-- Once encrypted, there are no plain keys. -/
  sealed : s.isCrypted = true → s.mapKeys = ∅
  /-- All entries are under one master key, which alone opens the store. -/
  oneKey : s.isCrypted = true → s.mapCryptedKeys ≠ ∅ →
    ∃ mk, (∀ id entry, s.mapCryptedKeys.lookup id = some entry →
        ∃ key, keys id = some key ∧ entry.1 = key.getPubKey ∧
          encryptSecret env mk key.vch key.getPubKey = some entry.2) ∧
      ∀ vMasterKeyIn, (∃ s', s.unlock vMasterKeyIn = some (true, s')) ↔ vMasterKeyIn = mk
  /-- Unlocked, every key comes back, with its secret and its compression. -/
  unlocked : s.isLocked = false → ∀ id, s.getKey id = (keys id).map some
  locked : s.isLocked = true → ∀ id, s.getKey id = none
  /-- `EncryptKeys`, `Lock` and `Unlock` change no answer of `HaveKey` and `GetPubKey`. -/
  steady : ∀ op : Op env, (∀ key, op ≠ .addKey key) → op.Encrypts s → ∀ r s',
    op.apply s = some (r, s') → ∀ id, s'.haveKey id = s.haveKey id ∧ s'.getPubKey id = s.getPubKey id

/-- **The store loses no key**, in every run of the operations. -/
theorem keyStore_of_run (laws : env.Laws) {s : CCryptoKeyStore env} {keys : CKeyID → Option (CKey env)}
    (run : Run env s keys) : Trusted s keys where
  sealed hcrypted := ((run.kept laws).crypted hcrypted).1
  oneKey hcrypted hne := (run.kept laws).unlock_iff laws hcrypted hne
  unlocked hlocked id := (run.kept laws).getKey laws hlocked id
  locked hlocked id := getKey_of_isLocked hlocked id
  steady op hop hencrypts r s' happly id := by
    have hkept := run.kept laws
    have hkept' := hkept.apply laws hencrypts happly
    rw [added_of_ne_addKey hop] at hkept'
    obtain ⟨hhave, hpub⟩ := hkept.answers id
    obtain ⟨hhave', hpub'⟩ := hkept'.answers id
    exact ⟨hhave'.trans hhave.symm, hpub'.trans hpub.symm⟩

namespace Sample

/-- So many bytes, filled up with zeros. -/
def pad (n : Nat) (vch : Valtype) : Valtype := (vch ++ List.replicate n 0).take n

theorem length_pad (n : Nat) (vch : Valtype) : (pad n vch).length = n := by
  rw [pad, List.length_take, List.length_append, List.length_replicate]
  omega

/-- A cipher that writes the key in front, and a curve that writes the secret. -/
def crypto : CryptoEnv where
  hash _ := 0
  hash160 vch := vch.foldl (fun n b => n * 256 + b.toNat) 0
  check _ := true
  pubKeyOf vch fCompressed :=
    if fCompressed then
      ⟨2 :: pad 32 vch, by rw [List.length_cons, length_pad]; rfl⟩
    else ⟨4 :: pad 64 vch, by rw [List.length_cons, length_pad]; rfl⟩
  evpEncrypt key _ plain := some (key ++ plain)
  evpDecrypt key _ cipher :=
    if cipher.take key.length = key then some (cipher.drop key.length) else none

theorem laws : crypto.Laws where
  decrypts key iv plain cipher h := by
    obtain rfl : key ++ plain = cipher := Option.some.inj h
    simp only [crypto, List.take_left, if_true, List.drop_left]
  wrongKey mk mk' key key' cipher hne hcipher hdecrypt _ := by
    have hlen := length_of_encryptSecret hcipher
    unfold encryptSecret at hcipher
    rw [if_neg (not_not.mpr hlen)] at hcipher
    obtain rfl : mk ++ key.vch = cipher := Option.some.inj hcipher
    unfold decryptSecret at hdecrypt
    split at hdecrypt
    · cases hdecrypt
    · next hlen' =>
      simp only [crypto, not_not.mp hlen', ← hlen, List.take_left, Option.ite_none_right_eq_some] at hdecrypt
      exact absurd hdecrypt.1 hne
  compressed vch fCompressed := by
    cases fCompressed with
    | false => simp [isCompressed, crypto, length_pad]
    | true => simp [isCompressed, crypto, length_pad]

def key : CKey crypto := ⟨List.replicate 32 7, true, rfl, rfl⟩

def mk : CKeyingMaterial := List.replicate 32 5

def store : CCryptoKeyStore crypto := (((CCryptoKeyStore.empty crypto).addKey key).2.encryptKeys mk).2

theorem run_store : Run crypto store (Function.update (fun _ => none) (getID crypto key.getPubKey) (some key)) :=
  .step (.encryptKeys mk) (.step (.addKey key) .start trivial rfl) (fun _ _ _ => rfl) rfl

def other : CKey crypto := ⟨List.replicate 32 9, false, rfl, rfl⟩

def twoKeys : CCryptoKeyStore crypto := (CCryptoKeyStore.addKey other { store with vMasterKey := mk }).2

theorem run_twoKeys : Run crypto twoKeys (Function.update (Function.update (fun _ => none)
    (getID crypto key.getPubKey) (some key)) (getID crypto other.getPubKey) (some other)) := by
  have hset : store.setCrypted = (true, store) := if_pos (by decide +kernel)
  have hopens : store.opens mk = some true := by decide +kernel
  have hunlock : (Op.unlock mk).apply store = some (true, { store with vMasterKey := mk }) := by
    rw [Op.apply, CCryptoKeyStore.unlock_of_setCrypted hset, hopens]
  have hadd : (Op.addKey other).apply { store with vMasterKey := mk } = some (true, twoKeys) :=
    congrArg some (Prod.ext (by decide +kernel) rfl)
  exact .step (.addKey other) (.step (.unlock mk) run_store trivial hunlock) trivial hadd

end Sample

open Sample in
/-- A key is added and encrypted, and a second one after the store was unlocked. -/
theorem keyStore_of_run_sample : twoKeys.mapCryptedKeys.keys.card = 2 ∧ Trusted twoKeys (Function.update
    (Function.update (fun _ => none) (getID crypto key.getPubKey) (some key))
      (getID crypto other.getPubKey) (some other)) :=
  ⟨by decide +kernel, keyStore_of_run laws run_twoKeys⟩

end Crypto

end Manna
