import Manna.SignatureCache
import Manna.StandardScript

/-!
Keys and scripts of a wallet, and what it takes for its own (`keystore.h`, `script.cpp`: `IsMine`).

`CKey` is a parameter: what `CKey::Sign` and `CKey::GetPubKey` return is all that is used of a key.

* `CKeyStore`: keys and scripts under their hashes;
* `isMine`: whether a payment to a script is the wallet's.
-/

namespace Manna

/-- What signing and verifying rests on: the hash functions, and the operations of `CKey` and
`CPubKey`. -/
structure SignEnv (CKey : Type) extends SigEnv where
  ripemd160 : Valtype → Valtype
  sha1 : Valtype → Valtype
  sha256 : Valtype → Valtype
  /-- `CKey::GetPubKey`. -/
  getPubKey : CKey → CPubKey
  /-- `CKey::Sign`. -/
  sign : CKey → Uint256 → Option Valtype

variable {CKey : Type}

namespace SignEnv

variable (env : SignEnv CKey)

/-- `Hash160`. -/
def hash160 (vch : Valtype) : Valtype := env.ripemd160 (env.sha256 vch)

/-- The interpreter for an input of a transaction. -/
def scriptEnv (txTo : CTransaction) (nIn : Nat) (nHashType : Int) (flags : ScriptFlags) :
    ScriptEnv where
  ripemd160 := env.ripemd160
  sha1 := env.sha1
  sha256 := env.sha256
  checkSig vchSig vchPubKey scriptCode := checkSigUncached env.toSigEnv
    { vchSig, vchPubKey, scriptCode, txTo, nIn, nHashType, flags }

/-- The bytes of `CPubKey(vch)`, of which there are none when it is not valid. -/
def pubKeyBytes (vch : Valtype) : Valtype := ((CPubKey.ofVch vch).map CPubKey.vch).getD []

/-- `CPubKey(vch).GetID()`. -/
def getID (vch : Valtype) : Valtype := env.hash160 (pubKeyBytes vch)

end SignEnv

/-- **The maps of `CBasicKeyStore`**: a key is stored under the identifier of its public key, a
script under its own. What a `CCryptoKeyStore` that is not locked decrypts is of this form too. -/
structure CKeyStore (env : SignEnv CKey) where
  getKey : Valtype → Option CKey
  getCScript : Valtype → Option CScript
  getKey_id {address key} : getKey address = some key →
    env.hash160 (env.getPubKey key).vch = address
  getCScript_id {hash redeemScript} : getCScript hash = some redeemScript →
    env.hash160 redeemScript = hash

section IsMine

variable {env : SignEnv CKey} (keystore : CKeyStore env)

/-- `CKeyStore::HaveKey`. -/
def CKeyStore.haveKey (address : Valtype) : Bool := (keystore.getKey address).isSome

def haveKeys (pubkeys : List Valtype) : Nat :=
  pubkeys.countP fun pubkey => keystore.haveKey (env.getID pubkey)

def multisigKeys (vSolutions : List Valtype) : List Valtype := vSolutions.tail.dropLast

theorem multisigKeys_eq (m n : Valtype) (keys : List Valtype) : multisigKeys (m :: (keys ++ [n])) = keys := by
  rw [multisigKeys, List.tail_cons, List.dropLast_concat]

/-- `IsMine`: `none` while it still calls itself when the fuel is used up. -/
def isMine : Nat → CScript → Option Bool
  | 0, _ => none
  | fuel + 1, scriptPubKey =>
    match solver scriptPubKey with
    | (false, _, _) => some false
    | (true, .nonstandard, _) => some false
    | (true, .pubkey, vSolutions) =>
      some (keystore.haveKey (env.getID (vSolutions.headD [])))
    | (true, .pubkeyhash, vSolutions) => some (keystore.haveKey (vSolutions.headD []))
    | (true, .scripthash, vSolutions) =>
      match keystore.getCScript (vSolutions.headD []) with
      | none => some false
      | some subscript => isMine fuel subscript
    | (true, .multisig, vSolutions) =>
      some (haveKeys keystore (multisigKeys vSolutions) = (multisigKeys vSolutions).length)

end IsMine

end Manna
