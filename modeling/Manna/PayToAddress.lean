import Manna.Base58
import Manna.ScriptTemplates

/-!
Paying to an address (`base58.h`: `CBitcoinAddress::Set`; `rpcwallet.cpp`: `sendtoaddress`, `listtransactions`).

* `shown_payToAddress`: the address that is shown for a payment is the one that was typed.
-/

namespace Manna.Base58

open Wallet Decimal

/-- `CBitcoinAddress::Set` of a destination, by `CBitcoinAddressVisitor`; `none` where it returns false. -/
def CBitcoinAddress.set (fTestNet : Bool) : CTxDestination → Option CBase58Data
  | .noDestination => none
  | .keyID id => if h : id.length = 20 then some (setKeyID fTestNet ⟨id, h⟩) else none
  | .scriptID id => if h : id.length = 20 then some (setScriptID fTestNet ⟨id, h⟩) else none

/-- `scriptPubKey.SetDestination(address.Get())`, for a string whose `c_str()` is an address. -/
def payToAddress (hash : Valtype → Uint256) (fTestNet : Bool) (strAddress : List UInt8) : Option CScript :=
  let address := (CBase58Data.setString hash (cStr strAddress)).1
  if CBitcoinAddress.isValid fTestNet address then some (CBitcoinAddress.get fTestNet address).toScript else none

/-- `CBitcoinAddress(address).ToString()`, for a script from which `ExtractDestination` takes `address`. -/
def shownAddress (hash : Valtype → Uint256) (fTestNet : Bool) (getID : Valtype → Valtype)
    (scriptPubKey : CScript) : Option (List UInt8) :=
  ((extractDestination getID scriptPubKey).bind (CBitcoinAddress.set fTestNet)).map (CBase58Data.toString hash)

variable {hash : Valtype → Uint256} {fTestNet : Bool} {psz : List UInt8}

/-- What was read is written as it was, without the white space around it. -/
theorem toString_of_setString {data : CBase58Data} (h : CBase58Data.setString hash psz = (data, true)) :
    data.toString hash = trim psz := by
  unfold CBase58Data.setString decodeBase58Check at h
  cases hdecode : decodeBase58 psz with
  | none => simp [hdecode] at h
  | some vchRet =>
    simp only [hdecode] at h
    split_ifs at h with hshort hchecksum
    · simp at h
    · simp at h
    · split at h
      · cases h
      · next nVersion vchData hdata =>
        cases h
        dsimp only at hdata
        rw [not_not, hdata] at hchecksum
        rw [CBase58Data.toString, encodeBase58Check, hchecksum, ← hdata, List.take_append_drop]
        exact encodeBase58_of_decodeBase58 hdecode

theorem setString_of_isValid (h : CBitcoinAddress.isValid fTestNet (CBase58Data.setString hash psz).1 = true) :
    CBase58Data.setString hash psz = ((CBase58Data.setString hash psz).1, true) := by
  unfold CBase58Data.setString at h ⊢
  split
  · next hempty =>
    rw [hempty] at h
    cases h
  · rfl

/-- What an address leads to, and back. -/
theorem set_get {data : CBase58Data} (h : CBitcoinAddress.isValid fTestNet data = true) :
    ∃ whichType, HasDestination (CBitcoinAddress.get fTestNet data) whichType ∧
      CBitcoinAddress.set fTestNet (CBitcoinAddress.get fTestNet data) = some data := by
  obtain ⟨nVersion, vchData⟩ := data
  obtain ⟨hversion, hlen⟩ := isValid_address_iff.mp h
  have hcases : (⟨nVersion, vchData⟩ : CBase58Data) = CBitcoinAddress.setKeyID fTestNet ⟨vchData, hlen⟩ ∨
      (⟨nVersion, vchData⟩ : CBase58Data) = CBitcoinAddress.setScriptID fTestNet ⟨vchData, hlen⟩ := by
    unfold CBitcoinAddress.expected at hversion
    split_ifs at hversion <;> cases hversion <;> simp_all [CBitcoinAddress.setKeyID, CBitcoinAddress.setScriptID]
  rcases hcases with heq | heq
  · rw [heq, (get_setKeyID fTestNet _).2]
    exact ⟨_, .keyID hlen, dif_pos hlen⟩
  · rw [heq, (get_setScriptID fTestNet _).2]
    exact ⟨_, .scriptID hlen, dif_pos hlen⟩

/-- **The address that is shown is the one that was typed**: for every string that is an address, the script it is
paid to has a destination, whose address is that string, up to a null byte and without the white space around it. -/
theorem shown_payToAddress (hash : Valtype → Uint256) (fTestNet : Bool) (getID : Valtype → Valtype)
    (strAddress : List UInt8) :
    (payToAddress hash fTestNet strAddress).bind (shownAddress hash fTestNet getID) =
      (payToAddress hash fTestNet strAddress).map fun _ => trim (cStr strAddress) := by
  unfold payToAddress
  dsimp only
  split
  · next hvalid =>
    obtain ⟨whichType, hdest, hset⟩ := set_get hvalid
    rw [Option.bind_some, shownAddress, (hdest.extractDestination_eq getID).2, Option.bind_some, hset,
      Option.map_some, toString_of_setString (setString_of_isValid hvalid), Option.map_some]
  · rfl

end Manna.Base58
