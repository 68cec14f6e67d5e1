import Manna.Base32
import Manna.Lib.Radix

/-!
Addresses of overlay networks as names (`netbase.cpp`: `CNetAddr::SetSpecial`, `ToStringIP`).

An onion name and a garlic name are both base 32 of the ten bytes behind the prefix of the network. The garlic
name, too, is set with the prefix of Tor.

* `setSpecial_toStringIP`: what an address of a network is after it was printed and read back;
* `overlayKept_iff`: which addresses and names keep their network.
-/

namespace Manna

open Codec

namespace CNetAddr

open HostPort Decimal

/-- The address with an array `ip`. -/
def ofBytes (ip : List UInt8) : CNetAddr := ⟨BitVec.ofNat 128 (Radix.ofBytes ip)⟩

/-- A branch of `SetSpecial`: the name before the suffix is decoded, and ten bytes go behind the prefix. -/
def setOverlay (addr : CNetAddr) (pchCat : List UInt8) (name : List UInt8) : Bool × CNetAddr :=
  let vchAddr := (decodeBase32 (cStr name)).1
  if vchAddr.length ≠ 16 - pchCat.length then (false, addr) else (true, ofBytes (pchCat ++ vchAddr))

/-- `SetSpecial`: both branches copy `pchOnionCat`. -/
def setSpecial (addr : CNetAddr) (strName : List UInt8) : Bool × CNetAddr :=
  if strName.length > 6 ∧ strName.drop (strName.length - 6) = dotOnion then
    addr.setOverlay pchOnionCat (strName.take (strName.length - 6))
  else if strName.length > 11 ∧ strName.drop (strName.length - 11) = dotI2P then
    addr.setOverlay pchOnionCat (strName.take (strName.length - 11))
  else (false, addr)

/-- **An overlay address and a name keep their network**: the address is read back from its text, and what a
name gives is of the network of its suffix. -/
structure OverlayKept (old : CNetAddr) (resolver : Resolver) (addr : CNetAddr) (strName : List UInt8) : Prop where
  roundTrip : addr.isTor ∨ addr.isI2P → old.setSpecial (toStringIP resolver addr) = (true, addr)
  onion : (old.setSpecial strName).1 = true → dotOnion <:+ strName → (old.setSpecial strName).2.isTor
  i2p : (old.setSpecial strName).1 = true → dotI2P <:+ strName → (old.setSpecial strName).2.isI2P

/-- A garlic name that is taken: its suffix, and ten bytes before it. -/
def IsGarlicName (strName : List UInt8) : Prop :=
  ∃ name, strName = name ++ dotI2P ∧ (decodeBase32 (cStr name)).1.length = 10

variable {old addr : CNetAddr} {resolver : Resolver} {strName name vchAddr : List UInt8}

theorem length_bytes (addr : CNetAddr) : addr.bytes.length = 16 := length_littleEndian 16 _

theorem bytes_ofBytes {ip : List UInt8} (hlen : ip.length = 16) : (ofBytes ip).bytes = ip := by
  have hlt : Radix.ofBytes ip < 256 ^ 16 := hlen ▸ Radix.ofBytes_lt ip
  refine Radix.ofBytes_inj (by rw [length_bytes, hlen]) ?_
  rw [bytes, Radix.ofBytes_littleEndian, ofBytes, BitVec.toNat_ofNat]
  omega

theorem ofBytes_bytes (addr : CNetAddr) : ofBytes addr.bytes = addr := by
  have hip : addr.ip.toNat % 256 ^ 16 = addr.ip.toNat := Nat.mod_eq_of_lt addr.ip.isLt
  rw [ofBytes, bytes, Radix.ofBytes_littleEndian, hip, BitVec.ofNat_toNat, BitVec.setWidth_eq]

theorem take_bytes_ofBytes {pchCat : List UInt8} (hcat : pchCat.length = 6) (hlen : vchAddr.length = 10) :
    (ofBytes (pchCat ++ vchAddr)).bytes.take 6 = pchCat := by
  rw [bytes_ofBytes (by simp [hcat, hlen]), List.take_left' hcat]

theorem isTor_ofBytes (hlen : vchAddr.length = 10) : (ofBytes (pchOnionCat ++ vchAddr)).isTor = true := by
  rw [isTor, take_bytes_ofBytes rfl hlen]
  rfl

theorem isI2P_eq_false_of_isTor (h : addr.isTor = true) : addr.isI2P = false := by
  rw [isI2P, beq_iff_eq.mp h]
  rfl

/-! ### Names -/

theorem setOverlay_of_length (h : (decodeBase32 (cStr name)).1.length = 10) :
    old.setOverlay pchOnionCat name = (true, ofBytes (pchOnionCat ++ (decodeBase32 (cStr name)).1)) :=
  if_neg (not_not.mpr h)

theorem length_of_setOverlay (h : (old.setOverlay pchOnionCat name).1 = true) :
    (decodeBase32 (cStr name)).1.length = 10 := by
  by_contra hlen
  have hset : old.setOverlay pchOnionCat name = (false, old) := if_pos hlen
  rw [hset] at h
  cases h

theorem setSpecial_dotOnion (old : CNetAddr) (name : List UInt8) :
    old.setSpecial (name ++ dotOnion) = old.setOverlay pchOnionCat name := by
  have hlength : (name ++ dotOnion).length - 6 = name.length := by simp [dotOnion]
  rw [setSpecial, hlength, List.drop_left, List.take_left]
  cases name with
  | nil => rfl
  | cons c name => exact if_pos ⟨by simp [dotOnion], rfl⟩

theorem setSpecial_dotI2P (old : CNetAddr) (name : List UInt8) :
    old.setSpecial (name ++ dotI2P) = old.setOverlay pchOnionCat name := by
  have hlength : (name ++ dotI2P).length - 11 = name.length := by simp [dotI2P]
  have hother : (name ++ dotI2P).drop ((name ++ dotI2P).length - 6) ≠ dotOnion := by
    rw [show (name ++ dotI2P).length - 6 = name.length + 5 by simp [dotI2P], List.drop_length_add_append]
    decide
  rw [setSpecial, if_neg fun h => hother h.2, hlength, List.drop_left, List.take_left]
  cases name with
  | nil => rfl
  | cons c name => exact if_pos ⟨by simp [dotI2P], rfl⟩

theorem cStr_encodeBase32 (pch : List UInt8) : cStr (encodeBase32 pch) = encodeBase32 pch := by
  obtain ⟨digits, n, hencode, -, -, hdigits⟩ := encodeBase32_eq pch
  refine cStr_eq_self fun c hc => ?_
  rw [hencode] at hc
  rcases List.mem_append.mp hc with hletter | hpad
  · obtain ⟨d, hd, rfl⟩ := List.mem_map.mp hletter
    intro hzero
    have hdec := dec32_letter (hdigits d hd)
    rw [hzero] at hdec
    have hnone : dec32 0 = -1 := by decide
    omega
  · rw [(List.mem_replicate.mp hpad).2]
    decide

/-- **An address of a network is read back** with the prefix of Tor. -/
theorem setSpecial_toStringIP (old : CNetAddr) (resolver : Resolver) (h : addr.isTor ∨ addr.isI2P) :
    old.setSpecial (toStringIP resolver addr) = (true, ofBytes (pchOnionCat ++ addr.bytes.drop 6)) := by
  have hdecode : (decodeBase32 (cStr (encodeBase32 (addr.bytes.drop 6)))).1 = addr.bytes.drop 6 := by
    rw [cStr_encodeBase32, decodeBase32_encodeBase32]
  have hlen : (decodeBase32 (cStr (encodeBase32 (addr.bytes.drop 6)))).1.length = 10 := by
    rw [hdecode, List.length_drop, length_bytes]
  have hset := @setOverlay_of_length old _ hlen
  rw [hdecode] at hset
  unfold toStringIP
  split
  · rw [setSpecial_dotOnion, hset]
  · next htor =>
    rw [if_pos (h.resolve_left htor), setSpecial_dotI2P, hset]

theorem ofBytes_of_isTor (h : addr.isTor = true) : ofBytes (pchOnionCat ++ addr.bytes.drop 6) = addr := by
  rw [← beq_iff_eq.mp h, List.take_append_drop, ofBytes_bytes]

/-- **Overlay addresses**: an address keeps its network if it is no garlic address, and a name if it is no
garlic name. -/
theorem overlayKept_iff (old : CNetAddr) (resolver : Resolver) (addr : CNetAddr) (strName : List UInt8) :
    OverlayKept old resolver addr strName ↔ addr.isI2P = false ∧ ¬ IsGarlicName strName := by
  constructor
  · intro h
    constructor
    · by_contra hi2p
      rw [Bool.not_eq_false] at hi2p
      have hback := h.roundTrip (.inr hi2p)
      rw [setSpecial_toStringIP old resolver (.inr hi2p)] at hback
      have htor : addr.isTor = true := by
        rw [← (Prod.mk.inj hback).2]
        exact isTor_ofBytes (by rw [List.length_drop, length_bytes])
      rw [isI2P_eq_false_of_isTor htor] at hi2p
      cases hi2p
    · rintro ⟨name, rfl, hlen⟩
      have hset := (setSpecial_dotI2P old name).trans (setOverlay_of_length hlen)
      have hi2p := h.i2p (by rw [hset]) (List.suffix_append _ _)
      rw [hset, isI2P_eq_false_of_isTor (isTor_ofBytes hlen)] at hi2p
      cases hi2p
  · rintro ⟨hi2p, hname⟩
    refine ⟨fun h => ?_, ?_, ?_⟩
    · have htor : addr.isTor = true := h.resolve_right (by simp [hi2p])
      rw [setSpecial_toStringIP old resolver h, ofBytes_of_isTor htor]
    · rintro htaken ⟨name, rfl⟩
      rw [setSpecial_dotOnion] at htaken ⊢
      have hlen := length_of_setOverlay htaken
      rw [setOverlay_of_length hlen]
      exact isTor_ofBytes hlen
    · rintro htaken ⟨name, rfl⟩
      rw [setSpecial_dotI2P] at htaken
      exact absurd ⟨name, rfl, length_of_setOverlay htaken⟩ hname

/-- A garlic address is read back as an onion address. -/
theorem not_forall_overlayKept : ¬ ∀ old resolver addr strName, OverlayKept old resolver addr strName := by
  intro h
  let addr := ofBytes (pchGarliCat ++ List.replicate 10 0)
  let resolver : Resolver := ⟨false, fun _ => none, nofun⟩
  have hi2p : addr.isI2P = true := by decide
  have hback := (h addr resolver addr []).roundTrip (.inr hi2p)
  rw [setSpecial_toStringIP addr resolver (.inr hi2p)] at hback
  have hne : ofBytes (pchOnionCat ++ addr.bytes.drop 6) ≠ addr := by decide
  exact hne (Prod.mk.inj hback).2

end CNetAddr

end Manna
