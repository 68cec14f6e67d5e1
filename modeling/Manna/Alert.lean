import Mathlib.Data.Finset.Sort
import Mathlib.Data.List.Lex
import Manna.EvalScript
import Manna.TxCodec

/-!
Alerts (`alert.h`, `alert.cpp`).

An alert is a signed message. `ProcessAlert` lets it cancel the alerts that are stored, and then
asks whether one of them cancels it. Left out: what the user is told of it and what is relayed. The
order of `mapAlerts` counts for nothing, so it is a list of hashes and alerts.

* `stays_iff`: an accepted alert of the largest `nID` stays if and only if no later alert cancels
  this `nID`.
-/

namespace Manna

open Codec

namespace Alerts

/-! ### The message -/

/-- Bytes compare as numbers, and strings in the order of the dictionary. -/
instance linearOrderUInt8 : LinearOrder UInt8 where
  le_refl := UInt8.le_refl
  le_trans _ _ _ := UInt8.le_trans
  lt_iff_le_not_ge _ _ := Std.LawfulOrderLT.lt_iff ..
  le_antisymm _ _ := UInt8.le_antisymm
  le_total := UInt8.le_total
  toDecidableLE := inferInstance

/-- `std::string`, as its bytes. -/
def bytesOf (s : String) : Valtype := s.toList.map fun c => UInt8.ofNat c.toNat

/-- `CUnsignedAlert`. -/
structure CUnsignedAlert where
  nVersion : Int
  nRelayUntil : Int
  nExpiration : Int
  nID : Int
  nCancel : Int
  setCancel : Finset Int
  nMinVer : Int
  nMaxVer : Int
  setSubVer : Finset Valtype
  nPriority : Int
  strComment : Valtype
  strStatusBar : Valtype
  strReserved : Valtype
deriving DecidableEq

/-- `Serialize` of a string. -/
def writeString (str : Valtype) : List UInt8 := writeVector (fun b => [b]) str

def readString : Reader Valtype := readVector byte

def writeSet {α : Type} [LinearOrder α] (write : α → List UInt8) (m : Finset α) : List UInt8 :=
  writeVector write m.sort

def readSet {α : Type} [LinearOrder α] (read : Reader α) : Reader (Finset α) := do
  let v ← readVector read
  return v.toFinset

namespace CUnsignedAlert

def serialize (a : CUnsignedAlert) : List UInt8 :=
  littleEndianSigned 4 a.nVersion ++ (littleEndianSigned 8 a.nRelayUntil ++
    (littleEndianSigned 8 a.nExpiration ++ (littleEndianSigned 4 a.nID ++
      (littleEndianSigned 4 a.nCancel ++ (writeSet (littleEndianSigned 4) a.setCancel ++
        (littleEndianSigned 4 a.nMinVer ++ (littleEndianSigned 4 a.nMaxVer ++
          (writeSet writeString a.setSubVer ++ (littleEndianSigned 4 a.nPriority ++
            (writeString a.strComment ++ (writeString a.strStatusBar ++
              writeString a.strReserved)))))))))))

def unserialize : Reader CUnsignedAlert := do
  let nVersion ← readLittleEndianSigned 4
  let nRelayUntil ← readLittleEndianSigned 8
  let nExpiration ← readLittleEndianSigned 8
  let nID ← readLittleEndianSigned 4
  let nCancel ← readLittleEndianSigned 4
  let setCancel ← readSet (readLittleEndianSigned 4)
  let nMinVer ← readLittleEndianSigned 4
  let nMaxVer ← readLittleEndianSigned 4
  let setSubVer ← readSet readString
  let nPriority ← readLittleEndianSigned 4
  let strComment ← readString
  let strStatusBar ← readString
  let strReserved ← readString
  return ⟨nVersion, nRelayUntil, nExpiration, nID, nCancel, setCancel, nMinVer, nMaxVer, setSubVer,
    nPriority, strComment, strStatusBar, strReserved⟩

end CUnsignedAlert

/-! ### Alerts -/

/-- `CAlert`. -/
structure CAlert extends CUnsignedAlert where
  vchMsg : Valtype
  vchSig : Valtype
deriving DecidableEq

/-- What is taken from outside: `Hash`, and `Verify` with the alert key of the network. -/
structure AlertEnv where
  hash : Valtype → Uint256
  verify : Uint256 → Valtype → Bool

/-- `std::numeric_limits<int>::max()`. -/
def maxInt : Int := 2147483647

namespace CAlert

def getHash (env : AlertEnv) (a : CAlert) : Uint256 := env.hash a.vchMsg

def isInEffect (nAdjustedTime : Int) (a : CAlert) : Bool := decide (nAdjustedTime < a.nExpiration)

def cancels (nAdjustedTime : Int) (a alert : CAlert) : Bool :=
  if !a.isInEffect nAdjustedTime then false
  else decide (alert.nID ≤ a.nCancel) || decide (alert.nID ∈ a.setCancel)

/-- What `ProcessAlert` demands of an alert with the largest `nID`. -/
def isFinal (a : CAlert) : Bool :=
  decide (a.nExpiration = maxInt ∧ a.nCancel = maxInt - 1 ∧ a.nMinVer = 0 ∧ a.nMaxVer = maxInt ∧
    a.setSubVer = ∅ ∧ a.nPriority = maxInt ∧
    a.strStatusBar = bytesOf "URGENT: Alert key compromised, upgrade required")

/-- What `ProcessAlert` checks of the alert alone. -/
def isAdmitted (nAdjustedTime : Int) (a : CAlert) : Bool :=
  a.isInEffect nAdjustedTime && (a.nID != maxInt || a.isFinal)

end CAlert

/-- `mapAlerts`. -/
abbrev MapAlerts := List (Uint256 × CAlert)

/-- The alerts that are neither cancelled nor expired. -/
def MapAlerts.cancelPrevious (nAdjustedTime : Int) (a : CAlert) (mapAlerts : MapAlerts) : MapAlerts :=
  mapAlerts.filter fun item => !a.cancels nAdjustedTime item.2 && item.2.isInEffect nAdjustedTime

def MapAlerts.insertNew (hash : Uint256) (a : CAlert) (mapAlerts : MapAlerts) : MapAlerts :=
  if hash ∈ mapAlerts.map Prod.fst then mapAlerts else mapAlerts ++ [(hash, a)]

/-- An alert as it is received, and when. -/
structure AlertCall where
  vchMsg : Valtype
  vchSig : Valtype
  nAdjustedTime : Int

namespace AlertCall

/-- `CheckSignature`: the alert, unless the signature is wrong. The message may be too short. -/
def checkSignature (env : AlertEnv) (call : AlertCall) : Option (Option CAlert) :=
  if !env.verify (env.hash call.vchMsg) call.vchSig then some none
  else
    match CUnsignedAlert.unserialize call.vchMsg with
    | none => none
    | some (unsigned, _) => some (some ⟨unsigned, call.vchMsg, call.vchSig⟩)

/-- `ProcessAlert`, `none` where it throws. -/
def processAlert (env : AlertEnv) (call : AlertCall) (mapAlerts : MapAlerts) :
    Option (Bool × MapAlerts) :=
  match call.checkSignature env with
  | none => none
  | some none => some (false, mapAlerts)
  | some (some a) =>
    if !a.isAdmitted call.nAdjustedTime then some (false, mapAlerts)
    else
      let mapAlerts := mapAlerts.cancelPrevious call.nAdjustedTime a
      if mapAlerts.any fun item => item.2.cancels call.nAdjustedTime a then some (false, mapAlerts)
      else some (true, mapAlerts.insertNew (a.getHash env) a)

/-- `mapAlerts` after a call. What `ProcessAlert` throws is caught by `ProcessMessages`. -/
def apply (env : AlertEnv) (call : AlertCall) (mapAlerts : MapAlerts) : MapAlerts :=
  match call.processAlert env mapAlerts with
  | none => mapAlerts
  | some (_, mapAlerts) => mapAlerts

def accepted (env : AlertEnv) (call : AlertCall) (mapAlerts : MapAlerts) : Option CAlert :=
  match call.processAlert env mapAlerts with
  | some (true, _) => (call.checkSignature env).join
  | _ => none

end AlertCall

def applyAll (env : AlertEnv) (calls : List AlertCall) (mapAlerts : MapAlerts) : MapAlerts :=
  calls.foldl (fun mapAlerts call => call.apply env mapAlerts) mapAlerts

theorem reads_string {str : Valtype} (h : str.length ≤ MAX_SIZE) :
    Reads readString (writeString str) str := by
  have hread := reads_writeVector (g := id) byte h fun b _ => reads_byte b
  rwa [List.map_id] at hread

theorem reads_signed {k : Nat} {n : Int} (h : Signed k n) :
    Reads (readLittleEndianSigned k) (littleEndianSigned k n) n := reads_littleEndianSigned h.1 h.2

theorem bind_eq_some {α β : Type} {p : Reader α} {q : α → Reader β} {s : List UInt8}
    {out : β × List UInt8} (h : (p >>= q) s = some out) : ∃ a s', p s = some (a, s') ∧ q a s' = some out := by
  obtain ⟨⟨a, s'⟩, hp, hq⟩ := Option.bind_eq_some_iff.mp h
  exact ⟨a, s', hp, hq⟩

theorem eq_bmod_of_readLittleEndianSigned {k : Nat} {s rest : List UInt8} {n : Int}
    (h : readLittleEndianSigned k s = some (n, rest)) : ∃ m : Nat, n = Int.bmod m (256 ^ k) := by
  obtain ⟨m, s', -, heq⟩ := bind_eq_some h
  cases heq
  exact ⟨m, rfl⟩

theorem le_of_readLittleEndianSigned {s rest : List UInt8} {n : Int}
    (h : readLittleEndianSigned 4 s = some (n, rest)) : n ≤ maxInt := by
  obtain ⟨m, hn⟩ := eq_bmod_of_readLittleEndianSigned h
  have hlt := Int.bmod_lt (x := (m : Int)) (m := 256 ^ 4) (by decide)
  rw [← hn] at hlt
  unfold maxInt
  omega

/-- What is read as `nID` is an `int`. -/
theorem CUnsignedAlert.nID_le {s rest : List UInt8} {a : CUnsignedAlert}
    (h : unserialize s = some (a, rest)) : a.nID ≤ maxInt := by
  obtain ⟨nVersion, s₁, -, h⟩ := bind_eq_some h
  obtain ⟨nRelayUntil, s₂, -, h⟩ := bind_eq_some h
  obtain ⟨nExpiration, s₃, -, h⟩ := bind_eq_some h
  obtain ⟨nID, s₄, hread, h⟩ := bind_eq_some h
  have hle := le_of_readLittleEndianSigned hread
  obtain ⟨nCancel, s₅, -, h⟩ := bind_eq_some h
  obtain ⟨setCancel, s₆, -, h⟩ := bind_eq_some h
  obtain ⟨nMinVer, s₇, -, h⟩ := bind_eq_some h
  obtain ⟨nMaxVer, s₈, -, h⟩ := bind_eq_some h
  obtain ⟨setSubVer, s₉, -, h⟩ := bind_eq_some h
  obtain ⟨nPriority, s₁₀, -, h⟩ := bind_eq_some h
  obtain ⟨strComment, s₁₁, -, h⟩ := bind_eq_some h
  obtain ⟨strStatusBar, s₁₂, -, h⟩ := bind_eq_some h
  obtain ⟨strReserved, s₁₃, -, h⟩ := bind_eq_some h
  have ha := congrArg (fun out => out.1.nID) (Option.some.inj h)
  exact ha ▸ hle

/-! ### The final alert -/

/-- A later alert that takes the final one out: it is let in, it cancels the largest `nID`, and it is
not the final alert again. -/
def AlertCall.Overrides (env : AlertEnv) (hash : Uint256) (call : AlertCall) : Prop :=
  ∃ a, call.checkSignature env = some (some a) ∧ a.isAdmitted call.nAdjustedTime = true ∧
    (maxInt ≤ a.nCancel ∨ maxInt ∈ a.setCancel) ∧ ¬ (a.nID = maxInt ∧ a.getHash env = hash)

/-- From these alerts on, the one of this hash stays and none of a smaller `nID` is accepted. -/
def Stays (env : AlertEnv) (hash : Uint256) : List AlertCall → MapAlerts → Prop
  | [], mapAlerts => hash ∈ mapAlerts.map Prod.fst
  | call :: calls, mapAlerts => hash ∈ mapAlerts.map Prod.fst ∧
      (∀ a, call.accepted env mapAlerts = some a → ¬ a.nID < maxInt) ∧
      Stays env hash calls (call.apply env mapAlerts)

/-- What is stored under this hash is a final alert. -/
structure Held (hash : Uint256) (mapAlerts : MapAlerts) : Prop where
  stored : hash ∈ mapAlerts.map Prod.fst
  nID : ∀ a, (hash, a) ∈ mapAlerts → a.nID = maxInt
  isFinal : ∀ a, (hash, a) ∈ mapAlerts → a.isFinal = true

/-- Every `nID` that is stored is an `int`, and the largest one belongs to final alerts. -/
def Formed (mapAlerts : MapAlerts) : Prop :=
  ∀ item ∈ mapAlerts, item.2.nID ≤ maxInt ∧ (item.2.nID = maxInt → item.2.isFinal = true)

section Step

variable {env : AlertEnv} {hash : Uint256} {mapAlerts : MapAlerts} {call : AlertCall} {a : CAlert}

variable {nAdjustedTime : Int}

theorem mem_cancelPrevious {item : Uint256 × CAlert} :
    item ∈ mapAlerts.cancelPrevious nAdjustedTime a ↔ item ∈ mapAlerts ∧
      a.cancels nAdjustedTime item.2 = false ∧ item.2.isInEffect nAdjustedTime = true := by
  unfold MapAlerts.cancelPrevious
  rw [List.mem_filter, Bool.and_eq_true, Bool.not_eq_true']

theorem mem_insertNew {item : Uint256 × CAlert} (h : item ∈ mapAlerts.insertNew hash a) :
    item ∈ mapAlerts ∨ item = (hash, a) := by
  unfold MapAlerts.insertNew at h
  split at h
  · exact .inl h
  · exact (List.mem_append.mp h).imp_right List.mem_singleton.mp

theorem mem_keys_insertNew {hash' : Uint256} : hash' ∈ (mapAlerts.insertNew hash a).map Prod.fst ↔
    hash' ∈ mapAlerts.map Prod.fst ∨ hash' = hash := by
  unfold MapAlerts.insertNew
  split
  · next hin => exact ⟨.inl, fun h => h.elim id fun heq => heq ▸ hin⟩
  · rw [List.map_append, List.mem_append, List.map_singleton, List.mem_singleton]

/-- **What a call does**: nothing, or the alert cancels, and is stored unless it is cancelled. -/
theorem processAlert_cases (env : AlertEnv) (call : AlertCall) (mapAlerts : MapAlerts) :
    ((∀ a, call.checkSignature env = some (some a) → a.isAdmitted call.nAdjustedTime = false) ∧
      call.apply env mapAlerts = mapAlerts ∧ call.accepted env mapAlerts = none) ∨
    ∃ a, call.checkSignature env = some (some a) ∧ a.isAdmitted call.nAdjustedTime = true ∧
      ((∃ item ∈ mapAlerts.cancelPrevious call.nAdjustedTime a, item.2.cancels call.nAdjustedTime a = true) ∧
        call.apply env mapAlerts = mapAlerts.cancelPrevious call.nAdjustedTime a ∧
        call.accepted env mapAlerts = none ∨ (∀ item ∈ mapAlerts.cancelPrevious call.nAdjustedTime a,
          item.2.cancels call.nAdjustedTime a = false) ∧ call.apply env mapAlerts =
          (mapAlerts.cancelPrevious call.nAdjustedTime a).insertNew (a.getHash env) a ∧
        call.accepted env mapAlerts = some a) := by
  unfold AlertCall.apply AlertCall.accepted AlertCall.processAlert
  rcases hcheck : call.checkSignature env with _ | _ | a
  · exact .inl ⟨fun _ h => (nomatch h), rfl, rfl⟩
  · exact .inl ⟨fun _ h => (nomatch h), rfl, rfl⟩
  · cases hadmitted : a.isAdmitted call.nAdjustedTime with
    | false =>
      refine .inl ⟨fun a' ha' => ?_, ?_, ?_⟩
      · obtain rfl := Option.some.inj (Option.some.inj ha')
        exact hadmitted
      · simp only [hadmitted, Bool.not_false, if_true]
      · simp only [hadmitted, Bool.not_false, if_true]
    | true =>
      refine .inr ⟨a, rfl, hadmitted, ?_⟩
      simp only [hadmitted, Bool.not_true, Bool.false_eq_true, if_false]
      cases hany : (mapAlerts.cancelPrevious call.nAdjustedTime a).any fun item =>
          item.2.cancels call.nAdjustedTime a with
      | true =>
        refine .inl ⟨List.any_eq_true.mp hany, ?_, ?_⟩
        · rw [if_pos rfl]
        · rw [if_pos rfl]
      | false =>
        refine .inr ⟨fun item hitem => ?_, ?_, ?_⟩
        · exact Bool.eq_false_iff.mpr (List.any_eq_false.mp hany item hitem)
        · rw [if_neg Bool.false_ne_true]
        · rw [if_neg Bool.false_ne_true]
          rfl

theorem nID_le_of_checkSignature (h : call.checkSignature env = some (some a)) : a.nID ≤ maxInt := by
  unfold AlertCall.checkSignature at h
  split at h
  · cases h
  · split at h
    · cases h
    · next hread =>
      obtain rfl := Option.some.inj (Option.some.inj h)
      exact CUnsignedAlert.nID_le hread

theorem isInEffect_of_isAdmitted (h : a.isAdmitted nAdjustedTime = true) :
    a.isInEffect nAdjustedTime = true := (Bool.and_eq_true_iff.mp h).1

theorem isFinal_of_isAdmitted (h : a.isAdmitted nAdjustedTime = true)
    (hid : a.nID = maxInt) : a.isFinal = true := by
  unfold CAlert.isAdmitted at h
  rw [hid, bne_self_eq_false, Bool.false_or, Bool.and_eq_true] at h
  exact h.2

/-- **What a call stores.** -/
theorem Formed.apply (h : Formed mapAlerts) : Formed (call.apply env mapAlerts) := by
  rcases processAlert_cases env call mapAlerts with ⟨-, happly, -⟩ |
    ⟨a, hcheck, hadmitted, ⟨-, happly, -⟩ | ⟨-, happly, -⟩⟩
  · rw [happly]
    exact h
  · rw [happly]
    exact fun item hitem => h item (mem_cancelPrevious.mp hitem).1
  · rw [happly]
    intro item hitem
    rcases mem_insertNew hitem with hold | rfl
    · exact h item (mem_cancelPrevious.mp hold).1
    · exact ⟨nID_le_of_checkSignature hcheck, isFinal_of_isAdmitted hadmitted⟩

theorem formed_applyAll (calls : List AlertCall) {mapAlerts : MapAlerts} (h : Formed mapAlerts) :
    Formed (applyAll env calls mapAlerts) := by
  induction calls generalizing mapAlerts with
  | nil => exact h
  | cons call calls ih => exact ih h.apply

theorem cancels_iff {alert : CAlert} (heffect : a.isInEffect nAdjustedTime = true) :
    a.cancels nAdjustedTime alert = true ↔ alert.nID ≤ a.nCancel ∨ alert.nID ∈ a.setCancel := by
  unfold CAlert.cancels
  rw [heffect, Bool.not_true, if_neg Bool.false_ne_true, Bool.or_eq_true, decide_eq_true_eq,
    decide_eq_true_eq]

theorem isInEffect_of_isFinal (h : a.isFinal = true)
    (hclock : nAdjustedTime < maxInt) : a.isInEffect nAdjustedTime = true := by
  have hexpiration : a.nExpiration = maxInt := (of_decide_eq_true h).1
  unfold CAlert.isInEffect
  rw [hexpiration]
  exact decide_eq_true hclock

/-- **A final alert cancels every smaller `nID`.** -/
theorem cancels_of_isFinal {alert : CAlert} (h : a.isFinal = true)
    (hclock : nAdjustedTime < maxInt) (hid : alert.nID < maxInt) : a.cancels nAdjustedTime alert = true := by
  have hcancel : a.nCancel = maxInt - 1 := (of_decide_eq_true h).2.1
  rw [cancels_iff (isInEffect_of_isFinal h hclock), hcancel]
  exact .inl (Int.le_sub_one_of_lt hid)

theorem Held.insertNew (h : Held hash mapAlerts)
    (hnew : a.getHash env = hash → a.nID = maxInt ∧ a.isFinal = true) :
    Held hash (mapAlerts.insertNew (a.getHash env) a) where
  stored := mem_keys_insertNew.mpr (.inl h.stored)
  nID b hb := by
    rcases mem_insertNew hb with hold | heq
    · exact h.nID b hold
    · obtain ⟨hhash, rfl⟩ := Prod.mk.inj heq
      exact (hnew hhash.symm).1
  isFinal b hb := by
    rcases mem_insertNew hb with hold | heq
    · exact h.isFinal b hold
    · obtain ⟨hhash, rfl⟩ := Prod.mk.inj heq
      exact (hnew hhash.symm).2

/-- An alert that does not cancel the largest `nID` leaves a final alert where it is. -/
theorem Held.cancelPrevious (h : Held hash mapAlerts)
    (hclock : nAdjustedTime < maxInt) (heffect : a.isInEffect nAdjustedTime = true)
    (hspares : ¬ (maxInt ≤ a.nCancel ∨ maxInt ∈ a.setCancel)) :
    Held hash (mapAlerts.cancelPrevious nAdjustedTime a) where
  stored := by
    obtain ⟨⟨hash', f⟩, hf, rfl⟩ := List.mem_map.mp h.stored
    refine List.mem_map.mpr ⟨(hash', f), mem_cancelPrevious.mpr ⟨hf, ?_, ?_⟩, rfl⟩
    · rw [Bool.eq_false_iff, Ne, cancels_iff heffect, h.nID f hf]
      exact hspares
    · exact isInEffect_of_isFinal (h.isFinal f hf) hclock
  nID b hb := h.nID b (mem_cancelPrevious.mp hb).1
  isFinal b hb := h.isFinal b (mem_cancelPrevious.mp hb).1

/-- An alert that cancels the largest `nID` takes every final alert out. -/
theorem Held.not_mem_cancelPrevious (h : Held hash mapAlerts)
    (heffect : a.isInEffect nAdjustedTime = true) (hcancels : maxInt ≤ a.nCancel ∨ maxInt ∈ a.setCancel) :
    hash ∉ (mapAlerts.cancelPrevious nAdjustedTime a).map Prod.fst := by
  intro hmem
  obtain ⟨⟨hash', f⟩, hf, rfl⟩ := List.mem_map.mp hmem
  obtain ⟨hin, hnot, -⟩ := mem_cancelPrevious.mp hf
  rw [Bool.eq_false_iff, Ne, cancels_iff heffect, h.nID f hin] at hnot
  exact hnot hcancels

/-- A final alert that cancels the largest `nID` leaves nothing. -/
theorem cancelPrevious_eq_nil (h : Formed mapAlerts)
    (heffect : a.isInEffect nAdjustedTime = true) (hfinal : a.isFinal = true)
    (hcancels : maxInt ≤ a.nCancel ∨ maxInt ∈ a.setCancel) :
    mapAlerts.cancelPrevious nAdjustedTime a = [] := by
  refine List.eq_nil_iff_forall_not_mem.mpr fun item hitem => ?_
  obtain ⟨hin, hnot, -⟩ := mem_cancelPrevious.mp hitem
  have hcancel : a.nCancel = maxInt - 1 := (of_decide_eq_true hfinal).2.1
  rw [Bool.eq_false_iff, Ne, cancels_iff heffect, not_or] at hnot
  have hmax : item.2.nID = maxInt := by
    have hle := (h item hin).1
    omega
  rw [hcancel, hmax] at hnot
  rw [hcancel] at hcancels
  rcases hcancels with hle | hmem
  · omega
  · exact hnot.2 hmem

/-- **One call after the final alert**: unless it overrides, the alert stays and none of a smaller
`nID` is accepted. -/
theorem Held.apply (h : Held hash mapAlerts) (hformed : Formed mapAlerts)
    (hclock : call.nAdjustedTime < maxInt) (hspares : ¬ call.Overrides env hash) :
    Held hash (call.apply env mapAlerts) ∧ ∀ a, call.accepted env mapAlerts = some a → ¬ a.nID < maxInt := by
  rcases processAlert_cases env call mapAlerts with ⟨-, happly, haccepted⟩ |
    ⟨a, hcheck, hadmitted, hdone⟩
  · rw [happly, haccepted]
    exact ⟨h, fun _ hnone => (nomatch hnone)⟩
  have heffect := isInEffect_of_isAdmitted hadmitted
  by_cases hcancels : maxInt ≤ a.nCancel ∨ maxInt ∈ a.setCancel
  · -- the final alert itself, once more
    have hsame : a.nID = maxInt ∧ a.getHash env = hash := by
      by_contra hother
      exact hspares ⟨a, hcheck, hadmitted, hcancels, hother⟩
    have hfinal := isFinal_of_isAdmitted hadmitted hsame.1
    have hnil := cancelPrevious_eq_nil hformed heffect hfinal hcancels
    rcases hdone with ⟨⟨item, hitem, -⟩, -⟩ | ⟨-, happly, haccepted⟩
    · rw [hnil] at hitem
      cases hitem
    · rw [happly, haccepted, hnil, hsame.2]
      refine ⟨⟨List.mem_cons_self, fun b hb => ?_, fun b hb => ?_⟩, fun b hb => ?_⟩
      · cases List.mem_singleton.mp hb
        exact hsame.1
      · cases List.mem_singleton.mp hb
        exact hfinal
      · cases hb
        exact hsame.1.not_lt
  · have hkept := h.cancelPrevious hclock heffect hcancels
    rcases hdone with ⟨-, happly, haccepted⟩ | ⟨hspared, happly, haccepted⟩
    · rw [happly, haccepted]
      exact ⟨hkept, fun _ hnone => (nomatch hnone)⟩
    · -- a smaller `nID` would be cancelled by the alert that is kept
      obtain ⟨⟨hash', f⟩, hf, rfl⟩ := List.mem_map.mp hkept.stored
      have hid : ¬ a.nID < maxInt := by
        intro hlt
        have hnot := hspared _ hf
        rw [cancels_of_isFinal (hkept.isFinal f hf) hclock hlt] at hnot
        cases hnot
      have hmax : a.nID = maxInt := le_antisymm (nID_le_of_checkSignature hcheck) (not_lt.mp hid)
      rw [happly, haccepted]
      refine ⟨hkept.insertNew fun _ => ⟨hmax, isFinal_of_isAdmitted hadmitted hmax⟩, fun b hb => ?_⟩
      cases hb
      exact hid

/-- **An alert that overrides** takes the final one out, or is accepted in its place. -/
theorem Held.not_apply_of_overrides (h : Held hash mapAlerts) (hoverrides : call.Overrides env hash)
    (hstored : hash ∈ (call.apply env mapAlerts).map Prod.fst) :
    ∃ a, call.accepted env mapAlerts = some a ∧ a.nID < maxInt := by
  obtain ⟨a, hcheck, hadmitted, hcancels, hother⟩ := hoverrides
  have hgone := h.not_mem_cancelPrevious (isInEffect_of_isAdmitted hadmitted) hcancels
  rcases processAlert_cases env call mapAlerts with ⟨hrefused, -⟩ | ⟨a', hcheck', -, hdone⟩
  · rw [hrefused a hcheck] at hadmitted
    cases hadmitted
  · obtain rfl : a = a' := Option.some.inj (Option.some.inj (hcheck.symm.trans hcheck'))
    rcases hdone with ⟨-, happly, -⟩ | ⟨-, happly, haccepted⟩
    · rw [happly] at hstored
      exact absurd hstored hgone
    · rw [happly] at hstored
      have hhash := (mem_keys_insertNew.mp hstored).resolve_left hgone
      have hid : a.nID ≠ maxInt := fun hmax => hother ⟨hmax, hhash.symm⟩
      exact ⟨a, haccepted, lt_of_le_of_ne (nID_le_of_checkSignature hcheck) hid⟩

/-- **Accepting the final alert** stores it. -/
theorem held_apply (hformed : Formed mapAlerts) (haccepted : call.accepted env mapAlerts = some a)
    (hid : a.nID = maxInt) : Held (a.getHash env) (call.apply env mapAlerts) := by
  rcases processAlert_cases env call mapAlerts with ⟨-, -, hnone⟩ |
    ⟨a', hcheck, hadmitted, ⟨-, -, hnone⟩ | ⟨-, happly, hsome⟩⟩
  · rw [hnone] at haccepted
    cases haccepted
  · rw [hnone] at haccepted
    cases haccepted
  · obtain rfl : a' = a := Option.some.inj (hsome.symm.trans haccepted)
    have hfinal := isFinal_of_isAdmitted hadmitted hid
    have hcancel : a'.nCancel = maxInt - 1 := (of_decide_eq_true hfinal).2.1
    have hmax : ∀ b, (a'.getHash env, b) ∈ call.apply env mapAlerts → b.nID = maxInt := by
      intro b hb
      rw [happly] at hb
      rcases mem_insertNew hb with hold | heq
      · -- what is kept next to a final alert has the largest `nID`, too
        obtain ⟨hin, hnot, -⟩ := mem_cancelPrevious.mp hold
        rw [Bool.eq_false_iff, Ne, cancels_iff (isInEffect_of_isAdmitted hadmitted), not_or,
          hcancel] at hnot
        have hle := (hformed _ hin).1
        dsimp only at hle hnot
        omega
      · rw [(Prod.mk.inj heq).2]
        exact hid
    refine ⟨?_, hmax, fun b hb => (hformed.apply _ hb).2 (hmax b hb)⟩
    rw [happly]
    exact mem_keys_insertNew.mpr (.inr rfl)

end Step

/-- **The final alert stays** after it is accepted, and no alert of a smaller `nID` is accepted,
if and only if no later alert overrides it. -/
theorem stays_iff {env : AlertEnv} {earlier later : List AlertCall} {call : AlertCall} {a : CAlert}
    (haccepted : call.accepted env (applyAll env earlier []) = some a) (hid : a.nID = maxInt)
    (hclock : ∀ next ∈ later, next.nAdjustedTime < maxInt) :
    Stays env (a.getHash env) later (call.apply env (applyAll env earlier [])) ↔
      ∀ next ∈ later, ¬ next.Overrides env (a.getHash env) := by
  have hformed : Formed (applyAll env earlier []) := formed_applyAll earlier fun _ hitem => nomatch hitem
  have hheld := held_apply hformed haccepted hid
  have hformed' : Formed (call.apply env (applyAll env earlier [])) := hformed.apply
  generalize call.apply env (applyAll env earlier []) = mapAlerts at hheld hformed'
  clear hformed haccepted
  induction later generalizing mapAlerts with
  | nil => exact iff_of_true hheld.stored fun _ hnext => nomatch hnext
  | cons next later ih =>
    rw [List.forall_mem_cons] at hclock ⊢
    constructor
    · rintro ⟨-, hsmaller, hlater⟩
      have hspares : ¬ next.Overrides env (a.getHash env) := by
        intro hoverrides
        have hstored : a.getHash env ∈ (next.apply env mapAlerts).map Prod.fst := by
          cases later with
          | nil => exact hlater
          | cons _ _ => exact hlater.1
        obtain ⟨b, hb, hlt⟩ := hheld.not_apply_of_overrides hoverrides hstored
        exact hsmaller b hb hlt
      have hnext := (hheld.apply hformed' hclock.1 hspares).1
      exact ⟨hspares, (ih hclock.2 _ hnext hformed'.apply).mp hlater⟩
    · rintro ⟨hspares, hlater⟩
      obtain ⟨hnext, hsmaller⟩ := hheld.apply hformed' hclock.1 hspares
      exact ⟨hheld.stored, hsmaller, (ih hclock.2 _ hnext hformed'.apply).mpr hlater⟩

namespace Sample

/-- Every signature is right. -/
def env : AlertEnv := ⟨fun vchMsg => vchMsg.foldl (fun n b => n * 256 + b.toNat) 1, fun _ _ => true⟩

def alert (nExpiration nID nCancel nMaxVer nPriority : Int) (strStatusBar : String) : CAlert :=
  let unsigned : CUnsignedAlert := ⟨1, 0, nExpiration, nID, nCancel, ∅, 0, nMaxVer, ∅, nPriority, [],
    bytesOf strStatusBar, []⟩
  ⟨unsigned, unsigned.serialize, []⟩

def received (a : CAlert) : AlertCall := ⟨a.vchMsg, a.vchSig, 1000⟩

def final : CAlert :=
  alert maxInt maxInt (maxInt - 1) maxInt maxInt "URGENT: Alert key compromised, upgrade required"

def warning : CAlert := alert 5000 7 0 100 0 "warning"

/-- It cancels everything there is. -/
def override : CAlert := alert 5000 7 maxInt 100 0 "ok"

theorem accepted_final : (received final).accepted env [] = some final := by decide +kernel

end Sample

open Sample in
/-- A warning is no danger. -/
theorem stays_iff_sample :
    Stays env (final.getHash env) [received warning] ((received final).apply env []) := by
  have haccepted : (received final).accepted env (applyAll env [] []) = some final := accepted_final
  refine (stays_iff haccepted rfl ?_).mpr ?_
  · exact fun next hnext => List.mem_singleton.mp hnext ▸ by decide
  · rintro next hnext ⟨a, hcheck, -, hcancels, -⟩
    rw [List.mem_singleton.mp hnext] at hcheck
    have hwarning : (received warning).checkSignature env = some (some warning) := by decide +kernel
    obtain rfl : warning = a := Option.some.inj (Option.some.inj (hwarning.symm.trans hcheck))
    exact absurd hcancels (by decide)

open Sample in
/-- **The final alert can be cancelled**, by an alert whose `nCancel` is the largest `int`. -/
theorem not_forall_stays :
    ¬ ∀ (env : AlertEnv) (earlier later : List AlertCall) (call : AlertCall) (a : CAlert),
      call.accepted env (applyAll env earlier []) = some a → a.nID = maxInt →
        (∀ next ∈ later, next.nAdjustedTime < maxInt) →
          Stays env (a.getHash env) later (call.apply env (applyAll env earlier [])) := by
  intro hall
  have hstays := hall env [] [received override] (received final) final accepted_final rfl
    fun next hnext => List.mem_singleton.mp hnext ▸ by decide
  have hgone : final.getHash env ∉ ((received override).apply env
      ((received final).apply env [])).map Prod.fst := by decide +kernel
  exact hgone hstays.2.2

end Alerts

end Manna
