import Mathlib.Data.Finset.Max
import Mathlib.Data.Finset.Lattice.Fold
import Mathlib.Logic.Function.Basic
import Mathlib.Order.Lattice.Nat
import Mathlib.Order.Interval.Finset.Nat

/-!
The key pool (`wallet.cpp`: `TopUpKeyPool`, `NewKeyPool`, `ReserveKeyFromKeyPool`, `CReserveKey`).

The indices of the pool are in `setKeyPool`, the keys under their indices in records of the wallet
file. A reserved index leaves the set and keeps its record until the key is kept or returned. New
records are written after the last index of the set, whatever is reserved. The public keys are a
parameter, with a function that generates new ones; writing to the file succeeds.

* `Session`: a wallet, its `CReserveKey` objects and the keys that were handed out;
* `Clean`: a step that overwrites no record that is reserved;
* `KeyPoolIntegrity`: what is asked of the pool;
* `keyPoolIntegrity_of_run`: runs of clean steps keep it.
-/

namespace Manna

namespace KeyPool

variable {PubKey : Type}

/-- What generates keys: one that is not in the key store. -/
abbrev Generator (PubKey : Type) := (keys : Finset PubKey) → { key : PubKey // key ∉ keys }

/-! ### The wallet -/

/-- The fields of `CWallet` and the records of its file that the key pool uses. -/
structure CWallet (PubKey : Type) where
  /-- The keys that `HaveKey` finds. -/
  keys : Finset PubKey
  setKeyPool : Finset Nat
  /-- The records "pool". -/
  pool : Nat → Option PubKey
  locked : Bool
  vchDefaultKey : Option PubKey

namespace CWallet

variable [DecidableEq PubKey] (generate : Generator PubKey) (nKeypool : Nat) (w : CWallet PubKey)

/-- `CWalletDB::ErasePool`. -/
def erasePool (nIndex : Nat) : CWallet PubKey :=
  { w with pool := Function.update w.pool nIndex none }

/-- A record with a new key: `WritePool(nIndex, CKeyPool(GenerateNewKey()))` and
`setKeyPool.insert(nIndex)`. -/
def addNewKey (nIndex : Nat) : CWallet PubKey :=
  { w with
    keys := insert (generate w.keys).1 w.keys
    pool := Function.update w.pool nIndex (some (generate w.keys).1)
    setKeyPool := insert nIndex w.setKeyPool }

/-- The first part of `NewKeyPool`: the records of the set are erased, and the set is cleared. -/
def clearKeyPool : CWallet PubKey :=
  { w with
    pool := fun nIndex => if nIndex ∈ w.setKeyPool then none else w.pool nIndex
    setKeyPool := ∅ }

/-- `NewKeyPool`; `nKeypool` is the setting `-keypool`. -/
def newKeyPool : Bool × CWallet PubKey :=
  if w.locked then (false, w.clearKeyPool)
  else
    (true, (List.range nKeypool).foldl (fun w i => w.addNewKey generate (i + 1)) w.clearKeyPool)

/-- The index after the last one of the set. -/
def nEnd : Nat := if w.setKeyPool = ∅ then 1 else w.setKeyPool.sup id + 1

/-- `nTargetSize + 1`, in 32 bits. -/
def targetSize (nKeypool : Nat) : Nat := (nKeypool % 2 ^ 32 + 1) % 2 ^ 32

/-- The loop of `TopUpKeyPool`: every round adds an index. -/
def topUpLoop (generate : Generator PubKey) (nSize : Nat) : Nat → CWallet PubKey → CWallet PubKey
  | 0, w => w
  | fuel + 1, w =>
    if w.setKeyPool.card < nSize then topUpLoop generate nSize fuel (w.addNewKey generate w.nEnd)
    else w

def topUpKeyPool : Bool × CWallet PubKey :=
  if w.locked then (false, w)
  else (true, topUpLoop generate (targetSize nKeypool) (targetSize nKeypool) w)

/-- What `ReserveKeyFromKeyPool` gives: no index, an index and its key, or an exception after the index
was taken out of the set. -/
inductive Reserved (PubKey : Type) where
  | empty
  | key (nIndex : Nat) (vchPubKey : PubKey)
  | thrown (nIndex : Nat)

/-- `ReserveKeyFromKeyPool`. -/
def reserveKeyFromKeyPool : Reserved PubKey × CWallet PubKey :=
  let w := if w.locked then w else (w.topUpKeyPool generate nKeypool).2
  -- "Get the oldest key"
  if h : w.setKeyPool.Nonempty then
    let nIndex := w.setKeyPool.min' h
    let w' := { w with setKeyPool := w.setKeyPool.erase nIndex }
    match w.pool nIndex with
    | none => (.thrown nIndex, w')
    | some vchPubKey => if vchPubKey ∈ w.keys then (.key nIndex vchPubKey, w') else (.thrown nIndex, w')
  else (.empty, w)

/-- `AddReserveKey`; `none` where the set is empty and what it does is undefined. -/
def addReserveKey (keypool : PubKey) : Option (Nat × CWallet PubKey) :=
  if w.setKeyPool = ∅ then none
  else
    let nIndex := 1 + w.setKeyPool.sup id
    some (nIndex, { w with
      pool := Function.update w.pool nIndex (some keypool)
      setKeyPool := insert nIndex w.setKeyPool })

def keepKey (nIndex : Nat) : CWallet PubKey := w.erasePool nIndex

def returnKey (nIndex : Nat) : CWallet PubKey := { w with setKeyPool := insert nIndex w.setKeyPool }

/-- `GetKeyFromPool`: the key, if one is handed out. -/
def getKeyFromPool (fAllowReuse : Bool) : Option PubKey × CWallet PubKey :=
  match w.reserveKeyFromKeyPool generate nKeypool with
  | (.empty, w) =>
    match if fAllowReuse then w.vchDefaultKey else none with
    | some vchDefaultKey => (some vchDefaultKey, w)
    | none =>
      if w.locked then (none, w)
      else (some (generate w.keys).1, { w with keys := insert (generate w.keys).1 w.keys })
  | (.key nIndex vchPubKey, w) => (some vchPubKey, w.keepKey nIndex)
  | (.thrown _, w) => (none, w)

end CWallet

/-! ### Runs -/

/-- A `CReserveKey` object, apart from its wallet; `none` is the index -1 and the key that is not
valid. -/
structure CReserveKey (PubKey : Type) where
  nIndex : Option Nat
  vchPubKey : Option PubKey

/-- An object that has nothing reserved. -/
def CReserveKey.null : CReserveKey PubKey := ⟨none, none⟩

/-- **A wallet in use**: its `CReserveKey` objects, any number of them, and the keys that were handed
out for good, one caller each. -/
structure Session (PubKey : Type) where
  wallet : CWallet PubKey
  reserveKeys : Nat → CReserveKey PubKey
  handedOut : List PubKey

/-- The calls. -/
inductive Action (PubKey : Type) where
  | topUpKeyPool
  | newKeyPool
  | getReservedKey (id : Nat)
  | keepKey (id : Nat)
  | returnKey (id : Nat)
  | addReserveKey (keypool : PubKey)
  | getKeyFromPool (fAllowReuse : Bool)
  | setLocked (locked : Bool)

namespace Session

variable [DecidableEq PubKey] (generate : Generator PubKey) (nKeypool : Nat) (s : Session PubKey)

/-- The object of a caller is assigned. -/
def setReserveKey (id : Nat) (reserveKey : CReserveKey PubKey) : Session PubKey :=
  { s with reserveKeys := Function.update s.reserveKeys id reserveKey }

def getReservedKey (id : Nat) : Session PubKey :=
  match (s.reserveKeys id).nIndex with
  | some _ => s
  | none =>
    match s.wallet.reserveKeyFromKeyPool generate nKeypool with
    | (.key nIndex vchPubKey, w) =>
      { s with wallet := w }.setReserveKey id ⟨some nIndex, some vchPubKey⟩
    | (.thrown nIndex, w) =>
      { s with wallet := w }.setReserveKey id ⟨some nIndex, (s.reserveKeys id).vchPubKey⟩
    | (.empty, w) =>
      match w.vchDefaultKey with
      | none => { s with wallet := w }
      | some vchDefaultKey =>
        -- "Using default key instead of a new key, top up your keypool!"
        { s with wallet := w, handedOut := s.handedOut ++ [vchDefaultKey] }.setReserveKey id
          ⟨none, some vchDefaultKey⟩

def keepKey (id : Nat) : Session PubKey :=
  match (s.reserveKeys id).nIndex with
  | none => s.setReserveKey id .null
  | some nIndex =>
    { s with
      wallet := s.wallet.keepKey nIndex
      handedOut := s.handedOut ++ (s.reserveKeys id).vchPubKey.toList }.setReserveKey id .null

def returnKey (id : Nat) : Session PubKey :=
  match (s.reserveKeys id).nIndex with
  | none => s.setReserveKey id .null
  | some nIndex => { s with wallet := s.wallet.returnKey nIndex }.setReserveKey id .null

/-- One call. -/
def step : Action PubKey → Session PubKey
  | .topUpKeyPool => { s with wallet := (s.wallet.topUpKeyPool generate nKeypool).2 }
  | .newKeyPool => { s with wallet := (s.wallet.newKeyPool generate nKeypool).2 }
  | .getReservedKey id => s.getReservedKey generate nKeypool id
  | .keepKey id => s.keepKey id
  | .returnKey id => s.returnKey id
  | .addReserveKey keypool =>
    match s.wallet.addReserveKey keypool with
    | none => s
    | some (_, w) => { s with wallet := w }
  | .getKeyFromPool fAllowReuse =>
    let (key, w) := s.wallet.getKeyFromPool generate nKeypool fAllowReuse
    { s with wallet := w, handedOut := s.handedOut ++ key.toList }
  | .setLocked locked => { s with wallet := { s.wallet with locked } }

/-- **An outstanding index**, and the object that has it. -/
def Outstanding (id nIndex : Nat) : Prop := (s.reserveKeys id).nIndex = some nIndex

/-- Who has a key: an object that has it reserved, or a caller before. -/
inductive Caller where
  | reserveKey (id : Nat)
  | before (n : Nat)

/-- A caller has a key. -/
def Has : Caller → PubKey → Prop
  | .reserveKey id, key => (∃ nIndex, s.Outstanding id nIndex) ∧ (s.reserveKeys id).vchPubKey = some key
  | .before n, key => s.handedOut[n]? = some key

end Session

/-- **What is asked**, of all keys but those allowed to be reused. -/
structure KeyPoolIntegrity (reused : PubKey → Prop) (s : Session PubKey) : Prop where
  disjoint : ∀ id nIndex, s.Outstanding id nIndex → nIndex ∉ s.wallet.setKeyPool
  distinct : ∀ id id' nIndex, s.Outstanding id nIndex → s.Outstanding id' nIndex → id = id'
  record : ∀ nIndex, nIndex ∈ s.wallet.setKeyPool ∨ (∃ id, s.Outstanding id nIndex) →
    (s.wallet.pool nIndex).isSome
  once : ∀ caller caller' key, s.Has caller key → s.Has caller' key → ¬ reused key → caller = caller'

/-! ### The records -/

section Records

variable {w : CWallet PubKey} {out : Nat → PubKey → Prop} {used reused : PubKey → Prop}

/-- An index that is in the set or outstanding. -/
def Held (w : CWallet PubKey) (out : Nat → PubKey → Prop) (nIndex : Nat) : Prop :=
  nIndex ∈ w.setKeyPool ∨ ∃ key, out nIndex key

/-- **The invariant of the records**: what is outstanding is not in the set and has its record; every
index held has a record with a key of the key store, a different one each; and no key that was used
for good is in a record. -/
structure RecordsInv (w : CWallet PubKey) (out : Nat → PubKey → Prop) (used reused : PubKey → Prop) :
    Prop where
  disjoint {nIndex key} : out nIndex key → nIndex ∉ w.setKeyPool
  kept {nIndex key} : out nIndex key → w.pool nIndex = some key
  record {nIndex} : Held w out nIndex → ∃ key ∈ w.keys, w.pool nIndex = some key
  injective {nIndex nIndex' key} : Held w out nIndex → Held w out nIndex' →
    w.pool nIndex = some key → w.pool nIndex' = some key → nIndex = nIndex'
  unused {nIndex key} : Held w out nIndex → w.pool nIndex = some key → ¬ reused key → ¬ used key
  known {key} : used key → ¬ reused key → key ∈ w.keys

theorem RecordsInv.congr {out' : Nat → PubKey → Prop} (h : RecordsInv w out used reused)
    (hout : ∀ nIndex key, out' nIndex key ↔ out nIndex key) : RecordsInv w out' used reused := by
  have heq : out' = out := funext fun nIndex => funext fun key => propext (hout nIndex key)
  rwa [heq]

variable {key : PubKey}

/-- **A record with a key** that no other has and that was not used, where nothing is outstanding. -/
theorem RecordsInv.addKey (h : RecordsInv w out used reused) {nIndex : Nat}
    {keys : Finset PubKey} (hkeys : w.keys ⊆ keys) (hmem : key ∈ keys) (hfree : ∀ key, ¬ out nIndex key)
    (hother : ∀ {j}, Held w out j → w.pool j ≠ some key) (hunused : ¬ reused key → ¬ used key) :
    RecordsInv { w with
        keys
        pool := Function.update w.pool nIndex (some key)
        setKeyPool := insert nIndex w.setKeyPool } out used reused := by
  have hpool : ∀ {j}, j ≠ nIndex → Function.update w.pool nIndex (some key) j = w.pool j := fun hj =>
    Function.update_of_ne hj _ _
  have hself : Function.update w.pool nIndex (some key) nIndex = some key := Function.update_self _ _ _
  have hheld : ∀ {j}, Held { w with
      keys
      pool := Function.update w.pool nIndex (some key)
      setKeyPool := insert nIndex w.setKeyPool } out j → j ≠ nIndex → Held w out j := by
    rintro j (hj | hj) hne
    · exact .inl (Finset.mem_of_mem_insert_of_ne hj hne)
    · exact .inr hj
  have hout : ∀ {j key}, out j key → j ≠ nIndex := fun hj heq => hfree _ (heq ▸ hj)
  constructor
  · intro j k hj hin
    exact h.disjoint hj (Finset.mem_of_mem_insert_of_ne hin (hout hj))
  · intro j k hj
    exact (hpool (hout hj)).trans (h.kept hj)
  · intro j hj
    by_cases hne : j = nIndex
    · rw [hne]
      exact ⟨key, hmem, hself⟩
    · obtain ⟨k, hk, hpoolk⟩ := h.record (hheld hj hne)
      exact ⟨k, hkeys hk, (hpool hne).trans hpoolk⟩
  · intro j j' k hj hj' hk hk'
    by_cases hne : j = nIndex
    · by_cases hne' : j' = nIndex
      · exact hne.trans hne'.symm
      · rw [hne] at hk
        cases hself.symm.trans hk
        exact absurd ((hpool hne').symm.trans hk') (hother (hheld hj' hne'))
    · by_cases hne' : j' = nIndex
      · rw [hne'] at hk'
        cases hself.symm.trans hk'
        exact absurd ((hpool hne).symm.trans hk) (hother (hheld hj hne))
      · exact h.injective (hheld hj hne) (hheld hj' hne') ((hpool hne).symm.trans hk)
          ((hpool hne').symm.trans hk')
  · intro j k hj hk hreused
    by_cases hne : j = nIndex
    · rw [hne] at hk
      cases hself.symm.trans hk
      exact hunused hreused
    · exact h.unused (hheld hj hne) ((hpool hne).symm.trans hk) hreused
  · exact fun hused hreused => hkeys (h.known hused hreused)

theorem RecordsInv.clearKeyPool (h : RecordsInv w out used reused) :
    RecordsInv w.clearKeyPool out used reused := by
  have hpool : ∀ {j}, Held w.clearKeyPool out j → w.clearKeyPool.pool j = w.pool j := by
    rintro j (hj | ⟨key, hj⟩)
    · exact absurd hj (Finset.notMem_empty j)
    · exact if_neg (h.disjoint hj)
  have hheld : ∀ {j}, Held w.clearKeyPool out j → Held w out j := by
    rintro j (hj | hj)
    · exact absurd hj (Finset.notMem_empty j)
    · exact .inr hj
  constructor
  · exact fun _ => Finset.notMem_empty _
  · intro j key hj
    exact (if_neg (h.disjoint hj)).trans (h.kept hj)
  · intro j hj
    rw [hpool hj]
    exact h.record (hheld hj)
  · intro j j' key hj hj' hkey hkey'
    rw [hpool hj] at hkey
    rw [hpool hj'] at hkey'
    exact h.injective (hheld hj) (hheld hj') hkey hkey'
  · intro j key hj hkey
    rw [hpool hj] at hkey
    exact h.unused (hheld hj) hkey
  · exact h.known

/-- **An index is reserved.** -/
theorem RecordsInv.reserve (h : RecordsInv w out used reused) {nIndex : Nat}
    (hmem : nIndex ∈ w.setKeyPool) (hkey : w.pool nIndex = some key) :
    RecordsInv { w with setKeyPool := w.setKeyPool.erase nIndex }
      (fun j k => out j k ∨ j = nIndex ∧ k = key) used reused := by
  have hheld : ∀ {j}, Held { w with setKeyPool := w.setKeyPool.erase nIndex }
      (fun j k => out j k ∨ j = nIndex ∧ k = key) j → Held w out j := by
    rintro j (hj | ⟨k, hj | ⟨rfl, -⟩⟩)
    · exact .inl (Finset.mem_of_mem_erase hj)
    · exact .inr ⟨k, hj⟩
    · exact .inl hmem
  constructor
  · rintro j k (hj | ⟨rfl, -⟩) hin
    · exact h.disjoint hj (Finset.mem_of_mem_erase hin)
    · exact Finset.notMem_erase _ _ hin
  · rintro j k (hj | ⟨rfl, rfl⟩)
    · exact h.kept hj
    · exact hkey
  · exact fun hj => h.record (hheld hj)
  · exact fun hj hj' => h.injective (hheld hj) (hheld hj')
  · exact fun hj => h.unused (hheld hj)
  · exact h.known

/-- **A reserved key is kept**: its record is erased, and it was used for good. -/
theorem RecordsInv.keep (h : RecordsInv w out used reused) {nIndex : Nat} (hout : out nIndex key) :
    RecordsInv (w.keepKey nIndex) (fun j k => out j k ∧ j ≠ nIndex) (fun k => used k ∨ k = key) reused := by
  have hheld : ∀ {j}, Held (w.keepKey nIndex) (fun j k => out j k ∧ j ≠ nIndex) j →
      Held w out j ∧ j ≠ nIndex := by
    rintro j (hj | ⟨k, hj, hne⟩)
    · refine ⟨.inl hj, ?_⟩
      rintro rfl
      exact h.disjoint hout hj
    · exact ⟨.inr ⟨k, hj⟩, hne⟩
  have hpool : ∀ {j}, j ≠ nIndex → (w.keepKey nIndex).pool j = w.pool j := fun hj =>
    Function.update_of_ne hj _ _
  have hself : Held w out nIndex := .inr ⟨key, hout⟩
  constructor
  · exact fun hj => h.disjoint hj.1
  · intro j k hj
    rw [hpool hj.2]
    exact h.kept hj.1
  · intro j hj
    obtain ⟨hj, hne⟩ := hheld hj
    rw [hpool hne]
    exact h.record hj
  · intro j j' k hj hj' hk hk'
    obtain ⟨hj, hne⟩ := hheld hj
    obtain ⟨hj', hne'⟩ := hheld hj'
    rw [hpool hne] at hk
    rw [hpool hne'] at hk'
    exact h.injective hj hj' hk hk'
  · intro j k hj hk hreused
    obtain ⟨hj, hne⟩ := hheld hj
    rw [hpool hne] at hk
    rintro (hused | rfl)
    · exact h.unused hj hk hreused hused
    · exact hne (h.injective hj hself hk (h.kept hout))
  · rintro k (hused | rfl) hreused
    · exact h.known hused hreused
    · obtain ⟨k', hmem, hk'⟩ := h.record hself
      rw [h.kept hout] at hk'
      cases hk'
      exact hmem

/-- **A reserved key is returned.** -/
theorem RecordsInv.giveBack (h : RecordsInv w out used reused) {nIndex : Nat} (hout : out nIndex key) :
    RecordsInv (w.returnKey nIndex) (fun j k => out j k ∧ j ≠ nIndex) used reused := by
  have hheld : ∀ {j}, Held (w.returnKey nIndex) (fun j k => out j k ∧ j ≠ nIndex) j →
      Held w out j := by
    rintro j (hj | ⟨k, hj, -⟩)
    · rcases Finset.mem_insert.mp hj with rfl | hj
      · exact .inr ⟨key, hout⟩
      · exact .inl hj
    · exact .inr ⟨k, hj⟩
  constructor
  · rintro j k ⟨hj, hne⟩ hin
    exact h.disjoint hj (Finset.mem_of_mem_insert_of_ne hin hne)
  · exact fun hj => h.kept hj.1
  · exact fun hj => h.record (hheld hj)
  · exact fun hj hj' => h.injective (hheld hj) (hheld hj')
  · exact fun hj => h.unused (hheld hj)
  · exact h.known

theorem RecordsInv.weaken {used' : PubKey → Prop} (h : RecordsInv w out used' reused)
    (hused : ∀ k, used k → used' k) : RecordsInv w out used reused :=
  { h with
    unused := fun hj hk hreused hk' => h.unused hj hk hreused (hused _ hk')
    known := fun hk hreused => h.known (hused _ hk) hreused }

theorem RecordsInv.useReused (h : RecordsInv w out used reused)
    (hreused : reused key) : RecordsInv w out (fun k => used k ∨ k = key) reused := by
  refine { h with unused := ?_, known := ?_ }
  · rintro j k hj hk hnot (hused | rfl)
    · exact h.unused hj hk hnot hused
    · exact hnot hreused
  · rintro k (hused | rfl) hnot
    · exact h.known hused hnot
    · exact absurd hreused hnot

/-- The indices that the records written from the end of the set take, while nothing else is added. -/
def topUpRange (nKeypool : Nat) (w : CWallet PubKey) : Finset Nat :=
  if w.locked then ∅
  else Finset.Ico w.nEnd (w.nEnd + (CWallet.targetSize nKeypool - w.setKeyPool.card))

theorem lt_nEnd {j : Nat} (hj : j ∈ w.setKeyPool) : j < w.nEnd := by
  unfold CWallet.nEnd
  rw [if_neg (Finset.ne_empty_of_mem hj)]
  exact Nat.lt_succ_of_le (Finset.le_sup (f := id) hj)

end Records

section Wallet

variable [DecidableEq PubKey] {generate : Generator PubKey} {nKeypool : Nat} {w : CWallet PubKey}
  {out : Nat → PubKey → Prop} {used reused : PubKey → Prop}

theorem RecordsInv.useNew (h : RecordsInv w out used reused) :
    RecordsInv { w with keys := insert (generate w.keys).1 w.keys } out
      (fun k => used k ∨ k = (generate w.keys).1) reused := by
  refine { h with record := ?_, unused := ?_, known := ?_ }
  · intro j hj
    obtain ⟨k, hk, hpool⟩ := h.record hj
    exact ⟨k, Finset.mem_insert_of_mem hk, hpool⟩
  · rintro j k hj hk hnot (hused | rfl)
    · exact h.unused hj hk hnot hused
    · obtain ⟨k', hk', hpool⟩ := h.record hj
      cases hk.symm.trans hpool
      exact (generate w.keys).2 hk'
  · rintro k (hused | rfl) hnot
    · exact Finset.mem_insert_of_mem (h.known hused hnot)
    · exact Finset.mem_insert_self _ _

/-- **A record with a new key**, where nothing is outstanding. -/
theorem RecordsInv.addNewKey (h : RecordsInv w out used reused) {nIndex : Nat}
    (hfree : ∀ key, ¬ out nIndex key) : RecordsInv (w.addNewKey generate nIndex) out used reused := by
  have hnew := (generate w.keys).2
  refine h.addKey (Finset.subset_insert _ _) (Finset.mem_insert_self _ _) hfree ?_ ?_
  · intro j hj hkey
    obtain ⟨k, hk, hpool⟩ := h.record hj
    cases hkey.symm.trans hpool
    exact hnew hk
  · exact fun hreused hused => hnew (h.known hused hreused)

theorem nEnd_addNewKey : (w.addNewKey generate w.nEnd).nEnd = w.nEnd + 1 := by
  have hsup : (insert w.nEnd w.setKeyPool).sup id = w.nEnd := by
    rw [Finset.sup_insert]
    exact sup_eq_left.mpr (Finset.sup_le fun j hj => (lt_nEnd hj).le)
  have hne : insert w.nEnd w.setKeyPool ≠ ∅ := Finset.insert_ne_empty _ _
  exact (if_neg hne).trans (congrArg (· + 1) hsup)

theorem RecordsInv.topUpLoop (h : RecordsInv w out used reused) (nSize fuel : Nat)
    (hfree : ∀ j ∈ Finset.Ico w.nEnd (w.nEnd + (nSize - w.setKeyPool.card)), ∀ key, ¬ out j key) :
    RecordsInv (CWallet.topUpLoop generate nSize fuel w) out used reused := by
  induction fuel generalizing w with
  | zero => exact h
  | succ fuel ih =>
    unfold CWallet.topUpLoop
    split_ifs with hmore
    · have hfirst : w.nEnd ∈ Finset.Ico w.nEnd (w.nEnd + (nSize - w.setKeyPool.card)) :=
        Finset.mem_Ico.mpr ⟨Nat.le_refl _, by omega⟩
      have hcard : (w.addNewKey generate w.nEnd).setKeyPool.card = w.setKeyPool.card + 1 :=
        Finset.card_insert_of_notMem fun hin => Nat.lt_irrefl _ (lt_nEnd hin)
      refine ih (h.addNewKey (hfree _ hfirst)) fun j hj => hfree j ?_
      rw [nEnd_addNewKey, hcard, Finset.mem_Ico] at hj
      exact Finset.mem_Ico.mpr (by omega)
    · exact h

theorem RecordsInv.topUpKeyPool (h : RecordsInv w out used reused)
    (hfree : ∀ j ∈ topUpRange nKeypool w, ∀ key, ¬ out j key) :
    RecordsInv (w.topUpKeyPool generate nKeypool).2 out used reused := by
  unfold CWallet.topUpKeyPool
  unfold topUpRange at hfree
  cases hlocked : w.locked with
  | true => exact h
  | false =>
    rw [hlocked, if_neg Bool.false_ne_true] at hfree
    exact h.topUpLoop _ _ hfree

theorem RecordsInv.newKeyPool (h : RecordsInv w out used reused)
    (hfree : w.locked = false → ∀ j ∈ Finset.Ico 1 (nKeypool + 1), ∀ key, ¬ out j key) :
    RecordsInv (w.newKeyPool generate nKeypool).2 out used reused := by
  have hfold : ∀ l : List Nat, (∀ i ∈ l, ∀ key, ¬ out (i + 1) key) → ∀ w,
      RecordsInv w out used reused →
        RecordsInv (l.foldl (fun w i => w.addNewKey generate (i + 1)) w) out used reused := by
    intro l
    induction l with
    | nil => exact fun _ _ h => h
    | cons i l ih =>
      intro hl w h
      exact ih (fun i' hi' => hl i' (List.mem_cons_of_mem i hi')) _
        (h.addNewKey (hl i List.mem_cons_self))
  unfold CWallet.newKeyPool
  cases hlocked : w.locked with
  | true => exact h.clearKeyPool
  | false =>
    refine hfold _ (fun i hi => hfree hlocked _ ?_) _ h.clearKeyPool
    rw [List.mem_range] at hi
    exact Finset.mem_Ico.mpr (by omega)

variable (generate) in
/-- **What `ReserveKeyFromKeyPool` does**: nothing was left, or an index of the set is outstanding. -/
theorem RecordsInv.reserveKeyFromKeyPool (h : RecordsInv w out used reused)
    (hfree : ∀ j ∈ topUpRange nKeypool w, ∀ key, ¬ out j key) :
    (∃ w', w.reserveKeyFromKeyPool generate nKeypool = (.empty, w') ∧ RecordsInv w' out used reused) ∨
    ∃ nIndex key w', w.reserveKeyFromKeyPool generate nKeypool = (.key nIndex key, w') ∧
      (∀ k, ¬ out nIndex k) ∧ RecordsInv w' (fun j k => out j k ∨ j = nIndex ∧ k = key) used reused := by
  have htop : RecordsInv (if w.locked then w else (w.topUpKeyPool generate nKeypool).2) out used
      reused := by
    split_ifs
    · exact h
    · exact h.topUpKeyPool hfree
  unfold CWallet.reserveKeyFromKeyPool
  dsimp only
  generalize (if w.locked then w else (w.topUpKeyPool generate nKeypool).2) = w' at htop
  split_ifs with hsome
  · have hmem := Finset.min'_mem w'.setKeyPool hsome
    obtain ⟨key, hkey, hpool⟩ := htop.record (.inl hmem)
    rw [hpool]
    dsimp only
    rw [if_pos hkey]
    exact .inr ⟨_, key, _, rfl, fun k hk => htop.disjoint hk hmem, htop.reserve hmem hpool⟩
  · exact .inl ⟨w', rfl, htop⟩

end Wallet

/-! ### The steps -/

section Steps

variable {reused : PubKey → Prop} {s : Session PubKey}

def OutstandingKey (s : Session PubKey) (nIndex : Nat) (key : PubKey) : Prop :=
  ∃ id, s.Outstanding id nIndex ∧ (s.reserveKeys id).vchPubKey = some key

/-- **The invariant**: that of the records, every outstanding index is one object's and has a key, and no
key was handed out for good twice. -/
structure SessionInv (reused : PubKey → Prop) (s : Session PubKey) : Prop where
  records : RecordsInv s.wallet (OutstandingKey s) (· ∈ s.handedOut) reused
  keyed {id nIndex} : s.Outstanding id nIndex → ∃ key, (s.reserveKeys id).vchPubKey = some key
  distinct {id id' nIndex} : s.Outstanding id nIndex → s.Outstanding id' nIndex → id = id'
  usedOnce {n n' : Nat} {key : PubKey} : s.handedOut[n]? = some key → s.handedOut[n']? = some key →
    ¬ reused key → n = n'
  default {key} : s.wallet.vchDefaultKey = some key → reused key

theorem SessionInv.integrity (h : SessionInv reused s) : KeyPoolIntegrity reused s := by
  have hkey : ∀ {id nIndex}, s.Outstanding id nIndex → ∃ key,
      (s.reserveKeys id).vchPubKey = some key ∧ OutstandingKey s nIndex key := fun hid => by
    obtain ⟨key, hkey⟩ := h.keyed hid
    exact ⟨key, hkey, _, hid, hkey⟩
  constructor
  · intro id nIndex hid
    obtain ⟨key, -, hout⟩ := hkey hid
    exact h.records.disjoint hout
  · exact fun id id' nIndex hid hid' => h.distinct hid hid'
  · rintro nIndex (hmem | ⟨id, hid⟩)
    · obtain ⟨key, -, hpool⟩ := h.records.record (.inl hmem)
      rw [hpool]
      rfl
    · obtain ⟨key, -, hout⟩ := hkey hid
      rw [h.records.kept hout]
      rfl
  · have hnever : ∀ id n key, s.Has (.reserveKey id) key → s.Has (.before n) key →
        ¬ reused key → False := by
      rintro id n key ⟨⟨nIndex, hid⟩, hkey⟩ hn hreused
      have hout : OutstandingKey s nIndex key := ⟨id, hid, hkey⟩
      exact h.records.unused (.inr ⟨key, hout⟩) (h.records.kept hout) hreused
        (List.mem_of_getElem? hn)
    rintro (id | n) (id' | n') key hc hc' hreused
    · obtain ⟨⟨nIndex, hid⟩, hkey⟩ := hc
      obtain ⟨⟨nIndex', hid'⟩, hkey'⟩ := hc'
      have hout : OutstandingKey s nIndex key := ⟨id, hid, hkey⟩
      have hout' : OutstandingKey s nIndex' key := ⟨id', hid', hkey'⟩
      have hsame := h.records.injective (.inr ⟨key, hout⟩) (.inr ⟨key, hout'⟩) (h.records.kept hout)
        (h.records.kept hout')
      rw [h.distinct hid (hsame ▸ hid')]
    · exact (hnever id n' key hc hc' hreused).elim
    · exact (hnever id' n key hc' hc hreused).elim
    · rw [h.usedOnce hc hc' hreused]

/-- Only the wallet changes. -/
theorem SessionInv.setWallet (h : SessionInv reused s) {w : CWallet PubKey}
    (hrecords : RecordsInv w (OutstandingKey s) (· ∈ s.handedOut) reused)
    (hdefault : w.vchDefaultKey = s.wallet.vchDefaultKey) : SessionInv reused { s with wallet := w } where
  records := hrecords
  keyed := h.keyed
  distinct := h.distinct
  usedOnce := h.usedOnce
  default hkey := h.default (hdefault ▸ hkey)

theorem SessionInv.handOut (h : SessionInv reused s) {w : CWallet PubKey} {key : PubKey}
    (hrecords : RecordsInv w (OutstandingKey s) (fun k => k ∈ s.handedOut ∨ k = key) reused)
    (hdefault : w.vchDefaultKey = s.wallet.vchDefaultKey) (hnew : ¬ reused key → key ∉ s.handedOut) :
    SessionInv reused { s with wallet := w, handedOut := s.handedOut ++ [key] } where
  records := by
    have heq : (fun k => k ∈ s.handedOut ++ [key]) = fun k => k ∈ s.handedOut ∨ k = key :=
      funext fun k => propext (by rw [List.mem_append, List.mem_singleton])
    rw [← heq] at hrecords
    exact hrecords
  keyed := h.keyed
  distinct := h.distinct
  usedOnce := by
    have hcases : ∀ {n k}, (s.handedOut ++ [key])[n]? = some k →
        s.handedOut[n]? = some k ∨ n = s.handedOut.length ∧ k = key := by
      intro n k hn
      rcases Nat.lt_trichotomy n s.handedOut.length with hlt | rfl | hgt
      · exact .inl (by rwa [List.getElem?_append_left hlt] at hn)
      · rw [List.getElem?_concat_length] at hn
        cases hn
        exact .inr ⟨rfl, rfl⟩
      · rw [List.getElem?_eq_none (by rw [List.length_append, List.length_singleton]; omega)] at hn
        cases hn
    intro n n' k hn hn' hreused
    rcases hcases hn with hold | ⟨rfl, rfl⟩
    · rcases hcases hn' with hold' | ⟨rfl, rfl⟩
      · exact h.usedOnce hold hold' hreused
      · exact absurd (List.mem_of_getElem? hold) (hnew hreused)
    · rcases hcases hn' with hold' | ⟨rfl, -⟩
      · exact absurd (List.mem_of_getElem? hold') (hnew hreused)
      · rfl
  default hkey := h.default (hdefault ▸ hkey)

section SetReserveKey

variable {id : Nat}

theorem reserveKeys_setReserveKey (reserveKey : CReserveKey PubKey) (id' : Nat) :
    (s.setReserveKey id reserveKey).reserveKeys id' = if id' = id then reserveKey else s.reserveKeys id' := by
  rw [Session.setReserveKey]
  exact Function.update_apply _ _ _ _

theorem outstanding_setReserveKey {reserveKey : CReserveKey PubKey} {id' nIndex : Nat} :
    (s.setReserveKey id reserveKey).Outstanding id' nIndex ↔
      (if id' = id then reserveKey.nIndex = some nIndex else s.Outstanding id' nIndex) := by
  unfold Session.Outstanding
  rw [reserveKeys_setReserveKey]
  split_ifs <;> rfl

theorem outstandingKey_reserve (hnone : (s.reserveKeys id).nIndex = none) {nIndex : Nat}
    {key : PubKey} (j : Nat) (k : PubKey) : OutstandingKey (s.setReserveKey id ⟨some nIndex, some key⟩) j k ↔
      OutstandingKey s j k ∨ j = nIndex ∧ k = key := by
  constructor
  · rintro ⟨id', hid', hk⟩
    rw [outstanding_setReserveKey] at hid'
    rw [reserveKeys_setReserveKey] at hk
    split_ifs at hid' hk with heq
    · cases hid'
      cases hk
      exact .inr ⟨rfl, rfl⟩
    · exact .inl ⟨id', hid', hk⟩
  · rintro (⟨id', hid', hk⟩ | ⟨rfl, rfl⟩)
    · have hne : id' ≠ id := by
        rintro rfl
        cases hnone.symm.trans hid'
      refine ⟨id', ?_, ?_⟩
      · rwa [outstanding_setReserveKey, if_neg hne]
      · rwa [reserveKeys_setReserveKey, if_neg hne]
    · refine ⟨id, ?_, ?_⟩
      · rw [outstanding_setReserveKey, if_pos rfl]
      · rw [reserveKeys_setReserveKey, if_pos rfl]

theorem outstandingKey_release (h : SessionInv reused s) {nIndex : Nat}
    (hid : s.Outstanding id nIndex) {vchPubKey : Option PubKey} (j : Nat) (k : PubKey) :
    OutstandingKey (s.setReserveKey id ⟨none, vchPubKey⟩) j k ↔ OutstandingKey s j k ∧ j ≠ nIndex := by
  constructor
  · rintro ⟨id', hid', hk⟩
    rw [outstanding_setReserveKey] at hid'
    rw [reserveKeys_setReserveKey] at hk
    split_ifs at hid' hk with heq
    refine ⟨⟨id', hid', hk⟩, ?_⟩
    rintro rfl
    exact heq (h.distinct hid' hid)
  · rintro ⟨⟨id', hid', hk⟩, hne⟩
    have hother : id' ≠ id := by
      rintro rfl
      exact hne (Option.some.inj (hid'.symm.trans hid))
    refine ⟨id', ?_, ?_⟩
    · rwa [outstanding_setReserveKey, if_neg hother]
    · rwa [reserveKeys_setReserveKey, if_neg hother]

theorem outstandingKey_none (hnone : (s.reserveKeys id).nIndex = none) {vchPubKey : Option PubKey}
    (j : Nat) (k : PubKey) :
    OutstandingKey (s.setReserveKey id ⟨none, vchPubKey⟩) j k ↔ OutstandingKey s j k := by
  constructor
  · rintro ⟨id', hid', hk⟩
    rw [outstanding_setReserveKey] at hid'
    rw [reserveKeys_setReserveKey] at hk
    split_ifs at hid' hk
    exact ⟨id', hid', hk⟩
  · rintro ⟨id', hid', hk⟩
    have hne : id' ≠ id := by
      rintro rfl
      cases hnone.symm.trans hid'
    refine ⟨id', ?_, ?_⟩
    · rwa [outstanding_setReserveKey, if_neg hne]
    · rwa [reserveKeys_setReserveKey, if_neg hne]

end SetReserveKey

theorem SessionInv.assign (h : SessionInv reused s) {w : CWallet PubKey} {id : Nat}
    {reserveKey : CReserveKey PubKey}
    (hrecords : RecordsInv w (OutstandingKey (s.setReserveKey id reserveKey)) (· ∈ s.handedOut) reused)
    (hkeyed : ∀ nIndex, reserveKey.nIndex = some nIndex →
      (∃ key, reserveKey.vchPubKey = some key) ∧ ∀ id', ¬ s.Outstanding id' nIndex)
    (hdefault : w.vchDefaultKey = s.wallet.vchDefaultKey) :
    SessionInv reused ({ s with wallet := w }.setReserveKey id reserveKey) where
  records := hrecords
  keyed {id' nIndex} hid' := by
    have hcases := (outstanding_setReserveKey (s := s)).mp hid'
    change ∃ key, ((s.setReserveKey id reserveKey).reserveKeys id').vchPubKey = some key
    rw [reserveKeys_setReserveKey]
    split_ifs at hcases ⊢ with heq
    · exact (hkeyed nIndex hcases).1
    · exact h.keyed hcases
  distinct {id₁ id₂ nIndex} hid₁ hid₂ := by
    have hcases₁ := (outstanding_setReserveKey (s := s)).mp hid₁
    have hcases₂ := (outstanding_setReserveKey (s := s)).mp hid₂
    split_ifs at hcases₁ with heq₁
    · split_ifs at hcases₂ with heq₂
      · exact heq₁.trans heq₂.symm
      · exact absurd hcases₂ ((hkeyed nIndex hcases₁).2 id₂)
    · split_ifs at hcases₂ with heq₂
      · exact absurd hcases₁ ((hkeyed nIndex hcases₂).2 id₁)
      · exact h.distinct hcases₁ hcases₂
  usedOnce := h.usedOnce
  default hkey := h.default (hdefault ▸ hkey)

theorem not_outstandingKey {j : Nat} (hfree : ∀ id, ¬ s.Outstanding id j) (key : PubKey) :
    ¬ OutstandingKey s j key := fun ⟨id, hid, _⟩ => hfree id hid

theorem SessionInv.keepKey (h : SessionInv reused s) (id : Nat) : SessionInv reused (s.keepKey id) := by
  unfold Session.keepKey
  cases hid : (s.reserveKeys id).nIndex with
  | none =>
    exact h.assign (h.records.congr (outstandingKey_none hid)) (fun _ hsome => nomatch hsome) rfl
  | some nIndex =>
    obtain ⟨key, hkey⟩ := h.keyed hid
    have hout : OutstandingKey s nIndex key := ⟨id, hid, hkey⟩
    have hkept : RecordsInv (s.wallet.keepKey nIndex) (OutstandingKey (s.setReserveKey id .null))
        (fun k => k ∈ s.handedOut ∨ k = key) reused :=
      (h.records.keep hout).congr (outstandingKey_release h hid)
    have hassigned : SessionInv reused
        ({ s with wallet := s.wallet.keepKey nIndex }.setReserveKey id .null) :=
      h.assign (hkept.weaken fun _ hused => .inl hused) (fun _ hsome => nomatch hsome) rfl
    rw [hkey]
    refine hassigned.handOut hkept rfl fun hreused hused => ?_
    exact h.records.unused (.inr ⟨key, hout⟩) (h.records.kept hout) hreused hused

theorem SessionInv.returnKey (h : SessionInv reused s) (id : Nat) : SessionInv reused (s.returnKey id) := by
  unfold Session.returnKey
  cases hid : (s.reserveKeys id).nIndex with
  | none =>
    exact h.assign (h.records.congr (outstandingKey_none hid)) (fun _ hsome => nomatch hsome) rfl
  | some nIndex =>
    obtain ⟨key, hkey⟩ := h.keyed hid
    have hout : OutstandingKey s nIndex key := ⟨id, hid, hkey⟩
    exact h.assign ((h.records.giveBack hout).congr (outstandingKey_release h hid))
      (fun _ hsome => nomatch hsome) rfl

end Steps

/-! ### Clean steps -/

section Clean

variable [DecidableEq PubKey] {generate : Generator PubKey} {nKeypool : Nat} {reused : PubKey → Prop}
  {s : Session PubKey}

/-- The indices at which a call writes records. -/
def written (nKeypool : Nat) (s : Session PubKey) : Action PubKey → Finset Nat
  | .newKeyPool => if s.wallet.locked then ∅ else Finset.Ico 1 (nKeypool + 1)
  | .topUpKeyPool | .getKeyFromPool _ => topUpRange nKeypool s.wallet
  | .getReservedKey id =>
    if (s.reserveKeys id).nIndex = none then topUpRange nKeypool s.wallet else ∅
  | .addReserveKey _ => {1 + s.wallet.setKeyPool.sup id}
  | .keepKey _ | .returnKey _ | .setLocked _ => ∅

/-- What `AddReserveKey` is called with: a key of the wallet that is in no record and that nobody has, on
a set that is not empty. -/
def Addable (s : Session PubKey) : Action PubKey → Prop
  | .addReserveKey keypool =>
    s.wallet.setKeyPool ≠ ∅ ∧ keypool ∈ s.wallet.keys ∧ keypool ∉ s.handedOut ∧
      ∀ nIndex, s.wallet.pool nIndex ≠ some keypool
  | _ => True

/-- **A clean step** overwrites no record that is outstanding. -/
def Clean (nKeypool : Nat) (s : Session PubKey) (a : Action PubKey) : Prop :=
  (∀ nIndex ∈ written nKeypool s a, ∀ id, ¬ s.Outstanding id nIndex) ∧ Addable s a

theorem vchDefaultKey_topUpLoop (nSize fuel : Nat) (w : CWallet PubKey) :
    (CWallet.topUpLoop generate nSize fuel w).vchDefaultKey = w.vchDefaultKey := by
  induction fuel generalizing w with
  | zero => rfl
  | succ fuel ih =>
    unfold CWallet.topUpLoop
    split_ifs
    · exact ih _
    · rfl

theorem vchDefaultKey_topUpKeyPool (w : CWallet PubKey) :
    (w.topUpKeyPool generate nKeypool).2.vchDefaultKey = w.vchDefaultKey := by
  unfold CWallet.topUpKeyPool
  split_ifs
  · rfl
  · exact vchDefaultKey_topUpLoop _ _ _

theorem vchDefaultKey_newKeyPool (w : CWallet PubKey) :
    (w.newKeyPool generate nKeypool).2.vchDefaultKey = w.vchDefaultKey := by
  have hfold : ∀ (l : List Nat) (w : CWallet PubKey),
      (l.foldl (fun w i => w.addNewKey generate (i + 1)) w).vchDefaultKey = w.vchDefaultKey := by
    intro l
    induction l with
    | nil => exact fun _ => rfl
    | cons i l ih => exact fun w => ih _
  unfold CWallet.newKeyPool
  split_ifs
  · rfl
  · exact hfold _ _

theorem vchDefaultKey_reserveKeyFromKeyPool (w : CWallet PubKey) :
    (w.reserveKeyFromKeyPool generate nKeypool).2.vchDefaultKey = w.vchDefaultKey := by
  have htop : (if w.locked then w else (w.topUpKeyPool generate nKeypool).2).vchDefaultKey =
      w.vchDefaultKey := by
    split_ifs
    · rfl
    · exact vchDefaultKey_topUpKeyPool w
  unfold CWallet.reserveKeyFromKeyPool
  dsimp only
  generalize (if w.locked then w else (w.topUpKeyPool generate nKeypool).2) = w' at htop ⊢
  split_ifs
  · split
    · exact htop
    · split_ifs
      · exact htop
      · exact htop
  · exact htop

theorem SessionInv.getReservedKey (h : SessionInv reused s) {id : Nat}
    (hfree : ∀ j ∈ written nKeypool s (.getReservedKey id), ∀ id, ¬ s.Outstanding id j) :
    SessionInv reused (s.getReservedKey generate nKeypool id) := by
  unfold Session.getReservedKey
  cases hnone : (s.reserveKeys id).nIndex with
  | some nIndex => exact h
  | none =>
    have hdefault : (s.wallet.reserveKeyFromKeyPool generate nKeypool).2.vchDefaultKey =
      s.wallet.vchDefaultKey := vchDefaultKey_reserveKeyFromKeyPool _
    have hrange : ∀ j ∈ topUpRange nKeypool s.wallet, ∀ key, ¬ OutstandingKey s j key :=
      fun j hj => not_outstandingKey (hfree j (by rwa [written, if_pos hnone]))
    rcases h.records.reserveKeyFromKeyPool generate hrange with
      ⟨w, heq, hrecords⟩ | ⟨nIndex, key, w, heq, hnew, hrecords⟩
    · rw [heq] at hdefault ⊢
      dsimp only at hdefault ⊢
      cases hkey : w.vchDefaultKey with
      | none => exact h.setWallet hrecords hdefault
      | some vchDefaultKey =>
        have hreused := h.default (hdefault.symm.trans hkey)
        have hassigned : SessionInv reused
            ({ s with wallet := w }.setReserveKey id ⟨none, some vchDefaultKey⟩) :=
          h.assign (hrecords.congr (outstandingKey_none hnone)) (fun _ hsome => nomatch hsome)
            hdefault
        exact hassigned.handOut (hassigned.records.useReused hreused) rfl
          (absurd hreused)
    · rw [heq] at hdefault ⊢
      refine h.assign (hrecords.congr (outstandingKey_reserve hnone)) ?_ hdefault
      rintro j hj
      cases hj
      refine ⟨⟨key, rfl⟩, fun id' hid' => ?_⟩
      obtain ⟨k, hk⟩ := h.keyed hid'
      exact hnew k ⟨id', hid', hk⟩

theorem SessionInv.getKeyFromPool (h : SessionInv reused s) {fAllowReuse : Bool}
    (hfree : ∀ j ∈ topUpRange nKeypool s.wallet, ∀ id, ¬ s.Outstanding id j) :
    SessionInv reused (s.step generate nKeypool (.getKeyFromPool fAllowReuse)) := by
  have hdefault : (s.wallet.reserveKeyFromKeyPool generate nKeypool).2.vchDefaultKey =
    s.wallet.vchDefaultKey := vchDefaultKey_reserveKeyFromKeyPool _
  unfold Session.step CWallet.getKeyFromPool
  rcases h.records.reserveKeyFromKeyPool generate
    (fun j hj => not_outstandingKey (hfree j hj)) with
    ⟨w, heq, hrecords⟩ | ⟨nIndex, key, w, heq, hnew, hrecords⟩
  · rw [heq] at hdefault ⊢
    dsimp only at hdefault ⊢
    cases hkey : if fAllowReuse then w.vchDefaultKey else none with
    | some vchDefaultKey =>
      have hreused : reused vchDefaultKey := by
        split_ifs at hkey
        exact h.default (hdefault.symm.trans hkey)
      exact h.handOut (hrecords.useReused hreused) hdefault (absurd hreused)
    | none =>
      dsimp only
      split_ifs
      · rw [Option.toList_none, List.append_nil]
        exact h.setWallet hrecords hdefault
      · refine h.handOut hrecords.useNew hdefault fun hreused hused => ?_
        exact (generate w.keys).2 (hrecords.known hused hreused)
  · rw [heq] at hdefault ⊢
    dsimp only at hdefault ⊢
    have hout : OutstandingKey s nIndex key ∨ nIndex = nIndex ∧ key = key := .inr ⟨rfl, rfl⟩
    have hkept : RecordsInv (w.keepKey nIndex) (OutstandingKey s)
        (fun k => k ∈ s.handedOut ∨ k = key) reused := by
      refine (hrecords.keep hout).congr fun j k => ⟨fun hj => ⟨.inl hj, ?_⟩, ?_⟩
      · rintro rfl
        exact hnew k hj
      · rintro ⟨hj | ⟨rfl, -⟩, hne⟩
        · exact hj
        · exact absurd rfl hne
    refine h.handOut hkept hdefault fun hreused hused => ?_
    exact hrecords.unused (.inr ⟨key, hout⟩) (hrecords.kept hout) hreused hused

theorem SessionInv.addReserveKey (h : SessionInv reused s) {keypool : PubKey}
    (hclean : Clean nKeypool s (.addReserveKey keypool)) :
    SessionInv reused (s.step generate nKeypool (.addReserveKey keypool)) := by
  obtain ⟨hfree, hne, hmem, hunused, hpool⟩ := hclean
  unfold Session.step CWallet.addReserveKey
  dsimp only
  rw [if_neg hne]
  refine h.setWallet ?_ rfl
  exact h.records.addKey (Finset.Subset.refl _) hmem
    (not_outstandingKey (hfree _ (Finset.mem_singleton_self _))) (fun _ => hpool _)
    (fun _ => hunused)

/-- **A clean step keeps the invariant.** -/
theorem SessionInv.step (h : SessionInv reused s) {a : Action PubKey}
    (hclean : Clean nKeypool s a) : SessionInv reused (s.step generate nKeypool a) := by
  obtain ⟨hfree, -⟩ := id hclean
  cases a with
  | topUpKeyPool =>
    exact h.setWallet (h.records.topUpKeyPool fun j hj => not_outstandingKey (hfree j hj))
      (vchDefaultKey_topUpKeyPool _)
  | newKeyPool =>
    refine h.setWallet (h.records.newKeyPool fun hunlocked j hj => ?_)
      (vchDefaultKey_newKeyPool _)
    refine not_outstandingKey (hfree j ?_)
    rw [written, hunlocked]
    exact hj
  | getReservedKey id => exact h.getReservedKey hfree
  | keepKey id => exact h.keepKey id
  | returnKey id => exact h.returnKey id
  | addReserveKey keypool => exact h.addReserveKey hclean
  | getKeyFromPool fAllowReuse => exact h.getKeyFromPool hfree
  | setLocked locked =>
    exact h.setWallet { h.records with } rfl

end Clean

/-! ### Runs of clean steps -/

/-- A wallet that was just loaded: nothing is reserved, nothing was handed out, and the indices of the
set have records with keys of the key store, a different one each. -/
structure Loaded (s : Session PubKey) : Prop where
  none_reserved (id : Nat) : s.reserveKeys id = .null
  none_handedOut : s.handedOut = []
  record {nIndex} : nIndex ∈ s.wallet.setKeyPool →
    ∃ key ∈ s.wallet.keys, s.wallet.pool nIndex = some key
  injective {nIndex nIndex' key} : nIndex ∈ s.wallet.setKeyPool → nIndex' ∈ s.wallet.setKeyPool →
    s.wallet.pool nIndex = some key → s.wallet.pool nIndex' = some key → nIndex = nIndex'

theorem Loaded.inv {s : Session PubKey} (h : Loaded s) : SessionInv (fun key => s.wallet.vchDefaultKey = some key) s := by
  have hnever : ∀ {id nIndex}, ¬ s.Outstanding id nIndex := by
    intro id nIndex hid
    unfold Session.Outstanding at hid
    rw [h.none_reserved] at hid
    cases hid
  have hnone : ∀ {nIndex key}, ¬ OutstandingKey s nIndex key := fun ⟨_, hid, _⟩ => hnever hid
  have hheld : ∀ {nIndex}, Held s.wallet (OutstandingKey s) nIndex → nIndex ∈ s.wallet.setKeyPool :=
    fun hj => hj.resolve_right fun ⟨_, hout⟩ => hnone hout
  have hunused : ∀ {key}, key ∉ s.handedOut := by
    rw [h.none_handedOut]
    exact List.not_mem_nil
  exact
    { records :=
        { disjoint := fun hout => absurd hout hnone
          kept := fun hout => absurd hout hnone
          record := fun hj => h.record (hheld hj)
          injective := fun hj hj' => h.injective (hheld hj) (hheld hj')
          unused := fun _ _ _ => hunused
          known := fun hused => absurd hused hunused }
      keyed := fun hid => absurd hid hnever
      distinct := fun hid => absurd hid hnever
      usedOnce := fun hn => absurd (List.mem_of_getElem? hn) hunused
      default := id }

section Run

variable [DecidableEq PubKey] {generate : Generator PubKey} {nKeypool : Nat} {s₀ s : Session PubKey}

/-- **Runs of clean steps**, in any order. -/
inductive CleanRun (generate : Generator PubKey) (nKeypool : Nat) (s₀ : Session PubKey) :
    Session PubKey → Prop where
  | refl : CleanRun generate nKeypool s₀ s₀
  | step {s : Session PubKey} (a : Action PubKey) (run : CleanRun generate nKeypool s₀ s)
      (clean : Clean nKeypool s a) : CleanRun generate nKeypool s₀ (s.step generate nKeypool a)

theorem CleanRun.inv (h : CleanRun generate nKeypool s₀ s) (hloaded : Loaded s₀) :
    SessionInv (fun key => s₀.wallet.vchDefaultKey = some key) s := by
  induction h with
  | refl => exact hloaded.inv
  | step a _ hclean ih => exact ih.step hclean

/-- **The integrity of the key pool**: a run that overwrites no outstanding record keeps the indices
apart, keeps the records, and hands no key out twice but the default key. -/
theorem keyPoolIntegrity_of_run (hloaded : Loaded s₀) (h : CleanRun generate nKeypool s₀ s) :
    KeyPoolIntegrity (fun key => s₀.wallet.vchDefaultKey = some key) s :=
  (h.inv hloaded).integrity

end Run

namespace Sample

/-- A key greater than all others. -/
def generate : Generator Nat := fun keys =>
  ⟨keys.sup id + 1, fun hin => Nat.not_succ_le_self _ (Finset.le_sup (f := id) hin)⟩

/-- A locked wallet with a default key, and the pool given. -/
def session (setKeyPool : Finset Nat) (pool : Nat → Option Nat) : Session Nat :=
  { wallet :=
      { keys := {1, 2}, setKeyPool, pool, locked := true, vchDefaultKey := some 1 }
    reserveKeys := fun _ => .null
    handedOut := [] }

theorem loaded_empty : Loaded (session ∅ fun _ => none) :=
  ⟨fun _ => rfl, rfl, fun hin => absurd hin (Finset.notMem_empty _),
    fun hin => absurd hin (Finset.notMem_empty _)⟩

end Sample

open Sample in
/-- A key of a new pool is reserved and kept. -/
theorem keyPoolIntegrity_of_run_sample :
    KeyPoolIntegrity (fun key => some 1 = some key)
      ([.setLocked false, .getReservedKey 0, .keepKey 0].foldl
        (Session.step generate 1) (session ∅ fun _ => none)) := by
  refine @keyPoolIntegrity_of_run Nat _ generate 1 _ _ loaded_empty ?_
  refine .step (.keepKey 0) (.step (.getReservedKey 0) (.step (.setLocked false) .refl ?_) ?_) ?_
  · exact ⟨fun _ hin => absurd hin (Finset.notMem_empty _), trivial⟩
  · refine ⟨fun _ _ _ hid => ?_, trivial⟩
    cases hid
  · exact ⟨fun _ hin => absurd hin (Finset.notMem_empty _), trivial⟩

open Sample in
/-- **The integrity fails**: a locked wallet without a pool hands its default key to two callers; and
where all is reserved, the next record is written at the first index, which is outstanding. -/
theorem not_forall_keyPoolIntegrity :
    (¬ ∀ (generate : Generator Nat) (nKeypool : Nat) (s : Session Nat) (actions : List (Action Nat)),
      Loaded s → KeyPoolIntegrity (fun _ => False)
        (actions.foldl (Session.step generate nKeypool) s)) ∧
    ¬ ∀ (generate : Generator Nat) (nKeypool : Nat) (s : Session Nat) (actions : List (Action Nat)),
      Loaded s → KeyPoolIntegrity (fun key => s.wallet.vchDefaultKey = some key)
        (actions.foldl (Session.step generate nKeypool) s) := by
  constructor
  · intro hall
    have honce := (hall generate 0 _ [.getKeyFromPool true, .getKeyFromPool true] loaded_empty).once
      (.before 0) (.before 1) 1 rfl rfl not_false
    cases honce
  · intro hall
    have hloaded : Loaded (session {1} fun _ => some 2) :=
      ⟨fun _ => rfl, rfl, fun _ => ⟨2, by decide, rfl⟩, fun hin hin' _ _ =>
        (Finset.mem_singleton.mp hin).trans (Finset.mem_singleton.mp hin').symm⟩
    have hdisjoint := (hall generate 0 _ [.getReservedKey 0, .setLocked false, .topUpKeyPool]
      hloaded).disjoint 0 1 rfl
    exact hdisjoint (by decide)

end KeyPool

end Manna
