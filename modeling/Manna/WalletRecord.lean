import Mathlib.Algebra.Order.BigOperators.Group.List
import Mathlib.Data.Finmap
import Manna.Alert
import Manna.BlockCodec
import Manna.Lib.Decimal
import Manna.Wallet

/-!
The records of a wallet file (`wallet.h`: the serialization of `CWalletTx` and `CAccountingEntry`).

Fields of newer versions have no place of their own in a record: they are kept in `mapValue` under reserved
keys, or behind a zero byte in the comment. Both passes, for the size and for the bytes, put them there and
take them out again.

* `CWalletTx.unchanged`, `CAccountingEntry.unchanged`: the record in memory is as before;
* `CWalletTx.reads`, `CAccountingEntry.reads`: what was written is read back;
* `walletRecord_codec`: both, and the sizes.
-/

namespace Manna

open Codec Decimal

namespace WalletRecord

open Alerts (bytesOf writeString readString reads_string reads_signed)

/-- `mapValue_t`. -/
abbrev MapValue := Finmap fun _ : Valtype => Valtype

/-- The items of a map in the order of their keys. -/
def items (m : MapValue) : List (Valtype × Valtype) :=
  m.keys.sort.map fun key => (key, (m.lookup key).getD [])

def writePair (item : Valtype × Valtype) : List UInt8 := writeString item.1 ++ writeString item.2

def readPair : Reader (Valtype × Valtype) := do
  let first ← readString
  let second ← readString
  return (first, second)

def writeMap (m : MapValue) : List UInt8 := writeVector writePair (items m)

/-- `insert` of a map: an item whose key is there is left out. -/
def insertItem (m : MapValue) (item : Valtype × Valtype) : MapValue :=
  if item.1 ∈ m then m else m.insert item.1 item.2

def readMap : Reader MapValue := do
  let v ← readVector readPair
  return v.foldl insertItem ∅

/-! ### GetSerializeSize -/

def getSerializeSizePair (item : Valtype × Valtype) : Nat :=
  (getSerializeSizeBytes item.1 + getSerializeSizeBytes item.2) % uintMod

def getSerializeSizeMap (m : MapValue) : Nat := getSerializeSizeVector getSerializeSizePair (items m)

def INT64_MIN : Int := -2 ^ 63
def INT64_MAX : Int := 2 ^ 63 - 1

def i64tostr (n : Int) : Valtype := printInt n

/-- `atoi64`: `strtoll` to the base ten. A zero byte ends the digits as any other that is no digit. -/
def atoi64 (str : Valtype) : Int := parseInt INT64_MIN INT64_MAX str

def readOrderPos (mapValue : MapValue) : Int :=
  match mapValue.lookup (bytesOf "n") with
  | none => -1
  | some str => atoi64 str

def writeOrderPos (nOrderPos : Int) (mapValue : MapValue) : MapValue :=
  if nOrderPos = -1 then mapValue else mapValue.insert (bytesOf "n") (i64tostr nOrderPos)

end WalletRecord

/-! ### CMerkleTx -/

namespace Wallet.CMerkleTx

def serialize (mtx : CMerkleTx) : List UInt8 :=
  mtx.toCTransaction.serialize ++ (littleEndian 32 mtx.hashBlock ++
    (writeVector (littleEndian 32) mtx.vMerkleBranch ++ littleEndianSigned 4 mtx.nIndex))

def getSerializeSize (mtx : CMerkleTx) : Nat :=
  sumSizes 0 [mtx.toCTransaction.getSerializeSize, 32,
    getSerializeSizeVector (fun _ => 32) mtx.vMerkleBranch, 4]

def unserialize (chunks : Chunks) : Reader CMerkleTx := do
  let tx ← CTransaction.unserialize chunks
  let hashBlock ← readLittleEndian 32
  let vMerkleBranch ← readVector (readLittleEndian 32)
  let nIndex ← readLittleEndianSigned 4
  return { tx with hashBlock, vMerkleBranch, nIndex }

end Wallet.CMerkleTx

namespace WalletRecord

open Alerts (bytesOf writeString readString reads_string reads_signed)
open Wallet (CMerkleTx)

/-! ### CWalletTx -/

/-- `CWalletTx`. Left out is what is only in memory: the wallet and the cached amounts. -/
structure CWalletTx extends CMerkleTx where
  vtxPrev : List CMerkleTx
  mapValue : MapValue
  vOrderForm : List (Valtype × Valtype)
  fTimeReceivedIsTxTime : Nat
  nTimeReceived : Nat
  nTimeSmart : Nat
  fFromMe : UInt8
  strFromAccount : Valtype
  vfSpent : List UInt8
  nOrderPos : Int
deriving DecidableEq

/-- The keys that are erased in the end. -/
def reservedKeys : List Valtype :=
  [bytesOf "fromaccount", bytesOf "version", bytesOf "spent", bytesOf "n", bytesOf "timesmart"]

def eraseReserved (mapValue : MapValue) : MapValue :=
  reservedKeys.foldl (fun mapValue key => mapValue.erase key) mapValue

namespace CWalletTx

/-- What is done before the fields are written: `fSpent`, and the record with the fields in `mapValue`. -/
def putFields (wtx : CWalletTx) : Bool × CWalletTx :=
  let mapValue := wtx.mapValue.insert (bytesOf "fromaccount") wtx.strFromAccount
  let str := wtx.vfSpent.map fun f => if f ≠ 0 then (49 : UInt8) else 48
  let fSpent := wtx.vfSpent.any (· ≠ 0)
  let mapValue := mapValue.insert (bytesOf "spent") str
  let mapValue := writeOrderPos wtx.nOrderPos mapValue
  let mapValue := if wtx.nTimeSmart ≠ 0 then mapValue.insert (bytesOf "timesmart") (printNat wtx.nTimeSmart)
    else mapValue
  (fSpent, { wtx with mapValue := mapValue })

/-- What is done after them. -/
def eraseFields (wtx : CWalletTx) : CWalletTx := { wtx with mapValue := eraseReserved wtx.mapValue }

/-- `Serialize`, with the record that it leaves in memory. -/
def serialize (wtx : CWalletTx) : List UInt8 × CWalletTx :=
  let (fSpent, wtx) := wtx.putFields
  (wtx.toCMerkleTx.serialize ++ (writeVector CMerkleTx.serialize wtx.vtxPrev ++
    (writeMap wtx.mapValue ++ (writeVector writePair wtx.vOrderForm ++
      (littleEndian 4 wtx.fTimeReceivedIsTxTime ++ (littleEndian 4 wtx.nTimeReceived ++
        ([wtx.fFromMe] ++ [if fSpent then 1 else 0])))))), wtx.eraseFields)

/-- `GetSerializeSize`, with the record that it leaves in memory. -/
def getSerializeSize (wtx : CWalletTx) : Nat × CWalletTx :=
  let (_, wtx) := wtx.putFields
  (sumSizes 0 [wtx.toCMerkleTx.getSerializeSize, getSerializeSizeVector CMerkleTx.getSerializeSize wtx.vtxPrev,
    getSerializeSizeMap wtx.mapValue, getSerializeSizeVector getSerializeSizePair wtx.vOrderForm, 4, 4, 1, 1],
    wtx.eraseFields)

/-- The flags of the outputs: before there was a flag for each, one for all. -/
def readSpent (mapValue : MapValue) (nOut : Nat) (fSpent : UInt8) : List UInt8 :=
  match mapValue.lookup (bytesOf "spent") with
  | some str => str.map fun c => if c ≠ 48 then 1 else 0
  | none => List.replicate nOut fSpent

def readTimeSmart (mapValue : MapValue) : Nat :=
  match mapValue.lookup (bytesOf "timesmart") with
  | some str => (atoi64 str % 2 ^ 32).toNat
  | none => 0

def unserialize (chunks : Chunks) : Reader CWalletTx := do
  let mtx ← CMerkleTx.unserialize chunks
  let vtxPrev ← readVector (CMerkleTx.unserialize chunks)
  let mapValue ← readMap
  let vOrderForm ← readVector readPair
  let fTimeReceivedIsTxTime ← readLittleEndian 4
  let nTimeReceived ← readLittleEndian 4
  let fFromMe ← byte
  let fSpent ← byte
  return {
    mtx with
    vtxPrev, vOrderForm, fTimeReceivedIsTxTime, nTimeReceived, fFromMe
    mapValue := eraseReserved mapValue
    strFromAccount := (mapValue.lookup (bytesOf "fromaccount")).getD []
    vfSpent := readSpent mapValue mtx.vout.length fSpent
    nOrderPos := readOrderPos mapValue
    nTimeSmart := readTimeSmart mapValue }

end CWalletTx

/-! ### CAccountingEntry -/

/-- `CAccountingEntry`. The account and the number of the entry are in the key of the record. -/
structure CAccountingEntry where
  nCreditDebit : Int
  nTime : Int
  strOtherAccount : Valtype
  strComment : Valtype
  mapValue : MapValue
  nOrderPos : Int
  _ssExtra : List UInt8
deriving DecidableEq

namespace CAccountingEntry

/-- What is done before the fields are written. -/
def putFields (me : CAccountingEntry) : CAccountingEntry :=
  let mapValue := writeOrderPos me.nOrderPos me.mapValue
  let strComment := if ¬ (mapValue = ∅ ∧ me._ssExtra = []) then
      me.strComment ++ (0 :: (writeMap mapValue ++ me._ssExtra))
    else me.strComment
  { me with mapValue := mapValue, strComment := strComment }

/-- What is done after them: the comment ends before its first zero byte. -/
def eraseFields (me : CAccountingEntry) : CAccountingEntry :=
  { me with
    strComment := me.strComment.takeWhile (· ≠ 0)
    mapValue := me.mapValue.erase (bytesOf "n") }

def withVersion (nType : Nat) : Bool := nType &&& SER_GETHASH == 0

/-- `Serialize`, with the entry that it leaves in memory. -/
def serialize (nType : Nat) (nVersion : Int) (me : CAccountingEntry) : List UInt8 × CAccountingEntry :=
  let me := me.putFields
  ((if withVersion nType then littleEndianSigned 4 nVersion else []) ++
    (littleEndianSigned 8 me.nCreditDebit ++ (littleEndianSigned 8 me.nTime ++
      (writeString me.strOtherAccount ++ writeString me.strComment))), me.eraseFields)

/-- `GetSerializeSize`, with the entry that it leaves in memory. -/
def getSerializeSize (nType : Nat) (me : CAccountingEntry) : Nat × CAccountingEntry :=
  let me := me.putFields
  (sumSizes 0 [if withVersion nType then 4 else 0, 8, 8, getSerializeSizeBytes me.strOtherAccount,
    getSerializeSizeBytes me.strComment], me.eraseFields)

/-- What is behind the first zero byte of the comment, in a stream of its own. -/
def readExtra (strComment : Valtype) : Reader (MapValue × List UInt8) :=
  match strComment.dropWhile (· ≠ 0) with
  | [] => pure (∅, [])
  | _ :: ss => fun s => (readMap ss).map fun read => (read, s)

def unserialize (nType : Nat) : Reader CAccountingEntry := do
  let _ ← readIf (withVersion nType) (readLittleEndianSigned 4) 0
  let nCreditDebit ← readLittleEndianSigned 8
  let nTime ← readLittleEndianSigned 8
  let strOtherAccount ← readString
  let strComment ← readString
  let (mapValue, _ssExtra) ← readExtra strComment
  let me : CAccountingEntry :=
    { nCreditDebit, nTime, strOtherAccount, strComment, mapValue, _ssExtra
      nOrderPos := readOrderPos mapValue }
  return me.eraseFields

end CAccountingEntry

/-! ### Maps are read back -/

section Map

variable {m : MapValue}

theorem lookup_insertItem (m : MapValue) (item : Valtype × Valtype) (key : Valtype) :
    (insertItem m item).lookup key = (m.lookup key).or (if key = item.1 then some item.2 else none) := by
  rw [insertItem]
  split
  · next hmem =>
    obtain ⟨value, hvalue⟩ := Finmap.mem_iff.mp hmem
    by_cases heq : key = item.1
    · rw [heq, hvalue, Option.some_or]
    · rw [if_neg heq, Option.or_none]
  · next hnot =>
    by_cases heq : key = item.1
    · rw [heq, Finmap.lookup_insert, Finmap.lookup_eq_none.mpr hnot, if_pos rfl, Option.none_or]
    · rw [Finmap.lookup_insert_of_ne _ heq, if_neg heq, Option.or_none]

theorem lookup_foldl_insertItem (value : Valtype → Valtype) (keys : List Valtype) (key : Valtype) :
    ((keys.map fun key => (key, value key)).foldl insertItem m).lookup key =
      (m.lookup key).or (if key ∈ keys then some (value key) else none) := by
  induction keys generalizing m with
  | nil => rw [List.map_nil, List.foldl_nil, if_neg List.not_mem_nil, Option.or_none]
  | cons first keys ih =>
    rw [List.map_cons, List.foldl_cons, ih, lookup_insertItem, Option.or_assoc]
    by_cases heq : key = first
    · rw [if_pos heq, heq, if_pos List.mem_cons_self, Option.some_or]
    · simp only [heq, if_false, Option.none_or, List.mem_cons, false_or]

theorem foldl_items (m : MapValue) : (items m).foldl insertItem ∅ = m := by
  refine Finmap.ext_lookup fun key => ?_
  rw [items, lookup_foldl_insertItem, Finmap.lookup_empty, Option.none_or]
  cases hlookup : m.lookup key with
  | none =>
    rw [if_neg]
    rw [Finset.mem_sort, Finmap.mem_keys]
    exact Finmap.lookup_eq_none.mp hlookup
  | some value =>
    rw [if_pos]
    · rfl
    · rw [Finset.mem_sort, Finmap.mem_keys]
      exact Finmap.mem_iff.mpr ⟨value, hlookup⟩

theorem reads_pair {item : Valtype × Valtype} (hfirst : item.1.length ≤ MAX_SIZE)
    (hsecond : item.2.length ≤ MAX_SIZE) : Reads readPair (writePair item) item :=
  (reads_string hfirst).bind (reads_string hsecond).map

/-- No string of the list, and not the list, is too long to be read. -/
def PairsReadable (v : List (Valtype × Valtype)) : Prop :=
  v.length ≤ MAX_SIZE ∧ ∀ item ∈ v, item.1.length ≤ MAX_SIZE ∧ item.2.length ≤ MAX_SIZE

theorem pairsReadable_items (hcard : m.keys.card ≤ MAX_SIZE)
    (h : ∀ key ∈ m.keys, key.length ≤ MAX_SIZE ∧ ((m.lookup key).getD []).length ≤ MAX_SIZE) :
    PairsReadable (items m) := by
  refine ⟨by rwa [items, List.length_map, Finset.length_sort], fun item hitem => ?_⟩
  obtain ⟨key, hkey, rfl⟩ := List.mem_map.mp hitem
  exact h key ((Finset.mem_sort _).mp hkey)

theorem reads_pairs {v : List (Valtype × Valtype)} (h : PairsReadable v) :
    Reads (readVector readPair) (writeVector writePair v) v := by
  have hread := reads_writeVector (g := id) readPair h.1 fun item hitem =>
    reads_pair (h.2 item hitem).1 (h.2 item hitem).2
  rwa [List.map_id] at hread

/-- **A map is read back.** -/
theorem reads_map (h : PairsReadable (items m)) : Reads readMap (writeMap m) m := by
  have hread := (reads_pairs h).map (f := fun v => v.foldl insertItem ∅)
  rwa [foldl_items] at hread

theorem pairsReadable_of_length {v : List (Valtype × Valtype)}
    (h : (writeVector writePair v).length ≤ MAX_SIZE) : PairsReadable v := by
  have hstring : ∀ str : Valtype, 1 ≤ (writeString str).length ∧ str.length ≤ (writeString str).length := by
    intro str
    rw [writeString, length_writeVector, vectorSize]
    have hpos := getSizeOfCompactSize_pos str.length
    simp
    omega
  rw [length_writeVector, vectorSize] at h
  have hitem : ∀ item ∈ v, 1 ≤ (writePair item).length ∧ item.1.length ≤ (writePair item).length ∧
      item.2.length ≤ (writePair item).length := by
    intro item _
    have hfirst := hstring item.1
    have hsecond := hstring item.2
    rw [writePair, List.length_append]
    omega
  have hlength := List.length_le_sum_of_one_le (v.map fun item => (writePair item).length) fun n hn => by
    obtain ⟨item, hmem, rfl⟩ := List.mem_map.mp hn
    exact (hitem item hmem).1
  rw [List.length_map] at hlength
  refine ⟨by omega, fun item hmem => ?_⟩
  have hle := List.single_le_sum (fun n _ => Nat.zero_le n) _
    (List.mem_map_of_mem (f := fun item => (writePair item).length) hmem)
  have hboth := hitem item hmem
  omega

end Map

/-! ### The reserved keys -/

theorem reservedKeys_nodup : reservedKeys.Nodup := by decide +kernel

section Reserved

variable {m : MapValue}

theorem lookup_foldl_erase (keys : List Valtype) (key : Valtype) :
    (keys.foldl (fun mapValue key => mapValue.erase key) m).lookup key =
      if key ∈ keys then none else m.lookup key := by
  induction keys generalizing m with
  | nil => rw [List.foldl_nil, if_neg List.not_mem_nil]
  | cons first keys ih =>
    rw [List.foldl_cons, ih]
    by_cases heq : key = first
    · rw [heq, Finmap.lookup_erase, ite_self, if_pos List.mem_cons_self]
    · simp only [Finmap.lookup_erase_ne heq, List.mem_cons, heq, false_or]

/-- Maps with the same items under the other keys. -/
def SameOthers (m' m : MapValue) : Prop := ∀ key, key ∉ reservedKeys → m'.lookup key = m.lookup key

theorem SameOthers.insert {m' : MapValue} (h : SameOthers m' m) {key : Valtype} (hkey : key ∈ reservedKeys)
    (value : Valtype) : SameOthers (m'.insert key value) m := by
  intro other hother
  have hne : other ≠ key := by
    rintro rfl
    exact hother hkey
  rw [Finmap.lookup_insert_of_ne _ hne, h other hother]

theorem SameOthers.writeOrderPos {m' : MapValue} (h : SameOthers m' m) (nOrderPos : Int) :
    SameOthers (writeOrderPos nOrderPos m') m := by
  rw [WalletRecord.writeOrderPos]
  split
  · exact h
  · exact h.insert (by simp [reservedKeys]) _

/-- **The reserved keys are taken out again.** -/
theorem eraseReserved_eq {m' : MapValue} (h : SameOthers m' m) (hm : ∀ key ∈ reservedKeys, key ∉ m) :
    eraseReserved m' = m := by
  refine Finmap.ext_lookup fun key => ?_
  rw [eraseReserved, lookup_foldl_erase]
  split
  · next hkey => exact (Finmap.lookup_eq_none.mpr (hm key hkey)).symm
  · next hkey => exact h key hkey

theorem lookup_writeOrderPos (m : MapValue) (nOrderPos : Int) {key : Valtype} (hkey : key ≠ bytesOf "n") :
    (writeOrderPos nOrderPos m).lookup key = m.lookup key := by
  rw [writeOrderPos]
  split
  · rfl
  · exact Finmap.lookup_insert_of_ne _ hkey

/-- **The position is read back**, also the one that is not written. -/
theorem readOrderPos_writeOrderPos {nOrderPos : Int} (hpos : Signed 8 nOrderPos)
    (hm : bytesOf "n" ∉ m) {m' : MapValue}
    (hlookup : m'.lookup (bytesOf "n") = (writeOrderPos nOrderPos m).lookup (bytesOf "n")) :
    readOrderPos m' = nOrderPos := by
  obtain ⟨hlow, hhigh⟩ := hpos
  rw [readOrderPos, hlookup, writeOrderPos]
  by_cases hnone : nOrderPos = -1
  · rw [if_pos hnone, Finmap.lookup_eq_none.mpr hm, hnone]
  · rw [if_neg hnone, Finmap.lookup_insert]
    exact parseInt_printInt (by simp only [INT64_MIN]; omega) (by simp only [INT64_MAX]; omega)

theorem erase_writeOrderPos (hm : bytesOf "n" ∉ m) (nOrderPos : Int) :
    (writeOrderPos nOrderPos m).erase (bytesOf "n") = m := by
  refine Finmap.ext_lookup fun key => ?_
  by_cases heq : key = bytesOf "n"
  · rw [heq, Finmap.lookup_erase, Finmap.lookup_eq_none.mpr hm]
  · rw [Finmap.lookup_erase_ne heq, lookup_writeOrderPos m nOrderPos heq]

end Reserved

/-! ### CWalletTx is read back -/

section WalletTx

variable {wtx : CWalletTx}

/-- The flag of a spent output, as a `bool`. -/
def asBool (f : UInt8) : UInt8 := if f ≠ 0 then 1 else 0

theorem CWalletTx.sameOthers_putFields (wtx : CWalletTx) :
    SameOthers wtx.putFields.2.mapValue wtx.mapValue := by
  have hspent : SameOthers ((wtx.mapValue.insert (bytesOf "fromaccount") wtx.strFromAccount).insert
      (bytesOf "spent") (wtx.vfSpent.map fun f => if f ≠ 0 then (49 : UInt8) else 48)) wtx.mapValue :=
    SameOthers.insert (SameOthers.insert (fun _ _ => rfl) (by simp [reservedKeys]) _)
      (by simp [reservedKeys]) _
  unfold putFields
  dsimp only
  split
  · exact (hspent.writeOrderPos _).insert (by simp [reservedKeys]) _
  · exact hspent.writeOrderPos _

/-- **Where the fields are found.** -/
theorem CWalletTx.lookup_putFields (wtx : CWalletTx) :
    wtx.putFields.2.mapValue.lookup (bytesOf "fromaccount") = some wtx.strFromAccount ∧
    wtx.putFields.2.mapValue.lookup (bytesOf "spent") =
      some (wtx.vfSpent.map fun f => if f ≠ 0 then (49 : UInt8) else 48) ∧
    wtx.putFields.2.mapValue.lookup (bytesOf "n") =
      (writeOrderPos wtx.nOrderPos wtx.mapValue).lookup (bytesOf "n") ∧
    wtx.putFields.2.mapValue.lookup (bytesOf "timesmart") =
      if wtx.nTimeSmart ≠ 0 then some (printNat wtx.nTimeSmart)
      else wtx.mapValue.lookup (bytesOf "timesmart") := by
  have hnodup := reservedKeys_nodup
  simp only [reservedKeys, List.nodup_cons, List.mem_cons, List.not_mem_nil, or_false, not_or] at hnodup
  obtain ⟨⟨-, hfromSpent, hfromN, hfromSmart⟩, -, ⟨hspentN, hspentSmart⟩, hnSmart, -⟩ := hnodup
  unfold putFields
  dsimp only
  generalize hstr : (wtx.vfSpent.map fun f => if f ≠ 0 then (49 : UInt8) else 48) = str
  have hsmart : ∀ (m : MapValue) {key : Valtype}, key ≠ bytesOf "timesmart" →
      (if wtx.nTimeSmart ≠ 0 then m.insert (bytesOf "timesmart") (printNat wtx.nTimeSmart)
        else m).lookup key = m.lookup key := by
    intro m key hkey
    split
    · exact Finmap.lookup_insert_of_ne _ hkey
    · rfl
  refine ⟨?_, ?_, ?_, ?_⟩
  · rw [hsmart _ hfromSmart, lookup_writeOrderPos _ _ hfromN, Finmap.lookup_insert_of_ne _ hfromSpent,
      Finmap.lookup_insert]
  · rw [hsmart _ hspentSmart, lookup_writeOrderPos _ _ hspentN, Finmap.lookup_insert]
  · rw [hsmart _ hnSmart, writeOrderPos, writeOrderPos]
    split
    · rw [Finmap.lookup_insert_of_ne _ (Ne.symm hspentN), Finmap.lookup_insert_of_ne _ (Ne.symm hfromN)]
    · rw [Finmap.lookup_insert, Finmap.lookup_insert]
  · split
    · rw [Finmap.lookup_insert]
    · rw [lookup_writeOrderPos _ _ (Ne.symm hnSmart), Finmap.lookup_insert_of_ne _ (Ne.symm hspentSmart),
        Finmap.lookup_insert_of_ne _ (Ne.symm hfromSmart)]

/-- **The record in memory is as before**, after either pass. -/
theorem CWalletTx.unchanged (h : ∀ key ∈ reservedKeys, key ∉ wtx.mapValue) :
    wtx.serialize.2 = wtx ∧ wtx.getSerializeSize.2 = wtx := by
  have herase : wtx.putFields.2.eraseFields = wtx := by
    rw [eraseFields, eraseReserved_eq wtx.sameOthers_putFields h]
    rfl
  exact ⟨herase, herase⟩

/-- The fields are values of their types, and none is too long to be read. -/
structure CMerkleTx.Readable (mtx : CMerkleTx) : Prop where
  tx : mtx.toCTransaction.Readable
  hashBlock : mtx.hashBlock < 256 ^ 32
  vMerkleBranch_le : mtx.vMerkleBranch.length ≤ MAX_SIZE
  vMerkleBranch : ∀ hash ∈ mtx.vMerkleBranch, hash < 256 ^ 32
  nIndex : Signed 4 mtx.nIndex

structure CWalletTx.Readable (wtx : CWalletTx) : Prop where
  mtx : CMerkleTx.Readable wtx.toCMerkleTx
  vtxPrev_le : wtx.vtxPrev.length ≤ MAX_SIZE
  vtxPrev : ∀ prev ∈ wtx.vtxPrev, CMerkleTx.Readable prev
  /-- Of the map with the fields that are put there. -/
  mapValue : PairsReadable (items wtx.putFields.2.mapValue)
  vOrderForm : PairsReadable wtx.vOrderForm
  fTimeReceivedIsTxTime : wtx.fTimeReceivedIsTxTime < 256 ^ 4
  nTimeReceived : wtx.nTimeReceived < 256 ^ 4
  nTimeSmart : wtx.nTimeSmart < 256 ^ 4
  nOrderPos : Signed 8 wtx.nOrderPos

theorem CMerkleTx.reads (chunks : Chunks) {mtx : CMerkleTx} (h : CMerkleTx.Readable mtx) :
    Reads (Wallet.CMerkleTx.unserialize chunks) mtx.serialize mtx := by
  have hbranch := reads_writeVector (g := id) (readLittleEndian 32) h.vMerkleBranch_le fun hash hhash =>
    reads_littleEndian (h.vMerkleBranch hash hhash)
  rw [List.map_id] at hbranch
  exact (reads_transaction chunks h.tx).bind ((reads_littleEndian h.hashBlock).bind
    (hbranch.bind (reads_signed h.nIndex).map))

/-- What `Unserialize` makes of the fields in the map. -/
def CWalletTx.getFields (wtx : CWalletTx) (fSpent : UInt8) : CWalletTx :=
  { wtx with
    mapValue := eraseReserved wtx.mapValue
    strFromAccount := (wtx.mapValue.lookup (bytesOf "fromaccount")).getD []
    vfSpent := readSpent wtx.mapValue wtx.vout.length fSpent
    nOrderPos := readOrderPos wtx.mapValue
    nTimeSmart := readTimeSmart wtx.mapValue }

theorem atoi64_printNat {n : Nat} (hn : n < 256 ^ 4) : (atoi64 (printNat n) % 2 ^ 32).toNat = n := by
  have hparse : atoi64 (printNat n) = n := parseInt_printNat INT64_MIN (by simp only [INT64_MAX]; omega)
  rw [hparse]
  omega

theorem CWalletTx.getFields_putFields (hsmart : wtx.nTimeSmart < 256 ^ 4) (hpos : Signed 8 wtx.nOrderPos)
    (hkeys : ∀ key ∈ reservedKeys, key ∉ wtx.mapValue) (fSpent : UInt8) :
    wtx.putFields.2.getFields fSpent = { wtx with vfSpent := wtx.vfSpent.map asBool } := by
  obtain ⟨hfrom, hspent, hn, htime⟩ := wtx.lookup_putFields
  have hkeyN : bytesOf "n" ∉ wtx.mapValue := hkeys _ (by simp [reservedKeys])
  have hkeyTime : bytesOf "timesmart" ∉ wtx.mapValue := hkeys _ (by simp [reservedKeys])
  have horder := readOrderPos_writeOrderPos hpos hkeyN hn
  have hflags : readSpent wtx.putFields.2.mapValue wtx.putFields.2.vout.length fSpent =
      wtx.vfSpent.map asBool := by
    rw [readSpent, hspent]
    dsimp only
    rw [List.map_map]
    refine List.map_congr_left fun f _ => ?_
    by_cases hzero : f = 0
    · rw [hzero]
      rfl
    · rw [Function.comp_apply, if_pos hzero, asBool, if_pos hzero]
      rfl
  have hseconds : readTimeSmart wtx.putFields.2.mapValue = wtx.nTimeSmart := by
    rw [readTimeSmart, htime]
    by_cases hzero : wtx.nTimeSmart = 0
    · rw [if_neg (not_not.mpr hzero), Finmap.lookup_eq_none.mpr hkeyTime, hzero]
    · rw [if_pos hzero]
      exact atoi64_printNat hsmart
  rw [getFields, eraseReserved_eq wtx.sameOthers_putFields hkeys, hfrom, horder, hflags, hseconds]
  rfl

/-- **A wallet transaction is read back**, the spent flags as `bool`s. -/
theorem CWalletTx.reads (chunks : Chunks) (h : wtx.Readable)
    (hkeys : ∀ key ∈ reservedKeys, key ∉ wtx.mapValue) :
    Reads (unserialize chunks) wtx.serialize.1 { wtx with vfSpent := wtx.vfSpent.map asBool } := by
  have hprev := reads_writeVector (g := id) (Wallet.CMerkleTx.unserialize chunks) h.vtxPrev_le
    fun prev hprev => CMerkleTx.reads chunks (h.vtxPrev prev hprev)
  rw [List.map_id] at hprev
  unfold serialize unserialize
  dsimp only
  rw [← getFields_putFields h.nTimeSmart h.nOrderPos hkeys (if wtx.putFields.1 then 1 else 0)]
  refine (CMerkleTx.reads chunks h.mtx).bind ?_
  refine hprev.bind ?_
  refine (reads_map h.mapValue).bind ?_
  refine (reads_pairs h.vOrderForm).bind ?_
  refine (reads_littleEndian h.fTimeReceivedIsTxTime).bind ?_
  refine (reads_littleEndian h.nTimeReceived).bind ?_
  refine (reads_byte wtx.fFromMe).bind ?_
  exact (reads_byte _).map

end WalletTx

theorem getSerializeSizePair_eq (item : Valtype × Valtype) :
    getSerializeSizePair item = (writePair item).length % uintMod := by
  rw [getSerializeSizePair, getSerializeSizeBytes_eq, getSerializeSizeBytes_eq, ← Nat.add_mod, writePair,
    List.length_append]
  rfl

theorem getSerializeSizeMap_eq (m : MapValue) : getSerializeSizeMap m = (writeMap m).length % uintMod :=
  getSerializeSizeVector_eq fun item _ => getSerializeSizePair_eq item

theorem CMerkleTx.getSerializeSize_eq (mtx : CMerkleTx) :
    mtx.getSerializeSize = mtx.serialize.length % uintMod := by
  have hbranch : getSerializeSizeVector (fun _ => 32) mtx.vMerkleBranch =
      (writeVector (littleEndian 32) mtx.vMerkleBranch).length % uintMod :=
    getSerializeSizeVector_eq fun hash _ => by
      rw [length_littleEndian]
      rfl
  have hsum := sumSizes_mod [mtx.toCTransaction.serialize.length, 32,
    (writeVector (littleEndian 32) mtx.vMerkleBranch).length, 4]
  rw [Wallet.CMerkleTx.getSerializeSize, CTransaction.getSerializeSize_eq, hbranch]
  refine hsum.trans (congrArg (· % uintMod) ?_)
  simp only [Wallet.CMerkleTx.serialize, List.length_append, littleEndianSigned, length_littleEndian,
    List.sum_cons, List.sum_nil, Nat.add_zero]

/-- **The size of a wallet transaction** is that of its bytes, as an `unsigned int`. -/
theorem CWalletTx.getSerializeSize_eq (wtx : CWalletTx) :
    wtx.getSerializeSize.1 = wtx.serialize.1.length % uintMod := by
  unfold getSerializeSize serialize
  dsimp only
  generalize wtx.putFields.2 = wtx'
  have hsum := sumSizes_mod [wtx'.toCMerkleTx.serialize.length,
    (writeVector Wallet.CMerkleTx.serialize wtx'.vtxPrev).length, (writeMap wtx'.mapValue).length,
    (writeVector writePair wtx'.vOrderForm).length, 4, 4, 1, 1]
  rw [CMerkleTx.getSerializeSize_eq, getSerializeSizeMap_eq,
    getSerializeSizeVector_eq fun prev _ => CMerkleTx.getSerializeSize_eq prev,
    getSerializeSizeVector_eq fun item _ => getSerializeSizePair_eq item]
  refine hsum.trans (congrArg (· % uintMod) ?_)
  simp only [List.length_append, length_littleEndian, List.length_singleton, List.sum_cons, List.sum_nil,
    Nat.add_zero]

/-! ### CAccountingEntry is read back -/

namespace CAccountingEntry

variable {me : CAccountingEntry}

/-- The fields are values of their types, and no string is too long to be read. -/
structure Readable (me : CAccountingEntry) : Prop where
  nCreditDebit : Signed 8 me.nCreditDebit
  nTime : Signed 8 me.nTime
  strOtherAccount : me.strOtherAccount.length ≤ MAX_SIZE
  /-- Of the comment with what is appended. -/
  strComment : me.putFields.strComment.length ≤ MAX_SIZE
  nOrderPos : Signed 8 me.nOrderPos

theorem takeWhile_comment (hcomment : (0 : UInt8) ∉ me.strComment) :
    me.strComment.takeWhile (· ≠ 0) = me.strComment ∧ me.strComment.dropWhile (· ≠ 0) = [] := by
  have hall : ∀ c ∈ me.strComment, decide (c ≠ 0) = true := by
    intro c hc
    rw [decide_eq_true_eq]
    rintro rfl
    exact hcomment hc
  exact ⟨List.takeWhile_eq_self_iff.mpr hall, List.dropWhile_eq_nil_iff.mpr hall⟩

/-- **The separator.** The stored comment is the comment, or the comment, a zero byte, the map and the bytes
of newer versions. -/
theorem putFields_cases (hcomment : (0 : UInt8) ∉ me.strComment) :
    me.putFields.strComment.takeWhile (· ≠ 0) = me.strComment ∧
      ((writeOrderPos me.nOrderPos me.mapValue = ∅ ∧ me._ssExtra = [] ∧
          me.putFields.strComment.dropWhile (· ≠ 0) = []) ∨ me.putFields.strComment.dropWhile (· ≠ 0) =
          0 :: (writeMap (writeOrderPos me.nOrderPos me.mapValue) ++ me._ssExtra)) := by
  obtain ⟨htake, hdrop⟩ := takeWhile_comment hcomment
  unfold putFields
  dsimp only
  split
  · next happend =>
    have hall := List.takeWhile_eq_self_iff.mp htake
    rw [List.takeWhile_append_of_pos hall, List.dropWhile_append_of_pos hall,
      List.takeWhile_cons_of_neg (by decide), List.dropWhile_cons_of_neg (by decide), List.append_nil]
    exact ⟨rfl, .inr rfl⟩
  · next hnone =>
    obtain ⟨hempty, hextra⟩ := not_not.mp hnone
    exact ⟨htake, .inl ⟨hempty, hextra, hdrop⟩⟩

/-- **The entry in memory is as before**, after either pass. -/
theorem unchanged (hcomment : (0 : UInt8) ∉ me.strComment) (hn : bytesOf "n" ∉ me.mapValue) (nType : Nat)
    (nVersion : Int) : (me.serialize nType nVersion).2 = me ∧ (me.getSerializeSize nType).2 = me := by
  have herase : me.putFields.eraseFields = me := by
    rw [eraseFields, (putFields_cases hcomment).1]
    unfold putFields
    dsimp only
    rw [erase_writeOrderPos hn]
  exact ⟨herase, herase⟩

theorem getSerializeSize_eq (me : CAccountingEntry) (nType : Nat) (nVersion : Int) :
    (me.getSerializeSize nType).1 = (me.serialize nType nVersion).1.length % uintMod := by
  unfold getSerializeSize serialize
  dsimp only
  generalize me.putFields = me'
  have hsum := sumSizes_mod [if withVersion nType then 4 else 0, 8, 8, (writeString me'.strOtherAccount).length,
    (writeString me'.strComment).length]
  rw [getSerializeSizeBytes_eq, getSerializeSizeBytes_eq]
  revert hsum
  cases withVersion nType
  all_goals
    intro hsum
    refine hsum.trans (congrArg (· % uintMod) ?_)
    simp only [List.length_append, littleEndianSigned, length_littleEndian, List.sum_cons, List.sum_nil,
      Nat.add_zero, if_true, Bool.false_eq_true, if_false, List.length_nil]

theorem reads_extra (h : me.Readable) (hcomment : (0 : UInt8) ∉ me.strComment) :
    Reads (readExtra me.putFields.strComment) [] (writeOrderPos me.nOrderPos me.mapValue, me._ssExtra) := by
  rcases (putFields_cases hcomment).2 with ⟨hempty, hextra, hdrop⟩ | hdrop
  · rw [readExtra, hdrop, hempty, hextra]
    exact Reads.pure _
  · have hlength : (writeMap (writeOrderPos me.nOrderPos me.mapValue)).length ≤ MAX_SIZE := by
      have hsuffix := (List.dropWhile_sublist (· ≠ (0 : UInt8)) (l := me.putFields.strComment)).length_le
      rw [hdrop, List.length_cons, List.length_append] at hsuffix
      have hle := h.strComment
      omega
    intro s
    rw [readExtra, hdrop]
    dsimp only
    rw [reads_map (pairsReadable_of_length hlength) me._ssExtra]
    rfl

/-- What `Unserialize` makes of the parts of the comment. -/
theorem getFields_putFields (hpos : Signed 8 me.nOrderPos) (hcomment : (0 : UInt8) ∉ me.strComment)
    (hn : bytesOf "n" ∉ me.mapValue) :
    eraseFields
      { me.putFields with
        mapValue := writeOrderPos me.nOrderPos me.mapValue
        nOrderPos := readOrderPos (writeOrderPos me.nOrderPos me.mapValue) } = me := by
  rw [readOrderPos_writeOrderPos hpos hn rfl]
  exact (me.unchanged hcomment hn 0 0).1

/-- **An accounting entry is read back.** -/
theorem reads (h : me.Readable) (hcomment : (0 : UInt8) ∉ me.strComment) (hn : bytesOf "n" ∉ me.mapValue)
    (nType : Nat) {nVersion : Int} (hversion : Signed 4 nVersion) :
    Reads (unserialize nType) (me.serialize nType nVersion).1 me := by
  have hresult := me.getFields_putFields h.nOrderPos hcomment hn
  unfold unserialize serialize
  dsimp only
  refine (Reads.readIf (reads_signed hversion)).bind ?_
  refine (reads_signed h.nCreditDebit).bind ?_
  refine (reads_signed h.nTime).bind ?_
  refine (reads_string h.strOtherAccount).bind ?_
  rw [← List.append_nil (writeString me.putFields.strComment)]
  refine (reads_string h.strComment).bind ?_
  refine Eq.subst (motive := fun read => Reads _ [] read) hresult ?_
  exact (reads_extra h hcomment).map

end CAccountingEntry

/-! ### The codecs -/

/-- **The codecs of the wallet records.** -/
theorem walletRecord_codec (chunks : Chunks) :
    (∀ wtx : CWalletTx, wtx.Readable → (∀ key ∈ reservedKeys, key ∉ wtx.mapValue) →
      Reads (CWalletTx.unserialize chunks) wtx.serialize.1 { wtx with vfSpent := wtx.vfSpent.map asBool } ∧
        wtx.getSerializeSize.1 = wtx.serialize.1.length % uintMod ∧
        wtx.serialize.2 = wtx ∧ wtx.getSerializeSize.2 = wtx) ∧
    ∀ (me : CAccountingEntry) (nType : Nat) (nVersion : Int), me.Readable → Signed 4 nVersion →
      (0 : UInt8) ∉ me.strComment → bytesOf "n" ∉ me.mapValue →
      Reads (CAccountingEntry.unserialize nType) (me.serialize nType nVersion).1 me ∧
        (me.getSerializeSize nType).1 = (me.serialize nType nVersion).1.length % uintMod ∧
        (me.serialize nType nVersion).2 = me ∧ (me.getSerializeSize nType).2 = me :=
  ⟨fun wtx h hkeys => ⟨wtx.reads chunks h hkeys, wtx.getSerializeSize_eq, wtx.unchanged hkeys⟩,
    fun me nType nVersion h hversion hcomment hn => ⟨me.reads h hcomment hn nType hversion,
      me.getSerializeSize_eq nType nVersion, me.unchanged hcomment hn nType nVersion⟩⟩

/-- A transaction with a comment, a spent output and every field that is kept in the map. -/
def sampleWalletTx : CWalletTx :=
  { nVersion := 1, nTime := 0, vin := [], vout := [], nLockTime := 0, hashBlock := 0, vMerkleBranch := [],
    nIndex := -1, vtxPrev := [], mapValue := (∅ : MapValue).insert (bytesOf "comment") (bytesOf "rent"),
    vOrderForm := [], fTimeReceivedIsTxTime := 1, nTimeReceived := 5, nTimeSmart := 42, fFromMe := 1,
    strFromAccount := bytesOf "home", vfSpent := [5, 0], nOrderPos := 7 }

theorem readable_sampleWalletTx : sampleWalletTx.Readable where
  mtx :=
    { tx :=
        { representable :=
            { nVersion := show Signed 4 1 from ⟨by decide, by decide⟩
              nTime := Nat.pow_pos (by decide)
              vin := ⟨Nat.two_pow_pos 64, nofun⟩
              vout := ⟨Nat.two_pow_pos 64, nofun⟩
              nLockTime := Nat.pow_pos (by decide) }
          vin_le := Nat.zero_le _
          scriptSig_le := nofun
          vout_le := Nat.zero_le _
          scriptPubKey_le := nofun }
      hashBlock := Nat.pow_pos (by decide)
      vMerkleBranch_le := Nat.zero_le _
      vMerkleBranch := nofun
      nIndex := show Signed 4 (-1) from ⟨by decide, by decide⟩ }
  vtxPrev_le := Nat.zero_le _
  vtxPrev := nofun
  mapValue := pairsReadable_items (by decide +kernel) (by decide +kernel)
  vOrderForm := ⟨Nat.zero_le _, nofun⟩
  fTimeReceivedIsTxTime := by decide
  nTimeReceived := by decide
  nTimeSmart := by decide
  nOrderPos := show Signed 8 7 from ⟨by decide, by decide⟩

/-- An entry with a map and bytes of a newer version, in no order. -/
def sampleEntry (mapValue : MapValue) : CAccountingEntry :=
  { nCreditDebit := 100, nTime := 5, strOtherAccount := [], strComment := bytesOf "rent",
    mapValue := mapValue, nOrderPos := -1, _ssExtra := [9] }

theorem readable_sampleEntry {mapValue : MapValue}
    (h : (sampleEntry mapValue).putFields.strComment.length ≤ MAX_SIZE) : (sampleEntry mapValue).Readable where
  nCreditDebit := show Signed 8 100 from ⟨by decide, by decide⟩
  nTime := show Signed 8 5 from ⟨by decide, by decide⟩
  strOtherAccount := Nat.zero_le _
  strComment := h
  nOrderPos := show Signed 8 (-1) from ⟨by decide, by decide⟩

theorem walletRecord_codec_sample :
    Reads (CWalletTx.unserialize ⟨1, 2, 3⟩) sampleWalletTx.serialize.1
        { sampleWalletTx with vfSpent := sampleWalletTx.vfSpent.map asBool } ∧
      Reads (CAccountingEntry.unserialize SER_DISK)
        ((sampleEntry ((∅ : MapValue).insert [7] [8])).serialize SER_DISK 1).1
        (sampleEntry ((∅ : MapValue).insert [7] [8])) := by
  have hcodec := walletRecord_codec ⟨1, 2, 3⟩
  exact ⟨(hcodec.1 _ readable_sampleWalletTx (by decide +kernel)).1,
    (hcodec.2 _ SER_DISK 1 (readable_sampleEntry (by decide +kernel)) ⟨by decide, by decide⟩
      (by decide +kernel) (by decide +kernel)).1⟩

/-- A key of the entry's own that is reserved does not survive. -/
theorem not_forall_serialize_unchanged :
    ¬ ∀ me : CAccountingEntry, me.Readable → (0 : UInt8) ∉ me.strComment →
      (me.serialize SER_DISK 1).2 = me := by
  intro hall
  have hsame := hall (sampleEntry ((∅ : MapValue).insert (bytesOf "n") [53]))
    (readable_sampleEntry (by decide +kernel)) (by decide +kernel)
  exact absurd hsame (by decide +kernel)

end WalletRecord

end Manna
