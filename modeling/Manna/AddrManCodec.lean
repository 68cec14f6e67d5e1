import Manna.AddrManCheck
import Manna.BlockCodec
import Manna.DiskBlockIndex
import Mathlib.Data.Int.Interval

/-!
The address manager on disk (`addrman.h`: `IMPLEMENT_SERIALIZE` of `CAddrMan` and of `CAddrInfo`;
`protocol.h`, `netbase.h`: of `CAddress`, `CService` and `CNetAddr`).

The entries that have references are written first and numbered on the way, then the tried ones, then
the new buckets with these numbers. Tried buckets, addresses and positions are not written: the reader
finds them again.

* `reads_serialize`: the reader and the writer, loop by loop;
* `reloaded`: what is read is what was written, under other ids;
* `reload_of_run`: so in every run.
-/

namespace Manna

open Codec WeightedMap

/-! ### Addresses -/

/-- `htons`, and `ntohs`. -/
def htons (port : UInt16) : UInt16 := UInt16.ofNat (port.toNat % 0x100 * 0x100 + port.toNat / 0x100)

namespace CNetAddr

def serialize (addr : CNetAddr) : List UInt8 := littleEndian 16 addr.ip.toNat

def unserialize : Reader CNetAddr := do
  let ip ← readLittleEndian 16
  return ⟨BitVec.ofNat 128 ip⟩

end CNetAddr

namespace CService

def serialize (addr : CService) : List UInt8 :=
  addr.toCNetAddr.serialize ++ littleEndian 2 (htons addr.port).toNat

def unserialize : Reader CService := do
  let addr ← CNetAddr.unserialize
  let portN ← readLittleEndian 2
  return ⟨addr, htons (UInt16.ofNat portN)⟩

end CService

namespace CAddress

def serialize (addr : CAddress) : List UInt8 :=
  littleEndianSigned 4 CLIENT_VERSION ++ (littleEndian 4 addr.nTime.toNat ++
    (littleEndian 8 addr.nServices.toNat ++ addr.toCService.serialize))

def unserialize : Reader CAddress := do
  let _nVersion ← readLittleEndianSigned 4
  let nTime ← readLittleEndian 4
  let nServices ← readLittleEndian 8
  let service ← CService.unserialize
  return { toCService := service, nServices := UInt64.ofNat nServices, nTime := UInt32.ofNat nTime, nLastTry := 0 }

end CAddress

namespace CAddrInfo

def default : CAddrInfo where
  ip := 0
  port := 0
  nServices := 1
  nTime := 100000000
  nLastTry := 0
  source := ⟨0⟩
  nLastSuccess := 0
  nAttempts := 0
  nRefCount := 0
  fInTried := false
  nRandomPos := -1

def serialize (info : CAddrInfo) : List UInt8 :=
  info.toCAddress.serialize ++ (info.source.serialize ++
    (littleEndianSigned 8 info.nLastSuccess.toInt ++ littleEndianSigned 4 info.nAttempts.toInt))

def unserialize : Reader CAddrInfo := do
  let addr ← CAddress.unserialize
  let source ← CNetAddr.unserialize
  let nLastSuccess ← readLittleEndianSigned 8
  let nAttempts ← readLittleEndianSigned 4
  return { default with
    toCAddress := addr
    source := source
    nLastSuccess := Int64.ofInt nLastSuccess
    nAttempts := Int32.ofInt nAttempts }

end CAddrInfo

namespace CAddrMan

/-- The first loop: the entries with references, and `mapUnkIds` with their numbers. -/
def writeNew (nNew : Int) : Int → (Int → Int) → List (Int × CAddrInfo) → List UInt8 × (Int → Int)
  | _, mapUnkIds, [] => ([], mapUnkIds)
  | nIds, mapUnkIds, (nId, info) :: entries =>
    if nIds = nNew then ([], mapUnkIds)
    else
      let mapUnkIds := Function.update mapUnkIds nId nIds
      if info.nRefCount ≠ 0 then
        let out := writeNew nNew (nIds + 1) mapUnkIds entries
        (info.serialize ++ out.1, out.2)
      else writeNew nNew nIds mapUnkIds entries

def writeTried (nTried : Int) : Int → List (Int × CAddrInfo) → List UInt8
  | _, [] => []
  | nIds, (_, info) :: entries =>
    if nIds = nTried then []
    else if info.fInTried then info.serialize ++ writeTried nTried (nIds + 1) entries
    else writeTried nTried nIds entries

def writeBucket (mapUnkIds : Int → Int) (vNew : Finset Int) : List UInt8 :=
  littleEndianSigned 4 vNew.card ++
    (inOrder vNew).flatMap fun nId => littleEndianSigned 4 (mapUnkIds nId)

def serialize (am : CAddrMan) : List UInt8 :=
  let out := writeNew am.nNew 0 (fun _ => 0) am.entries
  [0] ++ (hashBytes am.nKey ++ (littleEndianSigned 4 am.nNew ++ (littleEndianSigned 4 am.nTried ++
    (littleEndianSigned 4 ADDRMAN_NEW_BUCKET_COUNT ++ (out.1 ++ (writeTried am.nTried 0 am.entries ++
      (List.finRange ADDRMAN_NEW_BUCKET_COUNT).flatMap fun b => writeBucket out.2 (am.vvNew b)))))))

/-- The body of the first loop. -/
def loadNew (env : AddrEnv) (nUBuckets : Int) (n : Int) (info : CAddrInfo) (am : CAddrMan) : CAddrMan :=
  let info := { info with nRandomPos := am.vRandom.length }
  let am := { am.setInfo n info with
    mapAddr := am.mapAddr.insert info.toCNetAddr n
    vRandom := am.vRandom ++ [n] }
  if nUBuckets ≠ ADDRMAN_NEW_BUCKET_COUNT then
    let b := info.getNewBucket env am.nKey info.source
    { am.setInfo n { info with nRefCount := info.nRefCount + 1 } with
      vvNew := Function.update am.vvNew b (insert n (am.vvNew b)) }
  else am

/-- The body of the second loop, with `nLost`. -/
def loadTried (env : AddrEnv) (info : CAddrInfo) (nLost : Int) (am : CAddrMan) : Int × CAddrMan :=
  let nKBucket := info.getTriedBucket env am.nKey
  if (am.vvTried nKBucket).length < ADDRMAN_TRIED_BUCKET_SIZE then
    let info := { info with nRandomPos := am.vRandom.length, fInTried := true }
    (nLost, { am.setInfo am.nIdCount info with
      vRandom := am.vRandom ++ [am.nIdCount]
      mapAddr := am.mapAddr.insert info.toCNetAddr am.nIdCount
      vvTried := Function.update am.vvTried nKBucket (am.vvTried nKBucket ++ [am.nIdCount])
      nIdCount := am.nIdCount + 1 })
  else (nLost + 1, am)

/-- The body of the last loop. An id that is not there gets an entry. -/
def loadIndex (nUBuckets : Int) (b : NewBucket) (nIndex : Int) (am : CAddrMan) : CAddrMan :=
  let info := (am.mapInfo.lookup nIndex).getD .default
  let am := am.setInfo nIndex info
  if nUBuckets = ADDRMAN_NEW_BUCKET_COUNT ∧ info.nRefCount < ADDRMAN_NEW_BUCKETS_PER_ADDRESS then
    { am.setInfo nIndex { info with nRefCount := info.nRefCount + 1 } with
      vvNew := Function.update am.vvNew b (insert nIndex (am.vvNew b)) }
  else am

/-- One bucket; past the last one `vvNew[b]` is undefined, and nothing is read. -/
def readBucket (nUBuckets : Int) (am : CAddrMan) (b : Nat) : Reader CAddrMan :=
  if hb : b < ADDRMAN_NEW_BUCKET_COUNT then do
    let nSize ← readLittleEndianSigned 4
    (List.range nSize.toNat).foldlM (fun am _ => do
      let nIndex ← readLittleEndianSigned 4
      return am.loadIndex nUBuckets ⟨b, hb⟩ nIndex) am
  else failure

/-- `Unserialize`. All that was there before is overwritten. -/
def unserialize (env : AddrEnv) : Reader CAddrMan := do
  let _nVersion ← byte
  let nKey ← unserializeVector byteChunk byte
  let nNew ← readLittleEndianSigned 4
  let nTried ← readLittleEndianSigned 4
  let nUBuckets ← readLittleEndianSigned 4
  let am ← (List.range nNew.toNat).foldlM (fun (am : CAddrMan) (n : Nat) => do
    let info ← CAddrInfo.unserialize
    return am.loadNew env nUBuckets n info) { CAddrMan.new nKey with nNew, nTried }
  let (nLost, am) ← (List.range nTried.toNat).foldlM (fun (state : Int × CAddrMan) _ => do
    let info ← CAddrInfo.unserialize
    return state.2.loadTried env info state.1) (0, { am with nIdCount := nNew })
  (List.range nUBuckets.toNat).foldlM (readBucket nUBuckets) { am with nTried := am.nTried - nLost }

end CAddrMan

theorem htons_htons (port : UInt16) : htons (htons port) = port := by
  have hlt := port.toNat_lt
  unfold htons
  apply UInt16.toNat_inj.mp
  have hfits : port.toNat % 0x100 * 0x100 + port.toNat / 0x100 < 2 ^ 16 := by omega
  have hlow : (port.toNat % 0x100 * 0x100 + port.toNat / 0x100) % 0x100 = port.toNat / 0x100 := by omega
  have hhigh : (port.toNat % 0x100 * 0x100 + port.toNat / 0x100) / 0x100 = port.toNat % 0x100 := by omega
  rw [UInt16.toNat_ofNat', UInt16.toNat_ofNat', Nat.mod_eq_of_lt hfits, hlow, hhigh, Nat.div_add_mod',
    Nat.mod_eq_of_lt hlt]

theorem reads_netAddr (addr : CNetAddr) : Reads CNetAddr.unserialize addr.serialize addr := by
  have hread := (reads_littleEndian (k := 16) (n := addr.ip.toNat)
    (addr.ip.isLt.trans_le (by decide))).map (f := fun ip => (⟨BitVec.ofNat 128 ip⟩ : CNetAddr))
  rwa [BitVec.ofNat_toNat, BitVec.setWidth_eq] at hread

theorem reads_service (addr : CService) : Reads CService.unserialize addr.serialize addr := by
  have hport := (reads_littleEndian (k := 2) (n := (htons addr.port).toNat)
    ((htons addr.port).toNat_lt.trans_le (by decide))).map
      (f := fun portN => (⟨addr.toCNetAddr, htons (UInt16.ofNat portN)⟩ : CService))
  rw [UInt16.ofNat_toNat, htons_htons] at hport
  exact (reads_netAddr addr.toCNetAddr).bind hport

theorem reads_address (addr : CAddress) :
    Reads CAddress.unserialize addr.serialize { addr with nLastTry := 0 } := by
  have hread : Reads CAddress.unserialize addr.serialize {
      toCService := addr.toCService
      nServices := UInt64.ofNat addr.nServices.toNat
      nTime := UInt32.ofNat addr.nTime.toNat
      nLastTry := 0 } := by
    refine (reads_littleEndianSigned (k := 4) (by decide) (by decide)).bind ?_
    refine (reads_littleEndian (addr.nTime.toNat_lt.trans_le (by decide))).bind ?_
    refine (reads_littleEndian (addr.nServices.toNat_lt.trans_le (by decide))).bind ?_
    exact (reads_service addr.toCService).map
  rwa [UInt64.ofNat_toNat, UInt32.ofNat_toNat] at hread

/-- What of an entry is on disk. -/
def CAddrInfo.stored (info : CAddrInfo) : CAddrInfo :=
  { info with nLastTry := 0, nRefCount := 0, fInTried := false, nRandomPos := -1 }

/-- What of it there is again when it has been read. -/
def CAddrInfo.loaded (info : CAddrInfo) : CAddrInfo := { info.stored with fInTried := info.fInTried }

theorem reads_addrInfo (info : CAddrInfo) : Reads CAddrInfo.unserialize info.serialize info.stored := by
  have hsuccess := info.nLastSuccess.toInt_lt
  have hsuccess' := info.nLastSuccess.le_toInt
  have hattempts := info.nAttempts.toInt_lt
  have hattempts' := info.nAttempts.le_toInt
  have hread : Reads CAddrInfo.unserialize info.serialize { CAddrInfo.default with
      toCAddress := { info.toCAddress with nLastTry := 0 }
      source := info.source
      nLastSuccess := Int64.ofInt info.nLastSuccess.toInt
      nAttempts := Int32.ofInt info.nAttempts.toInt } := by
    refine (reads_address info.toCAddress).bind ((reads_netAddr info.source).bind ?_)
    refine (reads_littleEndianSigned (k := 8) (by omega) (by omega)).bind ?_
    exact (reads_littleEndianSigned (k := 4) (by omega) (by omega)).map
  rw [Int64.ofInt_toInt, Int32.ofInt_toInt] at hread
  exact hread

namespace CAddrMan

/-! ### What is written -/

def newEntries (entries : List (Int × CAddrInfo)) : List (Int × CAddrInfo) :=
  entries.filter fun entry => !entry.2.fInTried

def triedEntries (entries : List (Int × CAddrInfo)) : List (Int × CAddrInfo) :=
  entries.filter fun entry => entry.2.fInTried

/-- The entries in the order in which they are written. -/
def written (am : CAddrMan) : List (Int × CAddrInfo) := newEntries am.entries ++ triedEntries am.entries

/-- The id that an entry gets when it is read. -/
def renamed (am : CAddrMan) (nId : Int) : Int := (am.written.map Prod.fst).idxOf nId

section

variable {env : AddrEnv} {timed : Int64 → Prop} {am : CAddrMan} {nId : Int} {info : CAddrInfo}

/-- **The first loop** writes the new entries and numbers them. -/
theorem writeNew_spec {nNew : Int} {entries : List (Int × CAddrInfo)} (hnodup : (entries.map Prod.fst).Nodup)
    (hkind : ∀ entry ∈ entries, entry.2.nRefCount ≠ 0 ↔ entry.2.fInTried = false) {nIds : Int}
    (hnNew : nNew = nIds + (newEntries entries).length) (mapUnkIds : Int → Int) :
    ∃ out, writeNew nNew nIds mapUnkIds entries =
        ((newEntries entries).flatMap fun entry => entry.2.serialize, out) ∧
      (∀ x ∉ entries.map Prod.fst, out x = mapUnkIds x) ∧
      ∀ (k : Nat) (entry : Int × CAddrInfo), (newEntries entries)[k]? = some entry → out entry.1 = nIds + k := by
  induction entries generalizing nIds mapUnkIds with
  | nil => exact ⟨mapUnkIds, rfl, fun _ _ => rfl, nofun⟩
  | cons entry entries ih =>
    obtain ⟨nId, info⟩ := entry
    obtain ⟨hnot, hnodup⟩ := List.nodup_cons.mp hnodup
    obtain ⟨hhead, hkind⟩ := List.forall_mem_cons.mp hkind
    unfold writeNew
    by_cases hdone : nIds = nNew
    · -- There are no more new entries.
      have hnone : newEntries ((nId, info) :: entries) = [] := List.eq_nil_of_length_eq_zero (by omega)
      rw [if_pos hdone, hnone]
      exact ⟨mapUnkIds, rfl, fun _ _ => rfl, nofun⟩
    · rw [if_neg hdone]
      dsimp only
      by_cases hin : info.fInTried = false
      · have hcons : newEntries ((nId, info) :: entries) = (nId, info) :: newEntries entries := by
          simp [newEntries, hin]
        rw [hcons, List.length_cons] at hnNew
        have hnext : nNew = nIds + 1 + (newEntries entries).length := by omega
        obtain ⟨out, hrun, hout, hnum⟩ := ih hnodup hkind hnext (Function.update mapUnkIds nId nIds)
        rw [if_pos (hhead.mpr hin), hrun, hcons]
        refine ⟨out, rfl, fun x hx => ?_, fun k entry hk => ?_⟩
        · rw [List.map_cons, List.mem_cons, not_or] at hx
          rw [hout x hx.2, Function.update_of_ne hx.1]
        · cases k with
          | zero =>
            obtain rfl := Option.some.inj hk
            rw [hout nId hnot, Function.update_self]
            exact (Int.add_zero _).symm
          | succ k =>
            rw [hnum k entry hk]
            omega
      · have hcons : newEntries ((nId, info) :: entries) = newEntries entries := by
          simp [newEntries, hin]
        rw [hcons] at hnNew
        obtain ⟨out, hrun, hout, hnum⟩ := ih hnodup hkind hnNew (Function.update mapUnkIds nId nIds)
        rw [if_neg (mt hhead.mp hin), hrun, hcons]
        refine ⟨out, rfl, fun x hx => ?_, hnum⟩
        rw [List.map_cons, List.mem_cons, not_or] at hx
        rw [hout x hx.2, Function.update_of_ne hx.1]

/-- **The second loop** writes the tried ones. -/
theorem writeTried_spec {nTried : Int} {entries : List (Int × CAddrInfo)} {nIds : Int}
    (hnTried : nTried = nIds + (triedEntries entries).length) :
    writeTried nTried nIds entries = (triedEntries entries).flatMap fun entry => entry.2.serialize := by
  induction entries generalizing nIds with
  | nil => rfl
  | cons entry entries ih =>
    obtain ⟨nId, info⟩ := entry
    unfold writeTried
    by_cases hdone : nIds = nTried
    · have hnone : triedEntries ((nId, info) :: entries) = [] := List.eq_nil_of_length_eq_zero (by omega)
      rw [if_pos hdone, hnone]
      rfl
    · rw [if_neg hdone]
      cases hin : info.fInTried with
      | true =>
        have hcons : triedEntries ((nId, info) :: entries) = (nId, info) :: triedEntries entries := by
          simp [triedEntries, hin]
        rw [hcons, List.length_cons] at hnTried
        have hnext : nTried = nIds + 1 + (triedEntries entries).length := by omega
        rw [if_pos rfl, hcons, ih hnext]
        rfl
      | false =>
        have hcons : triedEntries ((nId, info) :: entries) = triedEntries entries := by
          simp [triedEntries, hin]
        rw [hcons] at hnTried
        rw [if_neg Bool.false_ne_true, hcons, ih hnTried]

theorem length_newEntries (h : Inv env timed am) : ((newEntries am.entries).length : Int) = am.nNew := by
  rw [h.placed.nNew]
  refine length_filter_entries (p := fun info => !info.fInTried) fun info => ?_
  cases hin : info.fInTried <;> simp [newWeight, hin]

theorem length_triedEntries (h : Inv env timed am) : ((triedEntries am.entries).length : Int) = am.nTried := by
  rw [h.placed.nTried]
  exact length_filter_entries (p := fun info => info.fInTried) fun _ => rfl

theorem written_perm (am : CAddrMan) : am.written.Perm am.entries := by
  refine List.perm_append_comm.trans ?_
  exact List.filter_append_perm (fun entry : Int × CAddrInfo => entry.2.fInTried) am.entries

theorem mem_written : (nId, info) ∈ am.written ↔ am.infoAt nId = some info :=
  (written_perm am).mem_iff.trans mem_entries

theorem nodup_written (am : CAddrMan) : (am.written.map Prod.fst).Nodup :=
  ((written_perm am).map Prod.fst).nodup_iff.mpr am.nodup_entries

theorem renamed_eq {k : Nat} {entry : Int × CAddrInfo} (hk : am.written[k]? = some entry) :
    am.renamed entry.1 = k := by
  have hfst : (am.written.map Prod.fst)[k]? = some entry.1 := by rw [List.getElem?_map, hk, Option.map_some]
  obtain ⟨hlt, hat⟩ := List.getElem?_eq_some_iff.mp hfst
  rw [renamed, ← hat, am.nodup_written.idxOf_getElem]

theorem exists_renamed (hget : am.infoAt nId = some info) :
    ∃ k : Nat, am.renamed nId = k ∧ am.written[k]? = some (nId, info) := by
  obtain ⟨k, hk⟩ := List.mem_iff_getElem?.mp (mem_written.mpr hget)
  exact ⟨k, renamed_eq hk, hk⟩

theorem renamed_injOn : Set.InjOn am.renamed {x | ∃ info, am.infoAt x = some info} := by
  rintro x ⟨infoX, hx⟩ y ⟨infoY, hy⟩ heq
  obtain ⟨k, hk, hxk⟩ := exists_renamed hx
  obtain ⟨l, hl, hyl⟩ := exists_renamed hy
  obtain rfl : k = l := by
    rw [hk, hl] at heq
    exact Int.ofNat.inj heq
  exact congrArg Prod.fst (Option.some.inj (hxk.symm.trans hyl))

/-! ### The entries that are read -/

/-- Tried buckets, and entries that say how often they are there. -/
def Tried (env : AddrEnv) (am : CAddrMan) : Prop :=
  ∀ x b, (am.vvTried b).count x = triedIn env am.nKey (am.infoAt x) b

theorem Tried.mem_iff (h : Tried env am) {b : TriedBucket} : nId ∈ am.vvTried b ↔
    ∃ info, am.infoAt nId = some info ∧ info.fInTried = true ∧ info.getTriedBucket env am.nKey = b := by
  rw [← List.count_pos_iff, h]
  cases am.infoAt nId with
  | none => simp [triedIn]
  | some info =>
    rw [triedIn]
    split_ifs with hin
    · simp [hin]
    · simpa using hin

theorem Tried.nodup (h : Tried env am) (b : TriedBucket) : (am.vvTried b).Nodup := by
  refine List.nodup_iff_count_le_one.mpr fun x => ?_
  rw [h]
  unfold triedIn
  split
  · exact Nat.zero_le _
  · split_ifs
    · exact le_rfl
    · exact Nat.zero_le _

theorem Placed.inTried (h : Placed env timed am none) : Tried env am := fun x => (h.at_id x).tried

/-- The address manager `am` while the entries of `am₀` are read: these are the ones read so far, which
got their places as ids, and the tried ones among them are in their buckets. -/
structure Loading (env : AddrEnv) (am₀ : CAddrMan) (known : List CAddrInfo) (am : CAddrMan) : Prop where
  nKey : am.nKey = am₀.nKey
  nNew : am.nNew = am₀.nNew
  nTried : am.nTried = am₀.nTried
  linked : Linked { am with nIdCount := known.length }
  infoAt : ∀ k : Nat, am.infoAt k = known[k]?.map fun info => { info with nRandomPos := (k : Int) }
  random : am.vRandom.length = known.length
  tried : Tried env am
  length : ∀ b, (am.vvTried b).length =
    known.countP fun info => decide (info.fInTried = true ∧ info.getTriedBucket env am.nKey = b)
  new : ∀ b, am.vvNew b = ∅

variable {am₀ am' : CAddrMan} {known : List CAddrInfo}

theorem Loading.start (env : AddrEnv) (am₀ : CAddrMan) :
    Loading env am₀ [] { CAddrMan.new am₀.nKey with nNew := am₀.nNew, nTried := am₀.nTried } where
  nKey := rfl
  nNew := rfl
  nTried := rfl
  linked := by
    refine ⟨le_rfl, (by decide : (0 : Int) ≤ INT_MAX), nofun, fun addr nId => ⟨nofun, ?_⟩, .nil⟩
    rintro ⟨info, hget, -⟩
    cases hget
  infoAt _ := rfl
  random := rfl
  tried _ _ := rfl
  length _ := rfl
  new _ := rfl

/-- **One more entry is read**, with an address that none of the others has. -/
theorem Loading.push (h : Loading env am₀ known am) (hlt : (known.length : Int) < INT_MAX)
    (hfresh : ∀ i ∈ known, i.toCNetAddr ≠ info.toCNetAddr)
    (hkey : am'.nKey = am.nKey) (hnNew : am'.nNew = am.nNew) (hnTried : am'.nTried = am.nTried)
    (hinfo : am'.mapInfo = am.mapInfo.insert (known.length : Int) { info with nRandomPos := am.vRandom.length })
    (haddr : am'.mapAddr = am.mapAddr.insert info.toCNetAddr (known.length : Int))
    (hrandom : am'.vRandom = am.vRandom ++ [(known.length : Int)])
    (htried : ∀ b, am'.vvTried b = am.vvTried b ++
      if info.fInTried = true ∧ info.getTriedBucket env am.nKey = b then [(known.length : Int)] else [])
    (hnew : am'.vvNew = am.vvNew) : Loading env am₀ (known ++ [info]) am' := by
  have hnone : am.infoAt known.length = none := by rw [h.infoAt, List.getElem?_eq_none le_rfl, Option.map_none]
  have hinfoAt : am'.infoAt = Function.update am.infoAt known.length
      (some { info with nRandomPos := (known.length : Int) }) := by
    have hinsert := lookup_insert am.mapInfo known.length { info with nRandomPos := am.vRandom.length }
    rw [← hinfo, h.random] at hinsert
    exact hinsert
  refine ⟨hkey.trans h.nKey, hnNew.trans h.nNew, hnTried.trans h.nTried, ?_, fun k => ?_, ?_, fun x b => ?_,
    fun b => ?_, fun b => by rw [hnew, h.new]⟩
  · have hunknown : am.mapAddr.lookup info.toCNetAddr = none := by
      cases hlookup : am.mapAddr.lookup info.toCNetAddr with
      | none => rfl
      | some x =>
        obtain ⟨i, hget, heq⟩ := (h.linked.address _ x).mp hlookup
        obtain ⟨hpos, -⟩ := h.linked.ids x i hget
        have hat := h.infoAt x.toNat
        rw [Int.toNat_of_nonneg hpos, show am.infoAt x = some i from hget] at hat
        obtain ⟨i', hmem, rfl⟩ := Option.map_eq_some_iff.mp hat.symm
        exact absurd heq (hfresh i' (List.mem_of_getElem? hmem))
    have hunknown' : am.mapAddr.lookup
        ({ info with nRandomPos := (known.length : Int) } : CAddrInfo).toCNetAddr = none := hunknown
    refine h.linked.create hunknown' ?_ hlt ?_ hinfoAt haddr hrandom
    · rw [h.random]
    · simp
  · rw [hinfoAt, Function.update_apply, List.getElem?_append]
    split_ifs with heq hk hk
    · omega
    · rw [Int.natCast_inj.mp heq, Nat.sub_self]
      rfl
    · exact h.infoAt k
    · rw [h.infoAt, List.getElem?_eq_none (Nat.not_lt.mp hk), List.getElem?_eq_none (by simp; omega)]
  · rw [hrandom, List.length_append, List.length_append, h.random]
    rfl
  · rw [htried, List.count_append, h.tried, hinfoAt, hkey]
    by_cases hx : x = known.length
    · subst hx
      have hin : triedIn env am.nKey (some { info with nRandomPos := (known.length : Int) }) b =
        if info.fInTried = true ∧ info.getTriedBucket env am.nKey = b then 1 else 0 := rfl
      rw [Function.update_self, hnone, hin, triedIn]
      split_ifs <;> simp
    · rw [Function.update_of_ne hx]
      split_ifs <;> simp [Ne.symm hx]
  · rw [htried, List.length_append, h.length, hkey, List.countP_append, List.countP_singleton]
    split_ifs <;> simp_all

theorem fresh_of_nodup {entry : Int × CAddrInfo} {entries : List (Int × CAddrInfo)}
    (hnodup : ((known ++ (entry :: entries).map fun entry => entry.2.loaded).map (·.toCNetAddr)).Nodup) :
    ∀ i ∈ known, i.toCNetAddr ≠ entry.2.loaded.toCNetAddr := by
  intro i hi heq
  rw [List.map_append, List.nodup_append] at hnodup
  exact hnodup.2.2 _ (List.mem_map_of_mem hi) _ (List.mem_map_of_mem List.mem_cons_self) heq

/-- **The first loop** of the reader. -/
theorem Loading.news (h : Loading env am₀ known am) (entries : List (Int × CAddrInfo))
    (hkind : ∀ entry ∈ entries, entry.2.fInTried = false)
    (hlt : ((known.length + entries.length : Nat) : Int) ≤ INT_MAX)
    (hnodup : ((known ++ entries.map fun entry => entry.2.loaded).map (·.toCNetAddr)).Nodup) :
    Loading env am₀ (known ++ entries.map fun entry => entry.2.loaded)
      ((entries.zipIdx known.length).foldl (fun am (entry : (Int × CAddrInfo) × Nat) =>
        am.loadNew env ADDRMAN_NEW_BUCKET_COUNT entry.2 entry.1.2.stored) am) := by
  induction entries generalizing known am with
  | nil =>
    rw [List.map_nil, List.append_nil]
    exact h
  | cons entry entries ih =>
    obtain ⟨hin, hkind⟩ := List.forall_mem_cons.mp hkind
    rw [List.length_cons] at hlt
    have hsame : entry.2.stored = entry.2.loaded := by rw [CAddrInfo.loaded, hin]; rfl
    have hpush : Loading env am₀ (known ++ [entry.2.loaded])
        (am.loadNew env ADDRMAN_NEW_BUCKET_COUNT known.length entry.2.stored) := by
      rw [hsame, loadNew]
      dsimp only
      rw [if_neg (not_not.mpr rfl)]
      refine h.push (by omega) (fresh_of_nodup hnodup) rfl rfl rfl rfl rfl rfl (fun b => ?_) rfl
      rw [if_neg (fun hand => Bool.false_ne_true (hin.symm.trans hand.1)), List.append_nil]
      rfl
    rw [List.map_cons, List.append_cons] at hnodup ⊢
    have hrest := ih hpush hkind (by rw [List.length_append, List.length_singleton]; omega) hnodup
    rwa [List.length_append, List.length_singleton] at hrest

/-- **The second loop** of the reader: there is room for all tried entries. -/
theorem Loading.trieds (h : Loading env am₀ known am) (entries : List (Int × CAddrInfo))
    (hcount : am.nIdCount = known.length) (hkind : ∀ entry ∈ entries, entry.2.fInTried = true)
    (hlt : ((known.length + entries.length : Nat) : Int) ≤ INT_MAX)
    (hnodup : ((known ++ entries.map fun entry => entry.2.loaded).map (·.toCNetAddr)).Nodup)
    (hroom : ∀ b, ((known ++ entries.map fun entry => entry.2.loaded).countP fun info =>
      decide (info.fInTried = true ∧ info.getTriedBucket env am₀.nKey = b)) ≤ ADDRMAN_TRIED_BUCKET_SIZE) :
    ∃ am', (entries.foldl (fun (state : Int × CAddrMan) entry =>
        state.2.loadTried env entry.2.stored state.1) (0, am)) = (0, am') ∧
      Loading env am₀ (known ++ entries.map fun entry => entry.2.loaded) am' ∧
      am'.nIdCount = (known ++ entries.map fun entry => entry.2.loaded).length := by
  induction entries generalizing known am with
  | nil =>
    rw [List.map_nil, List.append_nil]
    exact ⟨am, rfl, h, hcount⟩
  | cons entry entries ih =>
    obtain ⟨hin, hkind⟩ := List.forall_mem_cons.mp hkind
    rw [List.length_cons] at hlt
    have hloaded : entry.2.loaded = { entry.2.stored with fInTried := true } := by rw [CAddrInfo.loaded, hin]
    obtain ⟨b, hb⟩ : ∃ b, entry.2.stored.getTriedBucket env am.nKey = b := ⟨_, rfl⟩
    have hb' : entry.2.loaded.getTriedBucket env am.nKey = b := hb
    have hshort : (am.vvTried b).length < ADDRMAN_TRIED_BUCKET_SIZE := by
      have hone : decide (entry.2.loaded.fInTried = true ∧
          entry.2.loaded.getTriedBucket env am.nKey = b) = true :=
        decide_eq_true ⟨hin, hb'⟩
      have hle := hroom b
      rw [← h.nKey, List.countP_append, List.map_cons, List.countP_cons, hone] at hle
      rw [h.length]
      simp only [if_true] at hle
      omega
    let am₁ : CAddrMan := (am.loadTried env entry.2.stored 0).2
    have hload : am.loadTried env entry.2.stored 0 = (0, am₁) := by
      simp only [am₁, loadTried, hb, if_pos hshort]
    have hpush : Loading env am₀ (known ++ [entry.2.loaded]) am₁ := by
      simp only [am₁, loadTried, hb, if_pos hshort]
      refine h.push (by omega) (fresh_of_nodup hnodup) rfl rfl rfl ?_ ?_ ?_ (fun b' => ?_) rfl
      · rw [hcount, hloaded]
        rfl
      · rw [hcount]
        rfl
      · rw [hcount]
      · rw [hb', hcount]
        dsimp only
        by_cases hbb : b' = b
        · subst hbb
          rw [Function.update_self, if_pos ⟨hin, rfl⟩]
        · rw [Function.update_of_ne hbb, if_neg (fun hand => hbb hand.2.symm), List.append_nil]
    have hcount₁ : am₁.nIdCount = (known ++ [entry.2.loaded]).length := by
      simp only [am₁, loadTried, hb, if_pos hshort, List.length_append, List.length_singleton]
      rw [hcount]
      rfl
    rw [List.map_cons, List.append_cons] at hnodup hroom ⊢
    rw [List.foldl_cons, hload]
    exact ih hpush hcount₁ hkind (by rw [List.length_append, List.length_singleton]; omega) hnodup hroom

/-! ### The buckets that are read -/

/-- The address manager while the new buckets are read: `done` are the ids read so far, with their
buckets, and each entry has been counted as often. -/
structure Indexing (am₁ : CAddrMan) (done : List (NewBucket × Int)) (am : CAddrMan) : Prop where
  frame : { am with mapInfo := am₁.mapInfo, vvNew := am₁.vvNew } = am₁
  infoAt : ∀ x, am.infoAt x =
    (am₁.infoAt x).map fun info => { info with nRefCount := ((am.bucketsOf x).card : Int) }
  new : ∀ b x, x ∈ am.vvNew b ↔ (b, x) ∈ done

variable {am₁ : CAddrMan} {done : List (NewBucket × Int)} {b : NewBucket} {x : Int}

/-- **One more id is read**: its entry has room for the reference. -/
theorem Indexing.push (h : Indexing am₁ done am) (hknown : ∃ info, am₁.infoAt x = some info)
    (hfresh : (b, x) ∉ done) (hroom : (am.bucketsOf x).card < ADDRMAN_NEW_BUCKETS_PER_ADDRESS) :
    Indexing am₁ (done ++ [(b, x)]) (am.loadIndex ADDRMAN_NEW_BUCKET_COUNT b x) := by
  obtain ⟨info, hget₁⟩ := hknown
  have hget := h.infoAt x
  rw [hget₁, Option.map_some] at hget
  generalize hinfo : ({ info with nRefCount := ((am.bucketsOf x).card : Int) } : CAddrInfo) = info' at hget
  have hrefs : info'.nRefCount = (am.bucketsOf x).card := by rw [← hinfo]
  have hb : x ∉ am.vvNew b := fun hmem => hfresh ((h.new b x).mp hmem)
  -- What the loop does, where the entry is there and has room.
  have hload : am.loadIndex ADDRMAN_NEW_BUCKET_COUNT b x =
      { (am.setInfo x info').setInfo x { info' with nRefCount := info'.nRefCount + 1 } with
        vvNew := Function.update am.vvNew b (insert x (am.vvNew b)) } := by
    have hlookup : am.mapInfo.lookup x = some info' := hget
    rw [loadIndex, hlookup, Option.getD_some]
    dsimp only
    rw [if_pos ⟨rfl, by omega⟩]
    rfl
  have hinfoAt : (am.loadIndex ADDRMAN_NEW_BUCKET_COUNT b x).infoAt =
      Function.update am.infoAt x (some { info' with nRefCount := info'.nRefCount + 1 }) := by
    rw [hload]
    refine (infoAt_setInfo (am.setInfo x info') x _).trans ?_
    rw [infoAt_setInfo, Function.update_idem]
  have hvvNew : (am.loadIndex ADDRMAN_NEW_BUCKET_COUNT b x).vvNew =
      Function.update am.vvNew b (insert x (am.vvNew b)) := by rw [hload]
  refine ⟨?_, fun y => ?_, fun b' y => ?_⟩
  · rw [hload]
    exact h.frame
  · rw [hinfoAt]
    by_cases hy : y = x
    · subst hy
      have hbuckets : (am.loadIndex ADDRMAN_NEW_BUCKET_COUNT b y).bucketsOf y = insert b (am.bucketsOf y) := by
        ext b'
        rw [mem_bucketsOf, hvvNew, mem_update_insert, Finset.mem_insert, mem_bucketsOf]
        simp [or_comm]
      rw [Function.update_self, hget₁, Option.map_some, hbuckets,
        Finset.card_insert_of_notMem (by rwa [mem_bucketsOf]), hrefs, ← hinfo]
      rfl
    · have hbuckets : (am.loadIndex ADDRMAN_NEW_BUCKET_COUNT b x).bucketsOf y = am.bucketsOf y :=
        bucketsOf_congr fun b' => by rw [hvvNew, mem_update_insert]; simp [hy]
      rw [Function.update_of_ne hy, h.infoAt, hbuckets]
  · rw [hvvNew, mem_update_insert, h.new, List.mem_append, List.mem_singleton, Prod.mk.injEq]
    simp [and_comm]

/-- **The last loop** of the reader: every entry has room for its references. -/
theorem Indexing.all (h : Indexing am₁ done am) (todo : List (NewBucket × Int)) (hnodup : (done ++ todo).Nodup)
    (hknown : ∀ p ∈ todo, ∃ info, am₁.infoAt p.2 = some info)
    (hroom : ∀ x, (Finset.univ.filter fun b => (b, x) ∈ done ++ todo).card ≤ ADDRMAN_NEW_BUCKETS_PER_ADDRESS) :
    Indexing am₁ (done ++ todo) (todo.foldl (fun am (p : NewBucket × Int) =>
      am.loadIndex ADDRMAN_NEW_BUCKET_COUNT p.1 p.2) am) := by
  induction todo generalizing done am with
  | nil =>
    rw [List.append_nil]
    exact h
  | cons p todo ih =>
    obtain ⟨b, x⟩ := p
    obtain ⟨hx, hknown⟩ := List.forall_mem_cons.mp hknown
    have hfresh : (b, x) ∉ done := fun hmem =>
      (List.nodup_append.mp hnodup).2.2 _ hmem _ List.mem_cons_self rfl
    have hlt : (am.bucketsOf x).card < ADDRMAN_NEW_BUCKETS_PER_ADDRESS := by
      refine (Finset.card_lt_card (Finset.ssubset_iff_of_subset (fun b' hb' => ?_) |>.mpr
        ⟨b, ?_, ?_⟩)).trans_le (hroom x)
      · rw [mem_bucketsOf, h.new] at hb'
        exact Finset.mem_filter.mpr ⟨Finset.mem_univ _, List.mem_append_left _ hb'⟩
      · exact Finset.mem_filter.mpr ⟨Finset.mem_univ _, List.mem_append_right _ List.mem_cons_self⟩
      · rwa [mem_bucketsOf, h.new]
    have hpush := h.push hx hfresh hlt
    rw [List.append_cons] at hnodup hroom ⊢
    exact ih hpush hnodup hknown hroom

/-! ### Reading what was written -/

/-- The ids in the new buckets, in the order in which they are written. -/
def indexed (am : CAddrMan) : List (NewBucket × Int) :=
  (List.finRange ADDRMAN_NEW_BUCKET_COUNT).flatMap fun b =>
    (inOrder (am.vvNew b)).map fun x => (b, am.renamed x)

theorem reads_bucket {vNew : Finset Int} {mapUnkIds : Int → Int} (b : NewBucket)
    (hcard : (vNew.card : Int) ≤ INT_MAX) (hids : ∀ x ∈ vNew, 0 ≤ mapUnkIds x ∧ mapUnkIds x ≤ INT_MAX)
    (am : CAddrMan) : Reads (readBucket ADDRMAN_NEW_BUCKET_COUNT am b) (writeBucket mapUnkIds vNew)
      (((inOrder vNew).map fun x => (b, mapUnkIds x)).foldl (fun am (p : NewBucket × Int) =>
        am.loadIndex ADDRMAN_NEW_BUCKET_COUNT p.1 p.2) am) := by
  have hmax : 2 * INT_MAX < (256 ^ 4 : Nat) := by decide
  have hread : Reads ((List.range (inOrder vNew).length).foldlM (fun am _ => do
      let nIndex ← readLittleEndianSigned 4
      return am.loadIndex ADDRMAN_NEW_BUCKET_COUNT b nIndex) am)
      ((inOrder vNew).flatMap fun x => littleEndianSigned 4 (mapUnkIds x))
      ((inOrder vNew).foldl (fun am x => am.loadIndex ADDRMAN_NEW_BUCKET_COUNT b (mapUnkIds x)) am) := by
    refine Reads.foldlM_times fun x hx am => ?_
    obtain ⟨hlow, hhigh⟩ := hids x (mem_inOrder.mp hx)
    exact (reads_littleEndianSigned (by omega) (by omega)).map
  rw [length_inOrder] at hread
  unfold readBucket writeBucket
  rw [dif_pos b.isLt]
  refine (reads_littleEndianSigned (k := 4) (by omega) (by omega)).bind ?_
  rwa [Int.toNat_natCast, List.foldl_map]

theorem reads_news (env : AddrEnv) (nUBuckets : Int) (entries : List (Int × CAddrInfo)) (am : CAddrMan) :
    Reads ((List.range entries.length).foldlM (fun (am : CAddrMan) (n : Nat) => do
        let info ← CAddrInfo.unserialize
        return am.loadNew env nUBuckets n info) am) (entries.flatMap fun entry => entry.2.serialize)
      (entries.zipIdx.foldl (fun am (entry : (Int × CAddrInfo) × Nat) =>
        am.loadNew env nUBuckets entry.2 entry.1.2.stored) am) :=
  Reads.foldlM_range fun entry _ _ => (reads_addrInfo entry.1.2).map

theorem reads_trieds (env : AddrEnv) (entries : List (Int × CAddrInfo)) (state : Int × CAddrMan) :
    Reads ((List.range entries.length).foldlM (fun (state : Int × CAddrMan) _ => do
        let info ← CAddrInfo.unserialize
        return state.2.loadTried env info state.1) state) (entries.flatMap fun entry => entry.2.serialize)
      (entries.foldl (fun (state : Int × CAddrMan) entry =>
        state.2.loadTried env entry.2.stored state.1) state) :=
  Reads.foldlM_times fun entry _ _ => (reads_addrInfo entry.2).map

theorem reads_buckets {mapUnkIds : Int → Int} (hcard : ∀ b, ((am₀.vvNew b).card : Int) ≤ INT_MAX)
    (hids : ∀ b, ∀ x ∈ am₀.vvNew b, mapUnkIds x = am₀.renamed x)
    (hrenamed : ∀ b, ∀ x ∈ am₀.vvNew b, 0 ≤ am₀.renamed x ∧ am₀.renamed x ≤ INT_MAX) (am : CAddrMan) :
    Reads ((List.range ADDRMAN_NEW_BUCKET_COUNT).foldlM (readBucket ADDRMAN_NEW_BUCKET_COUNT) am)
      ((List.finRange ADDRMAN_NEW_BUCKET_COUNT).flatMap fun b => writeBucket mapUnkIds (am₀.vvNew b))
      (am₀.indexed.foldl (fun am (p : NewBucket × Int) =>
        am.loadIndex ADDRMAN_NEW_BUCKET_COUNT p.1 p.2) am) := by
  have hread : Reads (((List.finRange ADDRMAN_NEW_BUCKET_COUNT).map Fin.val).foldlM
      (readBucket ADDRMAN_NEW_BUCKET_COUNT) am)
      ((List.finRange ADDRMAN_NEW_BUCKET_COUNT).flatMap fun b => writeBucket mapUnkIds (am₀.vvNew b)) _ :=
    Reads.foldlM fun b _ am => reads_bucket b (hcard b) (fun x hx => hids b x hx ▸ hrenamed b x hx) am
  have hmap : ∀ b, (inOrder (am₀.vvNew b)).map (fun x => (b, mapUnkIds x)) =
      (inOrder (am₀.vvNew b)).map fun x => (b, am₀.renamed x) := fun b =>
    List.map_congr_left fun x hx => by rw [hids b x (mem_inOrder.mp hx)]
  simp only [hmap] at hread
  rwa [List.map_coe_finRange_eq_range, ← List.foldl_flatMap] at hread

/-- What the reader is given belongs together. -/
structure Readable (env : AddrEnv) (am : CAddrMan) : Prop where
  addresses : ((am.written.map fun entry => entry.2.loaded).map (·.toCNetAddr)).Nodup
  length_le : (am.written.length : Int) ≤ INT_MAX
  room : ∀ b, ((am.written.map fun entry => entry.2.loaded).countP fun info =>
    decide (info.fInTried = true ∧ info.getTriedBucket env am.nKey = b)) ≤ ADDRMAN_TRIED_BUCKET_SIZE
  indexed_nodup : am.indexed.Nodup
  indexed_known : ∀ p ∈ am.indexed, ∃ entry, p.2 = (entry : Nat) ∧ entry < am.written.length
  references : ∀ x, (Finset.univ.filter fun b => (b, x) ∈ am.indexed).card ≤ ADDRMAN_NEW_BUCKETS_PER_ADDRESS

theorem length_written_le (h : Inv env timed am) : (am.written.length : Int) ≤ INT_MAX := by
  have hsub : (am.entries.map Prod.fst).toFinset ⊆ Finset.Ico 0 am.nIdCount := by
    intro x hx
    obtain ⟨entry, hmem, rfl⟩ := List.mem_map.mp (List.mem_toFinset.mp hx)
    exact Finset.mem_Ico.mpr (h.linked.ids _ _ (mem_entries.mp hmem))
  have hcard := Finset.card_le_card hsub
  rw [List.toFinset_card_of_nodup am.nodup_entries, List.length_map, Int.card_Ico, Int.sub_zero] at hcard
  have hcount := h.linked.count_le
  have hnonneg := h.linked.count_nonneg
  rw [(written_perm am).length_eq]
  omega

theorem mem_indexed {b : NewBucket} {y : Int} : (b, y) ∈ am.indexed ↔ ∃ x ∈ am.vvNew b, am.renamed x = y := by
  simp only [indexed, List.mem_flatMap, List.mem_finRange, true_and, List.mem_map, mem_inOrder,
    Prod.mk.injEq]
  constructor
  · rintro ⟨b', x, hx, rfl, rfl⟩
    exact ⟨x, hx, rfl⟩
  · rintro ⟨x, hx, rfl⟩
    exact ⟨b, x, hx, rfl, rfl⟩

/-- The buckets of an entry keep its references. -/
theorem mem_indexed_renamed (h : Inv env timed am) (hget : am.infoAt nId = some info) {b : NewBucket} :
    (b, am.renamed nId) ∈ am.indexed ↔ nId ∈ am.vvNew b := by
  rw [mem_indexed]
  constructor
  · rintro ⟨x, hx, heq⟩
    rwa [← renamed_injOn (h.placed.known_new hx nofun) ⟨info, hget⟩ heq]
  · exact fun hmem => ⟨nId, hmem, rfl⟩

theorem indexed_buckets (h : Inv env timed am) (hget : am.infoAt nId = some info) :
    (Finset.univ.filter fun b => (b, am.renamed nId) ∈ am.indexed) = am.bucketsOf nId := by
  ext b
  rw [Finset.mem_filter, mem_indexed_renamed h hget, mem_bucketsOf]
  exact ⟨And.right, fun hmem => ⟨Finset.mem_univ _, hmem⟩⟩

theorem Inv.readable (h : Inv env timed am) : Readable env am where
  addresses := by
    rw [List.map_map]
    refine List.Nodup.map_on ?_ am.nodup_written.of_map
    rintro ⟨x, infoX⟩ hx ⟨y, infoY⟩ hy heq
    have hgetX := mem_written.mp hx
    have hgetY := mem_written.mp hy
    have haddrX := (h.linked.address _ x).mpr ⟨infoX, hgetX, rfl⟩
    have haddrY := (h.linked.address _ y).mpr ⟨infoY, hgetY, heq.symm⟩
    obtain rfl := Option.some.inj (haddrX.symm.trans haddrY)
    rw [Option.some.inj (hgetX.symm.trans hgetY)]
  length_le := length_written_le h
  room b := by
    have hperm : ((am.written.filter fun entry => decide (entry.2.fInTried = true ∧
        entry.2.getTriedBucket env am.nKey = b)).map Prod.fst).Perm (am.vvTried b) := by
      refine (List.perm_ext_iff_of_nodup (am.nodup_written.sublist (List.filter_sublist.map _))
        (h.placed.inTried.nodup b)).mpr fun x => ?_
      simp only [h.placed.inTried.mem_iff, List.mem_map, List.mem_filter, Prod.exists, exists_and_right,
        exists_eq_right, mem_written, decide_eq_true_eq]
    have hlen := hperm.length_eq
    rw [List.length_map, ← List.countP_eq_length_filter] at hlen
    rw [List.countP_map]
    exact hlen.trans_le (h.sized.tried b)
  indexed_nodup := by
    refine List.nodup_flatMap.mpr ⟨fun b _ => ?_, (List.nodup_finRange _).imp fun {b b'} hne => ?_⟩
    · refine List.Nodup.map_on (fun x hx y hy heq => ?_) (nodup_inOrder _)
      exact renamed_injOn (h.placed.known_new (mem_inOrder.mp hx) nofun)
        (h.placed.known_new (mem_inOrder.mp hy) nofun) (congrArg Prod.snd heq)
    · rintro ⟨b'', x⟩ hx hx'
      obtain ⟨_, _, heq⟩ := List.mem_map.mp hx
      obtain ⟨_, _, heq'⟩ := List.mem_map.mp hx'
      exact hne ((congrArg Prod.fst heq).trans (congrArg Prod.fst heq').symm)
  indexed_known := by
    rintro ⟨b, y⟩ hmem
    obtain ⟨x, hx, rfl⟩ := mem_indexed.mp hmem
    obtain ⟨info, hget⟩ := h.placed.known_new hx nofun
    obtain ⟨k, hk, hat⟩ := exists_renamed hget
    exact ⟨k, hk, (List.getElem?_eq_some_iff.mp hat).1⟩
  references y := by
    by_cases hknown : ∃ b, (b, y) ∈ am.indexed
    · obtain ⟨b, hmem⟩ := hknown
      obtain ⟨x, hx, rfl⟩ := mem_indexed.mp hmem
      obtain ⟨info, hget⟩ := h.placed.known_new hx nofun
      have hrefs := (h.placed.at_id x).refs
      have hrange := (h.placed.at_id x).range info hget
      rw [if_neg nofun, hget, Option.elim_some] at hrefs
      rw [indexed_buckets h hget]
      split_ifs at hrange
      · omega
      · omega
    · rw [Finset.filter_eq_empty_iff.mpr fun b _ hmem => hknown ⟨b, hmem⟩]
      exact Nat.zero_le _

theorem Loading.counted (h : Loading env am₀ known am) (n : Int) : Loading env am₀ known { am with nIdCount := n } :=
  ⟨h.nKey, h.nNew, h.nTried, h.linked, h.infoAt, h.random, h.tried, h.length, h.new⟩

theorem Loading.nothingLost (h : Loading env am₀ known am) :
    Loading env am₀ known { am with nTried := am.nTried - 0 } := by
  rw [Int.sub_zero]
  exact h

theorem Loading.at_written (h : Loading env am₀ (am₀.written.map fun entry => entry.2.loaded) am)
    {k : Nat} {entry : Int × CAddrInfo} (hk : am₀.written[k]? = some entry) :
    am.infoAt k = some { entry.2.loaded with nRandomPos := (k : Int) } := by
  rw [h.infoAt, List.getElem?_map, hk, Option.map_some, Option.map_some]

theorem Loading.known_iff (h : Loading env am₀ (am₀.written.map fun entry => entry.2.loaded) am)
    {x : Int} {info : CAddrInfo} (hget : am.infoAt x = some info) :
    ∃ (k : Nat) (entry : Int × CAddrInfo), x = k ∧ am₀.written[k]? = some entry := by
  obtain ⟨hpos, -⟩ := h.linked.ids x info hget
  have hat := h.infoAt x.toNat
  rw [Int.toNat_of_nonneg hpos, hget, List.getElem?_map] at hat
  obtain ⟨i, hi, -⟩ := Option.map_eq_some_iff.mp hat.symm
  obtain ⟨entry, hentry, -⟩ := Option.map_eq_some_iff.mp hi
  exact ⟨x.toNat, entry, (Int.toNat_of_nonneg hpos).symm, hentry⟩

theorem Indexing.start (h : Loading env am₀ (am₀.written.map fun entry => entry.2.loaded) am) :
    Indexing am [] am where
  frame := rfl
  infoAt x := by
    have hnone : am.bucketsOf x = ∅ := by
      ext b
      rw [mem_bucketsOf, h.new]
      simp
    rw [hnone, Finset.card_empty]
    cases hget : am.infoAt x with
    | none => rfl
    | some info =>
      obtain ⟨k, entry, rfl, hk⟩ := h.known_iff hget
      rw [h.at_written hk] at hget
      obtain rfl := Option.some.inj hget
      rfl
  new b x := by
    rw [h.new]
    simp

/-- **The reader and the writer**, loop by loop. -/
theorem reads_serialize (h : Inv env timed am) : ∃ am₁ am', Reads (unserialize env) am.serialize am' ∧
    Loading env am (am.written.map fun entry => entry.2.loaded) am₁ ∧
    am₁.nIdCount = am.written.length ∧ Indexing am₁ am.indexed am' := by
  have hmax : 2 * INT_MAX < (256 ^ 4 : Nat) := by decide
  obtain ⟨haddresses, hle, hroom, hnodup, hids, hrefs⟩ := h.readable
  have hnNew : am.nNew = 0 + ((newEntries am.entries).length : Int) := by
    rw [Int.zero_add, length_newEntries h]
  have hnTried : am.nTried = 0 + ((triedEntries am.entries).length : Int) := by
    rw [Int.zero_add, length_triedEntries h]
  have hlength : am.written.length = (newEntries am.entries).length + (triedEntries am.entries).length :=
    List.length_append
  -- what the writer does
  have hkind : ∀ entry ∈ am.entries, entry.2.nRefCount ≠ 0 ↔ entry.2.fInTried = false := by
    intro entry hmem
    have hrange := (h.placed.at_id entry.1).range entry.2 (mem_entries.mp hmem)
    cases hin : entry.2.fInTried
    · rw [hin, if_neg Bool.false_ne_true] at hrange
      exact iff_of_true (by omega) rfl
    · rw [hin, if_pos rfl] at hrange
      exact iff_of_false (not_not.mpr hrange) nofun
  obtain ⟨out, hwrite, -, hnum⟩ := writeNew_spec am.nodup_entries hkind hnNew fun _ => 0
  have hwriteTried := writeTried_spec hnTried
  have hout : ∀ b, ∀ x ∈ am.vvNew b, out x = am.renamed x := by
    intro b x hx
    obtain ⟨info, hget⟩ := h.placed.known_new hx nofun
    have hin : info.fInTried = false := by
      have hrefs := (h.placed.at_id x).refs
      have hpos : 0 < (am.bucketsOf x).card := Finset.card_pos.mpr ⟨b, mem_bucketsOf.mpr hx⟩
      rw [if_neg nofun, hget, Option.elim_some] at hrefs
      exact (hkind (x, info) (mem_entries.mpr hget)).mp (by dsimp only; omega)
    obtain ⟨k, hk⟩ := List.mem_iff_getElem?.mp
      (List.mem_filter.mpr ⟨mem_entries.mpr hget, by simp [hin]⟩ : (x, info) ∈ newEntries am.entries)
    have hk' : am.written[k]? = some (x, info) :=
      (List.getElem?_append_left (List.getElem?_eq_some_iff.mp hk).1).trans hk
    rw [hnum k _ hk, Int.zero_add]
    exact (renamed_eq hk').symm
  -- what the reader does
  have hadded : ((newEntries am.entries).map fun entry => entry.2.loaded) ++
      ((triedEntries am.entries).map fun entry => entry.2.loaded) = am.written.map fun entry => entry.2.loaded :=
    (List.map_append ..).symm
  have hnews := (Loading.start env am).news (newEntries am.entries)
    (fun entry hmem => by simpa using (List.mem_filter.mp hmem).2) (by simp; omega)
    (by rw [List.nil_append]; rw [← hadded, List.map_append] at haddresses; exact haddresses.of_append_left)
  rw [List.nil_append] at hnews
  have hcounted := hnews.counted am.nNew
  obtain ⟨am₃, hrun, htrieds, hcount⟩ := hcounted.trieds (triedEntries am.entries)
    (by rw [List.length_map]; dsimp only; omega) (fun entry hmem => (List.mem_filter.mp hmem).2)
    (by rw [List.length_map]; omega) (by rw [hadded]; exact haddresses) (by rw [hadded]; exact hroom)
  rw [hadded] at htrieds hcount
  have hload := htrieds.nothingLost
  have hindexing := (Indexing.start hload).all am.indexed hnodup
    (fun p hp => by
      obtain ⟨k, hk, hlt⟩ := hids p hp
      exact ⟨_, hk ▸ hload.at_written (List.getElem?_eq_getElem hlt)⟩) hrefs
  refine ⟨_, _, ?_, hload, hcount.trans (by rw [List.length_map]), hindexing⟩
  -- one after the other
  have hreadNews := reads_news env ADDRMAN_NEW_BUCKET_COUNT (newEntries am.entries)
    { CAddrMan.new am.nKey with nNew := am.nNew, nTried := am.nTried }
  have hreadTrieds := reads_trieds env (triedEntries am.entries) (0, { (newEntries am.entries).zipIdx.foldl
    (fun am (entry : (Int × CAddrInfo) × Nat) => am.loadNew env ADDRMAN_NEW_BUCKET_COUNT entry.2 entry.1.2.stored)
    { CAddrMan.new am.nKey with nNew := am.nNew, nTried := am.nTried } with nIdCount := am.nNew })
  have hrun' := hrun
  rw [List.length_nil] at hrun'
  rw [hrun'] at hreadTrieds
  have hreadBuckets := reads_buckets (fun b => ?_) hout (fun b x hx => ?_)
    { am₃ with nTried := am₃.nTried - 0 }
  · rw [show (newEntries am.entries).length = am.nNew.toNat by omega] at hreadNews
    rw [show (triedEntries am.entries).length = am.nTried.toNat by omega] at hreadTrieds
    unfold serialize
    rw [hwrite, hwriteTried]
    unfold unserialize
    refine (reads_byte 0).bind ((reads_vchar ?_).bind ?_)
    · rw [h.sized.key]
      decide
    refine (reads_littleEndianSigned (by omega) (by omega)).bind ?_
    refine (reads_littleEndianSigned (by omega) (by omega)).bind ?_
    refine (reads_littleEndianSigned (by decide) (by decide)).bind ?_
    exact hreadNews.bind (hreadTrieds.bind hreadBuckets)
  · have hle : ((am.vvNew b).card : Int) ≤ ADDRMAN_NEW_BUCKET_SIZE := Int.ofNat_le.mpr (h.sized.new b)
    exact hle.trans (by decide)
  · obtain ⟨info, hget⟩ := h.placed.known_new hx nofun
    obtain ⟨k, hk, hat⟩ := exists_renamed hget
    have hlt := (List.getElem?_eq_some_iff.mp hat).1
    rw [hk]
    omega

/-! ### What was read -/

/-- `am'` is `am` under other ids: the key, the entries with what is on disk of them, their references,
the buckets and the counters are the same, and there is nothing else. Tried buckets and `vRandom` may
have another order. -/
structure Reloaded (am am' : CAddrMan) (f : Int → Int) : Prop where
  nKey : am'.nKey = am.nKey
  injOn : Set.InjOn f {x | ∃ info, am.infoAt x = some info}
  entry : ∀ x info, am.infoAt x = some info →
    ∃ nRandomPos, am'.infoAt (f x) = some { info with nLastTry := 0, nRandomPos }
  known : ∀ y info', am'.infoAt y = some info' → ∃ x info, am.infoAt x = some info ∧ f x = y
  mapAddr : ∀ addr, am'.mapAddr.lookup addr = (am.mapAddr.lookup addr).map f
  vvNew : ∀ b, am'.vvNew b = (am.vvNew b).image f
  vvTried : ∀ b, (am'.vvTried b).Perm ((am.vvTried b).map f)
  vRandom : am'.vRandom.Perm (am.vRandom.map f)
  nNew : am'.nNew = am.nNew
  nTried : am'.nTried = am.nTried

/-- **A manager under other ids satisfies the invariant.** -/
theorem Reloaded.placed {f : Int → Int} (h : Placed env timed am none) (hre : Reloaded am am' f) :
    Placed env timed am' none := by
  have hknown : ∀ x b, x ∈ am.vvNew b → ∃ info, am.infoAt x = some info := fun x b hx => h.known_new hx (Option.some_ne_none x).symm
  have htotal : ∀ w : CAddrInfo → Int,
      (∀ info nRandomPos, w { info with nLastTry := 0, nRandomPos } = w info) →
      total w am'.infoAt = total w am.infoAt := by
    intro w hw
    refine total_rename (r := f) am.finiteDom_infoAt (fun x hx y hy heq => ?_) (fun y hy => ?_) fun x hx => ?_
    · exact hre.injOn (Option.ne_none_iff_exists'.mp hx) (Option.ne_none_iff_exists'.mp hy) heq
    · obtain ⟨info', hget'⟩ := Option.ne_none_iff_exists'.mp hy
      obtain ⟨x, info, hget, heq⟩ := hre.known y info' hget'
      exact ⟨x, Option.ne_none_iff_exists'.mpr ⟨info, hget⟩, heq⟩
    · obtain ⟨info, hget⟩ := Option.ne_none_iff_exists'.mp hx
      obtain ⟨p, hget'⟩ := hre.entry x info hget
      rw [weightAt, weightAt, hget, hget', Option.elim_some, Option.elim_some, hw]
  have hbuckets : ∀ x info, am.infoAt x = some info → am'.bucketsOf (f x) = am.bucketsOf x := by
    intro x info hget
    ext b
    rw [mem_bucketsOf, mem_bucketsOf, hre.vvNew, Finset.mem_image]
    constructor
    · rintro ⟨y, hy, heq⟩
      rwa [← hre.injOn (hknown y b hy) ⟨info, hget⟩ heq]
    · exact fun hx => ⟨x, hx, rfl⟩
  have hknownTried : ∀ x b, x ∈ am.vvTried b → ∃ info, am.infoAt x = some info := fun x b hx =>
    (h.known_tried hx).imp fun _ => And.left
  have hnodup : ∀ b, ((am.vvTried b).map f).Nodup := fun b =>
    (h.inTried.nodup b).map_on fun x hx y hy heq => hre.injOn (hknownTried x b hx) (hknownTried y b hy) heq
  have hcount : ∀ x info, am.infoAt x = some info → ∀ b,
      (am'.vvTried b).count (f x) = (am.vvTried b).count x := by
    intro x info hget b
    have hmem : f x ∈ (am.vvTried b).map f ↔ x ∈ am.vvTried b := by
      rw [List.mem_map]
      constructor
      · rintro ⟨y, hy, heq⟩
        rwa [← hre.injOn (hknownTried y b hy) ⟨info, hget⟩ heq]
      · exact fun hx => ⟨x, hx, rfl⟩
    rw [(hre.vvTried b).count_eq, (hnodup b).count, (h.inTried.nodup b).count]
    simp only [hmem]
  refine ⟨fun y => ?_, ?_, ?_⟩
  · by_cases hy : ∃ x info, am.infoAt x = some info ∧ f x = y
    · obtain ⟨x, info, hget, rfl⟩ := hy
      obtain ⟨p, hget'⟩ := hre.entry x info hget
      have hat := h.at_id x
      refine ⟨?_, fun b => ?_, fun i hi => ?_, fun i hi => ?_⟩
      · have hrefs := hat.refs
        rw [if_neg (Option.some_ne_none _).symm, hget, Option.elim_some] at hrefs
        rw [hbuckets x info hget, if_neg (Option.some_ne_none _).symm, hget', Option.elim_some, hrefs]
      · have htried := hat.tried b
        rw [hget] at htried
        rw [hcount x info hget, htried, hget', hre.nKey]
        rfl
      · obtain rfl := Option.some.inj (hget'.symm.trans hi)
        exact hat.range info hget
      · obtain rfl := Option.some.inj (hget'.symm.trans hi)
        exact hat.success info hget
    · -- no entry was given this id
      have hnone : am'.infoAt y = none := by
        cases hget' : am'.infoAt y with
        | none => rfl
        | some info' => exact absurd (hre.known y info' hget') hy
      refine ⟨?_, fun b => ?_, fun i hi => ?_, fun i hi => ?_⟩
      · have hempty : am'.bucketsOf y = ∅ := by
          ext b
          rw [mem_bucketsOf, hre.vvNew, Finset.mem_image]
          refine iff_of_false ?_ (Finset.notMem_empty b)
          rintro ⟨x, hx, heq⟩
          obtain ⟨info, hget⟩ := hknown x b hx
          exact hy ⟨x, info, hget, heq⟩
        rw [hempty, hnone]
        rfl
      · rw [hnone, (hre.vvTried b).count_eq, triedIn, List.count_eq_zero]
        intro hmem
        obtain ⟨x, hx, heq⟩ := List.mem_map.mp hmem
        obtain ⟨info, hget⟩ := hknownTried x b hx
        exact hy ⟨x, info, hget, heq⟩
      · rw [hnone] at hi
        cases hi
      · rw [hnone] at hi
        cases hi
  · rw [hre.nTried, h.nTried, htotal triedWeight fun _ _ => rfl]
  · rw [hre.nNew, h.nNew, htotal newWeight fun _ _ => rfl]

theorem Reloaded.inv {f : Int → Int} (h : Inv env timed am) (hre : Reloaded am am' f) (hlinked : am'.Linked) :
    Inv env timed am' where
  linked := hlinked
  placed := hre.placed h.placed
  sized := by
    refine ⟨hre.nKey ▸ h.sized.key, fun b => ?_, fun b => ?_⟩
    · rw [(hre.vvTried b).length_eq, List.length_map]
      exact h.sized.tried b
    · rw [hre.vvNew]
      exact Finset.card_image_le.trans (h.sized.new b)

theorem Indexing.entry (h : Inv env timed am)
    (hload : Loading env am (am.written.map fun entry => entry.2.loaded) am₁)
    (hindexing : Indexing am₁ am.indexed am') (hget : am.infoAt nId = some info) :
    am'.infoAt (am.renamed nId) = some { info with nLastTry := 0, nRandomPos := am.renamed nId } := by
  obtain ⟨k, hk, hat⟩ := exists_renamed hget
  have hbuckets : am'.bucketsOf (am.renamed nId) = am.bucketsOf nId := by
    ext b
    rw [mem_bucketsOf, mem_bucketsOf, hindexing.new, mem_indexed_renamed h hget]
  have hrefs := (h.placed.at_id nId).refs
  rw [if_neg nofun, hget, Option.elim_some, Int.add_zero] at hrefs
  rw [hindexing.infoAt, hbuckets, hrefs, hk, hload.at_written hat]
  rfl

/-- **What is read is what was written**, under other ids. -/
theorem reloaded (h : Inv env timed am)
    (hload : Loading env am (am.written.map fun entry => entry.2.loaded) am₁)
    (hcount : am₁.nIdCount = am.written.length) (hindexing : Indexing am₁ am.indexed am') :
    Reloaded am am' am.renamed ∧ am'.Linked := by
  have hkey : am'.nKey = am₁.nKey := (congrArg CAddrMan.nKey hindexing.frame :)
  have hmapAddr : am'.mapAddr = am₁.mapAddr := (congrArg CAddrMan.mapAddr hindexing.frame :)
  have hrandom : am'.vRandom = am₁.vRandom := (congrArg CAddrMan.vRandom hindexing.frame :)
  have hvvTried : am'.vvTried = am₁.vvTried := (congrArg CAddrMan.vvTried hindexing.frame :)
  have hidCount : am'.nIdCount = am₁.nIdCount := (congrArg CAddrMan.nIdCount hindexing.frame :)
  have hentry : ∀ x info, am.infoAt x = some info →
      am'.infoAt (am.renamed x) = some { info with nLastTry := 0, nRandomPos := am.renamed x } :=
    fun x info hget => hindexing.entry h hload hget
  have hknown : ∀ y info', am'.infoAt y = some info' →
      ∃ x info, am.infoAt x = some info ∧ am.renamed x = y := by
    intro y info' hget'
    rw [hindexing.infoAt] at hget'
    obtain ⟨info₁, hget₁, -⟩ := Option.map_eq_some_iff.mp hget'
    obtain ⟨k, entry, rfl, hk⟩ := hload.known_iff hget₁
    exact ⟨entry.1, entry.2, mem_written.mp (List.mem_of_getElem? hk), renamed_eq hk⟩
  have hlinked₁ : am₁.Linked := by
    have hlinked := hload.linked
    rwa [List.length_map, ← hcount] at hlinked
  have hlinked : am'.Linked := by
    refine hlinked₁.of_addresses hidCount hmapAddr (fun x => ?_) ?_
    · rw [hindexing.infoAt, Option.map_map]
      rfl
    · rw [hrandom]
      refine hlinked₁.random.congr fun x => ?_
      rw [hindexing.infoAt, Option.map_map]
      rfl
  refine ⟨⟨hkey.trans hload.nKey, renamed_injOn, fun x info hget => ⟨_, hentry x info hget⟩, hknown,
    fun addr => ?_, fun b => ?_, fun b => ?_, ?_, ?_, ?_⟩, hlinked⟩
  · cases hlookup : am.mapAddr.lookup addr with
    | some x =>
      obtain ⟨info, hget, rfl⟩ := (h.linked.address addr x).mp hlookup
      exact (hlinked.address _ _).mpr ⟨_, hentry x info hget, rfl⟩
    | none =>
      cases hlookup' : am'.mapAddr.lookup addr with
      | none => rfl
      | some y =>
        obtain ⟨info', hget', rfl⟩ := (hlinked.address addr y).mp hlookup'
        obtain ⟨x, info, hget, rfl⟩ := hknown y info' hget'
        have heq := Option.some.inj ((hentry x info hget).symm.trans hget')
        have haddr : info'.toCNetAddr = info.toCNetAddr := congrArg (·.toCNetAddr) heq.symm
        rw [haddr, (h.linked.address _ x).mpr ⟨info, hget, rfl⟩] at hlookup
        cases hlookup
  · ext y
    rw [hindexing.new, mem_indexed, Finset.mem_image]
  · have htried : Tried env am' := by
      intro x b
      rw [hvvTried, hload.tried x b, hkey, hindexing.infoAt]
      cases am₁.infoAt x <;> rfl
    have hnodup : ((am.vvTried b).map am.renamed).Nodup :=
      (h.placed.inTried.nodup b).map_on fun x hx y hy heq => renamed_injOn
        ((h.placed.inTried.mem_iff.mp hx).imp fun _ => And.left)
        ((h.placed.inTried.mem_iff.mp hy).imp fun _ => And.left) heq
    refine (List.perm_ext_iff_of_nodup (htried.nodup b) hnodup).mpr fun y => ?_
    rw [htried.mem_iff, List.mem_map]
    constructor
    · rintro ⟨info', hget', hin⟩
      obtain ⟨x, info, hget, rfl⟩ := hknown y info' hget'
      obtain rfl := Option.some.inj ((hentry x info hget).symm.trans hget')
      rw [hkey, hload.nKey] at hin
      exact ⟨x, h.placed.inTried.mem_iff.mpr ⟨info, hget, hin⟩, rfl⟩
    · rintro ⟨x, hx, rfl⟩
      obtain ⟨info, hget, hin⟩ := h.placed.inTried.mem_iff.mp hx
      rw [← hload.nKey, ← hkey] at hin
      exact ⟨_, hentry x info hget, hin⟩
  · have hmem : ∀ x, x ∈ am.vRandom ↔ ∃ info, am.infoAt x = some info := fun x => by
      simp [h.linked.random.mem_iff]
    have hmem' : ∀ x, x ∈ am'.vRandom ↔ ∃ info, am'.infoAt x = some info := fun x => by
      simp [hlinked.random.mem_iff]
    have hnodup : (am.vRandom.map am.renamed).Nodup :=
      h.linked.random.nodup.map_on fun x hx y hy heq => renamed_injOn ((hmem x).mp hx) ((hmem y).mp hy) heq
    refine (List.perm_ext_iff_of_nodup hlinked.random.nodup hnodup).mpr fun y => ?_
    rw [hmem', List.mem_map]
    constructor
    · rintro ⟨info', hget'⟩
      obtain ⟨x, info, hget, rfl⟩ := hknown y info' hget'
      exact ⟨x, (hmem x).mpr ⟨info, hget⟩, rfl⟩
    · rintro ⟨x, hx, rfl⟩
      obtain ⟨info, hget⟩ := (hmem x).mp hx
      exact ⟨_, hentry x info hget⟩
  · exact (congrArg CAddrMan.nNew hindexing.frame :).trans hload.nNew
  · exact (congrArg CAddrMan.nTried hindexing.frame :).trans hload.nTried

/-- **Written and read.** What a run has reached is read back from exactly its bytes, under other ids,
without a loss, and satisfies the invariant; and `Check_` finds nothing in it, where `Good` was only called
with positive times. -/
theorem reload_of_run {am : CAddrMan} (hrun : Run env (fun _ => True) am) : ∃ am' f,
    Reads (unserialize env) am.serialize am' ∧ Reloaded am am' f ∧ Inv env (fun _ => True) am' ∧
      (Run env (0 < ·) am → am'.check_ = 0) := by
  obtain ⟨am₁, am', hreads, hload, hcount, hindexing⟩ := reads_serialize hrun.inv
  obtain ⟨hre, hlinked⟩ := reloaded hrun.inv hload hcount hindexing
  refine ⟨am', am.renamed, hreads, hre, hre.inv hrun.inv hlinked, fun htimed => ?_⟩
  refine (hre.inv htimed.inv hlinked).check_eq_zero fun y info' hget' => ?_
  obtain ⟨x, info, hget, rfl⟩ := hre.known y info' hget'
  obtain ⟨p, hentry⟩ := hre.entry x info hget
  rw [Option.some.inj (hget'.symm.trans hentry)]
  exact Int64.le_refl 0

end

/-- A tried entry and new ones of several buckets are written and read. -/
theorem reload_of_run_sample : ∃ am' f, Reads (unserialize spreadEnv) sampleManager.serialize am' ∧
    Reloaded sampleManager am' f ∧ Inv spreadEnv (fun _ => True) am' ∧ am'.check_ = 0 := by
  obtain ⟨am', f, hreads, hre, hinv, hcheck⟩ := reload_of_run (run_sampleManager trivial)
  exact ⟨am', f, hreads, hre, hinv, hcheck (run_sampleManager (by decide))⟩

/-- An address was good at the time zero. -/
def triedManager : CAddrMan :=
  match (CAddrMan.new sampleKey).runAll sampleEnv
    [.add (sampleAddress 1) ⟨0⟩ 0, .good (sampleAddress 1).toCService 0] with
  | .ok am => am
  | .error _ => .new sampleKey

theorem run_triedManager : Run sampleEnv (fun _ => True) triedManager := by
  refine Run.runAll [.add (sampleAddress 1) ⟨0⟩ 0, .good (sampleAddress 1).toCService 0]
    (.start sampleKey rfl) (fun call _ => ?_) rfl
  cases call <;> trivial

/-- **`Check_` finds a tried entry that never was a success.** -/
theorem not_forall_check : ¬ ∀ (env : AddrEnv) (am : CAddrMan), Run env (fun _ => True) am →
    ∃ am', Reads (unserialize env) am.serialize am' ∧ am'.check_ = 0 := by
  intro hall
  obtain ⟨am', hreads, hcheck⟩ := hall sampleEnv triedManager run_triedManager
  have hinv := run_triedManager.inv
  obtain ⟨am₁, am'', hreads', hload, hcount, hindexing⟩ := reads_serialize hinv
  obtain rfl : am' = am'' := congrArg Prod.fst (Option.some.inj ((hreads []).symm.trans (hreads' [])))
  obtain ⟨hre, -⟩ := reloaded hinv hload hcount hindexing
  obtain ⟨info, hget, hin, hsuccess⟩ : ∃ info, triedManager.infoAt 0 = some info ∧
    info.fInTried = true ∧ info.nLastSuccess = 0 := ⟨_, rfl, rfl, rfl⟩
  obtain ⟨p, hentry⟩ := hre.entry 0 info hget
  have hzero := checkEntry_of_check hcheck hentry
  rw [checkEntry, if_pos ⟨hin, hsuccess⟩] at hzero
  cases hzero

end CAddrMan

end Manna
