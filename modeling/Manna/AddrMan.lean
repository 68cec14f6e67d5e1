import Manna.CompactSize
import Manna.Lib.Codec
import Manna.Validation
import Mathlib.Data.Finmap
import Mathlib.Data.Finset.Sort
import Mathlib.Data.Fintype.Basic

/-!
The address manager (`addrman.h`, `addrman.cpp`).

Known addresses have ids. Those that were never connected to are in up to four of 256 "new" buckets,
the others are in one of 64 "tried" buckets. `mapAddr` finds an id by its address, `vRandom` lists the
ids in a random order, and each entry keeps its position there.

The hash that selects the buckets, the groups of addresses and which of them are routable are any.
A call is given what it draws and what it reads from the clock.
-/

namespace Manna

open Codec

/-! ### Addresses -/

/-- `CNetAddr`: the sixteen bytes, the first one the lowest. -/
structure CNetAddr where
  ip : BitVec 128
deriving DecidableEq

structure CService extends CNetAddr where
  port : UInt16
deriving DecidableEq

structure CAddress extends CService where
  nServices : UInt64
  nTime : UInt32
  /-- Memory only. -/
  nLastTry : Int64
deriving DecidableEq

structure CAddrInfo extends CAddress where
  source : CNetAddr
  nLastSuccess : Int64
  nAttempts : Int32
  /-- Memory only, as are the fields after it. -/
  nRefCount : Int
  fInTried : Bool
  nRandomPos : Int
deriving DecidableEq

/-- `CAddrInfo(addrIn, addrSource)`. -/
def CAddrInfo.new (addrIn : CAddress) (addrSource : CNetAddr) : CAddrInfo where
  toCAddress := { addrIn with nLastTry := 0 }
  source := addrSource
  nLastSuccess := 0
  nAttempts := 0
  nRefCount := 0
  fInTried := false
  nRandomPos := -1

/-- What the address manager calls. -/
structure AddrEnv where
  /-- `Hash(..).Get64()`. -/
  hash64 : List UInt8 → UInt64
  getGroup : CNetAddr → List UInt8
  isRoutable : CNetAddr → Bool

def ADDRMAN_TRIED_BUCKET_COUNT : Nat := 64
def ADDRMAN_TRIED_BUCKET_SIZE : Nat := 64
def ADDRMAN_NEW_BUCKET_COUNT : Nat := 256
def ADDRMAN_NEW_BUCKET_SIZE : Nat := 64
def ADDRMAN_TRIED_BUCKETS_PER_GROUP : Nat := 4
def ADDRMAN_NEW_BUCKETS_PER_SOURCE_GROUP : Nat := 32
def ADDRMAN_NEW_BUCKETS_PER_ADDRESS : Nat := 4
def ADDRMAN_TRIED_ENTRIES_INSPECT_ON_EVICT : Nat := 4
def ADDRMAN_HORIZON_DAYS : Int := 30
def ADDRMAN_RETRIES : Int := 3
def ADDRMAN_MAX_FAILURES : Int := 10
def ADDRMAN_MIN_FAIL_DAYS : Int := 7
def ADDRMAN_GETADDR_MAX_PCT : Nat := 23
def ADDRMAN_GETADDR_MAX : Nat := 2500

abbrev TriedBucket := Fin ADDRMAN_TRIED_BUCKET_COUNT
abbrev NewBucket := Fin ADDRMAN_NEW_BUCKET_COUNT

def TriedBucket.ofNat (n : Nat) : TriedBucket := ⟨n % ADDRMAN_TRIED_BUCKET_COUNT, Nat.mod_lt _ (by decide)⟩

def NewBucket.ofNat (n : Nat) : NewBucket := ⟨n % ADDRMAN_NEW_BUCKET_COUNT, Nat.mod_lt _ (by decide)⟩

/-- A vector of bytes in a hash stream. -/
def hashBytes (v : List UInt8) : List UInt8 := writeVector (fun b => [b]) v

def CService.getKey (addr : CService) : List UInt8 :=
  littleEndian 16 addr.ip.toNat ++ [UInt8.ofNat (addr.port.toNat / 0x100), UInt8.ofNat addr.port.toNat]

namespace CAddrInfo

def getTriedBucket (env : AddrEnv) (nKey : List UInt8) (info : CAddrInfo) : TriedBucket :=
  let hash1 := env.hash64 (hashBytes nKey ++ hashBytes info.getKey)
  let hash2 := env.hash64 (hashBytes nKey ++ hashBytes (env.getGroup info.toCNetAddr) ++
    littleEndian 8 (hash1.toNat % ADDRMAN_TRIED_BUCKETS_PER_GROUP))
  .ofNat hash2.toNat

def getNewBucket (env : AddrEnv) (nKey : List UInt8) (src : CNetAddr) (info : CAddrInfo) : NewBucket :=
  let vchSourceGroupKey := env.getGroup src
  let hash1 := env.hash64 (hashBytes nKey ++ hashBytes (env.getGroup info.toCNetAddr) ++
    hashBytes vchSourceGroupKey)
  let hash2 := env.hash64 (hashBytes nKey ++ hashBytes vchSourceGroupKey ++
    littleEndian 8 (hash1.toNat % ADDRMAN_NEW_BUCKETS_PER_SOURCE_GROUP))
  .ofNat hash2.toNat

def isTerrible (nNow : Int) (info : CAddrInfo) : Bool :=
  if info.nLastTry ≠ 0 ∧ info.nLastTry.toInt ≥ nNow - 60 then false
  else if (info.nTime.toNat : Int) > nNow + 10 * 60 then true
  else if info.nTime = 0 ∨ nNow - info.nTime.toNat > ADDRMAN_HORIZON_DAYS * 86400 then true
  else if info.nLastSuccess = 0 ∧ info.nAttempts.toInt ≥ ADDRMAN_RETRIES then true
  else decide (nNow - info.nLastSuccess.toInt > ADDRMAN_MIN_FAIL_DAYS * 86400 ∧
    info.nAttempts.toInt ≥ ADDRMAN_MAX_FAILURES)

end CAddrInfo

/-! ### The manager -/

structure CAddrMan where
  nKey : List UInt8
  nIdCount : Int
  mapInfo : Finmap fun _ : Int => CAddrInfo
  mapAddr : Finmap fun _ : CNetAddr => Int
  vRandom : List Int
  nTried : Int
  vvTried : TriedBucket → List Int
  nNew : Int
  vvNew : NewBucket → Finset Int

/-- What a call draws, and what it reads from the clock. -/
structure Chance where
  draw : Nat → Nat
  now : Nat → Int

/-- `GetRandInt`. -/
def getRandInt (draw nMax : Nat) : Nat := if nMax = 0 then 0 else draw % nMax

/-- A value that is assigned to an `unsigned int`. -/
def toUInt32 (n : Int) : UInt32 := UInt32.ofNat (n % 2 ^ 32).toNat

namespace CAddrMan

def new (nKey : List UInt8) : CAddrMan := ⟨nKey, 0, ∅, ∅, [], 0, fun _ => [], 0, fun _ => ∅⟩

/-- An entry is overwritten. -/
def setInfo (nId : Int) (info : CAddrInfo) (am : CAddrMan) : CAddrMan :=
  { am with mapInfo := am.mapInfo.insert nId info }

/-- `Find`, with the id. -/
def find (addr : CNetAddr) (am : CAddrMan) : Option (Int × CAddrInfo) :=
  (am.mapAddr.lookup addr).bind fun nId => (am.mapInfo.lookup nId).map fun info => (nId, info)

def create (addr : CAddress) (addrSource : CNetAddr) (am : CAddrMan) :
    Except Halt (Int × CAddrInfo × CAddrMan) :=
  if am.nIdCount = INT_MAX then .error .overflow
  else
    let nId := am.nIdCount
    let info := { CAddrInfo.new addr addrSource with nRandomPos := am.vRandom.length }
    .ok (nId, info, { am with
      nIdCount := am.nIdCount + 1
      mapInfo := am.mapInfo.insert nId info
      mapAddr := am.mapAddr.insert addr.toCNetAddr nId
      vRandom := am.vRandom ++ [nId] })

/-- The id at a position of `vRandom`. -/
def idAt (nRndPos : Int) (am : CAddrMan) : Option Int :=
  if nRndPos < 0 then none else am.vRandom[nRndPos.toNat]?

def swapRandom (nRndPos1 nRndPos2 : Int) (am : CAddrMan) : Except Halt CAddrMan :=
  if nRndPos1 = nRndPos2 then .ok am
  else
    match am.idAt nRndPos1, am.idAt nRndPos2 with
    | some nId1, some nId2 =>
      match am.mapInfo.lookup nId1, am.mapInfo.lookup nId2 with
      | some info1, some info2 =>
        .ok { am with
          mapInfo := (am.mapInfo.insert nId1 { info1 with nRandomPos := nRndPos2 }).insert nId2
            { info2 with nRandomPos := nRndPos1 }
          vRandom := (am.vRandom.set nRndPos1.toNat nId2).set nRndPos2.toNat nId1 }
      | _, _ => .error .assertion
    | _, _ => .error .assertion

/-! ### Adding -/

/-- The part of `ShrinkNew` that stands there twice: an entry loses a reference, and is deleted
with the last one. -/
def release (nId : Int) (info : CAddrInfo) (am : CAddrMan) : Except Halt CAddrMan :=
  let info := { info with nRefCount := info.nRefCount - 1 }
  let am := am.setInfo nId info
  if info.nRefCount = 0 then
    match am.swapRandom info.nRandomPos (am.vRandom.length - 1) with
    | .error e => .error e
    | .ok am =>
      .ok { am with
        vRandom := am.vRandom.dropLast
        mapAddr := am.mapAddr.erase info.toCNetAddr
        mapInfo := am.mapInfo.erase nId
        nNew := am.nNew - 1 }
  else .ok am

def firstTerrible (now : Nat → Int) (am : CAddrMan) : Nat → List Int → Except Halt (Option (Int × CAddrInfo))
  | _, [] => .ok none
  | n, nId :: vNew =>
    match am.mapInfo.lookup nId with
    | none => .error .assertion
    | some info =>
      if info.isTerrible (now n) then .ok (some (nId, info)) else am.firstTerrible now (n + 1) vNew

/-- `mapInfo[nId].nTime`. -/
def timeOf (am : CAddrMan) (nId : Int) : UInt32 := ((am.mapInfo.lookup nId).map (·.nTime)).getD 100000000

/-- The second loop of `ShrinkNew`: the oldest of the entries at four positions. -/
def oldestOf (am : CAddrMan) (n : List Nat) : Nat → Option Int → List Int → Except Halt (Option Int)
  | _, nOldest, [] => .ok nOldest
  | nI, nOldest, nId :: vNew =>
    if nI ∈ n then
      match nOldest with
      | none => am.oldestOf n (nI + 1) (some nId) vNew
      | some nOld =>
        if (am.mapInfo.lookup nId).isNone then .error .assertion
        else am.oldestOf n (nI + 1) (some (if am.timeOf nId < am.timeOf nOld then nId else nOld)) vNew
    else am.oldestOf n (nI + 1) nOldest vNew

def inOrder (ids : Finset Int) : List Int := ids.sort (· ≤ ·)

theorem mem_inOrder {ids : Finset Int} {x : Int} : x ∈ inOrder ids ↔ x ∈ ids := Finset.mem_sort _

theorem length_inOrder (ids : Finset Int) : (inOrder ids).length = ids.card := Finset.length_sort _

theorem nodup_inOrder (ids : Finset Int) : (inOrder ids).Nodup := Finset.sort_nodup _ _

def shrinkNew (chance : Chance) (nUBucket : NewBucket) (am : CAddrMan) : Except Halt CAddrMan :=
  let vNew := inOrder (am.vvNew nUBucket)
  let leave (nId : Int) (info : CAddrInfo) : Except Halt CAddrMan :=
    match am.release nId info with
    | .error e => .error e
    | .ok am =>
      .ok { am with vvNew := Function.update am.vvNew nUBucket ((am.vvNew nUBucket).erase nId) }
  match am.firstTerrible (fun n => chance.now (n + 1)) 0 vNew with
  | .error e => .error e
  | .ok (some (nId, info)) => leave nId info
  | .ok none =>
    let n := [1, 2, 3, 4].map fun k => getRandInt (chance.draw k) vNew.length
    match am.oldestOf n 0 none vNew with
    | .error e => .error e
    | .ok none => .error .assertion
    | .ok (some nOldest) =>
      match am.mapInfo.lookup nOldest with
      | none => .error .assertion
      | some info => leave nOldest info

/-- The last part of `Add_`: the entry gets another reference. -/
def enterNew (env : AddrEnv) (chance : Chance) (nId : Int) (info : CAddrInfo) (source : CNetAddr)
    (am : CAddrMan) : Except Halt CAddrMan :=
  let nUBucket := info.getNewBucket env am.nKey source
  if nId ∈ am.vvNew nUBucket then .ok am
  else
    let am := am.setInfo nId { info with nRefCount := info.nRefCount + 1 }
    match (if (am.vvNew nUBucket).card = ADDRMAN_NEW_BUCKET_SIZE then am.shrinkNew chance nUBucket
      else .ok am) with
    | .error e => .error e
    | .ok am =>
      .ok { am with vvNew := Function.update am.vvNew nUBucket (insert nId (am.vvNew nUBucket)) }

/-- The time and the services of an entry that is added again. -/
def refresh (nNow : Int) (addr : CAddress) (nTimePenalty : Int) (info : CAddrInfo) : CAddrInfo :=
  let fCurrentlyOnline := decide (nNow - addr.nTime.toNat < 24 * 60 * 60)
  let nUpdateInterval : Int := if fCurrentlyOnline then 60 * 60 else 24 * 60 * 60
  let nTime :=
    if addr.nTime ≠ 0 ∧ (info.nTime = 0 ∨
        (info.nTime.toNat : Int) < addr.nTime.toNat - nUpdateInterval - nTimePenalty) then
      toUInt32 (max 0 (addr.nTime.toNat - nTimePenalty))
    else info.nTime
  { info with nTime, nServices := info.nServices ||| addr.nServices }

def add_ (env : AddrEnv) (chance : Chance) (addr : CAddress) (source : CNetAddr) (nTimePenalty : Int)
    (am : CAddrMan) : Except Halt (Bool × CAddrMan) :=
  if env.isRoutable addr.toCNetAddr = false then .ok (false, am)
  else
    match am.find addr.toCNetAddr with
    | some (nId, pinfo) =>
      let info := refresh (chance.now 0) addr nTimePenalty pinfo
      let am := am.setInfo nId info
      let nFactor := 2 ^ info.nRefCount.toNat
      if addr.nTime = 0 ∨ (info.nTime ≠ 0 ∧ addr.nTime ≤ info.nTime) then .ok (false, am)
      else if info.fInTried then .ok (false, am)
      else if info.nRefCount = ADDRMAN_NEW_BUCKETS_PER_ADDRESS then .ok (false, am)
      else if nFactor > 1 ∧ getRandInt (chance.draw 0) nFactor ≠ 0 then .ok (false, am)
      else (am.enterNew env chance nId info source).map fun am => (false, am)
    | none =>
      match am.create addr source with
      | .error e => .error e
      | .ok (nId, info, am) =>
        let info := { info with nTime := toUInt32 (max 0 (info.nTime.toNat - nTimePenalty)) }
        let am := { am.setInfo nId info with nNew := am.nNew + 1 }
        (am.enterNew env chance nId info source).map fun am => (true, am)

/-! ### Marking as good -/

/-- `mapInfo[nId].nLastSuccess`. -/
def lastSuccessOf (am : CAddrMan) (nId : Int) : Int64 :=
  ((am.mapInfo.lookup nId).map (·.nLastSuccess)).getD 0

/-- The loop of `SelectTried`, for so many more rounds. -/
def inspectTried (chance : Chance) (am : CAddrMan) :
    Nat → Nat → Option Int → Option Nat → List Int → Except Halt (Option Nat × List Int)
  | 0, _, _, nOldestPos, vTried => .ok (nOldestPos, vTried)
  | rounds + 1, i, nOldest, nOldestPos, vTried =>
    if i < vTried.length then
      let nPos := getRandInt (chance.draw (i + 1)) (vTried.length - i) + i
      match vTried[nPos]?, vTried[i]? with
      | some nTemp, some nId =>
        let vTried := (vTried.set nPos nId).set i nTemp
        match nOldest with
        | none => am.inspectTried chance rounds (i + 1) (some nTemp) (some nPos) vTried
        | some nOld =>
          if (am.mapInfo.lookup nTemp).isNone then .error .assertion
          else if am.lastSuccessOf nTemp < am.lastSuccessOf nOld then
            am.inspectTried chance rounds (i + 1) (some nTemp) (some nPos) vTried
          else am.inspectTried chance rounds (i + 1) (some nOld) nOldestPos vTried
      | _, _ => .error .undefined
    else .ok (nOldestPos, vTried)

/-- `SelectTried`: the position, and the shuffled bucket. -/
def selectTried (chance : Chance) (nKBucket : TriedBucket) (am : CAddrMan) :
    Except Halt (Option Nat × List Int) :=
  am.inspectTried chance ADDRMAN_TRIED_ENTRIES_INSPECT_ON_EVICT 0 none none (am.vvTried nKBucket)

def bucketsOf (nId : Int) (am : CAddrMan) : Finset NewBucket := Finset.univ.filter fun n => nId ∈ am.vvNew n

/-- The tail of `MakeTried`, for a full bucket: an entry of it goes back to a new bucket. -/
def evict (env : AddrEnv) (chance : Chance) (nId : Int) (info : CAddrInfo) (nOrigin : NewBucket)
    (nKBucket : TriedBucket) (am : CAddrMan) : Except Halt CAddrMan :=
  match am.selectTried chance nKBucket with
  | .error e => .error e
  | .ok (none, _) => .error .undefined
  | .ok (some nPos, vTried) =>
    match vTried[nPos]? with
    | none => .error .undefined
    | some nIdOld =>
      match am.mapInfo.lookup nIdOld with
      | none => .error .assertion
      | some infoOld =>
        let nUBucket := infoOld.getNewBucket env am.nKey infoOld.source
        -- where that one is full, too, the bucket that the new entry came from has room
        let nTarget := if (am.vvNew nUBucket).card < ADDRMAN_NEW_BUCKET_SIZE then nUBucket else nOrigin
        .ok { am with
          mapInfo := (am.mapInfo.insert nIdOld { infoOld with fInTried := false, nRefCount := 1 }).insert
            nId { info with fInTried := true }
          vvNew := Function.update am.vvNew nTarget (insert nIdOld (am.vvNew nTarget))
          nNew := am.nNew + 1
          vvTried := Function.update am.vvTried nKBucket (vTried.set nPos nId) }

/-- The head of `MakeTried`: the entry leaves all new buckets. -/
def detach (nId : Int) (info : CAddrInfo) (am : CAddrMan) : CAddrInfo × CAddrMan :=
  let info := { info with nRefCount := info.nRefCount - (am.bucketsOf nId).card }
  (info, { am.setInfo nId info with vvNew := fun n => (am.vvNew n).erase nId, nNew := am.nNew - 1 })

/-- Its middle: a tried bucket with room takes the entry. -/
def pushTried (nId : Int) (info : CAddrInfo) (nKBucket : TriedBucket) (am : CAddrMan) : CAddrMan :=
  { am.setInfo nId { info with fInTried := true } with
    vvTried := Function.update am.vvTried nKBucket (am.vvTried nKBucket ++ [nId])
    nTried := am.nTried + 1 }

def makeTried (env : AddrEnv) (chance : Chance) (nId : Int) (info : CAddrInfo) (nOrigin : NewBucket)
    (am : CAddrMan) : Except Halt CAddrMan :=
  if nId ∉ am.vvNew nOrigin then .error .assertion
  else
    match am.detach nId info with
    | (info, am) =>
      if info.nRefCount ≠ 0 then .error .assertion
      else
        let nKBucket := info.getTriedBucket env am.nKey
        if (am.vvTried nKBucket).length < ADDRMAN_TRIED_BUCKET_SIZE then
          .ok (am.pushTried nId info nKBucket)
        else am.evict env chance nId info nOrigin nKBucket

/-- The loop of `Good_`: a new bucket that has the id, from a random one on. -/
def findBucket (nRnd : Nat) (nId : Int) (am : CAddrMan) : Option NewBucket :=
  ((List.range ADDRMAN_NEW_BUCKET_COUNT).map fun n => NewBucket.ofNat (n + nRnd)).find? fun nB =>
    decide (nId ∈ am.vvNew nB)

def good_ (env : AddrEnv) (chance : Chance) (addr : CService) (nTime : Int64) (am : CAddrMan) :
    Except Halt CAddrMan :=
  match am.find addr.toCNetAddr with
  | none => .ok am
  | some (nId, info) =>
    if info.toCService ≠ addr then .ok am
    else
      let info := { info with
        nLastSuccess := nTime, nLastTry := nTime, nTime := toUInt32 nTime.toInt, nAttempts := 0 }
      let am := am.setInfo nId info
      if info.fInTried then .ok am
      else
        match am.findBucket (getRandInt (chance.draw 0) ADDRMAN_NEW_BUCKET_COUNT) nId with
        | none => .ok am
        | some nUBucket => am.makeTried env chance nId info nUBucket

def attempt_ (addr : CService) (nTime : Int64) (am : CAddrMan) : Except Halt CAddrMan :=
  match am.find addr.toCNetAddr with
  | none => .ok am
  | some (nId, info) =>
    if info.toCService ≠ addr then .ok am
    else if info.nAttempts.toInt = INT_MAX then .error .overflow
    else .ok (am.setInfo nId { info with nLastTry := nTime, nAttempts := info.nAttempts + 1 })

def connected_ (addr : CService) (nTime : Int64) (am : CAddrMan) : CAddrMan :=
  match am.find addr.toCNetAddr with
  | none => am
  | some (nId, info) =>
    if info.toCService ≠ addr then am
    else if nTime.toInt - info.nTime.toNat > 20 * 60 then
      am.setInfo nId { info with nTime := toUInt32 nTime.toInt }
    else am

def getAddrLoop (chance : Chance) : Nat → Nat → CAddrMan → Except Halt (List CAddress × CAddrMan)
  | 0, _, am => .ok ([], am)
  | rounds + 1, n, am =>
    match am.swapRandom n (getRandInt (chance.draw n) (am.vRandom.length - n) + n : Nat) with
    | .error e => .error e
    | .ok am =>
      match am.vRandom[n]?.bind am.mapInfo.lookup with
      | none => .error .assertion
      | some info =>
        (getAddrLoop chance rounds (n + 1) am).map fun (vAddr, am) => (info.toCAddress :: vAddr, am)

def getAddr_ (chance : Chance) (am : CAddrMan) : Except Halt (List CAddress × CAddrMan) :=
  getAddrLoop chance
    (min (ADDRMAN_GETADDR_MAX_PCT * am.vRandom.length / 100) ADDRMAN_GETADDR_MAX) 0 am

end CAddrMan

end Manna
