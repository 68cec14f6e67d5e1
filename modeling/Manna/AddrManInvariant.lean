import Manna.AddrMan
import Manna.Lib.Positions
import Manna.Lib.Shuffle
import Manna.Lib.WeightedMap
import Mathlib.Data.Fintype.Card

/-!
What holds of the address manager.

Entries, addresses and positions are linked (`Linked`), every entry is where its fields say
(`Placed`), and no bucket has more than 64 ids (`Sized`). `Linked` and `Placed` are kept apart because
most updates only concern one of them; and `Placed` allows for one entry with a reference that
is not in a bucket yet.
-/

namespace Manna

namespace CAddrMan

open Positions Shuffle WeightedMap

def infoAt (am : CAddrMan) (nId : Int) : Option CAddrInfo := am.mapInfo.lookup nId

/-! ### Invariants -/

/-- Entries, addresses and positions belong together. -/
structure Linked (am : CAddrMan) : Prop where
  count_nonneg : 0 ≤ am.nIdCount
  count_le : am.nIdCount ≤ INT_MAX
  ids : ∀ nId info, am.infoAt nId = some info → 0 ≤ nId ∧ nId < am.nIdCount
  /-- `mapAddr` and `mapInfo` are inverse to each other. -/
  address : ∀ addr nId, am.mapAddr.lookup addr = some nId ↔
    ∃ info, am.infoAt nId = some info ∧ info.toCNetAddr = addr
  /-- `vRandom` has the ids, each at its `nRandomPos`. -/
  random : Matches am.vRandom fun nId => (am.infoAt nId).map (·.nRandomPos)

/-- How often an entry stands in a tried bucket. -/
def triedIn (env : AddrEnv) (nKey : List UInt8) (info? : Option CAddrInfo) (b : TriedBucket) : Nat :=
  match info? with
  | none => 0
  | some info => if info.fInTried = true ∧ info.getTriedBucket env nKey = b then 1 else 0

/-- One id is where its entry says: a tried one in its tried bucket, without references, any other one
in as many new buckets as it has references, between 1 and 4. A tried entry had its success at a time
that `Good` was called with. -/
structure PlacedAt (env : AddrEnv) (timed : Int64 → Prop) (am : CAddrMan) (pending : Option Int) (nId : Int) :
    Prop where
  refs : ((am.bucketsOf nId).card : Int) + (if pending = some nId then 1 else 0) =
    (am.infoAt nId).elim 0 (·.nRefCount)
  tried : ∀ b, (am.vvTried b).count nId = triedIn env am.nKey (am.infoAt nId) b
  range : ∀ info, am.infoAt nId = some info →
    if info.fInTried then info.nRefCount = 0
    else 1 ≤ info.nRefCount ∧ info.nRefCount ≤ ADDRMAN_NEW_BUCKETS_PER_ADDRESS
  success : ∀ info, am.infoAt nId = some info →
    timed info.nLastSuccess ∨ (info.fInTried = false ∧ info.nLastSuccess = 0)

def triedWeight (info : CAddrInfo) : Int := if info.fInTried then 1 else 0

def newWeight (info : CAddrInfo) : Int := if info.fInTried then 0 else 1

/-- Every id is where its entry says, but for one reference that is not in a bucket yet; and the
entries are counted. -/
structure Placed (env : AddrEnv) (timed : Int64 → Prop) (am : CAddrMan) (pending : Option Int) : Prop where
  at_id : ∀ nId, PlacedAt env timed am pending nId
  nTried : am.nTried = total triedWeight am.infoAt
  nNew : am.nNew = total newWeight am.infoAt

structure Sized (am : CAddrMan) : Prop where
  key : am.nKey.length = 32
  tried : ∀ b, (am.vvTried b).length ≤ ADDRMAN_TRIED_BUCKET_SIZE
  new : ∀ b, (am.vvNew b).card ≤ ADDRMAN_NEW_BUCKET_SIZE

/-- **The invariant.** -/
structure Inv (env : AddrEnv) (timed : Int64 → Prop) (am : CAddrMan) : Prop where
  linked : am.Linked
  placed : Placed env timed am none
  sized : am.Sized

section

variable {env : AddrEnv} {timed : Int64 → Prop} {am am' : CAddrMan} {nId : Int} {info : CAddrInfo}

theorem lookup_insert (m : Finmap fun _ : Int => CAddrInfo) (nId : Int) (info : CAddrInfo) :
    (fun x => (m.insert nId info).lookup x) = Function.update (fun x => m.lookup x) nId (some info) := by
  funext x
  by_cases hx : x = nId
  · rw [hx, Function.update_self, Finmap.lookup_insert]
  · rw [Function.update_of_ne hx, Finmap.lookup_insert_of_ne _ hx]

theorem lookup_erase (m : Finmap fun _ : Int => CAddrInfo) (nId : Int) :
    (fun x => (m.erase nId).lookup x) = Function.update (fun x => m.lookup x) nId none := by
  funext x
  by_cases hx : x = nId
  · rw [hx, Function.update_self, Finmap.lookup_erase]
  · rw [Function.update_of_ne hx, Finmap.lookup_erase_ne hx]

theorem infoAt_setInfo (am : CAddrMan) (nId : Int) (info : CAddrInfo) :
    (am.setInfo nId info).infoAt = Function.update am.infoAt nId (some info) :=
  lookup_insert am.mapInfo nId info

@[simp] theorem vvNew_setInfo (am : CAddrMan) (nId : Int) (info : CAddrInfo) :
    (am.setInfo nId info).vvNew = am.vvNew := rfl

theorem finiteDom_infoAt (am : CAddrMan) : FiniteDom am.infoAt := by
  refine (Finset.finite_toSet am.mapInfo.keys).subset fun nId hne => ?_
  rw [Finset.mem_coe, Finmap.mem_keys, ← Finmap.lookup_isSome]
  exact Option.ne_none_iff_isSome.mp hne

variable {b : NewBucket} {pending : Option Int}

theorem mem_bucketsOf : b ∈ am.bucketsOf nId ↔ nId ∈ am.vvNew b := by
  simp [bucketsOf]

theorem bucketsOf_congr {x : Int} (h : ∀ b, x ∈ am'.vvNew b ↔ x ∈ am.vvNew b) :
    am'.bucketsOf x = am.bucketsOf x := by
  ext b
  rw [mem_bucketsOf, mem_bucketsOf, h]

theorem mem_update_insert {vvNew : NewBucket → Finset Int} {b' : NewBucket} {x : Int} :
    x ∈ Function.update vvNew b (insert nId (vvNew b)) b' ↔ x ∈ vvNew b' ∨ (x = nId ∧ b' = b) := by
  by_cases hb : b' = b
  · subst hb
    rw [Function.update_self, Finset.mem_insert]
    simp [or_comm]
  · rw [Function.update_of_ne hb]
    simp [hb]

theorem mem_update_erase {vvNew : NewBucket → Finset Int} {b' : NewBucket} {x : Int} :
    x ∈ Function.update vvNew b ((vvNew b).erase nId) b' ↔ x ∈ vvNew b' ∧ ¬ (x = nId ∧ b' = b) := by
  by_cases hb : b' = b
  · subst hb
    rw [Function.update_self, Finset.mem_erase]
    simp [and_comm]
  · rw [Function.update_of_ne hb]
    simp [hb]

/-! ### Updates of one entry -/

/-- **One entry changes**: what is to be checked is where it stands now. -/
theorem Placed.update {pending' : Option Int} (h : Placed env timed am pending) {nId : Int}
    {info? : Option CAddrInfo} (hkey : am'.nKey = am.nKey)
    (hinfo : am'.infoAt = Function.update am.infoAt nId info?)
    (hnew : ∀ x ≠ nId, ∀ b, x ∈ am'.vvNew b ↔ x ∈ am.vvNew b)
    (htried : ∀ x ≠ nId, ∀ b, (am'.vvTried b).count x = (am.vvTried b).count x)
    (hpending : ∀ x ≠ nId, pending' = some x ↔ pending = some x) (hat : PlacedAt env timed am' pending' nId)
    (hnTried : am'.nTried = am.nTried - weightAt triedWeight am.infoAt nId + info?.elim 0 triedWeight)
    (hnNew : am'.nNew = am.nNew - weightAt newWeight am.infoAt nId + info?.elim 0 newWeight) :
    Placed env timed am' pending' where
  at_id x := by
    by_cases hx : x = nId
    · exact hx ▸ hat
    · have hold := h.at_id x
      have hsame : am'.infoAt x = am.infoAt x := by rw [hinfo, Function.update_of_ne hx]
      refine ⟨?_, fun b => ?_, fun info hget => ?_, fun info hget => ?_⟩
      · rw [bucketsOf_congr (hnew x hx), hsame, ← hold.refs]
        simp only [hpending x hx]
      · rw [htried x hx, hsame, hkey]
        exact hold.tried b
      · exact hold.range info (hsame.symm.trans hget)
      · exact hold.success info (hsame.symm.trans hget)
  nTried := by rw [hinfo, total_update am.finiteDom_infoAt, hnTried, h.nTried]
  nNew := by rw [hinfo, total_update am.finiteDom_infoAt, hnNew, h.nNew]

theorem Placed.same (h : Placed env timed am pending) {nId : Int} {info info' : CAddrInfo}
    (hget : am.infoAt nId = some info) (hservice : info'.toCService = info.toCService)
    (hrefs : info'.nRefCount = info.nRefCount) (hin : info'.fInTried = info.fInTried)
    (hsuccess : info'.nLastSuccess = info.nLastSuccess ∨ timed info'.nLastSuccess) :
    Placed env timed (am.setInfo nId info') pending := by
  have hold := h.at_id nId
  have hget' : (am.setInfo nId info').infoAt nId = some info' := by
    rw [infoAt_setInfo, Function.update_self]
  have hbucket : info'.getTriedBucket env am.nKey = info.getTriedBucket env am.nKey := by
    unfold CAddrInfo.getTriedBucket
    rw [hservice]
  refine h.update rfl (infoAt_setInfo am nId info') (fun _ _ _ => Iff.rfl) (fun _ _ _ => rfl)
    (fun _ _ => Iff.rfl) ⟨?_, fun b => ?_, fun i hi => ?_, fun i hi => ?_⟩ ?_ ?_
  · rw [hget', Option.elim_some, hrefs]
    have := hold.refs
    rwa [hget] at this
  · rw [hget']
    have := hold.tried b
    rw [hget] at this
    simp only [triedIn, hin] at this ⊢
    rw [show (am.setInfo nId info').nKey = am.nKey from rfl, hbucket]
    exact this
  · obtain rfl := Option.some.inj (hget'.symm.trans hi)
    rw [hin, hrefs]
    exact hold.range info hget
  · obtain rfl := Option.some.inj (hget'.symm.trans hi)
    rcases hsuccess with heq | htimed
    · rw [hin, heq]
      exact hold.success info hget
    · exact .inl htimed
  · simp only [weightAt, hget, Option.elim_some, triedWeight, hin, setInfo]
    omega
  · simp only [weightAt, hget, Option.elim_some, newWeight, hin, setInfo]
    omega

/-- An entry that is not a tried one gets a reference, before it stands in a bucket for it. -/
theorem Placed.pend (h : Placed env timed am none) {nId : Int} {info : CAddrInfo} (hkey : am'.nKey = am.nKey)
    (hinfo : am'.infoAt = Function.update am.infoAt nId (some info)) (hvvNew : am'.vvNew = am.vvNew)
    (hvvTried : am'.vvTried = am.vvTried) (hnTried : am'.nTried = am.nTried)
    (hnNew : am'.nNew = am.nNew - weightAt newWeight am.infoAt nId + 1)
    (hin : info.fInTried = false) (hwas : ∀ i, am.infoAt nId = some i → i.fInTried = false)
    (hrefs : info.nRefCount = (am.infoAt nId).elim 0 (·.nRefCount) + 1)
    (hle : info.nRefCount ≤ ADDRMAN_NEW_BUCKETS_PER_ADDRESS)
    (hsuccess : timed info.nLastSuccess ∨ info.nLastSuccess = 0) : Placed env timed am' (some nId) := by
  have hold := h.at_id nId
  have hget : am'.infoAt nId = some info := by rw [hinfo, Function.update_self]
  have hcount := hold.refs
  rw [if_neg nofun] at hcount
  have hweight : weightAt triedWeight am.infoAt nId = 0 := by
    unfold weightAt
    cases hget : am.infoAt nId with
    | none => rfl
    | some i => simp [triedWeight, hwas i hget]
  refine h.update hkey hinfo (fun _ _ _ => by rw [hvvNew]) (fun _ _ _ => by rw [hvvTried])
    (fun x hx => by simp [Ne.symm hx]) ⟨?_, fun b => ?_, fun i hi => ?_, fun i hi => ?_⟩ ?_ ?_
  · have hbuckets : am'.bucketsOf nId = am.bucketsOf nId := bucketsOf_congr fun b => by rw [hvvNew]
    rw [if_pos rfl, hget, Option.elim_some, hrefs, hbuckets]
    omega
  · rw [hget, hvvTried, hold.tried b]
    cases hold' : am.infoAt nId with
    | none => simp [triedIn, hin]
    | some i => simp [triedIn, hin, hwas i hold']
  · obtain rfl := Option.some.inj (hget.symm.trans hi)
    rw [hin, if_neg Bool.false_ne_true]
    exact ⟨by omega, hle⟩
  · obtain rfl := Option.some.inj (hget.symm.trans hi)
    exact hsuccess.imp_right fun hzero => ⟨hin, hzero⟩
  · rw [hnTried, hweight]
    simp [triedWeight, hin]
  · rw [hnNew]
    simp [newWeight, hin]

theorem Placed.enter (h : Placed env timed am (some nId)) (hb : nId ∉ am.vvNew b) :
    Placed env timed { am with vvNew := Function.update am.vvNew b (insert nId (am.vvNew b)) } none := by
  have hold := h.at_id nId
  refine h.update rfl (Function.update_eq_self nId am.infoAt).symm (fun x hx b' => ?_) (fun _ _ _ => rfl)
    (fun x hx => by simp [Ne.symm hx]) ⟨?_, hold.tried, hold.range, hold.success⟩ ?_ ?_
  · exact mem_update_insert.trans (by simp [hx])
  · have hbuckets : bucketsOf nId { am with
        vvNew := Function.update am.vvNew b (insert nId (am.vvNew b)) } = insert b (am.bucketsOf nId) := by
      ext b'
      rw [mem_bucketsOf, Finset.mem_insert, mem_bucketsOf]
      exact mem_update_insert.trans (by simp [or_comm])
    have hcount := hold.refs
    rw [if_pos rfl] at hcount
    rw [hbuckets, Finset.card_insert_of_notMem (by rwa [mem_bucketsOf]), if_neg nofun, Int.add_zero]
    exact hcount
  · simp only [weightAt]
    omega
  · simp only [weightAt]
    omega

/-- An entry leaves a bucket, and is deleted when it was the last one. -/
theorem Placed.leave (h : Placed env timed am pending) {nId : Int} {info : CAddrInfo}
    (hget : am.infoAt nId = some info) (hb : nId ∈ am.vvNew b) (hne : pending ≠ some nId)
    (hkey : am'.nKey = am.nKey) (hinfo : am'.infoAt = Function.update am.infoAt nId
      (if info.nRefCount = 1 then none else some { info with nRefCount := info.nRefCount - 1 }))
    (hvvNew : am'.vvNew = Function.update am.vvNew b ((am.vvNew b).erase nId))
    (hvvTried : am'.vvTried = am.vvTried) (hnTried : am'.nTried = am.nTried)
    (hnNew : am'.nNew = if info.nRefCount = 1 then am.nNew - 1 else am.nNew) : Placed env timed am' pending := by
  have hold := h.at_id nId
  have hcount := hold.refs
  rw [if_neg hne, hget, Option.elim_some] at hcount
  have hpos : 0 < (am.bucketsOf nId).card := Finset.card_pos.mpr ⟨b, mem_bucketsOf.mpr hb⟩
  -- A tried entry has no references, so this is not one.
  have hrange := hold.range info hget
  have hin : info.fInTried = false := by
    cases hin : info.fInTried with
    | false => rfl
    | true =>
      rw [hin, if_pos rfl] at hrange
      omega
  rw [hin, if_neg Bool.false_ne_true] at hrange
  have hbuckets : am'.bucketsOf nId = (am.bucketsOf nId).erase b := by
    ext b'
    rw [mem_bucketsOf, Finset.mem_erase, mem_bucketsOf, hvvNew, mem_update_erase]
    simp [and_comm]
  have hcard := Finset.card_erase_of_mem (mem_bucketsOf.mpr hb)
  have hget' : am'.infoAt nId =
      if info.nRefCount = 1 then none else some { info with nRefCount := info.nRefCount - 1 } := by
    rw [hinfo, Function.update_self]
  refine h.update hkey hinfo (fun x hx b' => ?_) (fun _ _ _ => by rw [hvvTried]) (fun _ _ => Iff.rfl)
    ⟨?_, fun b' => ?_, fun i hi => ?_, fun i hi => ?_⟩ ?_ ?_
  · rw [hvvNew, mem_update_erase]
    simp [hx]
  · rw [hget', hbuckets, hcard, if_neg hne]
    split_ifs
    · rw [Option.elim_none]
      omega
    · rw [Option.elim_some]
      dsimp only
      omega
  · have htried := hold.tried b'
    rw [hvvTried, htried, hget', hget]
    split_ifs <;> simp [triedIn, hin]
  · rw [hget'] at hi
    split_ifs at hi with hone
    obtain rfl := Option.some.inj hi
    dsimp only
    rw [hin, if_neg Bool.false_ne_true]
    omega
  · rw [hget'] at hi
    split_ifs at hi
    obtain rfl := Option.some.inj hi
    exact hold.success info hget
  · rw [hnTried]
    split_ifs <;> simp [weightAt, hget, triedWeight, hin]
  · rw [hnNew]
    split_ifs <;> simp [weightAt, hget, newWeight, hin]

theorem Placed.promote (h : Placed env timed am none) {nId : Int} {info info' : CAddrInfo} {b : TriedBucket}
    (hget : am.infoAt nId = some info) (hwas : info.fInTried = false) (hkey : am'.nKey = am.nKey)
    (hinfo : am'.infoAt = Function.update am.infoAt nId (some info'))
    (hin : info'.fInTried = true) (hbucket : info'.getTriedBucket env am.nKey = b)
    (hrefs : info'.nRefCount = 0) (hsuccess : timed info'.nLastSuccess)
    (hvvNew : ∀ x n, x ∈ am'.vvNew n ↔ x ∈ am.vvNew n ∧ x ≠ nId)
    (hvvTried : ∀ x b', (am'.vvTried b').count x =
      (am.vvTried b').count x + if x = nId ∧ b' = b then 1 else 0)
    (hnTried : am'.nTried = am.nTried + 1) (hnNew : am'.nNew = am.nNew - 1) : Placed env timed am' none := by
  have hold := h.at_id nId
  have hget' : am'.infoAt nId = some info' := by rw [hinfo, Function.update_self]
  refine h.update hkey hinfo (fun x hx n => by simp [hvvNew, hx]) (fun x hx b' => by simp [hvvTried, hx])
    (fun _ _ => Iff.rfl) ⟨?_, fun b' => ?_, fun i hi => ?_, fun i hi => ?_⟩ ?_ ?_
  · have hnone : am'.bucketsOf nId = ∅ := by
      ext n
      simp [mem_bucketsOf, hvvNew]
    rw [hnone, hget', Option.elim_some, hrefs]
    rfl
  · have htried := hold.tried b'
    rw [hget] at htried
    rw [hvvTried, htried, hget']
    simp [triedIn, hwas, hin, hkey, hbucket, eq_comm]
  · obtain rfl := Option.some.inj (hget'.symm.trans hi)
    rw [hin, if_pos rfl]
    exact hrefs
  · obtain rfl := Option.some.inj (hget'.symm.trans hi)
    exact .inl hsuccess
  · simp [hnTried, weightAt, hget, triedWeight, hwas, hin]
  · simp [hnNew, weightAt, hget, newWeight, hwas, hin]

theorem Placed.demote (h : Placed env timed am none) {nId : Int} {info info' : CAddrInfo} {n : NewBucket}
    {b : TriedBucket} (hget : am.infoAt nId = some info) (hwas : info.fInTried = true)
    (hbucket : info.getTriedBucket env am.nKey = b) (hkey : am'.nKey = am.nKey)
    (hinfo : am'.infoAt = Function.update am.infoAt nId (some info'))
    (hin : info'.fInTried = false) (hrefs : info'.nRefCount = 1)
    (hsuccess : info'.nLastSuccess = info.nLastSuccess)
    (hvvNew : ∀ x n', x ∈ am'.vvNew n' ↔ x ∈ am.vvNew n' ∨ (x = nId ∧ n' = n))
    (hvvTried : ∀ x b', (am'.vvTried b').count x =
      (am.vvTried b').count x - if x = nId ∧ b' = b then 1 else 0)
    (hnTried : am'.nTried = am.nTried - 1) (hnNew : am'.nNew = am.nNew + 1) : Placed env timed am' none := by
  have hold := h.at_id nId
  have hget' : am'.infoAt nId = some info' := by rw [hinfo, Function.update_self]
  have hrange := hold.range info hget
  rw [hwas, if_pos rfl] at hrange
  have hcount := hold.refs
  rw [if_neg nofun, hget, Option.elim_some, hrange] at hcount
  have hnone : am.bucketsOf nId = ∅ := Finset.card_eq_zero.mp (by omega)
  refine h.update hkey hinfo (fun x hx n => by simp [hvvNew, hx]) (fun x hx b' => by simp [hvvTried, hx])
    (fun _ _ => Iff.rfl) ⟨?_, fun b' => ?_, fun i hi => ?_, fun i hi => ?_⟩ ?_ ?_
  · have hone : am'.bucketsOf nId = {n} := by
      ext n'
      have hmem : n' ∉ am.bucketsOf nId := by simp [hnone]
      rw [mem_bucketsOf] at hmem
      simp [mem_bucketsOf, hvvNew, hmem]
    rw [hone, hget', Option.elim_some, hrefs]
    rfl
  · have htried := hold.tried b'
    rw [hget] at htried
    rw [hvvTried, htried, hget']
    simp only [triedIn, hwas, hin, hbucket, eq_comm]
    split_ifs <;> simp_all
  · obtain rfl := Option.some.inj (hget'.symm.trans hi)
    rw [hin, if_neg Bool.false_ne_true, hrefs]
    decide
  · obtain rfl := Option.some.inj (hget'.symm.trans hi)
    rw [hsuccess]
    exact (hold.success info hget).imp_right fun hzero => ⟨hin, hzero.2⟩
  · simp [hnTried, weightAt, hget, triedWeight, hwas, hin]
  · simp [hnNew, weightAt, hget, newWeight, hwas, hin]

/-! ### Links -/

theorem Linked.of_addresses (h : am.Linked) (hcount : am'.nIdCount = am.nIdCount)
    (haddr : am'.mapAddr = am.mapAddr)
    (hinfo : ∀ x, (am'.infoAt x).map (·.toCNetAddr) = (am.infoAt x).map (·.toCNetAddr))
    (hrandom : Matches am'.vRandom fun x => (am'.infoAt x).map (·.nRandomPos)) : am'.Linked := by
  have hback : ∀ x info', am'.infoAt x = some info' → ∃ info, am.infoAt x = some info ∧
      info.toCNetAddr = info'.toCNetAddr := by
    intro x info' hget
    have hx := hinfo x
    rw [hget, Option.map_some] at hx
    exact Option.map_eq_some_iff.mp hx.symm
  have hforth : ∀ x info, am.infoAt x = some info → ∃ info', am'.infoAt x = some info' ∧
      info'.toCNetAddr = info.toCNetAddr := by
    intro x info hget
    have hx := hinfo x
    rw [hget, Option.map_some] at hx
    exact Option.map_eq_some_iff.mp hx
  refine ⟨hcount ▸ h.count_nonneg, hcount ▸ h.count_le, fun x info' hget => ?_, fun addr x => ?_, hrandom⟩
  · obtain ⟨info, hget, -⟩ := hback x info' hget
    exact hcount ▸ h.ids x info hget
  · rw [haddr, h.address]
    constructor
    · rintro ⟨info, hget, rfl⟩
      exact hforth x info hget
    · rintro ⟨info', hget', rfl⟩
      exact hback x info' hget'

theorem map_update {β : Type} {f : CAddrInfo → β} {info' : CAddrInfo} (hget : am.infoAt nId = some info)
    (hf : f info' = f info) (x : Int) :
    (Function.update am.infoAt nId (some info') x).map f = (am.infoAt x).map f := by
  by_cases hx : x = nId
  · rw [hx, Function.update_self, hget, Option.map_some, Option.map_some, hf]
  · rw [Function.update_of_ne hx]

/-- The links do not change when an entry keeps its address and its position. -/
theorem Linked.overwrite (h : am.Linked) (info' : CAddrInfo) (hget : am.infoAt nId = some info)
    (haddr : info'.toCNetAddr = info.toCNetAddr) (hpos : info'.nRandomPos = info.nRandomPos)
    (hcount : am'.nIdCount = am.nIdCount) (hmapAddr : am'.mapAddr = am.mapAddr)
    (hrandom : am'.vRandom = am.vRandom)
    (hinfo : am'.infoAt = Function.update am.infoAt nId (some info')) : am'.Linked := by
  refine h.of_addresses hcount hmapAddr (fun x => ?_) ?_
  · rw [hinfo]
    exact map_update hget haddr x
  · rw [hrandom]
    refine h.random.congr fun x => ?_
    rw [hinfo]
    exact map_update hget hpos x

theorem Linked.setInfo (h : am.Linked) {nId : Int} {info info' : CAddrInfo} (hget : am.infoAt nId = some info)
    (haddr : info'.toCNetAddr = info.toCNetAddr) (hpos : info'.nRandomPos = info.nRandomPos) :
    (am.setInfo nId info').Linked :=
  h.overwrite info' hget haddr hpos rfl rfl rfl (infoAt_setInfo am nId info')

theorem Linked.create (h : am.Linked) {info : CAddrInfo} (hfresh : am.mapAddr.lookup info.toCNetAddr = none)
    (hpos : info.nRandomPos = am.vRandom.length) (hlt : am.nIdCount < INT_MAX)
    (hcount : am'.nIdCount = am.nIdCount + 1)
    (hinfo : am'.infoAt = Function.update am.infoAt am.nIdCount (some info))
    (haddr : am'.mapAddr = am.mapAddr.insert info.toCNetAddr am.nIdCount)
    (hrandom : am'.vRandom = am.vRandom ++ [am.nIdCount]) : am'.Linked := by
  have hnone : am.infoAt am.nIdCount = none := by
    cases hget : am.infoAt am.nIdCount with
    | none => rfl
    | some info => exact absurd (h.ids _ info hget).2 (Int.lt_irrefl _)
  have hcountpos := h.count_nonneg
  refine ⟨by omega, by omega, fun x i hget => ?_, fun addr x => ?_, ?_⟩
  · rw [hcount]
    rw [hinfo] at hget
    by_cases hx : x = am.nIdCount
    · omega
    · rw [Function.update_of_ne hx] at hget
      have := h.ids x i hget
      omega
  · rw [haddr, hinfo]
    by_cases ha : addr = info.toCNetAddr
    · subst ha
      rw [Finmap.lookup_insert, Option.some.injEq]
      constructor
      · rintro rfl
        exact ⟨info, Function.update_self .., rfl⟩
      · rintro ⟨i, hget, heq⟩
        by_contra hx
        rw [Function.update_of_ne (Ne.symm hx)] at hget
        have hknown := (h.address _ x).mpr ⟨i, hget, heq⟩
        rw [hfresh] at hknown
        cases hknown
    · rw [Finmap.lookup_insert_of_ne _ ha, h.address]
      by_cases hx : x = am.nIdCount
      · subst hx
        rw [Function.update_self]
        constructor
        · rintro ⟨i, hget, -⟩
          rw [hnone] at hget
          cases hget
        · rintro ⟨i, hget, heq⟩
          exact absurd (heq.symm.trans (congrArg (·.toCNetAddr) (Option.some.inj hget)).symm) ha
      · rw [Function.update_of_ne hx]
  · have hpush := h.random.push (show (am.infoAt am.nIdCount).map (·.nRandomPos) = none by rw [hnone]; rfl)
    rw [hrandom]
    refine hpush.congr fun x => ?_
    rw [hinfo]
    by_cases hx : x = am.nIdCount
    · rw [hx, Function.update_self, Function.update_self, Option.map_some, hpos]
    · rw [Function.update_of_ne hx, Function.update_of_ne hx]

/-- An entry but for its position. -/
def core (info : CAddrInfo) : CAddrInfo := { info with nRandomPos := 0 }

/-- **Two positions are exchanged**; nothing else changes. -/
theorem swapRandom_spec (h : am.Linked) {i j : Nat} (hi : i < am.vRandom.length) (hj : j < am.vRandom.length) :
    ∃ mapInfo vRandom, am.swapRandom i j = .ok { am with mapInfo, vRandom } ∧
      Linked { am with mapInfo, vRandom } ∧ (∀ x, (mapInfo.lookup x).map core = (am.infoAt x).map core) ∧
      vRandom.length = am.vRandom.length ∧ vRandom[j]? = am.vRandom[i]? ∧
      (i ≤ j → vRandom.take i = am.vRandom.take i) := by
  by_cases hij : i = j
  · subst hij
    refine ⟨am.mapInfo, am.vRandom, ?_, h, fun _ => rfl, rfl, rfl, fun _ => rfl⟩
    rw [swapRandom, if_pos rfl]
  · obtain ⟨a, ha⟩ : ∃ a, am.vRandom[i]? = some a := ⟨_, List.getElem?_eq_getElem hi⟩
    obtain ⟨b, hb⟩ : ∃ b, am.vRandom[j]? = some b := ⟨_, List.getElem?_eq_getElem hj⟩
    obtain ⟨infoA, hinfoA, hposA⟩ := Option.map_eq_some_iff.mp ((h.random.at_iff i a).mp ha)
    obtain ⟨infoB, hinfoB, hposB⟩ := Option.map_eq_some_iff.mp ((h.random.at_iff j b).mp hb)
    have hab : a ≠ b := by
      rintro rfl
      rw [Option.some.inj (hinfoA.symm.trans hinfoB), hposB] at hposA
      omega
    let mapInfo := (am.mapInfo.insert a { infoA with nRandomPos := (j : Int) }).insert b
      { infoB with nRandomPos := (i : Int) }
    have hlookup : ∀ x, mapInfo.lookup x = if x = b then some { infoB with nRandomPos := (i : Int) }
        else if x = a then some { infoA with nRandomPos := (j : Int) } else am.infoAt x := by
      intro x
      by_cases hxb : x = b
      · rw [if_pos hxb, hxb, Finmap.lookup_insert]
      · rw [if_neg hxb, Finmap.lookup_insert_of_ne _ hxb]
        by_cases hxa : x = a
        · rw [if_pos hxa, hxa, Finmap.lookup_insert]
        · rw [if_neg hxa, Finmap.lookup_insert_of_ne _ hxa]
          rfl
    have hcore : ∀ x, (mapInfo.lookup x).map core = (am.infoAt x).map core := by
      intro x
      rw [hlookup]
      split_ifs with hxb hxa
      · rw [hxb, hinfoB]
        rfl
      · rw [hxa, hinfoA]
        rfl
      · rfl
    have hidAt : ∀ n : Nat, am.idAt n = am.vRandom[n]? := fun n => by
      rw [idAt, if_neg (by omega), Int.toNat_natCast]
    refine ⟨mapInfo, (am.vRandom.set i b).set j a, ?_, ?_, hcore, by simp, ?_, fun hle => ?_⟩
    · rw [infoAt] at hinfoA hinfoB
      simp only [swapRandom, Int.natCast_inj, hij, if_false, hidAt, ha, hb, hinfoA, hinfoB, Int.toNat_natCast]
      rfl
    · refine h.of_addresses rfl rfl (fun x => ?_) ((h.random.swap ha hb hij).congr fun x => ?_)
      · have := congrArg (Option.map (·.toCNetAddr)) (hcore x)
        rwa [Option.map_map, Option.map_map] at this
      · refine (congrArg (Option.map (·.nRandomPos)) (hlookup x)).trans ?_
        split_ifs with hxb hxa
        · rw [hxb, Function.update_self]
          rfl
        · rw [hxa, Function.update_of_ne hab, Function.update_self]
          rfl
        · rw [Function.update_of_ne hxb, Function.update_of_ne hxa]
    · rw [getElem?_swap hi hj, if_pos rfl, ha]
    · rw [List.take_set_of_le hle, List.take_set_of_le le_rfl]

theorem Placed.of_core (h : Placed env timed am pending) (hkey : am'.nKey = am.nKey)
    (hinfo : ∀ x, (am'.infoAt x).map core = (am.infoAt x).map core) (hvvNew : am'.vvNew = am.vvNew)
    (hvvTried : am'.vvTried = am.vvTried) (hnTried : am'.nTried = am.nTried) (hnNew : am'.nNew = am.nNew) :
    Placed env timed am' pending := by
  have hweight : ∀ w : CAddrInfo → Int, (∀ info, w (core info) = w info) →
      total w am'.infoAt = total w am.infoAt := by
    intro w hw
    refine finsum_congr fun x => ?_
    have hx := congrArg (Option.map w) (hinfo x)
    rw [Option.map_map, Option.map_map, show w ∘ core = w from funext hw] at hx
    unfold weightAt
    cases hget : am'.infoAt x <;> cases hget' : am.infoAt x <;> simp_all
  refine ⟨fun x => ?_, ?_, ?_⟩
  · have hold := h.at_id x
    have hx := hinfo x
    have hbuckets : am'.bucketsOf x = am.bucketsOf x := bucketsOf_congr fun b => by rw [hvvNew]
    cases hget : am'.infoAt x with
    | none =>
      rw [hget, Option.map_none] at hx
      have hnone := Option.map_eq_none_iff.mp hx.symm
      refine ⟨?_, fun b => ?_, fun info hinfo => ?_, fun info hinfo => ?_⟩
      · rw [hbuckets, hold.refs, hnone, hget]
      · rw [hvvTried, hold.tried, hnone, hget]
        rfl
      · rw [hget] at hinfo
        cases hinfo
      · rw [hget] at hinfo
        cases hinfo
    | some info' =>
      rw [hget, Option.map_some] at hx
      obtain ⟨info, hget₀, heq⟩ := Option.map_eq_some_iff.mp hx.symm
      have hrefs : info'.nRefCount = info.nRefCount := congrArg (·.nRefCount) heq.symm
      have hin : info'.fInTried = info.fInTried := congrArg (·.fInTried) heq.symm
      have hsuccess : info'.nLastSuccess = info.nLastSuccess := congrArg (·.nLastSuccess) heq.symm
      have hbucket : info'.getTriedBucket env am.nKey = info.getTriedBucket env am.nKey :=
        congrArg (·.getTriedBucket env am.nKey) heq.symm
      refine ⟨?_, fun b => ?_, fun i hi => ?_, fun i hi => ?_⟩
      · rw [hbuckets, hold.refs, hget₀, hget, Option.elim_some, Option.elim_some, hrefs]
      · rw [hvvTried, hold.tried, hget₀, hget, hkey]
        simp only [triedIn, hin, hbucket]
      · obtain rfl := Option.some.inj (hget.symm.trans hi)
        rw [hin, hrefs]
        exact hold.range info hget₀
      · obtain rfl := Option.some.inj (hget.symm.trans hi)
        rw [hin, hsuccess]
        exact hold.success info hget₀
  · rw [hnTried, h.nTried, hweight triedWeight fun _ => rfl]
  · rw [hnNew, h.nNew, hweight newWeight fun _ => rfl]

theorem Linked.delete (h : am.Linked) {nId : Int} {info : CAddrInfo} (hget : am.infoAt nId = some info)
    (hlast : am.vRandom[am.vRandom.length - 1]? = some nId) (hcount : am'.nIdCount = am.nIdCount)
    (hinfo : am'.infoAt = Function.update am.infoAt nId none)
    (haddr : am'.mapAddr = am.mapAddr.erase info.toCNetAddr) (hrandom : am'.vRandom = am.vRandom.dropLast) :
    am'.Linked := by
  have hknown : am.mapAddr.lookup info.toCNetAddr = some nId := (h.address _ _).mpr ⟨info, hget, rfl⟩
  refine ⟨hcount ▸ h.count_nonneg, hcount ▸ h.count_le, fun x i hi => ?_, fun addr x => ?_, ?_⟩
  · rw [hinfo, Function.update_apply] at hi
    split_ifs at hi
    exact hcount ▸ h.ids x i hi
  · rw [haddr, hinfo]
    by_cases ha : addr = info.toCNetAddr
    · subst ha
      rw [Finmap.lookup_erase]
      refine ⟨nofun, ?_⟩
      rintro ⟨i, hi, heq⟩
      by_cases hx : x = nId
      · rw [hx, Function.update_self] at hi
        cases hi
      · rw [Function.update_of_ne hx] at hi
        have hknown' := (h.address _ x).mpr ⟨i, hi, heq⟩
        exact absurd (Option.some.inj (hknown'.symm.trans hknown)) hx
    · rw [Finmap.lookup_erase_ne ha, h.address]
      by_cases hx : x = nId
      · subst hx
        rw [Function.update_self]
        refine ⟨?_, nofun⟩
        rintro ⟨i, hi, heq⟩
        exact absurd (heq.symm.trans (congrArg (·.toCNetAddr) (Option.some.inj (hi.symm.trans hget)))) ha
      · rw [Function.update_of_ne hx]
  · rw [hrandom]
    refine (h.random.pop hlast).congr fun x => ?_
    rw [hinfo]
    by_cases hx : x = nId
    · rw [hx, Function.update_self, Function.update_self, Option.map_none]
    · rw [Function.update_of_ne hx, Function.update_of_ne hx]

/-- **An entry loses a reference**, and goes with the last one. -/
theorem release_spec (h : am.Linked) (hget : am.infoAt nId = some info) :
    ∃ am', am.release nId info = .ok am' ∧ am'.Linked ∧ am'.nKey = am.nKey ∧
      am'.nIdCount = am.nIdCount ∧ am'.vvNew = am.vvNew ∧ am'.vvTried = am.vvTried ∧
      am'.nTried = am.nTried ∧ (am'.nNew = if info.nRefCount = 1 then am.nNew - 1 else am.nNew) ∧
      ∀ x, (am'.infoAt x).map core = (Function.update am.infoAt nId
        (if info.nRefCount = 1 then none else some { info with nRefCount := info.nRefCount - 1 }) x).map
          core := by
  let info₁ : CAddrInfo := { info with nRefCount := info.nRefCount - 1 }
  have hlinked : (am.setInfo nId info₁).Linked := h.setInfo hget rfl rfl
  have hget₁ : (am.setInfo nId info₁).infoAt nId = some info₁ := by
    rw [infoAt_setInfo, Function.update_self]
  by_cases hone : info.nRefCount = 1
  · have hzero : info₁.nRefCount = 0 := by
      show info.nRefCount - 1 = 0
      omega
    obtain ⟨i, hi, hlt, hat⟩ := hlinked.random.index (congrArg (Option.map (·.nRandomPos)) hget₁)
    obtain ⟨mapInfo, vRandom, hswap, hlinked₂, hcore, hlen, hat', -⟩ :=
      swapRandom_spec hlinked hlt (Nat.sub_lt (by omega) Nat.one_pos :
        (am.setInfo nId info₁).vRandom.length - 1 < (am.setInfo nId info₁).vRandom.length)
    -- The entry is the last one now, with its address as before.
    obtain ⟨info₂, hget₂, hcore₂⟩ : ∃ info₂, mapInfo.lookup nId = some info₂ ∧ core info₂ = core info₁ := by
      have hnId := hcore nId
      rw [hget₁] at hnId
      exact Option.map_eq_some_iff.mp hnId
    have haddr : info₂.toCNetAddr = info.toCNetAddr := congrArg (·.toCNetAddr) hcore₂
    have hcast : ((am.setInfo nId info₁).vRandom.length : Int) - 1 =
        ((am.setInfo nId info₁).vRandom.length - 1 : Nat) := by omega
    have hrun : am.release nId info = .ok { am.setInfo nId info₁ with
        vRandom := vRandom.dropLast
        mapAddr := am.mapAddr.erase info.toCNetAddr
        mapInfo := mapInfo.erase nId
        nNew := am.nNew - 1 } := by
      unfold release
      rw [if_pos hzero]
      rw [← hi, ← hcast] at hswap
      have hswapped : swapRandom info₁.nRandomPos ((am.setInfo nId info₁).vRandom.length - 1)
        (am.setInfo nId info₁) = _ := hswap
      rw [hswapped]
      rfl
    refine ⟨_, hrun, ?_, rfl, rfl, rfl, rfl, rfl, (if_pos hone).symm, fun x => ?_⟩
    · have hend : vRandom[vRandom.length - 1]? = some nId := by rw [hlen, hat', hat]
      exact hlinked₂.delete hget₂ hend rfl (lookup_erase mapInfo nId)
        (congrArg am.mapAddr.erase haddr.symm) rfl
    · rw [if_pos hone]
      refine (congrArg (Option.map core) (congrFun (lookup_erase mapInfo nId) x)).trans ?_
      by_cases hx : x = nId
      · rw [hx, Function.update_self, Function.update_self]
      · rw [Function.update_of_ne hx, Function.update_of_ne hx, hcore, infoAt_setInfo, Function.update_of_ne hx]
  · have hne : ¬ info₁.nRefCount = 0 := by
      show ¬ info.nRefCount - 1 = 0
      omega
    refine ⟨am.setInfo nId info₁, ?_, hlinked, rfl, rfl, rfl, rfl, rfl, (if_neg hone).symm, fun x => ?_⟩
    · unfold release
      rw [if_neg hne]
    · rw [if_neg hone, infoAt_setInfo]

/-! ### A bucket that shrinks -/

theorem Placed.known_new (h : Placed env timed am pending)
    (hb : nId ∈ am.vvNew b) (hne : pending ≠ some nId) : ∃ info, am.infoAt nId = some info := by
  have hcount := (h.at_id nId).refs
  have hpos : 0 < (am.bucketsOf nId).card := Finset.card_pos.mpr ⟨b, mem_bucketsOf.mpr hb⟩
  cases hget : am.infoAt nId with
  | some info => exact ⟨info, rfl⟩
  | none =>
    rw [if_neg hne, hget, Option.elim_none] at hcount
    omega

theorem firstTerrible_spec (now : Nat → Int) {vNew : List Int}
    (hknown : ∀ x ∈ vNew, ∃ info, am.infoAt x = some info) (n : Nat) :
    ∃ found, am.firstTerrible now n vNew = .ok found ∧
      ∀ nId info, found = some (nId, info) → nId ∈ vNew ∧ am.infoAt nId = some info := by
  induction vNew generalizing n with
  | nil => exact ⟨none, rfl, nofun⟩
  | cons x vNew ih =>
    obtain ⟨⟨info, hget⟩, hrest⟩ := List.forall_mem_cons.mp hknown
    obtain ⟨found, hfound, hmem⟩ := ih hrest (n + 1)
    rw [infoAt] at hget
    unfold firstTerrible
    rw [hget]
    dsimp only
    split
    · exact ⟨_, rfl, fun nId info heq => by cases heq; exact ⟨List.mem_cons_self, hget⟩⟩
    · exact ⟨found, hfound, fun nId info heq => ⟨List.mem_cons_of_mem _ (hmem nId info heq).1,
        (hmem nId info heq).2⟩⟩

theorem oldestOf_spec (n : List Nat) {vNew : List Int}
    (hknown : ∀ x ∈ vNew, ∃ info, am.infoAt x = some info) (nI : Nat) (nOldest : Option Int) :
    ∃ found, am.oldestOf n nI nOldest vNew = .ok found ∧
      (∀ nId, found = some nId → nId ∈ vNew ∨ nOldest = some nId) ∧
      ((nOldest.isSome ∨ ∃ k ∈ n, nI ≤ k ∧ k < nI + vNew.length) → found.isSome) := by
  induction vNew generalizing nI nOldest with
  | nil =>
    refine ⟨nOldest, rfl, fun _ => .inr, fun hpick => hpick.elim id ?_⟩
    rintro ⟨k, -, hle, hlt⟩
    exact absurd hlt (Nat.not_lt.mpr hle)
  | cons x vNew ih =>
    obtain ⟨⟨info, hget⟩, hrest⟩ := List.forall_mem_cons.mp hknown
    rw [infoAt] at hget
    unfold oldestOf
    split
    · cases nOldest with
      | none =>
        obtain ⟨found, hfound, hmem, hsome⟩ := ih hrest (nI + 1) (some x)
        refine ⟨found, hfound, fun nId heq => .inl ?_, fun _ => hsome (.inl rfl)⟩
        rcases hmem nId heq with hmem | heq
        · exact List.mem_cons_of_mem _ hmem
        · exact Option.some.inj heq ▸ List.mem_cons_self
      | some nOld =>
        dsimp only
        rw [if_neg (by rw [hget]; exact Bool.false_ne_true)]
        obtain ⟨found, hfound, hmem, hsome⟩ :=
          ih hrest (nI + 1) (some (if am.timeOf x < am.timeOf nOld then x else nOld))
        refine ⟨found, hfound, fun nId heq => ?_, fun _ => hsome (.inl rfl)⟩
        rcases hmem nId heq with hmem | heq
        · exact .inl (List.mem_cons_of_mem _ hmem)
        · split_ifs at heq
          · exact .inl (Option.some.inj heq ▸ List.mem_cons_self)
          · exact .inr heq
    · next hpick =>
      obtain ⟨found, hfound, hmem, hsome⟩ := ih hrest (nI + 1) nOldest
      refine ⟨found, hfound, fun nId heq => (hmem nId heq).imp_left (List.mem_cons_of_mem _), fun hor => ?_⟩
      refine hsome (hor.imp_right ?_)
      rintro ⟨k, hk, hle, hlt⟩
      have hne : k ≠ nI := fun heq => hpick (heq ▸ hk)
      rw [List.length_cons] at hlt
      exact ⟨k, hk, by omega, by omega⟩

theorem getRandInt_lt (draw : Nat) {nMax : Nat} (h : 0 < nMax) : getRandInt draw nMax < nMax := by
  rw [getRandInt, if_neg (by omega)]
  exact Nat.mod_lt _ h

/-- The entries that are left after an update are entries of before, under their addresses. -/
def Within (am' am : CAddrMan) : Prop :=
  ∀ x info', am'.infoAt x = some info' → ∃ info, am.infoAt x = some info ∧ info'.toCNetAddr = info.toCNetAddr

/-- **`ShrinkNew`**: one entry leaves the bucket. -/
theorem shrinkNew_spec (hlinked : am.Linked) (hplaced : Placed env timed am pending)
    (chance : Chance) (hcard : 0 < (am.vvNew b).card) (hpending : ∀ x ∈ am.vvNew b, pending ≠ some x) :
    ∃ am' x, am.shrinkNew chance b = .ok am' ∧ x ∈ am.vvNew b ∧ am'.Linked ∧ Placed env timed am' pending ∧
      am'.vvNew = Function.update am.vvNew b ((am.vvNew b).erase x) ∧ am'.vvTried = am.vvTried ∧
      am'.nKey = am.nKey ∧ am'.nIdCount = am.nIdCount ∧ am'.Within am := by
  have hmem : ∀ x, x ∈ inOrder (am.vvNew b) ↔ x ∈ am.vvNew b := fun x => mem_inOrder
  have hlen : (inOrder (am.vvNew b)).length = (am.vvNew b).card := length_inOrder _
  have hknown : ∀ x ∈ inOrder (am.vvNew b), ∃ info, am.infoAt x = some info := fun x hx =>
    hplaced.known_new ((hmem x).mp hx) (hpending x ((hmem x).mp hx))
  -- What leaves, leaves the stores as they should be.
  have hleave : ∀ nId info, nId ∈ am.vvNew b → am.infoAt nId = some info →
      ∃ am₁, am.release nId info = .ok am₁ ∧
        Linked { am₁ with vvNew := Function.update am₁.vvNew b ((am₁.vvNew b).erase nId) } ∧
        Placed env timed { am₁ with vvNew := Function.update am₁.vvNew b ((am₁.vvNew b).erase nId) } pending ∧
        am₁.vvNew = am.vvNew ∧ am₁.vvTried = am.vvTried ∧ am₁.nKey = am.nKey ∧
        am₁.nIdCount = am.nIdCount ∧ am₁.Within am := by
    intro nId info hb hget
    obtain ⟨am₁, hrun, hlinked₁, hkey, hcount, hvvNew, hvvTried, hnTried, hnNew, hinfo⟩ :=
      release_spec hlinked hget
    let left : CAddrMan := { am with
      mapInfo := if info.nRefCount = 1 then am.mapInfo.erase nId
        else am.mapInfo.insert nId { info with nRefCount := info.nRefCount - 1 }
      vvNew := Function.update am.vvNew b ((am.vvNew b).erase nId)
      nNew := if info.nRefCount = 1 then am.nNew - 1 else am.nNew }
    have hleft : left.infoAt = Function.update am.infoAt nId
        (if info.nRefCount = 1 then none else some { info with nRefCount := info.nRefCount - 1 }) := by
      funext x
      simp only [left, infoAt]
      split_ifs
      · exact congrFun (lookup_erase am.mapInfo nId) x
      · exact congrFun (lookup_insert am.mapInfo nId _) x
    have hplacedLeft : Placed env timed left pending :=
      hplaced.leave hget hb (hpending nId hb) rfl hleft rfl rfl rfl rfl
    refine ⟨am₁, hrun, hlinked₁.of_addresses rfl rfl (fun _ => rfl) hlinked₁.random, ?_, hvvNew, hvvTried,
      hkey, hcount, fun x info' hx => ?_⟩
    · refine hplacedLeft.of_core hkey (fun x => ?_) ?_ hvvTried hnTried hnNew
      · rw [hleft]
        exact hinfo x
      · rw [hvvNew]
    · have hx' := hinfo x
      rw [hx, Option.map_some] at hx'
      obtain ⟨info₀, hget₀, hcore⟩ := Option.map_eq_some_iff.mp hx'.symm
      have haddr : info'.toCNetAddr = info₀.toCNetAddr := congrArg (·.toCNetAddr) hcore.symm
      by_cases hxn : x = nId
      · subst hxn
        rw [Function.update_self] at hget₀
        split_ifs at hget₀
        obtain rfl := Option.some.inj hget₀
        exact ⟨info, hget, haddr⟩
      · rw [Function.update_of_ne hxn] at hget₀
        exact ⟨info₀, hget₀, haddr⟩
  obtain ⟨found, hfound, hterrible⟩ := firstTerrible_spec (fun n => chance.now (n + 1)) hknown 0
  unfold shrinkNew
  dsimp only
  rw [hfound]
  cases found with
  | some entry =>
    obtain ⟨nId, info⟩ := entry
    obtain ⟨hin, hget⟩ := hterrible nId info rfl
    obtain ⟨am₁, hrun, hlinked₁, hplaced₁, hvvNew, hvvTried, hkey, hcount, hwithin⟩ :=
      hleave nId info ((hmem nId).mp hin) hget
    dsimp only
    rw [hrun]
    exact ⟨_, nId, rfl, (hmem nId).mp hin, hlinked₁, hplaced₁, by rw [hvvNew], hvvTried, hkey, hcount, hwithin⟩
  | none =>
    dsimp only
    obtain ⟨oldest, holdest, hfrom, hsome⟩ := oldestOf_spec
      ([1, 2, 3, 4].map fun k => getRandInt (chance.draw k) (inOrder (am.vvNew b)).length) hknown 0 none
    have hpick := getRandInt_lt (chance.draw 1) (hlen ▸ hcard)
    obtain ⟨nId, rfl⟩ := Option.isSome_iff_exists.mp (hsome (.inr
      ⟨_, List.mem_map_of_mem List.mem_cons_self, Nat.zero_le _, (Nat.zero_add _).symm ▸ hpick⟩))
    have hin := (hfrom nId rfl).resolve_right nofun
    obtain ⟨info, hget⟩ := hknown nId hin
    obtain ⟨am₁, hrun, hlinked₁, hplaced₁, hvvNew, hvvTried, hkey, hcount, hwithin⟩ :=
      hleave nId info ((hmem nId).mp hin) hget
    rw [holdest]
    rw [infoAt] at hget
    dsimp only
    rw [hget]
    dsimp only
    rw [hrun]
    exact ⟨_, nId, rfl, (hmem nId).mp hin, hlinked₁, hplaced₁, by rw [hvvNew], hvvTried, hkey, hcount, hwithin⟩

/-! ### Adding -/

theorem Linked.unknown_nIdCount (h : am.Linked) : am.infoAt am.nIdCount = none := by
  cases hget : am.infoAt am.nIdCount with
  | none => rfl
  | some info => exact absurd (h.ids _ info hget).2 (Int.lt_irrefl _)

theorem Within.trans {am'' : CAddrMan} (h : am''.Within am') (h' : am'.Within am) : am''.Within am := by
  intro x info'' hget''
  obtain ⟨info', hget', haddr'⟩ := h x info'' hget''
  obtain ⟨info, hget, haddr⟩ := h' x info' hget'
  exact ⟨info, hget, haddr'.trans haddr⟩

theorem Within.overwrite (info' : CAddrInfo) (hget : am.infoAt nId = some info)
    (haddr : info'.toCNetAddr = info.toCNetAddr)
    (hinfo : am'.infoAt = Function.update am.infoAt nId (some info')) : am'.Within am := by
  intro x i hi
  have hx := map_update (f := (·.toCNetAddr)) hget haddr x
  rw [← hinfo, hi, Option.map_some] at hx
  obtain ⟨i₀, hi₀, heq⟩ := Option.map_eq_some_iff.mp hx.symm
  exact ⟨i₀, hi₀, heq.symm⟩

theorem Within.setInfo {info' : CAddrInfo} (hget : am.infoAt nId = some info)
    (haddr : info'.toCNetAddr = info.toCNetAddr) : (am.setInfo nId info').Within am :=
  .overwrite info' hget haddr (infoAt_setInfo am nId info')

theorem forall_card_update {n : NewBucket} {s : Finset Int} (hs : s.card ≤ ADDRMAN_NEW_BUCKET_SIZE)
    (h : ∀ n', n' ≠ n → (am.vvNew n').card ≤ ADDRMAN_NEW_BUCKET_SIZE) :
    ∀ n', (Function.update am.vvNew n s n').card ≤ ADDRMAN_NEW_BUCKET_SIZE :=
  (Function.forall_update_iff am.vvNew fun _ s => s.card ≤ ADDRMAN_NEW_BUCKET_SIZE).mpr ⟨hs, h⟩

/-- The last part of `Add_`, for an entry that may get one more reference. -/
theorem enterNew_spec (hlinked : am.Linked) (hget : am.infoAt nId = some info) (hsized : am.Sized)
    (hpend : Placed env timed (am.setInfo nId { info with nRefCount := info.nRefCount + 1 }) (some nId))
    (hin : ∀ b, nId ∈ am.vvNew b → Placed env timed am none) (chance : Chance) (source : CNetAddr) :
    ∃ am', am.enterNew env chance nId info source = .ok am' ∧ Inv env timed am' ∧
      am'.nIdCount = am.nIdCount ∧ am'.Within am := by
  unfold enterNew
  generalize info.getNewBucket env am.nKey source = b
  by_cases hb : nId ∈ am.vvNew b
  · dsimp only
    rw [if_pos hb]
    exact ⟨am, rfl, ⟨hlinked, hin b hb, hsized⟩, rfl, fun x i hi => ⟨i, hi, rfl⟩⟩
  · dsimp only
    rw [if_neg hb]
    have hlinked₁ : (am.setInfo nId { info with nRefCount := info.nRefCount + 1 }).Linked :=
      hlinked.setInfo hget rfl rfl
    have hwithin₁ : (am.setInfo nId { info with nRefCount := info.nRefCount + 1 }).Within am :=
      .setInfo hget rfl
    by_cases hfull : (am.vvNew b).card = ADDRMAN_NEW_BUCKET_SIZE
    · -- The bucket is full: another entry leaves first.
      have hcard : 0 < (am.vvNew b).card := hfull ▸ (by decide : 0 < ADDRMAN_NEW_BUCKET_SIZE)
      have hother : ∀ x ∈ am.vvNew b, some nId ≠ some x := fun x hx heq => hb (Option.some.inj heq ▸ hx)
      obtain ⟨am₂, x, hrun, hx, hlinked₂, hplaced₂, hvvNew, hvvTried, hkey₂, hcount, hwithin₂⟩ :=
        shrinkNew_spec hlinked₁ hpend chance (b := b) hcard hother
      have hb₂ : nId ∉ am₂.vvNew b := by
        rw [hvvNew, Function.update_self]
        exact fun hmem => hb (Finset.mem_of_mem_erase hmem)
      rw [vvNew_setInfo, if_pos hfull, hrun]
      refine ⟨_, rfl, ⟨hlinked₂.of_addresses rfl rfl (fun _ => rfl) hlinked₂.random, hplaced₂.enter hb₂,
        ⟨hkey₂ ▸ hsized.key, fun b' => ?_, forall_card_update ?_ fun b' hbb => ?_⟩⟩, hcount,
        hwithin₂.trans hwithin₁⟩
      · dsimp only
        rw [hvvTried]
        exact hsized.tried b'
      · have hle := Finset.card_insert_le nId (am₂.vvNew b)
        have herase : ((am.vvNew b).erase x).card = (am.vvNew b).card - 1 := Finset.card_erase_of_mem hx
        have hnew : am₂.vvNew b = (am.vvNew b).erase x := by
          rw [hvvNew, Function.update_self]
          rfl
        rw [hnew] at hle ⊢
        omega
      · rw [hvvNew, Function.update_of_ne hbb]
        exact hsized.new b'
    · rw [vvNew_setInfo, if_neg hfull]
      refine ⟨_, rfl, ⟨hlinked₁.of_addresses rfl rfl (fun _ => rfl) hlinked₁.random, hpend.enter hb,
        ⟨hsized.key, hsized.tried, forall_card_update ?_ fun b' _ => hsized.new b'⟩⟩, rfl, hwithin₁⟩
      have hle := hsized.new b
      have hinsert := Finset.card_insert_le nId (am.vvNew b)
      exact hinsert.trans (by omega)

/-- Whether a call would need an id beyond `INT_MAX`. -/
def NeedsId (env : AddrEnv) (am : CAddrMan) (addr : CAddress) : Prop :=
  env.isRoutable addr.toCNetAddr = true ∧ am.mapAddr.lookup addr.toCNetAddr = none ∧ am.nIdCount = INT_MAX

theorem find_eq (h : am.Linked) (addr : CNetAddr) : (am.mapAddr.lookup addr = none ∧ am.find addr = none) ∨
      ∃ nId info, am.find addr = some (nId, info) ∧ am.mapAddr.lookup addr = some nId ∧
        am.infoAt nId = some info ∧ info.toCNetAddr = addr := by
  unfold find
  cases hlookup : am.mapAddr.lookup addr with
  | none => exact .inl ⟨rfl, rfl⟩
  | some nId =>
    obtain ⟨info, hget, haddr⟩ := (h.address addr nId).mp hlookup
    refine .inr ⟨nId, info, ?_, rfl, hget, haddr⟩
    rw [infoAt] at hget
    rw [Option.bind_some, hget, Option.map_some]

theorem Inv.setInfo (h : Inv env timed am) {info' : CAddrInfo} (hget : am.infoAt nId = some info)
    (hservice : info'.toCService = info.toCService) (hrefs : info'.nRefCount = info.nRefCount)
    (hin : info'.fInTried = info.fInTried) (hpos : info'.nRandomPos = info.nRandomPos)
    (hsuccess : info'.nLastSuccess = info.nLastSuccess ∨ timed info'.nLastSuccess) :
    Inv env timed (am.setInfo nId info') :=
  ⟨h.linked.setInfo hget (congrArg (·.toCNetAddr) hservice) hpos,
    h.placed.same hget hservice hrefs hin hsuccess, ⟨h.sized.key, h.sized.tried, h.sized.new⟩⟩

/-- What an entry with an address leaves when it is added: the invariant, so many ids, and else the addresses
that were there. -/
structure Added (env : AddrEnv) (timed : Int64 → Prop) (am : CAddrMan) (addr : CNetAddr) (nIdCount : Int)
    (am' : CAddrMan) : Prop where
  inv : Inv env timed am'
  count : am'.nIdCount = nIdCount
  origin : ∀ x info', am'.infoAt x = some info' → info'.toCNetAddr = addr ∨
    ∃ info, am.infoAt x = some info ∧ info'.toCNetAddr = info.toCNetAddr

section Add

variable {addr : CAddress}

theorem add_new (h : Inv env timed am) (chance : Chance) (source : CNetAddr) (nTimePenalty : Int)
    (hroutable : env.isRoutable addr.toCNetAddr = true) (hcount : am.nIdCount ≠ INT_MAX)
    (hfresh : am.mapAddr.lookup addr.toCNetAddr = none) (hfind : am.find addr.toCNetAddr = none) :
    ∃ am', am.add_ env chance addr source nTimePenalty = .ok (true, am') ∧
      Added env timed am addr.toCNetAddr (am.nIdCount + 1) am' := by
  have hnone := h.linked.unknown_nIdCount
  unfold add_
  rw [if_neg (by simp [hroutable]), hfind]
  dsimp only
  unfold create
  rw [if_neg hcount]
  dsimp only
  let info : CAddrInfo := { CAddrInfo.new addr source with
    nRandomPos := am.vRandom.length
    nTime := toUInt32 (max 0 ((CAddrInfo.new addr source).nTime.toNat - nTimePenalty)) }
  let created : CAddrMan := { am with
    nIdCount := am.nIdCount + 1
    mapInfo := (am.mapInfo.insert am.nIdCount { CAddrInfo.new addr source with
      nRandomPos := am.vRandom.length }).insert am.nIdCount info
    mapAddr := am.mapAddr.insert addr.toCNetAddr am.nIdCount
    vRandom := am.vRandom ++ [am.nIdCount]
    nNew := am.nNew + 1 }
  have hcreated : created.infoAt = Function.update am.infoAt am.nIdCount (some info) := by
    refine (lookup_insert _ am.nIdCount info).trans ?_
    rw [lookup_insert, Function.update_idem]
    rfl
  have hlinked : created.Linked := h.linked.create hfresh rfl
    (lt_of_le_of_ne h.linked.count_le hcount) rfl hcreated rfl rfl
  have hgetNew : created.infoAt am.nIdCount = some info := by rw [hcreated, Function.update_self]
  have hpend : Placed env timed (created.setInfo am.nIdCount { info with nRefCount := info.nRefCount + 1 })
      (some am.nIdCount) := by
    have hone : (created.setInfo am.nIdCount { info with nRefCount := info.nRefCount + 1 }).infoAt =
        Function.update am.infoAt am.nIdCount (some { info with nRefCount := info.nRefCount + 1 }) := by
      rw [infoAt_setInfo, hcreated, Function.update_idem]
    have hle : info.nRefCount + 1 ≤ ADDRMAN_NEW_BUCKETS_PER_ADDRESS :=
      (by decide : (0 : Int) + 1 ≤ ADDRMAN_NEW_BUCKETS_PER_ADDRESS)
    refine h.placed.pend rfl hone rfl rfl rfl ?_ rfl (fun i hi => ?_) ?_ hle (.inr rfl)
    · rw [weightAt, hnone, Option.elim_none, Int.sub_zero]
      rfl
    · rw [hnone] at hi
      cases hi
    · rw [hnone]
      rfl
  have hin : ∀ b, am.nIdCount ∈ created.vvNew b → Placed env timed created none := by
    intro b hb
    obtain ⟨i, hi⟩ := h.placed.known_new (show am.nIdCount ∈ am.vvNew b from hb)
      (Option.some_ne_none _).symm
    rw [hnone] at hi
    cases hi
  obtain ⟨am', hrun, hinv, hcount', hwithin⟩ :=
    enterNew_spec hlinked hgetNew ⟨h.sized.key, h.sized.tried, h.sized.new⟩ hpend hin chance source
  refine ⟨am', congrArg (Except.map _) hrun, hinv, hcount', fun x info' hx => ?_⟩
  obtain ⟨i, hi, haddr⟩ := hwithin x info' hx
  rw [hcreated] at hi
  by_cases hxn : x = am.nIdCount
  · rw [hxn, Function.update_self] at hi
    exact .inl (haddr.trans (congrArg (·.toCNetAddr) (Option.some.inj hi).symm))
  · rw [Function.update_of_ne hxn] at hi
    exact .inr ⟨i, hi, haddr⟩

theorem add_known (h : Inv env timed am) (chance : Chance) (source : CNetAddr) (nTimePenalty : Int)
    (hroutable : env.isRoutable addr.toCNetAddr = true) {pinfo : CAddrInfo}
    (hfind : am.find addr.toCNetAddr = some (nId, pinfo)) (hget : am.infoAt nId = some pinfo) :
    ∃ am', am.add_ env chance addr source nTimePenalty = .ok (false, am') ∧
      Added env timed am addr.toCNetAddr am.nIdCount am' := by
  unfold add_
  rw [if_neg (by simp [hroutable]), hfind]
  dsimp only
  have hinv : Inv env timed (am.setInfo nId (refresh (chance.now 0) addr nTimePenalty pinfo)) :=
    h.setInfo hget rfl rfl rfl rfl (.inl rfl)
  have hwithin : (am.setInfo nId (refresh (chance.now 0) addr nTimePenalty pinfo)).Within am :=
    .setInfo hget rfl
  have hgetNew : (am.setInfo nId (refresh (chance.now 0) addr nTimePenalty pinfo)).infoAt nId =
      some (refresh (chance.now 0) addr nTimePenalty pinfo) := by
    rw [infoAt_setInfo, Function.update_self]
  have hstays : Added env timed am addr.toCNetAddr am.nIdCount
      (am.setInfo nId (refresh (chance.now 0) addr nTimePenalty pinfo)) :=
    ⟨hinv, rfl, fun x i hi => .inr (hwithin x i hi)⟩
  split_ifs with hnews htried hmax hdraw
  · exact ⟨_, rfl, hstays⟩
  · exact ⟨_, rfl, hstays⟩
  · exact ⟨_, rfl, hstays⟩
  · exact ⟨_, rfl, hstays⟩
  · generalize refresh (chance.now 0) addr nTimePenalty pinfo = info at *
    have hrange := (hinv.placed.at_id nId).range info hgetNew
    rw [if_neg htried] at hrange
    have hle : info.nRefCount + 1 ≤ ADDRMAN_NEW_BUCKETS_PER_ADDRESS := by
      have hne : info.nRefCount ≠ (ADDRMAN_NEW_BUCKETS_PER_ADDRESS : Int) := hmax
      omega
    have hpend : Placed env timed ((am.setInfo nId info).setInfo nId
        { info with nRefCount := info.nRefCount + 1 }) (some nId) := by
      refine hinv.placed.pend rfl (infoAt_setInfo ..) rfl rfl rfl ?_ (by simpa using htried)
        (fun i hi => ?_) ?_ hle (((hinv.placed.at_id nId).success info hgetNew).imp_right And.right)
      · rw [weightAt, hgetNew, Option.elim_some, newWeight, if_neg htried]
        exact (Int.sub_add_cancel ..).symm
      · rw [← Option.some.inj (hgetNew.symm.trans hi)]
        simpa using htried
      · rw [hgetNew]
        rfl
    obtain ⟨am', hrun, hinv', hcount', hwithin'⟩ :=
      enterNew_spec hinv.linked hgetNew hinv.sized hpend (fun _ _ => hinv.placed) chance source
    refine ⟨am', congrArg (Except.map _) hrun, hinv', hcount', fun x i hi => .inr ?_⟩
    exact hwithin'.trans hwithin x i hi

end Add

/-- **`Add_` keeps the invariant**, unless it runs out of ids. -/
theorem add_spec (h : Inv env timed am) (chance : Chance) (addr : CAddress) (source : CNetAddr) (nTimePenalty : Int)
    (hids : ¬ am.NeedsId env addr) :
    ∃ fNew am', am.add_ env chance addr source nTimePenalty = .ok (fNew, am') ∧
      Added env timed am addr.toCNetAddr (if env.isRoutable addr.toCNetAddr = true ∧
        am.mapAddr.lookup addr.toCNetAddr = none then am.nIdCount + 1 else am.nIdCount) am' := by
  cases hroutable : env.isRoutable addr.toCNetAddr with
  | false =>
    refine ⟨false, am, if_pos hroutable, h, ?_, fun x i hi => .inr ⟨i, hi, rfl⟩⟩
    simp
  | true =>
    rcases find_eq h.linked addr.toCNetAddr with ⟨hfresh, hfind⟩ | ⟨nId, pinfo, hfind, hknown, hget, -⟩
    · have hcount : am.nIdCount ≠ INT_MAX := fun heq => hids ⟨hroutable, hfresh, heq⟩
      rw [if_pos ⟨rfl, hfresh⟩]
      exact ⟨true, add_new h chance source nTimePenalty hroutable hcount hfresh hfind⟩
    · rw [if_neg (by simp [hknown])]
      exact ⟨false, add_known h chance source nTimePenalty hroutable hfind hget⟩

/-! ### Marking as good -/

theorem Placed.known_tried (h : Placed env timed am pending) {b : TriedBucket}
    (hb : nId ∈ am.vvTried b) : ∃ info, am.infoAt nId = some info ∧ info.fInTried = true ∧
      info.getTriedBucket env am.nKey = b := by
  have hcount := (h.at_id nId).tried b
  have hpos := List.count_pos_iff.mpr hb
  cases hget : am.infoAt nId with
  | none =>
    rw [hget, triedIn] at hcount
    omega
  | some info =>
    rw [hget, triedIn] at hcount
    split_ifs at hcount with hin
    · exact ⟨info, rfl, hin⟩
    · omega

/-- `nLastSuccess` as a number. -/
def lastSuccess (am : CAddrMan) (nId : Int) : Int := (am.lastSuccessOf nId).toInt

/-- The position that is drawn in a round, of so many entries. -/
def drawn (chance : Chance) (size i : Nat) : Nat := getRandInt (chance.draw (i + 1)) (size - i) + i

/-- **The inspected entries** of a bucket: those that the draws bring to its front. -/
def inspected (chance : Chance) (vTried : List Int) : List Int :=
  (shuffle (drawn chance vTried.length) ADDRMAN_TRIED_ENTRIES_INSPECT_ON_EVICT 0 vTried).take
    ADDRMAN_TRIED_ENTRIES_INSPECT_ON_EVICT

/-- What the loop keeps, of the entries in front. -/
inductive Kept (am : CAddrMan) (pos : Nat → Nat) (front : List Int) : Option Int → Option Nat → Prop
  | start : front = [] → Kept am pos front none none
  | found {i : Nat} {x : Int} : front[i]? = some x → FirstMin am.lastSuccess front i →
      Kept am pos front (some x) (some (pos i))

/-- One more entry is drawn. -/
theorem Kept.concat {pos : Nat → Nat} {front : List Int} {nOldest : Option Int} {nOldestPos : Option Nat}
    (h : Kept am pos front nOldest nOldestPos) (nTemp : Int) : Kept am pos (front ++ [nTemp])
      (if ∃ nOld ∈ nOldest, am.lastSuccess nOld ≤ am.lastSuccess nTemp then nOldest else some nTemp)
      (if ∃ nOld ∈ nOldest, am.lastSuccess nOld ≤ am.lastSuccess nTemp then nOldestPos
        else some (pos front.length)) := by
  cases h with
  | start hnil =>
    subst hnil
    simpa using (Kept.found rfl (firstMin_singleton am.lastSuccess nTemp) : Kept am pos [nTemp] _ _)
  | @found i x hx hfirst =>
    have hi := (List.getElem?_eq_some_iff.mp hx).1
    simp only [Option.mem_def, Option.some.injEq, exists_eq_left']
    by_cases hle : am.lastSuccess x ≤ am.lastSuccess nTemp
    · rw [if_pos hle, if_pos hle]
      refine .found (by rw [List.getElem?_append_left hi, hx]) (hfirst.concat_le fun y hy => ?_)
      rwa [Option.some.inj (hx.symm.trans hy)] at hle
    · rw [if_neg hle, if_neg hle]
      refine .found List.getElem?_concat_length (FirstMin.concat_lt fun y hy => ?_)
      obtain ⟨z, hz, hmin, -⟩ := hfirst
      obtain rfl := Option.some.inj (hx.symm.trans hz)
      exact (not_le.mp hle).trans_le (hmin y hy)

theorem le_drawn (chance : Chance) (size i : Nat) : i ≤ drawn chance size i := Nat.le_add_left _ _

theorem drawn_lt (chance : Chance) {size i : Nat} (hi : i < size) : drawn chance size i < size := by
  have hlt := getRandInt_lt (chance.draw (i + 1)) (Nat.sub_pos_of_lt hi)
  unfold drawn
  omega

/-- **The loop of `SelectTried`** shuffles the bucket. -/
theorem inspectTried_eq (chance : Chance) {size : Nat} (rounds i : Nat) {vTried : List Int}
    {nOldest : Option Int} {nOldestPos : Option Nat} (hsize : vTried.length = size)
    (hknown : ∀ x ∈ vTried, ∃ info, am.infoAt x = some info) (hi : i ≤ size)
    (hkept : Kept am (drawn chance size) (vTried.take i) nOldest nOldestPos) :
    ∃ nOldest' found, am.inspectTried chance rounds i nOldest nOldestPos vTried =
        .ok (found, shuffle (drawn chance size) rounds i vTried) ∧
      Kept am (drawn chance size) ((shuffle (drawn chance size) rounds i vTried).take (i + rounds)) nOldest' found := by
  induction rounds generalizing i vTried nOldest nOldestPos with
  | zero => exact ⟨nOldest, nOldestPos, rfl, hkept⟩
  | succ rounds ih =>
    by_cases hlt : i < size
    · have hpos := drawn_lt chance hlt
      have hle := le_drawn chance size i
      obtain ⟨nTemp, hTemp⟩ : ∃ x, vTried[drawn chance size i]? = some x :=
        ⟨_, List.getElem?_eq_getElem (hsize ▸ hpos)⟩
      obtain ⟨nId, hId⟩ : ∃ x, vTried[i]? = some x := ⟨_, List.getElem?_eq_getElem (hsize ▸ hlt)⟩
      have hexchange : exchange vTried i (drawn chance size i) = (vTried.set (drawn chance size i) nId).set i nTemp := by
        rw [exchange, hTemp, hId]
      have htake := take_exchange (hsize ▸ hlt) hle hTemp
      have hlen : (vTried.take i).length = i := by
        rw [List.length_take]
        omega
      have hnext := hkept.concat nTemp
      rw [← htake, hlen] at hnext
      have hknown' : ∀ x ∈ exchange vTried i (drawn chance size i), ∃ info, am.infoAt x = some info :=
        fun x hx => hknown x ((exchange_perm _ _ _).mem_iff.mp hx)
      obtain ⟨nOldest', found, hrun, hkept'⟩ := ih (i + 1) (by rw [length_exchange, hsize]) hknown' hlt hnext
      refine ⟨nOldest', found, ?_, ?_⟩
      · rw [shuffle, if_pos (hsize ▸ hlt), ← hrun, inspectTried, if_pos (hsize ▸ hlt), hsize]
        dsimp only
        rw [← drawn, hTemp, hId]
        dsimp only
        rw [← hexchange]
        cases hkept with
        | start hnil => simp
        | @found i₀ x hx hfirst =>
          obtain ⟨info, hget⟩ := hknown nTemp (List.mem_of_getElem? hTemp)
          rw [infoAt] at hget
          have hlt : am.lastSuccessOf nTemp < am.lastSuccessOf x ↔ ¬ am.lastSuccess x ≤ am.lastSuccess nTemp := by
            rw [Int64.lt_iff_toInt_lt, lastSuccess, lastSuccess, not_le]
          simp only [hget, Option.isNone_some, Bool.false_eq_true, if_false, hlt, Option.mem_def,
            Option.some.injEq, exists_eq_left']
          by_cases hle : am.lastSuccess x ≤ am.lastSuccess nTemp
          · simp [hle]
          · simp [hle]
      · rw [shuffle, if_pos (hsize ▸ hlt)]
        rwa [Nat.add_assoc, Nat.add_comm 1 rounds] at hkept'
    · have hstop : ¬ i < vTried.length := hsize ▸ hlt
      refine ⟨nOldest, nOldestPos, ?_, ?_⟩
      · rw [inspectTried, if_neg hstop, shuffle, if_neg hstop]
      · rw [shuffle, if_neg hstop]
        rwa [List.take_of_length_le (by omega), ← List.take_of_length_le (show vTried.length ≤ i by omega)]

/-- **`SelectTried`**: the shuffled bucket, and the position that the first of the least recently successful
inspected entries was drawn from. -/
theorem selectTried_eq {b : TriedBucket} (chance : Chance)
    (hknown : ∀ x ∈ am.vvTried b, ∃ info, am.infoAt x = some info) (hne : am.vvTried b ≠ []) :
    ∃ i, FirstMin am.lastSuccess (inspected chance (am.vvTried b)) i ∧
      am.selectTried chance b = .ok (some (drawn chance (am.vvTried b).length i),
        shuffle (drawn chance (am.vvTried b).length) ADDRMAN_TRIED_ENTRIES_INSPECT_ON_EVICT 0 (am.vvTried b)) := by
  obtain ⟨nOldest, found, hrun, hkept⟩ := inspectTried_eq chance ADDRMAN_TRIED_ENTRIES_INSPECT_ON_EVICT 0 rfl hknown
    (Nat.zero_le _) (Kept.start List.take_zero)
  rw [Nat.zero_add] at hkept
  cases hkept with
  | start hnil =>
    have hlen := congrArg List.length hnil
    rw [List.length_take, (shuffle_perm _ _ _ _).length_eq] at hlen
    have hpos := List.length_pos_of_ne_nil hne
    have hrounds : 0 < ADDRMAN_TRIED_ENTRIES_INSPECT_ON_EVICT := by decide
    rw [List.length_nil] at hlen
    omega
  | found _ hfirst => exact ⟨_, hfirst, hrun⟩

/-- **`SelectTried`** shuffles the bucket and picks a position of it. -/
theorem selectTried_spec {b : TriedBucket} (chance : Chance)
    (hknown : ∀ x ∈ am.vvTried b, ∃ info, am.infoAt x = some info) (hne : am.vvTried b ≠ []) :
    ∃ nPos vTried, am.selectTried chance b = .ok (some nPos, vTried) ∧ vTried.Perm (am.vvTried b) ∧
      nPos < vTried.length := by
  obtain ⟨i, ⟨x, hx, -⟩, hselect⟩ := selectTried_eq chance hknown hne
  have hperm := shuffle_perm (drawn chance (am.vvTried b).length) ADDRMAN_TRIED_ENTRIES_INSPECT_ON_EVICT 0
    (am.vvTried b)
  refine ⟨_, _, hselect, hperm, ?_⟩
  have hi := (List.getElem?_eq_some_iff.mp hx).1
  rw [inspected, List.length_take, hperm.length_eq] at hi
  rw [hperm.length_eq]
  exact drawn_lt chance (by omega)

theorem count_set_of_getElem? {v : List Int} {p : Nat} {b : Int} (h : v[p]? = some b) (a x : Int) :
    (v.set p a).count x = v.count x - (if x = b then 1 else 0) + if x = a then 1 else 0 := by
  obtain ⟨hp, rfl⟩ := List.getElem?_eq_some_iff.mp h
  rw [List.count_set hp]
  simp only [beq_iff_eq, @eq_comm _ x]

/-- An entry has left its new buckets. -/
structure Detached (am : CAddrMan) (nId : Int) (info info₁ : CAddrInfo) (am₁ : CAddrMan) : Prop where
  info_eq : info₁ = { info with nRefCount := 0 }
  infoAt : am₁.infoAt = Function.update am.infoAt nId (some info₁)
  vvNew : ∀ x n, x ∈ am₁.vvNew n ↔ x ∈ am.vvNew n ∧ x ≠ nId
  vvTried : am₁.vvTried = am.vvTried
  nTried : am₁.nTried = am.nTried
  nNew : am₁.nNew = am.nNew - 1
  nKey : am₁.nKey = am.nKey
  nIdCount : am₁.nIdCount = am.nIdCount
  mapAddr : am₁.mapAddr = am.mapAddr
  vRandom : am₁.vRandom = am.vRandom

theorem detach_spec (h : Inv env timed am) (hget : am.infoAt nId = some info) :
    ∃ info₁ am₁, am.detach nId info = (info₁, am₁) ∧ Detached am nId info info₁ am₁ := by
  have hrefs := (h.placed.at_id nId).refs
  rw [if_neg nofun, hget, Option.elim_some, Int.add_zero] at hrefs
  refine ⟨_, _, rfl, ⟨?_, infoAt_setInfo am nId _, fun x n => ?_, rfl, rfl, rfl, rfl, rfl, rfl, rfl⟩⟩
  · rw [← hrefs, Int.sub_self]
  · exact Finset.mem_erase.trans and_comm

section Detached

variable {info₁ : CAddrInfo} {am₁ : CAddrMan} {b : TriedBucket}

theorem Detached.known (hd : Detached am nId info info₁ am₁) (h : Inv env timed am)
    (b : TriedBucket) : ∀ x ∈ am₁.vvTried b, ∃ info, am₁.infoAt x = some info := by
  intro x hx
  rw [hd.vvTried] at hx
  obtain ⟨i, hi, -⟩ := h.placed.known_tried hx
  rw [hd.infoAt]
  rcases eq_or_ne x nId with rfl | hne
  · exact ⟨_, Function.update_self ..⟩
  · exact ⟨i, (Function.update_of_ne hne ..).trans hi⟩

theorem Detached.card_le (hd : Detached am nId info info₁ am₁) (n : NewBucket) :
    (am₁.vvNew n).card ≤ (am.vvNew n).card :=
  Finset.card_le_card fun x hx => ((hd.vvNew x n).mp hx).1

theorem Detached.getTriedBucket (hd : Detached am nId info info₁ am₁) :
    info₁.getTriedBucket env am.nKey = info.getTriedBucket env am.nKey := by
  rw [hd.info_eq]
  rfl

theorem Detached.forall_length_update (hd : Detached am nId info info₁ am₁) (h : Inv env timed am) {v : List Int}
    (hv : v.length ≤ ADDRMAN_TRIED_BUCKET_SIZE) :
    ∀ b', (Function.update am₁.vvTried b v b').length ≤ ADDRMAN_TRIED_BUCKET_SIZE :=
  (Function.forall_update_iff am₁.vvTried fun _ v => v.length ≤ ADDRMAN_TRIED_BUCKET_SIZE).mpr
    ⟨hv, fun b' _ => hd.vvTried ▸ h.sized.tried b'⟩

/-- **The bucket has room**: the entry is its last one. -/
theorem Detached.pushTried_spec (hd : Detached am nId info info₁ am₁) (h : Inv env timed am)
    (hget : am.infoAt nId = some info) (hin : info.fInTried = false) (hsuccess : timed info.nLastSuccess)
    (hb : info.getTriedBucket env am.nKey = b) (hroom : (am₁.vvTried b).length < ADDRMAN_TRIED_BUCKET_SIZE) :
    Inv env timed (am₁.pushTried nId info₁ b) ∧ (am₁.pushTried nId info₁ b).nIdCount = am.nIdCount ∧
      (am₁.pushTried nId info₁ b).Within am := by
  have hinfo' : (am₁.pushTried nId info₁ b).infoAt =
      Function.update am.infoAt nId (some { info₁ with fInTried := true }) := by
    refine (infoAt_setInfo am₁ nId _).trans ?_
    rw [hd.infoAt, Function.update_idem]
  have haddr : ({ info₁ with fInTried := true } : CAddrInfo).toCNetAddr = info.toCNetAddr := by rw [hd.info_eq]
  have hpos : ({ info₁ with fInTried := true } : CAddrInfo).nRandomPos = info.nRandomPos := by rw [hd.info_eq]
  refine ⟨⟨h.linked.overwrite _ hget haddr hpos hd.nIdCount hd.mapAddr hd.vRandom hinfo', ?_, ?_⟩, hd.nIdCount,
    .overwrite _ hget haddr hinfo'⟩
  · refine h.placed.promote hget hin hd.nKey hinfo' rfl (hd.getTriedBucket.trans hb) (by rw [hd.info_eq]) (by rwa [hd.info_eq])
      hd.vvNew (fun x b' => ?_) (hd.nTried ▸ rfl) hd.nNew
    rw [pushTried, hd.vvTried]
    dsimp only
    by_cases hbb : b' = b
    · subst hbb
      rw [Function.update_self, List.count_append, List.count_singleton]
      simp only [beq_iff_eq, @eq_comm _ x, and_true]
    · rw [Function.update_of_ne hbb]
      simp [hbb]
  · refine ⟨hd.nKey ▸ h.sized.key, hd.forall_length_update h ?_, fun n => (hd.card_le n).trans (h.sized.new n)⟩
    rw [List.length_append, List.length_singleton]
    exact hroom

/-- The bucket of origin has room: the entry has just left it. -/
theorem Detached.card_lt (hd : Detached am nId info info₁ am₁) (h : Inv env timed am) {n : NewBucket}
    (hmem : nId ∈ am.vvNew n) : (am₁.vvNew n).card < ADDRMAN_NEW_BUCKET_SIZE := by
  have hssub : am₁.vvNew n ⊂ am.vvNew n := by
    refine (Finset.ssubset_iff_of_subset fun x hx => ((hd.vvNew x n).mp hx).1).mpr ⟨nId, hmem, ?_⟩
    exact fun hx => ((hd.vvNew nId n).mp hx).2 rfl
  exact (Finset.card_lt_card hssub).trans_le (h.sized.new n)

variable {nIdOld : Int} {infoOld : CAddrInfo} {nTarget : NewBucket} {vTried : List Int} {nPos : Nat}

/-- An entry of a tried bucket is back in a new bucket. -/
def demoted (nIdOld : Int) (infoOld : CAddrInfo) (nTarget : NewBucket) (b : TriedBucket) (am : CAddrMan) : CAddrMan :=
  { am with
    mapInfo := am.mapInfo.insert nIdOld { infoOld with fInTried := false, nRefCount := 1 }
    vvNew := Function.update am.vvNew nTarget (insert nIdOld (am.vvNew nTarget))
    vvTried := Function.update am.vvTried b ((am.vvTried b).erase nIdOld)
    nTried := am.nTried - 1
    nNew := am.nNew + 1 }

theorem infoAt_demoted : (am.demoted nIdOld infoOld nTarget b).infoAt =
    Function.update am.infoAt nIdOld (some { infoOld with fInTried := false, nRefCount := 1 }) :=
  lookup_insert am.mapInfo nIdOld _

theorem Placed.demoted (h : Placed env timed am none) (hget : am.infoAt nIdOld = some infoOld)
    (hin : infoOld.fInTried = true) (hb : infoOld.getTriedBucket env am.nKey = b) :
    Placed env timed (am.demoted nIdOld infoOld nTarget b) none := by
  refine h.demote hget hin hb rfl infoAt_demoted rfl rfl rfl
    (fun x n => mem_update_insert) (fun x b' => ?_) rfl rfl
  by_cases hbb : b' = b
  · subst hbb
    simp only [CAddrMan.demoted, Function.update_self, List.count_erase, beq_iff_eq, @eq_comm _ x, and_true]
  · simp only [CAddrMan.demoted, Function.update_of_ne hbb, hbb, and_false, if_false, Nat.sub_zero]

/-- The new entry has its place in the tried bucket. -/
def evicted (nId nIdOld : Int) (info infoOld : CAddrInfo) (nTarget : NewBucket) (b : TriedBucket)
    (v : List Int) (am : CAddrMan) : CAddrMan :=
  { am with
    mapInfo := (am.mapInfo.insert nIdOld { infoOld with fInTried := false, nRefCount := 1 }).insert
      nId { info with fInTried := true }
    vvNew := Function.update am.vvNew nTarget (insert nIdOld (am.vvNew nTarget))
    nNew := am.nNew + 1
    vvTried := Function.update am.vvTried b v }

theorem Detached.infoAt_evicted (hd : Detached am nId info info₁ am₁) (hne : nIdOld ≠ nId) {v : List Int} :
    (am₁.evicted nId nIdOld info₁ infoOld nTarget b v).infoAt =
      Function.update (am.demoted nIdOld infoOld nTarget b).infoAt nId (some { info₁ with fInTried := true }) := by
  refine (lookup_insert _ nId _).trans ?_
  rw [lookup_insert, infoAt_demoted]
  have hinfoAt : (fun x => am₁.mapInfo.lookup x) = Function.update am.infoAt nId (some info₁) := hd.infoAt
  rw [hinfoAt, Function.update_comm hne.symm, Function.update_idem]

theorem Detached.placed_evicted (hd : Detached am nId info info₁ am₁) (hne : nIdOld ≠ nId)
    (h : Placed env timed (am.demoted nIdOld infoOld nTarget b) none) (hget : am.infoAt nId = some info)
    (hin : info.fInTried = false) (hsuccess : timed info.nLastSuccess)
    (hb : info.getTriedBucket env am.nKey = b) (hperm : vTried.Perm (am₁.vvTried b))
    (hOld : vTried[nPos]? = some nIdOld) :
    Placed env timed (am₁.evicted nId nIdOld info₁ infoOld nTarget b (vTried.set nPos nId)) none := by
  have hget' : (am.demoted nIdOld infoOld nTarget b).infoAt nId = some info := by
    rw [infoAt_demoted, Function.update_of_ne hne.symm, hget]
  refine h.promote hget' hin hd.nKey (hd.infoAt_evicted hne) rfl (hd.getTriedBucket.trans hb) (by rw [hd.info_eq])
    (by rwa [hd.info_eq]) (fun x n => ?_) (fun x b' => ?_) ?_ ?_
  · refine (mem_update_insert.trans (or_congr_left (hd.vvNew x n))).trans ?_
    refine Iff.trans ?_ (and_congr_left' mem_update_insert).symm
    constructor
    · rintro (⟨hx, hxn⟩ | ⟨rfl, hn⟩)
      · exact ⟨.inl hx, hxn⟩
      · exact ⟨.inr ⟨rfl, hn⟩, hne⟩
    · rintro ⟨hx | ⟨rfl, hn⟩, hxn⟩
      · exact .inl ⟨hx, hxn⟩
      · exact .inr ⟨rfl, hn⟩
  · by_cases hbb : b' = b
    · subst hbb
      simp only [evicted, CAddrMan.demoted, Function.update_self, and_true]
      rw [count_set_of_getElem? hOld, hperm.count_eq, hd.vvTried, List.count_erase]
      simp only [beq_iff_eq, @eq_comm _ x]
    · simp only [evicted, CAddrMan.demoted, Function.update_of_ne hbb, hbb, and_false, if_false, Nat.add_zero,
        hd.vvTried]
  · show am₁.nTried = am.nTried - 1 + 1
    rw [hd.nTried, Int.sub_add_cancel]
  · show am₁.nNew + 1 = am.nNew + 1 - 1
    rw [hd.nNew]
    omega

/-- **The bucket is full**: one of its entries goes back to a new bucket. -/
theorem Detached.evict_spec (hd : Detached am nId info info₁ am₁) (h : Inv env timed am) (chance : Chance)
    {nOrigin : NewBucket} (hget : am.infoAt nId = some info) (hin : info.fInTried = false)
    (hsuccess : timed info.nLastSuccess) (hmem : nId ∈ am.vvNew nOrigin)
    (hb : info.getTriedBucket env am.nKey = b) (hfull : ¬ (am₁.vvTried b).length < ADDRMAN_TRIED_BUCKET_SIZE) :
    ∃ am', am₁.evict env chance nId info₁ nOrigin b = .ok am' ∧ Inv env timed am' ∧
      am'.nIdCount = am.nIdCount ∧ am'.Within am := by
  have hlong : 0 < (am₁.vvTried b).length :=
    lt_of_lt_of_le (by decide : 0 < ADDRMAN_TRIED_BUCKET_SIZE) (Nat.not_lt.mp hfull)
  obtain ⟨nPos, vTried, hselect, hperm, hfound⟩ :=
    selectTried_spec chance (hd.known h b) (List.ne_nil_of_length_pos hlong)
  obtain ⟨nIdOld, hOld⟩ : ∃ x, vTried[nPos]? = some x := ⟨_, List.getElem?_eq_getElem hfound⟩
  have hOldMem : nIdOld ∈ am.vvTried b := by
    rw [← hd.vvTried]
    exact hperm.mem_iff.mp (List.mem_of_getElem? hOld)
  obtain ⟨infoOld, hgetOld, hinOld, hbucketOld⟩ := h.placed.known_tried hOldMem
  have hne : nIdOld ≠ nId := by
    rintro rfl
    rw [Option.some.inj (hgetOld.symm.trans hget), hin] at hinOld
    cases hinOld
  have hgetOld₁ : am₁.mapInfo.lookup nIdOld = some infoOld := by
    have := congrFun hd.infoAt nIdOld
    rwa [Function.update_of_ne hne, hgetOld] at this
  unfold evict
  simp only [hselect, hOld, hgetOld₁]
  generalize hTarget : (if (am₁.vvNew (infoOld.getNewBucket env am₁.nKey infoOld.source)).card <
    ADDRMAN_NEW_BUCKET_SIZE then infoOld.getNewBucket env am₁.nKey infoOld.source else nOrigin) = nTarget
  have hroom : (am₁.vvNew nTarget).card < ADDRMAN_NEW_BUCKET_SIZE := by
    rw [← hTarget]
    split_ifs with hcard
    · exact hcard
    · exact hd.card_lt h hmem
  have hdemoted : (am.demoted nIdOld infoOld nTarget b).infoAt nId = some info := by
    rw [infoAt_demoted, Function.update_of_ne hne.symm, hget]
  have hfinal : (am₁.evicted nId nIdOld info₁ infoOld nTarget b (vTried.set nPos nId)).infoAt = _ :=
    hd.infoAt_evicted hne
  have haddr : ({ info₁ with fInTried := true } : CAddrInfo).toCNetAddr = info.toCNetAddr := by rw [hd.info_eq]
  have hpos : ({ info₁ with fInTried := true } : CAddrInfo).nRandomPos = info.nRandomPos := by rw [hd.info_eq]
  refine ⟨_, rfl, ⟨?_, hd.placed_evicted hne (h.placed.demoted hgetOld hinOld hbucketOld) hget hin hsuccess hb hperm
    hOld, ⟨hd.nKey ▸ h.sized.key, hd.forall_length_update h ?_, forall_card_update ?_ fun n _ => ?_⟩⟩,
    hd.nIdCount, ?_⟩
  · have hlinked : (am.demoted nIdOld infoOld nTarget b).Linked :=
      h.linked.overwrite { infoOld with fInTried := false, nRefCount := 1 } hgetOld rfl rfl rfl rfl rfl infoAt_demoted
    exact hlinked.overwrite _ hdemoted haddr hpos hd.nIdCount hd.mapAddr hd.vRandom hfinal
  · rw [List.length_set, hperm.length_eq, hd.vvTried]
    exact h.sized.tried b
  · exact (Finset.card_insert_le _ _).trans hroom
  · exact (hd.card_le n).trans (h.sized.new n)
  · exact (Within.overwrite _ hdemoted haddr hfinal).trans
      (.overwrite { infoOld with fInTried := false, nRefCount := 1 } hgetOld rfl infoAt_demoted)

end Detached

/-- **`MakeTried` keeps the invariant.** -/
theorem makeTried_spec (h : Inv env timed am) (chance : Chance) {nOrigin : NewBucket}
    (hget : am.infoAt nId = some info) (hin : info.fInTried = false) (hsuccess : timed info.nLastSuccess)
    (hmem : nId ∈ am.vvNew nOrigin) :
    ∃ am', am.makeTried env chance nId info nOrigin = .ok am' ∧ Inv env timed am' ∧ am'.nIdCount = am.nIdCount ∧
      am'.Within am := by
  obtain ⟨info₁, am₁, hdetach, hd⟩ := detach_spec h hget
  unfold makeTried
  rw [if_neg (not_not.mpr hmem), hdetach]
  dsimp only
  rw [if_neg (not_not.mpr (by rw [hd.info_eq])), hd.nKey, hd.getTriedBucket]
  split_ifs with hroom
  · exact ⟨_, rfl, hd.pushTried_spec h hget hin hsuccess rfl hroom⟩
  · exact hd.evict_spec h chance hget hin hsuccess hmem rfl hroom

/-- **`Good_` keeps the invariant** at such a time. -/
theorem good_spec (h : Inv env timed am) (chance : Chance) (addr : CService) {nTime : Int64} (htime : timed nTime) :
    ∃ am', am.good_ env chance addr nTime = .ok am' ∧ Inv env timed am' ∧ am'.nIdCount = am.nIdCount ∧
      am'.Within am := by
  have hsame : am.Within am := fun x i hi => ⟨i, hi, rfl⟩
  unfold good_
  rcases find_eq h.linked addr.toCNetAddr with ⟨-, hfind⟩ | ⟨nId, info, hfind, -, hget, -⟩
  · rw [hfind]
    exact ⟨am, rfl, h, rfl, hsame⟩
  · rw [hfind]
    dsimp only
    split_ifs with hother htried
    · exact ⟨am, rfl, h, rfl, hsame⟩
    · exact ⟨_, rfl, h.setInfo hget rfl rfl rfl rfl (.inr htime), rfl, .setInfo hget rfl⟩
    · let info₁ : CAddrInfo := { info with
        nLastSuccess := nTime, nLastTry := nTime, nTime := toUInt32 nTime.toInt, nAttempts := 0 }
      have hinv : Inv env timed (am.setInfo nId info₁) := h.setInfo hget rfl rfl rfl rfl (.inr htime)
      have hwithin : (am.setInfo nId info₁).Within am := .setInfo hget rfl
      have hget₁ : (am.setInfo nId info₁).infoAt nId = some info₁ := by
        rw [infoAt_setInfo, Function.update_self]
      split
      · exact ⟨_, rfl, hinv, rfl, hwithin⟩
      · next nUBucket hbucket =>
        have hfound := List.find?_some hbucket
        have hmem : nId ∈ (am.setInfo nId info₁).vvNew nUBucket := of_decide_eq_true hfound
        obtain ⟨am', hrun, hinv', hcount, hwithin'⟩ :=
          makeTried_spec hinv chance hget₁ (Bool.eq_false_of_not_eq_true htried) htime hmem
        exact ⟨am', hrun, hinv', hcount, hwithin'.trans hwithin⟩

/-! ### The other calls -/

/-- An attempt that cannot be counted. -/
def Uncounted (am : CAddrMan) (addr : CService) : Prop :=
  ∃ nId info, am.find addr.toCNetAddr = some (nId, info) ∧ info.toCService = addr ∧
    info.nAttempts.toInt = INT_MAX

theorem attempt_spec (h : Inv env timed am) (addr : CService) (nTime : Int64) (hcounted : ¬ am.Uncounted addr) :
    ∃ am', am.attempt_ addr nTime = .ok am' ∧ Inv env timed am' := by
  unfold attempt_
  rcases find_eq h.linked addr.toCNetAddr with ⟨-, hfind⟩ | ⟨nId, info, hfind, -, hget, -⟩
  · rw [hfind]
    exact ⟨am, rfl, h⟩
  · rw [hfind]
    dsimp only
    split_ifs with hother hmax
    · exact ⟨am, rfl, h⟩
    · exact absurd ⟨nId, info, hfind, not_not.mp hother, hmax⟩ hcounted
    · exact ⟨_, rfl, h.setInfo hget rfl rfl rfl rfl (.inl rfl)⟩

theorem connected_spec (h : Inv env timed am) (addr : CService) (nTime : Int64) :
    Inv env timed (am.connected_ addr nTime) := by
  unfold connected_
  rcases find_eq h.linked addr.toCNetAddr with ⟨-, hfind⟩ | ⟨nId, info, hfind, -, hget, -⟩
  · rw [hfind]
    exact h
  · rw [hfind]
    dsimp only
    split_ifs
    · exact h
    · exact h.setInfo hget rfl rfl rfl rfl (.inl rfl)
    · exact h

def Addresses (am : CAddrMan) (ids : List Int) (vAddr : List CAddress) : Prop :=
  List.Forall₂ (fun nId addr => ∃ info, am.infoAt nId = some info ∧ info.toCAddress = addr) ids vAddr

theorem getAddrLoop_spec (h : Inv env timed am) (chance : Chance) (rounds n : Nat)
    (hle : n + rounds ≤ am.vRandom.length) :
    ∃ vAddr am', getAddrLoop chance rounds n am = .ok (vAddr, am') ∧ Inv env timed am' ∧
      (∀ x, (am'.infoAt x).map core = (am.infoAt x).map core) ∧ am'.vRandom.take n = am.vRandom.take n ∧
      am'.vRandom.length = am.vRandom.length ∧ am'.Addresses ((am'.vRandom.drop n).take rounds) vAddr := by
  induction rounds generalizing n am with
  | zero => exact ⟨[], am, rfl, h, fun _ => rfl, rfl, rfl, by rw [List.take_zero]; exact .nil⟩
  | succ rounds ih =>
    have hdraw := getRandInt_lt (chance.draw n) (Nat.sub_pos_of_lt (by omega : n < am.vRandom.length))
    obtain ⟨mapInfo, vRandom, hswap, hlinked, hcore, hlen, -, htake⟩ := swapRandom_spec h.linked
      (by omega : n < am.vRandom.length)
      (by omega : getRandInt (chance.draw n) (am.vRandom.length - n) + n < am.vRandom.length)
    have hinv : Inv env timed { am with mapInfo, vRandom } :=
      ⟨hlinked, h.placed.of_core rfl hcore rfl rfl rfl rfl, ⟨h.sized.key, h.sized.tried, h.sized.new⟩⟩
    have hn : n < vRandom.length := by omega
    obtain ⟨info, hget⟩ : ∃ info, mapInfo.lookup vRandom[n] = some info := by
      have hat := (hlinked.random.at_iff n _).mp (List.getElem?_eq_getElem hn)
      obtain ⟨info, hget, -⟩ := Option.map_eq_some_iff.mp hat
      exact ⟨info, hget⟩
    obtain ⟨vAddr, am', hrun, hinv', hcore', htake', hlen', haddr⟩ := ih hinv (n + 1) (by dsimp only; omega)
    have hn' : n < am'.vRandom.length := by rw [hlen']; exact hn
    have hsame : am'.vRandom[n] = vRandom[n] := by
      have := congrArg (·[n]?) htake'
      simp only [List.getElem?_take, Nat.lt_succ_self, if_true] at this
      rw [List.getElem?_eq_getElem hn', List.getElem?_eq_getElem hn] at this
      exact Option.some.inj this
    refine ⟨info.toCAddress :: vAddr, am', ?_, hinv', fun x => (hcore' x).trans (hcore x), ?_,
      hlen'.trans hlen, ?_⟩
    · unfold getAddrLoop
      rw [hswap]
      dsimp only
      rw [List.getElem?_eq_getElem hn, Option.bind_some, hget, hrun]
      rfl
    · have := congrArg (List.take n) htake'
      rw [List.take_take, List.take_take, Nat.min_eq_left (Nat.le_succ n)] at this
      exact this.trans (htake (Nat.le_add_left n _))
    · rw [List.drop_eq_getElem_cons hn', List.take_succ_cons, hsame]
      refine .cons ?_ haddr
      have hx := hcore' vRandom[n]
      rw [show (({ am with mapInfo, vRandom } : CAddrMan)).infoAt vRandom[n] = some info from hget,
        Option.map_some] at hx
      obtain ⟨info', hget', heq⟩ := Option.map_eq_some_iff.mp hx
      exact ⟨info', hget', congrArg (·.toCAddress) heq⟩

theorem Addresses.distinct (h : am.Linked) {ids : List Int} {vAddr : List CAddress}
    (haddr : am.Addresses ids vAddr) (hnodup : ids.Nodup) : (vAddr.map (·.toCNetAddr)).Nodup ∧
      ∀ addr ∈ vAddr, ∃ nId ∈ ids, ∃ info, am.infoAt nId = some info ∧ info.toCAddress = addr := by
  unfold Addresses at haddr
  induction haddr with
  | nil => exact ⟨.nil, nofun⟩
  | @cons nId addr ids vAddr hhead _ ih =>
    obtain ⟨hnot, hnodup⟩ := List.nodup_cons.mp hnodup
    obtain ⟨hdistinct, hknown⟩ := ih hnodup
    obtain ⟨info, hget, rfl⟩ := hhead
    refine ⟨List.nodup_cons.mpr ⟨fun hmem => ?_, hdistinct⟩, List.forall_mem_cons.mpr
      ⟨⟨nId, List.mem_cons_self, info, hget, rfl⟩, fun addr hmem => ?_⟩⟩
    · obtain ⟨addr', hmem', heq⟩ := List.mem_map.mp hmem
      obtain ⟨nId', hin, info', hget', rfl⟩ := hknown addr' hmem'
      have hid := (h.address _ nId).mpr ⟨info, hget, rfl⟩
      have hid' := (h.address _ nId').mpr ⟨info', hget', heq⟩
      exact hnot (Option.some.inj (hid'.symm.trans hid) ▸ hin)
    · obtain ⟨nId', hin, hrest⟩ := hknown addr hmem
      exact ⟨nId', List.mem_cons_of_mem _ hin, hrest⟩

/-- **`GetAddr_` returns distinct known addresses.** -/
theorem getAddr_spec (h : Inv env timed am) (chance : Chance) :
    ∃ vAddr am', am.getAddr_ chance = .ok (vAddr, am') ∧ Inv env timed am' ∧
      (vAddr.map (·.toCNetAddr)).Nodup ∧
      ∀ addr ∈ vAddr, ∃ nId info, am.infoAt nId = some info ∧ info.toCAddress = addr := by
  have hle : 0 + min (ADDRMAN_GETADDR_MAX_PCT * am.vRandom.length / 100) ADDRMAN_GETADDR_MAX ≤
      am.vRandom.length := by
    have : ADDRMAN_GETADDR_MAX_PCT * am.vRandom.length / 100 ≤ am.vRandom.length := by
      unfold ADDRMAN_GETADDR_MAX_PCT
      omega
    omega
  obtain ⟨vAddr, am', hrun, hinv, hcore, -, -, haddr⟩ := getAddrLoop_spec h chance _ 0 hle
  obtain ⟨hdistinct, hknown⟩ := haddr.distinct hinv.linked
    ((hinv.linked.random.nodup.sublist (List.drop_sublist 0 _)).sublist (List.take_sublist _ _))
  refine ⟨vAddr, am', hrun, hinv, hdistinct, fun addr hmem => ?_⟩
  obtain ⟨nId, -, info', hget', rfl⟩ := hknown addr hmem
  have hx := hcore nId
  rw [hget', Option.map_some] at hx
  obtain ⟨info, hget, heq⟩ := Option.map_eq_some_iff.mp hx.symm
  exact ⟨nId, info, hget, congrArg (·.toCAddress) heq⟩

end

/-! ### Runs -/

/-- The calls; `Add` of several addresses is the one of each. -/
inductive Call where
  | add (addr : CAddress) (source : CNetAddr) (nTimePenalty : Int)
  | good (addr : CService) (nTime : Int64)
  | attempt (addr : CService) (nTime : Int64)
  | connected (addr : CService) (nTime : Int64)
  | getAddr

/-- A call, with the addresses that `GetAddr` returns. -/
def run (env : AddrEnv) (chance : Chance) (am : CAddrMan) : Call → Except Halt (List CAddress × CAddrMan)
  | .add addr source nTimePenalty =>
    (am.add_ env chance addr source nTimePenalty).map fun result => ([], result.2)
  | .good addr nTime => (am.good_ env chance addr nTime).map fun am => ([], am)
  | .attempt addr nTime => (am.attempt_ addr nTime).map fun am => ([], am)
  | .connected addr nTime => .ok ([], am.connected_ addr nTime)
  | .getAddr => am.getAddr_ chance

def Call.Timed (timed : Int64 → Prop) : Call → Prop
  | .good _ nTime => timed nTime
  | _ => True

/-- The counters that a call increments are below `INT_MAX`. -/
def Fits (env : AddrEnv) (am : CAddrMan) : Call → Prop
  | .add addr _ _ => ¬ am.NeedsId env addr
  | .attempt addr _ => ¬ am.Uncounted addr
  | _ => True

/-- The address managers of all runs, where `Good` is only called at such times. -/
inductive Run (env : AddrEnv) (timed : Int64 → Prop) : CAddrMan → Prop where
  | start (nKey : List UInt8) : nKey.length = 32 → Run env timed (.new nKey)
  | step {am am' : CAddrMan} {call : Call} {chance : Chance} {vAddr : List CAddress} : Run env timed am →
      call.Timed timed → am.run env chance call = .ok (vAddr, am') → Run env timed am'

section

variable {env : AddrEnv} {timed : Int64 → Prop} {am : CAddrMan}

theorem Inv.new {nKey : List UInt8} (hkey : nKey.length = 32) : Inv env timed (.new nKey) := by
  have htotal : ∀ w : CAddrInfo → Int, total w (CAddrMan.new nKey).infoAt = 0 := fun _ => total_none
  have hcount : (0 : Int) ≤ INT_MAX := by decide
  refine ⟨⟨le_rfl, hcount, nofun, fun addr nId => ?_, .nil⟩,
    ⟨fun nId => ⟨?_, fun b => rfl, nofun, nofun⟩, ?_, ?_⟩,
    ⟨hkey, fun b => Nat.zero_le _, fun b => Nat.zero_le _⟩⟩
  · refine ⟨nofun, ?_⟩
    rintro ⟨info, hget, -⟩
    cases hget
  · have hnone : (CAddrMan.new nKey).bucketsOf nId = ∅ := by
      ext b
      rw [mem_bucketsOf]
      exact ⟨nofun, nofun⟩
    rw [hnone]
    rfl
  · exact (htotal _).symm
  · exact (htotal _).symm

/-- What is to hold of a call: it ends, the invariant holds after it, and the addresses it returns
are distinct and known. -/
def CallCorrect (env : AddrEnv) (timed : Int64 → Prop) (am : CAddrMan) (chance : Chance) (call : Call) :
    Prop :=
  ∃ vAddr am', am.run env chance call = .ok (vAddr, am') ∧ Inv env timed am' ∧
    (vAddr.map (·.toCNetAddr)).Nodup ∧
    ∀ addr ∈ vAddr, ∃ nId info, am.infoAt nId = some info ∧ info.toCAddress = addr

theorem add_overflow (h : am.NeedsId env addr) (chance : Chance) (source : CNetAddr) (nTimePenalty : Int) :
    am.add_ env chance addr source nTimePenalty = .error .overflow := by
  obtain ⟨hroutable, hfresh, hmax⟩ := h
  have hfind : am.find addr.toCNetAddr = none := by rw [find, hfresh, Option.bind_none]
  unfold add_ create
  rw [if_neg (by simp [hroutable]), hfind]
  dsimp only
  rw [if_pos hmax]

theorem attempt_overflow {addr : CService} (h : am.Uncounted addr) (nTime : Int64) :
    am.attempt_ addr nTime = .error .overflow := by
  obtain ⟨nId, info, hfind, hservice, hmax⟩ := h
  unfold attempt_
  rw [hfind]
  dsimp only
  rw [if_neg (not_not.mpr hservice), if_pos hmax]

/-- **A call is correct exactly where its counters fit.** -/
theorem Inv.callCorrect_iff (h : Inv env timed am) {call : Call} (htimed : call.Timed timed) (chance : Chance) :
    CallCorrect env timed am chance call ↔ am.Fits env call := by
  constructor
  · rintro ⟨vAddr, am', hrun, -⟩
    cases call with
    | add addr source nTimePenalty =>
      intro hids
      rw [run, add_overflow hids] at hrun
      cases hrun
    | attempt addr nTime =>
      intro hmax
      rw [run, attempt_overflow hmax] at hrun
      cases hrun
    | good | connected | getAddr => trivial
  · intro hfits
    cases call with
    | add addr source nTimePenalty =>
      obtain ⟨fNew, am', hrun, hinv, -⟩ := add_spec h chance addr source nTimePenalty hfits
      exact ⟨[], am', congrArg (Except.map _) hrun, hinv, .nil, nofun⟩
    | good addr nTime =>
      obtain ⟨am', hrun, hinv, -⟩ := good_spec h chance addr htimed
      exact ⟨[], am', congrArg (Except.map _) hrun, hinv, .nil, nofun⟩
    | attempt addr nTime =>
      obtain ⟨am', hrun, hinv⟩ := attempt_spec h addr nTime hfits
      exact ⟨[], am', congrArg (Except.map _) hrun, hinv, .nil, nofun⟩
    | connected addr nTime => exact ⟨[], _, rfl, connected_spec h addr nTime, .nil, nofun⟩
    | getAddr => exact getAddr_spec h chance

theorem Inv.of_run (h : Inv env timed am) {call : Call} (htimed : call.Timed timed) {chance : Chance}
    {vAddr : List CAddress} {am' : CAddrMan} (hrun : am.run env chance call = .ok (vAddr, am')) :
    Inv env timed am' := by
  have hfits : am.Fits env call := by
    cases call with
    | add addr source nTimePenalty =>
      intro hids
      rw [run, add_overflow hids] at hrun
      cases hrun
    | attempt addr nTime =>
      intro hmax
      rw [run, attempt_overflow hmax] at hrun
      cases hrun
    | good | connected | getAddr => trivial
  obtain ⟨vAddr', am₁, hrun₁, hinv, -⟩ := (h.callCorrect_iff htimed chance).mpr hfits
  obtain ⟨-, rfl⟩ := Prod.mk.inj (Except.ok.inj (hrun.symm.trans hrun₁))
  exact hinv

/-- By induction on the run, every address manager satisfies the invariant. -/
theorem Run.inv (hrun : Run env timed am) : Inv env timed am := by
  induction hrun with
  | start nKey hkey => exact .new hkey
  | step _ htimed hstep ih => exact ih.of_run htimed hstep

/-- **The address manager.** In every run the invariant holds in every state reached, and a call ends
without a failed assertion, keeps the invariant and returns distinct known addresses exactly where the
counters it increments fit. -/
theorem inv_of_run {am : CAddrMan} (hrun : Run env (· ≠ 0) am) : Inv env (· ≠ 0) am ∧
    ∀ (call : Call) (chance : Chance), call.Timed (· ≠ 0) →
      (CallCorrect env (· ≠ 0) am chance call ↔ am.Fits env call) :=
  ⟨hrun.inv, fun _ chance htimed => hrun.inv.callCorrect_iff htimed chance⟩

end

/-! ### Too many addresses -/

/-- Every address is routable, and all go into one bucket. -/
def sampleEnv : AddrEnv := ⟨fun _ => 0, fun _ => [], fun _ => true⟩

def sampleKey : List UInt8 := List.replicate 32 7

/-- The addresses one after the other. -/
def sampleAddress (n : Nat) : CAddress := ⟨⟨⟨BitVec.ofNat 128 n⟩, 8333⟩, 1, 1000, 0⟩

def sampleChance : Chance := ⟨fun _ => 0, fun _ => 2000⟩

theorem sampleAddress_ne {m n : Nat} (hm : m < n) (hn : n < 2 ^ 128) :
    (sampleAddress m).toCNetAddr ≠ (sampleAddress n).toCNetAddr := by
  intro heq
  have hip : BitVec.ofNat 128 m = BitVec.ofNat 128 n := congrArg CNetAddr.ip heq
  have := congrArg BitVec.toNat hip
  rw [BitVec.toNat_ofNat, BitVec.toNat_ofNat, Nat.mod_eq_of_lt (hm.trans hn), Nat.mod_eq_of_lt hn] at this
  omega

theorem Linked.unknown_sample {am : CAddrMan} (h : am.Linked) {n : Nat} (hn : n < 2 ^ 128)
    (hknown : ∀ x info, am.infoAt x = some info → ∃ m < n, info.toCNetAddr = (sampleAddress m).toCNetAddr) :
    am.mapAddr.lookup (sampleAddress n).toCNetAddr = none := by
  cases hlookup : am.mapAddr.lookup (sampleAddress n).toCNetAddr with
  | none => rfl
  | some nId =>
    obtain ⟨info, hget, haddr⟩ := (h.address _ nId).mp hlookup
    obtain ⟨m, hm, heq⟩ := hknown nId info hget
    exact absurd (heq.symm.trans haddr) (sampleAddress_ne hm hn)

/-- By induction, there is a run that has given out so many ids. -/
theorem exists_run (timed : Int64 → Prop) (n : Nat) (hn : (n : Int) ≤ INT_MAX) :
    ∃ am, Run sampleEnv timed am ∧ am.nIdCount = n ∧
      ∀ x info, am.infoAt x = some info → ∃ m < n, info.toCNetAddr = (sampleAddress m).toCNetAddr := by
  have hmax : INT_MAX < 2 ^ 128 := by decide
  induction n with
  | zero => exact ⟨.new sampleKey, .start sampleKey rfl, rfl, nofun⟩
  | succ n ih =>
    obtain ⟨am, hrun, hcount, hknown⟩ := ih (by omega)
    have hfresh := hrun.inv.linked.unknown_sample (by omega) hknown
    have hids : ¬ am.NeedsId sampleEnv (sampleAddress n) := by
      rintro ⟨-, -, heq⟩
      omega
    obtain ⟨fNew, am', hadd, -, hcount', hknown'⟩ :=
      add_spec hrun.inv sampleChance (sampleAddress n) ⟨0⟩ 0 hids
    rw [if_pos ⟨rfl, hfresh⟩, hcount] at hcount'
    have htimed : (Call.add (sampleAddress n) ⟨0⟩ 0).Timed timed := trivial
    have hstep : am.run sampleEnv sampleChance (.add (sampleAddress n) ⟨0⟩ 0) = .ok ([], am') :=
      congrArg (Except.map _) hadd
    refine ⟨am', .step hrun htimed hstep, by rw [hcount']; rfl, fun x info hget => ?_⟩
    rcases hknown' x info hget with haddr | ⟨info₀, hget₀, haddr⟩
    · exact ⟨n, Nat.lt_succ_self n, haddr⟩
    · obtain ⟨m, hm, heq⟩ := hknown x info₀ hget₀
      exact ⟨m, hm.trans (Nat.lt_succ_self n), haddr.trans heq⟩

/-- **`nIdCount` overflows**: after `2 ^ 31 - 1` new addresses there is no id for the next one. -/
theorem not_forall_callCorrect :
    ¬ ∀ (env : AddrEnv) (am : CAddrMan) (chance : Chance) (call : Call), Run env (· ≠ 0) am →
      call.Timed (· ≠ 0) → CallCorrect env (· ≠ 0) am chance call := by
  intro hall
  obtain ⟨am, hrun, hcount, hknown⟩ := exists_run (· ≠ 0) (2 ^ 31 - 1) (by decide)
  have hfresh := hrun.inv.linked.unknown_sample (by decide) hknown
  have htimed : (Call.add (sampleAddress (2 ^ 31 - 1)) ⟨0⟩ 0).Timed (· ≠ 0) := trivial
  have hcorrect := hall sampleEnv am sampleChance _ hrun htimed
  exact (hrun.inv.callCorrect_iff htimed sampleChance).mp hcorrect ⟨rfl, hfresh, hcount⟩

def runAll (env : AddrEnv) (am : CAddrMan) (calls : List Call) : Except Halt CAddrMan :=
  calls.foldlM (fun am call => (am.run env sampleChance call).map Prod.snd) am

theorem Run.runAll {env : AddrEnv} {timed : Int64 → Prop} (calls : List Call) {am am' : CAddrMan}
    (hrun : Run env timed am) (htimed : ∀ call ∈ calls, call.Timed timed) (h : am.runAll env calls = .ok am') :
    Run env timed am' := by
  induction calls generalizing am with
  | nil =>
    cases h
    exact hrun
  | cons call calls ih =>
    rw [CAddrMan.runAll, List.foldlM_cons] at h
    cases hcall : am.run env sampleChance call with
    | error halt =>
      rw [hcall] at h
      cases h
    | ok result =>
      rw [hcall] at h
      exact ih (.step hrun (htimed call List.mem_cons_self) hcall)
        (fun call hin => htimed call (List.mem_cons_of_mem _ hin)) h

/-- The group is the last byte, and the one that follows the key is the hash. -/
def spreadEnv : AddrEnv :=
  ⟨fun bytes => (bytes.getD 34 0).toUInt64, fun addr => [UInt8.ofNat addr.ip.toNat], fun _ => true⟩

/-- Two addresses from two sources, the first of which was good. -/
def sampleCalls : List Call :=
  [.add (sampleAddress 1) ⟨1⟩ 0, .add (sampleAddress 2) ⟨2⟩ 0, .add (sampleAddress 3) ⟨9⟩ 0,
    .good (sampleAddress 1).toCService 1500]

def sampleManager : CAddrMan :=
  match (CAddrMan.new sampleKey).runAll spreadEnv sampleCalls with
  | .ok am => am
  | .error _ => .new sampleKey

theorem run_sampleManager {timed : Int64 → Prop} (htimed : timed 1500) : Run spreadEnv timed sampleManager := by
  refine Run.runAll sampleCalls (.start sampleKey rfl) (fun call hin => ?_) rfl
  simp only [sampleCalls, List.mem_cons, List.not_mem_nil, or_false] at hin
  rcases hin with rfl | rfl | rfl | rfl
  · trivial
  · trivial
  · trivial
  · exact htimed

/-- One more address, where one was tried and two are new. -/
theorem inv_of_run_sample : (sampleManager.nTried = 1 ∧ sampleManager.nNew = 2) ∧
    CallCorrect spreadEnv (· ≠ 0) sampleManager sampleChance (.add (sampleAddress 4) ⟨1⟩ 0) := by
  have hfits : sampleManager.Fits spreadEnv (.add (sampleAddress 4) ⟨1⟩ 0) := fun hids =>
    absurd hids.2.2 (by decide)
  have htimed : (Call.add (sampleAddress 4) ⟨1⟩ 0).Timed (· ≠ 0) := trivial
  exact ⟨⟨rfl, rfl⟩, ((inv_of_run (run_sampleManager (by decide))).2 _ sampleChance htimed).mpr hfits⟩

end CAddrMan

end Manna
