import Manna.AddrManInvariant

/-!
The entry that leaves a full tried bucket (`addrman.cpp`: `CAddrMan::SelectTried`, `MakeTried`).

The least recently successful of the entries that are drawn to the front is looked for. It stands at the number
of its round; the position that is kept is the one it was drawn from, where another entry was put.

* `good_evicts`: the entry at that position leaves a full bucket;
* `triedEviction_iff`: when that is the least recently successful one.
-/

namespace Manna

namespace CAddrMan

open Shuffle

/-- At a position of the front is one of its least recently successful entries. -/
def OldestAt (am : CAddrMan) (front : List Int) (nPos : Nat) : Prop :=
  ∃ nId, front[nPos]? = some nId ∧ ∀ other ∈ front, am.lastSuccess nId ≤ am.lastSuccess other

/-- **The draw stays**: the first of the least recently successful inspected entries was drawn from a position
of the front that has such an entry, its own or another one as old. -/
def DrawStays (am : CAddrMan) (chance : Chance) (vTried : List Int) : Prop :=
  ∀ i, FirstMin am.lastSuccess (inspected chance vTried) i →
    am.OldestAt (inspected chance vTried) (drawn chance vTried.length i)

variable {env : AddrEnv} {timed : Int64 → Prop} {am : CAddrMan} {b : TriedBucket}

theorem inspected_subset (chance : Chance) (vTried : List Int) : ∀ x ∈ inspected chance vTried, x ∈ vTried :=
  fun _ hx => (shuffle_perm _ _ _ _).mem_iff.mp (List.mem_of_mem_take hx)

/-- `SelectTried` permutes the bucket and returns the position of a least recently successful inspected
entry. -/
def SelectsOldest (am : CAddrMan) (chance : Chance) (b : TriedBucket) : Prop :=
  ∃ nPos vTried, am.selectTried chance b = .ok (some nPos, vTried) ∧ vTried.Perm (am.vvTried b) ∧
    am.OldestAt (vTried.take ADDRMAN_TRIED_ENTRIES_INSPECT_ON_EVICT) nPos

/-- Between two states a least recently successful inspected entry has left a bucket, and no other one. -/
def EvictsOldest (am am' : CAddrMan) (chance : Chance) (b : TriedBucket) : Prop :=
  ∃ nIdOld ∈ inspected chance (am.vvTried b), nIdOld ∉ am'.vvTried b ∧
    (∀ x ∈ am.vvTried b, x ≠ nIdOld → x ∈ am'.vvTried b) ∧
    ∀ other ∈ inspected chance (am.vvTried b), am.lastSuccess nIdOld ≤ am.lastSuccess other

theorem selectsOldest_iff (chance : Chance)
    (hknown : ∀ x ∈ am.vvTried b, ∃ info, am.infoAt x = some info) (hne : am.vvTried b ≠ []) :
    am.SelectsOldest chance b ↔ am.DrawStays chance (am.vvTried b) := by
  obtain ⟨i, hfirst, hselect⟩ := selectTried_eq chance hknown hne
  constructor
  · rintro ⟨nPos, vTried, hselect', -, holdest⟩ j hj
    obtain rfl := hfirst.unique hj
    cases hselect.symm.trans hselect'
    exact holdest
  · intro hstays
    exact ⟨_, _, hselect, shuffle_perm _ _ _ _, hstays i hfirst⟩

/-! ### Eviction -/

theorem lastSuccess_eq (am : CAddrMan) (nId : Int) :
    am.lastSuccess nId = (((am.infoAt nId).map CAddrInfo.nLastSuccess).getD 0).toInt := rfl

theorem Inv.nodup_tried (h : Inv env timed am) (b : TriedBucket) : (am.vvTried b).Nodup := by
  rw [List.nodup_iff_count_le_one]
  intro nId
  rw [(h.placed.at_id nId).tried b]
  cases am.infoAt nId with
  | none => exact Nat.zero_le _
  | some info =>
    rw [triedIn]
    split <;> omega

/-- **`MakeTried` at a full bucket** puts the entry at the position that `SelectTried` returns. -/
theorem makeTried_full (h : Inv env timed am) (chance : Chance) {nId : Int} {info : CAddrInfo}
    {nOrigin : NewBucket} (hget : am.infoAt nId = some info)
    (hmem : nId ∈ am.vvNew nOrigin) (hb : info.getTriedBucket env am.nKey = b)
    (hfull : ADDRMAN_TRIED_BUCKET_SIZE ≤ (am.vvTried b).length) {am' : CAddrMan}
    (hok : am.makeTried env chance nId info nOrigin = .ok am') :
    ∃ i, FirstMin am.lastSuccess (inspected chance (am.vvTried b)) i ∧
      am'.vvTried b = (shuffle (drawn chance (am.vvTried b).length) ADDRMAN_TRIED_ENTRIES_INSPECT_ON_EVICT 0
        (am.vvTried b)).set (drawn chance (am.vvTried b).length i) nId := by
  obtain ⟨info₁, am₁, hdetach, hd⟩ := detach_spec h hget
  have hb₁ : info₁.getTriedBucket env am₁.nKey = b := by rw [hd.nKey, hd.getTriedBucket, hb]
  have hsuccess : am₁.lastSuccess = am.lastSuccess := by
    funext x
    rw [lastSuccess_eq, lastSuccess_eq, hd.infoAt, map_update hget (by rw [hd.info_eq])]
  have hne : am₁.vvTried b ≠ [] := by
    rw [hd.vvTried]
    exact List.ne_nil_of_length_pos (lt_of_lt_of_le (by decide) hfull)
  obtain ⟨i, hfirst, hselect⟩ := selectTried_eq chance (hd.known h b) hne
  rw [hsuccess, hd.vvTried] at hfirst
  rw [hd.vvTried] at hselect
  refine ⟨i, hfirst, ?_⟩
  unfold makeTried at hok
  rw [if_neg (not_not.mpr hmem), hdetach] at hok
  dsimp only at hok
  rw [if_neg (not_not.mpr (by rw [hd.info_eq])), hb₁, if_neg (by rw [hd.vvTried]; exact not_lt.mpr hfull)] at hok
  unfold evict at hok
  rw [hselect] at hok
  dsimp only at hok
  split at hok
  · cases hok
  · split at hok
    · cases hok
    · cases hok
      exact Function.update_self ..

theorem Inv.findBucket (h : Inv env timed am) (nRnd : Nat) {nId : Int} {info : CAddrInfo}
    (hget : am.infoAt nId = some info) (hin : info.fInTried = false) :
    ∃ nB, am.findBucket nRnd nId = some nB ∧ nId ∈ am.vvNew nB := by
  have hplaced := h.placed.at_id nId
  have hrefs := hplaced.refs
  have hrange := hplaced.range info hget
  rw [if_neg nofun, hget, Option.elim_some, Int.add_zero] at hrefs
  rw [hin, if_neg Bool.false_ne_true] at hrange
  obtain ⟨nB, hnB⟩ := Finset.card_pos.mp (show 0 < (am.bucketsOf nId).card by omega)
  rw [mem_bucketsOf] at hnB
  have hsome : (am.findBucket nRnd nId).isSome := by
    unfold CAddrMan.findBucket
    rw [List.find?_isSome]
    -- the round in which the bucket is looked at
    refine ⟨nB, List.mem_map.mpr ⟨(nB + (ADDRMAN_NEW_BUCKET_COUNT - nRnd % ADDRMAN_NEW_BUCKET_COUNT)) %
      ADDRMAN_NEW_BUCKET_COUNT, List.mem_range.mpr (Nat.mod_lt _ (by decide)), ?_⟩, decide_eq_true hnB⟩
    have hlt := nB.isLt
    apply Fin.ext
    unfold NewBucket.ofNat
    dsimp only
    unfold ADDRMAN_NEW_BUCKET_COUNT at hlt ⊢
    omega
  obtain ⟨found, hfound⟩ := Option.isSome_iff_exists.mp hsome
  have hmem := List.find?_some hfound
  exact ⟨found, hfound, of_decide_eq_true hmem⟩

theorem mem_set_iff {v : List Int} (hnodup : v.Nodup) {p : Nat} {old new x : Int} (hold : v[p]? = some old)
    (hne : old ≠ new) : x ∈ v.set p new ↔ x = new ∨ x ∈ v ∧ x ≠ old := by
  have hcount := count_set_of_getElem? hold new x
  have hone := List.nodup_iff_count_le_one.mp hnodup x
  rw [← List.count_pos_iff, ← List.count_pos_iff]
  by_cases hx : x = old
  · subst hx
    rw [if_pos rfl, if_neg hne] at hcount
    simp only [hne, ne_eq, not_true, and_false, or_false, iff_false]
    omega
  · rw [hcount, if_neg hx]
    by_cases hnew : x = new <;> simp [hx, hnew]

/-- `Good` is called for an entry whose tried bucket is full. -/
structure Replaces (env : AddrEnv) (am : CAddrMan) (addr : CService) (nId : Int) (info : CAddrInfo)
    (b : TriedBucket) : Prop where
  find : am.find addr.toCNetAddr = some (nId, info)
  service : info.toCService = addr
  new : info.fInTried = false
  bucket : info.getTriedBucket env am.nKey = b
  full : ADDRMAN_TRIED_BUCKET_SIZE ≤ (am.vvTried b).length

/-- **`Good` at a full bucket** evicts a least recently successful inspected entry if the draw stays. -/
theorem good_evicts (h : Inv env (fun _ => True) am) (chance : Chance) {addr : CService} (nTime : Int64)
    {nId : Int} {info : CAddrInfo} (hcall : Replaces env am addr nId info b)
    (hstays : am.DrawStays chance (am.vvTried b)) :
    ∃ am', am.good_ env chance addr nTime = .ok am' ∧ EvictsOldest am am' chance b := by
  obtain ⟨am', hgood, -⟩ := good_spec h chance addr (show (fun _ => True) nTime by trivial)
  refine ⟨am', hgood, ?_⟩
  obtain ⟨hfind, rfl, hnew, hbucket, hfull⟩ := hcall
  have hget : am.infoAt nId = some info := by
    rcases find_eq h.linked info.toCNetAddr with ⟨-, hnone⟩ | ⟨nId', info', hfind', -, hget, -⟩
    · rw [hnone] at hfind
      cases hfind
    · rw [hfind'] at hfind
      cases hfind
      exact hget
  obtain ⟨info₁, hd.info_eq⟩ : ∃ info₁ : CAddrInfo, info₁ = { info with
    nLastSuccess := nTime, nLastTry := nTime, nTime := toUInt32 nTime.toInt, nAttempts := 0 } := ⟨_, rfl⟩
  have hnew₁ : info₁.fInTried = false := by rw [hd.info_eq, hnew]
  have hinv : Inv env (fun _ => True) (am.setInfo nId info₁) :=
    h.setInfo hget (by rw [hd.info_eq]) (by rw [hd.info_eq]) (by rw [hd.info_eq]) (by rw [hd.info_eq]) (.inr trivial)
  have hget₁ : (am.setInfo nId info₁).infoAt nId = some info₁ := by
    rw [infoAt_setInfo, Function.update_self]
  have hbucket₁ : info₁.getTriedBucket env (am.setInfo nId info₁).nKey = b := by
    rw [hd.info_eq]
    exact hbucket
  obtain ⟨nB, hfound, hmem⟩ := hinv.findBucket (getRandInt (chance.draw 0) ADDRMAN_NEW_BUCKET_COUNT) hget₁ hnew₁
  have hother : nId ∉ am.vvTried b := by
    intro hmem
    obtain ⟨i, hi, htried, -⟩ := h.placed.known_tried hmem
    rw [Option.some.inj (hi.symm.trans hget), hnew] at htried
    cases htried
  unfold good_ at hgood
  rw [hfind] at hgood
  dsimp only at hgood
  rw [if_neg (not_not.mpr rfl), if_neg (by rw [hnew]; exact Bool.false_ne_true), ← hd.info_eq, hfound] at hgood
  obtain ⟨i, hfirst, hd.vvTried⟩ := makeTried_full hinv chance hget₁ hmem hbucket₁ hfull hgood
  have hbelow : ∀ x ∈ inspected chance (am.vvTried b), (am.setInfo nId info₁).lastSuccess x = am.lastSuccess x := by
    intro x hx
    have hne : x ≠ nId := fun heq => hother (heq ▸ inspected_subset chance _ x hx)
    rw [lastSuccess_eq, lastSuccess_eq, infoAt_setInfo, Function.update_of_ne hne]
  obtain ⟨nIdOld, hold, holdest⟩ := hstays i (hfirst.congr hbelow)
  have hmemOld := List.mem_of_getElem? hold
  have hne : nIdOld ≠ nId := fun heq => hother (heq ▸ inspected_subset chance _ _ hmemOld)
  have hold' : (shuffle (drawn chance (am.vvTried b).length) ADDRMAN_TRIED_ENTRIES_INSPECT_ON_EVICT 0
      (am.vvTried b))[drawn chance (am.vvTried b).length i]? = some nIdOld := by
    rw [inspected, List.getElem?_take] at hold
    split at hold
    · exact hold
    · cases hold
  have hnodup := (shuffle_perm (drawn chance (am.vvTried b).length) ADDRMAN_TRIED_ENTRIES_INSPECT_ON_EVICT 0
    (am.vvTried b)).nodup_iff.mpr (h.nodup_tried b)
  have hset : ∀ x, x ∈ am'.vvTried b ↔ x = nId ∨ x ∈ am.vvTried b ∧ x ≠ nIdOld := by
    intro x
    rw [hd.vvTried]
    refine (mem_set_iff hnodup hold' hne).trans ?_
    rw [(shuffle_perm _ _ _ _).mem_iff]
  refine ⟨nIdOld, hmemOld, fun hin => ?_, fun x hx hneq => (hset x).mpr (.inr ⟨hx, hneq⟩), holdest⟩
  rcases (hset nIdOld).mp hin with heq | ⟨-, hneq⟩
  · exact hne heq
  · exact hneq rfl

/-- **Eviction from a tried bucket**: `SelectTried` returns the position of a least recently successful
inspected entry, and `Good` takes such an entry from a full bucket. -/
structure TriedEviction (env : AddrEnv) (am : CAddrMan) (chance : Chance) (b : TriedBucket) : Prop where
  select : am.SelectsOldest chance b
  evict : ∀ addr nTime nId info, Replaces env am addr nId info b →
    ∃ am', am.good_ env chance addr nTime = .ok am' ∧ EvictsOldest am am' chance b

/-- **Eviction.** In every state of a run the oldest of the inspected entries is evicted if and only if the
draw stays. -/
theorem triedEviction_iff (hrun : Run env (fun _ => True) am) (chance : Chance) {b : TriedBucket}
    (hne : am.vvTried b ≠ []) : TriedEviction env am chance b ↔ am.DrawStays chance (am.vvTried b) := by
  have hselects : am.SelectsOldest chance b ↔ am.DrawStays chance (am.vvTried b) := by
    refine selectsOldest_iff chance (fun x hx => ?_) hne
    obtain ⟨info, hget, -⟩ := hrun.inv.placed.known_tried hx
    exact ⟨info, hget⟩
  constructor
  · intro h
    exact hselects.mp h.select
  · intro hstays
    exact ⟨hselects.mpr hstays, fun _ nTime _ _ hcall => good_evicts hrun.inv chance nTime hcall hstays⟩

/-! ### Two entries -/

/-- Calls one after the other. -/
def runs (env : AddrEnv) (chance : Chance) (am : CAddrMan) : List Call → Except Halt CAddrMan
  | [] => .ok am
  | call :: calls =>
    match am.run env chance call with
    | .error e => .error e
    | .ok (_, am) => runs env chance am calls

theorem Run.runs {chance : Chance} {calls : List Call} {am' : CAddrMan} (h : Run env (fun _ => True) am)
    (hruns : am.runs env chance calls = .ok am') : Run env (fun _ => True) am' := by
  induction calls generalizing am with
  | nil =>
    cases hruns
    exact h
  | cons call calls ih =>
    rw [CAddrMan.runs] at hruns
    split at hruns
    · cases hruns
    · next _ am₁ hcall =>
      have htimed : call.Timed fun _ => True := by cases call <;> trivial
      exact ih (h.step htimed hcall) hruns

def sampleBucket : TriedBucket := .ofNat 0

/-- Two entries, the second one the older. -/
def twoTried : List Call :=
  [.add (sampleAddress 1) ⟨0⟩ 0, .good (sampleAddress 1).toCService 20,
    .add (sampleAddress 2) ⟨0⟩ 0, .good (sampleAddress 2).toCService 10]

theorem exists_twoTried : ∃ am, Run sampleEnv (fun _ => True) am ∧ am.vvTried sampleBucket = [0, 1] ∧
    am.lastSuccess 0 = 20 ∧ am.lastSuccess 1 = 10 := by
  have hruns : ((CAddrMan.new sampleKey).runs sampleEnv sampleChance twoTried).map
      (fun am => (am.vvTried sampleBucket, am.lastSuccess 0, am.lastSuccess 1)) = .ok ([0, 1], 20, 10) := by
    decide +kernel
  cases hrun : (CAddrMan.new sampleKey).runs sampleEnv sampleChance twoTried with
  | error e =>
    rw [hrun] at hruns
    cases hruns
  | ok am =>
    rw [hrun] at hruns
    have hvalues := Prod.mk.inj (Except.ok.inj hruns)
    have htimes := Prod.mk.inj hvalues.2
    exact ⟨am, (Run.start sampleKey rfl).runs hrun, hvalues.1, htimes⟩

/-- Both entries are drawn from their own positions. -/
theorem triedEviction_iff_twoTried : ∃ am, Run sampleEnv (fun _ => True) am ∧ am.vvTried sampleBucket ≠ [] ∧
    TriedEviction sampleEnv am sampleChance sampleBucket := by
  obtain ⟨am, hrun, htried, -⟩ := exists_twoTried
  have hne : am.vvTried sampleBucket ≠ [] := by
    rw [htried]
    nofun
  refine ⟨am, hrun, hne, (triedEviction_iff hrun sampleChance hne).mpr fun i hfirst => ?_⟩
  have hown : drawn sampleChance (am.vvTried sampleBucket).length i = i := by
    simp [drawn, getRandInt, sampleChance]
  obtain ⟨x, hx, hmin, -⟩ := hfirst
  rw [hown]
  exact ⟨x, hx, hmin⟩

/-- The older entry is drawn from the second position, which the younger one takes. -/
theorem not_forall_triedEviction :
    ¬ ∀ env am chance b, Run env (fun _ => True) am → am.vvTried b ≠ [] → TriedEviction env am chance b := by
  intro h
  obtain ⟨am, hrun, htried, hyoung, hold⟩ := exists_twoTried
  have hevict := h sampleEnv am ⟨fun _ => 1, fun _ => 0⟩ sampleBucket hrun (by rw [htried]; nofun)
  have hknown : ∀ x ∈ am.vvTried sampleBucket, ∃ info, am.infoAt x = some info := fun x hx =>
    let ⟨info, hget, _⟩ := hrun.inv.placed.known_tried hx
    ⟨info, hget⟩
  have hstays := (selectsOldest_iff _ hknown (by rw [htried]; nofun)).mp hevict.select
  have hfront : inspected ⟨fun _ => 1, fun _ => 0⟩ [0, 1] = [1, 0] := by decide
  have hfirst : FirstMin am.lastSuccess [1, 0] 0 := by
    refine ⟨1, rfl, ?_, nofun⟩
    simp [hyoung, hold]
  rw [htried] at hstays
  obtain ⟨nId, hnId, hmin⟩ := hstays 0 (hfront ▸ hfirst)
  rw [hfront] at hnId hmin
  have hzero : nId = 0 := (Option.some.inj hnId).symm
  have hle := hmin 1 (by simp)
  rw [hzero, hyoung, hold] at hle
  exact absurd hle (by decide)

end CAddrMan

end Manna
