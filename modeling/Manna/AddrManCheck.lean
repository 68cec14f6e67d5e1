import Manna.AddrManInvariant
import Mathlib.Algebra.BigOperators.Fin

/-!
`Check_` of the address manager (`addrman.cpp`), and what it finds: nothing, where the invariant
holds and the times are not negative.
-/

namespace Manna

namespace CAddrMan

open WeightedMap

/-- `mapInfo`, in the order of the ids. -/
def entries (am : CAddrMan) : List (Int × CAddrInfo) :=
  (inOrder am.mapInfo.keys).filterMap fun nId => (am.mapInfo.lookup nId).map fun info => (nId, info)

/-- The first loop of `Check_`: the error of the first bad entry. -/
def checkEntry (am : CAddrMan) (n : Int) (info : CAddrInfo) : Int :=
  if info.fInTried ∧ info.nLastSuccess = 0 then -1
  else if info.fInTried ∧ info.nRefCount ≠ 0 then -2
  else if ¬ info.fInTried ∧ (info.nRefCount < 0 ∨ info.nRefCount > ADDRMAN_NEW_BUCKETS_PER_ADDRESS) then -3
  else if ¬ info.fInTried ∧ info.nRefCount = 0 then -4
  else if (am.mapAddr.lookup info.toCNetAddr).getD 0 ≠ n then -5
  else if am.idAt info.nRandomPos ≠ some n then -14
  else if info.nLastTry < 0 then -6
  else if info.nLastSuccess < 0 then -8
  else 0

def checkTried : List Int → Finset Int → Option (Finset Int)
  | [], setTried => some setTried
  | nId :: ids, setTried => if nId ∈ setTried then checkTried ids (setTried.erase nId) else none

/-- The loop over `vvNew`: each id is in `mapNew`, and counted down. -/
def checkNew : List Int → (Finmap fun _ : Int => Int) → Option (Finmap fun _ : Int => Int)
  | [], mapNew => some mapNew
  | nId :: ids, mapNew =>
    match mapNew.lookup nId with
    | none => none
    | some n => checkNew ids (if n - 1 = 0 then mapNew.erase nId else mapNew.insert nId (n - 1))

/-- `Check_`: zero, or the error. -/
def check_ (am : CAddrMan) : Int :=
  let setTried := ((am.entries.filter fun (_, info) => info.fInTried).map Prod.fst).toFinset
  let mapNew : Finmap fun _ : Int => Int := (am.entries.filter fun (_, info) => !info.fInTried).foldl
    (fun mapNew (n, info) => mapNew.insert n info.nRefCount) ∅
  if (am.vRandom.length : Int) ≠ am.nTried + am.nNew then -7
  else
    match am.entries.find? fun (n, info) => am.checkEntry n info ≠ 0 with
    | some (n, info) => am.checkEntry n info
    | none =>
      if (setTried.card : Int) ≠ am.nTried then -9
      else if (mapNew.keys.card : Int) ≠ am.nNew then -10
      else
        match checkTried ((List.finRange _).flatMap am.vvTried) setTried with
        | none => -11
        | some setTried =>
          match checkNew ((List.finRange _).flatMap fun b => inOrder (am.vvNew b)) mapNew with
          | none => -12
          | some mapNew => if setTried ≠ ∅ then -13 else if mapNew.keys ≠ ∅ then -15 else 0

/-! ### The entries in order -/

section

variable {env : AddrEnv} {timed : Int64 → Prop} {am : CAddrMan} {nId : Int} {info : CAddrInfo}

theorem map_fst_entries (am : CAddrMan) : am.entries.map Prod.fst = inOrder am.mapInfo.keys := by
  have hsome : ∀ nId ∈ inOrder am.mapInfo.keys,
      ((am.mapInfo.lookup nId).map fun info => (nId, info)).map Prod.fst = some nId := by
    intro nId hmem
    rw [mem_inOrder, Finmap.mem_keys, ← Finmap.lookup_isSome] at hmem
    obtain ⟨info, hget⟩ := Option.isSome_iff_exists.mp hmem
    rw [hget]
    rfl
  rw [entries, List.map_filterMap, List.filterMap_congr hsome, List.filterMap_some]

theorem nodup_entries (am : CAddrMan) : (am.entries.map Prod.fst).Nodup :=
  map_fst_entries am ▸ nodup_inOrder _

theorem mem_entries : (nId, info) ∈ am.entries ↔ am.infoAt nId = some info := by
  rw [entries, List.mem_filterMap]
  constructor
  · rintro ⟨x, -, hget⟩
    obtain ⟨i, hget, heq⟩ := Option.map_eq_some_iff.mp hget
    cases heq
    exact hget
  · intro hget
    rw [infoAt] at hget
    refine ⟨nId, ?_, by rw [hget]; rfl⟩
    rw [mem_inOrder, Finmap.mem_keys, ← Finmap.lookup_isSome, hget]
    rfl

theorem total_infoAt (w : CAddrInfo → Int) (am : CAddrMan) :
    total w am.infoAt = (am.entries.map fun entry => w entry.2).sum := by
  have hcover : ∀ x, am.infoAt x ≠ none → x ∈ (am.entries.map Prod.fst).toFinset := by
    intro x hne
    obtain ⟨info, hget⟩ := Option.ne_none_iff_exists'.mp hne
    exact List.mem_toFinset.mpr (List.mem_map_of_mem (mem_entries.mpr hget))
  rw [total_eq_sum hcover, List.sum_toFinset _ am.nodup_entries, List.map_map]
  refine congrArg List.sum (List.map_congr_left fun entry hmem => ?_)
  show weightAt w am.infoAt entry.1 = w entry.2
  rw [weightAt, mem_entries.mp hmem, Option.elim_some]

theorem mem_ids_filter (p : CAddrInfo → Bool) :
    nId ∈ (am.entries.filter fun entry => p entry.2).map Prod.fst ↔
      ∃ info, am.infoAt nId = some info ∧ p info = true := by
  simp only [List.mem_map, List.mem_filter, Prod.exists, exists_and_right, exists_eq_right, mem_entries]

theorem nodup_ids_filter (p : CAddrInfo → Bool) :
    ((am.entries.filter fun entry => p entry.2).map Prod.fst).Nodup :=
  am.nodup_entries.sublist (List.filter_sublist.map Prod.fst)

theorem length_filter_entries {w : CAddrInfo → Int} {p : CAddrInfo → Bool}
    (hw : ∀ info, w info = if p info then 1 else 0) :
    ((am.entries.filter fun entry => p entry.2).length : Int) = total w am.infoAt := by
  rw [total_infoAt]
  induction am.entries with
  | nil => rfl
  | cons entry entries ih =>
    rw [List.map_cons, List.sum_cons, hw, ← ih, List.filter_cons]
    cases p entry.2
    · simp
    · simp only [if_true, List.length_cons]
      omega

/-! ### The loops -/

theorem checkTried_eq {ids : List Int} {setTried : Finset Int} (hnodup : ids.Nodup)
    (hmem : ∀ x ∈ ids, x ∈ setTried) : checkTried ids setTried = some (setTried \ ids.toFinset) := by
  induction ids generalizing setTried with
  | nil => simp [checkTried]
  | cons x ids ih =>
    obtain ⟨hnot, hnodup⟩ := List.nodup_cons.mp hnodup
    obtain ⟨hx, hmem⟩ := List.forall_mem_cons.mp hmem
    have hrest : ∀ y ∈ ids, y ∈ setTried.erase x := fun y hy =>
      Finset.mem_erase.mpr ⟨fun heq => hnot (heq ▸ hy), hmem y hy⟩
    rw [checkTried, if_pos hx, ih hnodup hrest, List.toFinset_cons, Finset.sdiff_insert,
      Finset.erase_sdiff_comm]

/-- Where the ids stand as often as `mapNew` says, it is counted down to nothing. -/
theorem checkNew_spec {ids : List Int} {mapNew : Finmap fun _ : Int => Int}
    (hcount : ∀ x, (mapNew.lookup x).getD 0 = ids.count x) (hpos : ∀ x n, mapNew.lookup x = some n → 0 < n) :
    ∃ mapNew', checkNew ids mapNew = some mapNew' ∧ mapNew'.keys = ∅ := by
  induction ids generalizing mapNew with
  | nil =>
    refine ⟨mapNew, rfl, Finset.eq_empty_of_forall_notMem fun x hx => ?_⟩
    rw [Finmap.mem_keys, ← Finmap.lookup_isSome] at hx
    obtain ⟨n, hn⟩ := Option.isSome_iff_exists.mp hx
    have hzero := hcount x
    rw [hn, Option.getD_some, List.count_nil] at hzero
    have := hpos x n hn
    omega
  | cons x ids ih =>
    have hx := hcount x
    rw [List.count_cons_self] at hx
    cases hlookup : mapNew.lookup x with
    | none =>
      rw [hlookup, Option.getD_none] at hx
      omega
    | some n =>
      rw [hlookup, Option.getD_some] at hx
      have hother : ∀ y, y ≠ x → (mapNew.lookup y).getD 0 = ids.count y := fun y hy => by
        rw [hcount y, List.count_cons_of_ne (Ne.symm hy)]
      rw [checkNew, hlookup]
      dsimp only
      split_ifs with hlast
      · refine ih (fun y => ?_) fun y m hm => ?_
        · by_cases hy : y = x
          · subst hy
            rw [Finmap.lookup_erase, Option.getD_none]
            omega
          · rw [Finmap.lookup_erase_ne hy, hother y hy]
        · by_cases hy : y = x
          · subst hy
            rw [Finmap.lookup_erase] at hm
            cases hm
          · rw [Finmap.lookup_erase_ne hy] at hm
            exact hpos y m hm
      · refine ih (fun y => ?_) fun y m hm => ?_
        · by_cases hy : y = x
          · subst hy
            rw [Finmap.lookup_insert, Option.getD_some]
            omega
          · rw [Finmap.lookup_insert_of_ne _ hy, hother y hy]
        · by_cases hy : y = x
          · subst hy
            rw [Finmap.lookup_insert] at hm
            have := Option.some.inj hm
            omega
          · rw [Finmap.lookup_insert_of_ne _ hy] at hm
            exact hpos y m hm

theorem lookup_foldl_insert {entries : List (Int × CAddrInfo)} (hnodup : (entries.map Prod.fst).Nodup)
    (m : Finmap fun _ : Int => Int) :
    (∀ entry ∈ entries, (entries.foldl (fun m (entry : Int × CAddrInfo) =>
      m.insert entry.1 entry.2.nRefCount) m).lookup entry.1 = some entry.2.nRefCount) ∧
    ∀ x ∉ entries.map Prod.fst, (entries.foldl (fun m (entry : Int × CAddrInfo) =>
      m.insert entry.1 entry.2.nRefCount) m).lookup x = m.lookup x := by
  induction entries generalizing m with
  | nil => exact ⟨nofun, fun _ _ => rfl⟩
  | cons entry entries ih =>
    obtain ⟨hnot, hnodup⟩ := List.nodup_cons.mp hnodup
    obtain ⟨hin, hout⟩ := ih hnodup (m.insert entry.1 entry.2.nRefCount)
    refine ⟨List.forall_mem_cons.mpr ⟨?_, hin⟩, fun x hx => ?_⟩
    · rw [List.foldl_cons, hout _ hnot, Finmap.lookup_insert]
    · rw [List.map_cons, List.mem_cons, not_or] at hx
      rw [List.foldl_cons, hout x hx.2, Finmap.lookup_insert_of_ne _ hx.1]

/-! ### Check_ finds nothing -/

theorem checkEntry_eq_zero (h : Inv env (0 < ·) am) (hget : am.infoAt nId = some info)
    (htry : 0 ≤ info.nLastTry) : am.checkEntry nId info = 0 := by
  have hrange := (h.placed.at_id nId).range info hget
  have hsuccess := (h.placed.at_id nId).success info hget
  have haddr : am.mapAddr.lookup info.toCNetAddr = some nId := (h.linked.address _ _).mpr ⟨info, hget, rfl⟩
  obtain ⟨i, hi, -, hat⟩ := h.linked.random.index (congrArg (Option.map (·.nRandomPos)) hget)
  have hpos : am.idAt info.nRandomPos = some nId := by
    rw [show info.nRandomPos = i from hi, idAt, if_neg (by omega), Int.toNat_natCast]
    exact hat
  have hzero : ¬ info.nLastSuccess < 0 := by
    rcases hsuccess with hpositive | ⟨-, heq⟩
    · exact fun hneg => absurd (Int64.lt_trans hpositive hneg) (Int64.lt_irrefl)
    · rw [heq]
      exact Int64.lt_irrefl
  unfold checkEntry
  rw [haddr, hpos, Option.getD_some]
  cases hin : info.fInTried
  · rw [hin, if_neg Bool.false_ne_true] at hrange
    have hle : ¬ (info.nRefCount < 0 ∨ info.nRefCount > ADDRMAN_NEW_BUCKETS_PER_ADDRESS) := by omega
    have hne : ¬ info.nRefCount = 0 := by omega
    simp [hle, hne, hzero, Int64.not_lt.mpr htry]
  · rw [hin, if_pos rfl] at hrange
    have hne : info.nLastSuccess ≠ 0 := by
      rcases hsuccess with hpositive | ⟨hfalse, -⟩
      · exact fun heq => Int64.lt_irrefl (heq ▸ hpositive)
      · rw [hin] at hfalse
        cases hfalse
    simp [hrange, hne, hzero, Int64.not_lt.mpr htry]

theorem count_vvTried (h : Inv env timed am) (x : Int) :
    ((List.finRange ADDRMAN_TRIED_BUCKET_COUNT).flatMap am.vvTried).count x =
      (am.infoAt x).elim 0 fun info => if info.fInTried then 1 else 0 := by
  have hcount : List.count x ∘ am.vvTried = triedIn env am.nKey (am.infoAt x) :=
    funext fun b => (h.placed.at_id x).tried b
  rw [List.count_flatMap, hcount, ← Fin.sum_univ_def]
  cases am.infoAt x with
  | none => simp [triedIn]
  | some info => cases hin : info.fInTried <;> simp [triedIn, hin]

theorem count_vvNew (am : CAddrMan) (x : Int) :
    ((List.finRange ADDRMAN_NEW_BUCKET_COUNT).flatMap fun b => inOrder (am.vvNew b)).count x =
      (am.bucketsOf x).card := by
  have hcount : (List.count x ∘ fun b => inOrder (am.vvNew b)) =
      fun b => if x ∈ am.vvNew b then 1 else 0 := by
    funext b
    simp only [Function.comp_apply, (nodup_inOrder (am.vvNew b)).count, mem_inOrder]
  rw [List.count_flatMap, hcount, ← Fin.sum_univ_def, bucketsOf, Finset.card_filter]

theorem length_vRandom (h : Inv env timed am) : (am.vRandom.length : Int) = am.nTried + am.nNew := by
  have hperm : am.vRandom.Perm (am.entries.map Prod.fst) := by
    refine (List.perm_ext_iff_of_nodup h.linked.random.nodup am.nodup_entries).mpr fun x => ?_
    rw [h.linked.random.mem_iff]
    simp only [Option.map_eq_some_iff, List.mem_map, Prod.exists, exists_and_right, exists_eq_right,
      mem_entries]
    constructor
    · rintro ⟨p, info, hget, -⟩
      exact ⟨info, hget⟩
    · rintro ⟨info, hget⟩
      exact ⟨_, info, hget, rfl⟩
  rw [hperm.length_eq, List.length_map, h.placed.nTried, h.placed.nNew, total_infoAt, total_infoAt]
  induction am.entries with
  | nil => rfl
  | cons entry entries ih =>
    simp only [List.length_cons, List.map_cons, List.sum_cons, triedWeight, newWeight] at ih ⊢
    split_ifs <;> omega

/-- **`Check_` finds nothing.** -/
theorem Inv.check_eq_zero (h : Inv env (0 < ·) am)
    (htry : ∀ x info, am.infoAt x = some info → 0 ≤ info.nLastTry) : am.check_ = 0 := by
  have hentry : am.entries.find? (fun entry => decide (am.checkEntry entry.1 entry.2 ≠ 0)) = none := by
    refine List.find?_eq_none.mpr fun entry hmem => ?_
    have hget := mem_entries.mp hmem
    simp [checkEntry_eq_zero h hget (htry _ _ hget)]
  -- the tried entries
  have htried : ((am.entries.filter fun entry => entry.2.fInTried).length : Int) = am.nTried := by
    rw [h.placed.nTried]
    exact length_filter_entries fun _ => rfl
  have hmemTried : ∀ x, x ∈ ((am.entries.filter fun entry => entry.2.fInTried).map Prod.fst).toFinset ↔
      x ∈ (List.finRange ADDRMAN_TRIED_BUCKET_COUNT).flatMap am.vvTried := by
    intro x
    rw [List.mem_toFinset, mem_ids_filter, ← List.count_pos_iff, count_vvTried h]
    cases am.infoAt x with
    | none => simp
    | some info => cases hin : info.fInTried <;> simp [hin]
  have hnodupTried : ((List.finRange ADDRMAN_TRIED_BUCKET_COUNT).flatMap am.vvTried).Nodup := by
    refine List.nodup_iff_count_le_one.mpr fun x => ?_
    rw [count_vvTried h]
    cases am.infoAt x with
    | none => simp
    | some info => cases hin : info.fInTried <;> simp [hin]
  -- the new ones
  have hnew : ((am.entries.filter fun entry => !entry.2.fInTried).length : Int) = am.nNew := by
    rw [h.placed.nNew]
    refine length_filter_entries (p := fun info => !info.fInTried) fun info => ?_
    cases hin : info.fInTried <;> simp [newWeight, hin]
  have hnodupNew : ((am.entries.filter fun entry => !entry.2.fInTried).map Prod.fst).Nodup :=
    nodup_ids_filter fun info => !info.fInTried
  have hmemNew : ∀ x, x ∈ (am.entries.filter fun entry => !entry.2.fInTried).map Prod.fst ↔
      ∃ info, am.infoAt x = some info ∧ (!info.fInTried) = true := fun _ =>
    mem_ids_filter fun info => !info.fInTried
  obtain ⟨hin, hout⟩ := lookup_foldl_insert hnodupNew ∅
  generalize hmapNew : (am.entries.filter fun entry => !entry.2.fInTried).foldl
    (fun m (entry : Int × CAddrInfo) => m.insert entry.1 entry.2.nRefCount)
      (∅ : Finmap fun _ : Int => Int) = mapNew at hin hout
  have hlookup : ∀ x, mapNew.lookup x =
      (am.infoAt x).bind fun info => if info.fInTried then none else some info.nRefCount := by
    intro x
    by_cases hx : x ∈ (am.entries.filter fun entry => !entry.2.fInTried).map Prod.fst
    · obtain ⟨⟨y, info⟩, hmem, rfl⟩ := List.mem_map.mp hx
      rw [hin _ hmem]
      obtain ⟨hmem, hnot⟩ := List.mem_filter.mp hmem
      rw [mem_entries.mp hmem, Option.bind_some, if_neg (by simpa using hnot)]
    · rw [hout x hx, Finmap.lookup_empty]
      rw [hmemNew] at hx
      cases hget : am.infoAt x with
      | none => rfl
      | some info =>
        rw [Option.bind_some, if_pos]
        by_contra hnot
        exact hx ⟨info, hget, by simpa using hnot⟩
  have hrefs : ∀ x, (mapNew.lookup x).getD 0 =
      ((List.finRange ADDRMAN_NEW_BUCKET_COUNT).flatMap fun b => inOrder (am.vvNew b)).count x := by
    intro x
    have hrefs := (h.placed.at_id x).refs
    rw [if_neg (Option.some_ne_none x).symm, Int.add_zero] at hrefs
    rw [count_vvNew, hrefs, hlookup]
    cases hget : am.infoAt x with
    | none => rfl
    | some info =>
      have hrange := (h.placed.at_id x).range info hget
      rw [Option.bind_some, Option.elim_some]
      split_ifs at hrange ⊢
      · exact hrange.symm
      · rfl
  have hpos : ∀ x n, mapNew.lookup x = some n → 0 < n := by
    intro x n hn
    rw [hlookup] at hn
    obtain ⟨info, hget, hn⟩ := Option.bind_eq_some_iff.mp hn
    have hrange := (h.placed.at_id x).range info hget
    split_ifs at hrange hn
    have := Option.some.inj hn
    omega
  have hkeys : mapNew.keys = ((am.entries.filter fun entry => !entry.2.fInTried).map Prod.fst).toFinset := by
    ext x
    rw [Finmap.mem_keys, ← Finmap.lookup_isSome, hlookup, List.mem_toFinset, hmemNew]
    cases am.infoAt x with
    | none => simp
    | some info => cases hin : info.fInTried <;> simp [hin]
  obtain ⟨mapNew', hcheckNew, hempty⟩ := checkNew_spec hrefs hpos
  have hdiff : ((am.entries.filter fun entry => entry.2.fInTried).map Prod.fst).toFinset \
      ((List.finRange ADDRMAN_TRIED_BUCKET_COUNT).flatMap am.vvTried).toFinset = ∅ :=
    Finset.sdiff_eq_empty_iff_subset.mpr fun x hx => List.mem_toFinset.mpr ((hmemTried x).mp hx)
  unfold check_
  dsimp only
  rw [if_neg (not_not.mpr (length_vRandom h)), hentry]
  dsimp only
  rw [List.toFinset_card_of_nodup (nodup_ids_filter fun info => info.fInTried), List.length_map, htried,
    if_neg (not_not.mpr rfl), hmapNew, hkeys,
    List.toFinset_card_of_nodup hnodupNew, List.length_map, hnew, if_neg (not_not.mpr rfl),
    checkTried_eq hnodupTried fun x hx => (hmemTried x).mpr hx, hcheckNew, hdiff]
  dsimp only
  rw [hempty]
  rfl

/-- Where `Check_` finds nothing, there is no bad entry. -/
theorem checkEntry_of_check (hcheck : am.check_ = 0) (hget : am.infoAt nId = some info) :
    am.checkEntry nId info = 0 := by
  unfold check_ at hcheck
  dsimp only at hcheck
  by_cases hlength : (am.vRandom.length : Int) ≠ am.nTried + am.nNew
  · rw [if_pos hlength] at hcheck
    cases hcheck
  · rw [if_neg hlength] at hcheck
    split at hcheck
    · next n i hfound =>
      have hbad := List.find?_some hfound
      exact absurd hcheck (by simpa using hbad)
    · next hnone => simpa using List.find?_eq_none.mp hnone (nId, info) (mem_entries.mpr hget)

end

end CAddrMan

end Manna
