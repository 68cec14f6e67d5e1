import Manna.Lib.Multimap
import Manna.Lib.Runs
import Mathlib.Data.List.AList

/-!
The size-limited map (`limitedmap.h`), in which the node remembers when it asked for which inventory.

`rmap` is a multimap from the values to iterators into `map`; an iterator is the key of the element it
points at. `insert` makes room before it enters the new element into `rmap`, and it compares the size of `map`
with the limit when the new element is in `map` already.

* `LimitedMap.step_spec`: one call fails or keeps one entry of `rmap` for each element;
* `LimitedMap.setMaxSize_spec`: a new limit keeps the elements of highest value;
* `LimitedMap.keepsLimit_run_iff`: the runs in which insertions do so too.
-/

namespace Manna

/-- `kept` are `n` elements of highest value of `all`, or all of them where there are no more. -/
structure KeepsHighest {α V : Type} [LE V] (value : α → V) (n : Nat) (all kept : List α) : Prop where
  subperm : kept.Subperm all
  length : kept.length = min n all.length
  le : ∀ x ∈ all, x ∉ kept → ∀ y ∈ kept, value x ≤ value y

namespace KeepsHighest

variable {α V : Type} {value : α → V} {n k : Nat} {all mid kept : List α}

theorem refl [LE V] (h : all.length ≤ n) : KeepsHighest value n all all :=
  ⟨.refl _, by omega, fun _ hx hgone => absurd hx hgone⟩

theorem trans [LE V] (h : KeepsHighest value n all mid) (h' : KeepsHighest value k mid kept) (hk : k ≤ n) :
    KeepsHighest value k all kept := by
  refine ⟨h'.subperm.trans h.subperm, ?_, fun x hx hgone y hy => ?_⟩
  · rw [h'.length, h.length]
    omega
  · by_cases hmid : x ∈ mid
    · exact h'.le x hmid hgone y hy
    · exact h.le x hx hmid y (h'.subperm.subset hy)

end KeepsHighest

/-- `limitedmap`: `map`, `rmap`, `nMaxSize`. -/
structure LimitedMap (K V : Type) [LE V] where
  map : AList fun _ : K => V
  rmap : Multimap V K
  nMaxSize : Nat

namespace LimitedMap

/-- `assert(0)`, or `rmap.begin()->second` where `rmap` is empty. -/
inductive Fault where
  | assertion
  | emptyRmap
deriving DecidableEq

/-- The calls that change a map. -/
inductive Call (K V : Type) where
  | insert (k : K) (v : V)
  | erase (k : K)
  | update (k : K) (v : V)
  | max_size (s : Nat)

section Elements

variable {K V : Type} [DecidableEq K] {map : AList fun _ : K => V} {k : K} {v : V}

theorem lookup_insert (map : AList fun _ : K => V) (k : K) (v : V) :
    (map.insert k v).lookup = Function.update map.lookup k (some v) := by
  funext k'
  by_cases h : k' = k
  · subst h
    rw [AList.lookup_insert, Function.update_self]
  · rw [AList.lookup_insert_ne h, Function.update_of_ne h]

theorem lookup_erase (map : AList fun _ : K => V) (k : K) :
    (map.erase k).lookup = Function.update map.lookup k none := by
  funext k'
  by_cases h : k' = k
  · subst h
    rw [AList.lookup_erase, Function.update_self]
  · rw [AList.lookup_erase_ne h, Function.update_of_ne h]

theorem length_insert (hk : k ∉ map) : (map.insert k v).entries.length = map.entries.length + 1 := by
  rw [AList.entries_insert_of_notMem hk, List.length_cons]

theorem length_erase (hk : k ∈ map) : (map.erase k).entries.length + 1 = map.entries.length := by
  have keys : (map.erase k).keys.length + 1 = map.keys.length := by
    rw [AList.keys_erase, List.length_erase_add_one (AList.mem_keys.mp hk)]
  simpa [AList.keys, List.keys] using keys

end Elements

/-! ### The calls -/

variable {K V : Type} [DecidableEq K] [LinearOrder V]

/-- `limitedmap(size_type nMaxSizeIn = 0)`. -/
def new (nMaxSizeIn : Nat) : LimitedMap K V := ⟨∅, .empty, nMaxSizeIn⟩

def size (m : LimitedMap K V) : Nat := m.map.entries.length

def eraseLowest (map : AList fun _ : K => V) (rmap : Multimap V K) :
    Except Fault ((AList fun _ : K => V) × Multimap V K) :=
  match rmap.entries.head? with
  | none => .error .emptyRmap
  | some e => .ok (map.erase e.2, rmap.eraseFirst)

def insert (m : LimitedMap K V) (k : K) (v : V) : Except Fault (LimitedMap K V) :=
  if k ∈ m.map then .ok m
  else
    let map := m.map.insert k v
    if m.nMaxSize ≠ 0 ∧ map.entries.length = m.nMaxSize then do
      let (map, rmap) ← eraseLowest map m.rmap
      return ⟨map, rmap.insert v k, m.nMaxSize⟩
    else .ok ⟨map, m.rmap.insert v k, m.nMaxSize⟩

def erase (m : LimitedMap K V) (k : K) : Except Fault (LimitedMap K V) :=
  match m.map.lookup k with
  | none => .ok m
  | some v =>
    match m.rmap.eraseInRange v k with
    | none => .error .assertion
    | some rmap => .ok ⟨m.map.erase k, rmap, m.nMaxSize⟩

def update (m : LimitedMap K V) (k : K) (v : V) : Except Fault (LimitedMap K V) :=
  match m.map.lookup k with
  | none => .ok m
  | some old =>
    match m.rmap.eraseInRange old k with
    | none => .error .assertion
    | some rmap => .ok ⟨m.map.insert k v, rmap.insert v k, m.nMaxSize⟩

/-- `while (map.size() > s)`, the loop of `max_size`. -/
def shrink (s : Nat) (map : AList fun _ : K => V) (rmap : Multimap V K) :
    Except Fault ((AList fun _ : K => V) × Multimap V K) :=
  if s < map.entries.length then
    match _first : rmap.entries.head? with
    | none => .error .emptyRmap
    | some e => shrink s (map.erase e.2) rmap.eraseFirst
  else .ok (map, rmap)
termination_by rmap.entries.length
decreasing_by
  have nonempty := List.length_pos_of_mem (List.mem_of_mem_head? _first)
  simp only [Multimap.entries_eraseFirst, List.length_tail]
  omega

def setMaxSize (m : LimitedMap K V) (s : Nat) : Except Fault (LimitedMap K V) := do
  let (map, rmap) ← if s ≠ 0 then shrink s m.map m.rmap else .ok (m.map, m.rmap)
  return ⟨map, rmap, s⟩

def step (m : LimitedMap K V) : Call K V → Except Fault (LimitedMap K V)
  | .insert k v => m.insert k v
  | .erase k => m.erase k
  | .update k v => m.update k v
  | .max_size s => m.setMaxSize s

/-- Calls one after another. -/
def run (m : LimitedMap K V) (calls : List (Call K V)) : Except Fault (LimitedMap K V) :=
  calls.foldlM step m

/-! ### The mirror -/

/-- `rmap` has exactly one entry for each element of the map with this `find`, and no other. -/
structure Mirrors (find : K → Option V) (rmap : Multimap V K) : Prop where
  nodup : rmap.entries.Nodup
  mem_iff : ∀ v k, (v, k) ∈ rmap.entries ↔ find k = some v

/-- The invariant: `rmap` mirrors `map`. -/
def Valid (m : LimitedMap K V) : Prop := Mirrors m.map.lookup m.rmap

namespace Mirrors

variable {find : K → Option V} {rmap rmap' : Multimap V K} {k : K} {v : V}

theorem erase (h : Mirrors find rmap) (perm : rmap.entries.Perm ((v, k) :: rmap'.entries)) :
    Mirrors (Function.update find k none) rmap' := by
  have nodup := perm.nodup_iff.mp h.nodup
  rw [List.nodup_cons] at nodup
  refine ⟨nodup.2, fun v' k' => ?_⟩
  have mem : (v', k') = (v, k) ∨ (v', k') ∈ rmap'.entries ↔ find k' = some v' := by
    rw [← h.mem_iff, perm.mem_iff, List.mem_cons]
  by_cases hk : k' = k
  · subst hk
    rw [Function.update_self]
    have found : find k' = some v := (h.mem_iff v k').mp (perm.mem_iff.mpr (List.mem_cons_self ..))
    constructor
    · intro hmem
      obtain rfl : v' = v := Option.some.inj ((mem.mp (.inr hmem)).symm.trans found)
      exact absurd hmem nodup.1
    · intro hnone
      cases hnone
  · rw [Function.update_of_ne hk, ← mem]
    simp [hk]

theorem insert (h : Mirrors find rmap) (hk : find k = none) :
    Mirrors (Function.update find k (some v)) (rmap.insert v k) := by
  have fresh : ∀ v', (v', k) ∉ rmap.entries := fun v' hmem => by
    simp [(h.mem_iff v' k).mp hmem] at hk
  refine ⟨Multimap.nodup_insert (fresh v) h.nodup, fun v' k' => ?_⟩
  rw [Multimap.mem_insert, h.mem_iff]
  by_cases hkk : k' = k
  · subst hkk
    simp [hk, eq_comm]
  · rw [Function.update_of_ne hkk]
    simp [hkk]

end Mirrors

variable {m m' : LimitedMap K V} {map map' : AList fun _ : K => V} {rmap rmap' : Multimap V K} {k : K} {v : V}

theorem valid_new (n : Nat) : (new n : LimitedMap K V).Valid :=
  ⟨List.nodup_nil, fun v k => by simp [new]⟩

/-- **`erase` and `update` find the entry of an element.** -/
theorem eraseInRange_of_lookup (h : Mirrors map.lookup rmap) (hk : map.lookup k = some v) :
    ∃ rmap', rmap.eraseInRange v k = some rmap' ∧ Mirrors (map.erase k).lookup rmap' := by
  have found := Multimap.eraseInRange_isSome.mpr ((h.mem_iff v k).mpr hk)
  obtain ⟨rmap', hrmap⟩ := Option.isSome_iff_exists.mp found
  refine ⟨rmap', hrmap, ?_⟩
  rw [lookup_erase]
  exact h.erase (Multimap.entries_eraseInRange hrmap)

theorem Mirrors.eraseFirst (h : Mirrors map.lookup rmap) {e : V × K} (he : rmap.entries.head? = some e) :
    Mirrors (map.erase e.2).lookup rmap.eraseFirst := by
  obtain ⟨rest, hrest⟩ := List.head?_eq_some_iff.mp he
  rw [lookup_erase]
  refine h.erase (v := e.1) ?_
  rw [Multimap.entries_eraseFirst, hrest]
  exact .refl _

/-! ### One call -/

theorem Mirrors.mem (h : Mirrors map.lookup rmap) {e : V × K} (he : e ∈ rmap.entries) : e.2 ∈ map := by
  rw [← AList.lookup_isSome, (h.mem_iff e.1 e.2).mp he, Option.isSome_some]

theorem Mirrors.head?_eq_none (h : Mirrors map.lookup rmap) :
    rmap.entries.head? = none ↔ map.entries.length = 0 := by
  rw [List.head?_eq_none_iff, List.length_eq_zero_iff]
  constructor
  · intro hempty
    refine List.eq_nil_iff_forall_not_mem.mpr fun e he => ?_
    have found : map.lookup e.1 = some e.2 := AList.mem_lookup_iff.mpr he
    rw [← h.mem_iff, hempty] at found
    cases found
  · intro hempty
    refine List.eq_nil_iff_forall_not_mem.mpr fun e he => ?_
    have mem := h.mem he
    rw [AList.mem_keys, AList.keys, hempty] at mem
    cases mem

/-- **Without its lowest element the map has the highest ones.** -/
theorem Mirrors.keepsHighest_erase (h : Mirrors map.lookup rmap) {e : V × K}
    (he : rmap.entries.head? = some e) :
    KeepsHighest (·.2) (map.entries.length - 1) map.entries (map.erase e.2).entries := by
  have len := length_erase (h.mem (List.mem_of_mem_head? he))
  refine ⟨(List.kerase_sublist _ _).subperm, by omega, fun x hx hgone y hy => ?_⟩
  have atLowest : x.1 = e.2 := by
    by_contra hne
    have kept : (map.erase e.2).lookup x.1 = some x.2 :=
      (AList.lookup_erase_ne hne).trans (AList.mem_lookup_iff.mpr hx)
    exact hgone (AList.mem_lookup_iff.mp kept)
  have inRmap : ∀ z ∈ map.entries, (z.2, z.1) ∈ rmap.entries := fun z hz =>
    (h.mem_iff z.2 z.1).mpr (AList.mem_lookup_iff.mpr hz)
  have lowest : x.2 = e.1 := by
    have found := (h.mem_iff e.1 e.2).mp (List.mem_of_mem_head? he)
    rw [← atLowest] at found
    exact Option.some.inj ((AList.mem_lookup_iff.mpr hx : map.lookup x.1 = some x.2).symm.trans found)
  calc x.2 = e.1 := lowest
    _ ≤ y.2 := Multimap.head_le he (inRmap y ((List.kerase_sublist _ _).subset hy))

/-- **The loop of `max_size` keeps the elements of highest value.** -/
theorem shrink_spec (h : Mirrors map.lookup rmap) (s : Nat) :
    ∃ map' rmap', shrink s map rmap = .ok (map', rmap') ∧ Mirrors map'.lookup rmap' ∧
      KeepsHighest (·.2) s map.entries map'.entries := by
  fun_induction shrink s map rmap with
  | case1 map rmap hlong hnone =>
    have := h.head?_eq_none.mp hnone
    omega
  | case2 map rmap hlong e he ih =>
    obtain ⟨map', rmap', heq, hmirrors, highest⟩ := ih (h.eraseFirst he)
    exact ⟨map', rmap', heq, hmirrors, (h.keepsHighest_erase he).trans highest (by omega)⟩
  | case3 map rmap hshort =>
    exact ⟨map, rmap, rfl, h, .refl (by omega)⟩

theorem size_pos (hk : k ∈ m.map) : 0 < m.size := by
  have found := Option.some_get (AList.lookup_isSome.mpr hk)
  exact List.length_pos_of_mem (AList.mem_lookup_iff.mp found.symm)

theorem insert_of_room (h : m.Valid) (hk : k ∉ m.map) (room : m.nMaxSize = 0 ∨ m.size + 1 ≠ m.nMaxSize) :
    ∃ m', m.insert k v = .ok m' ∧ m'.Valid ∧ m'.map.entries = ⟨k, v⟩ :: m.map.entries := by
  refine ⟨⟨m.map.insert k v, m.rmap.insert v k, m.nMaxSize⟩, ?_, ?_, AList.entries_insert_of_notMem hk⟩
  · rw [insert, if_neg hk]
    simp only [length_insert hk]
    rw [if_neg (by rw [← size]; omega)]
  · rw [Valid, lookup_insert]
    exact Mirrors.insert h (AList.lookup_eq_none.mpr hk)

/-- A new key that makes the size equal to the limit: of the other elements the lowest one goes. -/
theorem insert_of_full (h : m.Valid) (hk : k ∉ m.map) (pos : 0 < m.size) (full : m.size + 1 = m.nMaxSize) :
    ∃ m', m.insert k v = .ok m' ∧ m'.Valid ∧ m'.size = m.size := by
  obtain ⟨e, he⟩ : ∃ e, m.rmap.entries.head? = some e := by
    rw [← Option.ne_none_iff_exists', Ne, Mirrors.head?_eq_none h, ← size]
    omega
  have hmem : e.2 ∈ m.map := Mirrors.mem h (List.mem_of_mem_head? he)
  have hne : k ≠ e.2 := fun heq => hk (heq ▸ hmem)
  refine ⟨⟨(m.map.insert k v).erase e.2, m.rmap.eraseFirst.insert v k, m.nMaxSize⟩, ?_, ?_, ?_⟩
  · rw [insert, if_neg hk]
    simp only [length_insert hk]
    rw [if_pos ⟨by omega, by rw [← size]; exact full⟩, eraseLowest, he]
    rfl
  · have kept := h.eraseFirst he
    have absent : (m.map.erase e.2).lookup k = none := by
      rw [AList.lookup_erase_ne hne, AList.lookup_eq_none]
      exact hk
    have both := kept.insert (v := v) absent
    rw [lookup_erase] at both
    rw [Valid, lookup_erase, lookup_insert, Function.update_comm hne]
    exact both
  · have grown := length_insert (v := v) hk
    have erased := length_erase (show e.2 ∈ m.map.insert k v from (AList.mem_insert _).mpr (.inr hmem))
    simp only [size]
    omega

/-- The first key under the limit one: `rmap.begin()` of an empty `rmap`. -/
theorem insert_of_empty (h : m.Valid) (hk : k ∉ m.map) (empty : m.size = 0) (one : m.nMaxSize = 1) :
    m.insert k v = .error .emptyRmap := by
  rw [insert, if_neg hk]
  simp only [length_insert hk]
  rw [if_pos ⟨by omega, by rw [← size]; omega⟩, eraseLowest, (Mirrors.head?_eq_none h).mpr empty]
  rfl

theorem erase_spec (h : m.Valid) (k : K) : ∃ m', m.erase k = .ok m' ∧ m'.Valid := by
  rw [erase]
  split
  next => exact ⟨m, rfl, h⟩
  next v hv =>
    obtain ⟨rmap', hrmap, hmirrors⟩ := eraseInRange_of_lookup h hv
    rw [hrmap]
    exact ⟨_, rfl, hmirrors⟩

theorem update_spec (h : m.Valid) (k : K) (v : V) : ∃ m', m.update k v = .ok m' ∧ m'.Valid := by
  rw [update]
  split
  next => exact ⟨m, rfl, h⟩
  next old hold =>
    obtain ⟨rmap', hrmap, hmirrors⟩ := eraseInRange_of_lookup h hold
    rw [hrmap]
    refine ⟨_, rfl, ?_⟩
    have entered := hmirrors.insert (v := v) (AList.lookup_erase k m.map)
    rw [lookup_erase, Function.update_idem] at entered
    rw [Valid, lookup_insert]
    exact entered

/-- **`max_size(s)` keeps the `s` elements of highest value.** -/
theorem setMaxSize_spec (h : m.Valid) (s : Nat) : ∃ m', m.setMaxSize s = .ok m' ∧ m'.Valid ∧ m'.nMaxSize = s ∧
      (0 < s → KeepsHighest (·.2) s m.map.entries m'.map.entries) := by
  by_cases hs : s ≠ 0
  · obtain ⟨map', rmap', heq, hmirrors, highest⟩ := shrink_spec h s
    refine ⟨⟨map', rmap', s⟩, ?_, hmirrors, rfl, fun _ => highest⟩
    rw [setMaxSize, if_pos hs, heq]
    rfl
  · refine ⟨⟨m.map, m.rmap, s⟩, ?_, h, rfl, fun pos => absurd pos (by omega)⟩
    rw [setMaxSize, if_neg hs]
    rfl

/-! ### Runs -/

def TakesEmpty (m : LimitedMap K V) : Call K V → Prop
  | .insert _ _ => m.size = 0 ∧ m.nMaxSize = 1
  | _ => False

/-- **One call fails exactly when it takes the first entry of an empty `rmap`; otherwise `rmap` mirrors `map`
again.** -/
theorem step_spec (h : m.Valid) (call : Call K V) : (m.TakesEmpty call ∧ m.step call = .error .emptyRmap) ∨
      (¬ m.TakesEmpty call ∧ ∃ m', m.step call = .ok m' ∧ m'.Valid) := by
  cases call with
  | insert k v =>
    by_cases hk : k ∈ m.map
    · refine .inr ⟨fun hempty => (size_pos hk).ne' hempty.1, m, ?_, h⟩
      rw [step, insert, if_pos hk]
    · by_cases room : m.nMaxSize = 0 ∨ m.size + 1 ≠ m.nMaxSize
      · obtain ⟨m', heq, hvalid, -⟩ := insert_of_room (v := v) h hk room
        refine .inr ⟨fun hempty => ?_, m', heq, hvalid⟩
        have := hempty.1
        have := hempty.2
        omega
      · by_cases empty : m.size = 0
        · exact .inl ⟨⟨empty, by omega⟩, insert_of_empty h hk empty (by omega)⟩
        · obtain ⟨m', heq, hvalid, -⟩ := insert_of_full (v := v) h hk (by omega) (by omega)
          exact .inr ⟨fun hempty => empty hempty.1, m', heq, hvalid⟩
  | erase k => exact .inr ⟨not_false, erase_spec h k⟩
  | update k v => exact .inr ⟨not_false, update_spec h k v⟩
  | max_size s =>
    obtain ⟨m', heq, hvalid, -⟩ := setMaxSize_spec h s
    exact .inr ⟨not_false, m', heq, hvalid⟩

theorem Valid.step (h : m.Valid) {call : Call K V} (hstep : m.step call = .ok m') : m'.Valid := by
  rcases step_spec h call with ⟨-, herror⟩ | ⟨-, m₁, hok, hvalid⟩
  · rw [herror] at hstep
    cases hstep
  · obtain rfl : m₁ = m' := Except.ok.inj (hok.symm.trans hstep)
    exact hvalid

/-- **In every run `rmap` has exactly one entry for each element.** -/
theorem valid_run {n : Nat} {calls : List (Call K V)} (hrun : (new n).run calls = .ok m) : m.Valid :=
  Runs.foldlM_invariant (I := Valid) (fun _ _ _ h hstep => h.step hstep) (valid_new n) hrun

/-- In every run `rmap` has the pair of each element, and the assertions of `erase` and `update` hold. -/
theorem step_ne_assertion {n : Nat} {calls : List (Call K V)} (hrun : (new n).run calls = .ok m)
    (call : Call K V) : m.Valid ∧ m.step call ≠ .error .assertion := by
  refine ⟨valid_run hrun, ?_⟩
  rcases step_spec (valid_run hrun) call with ⟨-, herror⟩ | ⟨-, m', hok, -⟩
  · rw [herror]
    simp
  · rw [hok]
    simp

theorem step_ne_assertion_sample : ∃ m, (new 2 : LimitedMap Nat Nat).run [.insert 1 10, .insert 2 20] = .ok m ∧
    2 ∈ m.map ∧ m.Valid ∧ m.step (.erase 2) ≠ .error .assertion := by
  obtain ⟨m, hrun⟩ : ∃ m, (new 2 : LimitedMap Nat Nat).run [.insert 1 10, .insert 2 20] = .ok m := ⟨_, rfl⟩
  refine ⟨m, hrun, ?_, step_ne_assertion hrun _⟩
  cases hrun
  decide

/-- The call does not fail, `rmap` mirrors `map` after it, and if it inserts a new key under a limit that holds,
the elements of highest value are left, as many as the limit allows. -/
def KeepsLimit (m : LimitedMap K V) (call : Call K V) : Prop :=
  ∃ m', m.step call = .ok m' ∧ m'.Valid ∧ ∀ k v, call = .insert k v → k ∉ m.map → 0 < m.nMaxSize →
    m.size ≤ m.nMaxSize → KeepsHighest (·.2) m.nMaxSize (⟨k, v⟩ :: m.map.entries) m'.map.entries

/-- A new key inserted under a limit that holds leaves the map smaller than the limit. -/
def HasRoom (m : LimitedMap K V) : Call K V → Prop
  | .insert k _ => k ∉ m.map → 0 < m.nMaxSize → m.size ≤ m.nMaxSize → m.size + 1 < m.nMaxSize
  | _ => True

theorem keepsLimit_iff_hasRoom (h : m.Valid) (call : Call K V) : m.KeepsLimit call ↔ m.HasRoom call := by
  constructor
  · rintro ⟨m', hstep, -, keeps⟩
    cases call with
    | insert k v =>
      intro hk pos hle
      have len := (keeps k v rfl hk pos hle).length
      rw [List.length_cons, ← size, ← size] at len
      by_cases full : m.size + 1 = m.nMaxSize
      · by_cases empty : m.size = 0
        · have herror := insert_of_empty (v := v) h hk empty (by omega)
          cases herror.symm.trans hstep
        · obtain ⟨m₁, hok, -, hsize⟩ := insert_of_full (v := v) h hk (by omega) full
          obtain rfl : m₁ = m' := Except.ok.inj (hok.symm.trans hstep)
          omega
      · obtain ⟨m₁, hok, -, hentries⟩ := insert_of_room (v := v) h hk (.inr full)
        obtain rfl : m₁ = m' := Except.ok.inj (hok.symm.trans hstep)
        rw [size, hentries, List.length_cons, ← size] at len
        omega
    | erase | update | max_size => trivial
  · intro room
    rcases step_spec h call with ⟨hempty, -⟩ | ⟨-, m', hok, hvalid⟩
    · cases call with
      | insert k v =>
        have hk : k ∉ m.map := fun hk => (size_pos hk).ne' hempty.1
        have small := room hk (by rw [hempty.2]; exact Nat.one_pos) (by rw [hempty.1]; exact Nat.zero_le _)
        rw [hempty.1, hempty.2] at small
        exact absurd small (lt_irrefl _)
      | erase | update | max_size => exact hempty.elim
    · refine ⟨m', hok, hvalid, ?_⟩
      rintro k v rfl hk pos hle
      have small := room hk pos hle
      obtain ⟨m₁, hok', -, hentries⟩ := insert_of_room (v := v) h hk (.inr (by omega))
      obtain rfl : m₁ = m' := Except.ok.inj (hok'.symm.trans hok)
      rw [hentries]
      exact .refl (by rw [List.length_cons, ← size]; omega)

/-- **The limit is kept in exactly the runs whose insertions have room.** -/
theorem keepsLimit_run_iff (nMaxSizeIn : Nat) (calls : List (Call K V)) :
    Runs.EachCall step KeepsLimit (new nMaxSizeIn) calls ↔
      Runs.EachCall step HasRoom (new nMaxSizeIn) calls :=
  Runs.eachCall_congr (I := Valid) (fun _ _ _ h hstep => h.step hstep)
    (fun _ call h => keepsLimit_iff_hasRoom h call) (valid_new nMaxSizeIn)

/-- Under the limit two, of two elements only the second one is left. -/
theorem not_keepsLimit_run :
    ¬ Runs.EachCall step KeepsLimit (new 2 : LimitedMap Nat Nat) [.insert 1 10, .insert 2 20] := by
  intro keeps
  obtain ⟨m, hm⟩ : ∃ m, (new 2 : LimitedMap Nat Nat).step (.insert 1 10) = .ok m := ⟨_, rfl⟩
  have room : m.HasRoom (.insert 2 20) :=
    (keepsLimit_iff_hasRoom ((valid_new 2).step hm) _).mp (keeps.2 m hm).1
  obtain rfl := Except.ok.inj hm
  exact absurd (room (by decide) (by decide) (by decide)) (by decide)

end LimitedMap

end Manna
