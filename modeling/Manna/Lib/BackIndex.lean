import Mathlib.Data.Finmap
import Mathlib.Data.Finset.Basic

/-!
A finite map and the index of what its values refer to.

`stored` maps keys to values, `refs` lists what a value refers to, and the index maps a
reference to the set of keys of the values that make it. `link` and `unlink` maintain the
index by hand, one reference at a time; a set that becomes empty is taken out.

* `Exact`: the index says exactly who refers to what; `Exact.insert`, `Exact.erase` keep it;
* `TightAt`: no empty set stands at a reference; `unlink` leaves none where it worked.
-/

namespace BackIndex

variable {K R V : Type} [DecidableEq K] [DecidableEq R]

/-- The sets of keys, by reference. -/
abbrev Index (R K : Type) := Finmap fun _ : R => Finset K

/-- The set at a reference, empty where there is none. -/
def Index.at (m : Index R K) (r : R) : Finset K := (m.lookup r).getD ∅

/-- Make sure there is a set at a reference. -/
def touch (r : R) (m : Index R K) : Index R K := m.insert r (m.at r)

/-- Enter a key under its references. -/
def link (k : K) (refs : List R) (m : Index R K) : Index R K :=
  refs.foldl (fun m r => m.insert r (insert k (m.at r))) m

/-- Take a key out from under one reference, and the set with it when it becomes empty. -/
def unlinkOne (k : K) (m : Index R K) (r : R) : Index R K :=
  if (m.at r).erase k = ∅ then m.erase r else m.insert r ((m.at r).erase k)

/-- Take a key out from under its references. -/
def unlink (k : K) (refs : List R) (m : Index R K) : Index R K := refs.foldl (unlinkOne k) m

/-! ### What the operations leave -/

variable {k : K} {r : R} {refs : List R} {m : Index R K}

omit [DecidableEq K] in
theorem at_touch (r r' : R) (m : Index R K) : (touch r m).at r' = m.at r' := by
  by_cases h : r' = r
  · rw [h]
    simp only [Index.at, touch, Finmap.lookup_insert, Option.getD_some]
  · simp only [Index.at, touch, Finmap.lookup_insert_of_ne _ h]

theorem lookup_link (k : K) (refs : List R) (m : Index R K) (r : R) :
    (link k refs m).lookup r = if r ∈ refs then some (insert k (m.at r)) else m.lookup r := by
  induction refs generalizing m with
  | nil => rfl
  | cons r' refs ih =>
    show (link k refs (m.insert r' (insert k (m.at r')))).lookup r = _
    rw [ih]
    by_cases hr : r = r'
    · subst hr
      simp only [Index.at, Finmap.lookup_insert, Option.getD_some, List.mem_cons_self, if_true,
        Finset.insert_idem, ite_self]
    · simp only [Index.at, Finmap.lookup_insert_of_ne _ hr, List.mem_cons, hr, false_or]

theorem lookup_unlinkOne (k : K) (m : Index R K) (r r' : R) : (unlinkOne k m r).lookup r' =
      if r' = r then (if (m.at r).erase k = ∅ then none else some ((m.at r).erase k)) else m.lookup r' := by
  unfold unlinkOne
  by_cases hr : r' = r
  · subst hr
    rw [if_pos rfl]
    split_ifs
    · exact Finmap.lookup_erase _ _
    · exact Finmap.lookup_insert _
  · rw [if_neg hr]
    split_ifs
    · exact Finmap.lookup_erase_ne hr
    · exact Finmap.lookup_insert_of_ne _ hr

theorem lookup_unlink (k : K) (refs : List R) (m : Index R K) (r : R) : (unlink k refs m).lookup r =
      if r ∈ refs then (if (m.at r).erase k = ∅ then none else some ((m.at r).erase k)) else m.lookup r := by
  induction refs generalizing m with
  | nil => rfl
  | cons r' refs ih =>
    show (unlink k refs (unlinkOne k m r')).lookup r = _
    rw [ih]
    by_cases hr : r = r'
    · subst hr
      have hat : ((unlinkOne k m r).at r) = (m.at r).erase k := by
        rw [Index.at, lookup_unlinkOne, if_pos rfl]
        split_ifs with hempty
        · exact hempty.symm
        · rfl
      rw [hat, Finset.erase_idem, if_pos List.mem_cons_self, lookup_unlinkOne, if_pos rfl, ite_self]
    · have hat : (unlinkOne k m r').at r = m.at r := by
        rw [Index.at, lookup_unlinkOne, if_neg hr]
        rfl
      rw [hat, lookup_unlinkOne, if_neg hr]
      simp only [List.mem_cons, hr, false_or]

theorem at_link (k : K) (refs : List R) (m : Index R K) (r : R) :
    (link k refs m).at r = if r ∈ refs then insert k (m.at r) else m.at r := by
  rw [Index.at, lookup_link]
  split_ifs <;> rfl

theorem at_unlink (k : K) (refs : List R) (m : Index R K) (r : R) :
    (unlink k refs m).at r = if r ∈ refs then (m.at r).erase k else m.at r := by
  rw [Index.at, lookup_unlink]
  split_ifs with hmem hempty
  · exact hempty.symm
  · rfl
  · rfl

/-! ### The index is exact -/

/-- **The index is exact.** A key stands under a reference when its value makes it. -/
def Exact (stored : Finmap fun _ : K => V) (refs : V → List R) (m : Index R K) : Prop :=
  ∀ r k, k ∈ m.at r ↔ ∃ v, stored.lookup k = some v ∧ r ∈ refs v

variable {stored : Finmap fun _ : K => V} {refsOf : V → List R} {v : V}

theorem exact_empty (refsOf : V → List R) : Exact (∅ : Finmap fun _ : K => V) refsOf ∅ := by
  intro r k
  constructor
  · intro h
    exact absurd h (Finset.notMem_empty k)
  · rintro ⟨v, h, -⟩
    rw [Finmap.lookup_empty] at h
    cases h

theorem Exact.touch (h : Exact stored refsOf m) (r : R) : Exact stored refsOf (touch r m) :=
  fun r' k => by rw [at_touch]; exact h r' k

theorem Exact.insert (h : Exact stored refsOf m) (hnew : stored.lookup k = none) :
    Exact (stored.insert k v) refsOf (link k (refsOf v) m) := by
  intro r k'
  rw [at_link]
  by_cases hk : k' = k
  · subst hk
    rw [Finmap.lookup_insert]
    split_ifs with hr
    · exact iff_of_true (Finset.mem_insert_self _ _) ⟨v, rfl, hr⟩
    · apply iff_of_false
      · intro hmem
        obtain ⟨v', hv', -⟩ := (h r k').mp hmem
        rw [hnew] at hv'
        cases hv'
      · rintro ⟨v', hv', hr'⟩
        cases hv'
        exact hr hr'
  · rw [Finmap.lookup_insert_of_ne _ hk, ← h r k']
    split_ifs
    · rw [Finset.mem_insert]
      exact or_iff_right hk
    · exact Iff.rfl

theorem Exact.erase (h : Exact stored refsOf m) (hold : stored.lookup k = some v) :
    Exact (stored.erase k) refsOf (unlink k (refsOf v) m) := by
  intro r k'
  rw [at_unlink]
  by_cases hk : k' = k
  · subst hk
    rw [Finmap.lookup_erase]
    apply iff_of_false
    · split_ifs with hr
      · exact Finset.notMem_erase _ _
      · intro hmem
        obtain ⟨v', hv', hr'⟩ := (h r k').mp hmem
        rw [hold] at hv'
        cases hv'
        exact hr hr'
    · rintro ⟨v', hv', -⟩
      cases hv'
  · rw [Finmap.lookup_erase_ne hk, ← h r k']
    split_ifs
    · exact Finset.mem_erase.trans (and_iff_right hk)
    · exact Iff.rfl

/-- No empty set stands at a reference. -/
def TightAt (m : Index R K) (r : R) : Prop := m.lookup r ≠ some ∅

omit [DecidableEq K] in
theorem tightAt_empty (r : R) : TightAt (∅ : Index R K) r := by
  rw [TightAt, Finmap.lookup_empty]
  exact nofun

theorem TightAt.link (h : TightAt m r) (k : K) (refs : List R) : TightAt (link k refs m) r := by
  rw [TightAt, lookup_link]
  split_ifs
  · exact fun heq => Finset.insert_ne_empty k _ (Option.some.inj heq)
  · exact h

theorem tightAt_unlink (k : K) {refs : List R} (hr : r ∈ refs) (m : Index R K) :
    TightAt (unlink k refs m) r := by
  rw [TightAt, lookup_unlink, if_pos hr]
  split_ifs with hempty
  · exact nofun
  · exact fun heq => hempty (Option.some.inj heq)

theorem TightAt.unlink (h : TightAt m r) (k : K) (refs : List R) : TightAt (unlink k refs m) r := by
  by_cases hr : r ∈ refs
  · exact tightAt_unlink k hr m
  · rw [TightAt, lookup_unlink, if_neg hr]
    exact h

omit [DecidableEq K] in
theorem TightAt.touch_ne {r' : R} (h : TightAt m r) (hr : r ≠ r') : TightAt (touch r' m) r := by
  rw [TightAt, BackIndex.touch, Finmap.lookup_insert_of_ne _ hr]
  exact h

end BackIndex
