import Mathlib.Data.List.TakeWhile
import Mathlib.Order.Lattice

/-!
Sorted multimaps.

The entries of a `Multimap` stand in the order of their keys, those of one key in the order in which they
were inserted. Insertion is at the upper bound of the key (`insert`); an entry is erased by a search of the
range of its key (`eraseInRange`), which finds it whenever it is there (`eraseInRange_isSome`).
-/

/-- Entries sorted by key. -/
structure Multimap (V α : Type) [LE V] where
  entries : List (V × α)
  sorted : entries.Pairwise fun a b => a.1 ≤ b.1

namespace Multimap

/-- Past the first element of a list without `p` there is none with `p`, if `p` does not come back. -/
theorem not_of_mem_dropWhile {α : Type} {r : α → α → Prop} {p : α → Bool}
    (gone : ∀ a b, r a b → p a = false → p b = false) {l : List α} (sorted : l.Pairwise r) :
    ∀ x ∈ l.dropWhile p, p x = false := by
  induction l with
  | nil => simp
  | cons a l ih =>
    intro x hx
    rw [List.pairwise_cons] at sorted
    cases ha : p a with
    | true => exact ih sorted.2 x (by simpa [List.dropWhile_cons, ha] using hx)
    | false =>
      rw [List.dropWhile_cons_of_neg (by simp [ha])] at hx
      rcases List.mem_cons.mp hx with rfl | hx
      · exact ha
      · exact gone a x (sorted.1 x hx) ha

section LinearOrder

variable {V α : Type} [LinearOrder V] {m m' : Multimap V α} {v : V} {a : α} {e : V × α}

/-- The multimap without entries. -/
def empty : Multimap V α := ⟨[], .nil⟩

@[simp] theorem entries_empty : (empty : Multimap V α).entries = [] := rfl

theorem lt_of_mem_dropWhile (he : e ∈ m.entries.dropWhile (·.1 ≤ v)) : v < e.1 := by
  have past := not_of_mem_dropWhile (p := fun e : V × α => decide (e.1 ≤ v))
    (fun a b hab ha => by simp at ha ⊢; exact ha.trans_le hab) m.sorted e he
  simpa using past

theorem le_of_mem_dropWhile (he : e ∈ m.entries.dropWhile (·.1 < v)) : v ≤ e.1 := by
  have past := not_of_mem_dropWhile (p := fun e : V × α => decide (e.1 < v))
    (fun a b hab ha => by simp at ha ⊢; exact ha.trans hab) m.sorted e he
  simpa using past

theorem sorted_insert (m : Multimap V α) (v : V) (a : α) :
    (m.entries.takeWhile (·.1 ≤ v) ++ (v, a) :: m.entries.dropWhile (·.1 ≤ v)).Pairwise
      fun a b => a.1 ≤ b.1 := by
  rw [List.pairwise_append]
  refine ⟨m.sorted.sublist (List.takeWhile_sublist _), ?_, ?_⟩
  · rw [List.pairwise_cons]
    exact ⟨fun e he => (lt_of_mem_dropWhile he).le, m.sorted.sublist (List.dropWhile_sublist _)⟩
  · intro e he e' he'
    have hle : e.1 ≤ v := by simpa using List.mem_takeWhile_imp he
    rcases List.mem_cons.mp he' with rfl | he'
    · exact hle
    · exact hle.trans (lt_of_mem_dropWhile he').le

/-- The multimap with a new entry, the last one of its key. -/
def insert (m : Multimap V α) (v : V) (a : α) : Multimap V α :=
  ⟨m.entries.takeWhile (·.1 ≤ v) ++ (v, a) :: m.entries.dropWhile (·.1 ≤ v), m.sorted_insert v a⟩

theorem entries_insert_perm : (m.insert v a).entries.Perm ((v, a) :: m.entries) := by
  have perm : (m.insert v a).entries.Perm
      ((v, a) :: (m.entries.takeWhile (·.1 ≤ v) ++ m.entries.dropWhile (·.1 ≤ v))) :=
    List.perm_middle
  rwa [List.takeWhile_append_dropWhile] at perm

@[simp] theorem mem_insert : e ∈ (m.insert v a).entries ↔ e = (v, a) ∨ e ∈ m.entries := by
  rw [entries_insert_perm.mem_iff, List.mem_cons]

theorem nodup_insert (h : (v, a) ∉ m.entries) (nodup : m.entries.Nodup) : (m.insert v a).entries.Nodup :=
  entries_insert_perm.nodup_iff.mpr (List.nodup_cons.mpr ⟨h, nodup⟩)

def eraseFirst (m : Multimap V α) : Multimap V α := ⟨m.entries.tail, m.sorted.tail⟩

@[simp] theorem entries_eraseFirst : m.eraseFirst.entries = m.entries.tail := rfl

/-- **The first entry has the least key.** -/
theorem head_le (h : m.entries.head? = some (v, a)) (he : e ∈ m.entries) : v ≤ e.1 := by
  obtain ⟨rest, heq⟩ := List.head?_eq_some_iff.mp h
  have sorted := m.sorted
  rw [heq, List.pairwise_cons] at sorted
  rw [heq] at he
  rcases List.mem_cons.mp he with rfl | he
  · exact le_rfl
  · exact sorted.1 e he

/-! ### Entries of one key -/

/-- The entries before the range of a key. -/
def before (m : Multimap V α) (v : V) : List (V × α) := m.entries.takeWhile (·.1 < v)

/-- The entries of a key. -/
def equalRange (m : Multimap V α) (v : V) : List (V × α) :=
  (m.entries.dropWhile (·.1 < v)).takeWhile (·.1 ≤ v)

/-- The entries behind the range of a key. -/
def after (m : Multimap V α) (v : V) : List (V × α) :=
  (m.entries.dropWhile (·.1 < v)).dropWhile (·.1 ≤ v)

theorem before_append (m : Multimap V α) (v : V) :
    m.before v ++ (m.equalRange v ++ m.after v) = m.entries := by
  rw [equalRange, after, List.takeWhile_append_dropWhile, before, List.takeWhile_append_dropWhile]

theorem key_of_mem_before (he : e ∈ m.before v) : e.1 < v := by
  simpa using List.mem_takeWhile_imp he

theorem key_of_mem_after (he : e ∈ m.after v) : v < e.1 := by
  have sorted : (m.entries.dropWhile (·.1 < v)).Pairwise fun a b => a.1 ≤ b.1 :=
    m.sorted.sublist (List.dropWhile_sublist _)
  exact lt_of_mem_dropWhile (m := ⟨_, sorted⟩) he

theorem key_of_mem_equalRange (he : e ∈ m.equalRange v) : e.1 = v := by
  have hle : e.1 ≤ v := by simpa using List.mem_takeWhile_imp he
  exact hle.antisymm (le_of_mem_dropWhile (List.takeWhile_sublist _ |>.subset he))

/-- **The range of a key has all its entries.** -/
theorem mem_equalRange : e ∈ m.equalRange v ↔ e ∈ m.entries ∧ e.1 = v := by
  constructor
  · intro he
    refine ⟨?_, key_of_mem_equalRange he⟩
    rw [← m.before_append v]
    simp [he]
  · rintro ⟨he, rfl⟩
    rw [← m.before_append e.1, List.mem_append, List.mem_append] at he
    rcases he with he | he | he
    · exact absurd (key_of_mem_before he) (lt_irrefl _)
    · exact he
    · exact absurd (key_of_mem_after he) (lt_irrefl _)

variable [DecidableEq α]

theorem sorted_eraseInRange (m : Multimap V α) (v : V) (a : α) :
    (m.before v ++ ((m.equalRange v).eraseP (·.2 = a) ++ m.after v)).Pairwise fun a b => a.1 ≤ b.1 := by
  have sub : (m.before v ++ ((m.equalRange v).eraseP (·.2 = a) ++ m.after v)).Sublist
      (m.before v ++ (m.equalRange v ++ m.after v)) :=
    (List.Sublist.refl _).append (List.eraseP_sublist.append (List.Sublist.refl _))
  rw [m.before_append v] at sub
  exact m.sorted.sublist sub

/-- The first entry of key `v` that holds `a` is erased; `none` if there is none. -/
def eraseInRange (m : Multimap V α) (v : V) (a : α) : Option (Multimap V α) :=
  if (m.equalRange v).any (·.2 = a) then
    some ⟨m.before v ++ ((m.equalRange v).eraseP (·.2 = a) ++ m.after v), m.sorted_eraseInRange v a⟩
  else none

theorem any_equalRange : (m.equalRange v).any (·.2 = a) = true ↔ (v, a) ∈ m.entries := by
  rw [List.any_eq_true]
  constructor
  · rintro ⟨⟨v', a'⟩, he, ha⟩
    obtain ⟨mem, rfl⟩ := mem_equalRange.mp he
    obtain rfl : a' = a := by simpa using ha
    exact mem
  · intro h
    exact ⟨(v, a), mem_equalRange.mpr ⟨h, rfl⟩, by simp⟩

/-- **An entry that is there is found.** -/
theorem eraseInRange_isSome : (m.eraseInRange v a).isSome ↔ (v, a) ∈ m.entries := by
  rw [← any_equalRange, eraseInRange]
  split <;> simp_all

/-- **The entry that is found, and no other, is gone.** -/
theorem entries_eraseInRange (h : m.eraseInRange v a = some m') : m.entries.Perm ((v, a) :: m'.entries) := by
  rw [eraseInRange] at h
  split at h
  next hany =>
    obtain rfl := Option.some.inj h
    obtain ⟨e, he, ha⟩ := List.any_eq_true.mp hany
    obtain ⟨e', l₁, l₂, -, he', hrange, herase⟩ := List.exists_of_eraseP (p := fun e : V × α => e.2 = a) he ha
    have key : e' = (v, a) := by
      have mem : e' ∈ m.equalRange v := by simp [hrange]
      exact Prod.ext (key_of_mem_equalRange mem) (by simpa using he')
    have moved : (m.before v ++ l₁ ++ (v, a) :: (l₂ ++ m.after v)).Perm
        ((v, a) :: (m.before v ++ l₁ ++ (l₂ ++ m.after v))) := List.perm_middle
    have split : m.entries = m.before v ++ l₁ ++ (v, a) :: (l₂ ++ m.after v) := by
      rw [← m.before_append v, hrange, key]
      simp
    rw [split]
    simpa [herase] using moved
  next => simp at h

end LinearOrder

end Multimap
