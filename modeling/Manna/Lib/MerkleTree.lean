import Mathlib.Data.List.Induction
import Mathlib.Data.List.Nodup
import Mathlib.Logic.Function.Basic
import Mathlib.Tactic.Ring

/-!
Merkle trees in which the last node of an odd level is paired with itself.

The tree over a list of leaves is given by its levels: `parents` is one level from the level
below, `level h` the level at height `h` above the leaves. The pairing function is a parameter.

* `length_level`, `getElem?_level_succ`: the shape of the levels, and the children of a node;
* `first_leaf_of_level_eq`: where the pairing is injective and makes no leaf, a root determines
  the first leaf;
* `level_injective_of_nodup`: where the pairing is injective, a level determines leaves
  without duplicates, however many they are.
-/

namespace Merkle

variable {α : Type} (pair : α → α → α)

def parents : List α → List α
  | [] => []
  | [a] => [pair a a]
  | a :: b :: l => pair a b :: parents l

def level : Nat → List α → List α
  | 0, l => l
  | h + 1, l => parents pair (level h l)

/-- The width of the level at a height above `n` leaves: `n / 2 ^ h`, rounded up. -/
def width (n h : Nat) : Nat := (n + 2 ^ h - 1) / 2 ^ h

/-! ### The shape of the levels -/

@[simp] theorem width_zero (n : Nat) : width n 0 = n := by simp [width]

theorem width_succ (n h : Nat) : width n (h + 1) = (width n h + 1) / 2 := by
  have hpos : 0 < 2 ^ h := Nat.two_pow_pos h
  rw [width, width, ← Nat.add_div_right _ hpos, Nat.div_div_eq_div_mul, Nat.pow_succ]
  congr 1
  omega

theorem width_pos {n : Nat} (hn : 0 < n) (h : Nat) : 0 < width n h := by
  induction h with
  | zero => rwa [width_zero]
  | succ h ih =>
    rw [width_succ]
    omega

/-- More than one node is left exactly below the height at which the power of two reaches the
number of leaves. -/
theorem one_lt_width_iff (n h : Nat) : 1 < width n h ↔ 2 ^ h < n := by
  have hpos : 0 < 2 ^ h := Nat.two_pow_pos h
  rw [width, Nat.lt_iff_add_one_le, Nat.le_div_iff_mul_le hpos]
  omega

theorem length_parents (l : List α) : (parents pair l).length = (l.length + 1) / 2 := by
  induction l using parents.induct with
  | case1 => simp [parents]
  | case2 a => simp [parents]
  | case3 a b l ih =>
    simp only [parents, List.length_cons, ih]
    omega

theorem length_level (h : Nat) (l : List α) : (level pair h l).length = width l.length h := by
  induction h with
  | zero => rw [level, width_zero]
  | succ h ih => rw [level, length_parents, ih, width_succ]

/-- The node over the children at `2 * i` and `2 * i + 1`; where there is no second child,
the first takes its place. -/
theorem getElem?_parents (l : List α) (i : Nat) :
    (parents pair l)[i]? = l[2 * i]?.map fun a => pair a (l[2 * i + 1]?.getD a) := by
  induction l using parents.induct generalizing i with
  | case1 => rfl
  | case2 a => cases i <;> simp [parents, Nat.mul_succ]
  | case3 a b l ih =>
    cases i with
    | zero => rfl
    | succ i => simpa [parents, Nat.mul_succ] using ih i

theorem getElem?_level_succ (h : Nat) (l : List α) (i : Nat) : (level pair (h + 1) l)[i]? =
      (level pair h l)[2 * i]?.map fun a => pair a ((level pair h l)[2 * i + 1]?.getD a) :=
  getElem?_parents pair _ i

theorem level_succ' (h : Nat) (l : List α) : level pair (h + 1) l = level pair h (parents pair l) := by
  induction h with
  | zero => rfl
  | succ h ih => rw [level, ih, level]

theorem mem_parents {c : α} {l : List α} (hc : c ∈ parents pair l) : ∃ a ∈ l, ∃ b ∈ l, c = pair a b := by
  induction l using parents.induct with
  | case1 => cases hc
  | case2 a =>
    rw [parents, List.mem_singleton] at hc
    exact ⟨a, List.mem_singleton_self a, a, List.mem_singleton_self a, hc⟩
  | case3 a b l ih =>
    rw [parents, List.mem_cons] at hc
    rcases hc with rfl | hc
    · exact ⟨a, by simp, b, by simp, rfl⟩
    · obtain ⟨x, hx, y, hy, rfl⟩ := ih hc
      exact ⟨x, by simp [hx], y, by simp [hy], rfl⟩

theorem parents_append {l : List α} (hl : 2 ∣ l.length) (s : List α) :
    parents pair (l ++ s) = parents pair l ++ parents pair s := by
  induction l using parents.induct with
  | case1 => rfl
  | case2 a => simp at hl
  | case3 a b l ih =>
    have htail : 2 ∣ l.length := by
      simp only [List.length_cons] at hl
      omega
    simp only [List.cons_append, parents, ih htail]

/-- Leaves that fill a whole number of subtrees stand for themselves. -/
theorem level_append {l : List α} {h : Nat} (hl : 2 ^ h ∣ l.length) (s : List α) :
    level pair h (l ++ s) = level pair h l ++ level pair h s := by
  induction h with
  | zero => rfl
  | succ h ih =>
    obtain ⟨k, hk⟩ := hl
    have hbelow : l.length = 2 ^ h * (2 * k) := by rw [hk, Nat.pow_succ, Nat.mul_assoc]
    have heven : 2 ∣ (level pair h l).length := by
      have hpos : 0 < 2 ^ h := Nat.two_pow_pos h
      refine ⟨k, ?_⟩
      rw [length_level, width, hbelow, Nat.add_sub_assoc hpos, Nat.mul_add_div hpos,
        Nat.div_eq_of_lt (Nat.sub_lt hpos Nat.one_pos), Nat.add_zero]
    rw [level, ih ⟨2 * k, hbelow⟩, parents_append pair heven, level, level]

/-- **Repeating a last subtree** that stands alone changes no level above it. -/
theorem level_duplicate_trailing {l s : List α} {h : Nat} (hs : s.length = 2 ^ h)
    (hl : 2 ^ (h + 1) ∣ l.length) (j : Nat) :
    level pair (h + 1 + j) (l ++ s ++ s) = level pair (h + 1 + j) (l ++ s) := by
  induction j with
  | zero =>
    have hone : width s.length h = 1 := by
      have hle : ¬ 1 < width s.length h := by
        rw [one_lt_width_iff, hs]
        exact Nat.lt_irrefl _
      have hpos := width_pos (n := s.length) (by rw [hs]; exact Nat.two_pow_pos h) h
      omega
    obtain ⟨r, hr⟩ := List.length_eq_one_iff.mp ((length_level pair h s).trans hone)
    have hdup : level pair (h + 1) (s ++ s) = level pair (h + 1) s := by
      rw [level, level, level_append pair (by rw [hs]), hr]
      rfl
    rw [Nat.add_zero, List.append_assoc, level_append pair hl, level_append pair hl, hdup]
  | succ j ih => rw [← Nat.add_assoc, level, ih, level]

theorem head?_parents (a : α) (l : List α) : ∃ b, (parents pair (a :: l)).head? = some (pair a b) := by
  cases l with
  | nil => exact ⟨a, rfl⟩
  | cons b l => exact ⟨b, rfl⟩

/-- The first node of a level is the first leaf, paired with the nodes beside it on the way up. -/
theorem exists_foldl_level (a : α) (l : List α) (h : Nat) :
    ∃ beside : List α, (level pair h (a :: l)).head? = some (beside.foldl pair a) := by
  induction h with
  | zero => exact ⟨[], rfl⟩
  | succ h ih =>
    obtain ⟨beside, hbeside⟩ := ih
    obtain ⟨below, hbelow⟩ := List.head?_eq_some_iff.mp hbeside
    obtain ⟨b, hb⟩ := head?_parents pair (beside.foldl pair a) below
    refine ⟨beside ++ [b], ?_⟩
    rw [level, hbelow, hb, List.foldl_append, List.foldl_cons, List.foldl_nil]

section Injective

variable {pair} (hpair : Function.Injective2 pair)

include hpair in
theorem first_leaf_of_foldl_eq {a b : α} (ha : ∀ x y, pair x y ≠ a) (hb : ∀ x y, pair x y ≠ b)
    {left right : List α} (h : left.foldl pair a = right.foldl pair b) : a = b := by
  induction left using List.reverseRecOn generalizing right with
  | nil =>
    rcases List.eq_nil_or_concat' right with rfl | ⟨right, y, rfl⟩
    · exact h
    · rw [List.foldl_concat, List.foldl_nil] at h
      exact absurd h.symm (ha _ _)
  | append_singleton left x ih =>
    rcases List.eq_nil_or_concat' right with rfl | ⟨right, y, rfl⟩
    · rw [List.foldl_concat, List.foldl_nil] at h
      exact absurd h (hb _ _)
    · rw [List.foldl_concat, List.foldl_concat] at h
      exact ih (hpair h).1

include hpair in
/-- **A root determines the first leaf**, at any two heights, when no leaf is itself a pair. -/
theorem first_leaf_of_level_eq {a b root : α} {l m : List α} {h k : Nat}
    (ha : ∀ x y, pair x y ≠ a) (hb : ∀ x y, pair x y ≠ b)
    (hl : level pair h (a :: l) = [root]) (hm : level pair k (b :: m) = [root]) : a = b := by
  obtain ⟨left, hleft⟩ := exists_foldl_level pair a l h
  obtain ⟨right, hright⟩ := exists_foldl_level pair b m k
  rw [hl, List.head?_cons, Option.some_inj] at hleft
  rw [hm, List.head?_cons, Option.some_inj] at hright
  exact first_leaf_of_foldl_eq hpair ha hb (hleft.symm.trans hright)

/-! ### Leaves without duplicates -/

include hpair in
theorem nodup_parents {l : List α} (hl : l.Nodup) : (parents pair l).Nodup := by
  induction l using parents.induct with
  | case1 => exact List.nodup_nil
  | case2 a => exact List.nodup_singleton _
  | case3 a b l ih =>
    rw [List.nodup_cons, List.nodup_cons] at hl
    obtain ⟨ha, -, hl⟩ := hl
    rw [parents, List.nodup_cons]
    constructor
    · intro hmem
      obtain ⟨x, hx, y, -, heq⟩ := mem_parents pair hmem
      apply ha
      rw [(hpair heq).1]
      exact List.mem_cons_of_mem b hx
    · exact ih hl

include hpair in
theorem nodup_level {l : List α} (hl : l.Nodup) (h : Nat) : (level pair h l).Nodup := by
  induction h with
  | zero => exact hl
  | succ h ih => exact nodup_parents hpair ih

include hpair in
/-- **A level determines the level below it** when that has no duplicates: a node whose
children are equal stands for a single one. -/
theorem parents_injective_of_nodup {l l' : List α} (hl : l.Nodup) (hl' : l'.Nodup)
    (h : parents pair l = parents pair l') : l = l' := by
  induction l using parents.induct generalizing l' with
  | case1 =>
    cases l' with
    | nil => rfl
    | cons a l' => cases l' <;> simp [parents] at h
  | case2 a =>
    match l', hl', h with
    | [], _, h => simp [parents] at h
    | [a'], _, h =>
      simp only [parents, List.cons.injEq, and_true] at h
      rw [(hpair h).1]
    | a' :: b' :: l', hl', h =>
      -- Both children of the first node would be `a`.
      simp only [parents, List.cons.injEq] at h
      obtain ⟨rfl, rfl⟩ := hpair h.1
      simp at hl'
  | case3 a b l ih =>
    match l', hl', h with
    | [], _, h => simp [parents] at h
    | [a'], _, h =>
      simp only [parents, List.cons.injEq] at h
      obtain ⟨rfl, rfl⟩ := hpair h.1
      simp at hl
    | a' :: b' :: l', hl', h =>
      simp only [parents, List.cons.injEq] at h
      obtain ⟨rfl, rfl⟩ := hpair h.1
      rw [ih hl.of_cons.of_cons hl'.of_cons.of_cons h.2]

include hpair in
/-- **A level determines the leaves** when they have no duplicates. -/
theorem level_injective_of_nodup {l l' : List α} (hl : l.Nodup) (hl' : l'.Nodup) {h : Nat}
    (heq : level pair h l = level pair h l') : l = l' := by
  induction h with
  | zero => exact heq
  | succ h ih =>
    exact ih (parents_injective_of_nodup hpair (nodup_level hpair hl h)
      (nodup_level hpair hl' h) heq)

end Injective

end Merkle
