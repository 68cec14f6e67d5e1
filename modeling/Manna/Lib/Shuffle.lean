import Mathlib.Data.List.Basic
import Mathlib.Order.Lattice

/-!
A partial shuffle: members are drawn to the front of a list one after the other.

In round `i` the member at a drawn position, from `i` on, changes places with the one at `i`. It stays there,
and the front of the list fills up with what was drawn. Of a list that fills up, `FirstMin` is the position of
the first member with the least value.

* `shuffle_perm`, `take_exchange`: the members are the same, and one more is in front;
* `FirstMin.concat_lt`, `FirstMin.concat_le`: one more member.
-/

namespace Shuffle

variable {α β : Type} {pos : Nat → Nat} {rounds i j k : Nat} {v : List α}

/-- Two members change places. -/
def exchange (v : List α) (i j : Nat) : List α :=
  match v[j]?, v[i]? with
  | some a, some b => (v.set j b).set i a
  | _, _ => v

def shuffle (pos : Nat → Nat) : Nat → Nat → List α → List α
  | 0, _, v => v
  | rounds + 1, i, v => if i < v.length then shuffle pos rounds (i + 1) (exchange v i (pos i)) else v

theorem exchange_perm (v : List α) (i j : Nat) : (exchange v i j).Perm v := by
  unfold exchange
  split
  · next a b ha hb =>
    obtain ⟨hj, rfl⟩ := List.getElem?_eq_some_iff.mp ha
    obtain ⟨hi, rfl⟩ := List.getElem?_eq_some_iff.mp hb
    exact List.set_set_perm hj hi
  · exact .refl _

@[simp] theorem length_exchange (v : List α) (i j : Nat) : (exchange v i j).length = v.length :=
  (exchange_perm v i j).length_eq

theorem getElem?_exchange_self (hi : i < v.length) (hj : j < v.length) : (exchange v i j)[i]? = v[j]? := by
  unfold exchange
  rw [List.getElem?_eq_getElem hi, List.getElem?_eq_getElem hj]
  simp [hi]

theorem getElem?_exchange_of_lt (hi : k < i) (hj : k < j) : (exchange v i j)[k]? = v[k]? := by
  unfold exchange
  split
  · rw [List.getElem?_set_ne (by omega), List.getElem?_set_ne (by omega)]
  · rfl

theorem take_exchange {x : α} (hi : i < v.length) (hij : i ≤ j) (hx : v[j]? = some x) :
    (exchange v i j).take (i + 1) = v.take i ++ [x] := by
  have hj : j < v.length := (List.getElem?_eq_some_iff.mp hx).1
  have hfront : (exchange v i j).take i = v.take i := by
    refine List.ext_getElem? fun k => ?_
    rw [List.getElem?_take, List.getElem?_take]
    split
    · next hk => exact getElem?_exchange_of_lt hk (Nat.lt_of_lt_of_le hk hij)
    · rfl
  rw [List.take_add_one, hfront, getElem?_exchange_self hi hj, hx]
  rfl

theorem shuffle_perm (pos : Nat → Nat) (rounds i : Nat) (v : List α) : (shuffle pos rounds i v).Perm v := by
  induction rounds generalizing i v with
  | zero => exact .refl _
  | succ rounds ih =>
    rw [shuffle]
    split
    · exact (ih _ _).trans (exchange_perm _ _ _)
    · exact .refl _

variable [LinearOrder β] {f : α → β} {front : List α} {x : α}

/-- A position has the first of the members with the least value. -/
def FirstMin (f : α → β) (front : List α) (i : Nat) : Prop :=
  ∃ x, front[i]? = some x ∧ (∀ y ∈ front, f x ≤ f y) ∧ ∀ j < i, ∀ y, front[j]? = some y → f x < f y

theorem firstMin_singleton (f : α → β) (x : α) : FirstMin f [x] 0 :=
  ⟨x, rfl, fun _ hy => (List.mem_singleton.mp hy).symm ▸ le_rfl, nofun⟩

theorem FirstMin.concat_lt (h : ∀ y ∈ front, f x < f y) : FirstMin f (front ++ [x]) front.length := by
  refine ⟨x, List.getElem?_concat_length, fun y hy => ?_, fun j hj y hy => ?_⟩
  · rcases List.mem_append.mp hy with hy | hy
    · exact (h y hy).le
    · exact (List.mem_singleton.mp hy).symm ▸ le_rfl
  · rw [List.getElem?_append_left hj] at hy
    exact h y (List.mem_of_getElem? hy)

theorem FirstMin.concat_le {y : α} (h : FirstMin f front i) (hle : ∀ x, front[i]? = some x → f x ≤ f y) :
    FirstMin f (front ++ [y]) i := by
  obtain ⟨x, hx, hmin, hfirst⟩ := h
  have hi := (List.getElem?_eq_some_iff.mp hx).1
  refine ⟨x, by rw [List.getElem?_append_left hi, hx], fun z hz => ?_, fun j hj z hz => ?_⟩
  · rcases List.mem_append.mp hz with hz | hz
    · exact hmin z hz
    · exact (List.mem_singleton.mp hz).symm ▸ hle x hx
  · rw [List.getElem?_append_left (Nat.lt_trans hj hi)] at hz
    exact hfirst j hj z hz

theorem FirstMin.congr {g : α → β} (h : FirstMin f front i) (heq : ∀ x ∈ front, f x = g x) : FirstMin g front i := by
  obtain ⟨x, hx, hmin, hfirst⟩ := h
  have hmem := List.mem_of_getElem? hx
  refine ⟨x, hx, fun y hy => ?_, fun j hj y hy => ?_⟩
  · rw [← heq x hmem, ← heq y hy]
    exact hmin y hy
  · rw [← heq x hmem, ← heq y (List.mem_of_getElem? hy)]
    exact hfirst j hj y hy

theorem FirstMin.unique (hi : FirstMin f front i) (hj : FirstMin f front j) : i = j := by
  obtain ⟨x, hx, hminx, hfirstx⟩ := hi
  obtain ⟨y, hy, hminy, hfirsty⟩ := hj
  rcases Nat.lt_trichotomy i j with hlt | heq | hlt
  · exact absurd (hfirsty i hlt x hx) (hminx y (List.mem_of_getElem? hy)).not_gt
  · exact heq
  · exact absurd (hfirstx j hlt y hy) (hminy x (List.mem_of_getElem? hx)).not_gt

end Shuffle
