import Mathlib.Logic.Hydra

/-!
A worklist without a set of visited elements.

A visit of an element ends the loop, or puts more elements behind the others. An element is visited once for
each way to it.

* `exists_rounds`: the loop ends where visits lead downwards;
* `loop_eq_done_iff`: it is done when no element that is reached ends it.
-/

namespace Worklist

open Relation

/-- What a visit does. -/
inductive Visit (α ρ : Type*) where
  | stop (r : ρ)
  | more (xs : List α)

variable {α ρ : Type*} (visit : α → Visit α ρ) (done : ρ)

/-- The loop, with so many rounds at most. -/
def loop : Nat → List α → Option ρ
  | 0, _ => none
  | _ + 1, [] => some done
  | rounds + 1, x :: queue =>
    match visit x with
    | .stop r => some r
    | .more xs => loop rounds (queue ++ xs)

/-- The visit of an element leads to another one. -/
def Leads (x y : α) : Prop := ∃ xs, visit x = .more xs ∧ y ∈ xs

variable {visit done} {queue : List α}

/-- **The loop ends**, when no visits lead downwards for ever: each replaces an element by lower ones. -/
theorem exists_rounds (hwf : WellFounded fun y x => Leads visit x y) (queue : List α) :
    ∃ rounds r, ∀ n ≥ rounds, loop visit done n queue = some r := by
  have hirrefl : Std.Irrefl fun y x => Leads visit x y := ⟨fun x => hwf.irrefl.irrefl x⟩
  generalize hs : (queue : Multiset α) = s
  induction s using hwf.cutExpand.induction generalizing queue with
  | _ s ih =>
    cases queue with
    | nil =>
      refine ⟨1, done, fun n hn => ?_⟩
      obtain ⟨m, rfl⟩ := Nat.exists_eq_add_of_le' hn
      rfl
    | cons x queue =>
      cases hvisit : visit x with
      | stop r =>
        refine ⟨1, r, fun n hn => ?_⟩
        obtain ⟨m, rfl⟩ := Nat.exists_eq_add_of_le' hn
        rw [loop, hvisit]
      | more xs =>
        have hstep : CutExpand (fun y x => Leads visit x y) ((queue ++ xs : List α) : Multiset α) s := by
          refine ⟨xs, x, fun y hy => ⟨xs, hvisit, hy⟩, ?_⟩
          rw [← hs, ← Multiset.coe_add, ← Multiset.cons_coe, Multiset.cons_add]
          exact Multiset.add_comm _ _
        obtain ⟨rounds, r, hloop⟩ := ih _ hstep (queue ++ xs) rfl
        refine ⟨rounds + 1, r, fun n hn => ?_⟩
        obtain ⟨m, rfl⟩ := Nat.exists_eq_add_of_le' hn
        rw [← Nat.add_assoc, loop, hvisit]
        exact hloop (m + rounds) (Nat.le_add_left _ _)

/-- How the loop ended: nothing that was reached ended it, or something did. -/
theorem loop_cases {n : Nat} {r : ρ} (h : loop visit done n queue = some r) :
    (r = done ∧ ∀ x ∈ queue, ∀ y, ReflTransGen (Leads visit) x y → ∃ xs, visit y = .more xs) ∨
      ∃ x ∈ queue, ∃ y, ReflTransGen (Leads visit) x y ∧ visit y = .stop r := by
  induction n generalizing queue with
  | zero => cases h
  | succ n ih =>
    cases queue with
    | nil =>
      cases h
      exact .inl ⟨rfl, by simp⟩
    | cons x queue =>
      rw [loop] at h
      cases hvisit : visit x with
      | stop r' =>
        rw [hvisit] at h
        cases h
        exact .inr ⟨x, List.mem_cons_self, x, .refl, hvisit⟩
      | more xs =>
        rw [hvisit] at h
        rcases ih h with ⟨hdone, hall⟩ | ⟨z, hz, y, hreach, hstop⟩
        · refine .inl ⟨hdone, fun z hz y hreach => ?_⟩
          rcases List.mem_cons.mp hz with rfl | hz
          · rcases hreach.cases_head with rfl | ⟨z', hleads, hreach⟩
            · exact ⟨xs, hvisit⟩
            · obtain ⟨xs', hvisit', hmem⟩ := hleads
              cases hvisit.symm.trans hvisit'
              exact hall z' (List.mem_append_right _ hmem) y hreach
          · exact hall z (List.mem_append_left _ hz) y hreach
        · right
          rcases List.mem_append.mp hz with hz | hz
          · exact ⟨z, List.mem_cons_of_mem x hz, y, hreach, hstop⟩
          · exact ⟨x, List.mem_cons_self, y, .head ⟨xs, hvisit, hz⟩ hreach, hstop⟩

/-- **When the loop is done**: all visits that are reached lead on. -/
theorem loop_eq_done_iff (hstop : ∀ y r, visit y = .stop r → r ≠ done) {n : Nat} {r : ρ}
    (h : loop visit done n queue = some r) :
    r = done ↔ ∀ x ∈ queue, ∀ y, ReflTransGen (Leads visit) x y → ∃ xs, visit y = .more xs := by
  rcases loop_cases h with ⟨hdone, hall⟩ | ⟨x, hx, y, hreach, hy⟩
  · exact iff_of_true hdone hall
  · refine iff_of_false (hstop y r hy) fun hall => ?_
    obtain ⟨xs, hmore⟩ := hall x hx y hreach
    cases hy.symm.trans hmore

end Worklist
