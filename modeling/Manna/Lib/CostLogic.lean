import Mathlib.Order.Nat
import Mathlib.Tactic.SplitIfs

/-!
Triples with a budget, for computations that keep their state when they stop.

A computation of `EStateM ε σ` returns or stops, and leaves a state in either case. `cost` reads
off a state what has been spent so far. `Bounded cost k P m Q` says that from a state in `P` the
computation `m` spends at most `k`, however it ends, and that what it returns is in `Q`.

* `bounded_pure`, `bounded_throw`, `bounded_bind`, `bounded_ite`, `bounded_set`: the rules of the
  constructs;
* `Bounded.mono`: larger budgets, stronger assumptions, weaker results;
* `bounded_lift`: a computation on a part of the state that the cost does not read is free.
-/

namespace CostLogic

variable {ε σ τ α β : Type}

/-- The state a computation leaves, whether it returned or stopped. -/
def finalState : EStateM.Result ε σ α → σ
  | .ok _ s => s
  | .error _ s => s

/-- **A triple with a budget.** -/
def Bounded (cost : σ → Nat) (k : Nat) (P : σ → Prop) (m : EStateM ε σ α) (Q : α → σ → Prop) :
    Prop :=
  ∀ s, P s → cost (finalState (m s)) ≤ cost s + k ∧ ∀ a s', m s = .ok a s' → Q a s'

section Rules

variable {cost : σ → Nat} {k l : Nat} {P P' : σ → Prop} {Q Q' : α → σ → Prop}
  {R : β → σ → Prop} {m : EStateM ε σ α}

theorem Bounded.mono (h : Bounded cost k P m Q) (hk : k ≤ l) (hP : ∀ s, P' s → P s)
    (hQ : ∀ a s, Q a s → Q' a s) : Bounded cost l P' m Q' := by
  intro s hs
  obtain ⟨hcost, hpost⟩ := h s (hP s hs)
  exact ⟨hcost.trans (Nat.add_le_add_left hk _), fun a s' hrun => hQ a s' (hpost a s' hrun)⟩

theorem Bounded.weaken (h : Bounded cost k P m Q) (hk : k ≤ l) : Bounded cost l P m Q :=
  h.mono hk (fun _ => id) fun _ _ => id

theorem bounded_of_pre {p : Prop} (hP : ∀ s, P s → p) (h : p → Bounded cost k P m Q) : Bounded cost k P m Q :=
  fun s hs => h (hP s hs) s hs

theorem bounded_pure {a : α} (h : ∀ s, P s → Q a s) : Bounded cost k P (pure a : EStateM ε σ α) Q := by
  intro s hs
  refine ⟨Nat.le_add_right _ _, ?_⟩
  intro a' s' hrun
  cases hrun
  exact h s hs

theorem bounded_throw {e : ε} : Bounded cost k P (throw e : EStateM ε σ α) Q := by
  intro s _
  refine ⟨Nat.le_add_right _ _, ?_⟩
  intro a' s' hrun
  cases hrun

/-- **Sequencing adds the budgets.** -/
theorem bounded_bind {f : α → EStateM ε σ β} (hm : Bounded cost k P m Q)
    (hf : ∀ a, Bounded cost l (Q a) (f a) R) : Bounded cost (k + l) P (m >>= f) R := by
  intro s hs
  obtain ⟨hcost, hpost⟩ := hm s hs
  have hbind : (m >>= f) s = match m s with
      | .ok a s' => f a s'
      | .error e s' => .error e s' := rfl
  rw [hbind]
  cases hrun : m s with
  | error e s' =>
    rw [hrun] at hcost
    exact ⟨hcost.trans (Nat.add_le_add_left (Nat.le_add_right _ _) _), fun a s'' h => by cases h⟩
  | ok a s' =>
    rw [hrun] at hcost
    obtain ⟨hcost', hpost'⟩ := hf a s' (hpost a s' hrun)
    refine ⟨?_, hpost'⟩
    calc cost (finalState (f a s')) ≤ cost s' + l := hcost'
      _ ≤ cost s + k + l := Nat.add_le_add_right hcost _
      _ = cost s + (k + l) := Nat.add_assoc ..

theorem bounded_bind_free {f : α → EStateM ε σ β} (hm : Bounded cost 0 P m Q)
    (hf : ∀ a, Bounded cost k (Q a) (f a) R) : Bounded cost k P (m >>= f) R :=
  (bounded_bind hm hf).weaken (Nat.zero_add k).le

theorem bounded_ite {c : Prop} [Decidable c] {m' : EStateM ε σ α}
    (h : c → Bounded cost k P m Q) (h' : ¬ c → Bounded cost k P m' Q) :
    Bounded cost k P (if c then m else m') Q := by
  split_ifs with hc
  · exact h hc
  · exact h' hc

theorem bounded_get {Q : σ → σ → Prop} (h : ∀ s, P s → Q s s) : Bounded cost k P (get : EStateM ε σ σ) Q := by
  intro s hs
  refine ⟨Nat.le_add_right _ _, ?_⟩
  intro a s' hrun
  cases hrun
  exact h s hs

theorem bounded_modify {f : σ → σ} {Q : PUnit → σ → Prop}
    (hcost : ∀ s, P s → cost (f s) ≤ cost s + k) (h : ∀ s, P s → Q ⟨⟩ (f s)) :
    Bounded cost k P (modify f : EStateM ε σ PUnit) Q := by
  intro s hs
  refine ⟨hcost s hs, ?_⟩
  intro a s' hrun
  cases hrun
  exact h s hs

theorem bounded_set {t : σ} {Q : PUnit → σ → Prop} (hcost : ∀ s, P s → cost t ≤ cost s + k)
    (h : ∀ s, P s → Q ⟨⟩ t) : Bounded cost k P (set t : EStateM ε σ PUnit) Q := by
  intro s hs
  refine ⟨hcost s hs, ?_⟩
  intro a s' hrun
  cases hrun
  exact h s hs

end Rules

/-- Running a computation on a part of the state. -/
def lift (view : σ → τ) (put : τ → σ → σ) (m : EStateM ε τ α) : EStateM ε σ α := fun s =>
  match m (view s) with
  | .ok a t => .ok a (put t s)
  | .error e t => .error e (put t s)

/-- **What the cost does not read is free.** -/
theorem bounded_lift {cost : σ → Nat} {k : Nat} {view : σ → τ} {put : τ → σ → σ}
    {m : EStateM ε τ α} {P : σ → Prop} {Q : α → σ → Prop} (hcost : ∀ t s, cost (put t s) = cost s)
    (hpost : ∀ s, P s → ∀ a t, m (view s) = .ok a t → Q a (put t s)) :
    Bounded cost k P (lift view put m) Q := by
  intro s hs
  unfold lift
  have hreturn := hpost s hs
  generalize m (view s) = result at hreturn
  cases result with
  | error e t =>
    refine ⟨(hcost t s).le.trans (Nat.le_add_right _ _), ?_⟩
    intro a s' hrun
    cases hrun
  | ok a t =>
    refine ⟨(hcost t s).le.trans (Nat.le_add_right _ _), ?_⟩
    intro a' s' hrun
    cases hrun
    exact hreturn a t rfl

end CostLogic
