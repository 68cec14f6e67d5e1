import Manna.Lib.CostLogic

/-!
Triples with an exit condition, for computations that may stop.

`Safe E P m Q` says that from a state in `P` the computation `m` of `EStateM ε σ` stops for a reason
in `E` only, and that what it returns is in `Q`. What is proved with an `E` that leaves a reason out
is that the computation never stops for this reason.

* `safe_pure`, `safe_throw`, `safe_bind`, `safe_ite`, `safe_get`, `safe_set`, `safe_modify`: the
  rules of the constructs;
* `Safe.mono`, `Safe.ok`, `Safe.stop`: weaker results, and how a triple is read;
* `safe_lift`: a computation on a part of the state keeps what the rest says;
* `bind_ok`, `skip_ok`, `lift_ok`: runs that return, put together from their parts.
-/

namespace StopLogic

variable {ε σ τ α β : Type}

/-- **A triple with an exit condition.** -/
def Safe (E : ε → Prop) (P : σ → Prop) (m : EStateM ε σ α) (Q : α → σ → Prop) : Prop :=
  ∀ s, P s → match m s with
    | .ok a s' => Q a s'
    | .error e _ => E e

theorem bind_apply (m : EStateM ε σ α) (f : α → EStateM ε σ β) (s : σ) :
    (m >>= f) s = match m s with
      | .ok a s' => f a s'
      | .error e s' => .error e s' := rfl

section Returns

variable {m : EStateM ε σ α} {s s₁ : σ} {a : α}

theorem bind_ok {f : α → EStateM ε σ β} {r : EStateM.Result ε σ β} (hm : m s = .ok a s₁)
    (hf : f a s₁ = r) : (m >>= f) s = r := by
  rw [bind_apply, hm]
  exact hf

theorem skip_ok {c : Prop} [Decidable c] {m' : EStateM ε σ α} {r : EStateM.Result ε σ α} (hc : ¬ c)
    (h : m' s = r) : (if c then m else m') s = r := by
  rw [if_neg hc]
  exact h

theorem stop_error {c : Prop} [Decidable c] {m' : EStateM ε σ α} {e : ε} (hc : c) :
    (if c then throw e else m') s = .error e s := by
  rw [if_pos hc]
  rfl

theorem lift_ok {view : σ → τ} {put : τ → σ → σ} {m : EStateM ε τ α} {t : τ}
    (h : m (view s) = .ok a t) : CostLogic.lift view put m s = .ok a (put t s) := by
  rw [CostLogic.lift, h]

end Returns

/-! ### Rules -/

section Rules

variable {E : ε → Prop} {P P' : σ → Prop} {Q Q' : α → σ → Prop} {R : β → σ → Prop}
  {m : EStateM ε σ α}

theorem Safe.ok (h : Safe E P m Q) {s s' : σ} {a : α} (hs : P s) (hrun : m s = .ok a s') : Q a s' := by
  have hsafe := h s hs
  rwa [hrun] at hsafe

theorem Safe.stop (h : Safe E P m Q) {s s' : σ} {e : ε} (hs : P s) (hrun : m s = .error e s') : E e := by
  have hsafe := h s hs
  rwa [hrun] at hsafe

theorem Safe.mono (h : Safe E P m Q) (hP : ∀ s, P' s → P s) (hQ : ∀ a s, Q a s → Q' a s) :
    Safe E P' m Q' := by
  intro s hs
  have hsafe := h s (hP s hs)
  cases hrun : m s with
  | ok a s' =>
    rw [hrun] at hsafe
    exact hQ a s' hsafe
  | error e s' =>
    rw [hrun] at hsafe
    exact hsafe

theorem Safe.pre (h : Safe E P m Q) (hP : ∀ s, P' s → P s) : Safe E P' m Q :=
  h.mono hP fun _ _ => id

theorem safe_of_pre {p : Prop} (hP : ∀ s, P s → p) (h : p → Safe E P m Q) : Safe E P m Q :=
  fun s hs => h (hP s hs) s hs

theorem safe_pure {a : α} (h : ∀ s, P s → Q a s) : Safe E P (pure a : EStateM ε σ α) Q := h

theorem safe_throw {e : ε} (h : E e) : Safe E P (throw e : EStateM ε σ α) Q := fun _ _ => h

theorem safe_bind {f : α → EStateM ε σ β} (hm : Safe E P m Q) (hf : ∀ a, Safe E (Q a) (f a) R) :
    Safe E P (m >>= f) R := by
  intro s hs
  have hsafe := hm s hs
  rw [bind_apply]
  cases hrun : m s with
  | ok a s' =>
    rw [hrun] at hsafe
    exact hf a s' hsafe
  | error e s' =>
    rw [hrun] at hsafe
    exact hsafe

theorem safe_ite {c : Prop} [Decidable c] {m' : EStateM ε σ α} (h : c → Safe E P m Q)
    (h' : ¬ c → Safe E P m' Q) : Safe E P (if c then m else m') Q := by
  split_ifs with hc
  · exact h hc
  · exact h' hc

theorem safe_get : Safe E P (get : EStateM ε σ σ) fun s s' => s' = s ∧ P s' :=
  fun _ hs => ⟨rfl, hs⟩

theorem safe_set {t : σ} {Q : PUnit → σ → Prop} (h : ∀ s, P s → Q ⟨⟩ t) :
    Safe E P (set t : EStateM ε σ PUnit) Q := h

theorem safe_modify {f : σ → σ} {Q : PUnit → σ → Prop} (h : ∀ s, P s → Q ⟨⟩ (f s)) :
    Safe E P (modify f : EStateM ε σ PUnit) Q := h

end Rules

/-- **What the rest of the state says is kept** by a computation on a part of it. -/
theorem safe_lift {E : ε → Prop} {view : σ → τ} {put : τ → σ → σ} {m : EStateM ε τ α}
    {P : τ → Prop} {Q : α → τ → Prop} {R : σ → Prop} (hview : ∀ t s, view (put t s) = t)
    (hrest : ∀ t s, R s → R (put t s)) (h : Safe E P m Q) :
    Safe E (fun s => P (view s) ∧ R s) (CostLogic.lift view put m) fun a s => Q a (view s) ∧ R s := by
  intro s hs
  have hsafe := h (view s) hs.1
  unfold CostLogic.lift
  cases hrun : m (view s) with
  | ok a t =>
    rw [hrun] at hsafe
    refine ⟨?_, hrest t s hs.2⟩
    rw [hview]
    exact hsafe
  | error e t =>
    rw [hrun] at hsafe
    exact hsafe

end StopLogic
