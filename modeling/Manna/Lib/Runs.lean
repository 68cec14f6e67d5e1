import Mathlib.Logic.Basic

/-!
Runs of calls that may fail.

`EachCall step P s calls` says that `P` holds of every call of a run, in the state in which it is made. Under
an invariant of the calls two conditions that agree on single calls agree on runs (`eachCall_congr`).
-/

namespace Runs

variable {σ Call ε : Type} {step : σ → Call → Except ε σ} {P Q : σ → Call → Prop} {I : σ → Prop} {s : σ}
  {calls : List Call}

/-- `P` of each call of a run, in the state in which it is made. -/
def EachCall (step : σ → Call → Except ε σ) (P : σ → Call → Prop) : σ → List Call → Prop
  | _, [] => True
  | s, call :: calls => P s call ∧ ∀ s', step s call = .ok s' → EachCall step P s' calls

theorem foldlM_invariant (kept : ∀ s call s', I s → step s call = .ok s' → I s') (hs : I s)
    {s' : σ} (run : calls.foldlM step s = .ok s') : I s' := by
  induction calls generalizing s with
  | nil =>
    obtain rfl : s = s' := Except.ok.inj run
    exact hs
  | cons call calls ih =>
    rw [List.foldlM_cons] at run
    cases hstep : step s call with
    | error e => rw [hstep] at run; cases run
    | ok s₁ =>
      rw [hstep] at run
      exact ih (kept s call s₁ hs hstep) run

/-- **Under an invariant, what single calls give is what runs give.** -/
theorem EachCall.imp (kept : ∀ s call s', I s → P s call → step s call = .ok s' → I s')
    (gives : ∀ s call, I s → P s call → Q s call) (hs : I s) (h : EachCall step P s calls) :
    EachCall step Q s calls := by
  induction calls generalizing s with
  | nil => trivial
  | cons call calls ih =>
    refine ⟨gives s call hs h.1, fun s' hstep => ?_⟩
    exact ih (kept s call s' hs h.1 hstep) (h.2 s' hstep)

/-- **Conditions that agree on single calls agree on runs.** -/
theorem eachCall_congr (kept : ∀ s call s', I s → step s call = .ok s' → I s')
    (agree : ∀ s call, I s → (P s call ↔ Q s call)) (hs : I s) :
    EachCall step P s calls ↔ EachCall step Q s calls :=
  ⟨EachCall.imp (fun s call s' hs _ => kept s call s' hs) (fun s call hs => (agree s call hs).mp) hs,
    EachCall.imp (fun s call s' hs _ => kept s call s' hs) (fun s call hs => (agree s call hs).mpr) hs⟩

/-- A part of the state that goes its own way through the calls may stand for the state in a condition. -/
theorem EachCall.lift {τ ε' : Type} {stepτ : τ → Call → Except ε' τ} {R : τ → Call → Prop} (part : σ → τ)
    (agree : ∀ s call s', step s call = .ok s' → stepτ (part s) call = .ok (part s'))
    (h : EachCall stepτ R (part s) calls) : EachCall step (fun s call => R (part s) call) s calls := by
  induction calls generalizing s with
  | nil => trivial
  | cons call calls ih => exact ⟨h.1, fun s' hstep => ih (h.2 (part s') (agree s call s' hstep))⟩

end Runs
