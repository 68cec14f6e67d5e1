import Mathlib.Logic.Basic
import Mathlib.Data.Finset.Basic

/-!
Programs over an interface of operations.

A `Prog Op ε α` calls operations `Op β`, may stop early with an error `ε`, and
otherwise returns an `α`. It fixes no meaning for the operations; a `Handler`
answers them over a state. Three kinds of facts are proved once here and used by
every program written this way:

* **composition**: how `run` goes through `bind` (`run_bind`, `run_bind_eq_ok`);
* **abstraction**: a handler whose answers are those of a simpler handler
  through a function `f` runs every program as the simpler one does
  (`run_abstracts`), so a layered store may be replaced by what it denotes;
* **relation**: two programs run from related states end alike
  (`Related.bind`), the rule for arguments that an outcome does not depend on
  some detail of the state.
-/

namespace OpProg

/-- A program over the operations `Op`: it returns, fails, or calls an operation
and continues with the answer. -/
inductive Prog (Op : Type → Type) (ε α : Type) : Type 1 where
  | ret (a : α)
  | fail (e : ε)
  | op {β : Type} (o : Op β) (k : β → Prog Op ε α)

namespace Prog

variable {Op : Type → Type} {ε α β γ σ τ : Type}

/-- Sequencing: the first failure ends the program. -/
def bind : Prog Op ε α → (α → Prog Op ε β) → Prog Op ε β
  | .ret a, f => f a
  | .fail e, _ => .fail e
  | .op o k, f => .op o fun b => (k b).bind f

instance : Monad (Prog Op ε) where
  pure := .ret
  bind := .bind

/-- One operation as a program. -/
def call (o : Op α) : Prog Op ε α := .op o .ret

/-- A computation that may fail but calls nothing. -/
def ofExcept : Except ε α → Prog Op ε α
  | .ok a => .ret a
  | .error e => .fail e

end Prog

/-- A handler answers each operation over a state. -/
structure Handler (Op : Type → Type) (σ : Type) where
  answer : {β : Type} → Op β → σ → β × σ

namespace Prog

variable {Op : Type → Type} {ε α β γ σ τ : Type} {h : Handler Op σ}

/-- Run a program on a state. The state reached is returned on failure too. -/
def run (h : Handler Op σ) : Prog Op ε α → σ → Except ε α × σ
  | .ret a, s => (.ok a, s)
  | .fail e, s => (.error e, s)
  | .op o k, s => (k (h.answer o s).1).run h (h.answer o s).2

@[simp] theorem run_ret (a : α) (s : σ) : (ret a : Prog Op ε α).run h s = (.ok a, s) := rfl

@[simp] theorem run_pure (a : α) (s : σ) : (pure a : Prog Op ε α).run h s = (.ok a, s) := rfl

@[simp] theorem run_fail (e : ε) (s : σ) : (fail e : Prog Op ε α).run h s = (.error e, s) := rfl

@[simp] theorem run_ofExcept (x : Except ε α) (s : σ) : (ofExcept x : Prog Op ε α).run h s = (x, s) := by
  cases x <;> rfl

/-- Running a sequence runs the first part and, if it returned, the second. -/
theorem run_bind (p : Prog Op ε α) (f : α → Prog Op ε β) (s : σ) :
    (p >>= f).run h s =
      match p.run h s with
      | (.ok a, s') => (f a).run h s'
      | (.error e, s') => (.error e, s') := by
  show (p.bind f).run h s = _
  induction p generalizing s with
  | ret a => rfl
  | fail e => rfl
  | op o k ih => exact ih _ _

theorem run_bind_of_ok {p : Prog Op ε α} {f : α → Prog Op ε β} {s s' : σ} {a : α}
    (hp : p.run h s = (.ok a, s')) : (p >>= f).run h s = (f a).run h s' := by
  rw [run_bind, hp]

theorem run_bind_eq_ok {p : Prog Op ε α} {f : α → Prog Op ε β} {s s'' : σ} {b : β} :
    (p >>= f).run h s = (.ok b, s'') ↔ ∃ a s', p.run h s = (.ok a, s') ∧ (f a).run h s' = (.ok b, s'') := by
  rw [run_bind]
  constructor
  · intro hrun
    match hp : p.run h s with
    | (.ok a, s') => exact ⟨a, s', rfl, by simpa [hp] using hrun⟩
    | (.error e, s') => simp [hp] at hrun
  · rintro ⟨a, s', hp, hf⟩
    simp [hp, hf]

theorem run_bind_eq_error {p : Prog Op ε α} {f : α → Prog Op ε β} {s s'' : σ} {e : ε} :
    (p >>= f).run h s = (.error e, s'') ↔ p.run h s = (.error e, s'') ∨
        ∃ a s', p.run h s = (.ok a, s') ∧ (f a).run h s' = (.error e, s'') := by
  rw [run_bind]
  constructor
  · intro hrun
    match hp : p.run h s with
    | (.ok a, s') => exact .inr ⟨a, s', rfl, by simpa [hp] using hrun⟩
    | (.error e', s') => exact .inl (by simpa [hp] using hrun)
  · rintro (hp | ⟨a, s', hp, hf⟩)
    · simp [hp]
    · simp [hp, hf]

end Prog

/-- `h` answers every operation as `h'` does on the image of its state under `f`. -/
def Handler.Abstracts {Op : Type → Type} {σ τ : Type} (h : Handler Op σ) (h' : Handler Op τ)
    (f : σ → τ) : Prop :=
  ∀ {β : Type} (o : Op β) (s : σ),
    (h.answer o s).1 = (h'.answer o (f s)).1 ∧ f (h.answer o s).2 = (h'.answer o (f s)).2

namespace Prog

variable {Op : Type → Type} {ε α β γ σ τ : Type} {h : Handler Op σ} {h' : Handler Op τ}
  {f : σ → τ}

/-- Every program runs on the concrete state as on its abstraction: same outcome,
and the abstraction of the state reached is the abstract state reached. -/
theorem run_abstracts (habs : h.Abstracts h' f) (p : Prog Op ε α) (s : σ) :
    (p.run h s).1 = (p.run h' (f s)).1 ∧ f (p.run h s).2 = (p.run h' (f s)).2 := by
  induction p generalizing s with
  | ret a => exact ⟨rfl, rfl⟩
  | fail e => exact ⟨rfl, rfl⟩
  | op o k ih =>
    obtain ⟨hval, hstate⟩ := habs o s
    obtain ⟨ih₁, ih₂⟩ := ih (h.answer o s).1 (h.answer o s).2
    simp only [run]
    rw [ih₁, ih₂, hstate, hval]
    exact ⟨rfl, rfl⟩

theorem run_to_abstract (habs : h.Abstracts h' f) {p : Prog Op ε α} {s s' : σ}
    {r : Except ε α} (hrun : p.run h s = (r, s')) : p.run h' (f s) = (r, f s') := by
  obtain ⟨hval, hstate⟩ := run_abstracts habs p s
  rw [hrun] at hval hstate
  exact Prod.ext hval.symm hstate.symm

end Prog

/-! ### Relation -/

def OutcomeRel {ε α α' : Type} (V : α → α' → Prop) : Except ε α → Except ε α' → Prop
  | .ok a, .ok b => V a b
  | .error e, .error e' => e = e'
  | _, _ => False

/-- `p` and `q`, run from states related by `R`, end alike: same error or values
related by `V`, in states related by `R`. -/
def Related {Op : Type → Type} {ε α α' σ τ : Type} (h : Handler Op σ) (h' : Handler Op τ)
    (R : σ → τ → Prop) (V : α → α' → Prop) (p : Prog Op ε α) (q : Prog Op ε α') : Prop :=
  ∀ s t, R s t → OutcomeRel V (p.run h s).1 (q.run h' t).1 ∧ R (p.run h s).2 (q.run h' t).2

namespace Related

variable {Op : Type → Type} {ε α α' β β' σ τ : Type} {h : Handler Op σ} {h' : Handler Op τ}
  {R : σ → τ → Prop}

theorem ret {V : α → α' → Prop} {a : α} {b : α'} (hv : V a b) :
    Related h h' R V (.ret a : Prog Op ε α) (.ret b) :=
  fun _ _ hr => ⟨hv, hr⟩

theorem fail {V : α → α' → Prop} (e : ε) : Related h h' R V (.fail e : Prog Op ε α) (.fail e) :=
  fun _ _ hr => ⟨rfl, hr⟩

/-- The rule of sequencing: related first parts and continuations related on
related values. -/
theorem bind {V : α → α' → Prop} {W : β → β' → Prop} {p : Prog Op ε α} {q : Prog Op ε α'}
    {f : α → Prog Op ε β} {g : α' → Prog Op ε β'} (hpq : Related h h' R V p q)
    (hfg : ∀ a b, V a b → Related h h' R W (f a) (g b)) : Related h h' R W (p >>= f) (q >>= g) := by
  intro s t hr
  obtain ⟨hout, hr'⟩ := hpq s t hr
  rw [Prog.run_bind, Prog.run_bind]
  match hp : p.run h s, hq : q.run h' t with
  | (.ok a, s'), (.ok b, t') =>
    rw [hp, hq] at hout hr'
    exact hfg a b hout s' t' hr'
  | (.error e, s'), (.error e', t') =>
    rw [hp, hq] at hout hr'
    exact ⟨hout, hr'⟩
  | (.ok a, s'), (.error e', t') => rw [hp, hq] at hout; exact hout.elim
  | (.error e, s'), (.ok b, t') => rw [hp, hq] at hout; exact hout.elim

theorem ofExcept (x : Except ε α) : Related h h' R Eq (Prog.ofExcept x : Prog Op ε α) (Prog.ofExcept x) := by
  cases x with
  | ok a => exact ret rfl
  | error e => exact fail e

theorem ite {V : α → α' → Prop} {c c' : Prop} [Decidable c] [Decidable c']
    {p p' : Prog Op ε α} {q q' : Prog Op ε α'} (hc : c ↔ c')
    (hthen : c → Related h h' R V p q) (helse : ¬ c → Related h h' R V p' q') :
    Related h h' R V (if c then p else p') (if c' then q else q') := by
  by_cases hcase : c
  · rw [if_pos hcase, if_pos (hc.mp hcase)]
    exact hthen hcase
  · rw [if_neg hcase, if_neg (fun h => hcase (hc.mpr h))]
    exact helse hcase

/-- Related programs that return: equal values when `V` is equality. -/
theorem ok {p q : Prog Op ε α} (hpq : Related h h' R Eq p q) {s s' : σ} {t : τ} {a : α}
    (hr : R s t) (hp : p.run h s = (.ok a, s')) : ∃ t', q.run h' t = (.ok a, t') ∧ R s' t' := by
  obtain ⟨hout, hr'⟩ := hpq s t hr
  rw [hp] at hout hr'
  match hq : q.run h' t with
  | (.ok b, t') =>
    rw [hq] at hout hr'
    obtain rfl : a = b := hout
    exact ⟨t', rfl, hr'⟩
  | (.error e, t') => rw [hq] at hout; exact hout.elim

end Related

end OpProg
