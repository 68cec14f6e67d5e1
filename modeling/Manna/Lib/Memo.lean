import Mathlib.Logic.Function.Basic
import Mathlib.Tactic.SplitIfs

/-!
Tables of values that were computed before.

What is computed may fail, and may depend on a state that changes. A table is good for a computation
if what it has for a key is what is computed for it.
-/

namespace Memo

variable {κ α : Type} {compute compute' table : κ → Option α}

/-- **A table that is good for a computation.** -/
def Valid (compute table : κ → Option α) : Prop := ∀ ⦃k a⦄, table k = some a → compute k = some a

theorem valid_empty : Valid compute fun _ => none := fun _ _ h => nomatch h

theorem Valid.congr (h : Valid compute table)
    (hsame : ∀ k, table k ≠ none → compute' k = compute k) : Valid compute' table := by
  intro k a hk
  rw [hsame k (by rw [hk]; exact Option.some_ne_none a)]
  exact h hk

theorem Valid.mono (h : Valid compute table) {table' : κ → Option α}
    (hless : ∀ k, table' k = none ∨ table' k = table k) : Valid compute table' := by
  intro k a hk
  rcases hless k with hnone | hsame
  · cases hnone.symm.trans hk
  · exact h (hsame.symm.trans hk)

theorem Valid.update [DecidableEq κ] (h : Valid compute table) {k : κ} {a : α}
    (hk : compute k = some a) : Valid compute (Function.update table k (some a)) := by
  intro k' a' hk'
  rw [Function.update_apply] at hk'
  split_ifs at hk' with heq
  · rw [heq, hk, hk']
  · exact h hk'

end Memo
