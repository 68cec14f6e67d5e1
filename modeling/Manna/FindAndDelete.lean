import Manna.EvalScript

/-!
What `FindAndDelete` leaves alone (`script.h`: `CScript::FindAndDelete`).

`Boundary script pc` says that an instruction of the script can start at `pc`, or that the script
ends there. Where none of these places starts with the bytes to delete, nothing is deleted.

* `getOp_suffix`: what follows an instruction is an end of the script;
* `findAndDelete_eq_self`: nothing to delete.
-/

namespace Manna

theorem getOp_suffix {pc rest : CScript} {opcode : Nat} {vch : List UInt8}
    (h : getOp pc = some (opcode, vch, rest)) : rest <:+ pc := by
  obtain ⟨byte, size, rfl, -⟩ := getOp_cases h
  exact ⟨byte :: (size ++ vch), by simp⟩

/-- **A place where an instruction of a script can start**, or the script ends. -/
inductive Boundary (script : CScript) : CScript → Prop
  | start : Boundary script script
  | next {pc rest opcode vch} : Boundary script pc → getOp pc = some (opcode, vch, rest) →
      Boundary script rest

theorem Boundary.of_next {script pc rest : CScript} {opcode : Nat} {vch : List UInt8}
    (hop : getOp script = some (opcode, vch, rest)) (h : Boundary rest pc) : Boundary script pc := by
  induction h with
  | start => exact .next .start hop
  | next _ hop' ih => exact .next ih hop'

theorem findAndDeleteLoop_eq_self {b : CScript} (fuel : Nat) {pc : CScript}
    (h : ∀ rest, Boundary pc rest → ¬ b <+: rest) : findAndDeleteLoop b fuel pc = pc := by
  induction fuel generalizing pc with
  | zero => rfl
  | succ fuel ih =>
    have hstart : b.isPrefixOf pc = false := by
      rw [← Bool.not_eq_true, List.isPrefixOf_iff_prefix]
      exact h pc .start
    rw [findAndDeleteLoop, hstart, if_neg Bool.false_ne_true]
    cases hop : getOp pc with
    | none => rfl
    | some out =>
      obtain ⟨opcode, vch, rest⟩ := out
      dsimp only
      rw [ih fun rest' hrest => h rest' (hrest.of_next hop)]
      obtain ⟨read, rfl⟩ := getOp_suffix hop
      rw [List.length_append, Nat.add_sub_cancel, List.take_left]

/-- **Nothing is deleted** where the bytes start no instruction. -/
theorem findAndDelete_eq_self {b script : CScript}
    (h : ∀ rest, Boundary script rest → ¬ b <+: rest) : findAndDelete b script = script := by
  unfold findAndDelete
  split
  · rfl
  · exact findAndDeleteLoop_eq_self _ h

end Manna
