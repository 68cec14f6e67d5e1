import Mathlib.Data.List.Forall2
import Manna.EvalSafety
import Manna.Lib.GreedyMatch
import Manna.Solver

/-!
Runs of the interpreter on standard scripts (`script.cpp`: `EvalScript`).

`Runs` says that the interpreter executes what is left of a script. The runs of a script are put
together from those of its instructions.

* `evalInstruction_push`, `evalInstruction_small`, `evalInstruction_op`: one instruction;
* `evalScript_pushAll`: a script of pushes leaves its items;
* `evalOpcode_checkMultiSig`: a multisig takes the signatures greedily, from the last key on.
-/

namespace Manna

open StopLogic GreedyMatch

/-! ### One instruction -/

section Instruction

variable {env : ScriptEnv} {flags : ScriptFlags} {opcode : Nat} {vch : Valtype} {pc : CScript}
  {s s' : EvalState}

theorem checkSize_eq_ok (h : s.stack.length + s.altstack.length ≤ 1000) : checkSize s = .ok () s :=
  bind_ok rfl (skip_ok (Nat.not_lt.mpr h) rfl)

theorem countOps_eq_ok {n : Nat} (h : s.nOpCount + n ≤ 201) :
    countOps n s = .ok () { s with nOpCount := s.nOpCount + n } :=
  bind_ok rfl (bind_ok rfl (skip_ok (Nat.not_lt.mpr h) rfl))

theorem evalInstruction_eq_ok {s₁ : EvalState} (hlen : vch.length ≤ MAX_SCRIPT_ELEMENT_SIZE)
    (hcount : countOpcode opcode s = .ok () s₁) (henabled : (OpcodeType.ofCode opcode).isDisabled = false)
    (hrun : execInstruction env flags s.fExec opcode vch pc s₁ = .ok () s')
    (hsize : s'.stack.length + s'.altstack.length ≤ 1000) :
    evalInstruction env flags opcode vch pc s = .ok () s' := by
  refine bind_ok rfl (skip_ok (Nat.not_lt.mpr hlen) (bind_ok hcount ?_))
  refine skip_ok (Bool.eq_false_iff.mp henabled) (bind_ok hrun ?_)
  exact checkSize_eq_ok hsize

theorem ofCode_push (h : opcode ≤ OP_16) : OpcodeType.ofCode opcode = .OP_INVALIDOPCODE :=
  if_pos (Nat.lt_of_le_of_lt h (by decide))

theorem countOpcode_push (h : opcode ≤ OP_16) : countOpcode opcode s = .ok () s :=
  skip_ok (Nat.not_lt.mpr h) rfl

/-- **An instruction that pushes** pushes its operand. -/
theorem evalInstruction_push (hpush : opcode ≤ OP_PUSHDATA4)
    (hlen : vch.length ≤ MAX_SCRIPT_ELEMENT_SIZE) (hexec : s.fExec = true)
    (hsize : s.stack.length + 1 + s.altstack.length ≤ 1000) :
    evalInstruction env flags opcode vch pc s = .ok () { s with stack := vch :: s.stack } := by
  have hle : opcode ≤ OP_16 := hpush.trans (by decide)
  refine evalInstruction_eq_ok hlen (countOpcode_push hle) ?_ ?_ hsize
  · rw [ofCode_push hle]
    rfl
  · rw [execInstruction, hexec, if_pos ⟨rfl, hpush⟩]
    rfl

/-- **A small number** is pushed. -/
theorem evalInstruction_small (hlower : OP_1 ≤ opcode) (hupper : opcode ≤ OP_16)
    (hexec : s.fExec = true) (hsize : s.stack.length + 1 + s.altstack.length ≤ 1000) :
    evalInstruction env flags opcode [] pc s =
      .ok () { s with stack := bnGetVch ((opcode : Int) - (OP_1 - 1 : Nat)) :: s.stack } := by
  have hnotPush : ¬ (true = true ∧ opcode ≤ OP_PUSHDATA4) := fun h =>
    absurd (hlower.trans h.2) (by decide)
  refine evalInstruction_eq_ok (Nat.zero_le _) (countOpcode_push hupper) ?_ ?_ hsize
  · rw [ofCode_push hupper]
    rfl
  · rw [execInstruction, hexec, if_neg hnotPush, if_pos (.inl rfl), if_pos (.inr ⟨hlower, hupper⟩)]
    rfl

/-- **Another opcode** is counted and executed. -/
theorem evalInstruction_op (hop : OP_16 < opcode) (hcount : s.nOpCount + 1 ≤ 201)
    (henabled : (OpcodeType.ofCode opcode).isDisabled = false) (hexec : s.fExec = true)
    (hrun : evalOpcode env flags true pc (.ofCode opcode) { s with nOpCount := s.nOpCount + 1 } =
      .ok () s')
    (hsize : s'.stack.length + s'.altstack.length ≤ 1000) :
    evalInstruction env flags opcode [] pc s = .ok () s' := by
  have hnotPush : ¬ (true = true ∧ opcode ≤ OP_PUSHDATA4) := fun h =>
    absurd (hop.trans_le h.2) (by decide)
  have hnotSmall : ¬ (opcode = OP_1NEGATE ∨ (OP_1 ≤ opcode ∧ opcode ≤ OP_16)) := by
    rintro (rfl | ⟨-, h⟩)
    · exact absurd hop (by decide)
    · exact absurd hop (Nat.not_lt.mpr h)
  have hcounted : countOpcode opcode s = .ok () { s with nOpCount := s.nOpCount + 1 } := by
    rw [countOpcode, if_pos hop]
    exact countOps_eq_ok hcount
  refine evalInstruction_eq_ok (Nat.zero_le _) hcounted henabled ?_ hsize
  rw [execInstruction, hexec, if_neg hnotPush, if_pos (.inl rfl), if_neg hnotSmall]
  exact hrun

end Instruction

section Loop

variable {env : ScriptEnv} {flags : ScriptFlags}

/-- The interpreter executes a script to its end. -/
def Runs (env : ScriptEnv) (flags : ScriptFlags) (pc : CScript) (s s' : EvalState) : Prop :=
  ∃ opcodes, Rounds env flags pc s opcodes [] s'

theorem Runs.done (s : EvalState) : Runs env flags [] s s := ⟨[], .done⟩

theorem Runs.instruction {pc rest : CScript} {opcode : Nat} {vch : Valtype} {s s₁ s' : EvalState}
    (hop : getOp pc = some (opcode, vch, rest))
    (hrun : evalInstruction env flags opcode vch rest s = .ok () s₁) (h : Runs env flags rest s₁ s') :
    Runs env flags pc s s' := by
  obtain ⟨opcodes, hrounds⟩ := h
  exact ⟨opcode :: opcodes, .round hop hrun hrounds⟩

theorem Rounds.evalLoop_eq {pc : CScript} {s s' : EvalState} {opcodes : List Nat}
    (h : Rounds env flags pc s opcodes [] s') {fuel : Nat} (hfuel : pc.length ≤ fuel) :
    evalLoop env flags fuel pc s = .ok () s' := by
  generalize hend : ([] : CScript) = pc' at h
  induction h generalizing fuel with
  | done =>
    subst hend
    cases fuel with
    | zero => rfl
    | succ fuel => rfl
  | @round pc s opcode vchPushValue pc₁ s₁ opcodes pc₂ s₂ hop hrun _ ih =>
    have hlt := getOp_length_lt hop
    cases fuel with
    | zero => omega
    | succ fuel =>
      have hne : pc ≠ [] := by
        rintro rfl
        cases hop
      rw [evalLoop_succ fuel hne, hop]
      dsimp only
      rw [hrun]
      exact ih (by omega) hend

theorem opcode_le_of_getOp {pc rest : CScript} {opcode : Nat} {vch : Valtype}
    (h : getOp pc = some (opcode, vch, rest)) (hvch : vch ≠ []) : opcode ≤ OP_PUSHDATA4 := by
  by_contra hcode
  obtain ⟨_, _, -, -, -, -, hlone⟩ := getOp_cases h
  exact hvch (hlone (Nat.not_le.mp hcode)).2

/-- **What `<<` appends is read back**, by an instruction that pushes. -/
theorem getOp_pushData_le {vch : Valtype} (hlen : vch.length < 2 ^ 32) (rest : CScript) :
    ∃ opcode ≤ OP_PUSHDATA4, getOp (pushData vch ++ rest) = some (opcode, vch, rest) := by
  obtain ⟨opcode, hop⟩ := getOp_pushData hlen rest
  by_cases hvch : vch = []
  · subst hvch
    exact ⟨0, Nat.zero_le _, rfl⟩
  · exact ⟨opcode, opcode_le_of_getOp hop hvch, hop⟩

end Loop

/-! ### Scripts without branches -/

def running (script : CScript) (stack : List Valtype) (nOpCount nSigChecks : Nat) : EvalState :=
  ⟨⟨stack, []⟩, [], nOpCount, script, nSigChecks⟩

section Running

variable {env : ScriptEnv} {flags : ScriptFlags} {script pc rest : CScript} {opcode : Nat}
  {stack stack' : List Valtype} {n c n' c' : Nat} {s' : EvalState}

variable {vch : Valtype} {values : List Valtype}

theorem Runs.push (hop : getOp pc = some (opcode, vch, rest))
    (hpush : opcode ≤ OP_PUSHDATA4) (hlen : vch.length ≤ MAX_SCRIPT_ELEMENT_SIZE)
    (hsize : stack.length < 1000) (h : Runs env flags rest (running script (vch :: stack) n c) s') :
    Runs env flags pc (running script stack n c) s' :=
  .instruction hop (evalInstruction_push hpush hlen rfl hsize) h

theorem Runs.small (hop : getOp pc = some (opcode, [], rest)) (hlower : OP_1 ≤ opcode)
    (hupper : opcode ≤ OP_16) (hsize : stack.length < 1000) (h : Runs env flags rest
      (running script (bnGetVch ((opcode : Int) - (OP_1 - 1 : Nat)) :: stack) n c) s') :
    Runs env flags pc (running script stack n c) s' :=
  .instruction hop (evalInstruction_small hlower hupper rfl hsize) h

theorem Runs.op (hop : getOp pc = some (opcode, [], rest)) (hcode : OP_16 < opcode) (hn : n < 201)
    (henabled : (OpcodeType.ofCode opcode).isDisabled = false)
    (hrun : evalOpcode env flags true rest (.ofCode opcode) (running script stack (n + 1) c) =
      .ok () (running script stack' n' c'))
    (hsize : stack'.length ≤ 1000) (h : Runs env flags rest (running script stack' n' c') s') :
    Runs env flags pc (running script stack n c) s' :=
  .instruction hop (evalInstruction_op hcode hn henabled rfl hrun hsize) h

/-- **What `EvalScript` returns** for a script that is executed to its end. -/
theorem evalScript_of_runs (hlen : script.length ≤ 10000)
    (h : Runs env flags script (running script stack 0 0) (running script stack' n c)) :
    evalScript env flags script stack = ⟨true, stack', c⟩ := by
  obtain ⟨opcodes, hrounds⟩ := h
  have hloop := hrounds.evalLoop_eq (Nat.le_refl _)
  unfold running at hloop
  rw [evalScript, if_neg (Nat.not_lt.mpr hlen), hloop]
  rfl

/-- A script that pushes items. -/
def pushAll (values : List Valtype) : CScript := values.flatMap pushData

/-- **Pushes** leave the items on the stack. -/
theorem runs_pushAll (hlen : ∀ v ∈ values, v.length ≤ MAX_SCRIPT_ELEMENT_SIZE)
    (hsize : stack.length + values.length ≤ 1000)
    (h : Runs env flags rest (running script (values.reverse ++ stack) n c) s') :
    Runs env flags (pushAll values ++ rest) (running script stack n c) s' := by
  induction values generalizing stack with
  | nil => exact h
  | cons v values ih =>
    have hv := hlen v List.mem_cons_self
    obtain ⟨opcode, hcode, hop⟩ := getOp_pushData_le (Nat.lt_of_le_of_lt hv (by decide))
      (pushAll values ++ rest)
    rw [pushAll, List.flatMap_cons, List.append_assoc]
    rw [List.length_cons] at hsize
    refine Runs.push hop hcode hv (by omega) ?_
    apply ih fun v' hmem => hlen v' (List.mem_cons_of_mem v hmem)
    · rw [List.length_cons]
      omega
    · rw [List.reverse_cons, List.append_assoc] at h
      exact h

theorem length_pushData_le (vch : Valtype) : (pushData vch).length ≤ 5 + vch.length := by
  unfold pushData
  dsimp only
  split_ifs <;> simp only [List.length_cons, List.length_append, List.length_map, List.length_range]
  all_goals omega

theorem length_pushAll_le (hlen : ∀ v ∈ values, v.length ≤ MAX_SCRIPT_ELEMENT_SIZE) :
    (pushAll values).length ≤ values.length * (5 + MAX_SCRIPT_ELEMENT_SIZE) := by
  induction values with
  | nil => exact Nat.zero_le _
  | cons v values ih =>
    have hrest := ih fun v' hmem => hlen v' (List.mem_cons_of_mem v hmem)
    have hv := hlen v List.mem_cons_self
    have hpush := length_pushData_le v
    rw [pushAll] at hrest
    rw [pushAll, List.flatMap_cons, List.length_append, List.length_cons, Nat.succ_mul]
    omega

/-- **A script of pushes** leaves its items, the last on top. -/
theorem evalScript_pushAll
    (hlen : ∀ v ∈ values, v.length ≤ MAX_SCRIPT_ELEMENT_SIZE) (hcount : values.length ≤ 19) :
    evalScript env flags (pushAll values) [] = ⟨true, values.reverse, 0⟩ := by
  have hscript : (pushAll values).length ≤ 10000 :=
    (length_pushAll_le hlen).trans ((Nat.mul_le_mul_right _ hcount).trans (by decide))
  refine evalScript_of_runs (n := 0) hscript ?_
  have hrun : Runs env flags (pushAll values ++ []) (running (pushAll values) [] 0 0)
      (running (pushAll values) (values.reverse ++ []) 0 0) :=
    runs_pushAll hlen (by rw [List.length_nil]; omega) (Runs.done _)
  rwa [List.append_nil, List.append_nil] at hrun

/-- **An item that is too large** cannot be pushed. -/
theorem evalLoop_pushAll_large {fuel : Nat} {s s₁ : EvalState}
    (hlen : ∀ v ∈ values, v.length < 2 ^ 32) (hfuel : (pushAll values).length ≤ fuel)
    (hrun : evalLoop env flags fuel (pushAll values) s = .ok () s₁) :
    ∀ v ∈ values, v.length ≤ MAX_SCRIPT_ELEMENT_SIZE := by
  induction values generalizing fuel s with
  | nil => exact fun _ hmem => absurd hmem List.not_mem_nil
  | cons v values ih =>
    obtain ⟨opcode, hop⟩ := getOp_pushData (hlen v List.mem_cons_self) (pushAll values)
    have hlt := getOp_length_lt hop
    rw [pushAll, List.flatMap_cons] at hrun hfuel
    have hne : pushData v ++ pushAll values ≠ [] := by
      intro hnil
      rw [hnil] at hlt
      cases hlt
    cases fuel with
    | zero => exact absurd (Nat.lt_of_lt_of_le hlt hfuel) (Nat.not_lt_zero _)
    | succ fuel =>
      change evalLoop env flags (fuel + 1) (pushData v ++ pushAll values) s = _ at hrun
      rw [evalLoop_succ fuel hne, hop] at hrun
      dsimp only at hrun
      intro v' hmem
      rcases List.mem_cons.mp hmem with rfl | hmem
      · by_contra hlarge
        have hstop : evalInstruction env flags opcode v' (pushAll values) s =
            .error .returnFalse s := bind_ok rfl (stop_error (Nat.not_le.mp hlarge))
        rw [hstop] at hrun
        cases hrun
      · cases hfirst : evalInstruction env flags opcode v (pushAll values) s with
        | ok a s₂ =>
          rw [hfirst] at hrun
          refine ih (fun v' hv' => hlen v' (List.mem_cons_of_mem v hv')) ?_ hrun v' hmem
          exact Nat.le_of_lt_succ (Nat.lt_of_lt_of_le hlt hfuel)
        | error e s₂ =>
          rw [hfirst] at hrun
          cases hrun

theorem length_le_pushAll {v : Valtype} (hmem : v ∈ values) : v.length ≤ (pushAll values).length := by
  obtain ⟨l₁, l₂, rfl⟩ := List.append_of_mem hmem
  have hlen := length_le_pushData v
  rw [pushAll, List.flatMap_append, List.flatMap_cons, List.length_append, List.length_append]
  omega

/-- **A script that pushes what is too large** is not executed to its end. -/
theorem evalScript_pushAll_large {v : Valtype} (hmem : v ∈ values)
    (hlarge : MAX_SCRIPT_ELEMENT_SIZE < v.length) :
    (evalScript env flags (pushAll values) stack).ok = false := by
  unfold evalScript
  split_ifs with hscript
  · rfl
  · split
    · next s₁ hrun =>
      have hitems : ∀ v ∈ values, v.length < 2 ^ 32 := fun v hv =>
        Nat.lt_of_le_of_lt ((length_le_pushAll hv).trans (Nat.not_lt.mp hscript)) (by decide)
      have hsize := evalLoop_pushAll_large hitems (Nat.le_refl _) hrun v hmem
      exact absurd hsize (Nat.not_le.mpr hlarge)
    · rfl

/-- **A script of pushes** only pushes. -/
theorem isPushOnly_pushAll (hlen : ∀ v ∈ values, v.length < 2 ^ 32) : isPushOnly (pushAll values) = true := by
  have hloop : ∀ fuel, isPushOnlyLoop fuel (pushAll values) = true := by
    induction values with
    | nil =>
      intro fuel
      cases fuel with
      | zero => rfl
      | succ fuel => rfl
    | cons v values ih =>
      intro fuel
      obtain ⟨opcode, hcode, hop⟩ := getOp_pushData_le (hlen v List.mem_cons_self)
        (pushAll values)
      cases fuel with
      | zero => rfl
      | succ fuel =>
        rw [pushAll, List.flatMap_cons]
        change isPushOnlyLoop (fuel + 1) (pushData v ++ pushAll values) = true
        unfold isPushOnlyLoop
        cases hpc : pushData v ++ pushAll values with
        | nil => rfl
        | cons b pc =>
          rw [hpc] at hop
          dsimp only
          rw [hop]
          dsimp only
          rw [if_neg (Nat.not_lt.mpr (hcode.trans (by decide)))]
          exact ih (fun v' hv' => hlen v' (List.mem_cons_of_mem v hv')) fuel
  exact hloop _

theorem evalOpcode_dup :
    evalOpcode env flags true pc .OP_DUP (running script (vch :: stack) n c) =
      .ok () (running script (vch :: vch :: stack) n c) := rfl

theorem evalOpcode_hash160 :
    evalOpcode env flags true pc .OP_HASH160 (running script (vch :: stack) n c) =
      .ok () (running script (env.hash160 vch :: stack) n c) := rfl

theorem evalOpcode_equal : evalOpcode env flags true pc .OP_EQUAL (running script (vch :: vch :: stack) n c) =
      .ok () (running script (vchTrue :: stack) n c) := by
  have hresult : vchOf (decide (vch = vch)) = vchTrue := by
    rw [decide_eq_true rfl]
    rfl
  rw [← hresult]
  rfl

theorem evalOpcode_equalVerify :
    evalOpcode env flags true pc .OP_EQUALVERIFY (running script (vch :: vch :: stack) n c) =
      .ok () (running script stack n c) := by
  have hverify : ∀ fEqual, fEqual = true →
      onStacks (do
        popstack
        popstack
        pushstack (vchOf fEqual)
        verifyTop true fEqual) (running script (vch :: vch :: stack) n c) =
      .ok () (running script stack n c) := by
    rintro _ rfl
    rfl
  exact hverify _ (decide_eq_true rfl)

/-! ### Signatures -/

/-- Whether the interpreter accepts a signature for a key. -/
def ScriptEnv.accepts (env : ScriptEnv) (flags : ScriptFlags) (scriptCode : CScript)
    (vchSig vchPubKey : Valtype) : Bool :=
  (!flags.strictEnc || (isCanonicalSignature vchSig && isCanonicalPubKey vchPubKey)) &&
    env.checkSig vchSig vchPubKey scriptCode

theorem evalOpcode_checkSig {vchSig vchPubKey : Valtype} :
    evalOpcode env flags true pc .OP_CHECKSIG (running script (vchPubKey :: vchSig :: stack) n c) =
      .ok () (running script
        (vchOf (env.accepts flags (findAndDelete (pushData vchSig) script) vchSig vchPubKey) :: stack)
        n (c + 1)) := rfl

theorem stacktop_of_drop {t : Stacks} {i : Nat} {l : List Valtype}
    (h : t.stack.drop (i - 1) = vch :: l) : stacktop i t = .ok vch t := by
  refine bind_ok rfl ?_
  have hget : t.stack[i - 1]? = some vch := by
    rw [← List.head?_drop, h]
    rfl
  rw [hget]
  rfl

/-- **The loop over the keys** takes the signatures greedily. -/
theorem multiSigLoop_eq (env : ScriptEnv) (flags : ScriptFlags) (scriptCode : CScript)
    {sigs keys sigsBelow keysBelow : List Valtype} {isig ikey : Nat} {s : EvalState} (hisig : 1 ≤ isig) (hikey : 1 ≤ ikey)
    (hsigs : s.stack.drop (isig - 1) = sigs ++ sigsBelow)
    (hkeys : s.stack.drop (ikey - 1) = keys ++ keysBelow) :
    ∃ nSigChecks, multiSigLoop env flags scriptCode keys.length sigs.length isig ikey s =
      .ok (greedy (env.accepts flags scriptCode) sigs keys) { s with nSigChecks := nSigChecks } := by
  induction keys generalizing sigs isig ikey s with
  | nil =>
    cases sigs with
    | nil => exact ⟨s.nSigChecks, rfl⟩
    | cons vchSig sigs => exact ⟨s.nSigChecks, rfl⟩
  | cons vchPubKey keys ih =>
    cases sigs with
    | nil => exact ⟨s.nSigChecks, rfl⟩
    | cons vchSig sigs =>
      have hkeysNext : s.stack.drop (ikey + 1 - 1) = keys ++ keysBelow := by
        rw [show ikey + 1 - 1 = (ikey - 1) + 1 by omega, ← List.drop_drop, hkeys]
        rfl
      have hsigsNext : s.stack.drop (isig + 1 - 1) = sigs ++ sigsBelow := by
        rw [show isig + 1 - 1 = (isig - 1) + 1 by omega, ← List.drop_drop, hsigs]
        rfl
      have hsig : onStacks (stacktop isig) s = .ok vchSig s := lift_ok (stacktop_of_drop hsigs)
      have hkey : onStacks (stacktop ikey) s = .ok vchPubKey s := lift_ok (stacktop_of_drop hkeys)
      have hcheck : checkSignature env flags vchSig vchPubKey scriptCode s =
          .ok (env.accepts flags scriptCode vchSig vchPubKey)
            { s with nSigChecks := s.nSigChecks + 1 } := rfl
      have hloop : ∀ sigs' {nSigsLeft isig'}, List.length sigs' = nSigsLeft → 1 ≤ isig' →
          s.stack.drop (isig' - 1) = sigs' ++ sigsBelow →
          ∃ nSigChecks, (if nSigsLeft > keys.length then pure false
            else multiSigLoop env flags scriptCode keys.length nSigsLeft isig' (ikey + 1) :
              EvalM Bool) { s with nSigChecks := s.nSigChecks + 1 } =
            .ok (greedy (env.accepts flags scriptCode) sigs' keys)
              { s with nSigChecks := nSigChecks } := by
        rintro sigs' _ isig' rfl hisig' hsigs'
        split_ifs with hmany
        · rw [greedy_of_length_lt hmany]
          exact ⟨s.nSigChecks + 1, rfl⟩
        · exact ih (s := { s with nSigChecks := s.nSigChecks + 1 }) hisig' (by omega) hsigs'
            hkeysNext
      cases hok : env.accepts flags scriptCode vchSig vchPubKey with
      | true =>
        obtain ⟨nSigChecks, hrun⟩ := hloop sigs rfl (by omega) hsigsNext
        refine ⟨nSigChecks, bind_ok hsig (bind_ok hkey (bind_ok hcheck ?_))⟩
        rw [hok, greedy, if_pos hok]
        exact hrun
      | false =>
        obtain ⟨nSigChecks, hrun⟩ := hloop (vchSig :: sigs) rfl hisig hsigs
        refine ⟨nSigChecks, bind_ok hsig (bind_ok hkey (bind_ok hcheck ?_))⟩
        rw [hok, greedy, if_neg (Bool.eq_false_iff.mp hok)]
        exact hrun

/-- **No signature is dropped** from a script that has none. -/
theorem dropSignatures_eq {scriptCode : CScript} {sigs below : List Valtype} {isig : Nat}
    {t : Stacks} (hisig : 1 ≤ isig) (hsigs : t.stack.drop (isig - 1) = sigs ++ below)
    (hscript : ∀ vchSig ∈ sigs, findAndDelete (pushData vchSig) scriptCode = scriptCode) :
    dropSignatures sigs.length isig scriptCode t = .ok scriptCode t := by
  induction sigs generalizing isig with
  | nil => rfl
  | cons vchSig sigs ih =>
    refine bind_ok (stacktop_of_drop hsigs) ?_
    rw [hscript vchSig List.mem_cons_self]
    apply ih (by omega)
    · rw [show isig + 1 - 1 = (isig - 1) + 1 by omega, ← List.drop_drop, hsigs]
      rfl
    · exact fun v hmem => hscript v (List.mem_cons_of_mem _ hmem)

theorem popMany_eq {l below : List Valtype} {altstack : List Valtype} :
    popMany l.length ⟨l ++ below, altstack⟩ = .ok () ⟨below, altstack⟩ := by
  induction l with
  | nil => rfl
  | cons v l ih => exact bind_ok rfl ih

theorem readCount_push {i count : Nat} {t : Stacks} {l : List Valtype} (hcount : count ≤ 20)
    (h : t.stack.drop (i - 1) = bnGetVch count :: l) : readCount i t = .ok (count : Int) t := by
  have hread : ∀ count : Fin 21, (bnGetVch (count : Nat)).length ≤ nMaxNumSize ∧
      bnGetInt (bnSetVch (bnGetVch (bnSetVch (bnGetVch (count : Nat))))) = (count : Nat) := by
    decide
  obtain ⟨hlen, hvalue⟩ := hread ⟨count, Nat.lt_succ_of_le hcount⟩
  refine bind_ok (stacktop_of_drop h) (bind_ok (skip_ok (Nat.not_lt.mpr hlen) rfl) ?_)
  exact congrArg (EStateM.Result.ok · t) hvalue

/-- The stack of a multisig: the keys and their number, below them the signatures and theirs, and
the item that is popped too. -/
def multiSigStack (sigs keys : List Valtype) (dummy : Valtype) (stack : List Valtype) :
    List Valtype :=
  bnGetVch keys.length :: (keys ++ bnGetVch sigs.length :: (sigs ++ dummy :: stack))

theorem multiSigCounts_eq {sigs keys : List Valtype} {dummy : Valtype} (hkeys : keys.length ≤ 20)
    (hsigs : sigs.length ≤ keys.length) (hn : n + keys.length ≤ 201) :
    multiSigCounts (running script (multiSigStack sigs keys dummy stack) n c) = .ok (keys.length, sigs.length)
        (running script (multiSigStack sigs keys dummy stack) (n + keys.length) c) := by
  have hneeds : ∀ k n, k ≤ 3 + keys.length + sigs.length →
      onStacks (needs k) (running script (multiSigStack sigs keys dummy stack) n c) =
        .ok () (running script (multiSigStack sigs keys dummy stack) n c) := by
    intro k n hk
    refine lift_ok (bind_ok rfl (skip_ok ?_ rfl))
    simp only [running, multiSigStack, List.length_cons, List.length_append]
    omega
  have hcountKeys : onStacks (readCount 1)
      (running script (multiSigStack sigs keys dummy stack) n c) =
        .ok (keys.length : Int) (running script (multiSigStack sigs keys dummy stack) n c) :=
    lift_ok (readCount_push hkeys rfl)
  have hcountSigs : onStacks (readCount (2 + keys.length))
      (running script (multiSigStack sigs keys dummy stack) (n + keys.length) c) =
        .ok (sigs.length : Int)
          (running script (multiSigStack sigs keys dummy stack) (n + keys.length) c) := by
    refine lift_ok (readCount_push (l := sigs ++ dummy :: stack) (by omega) ?_)
    change (bnGetVch keys.length :: (keys ++ _)).drop (2 + keys.length - 1) = _
    rw [show 2 + keys.length - 1 = keys.length + 1 by omega, List.drop_succ_cons, List.drop_left]
  refine bind_ok (hneeds 1 n (by omega)) (bind_ok hcountKeys (skip_ok (by omega) ?_))
  rw [Int.toNat_natCast]
  refine bind_ok (countOps_eq_ok hn) (bind_ok (hneeds _ _ (by omega)) (bind_ok hcountSigs ?_))
  refine skip_ok (by omega) ?_
  rw [Int.toNat_natCast]
  exact bind_ok (hneeds _ _ (by omega)) rfl

/-- **`OP_CHECKMULTISIG`** matches the signatures to the keys, both from the last one on. -/
theorem evalOpcode_checkMultiSig (env : ScriptEnv) (flags : ScriptFlags) (pc : CScript)
    {sigs keys : List Valtype} (dummy : Valtype) (stack : List Valtype) (n c : Nat) (hkeys : keys.length ≤ 20) (hsigs : sigs.length ≤ keys.length) (hn : n + keys.length ≤ 201)
    (hscript : ∀ vchSig ∈ sigs, findAndDelete (pushData vchSig) script = script) :
    ∃ nSigChecks, evalOpcode env flags true pc .OP_CHECKMULTISIG
        (running script (multiSigStack sigs keys dummy stack) n c) =
      .ok () (running script (vchOf (greedy (env.accepts flags script) sigs keys) :: stack)
        (n + keys.length) nSigChecks) := by
  have hdropKeys : (multiSigStack sigs keys dummy stack).drop (2 - 1) =
      keys ++ bnGetVch sigs.length :: (sigs ++ dummy :: stack) := rfl
  have hdropSigs : (multiSigStack sigs keys dummy stack).drop (3 + keys.length - 1) =
      sigs ++ dummy :: stack := by
    rw [show 3 + keys.length - 1 = 1 + (keys.length + 1) by omega, ← List.drop_drop]
    change (keys ++ bnGetVch sigs.length :: (sigs ++ dummy :: stack)).drop (keys.length + 1) = _
    rw [← List.drop_drop, List.drop_left]
    rfl
  have hall : multiSigStack sigs keys dummy stack =
      (bnGetVch keys.length :: (keys ++ bnGetVch sigs.length :: (sigs ++ [dummy]))) ++ stack := by
    simp only [multiSigStack, List.cons_append, List.append_assoc, List.nil_append]
  have hlen : (bnGetVch keys.length :: (keys ++ bnGetVch sigs.length :: (sigs ++ [dummy]))).length =
      3 + keys.length + sigs.length := by
    simp only [List.length_cons, List.length_append, List.length_nil]
    omega
  obtain ⟨nSigChecks, hloop⟩ := multiSigLoop_eq env flags script
    (s := running script (multiSigStack sigs keys dummy stack) (n + keys.length) c)
    (show 1 ≤ 3 + keys.length by omega) (show 1 ≤ 2 by decide) hdropSigs hdropKeys
  refine ⟨nSigChecks, ?_⟩
  refine bind_ok (multiSigCounts_eq hkeys hsigs hn) (bind_ok rfl ?_)
  refine bind_ok (lift_ok (dropSignatures_eq (by omega) hdropSigs hscript)) (bind_ok hloop ?_)
  have hpop : popMany (3 + keys.length + sigs.length)
      ⟨multiSigStack sigs keys dummy stack, []⟩ = .ok () ⟨stack, []⟩ := by
    rw [hall, ← hlen]
    exact popMany_eq
  have hresult : pushResult (3 + keys.length + sigs.length) false
      (greedy (env.accepts flags script) sigs keys) ⟨multiSigStack sigs keys dummy stack, []⟩ =
        .ok () ⟨vchOf (greedy (env.accepts flags script) sigs keys) :: stack, []⟩ :=
    bind_ok hpop rfl
  exact lift_ok hresult

end Running

end Manna
