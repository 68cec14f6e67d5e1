import Mathlib.Tactic.IntervalCases
import Manna.ConnectBlock
import Manna.EvalScript

/-!
The cost of signature checks (`script.cpp`: `GetSigOpCount`, `VerifyScript`; `main.cpp`:
`ConnectBlock`).

`GetSigOpCount` reads a script from left to right and takes the number of keys of a multisig from
the instruction before it, or as 20. The interpreter takes it from the stack. The invariant that
connects them (`Declares`): where the last instruction was a small number and is executed, the
number is on top of the stack.

* `bounded_evalInstruction`, `bounded_evalLoop`: an instruction, and then a script, examines at
  most as many signatures as are counted for it;
* `verifyScript_nSigChecks_le`: the bound for an input, with the script that is paid to by hash;
* `reachedChecks_le`: what a block can force.
-/

namespace Manna

open CostLogic OpProg

section Steps

variable {P : EvalState → Prop}

theorem bounded_onStacks {α : Type} {m : StackM α} {Q : α → EvalState → Prop}
    (hpost : ∀ s, P s → ∀ a t, m s.toStacks = .ok a t → Q a { s with toStacks := t }) :
    Bounded EvalState.nSigChecks 0 P (onStacks m) Q :=
  bounded_lift (fun _ _ => rfl) hpost

theorem free_onStacks {α : Type} (m : StackM α) :
    Bounded EvalState.nSigChecks 0 P (onStacks m) fun _ _ => True :=
  bounded_onStacks fun _ _ _ _ _ => trivial

theorem bounded_countOps {n : Nat} {Q : EvalState → Prop}
    (h : ∀ s, P s → Q { s with nOpCount := s.nOpCount + n }) :
    Bounded EvalState.nSigChecks 0 P (countOps n) fun _ => Q := by
  refine bounded_bind_free (Q := fun _ => Q) (bounded_modify (fun _ _ => Nat.le_refl _) h)
    fun _ => ?_
  refine bounded_bind_free (bounded_get (Q := fun _ => Q) fun _ => id) fun s => ?_
  exact bounded_ite (fun _ => bounded_throw) fun _ => bounded_pure fun _ => id

theorem bounded_checkSize : Bounded EvalState.nSigChecks 0 P checkSize fun _ => P := by
  refine bounded_bind_free (bounded_get (Q := fun _ => P) fun _ => id) fun s => ?_
  exact bounded_ite (fun _ => bounded_throw) fun _ => bounded_pure fun _ => id

theorem bounded_checkSignature (env : ScriptEnv) (flags : ScriptFlags) (vchSig vchPubKey : Valtype)
    (scriptCode : CScript) :
    Bounded EvalState.nSigChecks 1 P (checkSignature env flags vchSig vchPubKey scriptCode)
      fun _ _ => True := by
  refine (bounded_bind (l := 0) (Q := fun _ _ => True)
    (bounded_modify (fun _ _ => Nat.le_refl _) fun _ _ => trivial) fun _ => ?_)
  exact bounded_pure fun _ _ => trivial

theorem bounded_evalIf (fNot fExec : Bool) :
    Bounded EvalState.nSigChecks 0 P (evalIf fNot fExec) fun _ _ => True := by
  refine bounded_bind_free (free_onStacks _) fun fValue => ?_
  exact bounded_modify (fun _ _ => Nat.le_refl _) fun _ _ => trivial

/-- `OP_ELSE` and `OP_ENDIF` change the innermost branch only. -/
theorem bounded_setBranch (next : Bool → List Bool → List Bool) : Bounded EvalState.nSigChecks 0 P
    ((do
      let s ← get
      match s.vfExec with
      | [] => throw .returnFalse
      | fValue :: vfExec => set { s with vfExec := next fValue vfExec }) : EvalM Unit) fun _ _ => True := by
  refine bounded_bind_free (bounded_get (Q := fun s s' => s' = s) fun _ _ => rfl) fun s => ?_
  split
  · exact bounded_throw
  · exact bounded_set (by rintro _ rfl; exact Nat.le_refl _) fun _ _ => trivial

end Steps

/-! ### Opcodes that check signatures -/

theorem bounded_evalCheckSig {P : EvalState → Prop} (env : ScriptEnv) (flags : ScriptFlags) (fVerify : Bool) :
    Bounded EvalState.nSigChecks 1 P (evalCheckSig env flags fVerify) fun _ _ => True := by
  refine bounded_bind_free (free_onStacks _) fun _ => ?_
  refine bounded_bind_free (free_onStacks _) fun vchSig => ?_
  refine bounded_bind_free (free_onStacks _) fun vchPubKey => ?_
  refine bounded_bind_free (bounded_get (Q := fun _ _ => True) fun _ _ => trivial) fun s => ?_
  refine bounded_bind (k := 1) (l := 0) (bounded_checkSignature _ _ _ _ _) fun fSuccess => ?_
  exact free_onStacks _

/-- **The loop examines a signature for each key at most.** -/
theorem bounded_multiSigLoop (env : ScriptEnv) (flags : ScriptFlags) (scriptCode : CScript)
    (nKeysCount nSigsCount isig ikey : Nat) : Bounded EvalState.nSigChecks nKeysCount (fun _ => True)
      (multiSigLoop env flags scriptCode nKeysCount nSigsCount isig ikey) fun _ _ => True := by
  induction nKeysCount generalizing nSigsCount isig ikey with
  | zero =>
    cases nSigsCount with
    | zero => exact bounded_pure fun _ _ => trivial
    | succ nSigsCount => exact bounded_pure fun _ _ => trivial
  | succ nKeysCount ih =>
    cases nSigsCount with
    | zero => exact bounded_pure fun _ _ => trivial
    | succ nSigsCount =>
      refine bounded_bind_free (free_onStacks _) fun vchSig => ?_
      refine bounded_bind_free (free_onStacks _) fun vchPubKey => ?_
      refine (bounded_bind (bounded_checkSignature _ _ _ _ _) (l := nKeysCount)
        fun fOk => ?_).weaken (Nat.add_comm 1 nKeysCount).le
      exact bounded_ite (fun _ => bounded_pure fun _ _ => trivial) fun _ => ih _ _ _

theorem readCount_eq {n : Nat} (hlower : 1 ≤ n) (hupper : n ≤ 16) :
    bnGetInt (bnSetVch (bnGetVch (bnSetVch (bnGetVch n)))) = n := by
  interval_cases n <;> decide

theorem get_run (s : Stacks) : (get : StackM Stacks) s = .ok s s := rfl

theorem needs_ok {n : Nat} {s t : Stacks} {a : Unit} (h : needs n s = .ok a t) : t = s := by
  simp only [needs, bind, EStateM.bind, get_run] at h
  split_ifs at h
  · cases h
  · cases h
    rfl

theorem readCount_ok {i : Nat} {vch : Valtype} {s t : Stacks} {n : Int}
    (hvch : s.stack[i - 1]? = some vch) (h : readCount i s = .ok n t) :
    n = bnGetInt (bnSetVch (bnGetVch (bnSetVch vch))) := by
  simp only [readCount, stacktop, castToBigNum, bind, EStateM.bind, get_run, hvch, pure, EStateM.pure] at h
  split_ifs at h
  · cases h
  · cases h
    rfl

/-- The keys that are counted for a multisig after an instruction. -/
def countedKeys (fAccurate : Bool) (lastOpcode : Nat) : Nat :=
  if fAccurate ∧ OP_1 ≤ lastOpcode ∧ lastOpcode ≤ OP_16 then decodeOpN lastOpcode else 20

/-- A small number that was pushed by the last instruction is on top of the stack. -/
def OnTop (lastOpcode : Nat) (s : EvalState) : Prop :=
  OP_1 ≤ lastOpcode → lastOpcode ≤ OP_16 →
    s.stack.head? = some (bnGetVch ((lastOpcode : Int) - (OP_1 - 1 : Nat)))

/-- **The keys read are not more than the keys counted.** -/
theorem bounded_multiSigCounts (fAccurate : Bool) (lastOpcode : Nat) :
    Bounded EvalState.nSigChecks 0 (OnTop lastOpcode) multiSigCounts
      fun counts _ => counts.1 ≤ countedKeys fAccurate lastOpcode := by
  refine bounded_bind_free (Q := fun _ => OnTop lastOpcode) ?_ fun _ => ?_
  · refine bounded_onStacks fun s hs a t hrun => ?_
    obtain rfl := needs_ok hrun
    exact hs
  refine bounded_bind_free (Q := fun (nKeysCount : Int) _ => OP_1 ≤ lastOpcode → lastOpcode ≤ OP_16 →
    nKeysCount = lastOpcode - (OP_1 - 1 : Nat)) ?_ fun nKeysCount => ?_
  · refine bounded_onStacks fun s hs nKeysCount t hrun hlower hupper => ?_
    have htop := hs hlower hupper
    rw [List.head?_eq_getElem?] at htop
    have hcast : (lastOpcode : Int) - (OP_1 - 1 : Nat) = (lastOpcode - (OP_1 - 1) : Nat) := by
      simp only [OP_1] at hlower ⊢
      omega
    rw [readCount_ok (i := 1) htop hrun, hcast]
    simp only [OP_1, OP_16] at hlower hupper ⊢
    exact readCount_eq (by omega) (by omega)
  refine bounded_ite (fun _ => bounded_throw) fun hrange => ?_
  have hcounted : (OP_1 ≤ lastOpcode → lastOpcode ≤ OP_16 →
      nKeysCount = lastOpcode - (OP_1 - 1 : Nat)) →
      nKeysCount.toNat ≤ countedKeys fAccurate lastOpcode := by
    intro hkeys
    unfold countedKeys decodeOpN
    split_ifs with hsmall hzero
    · rw [hzero] at hsmall
      exact absurd hsmall.2.1 (by decide)
    · have heq := hkeys hsmall.2.1 hsmall.2.2
      simp only [OP_1] at heq ⊢
      omega
    · omega
  refine bounded_of_pre (p := nKeysCount.toNat ≤ countedKeys fAccurate lastOpcode)
    (fun _ => hcounted) fun hle => ?_
  refine bounded_bind_free (bounded_countOps (Q := fun _ => True) fun _ _ => trivial) fun _ => ?_
  refine bounded_bind_free (free_onStacks _) fun _ => ?_
  refine bounded_bind_free (free_onStacks _) fun nSigsCount => ?_
  refine bounded_ite (fun _ => bounded_throw) fun _ => ?_
  refine bounded_bind_free (free_onStacks _) fun _ => ?_
  exact bounded_pure fun _ _ => hle

theorem bounded_evalCheckMultiSig (env : ScriptEnv) (flags : ScriptFlags) (fVerify fAccurate : Bool)
    (lastOpcode : Nat) : Bounded EvalState.nSigChecks (countedKeys fAccurate lastOpcode) (OnTop lastOpcode)
      (evalCheckMultiSig env flags fVerify) fun _ _ => True := by
  refine bounded_bind_free (bounded_multiSigCounts fAccurate lastOpcode) ?_
  rintro ⟨nKeysCount, nSigsCount⟩
  refine bounded_of_pre (p := nKeysCount ≤ countedKeys fAccurate lastOpcode) (fun _ => id)
    fun hle => ?_
  refine bounded_bind_free (bounded_get (Q := fun _ _ => True) fun _ _ => trivial) fun s => ?_
  refine bounded_bind_free (free_onStacks _) fun scriptCode => ?_
  refine (bounded_bind (l := 0) (bounded_multiSigLoop _ _ _ _ _ _ _) fun fSuccess => ?_).weaken hle
  exact free_onStacks _

/-! ### Instructions -/

theorem OpcodeType.ofCode_eq {opcode : Nat} {op : OpcodeType} (h : ofCode opcode = op)
    (hop : op ≠ OP_INVALIDOPCODE) : opcode = Manna.OP_NOP + fromNop.idxOf op := by
  have hnodup : fromNop.Nodup := by decide
  unfold ofCode at h
  split_ifs at h with hlt
  · exact absurd h.symm hop
  · by_cases hlen : opcode - Manna.OP_NOP < fromNop.length
    · rw [List.getD_eq_getElem _ _ hlen] at h
      rw [← h, hnodup.idxOf_getElem]
      omega
    · rw [List.getD_eq_default _ _ (Nat.le_of_not_lt hlen)] at h
      exact absurd h.symm hop

/-- What `GetSigOpCount` adds for an instruction. -/
def countedFor (fAccurate : Bool) (lastOpcode opcode : Nat) : Nat :=
  if opcode = OP_CHECKSIG ∨ opcode = OP_CHECKSIGVERIFY then 1
  else if opcode = OP_CHECKMULTISIG ∨ opcode = OP_CHECKMULTISIGVERIFY then
    countedKeys fAccurate lastOpcode
  else 0

/-- A small number that was pushed by the last instruction is on top of the stack, if the branch
is executed. -/
def Declares (lastOpcode : Nat) (s : EvalState) : Prop := s.fExec = true → OnTop lastOpcode s

theorem declares_of_not_small {opcode : Nat} (h : ¬ (OP_1 ≤ opcode ∧ opcode ≤ OP_16))
    (s : EvalState) : Declares opcode s :=
  fun _ hlower hupper => absurd ⟨hlower, hupper⟩ h

section Instructions

variable {env : ScriptEnv} {flags : ScriptFlags} {fAccurate : Bool} {lastOpcode opcode : Nat}

/-- **An opcode examines at most the signatures counted for it.** The signature opcodes run only
in branches that are executed. -/
theorem bounded_evalOpcode {fExec : Bool} {pc : CScript}
    (hexec : fExec = true ∨ (OP_IF ≤ opcode ∧ opcode ≤ OP_ENDIF)) :
    Bounded EvalState.nSigChecks (countedFor fAccurate lastOpcode opcode)
      (fun s => fExec = true → OnTop lastOpcode s)
      (evalOpcode env flags fExec pc (.ofCode opcode)) fun _ _ => True := by
  have hzero : ∀ {P : EvalState → Prop} {m : EvalM Unit},
      Bounded EvalState.nSigChecks 0 P m (fun _ _ => True) →
      Bounded EvalState.nSigChecks (countedFor fAccurate lastOpcode opcode) P m fun _ _ => True :=
    fun h => h.weaken (Nat.zero_le _)
  have hcode : ∀ {op : OpcodeType}, OpcodeType.ofCode opcode = op → op ≠ .OP_INVALIDOPCODE →
      opcode = OP_NOP + OpcodeType.fromNop.idxOf op := fun h hop => OpcodeType.ofCode_eq h hop
  unfold evalOpcode
  split
  · exact hzero (bounded_evalIf _ _)
  · exact hzero (bounded_evalIf _ _)
  · exact hzero (bounded_setBranch fun fValue vfExec => (!fValue) :: vfExec)
  · exact hzero (bounded_setBranch fun _ vfExec => vfExec)
  · exact hzero (bounded_modify (fun _ _ => Nat.le_refl _) fun _ _ => trivial)
  · next hop =>
    have heq := hcode hop (by decide)
    exact (bounded_evalCheckSig env flags false).weaken
      (by rw [countedFor, if_pos (.inl (heq.trans (by decide)))])
  · next hop =>
    have heq := hcode hop (by decide)
    exact (bounded_evalCheckSig env flags true).weaken
      (by rw [countedFor, if_pos (.inr (heq.trans (by decide)))])
  · next hop =>
    obtain rfl : opcode = OP_CHECKMULTISIG := (hcode hop (by decide)).trans (by decide)
    have hrun : fExec = true := hexec.resolve_right (by decide)
    exact (bounded_evalCheckMultiSig env flags false fAccurate lastOpcode).mono (Nat.le_refl _)
      (fun s hs => hs hrun) fun _ _ => id
  · next hop =>
    obtain rfl : opcode = OP_CHECKMULTISIGVERIFY := (hcode hop (by decide)).trans (by decide)
    have hrun : fExec = true := hexec.resolve_right (by decide)
    exact (bounded_evalCheckMultiSig env flags true fAccurate lastOpcode).mono (Nat.le_refl _)
      (fun s hs => hs hrun) fun _ _ => id
  · exact hzero (free_onStacks _)

theorem bounded_execInstruction {fExec : Bool} {vchPushValue : Valtype} {pc : CScript} :
    Bounded EvalState.nSigChecks (countedFor fAccurate lastOpcode opcode)
      (fun s => s.fExec = fExec ∧ Declares lastOpcode s)
      (execInstruction env flags fExec opcode vchPushValue pc) fun _ => Declares opcode := by
  refine bounded_ite ?_ fun hpush => bounded_ite (fun hexec => bounded_ite ?_ ?_) ?_
  · -- A push leaves no small number.
    rintro ⟨-, hpush⟩
    have hnot : ¬ (OP_1 ≤ opcode ∧ opcode ≤ OP_16) := fun h =>
      absurd (h.1.trans hpush) (by decide)
    exact (bounded_onStacks fun s _ _ t _ => declares_of_not_small hnot _).weaken (Nat.zero_le _)
  · intro hsmall
    refine (bounded_onStacks fun s _ _ t hrun => ?_).weaken (Nat.zero_le _)
    cases hrun
    exact fun _ _ _ => rfl
  · intro hsmall
    have hnot : ¬ (OP_1 ≤ opcode ∧ opcode ≤ OP_16) := fun h => hsmall (.inr h)
    exact (bounded_evalOpcode hexec).mono (Nat.le_refl _)
      (fun s hs hrun => hs.2 (hs.1.trans hrun)) fun _ s _ => declares_of_not_small hnot s
  · intro hexec
    refine bounded_pure fun s hs hrun => ?_
    exact absurd (.inl (hs.1.symm.trans hrun)) hexec

/-- **An instruction examines at most the signatures counted for it**, and declares the number of
keys of a multisig that follows it. -/
theorem bounded_evalInstruction {vchPushValue : Valtype} {pc : CScript} :
    Bounded EvalState.nSigChecks (countedFor fAccurate lastOpcode opcode) (Declares lastOpcode)
      (evalInstruction env flags opcode vchPushValue pc) fun _ => Declares opcode := by
  refine bounded_bind_free (bounded_get
    (Q := fun s s' => s'.fExec = s.fExec ∧ Declares lastOpcode s') fun s hs => ⟨rfl, hs⟩) fun s => ?_
  refine bounded_ite (fun _ => bounded_throw) fun _ => ?_
  refine bounded_bind_free (Q := fun _ s' => s'.fExec = s.fExec ∧ Declares lastOpcode s') ?_
    fun _ => ?_
  · exact bounded_ite (fun _ => bounded_countOps fun _ => id) fun _ => bounded_pure fun _ => id
  refine bounded_ite (fun _ => bounded_throw) fun _ => ?_
  refine bounded_bind (l := 0) bounded_execInstruction fun _ => ?_
  exact bounded_checkSize

end Instructions

/-! ### Scripts -/

/-- One round of `GetSigOpCount`. -/
theorem sigOpCountLoop_succ (fAccurate : Bool) (fuel : Nat) (pc : CScript) (lastOpcode n : Nat) :
    sigOpCountLoop fAccurate (fuel + 1) pc lastOpcode n =
      match getOp pc with
      | none => n
      | some (opcode, _, pc) =>
        sigOpCountLoop fAccurate fuel pc opcode (n + countedFor fAccurate lastOpcode opcode) := by
  rw [sigOpCountLoop]
  cases getOp pc with
  | none => rfl
  | some out =>
    simp only [countedFor, countedKeys]
    split_ifs <;> rfl

theorem sigOpCountLoop_add (fAccurate : Bool) (fuel : Nat) (pc : CScript) (lastOpcode n : Nat) :
    sigOpCountLoop fAccurate fuel pc lastOpcode n = n + sigOpCountLoop fAccurate fuel pc lastOpcode 0 := by
  induction fuel generalizing pc lastOpcode n with
  | zero => rfl
  | succ fuel ih =>
    rw [sigOpCountLoop_succ, sigOpCountLoop_succ]
    split
    · rfl
    · next opcode _ pc _ =>
      rw [ih pc opcode (n + _), ih pc opcode (0 + _), Nat.zero_add, Nat.add_assoc]

theorem countedKeys_le (fAccurate : Bool) (lastOpcode : Nat) : countedKeys fAccurate lastOpcode ≤ 20 := by
  unfold countedKeys
  split_ifs with hsmall
  · unfold decodeOpN
    have hupper := hsmall.2.2
    simp only [OP_16, OP_1] at hupper ⊢
    split_ifs
    · exact Nat.zero_le _
    · omega
  · exact Nat.le_refl _

theorem countedFor_le (fAccurate : Bool) (lastOpcode opcode : Nat) :
    countedFor fAccurate lastOpcode opcode ≤ 20 := by
  unfold countedFor
  split_ifs
  · decide
  · exact countedKeys_le fAccurate lastOpcode
  · exact Nat.zero_le _

theorem sigOpCountLoop_le (fAccurate : Bool) (fuel : Nat) (pc : CScript) (lastOpcode : Nat) :
    sigOpCountLoop fAccurate fuel pc lastOpcode 0 ≤ 20 * fuel := by
  induction fuel generalizing pc lastOpcode with
  | zero => exact Nat.zero_le _
  | succ fuel ih =>
    rw [sigOpCountLoop_succ]
    split
    · exact Nat.zero_le _
    · next opcode _ pc _ =>
      have hle := ih pc opcode
      have hcounted := countedFor_le fAccurate lastOpcode opcode
      rw [sigOpCountLoop_add]
      omega

section Scripts

variable {env : ScriptEnv} {flags : ScriptFlags}

/-- **The loop examines at most what is counted for the rest of the script.** -/
theorem bounded_evalLoop (env : ScriptEnv) (flags : ScriptFlags) (fAccurate : Bool) (fuel : Nat)
    (pc : CScript) (lastOpcode : Nat) :
    Bounded EvalState.nSigChecks (sigOpCountLoop fAccurate fuel pc lastOpcode 0)
      (Declares lastOpcode) (evalLoop env flags fuel pc) fun _ _ => True := by
  induction fuel generalizing pc lastOpcode with
  | zero => exact bounded_pure fun _ _ => trivial
  | succ fuel ih =>
    rw [sigOpCountLoop_succ]
    refine bounded_ite (fun _ => bounded_pure fun _ _ => trivial) fun _ => ?_
    cases hop : getOp pc with
    | none => exact bounded_throw
    | some out =>
      obtain ⟨opcode, vchPushValue, pc⟩ := out
      dsimp only
      rw [sigOpCountLoop_add, Nat.zero_add]
      exact bounded_bind bounded_evalInstruction fun _ => ih pc opcode

/-- **A script examines at most the signatures counted for it**, with either count, and only if it
is not longer than 10000 bytes. -/
theorem evalScript_nSigChecks_le (env : ScriptEnv) (flags : ScriptFlags) (fAccurate : Bool)
    (script : CScript) (stack : List Valtype) :
    (evalScript env flags script stack).nSigChecks ≤ getSigOpCount script fAccurate % 2 ^ 32 := by
  unfold evalScript
  split
  · exact Nat.zero_le _
  · next hlen =>
    have hfits : getSigOpCount script fAccurate % 2 ^ 32 = getSigOpCount script fAccurate := by
      have hle := sigOpCountLoop_le fAccurate script.length script OP_INVALIDOPCODE
      refine Nat.mod_eq_of_lt ?_
      unfold getSigOpCount
      omega
    have hrun := (bounded_evalLoop env flags fAccurate script.length script
      OP_INVALIDOPCODE ⟨⟨stack, []⟩, [], 0, script, 0⟩
      (declares_of_not_small (by decide) _)).1
    rw [hfits, getSigOpCount]
    simp only [Nat.zero_add] at hrun
    generalize evalLoop env flags script.length script ⟨⟨stack, []⟩, [], 0, script, 0⟩ = result
      at hrun ⊢
    cases result with
    | ok a s => exact hrun
    | error e s => exact hrun

/-! ### The script that is paid to by hash -/

/-- On top of the stack is the last item pushed, or a script that checks no signature. -/
def TopCounted (data : List UInt8) (s : EvalState) : Prop :=
  ∀ vch, s.stack.head? = some vch → vch = data ∨ getSigOpCount vch true = 0

theorem getSigOpCount_small {opcode : Nat} (h : opcode = OP_1NEGATE ∨ (OP_1 ≤ opcode ∧ opcode ≤ OP_16)) :
    getSigOpCount (bnGetVch ((opcode : Int) - (OP_1 - 1 : Nat))) true = 0 := by
  rcases h with rfl | ⟨hlower, hupper⟩
  · decide
  · simp only [OP_1, OP_16] at hlower hupper
    interval_cases opcode <;> decide

theorem bounded_push {data vch : Valtype} {opcode : Nat}
    (hcounted : vch = data ∨ getSigOpCount vch true = 0) :
    Bounded EvalState.nSigChecks 0 (fun s => s.vfExec = [] ∧ opcode ≤ OP_16)
      (onStacks (pushstack vch)) fun _ s => s.vfExec = [] ∧ TopCounted data s := by
  refine bounded_onStacks fun s hs a t hrun => ?_
  cases hrun
  refine ⟨hs.1, fun vch' htop => ?_⟩
  obtain rfl : vch = vch' := Option.some.inj htop
  exact hcounted

theorem bounded_pushInstruction {opcode : Nat} (hpush : opcode ≤ OP_16) (vchPushValue : Valtype)
    (pc : CScript) : Bounded EvalState.nSigChecks 0 (fun s => s.vfExec = [])
      (evalInstruction env flags opcode vchPushValue pc)
      fun _ s => s.vfExec = [] ∧ TopCounted vchPushValue s := by
  refine bounded_bind_free (bounded_get (Q := fun s s' => s.fExec = true ∧ s'.vfExec = [] ∧
    opcode ≤ OP_16) ?_) fun s => ?_
  · intro s hs
    exact ⟨by rw [EvalState.fExec, hs]; rfl, hs, hpush⟩
  refine bounded_of_pre (p := s.fExec = true) (fun _ hs => hs.1) fun hexec => ?_
  refine bounded_ite (fun _ => bounded_throw) fun _ => ?_
  refine bounded_bind_free (Q := fun _ s => s.vfExec = [] ∧ opcode ≤ OP_16) ?_ fun _ => ?_
  · exact bounded_ite (fun hlarge => absurd hpush (Nat.not_le_of_lt hlarge))
      fun _ => bounded_pure fun _ hs => hs.2
  refine bounded_ite (fun _ => bounded_throw) fun _ => ?_
  refine bounded_bind_free (Q := fun _ s => s.vfExec = [] ∧ TopCounted vchPushValue s) ?_
    fun _ => bounded_checkSize
  rw [hexec]
  refine bounded_ite (fun _ => bounded_push (.inl rfl)) fun hpush' => ?_
  refine bounded_ite (fun _ => ?_) fun hexec' => absurd (.inl rfl) hexec'
  refine bounded_ite (fun hsmall => bounded_push (.inr (getSigOpCount_small hsmall)))
    fun hsmall => ?_
  · -- What is left is `OP_RESERVED`.
    have hcode : OpcodeType.ofCode opcode = .OP_INVALIDOPCODE := if_pos (Nat.lt_of_le_of_lt hpush (by decide))
    rw [hcode]
    exact bounded_onStacks fun s _ a t hrun => by cases hrun

/-- **What a push-only script leaves on top**: its last item, unless that is a small number. -/
theorem bounded_pushOnly (env : ScriptEnv) (flags : ScriptFlags) (fuel : Nat) (pc : CScript)
    (data : List UInt8) (hpush : isPushOnlyLoop fuel pc = true) :
    Bounded EvalState.nSigChecks 0 (fun s => s.vfExec = [] ∧ TopCounted data s) (evalLoop env flags fuel pc)
      fun _ s => ∃ last, lastPush fuel pc data = some last ∧ TopCounted last s := by
  induction fuel generalizing pc data with
  | zero => exact bounded_pure fun s hs => ⟨data, rfl, hs.2⟩
  | succ fuel ih =>
    cases pc with
    | nil => exact bounded_pure fun s hs => ⟨data, rfl, hs.2⟩
    | cons b pc =>
      refine bounded_ite (fun hnil => by cases hnil) fun _ => ?_
      rw [isPushOnlyLoop] at hpush
      rw [lastPush]
      cases hop : getOp (b :: pc) with
      | none => exact bounded_throw
      | some out =>
        obtain ⟨opcode, vchPushValue, rest⟩ := out
        simp only [hop] at hpush ⊢
        split_ifs at hpush with hlarge
        rw [if_neg hlarge]
        refine bounded_bind_free ?_ fun _ => ih rest vchPushValue hpush
        exact (bounded_pushInstruction (Nat.le_of_not_lt hlarge) vchPushValue rest).mono
          (Nat.le_refl _) (fun s hs => hs.1) fun _ _ => id

theorem evalScript_pushOnly {script : CScript} {vch : Valtype} {stack : List Valtype}
    (hpush : isPushOnly script = true) (hok : (evalScript env flags script []).ok = true)
    (hstack : (evalScript env flags script []).stack = vch :: stack) :
    ∃ last, lastPush script.length script [] = some last ∧ (vch = last ∨ getSigOpCount vch true = 0) := by
  unfold evalScript at hok hstack
  split at hok
  · cases hok
  · next hlen =>
    rw [if_neg hlen] at hstack
    have hrun := (bounded_pushOnly env flags script.length script [] hpush
      ⟨⟨[], []⟩, [], 0, script, 0⟩ ⟨rfl, fun _ h => by cases h⟩).2
    generalize evalLoop env flags script.length script ⟨⟨[], []⟩, [], 0, script, 0⟩ = result
      at hrun hok hstack
    cases result with
    | error e s => cases hok
    | ok a s =>
      obtain ⟨last, hlast, htop⟩ := hrun a s rfl
      exact ⟨last, hlast, htop vch (by rw [show s.stack = vch :: stack from hstack]; rfl)⟩

/-- The script that is paid to by hash examines at most the signatures counted for it. -/
theorem verifyRedeemScript_nSigChecks_le {scriptSig scriptPubKey : CScript} (nSigChecks : Nat)
    (hp2sh : isPayToScriptHash scriptPubKey = true) (hok : (evalScript env flags scriptSig []).ok = true) :
    (verifyRedeemScript env flags scriptSig (evalScript env flags scriptSig []).stack
      nSigChecks).nSigChecks ≤ nSigChecks + getSigOpCountP2SH scriptPubKey scriptSig % 2 ^ 32 := by
  unfold verifyRedeemScript
  cases hpush : isPushOnly scriptSig with
  | false => exact Nat.le_add_right _ _
  | true =>
    simp only [Bool.not_true, Bool.false_eq_true, if_false]
    cases hstack : (evalScript env flags scriptSig []).stack with
    | nil => exact Nat.le_add_right _ _
    | cons vch stack =>
      obtain ⟨last, hlast, hcounted⟩ := evalScript_pushOnly hpush hok hstack
      refine Nat.add_le_add_left ((evalScript_nSigChecks_le env flags true vch stack).trans ?_) _
      rw [getSigOpCountP2SH, if_pos hp2sh, hlast]
      rcases hcounted with rfl | hzero
      · exact Nat.le_refl _
      · rw [hzero]
        exact Nat.zero_le _

/-- **The signature checks of an input**, however the verification ends. -/
theorem verifyScript_nSigChecks_le (env : ScriptEnv) (flags : ScriptFlags)
    (fAccurateSig fAccuratePubKey : Bool) (scriptSig scriptPubKey : CScript) :
    (verifyScript env flags scriptSig scriptPubKey).nSigChecks ≤
      getSigOpCount scriptSig fAccurateSig % 2 ^ 32 + getSigOpCount scriptPubKey fAccuratePubKey % 2 ^ 32 +
        if flags.p2sh = true ∧ isPayToScriptHash scriptPubKey = true then
          getSigOpCountP2SH scriptPubKey scriptSig % 2 ^ 32 else 0 := by
  have hsig := evalScript_nSigChecks_le env flags fAccurateSig scriptSig []
  have hpubkey := evalScript_nSigChecks_le env flags fAccuratePubKey
    scriptPubKey (evalScript env flags scriptSig []).stack
  have hboth := Nat.add_le_add hsig hpubkey
  unfold verifyScript
  dsimp only
  by_cases hsigok : (evalScript env flags scriptSig []).ok = true
  · rw [if_neg (by simpa using hsigok)]
    split
    · exact hboth.trans (Nat.le_add_right _ _)
    · split
      · exact hboth.trans (Nat.le_add_right _ _)
      · by_cases hp2sh : flags.p2sh = true ∧ isPayToScriptHash scriptPubKey = true
        · rw [if_pos hp2sh, if_pos hp2sh, if_pos hp2sh.1]
          exact (verifyRedeemScript_nSigChecks_le _ hp2sh.2 hsigok).trans
            (Nat.add_le_add_right hboth _)
        · rw [if_neg hp2sh, if_neg hp2sh]
          exact hboth
  · rw [if_pos (by simpa using hsigok)]
    exact hsig.trans ((Nat.le_add_right _ _).trans (Nat.le_add_right _ _))

end Scripts

/-! ### Blocks -/

/-- The signatures that a script check examines; the interpreter's surroundings depend on the
transaction and the input. -/
def CScriptCheck.nSigChecks (scripts : CTransaction → Nat → ScriptEnv) (check : CScriptCheck) :
    Nat :=
  match check.txTo.vin[check.nIn]? with
  | none => 0
  | some txin =>
    (verifyScript (scripts check.txTo check.nIn) check.nFlags txin.scriptSig
      check.scriptPubKey).nSigChecks

/-- The signature operations of the script that a check runs for the output spent. -/
def CScriptCheck.spentSigOps (check : CScriptCheck) : Nat := getSigOpCount check.scriptPubKey true

/-- What `ConnectBlock` counts for the inputs that pay to a script hash. -/
def p2shCount (params : ConnectParams) (tx : CTransaction) (coins : List Coin) : Nat :=
  if params.fStrictPayToScriptHash then sumP2SHSigOps (tx.vin.zip coins) else 0

/-- The script checks a transaction gets to: none if it is stopped at the count of signature
operations or at a missing input. -/
def queuedChecks (params : ConnectParams) (tx : CTransaction) (state : ConnectState) (u : Utxo) :
    List CScriptCheck :=
  if tx.isCoinBase then []
  else
    match coinsOf u tx.vin with
    | none => []
    | some coins =>
      if state.nSigOps + tx.getLegacySigOpCount + p2shCount params tx coins > MAX_BLOCK_SIGOPS then
        []
      else scriptChecks tx params.flags coins 0

/-- The script checks that the loop of `ConnectBlock` gets to, the block valid or not. -/
def reachedChecks (env : Env) (params : ConnectParams) :
    List CTransaction → ConnectState → CoinsMap → List CScriptCheck
  | [], _, _ => []
  | tx :: vtx, state, s =>
    queuedChecks params tx state s.utxo ++
      match (connectTransaction env params tx state).run CoinsMap.handler s with
      | (.ok state', s') => reachedChecks env params vtx state' s'
      | (.error _, _) => []

section Block

variable {env : Env} {params : ConnectParams} {scripts : CTransaction → Nat → ScriptEnv}

theorem sum_scriptChecks_le (scripts : CTransaction → Nat → ScriptEnv)
    (hflags : params.flags.p2sh = params.fStrictPayToScriptHash)
    (tx : CTransaction) (coins : List Coin) (i : Nat) :
    ((scriptChecks tx params.flags coins i).map (CScriptCheck.nSigChecks scripts)).sum ≤
      ((tx.vin.drop i).map fun txin => getSigOpCount txin.scriptSig false).sum +
        (if params.fStrictPayToScriptHash then sumP2SHSigOps ((tx.vin.drop i).zip coins) else 0) +
        ((scriptChecks tx params.flags coins i).map CScriptCheck.spentSigOps).sum := by
  induction coins generalizing i with
  | nil => exact Nat.zero_le _
  | cons coin coins ih =>
    have hrest := ih (i + 1)
    simp only [scriptChecks, List.map_cons, List.sum_cons]
    by_cases hi : i < tx.vin.length
    · have hcheck := verifyScript_nSigChecks_le (scripts tx i) params.flags false true
        tx.vin[i].scriptSig coin.txout.scriptPubKey
      have hsig := Nat.mod_le (getSigOpCount tx.vin[i].scriptSig false) (2 ^ 32)
      have hpubkey := Nat.mod_le (getSigOpCount coin.txout.scriptPubKey true) (2 ^ 32)
      have hp2sh := Nat.mod_le (getSigOpCountP2SH coin.txout.scriptPubKey tx.vin[i].scriptSig)
        (2 ^ 32)
      rw [List.drop_eq_getElem_cons hi, List.map_cons, List.sum_cons, List.zip_cons_cons,
        sumP2SHSigOps]
      simp only [CScriptCheck.nSigChecks, CScriptCheck.spentSigOps, List.getElem?_eq_getElem hi,
        hflags] at hcheck hrest ⊢
      by_cases hstrict : params.fStrictPayToScriptHash = true
      · simp only [hstrict, true_and, if_true] at hcheck hrest ⊢
        split_ifs at hcheck ⊢ <;> omega
      · simp only [hstrict, Bool.false_eq_true, false_and, if_false] at hcheck hrest ⊢
        omega
    · have hnone : tx.vin[i]? = none := List.getElem?_eq_none (Nat.le_of_not_lt hi)
      have hdrop : tx.vin.drop i = [] := List.drop_eq_nil_of_le (Nat.le_of_not_lt hi)
      have hdrop' : tx.vin.drop (i + 1) = [] :=
        List.drop_eq_nil_of_le ((Nat.le_of_not_lt hi).trans (Nat.le_succ i))
      rw [hdrop'] at hrest
      rw [hdrop]
      simp only [CScriptCheck.nSigChecks, hnone, List.map_nil, List.sum_nil, List.zip_nil_left,
        sumP2SHSigOps, ite_self] at hrest ⊢
      omega

/-- The signatures that the checks of the loop examine. -/
def sumSigChecks (scripts : CTransaction → Nat → ScriptEnv) (checks : List CScriptCheck) : Nat :=
  (checks.map (CScriptCheck.nSigChecks scripts)).sum

/-- The signature operations of the outputs that are spent. -/
def sumSpentSigOps (checks : List CScriptCheck) : Nat := (checks.map CScriptCheck.spentSigOps).sum

theorem sumSigChecks_append (l l' : List CScriptCheck) :
    sumSigChecks scripts (l ++ l') = sumSigChecks scripts l + sumSigChecks scripts l' := by
  simp only [sumSigChecks, List.map_append, List.sum_append]

theorem sumSpentSigOps_append (l l' : List CScriptCheck) :
    sumSpentSigOps (l ++ l') = sumSpentSigOps l + sumSpentSigOps l' := by
  simp only [sumSpentSigOps, List.map_append, List.sum_append]

variable {tx : CTransaction}

/-- The checks of a transaction cost no more than is counted for it and the outputs it spends. -/
theorem sumSigChecks_queuedChecks_le (scripts : CTransaction → Nat → ScriptEnv)
    (hflags : params.flags.p2sh = params.fStrictPayToScriptHash)
    (state : ConnectState) {u : Utxo} {coins : List Coin} (hcoins : coinsOf u tx.vin = some coins) :
    sumSigChecks scripts (queuedChecks params tx state u) ≤
      tx.getLegacySigOpCount + p2shCount params tx coins +
        sumSpentSigOps (queuedChecks params tx state u) := by
  unfold queuedChecks
  rw [hcoins]
  split
  · exact Nat.zero_le _
  · dsimp only
    split
    · exact Nat.zero_le _
    · have hsum := sum_scriptChecks_le scripts hflags tx coins 0
      rw [List.drop_zero] at hsum
      unfold sumSigChecks sumSpentSigOps p2shCount CTransaction.getLegacySigOpCount
      omega

theorem queuedChecks_within (scripts : CTransaction → Nat → ScriptEnv)
    (hflags : params.flags.p2sh = params.fStrictPayToScriptHash)
    (tx : CTransaction) {state : ConnectState} (u : Utxo) (hle : state.nSigOps ≤ MAX_BLOCK_SIGOPS) :
    state.nSigOps + sumSigChecks scripts (queuedChecks params tx state u) ≤
      MAX_BLOCK_SIGOPS + sumSpentSigOps (queuedChecks params tx state u) := by
  cases hcoins : coinsOf u tx.vin with
  | none =>
    have hnil : queuedChecks params tx state u = [] := by
      unfold queuedChecks
      rw [hcoins]
      exact ite_self _
    rw [hnil]
    exact hle.trans (Nat.le_add_right _ _)
  | some coins =>
    by_cases hlimit :
        state.nSigOps + tx.getLegacySigOpCount + p2shCount params tx coins > MAX_BLOCK_SIGOPS
    · have hnil : queuedChecks params tx state u = [] := by
        unfold queuedChecks
        simp only [hcoins, if_pos hlimit, ite_self]
      rw [hnil]
      exact hle.trans (Nat.le_add_right _ _)
    · have hsum := sumSigChecks_queuedChecks_le scripts hflags state hcoins
      omega

theorem connectInputsAt_nSigOps {state state' : ConnectState} {u : Utxo}
    {nBestHeight : Option Int} (h : connectInputsAt env params tx state u nBestHeight = .ok state') :
    state'.nSigOps ≤ MAX_BLOCK_SIGOPS := by
  obtain ⟨coins, nTxValueIn, nFees, nHeight, vChecks, hcoins, -, -, -, -, rfl⟩ := connectInputsAt_ok h
  by_contra hlimit
  rw [not_le] at hlimit
  unfold connectInputsAt at h
  simp only [hcoins] at h
  rw [if_pos hlimit] at h
  cases h

theorem connectChecksAt_nSigOps {state state' : ConnectState} {u : Utxo}
    {nBestHeight : Option Int} (h : connectChecksAt env params tx state u nBestHeight = .ok state') :
    state'.nSigOps ≤ MAX_BLOCK_SIGOPS := by
  rcases connectChecksAt_ok h with ⟨hcb, nValueOut, -, rfl⟩ | ⟨hcb, hinputs⟩
  · by_contra hlimit
    rw [not_le] at hlimit
    unfold connectChecksAt at h
    dsimp only at h
    rw [if_pos hlimit] at h
    cases h
  · exact connectInputsAt_nSigOps hinputs

/-- **What a transaction adds to the count covers its checks**, but for the outputs it spends. -/
theorem connectTransaction_nSigOps (scripts : CTransaction → Nat → ScriptEnv)
    (hflags : params.flags.p2sh = params.fStrictPayToScriptHash)
    {state state' : ConnectState} {s s' : CoinsMap}
    (h : (connectTransaction env params tx state).run CoinsMap.handler s = (.ok state', s')) :
    state'.nSigOps ≤ MAX_BLOCK_SIGOPS ∧
      state.nSigOps + sumSigChecks scripts (queuedChecks params tx state s.utxo) ≤
        state'.nSigOps + sumSpentSigOps (queuedChecks params tx state s.utxo) := by
  obtain ⟨checked, txundo, hchecks, -, rfl⟩ := connectTransaction_ok h
  have hsame : (if tx.isCoinBase then checked
      else { checked with vtxundo := checked.vtxundo ++ [txundo] }).nSigOps = checked.nSigOps := by
    split <;> rfl
  rw [hsame]
  rcases connectChecksAt_ok hchecks with ⟨hcb, nValueOut, -, rfl⟩ | ⟨hcb, hinputs⟩
  · have hnil : queuedChecks params tx state s.utxo = [] := if_pos hcb
    rw [hnil]
    exact ⟨connectChecksAt_nSigOps hchecks, Nat.add_le_add_right (Nat.le_add_right _ _) _⟩
  · obtain ⟨coins, _, _, _, _, hcoins, _, _, _, _, heq⟩ := connectInputsAt_ok hinputs
    have hsum := sumSigChecks_queuedChecks_le scripts hflags state hcoins
    refine ⟨connectChecksAt_nSigOps hchecks, ?_⟩
    rw [heq]
    unfold p2shCount at hsum
    dsimp only
    omega

/-- **The checks of a block**, beyond those of the outputs it spends, are at most the limit. -/
theorem sumSigChecks_reachedChecks_le (env : Env) (scripts : CTransaction → Nat → ScriptEnv)
    (hflags : params.flags.p2sh = params.fStrictPayToScriptHash) (vtx : List CTransaction)
    (state : ConnectState) (s : CoinsMap) (hle : state.nSigOps ≤ MAX_BLOCK_SIGOPS) :
    state.nSigOps + sumSigChecks scripts (reachedChecks env params vtx state s) ≤
      MAX_BLOCK_SIGOPS + sumSpentSigOps (reachedChecks env params vtx state s) := by
  induction vtx generalizing state s with
  | nil => exact hle.trans (Nat.le_add_right _ _)
  | cons tx vtx ih =>
    rw [reachedChecks, sumSigChecks_append, sumSpentSigOps_append]
    split
    · next state' s' hrun =>
      obtain ⟨hle', hstep⟩ := connectTransaction_nSigOps scripts hflags hrun
      have hrest := ih state' s' hle'
      omega
    · have hstep := queuedChecks_within scripts hflags tx s.utxo hle
      simp only [sumSigChecks, sumSpentSigOps, List.map_nil, List.sum_nil] at hstep ⊢
      omega

end Block

theorem p2sh_of (heights : Uint256 → Option Int) (pindex : CBlockIndex) :
    (ConnectParams.of heights pindex).flags.p2sh =
      (ConnectParams.of heights pindex).fStrictPayToScriptHash := rfl

/-- **Signature checks are paid for.** Whatever the scripts and the flags, an input examines at most
the signatures counted for its two scripts, by either count, and for the script it pays to by hash.
The scripts that `ConnectBlock` gets to examine at most `MAX_BLOCK_SIGOPS` signatures and those
counted for the outputs spent. -/
theorem signatureChecks_le :
    (∀ (env : ScriptEnv) (flags : ScriptFlags) (scriptSig scriptPubKey : CScript)
      (fAccurateSig fAccuratePubKey : Bool),
      (verifyScript env flags scriptSig scriptPubKey).nSigChecks ≤
        getSigOpCount scriptSig fAccurateSig % 2 ^ 32 +
          getSigOpCount scriptPubKey fAccuratePubKey % 2 ^ 32 +
          getSigOpCountP2SH scriptPubKey scriptSig % 2 ^ 32) ∧
    ∀ (scripts : CTransaction → Nat → ScriptEnv) (env : Env) (heights : Uint256 → Option Int)
      (pindex : CBlockIndex) (vtx : List CTransaction) (s : CoinsMap),
      sumSigChecks scripts (reachedChecks env (.of heights pindex) vtx .init s) ≤
        MAX_BLOCK_SIGOPS + sumSpentSigOps (reachedChecks env (.of heights pindex) vtx .init s) := by
  constructor
  · intro env flags scriptSig scriptPubKey fAccurateSig fAccuratePubKey
    refine (verifyScript_nSigChecks_le env flags fAccurateSig fAccuratePubKey scriptSig
      scriptPubKey).trans ?_
    refine Nat.add_le_add_left ?_ _
    split
    · exact Nat.le_refl _
    · exact Nat.zero_le _
  · intro scripts env heights pindex vtx s
    have hsum := sumSigChecks_reachedChecks_le env scripts
      (p2sh_of heights pindex) vtx .init s (Nat.zero_le _)
    rwa [ConnectState.init, Nat.zero_add] at hsum

/-! ### Samples -/

/-- Surroundings in which no signature is good. -/
def sampleScriptEnv : ScriptEnv := ⟨id, id, id, fun _ _ _ => false⟩

/-- A script that examines as many signatures as the opcodes allow, and succeeds. -/
def sampleCostlyScript : CScript := [0] ++ (List.replicate 201 [0, 0xac]).flatten ++ [0x51]

/-- The flags of a block before the switch to pay-to-script-hash. -/
def sampleFlags : ScriptFlags := ⟨false, false, true⟩

theorem verifyScript_sampleCostlyScript :
    verifyScript sampleScriptEnv sampleFlags [] sampleCostlyScript = ⟨some true, 201⟩ := by
  decide +kernel

def interpretedScripts (scriptSig scriptPubKey : CScript) (_ : CTransaction) (_ : Nat)
    (flags : ScriptFlags) : Bool :=
  decide ((verifyScript sampleScriptEnv flags scriptSig scriptPubKey).result = some true)

/-- The same with the verdict on the script looked up. -/
def tabulatedScripts (scriptSig scriptPubKey : CScript) (txTo : CTransaction) (nIn : Nat)
    (flags : ScriptFlags) : Bool :=
  if scriptSig = [] ∧ scriptPubKey = sampleCostlyScript ∧ flags = sampleFlags then true
  else interpretedScripts scriptSig scriptPubKey txTo nIn flags

theorem interpretedScripts_eq : interpretedScripts = tabulatedScripts := by
  funext scriptSig scriptPubKey txTo nIn flags
  unfold tabulatedScripts
  split
  · next hcostly =>
    obtain ⟨rfl, rfl, rfl⟩ := hcostly
    rw [interpretedScripts, verifyScript_sampleCostlyScript]
    rfl
  · rfl

/-- Two transactions, each with outputs that pay to the script. -/
def sampleCostlyCoins : CoinsMap where
  coins txid :=
    if txid = 7 ∨ txid = 8 then
      some ⟨false, List.replicate 50 ⟨CENT, sampleCostlyScript⟩, 1, 1⟩
    else none
  best := some 1001

def sampleCostlyIn (txid : Uint256) (n : Nat) : CTxIn := ⟨⟨txid, n⟩, [], UINT_MAX⟩

/-- A block that spends them all. -/
def sampleCostlyBlock : CBlock :=
  sampleBlock 1002 1001 500
    [sampleCoinBase 21 500 CENT,
      sampleTx 22 500
        ((List.range 50).map (sampleCostlyIn 7) ++ (List.range 50).map (sampleCostlyIn 8)) [CENT]]

def sampleHeights (hash : Uint256) : Option Int := if hash = 1001 then some 1 else none

theorem sumSigChecks_of_forall {scripts : CTransaction → Nat → ScriptEnv} {n : Nat}
    {checks : List CScriptCheck} (h : ∀ check ∈ checks, check.nSigChecks scripts = n) :
    sumSigChecks scripts checks = checks.length * n := by
  unfold sumSigChecks
  rw [List.map_congr_left h, List.map_const', List.sum_replicate]
  rfl

/-- **The outputs spent are not paid for in the block that spends them**: `ConnectBlock` accepts a
block whose scripts examine 20100 signatures. -/
theorem not_forall_sumSigChecks_le :
    ¬ ∀ (scripts : CTransaction → Nat → ScriptEnv) (env : Env) (nAdjustedTime : Int)
      (heights : Uint256 → Option Int) (block : CBlock) (pindex : CBlockIndex) (s s' : CoinsMap)
      (state : ConnectState),
      (∀ scriptSig scriptPubKey txTo nIn flags,
        env.verifyScript scriptSig scriptPubKey txTo nIn flags = decide
          ((verifyScript (scripts txTo nIn) flags scriptSig scriptPubKey).result = some true)) →
      (connectBlockChecks env nAdjustedTime heights block pindex false).run CoinsMap.handler s =
        (.ok (some state), s') →
      sumSigChecks scripts (reachedChecks env (.of heights pindex) block.vtx .init s) ≤
        MAX_BLOCK_SIGOPS := by
  intro h
  let env : Env := { sampleEnv with verifyScript := tabulatedScripts }
  let pindex := sampleEntry 1002 (some 1001) 2 500
  let checks := reachedChecks env (.of sampleHeights pindex) sampleCostlyBlock.vtx .init
    sampleCostlyCoins
  have hok : ((connectBlockChecks env 1000 sampleHeights sampleCostlyBlock pindex false).run
      CoinsMap.handler sampleCostlyCoins).1.toOption.bind id ≠ none := by decide +kernel
  have hchecks : checks.length = 100 ∧ ∀ check ∈ checks,
      (check.scriptPubKey = sampleCostlyScript ∧ check.nFlags = sampleFlags) ∧
        (check.txTo.vin[check.nIn]?).map (·.scriptSig) = some [] := by decide +kernel
  have hcost : ∀ check ∈ checks, check.nSigChecks (fun _ _ => sampleScriptEnv) = 201 := by
    intro check hmem
    obtain ⟨⟨hscript, hflags⟩, hsig⟩ := hchecks.2 check hmem
    obtain ⟨txin, htxin, hempty⟩ := Option.map_eq_some_iff.mp hsig
    rw [CScriptCheck.nSigChecks, htxin]
    dsimp only
    rw [hempty, hscript, hflags, verifyScript_sampleCostlyScript]
  have hsum := sumSigChecks_of_forall hcost
  generalize hrun : (connectBlockChecks env 1000 sampleHeights sampleCostlyBlock pindex false).run
    CoinsMap.handler sampleCostlyCoins = result at hok
  obtain ⟨_ | _ | state, s'⟩ := result
  · exact absurd rfl hok
  · exact absurd rfl hok
  · have hle := h (fun _ _ => sampleScriptEnv) env 1000 sampleHeights sampleCostlyBlock pindex
      sampleCostlyCoins s' state
      (fun scriptSig scriptPubKey txTo nIn flags => by
        change tabulatedScripts scriptSig scriptPubKey txTo nIn flags =
          interpretedScripts scriptSig scriptPubKey txTo nIn flags
        rw [interpretedScripts_eq]) hrun
    rw [hsum, hchecks.1] at hle
    exact absurd hle (by decide)

end Manna
