import Mathlib.Tactic.IntervalCases
import Manna.EvalScript
import Manna.Lib.StopLogic

/-!
Safety of the script interpreter (`script.cpp`: `EvalScript`, `VerifyScript`).

Every opcode tests how many items there are before it reads or pops them. `Deep n` says that the
stack has `n` items; the triple of each primitive says what it needs and what it leaves, and the
opcodes are chains of these.

* `safe_evalStackOp`, `safe_evalOpcode`: no opcode reaches below the bottom of a stack;
* `safe_evalInstruction`: the counted opcodes, and the size of the stacks after an instruction;
* `Rounds`, `evalLoop_ends`: the rounds of the loop, which end;
* `verifyScript_ne_none`: the assertion of `VerifyScript` holds.
-/

namespace Manna

open StopLogic

/-! ### Primitives -/

/-- The reasons to stop that leave the stacks unharmed. -/
def NotBelow (e : EvalStop) : Prop := e ≠ .outOfRange

/-- The stack has at least so many items. -/
def Deep (n : Nat) (s : Stacks) : Prop := n ≤ s.stack.length

section Primitives

variable {P : Stacks → Prop} {n : Nat}

theorem Deep.mono {m : Nat} {s : Stacks} (h : Deep n s) (hle : m ≤ n) : Deep m s := hle.trans h

theorem safe_needs (n : Nat) : Safe NotBelow P (needs n) fun _ => Deep n := by
  refine safe_bind safe_get fun s => ?_
  apply safe_ite
  · intro _
    exact safe_throw nofun
  · intro hlen
    apply safe_pure
    rintro _ ⟨rfl, -⟩
    exact Nat.le_of_not_lt hlen

theorem safe_stacktop {i : Nat} (hi : i - 1 < n) : Safe NotBelow (Deep n) (stacktop i) fun _ => Deep n := by
  refine safe_bind safe_get fun s => ?_
  refine safe_of_pre (p := Deep n s) (by rintro _ ⟨rfl, hs⟩; exact hs) fun hdeep => ?_
  have hlt : i - 1 < s.stack.length := Nat.lt_of_lt_of_le hi hdeep
  rw [List.getElem?_eq_getElem hlt]
  apply safe_pure
  rintro _ ⟨-, hs⟩
  exact hs

theorem safe_popstack : Safe NotBelow (Deep (n + 1)) popstack fun _ => Deep n := by
  refine safe_bind safe_get fun s => ?_
  refine safe_of_pre (p := Deep (n + 1) s) (by rintro _ ⟨rfl, hs⟩; exact hs) fun hdeep => ?_
  unfold Deep at hdeep
  cases hstack : s.stack with
  | nil =>
    rw [hstack] at hdeep
    cases hdeep
  | cons vch stack =>
    rw [hstack] at hdeep
    apply safe_set
    intro _ _
    exact Nat.le_of_succ_le_succ hdeep

theorem safe_pushstack (vch : Valtype) : Safe NotBelow (Deep n) (pushstack vch) fun _ => Deep (n + 1) := by
  apply safe_modify
  intro s hs
  exact Nat.succ_le_succ hs

theorem safe_eraseRange {first last : Nat} (hfirst : first ≤ n) :
    Safe NotBelow (Deep n) (eraseRange first last) fun _ => Deep (n - first) := by
  refine safe_bind safe_get fun s => ?_
  apply safe_ite
  · intro hlen
    refine safe_of_pre (p := Deep n s) (by rintro _ ⟨rfl, hs⟩; exact hs) fun hdeep => ?_
    exact absurd (hfirst.trans hdeep) (Nat.not_le_of_lt hlen)
  · intro _
    apply safe_set
    rintro s' ⟨rfl, hs⟩
    unfold Deep at hs ⊢
    rw [List.length_append, List.length_drop]
    omega

theorem safe_insertAt {i : Nat} (vch : Valtype) (hi : i ≤ n) :
    Safe NotBelow (Deep n) (insertAt i vch) fun _ _ => True := by
  refine safe_bind safe_get fun s => ?_
  apply safe_ite
  · intro hlen
    refine safe_of_pre (p := Deep n s) (by rintro _ ⟨rfl, hs⟩; exact hs) fun hdeep => ?_
    exact absurd (hi.trans hdeep) (Nat.not_le_of_lt hlen)
  · intro _
    exact safe_set fun _ _ => trivial

theorem safe_swapTop {i j : Nat} (hi : i - 1 < n) (hj : j - 1 < n) :
    Safe NotBelow (Deep n) (swapTop i j) fun _ => Deep n := by
  refine safe_bind (safe_stacktop hi) fun x => ?_
  refine safe_bind (safe_stacktop hj) fun y => ?_
  apply safe_modify
  intro s hs
  unfold Deep at hs ⊢
  rwa [List.length_set, List.length_set]

theorem safe_castToBigNum (vch : Valtype) : Safe NotBelow P (castToBigNum vch) fun _ => P := by
  apply safe_ite
  · intro _
    exact safe_throw nofun
  · intro _
    exact safe_pure fun _ => id

/-- The `VERIFY` variants pop the result. -/
theorem safe_verifyTop (fVerify fValue : Bool) :
    Safe NotBelow (Deep 1) (verifyTop fVerify fValue) fun _ _ => True := by
  apply safe_ite
  · intro _
    apply safe_ite
    · intro _
      exact (safe_popstack (n := 0)).mono (fun _ => id) fun _ _ _ => trivial
    · intro _
      exact safe_throw nofun
  · intro _
    exact safe_pure fun _ _ => trivial

end Primitives

/-! ### Opcodes that work on the stacks -/

theorem safe_pickOrRoll (fRoll : Bool) :
    Safe NotBelow (fun _ => True) (evalStackOp.pickOrRoll fRoll) fun _ _ => True := by
  refine safe_bind (safe_needs 2) fun _ => ?_
  refine safe_bind (safe_stacktop (by decide)) fun vch => ?_
  refine safe_bind (safe_castToBigNum vch) fun bn => ?_
  refine safe_bind safe_popstack fun _ => ?_
  refine safe_bind safe_get fun s => ?_
  apply safe_ite
  · intro _
    exact safe_throw nofun
  · intro hrange
    rw [not_or, not_lt, not_le] at hrange
    refine Safe.pre (P := Deep ((bnGetInt bn).toNat + 1)) ?_ ?_
    · refine safe_bind (safe_stacktop (by omega)) fun vch => ?_
      apply safe_ite
      · intro _
        refine safe_bind (safe_eraseRange (Nat.le_refl _)) fun _ => ?_
        exact (safe_pushstack vch).mono (fun _ => id) fun _ _ _ => trivial
      · intro _
        exact (safe_pushstack vch).mono (fun _ => id) fun _ _ _ => trivial
    · rintro _ ⟨rfl, -⟩
      unfold Deep
      omega

theorem safe_equal (fVerify : Bool) :
    Safe NotBelow (fun _ => True) (evalStackOp.equal fVerify) fun _ _ => True := by
  refine safe_bind (safe_needs 2) fun _ => ?_
  refine safe_bind (safe_stacktop (by decide)) fun vch1 => ?_
  refine safe_bind (safe_stacktop (by decide)) fun vch2 => ?_
  refine safe_bind safe_popstack fun _ => ?_
  refine safe_bind safe_popstack fun _ => ?_
  refine safe_bind (safe_pushstack _) fun _ => ?_
  exact safe_verifyTop fVerify _

theorem safe_hashTop (hash : Valtype → Valtype) :
    Safe NotBelow (fun _ => True) (evalStackOp.hashTop hash) fun _ _ => True := by
  refine safe_bind (safe_needs 1) fun _ => ?_
  refine safe_bind (safe_stacktop (by decide)) fun vch => ?_
  refine safe_bind safe_popstack fun _ => ?_
  exact (safe_pushstack (hash vch)).mono (fun _ => id) fun _ _ _ => trivial

theorem safe_unary (f : Int → Int) :
    Safe NotBelow (fun _ => True) (do
      needs 1
      let bn ← castToBigNum (← stacktop 1)
      popstack
      pushstack (bnGetVch (f bn))) fun _ _ => True := by
  refine safe_bind (safe_needs 1) fun _ => ?_
  refine safe_bind (safe_stacktop (by decide)) fun vch => ?_
  refine safe_bind (safe_castToBigNum vch) fun bn => ?_
  refine safe_bind safe_popstack fun _ => ?_
  exact (safe_pushstack _).mono (fun _ => id) fun _ _ _ => trivial

theorem safe_binary (fVerify : Bool) (f : Int → Int → Int) :
    Safe NotBelow (fun _ => True) (do
      needs 2
      let bn1 ← castToBigNum (← stacktop 2)
      let bn2 ← castToBigNum (← stacktop 1)
      popstack
      popstack
      pushstack (bnGetVch (f bn1 bn2))
      verifyTop fVerify (castToBool (← stacktop 1))) fun _ _ => True := by
  refine safe_bind (safe_needs 2) fun _ => ?_
  refine safe_bind (safe_stacktop (by decide)) fun vch1 => ?_
  refine safe_bind (safe_castToBigNum vch1) fun bn1 => ?_
  refine safe_bind (safe_stacktop (by decide)) fun vch2 => ?_
  refine safe_bind (safe_castToBigNum vch2) fun bn2 => ?_
  refine safe_bind safe_popstack fun _ => ?_
  refine safe_bind safe_popstack fun _ => ?_
  refine safe_bind (safe_pushstack _) fun _ => ?_
  refine safe_bind (safe_stacktop (by decide)) fun vch => ?_
  exact safe_verifyTop fVerify _

theorem safe_fromAltStack :
    Safe NotBelow (fun _ => True) (do
      let s ← get
      if s.altstack.length < 1 then throw .returnFalse
      else do
        pushstack (← altstacktop)
        popaltstack) fun _ _ => True := by
  refine safe_bind safe_get fun s => ?_
  apply safe_ite
  · intro _
    exact safe_throw nofun
  · intro hlen
    refine Safe.pre (P := fun s => 1 ≤ s.altstack.length) ?_ ?_
    · refine safe_bind (Q := fun _ s => 1 ≤ s.altstack.length) ?_ fun vch => ?_
      · refine safe_bind safe_get fun s => ?_
        refine safe_of_pre (p := 1 ≤ s.altstack.length) (by rintro _ ⟨rfl, hs⟩; exact hs) fun h => ?_
        cases halt : s.altstack with
        | nil =>
          rw [halt] at h
          cases h
        | cons vch altstack => exact safe_pure fun _ hs => hs.2
      · refine safe_bind (Q := fun _ s => 1 ≤ s.altstack.length) (safe_modify fun _ => id) fun _ => ?_
        refine safe_bind safe_get fun s => ?_
        refine safe_of_pre (p := 1 ≤ s.altstack.length) (by rintro _ ⟨rfl, hs⟩; exact hs) fun h => ?_
        cases halt : s.altstack with
        | nil =>
          rw [halt] at h
          cases h
        | cons vch altstack => exact safe_set fun _ _ => trivial
    · rintro _ ⟨rfl, -⟩
      exact Nat.le_of_not_lt hlen

/-- **No opcode on the stacks reaches below the bottom.** -/
theorem safe_evalStackOp (env : ScriptEnv) (op : OpcodeType) :
    Safe NotBelow (fun _ => True) (evalStackOp env op) fun _ _ => True := by
  have hpop : ∀ n, Safe NotBelow (Deep (n + 1)) popstack fun _ _ => True :=
    fun n => safe_popstack.mono (fun _ => id) fun _ _ _ => trivial
  have hpush : ∀ n vch, Safe NotBelow (Deep n) (pushstack vch) fun _ _ => True :=
    fun n vch => (safe_pushstack vch).mono (fun _ => id) fun _ _ _ => trivial
  cases op with
  | OP_NOP | OP_NOP1 | OP_NOP2 | OP_NOP3 | OP_NOP4 | OP_NOP5 | OP_NOP6 | OP_NOP7 | OP_NOP8 | OP_NOP9
  | OP_NOP10 => exact safe_pure fun _ _ => trivial
  | OP_VERIFY =>
    refine safe_bind (safe_needs 1) fun _ => ?_
    refine safe_bind (safe_stacktop (by decide)) fun vch => ?_
    exact safe_verifyTop true _
  | OP_TOALTSTACK =>
    refine safe_bind (safe_needs 1) fun _ => ?_
    refine safe_bind (safe_stacktop (by decide)) fun vch => ?_
    exact safe_bind (safe_modify fun _ hs => hs) fun _ => hpop 0
  | OP_FROMALTSTACK => exact safe_fromAltStack
  | OP_2DROP =>
    refine safe_bind (safe_needs 2) fun _ => ?_
    exact safe_bind safe_popstack fun _ => hpop 0
  | OP_2DUP =>
    refine safe_bind (safe_needs 2) fun _ => ?_
    refine safe_bind (safe_stacktop (by decide)) fun vch1 => ?_
    refine safe_bind (safe_stacktop (by decide)) fun vch2 => ?_
    exact safe_bind (safe_pushstack vch1) fun _ => hpush _ vch2
  | OP_3DUP =>
    refine safe_bind (safe_needs 3) fun _ => ?_
    refine safe_bind (safe_stacktop (by decide)) fun vch1 => ?_
    refine safe_bind (safe_stacktop (by decide)) fun vch2 => ?_
    refine safe_bind (safe_stacktop (by decide)) fun vch3 => ?_
    refine safe_bind (safe_pushstack vch1) fun _ => ?_
    exact safe_bind (safe_pushstack vch2) fun _ => hpush _ vch3
  | OP_2OVER =>
    refine safe_bind (safe_needs 4) fun _ => ?_
    refine safe_bind (safe_stacktop (by decide)) fun vch1 => ?_
    refine safe_bind (safe_stacktop (by decide)) fun vch2 => ?_
    exact safe_bind (safe_pushstack vch1) fun _ => hpush _ vch2
  | OP_2ROT =>
    refine safe_bind (safe_needs 6) fun _ => ?_
    refine safe_bind (safe_stacktop (by decide)) fun vch1 => ?_
    refine safe_bind (safe_stacktop (by decide)) fun vch2 => ?_
    refine safe_bind (safe_eraseRange (Nat.le_refl _)) fun _ => ?_
    exact safe_bind (safe_pushstack vch1) fun _ => hpush _ vch2
  | OP_2SWAP =>
    refine safe_bind (safe_needs 4) fun _ => ?_
    refine safe_bind (safe_swapTop (by decide) (by decide)) fun _ => ?_
    exact (safe_swapTop (by decide) (by decide)).mono (fun _ => id) fun _ _ _ => trivial
  | OP_IFDUP =>
    refine safe_bind (safe_needs 1) fun _ => ?_
    refine safe_bind (safe_stacktop (by decide)) fun vch => ?_
    apply safe_ite
    · intro _
      exact hpush _ vch
    · intro _
      exact safe_pure fun _ _ => trivial
  | OP_DEPTH =>
    refine safe_bind safe_get fun s => ?_
    exact (hpush 0 _).pre fun _ _ => Nat.zero_le _
  | OP_DROP => exact safe_bind (safe_needs 1) fun _ => hpop 0
  | OP_DUP =>
    refine safe_bind (safe_needs 1) fun _ => ?_
    exact safe_bind (safe_stacktop (by decide)) fun vch => hpush _ vch
  | OP_NIP =>
    refine safe_bind (safe_needs 2) fun _ => ?_
    exact (safe_eraseRange (Nat.le_refl _)).mono (fun _ => id) fun _ _ _ => trivial
  | OP_OVER =>
    refine safe_bind (safe_needs 2) fun _ => ?_
    exact safe_bind (safe_stacktop (by decide)) fun vch => hpush _ vch
  | OP_PICK => exact safe_pickOrRoll false
  | OP_ROLL => exact safe_pickOrRoll true
  | OP_ROT =>
    refine safe_bind (safe_needs 3) fun _ => ?_
    refine safe_bind (safe_swapTop (by decide) (by decide)) fun _ => ?_
    exact (safe_swapTop (by decide) (by decide)).mono (fun _ => id) fun _ _ _ => trivial
  | OP_SWAP =>
    refine safe_bind (safe_needs 2) fun _ => ?_
    exact (safe_swapTop (by decide) (by decide)).mono (fun _ => id) fun _ _ _ => trivial
  | OP_TUCK =>
    refine safe_bind (safe_needs 2) fun _ => ?_
    exact safe_bind (safe_stacktop (by decide)) fun vch => safe_insertAt vch (Nat.le_refl _)
  | OP_SIZE =>
    refine safe_bind (safe_needs 1) fun _ => ?_
    exact safe_bind (safe_stacktop (by decide)) fun vch => hpush _ _
  | OP_EQUAL => exact safe_equal false
  | OP_EQUALVERIFY => exact safe_equal true
  | OP_1ADD | OP_1SUB | OP_NEGATE | OP_ABS | OP_NOT | OP_0NOTEQUAL => exact safe_unary _
  | OP_ADD | OP_SUB | OP_BOOLAND | OP_BOOLOR | OP_NUMEQUAL | OP_NUMEQUALVERIFY | OP_NUMNOTEQUAL
  | OP_LESSTHAN | OP_GREATERTHAN | OP_LESSTHANOREQUAL | OP_GREATERTHANOREQUAL | OP_MIN | OP_MAX =>
    exact safe_binary _ _
  | OP_WITHIN =>
    refine safe_bind (safe_needs 3) fun _ => ?_
    refine safe_bind (safe_stacktop (by decide)) fun vch1 => ?_
    refine safe_bind (safe_castToBigNum vch1) fun bn1 => ?_
    refine safe_bind (safe_stacktop (by decide)) fun vch2 => ?_
    refine safe_bind (safe_castToBigNum vch2) fun bn2 => ?_
    refine safe_bind (safe_stacktop (by decide)) fun vch3 => ?_
    refine safe_bind (safe_castToBigNum vch3) fun bn3 => ?_
    refine safe_bind safe_popstack fun _ => ?_
    refine safe_bind safe_popstack fun _ => ?_
    exact safe_bind safe_popstack fun _ => hpush _ _
  | OP_RIPEMD160 | OP_SHA1 | OP_SHA256 | OP_HASH160 | OP_HASH256 => exact safe_hashTop _
  | _ => exact safe_throw nofun

/-- At least so many opcodes are counted, and not more than the limit. -/
def Counted (c : Nat) (s : EvalState) : Prop := c ≤ s.nOpCount ∧ s.nOpCount ≤ 201

/-- A stack of so many items, and so many opcodes counted. -/
def DeepCounted (n c : Nat) (s : EvalState) : Prop := Deep n s.toStacks ∧ Counted c s

section Opcodes

variable {env : ScriptEnv} {flags : ScriptFlags} {n c : Nat}

theorem Counted.deep {s : EvalState} (h : Counted c s) : DeepCounted 0 c s := ⟨Nat.zero_le _, h⟩

theorem DeepCounted.mono {m d : Nat} {s : EvalState} (h : DeepCounted n c s) (hm : m ≤ n)
    (hd : d ≤ c) : DeepCounted m d s :=
  ⟨h.1.mono hm, hd.trans h.2.1, h.2.2⟩

theorem safe_onStacks {α : Type} {m : StackM α} {P : Stacks → Prop} {Q : α → Stacks → Prop}
    (h : Safe NotBelow P m Q) : Safe NotBelow (fun s => P s.toStacks ∧ Counted c s) (onStacks m)
      fun a s => Q a s.toStacks ∧ Counted c s :=
  safe_lift (fun _ _ => rfl) (fun _ _ => id) h

theorem safe_onStacks_counted {α : Type} {m : StackM α}
    (h : Safe NotBelow (fun _ => True) m fun _ _ => True) :
    Safe NotBelow (Counted c) (onStacks m) fun _ => Counted c :=
  (safe_onStacks h).mono (fun _ hs => ⟨trivial, hs⟩) fun _ _ hs => hs.2

theorem safe_countOps (k : Nat) :
    Safe NotBelow (DeepCounted n c) (countOps k) fun _ => DeepCounted n (c + k) := by
  refine safe_bind (Q := fun _ s => Deep n s.toStacks ∧ c + k ≤ s.nOpCount) (safe_modify ?_)
    fun _ => ?_
  · intro s hs
    exact ⟨hs.1, Nat.add_le_add_right hs.2.1 k⟩
  · refine safe_bind safe_get fun s => ?_
    apply safe_ite
    · intro _
      exact safe_throw nofun
    · intro hlimit
      apply safe_pure
      rintro _ ⟨rfl, hdeep, hcount⟩
      exact ⟨hdeep, hcount, Nat.le_of_not_lt hlimit⟩

theorem safe_checkSignature (vchSig vchPubKey : Valtype) (scriptCode : CScript) :
    Safe NotBelow (DeepCounted n c) (checkSignature env flags vchSig vchPubKey scriptCode)
      fun _ => DeepCounted n c := by
  refine safe_bind (Q := fun _ => DeepCounted n c) (safe_modify fun _ hs => hs) fun _ => ?_
  exact safe_pure fun _ => id

theorem safe_popMany (n : Nat) : Safe NotBelow (Deep n) (popMany n) fun _ _ => True := by
  induction n with
  | zero => exact safe_pure fun _ _ => trivial
  | succ n ih => exact safe_bind safe_popstack fun _ => ih

theorem safe_pushResult (nPopped : Nat) (fVerify fSuccess : Bool) :
    Safe NotBelow (Deep nPopped) (pushResult nPopped fVerify fSuccess) fun _ _ => True := by
  refine safe_bind (safe_popMany nPopped) fun _ => ?_
  refine safe_bind ((safe_pushstack (n := 0) _).pre fun _ _ => Nat.zero_le _) fun _ => ?_
  exact safe_verifyTop fVerify fSuccess

/-! ### Opcodes that check signatures -/

theorem safe_evalCheckSig (fVerify : Bool) :
    Safe NotBelow (Counted c) (evalCheckSig env flags fVerify) fun _ => Counted c := by
  refine safe_bind ((safe_onStacks (safe_needs (P := fun _ => True) 2)).pre
    fun _ hs => ⟨trivial, hs⟩) fun _ => ?_
  refine safe_bind (safe_onStacks (safe_stacktop (by decide))) fun vchSig => ?_
  refine safe_bind (safe_onStacks (safe_stacktop (by decide))) fun vchPubKey => ?_
  refine safe_bind safe_get fun s => ?_
  refine safe_bind ((safe_checkSignature (n := 2) (c := c) _ _ _).pre fun _ hs => hs.2)
    fun fSuccess => ?_
  exact (safe_onStacks (safe_pushResult 2 fVerify fSuccess)).mono (fun _ => id) fun _ _ hs => hs.2

theorem safe_readCount {i : Nat} (hi : i - 1 < n) : Safe NotBelow (Deep n) (readCount i) fun _ => Deep n := by
  refine safe_bind (safe_stacktop hi) fun vch => ?_
  refine safe_bind (safe_castToBigNum vch) fun bn => ?_
  exact safe_pure fun _ => id

/-- **The two counts of a multisig** are those of items that are there. -/
theorem safe_multiSigCounts :
    Safe NotBelow (Counted c) multiSigCounts fun counts s =>
      counts.2 ≤ counts.1 ∧ DeepCounted (3 + counts.1 + counts.2) c s := by
  refine safe_bind ((safe_onStacks (safe_needs (P := fun _ => True) 1)).pre
    fun _ hs => ⟨trivial, hs⟩) fun _ => ?_
  refine safe_bind (safe_onStacks (safe_readCount (by decide))) fun nKeysCount => ?_
  apply safe_ite
  · intro _
    exact safe_throw nofun
  · intro _
    refine safe_bind (safe_countOps nKeysCount.toNat) fun _ => ?_
    refine safe_bind (safe_onStacks (safe_needs (2 + nKeysCount.toNat))) fun _ => ?_
    refine safe_bind (safe_onStacks (safe_readCount (by omega))) fun nSigsCount => ?_
    apply safe_ite
    · intro _
      exact safe_throw nofun
    · intro hrange
      refine safe_bind (safe_onStacks (safe_needs (3 + nKeysCount.toNat + nSigsCount.toNat)))
        fun _ => ?_
      apply safe_pure
      intro s hs
      exact ⟨by omega, DeepCounted.mono hs (Nat.le_refl _) (Nat.le_add_right _ _)⟩

theorem safe_dropSignatures (nSigsCount isig : Nat) (scriptCode : CScript) (hisig : 1 ≤ isig)
    (hn : isig - 1 + nSigsCount ≤ n) :
    Safe NotBelow (Deep n) (dropSignatures nSigsCount isig scriptCode) fun _ => Deep n := by
  induction nSigsCount generalizing isig scriptCode with
  | zero => exact safe_pure fun _ => id
  | succ nSigsCount ih =>
    refine safe_bind (safe_stacktop (by omega)) fun vchSig => ?_
    exact ih (isig + 1) _ (by omega) (by omega)

/-- **The loop over the keys** reads signatures and keys that are there: whenever it goes on, both
indices stay within what is left of the two counts. -/
theorem safe_multiSigLoop (scriptCode : CScript) (nKeysCount nSigsCount isig ikey : Nat)
    (hisig : 1 ≤ isig) (hikey : 1 ≤ ikey) (hsigs : isig - 1 + nSigsCount ≤ n)
    (hkeys : ikey - 1 + nKeysCount ≤ n) :
    Safe NotBelow (DeepCounted n c)
      (multiSigLoop env flags scriptCode nKeysCount nSigsCount isig ikey) fun _ =>
        DeepCounted n c := by
  induction nKeysCount generalizing nSigsCount isig ikey with
  | zero =>
    cases nSigsCount with
    | zero => exact safe_pure fun _ => id
    | succ nSigsCount => exact safe_pure fun _ => id
  | succ nKeysCount ih =>
    cases nSigsCount with
    | zero => exact safe_pure fun _ => id
    | succ nSigsCount =>
      refine safe_bind (safe_onStacks (safe_stacktop (by omega))) fun vchSig => ?_
      refine safe_bind (safe_onStacks (safe_stacktop (by omega))) fun vchPubKey => ?_
      refine safe_bind (safe_checkSignature _ _ _) fun fOk => ?_
      cases fOk with
      | false =>
        apply safe_ite
        · intro _
          exact safe_pure fun _ => id
        · intro _
          exact ih (nSigsCount + 1) isig (ikey + 1) hisig (by omega) hsigs (by omega)
      | true =>
        apply safe_ite
        · intro _
          exact safe_pure fun _ => id
        · intro _
          exact ih nSigsCount (isig + 1) (ikey + 1) (by omega) (by omega) (by omega) (by omega)

theorem safe_evalCheckMultiSig (fVerify : Bool) :
    Safe NotBelow (Counted c) (evalCheckMultiSig env flags fVerify) fun _ => Counted c := by
  refine safe_bind safe_multiSigCounts ?_
  rintro ⟨nKeysCount, nSigsCount⟩
  refine safe_of_pre (p := nSigsCount ≤ nKeysCount) (fun _ hs => hs.1) fun hle => ?_
  refine safe_bind safe_get fun s => ?_
  refine safe_bind ((safe_onStacks (c := c) (safe_dropSignatures nSigsCount (3 + nKeysCount)
    s.pbegincodehash (by omega) (by omega))).pre fun _ hs => hs.2.2) fun scriptCode => ?_
  refine safe_bind (safe_multiSigLoop scriptCode nKeysCount nSigsCount (3 + nKeysCount) 2 (by omega)
    (by omega) (by omega) (by omega)) fun fSuccess => ?_
  exact (safe_onStacks (safe_pushResult _ fVerify fSuccess)).mono (fun _ hs => hs) fun _ _ hs => hs.2

/-! ### Instructions -/

theorem safe_evalIf (fNot fExec : Bool) :
    Safe NotBelow (Counted c) (evalIf fNot fExec) fun _ => Counted c := by
  refine safe_bind (safe_onStacks_counted ?_) fun fValue => safe_modify fun _ hs => hs
  apply safe_ite
  · intro _
    refine safe_bind (safe_needs 1) fun _ => ?_
    refine safe_bind (safe_stacktop (by decide)) fun vch => ?_
    refine safe_bind safe_popstack fun _ => ?_
    exact safe_pure fun _ _ => trivial
  · intro _
    exact safe_pure fun _ _ => trivial

theorem safe_evalElse : Safe NotBelow (Counted c) evalElse fun _ => Counted c := by
  refine safe_bind safe_get fun s => ?_
  split
  · exact safe_throw nofun
  · apply safe_set
    rintro _ ⟨rfl, hs⟩
    exact hs

theorem safe_evalEndIf : Safe NotBelow (Counted c) evalEndIf fun _ => Counted c := by
  refine safe_bind safe_get fun s => ?_
  split
  · exact safe_throw nofun
  · apply safe_set
    rintro _ ⟨rfl, hs⟩
    exact hs

/-- **No opcode reaches below the bottom of a stack.** -/
theorem safe_evalOpcode (fExec : Bool) (pc : CScript) (op : OpcodeType) :
    Safe NotBelow (Counted c) (evalOpcode env flags fExec pc op) fun _ => Counted c := by
  unfold evalOpcode
  split
  · exact safe_evalIf _ _
  · exact safe_evalIf _ _
  · exact safe_evalElse
  · exact safe_evalEndIf
  · exact safe_modify fun _ hs => hs
  · exact safe_evalCheckSig false
  · exact safe_evalCheckSig true
  · exact safe_evalCheckMultiSig false
  · exact safe_evalCheckMultiSig true
  · exact safe_onStacks_counted (safe_evalStackOp env _)

theorem safe_execInstruction (fExec : Bool) (opcode : Nat) (vchPushValue : Valtype) (pc : CScript) :
    Safe NotBelow (Counted c) (execInstruction env flags fExec opcode vchPushValue pc) fun _ =>
      Counted c := by
  have hpush : ∀ vch, Safe NotBelow (Counted c) (onStacks (pushstack vch)) fun _ => Counted c :=
    fun vch => safe_onStacks_counted (safe_modify fun _ _ => trivial)
  refine safe_ite (fun _ => hpush _) fun _ => ?_
  refine safe_ite (fun _ => ?_) fun _ => safe_pure fun _ => id
  exact safe_ite (fun _ => hpush _) fun _ => safe_evalOpcode fExec pc _

def countsFor (opcode : Nat) : Nat := if opcode > OP_16 then 1 else 0

/-- **An instruction reaches below the bottom of no stack**, is counted, and leaves stacks of the
size allowed. -/
theorem safe_evalInstruction (opcode : Nat) (vchPushValue : Valtype) (pc : CScript) :
    Safe NotBelow (Counted c) (evalInstruction env flags opcode vchPushValue pc) fun _ s =>
      Counted (c + countsFor opcode) s ∧ s.stack.length + s.altstack.length ≤ 1000 := by
  refine safe_bind safe_get fun s => ?_
  refine safe_ite (fun _ => safe_throw nofun) fun _ => ?_
  refine safe_bind (Q := fun _ => Counted (c + countsFor opcode)) ?_ fun _ => ?_
  · unfold countsFor countOpcode
    split_ifs
    · exact (safe_countOps (n := 0) 1).mono (fun _ hs => hs.2.deep) fun _ _ hs => hs.2
    · exact safe_pure fun _ hs => hs.2
  · refine safe_ite (fun _ => safe_throw nofun) fun _ => ?_
    refine safe_bind (safe_execInstruction _ _ _ _) fun _ => ?_
    refine safe_bind safe_get fun s => ?_
    apply safe_ite
    · intro _
      exact safe_throw nofun
    · intro hsize
      apply safe_pure
      rintro _ ⟨rfl, hs⟩
      exact ⟨hs, Nat.le_of_not_lt hsize⟩

end Opcodes

section Pushes

variable {env : ScriptEnv} {flags : ScriptFlags}

theorem length_bnGetVch_small {opcode : Nat} (h : opcode = OP_1NEGATE ∨ (OP_1 ≤ opcode ∧ opcode ≤ OP_16)) :
    (bnGetVch ((opcode : Int) - (OP_1 - 1 : Nat))).length ≤ MAX_SCRIPT_ELEMENT_SIZE := by
  rcases h with rfl | ⟨hlower, hupper⟩
  · decide
  · simp only [OP_1, OP_16] at hlower hupper
    interval_cases opcode <;> decide

/-- What a push opcode leaves: an item of the size allowed, on the items before, if the branch is
executed. -/
def Pushed (stack : List Valtype) (s : EvalState) : Prop :=
  s.stack = stack ∨ ∃ vch, s.stack = vch :: stack ∧ vch.length ≤ MAX_SCRIPT_ELEMENT_SIZE

/-- **A push opcode pushes no item larger than allowed.** -/
theorem safe_pushInstruction {opcode : Nat} (hpush : opcode ≤ OP_16) (vchPushValue : Valtype)
    (pc : CScript) (stack : List Valtype) : Safe (fun _ => True) (fun s => s.stack = stack)
      (evalInstruction env flags opcode vchPushValue pc) fun _ => Pushed stack := by
  have hitem : ∀ vch : Valtype, vch.length ≤ MAX_SCRIPT_ELEMENT_SIZE →
      Safe (fun _ => True) (fun s => s.stack = stack) (onStacks (pushstack vch)) fun _ =>
        Pushed stack := by
    intro vch hlen s hs
    exact .inr ⟨vch, congrArg (vch :: ·) hs, hlen⟩
  refine safe_bind safe_get fun s => ?_
  refine safe_ite (fun _ => safe_throw trivial) fun hlen => ?_
  refine safe_bind (Q := fun _ s => s.stack = stack) ?_ fun _ => ?_
  · refine safe_ite (fun hcounted => absurd hpush (Nat.not_le_of_lt hcounted)) fun _ => ?_
    exact safe_pure fun _ hs => hs.2
  · refine safe_ite (fun _ => safe_throw trivial) fun _ => ?_
    refine safe_bind (Q := fun _ => Pushed stack) ?_ fun _ => ?_
    · refine safe_ite (fun _ => hitem _ (Nat.le_of_not_lt hlen)) fun _ => ?_
      refine safe_ite (fun _ => ?_) fun _ => safe_pure fun _ hs => .inl hs
      refine safe_ite (fun hsmall => hitem _ (length_bnGetVch_small hsmall)) fun _ => ?_
      -- What is left is `OP_RESERVED`.
      have hcode : OpcodeType.ofCode opcode = .OP_INVALIDOPCODE :=
        if_pos (Nat.lt_of_le_of_lt hpush (by decide))
      rw [hcode]
      intro s _
      trivial
    · refine safe_bind safe_get fun s => ?_
      refine safe_ite (fun _ => safe_throw trivial) fun _ => ?_
      exact safe_pure fun _ hs => hs.2

end Pushes

/-! ### The loop -/

/-- **Rounds of the loop of `EvalScript`**, by the opcodes executed: from a script and a state to
what is left of the script and the state then. -/
inductive Rounds (env : ScriptEnv) (flags : ScriptFlags) :
    CScript → EvalState → List Nat → CScript → EvalState → Prop
  | done {pc s} : Rounds env flags pc s [] pc s
  | round {pc s opcode vchPushValue pc₁ s₁ opcodes pc₂ s₂} :
      getOp pc = some (opcode, vchPushValue, pc₁) →
      evalInstruction env flags opcode vchPushValue pc₁ s = .ok () s₁ →
      Rounds env flags pc₁ s₁ opcodes pc₂ s₂ →
      Rounds env flags pc s (opcode :: opcodes) pc₂ s₂

/-- **How the loop ends**: at the end of the script, where no instruction can be read, or in an
instruction that stops. -/
inductive Ends (env : ScriptEnv) (flags : ScriptFlags) (pc : CScript) (s : EvalState) :
    EStateM.Result EvalStop EvalState Unit → Prop
  | finished : pc = [] → Ends env flags pc s (.ok () s)
  | unreadable : pc ≠ [] → getOp pc = none → Ends env flags pc s (.error .returnFalse s)
  | stopped {opcode vchPushValue pc' e s'} : getOp pc = some (opcode, vchPushValue, pc') →
      evalInstruction env flags opcode vchPushValue pc' s = .error e s' →
      Ends env flags pc s (.error e s')

section Loop

variable {env : ScriptEnv} {flags : ScriptFlags} {pc pc' : CScript} {s s' : EvalState}
  {opcodes : List Nat}

theorem evalLoop_succ (fuel : Nat) (hpc : pc ≠ []) :
    evalLoop env flags (fuel + 1) pc s =
      match getOp pc with
      | none => .error .returnFalse s
      | some (opcode, vchPushValue, pc₁) =>
        match evalInstruction env flags opcode vchPushValue pc₁ s with
        | .ok _ s₁ => evalLoop env flags fuel pc₁ s₁
        | .error e s₁ => .error e s₁ := by
  rw [evalLoop, if_neg hpc]
  cases getOp pc with
  | none => rfl
  | some out =>
    obtain ⟨opcode, vchPushValue, pc₁⟩ := out
    dsimp only
    rw [bind_apply]
    cases evalInstruction env flags opcode vchPushValue pc₁ s with
    | ok a s₁ => rfl
    | error e s₁ => rfl

/-- **The loop ends**: a script of `n` bytes takes `n` rounds at most. -/
theorem evalLoop_ends (fuel : Nat) (hfuel : pc.length ≤ fuel) :
    ∃ opcodes pc' s', opcodes.length ≤ pc.length ∧ Rounds env flags pc s opcodes pc' s' ∧
      Ends env flags pc' s' (evalLoop env flags fuel pc s) := by
  induction fuel generalizing pc s with
  | zero =>
    obtain rfl := List.length_eq_zero_iff.mp (Nat.le_zero.mp hfuel)
    exact ⟨[], [], s, Nat.le_refl _, .done, .finished rfl⟩
  | succ fuel ih =>
    by_cases hpc : pc = []
    · subst hpc
      exact ⟨[], [], s, Nat.le_refl _, .done, .finished rfl⟩
    · rw [evalLoop_succ fuel hpc]
      cases hop : getOp pc with
      | none => exact ⟨[], pc, s, Nat.zero_le _, .done, .unreadable hpc hop⟩
      | some out =>
        obtain ⟨opcode, vchPushValue, pc₁⟩ := out
        have hlt := getOp_length_lt hop
        dsimp only
        cases hrun : evalInstruction env flags opcode vchPushValue pc₁ s with
        | error e s₁ => exact ⟨[], pc, s, Nat.zero_le _, .done, .stopped hop hrun⟩
        | ok a s₁ =>
          obtain ⟨opcodes, pc', s', hlen, hrounds, hends⟩ := @ih pc₁ s₁ (by omega)
          refine ⟨opcode :: opcodes, pc', s', ?_, .round hop hrun hrounds, hends⟩
          rw [List.length_cons]
          omega

def countedOpcodes (opcodes : List Nat) : Nat := (opcodes.filter (OP_16 < ·)).length

theorem countedOpcodes_cons (opcode : Nat) (opcodes : List Nat) :
    countedOpcodes (opcode :: opcodes) = countsFor opcode + countedOpcodes opcodes := by
  unfold countedOpcodes countsFor
  by_cases h : OP_16 < opcode
  · rw [List.filter_cons_of_pos (by simpa using h), List.length_cons, if_pos h, Nat.add_comm]
  · rw [List.filter_cons_of_neg (by simpa using h), if_neg h, Nat.zero_add]

/-- **The opcodes executed are counted.** -/
theorem Rounds.counted (h : Rounds env flags pc s opcodes pc' s') {c : Nat} (hs : Counted c s) :
    Counted (c + countedOpcodes opcodes) s' := by
  induction h generalizing c with
  | done => exact hs
  | round hop hrun hrounds ih =>
    have hnext := ih ((safe_evalInstruction _ _ _).ok hs hrun).1
    rwa [Nat.add_assoc, ← countedOpcodes_cons] at hnext

/-- **After every opcode the stacks have the size allowed.** -/
theorem Rounds.size_le (h : Rounds env flags pc s opcodes pc' s') {c : Nat} (hs : Counted c s)
    (hne : opcodes ≠ []) : s'.stack.length + s'.altstack.length ≤ 1000 := by
  induction h generalizing c with
  | done => exact absurd rfl hne
  | @round pc s opcode vchPushValue pc₁ s₁ opcodes pc₂ s₂ hop hrun hrounds ih =>
    obtain ⟨hcounted, hsize⟩ := (safe_evalInstruction _ _ _).ok hs hrun
    cases hrounds with
    | done => exact hsize
    | round hop' hrun' hrest => exact ih hcounted (List.cons_ne_nil _ _)

end Loop

/-! ### The assertion of VerifyScript -/

/-- What pays to a script hash starts with `OP_HASH160`. -/
theorem getOp_payToScriptHash {script : CScript} (h : isPayToScriptHash script = true) :
    ∃ pc, getOp script = some (OP_HASH160, [], pc) := by
  simp only [isPayToScriptHash, Bool.and_eq_true, beq_iff_eq] at h
  cases script with
  | nil => cases h.1.1.1
  | cons b pc =>
    have hfirst : b = UInt8.ofNat OP_HASH160 := Option.some.inj h.1.1.2
    subst hfirst
    exact ⟨pc, rfl⟩

/-- **What pays to a script hash needs an item**: the assertion's comment in `VerifyScript`. -/
theorem evalScript_payToScriptHash_nil (env : ScriptEnv) (flags : ScriptFlags) {script : CScript}
    (h : isPayToScriptHash script = true) : (evalScript env flags script []).ok = false := by
  obtain ⟨pc, hop⟩ := getOp_payToScriptHash h
  have hne : script ≠ [] := by
    rintro rfl
    cases hop
  have hstop : ∀ fuel s, s.toStacks = ⟨[], []⟩ → s.vfExec = [] → s.nOpCount = 0 →
      ∃ e s', evalLoop env flags (fuel + 1) script s = .error e s' := by
    rintro fuel ⟨⟨stack, altstack⟩, vfExec, nOpCount, pbegincodehash, nSigChecks⟩ hstacks hexec hcount
    cases hstacks
    cases hexec
    cases hcount
    exact ⟨.returnFalse, _, by rw [evalLoop_succ fuel hne, hop]; rfl⟩
  unfold evalScript
  split
  · rfl
  · obtain ⟨fuel, hfuel⟩ := Nat.exists_eq_succ_of_ne_zero
      (Nat.ne_of_gt (List.length_pos_iff.mpr hne))
    obtain ⟨e, s', hrun⟩ := hstop fuel ⟨⟨[], []⟩, [], 0, script, 0⟩ rfl rfl rfl
    rw [hfuel, hrun]

/-- **The assertion of `VerifyScript` holds**: where a script hash was paid to and its script
succeeded, the stack copied before was not empty. -/
theorem verifyScript_ne_none (env : ScriptEnv) (flags : ScriptFlags) (scriptSig scriptPubKey : CScript) :
    (verifyScript env flags scriptSig scriptPubKey).result ≠ none := by
  unfold verifyScript
  dsimp only
  split_ifs with hsig hpubkey htop hp2sh hcopy
  · exact Option.some_ne_none _
  · exact Option.some_ne_none _
  · exact Option.some_ne_none _
  · unfold verifyRedeemScript
    split
    · exact Option.some_ne_none _
    · split
      · next hstack =>
        rw [hstack, evalScript_payToScriptHash_nil env flags hp2sh.2] at hpubkey
        exact absurd rfl hpubkey
      · exact Option.some_ne_none _
  · exact absurd hp2sh.1 hcopy
  · exact Option.some_ne_none _

def evalStart (script : CScript) (stack : List Valtype) : EvalState :=
  ⟨⟨stack, []⟩, [], 0, script, 0⟩

/-- **The interpreter is safe**, whatever the script, the stack and the transaction. Its loop ends
and never reaches below the bottom of a stack; after every opcode the stacks have the size allowed,
at most 201 counted opcodes were executed, and a push opcode has pushed no item larger than allowed.
The assertion of `VerifyScript` holds. -/
theorem evalScript_safe (env : ScriptEnv) (flags : ScriptFlags) (script : CScript)
    (stack : List Valtype) :
    (∃ opcodes pc s, opcodes.length ≤ script.length ∧
      Rounds env flags script (evalStart script stack) opcodes pc s ∧
      Ends env flags pc s (evalLoop env flags script.length script (evalStart script stack))) ∧
    (∀ s, evalLoop env flags script.length script (evalStart script stack) ≠
      .error .outOfRange s) ∧
    (∀ opcodes pc s, Rounds env flags script (evalStart script stack) opcodes pc s →
      (opcodes ≠ [] → s.stack.length + s.altstack.length ≤ 1000) ∧
      countedOpcodes opcodes ≤ 201 ∧
      ∀ opcode vchPushValue pc' s', getOp pc = some (opcode, vchPushValue, pc') →
        evalInstruction env flags opcode vchPushValue pc' s = .ok () s' → opcode ≤ OP_16 →
        Pushed s.stack s') ∧
    ∀ scriptSig scriptPubKey, (verifyScript env flags scriptSig scriptPubKey).result ≠ none := by
  have hstart : Counted 0 (evalStart script stack) := ⟨Nat.le_refl _, Nat.zero_le _⟩
  have hloop := @evalLoop_ends env flags script (evalStart script stack) script.length
    (Nat.le_refl _)
  refine ⟨hloop, ?_, ?_, verifyScript_ne_none env flags⟩
  · intro s hstop
    obtain ⟨opcodes, pc, s', -, hrounds, hends⟩ := hloop
    rw [hstop] at hends
    cases hends with
    | stopped hop hrun => exact (safe_evalInstruction _ _ _).stop (hrounds.counted hstart) hrun rfl
  · intro opcodes pc s hrounds
    have hcounted := hrounds.counted hstart
    rw [Nat.zero_add] at hcounted
    refine ⟨hrounds.size_le hstart, hcounted.1.trans hcounted.2, ?_⟩
    intro opcode vchPushValue pc' s' _ hrun hpush
    exact (safe_pushInstruction hpush vchPushValue pc' s.stack).ok rfl hrun

end Manna
