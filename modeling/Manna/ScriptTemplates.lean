import Manna.ScriptParsing
import Manna.SignatureCache
import Manna.StandardScript
import Manna.Wallet

/-!
What is built for `Solver` is recognised, and when what it recognises is built again (`script.cpp`:
`Solver`, `ExtractDestination`, `CScript::SetDestination`, `CScript::SetMultisig`).

* `StandardScript.solver_eq`: a script of one of the forms is accepted, with the converse
  `solver_standard`;
* `Instructions.eq_of_direct`: a script whose pushes are direct is its instructions;
* `solver_inverts`: the destinations and the multisigs, and the scripts that are rebuilt.
-/

namespace Manna

open Wallet

/-- `CScript::EncodeOP_N`; `none` where the assertion fails. -/
def encodeOpN (n : Int) : Option Nat :=
  if 0 ≤ n ∧ n ≤ 16 then some (if n = 0 then OP_0 else (OP_1 + n - 1).toNat) else none

/-- `CScript::operator<<(const CPubKey&)`. A key that is not valid has no bytes. -/
def pushPubKey (key : Option CPubKey) : CScript :=
  let vch := (key.map CPubKey.vch).getD []
  UInt8.ofNat vch.length :: vch

/-- `CScript::SetMultisig`; `none` where an assertion fails. -/
def setMultisig (nRequired : Int) (keys : List (Option CPubKey)) : Option CScript :=
  match encodeOpN nRequired, encodeOpN keys.length with
  | some required, some count =>
    some (opcodes [required] ++ (keys.flatMap pushPubKey ++ opcodes [count, OP_CHECKMULTISIG]))
  | _, _ => none

/-! ### Instructions and their bytes -/

variable {script : CScript} {vSolutions : List Valtype} {keyID : Valtype} {nRequired : Nat}

theorem Instructions.unique {l l' : List (Nat × Valtype)}
    (h : Instructions script l) (h' : Instructions script l') : l = l' := by
  induction h generalizing l' with
  | nil =>
    cases h' with
    | nil => rfl
    | cons hop _ => cases hop
  | cons hop _ ih =>
    obtain ⟨l'', rfl, hrest⟩ := h'.of_getOp hop
    rw [ih hrest]

/-- A push with its opcode for the size, or no push. -/
def IsDirect (op : Nat × Valtype) : Prop := op.1 < OP_PUSHDATA1 ∨ OP_PUSHDATA4 < op.1

/-- **No instruction of the script is an `OP_PUSHDATA`.** -/
def DirectPushes (script : CScript) : Prop := ∀ l, Instructions script l → ∀ op ∈ l, IsDirect op

/-- The bytes of such an instruction. -/
def directBytes (op : Nat × Valtype) : CScript := UInt8.ofNat op.1 :: op.2

theorem getOp_direct {pc rest : CScript} {opcode : Nat} {vch : Valtype}
    (h : getOp pc = some (opcode, vch, rest)) (hdirect : IsDirect (opcode, vch)) :
    pc = directBytes (opcode, vch) ++ rest ∧ (opcode < OP_PUSHDATA1 → vch.length = opcode) := by
  obtain ⟨byte, size, rfl, rfl, -, hpush, hlone⟩ := getOp_cases h
  refine ⟨?_, fun hlt => (hpush hlt).2⟩
  have hsize : size = [] := hdirect.elim (fun hlt => (hpush hlt).1) fun hlt => (hlone hlt).1
  rw [directBytes, UInt8.ofNat_toNat, hsize, List.nil_append, List.cons_append]

/-- **A script whose pushes are direct** is its instructions. -/
theorem Instructions.eq_of_direct {l : List (Nat × Valtype)}
    (h : Instructions script l) (hdirect : ∀ op ∈ l, IsDirect op) : script = l.flatMap directBytes := by
  induction h with
  | nil => rfl
  | cons hop _ ih =>
    rw [List.flatMap_cons, ← ih fun op hmem => hdirect op (List.mem_cons_of_mem _ hmem)]
    exact (getOp_direct hop (hdirect _ List.mem_cons_self)).1

/-- An instruction that can be written so. -/
def IsWritable (op : Nat × Valtype) : Prop :=
  (op.1 < OP_PUSHDATA1 ∧ op.2.length = op.1) ∨ (OP_PUSHDATA4 < op.1 ∧ op.1 < 256 ∧ op.2 = [])

theorem IsWritable.isDirect {op : Nat × Valtype} (h : IsWritable op) : IsDirect op :=
  h.imp And.left And.left

theorem getOp_directBytes {op : Nat × Valtype} (h : IsWritable op) (rest : CScript) :
    getOp (directBytes op ++ rest) = some (op.1, op.2, rest) := by
  obtain ⟨opcode, vch⟩ := op
  rcases h with ⟨hlt, hlen⟩ | ⟨hgt, hbyte, hvch⟩
  · dsimp only at hlt hlen
    subst hlen
    have hcode : vch.length ≤ OP_PUSHDATA4 := hlt.le.trans (by decide)
    exact getOp_push hcode (if_pos hlt)
  · dsimp only at hgt hbyte hvch
    subst hvch
    exact getOp_byte hgt hbyte rest

theorem instructions_directBytes {l : List (Nat × Valtype)} (h : ∀ op ∈ l, IsWritable op) :
    Instructions (l.flatMap directBytes) l := by
  induction l with
  | nil => exact .nil
  | cons op l ih =>
    rw [List.flatMap_cons]
    exact .cons (getOp_directBytes (h op List.mem_cons_self) _)
      (ih fun op' hmem => h op' (List.mem_cons_of_mem op hmem))

/-! ### What is accepted, and only that -/

section Template

variable {fuel opcode opcode₂ : Nat} {vch : Valtype} {pc rest : CScript} {template : List Nat}
  {vSolutions : List Valtype}

theorem matchTemplate_eq (hop : getOp pc = some (opcode, vch, rest)) (hcode : OP_PUSHDATA4 < opcode₂)
    (hbyte : opcode₂ < 256) (hone : opcode₂ ≠ OP_PUBKEYS) :
    matchTemplate (fuel + 1) pc (opcodes (opcode₂ :: template)) vSolutions =
      (matchInstruction ⟨opcode, vch, rest⟩ opcode₂ []).bind fun found =>
        matchTemplate fuel rest (opcodes template) (vSolutions ++ found) := by
  rw [matchTemplate, if_neg (fun hnil => List.cons_ne_nil _ _ hnil.2), hop, getOp_opcodes hcode hbyte]
  dsimp only
  rw [if_neg hone]

theorem matchTemplate_end : matchTemplate (fuel + 1) [] (opcodes []) vSolutions = some vSolutions :=
  if_pos ⟨rfl, rfl⟩

theorem matchTemplate_opcode (hop : getOp pc = some (opcode₂, [], rest))
    (hcode : OP_PUSHDATA4 < opcode₂) (hupper : opcode₂ < OP_SMALLINTEGER) :
    matchTemplate (fuel + 1) pc (opcodes (opcode₂ :: template)) vSolutions =
      matchTemplate fuel rest (opcodes template) vSolutions := by
  simp only [OP_SMALLINTEGER] at hupper
  rw [matchTemplate_eq hop hcode (by omega) (by simp only [OP_PUBKEYS]; omega), matchInstruction,
    if_neg (by simp only [OP_PUBKEY]; omega), if_neg (by simp only [OP_PUBKEYHASH]; omega),
    if_neg (by simp only [OP_SMALLINTEGER]; omega), if_neg (by simp), Option.bind_some,
    List.append_nil]

theorem matchInstruction_smallInt_eq (rest : CScript) {n : Nat} (hpos : 1 ≤ n) (hmax : n ≤ 16) :
    matchInstruction ⟨(smallInt n).1, (smallInt n).2, rest⟩ OP_SMALLINTEGER [] = some [[UInt8.ofNat n]] := by
  have hrange : OP_1 ≤ (smallInt n).1 ∧ (smallInt n).1 ≤ OP_16 := by
    simp only [smallInt, OP_1, OP_16]
    omega
  have hdecode : decodeOpN (smallInt n).1 = n := by
    rw [decodeOpN, if_neg (by simp only [smallInt, OP_1, OP_0]; omega)]
    simp only [smallInt, OP_1]
    omega
  rw [matchInstruction, if_neg (by decide), if_neg (by decide), if_pos rfl, if_pos (.inr hrange),
    hdecode]

variable {l : List (Nat × Valtype)}

theorem Instructions.exists_op (h : Instructions pc l) (hne : l ≠ []) :
    ∃ op : Instruction, getOp pc = some (op.opcode, op.vch, op.pc) := by
  cases h with
  | nil => exact absurd rfl hne
  | cons hop _ => exact ⟨⟨_, _, _⟩, hop⟩

theorem takePubKeys_eq (vSolutions : List Valtype) (fuel : Nat) {keys : List (Nat × Valtype)} {stop : Nat × Valtype}
    {op : Instruction} (hkeys : ∀ key ∈ keys, 33 ≤ key.2.length ∧ key.2.length ≤ 120)
    (hstop : stop.2.length < 33) (h : Instructions pc (keys ++ stop :: l))
    (hop : getOp pc = some (op.opcode, op.vch, op.pc)) (hfuel : op.pc.length < fuel) :
    ∃ rest, takePubKeys fuel op vSolutions =
        (vSolutions ++ keys.map Prod.snd, ⟨stop.1, stop.2, rest⟩) ∧ Instructions rest l := by
  induction keys generalizing pc op vSolutions fuel with
  | nil =>
    obtain ⟨opcode, vch, rest⟩ := op
    obtain ⟨l', heq, hrest⟩ := h.of_getOp hop
    rw [List.nil_append, List.cons.injEq] at heq
    obtain ⟨rfl, rfl⟩ := heq
    refine ⟨rest, ?_, hrest⟩
    cases fuel with
    | zero => omega
    | succ fuel =>
      rw [takePubKeys, if_neg fun hkey => absurd hstop (Nat.not_lt.mpr hkey.1)]
      simp
  | cons key keys ih =>
    obtain ⟨opcode, vch, rest⟩ := op
    obtain ⟨l', heq, hrest⟩ := h.of_getOp hop
    rw [List.cons_append, List.cons.injEq] at heq
    obtain ⟨rfl, rfl⟩ := heq
    have hkey := hkeys _ List.mem_cons_self
    cases fuel with
    | zero => omega
    | succ fuel =>
      obtain ⟨next, hnext⟩ := hrest.exists_op (by simp)
      have hlt := getOp_length_lt hnext
      dsimp only at hfuel hlt
      obtain ⟨after, htake, hafter⟩ := ih (vSolutions ++ [vch]) fuel
        (fun key' hmem => hkeys key' (List.mem_cons_of_mem _ hmem)) hrest hnext
        (by omega)
      refine ⟨after, ?_, hafter⟩
      rw [takePubKeys, if_pos hkey]
      dsimp only
      rw [hnext]
      dsimp only
      rw [htake, List.append_assoc]
      rfl

theorem matchTemplate_keys (fuel : Nat) (template : List Nat) (vSolutions : List Valtype)
    {keys : List (Nat × Valtype)} {n : Nat}
    (hkeys : ∀ key ∈ keys, 33 ≤ key.2.length ∧ key.2.length ≤ 120) (hpos : 1 ≤ n) (hmax : n ≤ 16)
    (h : Instructions pc (keys ++ smallInt n :: l)) :
    ∃ rest, matchTemplate (fuel + 1) pc (opcodes (OP_PUBKEYS :: OP_SMALLINTEGER :: template))
        vSolutions = matchTemplate fuel rest (opcodes template)
          (vSolutions ++ keys.map Prod.snd ++ [[UInt8.ofNat n]]) ∧ Instructions rest l := by
  obtain ⟨op, hop⟩ := h.exists_op (by simp)
  obtain ⟨rest, htake, hrest⟩ := takePubKeys_eq vSolutions _ hkeys (by simp [smallInt])
    h hop (Nat.lt_succ_self _)
  refine ⟨rest, ?_, hrest⟩
  rw [matchTemplate, if_neg (fun hnil => List.cons_ne_nil _ _ hnil.2), hop,
    getOp_opcodes (by decide) (by decide)]
  dsimp only
  rw [if_pos rfl, htake, getOp_opcodes (by decide) (by decide)]
  dsimp only
  rw [matchInstruction_smallInt_eq _ hpos hmax, Option.bind_some]

end Template

section Accepted

variable {script : CScript} {l : List (Nat × Valtype)}

/-- A script that does not start with `OP_HASH160` pays to no script. -/
theorem isPayToScriptHash_eq_false (h : Instructions script l)
    (hhead : l.head? ≠ some (OP_HASH160, [])) : isPayToScriptHash script = false := by
  rw [← Bool.not_eq_true]
  intro hscript
  cases standard_scripthash hscript with
  | scripthash _ hinstructions _ =>
    obtain rfl := h.unique hinstructions
    exact hhead rfl

theorem solver_templates (h : isPayToScriptHash script = false) :
    solver script =
      match matchTemplate 3 script (opcodes [OP_PUBKEY, OP_CHECKSIG]) [] with
      | some vSolutions => (true, .pubkey, vSolutions)
      | none =>
        match matchTemplate 6 script
          (opcodes [OP_DUP, OP_HASH160, OP_PUBKEYHASH, OP_EQUALVERIFY, OP_CHECKSIG]) [] with
        | some vSolutions => (true, .pubkeyhash, vSolutions)
        | none =>
          match matchTemplate 5 script
            (opcodes [OP_SMALLINTEGER, OP_PUBKEYS, OP_SMALLINTEGER, OP_CHECKMULTISIG]) [] with
          | some vSolutions => (multisigCounts vSolutions, .multisig, vSolutions)
          | none => (false, .nonstandard, []) := by
  rw [solver, h, if_neg Bool.false_ne_true]
  simp only [mTemplates, List.findSome?_cons, List.findSome?_nil]
  have hlen₁ : (opcodes [OP_PUBKEY, OP_CHECKSIG]).length + 1 = 3 := rfl
  have hlen₂ : (opcodes [OP_DUP, OP_HASH160, OP_PUBKEYHASH, OP_EQUALVERIFY,
    OP_CHECKSIG]).length + 1 = 6 := rfl
  have hlen₃ : (opcodes [OP_SMALLINTEGER, OP_PUBKEYS, OP_SMALLINTEGER,
    OP_CHECKMULTISIG]).length + 1 = 5 := rfl
  rw [hlen₁, hlen₂, hlen₃]
  cases matchTemplate 3 script (opcodes [OP_PUBKEY, OP_CHECKSIG]) [] with
  | some vSolutions => rfl
  | none =>
    cases matchTemplate 6 script
      (opcodes [OP_DUP, OP_HASH160, OP_PUBKEYHASH, OP_EQUALVERIFY, OP_CHECKSIG]) [] with
    | some vSolutions => rfl
    | none =>
      cases matchTemplate 5 script
        (opcodes [OP_SMALLINTEGER, OP_PUBKEYS, OP_SMALLINTEGER, OP_CHECKMULTISIG]) [] with
      | some vSolutions => rfl
      | none => rfl

theorem matchTemplate_pubkey_none {pc rest : CScript} {opcode fuel : Nat} {template : List Nat}
    (hop : getOp pc = some (opcode, [], rest)) :
    matchTemplate (fuel + 1) pc (opcodes (OP_PUBKEY :: template)) [] = none := by
  rw [matchTemplate_eq hop (by decide) (by decide) (by decide), matchInstruction, if_pos rfl,
    if_pos (.inl (Nat.succ_pos 32))]
  rfl

/-- **A script of one of the forms is accepted**, with what the form says. -/
theorem StandardScript.solver_eq {typeRet : TxnOutType} {vSolutions : List Valtype}
    (h : StandardScript script typeRet vSolutions) : solver script = (true, typeRet, vSolutions) := by
  cases h with
  | @pubkey opcode vchPubKey hscript hlower hupper =>
    have hhash : isPayToScriptHash script = false := by
      refine isPayToScriptHash_eq_false hscript fun heq => ?_
      cases heq
      exact absurd hlower (by decide)
    obtain ⟨pc₁, hop₁, h₁⟩ := hscript.head
    obtain ⟨pc₂, hop₂, h₂⟩ := h₁.head
    cases h₂
    have hmatch : matchTemplate 3 script (opcodes [OP_PUBKEY, OP_CHECKSIG]) [] =
        some [vchPubKey] := by
      rw [matchTemplate_eq hop₁ (by decide) (by decide) (by decide), matchInstruction, if_pos rfl,
        if_neg (by dsimp only; omega), Option.bind_some,
        matchTemplate_opcode hop₂ (by decide) (by decide)]
      exact matchTemplate_end
    rw [solver_templates hhash, hmatch]
  | @pubkeyhash opcode keyID hscript hlen =>
    have hhash := isPayToScriptHash_eq_false hscript (by simp [OP_DUP, OP_HASH160])
    obtain ⟨pc₁, hop₁, h₁⟩ := hscript.head
    obtain ⟨pc₂, hop₂, h₂⟩ := h₁.head
    obtain ⟨pc₃, hop₃, h₃⟩ := h₂.head
    obtain ⟨pc₄, hop₄, h₄⟩ := h₃.head
    obtain ⟨pc₅, hop₅, h₅⟩ := h₄.head
    cases h₅
    have hmatch : matchTemplate 6 script
        (opcodes [OP_DUP, OP_HASH160, OP_PUBKEYHASH, OP_EQUALVERIFY, OP_CHECKSIG]) [] =
          some [keyID] := by
      rw [matchTemplate_opcode hop₁ (by decide) (by decide),
        matchTemplate_opcode hop₂ (by decide) (by decide),
        matchTemplate_eq hop₃ (by decide) (by decide) (by decide), matchInstruction,
        if_neg (by decide), if_pos rfl, if_neg (not_not.mpr hlen), Option.bind_some,
        matchTemplate_opcode hop₄ (by decide) (by decide),
        matchTemplate_opcode hop₅ (by decide) (by decide)]
      exact matchTemplate_end
    rw [solver_templates hhash, matchTemplate_pubkey_none hop₁, hmatch]
  | @scripthash opcode scriptID hhash hscript hlen =>
    cases standard_scripthash hhash with
    | scripthash _ hscript' _ =>
      have heq := hscript.unique hscript'
      simp only [List.cons.injEq, Prod.mk.injEq] at heq
      rw [solver, if_pos hhash, heq.2.1.2]
  | @multisig nRequired keys hscript hpos hle hmax hkeys =>
    have hhash : isPayToScriptHash script = false := by
      refine isPayToScriptHash_eq_false hscript fun heq => ?_
      simp only [List.head?_cons, Option.some.injEq, smallInt, Prod.mk.injEq, OP_1, OP_HASH160] at heq
      omega
    obtain ⟨pc₁, hop₁, h₁⟩ := hscript.head
    obtain ⟨pc₂, hmatch₂, h₂⟩ := matchTemplate_keys 3 [OP_CHECKMULTISIG]
      [[UInt8.ofNat nRequired]] hkeys (hpos.trans hle) hmax h₁
    obtain ⟨pc₃, hop₃, h₃⟩ := h₂.head
    cases h₃
    have hnotHash : matchTemplate 6 script
        (opcodes [OP_DUP, OP_HASH160, OP_PUBKEYHASH, OP_EQUALVERIFY, OP_CHECKSIG]) [] = none := by
      have hne : (smallInt nRequired).1 ≠ OP_DUP := by
        simp only [smallInt, OP_1, OP_DUP]
        omega
      rw [matchTemplate_eq hop₁ (by decide) (by decide) (by decide), matchInstruction,
        if_neg (by decide), if_neg (by decide), if_neg (by decide), if_pos (.inl hne)]
      rfl
    have hmatch : matchTemplate 5 script
        (opcodes [OP_SMALLINTEGER, OP_PUBKEYS, OP_SMALLINTEGER, OP_CHECKMULTISIG]) [] =
          some ([UInt8.ofNat nRequired] :: (keys.map Prod.snd ++ [[UInt8.ofNat keys.length]])) := by
      have hsmall := matchInstruction_smallInt_eq pc₁ hpos (hle.trans hmax)
      dsimp only [smallInt] at hsmall
      rw [matchTemplate_eq hop₁ (by decide) (by decide) (by decide), hsmall, Option.bind_some,
        List.nil_append, hmatch₂, matchTemplate_opcode hop₃ (by decide) (by decide)]
      exact matchTemplate_end
    have hbyte : ∀ n ≤ 16, (UInt8.ofNat n).toNat = n := by
      intro n hn
      rw [UInt8.toNat_ofNat']
      exact Nat.mod_eq_of_lt (by omega)
    have hcounts : multisigCounts
        ([UInt8.ofNat nRequired] :: (keys.map Prod.snd ++ [[UInt8.ofNat keys.length]])) = true :=
      (multisigCounts_iff (hbyte _ (hle.trans hmax)) (hbyte _ hmax)).mpr
        ⟨hpos, hle, List.length_map _⟩
    rw [solver_templates hhash, matchTemplate_pubkey_none hop₁, hnotHash, hmatch]
    dsimp only
    rw [hcounts]

end Accepted

/-! ### Destinations -/

theorem pushData_direct {vch : Valtype} (h : vch.length < OP_PUSHDATA1) :
    pushData vch = UInt8.ofNat vch.length :: vch := if_pos h

theorem twenty_lt : 20 < OP_PUSHDATA1 := by decide

/-- The instructions of a payment to a key identifier. -/
def keyIDInstructions (keyID : Valtype) : List (Nat × Valtype) :=
  [(OP_DUP, []), (OP_HASH160, []), (20, keyID), (OP_EQUALVERIFY, []), (OP_CHECKSIG, [])]

theorem payToKeyID_eq (hlen : keyID.length = 20) :
    payToKeyID keyID = (keyIDInstructions keyID).flatMap directBytes := by
  rw [payToKeyID, pushData_direct (hlen ▸ twenty_lt), hlen]
  rfl

theorem keyIDInstructions_writable (hlen : keyID.length = 20) :
    ∀ op ∈ keyIDInstructions keyID, IsWritable op := by
  intro op hmem
  simp only [keyIDInstructions, List.mem_cons, List.not_mem_nil, or_false] at hmem
  rcases hmem with rfl | rfl | rfl | rfl | rfl
  · exact .inr ⟨by decide, by decide, rfl⟩
  · exact .inr ⟨by decide, by decide, rfl⟩
  · exact .inl ⟨twenty_lt, hlen⟩
  · exact .inr ⟨by decide, by decide, rfl⟩
  · exact .inr ⟨by decide, by decide, rfl⟩

theorem instructions_payToKeyID (hlen : keyID.length = 20) :
    Instructions (payToKeyID keyID) (keyIDInstructions keyID) := by
  rw [payToKeyID_eq hlen]
  exact instructions_directBytes (keyIDInstructions_writable hlen)

theorem solver_payToKeyID (hlen : keyID.length = 20) :
    solver (payToKeyID keyID) = (true, .pubkeyhash, [keyID]) :=
  (StandardScript.pubkeyhash (instructions_payToKeyID hlen) hlen).solver_eq

theorem payToKeyID_eq_iff (h : solver script = (true, .pubkeyhash, vSolutions)) :
    ∃ keyID, vSolutions = [keyID] ∧ keyID.length = 20 ∧ (payToKeyID keyID = script ↔ DirectPushes script):= by
  cases solver_standard h with
  | @pubkeyhash opcode keyID hscript hlen =>
    refine ⟨keyID, rfl, hlen, ?_, ?_⟩
    · rintro rfl l hl op hmem
      obtain rfl := hl.unique (instructions_payToKeyID hlen)
      exact (keyIDInstructions_writable hlen op hmem).isDirect
    · intro hdirect
      have hall := hdirect _ hscript
      obtain ⟨pc₁, -, h₁⟩ := hscript.head
      obtain ⟨pc₂, -, h₂⟩ := h₁.head
      obtain ⟨pc₃, hop₃, -⟩ := h₂.head
      have hpush : opcode ≤ OP_PUSHDATA4 :=
        opcode_le_of_getOp hop₃ fun hnil => by
          rw [hnil] at hlen
          cases hlen
      have hlt : opcode < OP_PUSHDATA1 :=
        (hall (opcode, keyID) (by simp)).resolve_right (Nat.not_lt.mpr hpush)
      have hcode : opcode = 20 := ((getOp_direct hop₃ (.inl hlt)).2 hlt).symm.trans hlen
      rw [hscript.eq_of_direct hall, hcode, payToKeyID_eq hlen]
      rfl

theorem solver_payToScriptID {scriptID : Valtype} (hlen : scriptID.length = 20) :
    solver (CTxDestination.scriptID scriptID).toScript = (true, .scripthash, [scriptID]) := by
  have hscript : (CTxDestination.scriptID scriptID).toScript =
      UInt8.ofNat OP_HASH160 :: 0x14 :: (scriptID ++ [UInt8.ofNat OP_EQUAL]) := by
    rw [CTxDestination.toScript, pushData_direct (hlen ▸ twenty_lt), hlen]
    rfl
  have hhash : isPayToScriptHash (CTxDestination.scriptID scriptID).toScript = true := by
    rw [hscript, isPayToScriptHash]
    simp [hlen]
  rw [solver, if_pos hhash, hscript]
  simp [hlen, List.take_left']

theorem payToScriptID_eq (h : solver script = (true, .scripthash, vSolutions)) :
    ∃ scriptID, vSolutions = [scriptID] ∧ scriptID.length = 20 ∧
      (CTxDestination.scriptID scriptID).toScript = script := by
  cases solver_standard h with
  | @scripthash opcode scriptID hhash hscript hlen =>
    refine ⟨scriptID, rfl, hlen, ?_⟩
    have hsecond : script[1]? = some 0x14 := by
      simp only [isPayToScriptHash, Bool.and_eq_true, beq_iff_eq] at hhash
      exact hhash.1.2
    obtain ⟨pc₁, hop₁, h₁⟩ := hscript.head
    obtain ⟨pc₂, hop₂, -⟩ := h₁.head
    have hstart := (getOp_direct hop₁ (.inr (by decide))).1
    cases pc₁ with
    | nil => cases hop₂
    | cons byte pc₁ =>
      rw [hstart] at hsecond
      obtain rfl : byte = 0x14 := Option.some.inj hsecond
      have hcode : opcode = 20 := (getOp_cons_iff.mp hop₂).1
      have hall : ∀ op ∈ [(OP_HASH160, []), (opcode, scriptID), (OP_EQUAL, [])], IsDirect op := by
        intro op hmem
        simp only [List.mem_cons, List.not_mem_nil, or_false] at hmem
        rcases hmem with rfl | rfl | rfl
        · exact .inr (by decide)
        · exact .inl (hcode ▸ twenty_lt)
        · exact .inr (by decide)
      rw [hscript.eq_of_direct hall, hcode, CTxDestination.toScript,
        pushData_direct (hlen ▸ twenty_lt), hlen]
      rfl

/-! ### Multisigs -/

/-- The bytes that `<<` appends for a key, besides their number. -/
def pubKeyVch (key : Option CPubKey) : Valtype := (key.map CPubKey.vch).getD []

def multisigInstructions (nRequired : Nat) (keys : List Valtype) : List (Nat × Valtype) :=
  smallInt nRequired :: (keys.map (fun vch => (vch.length, vch)) ++
    [smallInt keys.length, (OP_CHECKMULTISIG, [])])

theorem encodeOpN_eq {n : Nat} (hpos : 1 ≤ n) (hmax : n ≤ 16) : encodeOpN n = some (smallInt n).1 := by
  rw [encodeOpN, if_pos (by omega), if_neg (by omega)]
  simp only [smallInt, OP_1, Option.some.injEq]
  omega

theorem setMultisig_eq (keys : List (Option CPubKey)) (hpos : 1 ≤ nRequired)
    (hle : nRequired ≤ keys.length) (hmax : keys.length ≤ 16) : setMultisig nRequired keys =
      some ((multisigInstructions nRequired (keys.map pubKeyVch)).flatMap directBytes) := by
  rw [setMultisig, encodeOpN_eq hpos (hle.trans hmax), encodeOpN_eq (hpos.trans hle) hmax,
    multisigInstructions, List.length_map, List.flatMap_cons, List.flatMap_append, List.map_map,
    List.flatMap_map]
  rfl

theorem CPubKey.length_vch (pubkey : CPubKey) : pubkey.vch.length = 33 ∨ pubkey.vch.length = 65 := by
  obtain ⟨vch, hvalid⟩ := pubkey
  cases vch with
  | nil => cases hvalid
  | cons chHeader vch =>
    simp only [List.head?_cons, Option.map_some, Option.some.injEq, pubKeyLen] at hvalid
    dsimp only
    split_ifs at hvalid
    · exact .inl hvalid.symm
    · exact .inr hvalid.symm

theorem pubKeyVch_length_lt (key : Option CPubKey) : (pubKeyVch key).length < OP_PUSHDATA1 := by
  cases key with
  | none => exact Nat.succ_pos _
  | some pubkey =>
    show pubkey.vch.length < OP_PUSHDATA1
    rcases pubkey.length_vch with hlen | hlen
    · rw [hlen]
      decide
    · rw [hlen]
      decide

theorem smallInt_writable {n : Nat} (hpos : 1 ≤ n) (hmax : n ≤ 16) : IsWritable (smallInt n) := by
  right
  simp only [smallInt, OP_1, OP_PUSHDATA4, and_true]
  omega

theorem multisigInstructions_writable (keys : List (Option CPubKey))
    (hpos : 1 ≤ nRequired) (hle : nRequired ≤ keys.length) (hmax : keys.length ≤ 16) :
    ∀ op ∈ multisigInstructions nRequired (keys.map pubKeyVch), IsWritable op := by
  intro op hmem
  rw [multisigInstructions, List.length_map, List.map_map] at hmem
  simp only [List.mem_cons, List.mem_append, List.not_mem_nil, or_false] at hmem
  rcases hmem with rfl | hmem | rfl | rfl
  · exact smallInt_writable hpos (hle.trans hmax)
  · obtain ⟨key, -, rfl⟩ := List.mem_map.mp hmem
    exact .inl ⟨pubKeyVch_length_lt key, rfl⟩
  · exact smallInt_writable (hpos.trans hle) hmax
  · exact .inr ⟨by decide, by decide, rfl⟩

theorem standard_multisigInstructions {keys : List Valtype}
    (h : Instructions script (multisigInstructions nRequired keys)) (hpos : 1 ≤ nRequired)
    (hle : nRequired ≤ keys.length) (hmax : keys.length ≤ 16)
    (hkeys : ∀ vch ∈ keys, 33 ≤ vch.length ∧ vch.length ≤ 120) :
    StandardScript script .multisig ([UInt8.ofNat nRequired] :: (keys ++ [[UInt8.ofNat keys.length]])):= by
  generalize hops : keys.map (fun vch => (vch.length, vch)) = ops at h
  have hlen : ops.length = keys.length := by rw [← hops, List.length_map]
  have hvch : ops.map Prod.snd = keys := by
    rw [← hops, List.map_map]
    exact List.map_id keys
  rw [multisigInstructions, hops, ← hlen] at h
  rw [← hlen] at hle hmax ⊢
  rw [← hvch]
  refine .multisig h hpos hle hmax fun op hmem => ?_
  exact hkeys op.2 (hvch ▸ List.mem_map_of_mem hmem)

/-- **A multisig of valid keys is recognised**, with its numbers and the keys in order. -/
theorem solver_setMultisig {keys : List CPubKey} (hpos : 1 ≤ nRequired)
    (hle : nRequired ≤ keys.length) (hmax : keys.length ≤ 16) :
    ∃ script, setMultisig nRequired (keys.map some) = some script ∧ solver script = (true, .multisig,
        [UInt8.ofNat nRequired] :: (keys.map CPubKey.vch ++ [[UInt8.ofNat keys.length]])) := by
  have hlen : (keys.map some).length = keys.length := List.length_map _
  have hvch : (keys.map some).map pubKeyVch = keys.map CPubKey.vch := by
    rw [List.map_map]
    rfl
  have hscript := instructions_directBytes
    (multisigInstructions_writable (keys.map some) hpos (hlen ▸ hle) (hlen ▸ hmax))
  have hkeys : ∀ vch ∈ keys.map CPubKey.vch, 33 ≤ vch.length ∧ vch.length ≤ 120 := by
    intro vch hmem
    obtain ⟨key, -, rfl⟩ := List.mem_map.mp hmem
    rcases key.length_vch with hlen | hlen <;> omega
  refine ⟨_, setMultisig_eq _ hpos (hlen ▸ hle) (hlen ▸ hmax), ?_⟩
  rw [hvch] at hscript ⊢
  have hstandard := standard_multisigInstructions hscript hpos (by rwa [List.length_map])
    (by rwa [List.length_map]) hkeys
  rw [List.length_map] at hstandard
  exact hstandard.solver_eq

theorem pubKeyVch_ofVch {vch : Valtype} (h : (CPubKey.ofVch vch).isSome) :
    pubKeyVch (CPubKey.ofVch vch) = vch := by
  obtain ⟨pubkey, hpubkey⟩ := Option.isSome_iff_exists.mp h
  rw [hpubkey]
  exact CPubKey.ofVch_eq_some hpubkey

theorem setMultisig_eq_iff (h : solver script = (true, .multisig, vSolutions)) :
    ∃ (nRequired : Nat) (keys : List Valtype),
      vSolutions = [UInt8.ofNat nRequired] :: (keys ++ [[UInt8.ofNat keys.length]]) ∧
        1 ≤ nRequired ∧ nRequired ≤ keys.length ∧ keys.length ≤ 16 ∧
        (setMultisig nRequired (keys.map CPubKey.ofVch) = some script ↔
          DirectPushes script ∧ ∀ vch ∈ keys, (CPubKey.ofVch vch).isSome) := by
  cases solver_standard h with
  | @multisig nRequired ops hscript hpos hle hmax hkeys =>
    have hlen : ((ops.map Prod.snd).map CPubKey.ofVch).length = ops.length := by
      rw [List.length_map, List.length_map]
    have hbuilt := setMultisig_eq ((ops.map Prod.snd).map CPubKey.ofVch) hpos
      (hlen ▸ hle) (hlen ▸ hmax)
    have hwritable := multisigInstructions_writable
      ((ops.map Prod.snd).map CPubKey.ofVch) hpos (hlen ▸ hle) (hlen ▸ hmax)
    have hinstructions : multisigInstructions nRequired
        (((ops.map Prod.snd).map CPubKey.ofVch).map pubKeyVch) =
          smallInt nRequired :: (ops.map (fun op => ((pubKeyVch (CPubKey.ofVch op.2)).length,
            pubKeyVch (CPubKey.ofVch op.2))) ++
              [smallInt ops.length, (OP_CHECKMULTISIG, [])]) := by
      simp only [multisigInstructions, List.map_map, List.length_map]
      rfl
    refine ⟨nRequired, ops.map Prod.snd, by rw [List.length_map], hpos,
      by rwa [List.length_map], by rwa [List.length_map], ?_⟩
    rw [hbuilt, Option.some.injEq]
    rw [hinstructions] at hwritable ⊢
    constructor
    · intro heq
      have hscript' := instructions_directBytes hwritable
      rw [heq] at hscript'
      refine ⟨?_, ?_⟩
      · intro l hl op hmem
        obtain rfl := hl.unique hscript'
        exact (hwritable op hmem).isDirect
      · intro vch hmem
        obtain ⟨op, hop, rfl⟩ := List.mem_map.mp hmem
        have hops := (List.append_inj (List.cons.inj (hscript.unique hscript')).2
          (List.length_map _).symm).1
        have hself := List.map_inj_left.mp ((List.map_id ops).trans hops) op hop
        by_contra hinvalid
        rw [Option.not_isSome_iff_eq_none] at hinvalid
        have hnil : op.2 = [] := by
          have hsnd := congrArg Prod.snd hself
          rwa [hinvalid] at hsnd
        have hlower := (hkeys op hop).1
        rw [hnil] at hlower
        exact absurd hlower (by decide)
    · rintro ⟨hdirect, hvalid⟩
      have hall := hdirect _ hscript
      have hself : ops.map (fun op => ((pubKeyVch (CPubKey.ofVch op.2)).length,
          pubKeyVch (CPubKey.ofVch op.2))) = ops := by
        refine (List.map_congr_left fun op hop => ?_).trans (List.map_id ops)
        have hmem : op ∈ smallInt nRequired :: (ops ++
            [smallInt ops.length, (OP_CHECKMULTISIG, [])]) :=
          List.mem_cons_of_mem _ (List.mem_append_left _ hop)
        obtain ⟨pc, rest, hread⟩ := hscript.exists_getOp hmem
        have hpush : op.1 ≤ OP_PUSHDATA4 := opcode_le_of_getOp hread fun hnil => by
          have hlower := (hkeys op hop).1
          rw [hnil] at hlower
          exact absurd hlower (by decide)
        have hlt := (hall op hmem).resolve_right (Nat.not_lt.mpr hpush)
        rw [pubKeyVch_ofVch (hvalid op.2 (List.mem_map_of_mem hop)),
          (getOp_direct hread (hall op hmem)).2 hlt]
        rfl
      rw [hself]
      exact (hscript.eq_of_direct hall).symm

/-! ### Both directions -/

/-- A destination with a hash of 20 bytes, and the type of its script. -/
inductive HasDestination : CTxDestination → TxnOutType → Prop
  | keyID {hash : Valtype} : hash.length = 20 → HasDestination (.keyID hash) .pubkeyhash
  | scriptID {hash : Valtype} : hash.length = 20 → HasDestination (.scriptID hash) .scripthash

theorem HasDestination.extractDestination_eq {dest : CTxDestination} {whichType : TxnOutType}
    (h : HasDestination dest whichType) (getID : Valtype → Valtype) :
    (solver dest.toScript).2.1 = whichType ∧ extractDestination getID dest.toScript = some dest := by
  cases h with
  | keyID hlen =>
    have hsolver := solver_payToKeyID hlen
    refine ⟨congrArg (fun result => result.2.1) hsolver, ?_⟩
    rw [extractDestination, CTxDestination.toScript, hsolver]
    rfl
  | scriptID hlen =>
    have hsolver := solver_payToScriptID hlen
    refine ⟨congrArg (fun result => result.2.1) hsolver, ?_⟩
    rw [extractDestination, hsolver]
    rfl

/-- **Matching inverts building.** A destination is extracted from its script, a multisig of valid keys
is recognised. A payment to a script identifier is rebuilt from its solution; a payment to a key
identifier is exactly when no push is an `OP_PUSHDATA`, a multisig exactly when its keys are valid
besides. -/
theorem solver_inverts :
    (∀ getID dest whichType, HasDestination dest whichType →
      (solver dest.toScript).2.1 = whichType ∧
        extractDestination getID dest.toScript = some dest) ∧
    (∀ (nRequired : Nat) (keys : List CPubKey), 1 ≤ nRequired → nRequired ≤ keys.length →
      keys.length ≤ 16 → ∃ script, setMultisig nRequired (keys.map some) = some script ∧
        solver script = (true, .multisig,
          [UInt8.ofNat nRequired] :: (keys.map CPubKey.vch ++ [[UInt8.ofNat keys.length]]))) ∧
    (∀ script vSolutions, solver script = (true, .scripthash, vSolutions) →
      ∃ hash, vSolutions = [hash] ∧ (CTxDestination.scriptID hash).toScript = script) ∧
    (∀ script vSolutions, solver script = (true, .pubkeyhash, vSolutions) →
      ∃ hash, vSolutions = [hash] ∧
        ((CTxDestination.keyID hash).toScript = script ↔ DirectPushes script)) ∧
    (∀ script vSolutions, solver script = (true, .multisig, vSolutions) →
      ∃ (nRequired : Nat) (keys : List Valtype),
        vSolutions = [UInt8.ofNat nRequired] :: (keys ++ [[UInt8.ofNat keys.length]]) ∧
          nRequired ≤ 16 ∧ (setMultisig nRequired (keys.map CPubKey.ofVch) = some script ↔
            DirectPushes script ∧ ∀ vch ∈ keys, (CPubKey.ofVch vch).isSome)) := by
  refine ⟨fun getID _ _ h => h.extractDestination_eq getID, fun _ _ => solver_setMultisig, ?_, ?_, ?_⟩
  · intro script vSolutions h
    obtain ⟨hash, hsolutions, -, hscript⟩ := payToScriptID_eq h
    exact ⟨hash, hsolutions, hscript⟩
  · intro script vSolutions h
    obtain ⟨hash, hsolutions, -, hscript⟩ := payToKeyID_eq_iff h
    exact ⟨hash, hsolutions, hscript⟩
  · intro script vSolutions h
    obtain ⟨nRequired, keys, hsolutions, -, hle, hmax, hscript⟩ := setMultisig_eq_iff h
    exact ⟨nRequired, keys, hsolutions, hle.trans hmax, hscript⟩

theorem solver_inverts_keyID :
    (solver (CTxDestination.keyID (List.replicate 20 7)).toScript).2.1 = .pubkeyhash ∧
      extractDestination id (CTxDestination.keyID (List.replicate 20 7)).toScript =
        some (.keyID (List.replicate 20 7)) :=
  solver_inverts.1 id _ _ (.keyID rfl)

/-- A payment to a key identifier whose hash is pushed with `OP_PUSHDATA1` is recognised, and what is
built from the hash is another script. -/
theorem solver_not_rebuilt :
    solver ([0x76, 0xa9, 0x4c, 0x14] ++ List.replicate 20 7 ++ [0x88, 0xac]) =
        (true, .pubkeyhash, [List.replicate 20 7]) ∧
      (CTxDestination.keyID (List.replicate 20 7)).toScript ≠
        [0x76, 0xa9, 0x4c, 0x14] ++ List.replicate 20 7 ++ [0x88, 0xac] := by
  decide

end Manna
