import Manna.FindAndDelete
import Manna.ScriptRun

/-!
What the standard scripts are, and how they run (`script.cpp`: `Solver`, `EvalScript`).

A script is its instructions, whatever the encoding of its pushes. What `Solver` accepts is one of
four forms (`StandardScript`), and each form has its run.

* `Instructions`: a script, instruction by instruction;
* `solver_standard`: what is accepted is of one of the forms.
-/

namespace Manna

open GreedyMatch

/-! ### Instructions -/

/-- **The instructions of a script.** -/
inductive Instructions : CScript → List (Nat × Valtype) → Prop
  | nil : Instructions [] []
  | cons {pc rest opcode vch l} : getOp pc = some (opcode, vch, rest) → Instructions rest l →
      Instructions pc ((opcode, vch) :: l)

variable {vch : Valtype} {l : List (Nat × Valtype)}

theorem Instructions.head {pc : CScript} {opcode : Nat} (h : Instructions pc ((opcode, vch) :: l)) :
    ∃ rest, getOp pc = some (opcode, vch, rest) ∧ Instructions rest l := by
  cases h with
  | cons hop hrest => exact ⟨_, hop, hrest⟩

theorem Instructions.of_getOp {pc rest : CScript} {opcode : Nat}
    (h : Instructions pc l) (hop : getOp pc = some (opcode, vch, rest)) :
    ∃ l', l = (opcode, vch) :: l' ∧ Instructions rest l' := by
  cases h with
  | nil => cases hop
  | cons hop' hrest =>
    rw [hop'] at hop
    cases hop
    exact ⟨_, rfl, hrest⟩

theorem Instructions.exists_getOp {pc : CScript} {op : Nat × Valtype}
    (h : Instructions pc l) (hmem : op ∈ l) : ∃ pc' rest, getOp pc' = some (op.1, op.2, rest) := by
  induction h with
  | nil => exact absurd hmem List.not_mem_nil
  | cons hop _ ih =>
    rcases List.mem_cons.mp hmem with rfl | hmem
    · exact ⟨_, _, hop⟩
    · exact ih hmem

/-- From a place where an instruction can start, the last instructions are read. -/
theorem Instructions.suffix_of_boundary {script pc : CScript}
    (h : Instructions script l) (hpc : Boundary script pc) : ∃ l', l' <:+ l ∧ Instructions pc l' := by
  induction hpc with
  | start => exact ⟨l, List.suffix_refl l, h⟩
  | next _ hop ih =>
    obtain ⟨l', hsuffix, hread⟩ := ih
    obtain ⟨l'', rfl, hrest⟩ := hread.of_getOp hop
    exact ⟨l'', (List.suffix_cons _ _).trans hsuffix, hrest⟩

/-- **A script without an item** is left alone when the item is to be deleted. -/
theorem Instructions.findAndDelete_eq_self {script : CScript}
    (h : Instructions script l) (hlen : vch.length < 2 ^ 32)
    (hne : ∀ op ∈ l, op.2 ≠ vch) : findAndDelete (pushData vch) script = script := by
  apply Manna.findAndDelete_eq_self
  rintro pc hpc ⟨rest, rfl⟩
  obtain ⟨l', hsuffix, hread⟩ := h.suffix_of_boundary hpc
  obtain ⟨opcode, hop⟩ := getOp_pushData hlen rest
  obtain ⟨l'', rfl, -⟩ := hread.of_getOp hop
  exact hne _ (hsuffix.subset List.mem_cons_self) rfl

/-- An instruction takes five bytes besides its operand, at most. -/
theorem getOp_length_le {pc rest : CScript} {opcode : Nat}
    (h : getOp pc = some (opcode, vch, rest)) : pc.length ≤ 5 + vch.length + rest.length := by
  obtain ⟨byte, size, rfl, -, hsize, -⟩ := getOp_cases h
  simp only [List.length_cons, List.length_append]
  omega

theorem Instructions.length_le {script : CScript}
    (h : Instructions script l) (bound : Nat) (hbound : ∀ op ∈ l, op.2.length ≤ bound) :
    script.length ≤ l.length * (5 + bound) := by
  induction h with
  | nil => exact Nat.zero_le _
  | cons hop _ ih =>
    have hlen := getOp_length_le hop
    have hvch := hbound _ List.mem_cons_self
    have hrest := ih fun op hmem => hbound op (List.mem_cons_of_mem _ hmem)
    rw [List.length_cons, Nat.succ_mul]
    dsimp only at hvch
    omega

theorem vch_eq_nil_of_getOp {pc rest : CScript} {opcode : Nat}
    (h : getOp pc = some (opcode, vch, rest)) (hcode : OP_PUSHDATA4 < opcode) : vch = [] := by
  by_contra hvch
  exact absurd (opcode_le_of_getOp h hvch) (Nat.not_le.mpr hcode)

/-- The instruction that pushes a small number. -/
def smallInt (n : Nat) : Nat × Valtype := (OP_1 - 1 + n, [])

/-- **The forms that `Solver` accepts**, with what it returns. -/
inductive StandardScript (script : CScript) : TxnOutType → List Valtype → Prop
  | pubkey {opcode vchPubKey} : Instructions script [(opcode, vchPubKey), (OP_CHECKSIG, [])] →
      33 ≤ vchPubKey.length → vchPubKey.length ≤ 120 →
      StandardScript script .pubkey [vchPubKey]
  | pubkeyhash {opcode keyID} :
      Instructions script [(OP_DUP, []), (OP_HASH160, []), (opcode, keyID), (OP_EQUALVERIFY, []),
        (OP_CHECKSIG, [])] →
      keyID.length = 20 → StandardScript script .pubkeyhash [keyID]
  | scripthash {opcode scriptID} : isPayToScriptHash script = true →
      Instructions script [(OP_HASH160, []), (opcode, scriptID), (OP_EQUAL, [])] →
      scriptID.length = 20 → StandardScript script .scripthash [scriptID]
  | multisig {nRequired : Nat} {keys : List (Nat × Valtype)} :
      Instructions script (smallInt nRequired :: (keys ++
        [smallInt keys.length, (OP_CHECKMULTISIG, [])])) →
      1 ≤ nRequired → nRequired ≤ keys.length → keys.length ≤ 16 →
      (∀ key ∈ keys, 33 ≤ key.2.length ∧ key.2.length ≤ 120) →
      StandardScript script .multisig
        ([UInt8.ofNat nRequired] :: (keys.map Prod.snd ++ [[UInt8.ofNat keys.length]]))

/-! ### Templates -/

section Template

variable {fuel opcode₂ : Nat} {pc : CScript} {template : List Nat}
  {vSolutions found : List Valtype}

/-- An opcode of a template is read. -/
theorem getOp_opcodes (hcode : OP_PUSHDATA4 < opcode₂) (hbyte : opcode₂ < 256) :
    getOp (opcodes (opcode₂ :: template)) = some (opcode₂, [], opcodes template) :=
  getOp_byte hcode hbyte _

theorem matchTemplate_nil (h : matchTemplate (fuel + 1) pc (opcodes []) vSolutions = some found) :
    pc = [] ∧ found = vSolutions := by
  change matchTemplate (fuel + 1) pc [] vSolutions = some found at h
  rw [matchTemplate] at h
  split at h
  · next hnil =>
    cases h
    exact ⟨hnil.1, rfl⟩
  · simp [getOp] at h

theorem matchTemplate_round
    (h : matchTemplate (fuel + 1) pc (opcodes (opcode₂ :: template)) vSolutions = some found)
    (hcode : OP_PUSHDATA4 < opcode₂) (hbyte : opcode₂ < 256) (hone : opcode₂ ≠ OP_PUBKEYS) :
    ∃ opcode vch rest new, getOp pc = some (opcode, vch, rest) ∧
      matchInstruction ⟨opcode, vch, rest⟩ opcode₂ [] = some new ∧
      matchTemplate fuel rest (opcodes template) (vSolutions ++ new) = some found := by
  rw [matchTemplate, if_neg (fun hnil => List.cons_ne_nil _ _ hnil.2), getOp_opcodes hcode hbyte] at h
  split at h
  · next opcode vch rest opcode₂' vch₂' rest₂' hop heq =>
    simp only [Option.some.injEq, Prod.mk.injEq] at heq
    obtain ⟨rfl, rfl, rfl⟩ := heq
    rw [if_neg hone] at h
    obtain ⟨new, hnew, hrest⟩ := Option.bind_eq_some_iff.mp h
    exact ⟨opcode, vch, rest, new, hop, hnew, hrest⟩
  · cases h

theorem takePubKeys_spec (op : Instruction) (vSolutions : List Valtype) (hop : getOp pc = some (op.opcode, op.vch, op.pc))
    (hfuel : op.pc.length < fuel) : ∃ keys : List (Nat × Valtype),
      (takePubKeys fuel op vSolutions).1 = vSolutions ++ keys.map Prod.snd ∧
      (∀ key ∈ keys, 33 ≤ key.2.length ∧ key.2.length ≤ 120) ∧
      ((takePubKeys fuel op vSolutions).2.opcode = OP_INVALIDOPCODE ∨
        ∀ l, Instructions (takePubKeys fuel op vSolutions).2.pc l →
          Instructions pc (keys ++ ((takePubKeys fuel op vSolutions).2.opcode,
            (takePubKeys fuel op vSolutions).2.vch) :: l)) := by
  induction fuel generalizing pc op vSolutions with
  | zero => omega
  | succ fuel ih =>
    unfold takePubKeys
    split_ifs with hkey
    · cases hnext : getOp op.pc with
      | none =>
        refine ⟨[(op.opcode, op.vch)], rfl, ?_, .inl rfl⟩
        intro key hmem
        rw [List.mem_singleton.mp hmem]
        exact hkey
      | some out =>
        obtain ⟨opcode, vch, rest⟩ := out
        have hlt := getOp_length_lt hnext
        obtain ⟨keys, hvch, hkeys, hread⟩ := ih ⟨opcode, vch, rest⟩ (vSolutions ++ [op.vch])
          hnext (by dsimp only; omega)
        refine ⟨(op.opcode, op.vch) :: keys, ?_, ?_, ?_⟩
        · rw [hvch, List.append_assoc]
          rfl
        · intro key hmem
          rcases List.mem_cons.mp hmem with rfl | hmem
          · exact hkey
          · exact hkeys key hmem
        · rcases hread with hinvalid | hread
          · exact .inl hinvalid
          · exact .inr fun l hl => .cons hop (hread l hl)
    · refine ⟨[], (List.append_nil _).symm, fun _ hmem => absurd hmem List.not_mem_nil, .inr ?_⟩
      intro l hl
      exact .cons hop hl

theorem matchInstruction_opcode {op : Instruction} {new : List Valtype}
    (h : matchInstruction op opcode₂ [] = some new) (hcode : opcode₂ < OP_SMALLINTEGER) :
    op.opcode = opcode₂ ∧ op.vch = [] ∧ new = [] := by
  simp only [OP_SMALLINTEGER] at hcode
  rw [matchInstruction, if_neg (by simp only [OP_PUBKEY]; omega),
    if_neg (by simp only [OP_PUBKEYHASH]; omega), if_neg (by simp only [OP_SMALLINTEGER]; omega)] at h
  split at h
  · cases h
  · next hsame =>
    rw [not_or, not_not, not_not] at hsame
    cases h
    exact ⟨hsame.1, hsame.2, rfl⟩

theorem matchInstruction_smallInt {op : Instruction} {new : List Valtype}
    (h : matchInstruction op OP_SMALLINTEGER [] = some new) :
    (op.opcode = OP_0 ∨ (OP_1 ≤ op.opcode ∧ op.opcode ≤ OP_16)) ∧
      new = [[UInt8.ofNat (decodeOpN op.opcode)]] := by
  rw [matchInstruction, if_neg (by decide), if_neg (by decide), if_pos rfl] at h
  split at h
  · next hsmall =>
    cases h
    exact ⟨hsmall, rfl⟩
  · cases h

theorem matchTemplate_pubKeys
    (h : matchTemplate (fuel + 1) pc (opcodes (OP_PUBKEYS :: opcode₂ :: template)) vSolutions =
      some found) (hcode : OP_PUSHDATA4 < opcode₂) (hbyte : opcode₂ < 256) :
    ∃ (keys : List (Nat × Valtype)) (op : Instruction) (new : List Valtype),
      (∀ key ∈ keys, 33 ≤ key.2.length ∧ key.2.length ≤ 120) ∧ (op.opcode = OP_INVALIDOPCODE ∨
        ∀ l, Instructions op.pc l → Instructions pc (keys ++ (op.opcode, op.vch) :: l)) ∧
      matchInstruction op opcode₂ [] = some new ∧
      matchTemplate fuel op.pc (opcodes template) (vSolutions ++ keys.map Prod.snd ++ new) = some found := by
  rw [matchTemplate, if_neg (fun hnil => List.cons_ne_nil _ _ hnil.2),
    getOp_opcodes (by decide) (by decide)] at h
  split at h
  · next opcode vch rest opcode₂' vch₂' rest₂' hop heq =>
    simp only [Option.some.injEq, Prod.mk.injEq] at heq
    obtain ⟨rfl, rfl, rfl⟩ := heq
    rw [if_pos rfl] at h
    dsimp only at h
    rw [getOp_opcodes hcode hbyte] at h
    dsimp only at h
    obtain ⟨new, hnew, hrest⟩ := Option.bind_eq_some_iff.mp h
    obtain ⟨keys, hvch, hkeys, hread⟩ := takePubKeys_spec ⟨opcode, vch, rest⟩ vSolutions hop
      (Nat.lt_succ_self _)
    rw [hvch] at hrest
    exact ⟨keys, _, new, hkeys, hread, hnew, hrest⟩
  · cases h

end Template

/-! ### What is accepted -/

section Accepted

variable {script : CScript} {vSolutions : List Valtype}

theorem standard_pubkey (h : matchTemplate 3 script (opcodes [OP_PUBKEY, OP_CHECKSIG]) [] = some vSolutions) :
    StandardScript script .pubkey vSolutions := by
  obtain ⟨opcode, vchPubKey, pc₁, new, hop, hnew, h⟩ :=
    matchTemplate_round h (by decide) (by decide) (by decide)
  rw [matchInstruction, if_pos rfl] at hnew
  split at hnew
  · cases hnew
  · next hsize =>
    cases hnew
    rw [not_or, not_lt, not_lt] at hsize
    obtain ⟨opcode', vch', pc₂, new, hop', hnew, h⟩ :=
      matchTemplate_round h (by decide) (by decide) (by decide)
    obtain ⟨hcode, hvch, rfl⟩ := matchInstruction_opcode hnew (by decide)
    dsimp only at hcode hvch
    subst hcode hvch
    obtain ⟨rfl, rfl⟩ := matchTemplate_nil h
    exact .pubkey (.cons hop (.cons hop' .nil)) hsize.1 hsize.2

theorem standard_pubkeyhash (h : matchTemplate 6 script
      (opcodes [OP_DUP, OP_HASH160, OP_PUBKEYHASH, OP_EQUALVERIFY, OP_CHECKSIG]) [] = some vSolutions) :
    StandardScript script .pubkeyhash vSolutions := by
  obtain ⟨opcode₁, vch₁, pc₁, new, hop₁, hnew, h⟩ := matchTemplate_round h (by decide) (by decide) (by decide)
  obtain ⟨hcode₁, hvch₁, rfl⟩ := matchInstruction_opcode hnew (by decide)
  obtain ⟨opcode₂, vch₂, pc₂, new, hop₂, hnew, h⟩ := matchTemplate_round h (by decide) (by decide) (by decide)
  obtain ⟨hcode₂, hvch₂, rfl⟩ := matchInstruction_opcode hnew (by decide)
  obtain ⟨opcode₃, keyID, pc₃, new, hop₃, hnew, h⟩ :=
    matchTemplate_round h (by decide) (by decide) (by decide)
  rw [matchInstruction, if_neg (by decide), if_pos rfl] at hnew
  split at hnew
  · cases hnew
  · next hsize =>
    cases hnew
    obtain ⟨opcode₄, vch₄, pc₄, new, hop₄, hnew, h⟩ :=
      matchTemplate_round h (by decide) (by decide) (by decide)
    obtain ⟨hcode₄, hvch₄, rfl⟩ := matchInstruction_opcode hnew (by decide)
    obtain ⟨opcode₅, vch₅, pc₅, new, hop₅, hnew, h⟩ :=
      matchTemplate_round h (by decide) (by decide) (by decide)
    obtain ⟨hcode₅, hvch₅, rfl⟩ := matchInstruction_opcode hnew (by decide)
    dsimp only at hcode₁ hvch₁ hcode₂ hvch₂ hcode₄ hvch₄ hcode₅ hvch₅
    subst hcode₁ hvch₁ hcode₂ hvch₂ hcode₄ hvch₄ hcode₅ hvch₅
    obtain ⟨rfl, rfl⟩ := matchTemplate_nil h
    exact .pubkeyhash (.cons hop₁ (.cons hop₂ (.cons hop₃ (.cons hop₄ (.cons hop₅ .nil)))))
      (not_not.mp hsize)

theorem eq_smallInt {pc rest : CScript} {opcode : Nat} {vch : Valtype}
    (hop : getOp pc = some (opcode, vch, rest)) (hsmall : opcode = OP_0 ∨ (OP_1 ≤ opcode ∧ opcode ≤ OP_16))
    (hpos : 1 ≤ decodeOpN opcode) : (opcode, vch) = smallInt (decodeOpN opcode) := by
  have hone : OP_1 ≤ opcode := by
    rcases hsmall with rfl | hrange
    · exact absurd hpos (by decide)
    · exact hrange.1
  have hvch := vch_eq_nil_of_getOp hop (Nat.lt_of_lt_of_le (by decide) hone)
  simp only [OP_1] at hone
  rw [hvch, smallInt, decodeOpN, if_neg (by simp only [OP_0]; omega)]
  simp only [OP_1, Prod.mk.injEq, and_true]
  omega

theorem toNat_decodeOpN {opcode : Nat} (hsmall : opcode = OP_0 ∨ (OP_1 ≤ opcode ∧ opcode ≤ OP_16)) :
    (UInt8.ofNat (decodeOpN opcode)).toNat = decodeOpN opcode ∧ decodeOpN opcode ≤ 16 := by
  have hle : decodeOpN opcode ≤ 16 := by
    rcases hsmall with rfl | ⟨-, hupper⟩
    · decide
    · unfold decodeOpN
      simp only [OP_1, OP_16] at hupper ⊢
      split_ifs <;> omega
  refine ⟨?_, hle⟩
  rw [UInt8.toNat_ofNat']
  exact Nat.mod_eq_of_lt (by omega)

/-- The additional checks are about the two numbers and the keys. -/
theorem multisigCounts_iff {m n : Nat} {keys : List Valtype} (hm : (UInt8.ofNat m).toNat = m)
    (hn : (UInt8.ofNat n).toNat = n) :
    multisigCounts ([UInt8.ofNat m] :: (keys ++ [[UInt8.ofNat n]])) = true ↔
      1 ≤ m ∧ m ≤ n ∧ keys.length = n := by
  have hlast : ([UInt8.ofNat m] :: (keys ++ [[UInt8.ofNat n]])).getLast? = some [UInt8.ofNat n] := by
    rw [← List.cons_append, List.getLast?_append]
    rfl
  have hlen : ([UInt8.ofNat m] :: (keys ++ [[UInt8.ofNat n]])).length - 2 = keys.length := by
    simp only [List.length_cons, List.length_append, List.length_nil]
    omega
  simp only [multisigCounts, hlast, hlen, List.head?_cons, Option.bind_some, Option.getD_some, hm, hn,
    Bool.not_eq_true', decide_eq_false_iff_not]
  omega

theorem standard_multisig (h : matchTemplate 5 script
      (opcodes [OP_SMALLINTEGER, OP_PUBKEYS, OP_SMALLINTEGER, OP_CHECKMULTISIG]) [] = some vSolutions)
    (hcounts : multisigCounts vSolutions = true) : StandardScript script .multisig vSolutions := by
  obtain ⟨opcode₁, vch₁, pc₁, new, hop₁, hnew, h⟩ := matchTemplate_round h (by decide) (by decide) (by decide)
  obtain ⟨hsmall₁, rfl⟩ := matchInstruction_smallInt hnew
  obtain ⟨keys, op, new, hkeys, hread, hnew, h⟩ := matchTemplate_pubKeys h (by decide) (by decide)
  obtain ⟨hsmall, rfl⟩ := matchInstruction_smallInt hnew
  obtain ⟨opcode₃, vch₃, pc₃, new, hop₃, hnew, h⟩ := matchTemplate_round h (by decide) (by decide) (by decide)
  obtain ⟨hcode₃, hvch₃, rfl⟩ := matchInstruction_opcode hnew (by decide)
  dsimp only at hcode₃ hvch₃ hsmall₁
  subst hcode₃ hvch₃
  obtain ⟨rfl, rfl⟩ := matchTemplate_nil h
  obtain ⟨hm, hm16⟩ := toNat_decodeOpN hsmall₁
  obtain ⟨hn, hn16⟩ := toNat_decodeOpN hsmall
  simp only [List.nil_append, List.append_nil, List.cons_append] at hcounts ⊢
  obtain ⟨hpos, hle, hlen⟩ := (multisigCounts_iff hm hn).mp hcounts
  rw [List.length_map] at hlen
  have hinstructions := (hread.resolve_left (by
    rintro hinvalid
    rw [hinvalid] at hsmall
    exact absurd hsmall (by decide))) _ (.cons hop₃ .nil)
  obtain ⟨pc', rest, hop⟩ := hinstructions.exists_getOp
    (List.mem_append_right keys List.mem_cons_self)
  have hscript := Instructions.cons hop₁ hinstructions
  rw [eq_smallInt hop₁ hsmall₁ hpos, eq_smallInt hop hsmall (hpos.trans hle), ← hlen] at hscript
  rw [← hlen]
  exact .multisig hscript hpos (by omega) (by omega) hkeys

theorem standard_scripthash (h : isPayToScriptHash script = true) :
    StandardScript script .scripthash [(script.drop 2).take 20] := by
  have hfields := h
  simp only [isPayToScriptHash, Bool.and_eq_true, beq_iff_eq] at hfields
  obtain ⟨⟨⟨hlen, hfirst⟩, hsecond⟩, hlast⟩ := hfields
  obtain ⟨a, b, rest, rfl⟩ : ∃ a b rest, script = a :: b :: rest := by
    rcases script with _ | ⟨a, _ | ⟨b, rest⟩⟩
    · cases hlen
    · cases hlen
    · exact ⟨a, b, rest, rfl⟩
  simp only [List.length_cons, List.getElem?_cons_zero, List.getElem?_cons_succ,
    Option.some.injEq] at hlen hfirst hsecond hlast
  have hrest : rest.drop 20 = [UInt8.ofNat OP_EQUAL] := by
    have hone : (rest.drop 20).length = 1 := by
      rw [List.length_drop]
      omega
    obtain ⟨c, hc⟩ := List.length_eq_one_iff.mp hone
    have hget : (rest.drop 20)[0]? = some (UInt8.ofNat OP_EQUAL) := by
      rwa [List.getElem?_drop]
    rw [hc] at hget ⊢
    cases hget
    rfl
  have hsize : (rest.take 20).length = 20 := by
    rw [List.length_take]
    omega
  subst hfirst hsecond
  have hop₁ : getOp (UInt8.ofNat OP_HASH160 :: 0x14 :: rest) = some (OP_HASH160, [], 0x14 :: rest) := rfl
  have hop₂ : getOp (0x14 :: rest) = some (20, rest.take 20, rest.drop 20) := by
    have hlong : ¬ rest.length < 20 := by omega
    change (if rest.length < 20 then none else some (20, rest.take 20, rest.drop 20)) = _
    rw [if_neg hlong]
  refine .scripthash h (.cons hop₁ (.cons hop₂ ?_)) hsize
  rw [hrest]
  exact .cons (by decide) .nil

/-- **What `Solver` accepts** is of one of the forms. -/
theorem solver_standard {typeRet : TxnOutType}
    (h : solver script = (true, typeRet, vSolutions)) : StandardScript script typeRet vSolutions := by
  unfold solver at h
  split at h
  · next hhash =>
    cases h
    exact standard_scripthash hhash
  · dsimp only at h
    split at h
    · cases h
    · next typeRet' found hfound =>
      simp only [Prod.mk.injEq] at h
      obtain ⟨hsolved, rfl, rfl⟩ := h
      obtain ⟨tplate, hmem, hmatch⟩ := List.exists_of_findSome?_eq_some hfound
      obtain ⟨vs, hvs, heq⟩ := Option.map_eq_some_iff.mp hmatch
      simp only [mTemplates, List.mem_cons, List.not_mem_nil, or_false] at hmem
      rcases hmem with rfl | rfl | rfl
      · cases heq
        exact standard_pubkey hvs
      · cases heq
        exact standard_pubkeyhash hvs
      · cases heq
        exact standard_multisig hvs (by simpa using hsolved)

end Accepted

/-! ### Runs -/

section Runs

variable {env : ScriptEnv} {flags : ScriptFlags} {script pc : CScript} {stack : List Valtype}
  {n c : Nat} {s' : EvalState}

theorem runs_pushes (ops : List (Nat × Valtype)) {l : List (Nat × Valtype)} (h : Instructions pc (ops ++ l))
    (hops : ∀ op ∈ ops, 1 ≤ op.2.length ∧ op.2.length ≤ MAX_SCRIPT_ELEMENT_SIZE)
    (hsize : stack.length + ops.length ≤ 1000) (hrest : ∀ rest, Instructions rest l →
      Runs env flags rest (running script ((ops.map Prod.snd).reverse ++ stack) n c) s') :
    Runs env flags pc (running script stack n c) s' := by
  induction ops generalizing pc stack with
  | nil => exact hrest pc h
  | cons op ops ih =>
    obtain ⟨opcode, vch⟩ := op
    obtain ⟨rest, hop, hinstructions⟩ := h.head
    obtain ⟨hpos, hlen⟩ := hops _ List.mem_cons_self
    have hne : vch ≠ [] := List.length_pos_iff.mp hpos
    rw [List.length_cons] at hsize
    refine Runs.push hop (opcode_le_of_getOp hop hne) hlen (by omega) ?_
    apply ih hinstructions fun op hmem => hops op (List.mem_cons_of_mem _ hmem)
    · rw [List.length_cons]
      omega
    · rw [List.map_cons, List.reverse_cons, List.append_assoc] at hrest
      exact hrest

theorem runs_end (h : Instructions pc []) : Runs env flags pc (running script stack n c)
    (running script stack n c) := by
  cases h
  exact .done _

/-- **A payment to a key** takes a signature for it. -/
theorem evalScript_pubkey {opcode : Nat} {vchPubKey vchSig : Valtype}
    (h : Instructions script [(opcode, vchPubKey), (OP_CHECKSIG, [])])
    (hlower : 33 ≤ vchPubKey.length) (hupper : vchPubKey.length ≤ 120) (hsize : stack.length ≤ 900)
    (hscript : findAndDelete (pushData vchSig) script = script) :
    evalScript env flags script (vchSig :: stack) =
      ⟨true, vchOf (env.accepts flags script vchSig vchPubKey) :: stack, 1⟩ := by
  have hlen := h.length_le 120 (by
    simp only [List.mem_cons, List.not_mem_nil, or_false, forall_eq_or_imp, forall_eq]
    exact ⟨hupper, Nat.zero_le _⟩)
  refine evalScript_of_runs (n := 1) (hlen.trans (by simp)) ?_
  refine runs_pushes [(opcode, vchPubKey)] h ?_ (by simp; omega) fun rest hrest => ?_
  · intro op hmem
    rw [List.mem_singleton.mp hmem]
    exact ⟨by dsimp only; omega, hupper.trans (by decide)⟩
  · obtain ⟨pc', hop, hend⟩ := hrest.head
    refine Runs.op hop (by decide) (by decide) rfl evalOpcode_checkSig ?_ ?_
    · rw [List.length_cons]
      omega
    · rw [hscript]
      exact runs_end hend

/-- **A payment to the hash of a key** takes a signature and the key. -/
theorem evalScript_pubkeyhash {opcode : Nat} {vchPubKey vchSig keyID : Valtype}
    (h : Instructions script [(OP_DUP, []), (OP_HASH160, []), (opcode, keyID), (OP_EQUALVERIFY, []),
      (OP_CHECKSIG, [])])
    (hkeyID : keyID.length = 20) (hhash : env.hash160 vchPubKey = keyID) (hsize : stack.length ≤ 900)
    (hscript : findAndDelete (pushData vchSig) script = script) :
    evalScript env flags script (vchPubKey :: vchSig :: stack) =
      ⟨true, vchOf (env.accepts flags script vchSig vchPubKey) :: stack, 1⟩ := by
  have hlen := h.length_le 20 (by
    simp only [List.mem_cons, List.not_mem_nil, or_false, forall_eq_or_imp, forall_eq,
      List.length_nil]
    omega)
  have hstack : ∀ k, k ≤ 4 → stack.length + k ≤ 1000 := fun k hk => by omega
  refine evalScript_of_runs (n := 4) (hlen.trans (by simp)) ?_
  obtain ⟨pc₁, hop₁, h₁⟩ := h.head
  refine Runs.op hop₁ (by decide) (by decide) rfl evalOpcode_dup (hstack 3 (by decide)) ?_
  obtain ⟨pc₂, hop₂, h₂⟩ := h₁.head
  refine Runs.op hop₂ (by decide) (by decide) rfl evalOpcode_hash160 (hstack 3 (by decide)) ?_
  refine runs_pushes [(opcode, keyID)] h₂ ?_ (hstack 4 (by decide)) fun pc₃ h₃ => ?_
  · intro op hmem
    rw [List.mem_singleton.mp hmem, hkeyID]
    decide
  · obtain ⟨pc₄, hop₄, h₄⟩ := h₃.head
    rw [hhash]
    refine Runs.op hop₄ (by decide) (by decide) rfl evalOpcode_equalVerify (hstack 2 (by decide)) ?_
    obtain ⟨pc₅, hop₅, h₅⟩ := h₄.head
    refine Runs.op hop₅ (by decide) (by decide) rfl evalOpcode_checkSig (hstack 1 (by decide)) ?_
    rw [hscript]
    exact runs_end h₅

/-- **A payment to the hash of a script** takes the script. -/
theorem evalScript_scripthash {opcode : Nat} {redeemScript scriptID : Valtype}
    (h : Instructions script [(OP_HASH160, []), (opcode, scriptID), (OP_EQUAL, [])])
    (hscriptID : scriptID.length = 20) (hhash : env.hash160 redeemScript = scriptID)
    (hsize : stack.length ≤ 900) :
    evalScript env flags script (redeemScript :: stack) = ⟨true, vchTrue :: stack, 0⟩ := by
  have hlen := h.length_le 20 (by
    simp only [List.mem_cons, List.not_mem_nil, or_false, forall_eq_or_imp, forall_eq,
      List.length_nil]
    omega)
  have hstack : ∀ k, k ≤ 2 → stack.length + k ≤ 1000 := fun k hk => by omega
  refine evalScript_of_runs (n := 2) (hlen.trans (by simp)) ?_
  obtain ⟨pc₁, hop₁, h₁⟩ := h.head
  refine Runs.op hop₁ (by decide) (by decide) rfl evalOpcode_hash160 (hstack 1 (by decide)) ?_
  refine runs_pushes [(opcode, scriptID)] h₁ ?_ (hstack 2 (by decide)) fun pc₂ h₂ => ?_
  · intro op hmem
    rw [List.mem_singleton.mp hmem, hscriptID]
    decide
  · obtain ⟨pc₃, hop₃, h₃⟩ := h₂.head
    rw [hhash]
    exact Runs.op hop₃ (by decide) (by decide) rfl evalOpcode_equal (hstack 1 (by decide))
      (runs_end h₃)

/-- **A multisig** takes as many signatures as it requires, and an item more. -/
theorem evalScript_multisig (env : ScriptEnv) (flags : ScriptFlags) (dummy : Valtype)
    {nRequired : Nat} {keys : List (Nat × Valtype)} {sigs : List Valtype}
    (h : Instructions script (smallInt nRequired :: (keys ++ [smallInt keys.length, (OP_CHECKMULTISIG, [])])))
    (hpos : 1 ≤ nRequired) (hle : nRequired ≤ keys.length) (hmax : keys.length ≤ 16)
    (hkeys : ∀ key ∈ keys, 33 ≤ key.2.length ∧ key.2.length ≤ 120)
    (hsigs : sigs.length = nRequired) (hsize : stack.length ≤ 900)
    (hscript : ∀ vchSig ∈ sigs, findAndDelete (pushData vchSig) script = script) :
    ∃ nSigChecks, evalScript env flags script (sigs ++ dummy :: stack) =
      ⟨true, vchOf (greedy (env.accepts flags script) sigs (keys.map Prod.snd).reverse) :: stack,
        nSigChecks⟩ := by
  have hlen := h.length_le 120 (by
    simp only [List.mem_cons, List.mem_append, List.not_mem_nil, or_false, smallInt]
    rintro op (rfl | hmem | rfl | rfl)
    · exact Nat.zero_le _
    · exact (hkeys op hmem).2
    · exact Nat.zero_le _
    · exact Nat.zero_le _)
  have hscriptLen : script.length ≤ 10000 := by
    refine hlen.trans ?_
    simp only [List.length_cons, List.length_append, List.length_nil]
    omega
  have hreverse : ((keys.map Prod.snd).reverse).length = keys.length := by
    rw [List.length_reverse, List.length_map]
  have hsmall : ∀ k : Nat, ((OP_1 - 1 + k : Nat) : Int) - (OP_1 - 1 : Nat) = k := fun k => by
    rw [Nat.cast_add]
    omega
  have hkeysLen : (keys.map Prod.snd).reverse.length ≤ 20 := by omega
  obtain ⟨nSigChecks, hrun⟩ := evalOpcode_checkMultiSig env flags [] dummy stack 1 0
    hkeysLen (hsigs.trans_le (hle.trans_eq hreverse.symm)) (by omega) hscript
  rw [multiSigStack, hsigs, hreverse] at hrun
  have hsigsStack : (sigs ++ dummy :: stack).length = nRequired + 1 + stack.length := by
    rw [List.length_append, List.length_cons]
    omega
  refine ⟨nSigChecks, evalScript_of_runs hscriptLen (n := 1 + keys.length) ?_⟩
  obtain ⟨pc₁, hop₁, h₁⟩ := h.head
  refine Runs.small hop₁ ?_ ?_ (by omega) ?_
  · simp only [OP_1]
    omega
  · simp only [OP_1, OP_16]
    omega
  refine runs_pushes keys h₁ ?_ ?_ fun pc₂ h₂ => ?_
  · intro key hmem
    have hkey := hkeys key hmem
    simp only [MAX_SCRIPT_ELEMENT_SIZE]
    omega
  · rw [List.length_cons]
    omega
  obtain ⟨pc₃, hop₃, h₃⟩ := h₂.head
  refine Runs.small hop₃ ?_ ?_ ?_ ?_
  · simp only [OP_1]
    omega
  · simp only [OP_1, OP_16]
    omega
  · rw [List.length_append, List.length_cons]
    omega
  obtain ⟨pc₄, hop₄, h₄⟩ := h₃.head
  rw [hsmall, hsmall]
  cases h₄
  refine Runs.op hop₄ (by decide) (by decide) rfl hrun ?_ (.done _)
  rw [List.length_cons]
  omega

/-- **An input is verified** when its items satisfy the script. -/
theorem verifyScript_plain {values below : List Valtype}
    (hlen : ∀ v ∈ values, v.length ≤ MAX_SCRIPT_ELEMENT_SIZE) (hcount : values.length ≤ 19)
    (hplain : isPayToScriptHash script = false)
    (hrun : evalScript env flags script values.reverse = ⟨true, vchTrue :: below, c⟩) :
    (verifyScript env flags (pushAll values) script).result = some true := by
  have hsig : evalScript env flags (pushAll values) [] = _ := evalScript_pushAll hlen hcount
  unfold verifyScript
  rw [hsig]
  dsimp only
  rw [hrun, hplain]
  simp [vchTrue, castToBool]

/-- **An input that spends a payment to a script hash is verified** when the items below the script
satisfy it. -/
theorem verifyScript_scripthash {opcode : Nat} {scriptID redeemScript : Valtype}
    {values below : List Valtype} (hp2sh : flags.p2sh = true) (hscript : isPayToScriptHash script = true)
    (h : Instructions script [(OP_HASH160, []), (opcode, scriptID), (OP_EQUAL, [])])
    (hscriptID : scriptID.length = 20) (hhash : env.hash160 redeemScript = scriptID)
    (hlen : ∀ v ∈ values, v.length ≤ MAX_SCRIPT_ELEMENT_SIZE)
    (hredeem : redeemScript.length ≤ MAX_SCRIPT_ELEMENT_SIZE) (hcount : values.length ≤ 18)
    (hrun : evalScript env flags redeemScript values.reverse = ⟨true, vchTrue :: below, c⟩) :
    (verifyScript env flags (pushAll (values ++ [redeemScript])) script).result = some true := by
  have hitems : ∀ v ∈ values ++ [redeemScript], v.length ≤ MAX_SCRIPT_ELEMENT_SIZE := by
    intro v hmem
    rcases List.mem_append.mp hmem with hmem | hmem
    · exact hlen v hmem
    · rw [List.mem_singleton.mp hmem]
      exact hredeem
  have hreverse : (values ++ [redeemScript]).reverse = redeemScript :: values.reverse := by
    rw [List.reverse_append, List.reverse_singleton, List.singleton_append]
  have hsig : evalScript env flags (pushAll (values ++ [redeemScript])) [] = _ :=
    evalScript_pushAll hitems (by
      rw [List.length_append, List.length_singleton]
      omega)
  have hpub : evalScript env flags script (redeemScript :: values.reverse) = _ :=
    evalScript_scripthash h hscriptID hhash (by
      rw [List.length_reverse]
      omega)
  have hpushOnly : isPushOnly (pushAll (values ++ [redeemScript])) = true :=
    isPushOnly_pushAll fun v hmem => Nat.lt_of_le_of_lt (hitems v hmem) (by decide)
  unfold verifyScript
  rw [hsig, hreverse]
  dsimp only
  rw [hpub, hscript, hp2sh]
  unfold verifyRedeemScript
  rw [hpushOnly]
  simp [hrun, vchTrue, castToBool]

end Runs

end Manna
