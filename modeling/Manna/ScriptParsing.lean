import Manna.Solver

/-!
Parsing of scripts at positions, and what is built for it (`script.h`: `CScript::GetOp2`,
`CScript::operator<<`).

`getOp2` reads the script at a position, with every read checked and the difference `end() - pc` cut
to an unsigned int as in the source; `none` stands for a read outside of the script.

* `getOp2_spec`: one call, against `getOp`; `getOp_eq_getOp2`: below 4 GiB they agree;
* `getOp2_encode`: what was appended is read back;
* `scriptParsing_inverts`: a script that was built is parsed into what it was built from.
-/

namespace Manna

/-! ### The source -/

def readBytes (script : CScript) (pc nBytes : Nat) : Option Valtype :=
  if pc + nBytes ≤ script.length then some ((script.drop pc).take nBytes) else none

/-- The size of an immediate operand and the position after it. The size is `none` where `GetOp2`
returns false. -/
def readSize (script : CScript) (opcode pc : Nat) : Option (Option Nat × Nat) :=
  if opcode < OP_PUSHDATA1 then some (some opcode, pc)
  else
    let nBytes : Nat := if opcode = OP_PUSHDATA1 then 1 else if opcode = OP_PUSHDATA2 then 2 else 4
    if (script.length : Int) - pc < nBytes then some (none, pc)
    else
      match readBytes script pc nBytes with
      | none => none
      | some bytes => some (some (leNat bytes), pc + nBytes)

/-- What `GetOp2` returns and leaves in `pc`, `opcodeRet` and `*pvchRet`. -/
structure GetOpResult where
  fRet : Bool
  pc : Nat
  opcodeRet : Nat
  vchRet : Valtype
  deriving DecidableEq, Repr

/-- `return false`: `opcodeRet` and `*pvchRet` are as they were reset. -/
def GetOpResult.fail (pc : Nat) : GetOpResult := ⟨false, pc, OP_INVALIDOPCODE, []⟩

def getOp2 (script : CScript) (pc : Nat) : Option GetOpResult :=
  if pc ≥ script.length then some (.fail pc)
  else
    match script[pc]? with
    | none => none
    | some byte =>
      let opcode := byte.toNat
      if opcode ≤ OP_PUSHDATA4 then
        match readSize script opcode (pc + 1) with
        | none => none
        | some (none, pc) => some (.fail pc)
        | some (some nSize, pc) =>
          -- `(unsigned int)(end() - pc) < nSize`
          if (script.length : Int) - pc < 0 ∨ (((script.length : Int) - pc) % 2 ^ 32) < nSize then
            some (.fail pc)
          else
            match readBytes script pc nSize with
            | none => none
            | some vch => some ⟨true, pc + nSize, opcode, vch⟩
      else some ⟨true, pc + 1, opcode, []⟩

/-- `GetOp` until it returns false: the instructions, and the position where it did. Every
instruction takes a byte, so the length of the script is enough. -/
def getOps (script : CScript) : Nat → Nat → Option (List (Nat × Valtype) × Nat)
  | 0, pc => some ([], pc)
  | fuel + 1, pc =>
    match getOp2 script pc with
    | none => none
    | some result =>
      if result.fRet then
        (getOps script fuel result.pc).map fun (instructions, pcEnd) =>
          ((result.opcodeRet, result.vchRet) :: instructions, pcEnd)
      else some ([], pc)

/-- The instructions of a script, from `begin()` on. -/
def parseScript (script : CScript) : Option (List (Nat × Valtype) × Nat) :=
  getOps script script.length 0

/-- What `operator<<` takes: an `opcodetype` or a vector of bytes. -/
inductive ScriptItem where
  | opcode (code : Nat)
  | data (b : Valtype)
  deriving DecidableEq, Repr

/-- `CScript::operator<<`. -/
def ScriptItem.append (script : CScript) : ScriptItem → Except String CScript
  | .opcode code =>
    if code > 0xff then .error "CScript::operator<<() : invalid opcode"
    else .ok (script ++ [UInt8.ofNat code])
  | .data b => .ok (script ++ pushData b)

def buildScript (items : List ScriptItem) : Except String CScript :=
  items.foldlM ScriptItem.append []

def pushOpcode (nSize : Nat) : Nat :=
  if nSize < OP_PUSHDATA1 then nSize
  else if nSize ≤ 0xff then OP_PUSHDATA1
  else if nSize ≤ 0xffff then OP_PUSHDATA2
  else OP_PUSHDATA4

/-- An item, as `GetOp` returns it. -/
def ScriptItem.instruction : ScriptItem → Nat × Valtype
  | .opcode code => (code, [])
  | .data b => (pushOpcode b.length, b)

/-! ### One call -/

variable {script : CScript} {items : List ScriptItem}

theorem readBytes_eq {pc nBytes : Nat} (h : pc + nBytes ≤ script.length) :
    readBytes script pc nBytes = some ((script.drop pc).take nBytes) := if_pos h

/-- The size of an operand is read in the script, and as `pushSize` reads it. -/
theorem readSize_spec (opcode : Nat) {pc : Nat} (hpc : pc ≤ script.length) :
    ∃ nSize pc', readSize script opcode pc = some (nSize, pc') ∧ pc ≤ pc' ∧ pc' ≤ script.length ∧
      pushSize opcode (script.drop pc) = nSize.map fun n => (n, script.drop pc') := by
  unfold readSize pushSize
  by_cases hdirect : opcode < OP_PUSHDATA1
  · rw [if_pos hdirect, if_pos hdirect]
    exact ⟨_, _, rfl, le_refl pc, hpc, rfl⟩
  · rw [if_neg hdirect, if_neg hdirect]
    dsimp only
    generalize (if opcode = OP_PUSHDATA1 then 1 else if opcode = OP_PUSHDATA2 then 2 else 4) = nBytes
    rw [List.length_drop]
    by_cases hshort : script.length - pc < nBytes
    · rw [if_pos hshort, if_pos (by omega)]
      exact ⟨_, _, rfl, le_refl pc, hpc, rfl⟩
    · rw [if_neg hshort, if_neg (by omega), readBytes_eq (by omega)]
      refine ⟨_, _, rfl, Nat.le_add_right pc nBytes, by omega, ?_⟩
      rw [List.drop_drop]
      rfl

/-- What a call of `GetOp2` at a position of a script returns. -/
structure GetOpSpec (script : CScript) (pc : Nat) (result : GetOpResult) : Prop where
  le_pc : pc ≤ result.pc
  pc_le : pc ≤ script.length → result.pc ≤ script.length
  /-- The position advances, and the instruction is the one `getOp` decodes. -/
  advances : result.fRet = true → pc < result.pc ∧
    getOp (script.drop pc) = some (result.opcodeRet, result.vchRet, script.drop result.pc)
  /-- `getOp` decodes what was refused only where the unsigned int is too small. -/
  refused : result.fRet = false → ∀ opcode vch rest,
    getOp (script.drop pc) = some (opcode, vch, rest) →
      opcode ≤ OP_PUSHDATA4 ∧ (vch.length + rest.length) % 2 ^ 32 < vch.length

/-- **One call** never reads outside of the script, whatever the script and the position. -/
theorem getOp2_spec (script : CScript) (pc : Nat) :
    ∃ result, getOp2 script pc = some result ∧ GetOpSpec script pc result := by
  unfold getOp2
  by_cases hend : pc ≥ script.length
  · rw [if_pos hend]
    refine ⟨_, rfl, le_refl pc, id, fun h => absurd h Bool.false_ne_true, fun _ opcode vch rest hop => ?_⟩
    rw [List.drop_eq_nil_of_le hend] at hop
    cases hop
  have hin : pc < script.length := Nat.not_le.mp hend
  have hdrop := List.drop_eq_getElem_cons hin
  rw [if_neg hend, List.getElem?_eq_getElem hin]
  dsimp only
  generalize script[pc] = byte at hdrop
  by_cases hpush : byte.toNat ≤ OP_PUSHDATA4
  · rw [if_pos hpush]
    obtain ⟨nSize, pc', hread, hle, hpc', hsize⟩ := readSize_spec byte.toNat (Nat.succ_le_of_lt hin)
    rw [hread]
    cases nSize with
    | none =>
      refine ⟨_, rfl, (Nat.le_succ pc).trans hle, fun _ => hpc', fun h => absurd h Bool.false_ne_true, fun _ opcode vch rest hop => ?_⟩
      rw [hdrop, getOp] at hop
      simp only [hpush, if_true, hsize, Option.map_none] at hop
      cases hop
    | some nSize =>
      have hop : getOp (script.drop pc) = if (script.drop pc').length < nSize then none else
          some (byte.toNat, (script.drop pc').take nSize, (script.drop pc').drop nSize) := by
        rw [hdrop, getOp]
        simp only [hpush, if_true, hsize, Option.map_some]
      dsimp only
      by_cases hcut : (script.length : Int) - pc' < 0 ∨
          (((script.length : Int) - pc') % 2 ^ 32) < nSize
      · rw [if_pos hcut]
        refine ⟨_, rfl, (Nat.le_succ pc).trans hle, fun _ => hpc', fun h => absurd h Bool.false_ne_true,
          fun _ opcode vch rest hop' => ?_⟩
        rw [hop] at hop'
        split at hop'
        · cases hop'
        · next hshort =>
          simp only [Option.some.injEq, Prod.mk.injEq] at hop'
          obtain ⟨rfl, rfl, rfl⟩ := hop'
          refine ⟨hpush, ?_⟩
          simp only [List.length_take, List.length_drop] at hshort ⊢
          omega
      · rw [if_neg hcut, readBytes_eq (by omega)]
        refine ⟨_, rfl, by dsimp only; omega, fun _ => by dsimp only; omega,
          fun _ => ⟨by dsimp only; omega, ?_⟩, fun h => absurd h.symm Bool.false_ne_true⟩
        rw [hop, if_neg, List.drop_drop]
        rw [List.length_drop]
        omega
  · rw [if_neg hpush]
    refine ⟨_, rfl, Nat.le_succ pc, fun _ => hin, fun _ => ⟨Nat.lt_succ_self pc, ?_⟩, fun h => absurd h.symm Bool.false_ne_true⟩
    rw [hdrop, getOp]
    simp only [hpush, if_false]

theorem getOp_length_add_le {pc rest : CScript} {opcode : Nat} {vch : Valtype}
    (h : getOp pc = some (opcode, vch, rest)) : vch.length + rest.length ≤ pc.length := by
  obtain ⟨byte, size, rfl, -⟩ := getOp_cases h
  simp only [List.length_cons, List.length_append]
  omega

/-- **Below 4 GiB** `getOp2` is `getOp` at the position. -/
theorem getOp_eq_getOp2 (hlen : script.length < 2 ^ 32) (pc : Nat) :
    ∃ result, getOp2 script pc = some result ∧ (pc ≤ script.length → result.pc ≤ script.length) ∧
      getOp (script.drop pc) = if result.fRet then
        some (result.opcodeRet, result.vchRet, script.drop result.pc) else none := by
  obtain ⟨result, hread, hspec⟩ := getOp2_spec script pc
  refine ⟨result, hread, hspec.pc_le, ?_⟩
  cases hret : result.fRet with
  | true => exact (hspec.advances hret).2
  | false =>
    cases hop : getOp (script.drop pc) with
    | none => rfl
    | some out =>
      obtain ⟨opcode, vch, rest⟩ := out
      obtain ⟨-, hcut⟩ := hspec.refused hret opcode vch rest hop
      have hle := getOp_length_add_le hop
      rw [List.length_drop] at hle
      rw [Nat.mod_eq_of_lt (by omega)] at hcut
      omega

/-! ### What was built -/

/-- The bytes that `operator<<` appends. -/
def ScriptItem.encode : ScriptItem → CScript
  | .opcode code => [UInt8.ofNat code]
  | .data b => pushData b

/-- The bytes of several items. -/
def encodeItems (items : List ScriptItem) : CScript := items.flatMap ScriptItem.encode

theorem append_eq_ok {script' : CScript} {item : ScriptItem} (h : item.append script = .ok script') :
    script' = script ++ item.encode ∧ ∀ code, item = .opcode code → code ≤ 0xff := by
  cases item with
  | opcode code =>
    rw [ScriptItem.append] at h
    split at h
    · cases h
    · next hcode =>
      cases h
      refine ⟨rfl, ?_⟩
      rintro _ ⟨⟩
      omega
  | data b =>
    cases h
    exact ⟨rfl, nofun⟩

/-- **What is built** is the bytes of the items, and their opcodes are bytes. -/
theorem buildScript_eq_ok (h : buildScript items = .ok script) :
    script = encodeItems items ∧ ∀ code, .opcode code ∈ items → code ≤ 0xff := by
  have hfold : ∀ (items : List ScriptItem) (start : CScript),
      items.foldlM ScriptItem.append start = .ok script →
        script = start ++ encodeItems items ∧ ∀ code, .opcode code ∈ items → code ≤ 0xff := by
    intro items
    induction items with
    | nil =>
      intro start h
      cases h
      exact ⟨(List.append_nil script).symm, nofun⟩
    | cons item items ih =>
      intro start h
      rw [List.foldlM_cons] at h
      cases hitem : item.append start with
      | error message =>
        rw [hitem] at h
        cases h
      | ok next =>
        rw [hitem] at h
        obtain ⟨rfl, hcode⟩ := append_eq_ok hitem
        obtain ⟨hscript, hcodes⟩ := ih _ h
        rw [List.append_assoc] at hscript
        refine ⟨hscript, fun code hmem => ?_⟩
        rcases List.mem_cons.mp hmem with heq | hmem
        · exact hcode code heq.symm
        · exact hcodes code hmem
  exact hfold items [] h

def ScriptItem.TakesNoOperand : ScriptItem → Prop
  | .opcode code => code = OP_0 ∨ OP_PUSHDATA4 < code
  | .data _ => True

/-- The operands are not longer than what the unsigned int holds of `end() - pc`. -/
def FitsUnsigned : List ScriptItem → Prop
  | [] => True
  | .opcode _ :: items => FitsUnsigned items
  | .data b :: items =>
    b.length ≤ (b.length + (encodeItems items).length) % 2 ^ 32 ∧ FitsUnsigned items

theorem length_encodeItems_cons (item : ScriptItem) (items : List ScriptItem) :
    (encodeItems (item :: items)).length = item.encode.length + (encodeItems items).length := by
  rw [encodeItems, List.flatMap_cons, List.length_append]
  rfl

theorem fitsUnsigned_of_length_lt (h : (encodeItems items).length < 2 ^ 32) : FitsUnsigned items:= by
  induction items with
  | nil => trivial
  | cons item items ih =>
    rw [length_encodeItems_cons] at h
    cases item with
    | opcode code => exact ih (by omega)
    | data b =>
      have hpush : b.length < (ScriptItem.data b).encode.length := length_le_pushData b
      refine ⟨?_, ih (by omega)⟩
      rw [Nat.mod_eq_of_lt (by omega)]
      exact Nat.le_add_right _ _

theorem pushOpcode_le (nSize : Nat) : pushOpcode nSize ≤ OP_PUSHDATA4 := by
  unfold pushOpcode OP_PUSHDATA4 OP_PUSHDATA1 OP_PUSHDATA2
  split_ifs <;> omega

theorem pushData_eq_cons (b : Valtype) :
    ∃ bytes, pushData b = UInt8.ofNat (pushOpcode b.length) :: bytes := by
  unfold pushData pushOpcode
  dsimp only
  split_ifs
  · exact ⟨_, rfl⟩
  · exact ⟨_, rfl⟩
  · exact ⟨_, rfl⟩
  · exact ⟨_, rfl⟩

theorem getOp_encode {item : ScriptItem} (hoperand : item.TakesNoOperand)
    (hcode : ∀ code, item = .opcode code → code ≤ 0xff)
    (hlen : ∀ b, item = .data b → b.length < 2 ^ 32) (rest : CScript) :
    getOp (item.encode ++ rest) = some (item.instruction.1, item.instruction.2, rest) := by
  cases item with
  | opcode code =>
    rcases hoperand with rfl | hop
    · rfl
    · exact getOp_byte hop (Nat.lt_succ_of_le (hcode code rfl)) rest
  | data b =>
    obtain ⟨opcode, hop⟩ := getOp_pushData (hlen b rfl) rest
    obtain ⟨bytes, hbytes⟩ := pushData_eq_cons b
    have hopcode : opcode = pushOpcode b.length := by
      rw [hbytes] at hop
      rw [(getOp_cons_iff.mp hop).1, UInt8.toNat_ofNat']
      exact Nat.mod_eq_of_lt (Nat.lt_of_le_of_lt (pushOpcode_le _) (by decide))
    show getOp (pushData b ++ rest) = some (pushOpcode b.length, b, rest)
    rw [← hopcode]
    exact hop

/-- **What was appended is read back**, from the position where it stands. -/
theorem getOp2_encode {item : ScriptItem} (before : CScript)
    (hoperand : item.TakesNoOperand) (hcode : ∀ code, item = .opcode code → code ≤ 0xff)
    (hfits : FitsUnsigned (item :: items)) : getOp2 (before ++ encodeItems (item :: items)) before.length =
      some ⟨true, before.length + item.encode.length, item.instruction.1, item.instruction.2⟩ := by
  have hlen : ∀ b, item = .data b → b.length < 2 ^ 32 := by
    rintro b rfl
    exact Nat.lt_of_le_of_lt hfits.1 (Nat.mod_lt _ (by decide))
  have hop := getOp_encode hoperand hcode hlen (encodeItems items)
  have hitems : encodeItems (item :: items) = item.encode ++ encodeItems items := List.flatMap_cons
  have hdrop : (before ++ encodeItems (item :: items)).drop before.length =
      item.encode ++ encodeItems items := by
    rw [List.drop_left, hitems]
  obtain ⟨result, hread, hspec⟩ := getOp2_spec (before ++ encodeItems (item :: items)) before.length
  rw [← hdrop] at hop
  rw [hread]
  obtain ⟨fRet, pc', opcodeRet, vchRet⟩ := result
  cases fRet with
  | false =>
    obtain ⟨hpush, hcut⟩ := hspec.refused rfl _ _ _ hop
    cases item with
    | opcode code =>
      -- An instruction without operand is not refused.
      exact absurd hcut (Nat.not_lt_zero _)
    | data b => exact absurd hcut (Nat.not_lt.mpr hfits.1)
  | true =>
    obtain ⟨-, hop'⟩ := hspec.advances rfl
    rw [hop] at hop'
    simp only [Option.some.injEq, Prod.mk.injEq] at hop'
    obtain ⟨rfl, rfl, hrest⟩ := hop'
    have hpc := hspec.pc_le (by simp)
    have hrestlen := congrArg List.length hrest
    rw [List.length_drop] at hrestlen
    dsimp only at hpc hrestlen
    rw [hitems] at hpc hrestlen
    simp only [List.length_append] at hpc hrestlen
    have : pc' = before.length + item.encode.length := by omega
    rw [this]

theorem getOps_encodeItems (items : List ScriptItem) (before : CScript) (fuel : Nat)
    (hfuel : (encodeItems items).length ≤ fuel) (hoperand : ∀ item ∈ items, item.TakesNoOperand)
    (hcode : ∀ code, .opcode code ∈ items → code ≤ 0xff) (hfits : FitsUnsigned items) :
    getOps (before ++ encodeItems items) fuel before.length =
      some (items.map ScriptItem.instruction, (before ++ encodeItems items).length) := by
  induction items generalizing before fuel with
  | nil =>
    have hend : before.length ≥ (before ++ encodeItems []).length := by
      simp [encodeItems]
    cases fuel with
    | zero => simp [getOps, encodeItems]
    | succ fuel =>
      rw [getOps, getOp2, if_pos hend]
      simp [GetOpResult.fail, encodeItems]
  | cons item items ih =>
    have hpos : 0 < item.encode.length := by
      cases item with
      | opcode code => exact Nat.succ_pos 0
      | data b => exact Nat.lt_of_le_of_lt (Nat.zero_le _) (length_le_pushData b)
    rw [length_encodeItems_cons] at hfuel
    cases fuel with
    | zero => omega
    | succ fuel =>
      have hstep := getOp2_encode before (hoperand item List.mem_cons_self)
        (fun code heq => hcode code (heq ▸ List.mem_cons_self)) hfits
      have hfits' : FitsUnsigned items := by
        cases item with
        | opcode code => exact hfits
        | data b => exact hfits.2
      have hrest := ih (before ++ item.encode) fuel (by omega)
        (fun item' hmem => hoperand item' (List.mem_cons_of_mem item hmem))
        (fun code hmem => hcode code (List.mem_cons_of_mem item hmem)) hfits'
      have hscript : before ++ item.encode ++ encodeItems items =
          before ++ encodeItems (item :: items) := by
        rw [List.append_assoc]
        rfl
      rw [hscript, List.length_append] at hrest
      rw [getOps, hstep]
      dsimp only
      rw [if_pos rfl, hrest]
      rfl

/-- **Parsing inverts building**, for opcodes that take no operand and sizes that the unsigned int of
`GetOp2` holds. On every script and at every position a call reads nothing outside of the script, and
advances or returns false. -/
theorem scriptParsing_inverts :
    (∀ items script, buildScript items = .ok script → (∀ item ∈ items, item.TakesNoOperand) →
      FitsUnsigned items →
        parseScript script = some (items.map ScriptItem.instruction, script.length)) ∧
    (∀ script pc, ∃ result, getOp2 script pc = some result ∧
      (result.fRet = true → pc < result.pc ∧ result.pc ≤ script.length)) := by
  constructor
  · intro items script hbuild hoperand hfits
    obtain ⟨rfl, hcode⟩ := buildScript_eq_ok hbuild
    exact getOps_encodeItems items [] _ (le_refl _) hoperand hcode hfits
  · intro script pc
    obtain ⟨result, hread, hspec⟩ := getOp2_spec script pc
    refine ⟨result, hread, fun hret => ?_⟩
    obtain ⟨hlt, hop⟩ := hspec.advances hret
    refine ⟨hlt, hspec.pc_le ?_⟩
    by_contra hend
    rw [List.drop_eq_nil_of_le (Nat.le_of_not_le hend)] at hop
    cases hop

theorem scriptParsing_inverts_short :
    parseScript [0x01, 0x2a, 0xac] = some ([(1, [0x2a]), (0xac, [])], 3) :=
  scriptParsing_inverts.1 [.data [0x2a], .opcode OP_CHECKSIG] [0x01, 0x2a, 0xac] rfl
    (by
      rintro item hmem
      rcases List.mem_pair.mp hmem with rfl | rfl
      · trivial
      · exact .inr (by decide))
    (fitsUnsigned_of_length_lt (by decide))

/-- A push is refused when the unsigned int of `end() - pc` is smaller than its operand. -/
theorem parseScript_cut {byte : UInt8} {rest : CScript} (hpush : byte.toNat < OP_PUSHDATA1)
    (hcut : rest.length % 2 ^ 32 < byte.toNat) : parseScript (byte :: rest) = some ([], 0) := by
  have hle : byte.toNat ≤ OP_PUSHDATA4 := hpush.le.trans (by decide)
  have hread : getOp2 (byte :: rest) 0 = some (.fail 1) := by
    have hin : ¬ 0 ≥ (byte :: rest).length := Nat.not_le.mpr (Nat.succ_pos _)
    rw [getOp2, if_neg hin, List.getElem?_cons_zero]
    dsimp only
    rw [if_pos hle, readSize, if_pos hpush]
    dsimp only
    rw [if_pos]
    right
    rw [List.length_cons]
    omega
  rw [parseScript, List.length_cons, getOps, hread]
  rfl

/-- An opcode that announces an operand takes the bytes after it, or is refused where there are none;
and where 4 GiB follow, the unsigned int is zero and the shortest push is refused. -/
theorem scriptParsing_not_inverse :
    (buildScript [.opcode OP_PUSHDATA1] = .ok [0x4c] ∧ parseScript [0x4c] = some ([], 0)) ∧
    ∃ script,
      buildScript [.data (List.replicate 10 0), .data (List.replicate (2 ^ 32 - 15) 0)] =
        .ok script ∧ parseScript script = some ([], 0) := by
  refine ⟨⟨rfl, by decide⟩, ?_⟩
  have hsmall : (List.replicate 10 (0 : UInt8)).length = 10 := rfl
  have hbig : (List.replicate (2 ^ 32 - 15) (0 : UInt8)).length = 2 ^ 32 - 15 := List.length_replicate
  generalize List.replicate 10 (0 : UInt8) = small at *
  generalize List.replicate (2 ^ 32 - 15) (0 : UInt8) = big at *
  refine ⟨_, rfl, ?_⟩
  have hpushSmall : pushData small = 10 :: small := by
    unfold pushData
    dsimp only
    rw [hsmall]
    rfl
  have hpushBig : (pushData big).length = 2 ^ 32 - 10 := by
    unfold pushData
    dsimp only
    rw [hbig, if_neg (by decide), if_neg (by decide), if_neg (by decide), List.length_append,
      List.length_cons, List.length_map, List.length_range, hbig]
    omega
  rw [List.nil_append, hpushSmall, List.cons_append]
  refine parseScript_cut (by decide) ?_
  rw [List.length_append, hpushBig, hsmall]
  decide

end Manna
