import Manna.FindAndDelete
import Manna.ScriptParsing

/-!
What `FindAndDelete` deletes (`script.h`: `CScript::FindAndDelete`).

`findAndDeleteAt` erases in the script it iterates and calls `GetOp` again at the same offset. A script
is its instructions and a tail where none can be decoded (`Segments`).

* `eraseLoop_spec`: the inner loop takes the matches at one offset;
* `findAndDeleteAt_eq_filter`: every instruction that equals the pattern goes, and nothing else.
-/

namespace Manna

/-- `while (end() - pc >= (long)b.size() && memcmp(&pc[0], &b[0], b.size()) == 0)`: what is left of the
script, and `nFound`. Every round takes a byte, so the length of the script is enough. -/
def eraseLoop (b : CScript) (pc : Nat) : Nat → CScript → Nat → Option (CScript × Nat)
  | 0, script, nFound => some (script, nFound)
  | fuel + 1, script, nFound =>
    if (script.length : Int) - pc ≥ b.length then
      match readBytes script pc b.length with
      | none => none
      | some bytes =>
        if bytes = b then
          eraseLoop b pc fuel (script.take pc ++ script.drop (pc + b.length)) (nFound + 1)
        else some (script, nFound)
    else some (script, nFound)

/-- `do … while (GetOp(pc, opcode))`, from an offset on. Every round but the last advances. -/
def deleteLoop (b : CScript) : Nat → CScript → Nat → Nat → Option (CScript × Nat)
  | 0, script, _, nFound => some (script, nFound)
  | fuel + 1, script, pc, nFound =>
    match eraseLoop b pc script.length script nFound with
    | none => none
    | some (script, nFound) =>
      match getOp2 script pc with
      | none => none
      | some result =>
        if result.fRet then deleteLoop b fuel script result.pc nFound
        else some (script, nFound)

/-- `CScript::FindAndDelete`: the script and `nFound`, or `none` for a read outside of the script. -/
def findAndDeleteAt (b script : CScript) : Option (CScript × Nat) :=
  if b = [] then some (script, 0) else deleteLoop b (script.length + 1) script 0 0

/-! ### Instructions and a tail -/

/-- **A script as the bytes of its instructions**, and the tail where no instruction is decoded. -/
inductive Segments : CScript → List CScript → CScript → Prop
  | tail {pc} : getOp pc = none → Segments pc [] pc
  | instruction {bytes rest opcode vch segments tail} :
      getOp (bytes ++ rest) = some (opcode, vch, rest) → Segments rest segments tail →
      Segments (bytes ++ rest) (bytes :: segments) tail

/-- The instructions of a script: as `GetOp` is called from the start on, until it returns false. -/
def scriptSegments : Nat → CScript → List CScript × CScript
  | 0, pc => ([], pc)
  | fuel + 1, pc =>
    match getOp pc with
    | none => ([], pc)
    | some (_, _, rest) =>
      let (segments, tail) := scriptSegments fuel rest
      (pc.take (pc.length - rest.length) :: segments, tail)

/-- `GetOp` from the start of a script on. -/
def segmentsOf (script : CScript) : List CScript × CScript := scriptSegments script.length script

/-- One instruction, and nothing after it. -/
def SingleInstruction (b : CScript) : Prop := ∃ opcode vch, getOp b = some (opcode, vch, [])

variable {segments : List CScript} {b : CScript}

theorem Segments.eq_flatten {script tail : CScript}
    (h : Segments script segments tail) : script = segments.flatten ++ tail := by
  induction h with
  | tail => rfl
  | instruction _ _ ih => rw [List.flatten_cons, List.append_assoc, ← ih]

theorem Segments.tail_stops {script tail : CScript} (h : Segments script segments tail) : getOp tail = none:= by
  induction h with
  | tail hop => exact hop
  | instruction _ _ ih => exact ih

theorem scriptSegments_eq {script tail : CScript}
    (h : Segments script segments tail) {fuel : Nat} (hfuel : script.length ≤ fuel) :
    scriptSegments fuel script = (segments, tail) := by
  induction h generalizing fuel with
  | tail hop =>
    cases fuel with
    | zero => rfl
    | succ fuel => rw [scriptSegments, hop]
  | @instruction bytes rest opcode vch segments tail hop _ ih =>
    have hlt := getOp_length_lt hop
    cases fuel with
    | zero => omega
    | succ fuel =>
      rw [scriptSegments, hop]
      dsimp only
      rw [ih (by omega), List.length_append, Nat.add_sub_cancel, List.take_left]

theorem segments_iff {script tail : CScript} :
    Segments script segments tail ↔ segmentsOf script = (segments, tail) := by
  constructor
  · intro h
    exact scriptSegments_eq h (le_refl _)
  · intro h
    have hexists : ∀ n (script : CScript), script.length ≤ n →
        ∃ segments tail, Segments script segments tail := by
      intro n
      induction n with
      | zero =>
        intro script hlen
        obtain rfl := List.eq_nil_of_length_eq_zero (Nat.le_zero.mp hlen)
        exact ⟨_, _, .tail rfl⟩
      | succ n ih =>
        intro script hlen
        cases hop : getOp script with
        | none => exact ⟨_, _, .tail hop⟩
        | some out =>
          obtain ⟨opcode, vch, rest⟩ := out
          have hlt := getOp_length_lt hop
          obtain ⟨bytes, rfl⟩ := getOp_suffix hop
          obtain ⟨segments, tail, hrest⟩ := ih rest (by omega)
          exact ⟨_, _, .instruction hop hrest⟩
    obtain ⟨segments', tail', hscript⟩ := hexists _ script (le_refl _)
    have heq := scriptSegments_eq hscript (le_refl _)
    rw [segmentsOf, heq] at h
    cases h
    exact hscript

/-! ### Instructions do not depend on what follows -/

theorem pushSize_append {opcode nSize : Nat} {pc rest after : CScript} :
    pushSize opcode (pc ++ after) = some (nSize, rest ++ after) ↔
      pushSize opcode pc = some (nSize, rest) := by
  simp only [pushSize_iff, ← List.append_assoc, List.append_cancel_right_eq]

/-- **What is decoded is decoded whatever follows.** -/
theorem getOp_append {pc rest after : CScript} {opcode : Nat} {vch : Valtype} :
    getOp (pc ++ after) = some (opcode, vch, rest ++ after) ↔ getOp pc = some (opcode, vch, rest) := by
  cases pc with
  | nil =>
    refine ⟨fun h => ?_, fun h => absurd h.symm (Option.some_ne_none _)⟩
    have hlt := getOp_length_lt h
    simp only [List.nil_append, List.length_append] at hlt
    omega
  | cons byte pc =>
    rw [List.cons_append]
    simp only [getOp_cons_iff, ← List.append_assoc, pushSize_append, List.append_cancel_right_eq]

theorem getOp_bytes {bytes rest : CScript} {opcode : Nat} {vch : Valtype}
    (h : getOp (bytes ++ rest) = some (opcode, vch, rest)) : getOp bytes = some (opcode, vch, []) :=
  getOp_append.mp (by rwa [List.nil_append])

theorem Segments.single {script tail : CScript}
    (h : Segments script segments tail) : ∀ bytes ∈ segments, SingleInstruction bytes := by
  induction h with
  | tail => exact nofun
  | instruction hop _ ih =>
    rintro bytes hmem
    rcases List.mem_cons.mp hmem with rfl | hmem
    · exact ⟨_, _, getOp_bytes hop⟩
    · exact ih bytes hmem

/-- **Instructions one after the other**, and a tail that cannot be decoded, are decoded as such. -/
theorem segments_of_single {tail : CScript}
    (hsingle : ∀ bytes ∈ segments, SingleInstruction bytes) (htail : getOp tail = none) :
    Segments (segments.flatten ++ tail) segments tail := by
  induction segments with
  | nil => exact .tail htail
  | cons bytes segments ih =>
    obtain ⟨opcode, vch, hop⟩ := hsingle bytes List.mem_cons_self
    rw [List.flatten_cons, List.append_assoc]
    exact .instruction (getOp_append.mpr hop)
      (ih fun bytes' hmem => hsingle bytes' (List.mem_cons_of_mem bytes hmem))

theorem SingleInstruction.eq_of_prefix {bytes rest : CScript} {opcode : Nat} {vch : Valtype}
    (hb : SingleInstruction b) (hop : getOp (bytes ++ rest) = some (opcode, vch, rest))
    (hstarts : b <+: bytes ++ rest) : bytes = b := by
  obtain ⟨opcode', vch', hb⟩ := hb
  obtain ⟨after, hafter⟩ := hstarts
  have hb' : getOp (b ++ after) = some (opcode', vch', [] ++ after) := getOp_append.mpr hb
  rw [hafter, hop] at hb'
  cases hb'
  exact (List.append_cancel_right hafter).symm

theorem SingleInstruction.not_prefix {tail : CScript} (hb : SingleInstruction b)
    (htail : getOp tail = none) : ¬ b <+: tail := by
  obtain ⟨opcode, vch, hb⟩ := hb
  rintro ⟨after, rfl⟩
  have hb' : getOp (b ++ after) = some (opcode, vch, [] ++ after) := getOp_append.mpr hb
  rw [htail] at hb'
  cases hb'

theorem SingleInstruction.ne_nil (hb : SingleInstruction b) : b ≠ [] := by
  obtain ⟨opcode, vch, hb⟩ := hb
  rintro rfl
  cases hb

theorem eraseLoop_succ (b before pc : CScript) (fuel nFound : Nat) :
    eraseLoop b before.length (fuel + 1) (before ++ pc) nFound = if b <+: pc then
        eraseLoop b before.length fuel (before ++ pc.drop b.length) (nFound + 1)
      else some (before ++ pc, nFound) := by
  rw [eraseLoop, List.length_append]
  by_cases hlen : b.length ≤ pc.length
  · rw [if_pos (by omega), readBytes_eq (by rw [List.length_append]; omega), List.drop_left]
    dsimp only
    rw [List.take_left, ← List.drop_drop, List.drop_left]
    exact if_congr ⟨fun h => List.prefix_iff_eq_take.mpr h.symm,
      fun h => (List.prefix_iff_eq_take.mp h).symm⟩ rfl rfl
  · rw [if_neg (by omega), if_neg fun h => hlen h.length_le]

/-- **The inner loop** takes the instructions at its offset that equal the pattern. -/
theorem eraseLoop_spec (hb : SingleInstruction b) {pc tail : CScript}
    (h : Segments pc segments tail) (before : CScript) (fuel : Nat)
    (hfuel : pc.length ≤ fuel) (nFound : Nat) :
    ∃ n segments' pc', segments = List.replicate n b ++ segments' ∧ Segments pc' segments' tail ∧
      ¬ b <+: pc' ∧
      eraseLoop b before.length fuel (before ++ pc) nFound = some (before ++ pc', nFound + n) := by
  induction h generalizing fuel nFound with
  | @tail pc hop =>
    refine ⟨0, [], pc, rfl, .tail hop, hb.not_prefix hop, ?_⟩
    cases fuel with
    | zero => rfl
    | succ fuel => rw [eraseLoop_succ, if_neg (hb.not_prefix hop), Nat.add_zero]
  | @instruction bytes rest opcode vch segments tail hop hrest ih =>
    have hlt := getOp_length_lt hop
    cases fuel with
    | zero => omega
    | succ fuel =>
      by_cases hprefix : b <+: bytes ++ rest
      · obtain rfl := hb.eq_of_prefix hop hprefix
        obtain ⟨n, segments', pc', rfl, hpc', hnot, hloop⟩ := ih fuel (by omega) (nFound + 1)
        refine ⟨n + 1, segments', pc', rfl, hpc', hnot, ?_⟩
        rw [eraseLoop_succ, if_pos hprefix, List.drop_left, hloop]
        congr 2
        omega
      · refine ⟨0, bytes :: segments, bytes ++ rest, rfl, .instruction hop hrest, hprefix, ?_⟩
        rw [eraseLoop_succ, if_neg hprefix, Nat.add_zero]

/-! ### The outer loop -/

/-- **The loop** drops the instructions that equal the pattern, from an offset on. -/
theorem deleteLoop_spec (hb : SingleInstruction b) (fuel : Nat) {pc tail : CScript}
    (h : Segments pc segments tail) (before : CScript)
    (hlen : (before ++ pc).length < 2 ^ 32) (hfuel : pc.length < fuel) (nFound : Nat) :
    deleteLoop b fuel (before ++ pc) before.length nFound =
      some (before ++ ((segments.filter (· ≠ b)).flatten ++ tail), nFound + segments.count b) := by
  induction fuel generalizing pc segments before nFound with
  | zero => omega
  | succ fuel ih =>
    obtain ⟨n, segments', pc', rfl, hpc', hnot, herase⟩ :=
      eraseLoop_spec hb h before (before ++ pc).length
        (by rw [List.length_append]; omega) nFound
    have hdropped : (List.replicate n b ++ segments').filter (· ≠ b) = segments'.filter (· ≠ b) := by
      rw [List.filter_append, List.filter_replicate]
      simp
    have hcount : (List.replicate n b ++ segments').count b = n + segments'.count b := by
      rw [List.count_append, List.count_replicate_self]
    have hle : pc'.length ≤ pc.length := by
      rw [h.eq_flatten, hpc'.eq_flatten, List.flatten_append, List.append_assoc]
      simp only [List.length_append]
      omega
    rw [List.length_append] at hlen
    have hlen' : (before ++ pc').length < 2 ^ 32 := by
      rw [List.length_append]
      omega
    obtain ⟨result, hread, hpc, hop⟩ := getOp_eq_getOp2 hlen' before.length
    rw [List.drop_left] at hop
    rw [deleteLoop, herase]
    dsimp only
    rw [hread, hdropped, hcount]
    dsimp only
    cases hpc' with
    | tail htail =>
      cases hret : result.fRet with
      | true =>
        rw [htail, hret, if_pos rfl] at hop
        cases hop
      | false => simp
    | @instruction bytes rest opcode vch segments tail hinstr hrest =>
      have hne : bytes ≠ b := by
        rintro rfl
        exact hnot (List.prefix_append bytes rest)
      cases hret : result.fRet with
      | false =>
        rw [hinstr, hret] at hop
        cases hop
      | true =>
        rw [hinstr, hret, if_pos rfl] at hop
        simp only [Option.some.injEq, Prod.mk.injEq] at hop
        obtain ⟨-, -, hdrop⟩ := hop
        have hlt := getOp_length_lt hinstr
        have hend := hpc (by simp)
        have hdroplen := congrArg List.length hdrop
        rw [List.length_drop] at hdroplen
        simp only [List.length_append] at hend hdroplen hlen' hle hlt
        have hpcEq : result.pc = (before ++ bytes).length := by
          rw [List.length_append]
          omega
        have hrun := ih hrest (before ++ bytes)
          (by simp only [List.length_append]; omega) (by omega) (nFound + n)
        rw [List.append_assoc] at hrun
        rw [if_pos rfl, hpcEq, hrun, List.filter_cons_of_pos (by simpa using hne),
          List.count_cons_of_ne hne, List.flatten_cons]
        simp only [List.append_assoc, Nat.add_assoc]

/-- **What `FindAndDelete` deletes.** For every script the instructions of the result are those of the
script without the ones whose bytes are the pattern, in order; what could not be decoded is still there
after them, and `nFound` is the number of instructions dropped. `nFound` is an int, and `GetOp` takes
`end() - pc` for an unsigned int: scripts are below 2 GiB (`ReadCompactSize` refuses more than
`MAX_SIZE`). -/
theorem findAndDeleteAt_eq_filter {b script : CScript} (hb : SingleInstruction b)
    (hlen : script.length < 2 ^ 31) :
    script = (segmentsOf script).1.flatten ++ (segmentsOf script).2 ∧
      ∃ result nFound, findAndDeleteAt b script = some (result, nFound) ∧
        segmentsOf result = ((segmentsOf script).1.filter (· ≠ b), (segmentsOf script).2) ∧
        result = ((segmentsOf script).1.filter (· ≠ b)).flatten ++ (segmentsOf script).2 ∧
        nFound = (segmentsOf script).1.count b := by
  have hscript : Segments script (segmentsOf script).1 (segmentsOf script).2 := segments_iff.mpr rfl
  have hrun := deleteLoop_spec hb (script.length + 1) hscript [] (by
    rw [List.nil_append]
    omega) (Nat.lt_succ_self _) 0
  refine ⟨hscript.eq_flatten, _, _, (if_neg hb.ne_nil).trans hrun, ?_, rfl, Nat.zero_add _⟩
  rw [← segments_iff]
  exact segments_of_single
    (fun bytes hmem => hscript.single bytes (List.mem_filter.mp hmem).1) hscript.tail_stops

/-- `OP_CODESEPARATOR` is deleted where it is an instruction, and kept in the operand of a push and
after the instruction that is cut off. -/
theorem findAndDeleteAt_codeSeparator :
    ∃ result nFound, findAndDeleteAt [0xab] [0xab, 0x01, 0xab, 0xab, 0x51, 0x02, 0xab] =
        some (result, nFound) ∧
      segmentsOf result = ([[0x01, 0xab], [0x51]], [0x02, 0xab]) ∧
      result = [0x01, 0xab, 0x51, 0x02, 0xab] ∧ nFound = 2 :=
  (findAndDeleteAt_eq_filter (b := [0xab]) ⟨0xab, [], rfl⟩ (by decide)).2

end Manna
