import Mathlib.Data.List.Basic
import Mathlib.Tactic.SplitIfs

/-!
Scripts as byte strings: instruction decoding and the syntactic counts the block
and transaction checks read (`script.h`, `script.cpp`).

The interpreter itself is not part of this module. Checks that run it take a
`ScriptEngine`, so every result about them holds for any interpreter.
-/

namespace Manna

/-- `CScript`: a vector of unsigned char. -/
abbrev CScript := List UInt8

def OP_0 : Nat := 0x00
def OP_PUSHDATA1 : Nat := 0x4c
def OP_PUSHDATA2 : Nat := 0x4d
def OP_PUSHDATA4 : Nat := 0x4e
def OP_1 : Nat := 0x51
def OP_16 : Nat := 0x60
def OP_EQUAL : Nat := 0x87
def OP_HASH160 : Nat := 0xa9
def OP_CHECKSIG : Nat := 0xac
def OP_CHECKSIGVERIFY : Nat := 0xad
def OP_CHECKMULTISIG : Nat := 0xae
def OP_CHECKMULTISIGVERIFY : Nat := 0xaf
def OP_INVALIDOPCODE : Nat := 0xff

/-! ### Instruction decoding -/

/-- A little-endian number, as `memcpy` into an unsigned int reads it. -/
def leNat : List UInt8 → Nat
  | [] => 0
  | b :: bs => b.toNat + 256 * leNat bs

def pushSize (opcode : Nat) (pc : CScript) : Option (Nat × CScript) :=
  if opcode < OP_PUSHDATA1 then some (opcode, pc)
  else
    let nBytes := if opcode = OP_PUSHDATA1 then 1 else if opcode = OP_PUSHDATA2 then 2 else 4
    if pc.length < nBytes then none else some (leNat (pc.take nBytes), pc.drop nBytes)

/-- `CScript::GetOp2`: opcode, operand and the rest of the script, or `none` where
the source returns false. -/
def getOp (pc : CScript) : Option (Nat × List UInt8 × CScript) :=
  match pc with
  | [] => none
  | b :: pc =>
    let opcode := b.toNat
    if opcode ≤ OP_PUSHDATA4 then
      match pushSize opcode pc with
      | none => none
      | some (nSize, pc) =>
        if pc.length < nSize then none else some (opcode, pc.take nSize, pc.drop nSize)
    else some (opcode, [], pc)

/-- `CScript::DecodeOP_N` on the opcodes `GetSigOpCount` gives it. -/
def decodeOpN (opcode : Nat) : Nat :=
  if opcode = OP_0 then 0 else opcode - (OP_1 - 1)

/-- The loop of `GetSigOpCount(bool)`. The first argument bounds the instructions
left; every instruction takes a byte, so the length of the script is enough. -/
def sigOpCountLoop (fAccurate : Bool) : Nat → CScript → Nat → Nat → Nat
  | 0, _, _, n => n
  | fuel + 1, pc, lastOpcode, n =>
    match getOp pc with
    | none => n
    | some (opcode, _, pc) =>
      if opcode = OP_CHECKSIG ∨ opcode = OP_CHECKSIGVERIFY then
        sigOpCountLoop fAccurate fuel pc opcode (n + 1)
      else if opcode = OP_CHECKMULTISIG ∨ opcode = OP_CHECKMULTISIGVERIFY then
        if fAccurate ∧ OP_1 ≤ lastOpcode ∧ lastOpcode ≤ OP_16 then
          sigOpCountLoop fAccurate fuel pc opcode (n + decodeOpN lastOpcode)
        else sigOpCountLoop fAccurate fuel pc opcode (n + 20)
      else sigOpCountLoop fAccurate fuel pc opcode n

def getSigOpCount (script : CScript) (fAccurate : Bool) : Nat :=
  sigOpCountLoop fAccurate script.length script OP_INVALIDOPCODE 0

def isPayToScriptHash (script : CScript) : Bool :=
  script.length == 23 && script[0]? == some (UInt8.ofNat OP_HASH160) && script[1]? == some 0x14 &&
    script[22]? == some (UInt8.ofNat OP_EQUAL)

/-- The last item a push-only script leaves, `none` when it does anything else. -/
def lastPush : Nat → CScript → List UInt8 → Option (List UInt8)
  | 0, _, data => some data
  | fuel + 1, pc, data =>
    match pc with
    | [] => some data
    | _ :: _ =>
      match getOp pc with
      | none => none
      | some (opcode, data, pc) => if opcode > OP_16 then none else lastPush fuel pc data

def getSigOpCountP2SH (script scriptSig : CScript) : Nat :=
  if isPayToScriptHash script then
    match lastPush scriptSig.length scriptSig [] with
    | none => 0
    | some data => getSigOpCount data true
  else getSigOpCount script true

def isPushOnlyLoop : Nat → CScript → Bool
  | 0, _ => true
  | fuel + 1, pc =>
    match pc with
    | [] => true
    | _ :: _ =>
      match getOp pc with
      | none => false
      | some (opcode, _, pc) => if opcode > OP_16 then false else isPushOnlyLoop fuel pc

def isPushOnly (script : CScript) : Bool := isPushOnlyLoop script.length script

/-! ### What decoding consumes -/

theorem pushSize_iff {opcode nSize : Nat} {pc rest : CScript} : pushSize opcode pc = some (nSize, rest) ↔
      ∃ size : CScript, pc = size ++ rest ∧ if opcode < OP_PUSHDATA1 then size = [] ∧ nSize = opcode
        else size.length = (if opcode = OP_PUSHDATA1 then 1 else if opcode = OP_PUSHDATA2 then 2 else 4) ∧
          nSize = leNat size := by
  unfold pushSize
  by_cases hdirect : opcode < OP_PUSHDATA1
  · simp only [hdirect, if_true, Option.some.injEq, Prod.mk.injEq]
    constructor
    · rintro ⟨rfl, rfl⟩
      exact ⟨[], rfl, rfl, rfl⟩
    · rintro ⟨_, rfl, rfl, rfl⟩
      exact ⟨rfl, rfl⟩
  · simp only [hdirect, if_false]
    generalize (if opcode = OP_PUSHDATA1 then 1 else if opcode = OP_PUSHDATA2 then 2 else 4) = nBytes
    constructor
    · intro h
      split at h
      · cases h
      · next hshort =>
        cases h
        exact ⟨_, (List.take_append_drop nBytes pc).symm, List.length_take_of_le (Nat.not_lt.mp hshort),
          rfl⟩
    · rintro ⟨size, rfl, rfl, rfl⟩
      rw [if_neg (by rw [List.length_append]; omega), List.take_left, List.drop_left]

/-- **An instruction** is a push of the bytes after its size, or an opcode alone. -/
theorem getOp_cons_iff {byte : UInt8} {pc rest : CScript} {opcode : Nat} {vch : List UInt8} :
    getOp (byte :: pc) = some (opcode, vch, rest) ↔ opcode = byte.toNat ∧
      if opcode ≤ OP_PUSHDATA4 then pushSize opcode pc = some (vch.length, vch ++ rest)
      else vch = [] ∧ pc = rest := by
  simp only [getOp]
  by_cases hpush : byte.toNat ≤ OP_PUSHDATA4
  · simp only [hpush, if_true]
    constructor
    · intro h
      split at h
      · cases h
      · next nSize operand hsize =>
        split at h
        · cases h
        · next hshort =>
          cases h
          rw [if_pos hpush, List.take_append_drop, List.length_take_of_le (Nat.not_lt.mp hshort)]
          exact ⟨rfl, hsize⟩
    · rintro ⟨rfl, h⟩
      rw [if_pos hpush] at h
      rw [h]
      dsimp only
      rw [if_neg (by rw [List.length_append]; omega), List.take_left, List.drop_left]
  · simp only [hpush, if_false, Option.some.injEq, Prod.mk.injEq]
    constructor
    · rintro ⟨rfl, rfl, rfl⟩
      exact ⟨rfl, by rw [if_neg hpush]; exact ⟨rfl, rfl⟩⟩
    · rintro ⟨rfl, h⟩
      rw [if_neg hpush] at h
      exact ⟨rfl, h.1.symm, h.2⟩

theorem getOp_cases {pc rest : CScript} {opcode : Nat} {vch : List UInt8}
    (h : getOp pc = some (opcode, vch, rest)) :
    ∃ byte : UInt8, ∃ size : CScript, pc = byte :: (size ++ (vch ++ rest)) ∧ opcode = byte.toNat ∧
      size.length ≤ 4 ∧ (opcode < OP_PUSHDATA1 → size = [] ∧ vch.length = opcode) ∧
      (OP_PUSHDATA4 < opcode → size = [] ∧ vch = []) := by
  cases pc with
  | nil => cases h
  | cons byte pc =>
    obtain ⟨hcode, hread⟩ := getOp_cons_iff.mp h
    split at hread
    · next hpush =>
      obtain ⟨size, rfl, hsize⟩ := pushSize_iff.mp hread
      refine ⟨byte, size, rfl, hcode, ?_, fun hlt => by rwa [if_pos hlt] at hsize,
        fun hlt => absurd hpush (Nat.not_le.mpr hlt)⟩
      split_ifs at hsize with hdirect hone htwo
      · simp [hsize.1]
      all_goals omega
    · next hpush =>
      obtain ⟨rfl, rfl⟩ := hread
      exact ⟨byte, [], rfl, hcode, Nat.zero_le _,
        fun hlt => absurd (Nat.le_trans (Nat.le_of_lt hlt) (by decide)) hpush, fun _ => ⟨rfl, rfl⟩⟩

theorem getOp_length_lt {pc pc' : CScript} {opcode : Nat} {data : List UInt8}
    (h : getOp pc = some (opcode, data, pc')) : pc'.length < pc.length := by
  obtain ⟨byte, size, rfl, -⟩ := getOp_cases h
  simp only [List.length_cons, List.length_append]
  omega

end Manna
