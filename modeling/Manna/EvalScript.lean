import Manna.Block
import Manna.Lib.CostLogic

/-!
The script interpreter (`script.cpp`: `EvalScript`, `VerifyScript`).

The stacks are lists with the top first, so `stacktop(-i)` is the element at `i - 1`. An opcode
runs in `EStateM`: where the source returns false or throws, the run stops with a reason
(`EvalStop`) and keeps the state, as the source leaves its variables. The opcodes that only work
on the stacks run on these alone (`evalStackOp`); what remains are the branches, the code
separator and the signature checks. `nSigChecks` is not a variable of the source: it counts the
signatures examined.

* `EvalState.nSigChecks`, `checkSignature`: where a signature check is counted;
* `evalScript`, `verifyScript`: the interpreter, and the verification of an input.
-/

namespace Manna

open CostLogic

/-! ### Opcodes -/

def OP_1NEGATE : Nat := 0x4f
def OP_NOP : Nat := 0x61
def OP_IF : Nat := 0x63
def OP_ENDIF : Nat := 0x68

/-- The opcodes of `opcodetype` from `OP_NOP` on. -/
inductive OpcodeType where
  -- control
  | OP_NOP | OP_VER | OP_IF | OP_NOTIF | OP_VERIF | OP_VERNOTIF | OP_ELSE | OP_ENDIF | OP_VERIFY
  | OP_RETURN
  -- stack ops
  | OP_TOALTSTACK | OP_FROMALTSTACK | OP_2DROP | OP_2DUP | OP_3DUP | OP_2OVER | OP_2ROT | OP_2SWAP
  | OP_IFDUP | OP_DEPTH | OP_DROP | OP_DUP | OP_NIP | OP_OVER | OP_PICK | OP_ROLL | OP_ROT
  | OP_SWAP | OP_TUCK
  -- splice ops
  | OP_CAT | OP_SUBSTR | OP_LEFT | OP_RIGHT | OP_SIZE
  -- bit logic
  | OP_INVERT | OP_AND | OP_OR | OP_XOR | OP_EQUAL | OP_EQUALVERIFY | OP_RESERVED1 | OP_RESERVED2
  -- numeric
  | OP_1ADD | OP_1SUB | OP_2MUL | OP_2DIV | OP_NEGATE | OP_ABS | OP_NOT | OP_0NOTEQUAL
  | OP_ADD | OP_SUB | OP_MUL | OP_DIV | OP_MOD | OP_LSHIFT | OP_RSHIFT
  | OP_BOOLAND | OP_BOOLOR | OP_NUMEQUAL | OP_NUMEQUALVERIFY | OP_NUMNOTEQUAL | OP_LESSTHAN
  | OP_GREATERTHAN | OP_LESSTHANOREQUAL | OP_GREATERTHANOREQUAL | OP_MIN | OP_MAX | OP_WITHIN
  -- crypto
  | OP_RIPEMD160 | OP_SHA1 | OP_SHA256 | OP_HASH160 | OP_HASH256 | OP_CODESEPARATOR
  | OP_CHECKSIG | OP_CHECKSIGVERIFY | OP_CHECKMULTISIG | OP_CHECKMULTISIGVERIFY
  -- expansion
  | OP_NOP1 | OP_NOP2 | OP_NOP3 | OP_NOP4 | OP_NOP5 | OP_NOP6 | OP_NOP7 | OP_NOP8 | OP_NOP9
  | OP_NOP10
  | OP_INVALIDOPCODE
deriving DecidableEq, Repr

namespace OpcodeType

/-- The opcodes from `OP_NOP` on, which have consecutive codes. -/
def fromNop : List OpcodeType :=
  [OP_NOP, OP_VER, OP_IF, OP_NOTIF, OP_VERIF, OP_VERNOTIF, OP_ELSE, OP_ENDIF, OP_VERIFY, OP_RETURN,
    OP_TOALTSTACK, OP_FROMALTSTACK, OP_2DROP, OP_2DUP, OP_3DUP, OP_2OVER, OP_2ROT, OP_2SWAP,
    OP_IFDUP, OP_DEPTH, OP_DROP, OP_DUP, OP_NIP, OP_OVER, OP_PICK, OP_ROLL, OP_ROT, OP_SWAP, OP_TUCK,
    OP_CAT, OP_SUBSTR, OP_LEFT, OP_RIGHT, OP_SIZE,
    OP_INVERT, OP_AND, OP_OR, OP_XOR, OP_EQUAL, OP_EQUALVERIFY, OP_RESERVED1, OP_RESERVED2,
    OP_1ADD, OP_1SUB, OP_2MUL, OP_2DIV, OP_NEGATE, OP_ABS, OP_NOT, OP_0NOTEQUAL,
    OP_ADD, OP_SUB, OP_MUL, OP_DIV, OP_MOD, OP_LSHIFT, OP_RSHIFT,
    OP_BOOLAND, OP_BOOLOR, OP_NUMEQUAL, OP_NUMEQUALVERIFY, OP_NUMNOTEQUAL, OP_LESSTHAN,
    OP_GREATERTHAN, OP_LESSTHANOREQUAL, OP_GREATERTHANOREQUAL, OP_MIN, OP_MAX, OP_WITHIN,
    OP_RIPEMD160, OP_SHA1, OP_SHA256, OP_HASH160, OP_HASH256, OP_CODESEPARATOR,
    OP_CHECKSIG, OP_CHECKSIGVERIFY, OP_CHECKMULTISIG, OP_CHECKMULTISIGVERIFY,
    OP_NOP1, OP_NOP2, OP_NOP3, OP_NOP4, OP_NOP5, OP_NOP6, OP_NOP7, OP_NOP8, OP_NOP9, OP_NOP10]

def ofCode (opcode : Nat) : OpcodeType :=
  if opcode < Manna.OP_NOP then OP_INVALIDOPCODE
  else fromNop.getD (opcode - Manna.OP_NOP) OP_INVALIDOPCODE

def isDisabled : OpcodeType → Bool
  | OP_CAT | OP_SUBSTR | OP_LEFT | OP_RIGHT | OP_INVERT | OP_AND | OP_OR | OP_XOR | OP_2MUL
  | OP_2DIV | OP_MUL | OP_DIV | OP_MOD | OP_LSHIFT | OP_RSHIFT => true
  | _ => false

end OpcodeType

/-- `valtype`. -/
abbrev Valtype := List UInt8

def vchFalse : Valtype := []

def vchTrue : Valtype := [1]

def vchOf (fValue : Bool) : Valtype := if fValue then vchTrue else vchFalse

/-- `CastToBool`: only zeros, the last byte possibly with the sign bit, are false. -/
def castToBool : Valtype → Bool
  | [] => false
  | [b] => b ≠ 0 ∧ b ≠ 0x80
  | b :: vch => if b ≠ 0 then true else castToBool vch

def leBytes : Nat → Nat → List UInt8
  | 0, _ => []
  | fuel + 1, n => if n = 0 then [] else UInt8.ofNat n :: leBytes fuel (n / 256)

/-- `CBigNum::getvch`: the magnitude, the lowest byte first; the highest bit is the sign. -/
def bnGetVch (bn : Int) : Valtype :=
  let magnitude := leBytes bn.natAbs bn.natAbs
  let sign : UInt8 := if bn < 0 then 0x80 else 0
  match magnitude.getLast? with
  | none => []
  | some top =>
    if top < 0x80 then magnitude.dropLast ++ [top + sign] else magnitude ++ [sign]

/-- `CBigNum::setvch`. -/
def bnSetVch (vch : Valtype) : Int :=
  match vch.getLast? with
  | none => 0
  | some top =>
    if top < 0x80 then leNat vch else -(leNat (vch.dropLast ++ [top - 0x80]) : Int)

/-- `CBigNum::getint`. -/
def bnGetInt (bn : Int) : Int := max (-2 ^ 31) (min (2 ^ 31 - 1) bn)

def nMaxNumSize : Nat := 4

def MAX_SCRIPT_ELEMENT_SIZE : Nat := 520

/-! ### Signatures -/

def isCanonicalPubKey (vchPubKey : Valtype) : Bool :=
  if vchPubKey.length < 33 then false
  else if vchPubKey.getD 0 0 = 0x04 then vchPubKey.length = 65
  else if vchPubKey.getD 0 0 = 0x02 ∨ vchPubKey.getD 0 0 = 0x03 then vchPubKey.length = 33
  else false

def SIGHASH_ALL : Nat := 1
def SIGHASH_NONE : Nat := 2
def SIGHASH_SINGLE : Nat := 3
def SIGHASH_ANYONECANPAY : Nat := 0x80

/-- The tests of `IsCanonicalSignature` on one of the two numbers: its type byte, its length and
its bytes. -/
def isCanonicalNumber (vchSig : Valtype) (start nLen : Nat) : Bool :=
  vchSig.getD (start - 2) 0 = 0x02 ∧ nLen ≠ 0 ∧ vchSig.getD start 0 < 0x80 ∧
    ¬ (nLen > 1 ∧ vchSig.getD start 0 = 0x00 ∧ vchSig.getD (start + 1) 0 < 0x80)

def isCanonicalSignature (vchSig : Valtype) : Bool :=
  let size := vchSig.length
  if size < 9 ∨ size > 73 then false
  else
    let nHashType := (vchSig.getD (size - 1) 0).toNat % SIGHASH_ANYONECANPAY
    if nHashType < SIGHASH_ALL ∨ nHashType > SIGHASH_SINGLE then false
    else if vchSig.getD 0 0 ≠ 0x30 ∨ (vchSig.getD 1 0).toNat ≠ size - 3 then false
    else
      let nLenR := (vchSig.getD 3 0).toNat
      if 5 + nLenR ≥ size then false
      else
        let nLenS := (vchSig.getD (5 + nLenR) 0).toNat
        if nLenR + nLenS + 7 ≠ size then false
        else isCanonicalNumber vchSig 4 nLenR && isCanonicalNumber vchSig (6 + nLenR) nLenS

/-- `CScript << vch`: an instruction that pushes the bytes. -/
def pushData (vch : Valtype) : CScript :=
  let nSize := vch.length
  let size := fun nBytes : Nat => (List.range nBytes).map fun i => UInt8.ofNat (nSize / 256 ^ i)
  if nSize < OP_PUSHDATA1 then UInt8.ofNat nSize :: vch
  else if nSize ≤ 0xff then UInt8.ofNat OP_PUSHDATA1 :: size 1 ++ vch
  else if nSize ≤ 0xffff then UInt8.ofNat OP_PUSHDATA2 :: size 2 ++ vch
  else UInt8.ofNat OP_PUSHDATA4 :: size 4 ++ vch

/-- The loop of `FindAndDelete`: `b` is erased at an instruction as often as it stands there, and
then the instruction is stepped over. Both take bytes, so the length of the script is enough. -/
def findAndDeleteLoop (b : CScript) : Nat → CScript → CScript
  | 0, pc => pc
  | fuel + 1, pc =>
    if b.isPrefixOf pc then findAndDeleteLoop b fuel (pc.drop b.length)
    else
      match getOp pc with
      | none => pc
      | some (_, _, rest) =>
        pc.take (pc.length - rest.length) ++ findAndDeleteLoop b fuel rest

def findAndDelete (b script : CScript) : CScript :=
  if b = [] then script else findAndDeleteLoop b (script.length + 1) script

/-- What the interpreter calls: the hash functions, and `CheckSig` with the transaction, the input
and the hash type it verifies for. -/
structure ScriptEnv where
  ripemd160 : Valtype → Valtype
  sha1 : Valtype → Valtype
  sha256 : Valtype → Valtype
  /-- `CheckSig(vchSig, vchPubKey, scriptCode, txTo, nIn, nHashType, flags)`. -/
  checkSig : Valtype → Valtype → CScript → Bool

/-- `Hash160`. -/
def ScriptEnv.hash160 (env : ScriptEnv) (vch : Valtype) : Valtype := env.ripemd160 (env.sha256 vch)

def ScriptEnv.hash256 (env : ScriptEnv) (vch : Valtype) : Valtype := env.sha256 (env.sha256 vch)

/-! ### The stacks -/

/-- Why `EvalScript` returns false. -/
inductive EvalStop where
  | returnFalse
  /-- `std::out_of_range` of `stack.at`, the exception of `popstack`, or an iterator below the
  bottom, which is undefined. -/
  | outOfRange
  /-- `CastToBigNum() : overflow`. -/
  | overflow
deriving DecidableEq, Repr

/-- `stack` and `altstack`, the top first. -/
structure Stacks where
  stack : List Valtype
  altstack : List Valtype
deriving DecidableEq, Repr

abbrev StackM := EStateM EvalStop Stacks

/-- `stacktop(-i)`. -/
def stacktop (i : Nat) : StackM Valtype := do
  let s ← get
  match s.stack[i - 1]? with
  | none => throw .outOfRange
  | some vch => pure vch

def popstack : StackM Unit := do
  let s ← get
  match s.stack with
  | [] => throw .outOfRange
  | _ :: stack => set { s with stack := stack }

def pushstack (vch : Valtype) : StackM Unit :=
  modify fun s => { s with stack := vch :: s.stack }

def needs (n : Nat) : StackM Unit := do
  let s ← get
  if s.stack.length < n then throw .returnFalse else pure ()

def eraseRange (first last : Nat) : StackM Unit := do
  let s ← get
  if s.stack.length < first then throw .outOfRange
  else set { s with stack := s.stack.take last ++ s.stack.drop first }

def insertAt (i : Nat) (vch : Valtype) : StackM Unit := do
  let s ← get
  if s.stack.length < i then throw .outOfRange
  else set { s with stack := s.stack.take i ++ vch :: s.stack.drop i }

def altstacktop : StackM Valtype := do
  let s ← get
  match s.altstack with
  | [] => throw .outOfRange
  | vch :: _ => pure vch

/-- `popstack(altstack)`. -/
def popaltstack : StackM Unit := do
  let s ← get
  match s.altstack with
  | [] => throw .outOfRange
  | _ :: altstack => set { s with altstack := altstack }

def swapTop (i j : Nat) : StackM Unit := do
  let x ← stacktop i
  let y ← stacktop j
  modify fun s => { s with stack := (s.stack.set (i - 1) y).set (j - 1) x }

def castToBigNum (vch : Valtype) : StackM Int :=
  if vch.length > nMaxNumSize then throw .overflow
  else pure (bnSetVch (bnGetVch (bnSetVch vch)))

/-- The end of the `VERIFY` variants: a true result is popped, a false one stops. -/
def verifyTop (fVerify fValue : Bool) : StackM Unit :=
  if fVerify then if fValue then popstack else throw .returnFalse else pure ()

/-! ### The opcodes that work on the stacks -/

def unaryOp : OpcodeType → Int → Int
  | .OP_1ADD, bn => bn + 1
  | .OP_1SUB, bn => bn - 1
  | .OP_NEGATE, bn => -bn
  | .OP_ABS, bn => if bn < 0 then -bn else bn
  | .OP_NOT, bn => if bn = 0 then 1 else 0
  | .OP_0NOTEQUAL, bn => if bn ≠ 0 then 1 else 0
  | _, bn => bn

/-- The inner switch of the numeric opcodes of two operands. -/
def binaryOp : OpcodeType → Int → Int → Int
  | .OP_ADD, bn1, bn2 => bn1 + bn2
  | .OP_SUB, bn1, bn2 => bn1 - bn2
  | .OP_BOOLAND, bn1, bn2 => if bn1 ≠ 0 ∧ bn2 ≠ 0 then 1 else 0
  | .OP_BOOLOR, bn1, bn2 => if bn1 ≠ 0 ∨ bn2 ≠ 0 then 1 else 0
  | .OP_NUMEQUAL, bn1, bn2 => if bn1 = bn2 then 1 else 0
  | .OP_NUMEQUALVERIFY, bn1, bn2 => if bn1 = bn2 then 1 else 0
  | .OP_NUMNOTEQUAL, bn1, bn2 => if bn1 ≠ bn2 then 1 else 0
  | .OP_LESSTHAN, bn1, bn2 => if bn1 < bn2 then 1 else 0
  | .OP_GREATERTHAN, bn1, bn2 => if bn1 > bn2 then 1 else 0
  | .OP_LESSTHANOREQUAL, bn1, bn2 => if bn1 ≤ bn2 then 1 else 0
  | .OP_GREATERTHANOREQUAL, bn1, bn2 => if bn1 ≥ bn2 then 1 else 0
  | .OP_MIN, bn1, bn2 => if bn1 < bn2 then bn1 else bn2
  | .OP_MAX, bn1, bn2 => if bn1 > bn2 then bn1 else bn2
  | _, _, _ => 0

/-- The cases of the switch that only use the stacks. -/
def evalStackOp (env : ScriptEnv) : OpcodeType → StackM Unit
  | .OP_NOP | .OP_NOP1 | .OP_NOP2 | .OP_NOP3 | .OP_NOP4 | .OP_NOP5 | .OP_NOP6 | .OP_NOP7 | .OP_NOP8
  | .OP_NOP9 | .OP_NOP10 => pure ()
  | .OP_VERIFY => do
    needs 1
    verifyTop true (castToBool (← stacktop 1))
  | .OP_TOALTSTACK => do
    needs 1
    let vch ← stacktop 1
    modify fun s => { s with altstack := vch :: s.altstack }
    popstack
  | .OP_FROMALTSTACK => do
    let s ← get
    if s.altstack.length < 1 then throw .returnFalse
    else do
      pushstack (← altstacktop)
      popaltstack
  | .OP_2DROP => do
    needs 2
    popstack
    popstack
  | .OP_2DUP => do
    needs 2
    let vch1 ← stacktop 2
    let vch2 ← stacktop 1
    pushstack vch1
    pushstack vch2
  | .OP_3DUP => do
    needs 3
    let vch1 ← stacktop 3
    let vch2 ← stacktop 2
    let vch3 ← stacktop 1
    pushstack vch1
    pushstack vch2
    pushstack vch3
  | .OP_2OVER => do
    needs 4
    let vch1 ← stacktop 4
    let vch2 ← stacktop 3
    pushstack vch1
    pushstack vch2
  | .OP_2ROT => do
    needs 6
    let vch1 ← stacktop 6
    let vch2 ← stacktop 5
    eraseRange 6 4
    pushstack vch1
    pushstack vch2
  | .OP_2SWAP => do
    needs 4
    swapTop 4 2
    swapTop 3 1
  | .OP_IFDUP => do
    needs 1
    let vch ← stacktop 1
    if castToBool vch then pushstack vch else pure ()
  | .OP_DEPTH => do
    let s ← get
    pushstack (bnGetVch s.stack.length)
  | .OP_DROP => do
    needs 1
    popstack
  | .OP_DUP => do
    needs 1
    pushstack (← stacktop 1)
  | .OP_NIP => do
    needs 2
    eraseRange 2 1
  | .OP_OVER => do
    needs 2
    pushstack (← stacktop 2)
  | .OP_PICK => pickOrRoll false
  | .OP_ROLL => pickOrRoll true
  | .OP_ROT => do
    needs 3
    swapTop 3 2
    swapTop 2 1
  | .OP_SWAP => do
    needs 2
    swapTop 2 1
  | .OP_TUCK => do
    needs 2
    insertAt 2 (← stacktop 1)
  | .OP_SIZE => do
    needs 1
    let vch ← stacktop 1
    pushstack (bnGetVch vch.length)
  | .OP_EQUAL => equal false
  | .OP_EQUALVERIFY => equal true
  | op@.OP_1ADD | op@.OP_1SUB | op@.OP_NEGATE | op@.OP_ABS | op@.OP_NOT | op@.OP_0NOTEQUAL => do
    needs 1
    let bn ← castToBigNum (← stacktop 1)
    popstack
    pushstack (bnGetVch (unaryOp op bn))
  | op@.OP_ADD | op@.OP_SUB | op@.OP_BOOLAND | op@.OP_BOOLOR | op@.OP_NUMEQUAL
  | op@.OP_NUMEQUALVERIFY | op@.OP_NUMNOTEQUAL | op@.OP_LESSTHAN | op@.OP_GREATERTHAN
  | op@.OP_LESSTHANOREQUAL | op@.OP_GREATERTHANOREQUAL | op@.OP_MIN | op@.OP_MAX => do
    needs 2
    let bn1 ← castToBigNum (← stacktop 2)
    let bn2 ← castToBigNum (← stacktop 1)
    popstack
    popstack
    pushstack (bnGetVch (binaryOp op bn1 bn2))
    verifyTop (op = .OP_NUMEQUALVERIFY) (castToBool (← stacktop 1))
  | .OP_WITHIN => do
    needs 3
    let bn1 ← castToBigNum (← stacktop 3)
    let bn2 ← castToBigNum (← stacktop 2)
    let bn3 ← castToBigNum (← stacktop 1)
    popstack
    popstack
    popstack
    pushstack (vchOf (bn2 ≤ bn1 ∧ bn1 < bn3))
  | .OP_RIPEMD160 => hashTop env.ripemd160
  | .OP_SHA1 => hashTop env.sha1
  | .OP_SHA256 => hashTop env.sha256
  | .OP_HASH160 => hashTop env.hash160
  | .OP_HASH256 => hashTop env.hash256
  | _ => throw .returnFalse
where
  pickOrRoll (fRoll : Bool) : StackM Unit := do
    needs 2
    let n := bnGetInt (← castToBigNum (← stacktop 1))
    popstack
    let s ← get
    if n < 0 ∨ n ≥ s.stack.length then throw .returnFalse
    else do
      let vch ← stacktop (n.toNat + 1)
      if fRoll then eraseRange (n.toNat + 1) n.toNat else pure ()
      pushstack vch
  equal (fVerify : Bool) : StackM Unit := do
    needs 2
    let vch1 ← stacktop 2
    let vch2 ← stacktop 1
    let fEqual := decide (vch1 = vch2)
    popstack
    popstack
    pushstack (vchOf fEqual)
    verifyTop fVerify fEqual
  hashTop (hash : Valtype → Valtype) : StackM Unit := do
    needs 1
    let vch ← stacktop 1
    popstack
    pushstack (hash vch)

/-- The variables of `EvalScript`: the innermost branch of `vfExec` first, `pbegincodehash` as the
script from there on. -/
structure EvalState extends Stacks where
  vfExec : List Bool
  nOpCount : Nat
  pbegincodehash : CScript
  nSigChecks : Nat
deriving DecidableEq, Repr

abbrev EvalM := EStateM EvalStop EvalState

/-- A computation on the stacks. -/
def onStacks {α : Type} (m : StackM α) : EvalM α :=
  lift EvalState.toStacks (fun t s => { s with toStacks := t }) m

/-- `!count(vfExec.begin(), vfExec.end(), false)`. -/
def EvalState.fExec (s : EvalState) : Bool := s.vfExec.all id

/-- `nOpCount += n` and its limit. -/
def countOps (n : Nat) : EvalM Unit := do
  modify fun s => { s with nOpCount := s.nOpCount + n }
  let s ← get
  if s.nOpCount > 201 then throw .returnFalse else pure ()

/-! ### Signature checks -/

def checkSignature (env : ScriptEnv) (flags : ScriptFlags) (vchSig vchPubKey : Valtype)
    (scriptCode : CScript) : EvalM Bool := do
  modify fun s => { s with nSigChecks := s.nSigChecks + 1 }
  pure ((!flags.strictEnc || (isCanonicalSignature vchSig && isCanonicalPubKey vchPubKey)) &&
    env.checkSig vchSig vchPubKey scriptCode)

def popMany : Nat → StackM Unit
  | 0 => pure ()
  | i + 1 => do
    popstack
    popMany i

/-- The end of the opcodes that check signatures: what they used is popped. -/
def pushResult (nPopped : Nat) (fVerify fSuccess : Bool) : StackM Unit := do
  popMany nPopped
  pushstack (vchOf fSuccess)
  verifyTop fVerify fSuccess

/-- `OP_CHECKSIG`, `OP_CHECKSIGVERIFY`: (sig pubkey -- bool). -/
def evalCheckSig (env : ScriptEnv) (flags : ScriptFlags) (fVerify : Bool) : EvalM Unit := do
  onStacks (needs 2)
  let vchSig ← onStacks (stacktop 2)
  let vchPubKey ← onStacks (stacktop 1)
  let s ← get
  let scriptCode := findAndDelete (pushData vchSig) s.pbegincodehash
  let fSuccess ← checkSignature env flags vchSig vchPubKey scriptCode
  onStacks (pushResult 2 fVerify fSuccess)

/-- `CastToBigNum(stacktop(-i)).getint()`. -/
def readCount (i : Nat) : StackM Int := do
  let bn ← castToBigNum (← stacktop i)
  pure (bnGetInt bn)

/-- The two counts of a multisig: the keys, then the signatures below them. -/
def multiSigCounts : EvalM (Nat × Nat) := do
  onStacks (needs 1)
  let nKeysCount ← onStacks (readCount 1)
  if nKeysCount < 0 ∨ nKeysCount > 20 then throw .returnFalse
  else do
    countOps nKeysCount.toNat
    onStacks (needs (2 + nKeysCount.toNat))
    let nSigsCount ← onStacks (readCount (2 + nKeysCount.toNat))
    if nSigsCount < 0 ∨ nSigsCount > nKeysCount then throw .returnFalse
    else do
      onStacks (needs (3 + nKeysCount.toNat + nSigsCount.toNat))
      pure (nKeysCount.toNat, nSigsCount.toNat)

/-- The loop over the keys: the signature at `isig` is tried with the key at `ikey`, until no
signature is left or fewer keys than signatures ("too many signatures have failed"). -/
def multiSigLoop (env : ScriptEnv) (flags : ScriptFlags) (scriptCode : CScript) :
    Nat → Nat → Nat → Nat → EvalM Bool
  | _, 0, _, _ => pure true
  | 0, _ + 1, _, _ => pure false
  | nKeysCount + 1, nSigsCount + 1, isig, ikey => do
    let vchSig ← onStacks (stacktop isig)
    let vchPubKey ← onStacks (stacktop ikey)
    let fOk ← checkSignature env flags vchSig vchPubKey scriptCode
    let nSigsLeft := if fOk then nSigsCount else nSigsCount + 1
    if nSigsLeft > nKeysCount then pure false
    else
      multiSigLoop env flags scriptCode nKeysCount nSigsLeft (if fOk then isig + 1 else isig)
        (ikey + 1)

/-- "Drop the signatures, since there's no way for a signature to sign itself": those from `isig`
down. -/
def dropSignatures : Nat → Nat → CScript → StackM CScript
  | 0, _, scriptCode => pure scriptCode
  | nSigsCount + 1, isig, scriptCode => do
    let vchSig ← stacktop isig
    dropSignatures nSigsCount (isig + 1) (findAndDelete (pushData vchSig) scriptCode)

/-- `OP_CHECKMULTISIG`, `OP_CHECKMULTISIGVERIFY`:
([sig ...] num_of_signatures [pubkey ...] num_of_pubkeys -- bool). -/
def evalCheckMultiSig (env : ScriptEnv) (flags : ScriptFlags) (fVerify : Bool) : EvalM Unit := do
  let (nKeysCount, nSigsCount) ← multiSigCounts
  let isig := 3 + nKeysCount
  let s ← get
  let scriptCode ← onStacks (dropSignatures nSigsCount isig s.pbegincodehash)
  let fSuccess ← multiSigLoop env flags scriptCode nKeysCount nSigsCount isig 2
  onStacks (pushResult (isig + nSigsCount) fVerify fSuccess)

/-! ### EvalScript -/

/-- `if (stack.size() + altstack.size() > 1000) return false;`. -/
def checkSize : EvalM Unit := do
  let s ← get
  if s.stack.length + s.altstack.length > 1000 then throw .returnFalse else pure ()

/-- The value of a branch: it is taken when it is executed and the top of the stack says so. -/
def branchValue (fNot fExec : Bool) : StackM Bool :=
  if fExec then do
    needs 1
    let vch ← stacktop 1
    popstack
    pure (castToBool vch != fNot)
  else pure false

/-- `OP_IF`, `OP_NOTIF`. -/
def evalIf (fNot fExec : Bool) : EvalM Unit := do
  let fValue ← onStacks (branchValue fNot fExec)
  modify fun s => { s with vfExec := fValue :: s.vfExec }

def evalElse : EvalM Unit := do
  let s ← get
  match s.vfExec with
  | [] => throw .returnFalse
  | fValue :: vfExec => set { s with vfExec := (!fValue) :: vfExec }

/-- `OP_ENDIF`. -/
def evalEndIf : EvalM Unit := do
  let s ← get
  match s.vfExec with
  | [] => throw .returnFalse
  | _ :: vfExec => set { s with vfExec := vfExec }

/-- The switch over the opcodes from `OP_NOP` on; `pc` is the script after the opcode. -/
def evalOpcode (env : ScriptEnv) (flags : ScriptFlags) (fExec : Bool) (pc : CScript) :
    OpcodeType → EvalM Unit
  | .OP_IF => evalIf false fExec
  | .OP_NOTIF => evalIf true fExec
  | .OP_ELSE => evalElse
  | .OP_ENDIF => evalEndIf
  | .OP_CODESEPARATOR => modify fun s => { s with pbegincodehash := pc }
  | .OP_CHECKSIG => evalCheckSig env flags false
  | .OP_CHECKSIGVERIFY => evalCheckSig env flags true
  | .OP_CHECKMULTISIG => evalCheckMultiSig env flags false
  | .OP_CHECKMULTISIGVERIFY => evalCheckMultiSig env flags true
  | op => onStacks (evalStackOp env op)

/-- The execution of one instruction, in the order of the source: a push, a small number, another
opcode. -/
def execInstruction (env : ScriptEnv) (flags : ScriptFlags) (fExec : Bool) (opcode : Nat)
    (vchPushValue : Valtype) (pc : CScript) : EvalM Unit :=
  if fExec ∧ opcode ≤ OP_PUSHDATA4 then onStacks (pushstack vchPushValue)
  else if fExec ∨ (OP_IF ≤ opcode ∧ opcode ≤ OP_ENDIF) then
    if opcode = OP_1NEGATE ∨ (OP_1 ≤ opcode ∧ opcode ≤ OP_16) then
      onStacks (pushstack (bnGetVch ((opcode : Int) - (OP_1 - 1 : Nat))))
    else evalOpcode env flags fExec pc (.ofCode opcode)
  else pure ()

/-- `if (opcode > OP_16 && ++nOpCount > 201) return false;`. -/
def countOpcode (opcode : Nat) : EvalM Unit :=
  if opcode > OP_16 then countOps 1 else pure ()

/-- One round of the loop of `EvalScript`, for the instruction read. -/
def evalInstruction (env : ScriptEnv) (flags : ScriptFlags) (opcode : Nat) (vchPushValue : Valtype)
    (pc : CScript) : EvalM Unit := do
  let s ← get
  if vchPushValue.length > MAX_SCRIPT_ELEMENT_SIZE then throw .returnFalse
  else do
    countOpcode opcode
    if (OpcodeType.ofCode opcode).isDisabled then throw .returnFalse
    else do
      execInstruction env flags s.fExec opcode vchPushValue pc
      checkSize

/-- The loop of `EvalScript`. Every instruction takes a byte, so the length of the script bounds the
rounds. -/
def evalLoop (env : ScriptEnv) (flags : ScriptFlags) : Nat → CScript → EvalM Unit
  | 0, _ => pure ()
  | fuel + 1, pc =>
    if pc = [] then pure ()
    else
      match getOp pc with
      | none => throw .returnFalse
      | some (opcode, vchPushValue, pc) => do
        evalInstruction env flags opcode vchPushValue pc
        evalLoop env flags fuel pc

/-- What `EvalScript` returns, the stack it leaves and the signatures it examined. -/
structure EvalResult where
  ok : Bool
  stack : List Valtype
  nSigChecks : Nat
deriving DecidableEq, Repr

/-- `EvalScript`. -/
def evalScript (env : ScriptEnv) (flags : ScriptFlags) (script : CScript) (stack : List Valtype) :
    EvalResult :=
  if script.length > 10000 then ⟨false, stack, 0⟩
  else
    match evalLoop env flags script.length script ⟨⟨stack, []⟩, [], 0, script, 0⟩ with
    | .ok _ s => ⟨s.vfExec.isEmpty, s.stack, s.nSigChecks⟩
    | .error _ s => ⟨false, s.stack, s.nSigChecks⟩

/-! ### VerifyScript -/

/-- What `VerifyScript` returns, `none` where its assertion fails, and the signatures examined. -/
structure VerifyResult where
  result : Option Bool
  nSigChecks : Nat
deriving DecidableEq, Repr

/-- The last part of `VerifyScript`: the script whose hash is paid to runs on what is below it. -/
def verifyRedeemScript (env : ScriptEnv) (flags : ScriptFlags) (scriptSig : CScript)
    (stackCopy : List Valtype) (nSigChecks : Nat) : VerifyResult :=
  if !isPushOnly scriptSig then ⟨some false, nSigChecks⟩
  else
    match stackCopy with
    | [] => ⟨none, nSigChecks⟩
    | pubKeySerialized :: stackCopy =>
      let redeem := evalScript env flags pubKeySerialized stackCopy
      ⟨some (redeem.ok && (redeem.stack.head?.map castToBool).getD false),
        nSigChecks + redeem.nSigChecks⟩

def verifyScript (env : ScriptEnv) (flags : ScriptFlags) (scriptSig scriptPubKey : CScript) :
    VerifyResult :=
  let sig := evalScript env flags scriptSig []
  if !sig.ok then ⟨some false, sig.nSigChecks⟩
  else
    let pubKey := evalScript env flags scriptPubKey sig.stack
    let nSigChecks := sig.nSigChecks + pubKey.nSigChecks
    if !pubKey.ok then ⟨some false, nSigChecks⟩
    else if !(pubKey.stack.head?.map castToBool).getD false then ⟨some false, nSigChecks⟩
    else if flags.p2sh ∧ isPayToScriptHash scriptPubKey then
      verifyRedeemScript env flags scriptSig (if flags.p2sh then sig.stack else []) nSigChecks
    else ⟨some true, nSigChecks⟩

end Manna
