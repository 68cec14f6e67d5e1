import Manna.Script
import Mathlib.Algebra.Order.Ring.Int

/-!
Transactions of the manna build (`main.h`): outpoints, inputs, outputs and the
predicates and sizes the checks read. Amounts are `Int`, other machine integers
`Nat`; sums of amounts go through `addInt64` of `Manna.Validation`, which says
when the C++ sum would overflow.
-/

namespace Manna

/-- 256-bit values: hashes, and the trust sums of the block index. -/
abbrev Uint256 := Nat

/-! ### Constants (`manna.h`, `main.h`) -/

def COIN : Int := 1000000
def CENT : Int := 10000
def MAX_MONEY : Int := 50000000000 * COIN
def COINBASE_MATURITY : Int := 500
def DUST_SOFT_LIMIT : Int := CENT
def MINIMUM_BLOCK_SPACING : Int := 60
def nMaxClockDrift : Int := 2 * 60 * 60
def MAX_BLOCK_SIZE : Nat := 1000000
def MAX_BLOCK_SIZE_GEN : Nat := MAX_BLOCK_SIZE / 4
def DEFAULT_BLOCK_PRIORITY_SIZE : Nat := 17000
def MAX_STANDARD_TX_SIZE : Nat := 100000
def MAX_BLOCK_SIGOPS : Nat := MAX_BLOCK_SIZE / 50
def MEMPOOL_HEIGHT : Int := 0x7FFFFFFF
def LOCKTIME_THRESHOLD : Int := 500000000
/-- The largest `unsigned int`: the index of a null outpoint, the final sequence. -/
def UINT_MAX : Nat := 0xffffffff
def INT_MAX : Int := 2147483647

def moneyRange (nValue : Int) : Bool := decide (0 ≤ nValue ∧ nValue ≤ MAX_MONEY)

theorem moneyRange_iff {nValue : Int} : moneyRange nValue = true ↔ 0 ≤ nValue ∧ nValue ≤ MAX_MONEY := by
  simp [moneyRange]

/-! ### Outpoints, inputs, outputs -/

/-- `COutPoint`: a transaction hash and an index into its outputs. -/
structure COutPoint where
  hash : Uint256
  n : Nat
deriving DecidableEq, Repr

def COutPoint.null : COutPoint := ⟨0, UINT_MAX⟩

def COutPoint.isNull (o : COutPoint) : Bool := o == COutPoint.null

/-- `CTxIn`. -/
structure CTxIn where
  prevout : COutPoint
  scriptSig : CScript
  nSequence : Nat
deriving DecidableEq, Repr

def CTxIn.isFinal (txin : CTxIn) : Bool := txin.nSequence == UINT_MAX

/-- `CTxOut`. -/
structure CTxOut where
  nValue : Int
  scriptPubKey : CScript
deriving DecidableEq, Repr

/-- The output `SetNull` leaves: how a spent output is marked. -/
def CTxOut.null : CTxOut := ⟨-1, []⟩

def CTxOut.isNull (txout : CTxOut) : Bool := txout.nValue == -1

def CTxOut.isEmpty (txout : CTxOut) : Bool := txout.nValue == 0 && txout.scriptPubKey.isEmpty

@[simp] theorem CTxOut.null_isNull : CTxOut.null.isNull = true := rfl

/-- `CTransaction` of the manna build, which carries a timestamp. -/
structure CTransaction where
  nVersion : Int
  nTime : Nat
  vin : List CTxIn
  vout : List CTxOut
  nLockTime : Nat
deriving DecidableEq, Repr

namespace CTransaction

/-- `CTransaction::IsCoinBase` (manna build). -/
def isCoinBase (tx : CTransaction) : Bool :=
  match tx.vin with
  | [txin] => txin.prevout.isNull && decide (tx.vout.length ≥ 1)
  | _ => false

/-- `CTransaction::IsCoinStake` without `PPCOINSTAKE`. -/
def isCoinStake (_ : CTransaction) : Bool := false

def isGenerated (tx : CTransaction) : Bool := tx.isCoinBase || tx.isCoinStake

/-- `CTransaction::IsFinal` at an explicit height and time (the defaults of the
source are filled in by its callers). -/
def isFinal (tx : CTransaction) (nBlockHeight nBlockTime : Int) : Bool :=
  if tx.nLockTime = 0 then true
  else if (tx.nLockTime : Int) <
      (if (tx.nLockTime : Int) < LOCKTIME_THRESHOLD then nBlockHeight else nBlockTime) then true
  else tx.vin.all CTxIn.isFinal

def getLegacySigOpCount (tx : CTransaction) : Nat :=
  (tx.vin.map fun txin => getSigOpCount txin.scriptSig false).sum +
    (tx.vout.map fun txout => getSigOpCount txout.scriptPubKey false).sum

end CTransaction

/-! ### Serialized sizes (`serialize.h`) -/

def getSizeOfCompactSize (nSize : Nat) : Nat :=
  if nSize < 253 then 1
  else if nSize ≤ 0xffff then 3
  else if nSize ≤ 0xffffffff then 5
  else 9

theorem getSizeOfCompactSize_pos (nSize : Nat) : 0 < getSizeOfCompactSize nSize := by
  unfold getSizeOfCompactSize
  repeat' split
  all_goals decide

def CScript.serializeSize (script : CScript) : Nat :=
  getSizeOfCompactSize script.length + script.length

def CTxIn.serializeSize (txin : CTxIn) : Nat := 36 + CScript.serializeSize txin.scriptSig + 4

def CTxOut.serializeSize (txout : CTxOut) : Nat := 8 + CScript.serializeSize txout.scriptPubKey

/-- `GetSerializeSize` of a transaction: version, timestamp, inputs, outputs, lock
time. The same for `SER_NETWORK` and `SER_DISK`. -/
def CTransaction.serializeSize (tx : CTransaction) : Nat :=
  4 + 4 + (getSizeOfCompactSize tx.vin.length + (tx.vin.map CTxIn.serializeSize).sum) +
    (getSizeOfCompactSize tx.vout.length + (tx.vout.map CTxOut.serializeSize).sum) + 4

end Manna
