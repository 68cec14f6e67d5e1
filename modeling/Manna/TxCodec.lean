import Manna.CompactSize
import Manna.Lib.PrefixCode

/-!
Transactions on the wire (`main.h`: `IMPLEMENT_SERIALIZE` of `COutPoint`, `CTxIn`, `CTxOut` and
`CTransaction`).

`Representable` says that the fields are values of their types in the source. The bytes of a
transaction of this kind determine it.

* `separates_writeVector`: vectors of members whose codes separate;
* `separates_transaction`: transactions.
-/

namespace Manna

open Codec

def COutPoint.serialize (o : COutPoint) : List UInt8 := littleEndian 32 o.hash ++ littleEndian 4 o.n

def CScript.serialize (script : CScript) : List UInt8 := writeVector (fun b => [b]) script

def CTxIn.serialize (txin : CTxIn) : List UInt8 :=
  txin.prevout.serialize ++ (CScript.serialize txin.scriptSig ++ littleEndian 4 txin.nSequence)

def CTxOut.serialize (txout : CTxOut) : List UInt8 :=
  littleEndianSigned 8 txout.nValue ++ CScript.serialize txout.scriptPubKey

def CTransaction.serialize (tx : CTransaction) : List UInt8 :=
  littleEndianSigned 4 tx.nVersion ++ (littleEndian 4 tx.nTime ++
    (writeVector CTxIn.serialize tx.vin ++ (writeVector CTxOut.serialize tx.vout ++
      littleEndian 4 tx.nLockTime)))

/-- The values of a signed type of so many bytes. -/
def Signed (k : Nat) (n : Int) : Prop := -(256 ^ k : Nat) ≤ 2 * n ∧ 2 * n < (256 ^ k : Nat)

/-- A vector that memory can hold, of members of this kind. -/
def VectorOf {α : Type} (D : α → Prop) (v : List α) : Prop := v.length < 2 ^ 64 ∧ ∀ a ∈ v, D a

def COutPoint.Representable (o : COutPoint) : Prop := o.hash < 256 ^ 32 ∧ o.n < 256 ^ 4

def CTxIn.Representable (txin : CTxIn) : Prop :=
  txin.prevout.Representable ∧ txin.scriptSig.length < 2 ^ 64 ∧ txin.nSequence < 256 ^ 4

def CTxOut.Representable (txout : CTxOut) : Prop :=
  Signed 8 txout.nValue ∧ txout.scriptPubKey.length < 2 ^ 64

/-- **The fields are values of their types.** -/
structure CTransaction.Representable (tx : CTransaction) : Prop where
  nVersion : Signed 4 tx.nVersion
  nTime : tx.nTime < 256 ^ 4
  vin : VectorOf CTxIn.Representable tx.vin
  vout : VectorOf CTxOut.Representable tx.vout
  nLockTime : tx.nLockTime < 256 ^ 4

theorem separates_littleEndian (k : Nat) : Separates (fun n => n < 256 ^ k) (littleEndian k) :=
  .of_reads fun _ h => reads_littleEndian h

theorem separates_littleEndianSigned (k : Nat) : Separates (Signed k) (littleEndianSigned k) :=
  .of_reads fun _ h => reads_littleEndianSigned h.1 h.2

theorem separates_writeCompactSize : Separates (fun n => n < 2 ^ 64) writeCompactSize := by
  apply Separates.of_reads (p := byte >>= readCompactSizeTail)
  intro nSize h
  obtain ⟨chSize, rest, hbytes, htail⟩ := reads_readCompactSizeTail h
  rw [hbytes]
  exact (reads_byte chSize).bind htail

/-- **Vectors.** The length comes first, so the members are as many in both. -/
theorem separates_writeVector {α : Type} {D : α → Prop} {write : α → List UInt8}
    (h : Separates D write) : Separates (VectorOf D) (writeVector write) := by
  intro v v' hv hv' s t heq
  rw [writeVector, writeVector, List.append_assoc, List.append_assoc] at heq
  obtain ⟨hlen, hmembers⟩ := separates_writeCompactSize hv.1 hv'.1 heq
  exact h.flatMap hv.2 hv'.2 hlen hmembers

theorem separates_script : Separates (fun script => script.length < 2 ^ 64) CScript.serialize := by
  have hbyte : Separates (fun _ => True) fun b : UInt8 => [b] := .of_reads fun b _ => reads_byte b
  exact (separates_writeVector hbyte).mono fun script h => ⟨h, fun _ _ => trivial⟩

theorem separates_outPoint : Separates COutPoint.Representable COutPoint.serialize := by
  apply ((separates_littleEndian 32).append (separates_littleEndian 4)).comap
    (f := fun o : COutPoint => (o.hash, o.n))
  rintro ⟨hash, n⟩ ⟨hash', n'⟩ heq
  cases heq
  rfl

theorem separates_txIn : Separates CTxIn.Representable CTxIn.serialize := by
  apply (separates_outPoint.append (separates_script.append (separates_littleEndian 4))).comap
    (f := fun txin : CTxIn => (txin.prevout, txin.scriptSig, txin.nSequence))
  rintro ⟨prevout, scriptSig, nSequence⟩ ⟨prevout', scriptSig', nSequence'⟩ heq
  cases heq
  rfl

theorem separates_txOut : Separates CTxOut.Representable CTxOut.serialize := by
  apply ((separates_littleEndianSigned 8).append separates_script).comap
    (f := fun txout : CTxOut => (txout.nValue, txout.scriptPubKey))
  rintro ⟨nValue, scriptPubKey⟩ ⟨nValue', scriptPubKey'⟩ heq
  cases heq
  rfl

/-- **The bytes of a transaction determine it.** -/
theorem separates_transaction : Separates CTransaction.Representable CTransaction.serialize := by
  have hparts := ((separates_littleEndianSigned 4).append ((separates_littleEndian 4).append
    ((separates_writeVector separates_txIn).append ((separates_writeVector separates_txOut).append
      (separates_littleEndian 4))))).comap
        (f := fun tx : CTransaction => (tx.nVersion, tx.nTime, tx.vin, tx.vout, tx.nLockTime)) (by
    rintro ⟨nVersion, nTime, vin, vout, nLockTime⟩ ⟨nVersion', nTime', vin', vout', nLockTime'⟩ heq
    cases heq
    rfl)
  exact hparts.mono fun tx h => ⟨h.nVersion, h.nTime, h.vin, h.vout, h.nLockTime⟩

end Manna
