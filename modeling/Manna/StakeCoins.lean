import Manna.Coins

/-!
Coin records of the proof-of-stake build (`main.h`: `CCoins` with `PPCOINSTAKE`; `undo.h`:
`TxInUndoStake`).

A record has two fields more there: whether its transaction is a coinstake, and the time of its
transaction. An undo record keeps both when the output spent was the last one.

* `CCoinsStake.spend_eq_some`: what an undo record keeps.
-/

namespace Manna

/-- `CCoins` with `PPCOINSTAKE`. -/
structure CCoinsStake extends CCoins where
  fCoinStake : Bool
  nTime : Nat
deriving DecidableEq, Repr

/-- `TxInUndoStake`. -/
structure TxInUndoStake extends CTxInUndo where
  fCoinStake : Bool
  nTime : Nat
deriving DecidableEq, Repr

/-- `CTransaction::IsCoinStake` with `PPCOINSTAKE`: a coinstake is marked with an empty first
output. -/
def CTransaction.isCoinStakePPC (tx : CTransaction) : Bool :=
  match tx.vin, tx.vout with
  | txin :: _, txout :: _ :: _ => !txin.prevout.isNull && txout.isEmpty
  | _, _ => false

namespace CCoinsStake

def empty : CCoinsStake := ⟨.empty, false, 0⟩

def ofTx (tx : CTransaction) (nHeight : Int) : CCoinsStake :=
  ⟨.ofTx tx nHeight, tx.isCoinStakePPC, tx.nTime⟩

/-- `Spend(out, undo)`; `none` where the source returns false. -/
def spend (coins : CCoinsStake) (out : COutPoint) : Option (CCoinsStake × TxInUndoStake) :=
  match coins.toCCoins.spend out with
  | none => none
  | some (coins', undo) =>
    some (⟨coins', coins.fCoinStake, coins.nTime⟩,
      if coins'.vout.length = 0 then ⟨undo, coins.fCoinStake, coins.nTime⟩ else ⟨undo, false, 0⟩)

/-- What `Spend` does to the fields of this build. -/
theorem spend_eq_some {coins coins' : CCoinsStake} {out : COutPoint} {undo : TxInUndoStake}
    (h : coins.spend out = some (coins', undo)) :
    coins.toCCoins.spend out = some (coins'.toCCoins, undo.toCTxInUndo) ∧
      (coins'.fCoinStake = coins.fCoinStake ∧ coins'.nTime = coins.nTime) ∧
      (undo.fCoinStake = if coins'.vout = [] then coins.fCoinStake else false) ∧
      undo.nTime = if coins'.vout = [] then coins.nTime else 0 := by
  rw [spend] at h
  split at h
  · cases h
  · rename_i base record hbase
    simp only [Option.some.injEq, Prod.mk.injEq] at h
    obtain ⟨rfl, rfl⟩ := h
    by_cases hlast : base.vout = []
    · rw [if_pos (List.length_eq_zero_iff.mpr hlast), if_pos hlast, if_pos hlast]
      exact ⟨hbase, ⟨rfl, rfl⟩, rfl, rfl⟩
    · rw [if_neg (fun hzero => hlast (List.length_eq_zero_iff.mp hzero)), if_neg hlast, if_neg hlast]
      exact ⟨hbase, ⟨rfl, rfl⟩, rfl, rfl⟩

end CCoinsStake

end Manna
