import Manna.Validation
import Mathlib.Data.List.DropRight

/-!
Coin records (`main.h`: `CCoins`; `undo.h`: `CTxInUndo`).

A `CCoins` keeps the outputs of one transaction, spent ones overwritten by the null
output. What the rest of the program may observe is smaller: the unspent outputs with
the record's height, version and coinbase flag. `CCoins.coinAt` is that observation;
`Spend` and the restoring step of `DisconnectBlock` are characterized by it.
-/

namespace Manna

/-- `CCoins` of the manna build. -/
structure CCoins where
  fCoinBase : Bool
  vout : List CTxOut
  nHeight : Int
  nVersion : Int
deriving DecidableEq, Repr

/-- `CTxInUndo` (`TxInUndo`): the output spent and, when it was the last one of its
record, the record's metadata. -/
structure CTxInUndo where
  txout : CTxOut
  fCoinBase : Bool
  nHeight : Int
  nVersion : Int
deriving DecidableEq, Repr

/-- `CTxUndo`. -/
structure CTxUndo where
  vprevout : List CTxInUndo
deriving DecidableEq, Repr

/-- `CBlockUndo`: for all but the coinbase. -/
structure CBlockUndo where
  vtxundo : List CTxUndo
deriving DecidableEq, Repr

/-- `CTxInUndo(txout)` with the default metadata. -/
def CTxInUndo.ofTxOut (txout : CTxOut) : CTxInUndo := ⟨txout, false, 0, 0⟩

namespace CCoins

def empty : CCoins := ⟨false, [], 0, 0⟩

def ofTx (tx : CTransaction) (nHeight : Int) : CCoins :=
  ⟨tx.isCoinBase, tx.vout, nHeight, tx.nVersion⟩

/-- `Cleanup`: remove spent outputs at the end of `vout`. -/
def cleanup (coins : CCoins) : CCoins := { coins with vout := coins.vout.rdropWhile CTxOut.isNull }

/-- `Spend(out, undo)`; `none` where the source returns false. -/
def spend (coins : CCoins) (out : COutPoint) : Option (CCoins × CTxInUndo) :=
  match coins.vout[out.n]? with
  | none => none
  | some txout =>
    if txout.isNull then none
    else
      let coins' := cleanup { coins with vout := coins.vout.set out.n CTxOut.null }
      if coins'.vout.length = 0 then
        some (coins', ⟨txout, coins.fCoinBase, coins.nHeight, coins.nVersion⟩)
      else some (coins', CTxInUndo.ofTxOut txout)

def isAvailable (coins : CCoins) (nPos : Nat) : Bool :=
  match coins.vout[nPos]? with
  | none => false
  | some txout => !txout.isNull

def isPruned (coins : CCoins) : Bool := coins.vout.all CTxOut.isNull

/-- `vout.resize(nSize)` when `vout` is shorter. -/
def extend (vout : List CTxOut) (nSize : Nat) : List CTxOut :=
  if vout.length < nSize then vout ++ List.replicate (nSize - vout.length) CTxOut.null else vout

/-- Put an output at a position, extending `vout` as needed: how `DisconnectBlock`
restores a spent output. -/
def putOutput (coins : CCoins) (n : Nat) (txout : CTxOut) : CCoins :=
  { coins with vout := (extend coins.vout (n + 1)).set n txout }

end CCoins

/-! ### What can be observed of a record -/

/-- One unspent output with the metadata of its record. -/
structure Coin where
  txout : CTxOut
  fCoinBase : Bool
  nHeight : Int
  nVersion : Int
deriving DecidableEq, Repr

namespace CCoins

/-- The unspent output at a position. -/
def output (coins : CCoins) (n : Nat) : Option CTxOut :=
  coins.vout[n]?.filter fun txout => !txout.isNull

def coinAt (coins : CCoins) (n : Nat) : Option Coin :=
  (coins.output n).map fun txout => ⟨txout, coins.fCoinBase, coins.nHeight, coins.nVersion⟩

variable {coins : CCoins}

theorem output_eq_some {n : Nat} {txout : CTxOut} :
    coins.output n = some txout ↔ coins.vout[n]? = some txout ∧ txout.isNull = false := by
  simp [output, Option.filter_eq_some_iff]

theorem isAvailable_iff {n : Nat} : coins.isAvailable n = true ↔ (coins.coinAt n).isSome = true := by
  unfold isAvailable coinAt output
  cases coins.vout[n]? with
  | none => simp
  | some txout => cases h : txout.isNull <;> simp [h, Option.filter]

theorem isPruned_iff : coins.isPruned = true ↔ ∀ n, coins.coinAt n = none := by
  simp only [isPruned, List.all_eq_true, coinAt, Option.map_eq_none_iff]
  constructor
  · intro hall n
    cases hout : coins.output n with
    | none => rfl
    | some txout =>
      obtain ⟨hget, hnull⟩ := output_eq_some.mp hout
      rw [hall txout (List.mem_of_getElem? hget)] at hnull
      cases hnull
  · intro hnone txout hmem
    obtain ⟨n, hget⟩ := List.getElem?_of_mem hmem
    by_contra hnull
    have := output_eq_some.mpr ⟨hget, by simpa using hnull⟩
    rw [hnone n] at this
    cases this

theorem coinAt_eq_some {n : Nat} {coin : Coin} : coins.coinAt n = some coin ↔
      coins.output n = some coin.txout ∧ coin.fCoinBase = coins.fCoinBase ∧
        coin.nHeight = coins.nHeight ∧ coin.nVersion = coins.nVersion := by
  unfold coinAt
  rw [Option.map_eq_some_iff]
  constructor
  · rintro ⟨txout, hout, rfl⟩
    exact ⟨hout, rfl, rfl, rfl⟩
  · rintro ⟨hout, hcb, hheight, hversion⟩
    exact ⟨coin.txout, hout, by cases coin; simp_all⟩

@[simp] theorem coinAt_empty (n : Nat) : CCoins.empty.coinAt n = none := rfl

/-- No spent output at the end of `vout`: what `Cleanup` establishes. -/
def Clean (coins : CCoins) : Prop :=
  ∀ hne : coins.vout ≠ [], (coins.vout.getLast hne).isNull = false

theorem clean_empty : Clean CCoins.empty := fun hne => absurd rfl hne

theorem clean_cleanup (coins : CCoins) : Clean coins.cleanup := fun hne =>
  Bool.eq_false_iff.mpr (List.rdropWhile_last_not CTxOut.isNull coins.vout hne)

/-- `Cleanup` changes no observation. -/
theorem output_cleanup (coins : CCoins) (n : Nat) : coins.cleanup.output n = coins.output n := by
  obtain ⟨dropped, happend⟩ := List.rdropWhile_prefix CTxOut.isNull (l := coins.vout)
  have hnull : ∀ txout ∈ dropped, txout.isNull = true := by
    intro txout hmem
    have hsplit := List.rdropWhile_append_rtakeWhile (l := coins.vout) (p := CTxOut.isNull)
    rw [← hsplit] at happend
    have hdropped : dropped = coins.vout.rtakeWhile CTxOut.isNull := by
      rw [hsplit] at happend
      exact List.append_cancel_left (happend.trans hsplit.symm)
    exact List.mem_rtakeWhile_imp (hdropped ▸ hmem)
  show (cleanup coins).vout[n]?.filter _ = coins.vout[n]?.filter _
  rw [← happend]
  by_cases hlt : n < (coins.vout.rdropWhile CTxOut.isNull).length
  · rw [List.getElem?_append_left hlt]
    rfl
  · rw [List.getElem?_append_right (by omega), cleanup,
      List.getElem?_eq_none (Nat.le_of_not_lt hlt)]
    cases hget : dropped[n - (coins.vout.rdropWhile CTxOut.isNull).length]? with
    | none => rfl
    | some txout => simp [Option.filter, hnull txout (List.mem_of_getElem? hget)]

theorem Clean.vout_eq_nil (h : coins.Clean) (hpruned : coins.isPruned = true) : coins.vout = [] := by
  by_contra hne
  have hnull := List.all_eq_true.mp hpruned _ (List.getLast_mem hne)
  rw [h hne] at hnull
  cases hnull

/-! ### Spending and restoring -/

theorem output_set (coins : CCoins) (n m : Nat) (txout : CTxOut) :
    output { coins with vout := coins.vout.set n txout } m =
      if n = m then coins.vout[n]?.bind fun _ => if txout.isNull then none else some txout
      else coins.output m := by
  unfold output
  by_cases hnm : n = m
  · subst hnm
    rw [if_pos rfl, List.getElem?_set_self']
    cases coins.vout[n]? with
    | none => rfl
    | some old => cases h : txout.isNull <;> simp [Option.filter, h]
  · rw [if_neg hnm, List.getElem?_set_ne hnm]

/-- What `Spend` does: the output was unspent, the record loses just that output and
the undo entry keeps the metadata when no output is left. -/
theorem spend_eq_some {coins' : CCoins} {out : COutPoint} {undo : CTxInUndo}
    (h : coins.spend out = some (coins', undo)) : coins.output out.n = some undo.txout ∧ coins'.Clean ∧
      (coins'.fCoinBase = coins.fCoinBase ∧ coins'.nHeight = coins.nHeight ∧
        coins'.nVersion = coins.nVersion) ∧
      (∀ n, coins'.output n = if out.n = n then none else coins.output n) ∧
      undo = if coins'.vout = [] then ⟨undo.txout, coins.fCoinBase, coins.nHeight, coins.nVersion⟩
        else CTxInUndo.ofTxOut undo.txout := by
  unfold spend at h
  split at h
  · cases h
  · next txout hget =>
    split at h
    · cases h
    · next hnull =>
      have hout : coins.output out.n = some txout := output_eq_some.mpr ⟨hget, by simpa using hnull⟩
      have hrest : ∀ n, (cleanup { coins with
          vout := coins.vout.set out.n CTxOut.null }).output n =
            if out.n = n then none else coins.output n := by
        intro n
        rw [output_cleanup, output_set]
        split
        · simp [hget]
        · rfl
      simp only [List.length_eq_zero_iff] at h
      split at h
      · next hempty =>
        simp only [Option.some.injEq, Prod.mk.injEq] at h
        obtain ⟨rfl, rfl⟩ := h
        exact ⟨hout, clean_cleanup _, ⟨rfl, rfl, rfl⟩, hrest, by rw [if_pos hempty]⟩
      · next hempty =>
        simp only [Option.some.injEq, Prod.mk.injEq] at h
        obtain ⟨rfl, rfl⟩ := h
        exact ⟨hout, clean_cleanup _, ⟨rfl, rfl, rfl⟩, hrest, by rw [if_neg hempty]; rfl⟩

theorem spend_isSome {out : COutPoint} (h : coins.isAvailable out.n = true) :
    ∃ coins' undo, coins.spend out = some (coins', undo) := by
  unfold isAvailable at h
  unfold spend
  split at h
  · cases h
  · next txout hget =>
    simp only [Bool.not_eq_true'] at h
    simp only [h, Bool.false_eq_true, if_false]
    split
    · exact ⟨_, _, rfl⟩
    · exact ⟨_, _, rfl⟩

theorem lt_length_extend (vout : List CTxOut) (n : Nat) : n < (extend vout (n + 1)).length := by
  unfold extend
  split
  · simp only [List.length_append, List.length_replicate]
    omega
  · omega

theorem getElem?_extend (vout : List CTxOut) (nSize m : Nat) :
    (extend vout nSize)[m]?.filter (fun txout => !txout.isNull) =
      vout[m]?.filter fun txout => !txout.isNull := by
  unfold extend
  split
  · by_cases hm : m < vout.length
    · rw [List.getElem?_append_left hm]
    · rw [List.getElem?_append_right (by omega), @List.getElem?_eq_none _ vout m (by omega),
        List.getElem?_replicate]
      split <;> simp [Option.filter]
  · rfl

theorem output_putOutput (coins : CCoins) (n m : Nat) {txout : CTxOut} (hnull : txout.isNull = false) :
    (coins.putOutput n txout).output m = if n = m then some txout else coins.output m := by
  show ((extend coins.vout (n + 1)).set n txout)[m]?.filter _ = _
  by_cases hnm : n = m
  · subst hnm
    rw [if_pos rfl, List.getElem?_set_self (lt_length_extend _ _)]
    simp [Option.filter, hnull]
  · rw [if_neg hnm, List.getElem?_set_ne hnm]
    exact getElem?_extend _ _ _

theorem Clean.putOutput (h : coins.Clean) (n : Nat) {txout : CTxOut}
    (hnull : txout.isNull = false) : (coins.putOutput n txout).Clean := by
  intro hne
  have hne' : (extend coins.vout (n + 1)).set n txout ≠ [] := hne
  show (List.getLast _ hne').isNull = false
  rw [List.getLast_eq_getElem, List.getElem_set]
  split
  · exact hnull
  · next hlast =>
    -- The written position is not the last one, so nothing was appended.
    have hkept : extend coins.vout (n + 1) = coins.vout := by
      unfold extend at hlast ⊢
      split_ifs at hlast ⊢ with hlt
      · simp only [List.length_set, List.length_append, List.length_replicate] at hlast
        omega
      · rfl
    have hvout : coins.vout ≠ [] := by
      rw [← hkept]
      exact List.ne_nil_of_length_pos (Nat.zero_lt_of_lt (lt_length_extend coins.vout n))
    have := h hvout
    rw [List.getLast_eq_getElem] at this
    simpa [hkept] using this

/-! ### Observations of whole records -/

theorem coinAt_congr {c d : CCoins} (hout : ∀ n, c.output n = d.output n)
    (hmeta : c.fCoinBase = d.fCoinBase ∧ c.nHeight = d.nHeight ∧ c.nVersion = d.nVersion) (n : Nat) :
    c.coinAt n = d.coinAt n := by
  simp only [coinAt, hout, hmeta]

theorem isPruned_congr {c d : CCoins} (h : ∀ n, c.coinAt n = d.coinAt n) : c.isPruned = d.isPruned := by
  rw [Bool.eq_iff_iff, isPruned_iff, isPruned_iff]
  simp [h]

/-- Records with an unspent output and the same observations have the same metadata. -/
theorem meta_eq {c d : CCoins} (h : ∀ n, c.coinAt n = d.coinAt n) (hc : c.isPruned = false) :
    c.fCoinBase = d.fCoinBase ∧ c.nHeight = d.nHeight ∧ c.nVersion = d.nVersion := by
  have hsome : ∃ n, c.coinAt n ≠ none := by
    by_contra hnone
    push Not at hnone
    rw [isPruned_iff.mpr hnone] at hc
    cases hc
  obtain ⟨n, hn⟩ := hsome
  obtain ⟨coin, hcoin⟩ := Option.ne_none_iff_exists'.mp hn
  obtain ⟨-, hcb, hheight, hversion⟩ := coinAt_eq_some.mp hcoin
  obtain ⟨-, hcb', hheight', hversion'⟩ := coinAt_eq_some.mp (h n ▸ hcoin)
  exact ⟨hcb ▸ hcb', hheight ▸ hheight', hversion ▸ hversion'⟩

theorem output_eq_of_coinAt {c d : CCoins} (h : ∀ n, c.coinAt n = d.coinAt n) (n : Nat) :
    c.output n = d.output n := by
  have := congrArg (Option.map Coin.txout) (h n)
  simpa [coinAt, Function.comp_def] using this

/-- A clean record is determined by what can be observed of it, against a record
without spent outputs: the strict comparison `DisconnectBlock` makes. -/
theorem Clean.eq_of_coinAt {c d : CCoins} (hclean : c.Clean) (hd : d.vout ≠ [])
    (hfull : ∀ txout ∈ d.vout, txout.isNull = false) (h : ∀ n, c.coinAt n = d.coinAt n) : c = d := by
  have hout := output_eq_of_coinAt h
  have hget : ∀ n, d.vout[n]? = d.output n := by
    intro n
    unfold output
    cases hn : d.vout[n]? with
    | none => rfl
    | some txout => simp [Option.filter, hfull txout (List.mem_of_getElem? hn)]
  have hprunedd : d.isPruned = false := by
    obtain ⟨txout, hmem⟩ := List.exists_mem_of_ne_nil _ hd
    by_contra hp
    have := List.all_eq_true.mp (Bool.not_eq_false _ ▸ hp) txout hmem
    rw [hfull txout hmem] at this
    cases this
  obtain ⟨hcb, hheight, hversion⟩ := meta_eq h (isPruned_congr h ▸ hprunedd)
  have hlen : c.vout.length ≤ d.vout.length := by
    by_contra hlt
    have hne : c.vout ≠ [] := by
      intro hnil
      simp [hnil] at hlt
    have hlast := hclean hne
    rw [List.getLast_eq_getElem] at hlast
    have := output_eq_some.mpr ⟨List.getElem?_eq_getElem (by omega), hlast⟩
    rw [hout, ← hget, List.getElem?_eq_none (by omega)] at this
    cases this
  have hvout : c.vout = d.vout := by
    apply List.ext_getElem?
    intro n
    by_cases hlt : n < d.vout.length
    · have hsome := hget n
      rw [List.getElem?_eq_getElem hlt, ← hout] at hsome
      rw [(output_eq_some.mp hsome.symm).1, List.getElem?_eq_getElem hlt]
    · rw [List.getElem?_eq_none (by omega), List.getElem?_eq_none (by omega)]
  cases c
  cases d
  simp_all

end CCoins

end Manna
