import Manna.Transaction
import Mathlib.Algebra.Order.Ring.Int
import Mathlib.Tactic.Linarith

/-!
How a check ends without success, and the context-free transaction checks
(`main.cpp`: `CheckTransaction`, `GetValueOut`, `GetMinFee`).

A check that returns false leaves through one of the constructors of `Halt`. The
reject constructors carry what `CValidationState` records; the others are ends the
C++ program has besides returning: a thrown `runtime_error`, a failed assertion,
and a signed sum outside `int64_t`.
-/

namespace Manna

/-- How a validation routine stops without returning true. -/
inductive Halt where
  /-- `state.DoS(level, error(reason), corruption)`; `state.Invalid` is level 0. -/
  | dos (nDoS : Nat) (reason : String) (corruptionPossible : Bool)
  /-- `return error(reason)`, with the validation state as it was. -/
  | error (reason : String)
  /-- `state.Abort` or `state.Error`: a run-time error of the node. -/
  | abort (reason : String)
  /-- A `std::runtime_error` that the routine does not catch. -/
  | runtimeError (what : String)
  /-- A failed `assert`. -/
  | assertion
  /-- An access the language leaves undefined: a null pointer or a bad index. -/
  | undefined
  /-- A sum of amounts outside the range of `int64_t`. -/
  | overflow
deriving DecidableEq, Repr

namespace Halt

/-- `state.Invalid(error(reason))`. -/
def invalid (reason : String) : Halt := .dos 0 reason false

/-- `state.IsInvalid()` after the routine returned false on a fresh state. -/
def isInvalid : Halt → Bool
  | .dos _ _ _ => true
  | _ => false

@[simp] theorem isInvalid_dos (nDoS : Nat) (reason : String) (corruptionPossible : Bool) :
    (Halt.dos nDoS reason corruptionPossible).isInvalid = true := rfl

@[simp] theorem isInvalid_invalid (reason : String) : (invalid reason).isInvalid = true := rfl

end Halt

/-- A check that, when it stops, does so by rejecting what it checks: it neither throws,
asserts nor forms a sum outside `int64_t`. -/
def Rejects {α : Type} (x : Except Halt α) : Prop := ∀ e, x = .error e → e.isInvalid = true

@[simp] theorem rejects_ok {α : Type} (a : α) : Rejects (.ok a : Except Halt α) :=
  fun _ h => by cases h

@[simp] theorem rejects_error {α : Type} (e : Halt) :
    Rejects (.error e : Except Halt α) ↔ e.isInvalid = true :=
  ⟨fun h => h e rfl, fun h _ heq => by cases heq; exact h⟩

/-! ### Amounts in `int64_t` -/

def int64Min : Int := -9223372036854775808
def int64Max : Int := 9223372036854775807

/-- Whether a mathematical integer is an `int64_t`. -/
def InInt64 (n : Int) : Prop := int64Min ≤ n ∧ n ≤ int64Max

instance (n : Int) : Decidable (InInt64 n) := by unfold InInt64; infer_instance

/-- A signed 64-bit result, when the mathematical one is in range. -/
def toInt64 (n : Int) : Except Halt Int := if InInt64 n then .ok n else .error .overflow

def addInt64 (a b : Int) : Except Halt Int := toInt64 (a + b)

def subInt64 (a b : Int) : Except Halt Int := toInt64 (a - b)

theorem toInt64_of_inInt64 {n : Int} (h : InInt64 n) : toInt64 n = .ok n := if_pos h

theorem toInt64_eq_ok {n m : Int} : toInt64 n = .ok m ↔ n = m ∧ InInt64 n := by
  unfold toInt64
  split
  · next h => simp [h]
  · next h => simp [h]

theorem addInt64_eq_ok {a b m : Int} : addInt64 a b = .ok m ↔ a + b = m ∧ InInt64 (a + b) :=
  toInt64_eq_ok

theorem subInt64_eq_ok {a b m : Int} : subInt64 a b = .ok m ↔ a - b = m ∧ InInt64 (a - b) :=
  toInt64_eq_ok

/-- Everything within a hundred times the money limit is an `int64_t`. -/
theorem inInt64_of_money {n : Int} (hlow : -(100 * MAX_MONEY) ≤ n) (hhigh : n ≤ 100 * MAX_MONEY) :
    InInt64 n := by
  simp only [MAX_MONEY, COIN] at hlow hhigh
  simp only [InInt64, int64Min, int64Max]
  omega

/-! ### CheckTransaction -/

/-- The loop over the outputs in `CheckTransaction`: the running total. -/
def checkTxOuts : List CTxOut → Int → Except Halt Int
  | [], nValueOut => .ok nValueOut
  | txout :: vout, nValueOut =>
    if txout.nValue < 0 then
      .error (.dos 100 "CTransaction::CheckTransaction() : txout.nValue negative" false)
    else if txout.nValue > MAX_MONEY then
      .error (.dos 100 "CTransaction::CheckTransaction() : txout.nValue too high" false)
    else if !moneyRange txout.nValue then
      .error (.dos 100 "CTransaction::CheckTransaction() : MoneyRange check failed" false)
    else if !txout.isEmpty && decide (txout.nValue < CENT) then
      .error (.dos 100 "CTransaction::CheckTransaction() : txout.nValue below minimum" false)
    else
      match addInt64 nValueOut txout.nValue with
      | .error e => .error e
      | .ok nValueOut =>
        if !moneyRange nValueOut then
          .error (.dos 100 "CTransaction::CheckTransaction() : txout total out of range" false)
        else checkTxOuts vout nValueOut

/-- The loop over the inputs with the set of outpoints seen so far. -/
def checkDuplicateInputs : List CTxIn → List COutPoint → Except Halt Unit
  | [], _ => .ok ()
  | txin :: vin, vInOutPoints =>
    if txin.prevout ∈ vInOutPoints then
      .error (.dos 100 "CTransaction::CheckTransaction() : duplicate inputs" false)
    else checkDuplicateInputs vin (txin.prevout :: vInOutPoints)

def checkTransaction (tx : CTransaction) : Except Halt Unit :=
  if tx.vin.isEmpty then
    .error (.dos 10 "CTransaction::CheckTransaction() : vin empty" false)
  else if tx.vout.isEmpty then
    .error (.dos 10 "CTransaction::CheckTransaction() : vout empty" false)
  else if tx.serializeSize > MAX_BLOCK_SIZE then
    .error (.dos 100 "CTransaction::CheckTransaction() : size limits failed" false)
  else
    match checkTxOuts tx.vout 0 with
    | .error e => .error e
    | .ok _ =>
      match checkDuplicateInputs tx.vin [] with
      | .error e => .error e
      | .ok _ =>
        if tx.isCoinBase then
          match tx.vin with
          | txin :: _ =>
            if txin.scriptSig.length < 2 ∨ txin.scriptSig.length > 100 then
              .error (.dos 100 "CTransaction::CheckTransaction() : coinbase script size" false)
            else .ok ()
          | [] => .ok ()
        else if tx.vin.any (fun txin => txin.prevout.isNull) then
          .error (.dos 10 "CTransaction::CheckTransaction() : prevout is null" false)
        else .ok ()

def valueSum (vout : List CTxOut) : Int := (vout.map (·.nValue)).sum

@[simp] theorem valueSum_nil : valueSum [] = 0 := rfl

@[simp] theorem valueSum_cons (txout : CTxOut) (vout : List CTxOut) :
    valueSum (txout :: vout) = txout.nValue + valueSum vout := rfl

variable {vout : List CTxOut} {tx : CTransaction}

/-- What the output loop establishes: the exact total, every output and every
running total in range. -/
theorem checkTxOuts_eq_ok {acc total : Int} (h : checkTxOuts vout acc = .ok total) :
    total = acc + valueSum vout ∧ ∀ txout ∈ vout, 0 ≤ txout.nValue ∧ txout.nValue ≤ MAX_MONEY := by
  induction vout generalizing acc with
  | nil =>
    simp only [checkTxOuts, Except.ok.injEq] at h
    simp [h]
  | cons txout vout ih =>
    unfold checkTxOuts at h
    split at h
    · cases h
    · next hneg =>
      split at h
      · cases h
      · next hhigh =>
        split at h
        · cases h
        · split at h
          · cases h
          · split at h
            · cases h
            · next nValueOut hadd =>
              obtain ⟨rfl, -⟩ := addInt64_eq_ok.mp hadd
              split at h
              · cases h
              · obtain ⟨htotal, hrest⟩ := ih h
                refine ⟨by simp only [valueSum_cons]; omega, ?_⟩
                intro o ho
                rcases List.mem_cons.mp ho with rfl | ho
                · omega
                · exact hrest o ho

theorem checkTxOuts_total_range {acc total : Int}
    (hacc : 0 ≤ acc ∧ acc ≤ MAX_MONEY) (h : checkTxOuts vout acc = .ok total) :
    0 ≤ total ∧ total ≤ MAX_MONEY := by
  induction vout generalizing acc with
  | nil =>
    simp only [checkTxOuts, Except.ok.injEq] at h
    exact h ▸ hacc
  | cons txout vout ih =>
    unfold checkTxOuts at h
    split_ifs at h
    split at h
    · cases h
    · next nValueOut hadd =>
      split at h
      · cases h
      · next hmoney => exact ih (moneyRange_iff.mp (by simpa using hmoney)) h

/-- The running total never leaves `int64_t`: the range test follows each addition,
so the sum before an addition is a valid amount. -/
theorem checkTxOuts_rejects {acc : Int} (hacc : 0 ≤ acc ∧ acc ≤ MAX_MONEY) : Rejects (checkTxOuts vout acc):= by
  induction vout generalizing acc with
  | nil => simp [checkTxOuts]
  | cons txout vout ih =>
    unfold checkTxOuts
    split
    · simp
    · next hneg =>
      split
      · simp
      · next hhigh =>
        split
        · simp
        · split
          · simp
          · have hrange : InInt64 (acc + txout.nValue) :=
              inInt64_of_money (by simp only [MAX_MONEY, COIN] at *; omega)
                (by simp only [MAX_MONEY, COIN] at *; omega)
            rw [show addInt64 acc txout.nValue = .ok (acc + txout.nValue) from
              toInt64_of_inInt64 hrange]
            simp only
            split
            · simp
            · next hmoney =>
              simp only [Bool.not_eq_true, Bool.not_eq_false'] at hmoney
              exact ih (moneyRange_iff.mp (by simpa using hmoney))

theorem checkDuplicateInputs_eq_ok {vin : List CTxIn} {seen : List COutPoint}
    (h : checkDuplicateInputs vin seen = .ok ()) :
    (vin.map (·.prevout)).Nodup ∧ ∀ txin ∈ vin, txin.prevout ∉ seen := by
  induction vin generalizing seen with
  | nil => simp
  | cons txin vin ih =>
    unfold checkDuplicateInputs at h
    split at h
    · cases h
    · next hfresh =>
      obtain ⟨hnodup, hrest⟩ := ih h
      refine ⟨?_, ?_⟩
      · rw [List.map_cons, List.nodup_cons]
        refine ⟨fun hmem => ?_, hnodup⟩
        obtain ⟨txin', hin, heq⟩ := List.mem_map.mp hmem
        exact hrest txin' hin (by simp [heq])
      · intro txin' hin
        rcases List.mem_cons.mp hin with rfl | hin
        · exact hfresh
        · exact fun hseen => hrest txin' hin (List.mem_cons_of_mem _ hseen)

theorem checkDuplicateInputs_rejects {vin : List CTxIn} {seen : List COutPoint} :
    Rejects (checkDuplicateInputs vin seen) := by
  induction vin generalizing seen with
  | nil => simp [checkDuplicateInputs]
  | cons txin vin ih =>
    unfold checkDuplicateInputs
    split
    · simp
    · exact ih

/-- What a transaction that passed `CheckTransaction` is like. -/
structure Checked (tx : CTransaction) : Prop where
  vin_ne_nil : tx.vin ≠ []
  vout_ne_nil : tx.vout ≠ []
  size_le : tx.serializeSize ≤ MAX_BLOCK_SIZE
  value_range : ∀ txout ∈ tx.vout, 0 ≤ txout.nValue ∧ txout.nValue ≤ MAX_MONEY
  prevout_nodup : (tx.vin.map (·.prevout)).Nodup
  prevout_not_null : tx.isCoinBase = false → ∀ txin ∈ tx.vin, txin.prevout ≠ COutPoint.null

theorem checkTransaction_eq_ok (h : checkTransaction tx = .ok ()) : Checked tx := by
  unfold checkTransaction at h
  split at h
  · cases h
  · next hvin =>
    split at h
    · cases h
    · next hvout =>
      split at h
      · cases h
      · next hsize =>
        split at h
        · cases h
        · next total houts =>
          split at h
          · cases h
          · next hdup =>
            obtain ⟨hnodup, -⟩ := checkDuplicateInputs_eq_ok hdup
            exact {
              vin_ne_nil := by simpa using hvin
              vout_ne_nil := by simpa using hvout
              size_le := Nat.le_of_not_gt hsize
              value_range := (checkTxOuts_eq_ok houts).2
              prevout_nodup := hnodup
              prevout_not_null := by
                intro hcb txin hin hnull
                rw [if_neg (by simp [hcb])] at h
                split at h
                · cases h
                · next hany =>
                  apply hany
                  rw [List.any_eq_true]
                  exact ⟨txin, hin, by simp [COutPoint.isNull, hnull]⟩ }

/-- A checked transaction passed the loop over its outputs. -/
theorem checkTransaction_outs (h : checkTransaction tx = .ok ()) :
    ∃ total, checkTxOuts tx.vout 0 = .ok total := by
  cases houts : checkTxOuts tx.vout 0 with
  | ok total => exact ⟨total, rfl⟩
  | error e =>
    simp only [checkTransaction, houts] at h
    split_ifs at h

theorem Checked.not_isNull (h : Checked tx) {txout : CTxOut} (hmem : txout ∈ tx.vout) : txout.isNull = false:= by
  have := (h.value_range txout hmem).1
  simp only [CTxOut.isNull, beq_eq_false_iff_ne]
  omega

/-- `CheckTransaction` rejects or passes; none of its sums leaves `int64_t`. -/
theorem checkTransaction_rejects (tx : CTransaction) : Rejects (checkTransaction tx) := by
  have houts : Rejects (checkTxOuts tx.vout 0) := checkTxOuts_rejects (by decide)
  have hdup : Rejects (checkDuplicateInputs tx.vin []) := checkDuplicateInputs_rejects
  unfold checkTransaction
  split
  · simp
  · split
    · simp
    · split
      · simp
      · split
        · next e he => rw [he] at houts; simpa using houts
        · split
          · next e he => rw [he] at hdup; simpa using hdup
          · split
            · split
              · split <;> simp
              · simp
            · split <;> simp

/-! ### GetValueOut -/

def getValueOutLoop : List CTxOut → Int → Except Halt Int
  | [], nValueOut => .ok nValueOut
  | txout :: vout, nValueOut =>
    match addInt64 nValueOut txout.nValue with
    | .error e => .error e
    | .ok nValueOut =>
      if !moneyRange txout.nValue || !moneyRange nValueOut then
        .error (.runtimeError "CTransaction::GetValueOut() : value out of range")
      else getValueOutLoop vout nValueOut

def CTransaction.getValueOut (tx : CTransaction) : Except Halt Int := getValueOutLoop tx.vout 0

/-- After `CheckTransaction` the sum `GetValueOut` forms is the total that loop
formed: it neither throws nor overflows. -/
theorem getValueOutLoop_of_checked {acc total : Int}
    (h : checkTxOuts vout acc = .ok total) : getValueOutLoop vout acc = .ok total := by
  induction vout generalizing acc with
  | nil => simpa [checkTxOuts, getValueOutLoop] using h
  | cons txout vout ih =>
    unfold checkTxOuts at h
    split at h
    · cases h
    · split at h
      · cases h
      · split at h
        · cases h
        · next hmoney =>
          split at h
          · cases h
          · split at h
            · cases h
            · next nValueOut hadd =>
              split at h
              · cases h
              · next htotal =>
                unfold getValueOutLoop
                rw [hadd]
                simp only [Bool.not_eq_true] at hmoney htotal
                simp only [hmoney, htotal, Bool.or_false, Bool.false_eq_true, if_false]
                exact ih h

/-- After `CheckTransaction`, `GetValueOut` returns the plain sum of the outputs. -/
theorem checkTransaction_valueOut (h : checkTransaction tx = .ok ()) :
    tx.getValueOut = .ok (valueSum tx.vout) ∧ 0 ≤ valueSum tx.vout ∧ valueSum tx.vout ≤ MAX_MONEY := by
  obtain ⟨total, houts⟩ := checkTransaction_outs h
  have hsum := (checkTxOuts_eq_ok houts).1
  have hrange := checkTxOuts_total_range (by decide) houts
  rw [zero_add] at hsum
  subst hsum
  exact ⟨getValueOutLoop_of_checked houts, hrange⟩

/-! ### GetMinFee -/

/-- `GetMinFee_mode`. -/
inductive GetMinFeeMode where
  | block | relay | send
deriving DecidableEq, Repr

/-- The two fee settings (`-mintxfee`, `-minrelaytxfee`). -/
structure FeeSettings where
  nMinTxFee : Int
  nMinRelayTxFee : Int
deriving DecidableEq, Repr

/-- The settings without arguments. -/
def FeeSettings.default : FeeSettings := ⟨CENT, CENT⟩

def CTransaction.getMinFee (fees : FeeSettings) (tx : CTransaction) (nBlockSize : Nat)
    (fAllowFree : Bool) (mode : GetMinFeeMode) (optnBytes : Nat) : Int :=
  let nBaseFee := if mode = .relay then fees.nMinRelayTxFee else fees.nMinTxFee
  let nBytes := max optnBytes tx.serializeSize
  let nNewBlockSize := nBlockSize + nBytes
  let nMinFee := (1 + (nBytes : Int) / 1000) * nBaseFee
  let nMinFee :=
    if fAllowFree ∧
        nBytes < (if mode = .send then 5000 else DEFAULT_BLOCK_PRIORITY_SIZE - 1000) then 0
    else nMinFee
  let nMinFee := tx.vout.foldl
    (fun nMinFee txout => if txout.nValue < DUST_SOFT_LIMIT then nMinFee + nBaseFee else nMinFee)
    nMinFee
  if nBlockSize ≠ 1 ∧ nNewBlockSize ≥ MAX_BLOCK_SIZE_GEN / 2 then
    if nNewBlockSize ≥ MAX_BLOCK_SIZE_GEN then MAX_MONEY
    else
      let nMinFee := nMinFee * ((MAX_BLOCK_SIZE_GEN / (MAX_BLOCK_SIZE_GEN - nNewBlockSize) : Nat) : Int)
      if !moneyRange nMinFee then MAX_MONEY else nMinFee
  else if !moneyRange nMinFee then MAX_MONEY else nMinFee

end Manna
