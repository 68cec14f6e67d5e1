import Manna.TxOutCodec

/-!
The codes of amounts (`main.cpp`: `CTxOutCompressor::CompressAmount`, `DecompressAmount`).

Both functions once more, with `uint64_t` operations that notice when they wrap.

* `decompressChecked_eq`: no operation wraps where the number fits into 64 bits;
* `amountCodes`: then the code of the number is the one it was read from.
-/

namespace Manna

namespace CTxOutCompressor

def addUint64 (a b : Nat) : Option Nat := if a + b < 2 ^ 64 then some (a + b) else none

def subUint64 (a b : Nat) : Option Nat := if b ≤ a then some (a - b) else none

def mulUint64 (a b : Nat) : Option Nat := if a * b < 2 ^ 64 then some (a * b) else none

/-- `CompressAmount`; `none` where an operation wraps. -/
def compressChecked (n : Nat) : Option Nat :=
  if n = 0 then some 0
  else
    let e := (stripZeros 9 n).2
    let n := (stripZeros 9 n).1
    if e < 9 then do
      let d := n % 10
      let n := n / 10
      let x ← subUint64 (← addUint64 (← mulUint64 n 9) d) 1
      addUint64 (← addUint64 1 (← mulUint64 x 10)) e
    else do
      addUint64 (← addUint64 1 (← mulUint64 (← subUint64 n 1) 10)) 9

def mulTens : Nat → Nat → Option Nat
  | 0, n => some n
  | e + 1, n => do mulTens e (← mulUint64 n 10)

/-- `DecompressAmount`; `none` where an operation wraps. -/
def decompressChecked (x : Nat) : Option Nat :=
  if x = 0 then some 0
  else
    let x := x - 1
    let e := x % 10
    let x := x / 10
    if e < 9 then do
      let d := x % 9 + 1
      let x := x / 9
      mulTens e (← addUint64 (← mulUint64 x 10) d)
    else do
      mulTens e (← addUint64 x 1)

/-! ### Nothing wraps -/

section Checked

variable {a b n x : Nat}

theorem addUint64_eq (h : a + b < 2 ^ 64) : addUint64 a b = some (a + b) := if_pos h

theorem subUint64_eq (h : b ≤ a) : subUint64 a b = some (a - b) := if_pos h

theorem mulUint64_eq (h : a * b < 2 ^ 64) : mulUint64 a b = some (a * b) := if_pos h

theorem mulTens_eq : ∀ {e n : Nat}, 0 < n → n * 10 ^ e < 2 ^ 64 → mulTens e n = some (n * 10 ^ e)
  | 0, n, _, _ => by rw [mulTens, pow_zero, mul_one]
  | e + 1, n, hpos, h => by
    have hsplit : n * 10 ^ (e + 1) = n * 10 * 10 ^ e := by ring
    rw [hsplit] at h ⊢
    have hfirst : n * 10 < 2 ^ 64 := (Nat.le_mul_of_pos_right _ (Nat.pow_pos (by decide))).trans_lt h
    rw [mulTens, mulUint64_eq hfirst]
    exact mulTens_eq (Nat.mul_pos hpos (by decide)) h

theorem digits_le_codeValue (hx : x ≠ 0) :
    (if (x - 1) % 10 < 9 then (x - 1) / 10 / 9 * 10 + ((x - 1) / 10 % 9 + 1) else (x - 1) / 10 + 1) ≤
      codeValue x := by
  rw [codeValue, if_neg hx]
  exact Nat.le_mul_of_pos_right _ (Nat.pow_pos (by decide))

/-- **No operation of `DecompressAmount` wraps** where the number fits. -/
theorem decompressChecked_eq (h : codeValue x < 2 ^ 64) : decompressChecked x = some (codeValue x) := by
  by_cases hx : x = 0
  · subst hx
    rfl
  · have hdigits := digits_le_codeValue hx
    unfold decompressChecked
    rw [if_neg hx]
    rw [codeValue, if_neg hx] at h hdigits ⊢
    dsimp only at h hdigits ⊢
    split_ifs at h hdigits ⊢ with he
    · rw [mulUint64_eq (by omega)]
      simp only [Option.bind_eq_bind, Option.bind_some]
      rw [addUint64_eq (by omega)]
      exact mulTens_eq (by omega) h
    · rw [addUint64_eq (by omega)]
      exact mulTens_eq (by omega) h

/-- **No operation of `CompressAmount` wraps** where ten times the amount fits. -/
theorem compressChecked_eq (h : 10 * n < 2 ^ 64) : compressChecked n = some (compressAmount n) := by
  by_cases hn : n = 0
  · subst hn
    rfl
  · have hle := stripZeros_le (k := 9) (Nat.pos_of_ne_zero hn)
    obtain ⟨hpos, -, hnine, hdigit⟩ := stripZeros_spec (k := 9) (Nat.pos_of_ne_zero hn)
    unfold compressChecked compressAmount
    rw [if_neg hn, if_neg hn]
    generalize stripZeros 9 n = out at hle hpos hnine hdigit
    obtain ⟨m, e⟩ := out
    dsimp only at hle hpos hnine hdigit ⊢
    split_ifs with he
    · have hlast := hdigit he
      have hx : 1 + (m / 10 * 9 + m % 10 - 1) * 10 + e < 2 ^ 64 := by omega
      rw [mulUint64_eq (by omega)]
      simp only [Option.bind_eq_bind, Option.bind_some]
      rw [addUint64_eq (by omega), Option.bind_some, subUint64_eq (by omega), Option.bind_some,
        mulUint64_eq (by omega), Option.bind_some, addUint64_eq (by omega), Option.bind_some,
        addUint64_eq (by omega), Nat.mod_eq_of_lt hx]
    · have hx : 1 + (m - 1) * 10 + 9 < 2 ^ 64 := by omega
      rw [subUint64_eq (by omega)]
      simp only [Option.bind_eq_bind, Option.bind_some]
      rw [mulUint64_eq (by omega), Option.bind_some, addUint64_eq (by omega), Option.bind_some,
        addUint64_eq (by omega), Nat.mod_eq_of_lt hx]

end Checked

/-! ### The code of a number -/

theorem stripZeros_mul {m : Nat} (hm : 0 < m) : ∀ {k e : Nat}, e ≤ k → (e < k → m % 10 ≠ 0) →
    stripZeros k (m * 10 ^ e) = (m, e)
  | 0, e, he, _ => by
    obtain rfl := Nat.le_zero.mp he
    rw [stripZeros, pow_zero, mul_one]
  | k + 1, 0, _, hlast => by
    rw [pow_zero, mul_one, stripZeros, if_neg (hlast (Nat.succ_pos k))]
  | k + 1, e + 1, he, hlast => by
    have hsplit : m * 10 ^ (e + 1) = m * 10 ^ e * 10 := by ring
    have hrest := stripZeros_mul hm (k := k) (e := e) (by omega) fun hlt => hlast (by omega)
    rw [hsplit, stripZeros, if_pos (by omega), Nat.mul_div_cancel _ (by decide), hrest]

/-- **No number has two codes.** -/
theorem compressAmount_codeValue {x : Nat} (hx : x < 2 ^ 64) : compressAmount (codeValue x) = x := by
  by_cases hzero : x = 0
  · subst hzero
    rfl
  · by_cases he : (x - 1) % 10 < 9
    · have hvalue : codeValue x =
          ((x - 1) / 10 / 9 * 10 + ((x - 1) / 10 % 9 + 1)) * 10 ^ ((x - 1) % 10) := by
        rw [codeValue, if_neg hzero]
        dsimp only
        rw [if_pos he]
      have hpos : 0 < (x - 1) / 10 / 9 * 10 + ((x - 1) / 10 % 9 + 1) := by omega
      have hstrip := stripZeros_mul hpos (k := 9) (e := (x - 1) % 10) he.le fun _ => by omega
      have hne : codeValue x ≠ 0 := by
        rw [hvalue]
        exact (Nat.mul_pos hpos (Nat.pow_pos (by decide))).ne'
      rw [compressAmount, if_neg hne, hvalue, hstrip]
      dsimp only
      rw [if_pos he]
      have hrest : ((x - 1) / 10 / 9 * 10 + ((x - 1) / 10 % 9 + 1)) / 10 * 9 +
          ((x - 1) / 10 / 9 * 10 + ((x - 1) / 10 % 9 + 1)) % 10 - 1 = (x - 1) / 10 := by omega
      rw [hrest, Nat.mod_eq_of_lt (by omega)]
      omega
    · have hnine : (x - 1) % 10 = 9 := by omega
      have hvalue : codeValue x = ((x - 1) / 10 + 1) * 10 ^ 9 := by
        rw [codeValue, if_neg hzero]
        dsimp only
        rw [if_neg he, hnine]
      have hstrip := stripZeros_mul (Nat.succ_pos ((x - 1) / 10)) (k := 9) (e := 9) le_rfl fun h =>
        absurd h (lt_irrefl 9)
      have hne : codeValue x ≠ 0 := by
        rw [hvalue]
        exact (Nat.mul_pos (Nat.succ_pos _) (Nat.pow_pos (by decide))).ne'
      rw [compressAmount, if_neg hne, hvalue, hstrip]
      dsimp only
      rw [if_neg (lt_irrefl 9)]
      omega

theorem ten_mul_lt_of_le_maxMoney {n : Nat} (h : n ≤ MAX_MONEY) : 10 * n < 2 ^ 64 := by
  have hlimit : MAX_MONEY = 50000000000000000 := by decide
  omega

/-- **The codes of amounts.** An amount of the money range is restored, a code is restored where its number
fits into 64 bits, and no operation wraps. -/
theorem amountCodes :
    (∀ n : Nat, n ≤ MAX_MONEY → compressChecked n = some (compressAmount n) ∧
      decompressChecked (compressAmount n) = some n ∧ decompressAmount (compressAmount n) = n) ∧
    (∀ x < 2 ^ 64, codeValue x ≤ 2 ^ 64 - 1 → decompressChecked x = some (codeValue x) ∧
      decompressAmount x = codeValue x ∧ compressAmount (decompressAmount x) = x) ∧
    (∀ n m : Nat, n ≤ MAX_MONEY → m ≤ MAX_MONEY → compressAmount n = compressAmount m → n = m) ∧
    ∀ x < 2 ^ 64, ∀ y < 2 ^ 64, codeValue x = codeValue y → x = y := by
  refine ⟨fun n hn => ?_, fun x hx hvalue => ?_, fun n m hn hm hcode => ?_, fun x hx y hy hvalue => ?_⟩
  · have hten := ten_mul_lt_of_le_maxMoney hn
    have hback := decompressAmount_compressAmount hten
    have hvalue := codeValue_compressAmount hten
    refine ⟨compressChecked_eq hten, ?_, hback⟩
    rw [decompressChecked_eq (by omega), hvalue]
  · have hlt : codeValue x < 2 ^ 64 := by omega
    have hback := decompressAmount_eq hlt
    exact ⟨decompressChecked_eq hlt, hback, hback ▸ compressAmount_codeValue hx⟩
  · rw [← decompressAmount_compressAmount (ten_mul_lt_of_le_maxMoney hn), hcode,
      decompressAmount_compressAmount (ten_mul_lt_of_le_maxMoney hm)]
  · rw [← compressAmount_codeValue hx, hvalue, compressAmount_codeValue hy]

theorem amountCodes_coin :
    decompressAmount (compressAmount 1000000) = 1000000 ∧ compressAmount (decompressAmount 7) = 7 ∧
      1000000 = 1000000 ∧ 7 = 7 :=
  ⟨(amountCodes.1 1000000 (by decide)).2.2, (amountCodes.2.1 7 (by decide) (by decide)).2.2,
    amountCodes.2.2.1 1000000 1000000 (by decide) (by decide) rfl,
    amountCodes.2.2.2 7 (by decide) 7 (by decide) rfl⟩

end CTxOutCompressor

end Manna
