import Manna.Lib.Decimal
import Manna.Validation

/-!
Amounts as text (`util.cpp`: `FormatMoney`, `ParseMoney`).

An amount is parsed exactly, and no operation overflows: at most ten digits are taken before the point. The
largest amount has eleven there.

* `parseMoney_exact`: what is parsed is what is written;
* `moneyStrings_iff`: which amounts are parsed back from their text.

Left out: what `FormatMoney` does with the smallest `int64_t`.
-/

namespace Manna

open Decimal

namespace MoneyString

/-! ### The source -/

def COIN_DECIMALS : Nat := 6

def mulInt64 (a b : Int) : Except Halt Int := toInt64 (a * b)

def trimZeros : List UInt8 → List UInt8
  | c :: d :: e :: str => if c = 48 ∧ isDigit e then trimZeros (d :: e :: str) else c :: d :: e :: str
  | str => str

def formatMoney (n : Int) (fPlus : Bool) : List UInt8 :=
  let n_abs := if n > 0 then n else -n
  let quotient := n_abs / COIN
  let remainder := n_abs % COIN
  let str := printInt quotient ++ 46 :: printPadded COIN_DECIMALS remainder.natAbs
  let str := (trimZeros str.reverse).reverse
  if n < 0 then 45 :: str else if fPlus && decide (n > 0) then 43 :: str else str

/-- The loop of `ParseMoney` behind the point: `nUnits`, and the rest of the string. -/
def addUnits (nMult nUnits : Int) : List UInt8 → Except Halt (Int × List UInt8)
  | [] => .ok (nUnits, [])
  | c :: p =>
    if isDigit c ∧ nMult > 0 then do
      let nUnits ← addInt64 nUnits (← mulInt64 nMult (c.toNat - 48))
      addUnits (nMult.tdiv 10) nUnits p
    else .ok (nUnits, c :: p)

/-- The loop of `ParseMoney`: `strWhole`, `nUnits`, and the rest of the string; `none` where it returns
false. -/
def readWhole (strWhole : List UInt8) : List UInt8 → Except Halt (Option (List UInt8 × Int × List UInt8))
  | [] => .ok (some (strWhole, 0, []))
  | c :: p =>
    if c = 46 then do
      let (nUnits, p) ← addUnits (CENT * 10) 0 p
      return some (strWhole, nUnits, p)
    else if isSpace c then .ok (some (strWhole, 0, c :: p))
    else if !isDigit c then .ok none
    else readWhole (strWhole ++ [c]) p

def atoi64 (str : List UInt8) : Int := parseInt int64Min int64Max str

/-- `ParseMoney`; `none` where it returns false. -/
def parseMoney (str : List UInt8) : Except Halt (Option Int) := do
  match ← readWhole [] ((cStr str).dropWhile isSpace) with
  | none => return none
  | some (strWhole, nUnits, p) =>
    if p.any fun c => !isSpace c then return none
    -- "guard against 63 bit overflow"
    else if strWhole.length > 10 then return none
    else if nUnits < 0 ∨ nUnits > COIN then return none
    else
      let nWhole := atoi64 strWhole
      let nValue ← addInt64 (← mulInt64 nWhole COIN) nUnits
      return some nValue

def fractionText : Option (List UInt8) → List UInt8
  | none => []
  | some fraction => 46 :: fraction

/-- The amount with these digits before and behind the point. -/
def amountOf (whole : List UInt8) (fraction : Option (List UInt8)) : Int :=
  value whole * COIN + (value (fraction.getD []) * 10 ^ (COIN_DECIMALS - (fraction.getD []).length) : Nat)

/-- **An amount is written** in a text: digits, perhaps a point and digits behind it, and blanks around. -/
structure Writes (text before whole : List UInt8) (fraction : Option (List UInt8)) (after : List UInt8) :
    Prop where
  text : text = before ++ (whole ++ (fractionText fraction ++ after))
  blanksBefore : ∀ c ∈ before, isSpace c = true
  digits : ∀ c ∈ whole, isDigit c = true
  fractionDigits : ∀ c ∈ fraction.getD [], isDigit c = true
  decimals : (fraction.getD []).length ≤ COIN_DECIMALS
  blanksAfter : ∀ c ∈ after, isSpace c = true

/-- **Amounts as text**: an amount is parsed back from its text; what is parsed from a string is what is
written in it; and parsing does not overflow. -/
structure MoneyStrings (n : Int) (str : List UInt8) : Prop where
  restored : parseMoney (formatMoney n false) = .ok (some n)
  exact : ∀ nRet, parseMoney str = .ok (some nRet) → ∃ before whole fraction after,
    Writes (cStr str) before whole fraction after ∧ nRet = amountOf whole fraction
  noOverflow : ∃ ret, parseMoney str = .ok ret

/-! ### The loops -/

theorem ne_point_of_isDigit {c : UInt8} (h : isDigit c = true) : c ≠ 46 := by
  rintro rfl
  cases h

/-- The multiplier before so many more decimals. -/
def multOf : Nat → Int
  | 0 => 0
  | k + 1 => 10 ^ k

theorem multOf_tdiv (k : Nat) : (multOf (k + 1)).tdiv 10 = multOf k := by
  cases k with
  | zero => rfl
  | succ k =>
    have hsplit : (10 : Int) ^ (k + 1) = 10 ^ k * 10 := pow_succ 10 k
    rw [multOf, hsplit, Int.mul_tdiv_cancel _ (by decide), multOf]

/-- **A digit behind the point** adds its units. -/
theorem addUnits_cons {c : UInt8} {p : List UInt8} {k : Nat} {nUnits : Int} (hdigit : isDigit c = true)
    (hnonneg : 0 ≤ nUnits) (hmax : nUnits + 10 ^ (k + 1) ≤ int64Max) :
    addUnits (multOf (k + 1)) nUnits (c :: p) =
      addUnits (multOf k) (nUnits + ((c.toNat - 48) * 10 ^ k : Nat)) p ∧
    nUnits + ((c.toNat - 48) * 10 ^ k : Nat) + 10 ^ k ≤ int64Max := by
  have hle := digit_le hdigit
  have hmult : 0 < multOf (k + 1) := by
    rw [multOf]
    positivity
  have hterm : multOf (k + 1) * ((c.toNat : Int) - 48) = ((c.toNat - 48) * 10 ^ k : Nat) := by
    have hlow : 48 ≤ c.toNat := UInt8.le_iff_toNat_le.mp (of_decide_eq_true hdigit).1
    rw [multOf]
    push_cast [hlow]
    ring
  have hbound : ((c.toNat - 48) * 10 ^ k : Nat) + 10 ^ k ≤ 10 ^ (k + 1) := by
    have hmul := Nat.mul_le_mul_right (10 ^ k) hle
    rw [pow_succ]
    omega
  have hbound' : (((c.toNat - 48) * 10 ^ k : Nat) : Int) + 10 ^ k ≤ 10 ^ (k + 1) := by
    exact_mod_cast hbound
  have hpow : (0 : Int) < 10 ^ k := by positivity
  have hmin : int64Min ≤ 0 := by decide
  have hmul : mulInt64 (multOf (k + 1)) ((c.toNat : Int) - 48) =
      .ok (((c.toNat - 48) * 10 ^ k : Nat) : Int) := by
    rw [mulInt64, hterm, toInt64_of_inInt64 ⟨by omega, by omega⟩]
  have hadd : addInt64 nUnits (((c.toNat - 48) * 10 ^ k : Nat) : Int) =
      .ok (nUnits + (((c.toNat - 48) * 10 ^ k : Nat) : Int)) :=
    toInt64_of_inInt64 ⟨by omega, by omega⟩
  refine ⟨?_, by omega⟩
  rw [addUnits, if_pos ⟨hdigit, hmult⟩, hmul]
  simp only [bind, Except.bind, hadd]
  rw [multOf_tdiv]

/-- **The digits behind the point**, as many as there are decimals. -/
theorem addUnits_eq (p : List UInt8) : ∀ (k : Nat) (nUnits : Int), 0 ≤ nUnits →
    nUnits + 10 ^ k ≤ int64Max → addUnits (multOf k) nUnits p =
      .ok (nUnits + (value ((p.takeWhile isDigit).take k) *
        10 ^ (k - ((p.takeWhile isDigit).take k).length) : Nat),
        p.drop ((p.takeWhile isDigit).take k).length) := by
  induction p with
  | nil =>
    intro k nUnits _ _
    simp [addUnits, value]
  | cons c p ih =>
    intro k nUnits hnonneg hmax
    cases k with
    | zero =>
      unfold addUnits
      simp [multOf, value]
    | succ k =>
      by_cases hdigit : isDigit c = true
      · obtain ⟨hcons, hmax'⟩ := @addUnits_cons c p k nUnits hdigit hnonneg hmax
        rw [hcons, ih k _ (by omega) hmax', List.takeWhile_cons_of_pos hdigit, List.take_succ_cons,
          List.length_cons, value_cons, List.drop_succ_cons]
        have hlen : ((p.takeWhile isDigit).take k).length ≤ k := List.length_take_le ..
        generalize (p.takeWhile isDigit).take k = digits at hlen
        have hsplit : (10 : Nat) ^ k = 10 ^ digits.length * 10 ^ (k - digits.length) := by
          rw [← pow_add, Nat.add_sub_cancel' hlen]
        have hvalue : (c.toNat - 48) * 10 ^ k + value digits * 10 ^ (k - digits.length) =
            ((c.toNat - 48) * 10 ^ digits.length + value digits) *
              10 ^ (k + 1 - (digits.length + 1)) := by
          rw [hsplit, Nat.add_sub_add_right]
          ring
        rw [← hvalue, Nat.cast_add, add_assoc]
      · unfold addUnits
        simp [hdigit, value]

/-- What comes behind the digits before the point. -/
def readEnd (strWhole : List UInt8) : List UInt8 → Option (List UInt8 × Int × List UInt8)
  | [] => some (strWhole, 0, [])
  | c :: p =>
    if c = 46 then
      let digits := (p.takeWhile isDigit).take COIN_DECIMALS
      some (strWhole, (value digits * 10 ^ (COIN_DECIMALS - digits.length) : Nat), p.drop digits.length)
    else if isSpace c then some (strWhole, 0, c :: p)
    else none

/-- **The loop of `ParseMoney`** takes the digits and does not overflow. -/
theorem readWhole_eq (p strWhole : List UInt8) :
    readWhole strWhole p = .ok (readEnd (strWhole ++ p.takeWhile isDigit) (p.dropWhile isDigit)) := by
  induction p generalizing strWhole with
  | nil => simp [readWhole, readEnd]
  | cons c p ih =>
    unfold readWhole
    by_cases hdigit : isDigit c = true
    · rw [if_neg (ne_point_of_isDigit hdigit), if_neg (by simp [not_isSpace_of_isDigit hdigit]),
        if_neg (by simp [hdigit]), ih, List.takeWhile_cons_of_pos hdigit, List.dropWhile_cons_of_pos hdigit,
        List.append_assoc]
      rfl
    · rw [List.takeWhile_cons_of_neg hdigit, List.dropWhile_cons_of_neg hdigit, List.append_nil, readEnd]
      split
      · have hunits := addUnits_eq p COIN_DECIMALS 0 le_rfl (by decide)
        have hmult : multOf COIN_DECIMALS = CENT * 10 := by decide
        rw [hmult] at hunits
        simp only [bind, Except.bind, hunits, pure, Except.pure, zero_add]
      · split
        · rfl
        · simp [hdigit]

/-! ### What is parsed -/

theorem value_fraction_lt {fraction : List UInt8} (hdigits : ∀ c ∈ fraction, isDigit c = true)
    (hlen : fraction.length ≤ COIN_DECIMALS) :
    value fraction * 10 ^ (COIN_DECIMALS - fraction.length) < 1000000 := by
  have hlt := value_lt hdigits
  calc value fraction * 10 ^ (COIN_DECIMALS - fraction.length)
      < 10 ^ fraction.length * 10 ^ (COIN_DECIMALS - fraction.length) :=
        Nat.mul_lt_mul_of_pos_right hlt (Nat.pow_pos (by decide))
    _ = 10 ^ COIN_DECIMALS := by rw [← pow_add, Nat.add_sub_cancel' hlen]

theorem atoi64_eq {whole : List UInt8} (hdigits : ∀ c ∈ whole, isDigit c = true) (hlen : whole.length ≤ 10) :
    atoi64 whole = value whole := by
  have hlt := (value_lt hdigits).trans_le (Nat.pow_le_pow_right (by decide) hlen)
  have hblank : whole.dropWhile isSpace = whole := dropWhile_isSpace_eq_self fun c hc =>
    not_isSpace_of_isDigit (hdigits c (List.mem_of_mem_head? hc))
  unfold atoi64 parseInt
  rw [hblank]
  split
  · exact absurd (hdigits 45 List.mem_cons_self) (by decide)
  · exact absurd (hdigits 43 List.mem_cons_self) (by decide)
  · rw [parseNat_eq_value hdigits, int64Max]
    omega

/-- The end of `ParseMoney`, where the three parts are given. -/
def finishMoney (strWhole : List UInt8) (nUnits : Int) (p : List UInt8) : Option Int :=
  if (p.any fun c => !isSpace c) ∨ strWhole.length > 10 then none else some (value strWhole * COIN + nUnits)

theorem readEnd_eq_some {whole p strWhole rest : List UInt8} {nUnits : Int}
    (h : readEnd whole p = some (strWhole, nUnits, rest)) :
    strWhole = whole ∧ ∃ fraction : Option (List UInt8), p = fractionText fraction ++ rest ∧
      (∀ c ∈ fraction.getD [], isDigit c = true) ∧ (fraction.getD []).length ≤ COIN_DECIMALS ∧
      nUnits = (value (fraction.getD []) * 10 ^ (COIN_DECIMALS - (fraction.getD []).length) : Nat) := by
  cases p with
  | nil =>
    cases h
    exact ⟨rfl, none, rfl, (fun c hc => absurd hc List.not_mem_nil), Nat.zero_le _, rfl⟩
  | cons c p =>
    simp only [readEnd] at h
    split at h
    · next hpoint =>
      cases h
      obtain ⟨rest, hrest⟩ : (p.takeWhile isDigit).take COIN_DECIMALS <+: p :=
        (List.take_prefix _ _).trans (List.takeWhile_prefix _)
      have hsplit : p = (p.takeWhile isDigit).take COIN_DECIMALS ++
          p.drop ((p.takeWhile isDigit).take COIN_DECIMALS).length := by
        generalize (p.takeWhile isDigit).take COIN_DECIMALS = digits at hrest
        rw [← hrest, List.drop_left]
      refine ⟨rfl, some ((p.takeWhile isDigit).take COIN_DECIMALS), ?_, fun c hc => ?_, ?_, rfl⟩
      · rw [hpoint, fractionText, List.cons_append, ← hsplit]
      · exact List.mem_takeWhile_imp (List.mem_of_mem_take hc)
      · exact List.length_take_le ..
    · split at h
      · cases h
        exact ⟨rfl, none, rfl, (fun c hc => absurd hc List.not_mem_nil), Nat.zero_le _, rfl⟩
      · cases h

theorem bind_of_ok {ε α β : Type} {x : Except ε α} {f : α → Except ε β} {a : α} {b : β} (hx : x = .ok a)
    (hf : f a = .ok b) : (x >>= f) = .ok b := by
  rw [hx]
  exact hf

/-- **`ParseMoney` does not overflow.** -/
theorem parseMoney_eq (str : List UInt8) :
    parseMoney str = .ok
      ((readEnd (((cStr str).dropWhile isSpace).takeWhile isDigit)
        (((cStr str).dropWhile isSpace).dropWhile isDigit)).bind fun out =>
          finishMoney out.1 out.2.1 out.2.2) := by
  refine bind_of_ok (readWhole_eq _ _) ?_
  rw [List.nil_append]
  cases hend : readEnd (((cStr str).dropWhile isSpace).takeWhile isDigit)
      (((cStr str).dropWhile isSpace).dropWhile isDigit) with
  | none => rfl
  | some out =>
    obtain ⟨strWhole, nUnits, p⟩ := out
    obtain ⟨rfl, fraction, -, hdigits, hlen, rfl⟩ := readEnd_eq_some hend
    have hwhole : ∀ c ∈ ((cStr str).dropWhile isSpace).takeWhile isDigit, isDigit c = true :=
      fun c hc => List.mem_takeWhile_imp hc
    have hunits := value_fraction_lt hdigits hlen
    generalize value (fraction.getD []) * 10 ^ (COIN_DECIMALS - (fraction.getD []).length) = nUnits at hunits
    generalize ((cStr str).dropWhile isSpace).takeWhile isDigit = strWhole at hwhole
    have hcoin : COIN = 1000000 := rfl
    rw [Option.bind_some, finishMoney]
    dsimp only
    by_cases hblanks : (p.any fun c => !isSpace c) = true
    · rw [if_pos hblanks, if_pos (.inl hblanks)]
      rfl
    · by_cases hten : strWhole.length > 10
      · rw [if_neg hblanks, if_pos hten, if_pos (.inr hten)]
        rfl
      · have hlt := (value_lt hwhole).trans_le
          (Nat.pow_le_pow_right (show 0 < 10 by decide) (not_lt.mp hten))
        have hprod : (value strWhole : Int) * COIN = 1000000 * value strWhole := mul_comm ..
        have hrange : ¬ ((nUnits : Int) < 0 ∨ (nUnits : Int) > COIN) := by omega
        have hmul : mulInt64 (value strWhole) COIN = .ok (value strWhole * COIN) :=
          toInt64_of_inInt64 ⟨by rw [int64Min]; omega, by rw [int64Max]; omega⟩
        have hadd : addInt64 (value strWhole * COIN) nUnits = .ok (value strWhole * COIN + nUnits) :=
          toInt64_of_inInt64 ⟨by rw [int64Min]; omega, by rw [int64Max]; omega⟩
        have hamount : (do
            let nProd ← mulInt64 (value strWhole) COIN
            let nValue ← addInt64 nProd nUnits
            return some nValue) = .ok (some (value strWhole * COIN + nUnits)) :=
          bind_of_ok hmul (bind_of_ok hadd rfl)
        rw [if_neg hblanks, if_neg hten, if_neg hrange, atoi64_eq hwhole (not_lt.mp hten),
          if_neg (not_or.mpr ⟨hblanks, hten⟩)]
        exact hamount

/-- **What is parsed is what is written.** -/
theorem parseMoney_exact {str : List UInt8} {nRet : Int} (h : parseMoney str = .ok (some nRet)) :
    ∃ before whole fraction after,
      Writes (cStr str) before whole fraction after ∧ nRet = amountOf whole fraction := by
  rw [parseMoney_eq, Except.ok.injEq, Option.bind_eq_some_iff] at h
  obtain ⟨⟨strWhole, nUnits, rest⟩, hend, hfinish⟩ := h
  obtain ⟨rfl, fraction, htext, hdigits, hlen, rfl⟩ := readEnd_eq_some hend
  unfold finishMoney at hfinish
  split at hfinish
  · cases hfinish
  · next hgood =>
    cases hfinish
    refine ⟨(cStr str).takeWhile isSpace, ((cStr str).dropWhile isSpace).takeWhile isDigit, fraction, rest,
      ⟨?_, fun c hc => List.mem_takeWhile_imp hc, fun c hc => List.mem_takeWhile_imp hc, hdigits, hlen,
        fun c hc => ?_⟩, rfl⟩
    · rw [← htext, List.takeWhile_append_dropWhile, List.takeWhile_append_dropWhile]
    · by_contra hspace
      exact hgood (.inl (List.any_eq_true.mpr ⟨c, hc, by simpa using hspace⟩))

/-! ### The text of an amount -/

theorem trimZeros_cons (c : UInt8) (str : List UInt8) :
    trimZeros (c :: str) = c :: str ∨ c = 48 ∧ trimZeros (c :: str) = trimZeros str := by
  match str with
  | [] => exact .inl rfl
  | [d] => exact .inl rfl
  | d :: e :: str =>
    rw [trimZeros]
    split
    · next hzero => exact .inr ⟨hzero.1, rfl⟩
    · exact .inl rfl

theorem trimZeros_append (digits whole : List UInt8) : ∃ k rest, digits = List.replicate k 48 ++ rest ∧
      trimZeros (digits ++ 46 :: whole) = rest ++ 46 :: whole := by
  induction digits with
  | nil =>
    refine ⟨0, [], rfl, ?_⟩
    rcases trimZeros_cons 46 whole with hkeep | ⟨hzero, -⟩
    · exact hkeep
    · cases hzero
  | cons c digits ih =>
    rcases trimZeros_cons c (digits ++ 46 :: whole) with hkeep | ⟨rfl, hdrop⟩
    · exact ⟨0, c :: digits, rfl, hkeep⟩
    · obtain ⟨k, rest, hdigits, hrest⟩ := ih
      refine ⟨k + 1, rest, ?_, hdrop.trans hrest⟩
      rw [hdigits, List.replicate_succ, List.cons_append]

/-- **The text of an amount**: its whole coins, and the decimals without some zeros at the end. -/
theorem formatMoney_eq {n : Int} (hn : 0 ≤ n) : ∃ k fraction,
    printPadded COIN_DECIMALS (n % COIN).natAbs = fraction ++ List.replicate k 48 ∧
      formatMoney n false = printNat (n / COIN).natAbs ++ 46 :: fraction := by
  have habs : (if n > 0 then n else -n) = n := by split <;> omega
  have hquotient : printInt (n / COIN) = printNat (n / COIN).natAbs := by
    have hnonneg : ¬ n / COIN < 0 := not_lt.mpr (Int.ediv_nonneg hn (by decide))
    rw [printInt, if_neg hnonneg]
  obtain ⟨k, rest, hdigits, htrim⟩ := trimZeros_append
    (printPadded COIN_DECIMALS (n % COIN).natAbs).reverse (printNat (n / COIN).natAbs).reverse
  refine ⟨k, rest.reverse, ?_, ?_⟩
  · have hback := congrArg List.reverse hdigits
    rwa [List.reverse_reverse, List.reverse_append, List.reverse_replicate] at hback
  · unfold formatMoney
    dsimp only
    rw [habs, if_neg (by omega), Bool.false_and, if_neg Bool.false_ne_true, hquotient, List.reverse_append,
      List.reverse_cons, List.append_assoc, List.singleton_append, htrim]
    simp

/-- **What `ParseMoney` makes of the text of an amount.** -/
theorem parseMoney_formatMoney {n : Int} (hn : 0 ≤ n) : parseMoney (formatMoney n false) =
      .ok (if (printNat (n / COIN).natAbs).length > 10 then none else some n) := by
  obtain ⟨k, fraction, hpadded, htext⟩ := formatMoney_eq hn
  have hremainder : (n % COIN).natAbs < 10 ^ 6 := by
    have hcoin : COIN = 1000000 := rfl
    have hlt := Int.emod_lt_of_pos n (show 0 < COIN by decide)
    have hnonneg := Int.emod_nonneg n (show COIN ≠ 0 by decide)
    omega
  have hlength := length_printPadded (show 0 < COIN_DECIMALS by decide) hremainder
  have hvalue := value_printPadded COIN_DECIMALS (n % COIN).natAbs
  have hdigits : ∀ c ∈ fraction, isDigit c = true := fun c hc =>
    isDigit_of_mem_printPadded (hpadded ▸ List.mem_append_left _ hc)
  rw [hpadded, List.length_append, List.length_replicate] at hlength
  rw [hpadded, value_append, value_replicate_zero, List.length_replicate, add_zero] at hvalue
  have hwhole : ∀ c ∈ printNat (n / COIN).natAbs, isDigit c = true := fun c => isDigit_of_mem_printNat
  have hsum : ((n / COIN).natAbs : Int) * COIN + ((n % COIN).natAbs : Nat) = n := by
    have hcoin : COIN = 1000000 := rfl
    rw [hcoin] at *
    omega
  -- the parser finds the parts of the text
  obtain ⟨b, tail, hprint, hb⟩ := printNat_eq_cons (n / COIN).natAbs
  have hcoins := value_printNat (n / COIN).natAbs
  generalize printNat (n / COIN).natAbs = whole at hwhole htext hprint hcoins ⊢
  have hnozero : cStr (whole ++ 46 :: fraction) = whole ++ 46 :: fraction := by
    refine cStr_eq_self fun c hc => ?_
    rcases List.mem_append.mp hc with hc | hc
    · exact ne_zero_of_isDigit (hwhole c hc)
    · rcases List.mem_cons.mp hc with rfl | hc
      · decide
      · exact ne_zero_of_isDigit (hdigits c hc)
  have hblank : (whole ++ 46 :: fraction).dropWhile isSpace = whole ++ 46 :: fraction := by
    rw [hprint]
    exact dropWhile_isSpace_eq_self fun c hc => Option.some.inj hc ▸ not_isSpace_of_isDigit hb
  have htake : (whole ++ 46 :: fraction).takeWhile isDigit = whole := by
    rw [List.takeWhile_append_of_pos hwhole, List.takeWhile_cons_of_neg (by decide), List.append_nil]
  have hdrop : (whole ++ 46 :: fraction).dropWhile isDigit = 46 :: fraction := by
    rw [List.dropWhile_append_of_pos hwhole, List.dropWhile_cons_of_neg (by decide)]
  have hfraction : (fraction.takeWhile isDigit).take COIN_DECIMALS = fraction := by
    rw [List.takeWhile_eq_self_iff.mpr hdigits, List.take_of_length_le (by omega)]
  have hk : COIN_DECIMALS - fraction.length = k := by omega
  have hend : readEnd whole (46 :: fraction) = some (whole, (((n % COIN).natAbs : Nat) : Int), []) := by
    simp only [readEnd, if_true, hfraction, hk, hvalue, List.drop_length]
  rw [parseMoney_eq, htext, hnozero, hblank, htake, hdrop, hend, Option.bind_some, finishMoney]
  simp only [List.any_nil, Bool.false_eq_true, false_or, hcoins, hsum]

/-- **Amounts as text.** An amount is parsed back from its text if and only if it has ten digits at most
before the point. -/
theorem moneyStrings_iff {n : Int} (hnonneg : 0 ≤ n) (str : List UInt8) :
    MoneyStrings n str ↔ n < 10 ^ 10 * COIN := by
  have hback := parseMoney_formatMoney hnonneg
  have hlength := length_printNat_le_iff (n := (n / COIN).natAbs) (show 0 < 10 by decide)
  have hten : (n / COIN).natAbs < 10 ^ 10 ↔ n < 10 ^ 10 * COIN := by
    have hcoin : COIN = 1000000 := rfl
    rw [hcoin]
    omega
  rw [← hten, ← hlength]
  constructor
  · intro h
    by_contra hlong
    have hrestored := h.restored
    rw [hback, if_pos (not_le.mp hlong)] at hrestored
    cases hrestored
  · intro hshort
    rw [if_neg (not_lt.mpr hshort)] at hback
    exact ⟨hback, fun _ => parseMoney_exact, _, parseMoney_eq str⟩

theorem moneyStrings_coin : MoneyStrings COIN [49, 46, 53] :=
  (moneyStrings_iff (n := COIN) (by decide) [49, 46, 53]).mpr (by decide)

/-- Ten thousand million coins. -/
theorem not_moneyStrings_sample :
    0 ≤ 10 ^ 10 * COIN ∧ 10 ^ 10 * COIN ≤ MAX_MONEY ∧ ¬ MoneyStrings (10 ^ 10 * COIN) [] := by
  refine ⟨by decide, by decide, fun h => ?_⟩
  have hrestored := h.restored
  have hlong : (printNat (10 ^ 10 * COIN / COIN).natAbs).length > 10 :=
    not_le.mp ((length_printNat_le_iff (by decide)).not.mpr (by decide))
  rw [parseMoney_formatMoney (by decide), if_pos hlong] at hrestored
  cases hrestored

end MoneyString

end Manna
