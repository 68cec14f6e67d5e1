import Manna.Coins
import Manna.TxOutCodec
import Mathlib.Algebra.Order.BigOperators.Group.List

/-!
Serialization of coin records (`main.h`: `CCoins::CalcMaskSize`, `GetSerializeSize`,
`Serialize`, `Unserialize`).

A record is its version, a header code, a bitmask that says which outputs are unspent,
those outputs, and the height. The code counts the non-zero bytes of the bitmask, less one
when both of the first outputs are spent, so a reader stops at the last non-zero byte.

* `CCoins.unserialize_serialize`: a record that is not pruned and has no spent output at
  its end is read back from exactly the bytes written, and `GetSerializeSize` counts them.
-/

namespace Manna

open Codec

namespace CCoins

/-- One byte of the bitmask is not zero: an output of the eight is unspent. -/
def maskByteUsed (coins : CCoins) (b : Nat) : Bool :=
  (List.range 8).any fun i => coins.isAvailable (2 + b * 8 + i)

/-- The loop of `CalcMaskSize` after so many rounds: `nLastUsedByte`, `nNonzeroBytes`. -/
def maskSizeLoop (coins : CCoins) : Nat → Nat × Nat
  | 0 => (0, 0)
  | b + 1 =>
    if coins.maskByteUsed b then (b + 1, (coins.maskSizeLoop b).2 + 1) else coins.maskSizeLoop b

/-- `CalcMaskSize`: the bytes of the bitmask and the number of non-zero ones. The loop
runs while `2 + b * 8 < vout.size()`. -/
def calcMaskSize (coins : CCoins) : Nat × Nat := coins.maskSizeLoop ((coins.vout.length + 5) / 8)

/-- The first output is unspent. -/
def fFirst (coins : CCoins) : Bool := coins.isAvailable 0

/-- The second output is unspent. -/
def fSecond (coins : CCoins) : Bool := coins.isAvailable 1

def headerCode (coins : CCoins) : Nat :=
  (8 * (coins.calcMaskSize.2 - if coins.fFirst || coins.fSecond then 0 else 1) +
    (if coins.fCoinBase then 1 else 0) + (if coins.fFirst then 2 else 0) +
      if coins.fSecond then 4 else 0) % 2 ^ 32

/-- `chAvail` of one byte of the bitmask. -/
def chAvail (coins : CCoins) (b : Nat) : UInt8 :=
  packByte fun i => coins.isAvailable (2 + b * 8 + i)

/-- The assertion of `GetSerializeSize` and `Serialize`. -/
def hasOutput (coins : CCoins) : Bool :=
  coins.fFirst || coins.fSecond || decide (coins.calcMaskSize.2 ≠ 0)

/-- The unspent outputs, in order. -/
def unspent (coins : CCoins) : List CTxOut := coins.vout.filter fun txout => !txout.isNull

/-- `GetSerializeSize`; `none` where the assertion fails. -/
def getSerializeSize (keys : PubKeyOps) (coins : CCoins) : Option Nat :=
  if coins.hasOutput then
    some ((getSizeOfVarInt coins.nVersion + getSizeOfVarInt coins.headerCode +
      coins.calcMaskSize.1 + (coins.unspent.map (CTxOutCompressor.getSerializeSize keys)).sum +
        getSizeOfVarInt coins.nHeight) % 2 ^ 32)
  else none

/-- `Serialize`; `none` where the assertion fails. -/
def serialize (keys : PubKeyOps) (coins : CCoins) : Option (List UInt8) :=
  if coins.hasOutput then
    some (writeVarInt coins.nVersion ++ (writeVarInt coins.headerCode ++
      ((List.range coins.calcMaskSize.1).map coins.chAvail ++
        (coins.unspent.flatMap (CTxOutCompressor.serialize keys) ++ writeVarInt coins.nHeight))))
  else none

/-- The loop of `Unserialize` over the bitmask: `nMaskCode` non-zero bytes are left. -/
def unserializeMask : Nat → Reader (List Bool)
  | 0, s => some ([], s)
  | _ + 1, [] => none
  | nMaskCode + 1, chAvail :: s =>
    (unserializeMask (if chAvail ≠ 0 then nMaskCode else nMaskCode + 1) s).map
      fun out => (unpackByte chAvail ++ out.1, out.2)

def unserialize (keys : PubKeyOps) : Reader CCoins := do
  let nVersion ← readVarIntSigned
  let nCode ← readVarInt 32
  let vMask ← unserializeMask (nCode / 8 + if nCode &&& 6 ≠ 0 then 0 else 1)
  let vout ← (nCode.testBit 1 :: nCode.testBit 2 :: vMask).mapM fun fAvail =>
    if fAvail then CTxOutCompressor.unserialize keys CTxOut.null else pure CTxOut.null
  let nHeight ← readVarIntSigned
  return cleanup ⟨nCode.testBit 0, vout, nHeight, nVersion⟩

/-! ### What the bitmask says -/

variable {coins : CCoins}

theorem chAvail_eq_zero_iff (b : Nat) : coins.chAvail b = 0 ↔ coins.maskByteUsed b = false :=
  packByte_eq_zero_iff _

theorem maskByteUsed_of_isAvailable {i : Nat} (h : coins.isAvailable (2 + i) = true) :
    coins.maskByteUsed (i / 8) = true := by
  rw [maskByteUsed, List.any_eq_true]
  refine ⟨i % 8, List.mem_range.mpr (Nat.mod_lt _ (by decide)), ?_⟩
  rwa [show 2 + i / 8 * 8 + i % 8 = 2 + i by omega]

/-- What the loop has counted: a byte in use is below `nLastUsedByte`, the byte under it
is in use, and no byte between it and the end of the loop changes the count. -/
structure MaskSize (coins : CCoins) (rounds : Nat) (out : Nat × Nat) : Prop where
  le : out.1 ≤ rounds
  lt_of_used : ∀ b, b < rounds → coins.maskByteUsed b = true → b < out.1
  used : ∀ b, out.1 = b + 1 → coins.maskByteUsed b = true
  count : ∀ m, out.1 ≤ m → m ≤ rounds → (List.range m).countP coins.maskByteUsed = out.2

theorem maskSize_loop (coins : CCoins) (rounds : Nat) :
    MaskSize coins rounds (coins.maskSizeLoop rounds) := by
  induction rounds with
  | zero =>
    exact ⟨Nat.le_refl 0, fun b hb => absurd hb (Nat.not_lt_zero b),
      fun b hb => absurd hb (Nat.succ_ne_zero b).symm, fun m _ hm => by
        rw [Nat.le_zero.mp hm]; rfl⟩
  | succ n ih =>
    obtain ⟨hle, hlt, hused, hcount⟩ := ih
    by_cases hn : coins.maskByteUsed n = true
    · rw [maskSizeLoop, if_pos hn]
      refine ⟨Nat.le_refl _, fun b hb _ => hb, fun b hb => ?_, fun m hm hm' => ?_⟩
      · cases hb
        exact hn
      · cases Nat.le_antisymm hm hm'
        rw [List.range_succ, List.countP_append, hcount n hle (Nat.le_refl n)]
        simp [hn]
    · rw [maskSizeLoop, if_neg hn]
      refine ⟨Nat.le_succ_of_le hle, fun b hb hb' => ?_, hused, fun m hm hm' => ?_⟩
      · rcases Nat.lt_succ_iff_lt_or_eq.mp hb with hb | rfl
        · exact hlt b hb hb'
        · exact absurd hb' hn
      · rcases Nat.le_succ_iff.mp hm' with hm' | rfl
        · exact hcount m hm hm'
        · rw [List.range_succ, List.countP_append, hcount n hle (Nat.le_refl n)]
          simp [hn]

/-- **A bitmask is read back** when its last byte is not zero. -/
theorem reads_unserializeMask : ∀ {mask : List UInt8}, (∀ b, mask.getLast? = some b → b ≠ 0) →
    Reads (unserializeMask (mask.countP (· ≠ 0))) mask (mask.flatMap unpackByte)
  | [], _ => fun rest => by rw [List.countP_nil, unserializeMask]; rfl
  | chAvail :: mask, hlast => by
    intro rest
    have htail : ∀ b, mask.getLast? = some b → b ≠ 0 := fun b hb => hlast b (by
      rw [List.getLast?_cons, hb]
      rfl)
    have ih := reads_unserializeMask htail rest
    by_cases hzero : chAvail = 0
    · -- a zero byte is not the last one, so another non-zero byte follows
      have hpos : mask.countP (· ≠ 0) ≠ 0 := by
        cases hm : mask.getLast? with
        | none =>
          rw [List.getLast?_eq_none_iff.mp hm] at hlast
          exact absurd hzero (hlast chAvail rfl)
        | some b =>
          apply Nat.pos_iff_ne_zero.mp
          exact List.countP_pos_iff.mpr
            ⟨b, List.mem_of_getLast? hm, decide_eq_true (htail b hm)⟩
      obtain ⟨n, hn⟩ := Nat.exists_eq_succ_of_ne_zero hpos
      have hcount : (chAvail :: mask).countP (· ≠ 0) = n + 1 := by
        rw [List.countP_cons_of_neg (by simpa using hzero), hn]
      rw [hn] at ih
      rw [hcount, List.cons_append, unserializeMask, if_neg (by simpa using hzero), ih]
      rfl
    · have hcount : (chAvail :: mask).countP (· ≠ 0) = mask.countP (· ≠ 0) + 1 :=
        List.countP_cons_of_pos (by simpa using hzero)
      rw [hcount, List.cons_append, unserializeMask, if_pos hzero, ih]
      rfl

theorem testBits_code (m : Nat) (fCoinBase fFirst fSecond : Bool) :
    let nCode := 8 * m + (if fCoinBase then 1 else 0) + (if fFirst then 2 else 0) +
      if fSecond then 4 else 0
    nCode.testBit 0 = fCoinBase ∧ nCode.testBit 1 = fFirst ∧ nCode.testBit 2 = fSecond ∧
      nCode / 8 = m ∧ (nCode &&& 6 ≠ 0 ↔ (fFirst || fSecond) = true) := by
  intro nCode
  have hlow : nCode &&& 6 = (nCode % 8) &&& 6 := by
    have hle : nCode &&& 6 ≤ 6 := Nat.and_le_right
    have hand := Nat.and_mod_two_pow (a := nCode) (b := 6) (n := 3)
    rwa [Nat.mod_eq_of_lt (show (nCode &&& 6) < 2 ^ 3 by omega)] at hand
  have hmod : nCode % 8 = (if fCoinBase then 1 else 0) + (if fFirst then 2 else 0) +
      if fSecond then 4 else 0 := by
    simp only [nCode]
    split_ifs <;> omega
  refine ⟨?_, ?_, ?_, ?_, ?_⟩
  · rw [Nat.testBit_eq_decide_div_mod_eq]
    simp only [nCode]
    cases fCoinBase <;> cases fFirst <;> cases fSecond <;> simp <;> omega
  · rw [Nat.testBit_eq_decide_div_mod_eq]
    simp only [nCode]
    cases fCoinBase <;> cases fFirst <;> cases fSecond <;> simp <;> omega
  · rw [Nat.testBit_eq_decide_div_mod_eq]
    simp only [nCode]
    cases fCoinBase <;> cases fFirst <;> cases fSecond <;> simp <;> omega
  · simp only [nCode]
    split_ifs <;> omega
  · rw [hlow, hmod]
    cases fCoinBase <;> cases fFirst <;> cases fSecond <;> decide

/-- **The reader finds the number of non-zero bytes again.** -/
theorem headerCode_spec (hsome : coins.hasOutput = true) (hlen : coins.vout.length + 12 < 2 ^ 32) :
    coins.headerCode.testBit 0 = coins.fCoinBase ∧ coins.headerCode.testBit 1 = coins.fFirst ∧
      coins.headerCode.testBit 2 = coins.fSecond ∧
        (coins.headerCode / 8 + if coins.headerCode &&& 6 ≠ 0 then 0 else 1) = coins.calcMaskSize.2 := by
  have hloop := maskSize_loop coins ((coins.vout.length + 5) / 8)
  have hbound : coins.calcMaskSize.2 ≤ (coins.vout.length + 5) / 8 := by
    have hcount := hloop.count _ hloop.le (Nat.le_refl _)
    rw [calcMaskSize, ← hcount]
    exact le_trans List.countP_le_length (Nat.le_of_eq List.length_range)
  obtain ⟨hzero, hone, htwo, hrest, hsix⟩ := testBits_code
    (coins.calcMaskSize.2 - if coins.fFirst || coins.fSecond then 0 else 1) coins.fCoinBase
    coins.fFirst coins.fSecond
  have hcode : coins.headerCode = 8 * (coins.calcMaskSize.2 -
      if coins.fFirst || coins.fSecond then 0 else 1) + (if coins.fCoinBase then 1 else 0) +
        (if coins.fFirst then 2 else 0) + if coins.fSecond then 4 else 0 := by
    apply Nat.mod_eq_of_lt
    split_ifs <;> omega
  rw [← hcode] at hzero hone htwo hrest hsix
  refine ⟨hzero, hone, htwo, ?_⟩
  rw [hrest]
  by_cases hany : (coins.fFirst || coins.fSecond) = true
  · rw [if_pos hany, if_pos (hsix.mpr hany)]
    rfl
  · have hne : coins.calcMaskSize.2 ≠ 0 := by
      rw [hasOutput, Bool.or_eq_true] at hsome
      exact of_decide_eq_true (hsome.resolve_left hany)
    rw [if_neg hany, if_neg fun h => hany (hsix.mp h)]
    omega

/-- The outputs the reader makes room for. -/
def room (coins : CCoins) (n : Nat) : List CTxOut :=
  (List.range n).map fun i => coins.vout[i]?.getD CTxOut.null

theorem isAvailable_eq (coins : CCoins) (i : Nat) :
    coins.isAvailable i = !(coins.vout[i]?.getD CTxOut.null).isNull := by
  unfold isAvailable
  cases coins.vout[i]? <;> rfl

theorem room_eq {n : Nat} (hn : coins.vout.length ≤ n) :
    coins.room n = coins.vout ++ List.replicate (n - coins.vout.length) CTxOut.null := by
  apply List.ext_getElem?
  intro i
  rw [room, List.getElem?_map, List.getElem?_append]
  by_cases hi : i < coins.vout.length
  · rw [if_pos hi, List.getElem?_range (by omega), Option.map_some,
      List.getElem?_eq_getElem hi]
    rfl
  · rw [if_neg hi, List.getElem?_replicate]
    by_cases hin : i < n
    · rw [if_pos (by omega), List.getElem?_range hin, Option.map_some,
        List.getElem?_eq_none (Nat.not_lt.mp hi)]
      rfl
    · rw [if_neg (by omega), List.getElem?_eq_none (by rw [List.length_range]; omega)]
      rfl

theorem rdropWhile_replicate (vout : List CTxOut) (n : Nat) :
    (vout ++ List.replicate n CTxOut.null).rdropWhile CTxOut.isNull = vout.rdropWhile CTxOut.isNull := by
  induction n with
  | zero => rw [List.replicate_zero, List.append_nil]
  | succ n ih =>
    rw [List.replicate_succ', ← List.append_assoc, List.rdropWhile_concat_pos _ _ _ rfl, ih]

/-- `Cleanup` takes the room off again. -/
theorem cleanup_room {n : Nat} (hclean : coins.Clean) (hn : coins.vout.length ≤ n) :
    cleanup { coins with vout := coins.room n } = coins := by
  have hself : coins.vout.rdropWhile CTxOut.isNull = coins.vout := by
    rw [List.rdropWhile_eq_self_iff]
    intro hne hnull
    rw [hclean hne] at hnull
    cases hnull
  show { coins with vout := (coins.room n).rdropWhile CTxOut.isNull } = coins
  rw [room_eq hn, rdropWhile_replicate, hself]

/-- The bytes of an output as they stand in a record: none for a spent one. -/
def outputBytes (keys : PubKeyOps) (txout : CTxOut) : List UInt8 :=
  if txout.isNull then [] else CTxOutCompressor.serialize keys txout

theorem flatMap_outputBytes (keys : PubKeyOps) (vout : List CTxOut) : vout.flatMap (outputBytes keys) =
      (vout.filter fun txout => !txout.isNull).flatMap (CTxOutCompressor.serialize keys) := by
  induction vout with
  | nil => rfl
  | cons txout vout ih =>
    rw [List.flatMap_cons, ih, outputBytes]
    cases hnull : txout.isNull <;> simp [hnull]

theorem flatMap_outputBytes_room {n : Nat} (keys : PubKeyOps) (hn : coins.vout.length ≤ n) :
    (coins.room n).flatMap (outputBytes keys) = coins.unspent.flatMap (CTxOutCompressor.serialize keys) := by
  rw [room_eq hn, List.flatMap_append, flatMap_outputBytes, flatMap_outputBytes, unspent]
  simp

/-! ### The record -/

/-- Every output is spent or has a value of the money range: how a record looks when its
outputs come from a checked transaction and are spent by `SetNull`. -/
def OutputsInRange (coins : CCoins) : Prop :=
  ∀ txout ∈ coins.vout, txout = CTxOut.null ∨ moneyRange txout.nValue = true

/-- The memory the outputs take: an amount and a vector each, and the scripts. -/
def outputsSize (coins : CCoins) : Nat :=
  (coins.vout.map fun txout => 32 + txout.scriptPubKey.length).sum

theorem length_le_outputsSize (vout : List CTxOut) :
    (vout.map fun txout => 32 + txout.scriptPubKey.length).sum =
      32 * vout.length + (vout.map fun txout => txout.scriptPubKey.length).sum := by
  induction vout with
  | nil => rfl
  | cons txout vout ih =>
    rw [List.map_cons, List.sum_cons, ih, List.map_cons, List.sum_cons, List.length_cons]
    omega

theorem length_le_of_mem {txout : CTxOut} (h : txout ∈ coins.vout) :
    32 + txout.scriptPubKey.length ≤ coins.outputsSize :=
  List.single_le_sum (fun _ _ => Nat.zero_le _) _
    (List.mem_map_of_mem (f := fun txout => 32 + txout.scriptPubKey.length) h)

theorem isNull_of_moneyRange {txout : CTxOut} (h : moneyRange txout.nValue = true) :
    txout.isNull = false := by
  obtain ⟨hnonneg, -⟩ := moneyRange_iff.mp h
  rw [CTxOut.isNull, beq_eq_false_iff_ne]
  omega

/-- The bitmask and the first two outputs reach to the end of a clean record. -/
theorem length_le_calcMaskSize (hclean : coins.Clean) : coins.vout.length ≤ 2 + coins.calcMaskSize.1 * 8 := by
  by_contra hlt
  have hne : coins.vout ≠ [] := by
    intro hnil
    rw [hnil] at hlt
    exact hlt (Nat.zero_le _)
  have hlast : coins.isAvailable (2 + (coins.vout.length - 3)) = true := by
    have hindex : 2 + (coins.vout.length - 3) = coins.vout.length - 1 := by omega
    rw [isAvailable_eq, hindex, List.getElem?_eq_getElem (by omega), Option.getD_some,
      ← List.getLast_eq_getElem hne, hclean hne]
    rfl
  have hused := maskByteUsed_of_isAvailable hlast
  have hbelow := (maskSize_loop coins _).lt_of_used ((coins.vout.length - 3) / 8)
    (by omega : _ < (coins.vout.length + 5) / 8) hused
  rw [calcMaskSize] at hlt
  omega

theorem hasOutput_of_not_isPruned (h : coins.isPruned = false) : coins.hasOutput = true := by
  have hsome : ∃ i, coins.isAvailable i = true := by
    by_contra hnone
    push Not at hnone
    have hpruned : coins.isPruned = true := isPruned_iff.mpr fun n => by
      have hn := hnone n
      rw [ne_eq, isAvailable_iff, Bool.not_eq_true, Option.isSome_eq_false_iff,
        Option.isNone_iff_eq_none] at hn
      exact hn
    rw [h] at hpruned
    cases hpruned
  obtain ⟨i, hi⟩ := hsome
  rw [hasOutput, fFirst, fSecond]
  match i, hi with
  | 0, hi => simp [hi]
  | 1, hi => simp [hi]
  | j + 2, hi =>
    have hi' : coins.isAvailable (2 + j) = true := by rwa [Nat.add_comm]
    have hused := maskByteUsed_of_isAvailable hi'
    have hlt : j / 8 < (coins.vout.length + 5) / 8 := by
      have hj : j + 2 < coins.vout.length := by
        by_contra hge
        rw [isAvailable_eq, List.getElem?_eq_none (Nat.not_lt.mp hge)] at hi
        cases hi
      omega
    have hloop := maskSize_loop coins ((coins.vout.length + 5) / 8)
    have hcount := hloop.count _ hloop.le (Nat.le_refl _)
    have hpos : 0 < coins.calcMaskSize.2 := by
      rw [calcMaskSize, ← hcount]
      exact List.countP_pos_iff.mpr ⟨j / 8, List.mem_range.mpr hlt, hused⟩
    simp [Nat.pos_iff_ne_zero.mp hpos]

section RoundTrip

variable {keys : PubKeyOps}

/-- An output of the record is read into its place, or none is where it is spent. -/
theorem reads_outputBytes (hkeys : keys.Lawful) (hrange : coins.OutputsInRange)
    (hsize : coins.outputsSize < 2 ^ 32) {n : Nat} {txout : CTxOut} (hmem : txout ∈ coins.room n) :
    Reads (if !txout.isNull then CTxOutCompressor.unserialize keys CTxOut.null
      else pure CTxOut.null) (outputBytes keys txout) txout := by
  obtain ⟨i, -, rfl⟩ := List.mem_map.mp hmem
  cases hget : coins.vout[i]? with
  | none => exact Reads.pure CTxOut.null
  | some txout =>
    rw [Option.getD_some]
    have hin := List.mem_of_getElem? hget
    rcases hrange txout hin with rfl | hvalue
    · exact Reads.pure CTxOut.null
    · have hlen := length_le_of_mem hin
      have hsix : CScriptCompressor.nSpecialScripts = 6 := rfl
      rw [outputBytes, isNull_of_moneyRange hvalue]
      exact CTxOutCompressor.reads_serialize hkeys hvalue (by omega) CTxOut.null

theorem reads_mask (coins : CCoins) : Reads (unserializeMask coins.calcMaskSize.2)
      ((List.range coins.calcMaskSize.1).map coins.chAvail)
      ((List.range (coins.calcMaskSize.1 * 8)).map fun i => coins.isAvailable (2 + i)) := by
  have hloop := maskSize_loop coins ((coins.vout.length + 5) / 8)
  have hcount : ((List.range coins.calcMaskSize.1).map coins.chAvail).countP (· ≠ 0) =
      coins.calcMaskSize.2 := by
    rw [List.countP_map]
    refine (List.countP_congr fun b _ => ?_).trans (hloop.count _ (Nat.le_refl _) hloop.le)
    have hzero : coins.chAvail b = 0 ↔ coins.maskByteUsed b = false := chAvail_eq_zero_iff b
    cases hused : coins.maskByteUsed b <;> simp [hzero, hused]
  have hlast : ∀ byte, ((List.range coins.calcMaskSize.1).map coins.chAvail).getLast? = some byte →
      byte ≠ 0 := by
    intro byte hbyte
    rw [List.getLast?_map, List.getLast?_range] at hbyte
    split at hbyte
    · cases hbyte
    · rw [Option.map_some, Option.some.injEq] at hbyte
      rw [← hbyte, ne_eq, chAvail_eq_zero_iff, Bool.not_eq_false]
      exact hloop.used _ (by rw [← calcMaskSize]; omega)
  have hread := reads_unserializeMask hlast
  have hflat := flatMap_unpackByte (fun i => coins.isAvailable (2 + i)) coins.calcMaskSize.1
  simp only [← Nat.add_assoc] at hflat
  rwa [hcount, show ((List.range coins.calcMaskSize.1).map coins.chAvail).flatMap unpackByte = _
    from hflat] at hread

theorem flags_eq (coins : CCoins) (n : Nat) :
    (coins.fFirst :: coins.fSecond :: (List.range n).map fun i => coins.isAvailable (2 + i)) =
      (coins.room (2 + n)).map fun txout => !txout.isNull := by
  rw [room, List.map_map, List.range_add, List.map_append, List.map_map]
  simp only [Function.comp_def, ← isAvailable_eq]
  rfl

/-- **What is written is read back.** -/
theorem reads_serialize (hkeys : keys.Lawful) {bytes : List UInt8}
    (hbytes : coins.serialize keys = some bytes) (hclean : coins.Clean)
    (hversion : 0 ≤ coins.nVersion ∧ coins.nVersion < 2 ^ 31)
    (hheight : 0 ≤ coins.nHeight ∧ coins.nHeight < 2 ^ 31) (hrange : coins.OutputsInRange)
    (hsize : coins.outputsSize < 2 ^ 32) : Reads (unserialize keys) bytes coins := by
  unfold serialize at hbytes
  split_ifs at hbytes with hsome
  cases hbytes
  have hroom := length_le_calcMaskSize hclean
  have hlen : 32 * coins.vout.length ≤ coins.outputsSize := by
    rw [outputsSize, length_le_outputsSize]
    exact Nat.le_add_right _ _
  obtain ⟨hcb, hfirst, hsecond, hmask⟩ := headerCode_spec hsome (by omega)
  have hcode : Reads (readVarInt 32) (writeVarInt coins.headerCode) coins.headerCode :=
    reads_writeVarInt (by omega) (by
      have := Nat.mod_lt (8 * (coins.calcMaskSize.2 -
        if coins.fFirst || coins.fSecond then 0 else 1) + (if coins.fCoinBase then 1 else 0) +
          (if coins.fFirst then 2 else 0) + if coins.fSecond then 4 else 0)
            (show 0 < 2 ^ 32 by decide)
      rw [headerCode]
      omega)
  have houts : Reads (((coins.room (2 + coins.calcMaskSize.1 * 8)).map
      fun txout => !txout.isNull).mapM fun fAvail =>
        if fAvail then CTxOutCompressor.unserialize keys CTxOut.null else pure CTxOut.null)
      ((coins.room (2 + coins.calcMaskSize.1 * 8)).flatMap (outputBytes keys))
      ((coins.room (2 + coins.calcMaskSize.1 * 8)).map id) :=
    Reads.mapM fun txout hmem => reads_outputBytes hkeys hrange hsize hmem
  rw [← flags_eq, flatMap_outputBytes_room keys hroom, List.map_id] at houts
  apply (reads_writeVarInt_signed hversion.1 hversion.2).bind
  apply hcode.bind
  rw [hmask, hfirst, hsecond, hcb]
  apply (reads_mask coins).bind
  apply houts.bind
  have hrest := (reads_writeVarInt_signed hheight.1 hheight.2).map (f := fun nHeight =>
    cleanup ⟨coins.fCoinBase, coins.room (2 + coins.calcMaskSize.1 * 8), nHeight, coins.nVersion⟩)
  have hback := cleanup_room hclean hroom
  rwa [hback] at hrest

/-- `GetSerializeSize` counts the bytes of the unspent outputs. -/
theorem sum_getSerializeSize (hrange : coins.OutputsInRange) (hsize : coins.outputsSize < 2 ^ 32) :
    (coins.unspent.map (CTxOutCompressor.getSerializeSize keys)).sum =
      (coins.unspent.flatMap (CTxOutCompressor.serialize keys)).length := by
  rw [List.length_flatMap]
  congr 1
  apply List.map_congr_left
  intro txout hmem
  obtain ⟨hin, hnull⟩ := List.mem_filter.mp hmem
  have hlen := length_le_of_mem hin
  rcases hrange txout hin with rfl | hvalue
  · cases hnull
  · exact CTxOutCompressor.length_serialize hvalue (by omega)

variable (keys) in
theorem length_unspent_le (hrange : coins.OutputsInRange) (hsize : coins.outputsSize < 2 ^ 32) :
    (coins.unspent.flatMap (CTxOutCompressor.serialize keys)).length + 18 * coins.vout.length ≤
      coins.outputsSize := by
  have hsix : CScriptCompressor.nSpecialScripts = 6 := rfl
  have hone : ∀ txout ∈ coins.vout,
      (outputBytes keys txout).length ≤ 14 + txout.scriptPubKey.length := by
    intro txout hin
    have hlen := length_le_of_mem hin
    rcases hrange txout hin with rfl | hvalue
    · exact Nat.zero_le _
    · rw [outputBytes, isNull_of_moneyRange hvalue]
      have hle := CTxOutCompressor.length_serialize_le keys hvalue (by omega)
      exact le_trans hle (Nat.le_of_eq (Nat.add_comm _ _))
  have hsum := List.sum_le_sum hone
  rw [unspent, ← flatMap_outputBytes, List.length_flatMap, outputsSize, length_le_outputsSize]
  have hsplit : ∀ vout : List CTxOut, (vout.map fun txout => 14 + txout.scriptPubKey.length).sum =
      14 * vout.length + (vout.map fun txout => txout.scriptPubKey.length).sum := by
    intro vout
    induction vout with
    | nil => rfl
    | cons txout vout ih =>
      rw [List.map_cons, List.sum_cons, ih, List.map_cons, List.sum_cons, List.length_cons]
      omega
  rw [hsplit] at hsum
  omega

/-- **The size is the number of bytes written.** -/
theorem getSerializeSize_eq {bytes : List UInt8} (hbytes : coins.serialize keys = some bytes)
    (hversion : 0 ≤ coins.nVersion ∧ coins.nVersion < 2 ^ 31)
    (hheight : 0 ≤ coins.nHeight ∧ coins.nHeight < 2 ^ 31) (hrange : coins.OutputsInRange)
    (hsize : coins.outputsSize < 2 ^ 32) : coins.getSerializeSize keys = some bytes.length := by
  unfold serialize at hbytes
  split_ifs at hbytes with hsome
  cases hbytes
  have houts := length_unspent_le keys hrange hsize
  have hne : 0 < coins.vout.length := by
    by_contra hzero
    have hnil := List.length_eq_zero_iff.mp (Nat.le_zero.mp (Nat.not_lt.mp hzero))
    have hnone : ∀ i, coins.isAvailable i = false := fun i => by
      rw [isAvailable_eq, hnil]
      rfl
    rw [hasOutput, fFirst, fSecond, hnone, hnone, calcMaskSize, hnil] at hsome
    cases hsome
  have hmask : coins.calcMaskSize.1 ≤ (coins.vout.length + 5) / 8 := (maskSize_loop coins _).le
  have hversion5 : getSizeOfVarInt coins.nVersion ≤ 5 := getSizeOfVarInt_le (k := 4) (by omega)
  have hheight5 : getSizeOfVarInt coins.nHeight ≤ 5 := getSizeOfVarInt_le (k := 4) (by omega)
  have hcode5 : getSizeOfVarInt coins.headerCode ≤ 5 := by
    apply getSizeOfVarInt_le (k := 4)
    have hlt : coins.headerCode < 2 ^ 32 := Nat.mod_lt _ (by decide)
    omega
  rw [getSerializeSize, if_pos hsome, sum_getSerializeSize hrange hsize]
  simp only [List.length_append, length_writeVarInt, List.length_map, List.length_range]
  congr 1
  rw [Nat.mod_eq_of_lt (by omega)]
  omega

end RoundTrip

/-- **Coin records survive storage.** A record with an unspent output, none spent at its
end, a version and a height that are not negative and amounts of the money range is
written, read back from exactly the bytes written, and sized by their number. -/
theorem unserialize_serialize {keys : PubKeyOps} (hkeys : keys.Lawful) (coins : CCoins)
    (hpruned : coins.isPruned = false) (hclean : coins.Clean)
    (hversion : 0 ≤ coins.nVersion ∧ coins.nVersion < 2 ^ 31)
    (hheight : 0 ≤ coins.nHeight ∧ coins.nHeight < 2 ^ 31) (hrange : coins.OutputsInRange)
    (hsize : coins.outputsSize < 2 ^ 32) :
    ∃ bytes, coins.serialize keys = some bytes ∧
      (∀ rest, unserialize keys (bytes ++ rest) = some (coins, rest)) ∧
        coins.getSerializeSize keys = some bytes.length := by
  have hsome : ∃ bytes, coins.serialize keys = some bytes := by
    rw [serialize, if_pos (hasOutput_of_not_isPruned hpruned)]
    exact ⟨_, rfl⟩
  obtain ⟨bytes, hbytes⟩ := hsome
  exact ⟨bytes, hbytes,
    reads_serialize hkeys hbytes hclean hversion hheight hrange hsize,
    getSerializeSize_eq hbytes hversion hheight hrange hsize⟩

/-- The x coordinate of the generator of the curve. -/
def sampleX : List UInt8 :=
  [0x79, 0xbe, 0x66, 0x7e, 0xf9, 0xdc, 0xbb, 0xac, 0x55, 0xa0, 0x62, 0x95, 0xce, 0x87, 0x0b, 0x07,
    0x02, 0x9b, 0xfc, 0xdb, 0x2d, 0xce, 0x28, 0xd9, 0x59, 0xf2, 0x81, 0x5b, 0x16, 0xf8, 0x17, 0x98]

def sampleY : List UInt8 :=
  [0x48, 0x3a, 0xda, 0x77, 0x26, 0xa3, 0xc4, 0x65, 0x5d, 0xa4, 0xfb, 0xfc, 0x0e, 0x11, 0x08, 0xa8,
    0xfd, 0x17, 0xb4, 0x48, 0xa6, 0x85, 0x54, 0x19, 0x9c, 0x47, 0xd0, 0x8f, 0xfb, 0x10, 0xd4, 0xb8]

/-- The two operations on the key of the generator. -/
def sampleKeys : PubKeyOps where
  isFullyValid pubkey := pubkey == 0x04 :: (sampleX ++ sampleY)
  decompress key := if key == 0x02 :: sampleX then some (0x04 :: (sampleX ++ sampleY)) else none

theorem sampleKeys_lawful : sampleKeys.Lawful := by
  intro pubkey _ _ hvalid
  rw [eq_of_beq hvalid]
  decide

/-- Outputs 4 and 16 are left: one to an uncompressed key, one with a script of its own. -/
def sampleRecord : CCoins where
  fCoinBase := true
  vout := List.replicate 4 CTxOut.null ++
    ⟨234925952, 65 :: 0x04 :: (sampleX ++ sampleY ++ [0xac])⟩ ::
      (List.replicate 11 CTxOut.null ++ [⟨110397, [0x6a, 0x01, 0x02]⟩])
  nHeight := 120891
  nVersion := 1

theorem unserialize_serialize_sample :
    ∃ bytes, sampleRecord.serialize sampleKeys = some bytes ∧
      (∀ rest, unserialize sampleKeys (bytes ++ rest) = some (sampleRecord, rest)) ∧
        sampleRecord.getSerializeSize sampleKeys = some bytes.length :=
  unserialize_serialize sampleKeys_lawful sampleRecord (by decide) (fun _ => rfl)
    (by decide) (by decide) (by unfold OutputsInRange; decide) (by decide)

end CCoins

end Manna
