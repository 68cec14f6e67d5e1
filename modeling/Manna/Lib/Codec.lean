import Mathlib.Data.List.Basic
import Mathlib.Data.Nat.Bitwise

/-!
Reading values off the front of a byte string.

A `Reader` takes a value off a byte string or fails at its end. `Reads p bytes a` says
that `p` takes `a` off exactly `bytes`, whatever follows them: the law a reader and the
writer it undoes are related by.

* `Reads.bind`, `Reads.mapM`, `Reads.foldlM`: readers in sequence read the concatenation;
* `reads_bytes`: a fixed number of bytes;
* `reads_littleEndian`: numbers of fixed width, least significant byte first.
-/

namespace Codec

/-- A reader of values from a byte string, `none` where the stream ends too early. -/
abbrev Reader := StateT (List UInt8) Option

variable {α β : Type}

/-- **Reading.** The reader takes the value off exactly these bytes. -/
def Reads (p : Reader α) (bytes : List UInt8) (a : α) : Prop :=
  ∀ rest, p (bytes ++ rest) = some (a, rest)

theorem Reads.pure (a : α) : Reads (pure a) [] a := fun _ => rfl

theorem Reads.bind {p : Reader α} {q : α → Reader β} {bs cs : List UInt8} {a : α} {b : β}
    (hp : Reads p bs a) (hq : Reads (q a) cs b) : Reads (p >>= q) (bs ++ cs) b := by
  intro rest
  have hfirst := hp (cs ++ rest)
  rw [← List.append_assoc] at hfirst
  show (p (bs ++ cs ++ rest)).bind (fun out => q out.1 out.2) = some (b, rest)
  rw [hfirst]
  exact hq rest

theorem Reads.map {p : Reader α} {f : α → β} {bs : List UInt8} {a : α} (hp : Reads p bs a) :
    Reads (p >>= fun x => Pure.pure (f x)) bs (f a) := by
  have hmap := hp.bind (q := fun x => Pure.pure (f x)) (Reads.pure (f a))
  rwa [List.append_nil] at hmap

theorem Reads.mapM {γ : Type} {p : γ → Reader β} {f : α → γ} {w : α → List UInt8} {g : α → β} :
    ∀ {l : List α}, (∀ a ∈ l, Reads (p (f a)) (w a) (g a)) →
      Reads ((l.map f).mapM p) (l.flatMap w) (l.map g)
  | [], _ => Reads.pure []
  | a :: l, h => by
    have htail := Reads.mapM fun b hb => h b (List.mem_cons_of_mem a hb)
    simp only [List.map_cons, List.mapM_cons, List.flatMap_cons]
    exact (h a List.mem_cons_self).bind htail.map

theorem Reads.foldlM {ι κ σ : Type} {p : σ → κ → Reader σ} {key : ι → κ} {w : ι → List UInt8}
    {f : σ → ι → σ} : ∀ {l : List ι} {s : σ}, (∀ i ∈ l, ∀ s, Reads (p s (key i)) (w i) (f s i)) →
      Reads ((l.map key).foldlM p s) (l.flatMap w) (l.foldl f s)
  | [], s, _ => Reads.pure s
  | i :: l, s, h => by
    have htail := Reads.foldlM (l := l) (s := f s i) fun j hj => h j (List.mem_cons_of_mem i hj)
    simp only [List.map_cons, List.foldlM_cons, List.flatMap_cons, List.foldl_cons]
    exact (h i List.mem_cons_self s).bind htail

theorem Reads.foldlM_range {ι σ : Type} {p : σ → Nat → Reader σ} {w : ι → List UInt8}
    {f : σ → ι × Nat → σ} {l : List ι} {s : σ} (h : ∀ i ∈ l.zipIdx, ∀ s, Reads (p s i.2) (w i.1) (f s i)) :
    Reads ((List.range l.length).foldlM p s) (l.flatMap w) (l.zipIdx.foldl f s) := by
  have hloop : Reads ((l.zipIdx.map Prod.snd).foldlM p s) (l.zipIdx.flatMap fun i => w i.1)
    (l.zipIdx.foldl f s) := Reads.foldlM h
  rwa [List.zipIdx_map_snd, ← List.range_eq_range', ← List.flatMap_map Prod.fst w, List.zipIdx_map_fst] at hloop

theorem foldl_zipIdx {ι σ : Type} (f : σ → ι → σ) (l : List ι) (n : Nat) (s : σ) :
    (l.zipIdx n).foldl (fun s i => f s i.1) s = l.foldl f s := by
  induction l generalizing n s with
  | nil => rfl
  | cons i l ih => exact ih (n + 1) (f s i)

theorem Reads.foldlM_times {ι σ : Type} {p : σ → Reader σ} {w : ι → List UInt8} {f : σ → ι → σ} {l : List ι}
    {s : σ} (h : ∀ i ∈ l, ∀ s, Reads (p s) (w i) (f s i)) :
    Reads ((List.range l.length).foldlM (fun s _ => p s) s) (l.flatMap w) (l.foldl f s) := by
  have hloop := Reads.foldlM_range (l := l) (p := fun s _ => p s) (f := fun s i => f s i.1) (s := s)
    fun i hi s => h i.1 (List.fst_mem_of_mem_zipIdx hi) s
  rwa [foldl_zipIdx] at hloop

/-- A value that is there under a condition, and has a default otherwise. -/
def readIf (b : Bool) (p : Reader α) (d : α) : Reader α := if b then p else Pure.pure d

theorem Reads.readIf {p : Reader α} {bs : List UInt8} {a d : α} {b : Bool} (h : Reads p bs a) :
    Reads (readIf b p d) (if b then bs else []) (if b then a else d) := by
  cases b with
  | true => exact h
  | false => exact Reads.pure d

def byte : Reader UInt8
  | [] => none
  | b :: rest => some (b, rest)

theorem reads_byte (b : UInt8) : Reads byte [b] b := fun _ => rfl

def bytes (n : Nat) : Reader (List UInt8) := fun s =>
  if s.length < n then none else some (s.take n, s.drop n)

theorem reads_bytes (bs : List UInt8) : Reads (bytes bs.length) bs bs := by
  intro rest
  have hlen : ¬ (bs ++ rest).length < bs.length := by
    rw [List.length_append]
    exact Nat.not_lt.mpr (Nat.le_add_right _ _)
  rw [bytes, if_neg hlen, List.take_left, List.drop_left]

/-! ### Eight flags in a byte -/

/-- Set the bits below `n` whose flags are set. -/
def packBits (flag : Nat → Bool) : Nat → Nat
  | 0 => 0
  | n + 1 => if flag n then packBits flag n ||| 1 <<< n else packBits flag n

theorem testBit_packBits (flag : Nat → Bool) (n p : Nat) :
    (packBits flag n).testBit p = (decide (p < n) && flag p) := by
  induction n with
  | zero => simp [packBits]
  | succ n ih =>
    have hbit : (1 <<< n).testBit p = decide (n = p) := by
      rw [Nat.one_shiftLeft, Nat.testBit_two_pow]
    by_cases hp : n = p
    · subst hp
      cases hflag : flag n <;> simp [packBits, hflag, ih, hbit]
    · have hlt : decide (p < n + 1) = decide (p < n) := by
        rw [decide_eq_decide]
        omega
      rw [hlt]
      cases hflag : flag n <;> simp [packBits, hflag, ih, hbit, hp]

theorem packBits_lt (flag : Nat → Bool) (n : Nat) : packBits flag n < 2 ^ n := by
  apply Nat.lt_pow_two_of_testBit
  intro p hp
  rw [testBit_packBits, decide_eq_false (Nat.not_lt.mpr hp), Bool.false_and]

/-- Eight flags as one byte, the first one in the lowest bit. -/
def packByte (flag : Nat → Bool) : UInt8 := UInt8.ofNat (packBits flag 8)

/-- The eight flags of a byte. -/
def unpackByte (b : UInt8) : List Bool := (List.range 8).map b.toNat.testBit

theorem toNat_packByte (flag : Nat → Bool) : (packByte flag).toNat = packBits flag 8 := by
  rw [packByte, UInt8.toNat_ofNat']
  exact Nat.mod_eq_of_lt (packBits_lt flag 8)

/-- **The flags come back.** -/
theorem unpackByte_packByte (flag : Nat → Bool) : unpackByte (packByte flag) = (List.range 8).map flag := by
  rw [unpackByte, toNat_packByte]
  apply List.map_congr_left
  intro p hp
  rw [testBit_packBits, decide_eq_true (List.mem_range.mp hp), Bool.true_and]

theorem flatMap_unpackByte (flag : Nat → Bool) (n : Nat) :
    ((List.range n).map fun b => packByte fun i => flag (b * 8 + i)).flatMap unpackByte =
      (List.range (n * 8)).map flag := by
  induction n with
  | zero => rfl
  | succ n ih =>
    rw [List.range_succ, List.map_append, List.flatMap_append, ih, Nat.succ_mul, List.range_add,
      List.map_append, List.map_map]
    simp only [List.map_cons, List.map_nil, List.flatMap_cons, List.flatMap_nil,
      List.append_nil, unpackByte_packByte]
    rfl

theorem packByte_eq_zero_iff (flag : Nat → Bool) : packByte flag = 0 ↔ (List.range 8).any flag = false := by
  have hzero : packByte flag = 0 ↔ packBits flag 8 = 0 := by
    rw [← UInt8.toNat_inj, toNat_packByte]
    rfl
  rw [hzero, List.any_eq_false]
  constructor
  · intro h p hp
    have hbit := testBit_packBits flag 8 p
    rw [h, Nat.zero_testBit, decide_eq_true (List.mem_range.mp hp), Bool.true_and] at hbit
    simp [← hbit]
  · intro h
    apply Nat.eq_of_testBit_eq
    intro p
    rw [testBit_packBits, Nat.zero_testBit]
    by_cases hp : p < 8
    · simp [h p (List.mem_range.mpr hp)]
    · simp [hp]

/-- A number as `k` bytes, the least significant one first. -/
def littleEndian : Nat → Nat → List UInt8
  | 0, _ => []
  | k + 1, n => UInt8.ofNat (n % 256) :: littleEndian k (n / 256)

theorem length_littleEndian (k n : Nat) : (littleEndian k n).length = k := by
  induction k generalizing n with
  | zero => rfl
  | succ k ih => rw [littleEndian, List.length_cons, ih]

def readLittleEndian : Nat → Reader Nat
  | 0 => pure 0
  | k + 1 => do
    let b ← byte
    let n ← readLittleEndian k
    return b.toNat + 256 * n

/-- **A number that fits is read back** from its bytes. -/
theorem reads_littleEndian {k n : Nat} (hn : n < 256 ^ k) :
    Reads (readLittleEndian k) (littleEndian k n) n := by
  induction k generalizing n with
  | zero =>
    obtain rfl : n = 0 := Nat.lt_one_iff.mp hn
    exact Reads.pure 0
  | succ k ih =>
    have hquot : n / 256 < 256 ^ k := by
      rw [Nat.div_lt_iff_lt_mul (by decide), ← Nat.pow_succ]
      exact hn
    have hlow : (UInt8.ofNat (n % 256)).toNat = n % 256 := by
      rw [UInt8.toNat_ofNat']
      exact Nat.mod_eq_of_lt (Nat.mod_lt _ (by decide))
    have hread := (reads_byte (UInt8.ofNat (n % 256))).bind
      (q := fun b : UInt8 => readLittleEndian k >>= fun m => Pure.pure (b.toNat + 256 * m))
      ((ih hquot).map (f := fun m => (UInt8.ofNat (n % 256)).toNat + 256 * m))
    rwa [hlow, Nat.mod_add_div] at hread

/-- A signed number in two's complement. -/
def littleEndianSigned (k : Nat) (n : Int) : List UInt8 := littleEndian k (n % 256 ^ k).toNat

def readLittleEndianSigned (k : Nat) : Reader Int := do
  let n ← readLittleEndian k
  return Int.bmod n (256 ^ k)

/-- **A signed number that fits is read back.** -/
theorem reads_littleEndianSigned {k : Nat} {n : Int} (hlow : -(256 ^ k : Nat) ≤ 2 * n)
    (hhigh : 2 * n < (256 ^ k : Nat)) : Reads (readLittleEndianSigned k) (littleEndianSigned k n) n := by
  have hpow : ((256 ^ k : Nat) : Int) = 256 ^ k := Int.natCast_pow 256 k
  have hpos : (0 : Int) < 256 ^ k := Int.pow_pos (by decide)
  have hnonneg := Int.emod_nonneg n (Int.ne_of_gt hpos)
  have hlt := Int.emod_lt_of_pos n hpos
  have hread := (reads_littleEndian (k := k) (n := (n % 256 ^ k).toNat) (by omega)).map
    (f := fun m : Nat => Int.bmod m (256 ^ k))
  have hback : Int.bmod ((n % 256 ^ k).toNat : Int) (256 ^ k) = n := by
    rw [Int.toNat_of_nonneg hnonneg, ← hpow, Int.emod_bmod]
    exact Int.bmod_eq_of_le_mul_two (by omega) (by omega)
  rwa [hback] at hread

end Codec
