import Manna.Lib.Codec
import Manna.Transaction

/-!
Vectors on the wire (`serialize.h`: `WriteCompactSize`, `ReadCompactSize`, vectors).

A vector is its length followed by its members. The length takes one byte, or a marker and two,
four or eight bytes; a length above `MAX_SIZE` is not read back.

* `reads_writeCompactSize`, `length_writeCompactSize`: the length;
* `reads_writeVector`, `length_writeVector`: vectors of members that are read back.
-/

namespace Manna

open Codec

def MAX_SIZE : Nat := 0x02000000

def writeCompactSize (nSize : Nat) : List UInt8 :=
  if nSize < 253 then [UInt8.ofNat nSize]
  else if nSize ≤ 0xffff then 253 :: littleEndian 2 nSize
  else if nSize ≤ 0xffffffff then 254 :: littleEndian 4 nSize
  else 255 :: littleEndian 8 nSize

/-- The number after the first byte of `ReadCompactSize`. -/
def readCompactSizeTail (chSize : UInt8) : Reader Nat :=
  if chSize.toNat < 253 then pure chSize.toNat
  else if chSize.toNat = 253 then readLittleEndian 2
  else if chSize.toNat = 254 then readLittleEndian 4
  else readLittleEndian 8

/-- `ReadCompactSize`; a length that is too large is an exception. -/
def readCompactSize : Reader Nat := do
  let chSize ← byte
  let nSizeRet ← readCompactSizeTail chSize
  if nSizeRet > MAX_SIZE then failure else return nSizeRet

def writeVector {α : Type} (write : α → List UInt8) (v : List α) : List UInt8 :=
  writeCompactSize v.length ++ v.flatMap write

/-- `GetSerializeSize` of a vector, given the sizes of its members. -/
def vectorSize {α : Type} (size : α → Nat) (v : List α) : Nat :=
  getSizeOfCompactSize v.length + (v.map size).sum

def readVector {α : Type} (read : Reader α) : Reader (List α) := do
  let nSize ← readCompactSize
  (List.replicate nSize ()).mapM fun _ => read

/-- **`GetSizeOfCompactSize` counts the bytes.** -/
theorem length_writeCompactSize (nSize : Nat) :
    (writeCompactSize nSize).length = getSizeOfCompactSize nSize := by
  unfold writeCompactSize getSizeOfCompactSize
  split_ifs <;> simp [length_littleEndian]

theorem length_writeVector {α : Type} (write : α → List UInt8) (v : List α) :
    (writeVector write v).length = vectorSize (fun a => (write a).length) v := by
  rw [writeVector, List.length_append, length_writeCompactSize, List.length_flatMap, vectorSize]

theorem vectorSize_congr {α : Type} {size size' : α → Nat} {v : List α}
    (h : ∀ a ∈ v, size a = size' a) : vectorSize size v = vectorSize size' v := by
  rw [vectorSize, vectorSize, List.map_congr_left h]

/-! ### Reading back -/

theorem reads_readCompactSizeTail {nSize : Nat} (h : nSize < 2 ^ 64) :
    ∃ chSize rest, writeCompactSize nSize = chSize :: rest ∧
      Reads (readCompactSizeTail chSize) rest nSize := by
  unfold writeCompactSize
  split
  · rename_i hsmall
    have hch : (UInt8.ofNat nSize).toNat = nSize := by
      rw [UInt8.toNat_ofNat']
      omega
    refine ⟨_, _, rfl, ?_⟩
    rw [readCompactSizeTail, hch, if_pos hsmall]
    exact Reads.pure nSize
  · split
    · refine ⟨253, littleEndian 2 nSize, rfl, ?_⟩
      exact reads_littleEndian (k := 2) (by omega)
    · split
      · refine ⟨254, littleEndian 4 nSize, rfl, ?_⟩
        exact reads_littleEndian (k := 4) (by omega)
      · refine ⟨255, littleEndian 8 nSize, rfl, ?_⟩
        exact reads_littleEndian (k := 8) (by omega)

/-- What `ReadCompactSize` makes of a length: it is read back, or too large. -/
theorem readCompactSize_writeCompactSize {nSize : Nat} (h : nSize < 2 ^ 64) (s : List UInt8) :
    readCompactSize (writeCompactSize nSize ++ s) = if nSize > MAX_SIZE then none else some (nSize, s) := by
  obtain ⟨chSize, rest, hbytes, htail⟩ := reads_readCompactSizeTail h
  have hread : Reads (byte >>= fun chSize => readCompactSizeTail chSize) ([chSize] ++ rest) nSize :=
    (reads_byte chSize).bind htail
  rw [List.singleton_append, ← hbytes] at hread
  have hassoc : readCompactSize = (byte >>= readCompactSizeTail) >>= fun n =>
      if n > MAX_SIZE then failure else pure n := by
    rw [bind_assoc]
    rfl
  rw [hassoc]
  show ((byte >>= readCompactSizeTail) (writeCompactSize nSize ++ s)).bind (fun out =>
    (if out.1 > MAX_SIZE then failure else pure out.1 : Reader Nat) out.2) = _
  rw [hread s, Option.bind_some]
  split <;> rfl

/-- **A length is read back** unless it is too large. -/
theorem reads_writeCompactSize {nSize : Nat} (h : nSize ≤ MAX_SIZE) :
    Reads readCompactSize (writeCompactSize nSize) nSize := by
  intro s
  have hmax : MAX_SIZE < 2 ^ 64 := by decide
  rw [readCompactSize_writeCompactSize (Nat.lt_of_le_of_lt h hmax), if_neg (Nat.not_lt.mpr h)]

/-- **A vector is read back** when its members are. -/
theorem reads_writeVector {α β : Type} {write : α → List UInt8} (read : Reader β) {g : α → β}
    {v : List α} (hlen : v.length ≤ MAX_SIZE) (h : ∀ a ∈ v, Reads read (write a) (g a)) :
    Reads (readVector read) (writeVector write v) (v.map g) := by
  have hunits : List.replicate v.length () = v.map fun _ => () := List.map_const'.symm
  have hmembers : Reads ((List.replicate v.length ()).mapM fun _ => read) (v.flatMap write)
      (v.map g) := by
    rw [hunits]
    exact Reads.mapM h
  exact (reads_writeCompactSize hlen).bind hmembers

theorem readVector_eq_none {α β : Type} {write : α → List UInt8} {read : Reader β} {v : List α}
    (hlen : MAX_SIZE < v.length) (hword : v.length < 2 ^ 64) (s : List UInt8) :
    readVector read (writeVector write v ++ s) = none := by
  rw [writeVector, List.append_assoc]
  show (readCompactSize (writeCompactSize v.length ++ (v.flatMap write ++ s))).bind _ = none
  rw [readCompactSize_writeCompactSize hword, if_pos hlen]
  rfl

theorem readVector_eq_none_of_mem {α β : Type} {write : α → List UInt8} {read : Reader β}
    {g : α → β} {v : List α} (hlen : v.length ≤ MAX_SIZE)
    (h : ∀ a ∈ v, Reads read (write a) (g a) ∨ ∀ s, read (write a ++ s) = none)
    (hnone : ∃ a ∈ v, ∀ s, read (write a ++ s) = none) (s : List UInt8) :
    readVector read (writeVector write v ++ s) = none := by
  have hmembers : ∀ l : List α, (∀ a ∈ l, Reads read (write a) (g a) ∨ ∀ s, read (write a ++ s) = none) →
      (∃ a ∈ l, ∀ s, read (write a ++ s) = none) →
      ((List.replicate l.length ()).mapM fun _ => read) (l.flatMap write ++ s) = none := by
    intro l hl hl'
    induction l with
    | nil => obtain ⟨a, hmem, -⟩ := hl'; cases hmem
    | cons a l ih =>
      rw [List.length_cons, List.replicate_succ, List.mapM_cons, List.flatMap_cons, List.append_assoc]
      show (read (write a ++ (l.flatMap write ++ s))).bind _ = none
      rcases hl a List.mem_cons_self with hread | hfail
      · have htail : ∃ b ∈ l, ∀ s, read (write b ++ s) = none := by
          obtain ⟨b, hmem, hb⟩ := hl'
          rcases List.mem_cons.mp hmem with rfl | hmem
          · have := hread s
            rw [hb] at this
            cases this
          · exact ⟨b, hmem, hb⟩
        rw [hread, Option.bind_some]
        show Option.bind _ _ = none
        rw [ih (fun b hb => hl b (List.mem_cons_of_mem a hb)) htail]
        rfl
      · rw [hfail]
        rfl
  rw [writeVector, List.append_assoc]
  show (readCompactSize (writeCompactSize v.length ++ (v.flatMap write ++ s))).bind _ = none
  have hmax : MAX_SIZE < 2 ^ 64 := by decide
  rw [readCompactSize_writeCompactSize (Nat.lt_of_le_of_lt hlen hmax), if_neg (Nat.not_lt.mpr hlen)]
  exact hmembers v h hnone

end Manna
