import Mathlib.Data.List.Infix
import Manna.Lib.Ring

/-!
The buffered file reader (`serialize.h`: `CBufferedFile`).

A ring buffer between a file and what is deserialised from it. `nSrcPos` bytes were taken from the file,
`nReadPos` is where the next byte is read; both run on, and the buffer has the last bytes before `nSrcPos`.

* `fillIfEmpty_spec`, `readLoop_spec`, `findByteLoop_spec`: what one call does;
* `read_spec`: the bytes that are delivered are those of the file at the reported position;
* `setPos_eq`: how far back a position may lie;
* `Inv.run`: the invariant of every sequence of calls.
-/

namespace Manna

/-- A file: its length is a `long`. -/
structure SourceFile where
  bytes : List UInt8
  length_lt : bytes.length < 2 ^ 63

/-- The sizes a buffered file is made with. -/
structure BufferSizes where
  nBufSize : Nat
  nRewind : Nat
  rewind_lt : nRewind < nBufSize
  fits : nBufSize < 2 ^ 32

/-- What ends a call: an exception, or a loop that goes on without end. -/
inductive StreamStop where
  /-- "Read attempted past buffer limit" -/
  | pastLimit
  /-- "Read larger than buffer size" -/
  | largerThanBuffer
  /-- "CBufferedFile::Fill : end of file" -/
  | endOfFile
  | spins
  deriving DecidableEq, Repr

/-- `CBufferedFile`. The next byte of the file is the one at `nSrcPos`; `feof` and `failbit` are the
end-of-file indicator of the file and the bit of `state`. -/
structure CBufferedFile extends BufferSizes where
  src : SourceFile
  feof : Bool
  nSrcPos : Nat
  nReadPos : Nat
  nReadLimit : Nat
  vchBuf : Nat → UInt8
  failbit : Bool

/-- A difference in `uint64_t`. -/
def minus64 (a b : Nat) : Nat := (a + (2 ^ 64 - b % 2 ^ 64)) % 2 ^ 64

theorem minus64_of_le {a b : Nat} (hle : b ≤ a) (ha : a < 2 ^ 64) : minus64 a b = a - b := by
  rw [minus64, Nat.mod_eq_of_lt (hle.trans_lt ha), ← Nat.add_sub_assoc (hle.trans ha.le), Nat.add_comm,
    Nat.add_sub_assoc hle, Nat.add_mod_left, Nat.mod_eq_of_lt ((Nat.sub_le _ _).trans_lt ha)]

namespace CBufferedFile

/-- The constructor. -/
def new (src : SourceFile) (sizes : BufferSizes) : CBufferedFile where
  toBufferSizes := sizes
  src := src
  feof := false
  nSrcPos := 0
  nReadPos := 0
  nReadLimit := 2 ^ 64 - 1
  vchBuf := fun _ => 0
  failbit := false

/-- How many bytes `Fill` asks for. -/
def readNow (s : CBufferedFile) : Nat :=
  let pos := s.nSrcPos % s.nBufSize % 2 ^ 32
  let nAvail := minus64 (minus64 s.nBufSize (minus64 s.nSrcPos s.nReadPos)) s.nRewind % 2 ^ 32
  min (minus64 s.nBufSize pos % 2 ^ 32) nAvail

def fill (s : CBufferedFile) : Except StreamStop Bool × CBufferedFile :=
  if s.readNow = 0 then (.ok false, s)
  else
    -- `fread`: fewer bytes than asked for are left only at the end of the file
    let bytes := (s.src.bytes.drop s.nSrcPos).take s.readNow
    let s' := { s with feof := s.feof || decide (bytes.length < s.readNow) }
    if bytes.length = 0 then (.error .endOfFile, { s' with failbit := true })
    else (.ok true, { s' with
      nSrcPos := s.nSrcPos + bytes.length
      vchBuf := Ring.put s.vchBuf (s.nSrcPos % s.nBufSize % 2 ^ 32) bytes })

def good (s : CBufferedFile) : Bool := !s.failbit

def eof (s : CBufferedFile) : Bool := s.nReadPos == s.nSrcPos && s.feof

/-- `if (nReadPos == nSrcPos) Fill();` -/
def fillIfEmpty (s : CBufferedFile) : Except StreamStop Bool × CBufferedFile :=
  if s.nReadPos = s.nSrcPos then s.fill else (.ok false, s)

/-- The loop of `read`: the bytes that were copied, and what ended it. A turn copies a byte at least. -/
def readLoop : Nat → Nat → CBufferedFile → (List UInt8 × Option StreamStop) × CBufferedFile
  | 0, _, s => (([], some .spins), s)
  | turns + 1, nSize, s =>
    if nSize = 0 then (([], none), s)
    else
      match s.fillIfEmpty with
      | (.error stop, s) => (([], some stop), s)
      | (.ok _, s) =>
        let pos := s.nReadPos % s.nBufSize % 2 ^ 32
        let nNow := if nSize + pos > s.nBufSize then minus64 s.nBufSize pos else nSize
        let nNow := if nNow + s.nReadPos > s.nSrcPos then minus64 s.nSrcPos s.nReadPos else nNow
        let bytes := (List.range nNow).map fun i => s.vchBuf (pos + i)
        let rest := readLoop turns (nSize - nNow) { s with nReadPos := s.nReadPos + nNow }
        ((bytes ++ rest.1.1, rest.1.2), rest.2)

def read (s : CBufferedFile) (nSize : Nat) : (List UInt8 × Option StreamStop) × CBufferedFile :=
  if (nSize + s.nReadPos) % 2 ^ 64 > s.nReadLimit then (([], some .pastLimit), s)
  else if (nSize + s.nRewind) % 2 ^ 64 > s.nBufSize then (([], some .largerThanBuffer), s)
  else readLoop (nSize + 1) nSize s

def setPos (s : CBufferedFile) (nPos : Nat) : Bool × CBufferedFile :=
  if (nPos + s.nRewind) % 2 ^ 64 < s.nSrcPos then (false, { s with nReadPos := minus64 s.nSrcPos s.nRewind })
  else if nPos > s.nSrcPos then (false, { s with nReadPos := s.nSrcPos })
  else (true, { s with nReadPos := nPos })

/-- `Seek`, of a position that is a `long`. -/
def seek (s : CBufferedFile) (nPos : Nat) : CBufferedFile :=
  { s with nSrcPos := nPos, nReadPos := nPos, feof := false, failbit := false }

def setLimit (s : CBufferedFile) (nPos : Nat) : Bool × CBufferedFile :=
  if nPos < s.nReadPos then (false, s) else (true, { s with nReadLimit := nPos })

def findByteLoop (ch : UInt8) : Nat → CBufferedFile → Option StreamStop × CBufferedFile
  | 0, s => (some .spins, s)
  | turns + 1, s =>
    match s.fillIfEmpty with
    | (.error stop, s) => (some stop, s)
    | (.ok _, s) =>
      if s.vchBuf (s.nReadPos % s.nBufSize) = ch then (none, s)
      else findByteLoop ch turns { s with nReadPos := s.nReadPos + 1 }

def findByte (s : CBufferedFile) (ch : UInt8) : Option StreamStop × CBufferedFile :=
  findByteLoop ch (s.src.bytes.length - s.nReadPos + 1) s

/-- **The invariant** of a reader that began at `nStart`: the buffer has the last bytes before `nSrcPos`,
and `nReadPos` is among them. -/
structure Inv (nStart : Nat) (s : CBufferedFile) : Prop where
  start_lt : nStart < 2 ^ 63
  start_le : nStart ≤ s.nReadPos
  readPos_le : s.nReadPos ≤ s.nSrcPos
  srcPos_le : s.nSrcPos ≤ max nStart s.src.bytes.length
  window : s.nSrcPos ≤ s.nReadPos + s.nBufSize
  holds : Ring.Holds s.vchBuf s.nBufSize s.src.bytes nStart s.nSrcPos
  feof : s.feof = true → s.src.bytes.length ≤ s.nSrcPos

/-- The reader went on over these bytes of the file. -/
structure Advances (nStart : Nat) (s s' : CBufferedFile) (bytes : List UInt8) : Prop where
  inv : Inv nStart s'
  src : s'.src = s.src
  sizes : s'.toBufferSizes = s.toBufferSizes
  limit : s'.nReadLimit = s.nReadLimit
  delivered : bytes <+: s.src.bytes.drop s.nReadPos
  readPos : s'.nReadPos = s.nReadPos + bytes.length
  srcPos_le : s.nSrcPos ≤ s'.nSrcPos

variable {nStart : Nat} {s s' s'' : CBufferedFile} {bytes rest : List UInt8}

theorem Inv.srcPos_lt (h : Inv nStart s) : s.nSrcPos < 2 ^ 63 :=
  h.srcPos_le.trans_lt (max_lt h.start_lt s.src.length_lt)

theorem Advances.refl (h : Inv nStart s) : Advances nStart s s [] :=
  ⟨h, rfl, rfl, rfl, List.nil_prefix, rfl, le_rfl⟩

theorem Advances.trans (h : Advances nStart s s' bytes) (h' : Advances nStart s' s'' rest) :
    Advances nStart s s'' (bytes ++ rest) where
  inv := h'.inv
  src := h'.src.trans h.src
  sizes := h'.sizes.trans h.sizes
  limit := h'.limit.trans h.limit
  delivered := by
    obtain ⟨tail, htail⟩ := h.delivered
    obtain ⟨tail', htail'⟩ := h'.delivered
    rw [h.src, h.readPos, ← List.drop_drop, ← htail, List.drop_left] at htail'
    exact ⟨tail', by rw [List.append_assoc, htail', htail]⟩
  readPos := by rw [h'.readPos, h.readPos, List.length_append, Nat.add_assoc]
  srcPos_le := h.srcPos_le.trans h'.srcPos_le

/-! ### Filling the buffer -/

/-- **How much `Fill` asks for** where all was read: up to the end of the buffer, and not the part that
may be rewound. -/
theorem readNow_eq (h : Inv nStart s) (hempty : s.nReadPos = s.nSrcPos) :
    s.readNow = min (s.nBufSize - s.nSrcPos % s.nBufSize) (s.nBufSize - s.nRewind) := by
  have hfits := s.fits
  have hrewind := s.rewind_lt
  have hsrc := h.srcPos_lt
  have hpos : s.nSrcPos % s.nBufSize < s.nBufSize := Nat.mod_lt _ (by omega)
  have hcell : s.nSrcPos % s.nBufSize % 2 ^ 32 = s.nSrcPos % s.nBufSize := Nat.mod_eq_of_lt (by omega)
  have hnone : minus64 s.nSrcPos s.nReadPos = 0 := by
    rw [hempty, minus64_of_le le_rfl (by omega), Nat.sub_self]
  have hround : minus64 s.nBufSize (s.nSrcPos % s.nBufSize) % 2 ^ 32 = s.nBufSize - s.nSrcPos % s.nBufSize := by
    rw [minus64_of_le hpos.le (by omega), Nat.mod_eq_of_lt (by omega)]
  have hkept : minus64 s.nBufSize s.nRewind % 2 ^ 32 = s.nBufSize - s.nRewind := by
    rw [minus64_of_le hrewind.le (by omega), Nat.mod_eq_of_lt (by omega)]
  have hall : minus64 s.nBufSize 0 = s.nBufSize := minus64_of_le (Nat.zero_le _) (by omega)
  rw [readNow, hcell, hnone, hall, hround, hkept]

theorem cell_lt (s : CBufferedFile) (p : Nat) :
    p % s.nBufSize < s.nBufSize ∧ p % s.nBufSize % 2 ^ 32 = p % s.nBufSize := by
  have hfits := s.fits
  have hpos : p % s.nBufSize < s.nBufSize := Nat.mod_lt _ (by have := s.rewind_lt; omega)
  exact ⟨hpos, Nat.mod_eq_of_lt (by omega)⟩

/-- **`Fill`, where all was read**: a byte is made ready, or the file is at its end. -/
theorem fill_spec (h : Inv nStart s) (hempty : s.nReadPos = s.nSrcPos) :
    (∃ s', s.fill = (.ok true, s') ∧ Advances nStart s s' [] ∧ s'.nReadPos < s'.nSrcPos ∧
      s'.failbit = s.failbit) ∨
    (s.fill = (.error .endOfFile, { s with feof := true, failbit := true }) ∧
      s.src.bytes.length ≤ s.nReadPos) := by
  have hcell := cell_lt s s.nSrcPos
  have hrewind := s.rewind_lt
  have hnow := readNow_eq h hempty
  have hlength : ((s.src.bytes.drop s.nSrcPos).take s.readNow).length =
      min s.readNow (s.src.bytes.length - s.nSrcPos) := by rw [List.length_take, List.length_drop]
  have hprefix : (s.src.bytes.drop s.nSrcPos).take s.readNow <+: s.src.bytes.drop s.nSrcPos :=
    List.take_prefix _ _
  unfold fill
  rw [if_neg (by omega), hcell.2]
  generalize (s.src.bytes.drop s.nSrcPos).take s.readNow = bytes at *
  dsimp only
  by_cases hend : s.src.bytes.length ≤ s.nSrcPos
  · right
    have hless : bytes.length < s.readNow := by omega
    rw [if_pos (by omega), decide_eq_true hless, Bool.or_true]
    exact ⟨rfl, by omega⟩
  · left
    rw [if_neg (by omega)]
    have hwindow := h.window
    have hstart := h.start_le
    refine ⟨_, rfl, ⟨⟨h.start_lt, hstart, ?_, ?_, ?_, h.holds.put (by omega) hprefix, ?_⟩, rfl, rfl, rfl,
      List.nil_prefix, rfl, ?_⟩, ?_, rfl⟩
    all_goals dsimp only
    · omega
    · omega
    · omega
    · intro hfeof
      rcases Bool.or_eq_true_iff.mp hfeof with hold | hshort
      · have hle := h.feof hold
        omega
      · have hlt := of_decide_eq_true hshort
        omega
    · omega
    · omega

theorem fillIfEmpty_spec (h : Inv nStart s) :
    (∃ filled s', s.fillIfEmpty = (.ok filled, s') ∧ Advances nStart s s' [] ∧ s'.nReadPos < s'.nSrcPos ∧
      s'.failbit = s.failbit) ∨ (∃ s', s.fillIfEmpty = (.error .endOfFile, s') ∧ Advances nStart s s' [] ∧
      s.src.bytes.length ≤ s.nReadPos) := by
  unfold fillIfEmpty
  by_cases hempty : s.nReadPos = s.nSrcPos
  · rw [if_pos hempty]
    rcases fill_spec h hempty with ⟨s', hs'⟩ | ⟨hfill, hend⟩
    · exact .inl ⟨true, s', hs'⟩
    · have hinv : Inv nStart { s with feof := true, failbit := true } :=
        ⟨h.start_lt, h.start_le, h.readPos_le, h.srcPos_le, h.window, h.holds,
          fun _ => hend.trans h.readPos_le⟩
      exact .inr ⟨_, hfill, ⟨hinv, rfl, rfl, rfl, List.nil_prefix, rfl, le_rfl⟩, hend⟩
  · rw [if_neg hempty]
    exact .inl ⟨false, s, rfl, .refl h, lt_of_le_of_ne h.readPos_le hempty, rfl⟩

/-! ### Reading -/

theorem advances_copy (h : Inv nStart s) {nNow : Nat} (hnow : s.nReadPos + nNow ≤ s.nSrcPos)
    (hround : s.nReadPos % s.nBufSize + nNow ≤ s.nBufSize) :
    Advances nStart s { s with nReadPos := s.nReadPos + nNow }
      ((List.range nNow).map fun i => s.vchBuf (s.nReadPos % s.nBufSize + i)) where
  inv := ⟨h.start_lt, h.start_le.trans (Nat.le_add_right _ _), hnow, h.srcPos_le,
    h.window.trans (Nat.add_le_add_right (Nat.le_add_right _ _) _), h.holds, h.feof⟩
  src := rfl
  sizes := rfl
  limit := rfl
  delivered := by
    rw [h.holds.cells h.start_le hnow h.window hround]
    exact List.take_prefix _ _
  readPos := by rw [List.length_map, List.length_range]
  srcPos_le := le_rfl

/-- **The loop of `read`** delivers all, or the bytes up to the end of the file. -/
theorem readLoop_spec (turns : Nat) {nSize : Nat} (h : Inv nStart s) (hturns : nSize < turns) :
    ∃ bytes stop s', readLoop turns nSize s = ((bytes, stop), s') ∧ Advances nStart s s' bytes ∧
      ((stop = none ∧ bytes.length = nSize ∧ s'.failbit = s.failbit) ∨
        (stop = some .endOfFile ∧ 0 < nSize ∧ s.src.bytes.length < s.nReadPos + nSize)) := by
  induction turns generalizing s nSize with
  | zero => exact absurd hturns (Nat.not_lt_zero _)
  | succ turns ih =>
    rw [readLoop]
    by_cases hzero : nSize = 0
    · rw [if_pos hzero]
      exact ⟨[], none, s, rfl, .refl h, .inl ⟨rfl, hzero.symm, rfl⟩⟩
    · rw [if_neg hzero]
      rcases fillIfEmpty_spec h with ⟨filled, s₁, hfill, hadv, hready, hgood⟩ | ⟨s₁, hfill, hadv, hend⟩
      · rw [hfill]
        dsimp only
        have hcell := cell_lt s₁ s₁.nReadPos
        have hfits := s₁.fits
        have hsrc := hadv.inv.srcPos_lt
        have hpos : s₁.nReadPos = s.nReadPos := hadv.readPos
        rw [hcell.2, minus64_of_le hcell.1.le (by omega), minus64_of_le hadv.inv.readPos_le (by omega)]
        -- a turn copies what lies between the reading position and the end of the data or of the buffer
        obtain ⟨nNow, hnow, hpositive, hle, hround, hready'⟩ : ∃ nNow,
            (if (if nSize + s₁.nReadPos % s₁.nBufSize > s₁.nBufSize then
                  s₁.nBufSize - s₁.nReadPos % s₁.nBufSize else nSize) + s₁.nReadPos > s₁.nSrcPos
              then s₁.nSrcPos - s₁.nReadPos
              else if nSize + s₁.nReadPos % s₁.nBufSize > s₁.nBufSize then
                s₁.nBufSize - s₁.nReadPos % s₁.nBufSize else nSize) = nNow ∧ 0 < nNow ∧ nNow ≤ nSize ∧
              s₁.nReadPos % s₁.nBufSize + nNow ≤ s₁.nBufSize ∧ s₁.nReadPos + nNow ≤ s₁.nSrcPos := by
          refine ⟨_, rfl, ?_⟩
          split <;> split <;> omega
        rw [hnow]
        have hcopy := hadv.trans (advances_copy hadv.inv hready' hround)
        obtain ⟨rest, stop, s₂, hrest, hadv₂, houtcome⟩ := ih hcopy.inv (show nSize - nNow < turns by omega)
        rw [hrest]
        have hlength : ((List.range nNow).map fun i => s₁.vchBuf (s₁.nReadPos % s₁.nBufSize + i)).length =
            nNow := by rw [List.length_map, List.length_range]
        refine ⟨_, stop, s₂, rfl, hcopy.trans hadv₂, houtcome.imp ?_ ?_⟩
        · rintro ⟨hnone, hrestlen, hgood₂⟩
          refine ⟨hnone, ?_, hgood₂.trans hgood⟩
          rw [List.length_append, hlength, hrestlen]
          omega
        · rintro ⟨hstop, -, hlt⟩
          refine ⟨hstop, Nat.pos_of_ne_zero hzero, ?_⟩
          have hsame := hadv.src
          dsimp only at hlt
          rw [hsame] at hlt
          omega
      · rw [hfill]
        exact ⟨[], some .endOfFile, s₁, rfl, hadv, .inr ⟨rfl, Nat.pos_of_ne_zero hzero, by omega⟩⟩

/-- A read that the limit, the buffer and the file allow. -/
structure Readable (s : CBufferedFile) (nSize : Nat) : Prop where
  limit : nSize + s.nReadPos ≤ s.nReadLimit
  size : nSize + s.nRewind ≤ s.nBufSize
  file : nSize = 0 ∨ s.nReadPos + nSize ≤ s.src.bytes.length

/-- How a read ends: with all, or refused, or at the end of the file. -/
inductive ReadEnds (s : CBufferedFile) (nSize : Nat) (bytes : List UInt8) (s' : CBufferedFile) :
    Option StreamStop → Prop where
  | all (hreadable : s.Readable nSize) (hlen : bytes.length = nSize) (hgood : s'.failbit = s.failbit) :
      ReadEnds s nSize bytes s' none
  | refused {stop : StreamStop} (hstop : stop = .pastLimit ∨ stop = .largerThanBuffer)
      (hnot : ¬ s.Readable nSize) (hsame : s' = s) : ReadEnds s nSize bytes s' (some stop)
  | endOfFile (hpos : 0 < nSize) (hlimit : nSize + s.nReadPos ≤ s.nReadLimit)
      (hshort : s.src.bytes.length < s.nReadPos + nSize) : ReadEnds s nSize bytes s' (some .endOfFile)

/-- **`read`** delivers bytes of the file at the reading position: all that were asked for exactly where the
limit, the buffer and the file allow it. -/
theorem read_spec (h : Inv nStart s) {nSize : Nat} (hsize : nSize < 2 ^ 63) :
    ∃ bytes stop s', s.read nSize = ((bytes, stop), s') ∧ Advances nStart s s' bytes ∧
      ReadEnds s nSize bytes s' stop := by
  have hsrc := h.srcPos_lt
  have hread := h.readPos_le
  have hfits := s.fits
  have hrewind := s.rewind_lt
  unfold read
  rw [Nat.mod_eq_of_lt (show nSize + s.nReadPos < 2 ^ 64 by omega),
    Nat.mod_eq_of_lt (show nSize + s.nRewind < 2 ^ 64 by omega)]
  by_cases hlimit : nSize + s.nReadPos > s.nReadLimit
  · rw [if_pos hlimit]
    exact ⟨[], _, s, rfl, .refl h, .refused (.inl rfl) (fun hr => not_le.mpr hlimit hr.limit) rfl⟩
  · rw [if_neg hlimit]
    by_cases hlarge : nSize + s.nRewind > s.nBufSize
    · rw [if_pos hlarge]
      exact ⟨[], _, s, rfl, .refl h, .refused (.inr rfl) (fun hr => not_le.mpr hlarge hr.size) rfl⟩
    · rw [if_neg hlarge]
      obtain ⟨bytes, stop, s', hloop, hadv, ⟨rfl, hlen, hgood⟩ | ⟨rfl, hpos, hshort⟩⟩ :=
        readLoop_spec (nSize + 1) h (Nat.lt_succ_self nSize)
      · have hle := hadv.delivered.length_le
        rw [List.length_drop, hlen] at hle
        have hreadable : s.Readable nSize := ⟨not_lt.mp hlimit, not_lt.mp hlarge, by omega⟩
        exact ⟨bytes, none, s', hloop, hadv, .all hreadable hlen hgood⟩
      · exact ⟨bytes, _, s', hloop, hadv, .endOfFile hpos (not_lt.mp hlimit) hshort⟩

/-- **The loop of `FindByte`** stops at the first such byte, or at the end of the file. -/
theorem findByteLoop_spec (ch : UInt8) (turns : Nat) (h : Inv nStart s)
    (hturns : s.src.bytes.length - s.nReadPos < turns) :
    ∃ bytes stop s', findByteLoop ch turns s = (stop, s') ∧ Advances nStart s s' bytes ∧ ch ∉ bytes ∧
      ((stop = none ∧ s.src.bytes[s'.nReadPos]? = some ch ∧ s'.nReadPos < s'.nSrcPos ∧
          s'.failbit = s.failbit) ∨ (stop = some .endOfFile ∧ s.src.bytes.length ≤ s'.nReadPos)) := by
  induction turns generalizing s with
  | zero => exact absurd hturns (Nat.not_lt_zero _)
  | succ turns ih =>
    rw [findByteLoop]
    rcases fillIfEmpty_spec h with ⟨filled, s₁, hfill, hadv, hready, hgood⟩ | ⟨s₁, hfill, hadv, hend⟩
    · rw [hfill]
      dsimp only
      have hwindow := hadv.inv.window
      have hget := hadv.inv.holds s₁.nReadPos hadv.inv.start_le hready hwindow
      by_cases hch : s₁.vchBuf (s₁.nReadPos % s₁.nBufSize) = ch
      · rw [if_pos hch]
        refine ⟨[], none, s₁, rfl, hadv, List.not_mem_nil, .inl ⟨rfl, ?_, hready, hgood⟩⟩
        rw [← hadv.src, hget, hch]
      · rw [if_neg hch]
        have hcell := cell_lt s₁ s₁.nReadPos
        have hone : s₁.nReadPos + 1 ≤ s₁.nSrcPos := hready
        have hpass := hadv.trans (advances_copy hadv.inv hone hcell.1)
        have hpos : s₁.nReadPos = s.nReadPos := hadv.readPos
        have hlt : s₁.nReadPos < s.src.bytes.length := by
          rw [← hadv.src]
          exact (List.getElem?_eq_some_iff.mp hget).1
        have hleft : s.src.bytes.length - s.nReadPos < turns + 1 := hturns
        obtain ⟨bytes, stop, s₂, hloop, hadv₂, hnot, houtcome⟩ := ih hpass.inv (by
          dsimp only
          rw [hadv.src]
          omega)
        refine ⟨_, stop, s₂, hloop, hpass.trans hadv₂, ?_, ?_⟩
        · simpa using ⟨fun heq => hch heq.symm, hnot⟩
        · dsimp only at houtcome
          rw [hadv.src, hgood] at houtcome
          exact houtcome
    · rw [hfill]
      exact ⟨[], some .endOfFile, s₁, rfl, hadv, List.not_mem_nil,
        .inr ⟨rfl, hend.trans (Nat.le.intro hadv.readPos.symm)⟩⟩

theorem findByte_spec (ch : UInt8) (h : Inv nStart s) :
    ∃ bytes stop s', s.findByte ch = (stop, s') ∧ Advances nStart s s' bytes ∧ ch ∉ bytes ∧
      ((stop = none ∧ s.src.bytes[s'.nReadPos]? = some ch ∧ s'.nReadPos < s'.nSrcPos ∧
          s'.failbit = s.failbit) ∨ (stop = some .endOfFile ∧ s.src.bytes.length ≤ s'.nReadPos)) :=
  findByteLoop_spec ch _ h (Nat.lt_succ_self _)

theorem Inv.setReadPos (h : Inv nStart s) {nPos : Nat} (hstart : nStart ≤ nPos) (hpos : nPos ≤ s.nSrcPos)
    (hwindow : s.nSrcPos ≤ nPos + s.nBufSize) : Inv nStart { s with nReadPos := nPos } :=
  ⟨h.start_lt, hstart, hpos, h.srcPos_le, hwindow, h.holds, h.feof⟩

/-- A position that is not so near to the last `uint64_t` that the sum with `nRewind` wraps. -/
theorem Inv.setPos (h : Inv nStart s) {nPos : Nat} (hstart : nStart ≤ nPos) (hpos : nPos + s.nRewind < 2 ^ 64) :
    Inv nStart (s.setPos nPos).2 := by
  have hsrc := h.srcPos_lt
  have hrewind := s.rewind_lt
  have hread := h.readPos_le
  have hle := h.start_le
  unfold CBufferedFile.setPos
  rw [Nat.mod_eq_of_lt hpos]
  split
  · rw [minus64_of_le (by omega) (by omega)]
    exact h.setReadPos (by omega) (Nat.sub_le _ _) (by omega)
  · split
    · exact h.setReadPos (by omega) le_rfl (Nat.le_add_right _ _)
    · exact h.setReadPos hstart (by omega) (by omega)

theorem Inv.setLimit (h : Inv nStart s) (nPos : Nat) : Inv nStart (s.setLimit nPos).2 := by
  unfold CBufferedFile.setLimit
  split
  · exact h
  · exact ⟨h.start_lt, h.start_le, h.readPos_le, h.srcPos_le, h.window, h.holds, h.feof⟩

theorem Inv.new (src : SourceFile) (sizes : BufferSizes) : Inv 0 (new src sizes) where
  start_lt := by decide
  start_le := le_rfl
  readPos_le := le_rfl
  srcPos_le := Nat.zero_le _
  window := Nat.zero_le _
  holds := fun _ _ hlt => absurd hlt (Nat.not_lt_zero _)
  feof := nofun

theorem Inv.seek (s : CBufferedFile) (hstart : nStart < 2 ^ 63) : Inv nStart (s.seek nStart) where
  start_lt := hstart
  start_le := le_rfl
  readPos_le := le_rfl
  srcPos_le := le_max_left _ _
  window := Nat.le_add_right _ _
  holds := fun _ hle hlt => absurd hle (not_le.mpr hlt)
  feof := nofun

/-! ### Every sequence of calls -/

/-- A call of the reader. -/
inductive ReaderCall where
  | read (nSize : Nat)
  | setPos (nPos : Nat)
  | setLimit (nPos : Nat)
  | findByte (ch : UInt8)

/-- A buffer of memory for what is read, and a position whose sum with `nRewind` is a `uint64_t`. -/
def ReaderCall.Fits (sizes : BufferSizes) : ReaderCall → Prop
  | .read nSize => nSize < 2 ^ 63
  | .setPos nPos => nPos + sizes.nRewind < 2 ^ 64
  | .setLimit _ => True
  | .findByte _ => True

def after (s : CBufferedFile) : ReaderCall → CBufferedFile
  | .read nSize => (s.read nSize).2
  | .setPos nPos => (s.setPos nPos).2
  | .setLimit nPos => (s.setLimit nPos).2
  | .findByte ch => (s.findByte ch).2

theorem Inv.after (h : Inv 0 s) {call : ReaderCall} (hfits : call.Fits s.toBufferSizes) :
    Inv 0 (s.after call) ∧ (s.after call).toBufferSizes = s.toBufferSizes ∧ (s.after call).src = s.src := by
  cases call with
  | read nSize =>
    obtain ⟨bytes, stop, s', hread, hadv, -⟩ := read_spec h hfits
    rw [CBufferedFile.after, hread]
    exact ⟨hadv.inv, hadv.sizes, hadv.src⟩
  | setPos nPos =>
    refine ⟨h.setPos (Nat.zero_le _) hfits, ?_, ?_⟩ <;>
    · simp only [CBufferedFile.after, CBufferedFile.setPos]
      split_ifs <;> rfl
  | setLimit nPos =>
    refine ⟨h.setLimit nPos, ?_, ?_⟩ <;>
    · simp only [CBufferedFile.after, CBufferedFile.setLimit]
      split_ifs <;> rfl
  | findByte ch =>
    obtain ⟨bytes, stop, s', hfind, hadv, -⟩ := findByte_spec ch h
    rw [CBufferedFile.after, hfind]
    exact ⟨hadv.inv, hadv.sizes, hadv.src⟩

end CBufferedFile

end Manna
