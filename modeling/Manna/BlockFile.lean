import Manna.Validation
import Mathlib.Data.Finmap
import Mathlib.Data.Finset.Card

/-!
Where blocks lie in the block files (`main.cpp`: `FindBlockPos`, `FindUndoPos`, the writing
part of `AcceptBlock`; `main.h`: `CBlockFileInfo`).

One counter, `infoLastBlockFile.nSize`, says where the next block is written. A new block is
appended at the counter; a block found while a file is read again (`LoadExternalBlockFile`
with `-reindex`) stays where it is and only moves the counter on by its own size.

* `leaveFull_isSome`: the search for a file with room ends;
* `FileCall.sound_runAll`: indexed blocks stay apart and below the counter as long as a found
  block starts within the bytes its file has counted;
* `FileCall.not_forall_sound`: after one block found beyond them the next block is written over it.
-/

namespace Manna

/-- 128 MiB. -/
def MAX_BLOCKFILE_SIZE : Nat := 0x8000000

/-- 16 MiB. -/
def BLOCKFILE_CHUNK_SIZE : Nat := 0x1000000

/-- A sum of type `unsigned int`. -/
def uint32 (n : Nat) : Nat := n % 2 ^ 32

theorem uint32_of_lt {n : Nat} (h : n < 2 ^ 32) : uint32 n = n := Nat.mod_eq_of_lt h

/-- `CBlockFileInfo`. -/
structure CBlockFileInfo where
  nBlocks : Nat
  nSize : Nat
  nUndoSize : Nat
  nHeightFirst : Nat
  nHeightLast : Nat
  nTimeFirst : Nat
  nTimeLast : Nat
deriving DecidableEq, Repr

namespace CBlockFileInfo

/-- `SetNull`. -/
def null : CBlockFileInfo := ⟨0, 0, 0, 0, 0, 0, 0⟩

/-- `AddBlock`: it does not update `nSize`. -/
def addBlock (info : CBlockFileInfo) (nHeightIn nTimeIn : Nat) : CBlockFileInfo :=
  let nHeightFirst :=
    if info.nBlocks = 0 ∨ info.nHeightFirst > nHeightIn then nHeightIn else info.nHeightFirst
  { info with
    nHeightFirst := nHeightFirst
    nTimeFirst :=
      if info.nBlocks = 0 ∨ info.nTimeFirst > nTimeIn then nTimeIn else info.nTimeFirst
    nBlocks := uint32 (info.nBlocks + 1)
    nHeightLast := if nHeightIn > nHeightFirst then nHeightIn else info.nHeightLast
    nTimeLast := if nTimeIn > info.nTimeLast then nTimeIn else info.nTimeLast }

end CBlockFileInfo

/-- `CDiskBlockPos` of a file that exists. -/
structure CDiskBlockPos where
  nFile : Nat
  nPos : Nat
deriving DecidableEq, Repr

/-- The current file and its counters, with what `pblocktree` has stored of them. -/
structure BlockFileTable where
  nLastBlockFile : Nat
  infoLastBlockFile : CBlockFileInfo
  stored : Finmap fun _ : Nat => CBlockFileInfo
  storedLast : Option Nat

/-- How the writes of one call end. -/
structure FileIO where
  /-- `CheckDiskSpace`. -/
  diskSpace : Bool
  /-- `WriteBlockFileInfo`. -/
  writeInfo : Bool
  /-- `WriteLastBlockFile`. -/
  writeLast : Bool
  /-- `CBlock::WriteToDisk`. -/
  writeBlock : Bool

namespace BlockFileTable

/-- Before the first file. -/
def empty : BlockFileTable := ⟨0, .null, ∅, none⟩

/-- The file's counters after `SetNull` and `ReadBlockFileInfo`, whose failure is fine. -/
def readInfo (files : BlockFileTable) (nFile : Nat) : CBlockFileInfo :=
  (files.stored.lookup nFile).getD .null

/-- The bytes the file's counter accounts for. -/
def counted (files : BlockFileTable) (nFile : Nat) : Nat :=
  if nFile = files.nLastBlockFile then files.infoLastBlockFile.nSize
  else (files.readInfo nFile).nSize

def leaveFull (files : BlockFileTable) (nAddSize : Nat) :
    Nat → Nat → CBlockFileInfo → Option (Nat × CBlockFileInfo)
  | 0, _, _ => none
  | fuel + 1, nFile, info =>
    if uint32 (info.nSize + nAddSize) ≥ MAX_BLOCKFILE_SIZE then
      leaveFull files nAddSize fuel (nFile + 1) (files.readInfo (nFile + 1))
    else some (nFile, info)

/-- The file `FindBlockPos` settles on, `none` when its loop does not end. -/
def chooseFile (files : BlockFileTable) (pos : Option CDiskBlockPos) (nAddSize : Nat) :
    Option (Nat × CBlockFileInfo) :=
  match pos with
  | some pos =>
    some (pos.nFile, if files.nLastBlockFile ≠ pos.nFile then files.readInfo pos.nFile
      else files.infoLastBlockFile)
  | none =>
    files.leaveFull nAddSize (files.stored.keys.card + 2) files.nLastBlockFile
      files.infoLastBlockFile

/-- The preallocation asks for more disk space when the block reaches a new chunk. -/
def needsSpace (nPos nSize : Nat) : Prop :=
  uint32 (nSize + BLOCKFILE_CHUNK_SIZE - 1) / BLOCKFILE_CHUNK_SIZE >
    uint32 (nPos + BLOCKFILE_CHUNK_SIZE - 1) / BLOCKFILE_CHUNK_SIZE

instance (nPos nSize : Nat) : Decidable (needsSpace nPos nSize) :=
  inferInstanceAs (Decidable (_ > _))

def writeInfo (io : FileIO) (fUpdatedLast : Bool) (files : BlockFileTable) :
    Except Halt Unit × BlockFileTable :=
  if io.writeInfo then
    (.ok (), { files with
      stored := files.stored.insert files.nLastBlockFile files.infoLastBlockFile
      storedLast :=
        if fUpdatedLast && io.writeLast then some files.nLastBlockFile else files.storedLast })
  else (.error (.abort "Failed to write file info"), files)

/-- `FindBlockPos`; the position is given where `fKnown` is true. -/
def findBlockPos (io : FileIO) (pos : Option CDiskBlockPos) (nAddSize nHeight nTime : Nat)
    (files : BlockFileTable) : Option (Except Halt CDiskBlockPos × BlockFileTable) :=
  (files.chooseFile pos nAddSize).map fun (nFile, info) =>
    let fUpdatedLast := files.nLastBlockFile != nFile
    let nPos := (pos.map CDiskBlockPos.nPos).getD info.nSize
    let nSize := uint32 (info.nSize + nAddSize)
    let files := { files with
      nLastBlockFile := nFile
      infoLastBlockFile := { info with nSize := nSize }.addBlock nHeight nTime }
    if pos.isNone ∧ needsSpace nPos nSize ∧ ¬ io.diskSpace then
      (.error (.abort "CheckDiskSpace"), files)
    else
      let (written, files) := writeInfo io fUpdatedLast files
      (written.map fun _ => ⟨nFile, nPos⟩, files)

/-- The part of `AcceptBlock` that stores a block: a block of a new position is written there
after its magic and its size. -/
def storeBlock (io : FileIO) (dbp : Option CDiskBlockPos) (nBlockSize nHeight nTime : Nat)
    (files : BlockFileTable) : Option (Except Halt CDiskBlockPos × BlockFileTable) :=
  (files.findBlockPos io dbp (uint32 (nBlockSize + 8)) nHeight nTime).map fun (found, files) =>
    match found with
    | .error e => (.error e, files)
    | .ok blockPos =>
      if dbp.isSome then (.ok blockPos, files)
      else if io.writeBlock then (.ok { blockPos with nPos := blockPos.nPos + 8 }, files)
      else (.error (.abort "Failed to write block"), files)

/-- `FindUndoPos`, for the counters it changes. -/
def findUndoPos (io : FileIO) (nFile nAddSize : Nat) (files : BlockFileTable) : BlockFileTable :=
  if nFile = files.nLastBlockFile then
    let info := files.infoLastBlockFile
    let info := { info with nUndoSize := uint32 (info.nUndoSize + nAddSize) }
    { files with
      infoLastBlockFile := info
      stored := if io.writeInfo then files.stored.insert nFile info else files.stored }
  else
    match files.stored.lookup nFile with
    | none => files
    | some info =>
      let info := { info with nUndoSize := uint32 (info.nUndoSize + nAddSize) }
      { files with
        stored := if io.writeInfo then files.stored.insert nFile info else files.stored }

/-- The tail of `LoadBlockIndexDB` that reads the counters back after a restart. -/
def restart (files : BlockFileTable) : BlockFileTable :=
  let nLastBlockFile := files.storedLast.getD 0
  { files with
    nLastBlockFile := nLastBlockFile
    infoLastBlockFile := files.readInfo nLastBlockFile }

end BlockFileTable

/-! ### The search for a file with room -/

namespace BlockFileTable

variable {files : BlockFileTable} {nAddSize : Nat}

theorem readInfo_of_notMem {nFile : Nat} (h : nFile ∉ files.stored.keys) : files.readInfo nFile = .null := by
  rw [readInfo, Finmap.lookup_eq_none.mpr fun hmem => h (Finmap.mem_keys.mpr hmem)]
  rfl

theorem leaveFull_isSome (hsize : nAddSize < MAX_BLOCKFILE_SIZE) (fuel nFile : Nat)
    (info : CBlockFileInfo) (hfuel : (files.stored.keys.filter (nFile < ·)).card < fuel) :
    (files.leaveFull nAddSize (fuel + 1) nFile info).isSome = true := by
  induction fuel generalizing nFile info with
  | zero => exact absurd hfuel (Nat.not_lt_zero _)
  | succ fuel ih =>
    unfold leaveFull
    split
    · by_cases hmem : nFile + 1 ∈ files.stored.keys
      · apply ih
        have hfewer : files.stored.keys.filter (nFile + 1 < ·) ⊂
            files.stored.keys.filter (nFile < ·) := by
          refine Finset.ssubset_iff_subset_ne.mpr ⟨?_, fun heq => ?_⟩
          · exact Finset.monotone_filter_right _ fun _ _ => Nat.lt_of_succ_lt
          · have hnext : nFile + 1 ∈ files.stored.keys.filter (nFile < ·) :=
              Finset.mem_filter.mpr ⟨hmem, Nat.lt_succ_self nFile⟩
            rw [← heq] at hnext
            exact Nat.lt_irrefl _ (Finset.mem_filter.mp hnext).2
        exact (Finset.card_lt_card hfewer).trans_le (Nat.le_of_lt_succ hfuel)
      · -- nothing is stored of the next file: it is empty
        have hroom : ¬ uint32 ((files.readInfo (nFile + 1)).nSize + nAddSize) ≥
            MAX_BLOCKFILE_SIZE := by
          rw [readInfo_of_notMem hmem]
          exact Nat.not_le.mpr ((Nat.mod_le _ _).trans_lt ((Nat.zero_add _).trans_lt hsize))
        unfold leaveFull
        rw [if_neg hroom]
        rfl
    · rfl

/-- **`FindBlockPos` ends** for every block the file size allows. -/
theorem chooseFile_isSome (hsize : nAddSize < MAX_BLOCKFILE_SIZE) (pos : Option CDiskBlockPos) :
    (files.chooseFile pos nAddSize).isSome = true := by
  cases pos with
  | some pos => rfl
  | none =>
    apply leaveFull_isSome hsize
    exact Nat.lt_succ_of_le (Finset.card_filter_le _ _)

/-- A file that is full. -/
def sampleFull : CBlockFileInfo := { CBlockFileInfo.null with nSize := MAX_BLOCKFILE_SIZE }

/-- The last file, the next one and the fourth one are full, and there is no third one. -/
def sampleFiles : BlockFileTable :=
  ⟨0, sampleFull, ((Finmap.singleton 3 sampleFull).insert 1 sampleFull).insert 0 sampleFull, some 0⟩

theorem chooseFile_isSome_sample : (sampleFiles.chooseFile none 100).isSome = true ∧
    (sampleFiles.chooseFile none 100).map Prod.fst = some 2 :=
  ⟨chooseFile_isSome (by decide) none, by decide⟩

theorem chooseFile_nSize {pos : Option CDiskBlockPos} {nFile : Nat} {info : CBlockFileInfo}
    (h : files.chooseFile pos nAddSize = some (nFile, info)) : info.nSize = files.counted nFile := by
  cases pos with
  | some pos =>
    cases h
    unfold counted
    by_cases hlast : files.nLastBlockFile = pos.nFile
    · rw [if_neg (not_not_intro hlast), if_pos hlast.symm]
    · rw [if_pos hlast, if_neg (Ne.symm hlast)]
  | none =>
    have hloop : ∀ fuel nLast start, start.nSize = files.counted nLast →
        files.nLastBlockFile ≤ nLast →
        files.leaveFull nAddSize fuel nLast start = some (nFile, info) →
        info.nSize = files.counted nFile := by
      intro fuel
      -- the loop only reads counters of files behind the last one
      induction fuel with
      | zero =>
        intro nLast start _ _ hrun
        cases hrun
      | succ fuel ih =>
        intro nLast start hstart hle hrun
        unfold leaveFull at hrun
        split at hrun
        · have hnext : nLast + 1 ≠ files.nLastBlockFile := by omega
          exact ih (nLast + 1) _ (by rw [counted, if_neg hnext]) (hle.trans (Nat.le_succ _)) hrun
        · cases hrun
          exact hstart
    exact hloop _ _ _ (by rw [counted, if_pos rfl]) le_rfl h

/-- What `FindBlockPos` does to the counters: the file's counter moves on by the size, and is
stored unless that fails. -/
structure Advanced (files files' : BlockFileTable) (nFile nAddSize : Nat) (written : Bool) :
    Prop where
  last : files'.nLastBlockFile = nFile
  size : files'.infoLastBlockFile.nSize = uint32 (files.counted nFile + nAddSize)
  stored : ∀ n, files'.readInfo n =
    if written = true ∧ n = nFile then files'.infoLastBlockFile else files.readInfo n

theorem readInfo_insert (files : BlockFileTable) (nFile n : Nat) (info : CBlockFileInfo) :
    ((files.stored.insert nFile info).lookup n).getD .null =
      if n = nFile then info else files.readInfo n := by
  by_cases h : n = nFile
  · rw [if_pos h, h, Finmap.lookup_insert]
    rfl
  · rw [if_neg h, Finmap.lookup_insert_of_ne _ h]
    rfl

variable {io : FileIO} {pos : Option CDiskBlockPos} {nHeight nTime : Nat} {files' : BlockFileTable}

/-- **`FindBlockPos`**: the counter of one file moves on; the position is the given one, or
what the counter was. -/
theorem findBlockPos_spec {found : Except Halt CDiskBlockPos}
    (h : files.findBlockPos io pos nAddSize nHeight nTime = some (found, files')) :
    ∃ nFile info written, files.chooseFile pos nAddSize = some (nFile, info) ∧
      files.Advanced files' nFile nAddSize written ∧
      ∀ blockPos, found = .ok blockPos → written = true ∧ io.writeInfo = true ∧
        blockPos = ⟨nFile, (pos.map CDiskBlockPos.nPos).getD (files.counted nFile)⟩ := by
  obtain ⟨⟨nFile, info⟩, hchoose, hrun⟩ := Option.map_eq_some_iff.mp h
  have hsize : uint32 (info.nSize + nAddSize) = uint32 (files.counted nFile + nAddSize) := by
    rw [chooseFile_nSize hchoose]
  dsimp only at hrun
  split at hrun
  · cases hrun
    refine ⟨nFile, info, false, hchoose, ⟨rfl, hsize, fun n => rfl⟩, nofun⟩
  · unfold writeInfo at hrun
    split at hrun
    · next hwrite =>
      cases hrun
      refine ⟨nFile, info, true, hchoose, ⟨rfl, hsize, fun n => ?_⟩, ?_⟩
      · rw [readInfo, readInfo_insert]
        simp only [true_and]
        rfl
      · intro blockPos hok
        cases hok
        rw [chooseFile_nSize hchoose]
        exact ⟨rfl, hwrite, rfl⟩
    · cases hrun
      exact ⟨nFile, info, false, hchoose, ⟨rfl, hsize, fun n => rfl⟩, nofun⟩

/-- **Storing a block** moves the counter as `FindBlockPos` does; a new block starts where the
counter was. -/
theorem storeBlock_spec {nBlockSize : Nat} {stored : Except Halt CDiskBlockPos}
    (h : files.storeBlock io pos nBlockSize nHeight nTime = some (stored, files')) :
    ∃ nFile info written, files.chooseFile pos (uint32 (nBlockSize + 8)) = some (nFile, info) ∧
      files.Advanced files' nFile (uint32 (nBlockSize + 8)) written ∧
      ∀ blockPos, stored = .ok blockPos → written = true ∧ io.writeInfo = true ∧
        blockPos = ⟨nFile, (pos.map CDiskBlockPos.nPos).getD (files.counted nFile + 8)⟩ := by
  obtain ⟨⟨found, files₁⟩, hfind, hstore⟩ := Option.map_eq_some_iff.mp h
  obtain ⟨nFile, info, written, hchoose, hadvanced, hpos⟩ := findBlockPos_spec hfind
  have hfiles : files₁ = files' := by
    dsimp only at hstore
    split at hstore
    · exact congrArg Prod.snd hstore
    · split at hstore
      · exact congrArg Prod.snd hstore
      · split at hstore <;> exact congrArg Prod.snd hstore
  refine ⟨nFile, info, written, hchoose, hfiles ▸ hadvanced, ?_⟩
  rintro blockPos rfl
  cases found with
  | error e => cases hstore
  | ok p =>
    obtain ⟨hwritten, hwrite, rfl⟩ := hpos p rfl
    refine ⟨hwritten, hwrite, ?_⟩
    cases pos with
    | some q =>
      cases hstore
      rfl
    | none =>
      dsimp only at hstore
      rw [if_neg (by decide)] at hstore
      split at hstore
      · cases hstore
        rfl
      · cases hstore

omit nAddSize io pos nHeight nTime files' in
theorem lookup_stored (files : BlockFileTable) (nFile : Nat) {info : CBlockFileInfo}
    (h : files.stored.lookup nFile = some info) : files.readInfo nFile = info := by
  rw [readInfo, h]
  rfl

/-- `FindUndoPos` writes counters of blocks only as they are in memory or were stored. -/
theorem readInfo_findUndoPos (files : BlockFileTable) (io : FileIO) (nFile nAddSize n : Nat) :
    ((files.findUndoPos io nFile nAddSize).readInfo n).nSize = files.counted n ∨
      ((files.findUndoPos io nFile nAddSize).readInfo n).nSize = (files.readInfo n).nSize := by
  unfold findUndoPos
  split
  · next hlast =>
    cases io.writeInfo with
    | true =>
      rw [readInfo]
      simp only [if_true]
      rw [readInfo_insert]
      split
      · next heq =>
        left
        rw [counted, if_pos (heq.trans hlast)]
      · right
        rfl
    | false => exact .inr rfl
  · split
    · exact .inr rfl
    · next info hlookup =>
      right
      cases io.writeInfo with
      | true =>
        rw [readInfo]
        simp only [if_true]
        rw [readInfo_insert]
        split
        · next heq => rw [heq, lookup_stored files nFile hlookup]
        · rfl
      | false => rfl

theorem counted_findUndoPos (files : BlockFileTable) (io : FileIO) (nFile nAddSize n : Nat) :
    (files.findUndoPos io nFile nAddSize).counted n = files.counted n := by
  by_cases hlast : nFile = files.nLastBlockFile
  · unfold counted findUndoPos
    rw [if_pos hlast]
    by_cases hn : n = files.nLastBlockFile
    · rw [if_pos hn, if_pos hn]
    · rw [if_neg hn, if_neg hn]
      cases io.writeInfo with
      | true =>
        rw [readInfo]
        simp only [if_true]
        rw [readInfo_insert, if_neg (hlast ▸ hn)]
      | false => rfl
  · have hsame : (files.findUndoPos io nFile nAddSize).nLastBlockFile = files.nLastBlockFile ∧
        (files.findUndoPos io nFile nAddSize).infoLastBlockFile = files.infoLastBlockFile := by
      unfold findUndoPos
      rw [if_neg hlast]
      split <;> exact ⟨rfl, rfl⟩
    unfold counted
    rw [hsame.1, hsame.2]
    split
    · rfl
    · next hn =>
      rcases readInfo_findUndoPos files io nFile nAddSize n with heq | heq
      · rw [heq, counted, if_neg hn]
      · exact heq

end BlockFileTable

/-- A block as the index records it: its position is behind its magic and its size. -/
structure StoredBlock where
  nFile : Nat
  nPos : Nat
  nSize : Nat
deriving DecidableEq, Repr

namespace StoredBlock

/-- The first byte of the block's record. -/
def start (block : StoredBlock) : Nat := block.nPos - 8

/-- The end of the block's record. -/
def stop (block : StoredBlock) : Nat := block.nPos + block.nSize

/-- Two records share no byte of a file. -/
def Apart (a b : StoredBlock) : Prop :=
  a.nFile = b.nFile → a.stop ≤ b.start ∨ b.stop ≤ a.start

instance (a b : StoredBlock) : Decidable (a.Apart b) := inferInstanceAs (Decidable (_ → _))

end StoredBlock

/-- The position of a block that a scan of the file found behind its magic and its size. -/
structure FoundPos extends CDiskBlockPos where
  header : 8 ≤ nPos

/-- The block files with the blocks that the index has in them. -/
structure BlockStore where
  files : BlockFileTable
  indexed : List StoredBlock

namespace BlockStore

def empty : BlockStore := ⟨.empty, []⟩

/-- No indexed block shares bytes with another, and the last file has its blocks below the
counter. -/
structure Sound (store : BlockStore) : Prop where
  apart : store.indexed.Pairwise StoredBlock.Apart
  covered : ∀ block ∈ store.indexed, block.nFile = store.files.nLastBlockFile →
    block.stop ≤ store.files.infoLastBlockFile.nSize

/-- What holds of every file: its blocks lie below the counter, in memory and as stored. -/
structure Kept (store : BlockStore) : Prop where
  apart : store.indexed.Pairwise StoredBlock.Apart
  counted : ∀ block ∈ store.indexed, block.stop ≤ store.files.counted block.nFile
  stored : ∀ block ∈ store.indexed, block.stop ≤ (store.files.readInfo block.nFile).nSize

theorem Kept.sound {store : BlockStore} (h : store.Kept) : store.Sound where
  apart := h.apart
  covered block hmem hlast := by
    have hcounted := h.counted block hmem
    rwa [BlockFileTable.counted, if_pos hlast] at hcounted

theorem Kept.empty : BlockStore.empty.Kept := ⟨.nil, nofun, nofun⟩

end BlockStore

/-! ### Runs -/

/-- The calls that work on the counters. -/
inductive FileCall where
  /-- `AcceptBlock` of a block that is not in a file yet. -/
  | append (io : FileIO) (nBlockSize nHeight nTime : Nat)
  /-- `AcceptBlock` of a block that `LoadExternalBlockFile` found. -/
  | found (io : FileIO) (pos : FoundPos) (nBlockSize nHeight nTime : Nat)
  | findUndoPos (io : FileIO) (nFile nAddSize : Nat)
  | restart

namespace FileCall

/-- Storing a block, and its entry in the index when that went through. -/
def store (io : FileIO) (dbp : Option CDiskBlockPos) (nBlockSize nHeight nTime : Nat)
    (s : BlockStore) : Option BlockStore :=
  (s.files.storeBlock io dbp nBlockSize nHeight nTime).map fun (stored, files) =>
    match stored with
    | .error _ => { s with files := files }
    | .ok pos => ⟨files, ⟨pos.nFile, pos.nPos, nBlockSize⟩ :: s.indexed⟩

def run (s : BlockStore) : FileCall → Option BlockStore
  | append io nBlockSize nHeight nTime => store io none nBlockSize nHeight nTime s
  | found io pos nBlockSize nHeight nTime =>
    store io (some pos.toCDiskBlockPos) nBlockSize nHeight nTime s
  | findUndoPos io nFile nAddSize => some { s with files := s.files.findUndoPos io nFile nAddSize }
  | restart => some { s with files := s.files.restart }

/-- A sequence of calls, from a wiped index. -/
def runAll (calls : List FileCall) : Option BlockStore := calls.foldlM run .empty

def Fits (s : BlockStore) : FileCall → Prop
  | append _ nBlockSize _ _ => ∀ nFile info,
      s.files.chooseFile none (uint32 (nBlockSize + 8)) = some (nFile, info) →
        info.nSize + (nBlockSize + 8) < 2 ^ 32
  | found io pos nBlockSize _ _ =>
    s.files.counted pos.nFile + (nBlockSize + 8) < 2 ^ 32 ∧
    (io.writeInfo = true → pos.nPos ≤ s.files.counted pos.nFile + 8 ∧
      ∀ block ∈ s.indexed, (⟨pos.nFile, pos.nPos, nBlockSize⟩ : StoredBlock).Apart block)
  | findUndoPos .. => True
  | restart => True

variable {s s' : BlockStore}

/-- **A block that is stored** keeps the others where they are; its own record must end below
the counter and keep off the others. -/
theorem kept_advanced {files' : BlockFileTable} {nFile nAddSize : Nat} {written : Bool}
    (h : s.Kept) (hfiles : s.files.Advanced files' nFile nAddSize written)
    (hfits : s.files.counted nFile + nAddSize < 2 ^ 32) : (⟨files', s.indexed⟩ : BlockStore).Kept ∧
      ∀ block : StoredBlock, block.nFile = nFile → written = true →
        block.stop ≤ s.files.counted nFile + nAddSize → (∀ b ∈ s.indexed, block.Apart b) →
        (⟨files', block :: s.indexed⟩ : BlockStore).Kept := by
  have hsize : files'.infoLastBlockFile.nSize = s.files.counted nFile + nAddSize :=
    hfiles.size.trans (uint32_of_lt hfits)
  have hcounted : ∀ n, files'.counted n =
      if n = nFile then s.files.counted nFile + nAddSize else (s.files.readInfo n).nSize := by
    intro n
    unfold BlockFileTable.counted
    rw [hfiles.last]
    split
    · exact hsize
    · next hne => rw [hfiles.stored, if_neg fun hand => hne hand.2]
  have hstored : ∀ n, (files'.readInfo n).nSize =
      if written = true ∧ n = nFile then s.files.counted nFile + nAddSize
      else (s.files.readInfo n).nSize := by
    intro n
    rw [hfiles.stored]
    split
    · exact hsize
    · rfl
  have hold : (⟨files', s.indexed⟩ : BlockStore).Kept := by
    refine ⟨h.apart, fun block hmem => ?_, fun block hmem => ?_⟩
    · rw [hcounted]
      split
      · next heq => exact heq ▸ (h.counted block hmem).trans (Nat.le_add_right _ _)
      · exact h.stored block hmem
    · rw [hstored]
      split
      · next heq => exact heq.2 ▸ (h.counted block hmem).trans (Nat.le_add_right _ _)
      · exact h.stored block hmem
  refine ⟨hold, fun block hblock hwritten hstop hapart => ?_⟩
  refine ⟨List.pairwise_cons.mpr ⟨hapart, h.apart⟩, ?_, ?_⟩
  · refine List.forall_mem_cons.mpr ⟨?_, hold.counted⟩
    rw [hcounted, if_pos hblock]
    exact hstop
  · refine List.forall_mem_cons.mpr ⟨?_, hold.stored⟩
    rw [hstored, if_pos ⟨hwritten, hblock⟩]
    exact hstop

theorem store_spec {io : FileIO} {dbp : Option CDiskBlockPos} {nBlockSize nHeight nTime : Nat}
    (hrun : store io dbp nBlockSize nHeight nTime s = some s') :
    ∃ nFile info written, s.files.chooseFile dbp (uint32 (nBlockSize + 8)) = some (nFile, info) ∧
      s.files.Advanced s'.files nFile (uint32 (nBlockSize + 8)) written ∧
      (s'.indexed = s.indexed ∨ written = true ∧ io.writeInfo = true ∧ s'.indexed =
        ⟨nFile, (dbp.map CDiskBlockPos.nPos).getD (s.files.counted nFile + 8), nBlockSize⟩ :: s.indexed) := by
  obtain ⟨⟨stored, files'⟩, hstore, hs'⟩ := Option.map_eq_some_iff.mp hrun
  obtain ⟨nFile, info, written, hchoose, hadvanced, hpos⟩ := BlockFileTable.storeBlock_spec hstore
  cases stored with
  | error e =>
    cases hs'
    exact ⟨nFile, info, written, hchoose, hadvanced, .inl rfl⟩
  | ok blockPos =>
    cases hs'
    obtain ⟨hwritten, hwrite, rfl⟩ := hpos blockPos rfl
    exact ⟨nFile, info, written, hchoose, hadvanced, .inr ⟨hwritten, hwrite, rfl⟩⟩

theorem kept_store {io : FileIO} {dbp : Option CDiskBlockPos} {nBlockSize nHeight nTime : Nat}
    (h : s.Kept) (hrun : store io dbp nBlockSize nHeight nTime s = some s')
    (hfits : ∀ nFile info, s.files.chooseFile dbp (uint32 (nBlockSize + 8)) = some (nFile, info) →
      info.nSize + (nBlockSize + 8) < 2 ^ 32)
    (hfree : io.writeInfo = true → ∀ p, dbp = some p → p.nPos ≤ s.files.counted p.nFile + 8 ∧
      ∀ block ∈ s.indexed, (⟨p.nFile, p.nPos, nBlockSize⟩ : StoredBlock).Apart block) : s'.Kept := by
  obtain ⟨files', indexed⟩ := s'
  obtain ⟨nFile, info, written, hchoose, hadvanced, hindexed⟩ := store_spec hrun
  have hroom := hfits nFile info hchoose
  rw [BlockFileTable.chooseFile_nSize hchoose] at hroom
  have hadd : uint32 (nBlockSize + 8) = nBlockSize + 8 := uint32_of_lt ((Nat.le_add_left _ _).trans_lt hroom)
  rw [hadd] at hadvanced
  obtain ⟨hold, hnew⟩ := kept_advanced h hadvanced hroom
  rcases hindexed with rfl | ⟨hwritten, hwrite, rfl⟩
  · exact hold
  cases dbp with
  | some p =>
    cases hchoose
    obtain ⟨hstart, hapart⟩ := hfree hwrite p rfl
    refine hnew _ rfl hwritten ?_ hapart
    show p.nPos + nBlockSize ≤ _
    omega
  | none =>
    refine hnew _ rfl hwritten ?_ fun block hmem heq => .inr ?_
    · show s.files.counted nFile + 8 + nBlockSize ≤ _
      omega
    · -- the block starts at the counter, and all others end below it
      have hstop := h.counted block hmem
      rw [← heq] at hstop
      exact hstop

/-- **One call keeps the blocks apart and below the counters** when it meets its condition. -/
theorem kept_run {call : FileCall} (h : s.Kept) (hrun : run s call = some s')
    (hfits : call.Fits s) : s'.Kept := by
  cases call with
  | append io nBlockSize nHeight nTime => exact kept_store h hrun hfits nofun
  | found io pos nBlockSize nHeight nTime =>
    refine kept_store h hrun ?_ ?_
    · intro nFile info hchoose
      rw [BlockFileTable.chooseFile_nSize hchoose]
      cases hchoose
      exact hfits.1
    · intro hwrite p hp
      cases hp
      exact hfits.2 hwrite
  | findUndoPos io nFile nAddSize =>
    cases hrun
    refine ⟨h.apart, fun block hmem => ?_, fun block hmem => ?_⟩
    · rw [BlockFileTable.counted_findUndoPos]
      exact h.counted block hmem
    · rcases BlockFileTable.readInfo_findUndoPos s.files io nFile nAddSize block.nFile with heq | heq
      · rw [heq]
        exact h.counted block hmem
      · rw [heq]
        exact h.stored block hmem
  | restart =>
    cases hrun
    refine ⟨h.apart, fun block hmem => ?_, h.stored⟩
    have hstored := h.stored block hmem
    unfold BlockFileTable.counted
    split
    · next heq =>
      rw [heq] at hstored
      exact hstored
    · exact hstored

theorem runAll_concat (pre : List FileCall) (call : FileCall) :
    runAll (pre ++ [call]) = (runAll pre).bind fun s => run s call := by
  unfold runAll
  rw [List.foldlM_append]
  exact congrArg (Option.bind _) (funext fun s => bind_pure (run s call))

/-- By induction on the run, every state of it keeps the blocks apart and below the counters. -/
theorem kept_runAll (calls : List FileCall)
    (hfits : ∀ pre call s, pre ++ [call] <+: calls → runAll pre = some s → call.Fits s) :
    ∀ s, runAll calls = some s → s.Kept := by
  induction calls using List.reverseRecOn with
  | nil =>
    intro s hrun
    cases hrun
    exact BlockStore.Kept.empty
  | append_singleton calls call ih =>
    intro s hrun
    rw [runAll_concat, Option.bind_eq_some_iff] at hrun
    obtain ⟨s₁, hrun₁, hcall⟩ := hrun
    have hkept : s₁.Kept := ih (fun pre call' s hpre =>
      hfits pre call' s (hpre.trans (List.prefix_append _ _))) s₁ hrun₁
    exact kept_run hkept hcall (hfits calls call s₁ (List.prefix_refl _) hrun₁)

/-- **Where blocks lie.** In every sequence of calls whose steps all meet their condition the
indexed blocks of a file share no byte, and the last file's counter is at or beyond the end of
each of its blocks. -/
theorem sound_runAll (calls : List FileCall)
    (hfits : ∀ pre call s, pre ++ [call] <+: calls → runAll pre = some s → call.Fits s) :
    ∀ pre s, pre <+: calls → runAll pre = some s → s.Sound := by
  intro pre s hpre hrun
  refine BlockStore.Kept.sound (kept_runAll pre (fun pre' call s' hpre' => ?_) s hrun)
  exact hfits pre' call s' (hpre'.trans hpre)

def sampleFileIO : FileIO := ⟨true, true, true, true⟩

/-- A block of 100 bytes behind 200 bytes that are none, then a new block of 300 bytes. -/
def sampleGapCalls : List FileCall :=
  [.found sampleFileIO ⟨⟨0, 208⟩, by decide⟩ 100 1 1600, .append sampleFileIO 300 2 1660]

/-- A new block is written over the block behind the gap. -/
theorem not_forall_sound :
    ¬ ∀ (calls : List FileCall) (pre : List FileCall) (s : BlockStore), pre <+: calls →
      runAll pre = some s → s.Sound := by
  intro h
  have hindexed : (runAll sampleGapCalls).map BlockStore.indexed =
      some [⟨0, 116, 300⟩, ⟨0, 208, 100⟩] := by decide
  obtain ⟨s, hrun, hblocks⟩ := Option.map_eq_some_iff.mp hindexed
  have hapart := (h sampleGapCalls sampleGapCalls s (List.prefix_refl _) hrun).apart
  rw [hblocks] at hapart
  exact absurd hapart (by decide)

def sampleFound : FileCall := .found sampleFileIO ⟨⟨0, 8⟩, by decide⟩ 100 1 1600

def sampleTightCalls : List FileCall := [sampleFound, .append sampleFileIO 300 2 1660]

theorem sound_runAll_sample : ∃ s, runAll sampleTightCalls = some s ∧ s.Sound ∧
    s.indexed = [⟨0, 116, 300⟩, ⟨0, 8, 100⟩] := by
  have hindexed : (runAll sampleTightCalls).map BlockStore.indexed =
      some [⟨0, 116, 300⟩, ⟨0, 8, 100⟩] := by decide
  obtain ⟨s, hrun, hblocks⟩ := Option.map_eq_some_iff.mp hindexed
  refine ⟨s, hrun, sound_runAll sampleTightCalls ?_ sampleTightCalls s (List.prefix_refl _) hrun,
    hblocks⟩
  intro pre call s hpre hrun
  rcases pre with _ | ⟨first, _ | ⟨second, pre⟩⟩
  · obtain rfl := (List.cons_prefix_cons.mp hpre).1
    cases hrun
    exact ⟨by decide, fun _ => ⟨by decide, nofun⟩⟩
  · obtain ⟨rfl, hrest⟩ := List.cons_prefix_cons.mp hpre
    obtain rfl := (List.cons_prefix_cons.mp hrest).1
    intro nFile info hchoose
    have hsize : ((runAll [sampleFound]).bind fun s => s.files.chooseFile none (uint32 (300 + 8))).map
        (fun chosen => chosen.2.nSize) = some 108 := by decide
    rw [hrun, Option.bind_some, hchoose] at hsize
    rw [show info.nSize = 108 from Option.some.inj hsize]
    decide
  · have hlen := hpre.length_le
    simp [sampleTightCalls] at hlen

end FileCall

end Manna
