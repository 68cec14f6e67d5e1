import Manna.Coherent
import Manna.DiskBlockIndex

/-!
Reading the block index back (`txdb.cpp`: `LoadBlockIndexGuts`; `main.cpp`: `InsertBlockIndex`,
`LoadBlockIndexDB`).

`LoadBlockIndexGuts` takes the entries as they come out of the database. An entry that another one
names as its predecessor is made before its own record is read; the fields of a record are then
copied one by one, and `nMoneySupply` is copied for proof-of-stake coins only, so it stays as the
constructor left it. `LoadBlockIndexDB` computes `nChainTrust` and `nChainTx` from the lowest block
up and links the best chain.

* `loadBlockIndexGuts_spec`: what the records of an index are read as;
* `sortedByHeight_spec`, `loadEntry_spec`, `loadDetails_spec`: what is recomputed;
* `loadBlockIndexDB_spec`: the node after the program started.
-/

namespace Manna

open Descent

/-! ### Reading the records -/

/-- Why `LoadBlockIndexGuts` ends early. -/
inductive LoadError where
  /-- `deserialize error`. -/
  | deserialize
  /-- A null pointer is followed. -/
  | undefined
deriving DecidableEq, Repr

/-- What is copied from a record, of what validation reads. -/
def CBlockIndex.copyFrom (pprev : Option Uint256) (diskindex : CDiskBlockIndex)
    (pindexNew : CBlockIndex) : CBlockIndex :=
  { pindexNew with
    pprev := pprev
    nHeight := diskindex.nHeight
    nTime := diskindex.nTime
    nBits := diskindex.nBits
    nStatus := diskindex.nStatus }

/-- What is copied from a record, of the other fields. -/
def IndexDetails.copyFrom (diskindex : CDiskBlockIndex) (pindexNew : IndexDetails) : IndexDetails :=
  { pindexNew with
    nFile := diskindex.nFile
    nDataPos := diskindex.nDataPos
    nUndoPos := diskindex.nUndoPos
    nVersion := diskindex.nVersion
    hashMerkleRoot := diskindex.hashMerkleRoot
    nNonce := diskindex.nNonce
    nTx := diskindex.nTx }

/-- `mapBlockIndex` while it is read, with all fields of its entries. -/
structure BlockIndexMap where
  entries : Finmap fun _ : Uint256 => CBlockIndex
  details : Uint256 → IndexDetails

namespace BlockIndexMap

/-- Before the first record. -/
def empty : BlockIndexMap := ⟨∅, fun _ => .empty⟩

def insertBlockIndex (hash : Uint256) (index : BlockIndexMap) : Option Uint256 × BlockIndexMap :=
  if hash = 0 then (none, index)
  else
    match index.entries.lookup hash with
    | some _ => (some hash, index)
    | none => (some hash, ⟨index.entries.insert hash (.empty hash),
        Function.update index.details hash .empty⟩)

/-- The fields copied from a record. -/
def assign (pindexNew : Uint256) (pprev : Option Uint256) (diskindex : CDiskBlockIndex)
    (index : BlockIndexMap) : BlockIndexMap where
  entries := BlockTree.modifyEntries index.entries pindexNew (·.copyFrom pprev diskindex)
  details := Function.update index.details pindexNew ((index.details pindexNew).copyFrom diskindex)

/-- One round of `LoadBlockIndexGuts`. -/
def loadRecord (env : Env) (index : BlockIndexMap) (value : List UInt8) :
    Except LoadError BlockIndexMap :=
  match CDiskBlockIndex.deserialize value with
  | none => .error .deserialize
  | some (diskindex, _) =>
    match index.insertBlockIndex (diskindex.getBlockHash env) with
    | (none, _) => .error .undefined
    | (some pindexNew, index) =>
      let (pprev, index) := index.insertBlockIndex diskindex.hashPrev
      .ok (index.assign pindexNew pprev diskindex)

/-- `LoadBlockIndexGuts`, of the records in the order of the database. -/
def loadBlockIndexGuts (env : Env) (values : List (List UInt8)) : Except LoadError BlockIndexMap :=
  values.foldlM (loadRecord env) empty

end BlockIndexMap

/-- `nChainTx` of one entry, in the loop of `LoadBlockIndexDB`. -/
def loadChainTx (t : BlockTree) (details : Uint256 → IndexDetails) (hash : Uint256) :
    Uint256 → IndexDetails :=
  Function.update details hash { details hash with
    nChainTx := (((t.pprevOf hash).map fun pprev => (details pprev).nChainTx).getD 0 +
      (details hash).nTx) % 2 ^ 32 }

/-- What the loop makes of the other fields. -/
def loadDetails (t : BlockTree) (details : Uint256 → IndexDetails) : Uint256 → IndexDetails :=
  t.sortedByHeight.foldl (loadChainTx t) details

def BlockTree.record (t : BlockTree) (details : Uint256 → IndexDetails) (hash : Uint256) :
    List UInt8 :=
  ((t.entry hash).map fun pindex => (CDiskBlockIndex.of pindex (details hash)).serialize).getD []

/-- The entries can be written: their fields are values of their types, positions are there where
the status says so, and an entry's header has the hash it is filed under. -/
structure BlockTree.Writable (env : Env) (t : BlockTree) (details : Uint256 → IndexDetails) :
    Prop where
  inRange : ∀ {hash e}, t.entry hash = some e → (CDiskBlockIndex.of e (details hash)).InRange
  hash_eq : ∀ {hash e}, t.entry hash = some e →
    (CDiskBlockIndex.of e (details hash)).getBlockHash env = hash
  haveData : ∀ {hash e}, t.entry hash = some e → e.nStatus.haveData = true
  haveUndo : ∀ {hash e}, t.entry hash = some e → e.nStatus.haveUndo = false →
    (details hash).nUndoPos = 0

/-- What is copied of an entry. -/
def CBlockIndex.copied (e : CBlockIndex) : CBlockIndex :=
  { e with pnext := none, nChainTrust := 0, nMoneySupply := 0 }

/-- What is copied of the other fields. -/
def IndexDetails.copied (details : IndexDetails) : IndexDetails := { details with nChainTx := 0 }

theorem IndexDetails.nTx_eq {details details' : IndexDetails} (h : details.copied = details'.copied) :
    details.nTx = details'.nTx := by
  have htx : details.copied.nTx = details'.copied.nTx := by rw [h]
  exact htx

/-! ### What is read -/

namespace BlockIndexMap

variable {env : Env} {t : BlockTree} {details : Uint256 → IndexDetails} {done : List Uint256}
  {index : BlockIndexMap} {hash : Uint256} {e : CBlockIndex}

/-- The index after some records: their entries, and empty ones for predecessors whose record is
still to come. -/
structure ReadUpTo (t : BlockTree) (details : Uint256 → IndexDetails) (done : List Uint256)
    (index : BlockIndexMap) : Prop where
  entries : ∀ hash, index.entries.lookup hash =
    if hash ∈ done then (t.entry hash).map CBlockIndex.copied
    else if ∃ next ∈ done, t.pprevOf next = some hash then some (.empty hash)
    else none
  details : ∀ hash, index.details hash =
    if hash ∈ done then (details hash).copied else .empty

theorem readUpTo_empty (t : BlockTree) (details : Uint256 → IndexDetails) : ReadUpTo t details [] empty where
  entries hash := by
    rw [if_neg List.not_mem_nil, if_neg (by simp)]
    exact Finmap.lookup_empty hash
  details hash := (if_neg List.not_mem_nil).symm

theorem insertBlockIndex_zero (index : BlockIndexMap) : index.insertBlockIndex 0 = (none, index) := by
  rw [insertBlockIndex, if_pos rfl]

/-- An entry is there afterwards, an empty one where there was none. -/
theorem insertBlockIndex_spec (index : BlockIndexMap) (hne : hash ≠ 0)
    (hdetails : index.entries.lookup hash = none → index.details hash = .empty) :
    ∃ index', index.insertBlockIndex hash = (some hash, index') ∧ index'.details = index.details ∧
      ∀ x, index'.entries.lookup x = if x = hash then some ((index.entries.lookup hash).getD (.empty hash))
        else index.entries.lookup x := by
  unfold insertBlockIndex
  rw [if_neg hne]
  cases hlookup : index.entries.lookup hash with
  | some e =>
    refine ⟨index, rfl, rfl, fun x => ?_⟩
    split
    · next heq => rw [heq, hlookup, Option.getD_some]
    · rfl
  | none =>
    refine ⟨_, rfl, ?_, fun x => ?_⟩
    · rw [← hdetails hlookup]
      exact Function.update_eq_self ..
    · exact BlockTree.lookup_insert_entry ..

theorem deserialize_record (h : t.Writable env details) (he : t.entry hash = some e) :
    CDiskBlockIndex.deserialize (t.record details hash) =
      some ((CDiskBlockIndex.of e (details hash)).stored, []) := by
  have hread := CDiskBlockIndex.reads_serialize (h.inRange he) []
  rw [List.append_nil] at hread
  rw [BlockTree.record, he, Option.map_some, Option.getD_some]
  exact hread

theorem getBlockHash_stored (diskindex : CDiskBlockIndex) :
    diskindex.stored.getBlockHash env = diskindex.getBlockHash env := rfl

theorem copyFrom_stored (h : t.Writable env details) (he : t.entry hash = some e) :
    (CBlockIndex.empty hash).copyFrom e.pprev (CDiskBlockIndex.of e (details hash)).stored = e.copied ∧
      IndexDetails.empty.copyFrom (CDiskBlockIndex.of e (details hash)).stored = (details hash).copied := by
  have hdata := h.haveData he
  have hundo := h.haveUndo he
  refine ⟨?_, ?_⟩
  · rw [← t.hash_eq he]
    rfl
  · have hfile : (CDiskBlockIndex.of e (details hash)).stored.nFile = (details hash).nFile := by
      refine if_pos ?_
      rw [show (CDiskBlockIndex.of e (details hash)).nStatus.haveData = true from hdata, Bool.true_or]
    have hpos : (CDiskBlockIndex.of e (details hash)).stored.nDataPos = (details hash).nDataPos :=
      if_pos hdata
    have hrev : (CDiskBlockIndex.of e (details hash)).stored.nUndoPos = (details hash).nUndoPos := by
      cases hflag : e.nStatus.haveUndo with
      | true => exact if_pos hflag
      | false => exact (if_neg (Bool.eq_false_iff.mp hflag)).trans (hundo hflag).symm
    rw [IndexDetails.copyFrom, hfile, hpos, hrev]
    rfl

/-- **One record.** -/
theorem loadRecord_spec (h : t.Writable env details) (hzero : ∀ hash, t.Indexed hash → hash ≠ 0)
    (hread : ReadUpTo t details done index) (he : t.entry hash = some e) (hnew : hash ∉ done) :
    ∃ index', index.loadRecord env (t.record details hash) = .ok index' ∧
      ReadUpTo t details (done ++ [hash]) index' := by
  have hfresh : ∀ x, x ∉ done → index.details x = .empty := fun x hx => by
    rw [hread.details, if_neg hx]
  have hplaceholder : (index.entries.lookup hash).getD (.empty hash) = .empty hash := by
    rw [hread.entries, if_neg hnew]
    split <;> rfl
  obtain ⟨hcopy, hcopy'⟩ := copyFrom_stored h he
  obtain ⟨index₁, hinsert₁, hdetails₁, hlookup₁⟩ :=
    insertBlockIndex_spec index (hzero hash ⟨e, he⟩) fun _ => hfresh hash hnew
  -- The pointer to the predecessor.
  obtain ⟨index₂, hinsert₂, hdetails₂, hself₂, hlookup₂⟩ : ∃ index₂,
      index₁.insertBlockIndex (CDiskBlockIndex.of e (details hash)).stored.hashPrev =
        (e.pprev, index₂) ∧ index₂.details = index₁.details ∧
      index₂.entries.lookup hash = some (.empty hash) ∧ ∀ x, x ≠ hash → index₂.entries.lookup x =
        if e.pprev = some x then some ((index.entries.lookup x).getD (.empty x))
        else index.entries.lookup x := by
    have hprev : (CDiskBlockIndex.of e (details hash)).stored.hashPrev = e.pprev.getD 0 := rfl
    rw [hprev]
    cases hpprev : e.pprev with
    | none =>
      refine ⟨index₁, insertBlockIndex_zero index₁, rfl, ?_, fun x hx => ?_⟩
      · rw [hlookup₁, if_pos rfl, hplaceholder]
      · rw [hlookup₁, if_neg hx, if_neg nofun]
    | some pprev =>
      obtain ⟨p, hp, hheight⟩ := t.parent he hpprev
      have hne : pprev ≠ hash := by
        rintro rfl
        obtain rfl := Option.some.inj (he.symm.trans hp)
        omega
      obtain ⟨index₂, hinsert₂, hdetails₂, hlookup₂⟩ := insertBlockIndex_spec index₁
        (hzero pprev ⟨p, hp⟩) fun hnone => by
          rw [hlookup₁, if_neg hne, hread.entries] at hnone
          rw [hdetails₁]
          refine hfresh pprev fun hmem => ?_
          rw [if_pos hmem, hp] at hnone
          cases hnone
      refine ⟨index₂, hinsert₂, hdetails₂, ?_, fun x hx => ?_⟩
      · rw [hlookup₂, if_neg hne.symm, hlookup₁, if_pos rfl, hplaceholder]
      · rw [hlookup₂, hlookup₁, if_neg hne, hlookup₁, if_neg hx]
        by_cases hxp : x = pprev
        · rw [if_pos hxp, if_pos (by rw [hxp]), hxp]
        · rw [if_neg hxp, if_neg fun heq => hxp (Option.some.inj heq).symm]
  refine ⟨index₂.assign hash e.pprev (CDiskBlockIndex.of e (details hash)).stored, ?_, ?_, ?_⟩
  · simp only [loadRecord, deserialize_record h he, getBlockHash_stored, h.hash_eq he, hinsert₁,
      hinsert₂]
  · intro x
    rw [assign, BlockTree.lookup_modifyEntries]
    by_cases hx : x = hash
    · subst hx
      rw [if_pos rfl, if_pos (List.mem_append_right _ (List.mem_singleton_self x)), hself₂, he,
        Option.map_some, Option.map_some]
      exact congrArg some hcopy
    · rw [if_neg hx, hlookup₂ x hx, hread.entries]
      have hprevOf : t.pprevOf hash = e.pprev := by rw [BlockTree.pprevOf, he, Option.bind_some]
      by_cases hmem : x ∈ done
      · rw [if_pos hmem, if_pos (List.mem_append_left _ hmem)]
        split
        · next hp =>
          obtain ⟨p, hp', -⟩ := t.parent he hp
          rw [hp']
          rfl
        · rfl
      · have hout : x ∉ done ++ [hash] := fun hin =>
          (List.mem_append.mp hin).elim hmem fun heq => hx (List.mem_singleton.mp heq)
        rw [if_neg hmem, if_neg hout]
        simp only [List.mem_append, List.mem_singleton, or_and_right, exists_or, exists_eq_left,
          hprevOf]
        by_cases hp : e.pprev = some x
        · rw [if_pos hp, if_pos (Or.inr hp)]
          split <;> rfl
        · rw [if_neg hp]
          simp only [hp, or_false]
  · intro x
    have hupdate : (index₂.assign hash e.pprev (CDiskBlockIndex.of e (details hash)).stored).details =
        Function.update index.details hash (details hash).copied := by
      rw [assign, hdetails₂, hdetails₁, hfresh hash hnew, hcopy']
    rw [hupdate]
    by_cases hx : x = hash
    · subst hx
      rw [Function.update_self, if_pos (List.mem_append_right _ (List.mem_singleton_self x))]
    · rw [Function.update_of_ne hx, hread.details]
      simp only [List.mem_append, List.mem_singleton, hx, or_false]

theorem foldlM_loadRecord (h : t.Writable env details) (hzero : ∀ hash, t.Indexed hash → hash ≠ 0) :
    ∀ (rest done : List Uint256) (index : BlockIndexMap), ReadUpTo t details done index →
      (done ++ rest).Nodup → (∀ hash ∈ rest, t.Indexed hash) →
      ∃ index', (rest.map (t.record details)).foldlM (loadRecord env) index = .ok index' ∧
        ReadUpTo t details (done ++ rest) index' := by
  intro rest
  induction rest with
  | nil =>
    intro done index hread _ _
    exact ⟨index, rfl, by rwa [List.append_nil]⟩
  | cons hash rest ih =>
    intro done index hread hnodup hindexed
    rw [List.forall_mem_cons] at hindexed
    obtain ⟨e, he⟩ := hindexed.1
    have hnew : hash ∉ done := fun hmem =>
      (List.nodup_append.mp hnodup).2.2 hash hmem hash List.mem_cons_self rfl
    obtain ⟨index₁, hload, hread₁⟩ := loadRecord_spec h hzero hread he hnew
    have hassoc : done ++ [hash] ++ rest = done ++ hash :: rest := by
      rw [List.append_assoc, List.singleton_append]
    obtain ⟨index', hrun, hread'⟩ := ih (done ++ [hash]) index₁ hread₁ (hassoc ▸ hnodup) hindexed.2
    refine ⟨index', ?_, hassoc ▸ hread'⟩
    rw [List.map_cons, List.foldlM_cons, hload]
    exact hrun

/-- **What the records of an index are read as**, in whatever order they come. -/
theorem loadBlockIndexGuts_spec (h : t.Writable env details)
    (hzero : ∀ hash, t.Indexed hash → hash ≠ 0) {hashes : List Uint256} (hnodup : hashes.Nodup)
    (hall : ∀ hash, hash ∈ hashes ↔ t.Indexed hash) :
    ∃ index, loadBlockIndexGuts env (hashes.map (t.record details)) = .ok index ∧
      (∀ hash, index.entries.lookup hash = (t.entry hash).map CBlockIndex.copied) ∧
      ∀ hash, t.Indexed hash → index.details hash = (details hash).copied := by
  obtain ⟨index, hrun, hread⟩ := foldlM_loadRecord h hzero hashes [] empty (readUpTo_empty t details)
    hnodup fun hash hmem => (hall hash).mp hmem
  refine ⟨index, hrun, fun hash => ?_, fun hash hhash => ?_⟩
  · rw [hread.entries, List.nil_append]
    by_cases hmem : hash ∈ hashes
    · rw [if_pos hmem]
    · have hnone : t.entry hash = none := by
        cases he : t.entry hash with
        | none => rfl
        | some e => exact absurd ((hall hash).mpr ⟨e, he⟩) hmem
      rw [if_neg hmem, hnone, if_neg]
      · rfl
      · -- A predecessor is in the index, so it has a record itself.
        rintro ⟨next, -, hprev⟩
        exact hmem ((hall hash).mpr (BlockTree.pprevOf_height hprev).2.1)
  · rw [hread.details, List.nil_append, if_pos ((hall hash).mpr hhash)]

theorem loadBlockIndexGuts_zero (h : t.Writable env details) (hzero : t.Indexed 0)
    {hashes : List Uint256} (hmem : 0 ∈ hashes) (index' : BlockIndexMap) :
    loadBlockIndexGuts env (hashes.map (t.record details)) ≠ .ok index' := by
  obtain ⟨e, he⟩ := hzero
  have hstop : ∀ index : BlockIndexMap,
      index.loadRecord env (t.record details 0) = .error .undefined := by
    intro index
    simp only [loadRecord, deserialize_record h he, getBlockHash_stored, h.hash_eq he,
      insertBlockIndex_zero]
  unfold loadBlockIndexGuts
  generalize empty = index
  induction hashes generalizing index with
  | nil => cases hmem
  | cons hash hashes ih =>
    rw [List.map_cons, List.foldlM_cons]
    rcases List.mem_cons.mp hmem with rfl | hmem
    · rw [hstop]
      exact nofun
    · cases index.loadRecord env (t.record details hash) with
      | error e => exact nofun
      | ok index₁ => exact ih hmem index₁

end BlockIndexMap

/-! ### What is recomputed -/

section LoadBlockIndexDB

variable {t : BlockTree} {hash : Uint256}

/-- **The order of the loop**: all entries, from the lowest. -/
theorem BlockTree.sortedByHeight_spec (t : BlockTree) : (∀ hash, hash ∈ t.sortedByHeight ↔ t.Indexed hash) ∧
      t.sortedByHeight.Pairwise fun a b => (t.nHeight a).toNat ≤ (t.nHeight b).toNat := by
  have hkey : ∀ key ∈ (t.entries.keys.image fun hash => toLex (t.nHeight hash, hash)).sort,
      (ofLex key).1 = t.nHeight (ofLex key).2 ∧ t.Indexed (ofLex key).2 := by
    intro key hmem
    obtain ⟨hash, hhash, rfl⟩ := Finset.mem_image.mp ((Finset.mem_sort _).mp hmem)
    obtain ⟨e, he⟩ := Finmap.mem_iff.mp (Finmap.mem_keys.mp hhash)
    exact ⟨rfl, e, he⟩
  unfold sortedByHeight
  constructor
  · intro hash
    rw [List.mem_map]
    constructor
    · rintro ⟨key, hmem, rfl⟩
      exact (hkey key hmem).2
    · rintro ⟨e, he⟩
      refine ⟨toLex (t.nHeight hash, hash), (Finset.mem_sort _).mpr ?_, rfl⟩
      exact Finset.mem_image_of_mem _ (Finmap.mem_keys.mpr (Finmap.mem_of_lookup_eq_some he))
  · rw [List.pairwise_map]
    refine (Finset.pairwise_sort _ (· ≤ ·)).imp_of_mem fun {a b} ha hb hle => ?_
    have hheight : (ofLex a).1 ≤ (ofLex b).1 := (Prod.Lex.le_iff.mp hle).elim le_of_lt fun h => h.1.le
    rw [(hkey a ha).1, (hkey b hb).1] at hheight
    exact Int.toNat_le_toNat hheight

theorem BlockTree.parents_sortedByHeight (t : BlockTree) : ∀ hash ∈ t.sortedByHeight, ∀ pprev,
    t.pprevOf hash = some pprev → pprev ∈ t.sortedByHeight :=
  fun _ _ pprev hprev => (t.sortedByHeight_spec.1 pprev).mpr (BlockTree.pprevOf_height hprev).2.1

/-- The trees the loop passes through. -/
def BlockTree.SameButTrust (t' t : BlockTree) : Prop :=
  ∀ hash, (t'.entry hash).map (fun e => { e with nChainTrust := 0 }) =
    (t.entry hash).map fun e => { e with nChainTrust := 0 }

theorem BlockTree.SameButTrust.entry {t' : BlockTree} (h : t'.SameButTrust t) {e : CBlockIndex}
    (he : t.entry hash = some e) : t'.entry hash = some { e with nChainTrust := t'.nChainTrust hash } := by
  have hmap := h hash
  rw [he, Option.map_some, Option.map_eq_some_iff] at hmap
  obtain ⟨e', he', heq⟩ := hmap
  rw [he', BlockTree.nChainTrust_eq he']
  exact congrArg some (congrArg (fun e : CBlockIndex => { e with nChainTrust := e'.nChainTrust }) heq)

theorem BlockTree.sameButTrust_setChainTrust (t : BlockTree) (hash : Uint256) (nChainTrust : Uint256) :
    (t.setChainTrust hash nChainTrust).SameButTrust t := by
  intro x
  rw [entry_setChainTrust]
  split
  · cases t.entry x <;> rfl
  · rfl

/-- **`nChainTrust`, recomputed**: the trust of the block on top of its predecessor's. -/
theorem loadEntry_spec {trust : Uint256 → Uint256} (htrust : ∀ hash e, t.entry hash = some e →
      trust hash = ((e.pprev.map trust).getD 0 + e.getBlockTrust) % 2 ^ 256) :
    (∀ hash, (t.sortedByHeight.foldl loadEntry (t, ∅)).1.entry hash =
        (t.entry hash).map fun e => { e with nChainTrust := trust hash }) ∧
      ∀ hash, hash ∈ (t.sortedByHeight.foldl loadEntry (t, ∅)).2 ↔ ∃ e, t.entry hash = some e ∧
        BLOCK_VALID_TRANSACTIONS ≤ e.nStatus.nValid ∧ e.nStatus.failed = false := by
  obtain ⟨hall, hsorted⟩ := t.sortedByHeight_spec
  have hround : ∀ (state : BlockTree × Finset Uint256) (e : CBlockIndex) (hash : Uint256),
      state.1.SameButTrust t → t.entry hash = some e → loadEntry state hash =
        (state.1.setChainTrust hash
          (((e.pprev.map state.1.nChainTrust).getD 0 + e.getBlockTrust) % 2 ^ 256),
        if BLOCK_VALID_TRANSACTIONS ≤ e.nStatus.nValid ∧ e.nStatus.failed = false then
          insert hash state.2
        else state.2) := by
    intro state e hash hsame he
    rw [loadEntry, hsame.entry he]
    rfl
  have hkeep : ∀ state : BlockTree × Finset Uint256, ∀ hash ∈ t.sortedByHeight,
      state.1.SameButTrust t → (loadEntry state hash).1.SameButTrust t := by
    intro state hash hmem hsame x
    obtain ⟨e, he⟩ := (hall hash).mp hmem
    rw [hround state e hash hsame he]
    exact (BlockTree.sameButTrust_setChainTrust state.1 hash _ x).trans (hsame x)
  have hself : ∀ state : BlockTree × Finset Uint256, ∀ hash ∈ t.sortedByHeight,
      state.1.SameButTrust t → (loadEntry state hash).1.nChainTrust hash =
        (((t.pprevOf hash).map state.1.nChainTrust).getD 0 +
          ((t.entry hash).map CBlockIndex.getBlockTrust).getD 0) % 2 ^ 256 := by
    intro state hash hmem hsame
    obtain ⟨e, he⟩ := (hall hash).mp hmem
    rw [hround state e hash hsame he, BlockTree.nChainTrust, BlockTree.entry_setChainTrust, if_pos rfl,
      hsame.entry he]
    simp only [Option.map_some, Option.getD_some, he, BlockTree.pprevOf, Option.bind_some]
  have hother : ∀ state : BlockTree × Finset Uint256, ∀ hash ∈ t.sortedByHeight,
      state.1.SameButTrust t → ∀ other, other ≠ hash →
        (loadEntry state hash).1.nChainTrust other = state.1.nChainTrust other := by
    intro state hash hmem hsame other hne
    obtain ⟨e, he⟩ := (hall hash).mp hmem
    rw [hround state e hash hsame he, BlockTree.nChainTrust, BlockTree.entry_setChainTrust, if_neg hne]
    rfl
  have htarget : ∀ hash ∈ t.sortedByHeight, trust hash = (((t.pprevOf hash).map trust).getD 0 +
      ((t.entry hash).map CBlockIndex.getBlockTrust).getD 0) % 2 ^ 256 := by
    intro hash hmem
    obtain ⟨e, he⟩ := (hall hash).mp hmem
    rw [htrust hash e he, he, BlockTree.pprevOf, he]
    rfl
  obtain ⟨hsame, htrusts⟩ := foldl_recompute t.ranked loadEntry
    (fun (state : BlockTree × Finset Uint256) hash => state.1.nChainTrust hash)
    (fun hash prev => (prev.getD 0 + ((t.entry hash).map CBlockIndex.getBlockTrust).getD 0) % 2 ^ 256)
    hkeep hself hother hsorted t.parents_sortedByHeight htarget (s := (t, ∅)) fun _ => rfl
  refine ⟨fun hash => ?_, fun hash => ?_⟩
  · cases he : t.entry hash with
    | none =>
      have hnone := hsame hash
      rw [he, Option.map_none, Option.map_eq_none_iff] at hnone
      rw [hnone, Option.map_none]
    | some e =>
      rw [hsame.entry he, htrusts hash ((hall hash).mpr ⟨e, he⟩), Option.map_some]
  · -- Every entry is looked at once.
    have hvalid : ∀ (l : List Uint256) (state : BlockTree × Finset Uint256),
        (∀ hash ∈ l, t.Indexed hash) → state.1.SameButTrust t →
        ∀ hash, hash ∈ (l.foldl loadEntry state).2 ↔ hash ∈ state.2 ∨ hash ∈ l ∧
          ∃ e, t.entry hash = some e ∧ BLOCK_VALID_TRANSACTIONS ≤ e.nStatus.nValid ∧
            e.nStatus.failed = false := by
      intro l
      induction l with
      | nil => simp
      | cons first l ih =>
        intro state hindexed hsame hash
        rw [List.forall_mem_cons] at hindexed
        obtain ⟨e, he⟩ := hindexed.1
        rw [List.foldl_cons, ih _ hindexed.2 (hkeep state first ((hall first).mpr ⟨e, he⟩) hsame),
          hround state e first hsame he, List.mem_cons]
        by_cases hgood : BLOCK_VALID_TRANSACTIONS ≤ e.nStatus.nValid ∧ e.nStatus.failed = false
        · rw [if_pos hgood, Finset.mem_insert]
          constructor
          · rintro ((rfl | hmem) | ⟨hmem, hrest⟩)
            · exact .inr ⟨.inl rfl, e, he, hgood⟩
            · exact .inl hmem
            · exact .inr ⟨.inr hmem, hrest⟩
          · rintro (hmem | ⟨rfl | hmem, hrest⟩)
            · exact .inl (.inr hmem)
            · exact .inl (.inl rfl)
            · exact .inr ⟨hmem, hrest⟩
        · rw [if_neg hgood]
          constructor
          · rintro (hmem | ⟨hmem, hrest⟩)
            · exact .inl hmem
            · exact .inr ⟨.inr hmem, hrest⟩
          · rintro (hmem | ⟨rfl | hmem, e', he', hrest⟩)
            · exact .inl hmem
            · obtain rfl := Option.some.inj (he.symm.trans he')
              exact absurd hrest hgood
            · exact .inr ⟨hmem, e', he', hrest⟩
    rw [hvalid _ _ (fun hash hmem => (hall hash).mp hmem) fun _ => rfl]
    simp only [Finset.notMem_empty, false_or]
    exact and_iff_right_of_imp fun h => (hall hash).mpr (h.imp fun e he => he.1)

/-- **`nChainTx`, recomputed.** -/
theorem loadDetails_spec {details target : Uint256 → IndexDetails}
    (hsame : ∀ hash, t.Indexed hash → (target hash).copied = (details hash).copied)
    (htarget : ∀ hash e, t.entry hash = some e → (target hash).nChainTx =
      ((e.pprev.map fun pprev => (target pprev).nChainTx).getD 0 + (target hash).nTx) % 2 ^ 32) :
    ∀ hash, t.Indexed hash → loadDetails t details hash = target hash := by
  obtain ⟨hall, hsorted⟩ := t.sortedByHeight_spec
  have hkeep : ∀ details', ∀ hash ∈ t.sortedByHeight,
      (∀ x, (details' x).copied = (details x).copied) →
      ∀ x, (loadChainTx t details' hash x).copied = (details x).copied := by
    intro details' hash _ hkept x
    rw [loadChainTx]
    by_cases hx : x = hash
    · rw [hx, Function.update_self, ← hkept hash]
      rfl
    · rw [Function.update_of_ne hx, hkept x]
  have hself : ∀ details', ∀ hash ∈ t.sortedByHeight,
      (∀ x, (details' x).copied = (details x).copied) →
      (loadChainTx t details' hash hash).nChainTx =
        (((t.pprevOf hash).map fun pprev => (details' pprev).nChainTx).getD 0 +
          (details hash).nTx) % 2 ^ 32 := by
    intro details' hash _ hkept
    have htx : (details' hash).nTx = (details hash).nTx := IndexDetails.nTx_eq (hkept hash)
    rw [loadChainTx, Function.update_self, htx]
  have hother : ∀ details', ∀ hash ∈ t.sortedByHeight,
      (∀ x, (details' x).copied = (details x).copied) → ∀ other, other ≠ hash →
      (loadChainTx t details' hash other).nChainTx = (details' other).nChainTx := by
    intro details' hash _ _ other hne
    rw [loadChainTx, Function.update_of_ne hne]
  have hwanted : ∀ hash ∈ t.sortedByHeight, (target hash).nChainTx =
      (((t.pprevOf hash).map fun pprev => (target pprev).nChainTx).getD 0 +
        (details hash).nTx) % 2 ^ 32 := by
    intro hash hmem
    obtain ⟨e, he⟩ := (hall hash).mp hmem
    have htx : (target hash).nTx = (details hash).nTx := IndexDetails.nTx_eq (hsame hash ⟨e, he⟩)
    rw [htarget hash e he, htx, BlockTree.pprevOf, he]
    rfl
  obtain ⟨hkept, htxs⟩ := foldl_recompute t.ranked (loadChainTx t)
    (fun details' hash => (details' hash).nChainTx)
    (fun hash prev => (prev.getD 0 + (details hash).nTx) % 2 ^ 32)
    hkeep hself hother hsorted t.parents_sortedByHeight hwanted (s := details) fun _ => rfl
  intro hash hhash
  have hcopied := (hkept hash).trans (hsame hash hhash).symm
  have hchain := htxs hash ((hall hash).mpr hhash)
  rw [loadDetails]
  generalize t.sortedByHeight.foldl (loadChainTx t) details hash = result at hcopied hchain
  generalize target hash = wanted at hcopied hchain
  cases result
  cases wanted
  simp only [IndexDetails.copied, IndexDetails.mk.injEq] at hcopied hchain ⊢
  simp only [hcopied, hchain, and_self]

/-! ### The loaded node -/

/-- Links of the best chain leave everything but `pnext`. -/
theorem BlockTree.foldl_linkNext_entry (l : List Uint256) (t : BlockTree) (hash : Uint256) :
    (l.foldl linkNext t).entry hash =
      (t.entry hash).map fun e => { e with pnext := (l.foldl linkNext t).pnextOf hash } := by
  have hkeep : ∀ (l : List Uint256) (t : BlockTree),
      ((l.foldl linkNext t).entry hash).map (fun e => { e with pnext := none }) =
        (t.entry hash).map fun e => { e with pnext := none } := by
    intro l
    induction l with
    | nil => exact fun _ => rfl
    | cons first l ih =>
      intro t
      rw [List.foldl_cons, ih, linkNext]
      split
      · rfl
      · rw [entry_setNext]
        split
        · cases t.entry hash <;> rfl
        · rfl
  have hmap := hkeep l t
  rw [pnextOf]
  generalize (l.foldl linkNext t).entry hash = after at hmap
  cases he : t.entry hash with
  | none =>
    rw [he, Option.map_none, Option.map_eq_none_iff] at hmap
    rw [hmap, Option.map_none]
  | some e =>
    rw [he, Option.map_some, Option.map_eq_some_iff] at hmap
    obtain ⟨e', rfl, heq⟩ := hmap
    exact congrArg some (congrArg (fun x : CBlockIndex => { x with pnext := e'.pnext }) heq)

/-- **The node after the program started**: trusts and links are recomputed, the set holds the
blocks that have not failed, and the best block is that of the coins. -/
theorem loadBlockIndexDB_spec (trust : Uint256 → Uint256)
    (htrust : ∀ hash e, t.entry hash = some e →
      trust hash = ((e.pprev.map trust).getD 0 + e.getBlockTrust) % 2 ^ 256)
    (hnext : ∀ hash, t.pnextOf hash = none) (pcoinsTip : CCoinsViewCache CCoinsViewDB)
    (hbest : ∀ best, pcoinsTip.contents.best = some best → t.Indexed best)
    (nBestInvalidTrust : Uint256) (disk : BlockFiles) {node : Node}
    (hnode : loadBlockIndexDB t pcoinsTip nBestInvalidTrust disk = node) :
    node.Coherent ∧ node.pindexBest = pcoinsTip.contents.best ∧
      (node.pindexBest = none →
        node.hashBestChain = 0 ∧ node.nBestHeight = -1 ∧ node.nBestChainTrust = 0) ∧
      (∀ hash, node.mapBlockIndex.entry hash = (t.entry hash).map fun e =>
        { e with nChainTrust := trust hash, pnext := node.mapBlockIndex.pnextOf hash }) ∧
      ∀ hash, hash ∈ node.setBlockIndexValid ↔ ∃ e, t.entry hash = some e ∧
        BLOCK_VALID_TRANSACTIONS ≤ e.nStatus.nValid ∧ e.nStatus.failed = false := by
  have hcoherent : node.Coherent := hnode ▸ coherent_loadBlockIndexDB hnext hbest _ _
  obtain ⟨hentry, hvalid⟩ := loadEntry_spec htrust
  obtain ⟨hval, -, -⟩ := pcoinsTip.getBestBlock_spec
  unfold loadBlockIndexDB at hnode
  generalize t.sortedByHeight.foldl loadEntry (t, ∅) = state at hnode hentry hvalid
  generalize pcoinsTip.getBestBlock = read at hnode hval
  obtain ⟨t', valid⟩ := state
  obtain ⟨pindexBest, tip⟩ := read
  dsimp only at hnode hentry hvalid hval
  cases pindexBest with
  | none =>
    subst hnode
    refine ⟨hcoherent, hval, fun _ => ⟨rfl, rfl, rfl⟩, fun hash => ?_, hvalid⟩
    have hnone : t'.pnextOf hash = none := by
      have hlink := hnext hash
      rw [BlockTree.pnextOf] at hlink ⊢
      rw [hentry]
      cases he : t.entry hash with
      | none => rfl
      | some e =>
        rw [he, Option.bind_some] at hlink
        exact hlink
    rw [hentry]
    cases he : t.entry hash with
    | none => rfl
    | some e =>
      have hlink := hnext hash
      rw [BlockTree.pnextOf, he, Option.bind_some] at hlink
      rw [Option.map_some, Option.map_some, hnone, ← hlink]
  | some best =>
    subst hnode
    refine ⟨hcoherent, hval, fun h => absurd h (Option.some_ne_none best), fun hash => ?_, hvalid⟩
    show ((t'.ancestry (some best)).foldl BlockTree.linkNext t').entry hash = _
    rw [BlockTree.foldl_linkNext_entry, hentry, Option.map_map]
    rfl

end LoadBlockIndexDB

end Manna
