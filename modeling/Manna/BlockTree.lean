import Manna.Block
import Mathlib.Data.Finmap
import Mathlib.Logic.Function.Basic

/-!
The block index as a tree (`mapBlockIndex`).

The entries are linked by `pprev`; what `AddToBlockIndex` establishes about the links is
part of the type (`Links`): an entry is filed under its hash, its parent is filed too, and
its height, an `int`, is one more than its parent's. Of an entry only `pnext`, the status and
the money supply change over time (`modify`); the rest is its `fixed` part.
-/

namespace Manna

/-- What never changes of an entry once it is in the index. -/
def CBlockIndex.fixed (e : CBlockIndex) : CBlockIndex :=
  { e with pnext := none, nStatus := ⟨0, false, false, false, false⟩, nMoneySupply := 0 }

theorem CBlockIndex.fixed_eq_iff {e e' : CBlockIndex} :
    e.fixed = e'.fixed ↔ e.phashBlock = e'.phashBlock ∧ e.pprev = e'.pprev ∧
      e.nHeight = e'.nHeight ∧ e.nChainTrust = e'.nChainTrust ∧ e.nTime = e'.nTime ∧ e.nBits = e'.nBits := by
  simp only [fixed, CBlockIndex.mk.injEq, true_and]

/-- The links of an index are in order. -/
structure Links (entry : Uint256 → Option CBlockIndex) : Prop where
  hash_eq : ∀ {hash e}, entry hash = some e → e.phashBlock = hash
  parent : ∀ {hash e pprev}, entry hash = some e → e.pprev = some pprev →
    ∃ p, entry pprev = some p ∧ e.nHeight = p.nHeight + 1
  root : ∀ {hash e}, entry hash = some e → e.pprev = none → e.nHeight = 0
  height_nonneg : ∀ {hash e}, entry hash = some e → 0 ≤ e.nHeight
  height_le : ∀ {hash e}, entry hash = some e → e.nHeight ≤ INT_MAX

/-- The block index: entries by hash, with their links in order. -/
structure BlockTree where
  entries : Finmap fun _ : Uint256 => CBlockIndex
  links : Links fun hash => entries.lookup hash

namespace BlockTree

/-- The entry with a hash. -/
def entry (t : BlockTree) (hash : Uint256) : Option CBlockIndex := t.entries.lookup hash

variable {t t' : BlockTree} {hash : Uint256} {e : CBlockIndex}

theorem hash_eq (t : BlockTree) (he : t.entry hash = some e) : e.phashBlock = hash :=
  t.links.hash_eq he

theorem parent (t : BlockTree) {pprev : Uint256} (he : t.entry hash = some e)
    (hprev : e.pprev = some pprev) : ∃ p, t.entry pprev = some p ∧ e.nHeight = p.nHeight + 1 :=
  t.links.parent he hprev

theorem root (t : BlockTree) (he : t.entry hash = some e) (hprev : e.pprev = none) : e.nHeight = 0 :=
  t.links.root he hprev

theorem height_nonneg (t : BlockTree) (he : t.entry hash = some e) : 0 ≤ e.nHeight :=
  t.links.height_nonneg he

theorem height_le (t : BlockTree) (he : t.entry hash = some e) : e.nHeight ≤ INT_MAX :=
  t.links.height_le he

/-- An index without entries. -/
def empty : BlockTree where
  entries := ∅
  links := ⟨by simp, by simp, by simp, by simp, by simp⟩

@[simp] theorem entry_empty (hash : Uint256) : empty.entry hash = none := Finmap.lookup_empty _

/-! ### Adding an entry -/

/-- An entry that can be filed: it is new, and its parent, if it names one, is there. -/
structure New (t : BlockTree) (e : CBlockIndex) : Prop where
  fresh : t.entry e.phashBlock = none
  parent : ∀ {pprev}, e.pprev = some pprev → ∃ p, t.entry pprev = some p ∧ e.nHeight = p.nHeight + 1
  root : e.pprev = none → e.nHeight = 0
  height_le : e.nHeight ≤ INT_MAX

theorem New.height_nonneg (h : t.New e) : 0 ≤ e.nHeight := by
  cases hprev : e.pprev with
  | none => rw [h.root hprev]
  | some pprev =>
    obtain ⟨p, hp, hheight⟩ := h.parent hprev
    have := t.height_nonneg hp
    omega

theorem lookup_insert_entry (entries : Finmap fun _ : Uint256 => CBlockIndex) (hash' : Uint256)
    (e : CBlockIndex) (hash : Uint256) :
    (entries.insert hash' e).lookup hash = if hash = hash' then some e else entries.lookup hash := by
  split
  · next heq => rw [heq, Finmap.lookup_insert]
  · next hne => exact Finmap.lookup_insert_of_ne _ hne

theorem New.links (h : t.New e) : Links fun hash => (t.entries.insert e.phashBlock e).lookup hash := by
  have hcases : ∀ {hash e'}, (t.entries.insert e.phashBlock e).lookup hash = some e' →
      (hash = e.phashBlock ∧ e' = e) ∨ t.entry hash = some e' := by
    intro hash e' h
    rw [lookup_insert_entry] at h
    split at h
    · next heq => exact .inl ⟨heq, (Option.some.inj h).symm⟩
    · exact .inr h
  have hkeep : ∀ {hash e'}, t.entry hash = some e' →
      (t.entries.insert e.phashBlock e).lookup hash = some e' := by
    intro hash e' he'
    rw [lookup_insert_entry, if_neg]
    · exact he'
    · rintro rfl
      rw [h.fresh] at he'
      cases he'
  constructor
  · intro hash e' he'
    rcases hcases he' with ⟨rfl, rfl⟩ | hold
    · rfl
    · exact t.hash_eq hold
  · intro hash e' pprev he' hprev
    have hparent : ∃ p, t.entry pprev = some p ∧ e'.nHeight = p.nHeight + 1 := by
      rcases hcases he' with ⟨rfl, rfl⟩ | hold
      · exact h.parent hprev
      · exact t.parent hold hprev
    obtain ⟨p, hp, hheight⟩ := hparent
    exact ⟨p, hkeep hp, hheight⟩
  · intro hash e' he' hprev
    rcases hcases he' with ⟨rfl, rfl⟩ | hold
    · exact h.root hprev
    · exact t.root hold hprev
  · intro hash e' he'
    rcases hcases he' with ⟨rfl, rfl⟩ | hold
    · exact h.height_nonneg
    · exact t.height_nonneg hold
  · intro hash e' he'
    rcases hcases he' with ⟨rfl, rfl⟩ | hold
    · exact h.height_le
    · exact t.height_le hold

/-- File a new entry. -/
def insert (t : BlockTree) (e : CBlockIndex) (h : t.New e) : BlockTree where
  entries := t.entries.insert e.phashBlock e
  links := h.links

theorem entry_insert (h : t.New e) (hash : Uint256) :
    (t.insert e h).entry hash = if hash = e.phashBlock then some e else t.entry hash :=
  lookup_insert_entry ..

theorem entry_insert_self (h : t.New e) : (t.insert e h).entry e.phashBlock = some e := by
  rw [entry_insert, if_pos rfl]

theorem entry_insert_of_entry (h : t.New e) {e' : CBlockIndex} (he' : t.entry hash = some e') :
    (t.insert e h).entry hash = some e' := by
  rw [entry_insert, if_neg]
  · exact he'
  · rintro rfl
    rw [h.fresh] at he'
    cases he'

/-- The index of a node that knows one block, without a predecessor. -/
def single (e : CBlockIndex) (hprev : e.pprev = none) (hheight : e.nHeight = 0) : BlockTree :=
  empty.insert e
    { fresh := entry_empty _
      parent := fun hsome => by
        rw [hprev] at hsome
        cases hsome
      root := fun _ => hheight
      height_le := by
        rw [hheight]
        decide }

theorem entry_single (hprev : e.pprev = none) (hheight : e.nHeight = 0) (hash : Uint256) :
    (single e hprev hheight).entry hash = if hash = e.phashBlock then some e else none := by
  rw [single, entry_insert, entry_empty]

/-! ### Changing an entry -/

/-- A change of an entry that leaves its links alone. -/
abbrev KeepsLinks (f : CBlockIndex → CBlockIndex) : Prop :=
  ∀ e, (f e).phashBlock = e.phashBlock ∧ (f e).pprev = e.pprev ∧ (f e).nHeight = e.nHeight

/-- The entries with one of them changed. -/
def modifyEntries (entries : Finmap fun _ : Uint256 => CBlockIndex) (hash : Uint256)
    (f : CBlockIndex → CBlockIndex) : Finmap fun _ : Uint256 => CBlockIndex :=
  match entries.lookup hash with
  | none => entries
  | some e => entries.insert hash (f e)

theorem lookup_modifyEntries (entries : Finmap fun _ : Uint256 => CBlockIndex) (hash' : Uint256)
    (f : CBlockIndex → CBlockIndex) (hash : Uint256) : (modifyEntries entries hash' f).lookup hash =
      if hash = hash' then (entries.lookup hash).map f else entries.lookup hash := by
  unfold modifyEntries
  cases hlookup : entries.lookup hash' with
  | none =>
    by_cases heq : hash = hash'
    · rw [if_pos heq, heq, hlookup]
      rfl
    · rw [if_neg heq]
  | some e =>
    simp only [lookup_insert_entry]
    by_cases heq : hash = hash'
    · rw [if_pos heq, if_pos heq, heq, hlookup]
      rfl
    · rw [if_neg heq, if_neg heq]

variable {f : CBlockIndex → CBlockIndex}

theorem links_modifyEntries (t : BlockTree) (hash' : Uint256)
    (hf : KeepsLinks f) : Links fun hash => (modifyEntries t.entries hash' f).lookup hash := by
  have hback : ∀ {hash e'}, (modifyEntries t.entries hash' f).lookup hash = some e' →
      ∃ e, t.entry hash = some e ∧ e'.phashBlock = e.phashBlock ∧ e'.pprev = e.pprev ∧
        e'.nHeight = e.nHeight := by
    intro hash e' he'
    rw [lookup_modifyEntries] at he'
    split at he'
    · obtain ⟨e, he, rfl⟩ := Option.map_eq_some_iff.mp he'
      exact ⟨e, he, hf e⟩
    · exact ⟨e', he', rfl, rfl, rfl⟩
  have hforth : ∀ {hash e}, t.entry hash = some e →
      ∃ e', (modifyEntries t.entries hash' f).lookup hash = some e' ∧ e'.nHeight = e.nHeight := by
    intro hash e he
    rw [lookup_modifyEntries]
    split
    · exact ⟨f e, by rw [show t.entries.lookup hash = some e from he]; rfl, (hf e).2.2⟩
    · exact ⟨e, he, rfl⟩
  constructor
  · intro hash e' he'
    obtain ⟨e, he, hhash, -⟩ := hback he'
    rw [hhash, t.hash_eq he]
  · intro hash e' pprev he' hprev'
    obtain ⟨e, he, -, hprev, hheight⟩ := hback he'
    obtain ⟨p, hp, hparent⟩ := t.parent he (hprev ▸ hprev')
    obtain ⟨p', hp', hsame⟩ := hforth hp
    exact ⟨p', hp', by rw [hheight, hparent, hsame]⟩
  · intro hash e' he' hprev'
    obtain ⟨e, he, -, hprev, hheight⟩ := hback he'
    rw [hheight, t.root he (hprev ▸ hprev')]
  · intro hash e' he'
    obtain ⟨e, he, -, -, hheight⟩ := hback he'
    rw [hheight]
    exact t.height_nonneg he
  · intro hash e' he'
    obtain ⟨e, he, -, -, hheight⟩ := hback he'
    rw [hheight]
    exact t.height_le he

/-- Change the entry of one hash. -/
def modify (t : BlockTree) (hash : Uint256) (f : CBlockIndex → CBlockIndex) (hf : KeepsLinks f) :
    BlockTree where
  entries := modifyEntries t.entries hash f
  links := t.links_modifyEntries hash hf

theorem entry_modify (t : BlockTree) (hash' : Uint256) (hf : KeepsLinks f) (hash : Uint256) :
    (t.modify hash' f hf).entry hash = if hash = hash' then (t.entry hash).map f else t.entry hash :=
  lookup_modifyEntries ..

/-- The status and money supply a call left in an entry. -/
def setWritten (t : BlockTree) (pindex : CBlockIndex) : BlockTree :=
  t.modify pindex.phashBlock
    (fun e => { e with nStatus := pindex.nStatus, nMoneySupply := pindex.nMoneySupply })
    fun _ => ⟨rfl, rfl, rfl⟩

def setNext (t : BlockTree) (hash : Uint256) (pnext : Option Uint256) : BlockTree :=
  t.modify hash (fun e => { e with pnext := pnext }) fun _ => ⟨rfl, rfl, rfl⟩

/-- Raise a failure flag of an entry. -/
def setStatus (t : BlockTree) (hash : Uint256) (f : BlockStatus → BlockStatus) : BlockTree :=
  t.modify hash (fun e => { e with nStatus := f e.nStatus }) fun _ => ⟨rfl, rfl, rfl⟩

/-- `nChainTrust` of an entry. -/
def setChainTrust (t : BlockTree) (hash : Uint256) (nChainTrust : Uint256) : BlockTree :=
  t.modify hash (fun e => { e with nChainTrust := nChainTrust }) fun _ => ⟨rfl, rfl, rfl⟩

theorem entry_setWritten (t : BlockTree) (pindex : CBlockIndex) (hash : Uint256) :
    (t.setWritten pindex).entry hash =
      if hash = pindex.phashBlock then
        (t.entry hash).map fun e =>
          { e with nStatus := pindex.nStatus, nMoneySupply := pindex.nMoneySupply }
      else t.entry hash :=
  lookup_modifyEntries ..

theorem entry_setNext (t : BlockTree) (hash' : Uint256) (pnext : Option Uint256) (hash : Uint256) :
    (t.setNext hash' pnext).entry hash =
      if hash = hash' then (t.entry hash).map fun e => { e with pnext := pnext }
      else t.entry hash :=
  lookup_modifyEntries ..

theorem entry_setStatus (t : BlockTree) (hash' : Uint256) (f : BlockStatus → BlockStatus)
    (hash : Uint256) :
    (t.setStatus hash' f).entry hash =
      if hash = hash' then (t.entry hash).map fun e => { e with nStatus := f e.nStatus }
      else t.entry hash :=
  lookup_modifyEntries ..

theorem entry_setChainTrust (t : BlockTree) (hash' nChainTrust : Uint256) (hash : Uint256) :
    (t.setChainTrust hash' nChainTrust).entry hash =
      if hash = hash' then (t.entry hash).map fun e => { e with nChainTrust := nChainTrust }
      else t.entry hash :=
  lookup_modifyEntries ..

/-- `t'` has the entries of `t`, up to what changes. -/
def Extends (t' t : BlockTree) : Prop :=
  ∀ hash e, t.entry hash = some e → ∃ e', t'.entry hash = some e' ∧ e'.fixed = e.fixed

theorem Extends.refl (t : BlockTree) : t.Extends t := fun _ e he => ⟨e, he, rfl⟩

theorem Extends.trans {t'' : BlockTree} (h : t''.Extends t') (h' : t'.Extends t) : t''.Extends t := by
  intro hash e he
  obtain ⟨e', he', heq'⟩ := h' hash e he
  obtain ⟨e'', he'', heq''⟩ := h hash e' he'
  exact ⟨e'', he'', heq''.trans heq'⟩

theorem extends_modify (t : BlockTree) (hash' : Uint256)
    (hf : KeepsLinks f) (hfixed : ∀ e, (f e).fixed = e.fixed) :
    (t.modify hash' f hf).Extends t ∧ t.Extends (t.modify hash' f hf) := by
  constructor
  · intro hash e he
    rw [entry_modify, he]
    split
    · exact ⟨f e, rfl, hfixed e⟩
    · exact ⟨e, rfl, rfl⟩
  · intro hash e' he'
    rw [entry_modify] at he'
    split at he'
    · obtain ⟨e, he, rfl⟩ := Option.map_eq_some_iff.mp he'
      exact ⟨e, he, (hfixed e).symm⟩
    · exact ⟨e', he', rfl⟩

theorem extends_setWritten (t : BlockTree) (pindex : CBlockIndex) :
    (t.setWritten pindex).Extends t ∧ t.Extends (t.setWritten pindex) :=
  t.extends_modify _ _ fun _ => rfl

theorem extends_insert (h : t.New e) : (t.insert e h).Extends t :=
  fun _ e' he' => ⟨e', entry_insert_of_entry h he', rfl⟩

end BlockTree

/-- The index of a node that knows the genesis block only. -/
def sampleTree : BlockTree :=
  .single (sampleEntry 1000 none 0 400) (by simp only [sampleEntry]) (by simp only [sampleEntry])

theorem entry_sampleTree (hash : Uint256) :
    sampleTree.entry hash = if hash = 1000 then some (sampleEntry 1000 none 0 400) else none :=
  BlockTree.entry_single ..

end Manna
