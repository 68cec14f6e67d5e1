import Manna.BlockFile
import Manna.LoadBlockIndex
import Manna.ValidSet

/-!
Ending the program and starting it again.

The program writes the entries of its index as `CDiskBlockIndex`, and reads them back at the next
start. All an entry says comes back, or is computed again, except for its money supply: the record
has it, but it is not copied from there.

* `IndexState.Reached`: the indexes of a program that starts without one;
* `IndexState.InOrder`: what holds of them, kept by every call;
* `restart_spec`: the index after a restart;
* `restart_same_iff`: it is the old one exactly when no entry has a money supply.
-/

namespace Manna

/-! ### The index with all its fields -/

/-- A node, with the fields of its entries that validation does not read. -/
structure IndexState where
  node : Node
  details : Uint256 → IndexDetails

/-- `nStatus & BLOCK_HAVE_UNDO` of an entry. -/
def BlockTree.haveUndo (t : BlockTree) (hash : Uint256) : Bool :=
  ((t.entry hash).map fun e => e.nStatus.haveUndo).getD false

/-- The other fields of the entry `AddToBlockIndex` makes of a block. -/
def newDetails (t : BlockTree) (details : Uint256 → IndexDetails) (block : CBlock)
    (pos : CDiskBlockPos) : IndexDetails where
  nFile := pos.nFile
  nDataPos := pos.nPos
  nUndoPos := 0
  nTx := block.vtx.length % 2 ^ 32
  nChainTx := (((t.entry block.hashPrevBlock).map fun _ =>
    (details block.hashPrevBlock).nChainTx).getD 0 + block.vtx.length % 2 ^ 32) % 2 ^ 32
  nVersion := block.nVersion
  hashMerkleRoot := block.hashMerkleRoot
  nNonce := block.nNonce

/-- A call that files or connects blocks: the block and where its data is stored, and where
`FindUndoPos` finds room for the undo record of each block that gets one. -/
structure Filing where
  out : Outside
  depth : Nat
  block : CBlock
  pos : CDiskBlockPos
  nUndoPos : Uint256 → Nat

namespace IndexState

/-- Before the first block. -/
def start (nBestInvalidTrust : Uint256) (disk : BlockFiles) : IndexState where
  node := loadBlockIndexDB .empty (.new ⟨fun _ => none, none⟩) nBestInvalidTrust disk
  details _ := .empty

/-- The positions of undo records that a call has written. -/
def after (nUndoPos : Uint256 → Nat) (t : BlockTree) (details : Uint256 → IndexDetails) (node : Node) :
    IndexState where
  node := node
  details hash :=
    if !t.haveUndo hash && node.mapBlockIndex.haveUndo hash then
      { details hash with nUndoPos := nUndoPos hash }
    else details hash

def addToBlockIndex (env : Env) (call : Filing) (s : IndexState) :
    Except Stuck (Except ChainError Unit × IndexState) :=
  let t := s.node.mapBlockIndex
  let hash := call.block.getHash env
  let details := if t.entry hash = none then
    Function.update s.details hash (newDetails t s.details call.block call.pos) else s.details
  match Manna.addToBlockIndex env call.out call.depth call.block s.node with
  | .error stuck => .error stuck
  | .ok (outcome, node) => .ok (outcome, after call.nUndoPos t details node)

def connectBestBlock (env : Env) (call : Filing) (s : IndexState) :
    Except Stuck (Except ChainError Unit × IndexState) :=
  match Manna.connectBestBlock env call.out call.depth s.node with
  | .error stuck => .error stuck
  | .ok (outcome, node) => .ok (outcome, after call.nUndoPos s.node.mapBlockIndex s.details node)

end IndexState

/-- The positions are values of their types, and there is room for the coins: the program ends
where there is none. -/
structure Filing.Goes (call : Filing) : Prop where
  fDiskSpace : ∀ hash, call.out.fDiskSpace hash = true
  fCoinFlush : ∀ hash, call.out.fCoinFlush hash = true
  nFile : call.pos.nFile < 2 ^ 31
  nPos : call.pos.nPos < 2 ^ 32
  nUndoPos : ∀ hash, call.nUndoPos hash < 2 ^ 32

/-- What is known of a block that is filed: its fields are values of their types, and
`AcceptBlock` has looked up the previous block, if it is not the first one. -/
structure Filing.Fits (env : Env) (s : IndexState) (call : Filing) : Prop where
  prev : call.block.hashPrevBlock = 0 ∨ s.node.mapBlockIndex.Indexed call.block.hashPrevBlock
  nVersion : -2 ^ 31 ≤ call.block.nVersion ∧ call.block.nVersion < 2 ^ 31
  hashPrevBlock : call.block.hashPrevBlock < 2 ^ 256
  hashMerkleRoot : call.block.hashMerkleRoot < 2 ^ 256
  nTime : call.block.nTime < 2 ^ 32
  nBits : call.block.nBits < 2 ^ 32
  nNonce : call.block.nNonce < 2 ^ 32

/-- The indexes of a program that started without one. -/
inductive IndexState.Reached (env : Env) : IndexState → Prop
  | start (nBestInvalidTrust : Uint256) (disk : BlockFiles) :
      IndexState.Reached env (.start nBestInvalidTrust disk)
  | add {s s' : IndexState} {call : Filing} {outcome : Except ChainError Unit}
      (h : IndexState.Reached env s) (hgoes : call.Goes) (hfits : call.Fits env s)
      (hrun : s.addToBlockIndex env call = .ok (outcome, s')) : IndexState.Reached env s'
  | connect {s s' : IndexState} {call : Filing} {outcome : Except ChainError Unit}
      (h : IndexState.Reached env s) (hgoes : call.Goes)
      (hrun : s.connectBestBlock env call = .ok (outcome, s')) : IndexState.Reached env s'

/-- A restart: every entry is written, the coins are flushed, and the program starts again, with
the records in some order. -/
def IndexState.Restarts (env : Env) (s : IndexState) (hashes : List Uint256) (s' : IndexState) :
    Prop :=
  ∃ (index : BlockIndexMap) (t : BlockTree),
    BlockIndexMap.loadBlockIndexGuts env (hashes.map (s.node.mapBlockIndex.record s.details)) =
      .ok index ∧ t.entries = index.entries ∧
    s' = ⟨loadBlockIndexDB t (.new s.node.pcoinsTip.flush.base) s.node.nBestInvalidTrust s.node.disk,
      loadDetails t index.details⟩

/-- The same entries with all their fields, the same blocks that have not failed and the same best
block. -/
structure IndexState.SameIndex (s' s : IndexState) : Prop where
  entries : ∀ hash, s'.node.mapBlockIndex.entry hash = s.node.mapBlockIndex.entry hash
  details : ∀ hash, s.node.mapBlockIndex.Indexed hash → s'.details hash = s.details hash
  setBlockIndexValid : ∀ hash, hash ∈ s'.node.setBlockIndexValid ↔
    hash ∈ s.node.setBlockIndexValid ∧ s.node.mapBlockIndex.failedOf hash = some false
  pindexBest : s'.node.pindexBest = s.node.pindexBest
  hashBestChain : s'.node.hashBestChain = s.node.hashBestChain
  nBestHeight : s'.node.nBestHeight = s.node.nBestHeight
  nBestChainTrust : s'.node.nBestChainTrust = s.node.nBestChainTrust

/-! ### What the writes keep -/

/-- The status and the trust of the entries are in order, and the set holds exactly the blocks that
have not failed. -/
structure BlockTree.InOrder (t : BlockTree) (valid : Finset Uint256) : Prop where
  haveData : ∀ {hash e}, t.entry hash = some e → e.nStatus.haveData = true
  nValid : ∀ {hash e}, t.entry hash = some e →
    e.nStatus.nValid = BLOCK_VALID_TRANSACTIONS ∨ e.nStatus.nValid = BLOCK_VALID_SCRIPTS
  nMoneySupply : ∀ {hash e}, t.entry hash = some e → InInt64 e.nMoneySupply
  nChainTrust : ∀ {hash e}, t.entry hash = some e →
    e.nChainTrust = ((e.pprev.map t.nChainTrust).getD 0 + e.getBlockTrust) % 2 ^ 256
  valid : ∀ hash, hash ∈ valid ↔ t.failedOf hash = some false

/-- The entries of `t` are those of `t₀`, and perhaps the new one if there is one; undo records are
not taken back. -/
structure BlockTree.Grows (t₀ : BlockTree) (pindexNew : Option CBlockIndex) (t : BlockTree) : Prop where
  kept : ∀ {hash e}, t₀.entry hash = some e → ∃ e', t.entry hash = some e' ∧ e'.fixed = e.fixed ∧
    (e.nStatus.haveUndo = true → e'.nStatus.haveUndo = true)
  back : ∀ {hash e'}, t.entry hash = some e' → t₀.Indexed hash ∨
    ∃ e, pindexNew = some e ∧ t₀.entry hash = none ∧ hash = e.phashBlock ∧ e'.fixed = e.fixed

namespace BlockTree

variable {t t' t₀ : BlockTree} {valid valid' : Finset Uint256} {pindexNew : Option CBlockIndex}
  {hash : Uint256}

theorem nChainTrust_of_extends (h : t'.Extends t) (h' : t.Extends t') (hash : Uint256) :
    t'.nChainTrust hash = t.nChainTrust hash := by
  cases he : t.entry hash with
  | some e => exact h.nChainTrust_eq ⟨e, he⟩
  | none =>
    cases he' : t'.entry hash with
    | none => rw [nChainTrust, nChainTrust, he, he']
    | some e' =>
      obtain ⟨e, hsome, -⟩ := h' hash e' he'
      rw [he] at hsome
      cases hsome

/-- A change of the status and the money supply of entries. -/
theorem InOrder.change (h : t.InOrder valid) (hextends : t'.Extends t)
    (hchange : ∀ {hash e'}, t'.entry hash = some e' → ∃ e, t.entry hash = some e ∧
      e'.fixed = e.fixed ∧ e'.nStatus.haveData = e.nStatus.haveData ∧
      (e'.nStatus.nValid = e.nStatus.nValid ∨ e'.nStatus.nValid = BLOCK_VALID_SCRIPTS) ∧
      (e'.nMoneySupply = e.nMoneySupply ∨ InInt64 e'.nMoneySupply))
    (hvalid : ∀ hash, hash ∈ valid' ↔ t'.failedOf hash = some false) : t'.InOrder valid' where
  haveData he' := by
    obtain ⟨e, he, -, hdata, -⟩ := hchange he'
    exact hdata.trans (h.haveData he)
  nValid he' := by
    obtain ⟨e, he, -, -, heq | heq, -⟩ := hchange he'
    · exact (h.nValid he).imp heq.trans heq.trans
    · exact .inr heq
  nMoneySupply he' := by
    obtain ⟨e, he, -, -, -, heq | hrange⟩ := hchange he'
    · exact heq ▸ h.nMoneySupply he
    · exact hrange
  nChainTrust he' := by
    obtain ⟨e, he, hfixed, -⟩ := hchange he'
    have hextends' : t.Extends t' := fun hash e' he' => by
      obtain ⟨e, he, hfixed, -⟩ := hchange he'
      exact ⟨e, he, hfixed.symm⟩
    obtain ⟨-, hprev, -, htrust, -, hbits⟩ := CBlockIndex.fixed_eq_iff.mp hfixed
    rw [htrust, hprev, h.nChainTrust he, CBlockIndex.getBlockTrust, CBlockIndex.getBlockTrust, hbits]
    rw [funext (nChainTrust_of_extends hextends hextends')]
  valid := hvalid

/-- **Every write keeps the index in order.** -/
theorem indexInvariant_inOrder : IndexInvariant InOrder where
  written {t valid hash e e'} h he hwritten := by
    have hkept := sameKept_setWritten he hwritten.kept
    have hhash := hash_of_kept he hwritten.kept
    refine h.change hkept.extends (fun {x e''} he'' => ?_) fun x => ?_
    · rw [entry_setWritten, hhash] at he''
      split at he''
      · next heq =>
        rw [heq, he] at he''
        obtain rfl := Option.some.inj he''
        refine ⟨e, heq ▸ he, ?_, hwritten.haveData, hwritten.nValid, hwritten.nMoneySupply⟩
        rfl
      · exact ⟨e'', he'', rfl, rfl, .inl rfl, .inl rfl⟩
    · rw [hkept.failedOf, h.valid]
  linked {t valid} hash pnext h := by
    refine h.change (t.extends_setNext hash pnext).1 (fun {x e'} he' => ?_) fun x => ?_
    · rw [entry_setNext] at he'
      split at he'
      · obtain ⟨e, he, rfl⟩ := Option.map_eq_some_iff.mp he'
        exact ⟨e, he, rfl, rfl, .inl rfl, .inl rfl⟩
      · exact ⟨e', he', rfl, rfl, .inl rfl, .inl rfl⟩
    · rw [failedOf_setNext, h.valid]
  failed {t valid} hash f h hf := by
    refine h.change (t.setStatus_frame hash f).1 (fun {x e'} he' => ?_) fun x => ?_
    · rw [entry_setStatus] at he'
      split at he'
      · obtain ⟨e, he, rfl⟩ := Option.map_eq_some_iff.mp he'
        exact ⟨e, he, rfl, hf.haveData _, .inl (hf.nValid _), .inl rfl⟩
      · exact ⟨e', he', rfl, rfl, .inl rfl, .inl rfl⟩
    · rw [Finset.mem_erase, h.valid]
      by_cases hx : x = hash
      · subst hx
        refine iff_of_false (fun hmem => hmem.1 rfl) fun hfailed => ?_
        rw [failedOf, entry_setStatus, if_pos rfl, Option.map_map, Option.map_eq_some_iff] at hfailed
        obtain ⟨e, -, hflag⟩ := hfailed
        exact Bool.false_ne_true (hflag.symm.trans (hf.failed _))
      · rw [failedOf_setStatus_of_ne hx, and_iff_right hx]

theorem InOrder.insert (h : t.InOrder valid) {env : Env} {block : CBlock}
    (hnew : t.New (newEntry env t block)) :
    (t.insert _ hnew).InOrder (Insert.insert (block.getHash env) valid) := by
  have hextends := extends_insert hnew
  have hparent : ∀ {e pprev}, (∃ hash, t.entry hash = some e) ∨ e = newEntry env t block →
      e.pprev = some pprev → (t.insert _ hnew).nChainTrust pprev = t.nChainTrust pprev := by
    rintro e pprev (⟨hash, he⟩ | rfl) hprev
    · obtain ⟨p, hp, -⟩ := t.parent he hprev
      exact hextends.nChainTrust_eq ⟨p, hp⟩
    · obtain ⟨p, hp, -⟩ := hnew.parent hprev
      exact hextends.nChainTrust_eq ⟨p, hp⟩
  have htrust : ∀ {e}, (∃ hash, t.entry hash = some e) ∨ e = newEntry env t block →
      (e.pprev.map (t.insert _ hnew).nChainTrust).getD 0 = (e.pprev.map t.nChainTrust).getD 0 := by
    intro e he
    cases hprev : e.pprev with
    | none => rfl
    | some pprev => exact hparent he hprev
  have hcases : ∀ {hash e}, (t.insert _ hnew).entry hash = some e →
      e = newEntry env t block ∨ t.entry hash = some e := by
    intro hash e he
    rw [entry_insert] at he
    split at he
    · exact .inl (Option.some.inj he).symm
    · exact .inr he
  constructor
  · intro hash e he
    rcases hcases he with rfl | hold
    · rfl
    · exact h.haveData hold
  · intro hash e he
    rcases hcases he with rfl | hold
    · exact .inl rfl
    · exact h.nValid hold
  · intro hash e he
    rcases hcases he with rfl | hold
    · have hzero : InInt64 0 := ⟨by decide, by decide⟩
      exact hzero
    · exact h.nMoneySupply hold
  · intro hash e he
    rcases hcases he with rfl | hold
    · rw [htrust (.inr rfl)]
      rfl
    · rw [htrust (.inl ⟨hash, hold⟩)]
      exact h.nChainTrust hold
  · intro hash
    have hname : (newEntry env t block).phashBlock = block.getHash env := rfl
    rw [Finset.mem_insert, failedOf, entry_insert, hname]
    split
    · next heq => exact iff_of_true (.inl heq) rfl
    · next hne => exact (or_iff_right hne).trans (h.valid hash)

theorem Grows.change (h : t₀.Grows pindexNew t) (hextends : t.Extends t')
    (hchange : ∀ {hash e}, t.entry hash = some e → ∃ e', t'.entry hash = some e' ∧
      e'.fixed = e.fixed ∧ (e.nStatus.haveUndo = true → e'.nStatus.haveUndo = true)) :
    t₀.Grows pindexNew t' where
  kept he := by
    obtain ⟨e', he', hfixed, hundo⟩ := h.kept he
    obtain ⟨e'', he'', hfixed', hundo'⟩ := hchange he'
    exact ⟨e'', he'', hfixed'.trans hfixed, hundo' ∘ hundo⟩
  back he'' := by
    obtain ⟨e', he', hfixed⟩ := hextends _ _ he''
    rcases h.back he' with hold | ⟨e, hnew, hnone, hname, hsame⟩
    · exact .inl hold
    · exact .inr ⟨e, hnew, hnone, hname, hfixed.symm.trans hsame⟩

theorem grows_refl (t : BlockTree) (pindexNew : Option CBlockIndex) : t.Grows pindexNew t where
  kept he := ⟨_, he, rfl, id⟩
  back he := .inl ⟨_, he⟩

theorem grows_insert {e : CBlockIndex} (hnew : t.New e) : t.Grows (some e) (t.insert e hnew) where
  kept he := ⟨_, entry_insert_of_entry hnew he, rfl, id⟩
  back {hash e'} he' := by
    rw [entry_insert] at he'
    split at he'
    · next heq =>
      obtain rfl := Option.some.inj he'
      exact .inr ⟨_, rfl, heq ▸ hnew.fresh, heq, rfl⟩
    · exact .inl ⟨e', he'⟩

theorem indexInvariant_grows (t₀ : BlockTree) (pindexNew : Option CBlockIndex) :
    IndexInvariant fun t _ => t₀.Grows pindexNew t where
  written {t valid hash e e'} h he hwritten := by
    have hkept := sameKept_setWritten he hwritten.kept
    have hhash := hash_of_kept he hwritten.kept
    refine h.change hkept.symm.extends fun {x e₀} he₀ => ?_
    rw [entry_setWritten, hhash, he₀]
    split
    · next heq =>
      obtain rfl : e = e₀ := Option.some.inj (he.symm.trans (heq ▸ he₀))
      exact ⟨_, rfl, rfl, hwritten.haveUndo⟩
    · exact ⟨e₀, rfl, rfl, id⟩
  linked {t valid} hash pnext h := by
    refine h.change (t.extends_setNext hash pnext).2 fun {x e} he => ?_
    rw [entry_setNext, he]
    split
    · exact ⟨_, rfl, rfl, id⟩
    · exact ⟨e, rfl, rfl, id⟩
  failed {t valid} hash f h hf := by
    refine h.change (t.setStatus_frame hash f).2.1 fun {x e} he => ?_
    rw [entry_setStatus, he]
    split
    · exact ⟨_, rfl, rfl, fun hundo => (hf.haveUndo _).trans hundo⟩
    · exact ⟨e, rfl, rfl, id⟩

end BlockTree

/-! ### The node -/

/-- A coherent node; the globals are as at the start while there is no best block. -/
structure Node.Running (node : Node) : Prop extends node.Coherent where
  idle : node.pindexBest = none →
    node.hashBestChain = 0 ∧ node.nBestHeight = -1 ∧ node.nBestChainTrust = 0

namespace Node.Running

variable {env : Env} {out : Outside} {node node' : Node} {outcome : Except ChainError Unit}

theorem unchanged (h : node.Running) (hsame : node'.Unchanged node) : node'.Running where
  toCoherent := h.toCoherent.unchanged hsame
  idle hnone := by
    rw [hsame.hashBestChain, hsame.nBestHeight, hsame.nBestChainTrust]
    exact h.idle (hsame.pindexBest ▸ hnone)

theorem attachBlocks {connectBest : Node → Call Unit} (hspace : ∀ hash, out.fDiskSpace hash = true)
    (hflush : ∀ hash, out.fCoinFlush hash = true) {vAttach : List Uint256} (h : node.Running)
    (hindexed : ∀ hash ∈ vAttach, node.mapBlockIndex.Indexed hash)
    (hrun : attachBlocks (setBestChain env out connectBest) vAttach node = .ok (outcome, node')) :
    node'.Running := by
  induction vAttach generalizing node with
  | nil =>
    cases hrun
    exact h
  | cons pindexSwitch vAttach ih =>
    rw [List.forall_mem_cons] at hindexed
    unfold Manna.attachBlocks at hrun
    split at hrun
    · cases hrun
    · next hcall =>
      cases hrun
      exact h.unchanged (setBestChain_error h.toCoherent hcall
        (Node.writeCoins_ne_error_of_space (hspace pindexSwitch) (hflush pindexSwitch)))
    · next hcall =>
      obtain ⟨hcoherent, hbest, hextends, -⟩ := setBestChain_ok h.toCoherent hindexed.1 hcall
      refine ih ⟨hcoherent, fun hnone => ?_⟩ (fun hash hmem => hextends.indexed (hindexed.2 hash hmem))
        hrun
      rw [hbest] at hnone
      cases hnone

theorem connectBestBlock (hspace : ∀ hash, out.fDiskSpace hash = true)
    (hflush : ∀ hash, out.fCoinFlush hash = true) {depth : Nat} (h : node.Running)
    (hflags : node.Unflagged) (hrun : connectBestBlock env out depth node = .ok (outcome, node')) :
    node'.Running := by
  cases depth with
  | zero => cases hrun
  | succ depth =>
    obtain ⟨selection, node₁, hselect, -, hsame⟩ := Node.selectBest_isSome hflags (Nat.lt_succ_self _)
    have hchosen := hselect _ (Nat.lt_succ_self _)
    unfold Manna.connectBestBlock at hrun
    rw [hchosen] at hrun
    cases selection with
    | nothing =>
      cases hrun
      exact h.unchanged hsame
    | attach vAttach =>
      exact (h.unchanged hsame).attachBlocks hspace hflush
        (Node.selectBest_indexed hflags hchosen) hrun

theorem addToBlockIndex (hspace : ∀ hash, out.fDiskSpace hash = true)
    (hflush : ∀ hash, out.fCoinFlush hash = true) {depth : Nat} {block : CBlock} (h : node.Running)
    (hflags : node.Unflagged)
    (hrun : addToBlockIndex env out depth block node = .ok (outcome, node')) : node'.Running := by
  unfold Manna.addToBlockIndex at hrun
  split at hrun
  · split at hrun
    · next hfresh hmax =>
      have hnew := new_newEntry hfresh hmax
      have hinsert : (node.insertBlock env block hnew).Running := ⟨h.toCoherent.insertBlock hnew, h.idle⟩
      dsimp only at hrun
      split at hrun
      · cases hrun
        exact hinsert
      · split at hrun
        · cases hrun
        · next hcall =>
          cases hrun
          exact hinsert.connectBestBlock hspace hflush (hflags.insertBlock hnew) hcall
        · next hcall =>
          have hconnect := hinsert.connectBestBlock hspace hflush (hflags.insertBlock hnew) hcall
          split at hrun
          · cases hrun; exact hconnect
          · cases hrun; exact hconnect
    · cases hrun
      exact h
  · cases hrun
    exact h

end Node.Running

/-! ### The fields of the entries -/

namespace CDiskBlockIndex.InRange

variable {e e' : CBlockIndex} {details details' : IndexDetails}

/-- The fields stay values of their types when the status and the supply change. -/
theorem change (h : (CDiskBlockIndex.of e details).InRange) (hfixed : e'.fixed = e.fixed)
    (hvalid : e'.nStatus.nValid < 8) (hsupply : InInt64 e'.nMoneySupply) :
    (CDiskBlockIndex.of e' details).InRange := by
  obtain ⟨-, hprev, hheight, -, htime, hbits⟩ := CBlockIndex.fixed_eq_iff.mp hfixed
  obtain ⟨h₁, -, h₃, h₄, h₅, h₆, -, h₈, h₉, h₁₀, h₁₁, h₁₂, h₁₃⟩ := h
  refine ⟨?_, hvalid, h₃, h₄, h₅, h₆, hsupply, h₈, ?_, h₁₀, ?_, ?_, h₁₃⟩
  · rwa [show (CDiskBlockIndex.of e' details).nHeight = (CDiskBlockIndex.of e details).nHeight
      from hheight]
  · rwa [show (CDiskBlockIndex.of e' details).hashPrev = (CDiskBlockIndex.of e details).hashPrev
      from congrArg (·.getD 0) hprev]
  · rwa [show (CDiskBlockIndex.of e' details).nTime = (CDiskBlockIndex.of e details).nTime from htime]
  · rwa [show (CDiskBlockIndex.of e' details).nBits = (CDiskBlockIndex.of e details).nBits from hbits]

theorem setUndoPos (h : (CDiskBlockIndex.of e details).InRange) {nUndoPos : Nat}
    (hpos : nUndoPos < 2 ^ 32) : (CDiskBlockIndex.of e { details with nUndoPos := nUndoPos }).InRange :=
  { h with nUndoPos := hpos }

end CDiskBlockIndex.InRange

/-- What holds of an index between calls. -/
structure IndexState.InOrder (env : Env) (s : IndexState) : Prop where
  running : s.node.Running
  tree : s.node.mapBlockIndex.InOrder s.node.setBlockIndexValid
  writable : s.node.mapBlockIndex.Writable env s.details
  nChainTx : ∀ hash e, s.node.mapBlockIndex.entry hash = some e → (s.details hash).nChainTx =
    ((e.pprev.map fun pprev => (s.details pprev).nChainTx).getD 0 + (s.details hash).nTx) % 2 ^ 32

namespace IndexState

variable {env : Env} {s s' : IndexState} {call : Filing} {outcome : Except ChainError Unit}

theorem inOrder_start (env : Env) (nBestInvalidTrust : Uint256) (disk : BlockFiles) :
    (start nBestInvalidTrust disk).InOrder env := by
  have hnone : ∀ hash e, BlockTree.empty.entry hash ≠ some e := fun hash e he => by
    rw [BlockTree.entry_empty] at he
    cases he
  obtain ⟨hcoherent, -, hidle, hentry, hvalid⟩ := loadBlockIndexDB_spec (t := .empty)
    (fun _ => 0) (fun hash e he => absurd he (hnone hash e))
    (fun hash => by rw [BlockTree.pnextOf, BlockTree.entry_empty]; rfl)
    (.new ⟨fun _ => none, none⟩)
    (fun best h => by rw [CCoinsViewCache.contents_new] at h; cases h) nBestInvalidTrust disk rfl
  have hempty : ∀ hash e, (start nBestInvalidTrust disk).node.mapBlockIndex.entry hash ≠ some e := by
    intro hash e he
    rw [start, hentry, BlockTree.entry_empty] at he
    cases he
  refine ⟨⟨hcoherent, hidle⟩, ?_, ?_, fun hash e he => absurd he (hempty hash e)⟩
  · refine ⟨fun he => absurd he (hempty _ _), fun he => absurd he (hempty _ _),
      fun he => absurd he (hempty _ _), fun he => absurd he (hempty _ _), fun hash => ?_⟩
    rw [show hash ∈ (start nBestInvalidTrust disk).node.setBlockIndexValid ↔ _ from hvalid hash]
    constructor
    · rintro ⟨e, he, -⟩
      exact absurd he (hnone hash e)
    · intro hfailed
      obtain ⟨e, he, -⟩ := Option.map_eq_some_iff.mp hfailed
      exact absurd he (hempty hash e)
  · exact ⟨fun he => absurd he (hempty _ _), fun he => absurd he (hempty _ _),
      fun he => absurd he (hempty _ _), fun he => absurd he (hempty _ _)⟩

/-- A new entry is written with the fields of its block. -/
theorem writable_newEntry (hgoes : call.Goes) (hfits : call.Fits env s)
    (hnew : s.node.mapBlockIndex.New (newEntry env s.node.mapBlockIndex call.block)) :
    (CDiskBlockIndex.of (newEntry env s.node.mapBlockIndex call.block)
        (newDetails s.node.mapBlockIndex s.details call.block call.pos)).InRange ∧
      (CDiskBlockIndex.of (newEntry env s.node.mapBlockIndex call.block)
        (newDetails s.node.mapBlockIndex s.details call.block call.pos)).getBlockHash env =
        call.block.getHash env := by
  have hprev : (newEntry env s.node.mapBlockIndex call.block).pprev.getD 0 =
      call.block.hashPrevBlock := by
    rcases hfits.prev with hzero | ⟨p, hp⟩
    · rw [newEntry, hzero]
      cases s.node.mapBlockIndex.entry 0 <;> rfl
    · simp only [newEntry, hp, Option.map_some, Option.getD_some]
  have hmax := hnew.height_le
  unfold INT_MAX at hmax
  have hlevel : BLOCK_VALID_TRANSACTIONS < 8 := by decide
  have hzero : (0 : Nat) < 2 ^ 32 := by decide
  have hsupply : InInt64 0 := ⟨by decide, by decide⟩
  have hfile : (call.pos.nFile : Int) < 2 ^ 31 := by exact_mod_cast hgoes.nFile
  refine ⟨⟨⟨hnew.height_nonneg, ?_⟩, hlevel, Nat.mod_lt _ (by decide), ⟨Int.natCast_nonneg _, hfile⟩,
    hgoes.nPos, hzero, hsupply, hfits.nVersion, ?_, hfits.hashMerkleRoot, hfits.nTime, hfits.nBits,
    hfits.nNonce⟩, ?_⟩
  · exact Int.lt_of_le_of_lt hmax (by decide)
  · exact (congrArg (· < 2 ^ 256) hprev).mpr hfits.hashPrevBlock
  · rw [CDiskBlockIndex.getBlockHash, CBlock.getHash]
    refine congrArg env.blockHash ?_
    rw [show (CDiskBlockIndex.of _ _).hashPrev = call.block.hashPrevBlock from hprev]
    rfl

/-- **What a call leaves in order**: it has grown the index, and the new entry is fit to be written. -/
theorem inOrder_after (h : s.InOrder env) {pindexNew : Option CBlockIndex} {details : Uint256 → IndexDetails}
    {nUndoPos : Uint256 → Nat} {node : Node} (hpos : ∀ hash, nUndoPos hash < 2 ^ 32)
    (hrunning : node.Running) (htree : node.mapBlockIndex.InOrder node.setBlockIndexValid)
    (hgrows : s.node.mapBlockIndex.Grows pindexNew node.mapBlockIndex)
    (hold : ∀ hash, s.node.mapBlockIndex.Indexed hash → details hash = s.details hash)
    (hnew : ∀ e, pindexNew = some e → s.node.mapBlockIndex.entry e.phashBlock = none →
      node.mapBlockIndex.Indexed e.phashBlock → (CDiskBlockIndex.of e (details e.phashBlock)).InRange ∧
      (CDiskBlockIndex.of e (details e.phashBlock)).getBlockHash env = e.phashBlock ∧
      (details e.phashBlock).nUndoPos = 0 ∧
      (∀ pprev, e.pprev = some pprev → s.node.mapBlockIndex.Indexed pprev) ∧
      (details e.phashBlock).nChainTx = ((e.pprev.map fun pprev => (s.details pprev).nChainTx).getD 0 +
          (details e.phashBlock).nTx) % 2 ^ 32) :
    (after nUndoPos s.node.mapBlockIndex details node).InOrder env := by
  -- What an entry of the new index goes back to.
  have hback : ∀ {hash e'}, node.mapBlockIndex.entry hash = some e' → ∃ e, e'.fixed = e.fixed ∧
      (CDiskBlockIndex.of e (details hash)).InRange ∧
      (CDiskBlockIndex.of e (details hash)).getBlockHash env = hash ∧
      (s.node.mapBlockIndex.haveUndo hash = false → (details hash).nUndoPos = 0) ∧
      (s.node.mapBlockIndex.haveUndo hash = true → e'.nStatus.haveUndo = true) ∧
      (∀ pprev, e.pprev = some pprev → s.node.mapBlockIndex.Indexed pprev) ∧
      (details hash).nChainTx = ((e.pprev.map fun pprev => (s.details pprev).nChainTx).getD 0 +
        (details hash).nTx) % 2 ^ 32 := by
    intro hash e' he'
    rcases hgrows.back he' with ⟨e, he⟩ | ⟨e, hsome, hnone, rfl, hfixed⟩
    · obtain ⟨e'', he'', hfixed, hundo⟩ := hgrows.kept he
      obtain rfl := Option.some.inj (he'.symm.trans he'')
      have hhave : s.node.mapBlockIndex.haveUndo hash = e.nStatus.haveUndo := by
        rw [BlockTree.haveUndo, he]
        rfl
      rw [hold hash ⟨e, he⟩, hhave]
      refine ⟨e, hfixed, h.writable.inRange he, h.writable.hash_eq he, h.writable.haveUndo he, hundo,
        fun pprev hprev => ?_, h.nChainTx hash e he⟩
      obtain ⟨p, hp, -⟩ := s.node.mapBlockIndex.parent he hprev
      exact ⟨p, hp⟩
    · obtain ⟨hrange, hhash, hzero, hparent, htx⟩ := hnew e hsome hnone ⟨e', he'⟩
      refine ⟨e, hfixed, hrange, hhash, fun _ => hzero, fun hundo => ?_, hparent, htx⟩
      rw [BlockTree.haveUndo, hnone] at hundo
      cases hundo
  have hdetails : ∀ hash, ∃ n, (after nUndoPos s.node.mapBlockIndex details node).details hash =
      { details hash with nUndoPos := n } ∧ (n = (details hash).nUndoPos ∨ n < 2 ^ 32 ∧
        s.node.mapBlockIndex.haveUndo hash = false ∧ node.mapBlockIndex.haveUndo hash = true) := by
    intro hash
    have hafter : (after nUndoPos s.node.mapBlockIndex details node).details hash =
        if !s.node.mapBlockIndex.haveUndo hash && node.mapBlockIndex.haveUndo hash then
          { details hash with nUndoPos := nUndoPos hash } else details hash := rfl
    rw [hafter]
    split
    · next hflags =>
      rw [Bool.and_eq_true, Bool.not_eq_true'] at hflags
      exact ⟨nUndoPos hash, rfl, .inr ⟨hpos hash, hflags.1, hflags.2⟩⟩
    · exact ⟨(details hash).nUndoPos, rfl, .inl rfl⟩
  have hvalid : ∀ {hash e'}, node.mapBlockIndex.entry hash = some e' → e'.nStatus.nValid < 8 := by
    intro hash e' he'
    rcases htree.nValid he' with heq | heq <;> rw [heq] <;> decide
  refine ⟨hrunning, htree, ⟨?_, ?_, htree.haveData, ?_⟩, ?_⟩
  · intro hash e' he'
    obtain ⟨e, hfixed, hrange, -⟩ := hback he'
    obtain ⟨n, heq, hn⟩ := hdetails hash
    rw [heq]
    refine CDiskBlockIndex.InRange.setUndoPos (hrange.change hfixed (hvalid he')
      (htree.nMoneySupply he')) ?_
    rcases hn with rfl | ⟨hlt, -⟩
    · exact hrange.nUndoPos
    · exact hlt
  · intro hash e' he'
    obtain ⟨e, hfixed, -, hhash, -⟩ := hback he'
    obtain ⟨n, heq, -⟩ := hdetails hash
    obtain ⟨-, hprev, -, -, htime, hbits⟩ := CBlockIndex.fixed_eq_iff.mp hfixed
    rw [heq]
    refine Eq.trans ?_ hhash
    rw [CDiskBlockIndex.getBlockHash, CDiskBlockIndex.getBlockHash]
    simp only [CDiskBlockIndex.of, hprev, htime, hbits]
  · intro hash e' he' hundo
    obtain ⟨e, -, -, -, hzero, hundo', -⟩ := hback he'
    have hhave : node.mapBlockIndex.haveUndo hash = false := by
      have hentry : node.mapBlockIndex.entry hash = some e' := he'
      rw [BlockTree.haveUndo, hentry]
      exact hundo
    have hbefore : s.node.mapBlockIndex.haveUndo hash = false :=
      Bool.eq_false_iff.mpr fun htrue => Bool.false_ne_true (hundo.symm.trans (hundo' htrue))
    obtain ⟨n, heq, rfl | ⟨-, -, htrue⟩⟩ := hdetails hash
    · rw [heq]
      exact hzero hbefore
    · rw [hhave] at htrue
      cases htrue
  · intro hash e' he'
    obtain ⟨e, hfixed, -, -, -, -, hparent, htx⟩ := hback he'
    obtain ⟨n, heq, -⟩ := hdetails hash
    have hprev := (CBlockIndex.fixed_eq_iff.mp hfixed).2.1
    rw [heq, hprev]
    refine htx.trans ?_
    cases hpprev : e.pprev with
    | none => rfl
    | some pprev =>
      obtain ⟨m, hm, -⟩ := hdetails pprev
      rw [Option.map_some, Option.map_some, hm, hold pprev (hparent pprev hpprev)]

theorem unflagged_of_inOrder (h : s.InOrder env) : s.node.Unflagged :=
  fun hash hmem => (h.tree.valid hash).mp hmem

/-- **A new block keeps the index in order.** -/
theorem InOrder.addToBlockIndex (h : s.InOrder env) (hgoes : call.Goes) (hfits : call.Fits env s)
    (hrun : s.addToBlockIndex env call = .ok (outcome, s')) : s'.InOrder env := by
  unfold IndexState.addToBlockIndex at hrun
  dsimp only at hrun
  split at hrun
  · cases hrun
  · next outcome' node hcall =>
    cases hrun
    have hgrows := (BlockTree.indexInvariant_grows s.node.mapBlockIndex
      (some (newEntry env s.node.mapBlockIndex call.block))).addToBlockIndex (BlockTree.grows_refl _ _)
      BlockTree.grows_insert hcall
    refine inOrder_after h hgoes.nUndoPos
      (h.running.addToBlockIndex hgoes.fDiskSpace hgoes.fCoinFlush (unflagged_of_inOrder h) hcall)
      (BlockTree.indexInvariant_inOrder.addToBlockIndex h.tree h.tree.insert hcall) hgrows
      (fun hash hhash => ?_) fun e hsome hnone hin => ?_
    · split
      · next hfresh =>
        refine Function.update_of_ne ?_ ..
        rintro rfl
        obtain ⟨e, he⟩ := hhash
        rw [hfresh] at he
        cases he
      · rfl
    · obtain rfl := Option.some.inj hsome
      obtain ⟨e', he'⟩ := hin
      have hname : (newEntry env s.node.mapBlockIndex call.block).phashBlock = call.block.getHash env := rfl
      have hnew : s.node.mapBlockIndex.New (newEntry env s.node.mapBlockIndex call.block) := by
        refine new_newEntry hnone ?_
        rcases hgrows.back he' with ⟨e, he⟩ | ⟨e, hsome, -, -, hfixed⟩
        · rw [hnone] at he
          cases he
        · obtain rfl := Option.some.inj hsome
          rw [← (CBlockIndex.fixed_eq_iff.mp hfixed).2.2.1]
          exact node.mapBlockIndex.height_le he'
      obtain ⟨hrange, hhash⟩ := writable_newEntry hgoes hfits hnew
      rw [hname] at hnone ⊢
      rw [if_pos hnone, Function.update_self]
      refine ⟨hrange, hhash, rfl, fun pprev hprev => ?_, ?_⟩
      · obtain ⟨p, hp, -⟩ := hnew.parent hprev
        exact ⟨p, hp⟩
      · rw [newDetails, newEntry]
        cases s.node.mapBlockIndex.entry call.block.hashPrevBlock <;> rfl

/-- **Connecting blocks keeps the index in order.** -/
theorem InOrder.connectBestBlock (h : s.InOrder env) (hgoes : call.Goes)
    (hrun : s.connectBestBlock env call = .ok (outcome, s')) : s'.InOrder env := by
  unfold IndexState.connectBestBlock at hrun
  split at hrun
  · cases hrun
  · next outcome' node hcall =>
    cases hrun
    have hgrows := (BlockTree.indexInvariant_grows s.node.mapBlockIndex none).connectBestBlock
      call.depth _ _ _ (BlockTree.grows_refl _ _) hcall
    exact inOrder_after h hgoes.nUndoPos
      (h.running.connectBestBlock hgoes.fDiskSpace hgoes.fCoinFlush (unflagged_of_inOrder h) hcall)
      (BlockTree.indexInvariant_inOrder.connectBestBlock call.depth _ _ _ h.tree hcall) hgrows
      (fun _ _ => rfl) nofun

/-- By induction on the run: every index reached is in order. -/
theorem Reached.inOrder (h : s.Reached env) : s.InOrder env := by
  induction h with
  | start nBestInvalidTrust disk => exact inOrder_start env nBestInvalidTrust disk
  | add _ hgoes hfits hrun ih => exact ih.addToBlockIndex hgoes hfits hrun
  | connect _ hgoes hrun ih => exact ih.connectBestBlock hgoes hrun

/-! ### The index after a restart -/

theorem contents_flushed (pcoinsTip : CCoinsViewCache CCoinsViewDB) :
    (CCoinsViewCache.new pcoinsTip.flush.base).contents.best = pcoinsTip.contents.best := by
  rw [CCoinsViewCache.contents_new]
  rfl

/-- The copied entries are linked as the old ones are. -/
theorem links_of_copied {t : BlockTree} {entry : Uint256 → Option CBlockIndex}
    (hentries : ∀ hash, entry hash = (t.entry hash).map CBlockIndex.copied) : Links entry := by
  have hback : ∀ {hash e'}, entry hash = some e' → ∃ e, t.entry hash = some e ∧ e' = e.copied := by
    intro hash e' he'
    rw [hentries, Option.map_eq_some_iff] at he'
    obtain ⟨e, he, rfl⟩ := he'
    exact ⟨e, he, rfl⟩
  constructor
  · intro hash e' he'
    obtain ⟨e, he, rfl⟩ := hback he'
    have hhash := t.hash_eq he
    exact hhash
  · intro hash e' pprev he' hprev
    obtain ⟨e, he, rfl⟩ := hback he'
    obtain ⟨p, hp, hheight⟩ := t.parent he hprev
    exact ⟨p.copied, by rw [hentries, hp, Option.map_some], hheight⟩
  · intro hash e' he' hprev
    obtain ⟨e, he, rfl⟩ := hback he'
    have hheight := t.root he hprev
    exact hheight
  · intro hash e' he'
    obtain ⟨e, he, rfl⟩ := hback he'
    have hheight := t.height_nonneg he
    exact hheight
  · intro hash e' he'
    obtain ⟨e, he, rfl⟩ := hback he'
    have hheight := t.height_le he
    exact hheight

section Reloaded

variable {node : Node} {t : BlockTree}

/-- The links are those of the best chain, as they were before. -/
theorem InOrder.pnextOf_reloaded (h : s.InOrder env) (hcoherent : node.Coherent)
    (hbest : node.pindexBest = s.node.pindexBest)
    (hshape : ∀ hash, node.mapBlockIndex.entry hash = (s.node.mapBlockIndex.entry hash).map
      fun e => { e with pnext := node.mapBlockIndex.pnextOf hash, nMoneySupply := 0 }) :
    node.mapBlockIndex.Extends s.node.mapBlockIndex ∧
      ∀ hash, node.mapBlockIndex.pnextOf hash = s.node.mapBlockIndex.pnextOf hash := by
  have hextends : node.mapBlockIndex.Extends s.node.mapBlockIndex := by
    intro hash e he
    have hentry' := hshape hash
    rw [he, Option.map_some] at hentry'
    exact ⟨_, hentry', rfl⟩
  have hextends' : s.node.mapBlockIndex.Extends node.mapBlockIndex := by
    intro hash e' he'
    rw [hshape, Option.map_eq_some_iff] at he'
    obtain ⟨e, he, rfl⟩ := he'
    exact ⟨e, he, rfl⟩
  refine ⟨hextends, fun hash => Option.ext fun next => ?_⟩
  rw [hcoherent.next, h.running.next, hbest, BlockTree.ancestry_eq hextends hextends',
    BlockTree.pprevOf_eq_of_extends hextends hextends']

/-- The tip and what is kept of it. -/
theorem InOrder.tip_reloaded (h : s.InOrder env) (hcoherent : node.Coherent)
    (hbest : node.pindexBest = s.node.pindexBest) (hidle : node.pindexBest = none →
      node.hashBestChain = 0 ∧ node.nBestHeight = -1 ∧ node.nBestChainTrust = 0)
    (hextends : node.mapBlockIndex.Extends s.node.mapBlockIndex) :
    node.hashBestChain = s.node.hashBestChain ∧ node.nBestHeight = s.node.nBestHeight ∧
      node.nBestChainTrust = s.node.nBestChainTrust := by
  cases htip : s.node.pindexBest with
  | none =>
    have hold := h.running.idle htip
    have hnew := hidle (hbest.trans htip)
    simp only [hold, hnew, and_self]
  | some best =>
    have hin := h.running.indexed best htip
    have htip' := hbest.trans htip
    simp only [h.running.hashBestChain best htip, hcoherent.hashBestChain best htip',
      h.running.nBestHeight best htip, hcoherent.nBestHeight best htip',
      h.running.nBestChainTrust best htip, hcoherent.nBestChainTrust best htip',
      hextends.nHeight_eq hin, hextends.nChainTrust_eq hin, and_self]

/-- The candidates are the blocks that have not failed. -/
theorem InOrder.candidates_reloaded (h : s.InOrder env)
    (hentry : ∀ hash, t.entry hash = (s.node.mapBlockIndex.entry hash).map CBlockIndex.copied) (hash : Uint256) :
    (∃ e, t.entry hash = some e ∧ BLOCK_VALID_TRANSACTIONS ≤ e.nStatus.nValid ∧ e.nStatus.failed = false) ↔
      s.node.mapBlockIndex.failedOf hash = some false := by
  rw [BlockTree.failedOf, Option.map_eq_some_iff]
  constructor
  · rintro ⟨e, he, -, hfailed⟩
    rw [hentry, Option.map_eq_some_iff] at he
    obtain ⟨e₀, he₀, rfl⟩ := he
    exact ⟨e₀, he₀, hfailed⟩
  · rintro ⟨e, he, hfailed⟩
    refine ⟨e.copied, by rw [hentry, he, Option.map_some], ?_, hfailed⟩
    have hlevel : BLOCK_VALID_TRANSACTIONS ≤ e.nStatus.nValid := by
      rcases h.tree.nValid he with heq | heq
      · exact heq.ge
      · exact heq.symm ▸ (by decide)
    exact hlevel

end Reloaded

/-- **The index after a restart** is the old one but for the money supplies, which are zero. -/
theorem InOrder.restart_spec (h : s.InOrder env)
    (hzero : ∀ hash, s.node.mapBlockIndex.Indexed hash → hash ≠ 0) {hashes : List Uint256}
    (hnodup : hashes.Nodup) (hall : ∀ hash, hash ∈ hashes ↔ s.node.mapBlockIndex.Indexed hash) :
    ∃ s', s.Restarts env hashes s' ∧ ∀ s', s.Restarts env hashes s' →
      (∀ hash, s'.node.mapBlockIndex.entry hash =
        (s.node.mapBlockIndex.entry hash).map fun e => { e with nMoneySupply := 0 }) ∧
      (∀ hash, s.node.mapBlockIndex.Indexed hash → s'.details hash = s.details hash) ∧
      (∀ hash, hash ∈ s'.node.setBlockIndexValid ↔
        s.node.mapBlockIndex.failedOf hash = some false) ∧
      s'.node.pindexBest = s.node.pindexBest ∧ s'.node.hashBestChain = s.node.hashBestChain ∧
      s'.node.nBestHeight = s.node.nBestHeight ∧
      s'.node.nBestChainTrust = s.node.nBestChainTrust := by
  obtain ⟨index, hload, hentries, hdetails⟩ :=
    BlockIndexMap.loadBlockIndexGuts_spec h.writable hzero hnodup hall
  have hlinks : Links fun hash => index.entries.lookup hash := links_of_copied hentries
  refine ⟨_, ⟨index, ⟨index.entries, hlinks⟩, hload, rfl, rfl⟩, ?_⟩
  rintro s' ⟨index', t, hload', hsame, rfl⟩
  obtain rfl : index = index' := Except.ok.inj (hload.symm.trans hload')
  have hentry : ∀ hash, t.entry hash =
      (s.node.mapBlockIndex.entry hash).map CBlockIndex.copied := by
    intro hash
    rw [BlockTree.entry, hsame, hentries]
  have hindexed : ∀ hash, t.Indexed hash ↔ s.node.mapBlockIndex.Indexed hash := by
    intro hash
    unfold BlockTree.Indexed
    rw [hentry]
    cases s.node.mapBlockIndex.entry hash <;> simp
  have hpnext : ∀ hash, t.pnextOf hash = none := by
    intro hash
    rw [BlockTree.pnextOf, hentry]
    cases s.node.mapBlockIndex.entry hash <;> rfl
  have hcoins := contents_flushed s.node.pcoinsTip
  rw [h.running.tip] at hcoins
  obtain ⟨hcoherent, hbest, hidle, hloaded, hvalid⟩ := loadBlockIndexDB_spec (t := t)
    s.node.mapBlockIndex.nChainTrust (fun hash e he => by
      rw [hentry, Option.map_eq_some_iff] at he
      obtain ⟨e₀, he₀, rfl⟩ := he
      rw [BlockTree.nChainTrust_eq he₀]
      exact h.tree.nChainTrust he₀)
    hpnext _ (fun best heq => (hindexed best).mpr (h.running.indexed best (hcoins.symm.trans heq)))
    s.node.nBestInvalidTrust s.node.disk rfl
  rw [hcoins] at hbest
  generalize hnode : loadBlockIndexDB t (.new s.node.pcoinsTip.flush.base) s.node.nBestInvalidTrust
    s.node.disk = node at hcoherent hbest hidle hloaded hvalid ⊢
  have hshape : ∀ hash, node.mapBlockIndex.entry hash = (s.node.mapBlockIndex.entry hash).map
      fun e => { e with pnext := node.mapBlockIndex.pnextOf hash, nMoneySupply := 0 } := by
    intro hash
    rw [hloaded, hentry, Option.map_map]
    cases he : s.node.mapBlockIndex.entry hash with
    | none => rfl
    | some e =>
      rw [Option.map_some, Option.map_some, BlockTree.nChainTrust_eq he]
      rfl
  obtain ⟨hextends, hpnextOf⟩ := h.pnextOf_reloaded hcoherent hbest hshape
  refine ⟨fun hash => ?_, fun hash hhash => ?_, fun hash => (hvalid hash).trans (h.candidates_reloaded hentry hash),
    hbest, h.tip_reloaded hcoherent hbest hidle hextends⟩
  · rw [hshape, hpnextOf, BlockTree.pnextOf]
    cases s.node.mapBlockIndex.entry hash <;> rfl
  · refine loadDetails_spec (fun hash hhash => ?_) (fun hash e he => ?_) hash ((hindexed hash).mpr hhash)
    · rw [hdetails hash ((hindexed hash).mp hhash)]
      rfl
    · rw [hentry, Option.map_eq_some_iff] at he
      obtain ⟨e₀, he₀, rfl⟩ := he
      exact h.nChainTx hash e₀ he₀

/-- A restart that comes to its end has met no entry filed under zero, and an entry has no money
supply afterwards. -/
theorem InOrder.of_restarts (h : s.InOrder env) {hashes : List Uint256} (hnodup : hashes.Nodup)
    (hall : ∀ hash, hash ∈ hashes ↔ s.node.mapBlockIndex.Indexed hash)
    (hrestart : s.Restarts env hashes s') {hash : Uint256} {e : CBlockIndex}
    (he : s.node.mapBlockIndex.entry hash = some e) :
    hash ≠ 0 ∧ s'.node.mapBlockIndex.entry hash = some { e with nMoneySupply := 0 } := by
  have hzero : ∀ hash, s.node.mapBlockIndex.Indexed hash → hash ≠ 0 := by
    rintro hash hhash rfl
    obtain ⟨index, t, hload, -⟩ := hrestart
    exact BlockIndexMap.loadBlockIndexGuts_zero h.writable hhash ((hall 0).mpr hhash) index hload
  obtain ⟨-, -, hspec⟩ := h.restart_spec hzero hnodup hall
  have hentry := (hspec s' hrestart).1 hash
  rw [he, Option.map_some] at hentry
  exact ⟨hzero hash ⟨e, he⟩, hentry⟩

/-- **When a restart changes nothing.** Of the indexes the program reaches, it reads back exactly
those in which no entry has a money supply (and none is filed under zero, which stands for no
block): a record has the supply, but it is not copied from there. -/
theorem Reached.restart_same_iff (h : s.Reached env) {hashes : List Uint256} (hnodup : hashes.Nodup)
    (hall : ∀ hash, hash ∈ hashes ↔ s.node.mapBlockIndex.Indexed hash) :
    (∃ s', s.Restarts env hashes s' ∧ s'.SameIndex s) ↔
      ∀ hash e, s.node.mapBlockIndex.entry hash = some e → hash ≠ 0 ∧ e.nMoneySupply = 0 := by
  constructor
  · rintro ⟨s', hrestart, hsame⟩ hash e he
    obtain ⟨hne, hentry⟩ := h.inOrder.of_restarts hnodup hall hrestart he
    rw [hsame.entries, he] at hentry
    exact ⟨hne, congrArg CBlockIndex.nMoneySupply (Option.some.inj hentry)⟩
  · intro hcondition
    obtain ⟨s', hrestart, hspec⟩ := h.inOrder.restart_spec
      (fun hash ⟨e, he⟩ => (hcondition hash e he).1) hnodup hall
    obtain ⟨hentries, hdetails, hvalid, hbest, hhash, hheight, htrust⟩ := hspec s' hrestart
    refine ⟨s', hrestart, ⟨fun hash => ?_, hdetails, fun hash => ?_, hbest, hhash, hheight, htrust⟩⟩
    · rw [hentries]
      cases he : s.node.mapBlockIndex.entry hash with
      | none => rfl
      | some e =>
        have hsupply := (hcondition hash e he).2
        rw [Option.map_some, ← hsupply]
    · rw [hvalid, h.inOrder.tree.valid, and_self]

/-! ### A supply that is lost -/

/-- The first block, one that pays a reward, and one that pays none. -/
def sampleGenesisCall : Filing :=
  ⟨sampleOutside, 1, sampleBlock 1000 0 400 [sampleCoinBase 0 400 0], ⟨0, 8⟩, fun _ => 0⟩

def sampleRewardCall : Filing :=
  ⟨sampleOutside, 1, Ledger.sampleFirstBlock, ⟨0, 300⟩, fun _ => 8⟩

def sampleNoRewardCall : Filing :=
  ⟨sampleOutside, 1, sampleBlock 1001 1000 500 [sampleCoinBase 0 500 0], ⟨0, 300⟩, fun _ => 8⟩

/-- The state after the first block and one on top of it. -/
theorem exists_reached_sample {α : Type} (call : Filing) (hgoes : call.Goes)
    (hfits : ∀ s : IndexState, s.node.mapBlockIndex.Indexed 1000 → call.Fits sampleEnv s) (f : IndexState → α)
    {x : α} (hrun : ((start 0 emptyFiles).addToBlockIndex sampleEnv sampleGenesisCall).toOption.bind (fun r =>
      if (r.2.node.mapBlockIndex.entry 1000).isSome then
        (r.2.addToBlockIndex sampleEnv call).toOption.map fun r => f r.2
      else none) = some x) : ∃ s : IndexState, s.Reached sampleEnv ∧ f s = x := by
  obtain ⟨r, hgenesis, hrun⟩ := Option.bind_eq_some_iff.mp hrun
  split at hrun
  · next hindexed =>
    obtain ⟨r', hsecond, hx⟩ := Option.map_eq_some_iff.mp hrun
    have hreached : Reached sampleEnv r.2 := (Reached.start 0 emptyFiles).add
      ⟨fun _ => rfl, fun _ => rfl, by decide, by decide, fun _ => (by decide : 0 < 2 ^ 32)⟩
      ⟨.inl rfl, by decide, by decide, by decide, by decide, by decide, by decide⟩ (eq_ok_of_toOption hgenesis)
    exact ⟨r'.2, hreached.add hgoes (hfits r.2 (Option.isSome_iff_exists.mp hindexed)) (eq_ok_of_toOption hsecond), hx⟩
  · cases hrun

/-- The entries of two linked blocks without a supply come back. -/
theorem restart_same_iff_sample : ∃ s s' : IndexState, s.Reached sampleEnv ∧
    (s.node.mapBlockIndex.pnextOf 1000 = some 1001 ∧ s.node.mapBlockIndex.pprevOf 1001 = some 1000) ∧
    s.Restarts sampleEnv [1001, 1000] s' ∧ s'.SameIndex s := by
  obtain ⟨s, hreached, hobserved⟩ := exists_reached_sample sampleNoRewardCall
    ⟨fun _ => rfl, fun _ => rfl, by decide, by decide, fun _ => (by decide : 8 < 2 ^ 32)⟩
    (fun s hprev => ⟨.inr hprev, by decide, by decide, by decide, by decide, by decide, by decide⟩)
    (fun s => (s.node.mapBlockIndex.entries.keys, s.node.mapBlockIndex.pnextOf 1000,
      s.node.mapBlockIndex.pprevOf 1001,
      [1001, 1000].map fun hash => (s.node.mapBlockIndex.entry hash).map (·.nMoneySupply)))
    (x := ({1000, 1001}, some 1001, some 1000, [some 0, some 0])) (by decide +kernel)
  simp only [Prod.mk.injEq, List.map_cons, List.map_nil, List.cons.injEq, and_true] at hobserved
  obtain ⟨hkeys, hnext, hprev, hsecond, hfirst⟩ := hobserved
  have hindexed : ∀ hash, hash ∈ [1001, 1000] ↔ s.node.mapBlockIndex.Indexed hash := fun hash => by
    have hmem : hash ∈ s.node.mapBlockIndex.entries.keys ↔ s.node.mapBlockIndex.Indexed hash := by
      rw [Finmap.mem_keys, Finmap.mem_iff]
      rfl
    rw [← hmem, hkeys]
    simp [or_comm]
  obtain ⟨s', hrestart, hsame⟩ := (hreached.restart_same_iff (by decide) hindexed).mpr fun hash e he => by
    have hmem := (hindexed hash).mpr ⟨e, he⟩
    simp only [List.mem_cons, List.not_mem_nil, or_false] at hmem
    rcases hmem with rfl | rfl
    · rw [he] at hsecond
      exact ⟨by decide, Option.some.inj hsecond⟩
    · rw [he] at hfirst
      exact ⟨by decide, Option.some.inj hfirst⟩
  exact ⟨s, s', hreached, ⟨hnext, hprev⟩, hrestart, hsame⟩

/-- **A restart loses the money supply** of a chain with one block that pays a reward. -/
theorem not_forall_restart_same : ¬ ∀ (env : Env) (s : IndexState), s.Reached env →
    ∀ hashes : List Uint256, hashes.Nodup →
      (∀ hash, hash ∈ hashes ↔ s.node.mapBlockIndex.Indexed hash) →
      ∃ s', s.Restarts env hashes s' ∧ s'.SameIndex s := by
  intro hall
  obtain ⟨s, hreached, hsupply⟩ := exists_reached_sample sampleRewardCall
    ⟨fun _ => rfl, fun _ => rfl, by decide, by decide, fun _ => (by decide : 8 < 2 ^ 32)⟩
    (fun s hprev => ⟨.inr hprev, by decide, by decide, by decide, by decide, by decide, by decide⟩)
    (fun s => (s.node.mapBlockIndex.entry 1001).map (·.nMoneySupply)) (x := some (5 * COIN)) (by decide +kernel)
  obtain ⟨e, he, hsupply⟩ := Option.map_eq_some_iff.mp hsupply
  have hnodup := Finset.nodup_toList s.node.mapBlockIndex.entries.keys
  have hkeys : ∀ hash, hash ∈ s.node.mapBlockIndex.entries.keys.toList ↔
      s.node.mapBlockIndex.Indexed hash := fun hash => by
    rw [Finset.mem_toList, Finmap.mem_keys, Finmap.mem_iff]
    rfl
  obtain ⟨s', hrestart, hsame⟩ := hall sampleEnv s hreached _ hnodup hkeys
  have hentry := (hreached.inOrder.of_restarts hnodup hkeys hrestart he).2
  rw [hsame.entries, he] at hentry
  have hlost : e.nMoneySupply = 0 := congrArg CBlockIndex.nMoneySupply (Option.some.inj hentry)
  rw [hsupply] at hlost
  exact absurd hlost (by decide)

end IndexState

end Manna
