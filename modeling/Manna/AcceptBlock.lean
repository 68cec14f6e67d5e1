import Manna.Retarget
import Manna.ValidSet

/-!
A block on its way into the index (`main.cpp`: `AcceptBlock`; `checkpoints.cpp`).

`AcceptBlock` checks a block against its predecessor, stores it in a file and enters it with
`AddToBlockIndex`, which goes on to choose the best chain. Where the block lies in the files is
`BlockFile`; here only whether storing it went through matters.

* `keepsIndex_connectBestBlock`: choosing the best chain adds no entry and removes none;
* `acceptBlock_indexed`: `AcceptBlock` adds at most the entry of its block, whatever it
  returns, and has added it where it returns true.
-/

namespace Manna

/-- The hardened checkpoints of the main network. -/
def mapCheckpoints (env : Env) : List (Int × Uint256) := [(0, env.hashGenesisBlock)]

def checkpointsCheckBlock (env : Env) (nHeight : Int) (hash : Uint256) : Bool :=
  match (mapCheckpoints env).lookup nHeight with
  | none => true
  | some checkpoint => hash == checkpoint

def getLastCheckpoint (env : Env) (t : BlockTree) : Option CBlockIndex :=
  (mapCheckpoints env).reverse.findSome? fun checkpoint => t.entry checkpoint.2

/-- The entries from a pointer down to the root. -/
def BlockTree.entriesFrom (t : BlockTree) (pindex : Option Uint256) : List CBlockIndex :=
  (t.ancestry pindex).filterMap t.entry

/-- The checks of `AcceptBlock` against the previous entry. `IsSuperMajority` is false in the
manna build, so no version is demanded. -/
def acceptBlockChecks (env : Env) (t : BlockTree) (block : CBlock) : Except Halt Unit :=
  if block.getHash env = env.hashGenesisBlock then .ok ()
  else
    match t.entry block.hashPrevBlock with
    | none => .error (.dos 10 "AcceptBlock() : prev block not found" false)
    | some pindexPrev =>
      let nHeight := pindexPrev.nHeight + 1
      match acceptBlockHeader block.toCBlockHeader pindexPrev (t.entriesFrom pindexPrev.pprev) with
      | .error e => .error e
      | .ok _ =>
        if ¬ block.vtx.all fun tx => tx.isFinal nHeight block.getBlockTime then
          .error (.dos 10 "AcceptBlock() : contains a non-final transaction" false)
        else if ¬ checkpointsCheckBlock env nHeight (block.getHash env) then
          .error (.dos 100 s!"AcceptBlock() : rejected by checkpoint lock-in at {nHeight}" false)
        else if (getLastCheckpoint env t).any fun pcheckpoint =>
            decide (nHeight < pcheckpoint.nHeight) then
          .error (.dos 100
            s!"AcceptBlock() : forked chain older than last checkpoint (height {nHeight})" false)
        else .ok ()

/-! ### AcceptBlock -/

/-- Why `AcceptBlock` returns false. -/
inductive AcceptError where
  /-- One of its checks fails. -/
  | rejected (e : Halt)
  /-- `AcceptBlock() : FindBlockPos failed`. -/
  | findBlockPos
  /-- `Failed to write block`. -/
  | writeBlock
  /-- `AcceptBlock() : AddToBlockIndex failed`. -/
  | addToBlockIndex (e : ChainError)
deriving DecidableEq, Repr

/-- What a call of `AcceptBlock` meets outside of the node. -/
structure AcceptOutside where
  out : Outside
  fFindBlockPos : Bool
  fWriteToDisk : Bool
  /-- How deep `ConnectBestBlock` may nest. -/
  depth : Nat

/-- `AcceptBlock`. -/
def acceptBlock (env : Env) (o : AcceptOutside) (block : CBlock) (node : Node) :
    Except Stuck (Except AcceptError Unit × Node) :=
  if (node.mapBlockIndex.entry (block.getHash env)).isSome then
    .ok (.error (.rejected (.invalid "AcceptBlock() : block already in mapBlockIndex")), node)
  else
    match acceptBlockChecks env node.mapBlockIndex block with
    | .error e => .ok (.error (.rejected e), node)
    | .ok _ =>
      if !o.fFindBlockPos then .ok (.error .findBlockPos, node)
      else if !o.fWriteToDisk then .ok (.error .writeBlock, node)
      else
        match addToBlockIndex env o.out o.depth block node with
        | .error stuck => .error stuck
        | .ok (.error e, node) => .ok (.error (.addToBlockIndex e), node)
        | .ok (.ok _, node) => .ok (.ok (), node)

/-- The two indexes have the same entries, up to what calls write to them. -/
def BlockTree.SameEntries (t' t : BlockTree) : Prop := t'.Extends t ∧ t.Extends t'

namespace BlockTree

variable {t t' : BlockTree}

theorem SameEntries.refl (t : BlockTree) : t.SameEntries t := ⟨.refl t, .refl t⟩

theorem SameEntries.trans {t'' : BlockTree} (h : t''.SameEntries t') (h' : t'.SameEntries t) :
    t''.SameEntries t := ⟨h.1.trans h'.1, h'.2.trans h.2⟩

theorem SameEntries.indexed_iff (h : t'.SameEntries t) (hash : Uint256) :
    t'.Indexed hash ↔ t.Indexed hash := ⟨h.2.indexed, h.1.indexed⟩

end BlockTree

/-- A call that adds no entry and removes none. -/
def KeepsIndex (call : Node → Call Unit) : Prop :=
  ∀ node outcome node', call node = .ok (outcome, node') →
    node'.mapBlockIndex.SameEntries node.mapBlockIndex

theorem Node.Unchanged.sameEntries {node node' : Node} (h : node'.Unchanged node) :
    node'.mapBlockIndex.SameEntries node.mapBlockIndex := ⟨h.extends_, h.extends'⟩

/-- **Every write to the index leaves its entries in place.** -/
theorem indexInvariant_sameEntries (t₀ : BlockTree) : IndexInvariant fun t _ => t.SameEntries t₀ where
  written {t _ _ _ e'} h _ _ := BlockTree.SameEntries.trans (t.extends_setWritten e') h
  linked {t _} hash pnext h := BlockTree.SameEntries.trans (t.extends_setNext hash pnext) h
  failed {t _} hash f h _ := by
    obtain ⟨hextends, hextends', -⟩ := t.setStatus_frame hash f
    exact BlockTree.SameEntries.trans ⟨hextends, hextends'⟩ h

/-- **Choosing the best chain** adds no entry and removes none. -/
theorem keepsIndex_connectBestBlock (env : Env) (out : Outside) (depth : Nat) :
    KeepsIndex (connectBestBlock env out depth) := fun node outcome node' hrun =>
  (indexInvariant_sameEntries node.mapBlockIndex).connectBestBlock depth node outcome node' (.refl _) hrun

/-! ### What is added -/

/-- `AddToBlockIndex` of a new block adds its entry, whatever it returns, unless the height
overflows. -/
theorem addToBlockIndex_indexed {env : Env} {out : Outside} {depth : Nat} {block : CBlock}
    {node node' : Node} {outcome : Except ChainError Unit}
    (hrun : addToBlockIndex env out depth block node = .ok (outcome, node')) :
    (∀ hash, node'.mapBlockIndex.Indexed hash ↔ node.mapBlockIndex.Indexed hash) ∧
        (∃ e, outcome = .error e) ∨ (∀ hash, node'.mapBlockIndex.Indexed hash ↔
        node.mapBlockIndex.Indexed hash ∨ hash = block.getHash env) := by
  unfold addToBlockIndex at hrun
  split at hrun
  · split at hrun
    · next hfresh hmax =>
      have hnew := new_newEntry hfresh hmax
      have hinsert : ∀ hash, (node.insertBlock env block hnew).mapBlockIndex.Indexed hash ↔
          node.mapBlockIndex.Indexed hash ∨ hash = block.getHash env := by
        intro hash
        unfold BlockTree.Indexed
        rw [show (node.insertBlock env block hnew).mapBlockIndex.entry hash = _ from
          BlockTree.entry_insert hnew hash]
        split
        · next heq => exact iff_of_true ⟨_, rfl⟩ (.inr heq)
        · next hne => exact (or_iff_left hne).symm
      dsimp only at hrun
      split at hrun
      · cases hrun
        exact .inr hinsert
      · split at hrun
        · cases hrun
        · next hbest =>
          cases hrun
          exact .inr fun hash =>
            ((keepsIndex_connectBestBlock env out depth _ _ _ hbest).indexed_iff hash).trans
              (hinsert hash)
        · next node₁ hbest =>
          have hentries := keepsIndex_connectBestBlock env out depth _ _ _ hbest
          split at hrun <;> cases hrun <;>
            exact .inr fun hash => (hentries.indexed_iff hash).trans (hinsert hash)
    · cases hrun
      exact .inl ⟨fun _ => Iff.rfl, _, rfl⟩
  · cases hrun
    exact .inl ⟨fun _ => Iff.rfl, _, rfl⟩

/-- **`AcceptBlock`** adds at most the entry of its block, which was not indexed before; where
it returns true it has added it. -/
theorem acceptBlock_indexed {env : Env} {o : AcceptOutside} {block : CBlock} {node node' : Node}
    {outcome : Except AcceptError Unit} (hrun : acceptBlock env o block node = .ok (outcome, node')) :
    (∀ hash, node'.mapBlockIndex.Indexed hash ↔ node.mapBlockIndex.Indexed hash) ∧
        (∃ e, outcome = .error e) ∨ ¬ node.mapBlockIndex.Indexed (block.getHash env) ∧
        ∀ hash, node'.mapBlockIndex.Indexed hash ↔
          node.mapBlockIndex.Indexed hash ∨ hash = block.getHash env := by
  unfold acceptBlock at hrun
  split at hrun
  · cases hrun
    exact .inl ⟨fun _ => Iff.rfl, _, rfl⟩
  · next hfresh =>
    have hnot : ¬ node.mapBlockIndex.Indexed (block.getHash env) := fun hin =>
      hfresh (Option.isSome_iff_exists.mpr hin)
    split at hrun
    · cases hrun
      exact .inl ⟨fun _ => Iff.rfl, _, rfl⟩
    · split at hrun
      · cases hrun
        exact .inl ⟨fun _ => Iff.rfl, _, rfl⟩
      · split at hrun
        · cases hrun
          exact .inl ⟨fun _ => Iff.rfl, _, rfl⟩
        · split at hrun
          · cases hrun
          · next hadd =>
            cases hrun
            rcases addToBlockIndex_indexed hadd with ⟨hsame, -⟩ | hadded
            · exact .inl ⟨hsame, _, rfl⟩
            · exact .inr ⟨hnot, hadded⟩
          · next hadd =>
            cases hrun
            rcases addToBlockIndex_indexed hadd with ⟨-, e, he⟩ | hadded
            · cases he
            · exact .inr ⟨hnot, hadded⟩

end Manna
