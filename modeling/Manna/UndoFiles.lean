import Manna.Branch

/-!
The undo files along the branches of the index.

A block may be connected, disconnected and connected again; its undo record is written
once. `UndoFiles` says that every record on disk is the one the connection of its block
builds, whenever that happens, and that the predecessors of a block with a record have
one. Connecting keeps this (`UndoFiles.connect`), and it is what `DisconnectBlock` needs to
go back along a branch (`UndoFiles.disconnect`).
-/

namespace Manna

open OpProg

/-- The block can be disconnected as far as its entry says: it is the genesis block or has
undo data. -/
def Undoable (t : BlockTree) (hash : Uint256) : Prop :=
  ∃ e, t.entry hash = some e ∧ (e.pprev = none ∨ e.nStatus.haveUndo = true)

def UndoStored (env : Env) (t : BlockTree) (disk : BlockFiles) (hash : Uint256) : Prop :=
  ∃ e pprev block nAdjustedTime s s' state,
    t.entry hash = some e ∧ e.pprev = some pprev ∧ disk.blocks hash = some block ∧
    ConnectsTo env t disk.blocks pprev s ∧
    (connectBlockChecks env nAdjustedTime (heightOf t.entry) block e false).run CoinsMap.handler s =
      (.ok (some state), s') ∧
    disk.undo hash = some ⟨state.vtxundo⟩

/-- The undo files agree with the index. -/
structure UndoFiles (env : Env) (t : BlockTree) (disk : BlockFiles) : Prop where
  stored : ∀ {hash e}, t.entry hash = some e → e.nStatus.haveUndo = true →
    UndoStored env t disk hash
  closed : ∀ {hash e pprev}, t.entry hash = some e → e.nStatus.haveUndo = true →
    e.pprev = some pprev → Undoable t pprev

variable {env : Env} {t t' : BlockTree} {disk disk' : BlockFiles} {hash pprev : Uint256}

theorem UndoStored.extends (h : UndoStored env t disk hash) (htree : t'.Extends t)
    (hblocks : ∀ hash e, t.entry hash = some e → ∀ block, disk.blocks hash = some block →
      disk'.blocks hash = some block)
    (hundo : disk'.undo hash = disk.undo hash) : UndoStored env t' disk' hash := by
  obtain ⟨e, pprev, block, nAdjustedTime, s, s', state, hentry, hprev, hblock, hbranch, hchecks,
    hstored⟩ := h
  obtain ⟨e', hentry', hfixed⟩ := htree _ _ hentry
  refine ⟨e', pprev, block, nAdjustedTime, s, s', state, hentry',
    (CBlockIndex.fixed_eq_iff.mp hfixed).2.1.trans hprev, hblocks _ _ hentry _ hblock,
    hbranch.extends htree hblocks, ?_, hundo.trans hstored⟩
  rw [connectBlockChecks_congr hfixed (hbranch.heightOf_extends htree), hchecks]

/-- Nothing was ever connected but the genesis block. -/
theorem UndoFiles.of_haveUndo (h : ∀ hash e, t.entry hash = some e → e.nStatus.haveUndo = false) :
    UndoFiles env t disk where
  stored hentry hundo := by rw [h _ _ hentry] at hundo; cases hundo
  closed hentry hundo := by rw [h _ _ hentry] at hundo; cases hundo

/-- A change of the index that keeps the undo flags of old entries and adds none. -/
theorem UndoFiles.extends (h : UndoFiles env t disk) (htree : t'.Extends t)
    (hblocks : ∀ hash e, t.entry hash = some e → ∀ block, disk.blocks hash = some block →
      disk'.blocks hash = some block) (hundo : disk'.undo = disk.undo)
    (hflags : ∀ hash e', t'.entry hash = some e' → e'.nStatus.haveUndo = true →
      ∃ e, t.entry hash = some e ∧ e.nStatus.haveUndo = true ∧ e'.fixed = e.fixed)
    (hkeep : ∀ hash, Undoable t hash → Undoable t' hash) : UndoFiles env t' disk' where
  stored hentry hflag := by
    obtain ⟨e, he, hflag, -⟩ := hflags _ _ hentry hflag
    exact (h.stored he hflag).extends htree hblocks (by rw [hundo])
  closed hentry hflag hprev := by
    obtain ⟨e, he, hflag, hfixed⟩ := hflags _ _ hentry hflag
    exact hkeep _ (h.closed he hflag ((CBlockIndex.fixed_eq_iff.mp hfixed).2.1 ▸ hprev))

theorem UndoWritten.entry {blockundo : CBlockUndo} {e e' : CBlockIndex} {nMoneySupply : Int}
    (h : UndoWritten blockundo { e with nMoneySupply := nMoneySupply } e' disk disk')
    (hentry : t.entry hash = some e) :
    (t.setWritten e').entry hash = some e' ∧ e'.fixed = e.fixed ∧
      ∀ hash', hash' ≠ hash → (t.setWritten e').entry hash' = t.entry hash' := by
  obtain ⟨written, nValid, rfl, -, -⟩ := h
  have hhash := t.hash_eq hentry
  refine ⟨?_, rfl, fun hash' hne => ?_⟩
  · rw [BlockTree.entry_setWritten, if_pos hhash.symm, hentry]
    rfl
  · rw [BlockTree.entry_setWritten, if_neg (by simpa [hhash] using hne)]

theorem UndoWritten.blocks {blockundo : CBlockUndo} {e e' : CBlockIndex}
    (h : UndoWritten blockundo e e' disk disk') : disk'.blocks = disk.blocks := by
  obtain ⟨written, nValid, -, hdisk, -⟩ := h
  rw [hdisk]
  split <;> rfl

/-- **Connecting keeps the undo files**: whatever of the writes went through. -/
theorem UndoFiles.connect (h : UndoFiles env t disk) {e e' : CBlockIndex} {block : CBlock}
    {nAdjustedTime nMoneySupply : Int} {s s' : CoinsMap} {state : ConnectState}
    (hbranch : ConnectsTo env t disk.blocks pprev s) (hentry : t.entry hash = some e)
    (hprev : e.pprev = some pprev) (hblock : disk.blocks hash = some block)
    (hchecks : (connectBlockChecks env nAdjustedTime (heightOf t.entry) block e false).run
      CoinsMap.handler s = (.ok (some state), s'))
    (hwritten : UndoWritten ⟨state.vtxundo⟩ { e with nMoneySupply := nMoneySupply } e' disk disk')
    (hundoable : Undoable t pprev) :
    UndoFiles env (t.setWritten e') disk' ∧ disk'.blocks = disk.blocks ∧
      (∀ hash, Undoable t hash → Undoable (t.setWritten e') hash) ∧
      (e'.nStatus.haveUndo = true → Undoable (t.setWritten e') hash) := by
  obtain ⟨hself, hfixed, hothers⟩ := hwritten.entry hentry
  have hblocks := hwritten.blocks
  obtain ⟨written, nValid, he', hdisk, hnew⟩ := hwritten
  have htree : (t.setWritten e').Extends t := (t.extends_setWritten e').1
  have hflag : e'.nStatus.haveUndo = (e.nStatus.haveUndo || written) := by rw [he']
  have hhash := t.hash_eq hentry
  have hkeep : ∀ hash', Undoable t hash' → Undoable (t.setWritten e') hash' := by
    rintro hash' ⟨e₀, he₀, hundo⟩
    by_cases heq : hash' = hash
    · subst heq
      obtain rfl := Option.some.inj (hentry.symm.trans he₀)
      refine ⟨e', hself, hundo.imp (fun hroot => ?_) fun hhave => by rw [hflag, hhave, Bool.true_or]⟩
      rw [hprev] at hroot
      cases hroot
    · exact ⟨e₀, (hothers hash' heq).trans he₀, hundo⟩
  refine ⟨⟨?_, ?_⟩, hblocks, hkeep, fun hhave => ⟨e', hself, .inr hhave⟩⟩
  · intro hash' e₀ he₀ hhave
    by_cases heq : hash' = hash
    · subst heq
      cases hw : written with
      | true =>
        rw [hw, if_pos rfl] at hdisk
        refine ⟨e', pprev, block, nAdjustedTime, s, s', state, hself,
          (CBlockIndex.fixed_eq_iff.mp hfixed).2.1.trans hprev, by rw [hblocks, hblock],
          hbranch.extends htree (by rw [hblocks]; exact fun _ _ _ _ => id), ?_, ?_⟩
        · rw [connectBlockChecks_congr hfixed (hbranch.heightOf_extends htree), hchecks]
        · rw [hdisk, hhash]
          exact Function.update_self ..
      | false =>
        rw [hw, if_neg Bool.false_ne_true] at hdisk
        have hhave' : e.nStatus.haveUndo = true := by
          rw [hself] at he₀
          rw [← Option.some.inj he₀, hflag, hw, Bool.or_false] at hhave
          exact hhave
        exact (h.stored hentry hhave').extends htree (by rw [hblocks]; exact fun _ _ _ _ => id)
          (by rw [hdisk])
    · rw [hothers hash' heq] at he₀
      refine (h.stored he₀ hhave).extends htree (by rw [hblocks]; exact fun _ _ _ _ => id) ?_
      rw [hdisk]
      split
      · exact Function.update_of_ne (by rw [hhash]; exact heq) ..
      · rfl
  · intro hash' e₀ pprev' he₀ hhave hprev'
    by_cases heq : hash' = hash
    · subst heq
      rw [hself] at he₀
      obtain rfl := Option.some.inj he₀
      rw [(CBlockIndex.fixed_eq_iff.mp hfixed).2.1, hprev] at hprev'
      obtain rfl := Option.some.inj hprev'
      exact hkeep _ hundoable
    · rw [hothers hash' heq] at he₀
      exact hkeep _ (h.closed he₀ hhave hprev')

/-- **Going back with what is on disk.** -/
theorem UndoFiles.disconnect (h : UndoFiles env t disk) {e : CBlockIndex} {s r : CoinsMap}
    (hbranch : ConnectsTo env t disk.blocks hash s) (hundoable : Undoable t hash)
    (hentry : t.entry hash = some e) (hprev : e.pprev = some pprev)
    (hview : CoinsMap.ViewEq r s) (hclean : CleanOn (fun _ => True) r) :
    ∃ block undo s₀ r', disk.blocks hash = some block ∧ disk.undo hash = some undo ∧
      e.nStatus.haveUndo = true ∧ ConnectsTo env t disk.blocks pprev s₀ ∧
      (disconnectBlock env (.ok undo) block e).run CoinsMap.handler r = (.ok true, r') ∧
      CoinsMap.ViewEq r' s₀ ∧ CleanOn (fun _ => True) r' ∧ Undoable t pprev := by
  have hhave : e.nStatus.haveUndo = true := by
    obtain ⟨e', he', hundo⟩ := hundoable
    obtain rfl := Option.some.inj (hentry.symm.trans he')
    refine hundo.resolve_left fun hroot => ?_
    rw [hprev] at hroot
    cases hroot
  obtain ⟨e', pprev', block, nAdjustedTime, s₀, s₁, state, hentry', hprev', hblock, hbranch₀, hchecks,
    hstored⟩ := h.stored hentry hhave
  obtain rfl := Option.some.inj (hentry.symm.trans hentry')
  obtain rfl := Option.some.inj (hprev.symm.trans hprev')
  have hsame := hbranch.viewEq (.connect hbranch₀ hentry hprev hblock hchecks)
  obtain ⟨r', hrun, hview', hclean'⟩ := hbranch₀.disconnect hentry hprev hchecks (hview.trans hsame) hclean
  exact ⟨block, ⟨state.vtxundo⟩, s₀, r', hblock, hstored, hhave, hbranch₀, hrun, hview', hclean',
    h.closed hentry hhave hprev⟩

/-! ### A block connected in place -/

/-- What a successful `ConnectBlock` on a view like the one of a branch leaves. -/
structure ConnectedTo (env : Env) (t : BlockTree) (disk : BlockFiles) (e : CBlockIndex)
    (block : CBlock) (pprev : Uint256) (s : CoinsMap) (result : ConnectResult CoinsMap)
    (state : ConnectState) (s' : CoinsMap) : Prop where
  prev : e.pprev = some pprev
  checks : ∃ nAdjustedTime, (connectBlockChecks env nAdjustedTime (heightOf t.entry) block e
    false).run CoinsMap.handler s = (.ok (some state), s')
  outcome : result.outcome = .ok ⟨state.vtxundo⟩
  view : CoinsMap.ViewEq result.view (s'.setBest e.phashBlock)
  clean : CleanOn (fun _ => True) result.view
  supply : moneySupply (prevSupply t.entry e) state = .ok result.pindex.nMoneySupply
  written : ∃ nMoneySupply, UndoWritten ⟨state.vtxundo⟩ { e with nMoneySupply := nMoneySupply }
    result.pindex disk result.disk
  haveUndo : result.pindex.nStatus.haveUndo = true

theorem ConnectsTo.connectBlock_ok {blocks : Uint256 → Option CBlock} {e : CBlockIndex}
    {block : CBlock} {io : DiskIO} {nAdjustedTime : Int} {undo : CBlockUndo} {s r : CoinsMap}
    (hbranch : ConnectsTo env t blocks pprev s) (hview : CoinsMap.ViewEq r s)
    (hclean : CleanOn (fun _ => True) r) (hentry : t.entry hash = some e)
    (hhash : block.getHash env = e.phashBlock)
    (hok : (connectBlock CoinsMap.handler env io nAdjustedTime t.entry block e false r disk).outcome =
      .ok undo) : ∃ state s', ConnectedTo env t disk e block pprev s
      (connectBlock CoinsMap.handler env io nAdjustedTime t.entry block e false r disk) state s' := by
  have hchecked : ∃ checked r₁, (connectBlockChecks env nAdjustedTime (heightOf t.entry) block e
      false).run CoinsMap.handler r = (.ok checked, r₁) := by
    unfold connectBlock connectBlockWrites at hok
    cases hrun : (connectBlockChecks env nAdjustedTime (heightOf t.entry) block e false).run
        CoinsMap.handler r with
    | mk outcome r₁ =>
      cases outcome with
      | error err => rw [hrun] at hok; cases hok
      | ok checked => exact ⟨checked, r₁, rfl⟩
  have hprev : e.pprev = some pprev := by
    obtain ⟨_ | state, r₁, hrun⟩ := hchecked
    · rw [(connectBlockChecks_none hrun).1, hview.2, hbranch.best]
    · rw [(connectBlockChecks_ok hrun).2.1, hview.2, hbranch.best]
  have hgenesis : block.getHash env ≠ env.hashGenesisBlock := by
    obtain ⟨g, hg, hroot⟩ := hbranch.root
    intro heq
    rw [← heq, hhash, t.hash_eq hentry, hentry] at hg
    rw [← Option.some.inj hg, hprev] at hroot
    cases hroot
  obtain ⟨state, r₁, pindex', disk', hchecks, rfl, hwrite, heq⟩ := Manna.connectBlock_ok hgenesis hok
  obtain ⟨hblock, -, -, htxs, -⟩ := connectBlockChecks_ok hchecks
  obtain ⟨undos, hupdates, -⟩ := connectTransactions_updates htxs
  obtain ⟨s', hchecks', hview'⟩ := (related_connectBlockChecks env nAdjustedTime (heightOf t.entry)
    block e false).ok hview hchecks
  obtain ⟨nMoneySupply, hwritten, hdone⟩ := writeBlock_spec env io (prevSupply t.entry e) state e disk
  rw [hwrite] at hwritten hdone
  obtain ⟨hundo, hsupply⟩ := hdone rfl
  rw [heq]
  refine ⟨state, s', hprev, ⟨_, hchecks'⟩, rfl, ⟨hview'.1, rfl⟩, ?_, ?_, ⟨_, hwritten⟩, hundo⟩
  · have hclean' := hupdates.cleanOn hclean fun tx hmem =>
      checkTransaction_eq_ok (hblock.transactions tx hmem).1
    exact fun txid _ => hclean' txid (.inl trivial)
  · obtain ⟨written, nValid, hpindex, -⟩ := hwritten
    rw [hsupply, show pindex'.nMoneySupply = nMoneySupply from congrArg CBlockIndex.nMoneySupply hpindex]

/-- The branch goes on with the block. -/
theorem ConnectedTo.branch {e : CBlockIndex} {block : CBlock} {s s' : CoinsMap}
    {result : ConnectResult CoinsMap} {state : ConnectState}
    (h : ConnectedTo env t disk e block pprev s result state s')
    (hbranch : ConnectsTo env t disk.blocks pprev s) (hentry : t.entry hash = some e)
    (hblock : disk.blocks hash = some block) : ConnectsTo env t disk.blocks hash (s'.setBest hash) := by
  obtain ⟨nAdjustedTime, hchecks⟩ := h.checks
  exact .connect hbranch hentry h.prev hblock hchecks

end Manna
