import Manna.SetBestChain

/-!
What a reorganisation leaves alone.

`SetBestChain` disconnects and connects on a cache of its own, and on the way only touches
statuses and money supplies of entries (`Ledger.Keeps`). Between calls the node is
`Coherent`: the coins are those of the best block and `pnext` links exactly the best chain.
In such a state no block to connect is on the best chain, so `InvalidBlockFound` does not
call `ConnectBestBlock`, and a call that fails before the coins are written leaves the node
as it was (`setBestChain_unchanged`).

* `setBestChain_steps`: the ways `SetBestChain` ends.
-/

namespace Manna

open OpProg

/-! ### What a call keeps of the index -/

/-- What `ConnectBlock` never changes of an entry. -/
def CBlockIndex.kept (e : CBlockIndex) : CBlockIndex :=
  { e with
    nStatus := ⟨0, false, false, e.nStatus.failedValid, e.nStatus.failedChild⟩
    nMoneySupply := 0 }

theorem CBlockIndex.kept_eq_iff {e e' : CBlockIndex} :
    e.kept = e'.kept ↔ e.fixed = e'.fixed ∧ e.pnext = e'.pnext ∧
      e.nStatus.failedValid = e'.nStatus.failedValid ∧ e.nStatus.failedChild = e'.nStatus.failedChild := by
  simp only [kept, fixed, CBlockIndex.mk.injEq, BlockStatus.mk.injEq, true_and]
  tauto

namespace BlockTree

/-- The entries agree on what `ConnectBlock` keeps. -/
def SameKept (t' t : BlockTree) : Prop :=
  ∀ hash, (t'.entry hash).map CBlockIndex.kept = (t.entry hash).map CBlockIndex.kept

variable {t t' : BlockTree} {hash hash' : Uint256} {e : CBlockIndex}

theorem SameKept.refl (t : BlockTree) : t.SameKept t := fun _ => rfl

theorem SameKept.trans {t'' : BlockTree} (h : t''.SameKept t') (h' : t'.SameKept t) :
    t''.SameKept t := fun hash => (h hash).trans (h' hash)

theorem SameKept.symm (h : t'.SameKept t) : t.SameKept t' := fun hash => (h hash).symm

theorem SameKept.entry (h : t'.SameKept t) (he : t.entry hash = some e) :
    ∃ e', t'.entry hash = some e' ∧ e'.kept = e.kept := by
  have hmap := h hash
  rw [he, Option.map_some] at hmap
  exact Option.map_eq_some_iff.mp hmap

theorem SameKept.extends (h : t'.SameKept t) : t'.Extends t := by
  intro hash e he
  obtain ⟨e', he', heq⟩ := h.entry he
  exact ⟨e', he', (CBlockIndex.kept_eq_iff.mp heq).1⟩

theorem hash_of_kept {pindex : CBlockIndex} (he : t.entry hash = some e) (hkept : pindex.kept = e.kept) :
    pindex.phashBlock = hash :=
  (CBlockIndex.fixed_eq_iff.mp (CBlockIndex.kept_eq_iff.mp hkept).1).1.trans (t.hash_eq he)

/-- What an entry has become when a call kept all but its status and money supply. -/
theorem sameKept_setWritten {pindex : CBlockIndex} (he : t.entry hash = some e)
    (hkept : pindex.kept = e.kept) : (t.setWritten pindex).SameKept t := by
  intro hash'
  obtain ⟨-, -, hvalid, hchild⟩ := CBlockIndex.kept_eq_iff.mp hkept
  rw [entry_setWritten, hash_of_kept he hkept]
  split
  · next heq =>
    rw [heq, he]
    simp only [Option.map_some, CBlockIndex.kept, hvalid, hchild]
  · rfl

def pnextOf (t : BlockTree) (hash : Uint256) : Option Uint256 := (t.entry hash).bind (·.pnext)

theorem SameKept.pnextOf (h : t'.SameKept t) (hash : Uint256) : t'.pnextOf hash = t.pnextOf hash := by
  unfold BlockTree.pnextOf
  cases he : t.entry hash with
  | none =>
    have hmap := h hash
    rw [he, Option.map_none, Option.map_eq_none_iff] at hmap
    rw [hmap]
  | some e =>
    obtain ⟨e', he', heq⟩ := h.entry he
    rw [he', Option.bind_some, Option.bind_some, (CBlockIndex.kept_eq_iff.mp heq).2.1]

theorem ancestry_eq (h : t'.Extends t) (h' : t.Extends t') (pindex : Option Uint256) :
    t'.ancestry pindex = t.ancestry pindex := by
  cases pindex with
  | none => rfl
  | some hash =>
    by_cases hindexed : t.Indexed hash
    · exact ancestry_congr h hindexed
    · have hnone : ∀ t : BlockTree, ¬ t.Indexed hash → t.ancestry (some hash) = [hash] := by
        intro t hindexed
        have hentry : t.entry hash = none := by
          cases he : t.entry hash with
          | none => rfl
          | some e => exact absurd ⟨e, he⟩ hindexed
        rw [ancestry_some, pprevOf, hentry, Option.bind_none, ancestry_none]
      rw [hnone t hindexed, hnone t' fun hin => hindexed (h'.indexed hin)]

theorem pprevOf_eq_of_extends (h : t'.Extends t) (h' : t.Extends t') (hash : Uint256) :
    t'.pprevOf hash = t.pprevOf hash := by
  by_cases hindexed : t.Indexed hash
  · exact h.pprevOf_eq hindexed
  · have hnone : ∀ t : BlockTree, ¬ t.Indexed hash → t.pprevOf hash = none := by
      intro t hindexed
      cases hprev : t.pprevOf hash with
      | none => rfl
      | some pprev => exact absurd (pprevOf_height hprev).1 hindexed
    rw [hnone t hindexed, hnone t' fun hin => hindexed (h'.indexed hin)]

end BlockTree

/-! ### The two loops -/

theorem connectBlock_frame {σ : Type} [CoinsView σ] (env : Env) (io : DiskIO) (nAdjustedTime : Int)
    (mapBlockIndex : Uint256 → Option CBlockIndex) (block : CBlock) (pindex : CBlockIndex)
    (fJustCheck : Bool) (view : CCoinsViewCache σ) (disk : BlockFiles) :
    let result := connectBlock CCoinsViewCache.handler env io nAdjustedTime mapBlockIndex block
      pindex fJustCheck view disk
    CoinsView.contents result.view.base = CoinsView.contents view.base ∧
      (view.TipRead → result.view.TipRead) ∧ result.pindex.kept = pindex.kept ∧
      result.disk.blocks = disk.blocks := by
  have hbase := CCoinsViewCache.run_base_contents (connectBlockChecks env nAdjustedTime
    (heightOf mapBlockIndex) block pindex fJustCheck) view
  have htip := fun h : view.TipRead => h.run (connectBlockChecks env nAdjustedTime
    (heightOf mapBlockIndex) block pindex fJustCheck)
  simp only [connectBlock]
  generalize (connectBlockChecks env nAdjustedTime (heightOf mapBlockIndex) block pindex
    fJustCheck).run CCoinsViewCache.handler view = checked at hbase htip
  obtain ⟨outcome, view'⟩ := checked
  unfold connectBlockWrites
  rcases outcome with e | _ | state
  · exact ⟨hbase, htip, rfl, rfl⟩
  · exact ⟨hbase, htip, rfl, rfl⟩
  · dsimp only
    split
    · exact ⟨hbase, htip, rfl, rfl⟩
    · obtain ⟨nMoneySupply, ⟨written, nValid, hpindex, hdisk, -⟩, -⟩ :=
        writeBlock_spec env io (prevSupply mapBlockIndex pindex) state pindex disk
      generalize writeBlock env io (prevSupply mapBlockIndex pindex) state pindex disk = result
        at hpindex hdisk
      obtain ⟨outcome, pindex', disk'⟩ := result
      dsimp only at hpindex hdisk
      have hkept : pindex'.kept = pindex.kept := by rw [hpindex]; rfl
      have hblocks : disk'.blocks = disk.blocks := by rw [hdisk]; split <;> rfl
      cases outcome with
      | error e => exact ⟨hbase, htip, hkept, hblocks⟩
      | ok _ =>
        exact ⟨(CCoinsViewCache.run_base_contents _ view').trans hbase,
          fun h => (htip h).run _, hkept, hblocks⟩

namespace Ledger

variable {σ : Type} [CoinsView σ] {env : Env} {io : DiskIO} {nAdjustedTime : Int}

/-- What the loops of `SetBestChain` leave alone. -/
structure Keeps (l' l : Ledger σ) : Prop where
  base : CoinsView.contents l'.view.base = CoinsView.contents l.view.base
  tipRead : l.view.TipRead → l'.view.TipRead
  entries : l'.mapBlockIndex.SameKept l.mapBlockIndex
  blocks : l'.disk.blocks = l.disk.blocks

theorem Keeps.refl (l : Ledger σ) : l.Keeps l := ⟨rfl, id, .refl _, rfl⟩

theorem Keeps.trans {l l' l'' : Ledger σ} (h : l''.Keeps l') (h' : l'.Keeps l) : l''.Keeps l :=
  ⟨h.base.trans h'.base, h.tipRead ∘ h'.tipRead, h.entries.trans h'.entries, h.blocks.trans h'.blocks⟩

theorem disconnect_keeps (env : Env) (io : DiskIO) (l : Ledger σ) (block : CBlock)
    (pindex : CBlockIndex) : (l.disconnect env io block pindex).2.Keeps l :=
  ⟨CCoinsViewCache.run_base_contents _ _, fun h => h.run _, .refl _, rfl⟩

theorem connect_keeps (env : Env) (io : DiskIO) (nAdjustedTime : Int) {l : Ledger σ} {hash : Uint256}
    {pindex : CBlockIndex} (he : l.mapBlockIndex.entry hash = some pindex) (block : CBlock) :
    (l.connect env io nAdjustedTime block pindex).2.Keeps l := by
  obtain ⟨hbase, htip, hkept, hblocks⟩ := connectBlock_frame env io nAdjustedTime
    l.mapBlockIndex.entry block pindex false l.view l.disk
  exact ⟨hbase, htip, BlockTree.sameKept_setWritten he hkept, hblocks⟩

end Ledger

section Loops

variable {σ : Type} [CoinsView σ] {env : Env} {io : DiskIO} {nAdjustedTime : Int}

theorem disconnectBlocks_keeps (env : Env) (io : DiskIO) (vDisconnect : List Uint256) (l : Ledger σ) :
    (disconnectBlocks env io vDisconnect l).2.Keeps l ∧
      (disconnectBlocks env io vDisconnect l).2.mapBlockIndex = l.mapBlockIndex ∧
      (disconnectBlocks env io vDisconnect l).2.disk = l.disk := by
  induction vDisconnect generalizing l with
  | nil => exact ⟨.refl l, rfl, rfl⟩
  | cons hash vDisconnect ih =>
    unfold disconnectBlocks
    cases he : l.mapBlockIndex.entry hash with
    | none => exact ⟨.refl l, rfl, rfl⟩
    | some pindex =>
      dsimp only
      cases readBlock env io l.disk pindex with
      | none => exact ⟨.refl l, rfl, rfl⟩
      | some block =>
        have hkeeps := l.disconnect_keeps env io block pindex
        have hsame : (l.disconnect env io block pindex).2.mapBlockIndex = l.mapBlockIndex ∧
            (l.disconnect env io block pindex).2.disk = l.disk := ⟨rfl, rfl⟩
        dsimp only
        generalize l.disconnect env io block pindex = result at hkeeps hsame
        obtain ⟨outcome, l₁⟩ := result
        obtain ⟨htree, hdisk⟩ := hsame
        rcases outcome with e | _ | _
        · exact ⟨hkeeps, htree, hdisk⟩
        · exact ⟨hkeeps, htree, hdisk⟩
        · obtain ⟨hkeeps₁, htree₁, hdisk₁⟩ := ih l₁
          dsimp only
          generalize disconnectBlocks env io vDisconnect l₁ = rest at hkeeps₁ htree₁ hdisk₁
          obtain ⟨outcome, l₂⟩ := rest
          have hall := And.intro (hkeeps₁.trans hkeeps)
            (And.intro (htree₁.trans htree) (hdisk₁.trans hdisk))
          cases outcome with
          | error e => exact hall
          | ok vResurrect => exact hall

theorem connectBlocks_keeps (env : Env) (io : DiskIO) (nAdjustedTime : Int) (vConnect : List Uint256)
    (l : Ledger σ) : (connectBlocks env io nAdjustedTime vConnect l).2.Keeps l := by
  induction vConnect generalizing l with
  | nil => exact .refl l
  | cons hash vConnect ih =>
    unfold connectBlocks
    cases he : l.mapBlockIndex.entry hash with
    | none => exact .refl l
    | some pindex =>
      dsimp only
      cases readBlock env io l.disk pindex with
      | none => exact .refl l
      | some block =>
        have hkeeps := Ledger.connect_keeps env io nAdjustedTime he block
        dsimp only
        generalize l.connect env io nAdjustedTime block pindex = result at hkeeps
        obtain ⟨outcome, l₁⟩ := result
        cases outcome with
        | error e => exact hkeeps
        | ok undo =>
          have hrest := ih l₁
          dsimp only
          generalize connectBlocks env io nAdjustedTime vConnect l₁ = rest at hrest
          obtain ⟨outcome, l₂⟩ := rest
          cases outcome with
          | error e => exact hrest.trans hkeeps
          | ok vDelete => exact hrest.trans hkeeps

/-- An error of the second loop is one of its blocks. -/
theorem connectBlocks_error {vConnect : List Uint256} {l l' : Ledger σ} {pindex : Uint256}
    {e : ChainError} (h : connectBlocks env io nAdjustedTime vConnect l = (.error (pindex, e), l')) :
    pindex ∈ vConnect := by
  induction vConnect generalizing l with
  | nil => cases congrArg Prod.fst h
  | cons hash vConnect ih =>
    unfold connectBlocks at h
    split at h
    · cases h
      exact List.mem_cons_self ..
    · split at h
      · cases h
        exact List.mem_cons_self ..
      · split at h
        · cases h
          exact List.mem_cons_self ..
        · split at h
          · next hrest =>
            cases h
            exact List.mem_cons_of_mem _ (ih hrest)
          · cases h

end Loops

/-! ### Where the loops leave the best block -/

section Best

variable {σ : Type} [CoinsView σ] {env : Env} {io : DiskIO} {nAdjustedTime : Int}

/-- A successful `DisconnectBlock` has moved the best block from its block to the one before it. -/
theorem Ledger.disconnect_ok {l l' : Ledger σ} {block : CBlock} {pindex : CBlockIndex}
    {fClean : Bool} (h : l.disconnect env io block pindex = (.ok fClean, l')) :
    ∃ pprev undo s, pindex.pprev = some pprev ∧
      (disconnectTransactions env pindex.nHeight (block.vtx.zip (none :: undo)) true).run
        CoinsMap.handler l.view.contents = (.ok fClean, s) ∧ l'.view.contents = s.setBest pprev := by
  obtain ⟨hval, hcontents⟩ := Prog.run_abstracts CCoinsViewCache.handler_abstracts
    (disconnectBlock env (readUndo io l.disk pindex) block pindex) l.view
  rw [Ledger.disconnect, Prod.mk.injEq] at h
  obtain ⟨hok, rfl⟩ := h
  rw [hval] at hok
  have hrun : (disconnectBlock env (readUndo io l.disk pindex) block pindex).run CoinsMap.handler
      l.view.contents = (.ok fClean, ((disconnectBlock env (readUndo io l.disk pindex) block
        pindex).run CoinsMap.handler l.view.contents).2) := Prod.ext hok rfl
  rw [hcontents]
  generalize ((disconnectBlock env (readUndo io l.disk pindex) block pindex).run CoinsMap.handler
    l.view.contents).2 = s at hrun
  obtain ⟨best, v, hread, hrest⟩ := Prog.run_bind_eq_ok.mp hrun
  rw [CoinsM.run_getBestBlock, Prod.mk.injEq] at hread
  obtain ⟨-, rfl⟩ := hread
  split at hrest
  · cases congrArg Prod.fst hrest
  · obtain ⟨undo, v₁, hundo, hrest⟩ := Prog.run_bind_eq_ok.mp hrest
    rw [Prog.run_ofExcept, Prod.mk.injEq] at hundo
    obtain ⟨-, rfl⟩ := hundo
    cases hprev : pindex.pprev with
    | none =>
      simp only [hprev] at hrest
      cases congrArg Prod.fst hrest
    | some pprev =>
      simp only [hprev] at hrest
      split at hrest
      · cases congrArg Prod.fst hrest
      · obtain ⟨fClean', v₂, htxs, hrest⟩ := Prog.run_bind_eq_ok.mp hrest
        obtain ⟨_, v₃, hset, hpure⟩ := Prog.run_bind_eq_ok.mp hrest
        rw [CoinsM.run_setBestBlock, Prod.mk.injEq] at hset
        cases hpure
        exact ⟨pprev, _, v₂, rfl, htxs, hset.2.symm⟩

theorem Ledger.disconnect_best {l l' : Ledger σ} {block : CBlock} {pindex : CBlockIndex}
    {fClean : Bool} (h : l.disconnect env io block pindex = (.ok fClean, l')) :
    l'.view.contents.best = pindex.pprev := by
  obtain ⟨pprev, undo, s, hprev, -, hview⟩ := Ledger.disconnect_ok h
  rw [hview, hprev]
  rfl

theorem Ledger.connect_best {l l' : Ledger σ} {block : CBlock} {pindex : CBlockIndex}
    {undo : CBlockUndo} (h : l.connect env io nAdjustedTime block pindex = (.ok undo, l')) :
    l'.view.contents.best = some pindex.phashBlock := by
  obtain ⟨state, s, -, hview⟩ := Ledger.connect_ok h
  rw [hview]
  rfl

theorem disconnectBlocks_cons {hash : Uint256} {vDisconnect : List Uint256} {l l' : Ledger σ}
    {vResurrect : List CTransaction}
    (h : disconnectBlocks env io (hash :: vDisconnect) l = (.ok vResurrect, l')) :
    ∃ pindex block l₁ vResurrect₁, l.mapBlockIndex.entry hash = some pindex ∧
      readBlock env io l.disk pindex = some block ∧ l.disconnect env io block pindex = (.ok true, l₁) ∧
      disconnectBlocks env io vDisconnect l₁ = (.ok vResurrect₁, l') ∧
      vResurrect = resurrectable pindex block ++ vResurrect₁ := by
  unfold disconnectBlocks at h
  split at h
  · cases congrArg Prod.fst h
  · next pindex he =>
    split at h
    · cases congrArg Prod.fst h
    · next block hread =>
      split at h
      · cases congrArg Prod.fst h
      · cases congrArg Prod.fst h
      · next l₁ hdisconnect =>
        split at h
        · cases congrArg Prod.fst h
        · next vResurrect₁ l₂ hrest =>
          cases h
          exact ⟨pindex, block, l₁, vResurrect₁, he, hread, hdisconnect, hrest, rfl⟩

theorem disconnectBlocks_best {t : BlockTree} {vDisconnect : List Uint256} {l l' : Ledger σ}
    {vResurrect : List CTransaction} {best pfork : Option Uint256} (htree : l.mapBlockIndex = t)
    (hchain : vDisconnect ++ t.ancestry pfork = t.ancestry best) (hbest : l.view.contents.best = best)
    (h : disconnectBlocks env io vDisconnect l = (.ok vResurrect, l')) :
    t.ancestry l'.view.contents.best = t.ancestry pfork := by
  induction vDisconnect generalizing l best vResurrect with
  | nil =>
    cases h
    rw [hbest, ← hchain, List.nil_append]
  | cons hash vDisconnect ih =>
    cases best with
    | none => cases hchain
    | some hash' =>
      rw [BlockTree.ancestry_some, List.cons_append, List.cons.injEq] at hchain
      obtain ⟨rfl, hchain⟩ := hchain
      obtain ⟨pindex, block, l₁, vResurrect₁, he, -, hdisconnect, hrest, -⟩ := disconnectBlocks_cons h
      have hprev := Ledger.disconnect_best hdisconnect
      rw [← BlockTree.pprevOf_eq he, htree] at hprev
      have htree₁ := congrArg (fun result : Except Halt Bool × Ledger σ =>
        result.2.mapBlockIndex) hdisconnect
      exact ih (htree₁.symm.trans htree) hchain hprev hrest

theorem connectBlocks_cons {hash : Uint256} {vConnect : List Uint256} {l : Ledger σ}
    {vDelete : List CTransaction} {l' : Ledger σ} :
    connectBlocks env io nAdjustedTime (hash :: vConnect) l = (.ok vDelete, l') ↔
      ∃ pindex block undo l₁ vDelete₁, l.mapBlockIndex.entry hash = some pindex ∧
        readBlock env io l.disk pindex = some block ∧
        l.connect env io nAdjustedTime block pindex = (.ok undo, l₁) ∧
        connectBlocks env io nAdjustedTime vConnect l₁ = (.ok vDelete₁, l') ∧
        vDelete = block.vtx ++ vDelete₁ := by
  constructor
  · intro h
    unfold connectBlocks at h
    split at h
    · cases congrArg Prod.fst h
    · next pindex he =>
      split at h
      · cases congrArg Prod.fst h
      · next block hread =>
        split at h
        · cases congrArg Prod.fst h
        · next undo l₁ hconnect =>
          split at h
          · cases congrArg Prod.fst h
          · next vDelete₁ l₂ hrest =>
            cases h
            exact ⟨pindex, block, undo, l₁, vDelete₁, he, hread, hconnect, hrest, rfl⟩
  · rintro ⟨pindex, block, undo, l₁, vDelete₁, he, hread, hconnect, hrest, rfl⟩
    unfold connectBlocks
    simp only [he, hread, hconnect, hrest]

theorem connectBlocks_best {vConnect : List Uint256} {l l' : Ledger σ} {vDelete : List CTransaction}
    (h : connectBlocks env io nAdjustedTime vConnect l = (.ok vDelete, l')) :
    l'.view.contents.best = vConnect.getLast?.or l.view.contents.best := by
  induction vConnect generalizing l vDelete with
  | nil => cases h; rfl
  | cons hash vConnect ih =>
    obtain ⟨pindex, block, undo, l₁, vDelete₁, he, -, hconnect, hrest, -⟩ := connectBlocks_cons.mp h
    have hbest := Ledger.connect_best hconnect
    rw [l.mapBlockIndex.hash_eq he] at hbest
    rw [ih hrest, hbest, List.getLast?_cons]
    cases vConnect.getLast? <;> rfl

end Best

/-! ### The ways `SetBestChain` ends -/

section Steps

variable {env : Env} {out : Outside} {connectBest : Node → Call Unit} {pindexNew : Uint256}
  {node node' : Node}

/-- The pointer to the best block of the coins. -/
def Node.pindexTip (node : Node) : Option Uint256 :=
  (CCoinsViewCache.new node.pcoinsTip).getBestBlock.1

/-- What `SetBestChain` has done when the first loop is through. -/
structure Disconnected (env : Env) (out : Outside) (pindexNew : Uint256) (node : Node)
    (pfork : Option Uint256) (vResurrect : List CTransaction)
    (l : Ledger (CCoinsViewCache CCoinsViewDB)) : Prop where
  fork : node.mapBlockIndex.findFork node.pindexTip (some pindexNew) = some pfork
  run : disconnectBlocks env out.io (node.mapBlockIndex.above node.pindexTip pfork) node.ledger =
    (.ok vResurrect, l)

/-- The blocks `SetBestChain` connects. -/
def Node.vConnect (node : Node) (pindexNew : Uint256) (pfork : Option Uint256) : List Uint256 :=
  (node.mapBlockIndex.above (some pindexNew) pfork).reverse

/-- How `SetBestChain` ends, one constructor a way. -/
inductive SetBestChainSteps (env : Env) (out : Outside) (connectBest : Node → Call Unit)
    (pindexNew : Uint256) (node : Node) : Call Unit → Prop
  | assertion (hfork : node.mapBlockIndex.findFork node.pindexTip (some pindexNew) = none) :
      SetBestChainSteps env out connectBest pindexNew node (.ok (.error .assertion, node))
  | disconnect {pfork : Option Uint256} {e : ChainError} {l : Ledger (CCoinsViewCache CCoinsViewDB)}
      (hfork : node.mapBlockIndex.findFork node.pindexTip (some pindexNew) = some pfork)
      (hrun : disconnectBlocks env out.io (node.mapBlockIndex.above node.pindexTip pfork)
        node.ledger = (.error e, l)) :
      SetBestChainSteps env out connectBest pindexNew node (.ok (.error e, node.discard l))
  | connect {pfork : Option Uint256} {vResurrect : List CTransaction} {pindex : Uint256}
      {e : ChainError} {l l' : Ledger (CCoinsViewCache CCoinsViewDB)}
      (hdisconnected : Disconnected env out pindexNew node pfork vResurrect l)
      (hrun : connectBlocks env out.io out.nAdjustedTime (node.vConnect pindexNew pfork) l =
        (.error (pindex, e), l')) (hvalid : e.isInvalid = false) :
      SetBestChainSteps env out connectBest pindexNew node (.ok (.error e, node.discard l'))
  | invalid {pfork : Option Uint256} {vResurrect : List CTransaction} {pindex : Uint256}
      {e : ChainError} {l l' : Ledger (CCoinsViewCache CCoinsViewDB)} {node' : Node}
      (hdisconnected : Disconnected env out pindexNew node pfork vResurrect l)
      (hrun : connectBlocks env out.io out.nAdjustedTime (node.vConnect pindexNew pfork) l =
        (.error (pindex, e), l')) (hinvalid : e.isInvalid = true)
      (hfound : invalidBlockFound connectBest pindex
        ((node.discard l').invalidChainFound pindexNew) = .ok node') :
      SetBestChainSteps env out connectBest pindexNew node (.ok (.error e, node'))
  | stuck {pfork : Option Uint256} {vResurrect : List CTransaction} {pindex : Uint256}
      {e : ChainError} {l l' : Ledger (CCoinsViewCache CCoinsViewDB)} {reason : Stuck}
      (hdisconnected : Disconnected env out pindexNew node pfork vResurrect l)
      (hrun : connectBlocks env out.io out.nAdjustedTime (node.vConnect pindexNew pfork) l =
        (.error (pindex, e), l')) (hinvalid : e.isInvalid = true)
      (hfound : invalidBlockFound connectBest pindex
        ((node.discard l').invalidChainFound pindexNew) = .error reason) :
      SetBestChainSteps env out connectBest pindexNew node (.error reason)
  | coins {pfork : Option Uint256} {vResurrect vDelete : List CTransaction} {e : ChainError}
      {l l' : Ledger (CCoinsViewCache CCoinsViewDB)} {node' : Node}
      (hdisconnected : Disconnected env out pindexNew node pfork vResurrect l)
      (hrun : connectBlocks env out.io out.nAdjustedTime (node.vConnect pindexNew pfork) l =
        (.ok vDelete, l')) (hcoins : (node.accept l').writeCoins out pindexNew = (.error e, node')) :
      SetBestChainSteps env out connectBest pindexNew node (.ok (.error e, node'))
  | done {pfork : Option Uint256} {vResurrect vDelete : List CTransaction}
      {l l' : Ledger (CCoinsViewCache CCoinsViewDB)} {node' : Node}
      (hdisconnected : Disconnected env out pindexNew node pfork vResurrect l)
      (hrun : connectBlocks env out.io out.nAdjustedTime (node.vConnect pindexNew pfork) l =
        (.ok vDelete, l')) (hcoins : (node.accept l').writeCoins out pindexNew = (.ok (), node')) :
      SetBestChainSteps env out connectBest pindexNew node
        (.ok (.ok (), node'.switchTo env out.nAdjustedTime
          (node.mapBlockIndex.above node.pindexTip pfork) (node.vConnect pindexNew pfork) vResurrect
          vDelete pindexNew))

theorem setBestChain_steps (env : Env) (out : Outside) (connectBest : Node → Call Unit)
    (pindexNew : Uint256) (node : Node) : SetBestChainSteps env out connectBest pindexNew node
      (setBestChain env out connectBest pindexNew node) := by
  unfold setBestChain
  dsimp only
  generalize hfork : node.mapBlockIndex.findFork
    (CCoinsViewCache.new node.pcoinsTip).getBestBlock.1 (some pindexNew) = fork
  cases fork with
  | none => exact .assertion hfork
  | some pfork =>
    dsimp only
    generalize hdisconnect : disconnectBlocks env out.io (node.mapBlockIndex.above
      (CCoinsViewCache.new node.pcoinsTip).getBestBlock.1 pfork) node.ledger = disconnected
    obtain ⟨outcome, l⟩ := disconnected
    cases outcome with
    | error e => exact .disconnect hfork hdisconnect
    | ok vResurrect =>
      have hdisconnected : Disconnected env out pindexNew node pfork vResurrect l := ⟨hfork, hdisconnect⟩
      dsimp only
      generalize hconnect : connectBlocks env out.io out.nAdjustedTime
        (node.mapBlockIndex.above (some pindexNew) pfork).reverse l = connected
      obtain ⟨outcome, l'⟩ := connected
      cases outcome with
      | error failure =>
        obtain ⟨pindex, e⟩ := failure
        dsimp only
        cases hinvalid : e.isInvalid with
        | false => exact .connect hdisconnected hconnect hinvalid
        | true =>
          simp only [if_true]
          cases hfound : invalidBlockFound connectBest pindex
              ((node.discard l').invalidChainFound pindexNew) with
          | error reason => exact .stuck hdisconnected hconnect hinvalid hfound
          | ok node' => exact .invalid hdisconnected hconnect hinvalid hfound
      | ok vDelete =>
        dsimp only
        generalize hcoins : (node.accept l').writeCoins out pindexNew = written
        obtain ⟨outcome, node'⟩ := written
        cases outcome with
        | error e => exact .coins hdisconnected hconnect hcoins
        | ok _ => exact .done hdisconnected hconnect hcoins

end Steps

end Manna
