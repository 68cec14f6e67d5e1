import Manna.Coherent

/-!
What the wallets are told (`main.cpp`: the end of `ConnectBlock`, `SetBestChain`, `VerifyDB`).

`ConnectBlock` calls `SyncWithWallets` for every transaction of a block it has connected,
while the reorganisation around it is still under way. `VerifyDB` connects blocks of the best
chain again on a cache that it throws away.

* `notified_iff_of_coherent`: after a call on a coherent node every block that was passed to the
  wallets is on the best chain if and only if `SetBestChain` does not stop between the first
  block it connects and the end;
* `verifyDB_notified`: `VerifyDB` passes blocks of the best chain only.
-/

namespace Manna

open OpProg

/-- A call of `SyncWithWallets` with a block. -/
structure Notice where
  hash : Uint256
  tx : CTransaction
  pblock : CBlock

/-- The calls at the end of `ConnectBlock`, which returns before them for the genesis block. -/
def syncWithWallets (env : Env) (block : CBlock) : List Notice :=
  if block.getHash env = env.hashGenesisBlock then []
  else block.vtx.map fun tx => ⟨env.txHash tx, tx, block⟩

section Ledger

variable {σ : Type} [CoinsView σ]

/-- The calls of the loop over `vConnect` (`connectBlocks`). -/
def connectNotices (env : Env) (io : DiskIO) (nAdjustedTime : Int) :
    List Uint256 → Ledger σ → List Notice
  | [], _ => []
  | hash :: vConnect, l =>
    match l.mapBlockIndex.entry hash with
    | none => []
    | some pindex =>
      match readBlock env io l.disk pindex with
      | none => []
      | some block =>
        match l.connect env io nAdjustedTime block pindex with
        | (.error _, _) => []
        | (.ok _, l) =>
          syncWithWallets env block ++ connectNotices env io nAdjustedTime vConnect l

end Ledger

/-- The calls of `SetBestChain`. What `InvalidBlockFound` may start is not counted: on a
coherent node it starts nothing (`Node.Coherent.invalid`). -/
def setBestChainNotices (env : Env) (out : Outside) (pindexNew : Uint256) (node : Node) :
    List Notice :=
  match node.mapBlockIndex.findFork node.pindexTip (some pindexNew) with
  | none => []
  | some pfork =>
    match disconnectBlocks env out.io (node.mapBlockIndex.above node.pindexTip pfork)
        node.ledger with
    | (.error _, _) => []
    | (.ok _, l) => connectNotices env out.io out.nAdjustedTime (node.vConnect pindexNew pfork) l

/-! ### `VerifyDB` -/

/-- Why `VerifyDB` returns false, or what stops it. -/
inductive VerifyError where
  /-- `block.ReadFromDisk failed`. -/
  | readBlock
  /-- `found bad block`. -/
  | badBlock (e : Halt)
  /-- `found bad undo data`. -/
  | badUndo
  /-- `irrecoverable inconsistency in block data`. -/
  | disconnectBlock (e : Halt)
  /-- `coin database inconsistencies found`. -/
  | inconsistent
  /-- `found unconnectable block`. -/
  | unconnectable (e : Halt)
  /-- A null pointer is followed. -/
  | undefined
  /-- The best block is not reached. -/
  | endless

/-- The variables of the loops of `VerifyDB`; `coins` comes with index and files. -/
structure Verify where
  coins : Ledger (CCoinsViewCache CCoinsViewDB)
  pindexState : Uint256
  pindexFailure : Option Uint256

/-- The checks of the levels 1 to 3. -/
def verifyBlock (env : Env) (out : Outside) (nCheckLevel : Int) (pindex : CBlockIndex)
    (block : CBlock) (v : Verify) : Except VerifyError Unit × Verify :=
  match (if nCheckLevel ≥ 1 then checkBlock env out.nAdjustedTime block true true else .ok ()) with
  | .error e => (.error (.badBlock e), v)
  | .ok _ =>
    if nCheckLevel ≥ 2 ∧ pindex.nStatus.haveUndo ∧
        !(readUndo out.io v.coins.disk pindex).toOption.isSome then (.error .badUndo, v)
    else if nCheckLevel ≥ 3 ∧ pindex.phashBlock = v.pindexState ∧
        v.coins.view.getCacheSize + v.coins.view.base.getCacheSize ≤
          2 * out.nCoinCacheSize + 32000 then
      match v.coins.disconnect env out.io block pindex with
      | (.error e, l) => (.error (.disconnectBlock e), { v with coins := l })
      | (.ok fClean, l) =>
        (.ok (),
          { coins := l
            pindexState := pindex.pprev.getD v.pindexState
            pindexFailure := if fClean then v.pindexFailure else some pindex.phashBlock })
    else (.ok (), v)

/-- The loop down the best chain. -/
def verifyBlocks (env : Env) (out : Outside) (nBestHeight nCheckLevel nCheckDepth : Int) :
    List Uint256 → Verify → Except VerifyError Unit × Verify
  | [], v => (.ok (), v)
  | hash :: rest, v =>
    match v.coins.mapBlockIndex.entry hash with
    | none => (.error .undefined, v)
    | some pindex =>
      if pindex.pprev = none ∨ pindex.nHeight < nBestHeight - nCheckDepth then (.ok (), v)
      else
        match readBlock env out.io v.coins.disk pindex with
        | none => (.error .readBlock, v)
        | some block =>
          match verifyBlock env out nCheckLevel pindex block v with
          | (.error e, v) => (.error e, v)
          | (.ok _, v) =>
            verifyBlocks env out nBestHeight nCheckLevel nCheckDepth rest v

/-- The loop of level 4, which connects blocks along `pnext` up to the best one. -/
def reconnectBlocks (env : Env) (out : Outside) (pindexBest : Uint256) :
    Nat → Uint256 → Ledger (CCoinsViewCache CCoinsViewDB) →
      Except VerifyError Unit × List Notice × Ledger (CCoinsViewCache CCoinsViewDB)
  | 0, _, l => (.error .endless, [], l)
  | rounds + 1, pindex, l =>
    if pindex = pindexBest then (.ok (), [], l)
    else
      match (l.mapBlockIndex.pnextOf pindex).bind l.mapBlockIndex.entry with
      | none => (.error .undefined, [], l)
      | some pindex =>
        match readBlock env out.io l.disk pindex with
        | none => (.error .readBlock, [], l)
        | some block =>
          match l.connect env out.io out.nAdjustedTime block pindex with
          | (.error e, l) => (.error (.unconnectable e), [], l)
          | (.ok _, l) =>
            let (outcome, notices, l) := reconnectBlocks env out pindexBest rounds pindex.phashBlock l
            (outcome, syncWithWallets env block ++ notices, l)

/-- `VerifyDB`, with the calls of `SyncWithWallets` it makes. -/
def verifyDB (env : Env) (out : Outside) (nCheckLevel nCheckDepth : Int) (node : Node) :
    Except VerifyError Unit × List Notice × Node :=
  match node.pindexBest with
  | none => (.ok (), [], node)
  | some pindexBest =>
    if node.mapBlockIndex.pprevOf pindexBest = none then (.ok (), [], node)
    else
      let nCheckDepth := if nCheckDepth ≤ 0 then 1000000000 else nCheckDepth
      let nCheckDepth := if nCheckDepth > node.nBestHeight then node.nBestHeight else nCheckDepth
      let nCheckLevel := max 0 (min 4 nCheckLevel)
      match verifyBlocks env out node.nBestHeight nCheckLevel nCheckDepth
          (node.mapBlockIndex.ancestry (some pindexBest))
          ⟨⟨.new node.pcoinsTip, node.mapBlockIndex, node.disk⟩, pindexBest, none⟩ with
      | (.error e, v) => (.error e, [], node.discard v.coins)
      | (.ok _, v) =>
        if v.pindexFailure.isSome then (.error .inconsistent, [], node.discard v.coins)
        else if nCheckLevel ≥ 4 then
          let (outcome, notices, l) := reconnectBlocks env out pindexBest
            (node.mapBlockIndex.entries.keys.card + 1) v.pindexState v.coins
          (outcome, notices, node.discard l)
        else (.ok (), [], node.discard v.coins)

/-! ### Sequences of calls -/

/-- The calls that may tell the wallets of a block, and the entry of a new block in the index. -/
inductive ChainCall where
  | setBestChain (out : Outside) (connectBest : Node → Call Unit) (pindexNew : Uint256)
  | verifyDB (out : Outside) (nCheckLevel nCheckDepth : Int)
  | insertBlock (block : CBlock)

namespace ChainCall

/-- How a call ends: whether the node goes on, and its state. After `CheckDiskSpace` or the
coin database failed it shuts down. `SetBestChain` is called with entries of the index only. -/
def outcome (env : Env) (node : Node) : ChainCall → Except Stuck (Bool × Node)
  | setBestChain out connectBest pindexNew =>
    if (node.mapBlockIndex.entry pindexNew).isSome then
      match Manna.setBestChain env out connectBest pindexNew node with
      | .error stuck => .error stuck
      | .ok (.ok _, node) => .ok (true, node)
      | .ok (.error e, node) => .ok (e ≠ .diskSpace ∧ e ≠ .coinDatabase, node)
    else .ok (true, node)
  | verifyDB out nCheckLevel nCheckDepth =>
    .ok (true, (Manna.verifyDB env out nCheckLevel nCheckDepth node).2.2)
  | insertBlock block =>
    if hfresh : node.mapBlockIndex.entry (block.getHash env) = none then
      if hmax : (newEntry env node.mapBlockIndex block).nHeight ≤ INT_MAX then
        .ok (true, node.insertBlock env block (new_newEntry hfresh hmax))
      else .ok (true, node)
    else .ok (true, node)

def notices (env : Env) (node : Node) : ChainCall → List Notice
  | setBestChain out _ pindexNew =>
    if (node.mapBlockIndex.entry pindexNew).isSome then setBestChainNotices env out pindexNew node
    else []
  | verifyDB out nCheckLevel nCheckDepth =>
    (Manna.verifyDB env out nCheckLevel nCheckDepth node).2.1
  | insertBlock _ => []

/-- Every block that the wallets were told of is on the best chain once the call returns. -/
def Notified (env : Env) (node : Node) (call : ChainCall) : Prop :=
  ∀ goesOn node', call.outcome env node = .ok (goesOn, node') → ∀ notice ∈ call.notices env node,
    notice.pblock.getHash env ∈ node'.mapBlockIndex.ancestry node'.pindexBest

/-- The condition on a call: as soon as `SetBestChain` gets a block other than the genesis
block connected, all its blocks connect and the coins are written. -/
def Settles (env : Env) (node : Node) : ChainCall → Prop
  | setBestChain out _ pindexNew =>
    ∀ pfork vResurrect l done hash rest vDelete l₁,
      (node.mapBlockIndex.entry pindexNew).isSome →
      Disconnected env out pindexNew node pfork vResurrect l →
      node.vConnect pindexNew pfork = done ++ hash :: rest → hash ≠ env.hashGenesisBlock →
      connectBlocks env out.io out.nAdjustedTime (done ++ [hash]) l = (.ok vDelete, l₁) →
      ∃ vDelete l', connectBlocks env out.io out.nAdjustedTime (node.vConnect pindexNew pfork) l =
          (.ok vDelete, l') ∧ ((node.accept l').writeCoins out pindexNew).1 = .ok ()
  | verifyDB .. => True
  | insertBlock _ => True

def step (env : Env) (node : Node) (call : ChainCall) : Option Node :=
  match call.outcome env node with
  | .ok (true, node) => some node
  | _ => none

/-- The node after a sequence of calls, as long as it goes on. -/
def runAll (env : Env) (node : Node) (calls : List ChainCall) : Option Node :=
  calls.foldlM (step env) node

end ChainCall

/-! ### The blocks of a loop -/

section Ledger

variable {σ : Type} [CoinsView σ] {env : Env} {io : DiskIO} {nAdjustedTime : Int}

/-- A block that `ConnectBlock` accepts has transactions. -/
theorem Ledger.vtx_ne_nil {l l' : Ledger σ} {block : CBlock} {pindex : CBlockIndex}
    {undo : CBlockUndo} (h : l.connect env io nAdjustedTime block pindex = (.ok undo, l')) :
    block.vtx ≠ [] := by
  have hok := congrArg Prod.fst h
  simp only [Ledger.connect, connectBlock] at hok
  cases hrun : (connectBlockChecks env nAdjustedTime (heightOf l.mapBlockIndex.entry) block pindex
      false).run CCoinsViewCache.handler l.view with
  | mk outcome view =>
    rw [hrun] at hok
    cases outcome with
    | error e => cases hok
    | ok checked =>
      obtain ⟨_, view₁, hcheck, -⟩ := Prog.run_bind_eq_ok.mp hrun
      rw [Prog.run_ofExcept, Prod.mk.injEq] at hcheck
      have hcheck := hcheck.1
      unfold checkBlock at hcheck
      split at hcheck
      · cases hcheck
      · next hsize =>
        intro hnil
        exact hsize (.inl (List.isEmpty_iff.mpr hnil))

/-- The wallets are told of the blocks that the loop connects, up to where it stops. -/
theorem mem_connectNotices {vConnect : List Uint256} {l : Ledger σ} {hash : Uint256} :
    (∃ notice ∈ connectNotices env io nAdjustedTime vConnect l, notice.pblock.getHash env = hash) ↔
      ∃ done rest vDelete l', vConnect = done ++ hash :: rest ∧ hash ≠ env.hashGenesisBlock ∧
        connectBlocks env io nAdjustedTime (done ++ [hash]) l = (.ok vDelete, l') := by
  induction vConnect generalizing l with
  | nil =>
    constructor
    · rintro ⟨notice, hmem, -⟩
      cases hmem
    · rintro ⟨done, rest, vDelete, l', hsplit, -⟩
      exact absurd hsplit.symm (by simp)
  | cons first vConnect ih =>
    constructor
    · rintro ⟨notice, hmem, hhash⟩
      unfold connectNotices at hmem
      split at hmem
      · cases hmem
      · next pindex he =>
        split at hmem
        · cases hmem
        · next block hread =>
          split at hmem
          · cases hmem
          · next undo l₁ hconnect =>
            rcases List.mem_append.mp hmem with hmem | hmem
            · -- a notice of the first block
              unfold syncWithWallets at hmem
              split at hmem
              · cases hmem
              · next hgenesis =>
                obtain ⟨tx, -, rfl⟩ := List.mem_map.mp hmem
                have hfirst : first = hash := by
                  rw [← hhash, (readBlock_eq_some hread).2, l.mapBlockIndex.hash_eq he]
                refine ⟨[], vConnect, block.vtx ++ [], l₁, by rw [hfirst]; rfl, ?_, ?_⟩
                · rw [← hhash]
                  exact hgenesis
                · exact connectBlocks_cons.mpr
                    ⟨pindex, block, undo, l₁, [], hfirst ▸ he, hread, hconnect, rfl, rfl⟩
            · obtain ⟨done, rest, vDelete, l', rfl, hgenesis, hrun⟩ := ih.mp ⟨notice, hmem, hhash⟩
              exact ⟨first :: done, rest, block.vtx ++ vDelete, l', rfl, hgenesis,
                connectBlocks_cons.mpr ⟨pindex, block, undo, l₁, vDelete, he, hread, hconnect,
                  hrun, rfl⟩⟩
    · rintro ⟨done, rest, vDelete, l', hsplit, hgenesis, hrun⟩
      cases done with
      | nil =>
        obtain ⟨rfl, rfl⟩ := List.cons.inj hsplit
        obtain ⟨pindex, block, undo, l₁, vDelete₁, he, hread, hconnect, -, -⟩ := connectBlocks_cons.mp hrun
        have hhash : block.getHash env = first := by
          rw [(readBlock_eq_some hread).2, l.mapBlockIndex.hash_eq he]
        obtain ⟨tx, vtx, hvtx⟩ := List.exists_cons_of_ne_nil (Ledger.vtx_ne_nil hconnect)
        refine ⟨⟨env.txHash tx, tx, block⟩, ?_, hhash⟩
        unfold connectNotices
        simp only [he, hread, hconnect]
        rw [syncWithWallets, if_neg (hhash ▸ hgenesis), hvtx]
        exact List.mem_append_left _ (List.mem_map_of_mem List.mem_cons_self)
      | cons second done =>
        obtain ⟨rfl, rfl⟩ := List.cons.inj hsplit
        obtain ⟨pindex, block, undo, l₁, vDelete₁, he, hread, hconnect, hrest, -⟩ :=
          connectBlocks_cons.mp hrun
        obtain ⟨notice, hmem, hhash⟩ := ih.mpr ⟨done, rest, vDelete₁, l', rfl, hgenesis, hrest⟩
        refine ⟨notice, ?_, hhash⟩
        unfold connectNotices
        simp only [he, hread, hconnect]
        exact List.mem_append_right _ hmem

end Ledger

/-! ### `VerifyDB` stays on the best chain -/

theorem verifyBlock_keeps (env : Env) (out : Outside) (nCheckLevel : Int) (pindex : CBlockIndex)
    (block : CBlock) (v : Verify) :
    (verifyBlock env out nCheckLevel pindex block v).2.coins.Keeps v.coins := by
  unfold verifyBlock
  split
  · exact .refl _
  · split
    · exact .refl _
    · split
      · have hkeeps := v.coins.disconnect_keeps env out.io block pindex
        split
        · next hrun =>
          rw [hrun] at hkeeps
          exact hkeeps
        · next hrun =>
          rw [hrun] at hkeeps
          exact hkeeps
      · exact .refl _

theorem verifyBlocks_keeps (env : Env) (out : Outside) (nBestHeight nCheckLevel nCheckDepth : Int)
    (hashes : List Uint256) (v : Verify) :
    (verifyBlocks env out nBestHeight nCheckLevel nCheckDepth hashes v).2.coins.Keeps v.coins := by
  induction hashes generalizing v with
  | nil => exact .refl _
  | cons hash rest ih =>
    unfold verifyBlocks
    split
    · exact .refl _
    · next pindex he =>
      split
      · exact .refl _
      · split
        · exact .refl _
        · next block hread =>
          have hkeeps := verifyBlock_keeps env out nCheckLevel pindex block v
          generalize verifyBlock env out nCheckLevel pindex block v = checked at hkeeps
          obtain ⟨outcome, v₁⟩ := checked
          cases outcome with
          | error e => exact hkeeps
          | ok _ => exact (ih v₁).trans hkeeps

/-- Along `pnext` only blocks of the best chain are connected. -/
theorem reconnectBlocks_spec (env : Env) (out : Outside) {t : BlockTree} {pindexBest : Uint256}
    (hnext : t.NextLinks (some pindexBest)) (rounds : Nat) (pindex : Uint256)
    (l : Ledger (CCoinsViewCache CCoinsViewDB)) (htree : l.mapBlockIndex.SameKept t) :
    (reconnectBlocks env out pindexBest rounds pindex l).2.2.Keeps l ∧
      ∀ notice ∈ (reconnectBlocks env out pindexBest rounds pindex l).2.1,
        notice.pblock.getHash env ∈ t.ancestry (some pindexBest) := by
  induction rounds generalizing pindex l with
  | zero => exact ⟨.refl _, nofun⟩
  | succ rounds ih =>
    unfold reconnectBlocks
    split
    · exact ⟨.refl _, nofun⟩
    · split
      · exact ⟨.refl _, nofun⟩
      · next e hentry =>
        obtain ⟨next, hpnext, he⟩ := Option.bind_eq_some_iff.mp hentry
        have hin : next ∈ t.ancestry (some pindexBest) :=
          ((hnext pindex next).mp ((htree.pnextOf pindex).symm.trans hpnext)).1
        split
        · exact ⟨.refl _, nofun⟩
        · next block hread =>
          have hkeeps := Ledger.connect_keeps env out.io out.nAdjustedTime he block
          split
          · next hconnect =>
            rw [hconnect] at hkeeps
            exact ⟨hkeeps, nofun⟩
          · next undo l₁ hconnect =>
            rw [hconnect] at hkeeps
            obtain ⟨hrest, hnotices⟩ := ih e.phashBlock l₁ (hkeeps.entries.trans htree)
            refine ⟨hrest.trans hkeeps, fun notice hmem => ?_⟩
            rcases List.mem_append.mp hmem with hmem | hmem
            · unfold syncWithWallets at hmem
              split at hmem
              · cases hmem
              · obtain ⟨tx, -, rfl⟩ := List.mem_map.mp hmem
                rw [(readBlock_eq_some hread).2, l.mapBlockIndex.hash_eq he]
                exact hin
            · exact hnotices notice hmem

/-- A cache over the coins of the node that is given up changes nothing a caller sees. -/
theorem Node.unchanged_throwAway {node : Node} {l : Ledger (CCoinsViewCache CCoinsViewDB)}
    (h : l.Keeps ⟨.new node.pcoinsTip, node.mapBlockIndex, node.disk⟩) : (node.discard l).Unchanged node where
  coins := h.base
  pindexBest := rfl
  hashBestChain := rfl
  nBestHeight := rfl
  nBestChainTrust := rfl
  mempool := rfl
  extends_ := h.entries.extends
  extends' := h.entries.symm.extends
  pnext := h.entries.pnextOf
  blocks := h.blocks

/-- **`VerifyDB`** leaves the node as it was and tells the wallets of blocks of the best chain. -/
theorem verifyDB_notified (env : Env) (out : Outside) {node : Node} (h : node.Coherent)
    (nCheckLevel nCheckDepth : Int) : (verifyDB env out nCheckLevel nCheckDepth node).2.2.Unchanged node ∧
      ∀ notice ∈ (verifyDB env out nCheckLevel nCheckDepth node).2.1,
        notice.pblock.getHash env ∈ node.mapBlockIndex.ancestry node.pindexBest := by
  unfold verifyDB
  split
  · exact ⟨.refl node, nofun⟩
  · next pindexBest hbest =>
    split
    · exact ⟨.refl node, nofun⟩
    · dsimp only
      generalize (if (if nCheckDepth ≤ 0 then (1000000000 : Int) else nCheckDepth) > node.nBestHeight then
        node.nBestHeight else if nCheckDepth ≤ 0 then 1000000000 else nCheckDepth) = depth
      generalize max 0 (min 4 nCheckLevel) = level
      have hkeeps := verifyBlocks_keeps env out node.nBestHeight level depth
        (node.mapBlockIndex.ancestry (some pindexBest))
        ⟨⟨.new node.pcoinsTip, node.mapBlockIndex, node.disk⟩, pindexBest, none⟩
      generalize verifyBlocks env out node.nBestHeight level depth
        (node.mapBlockIndex.ancestry (some pindexBest))
        ⟨⟨.new node.pcoinsTip, node.mapBlockIndex, node.disk⟩, pindexBest, none⟩ = checked
        at hkeeps
      obtain ⟨outcome, v⟩ := checked
      cases outcome with
      | error e => exact ⟨Node.unchanged_throwAway hkeeps, nofun⟩
      | ok _ =>
        dsimp only
        split
        · exact ⟨Node.unchanged_throwAway hkeeps, nofun⟩
        · split
          · obtain ⟨hrest, hnotices⟩ := reconnectBlocks_spec env out (hbest ▸ h.next)
              (node.mapBlockIndex.entries.keys.card + 1) v.pindexState v.coins hkeeps.entries
            rw [hbest]
            exact ⟨Node.unchanged_throwAway (hrest.trans hkeeps), hnotices⟩
          · exact ⟨Node.unchanged_throwAway hkeeps, nofun⟩

/-! ### One call -/

section Call

variable {env : Env} {out : Outside} {connectBest : Node → Call Unit} {pindexNew : Uint256}
  {node : Node}

/-- The calls of `SetBestChain`, once the first loop is through. -/
theorem Disconnected.notices {pfork : Option Uint256} {vResurrect : List CTransaction}
    {l : Ledger (CCoinsViewCache CCoinsViewDB)} (h : Disconnected env out pindexNew node pfork vResurrect l) :
    setBestChainNotices env out pindexNew node =
      connectNotices env out.io out.nAdjustedTime (node.vConnect pindexNew pfork) l := by
  unfold setBestChainNotices
  simp only [h.fork, h.run]

theorem mem_setBestChainNotices {notice : Notice} (h : notice ∈ setBestChainNotices env out pindexNew node) :
    ∃ pfork vResurrect l, Disconnected env out pindexNew node pfork vResurrect l ∧
      notice ∈ connectNotices env out.io out.nAdjustedTime (node.vConnect pindexNew pfork) l := by
  unfold setBestChainNotices at h
  split at h
  · cases h
  · next pfork hfork =>
    split at h
    · cases h
    · next vResurrect l hrun => exact ⟨pfork, vResurrect, l, ⟨hfork, hrun⟩, h⟩

theorem Disconnected.unique {pfork pfork' : Option Uint256} {vResurrect vResurrect' : List CTransaction}
    {l l' : Ledger (CCoinsViewCache CCoinsViewDB)}
    (h : Disconnected env out pindexNew node pfork vResurrect l)
    (h' : Disconnected env out pindexNew node pfork' vResurrect' l') : pfork = pfork' ∧ l = l' := by
  obtain rfl := Option.some.inj (h.fork.symm.trans h'.fork)
  have hrun := h.run.symm.trans h'.run
  rw [Prod.mk.injEq] at hrun
  exact ⟨rfl, hrun.2⟩

theorem Node.Coherent.mem_vConnect (h : node.Coherent) {pfork : Option Uint256}
    (hfork : node.mapBlockIndex.findFork node.pindexTip (some pindexNew) = some pfork)
    {hash : Uint256} (hmem : hash ∈ node.vConnect pindexNew pfork) :
    hash ∉ node.mapBlockIndex.ancestry node.pindexBest ∧
      hash ∈ node.mapBlockIndex.ancestry (some pindexNew) := by
  rw [node.pindexTip_eq, h.tip] at hfork
  have hfork := BlockTree.fork_of_findFork hfork
  have hmem := List.mem_reverse.mp hmem
  refine ⟨hfork.connect hash hmem, ?_⟩
  rw [← hfork.new]
  exact List.mem_append_left _ hmem

/-- How a call of `SetBestChain` leaves the best chain: as it was, or as that of the new block
once all blocks are connected and the coins are written. -/
theorem Node.Coherent.setBestChain_best (h : node.Coherent)
    (hindexed : node.mapBlockIndex.Indexed pindexNew) {result : Except ChainError Unit} {node' : Node}
    (hrun : setBestChain env out connectBest pindexNew node = .ok (result, node')) :
    (∃ pfork vResurrect l vDelete l', Disconnected env out pindexNew node pfork vResurrect l ∧
        connectBlocks env out.io out.nAdjustedTime (node.vConnect pindexNew pfork) l =
          (.ok vDelete, l') ∧ ((node.accept l').writeCoins out pindexNew).1 = .ok () ∧
        node'.mapBlockIndex.ancestry node'.pindexBest = node.mapBlockIndex.ancestry (some pindexNew)) ∨
      (node'.mapBlockIndex.ancestry node'.pindexBest = node.mapBlockIndex.ancestry node.pindexBest ∧
        ∀ pfork vResurrect l vDelete l', Disconnected env out pindexNew node pfork vResurrect l →
          connectBlocks env out.io out.nAdjustedTime (node.vConnect pindexNew pfork) l =
            (.ok vDelete, l') → ((node.accept l').writeCoins out pindexNew).1 ≠ .ok ()) := by
  have hunchanged : node'.Unchanged node →
      node'.mapBlockIndex.ancestry node'.pindexBest = node.mapBlockIndex.ancestry node.pindexBest := by
    intro hsame
    rw [hsame.pindexBest, BlockTree.ancestry_eq hsame.extends_ hsame.extends']
  have hsteps := setBestChain_steps env out connectBest pindexNew node
  rw [hrun] at hsteps
  generalize hresult : (Except.ok (result, node') : Call Unit) = outcome at hsteps
  cases hsteps with
  | assertion hfork =>
    cases hresult
    refine .inr ⟨rfl, fun _ _ _ _ _ hdisconnected => ?_⟩
    rw [hdisconnected.fork] at hfork
    cases hfork
  | @disconnect pfork e l hfork hfailed =>
    cases hresult
    have hkeeps := (disconnectBlocks_keeps env out.io
      (node.mapBlockIndex.above node.pindexTip pfork) node.ledger).1
    rw [hfailed] at hkeeps
    refine .inr ⟨hunchanged (Node.unchanged_discard hkeeps), fun _ _ _ _ _ hdisconnected => ?_⟩
    obtain rfl := Option.some.inj (hdisconnected.fork.symm.trans hfork)
    cases congrArg Prod.fst (hdisconnected.run.symm.trans hfailed)
  | connect hdisconnected hfailed hvalid =>
    cases hresult
    refine .inr ⟨hunchanged (Node.unchanged_discard (hdisconnected.connect_keeps hfailed)),
      fun _ _ _ _ _ hdisconnected' hconnect => ?_⟩
    obtain ⟨rfl, rfl⟩ := hdisconnected.unique hdisconnected'
    cases congrArg Prod.fst (hconnect.symm.trans hfailed)
  | invalid hdisconnected hfailed hinvalid hfound =>
    obtain ⟨node'', hfound', hsame, -⟩ := h.invalid connectBest hdisconnected hfailed
    obtain rfl := Except.ok.inj (hfound'.symm.trans hfound)
    cases hresult
    refine .inr ⟨hunchanged hsame, fun _ _ _ _ _ hdisconnected' hconnect => ?_⟩
    obtain ⟨rfl, rfl⟩ := hdisconnected.unique hdisconnected'
    cases congrArg Prod.fst (hconnect.symm.trans hfailed)
  | stuck hdisconnected hfailed hinvalid hfound => cases hresult
  | @coins pfork vResurrect vDelete e l l' node₁ hdisconnected hconnect hcoins =>
    cases hresult
    refine .inr ⟨?_, fun _ _ _ _ _ hdisconnected' hconnect' => ?_⟩
    · have hkeeps := hdisconnected.connect_keeps hconnect
      rcases Node.writeCoins_spec out pindexNew (node.accept l') with ⟨e', heq, -⟩ | ⟨_, heq, -⟩
      · rw [hcoins, Prod.mk.injEq] at heq
        rw [heq.2]
        exact BlockTree.ancestry_eq hkeeps.entries.extends hkeeps.entries.symm.extends _
      · rw [hcoins] at heq
        cases congrArg Prod.fst heq
    · obtain ⟨rfl, rfl⟩ := hdisconnected.unique hdisconnected'
      obtain rfl := (congrArg Prod.snd (hconnect'.symm.trans hconnect))
      rw [hcoins]
      exact nofun
  | @done pfork vResurrect vDelete l l' node₁ hdisconnected hconnect hcoins =>
    cases hresult
    obtain ⟨-, hbest, hextends, hextends', -⟩ := setBestChain_ok h hindexed hrun
    refine .inl ⟨pfork, vResurrect, l, vDelete, l', hdisconnected, hconnect, ?_, ?_⟩
    · rw [hcoins]
    · rw [hbest, BlockTree.ancestry_eq hextends hextends']

end Call

namespace ChainCall

variable {env : Env} {node : Node}

/-- **One call.** Every block that the wallets are told of is on the best chain once the call
returns, if and only if a call that connects a block connects them all. -/
theorem notified_iff_of_coherent (h : node.Coherent) (call : ChainCall) :
    call.Notified env node ↔ call.Settles env node := by
  cases call with
  | verifyDB out nCheckLevel nCheckDepth =>
    refine iff_of_true (fun goesOn node' hrun notice hmem => ?_) trivial
    obtain ⟨hsame, hnotices⟩ := verifyDB_notified env out h nCheckLevel nCheckDepth
    cases hrun
    rw [hsame.pindexBest, BlockTree.ancestry_eq hsame.extends_ hsame.extends']
    exact hnotices notice hmem
  | insertBlock block => exact iff_of_true (fun _ _ _ _ hmem => nomatch hmem) trivial
  | setBestChain out connectBest pindexNew =>
    obtain ⟨⟨result, node₁⟩, hcall⟩ := setBestChain_returns env out connectBest h pindexNew
    have houtcome : (node.mapBlockIndex.entry pindexNew).isSome →
        ∃ goesOn, outcome env node (setBestChain out connectBest pindexNew) = .ok (goesOn, node₁) := by
      intro hsome
      simp only [outcome, if_pos hsome, hcall]
      cases result with
      | error e => exact ⟨_, rfl⟩
      | ok _ => exact ⟨_, rfl⟩
    constructor
    · intro hnotified pfork vResurrect l done hash rest vDelete l₁ hsome hdisconnected hsplit
        hgenesis hconnect
      obtain ⟨goesOn, hout⟩ := houtcome hsome
      obtain ⟨notice, hmem, rfl⟩ := mem_connectNotices.mpr
        ⟨done, rest, vDelete, l₁, hsplit, hgenesis, hconnect⟩
      rcases h.setBestChain_best (Option.isSome_iff_exists.mp hsome) hcall with
        ⟨pfork', vResurrect', l', vDelete', l'', hdisconnected', hall, hcoins, -⟩ | ⟨hbest, -⟩
      · obtain ⟨rfl, rfl⟩ := hdisconnected.unique hdisconnected'
        exact ⟨vDelete', l'', hall, hcoins⟩
      · -- the block would be on the old best chain
        have hin := hnotified goesOn node₁ hout notice (by
          rw [notices, if_pos hsome, hdisconnected.notices]
          exact hmem)
        rw [hbest] at hin
        refine absurd hin (h.mem_vConnect hdisconnected.fork ?_).1
        rw [hsplit]
        exact List.mem_append_right _ List.mem_cons_self
    · intro hsettles goesOn node' hrun notice hmem
      simp only [notices] at hmem
      split at hmem
      · next hsome =>
        obtain ⟨goesOn', hout⟩ := houtcome hsome
        rw [hrun] at hout
        cases hout
        obtain ⟨pfork, vResurrect, l, hdisconnected, hmem⟩ := mem_setBestChainNotices hmem
        obtain ⟨done, rest, vDelete, l₁, hsplit, hgenesis, hconnect⟩ :=
          mem_connectNotices.mp ⟨notice, hmem, rfl⟩
        obtain ⟨vDelete', l', hall, hcoins⟩ := hsettles pfork vResurrect l done _ rest vDelete l₁
          hsome hdisconnected hsplit hgenesis hconnect
        rcases h.setBestChain_best (Option.isSome_iff_exists.mp hsome) hcall with
          ⟨_, _, _, _, _, -, -, -, hbest⟩ | ⟨-, hfailed⟩
        · rw [hbest]
          refine (h.mem_vConnect hdisconnected.fork ?_).2
          rw [hsplit]
          exact List.mem_append_right _ List.mem_cons_self
        · exact absurd hcoins (hfailed pfork vResurrect l vDelete' l' hdisconnected hall)
      · cases hmem

theorem coherent_outcome (h : node.Coherent) {call : ChainCall} {node' : Node}
    (hrun : call.outcome env node = .ok (true, node')) : node'.Coherent := by
  cases call with
  | verifyDB out nCheckLevel nCheckDepth =>
    cases hrun
    exact h.unchanged (verifyDB_notified env out h nCheckLevel nCheckDepth).1
  | insertBlock block =>
    simp only [outcome] at hrun
    split at hrun
    · split at hrun
      · cases hrun
        exact h.insertBlock _
      · cases hrun
        exact h
    · cases hrun
      exact h
  | setBestChain out connectBest pindexNew =>
    simp only [outcome] at hrun
    split at hrun
    · next hsome =>
      split at hrun
      · cases hrun
      · next hcall =>
        cases hrun
        exact (setBestChain_ok h (Option.isSome_iff_exists.mp hsome) hcall).1
      · next e node₁ hcall =>
        rw [Except.ok.injEq, Prod.mk.injEq, decide_eq_true_iff] at hrun
        obtain ⟨hgoes, rfl⟩ := hrun
        exact h.unchanged (setBestChain_error h hcall (Node.writeCoins_ne_error hgoes.1 hgoes.2))
    · cases hrun
      exact h

theorem step_eq_some {call : ChainCall} {node' : Node} :
    step env node call = some node' ↔ call.outcome env node = .ok (true, node') := by
  unfold step
  constructor
  · intro h
    split at h
    · next heq =>
      cases h
      exact heq
    · cases h
  · intro h
    rw [h]

theorem runAll_concat (pre : List ChainCall) (call : ChainCall) (node' : Node) :
    runAll env node (pre ++ [call]) = some node' ↔
      ∃ node₁, runAll env node pre = some node₁ ∧ call.outcome env node₁ = .ok (true, node') := by
  unfold runAll
  rw [List.foldlM_append]
  refine Option.bind_eq_some_iff.trans (exists_congr fun node₁ => and_congr_right fun _ => ?_)
  rw [List.foldlM_cons, ← step_eq_some]
  exact Option.bind_eq_some_iff.trans
    ⟨fun ⟨_, hstep, hpure⟩ => Option.some.inj hpure ▸ hstep, fun hstep => ⟨node', hstep, rfl⟩⟩

theorem coherent_runAll (h : node.Coherent) (calls : List ChainCall) :
    ∀ node', runAll env node calls = some node' → node'.Coherent := by
  induction calls using List.reverseRecOn with
  | nil =>
    intro node' hrun
    cases hrun
    exact h
  | append_singleton calls call ih =>
    intro node' hrun
    obtain ⟨node₁, hrun₁, hcall⟩ := (runAll_concat calls call node').mp hrun
    exact coherent_outcome (ih node₁ hrun₁) hcall

/-- **What the wallets are told.** In every sequence of calls each block that was passed to the
wallets is on the best chain once its call returns, if and only if each `SetBestChain` that
connects a block connects them all and writes the coins. -/
theorem notified_iff_settles (env : Env) {node : Node} (h : node.Coherent) (calls : List ChainCall) :
    (∀ pre call node₁, pre ++ [call] <+: calls → runAll env node pre = some node₁ →
        call.Notified env node₁) ↔
      ∀ pre call node₁, pre ++ [call] <+: calls → runAll env node pre = some node₁ →
        call.Settles env node₁ := by
  refine forall_congr' fun pre => forall_congr' fun call => forall_congr' fun node₁ => ?_
  refine imp_congr_right fun _ => imp_congr_right fun hrun => ?_
  exact notified_iff_of_coherent (coherent_runAll h pre node₁ hrun) call

/-! ### A reorganisation that stops in the middle -/

theorem coherent_sampleForked : sampleForked.Coherent :=
  (coherent_sampleLoaded.insertBlock new_sampleFirstBlock).insertBlock new_sampleGreedyBlock

/-- The wallets are told of the first block; the second is invalid and the first is given up. -/
theorem not_forall_notified :
    ¬ ∀ (node : Node), node.Coherent → ∀ (calls pre : List ChainCall) (call : ChainCall) (node₁ : Node),
      pre ++ [call] <+: calls → runAll sampleEnv node pre = some node₁ →
        call.Notified sampleEnv node₁ := by
  intro h
  obtain ⟨node', hcall⟩ := eq_of_errorOf (Manna.setBestChain sampleEnv sampleOutside
    (connectBestBlock sampleEnv sampleOutside 1) 1002 sampleForked)
    (.connectBlock (.dos 100 "ConnectBlock() : coinbase pays too much" false)) (by decide +kernel)
  have hnotified := h sampleForked coherent_sampleForked _ [] (.setBestChain sampleOutside
    (connectBestBlock sampleEnv sampleOutside 1) 1002) sampleForked (List.prefix_refl _) rfl
  have hsome : (sampleForked.mapBlockIndex.entry 1002).isSome = true := by decide +kernel
  have hnotices : (setBestChainNotices sampleEnv sampleOutside 1002 sampleForked).map
      (fun notice => notice.pblock.getHash sampleEnv) = [1001] := by decide +kernel
  obtain ⟨notice, hmem, hhash⟩ := List.mem_map.mp (hnotices ▸ List.mem_cons_self (a := (1001 : Uint256)))
  have hin := hnotified true node' (by simp [outcome, hsome, hcall]) notice (by
    simp only [notices, if_pos hsome]
    exact hmem)
  have hsame := setBestChain_error coherent_sampleForked hcall (Node.writeCoins_ne_error nofun nofun)
  rw [hhash, hsame.pindexBest, BlockTree.ancestry_eq hsame.extends_ hsame.extends'] at hin
  exact absurd hin (by decide +kernel)

/-- One valid block on top of the best one. -/
def sampleChainCalls : List ChainCall :=
  [.setBestChain sampleOutside (connectBestBlock sampleEnv sampleOutside 1) 1001]

theorem notified_iff_settles_sample :
    (runAll sampleEnv sampleForked sampleChainCalls).isSome = true ∧
      ∀ pre call node₁, pre ++ [call] <+: sampleChainCalls →
        runAll sampleEnv sampleForked pre = some node₁ → call.Notified sampleEnv node₁ := by
  refine ⟨by decide +kernel, ?_⟩
  refine (notified_iff_settles sampleEnv coherent_sampleForked sampleChainCalls).mpr ?_
  intro pre call node₁ hpre hrun
  have hpre₀ : pre = [] := by
    have hlen := hpre.length_le
    rw [List.length_append] at hlen
    exact List.length_eq_zero_iff.mp (Nat.le_zero.mp (Nat.le_of_succ_le_succ hlen))
  subst hpre₀
  obtain rfl := (List.cons_prefix_cons.mp hpre).1
  cases hrun
  intro pfork vResurrect l done hash rest vDelete l₁ hsome hdisconnected hsplit hgenesis hconnect
  have hfork : sampleForked.mapBlockIndex.findFork sampleForked.pindexTip (some 1001) =
      some (some 1000) := by decide +kernel
  obtain rfl := Option.some.inj (hdisconnected.fork.symm.trans hfork)
  have hvConnect : sampleForked.vConnect 1001 (some 1000) = [1001] := by decide +kernel
  have hdone : done = [] := by
    have hlen := congrArg List.length (hvConnect.symm.trans hsplit)
    simp only [List.length_append, List.length_cons, List.length_nil] at hlen
    exact List.length_eq_zero_iff.mp (by omega)
  subst hdone
  rw [hvConnect, List.nil_append, List.cons.injEq] at hsplit
  obtain ⟨rfl, -⟩ := hsplit
  refine ⟨vDelete, l₁, hvConnect ▸ hconnect, ?_⟩
  -- no write of the coins fails
  unfold Node.writeCoins
  split <;> rfl

end ChainCall

end Manna
