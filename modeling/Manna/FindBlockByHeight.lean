import Manna.BestChain

/-!
Finding a block by its height (`main.cpp`: `FindBlockByHeight`, and the cached pointer in
`SetBestChain`).

`pblockindexFBBHLast` is the block that was found last. `SetBestChain` forgets it when the best chain
has changed.

* `findBlockByHeight_spec`: from a block of the best chain the walks reach every height;
* `HeightState.Inv.step`: what a call preserves;
* `findBlockByHeight_correct`: the block at a height, after every interleaving of calls.
-/

namespace Manna

/-! ### The source -/

/-- `while (pblockindex->nHeight > nHeight) pblockindex = pblockindex->pprev;`, at most so many rounds.
`none`: a null pointer is followed, or the walk goes on. -/
def walkBack (t : BlockTree) (nHeight : Int) : Nat → Option Uint256 → Option Uint256
  | _, none => none
  | 0, some pblockindex => if t.nHeight pblockindex > nHeight then none else some pblockindex
  | fuel + 1, some pblockindex =>
    if t.nHeight pblockindex > nHeight then walkBack t nHeight fuel (t.pprevOf pblockindex)
    else some pblockindex

/-- `while (pblockindex->nHeight < nHeight) pblockindex = pblockindex->pnext;`. -/
def walkForth (t : BlockTree) (nHeight : Int) : Nat → Option Uint256 → Option Uint256
  | _, none => none
  | 0, some pblockindex => if t.nHeight pblockindex < nHeight then none else some pblockindex
  | fuel + 1, some pblockindex =>
    if t.nHeight pblockindex < nHeight then walkForth t nHeight fuel (t.pnextOf pblockindex)
    else some pblockindex

/-- The globals that `FindBlockByHeight` reads: `pindexGenesisBlock` does not change. `aborted` says
that a call of `SetBestChain` has aborted the node. -/
structure HeightState where
  node : Node
  pblockindexFBBHLast : Option Uint256
  aborted : Bool

/-- The block to start from: the genesis block, the tip or the block that was found last. -/
def HeightState.startBlock (pindexGenesisBlock : Option Uint256) (nHeight : Int) (s : HeightState) :
    Option Uint256 :=
  let t := s.node.mapBlockIndex
  let pblockindex := if nHeight < s.node.nBestHeight.tdiv 2 then pindexGenesisBlock else s.node.pindexBest
  match s.pblockindexFBBHLast, pblockindex with
  | none, _ => pblockindex
  | some _, none => none
  | some last, some pblockindex =>
    if |nHeight - t.nHeight pblockindex| > |nHeight - t.nHeight last| then some last
    else some pblockindex

/-- `FindBlockByHeight`. Along `pprev` and `pnext` the height changes by one, so the distance of the
heights bounds the rounds. -/
def findBlockByHeight (pindexGenesisBlock : Option Uint256) (nHeight : Int) (s : HeightState) :
    Option (Uint256 × HeightState) :=
  let t := s.node.mapBlockIndex
  match s.startBlock pindexGenesisBlock nHeight with
  | none => none
  | some pblockindex =>
    match walkBack t nHeight (t.nHeight pblockindex - nHeight).toNat (some pblockindex) with
    | none => none
    | some pblockindex =>
      match walkForth t nHeight (nHeight - t.nHeight pblockindex).toNat (some pblockindex) with
      | none => none
      | some pblockindex =>
        some (pblockindex, { s with pblockindexFBBHLast := some pblockindex })

/-- What `SetBestChain` leaves: a call that succeeds sets `pblockindexFBBHLast = NULL`. Where the disk is
full or the coins cannot be written it aborts the node. -/
def HeightState.afterSetBestChain (s : HeightState) :
    Except ChainError Unit × Node → HeightState
  | (.ok _, node) => { s with node := node, pblockindexFBBHLast := none }
  | (.error e, node) => { s with node := node, aborted := e = .diskSpace ∨ e = .coinDatabase }

/-- A call: `SetBestChain` with an entry of the index, the entry of a block whose predecessor is
indexed, or `FindBlockByHeight`. A node that was aborted shuts down and connects no block. -/
inductive HeightStep (env : Env) : HeightState → HeightState → Prop
  | setBestChain {s : HeightState} (out : Outside) (connectBest : Node → Call Unit)
      (pindexNew : Uint256) {result : Except ChainError Unit × Node} :
      s.aborted = false → s.node.mapBlockIndex.Indexed pindexNew →
      setBestChain env out connectBest pindexNew s.node = .ok result →
      HeightStep env s (s.afterSetBestChain result)
  | insertBlock {s : HeightState} (block : CBlock)
      (hnew : s.node.mapBlockIndex.New (newEntry env s.node.mapBlockIndex block)) :
      s.node.mapBlockIndex.Indexed block.hashPrevBlock →
      HeightStep env s { s with node := s.node.insertBlock env block hnew }
  | findBlockByHeight {s s' : HeightState} (nHeight : Int) {pblockindex : Uint256} :
      0 ≤ nHeight → nHeight ≤ s.node.nBestHeight →
      findBlockByHeight (some env.hashGenesisBlock) nHeight s = some (pblockindex, s') →
      HeightStep env s s'

/-- Any interleaving of calls. -/
def HeightRun (env : Env) : HeightState → HeightState → Prop := Relation.ReflTransGen (HeightStep env)

/-! ### The walks -/

namespace BlockTree

variable {t : BlockTree} {best a : Uint256} {root : Uint256}

/-- A block of a chain that is not its tip has a successor on it. -/
theorem exists_next (ha : a ∈ t.ancestry (some best)) (hne : a ≠ best) :
    ∃ b ∈ t.ancestry (some best), t.pprevOf b = some a := by
  induction best using t.ancestry_induction with
  | step best ih =>
    rcases mem_ancestry.mp ha with rfl | ha
    · exact absurd rfl hne
    · cases hprev : t.pprevOf best with
      | none => rw [hprev] at ha; cases ha
      | some pprev =>
        rw [hprev] at ha
        by_cases heq : a = pprev
        · exact ⟨best, t.mem_ancestry_self best, heq ▸ hprev⟩
        · obtain ⟨b, hb, hab⟩ := ih pprev hprev ha heq
          exact ⟨b, mem_ancestry.mpr (.inr (hprev ▸ hb)), hab⟩

theorem exists_prev (h : t.Indexed a) (hheight : 0 < t.nHeight a) : ∃ b, t.pprevOf a = some b := by
  obtain ⟨e, he⟩ := h
  cases hprev : e.pprev with
  | none =>
    rw [nHeight_eq he, t.root he hprev] at hheight
    exact absurd hheight (Int.lt_irrefl 0)
  | some b => exact ⟨b, (pprevOf_eq he).trans hprev⟩

theorem nHeight_le_of_mem (ha : a ∈ t.ancestry (some best)) : t.nHeight a ≤ t.nHeight best := by
  have hpairwise := t.ancestry_pairwise (some best)
  rw [ancestry_some] at hpairwise ha
  rcases List.mem_cons.mp ha with rfl | ha
  · exact Int.le_refl _
  · exact (List.rel_of_pairwise_cons hpairwise ha).le

/-- **The walk back** stays on the chain and comes to the height. -/
theorem walkBack_spec (hindexed : t.Indexed best) {nHeight : Int} (hnonneg : 0 ≤ nHeight) {fuel : Nat}
    (ha : a ∈ t.ancestry (some best)) (hfuel : t.nHeight a - nHeight ≤ fuel) :
    ∃ b ∈ t.ancestry (some best), walkBack t nHeight fuel (some a) = some b ∧ t.nHeight b ≤ nHeight := by
  induction fuel generalizing a with
  | zero =>
    have hle : ¬ t.nHeight a > nHeight := by
      push_cast at hfuel
      omega
    exact ⟨a, ha, if_neg hle, by omega⟩
  | succ fuel ih =>
    rw [walkBack]
    by_cases hgt : t.nHeight a > nHeight
    · obtain ⟨b, hb⟩ := exists_prev (indexed_of_mem hindexed ha) (by omega)
      have hheight := (pprevOf_height hb).2.2.2
      push_cast at hfuel
      rw [if_pos hgt, hb]
      exact ih (pprevOf_mem_ancestry ha hb) (by omega)
    · rw [if_neg hgt]
      exact ⟨a, ha, rfl, by omega⟩

/-- **The walk forth** stays on the chain and ends at the height. -/
theorem walkForth_spec (hnext : t.NextLinks (some best)) {nHeight : Int}
    (hbest : nHeight ≤ t.nHeight best) {fuel : Nat} (ha : a ∈ t.ancestry (some best))
    (hle : t.nHeight a ≤ nHeight) (hfuel : nHeight - t.nHeight a ≤ fuel) :
    ∃ b ∈ t.ancestry (some best), walkForth t nHeight fuel (some a) = some b ∧ t.nHeight b = nHeight := by
  induction fuel generalizing a with
  | zero =>
    have hge : ¬ t.nHeight a < nHeight := by
      push_cast at hfuel
      omega
    exact ⟨a, ha, if_neg hge, by omega⟩
  | succ fuel ih =>
    rw [walkForth]
    by_cases hlt : t.nHeight a < nHeight
    · obtain ⟨b, hb, hprev⟩ := exists_next ha (by rintro rfl; omega)
      have hheight := (pprevOf_height hprev).2.2.2
      push_cast at hfuel
      rw [if_pos hlt, (hnext a b).mpr ⟨hb, hprev⟩]
      exact ih hb (by omega) (by omega)
    · rw [if_neg hlt]
      exact ⟨a, ha, rfl, by omega⟩

end BlockTree

/-! ### One call of `FindBlockByHeight` -/

/-- What the walks need of a node: `pnext` links the chain of the best block. -/
structure Node.Linked (node : Node) (best : Uint256) : Prop where
  pindexBest : node.pindexBest = some best
  next : node.mapBlockIndex.NextLinks (some best)
  indexed : node.mapBlockIndex.Indexed best
  nBestHeight : node.nBestHeight = node.mapBlockIndex.nHeight best

theorem Node.Coherent.linked {node : Node} (h : node.Coherent) {best : Uint256}
    (hbest : node.pindexBest = some best) : node.Linked best :=
  ⟨hbest, hbest ▸ h.next, h.indexed best hbest, h.nBestHeight best hbest⟩

/-- The block that was found last is on the best chain. -/
def HeightState.CacheOn (s : HeightState) (best : Uint256) : Prop :=
  ∀ last, s.pblockindexFBBHLast = some last → last ∈ s.node.mapBlockIndex.ancestry (some best)

section Find

variable {s : HeightState} {best root : Uint256}

theorem HeightState.startBlock_spec (h : s.node.Linked best)
    (hroot : s.node.mapBlockIndex.Rooted root) (hcache : s.CacheOn best) (nHeight : Int) :
    ∃ start ∈ s.node.mapBlockIndex.ancestry (some best), s.startBlock (some root) nHeight = some start := by
  have hgenesis : root ∈ s.node.mapBlockIndex.ancestry (some best) :=
    List.mem_of_getLast? (BlockTree.getLast?_ancestry hroot h.indexed)
  have hfirst : ∃ first ∈ s.node.mapBlockIndex.ancestry (some best),
      (if nHeight < s.node.nBestHeight.tdiv 2 then some root else s.node.pindexBest) = some first := by
    split
    · exact ⟨root, hgenesis, rfl⟩
    · exact ⟨best, BlockTree.mem_ancestry_self _ best, h.pindexBest⟩
  obtain ⟨first, hmem, hfirst⟩ := hfirst
  unfold startBlock
  dsimp only
  rw [hfirst]
  cases hlast : s.pblockindexFBBHLast with
  | none => exact ⟨first, hmem, rfl⟩
  | some last =>
    dsimp only
    split
    · exact ⟨last, hcache last hlast, rfl⟩
    · exact ⟨first, hmem, rfl⟩

/-- **The block at a height of the best chain** is found, and no null pointer is followed. -/
theorem findBlockByHeight_spec (h : s.node.Linked best) (hroot : s.node.mapBlockIndex.Rooted root)
    (hcache : s.CacheOn best) {nHeight : Int} (hnonneg : 0 ≤ nHeight)
    (hle : nHeight ≤ s.node.nBestHeight) :
    ∃ pblockindex ∈ s.node.mapBlockIndex.ancestry (some best),
      findBlockByHeight (some root) nHeight s =
        some (pblockindex, { s with pblockindexFBBHLast := some pblockindex }) ∧
      s.node.mapBlockIndex.nHeight pblockindex = nHeight := by
  obtain ⟨start, hstart, hstartBlock⟩ := HeightState.startBlock_spec h hroot hcache nHeight
  obtain ⟨low, hlow, hback, hheight⟩ := BlockTree.walkBack_spec h.indexed hnonneg hstart
    (Int.self_le_toNat _)
  obtain ⟨found, hfound, hforth, hat⟩ := BlockTree.walkForth_spec h.next (h.nBestHeight ▸ hle) hlow
    hheight (Int.self_le_toNat _)
  refine ⟨found, hfound, ?_, hat⟩
  unfold findBlockByHeight
  dsimp only
  rw [hstartBlock]
  dsimp only
  rw [hback]
  dsimp only
  rw [hforth]

end Find

/-! ### Every interleaving -/

/-- **What holds between the calls**: the links of the best chain, and a cached block on it. While the
node is not aborted it is coherent. -/
structure HeightState.Inv (env : Env) (s : HeightState) : Prop where
  rooted : s.node.mapBlockIndex.Rooted env.hashGenesisBlock
  linked : ∃ best, s.node.Linked best ∧ s.CacheOn best
  coherent : s.aborted = false → s.node.Coherent

section Interleaving

variable {env : Env} {s s' : HeightState} {node node' : Node} {best : Uint256}

theorem Node.Linked.congr (h : node.Linked best) (hbest : node'.pindexBest = node.pindexBest)
    (hheight : node'.nBestHeight = node.nBestHeight)
    (hextends : node'.mapBlockIndex.Extends node.mapBlockIndex)
    (hextends' : node.mapBlockIndex.Extends node'.mapBlockIndex)
    (hpnext : ∀ hash, node'.mapBlockIndex.pnextOf hash = node.mapBlockIndex.pnextOf hash) :
    node'.Linked best where
  pindexBest := hbest.trans h.pindexBest
  next := BlockTree.nextLinks_congr h.next hextends hextends' hpnext
  indexed := hextends.indexed h.indexed
  nBestHeight := by rw [hheight, h.nBestHeight, hextends.nHeight_eq h.indexed]

theorem Node.Linked.insertBlock (h : node.Linked best) {block : CBlock}
    (hnew : node.mapBlockIndex.New (newEntry env node.mapBlockIndex block)) :
    (node.insertBlock env block hnew).Linked best := by
  have hextends := BlockTree.extends_insert hnew
  refine ⟨h.pindexBest, nextLinks_insertBlock h.next ?_ hnew, hextends.indexed h.indexed,
    h.nBestHeight.trans (hextends.nHeight_eq h.indexed).symm⟩
  rintro _ ⟨⟩
  exact h.indexed

/-- The entry of a block whose predecessor is indexed is no root. -/
theorem rooted_insertBlock {t : BlockTree} {root : Uint256} (h : t.Rooted root) {block : CBlock}
    (hnew : t.New (newEntry env t block)) (hprev : t.Indexed block.hashPrevBlock) :
    (t.insert _ hnew).Rooted root := by
  intro hash e he hroot
  rw [BlockTree.entry_insert] at he
  split at he
  · obtain ⟨p, hp⟩ := hprev
    cases he
    simp only [newEntry, hp, Option.map_some, reduceCtorEq] at hroot
  · exact h hash e he hroot

/-- A call of `SetBestChain` that fails leaves the best chain and its links, also where it aborts the
node. -/
theorem setBestChain_error_links {out : Outside} {connectBest : Node → Call Unit} {pindexNew : Uint256}
    {e : ChainError} (h : node.Coherent)
    (hrun : setBestChain env out connectBest pindexNew node = .ok (.error e, node')) :
    node'.pindexBest = node.pindexBest ∧ node'.nBestHeight = node.nBestHeight ∧
      node'.mapBlockIndex.Extends node.mapBlockIndex ∧ node.mapBlockIndex.Extends node'.mapBlockIndex ∧
      (∀ hash, node'.mapBlockIndex.pnextOf hash = node.mapBlockIndex.pnextOf hash) ∧
      (¬ (e = .diskSpace ∨ e = .coinDatabase) → node'.Coherent) := by
  rcases setBestChain_error_cases h hrun with hsame | ⟨l, hkeeps, hcoins⟩
  · exact ⟨hsame.pindexBest, hsame.nBestHeight, hsame.extends_, hsame.extends', hsame.pnext,
      fun _ => h.unchanged hsame⟩
  · rcases Node.writeCoins_spec out pindexNew (node.accept l) with ⟨e', heq, haborted⟩ | ⟨_, heq, -⟩
    · rw [heq] at hcoins
      cases hcoins
      exact ⟨rfl, rfl, hkeeps.entries.extends, hkeeps.entries.symm.extends, hkeeps.entries.pnextOf,
        fun hnot => absurd haborted hnot⟩
    · rw [heq] at hcoins
      cases congrArg Prod.fst hcoins

theorem HeightState.Inv.frame (h : s.Inv env) (hbest : node'.pindexBest = s.node.pindexBest)
    (hheight : node'.nBestHeight = s.node.nBestHeight)
    (hextends : node'.mapBlockIndex.Extends s.node.mapBlockIndex)
    (hextends' : s.node.mapBlockIndex.Extends node'.mapBlockIndex)
    (hpnext : ∀ hash, node'.mapBlockIndex.pnextOf hash = s.node.mapBlockIndex.pnextOf hash)
    {aborted : Bool} (hcoherent : aborted = false → node'.Coherent) :
    (HeightState.mk node' s.pblockindexFBBHLast aborted).Inv env where
  rooted := rooted_of_extends h.rooted hextends'
  linked := by
    obtain ⟨best, hlinked, hcache⟩ := h.linked
    refine ⟨best, hlinked.congr hbest hheight hextends hextends' hpnext, fun last hlast => ?_⟩
    have hchain := BlockTree.ancestry_eq hextends hextends' (some best)
    show last ∈ node'.mapBlockIndex.ancestry (some best)
    rw [hchain]
    exact hcache last hlast
  coherent := hcoherent

theorem HeightState.Inv.insertBlock (h : s.Inv env) {block : CBlock}
    (hnew : s.node.mapBlockIndex.New (newEntry env s.node.mapBlockIndex block))
    (hprev : s.node.mapBlockIndex.Indexed block.hashPrevBlock) :
    ({ s with node := s.node.insertBlock env block hnew } : HeightState).Inv env where
  rooted := rooted_insertBlock h.rooted hnew hprev
  linked := by
    obtain ⟨best, hlinked, hcache⟩ := h.linked
    refine ⟨best, hlinked.insertBlock hnew, fun last hlast => ?_⟩
    have hchain := BlockTree.ancestry_congr (BlockTree.extends_insert hnew) hlinked.indexed
    exact hchain.symm ▸ hcache last hlast
  coherent := fun hrunning => (h.coherent hrunning).insertBlock hnew

/-- **Every call keeps the invariant.** -/
theorem HeightState.Inv.step (h : s.Inv env) (hstep : HeightStep env s s') : s'.Inv env := by
  cases hstep with
  | @setBestChain out connectBest pindexNew result hrunning hindexed hrun =>
    have hcoherent := h.coherent hrunning
    obtain ⟨outcome, node'⟩ := result
    cases outcome with
    | ok _ =>
      obtain ⟨hcoherent', hbest, hextends, hextends', -⟩ := setBestChain_ok hcoherent hindexed hrun
      exact ⟨rooted_of_extends h.rooted hextends', ⟨pindexNew, hcoherent'.linked hbest, nofun⟩,
        fun _ => hcoherent'⟩
    | error e =>
      obtain ⟨hbest, hheight, hextends, hextends', hpnext, hkept⟩ := setBestChain_error_links hcoherent hrun
      exact h.frame hbest hheight hextends hextends' hpnext
        fun hrunning' => hkept (of_decide_eq_false hrunning')
  | insertBlock block hnew hprev => exact h.insertBlock hnew hprev
  | findBlockByHeight nHeight hnonneg hle hfind =>
    obtain ⟨best, hlinked, hcache⟩ := h.linked
    obtain ⟨found, hmem, hfound, -⟩ := findBlockByHeight_spec hlinked h.rooted hcache hnonneg hle
    rw [hfound] at hfind
    cases hfind
    refine ⟨h.rooted, ⟨best, hlinked, ?_⟩, h.coherent⟩
    rintro last ⟨⟩
    exact hmem

theorem HeightState.Inv.run (h : s.Inv env) (hrun : HeightRun env s s') : s'.Inv env := by
  induction hrun with
  | refl => exact h
  | tail _ hstep ih => exact ih.step hstep

end Interleaving

end Manna
