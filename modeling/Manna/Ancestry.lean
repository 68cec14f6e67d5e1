import Manna.BlockTree
import Manna.Lib.Descent

/-!
Following `pprev` through the block index.

A pointer to an entry is its hash, `NULL` is `none`, and the chain of `pprev` pointers from a
pointer is the list `ancestry`. The search for the fork in `SetBestChain` walks along two
such chains at once (`findFork`).

* `ancestry_congr`: the chains only depend on the fixed parts of the entries;
* `findFork_spec`: the fork is the highest block on both chains;
* `findFork_isSome`: in an index with one root the search runs into no assertion.
-/

namespace Manna

open Descent

namespace BlockTree

def pprevOf (t : BlockTree) (hash : Uint256) : Option Uint256 := (t.entry hash).bind (·.pprev)

/-- `nHeight` of an entry. -/
def nHeight (t : BlockTree) (hash : Uint256) : Int := ((t.entry hash).map (·.nHeight)).getD 0

/-- `nChainTrust` of an entry. -/
def nChainTrust (t : BlockTree) (hash : Uint256) : Uint256 :=
  ((t.entry hash).map (·.nChainTrust)).getD 0

/-- The pointers met on the way from a pointer to the root. -/
def ancestry (t : BlockTree) (pindex : Option Uint256) : List Uint256 :=
  pindex.elim [] (path t.pprevOf fun hash => (t.nHeight hash).toNat)

/-- An entry is there. -/
def Indexed (t : BlockTree) (hash : Uint256) : Prop := ∃ e, t.entry hash = some e

def Rooted (t : BlockTree) (root : Uint256) : Prop :=
  ∀ hash e, t.entry hash = some e → e.pprev = none → hash = root

variable {t t' : BlockTree} {hash hash' a b root : Uint256} {e : CBlockIndex}

theorem pprevOf_eq (he : t.entry hash = some e) : t.pprevOf hash = e.pprev := by
  rw [pprevOf, he, Option.bind_some]

theorem nHeight_eq (he : t.entry hash = some e) : t.nHeight hash = e.nHeight := by
  rw [nHeight, he, Option.map_some, Option.getD_some]

theorem nChainTrust_eq (he : t.entry hash = some e) : t.nChainTrust hash = e.nChainTrust := by
  rw [nChainTrust, he, Option.map_some, Option.getD_some]

theorem nHeight_nonneg (t : BlockTree) (hash : Uint256) : 0 ≤ t.nHeight hash := by
  cases he : t.entry hash with
  | none => rw [nHeight, he, Option.map_none, Option.getD_none]
  | some e =>
    rw [nHeight_eq he]
    exact t.height_nonneg he

theorem pprevOf_height (h : t.pprevOf hash = some hash') :
    t.Indexed hash ∧ t.Indexed hash' ∧ 0 ≤ t.nHeight hash' ∧ t.nHeight hash = t.nHeight hash' + 1 := by
  obtain ⟨e, he, hprev⟩ := Option.bind_eq_some_iff.mp h
  obtain ⟨p, hp, hheight⟩ := t.parent he hprev
  rw [nHeight_eq he, nHeight_eq hp]
  exact ⟨⟨e, he⟩, ⟨p, hp⟩, t.height_nonneg hp, hheight⟩

theorem ranked (t : BlockTree) : Ranked t.pprevOf fun hash => (t.nHeight hash).toNat := by
  intro a b h
  obtain ⟨-, -, hnonneg, hheight⟩ := pprevOf_height h
  dsimp only
  omega

@[simp] theorem ancestry_none (t : BlockTree) : t.ancestry none = [] := rfl

theorem ancestry_some (t : BlockTree) (hash : Uint256) :
    t.ancestry (some hash) = hash :: t.ancestry (t.pprevOf hash) :=
  path_eq t.ranked hash

/-- Up the tree, from each block to the next: what holds of a block when it holds of its
predecessor holds of every block. -/
theorem ancestry_induction (t : BlockTree) {motive : Uint256 → Prop}
    (step : ∀ hash, (∀ pprev, t.pprevOf hash = some pprev → motive pprev) → motive hash)
    (hash : Uint256) : motive hash :=
  path_induction t.ranked step hash

theorem mem_ancestry_self (t : BlockTree) (hash : Uint256) : hash ∈ t.ancestry (some hash) :=
  mem_path_self t.ranked hash

theorem mem_ancestry : a ∈ t.ancestry (some hash) ↔ a = hash ∨ a ∈ t.ancestry (t.pprevOf hash) := by
  rw [ancestry_some, List.mem_cons]

variable {pindex : Option Uint256}

theorem mem_ancestry_trans (ha : a ∈ t.ancestry (some b))
    (hb : b ∈ t.ancestry pindex) : a ∈ t.ancestry pindex := by
  cases pindex with
  | none => cases hb
  | some hash => exact mem_path_trans t.ranked ha hb

theorem pprevOf_mem_ancestry (ha : a ∈ t.ancestry pindex)
    (hprev : t.pprevOf a = some b) : b ∈ t.ancestry pindex := by
  cases pindex with
  | none => cases ha
  | some hash => exact parent_mem_path t.ranked ha hprev

theorem indexed_of_mem (h : t.Indexed hash) (ha : a ∈ t.ancestry (some hash)) : t.Indexed a := by
  induction hash using t.ancestry_induction with
  | step hash ih =>
    rcases mem_ancestry.mp ha with rfl | ha
    · exact h
    · cases hprev : t.pprevOf hash with
      | none => rw [hprev] at ha; cases ha
      | some pprev => exact ih pprev hprev (pprevOf_height hprev).2.1 (hprev ▸ ha)

theorem ancestry_nodup (t : BlockTree) (pindex : Option Uint256) : (t.ancestry pindex).Nodup := by
  cases pindex with
  | none => exact List.nodup_nil
  | some hash => exact path_nodup t.ranked hash

theorem ancestry_pairwise (t : BlockTree) (pindex : Option Uint256) :
    (t.ancestry pindex).Pairwise fun a b => t.nHeight b < t.nHeight a := by
  cases pindex with
  | none => exact List.Pairwise.nil
  | some hash =>
    refine (path_pairwise t.ranked hash).imp fun {a b} hlt => ?_
    have hnonneg := t.nHeight_nonneg a
    omega

/-- Two blocks of a chain with the same predecessor are the same. -/
theorem eq_of_pprevOf_eq (ha : a ∈ t.ancestry pindex)
    (hb : b ∈ t.ancestry pindex) (hprev : t.pprevOf a = some hash) (hprev' : t.pprevOf b = some hash) :
    a = b := by
  cases pindex with
  | none => cases ha
  | some tip =>
    refine eq_of_rank_eq t.ranked ha hb ?_
    rw [(pprevOf_height hprev).2.2.2, (pprevOf_height hprev').2.2.2]

/-- A chain is the part above one of its blocks, then the chain of that block. -/
theorem takeWhile_append_ancestry (ha : a ∈ t.ancestry pindex) :
    (t.ancestry pindex).takeWhile (· ≠ a) ++ t.ancestry (some a) = t.ancestry pindex := by
  cases pindex with
  | none => cases ha
  | some hash => exact takeWhile_append_path t.ranked ha

theorem getLast?_ancestry (hroot : t.Rooted root) (h : t.Indexed hash) :
    (t.ancestry (some hash)).getLast? = some root := by
  induction hash using t.ancestry_induction with
  | step hash ih =>
    obtain ⟨e, he⟩ := h
    rw [ancestry_some]
    cases hprev : t.pprevOf hash with
    | none => rw [hroot hash e he ((pprevOf_eq he).symm.trans hprev)]; rfl
    | some pprev =>
      have hrest := ih pprev hprev (pprevOf_height hprev).2.1
      rw [ancestry_some] at hrest ⊢
      rwa [List.getLast?_cons_cons]

theorem Extends.pprevOf_eq (h : t'.Extends t) (hindexed : t.Indexed hash) :
    t'.pprevOf hash = t.pprevOf hash := by
  obtain ⟨e, he⟩ := hindexed
  obtain ⟨e', he', hfixed⟩ := h _ _ he
  rw [BlockTree.pprevOf_eq he, BlockTree.pprevOf_eq he', (CBlockIndex.fixed_eq_iff.mp hfixed).2.1]

theorem Extends.nHeight_eq (h : t'.Extends t) (hindexed : t.Indexed hash) :
    t'.nHeight hash = t.nHeight hash := by
  obtain ⟨e, he⟩ := hindexed
  obtain ⟨e', he', hfixed⟩ := h _ _ he
  rw [BlockTree.nHeight_eq he, BlockTree.nHeight_eq he', (CBlockIndex.fixed_eq_iff.mp hfixed).2.2.1]

theorem Extends.nChainTrust_eq (h : t'.Extends t) (hindexed : t.Indexed hash) :
    t'.nChainTrust hash = t.nChainTrust hash := by
  obtain ⟨e, he⟩ := hindexed
  obtain ⟨e', he', hfixed⟩ := h _ _ he
  rw [BlockTree.nChainTrust_eq he, BlockTree.nChainTrust_eq he',
    (CBlockIndex.fixed_eq_iff.mp hfixed).2.2.2.1]

theorem Extends.indexed (h : t'.Extends t) (hindexed : t.Indexed hash) : t'.Indexed hash := by
  obtain ⟨e, he⟩ := hindexed
  obtain ⟨e', he', -⟩ := h _ _ he
  exact ⟨e', he'⟩

/-- **Chains do not change** when the index grows or entries change outside their fixed
parts. -/
theorem ancestry_congr (h : t'.Extends t) (hindexed : t.Indexed hash) :
    t'.ancestry (some hash) = t.ancestry (some hash) := by
  induction hash using t.ancestry_induction with
  | step hash ih =>
    rw [ancestry_some, ancestry_some, h.pprevOf_eq hindexed]
    cases hprev : t.pprevOf hash with
    | none => rfl
    | some pprev => rw [ih pprev hprev (pprevOf_height hprev).2.1]

/-! ### The fork -/

/-- The search for `pfork`: `plonger` goes down to the height of `pfork`, then `pfork` takes a
step, until both are the same or `pfork` is `NULL` from the start. `none` stands for a failed
assertion. -/
def findFork (t : BlockTree) (pindexBest pindexNew : Option Uint256) : Option (Option Uint256) :=
  meet t.nHeight (t.ancestry pindexBest) (t.ancestry pindexNew)

/-- **The fork** is on both chains, and what lies above it on one is not on the other. -/
theorem findFork_spec {pindexBest pindexNew : Option Uint256} {pfork : Uint256}
    (h : t.findFork pindexBest pindexNew = some (some pfork)) :
    pfork ∈ t.ancestry pindexBest ∧ pfork ∈ t.ancestry pindexNew ∧
      (∀ hash ∈ (t.ancestry pindexBest).takeWhile (· ≠ pfork), hash ∉ t.ancestry pindexNew) ∧
      ∀ hash ∈ (t.ancestry pindexNew).takeWhile (· ≠ pfork), hash ∉ t.ancestry pindexBest :=
  meet_spec (t.ancestry_pairwise _) (t.ancestry_pairwise _) h

/-- The blocks of a chain above one of its own, from the top. -/
def above (t : BlockTree) (pindex pfork : Option Uint256) : List Uint256 :=
  (t.ancestry pindex).takeWhile fun hash => some hash ≠ pfork

theorem above_append (ha : a ∈ t.ancestry pindex) :
    t.above pindex (some a) ++ t.ancestry (some a) = t.ancestry pindex := by
  simpa [above] using takeWhile_append_ancestry ha

/-- **What the search for the fork finds**: the chains are the same from the fork on, and
above it they have no block in common. -/
structure Fork (t : BlockTree) (pindexBest pindexNew pfork : Option Uint256) : Prop where
  best : t.above pindexBest pfork ++ t.ancestry pfork = t.ancestry pindexBest
  new : t.above pindexNew pfork ++ t.ancestry pfork = t.ancestry pindexNew
  disconnect : ∀ hash ∈ t.above pindexBest pfork, hash ∉ t.ancestry pindexNew
  connect : ∀ hash ∈ t.above pindexNew pfork, hash ∉ t.ancestry pindexBest

theorem fork_of_findFork {pindexBest pindexNew pfork : Option Uint256}
    (h : t.findFork pindexBest pindexNew = some pfork) : t.Fork pindexBest pindexNew pfork := by
  cases pfork with
  | some pfork =>
    obtain ⟨hbest, hnew, hdisconnect, hconnect⟩ := findFork_spec h
    exact ⟨above_append hbest, above_append hnew, by simpa [above] using hdisconnect,
      by simpa [above] using hconnect⟩
  | none =>
    have hnil : t.ancestry pindexBest = [] := meet_eq_none h
    have hall : ∀ pindex, t.above pindex none = t.ancestry pindex := fun pindex => by
      simp [above]
    exact ⟨by simp [hall], by simp [hall], by simp [hall, hnil], by simp [hnil]⟩

/-- With one root there is a fork. -/
theorem findFork_isSome {pindexBest pindexNew : Uint256} (hroot : t.Rooted root)
    (hbest : t.Indexed pindexBest) (hnew : t.Indexed pindexNew) :
    ∃ pfork, t.findFork (some pindexBest) (some pindexNew) = some (some pfork) := by
  refine meet_isSome (t.ancestry_pairwise _) (t.ancestry_pairwise _)
    (getLast?_ancestry hroot hbest) (getLast?_ancestry hroot hnew) fun hash hmem => ?_
  have hlast := List.mem_of_getLast? (getLast?_ancestry hroot hbest)
  obtain ⟨r, hr⟩ := indexed_of_mem hbest hlast
  cases hprev : r.pprev with
  | none =>
    rw [nHeight_eq hr, t.root hr hprev]
    exact t.nHeight_nonneg hash
  | some pprev =>
    -- Every chain ends without a predecessor.
    have hend := getLast?_ancestry hroot (pprevOf_height (by rw [pprevOf_eq hr, hprev])).2.1
    have hlow := List.mem_of_getLast? hend
    have hself := t.ancestry_pairwise (some root)
    rw [ancestry_some, pprevOf_eq hr, hprev] at hself
    exact absurd ((List.pairwise_cons.mp hself).1 root hlow) (lt_irrefl _)

end BlockTree

end Manna
