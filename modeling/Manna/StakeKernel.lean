import Manna.Coherent
import Manna.StakeModifier

/-!
The kernel of a proof of stake (`kernel.cpp`: `GetKernelStakeModifier`, `CheckStakeKernelHash`).

A kernel is hashed with the modifier that was generated about a selection interval after the
block of the coin. The search for it goes up from that block along `pnext`, which links the
chain that is active on the node, not the chain of the block that is checked.

* `getKernelStakeModifier_eq_find`: the modifier is that of the first block late enough;
* `exists_nextLinks`: any chain of the index can be the active one.
-/

namespace Manna

open Descent

/-! ### Following `pnext` -/

namespace BlockTree

variable {t : BlockTree} {best : Option Uint256} {hash c : Uint256}

/-- How far an entry is below the greatest height. -/
def depth (t : BlockTree) (hash : Uint256) : Nat := (INT_MAX - t.nHeight hash).toNat

/-- The pointers met from a pointer on along `pnext`. -/
def nextChain (t : BlockTree) (hash : Uint256) : List Uint256 := path t.pnextOf t.depth hash

def chainAbove (t : BlockTree) (pprev blockFrom : Uint256) : List Uint256 :=
  (t.above (some pprev) (some blockFrom)).reverse

theorem NextLinks.ranked (h : t.NextLinks best) : Ranked t.pnextOf t.depth := by
  intro a b hnext
  have hprev := ((h a b).mp hnext).2
  obtain ⟨⟨e, he⟩, -, -, hheight⟩ := pprevOf_height hprev
  have hle := t.height_le he
  rw [← nHeight_eq he] at hle
  unfold depth
  omega

theorem NextLinks.nextChain_eq (h : t.NextLinks best) (hash : Uint256) :
    t.nextChain hash = hash :: (t.pnextOf hash).elim [] t.nextChain :=
  path_eq h.ranked hash

/-- What `pnext` leads to from a block is a chain of `pprev` back to it. -/
theorem NextLinks.ancestry_of_tail (h : t.NextLinks best) {l₁ l₂ : List Uint256}
    (hsplit : (t.nextChain hash).tail = l₁ ++ c :: l₂) :
    t.ancestry (some c) = c :: (l₁.reverse ++ t.ancestry (some hash)) := by
  induction l₁ generalizing hash with
  | nil =>
    rw [h.nextChain_eq, List.tail_cons] at hsplit
    cases hnext : t.pnextOf hash with
    | none => simp [hnext] at hsplit
    | some y =>
      rw [hnext, Option.elim_some, h.nextChain_eq, List.nil_append, List.cons.injEq] at hsplit
      obtain ⟨rfl, -⟩ := hsplit
      rw [ancestry_some, ((h hash y).mp hnext).2]
      rfl
  | cons y l₁ ih =>
    rw [h.nextChain_eq, List.tail_cons] at hsplit
    cases hnext : t.pnextOf hash with
    | none => simp [hnext] at hsplit
    | some y' =>
      have htail := hsplit
      rw [hnext, Option.elim_some, h.nextChain_eq, List.cons_append, List.cons.injEq] at htail
      obtain ⟨rfl, -⟩ := htail
      rw [hnext, Option.elim_some] at hsplit
      have hrest := ih (show (t.nextChain y').tail = _ by
        rw [hsplit, List.cons_append, List.tail_cons])
      rw [hrest, ancestry_some,
        ((h hash y').mp hnext).2, List.reverse_cons, List.append_assoc]
      rfl

/-- Up to a block on both, `pnext` and the chain above a block are the same. -/
theorem NextLinks.chainAbove_eq (h : t.NextLinks best) {pprev : Uint256} {l₁ l₂ : List Uint256}
    (hsplit : (t.nextChain hash).tail = l₁ ++ c :: l₂) (hmem : c ∈ t.ancestry (some pprev)) :
    ∃ l₃, t.chainAbove pprev hash = l₁ ++ c :: l₃ := by
  have hall := above_append hmem
  rw [h.ancestry_of_tail hsplit] at hall
  have hfrom : hash ∈ t.ancestry (some pprev) := by
    rw [← hall]
    simp [t.mem_ancestry_self hash]
  rw [← above_append hfrom, ← List.cons_append, ← List.append_assoc,
    List.append_cancel_right_eq] at hall
  refine ⟨(t.above (some pprev) (some c)).reverse, ?_⟩
  rw [chainAbove, ← hall, List.reverse_append, List.reverse_cons, List.reverse_reverse,
    List.append_assoc, List.singleton_append]

theorem mem_ancestry_of_mem_chainAbove {pprev : Uint256} (hmem : c ∈ t.chainAbove pprev hash) :
    c ∈ t.ancestry (some pprev) :=
  (List.takeWhile_sublist _).subset (List.mem_reverse.mp hmem)

theorem NextLinks.ne_of_mem_tail (h : t.NextLinks best) (hmem : c ∈ (t.nextChain hash).tail) : c ≠ hash := by
  have hnodup := path_nodup h.ranked hash
  have heq := h.nextChain_eq hash
  rw [nextChain] at heq
  rw [heq] at hnodup
  rw [nextChain, heq] at hmem
  rintro rfl
  exact (List.nodup_cons.mp hnodup).1 hmem

/-- `pnext` leads to blocks of the active chain. -/
theorem NextLinks.mem_ancestry_of_mem_tail (h : t.NextLinks best)
    (hmem : c ∈ (t.nextChain hash).tail) : c ∈ t.ancestry best := by
  rcases exists_child_of_mem h.ranked (List.mem_of_mem_tail hmem) with heq | ⟨x, hnext⟩
  · exact absurd heq (h.ne_of_mem_tail hmem)
  · exact ((h x c).mp hnext).1

/-- `pnext` leads from a block of the active chain to all above it. -/
theorem NextLinks.mem_nextChain (h : t.NextLinks best) (hbest : c ∈ t.ancestry best)
    (hbelow : hash ∈ t.ancestry (some c)) : c ∈ t.nextChain hash := by
  induction c using t.ancestry_induction with
  | step c ih =>
    rcases mem_ancestry.mp hbelow with rfl | hbelow
    · exact mem_path_self h.ranked hash
    · cases hprev : t.pprevOf c with
      | none => rw [hprev] at hbelow; cases hbelow
      | some p =>
        rw [hprev] at hbelow
        have hp := ih p hprev (pprevOf_mem_ancestry hbest hprev) hbelow
        exact parent_mem_path h.ranked hp ((h p c).mpr ⟨hbest, hprev⟩)

theorem NextLinks.mem_tail_of_mem_chainAbove {pprev : Uint256} (h : t.NextLinks (some pprev))
    (hfrom : hash ∈ t.ancestry (some pprev)) (hmem : c ∈ t.chainAbove pprev hash) :
    c ∈ (t.nextChain hash).tail := by
  have hc := mem_ancestry_of_mem_chainAbove hmem
  have habove : c ∉ t.ancestry (some hash) := by
    have hnodup := t.ancestry_nodup (some pprev)
    rw [← above_append hfrom] at hnodup
    exact (List.nodup_append'.mp hnodup).2.2 (List.mem_reverse.mp hmem)
  -- Of two blocks of a chain one is on the chain of the other.
  have hbelow : hash ∈ t.ancestry (some c) := by
    rcases List.suffix_or_suffix_of_suffix (path_suffix t.ranked hc) (path_suffix t.ranked hfrom)
      with hsuffix | hsuffix
    · exact absurd (hsuffix.subset (t.mem_ancestry_self c)) habove
    · exact hsuffix.subset (t.mem_ancestry_self hash)
  have hnext := h.mem_nextChain hc hbelow
  rw [h.nextChain_eq] at hnext ⊢
  rcases List.mem_cons.mp hnext with rfl | hnext
  · exact absurd (t.mem_ancestry_self c) habove
  · exact hnext

/-- Where nothing is linked, a whole chain can be. -/
theorem NextLinks.link (h : t.NextLinks none) (pindex : Option Uint256) :
    ((t.ancestry pindex).foldl linkNext t).NextLinks pindex := by
  have hlink := extends_foldl extends_linkNext (t.ancestry pindex) t
  intro x y
  rw [ancestry_eq hlink.1 hlink.2, pprevOf_eq_of_extends hlink.1 hlink.2, foldl_linkNext_pnextOf, h x y]
  · simp [ancestry_none]
  · intro a ha b hb x hax hbx
    exact eq_of_pprevOf_eq ha hb hax hbx

theorem NextLinks.unlink (h : t.NextLinks best) : ((t.ancestry best).foldl unlinkNext t).NextLinks none := by
  intro x y
  rw [foldl_unlinkNext_pnextOf, h x y]
  constructor
  · rintro ⟨hfree, hmem, hyx⟩
    exact absurd hyx (hfree y hmem)
  · rintro ⟨hmem, -⟩
    rw [ancestry_none] at hmem
    cases hmem

/-- **Any chain of the index can be the active one.** -/
theorem NextLinks.exists_nextLinks (h : t.NextLinks best) (pprev : Option Uint256) :
    ∃ t', t'.Extends t ∧ t.Extends t' ∧ t'.NextLinks pprev := by
  have hunlink := extends_foldl extends_unlinkNext (t.ancestry best) t
  have hlink := extends_foldl extends_linkNext (((t.ancestry best).foldl unlinkNext t).ancestry pprev)
    ((t.ancestry best).foldl unlinkNext t)
  exact ⟨_, hlink.1.trans hunlink.1, hunlink.2.trans hlink.2, h.unlink.link pprev⟩

end BlockTree

/-! ### The modifier of a kernel -/

/-- What `GetKernelStakeModifier` returns. -/
structure KernelModifier where
  nStakeModifier : Nat
  nStakeModifierHeight : Int
  nStakeModifierTime : Int
deriving DecidableEq, Repr

namespace StakeIndex

/-- The loop of `GetKernelStakeModifier` at `pindex`, whose `pnext` pointers lead to a list of
blocks; `none` where it has reached the best block. -/
def kernelLoop (x : StakeIndex) (nTimeStop : Int) :
    Uint256 → List Uint256 → Int → Int → Option KernelModifier
  | pindex, [], nStakeModifierHeight, nStakeModifierTime =>
    if nStakeModifierTime < nTimeStop then none
    else some ⟨(x.fields pindex).nStakeModifier, nStakeModifierHeight, nStakeModifierTime⟩
  | pindex, pnext :: rest, nStakeModifierHeight, nStakeModifierTime =>
    if nStakeModifierTime < nTimeStop then
      if (x.fields pnext).fGeneratedStakeModifier then
        kernelLoop x nTimeStop pnext rest (x.tree.nHeight pnext) (x.blockTime pnext)
      else kernelLoop x nTimeStop pnext rest nStakeModifierHeight nStakeModifierTime
    else some ⟨(x.fields pindex).nStakeModifier, nStakeModifierHeight, nStakeModifierTime⟩

/-- `GetKernelStakeModifier`; `none` where the source returns false. -/
def getKernelStakeModifier (x : StakeIndex) (hashBlockFrom : Uint256) : Option KernelModifier :=
  match x.tree.entry hashBlockFrom with
  | none => none
  | some pindexFrom =>
    x.kernelLoop (pindexFrom.getBlockTime + getStakeModifierSelectionInterval) hashBlockFrom
      (x.tree.nextChain hashBlockFrom).tail pindexFrom.nHeight pindexFrom.getBlockTime

end StakeIndex

def nStakeMinAge : Nat := 60 * 60 * 24

def nStakeMaxAge : Nat := 60 * 60 * 24 * 90

/-- Where `CheckStakeKernelHash` returns false. -/
inductive KernelError where
  | nTimeViolation
  | minAgeViolation
  | noStakeModifier
  | targetNotMet (hashProofOfStake : Uint256)
deriving DecidableEq, Repr

/-- `CheckStakeKernelHash`: the hash of the proof of stake. -/
def checkStakeKernelHash (env : Env) (stakeEnv : StakeEnv) (x : StakeIndex) (nBits : Nat)
    (blockFrom : CBlockHeader) (nTxPrevOffset : Nat) (txPrev : CTransaction) (prevout : COutPoint)
    (nTimeTx : Nat) : Except KernelError Uint256 :=
  if nTimeTx < txPrev.nTime then .error .nTimeViolation
  else
    let nTimeBlockFrom := blockFrom.nTime
    -- The sum is of type `unsigned int`.
    if (nTimeBlockFrom + nStakeMinAge) % 2 ^ 32 > nTimeTx then .error .minAgeViolation
    else
      let bnTargetPerCoinDay := setCompact nBits
      let nValueIn := ((txPrev.vout[prevout.n]?).map (·.nValue)).getD 0
      let nTimeWeight : Int := min ((nTimeTx : Int) - txPrev.nTime) nStakeMaxAge -
        if isProtocolV03 stakeEnv nTimeTx then (nStakeMinAge : Int) else 0
      let bnCoinDayWeight := ((nValueIn * nTimeWeight).tdiv COIN).tdiv (24 * 60 * 60)
      let hashed :=
        if isProtocolV03 stakeEnv nTimeTx then
          (x.getKernelStakeModifier (env.blockHash blockFrom)).map fun modifier =>
            stakeEnv.hashKernel modifier.nStakeModifier nTimeBlockFrom nTxPrevOffset txPrev.nTime
              prevout.n nTimeTx
        else
          some (stakeEnv.hashKernelV02 nBits nTimeBlockFrom nTxPrevOffset txPrev.nTime prevout.n
            nTimeTx)
      match hashed with
      | none => .error .noStakeModifier
      | some hashProofOfStake =>
        if (hashProofOfStake : Int) > bnCoinDayWeight * bnTargetPerCoinDay then
          .error (.targetNotMet hashProofOfStake)
        else .ok hashProofOfStake

theorem checkStakeKernelHash_congr {env : Env} {stakeEnv : StakeEnv} {x x' : StakeIndex}
    {blockFrom : CBlockHeader} (h : x'.getKernelStakeModifier (env.blockHash blockFrom) =
      x.getKernelStakeModifier (env.blockHash blockFrom))
    (nBits nTxPrevOffset : Nat) (txPrev : CTransaction) (prevout : COutPoint) (nTimeTx : Nat) :
    checkStakeKernelHash env stakeEnv x' nBits blockFrom nTxPrevOffset txPrev prevout nTimeTx =
      checkStakeKernelHash env stakeEnv x nBits blockFrom nTxPrevOffset txPrev prevout nTimeTx := by
  rw [checkStakeKernelHash, checkStakeKernelHash, h]

namespace StakeIndex

/-! ### The block found -/

/-- A block that has generated a modifier a selection interval after a block, or later. -/
def late (x : StakeIndex) (hashBlockFrom hash : Uint256) : Bool :=
  (x.fields hash).fGeneratedStakeModifier &&
    decide (x.blockTime hashBlockFrom + getStakeModifierSelectionInterval ≤ x.blockTime hash)

/-- The modifier of an entry, as `GetKernelStakeModifier` returns it. -/
def modifierOf (x : StakeIndex) (hash : Uint256) : KernelModifier :=
  ⟨(x.fields hash).nStakeModifier, x.tree.nHeight hash, x.blockTime hash⟩

/-- **The condition for a kernel to be judged on its own chain**: the first block above the
kernel's that has a modifier late enough is, on the active chain, an ancestor of the block that is
checked; or neither chain has such a block. -/
def JudgedOnOwnChain (x : StakeIndex) (pprev blockFrom : Uint256) : Prop :=
  match (x.tree.nextChain blockFrom).tail.find? (x.late blockFrom) with
  | some hash => hash ∈ x.tree.ancestry (some pprev)
  | none => (x.tree.chainAbove pprev blockFrom).find? (x.late blockFrom) = none

section Search

variable {x x' : StakeIndex} {best : Option Uint256} {pprev blockFrom : Uint256}

theorem kernelLoop_eq_find (x : StakeIndex) (pindex : Uint256) (blocks : List Uint256)
    {nStakeModifierHeight nStakeModifierTime : Int}
    (hearly : nStakeModifierTime < x.blockTime blockFrom + getStakeModifierSelectionInterval) :
    x.kernelLoop (x.blockTime blockFrom + getStakeModifierSelectionInterval) pindex blocks
        nStakeModifierHeight nStakeModifierTime = (blocks.find? (x.late blockFrom)).map x.modifierOf := by
  induction blocks generalizing pindex nStakeModifierHeight nStakeModifierTime with
  | nil => rw [kernelLoop, if_pos hearly, List.find?_nil, Option.map_none]
  | cons pnext rest ih =>
    rw [kernelLoop, if_pos hearly, List.find?_cons]
    by_cases hgenerated : (x.fields pnext).fGeneratedStakeModifier = true
    · rw [if_pos hgenerated]
      by_cases htime : x.blockTime blockFrom + getStakeModifierSelectionInterval ≤ x.blockTime pnext
      · have hlate : x.late blockFrom pnext = true := by simp [late, hgenerated, htime]
        rw [hlate, Option.map_some]
        cases rest <;> rw [kernelLoop, if_neg (by omega)] <;> rfl
      · have hlate : x.late blockFrom pnext = false := by simp [late, htime]
        rw [hlate]
        exact ih pnext (by omega)
    · have hlate : x.late blockFrom pnext = false := by simp [late, hgenerated]
      rw [if_neg hgenerated, hlate]
      exact ih pnext hearly

/-- **The modifier is that of the first block late enough** on the active chain. -/
theorem getKernelStakeModifier_eq_find (hfrom : x.tree.Indexed blockFrom) :
    x.getKernelStakeModifier blockFrom =
      ((x.tree.nextChain blockFrom).tail.find? (x.late blockFrom)).map x.modifierOf := by
  obtain ⟨e, he⟩ := hfrom
  have htime : e.getBlockTime = x.blockTime blockFrom := by
    rw [blockTime, he, Option.map_some, Option.getD_some]
  have hpos : 0 < getStakeModifierSelectionInterval := by decide
  rw [getKernelStakeModifier, he]
  simp only [htime]
  exact x.kernelLoop_eq_find blockFrom _ (by omega)

theorem JudgedOnOwnChain.find_eq (hnext : x.tree.NextLinks best) (h : x.JudgedOnOwnChain pprev blockFrom) :
    (x.tree.nextChain blockFrom).tail.find? (x.late blockFrom) =
      (x.tree.chainAbove pprev blockFrom).find? (x.late blockFrom) := by
  rw [JudgedOnOwnChain] at h
  cases hfind : (x.tree.nextChain blockFrom).tail.find? (x.late blockFrom) with
  | none =>
    rw [hfind] at h
    exact h.symm
  | some hash =>
    rw [hfind] at h
    obtain ⟨hlate, l₁, l₂, hsplit, hbefore⟩ := List.find?_eq_some_iff_append.mp hfind
    obtain ⟨l₃, habove⟩ := hnext.chainAbove_eq hsplit h
    exact (List.find?_eq_some_iff_append.mpr ⟨hlate, l₁, l₃, habove, hbefore⟩).symm

def ownModifier (x : StakeIndex) (pprev blockFrom : Uint256) : Option KernelModifier :=
  ((x.tree.chainAbove pprev blockFrom).find? (x.late blockFrom)).map x.modifierOf

theorem JudgedOnOwnChain.getKernelStakeModifier_eq (hnext : x.tree.NextLinks best)
    (hindexed : x.tree.Indexed pprev) (hfrom : blockFrom ∈ x.tree.ancestry (some pprev))
    (h : x.JudgedOnOwnChain pprev blockFrom) :
    x.getKernelStakeModifier blockFrom = x.ownModifier pprev blockFrom := by
  rw [getKernelStakeModifier_eq_find (BlockTree.indexed_of_mem hindexed hfrom), h.find_eq hnext,
    ownModifier]

/-- **What a chain has for a kernel is the same on every node that knows the chain.** -/
theorem SameAncestors.ownModifier_eq (h : x.SameAncestors x' pprev)
    (hfrom : blockFrom ∈ x.tree.ancestry (some pprev)) :
    x'.ownModifier pprev blockFrom = x.ownModifier pprev blockFrom := by
  have hchain : x'.tree.chainAbove pprev blockFrom = x.tree.chainAbove pprev blockFrom := by
    rw [BlockTree.chainAbove, BlockTree.chainAbove, BlockTree.above, BlockTree.above, h.ancestry_eq]
  have hlate : ∀ a ∈ x.tree.ancestry (some pprev), x'.late blockFrom a = x.late blockFrom a := by
    intro a ha
    rw [late, late, (h a ha).2, h.blockTime_eq ha, h.blockTime_eq hfrom]
  have hfind : ∀ l : List Uint256, (∀ a ∈ l, a ∈ x.tree.ancestry (some pprev)) →
      (l.find? (x'.late blockFrom)).map x'.modifierOf =
        (l.find? (x.late blockFrom)).map x.modifierOf := by
    intro l hl
    induction l with
    | nil => rfl
    | cons a l ih =>
      have ha := hl a List.mem_cons_self
      obtain ⟨⟨e, e', he, he', hfixed⟩, hfields⟩ := h a ha
      have hheight : x'.tree.nHeight a = x.tree.nHeight a := by
        rw [BlockTree.nHeight_eq he, BlockTree.nHeight_eq he',
          (CBlockIndex.fixed_eq_iff.mp hfixed).2.2.1]
      have hself : x'.modifierOf a = x.modifierOf a := by
        rw [modifierOf, modifierOf, hfields, hheight, h.blockTime_eq ha]
      rw [List.find?_cons, List.find?_cons, hlate a ha]
      cases x.late blockFrom a with
      | true => exact congrArg some hself
      | false => exact ih fun b hb => hl b (List.mem_cons_of_mem a hb)
  rw [ownModifier, ownModifier, hchain]
  exact hfind _ fun a ha => BlockTree.mem_ancestry_of_mem_chainAbove ha

end Search

/-! ### Other branches -/

section Branches

variable {x x' : StakeIndex} {best : Option Uint256} {pprev blockFrom : Uint256}

/-- A node with the same index whose other branches carry other data: the fields of the ancestors
are the same, and the same blocks have generated a modifier. -/
def OtherBranches (x x' : StakeIndex) (pprev : Uint256) : Prop :=
  x'.tree = x.tree ∧ (∀ a ∈ x.tree.ancestry (some pprev), x'.fields a = x.fields a) ∧
    ∀ a, (x'.fields a).fGeneratedStakeModifier = (x.fields a).fGeneratedStakeModifier

theorem OtherBranches.sameAncestors (h : x.OtherBranches x' pprev)
    (hindexed : x.tree.Indexed pprev) : x.SameAncestors x' pprev := by
  intro a ha
  obtain ⟨e, he⟩ := BlockTree.indexed_of_mem hindexed ha
  exact ⟨⟨e, e, he, by rw [h.1]; exact he, rfl⟩, h.2.1 a ha⟩

theorem OtherBranches.late_eq (h : x.OtherBranches x' pprev) (blockFrom : Uint256) :
    x'.late blockFrom = x.late blockFrom := by
  funext a
  rw [late, late, h.2.2, blockTime, blockTime, blockTime, blockTime, h.1]

theorem OtherBranches.judgedOnOwnChain (h : x.OtherBranches x' pprev)
    (hjudged : x.JudgedOnOwnChain pprev blockFrom) : x'.JudgedOnOwnChain pprev blockFrom := by
  rwa [JudgedOnOwnChain, h.late_eq, h.1]

theorem judgedOnOwnChain_of_active (hnext : x.tree.NextLinks (some pprev))
    (hfrom : blockFrom ∈ x.tree.ancestry (some pprev)) : x.JudgedOnOwnChain pprev blockFrom := by
  rw [JudgedOnOwnChain]
  cases hfind : (x.tree.nextChain blockFrom).tail.find? (x.late blockFrom) with
  | some hash => exact hnext.mem_ancestry_of_mem_tail (List.mem_of_find?_eq_some hfind)
  | none =>
    refine List.find?_eq_none.mpr fun a ha => ?_
    exact List.find?_eq_none.mp hfind a (hnext.mem_tail_of_mem_chainAbove hfrom ha)

/-- There is a node that knows the same and on which the chain of a block is the active one. -/
theorem exists_active (hnext : x.tree.NextLinks best) (hindexed : x.tree.Indexed pprev) :
    ∃ x' : StakeIndex, x'.tree.NextLinks (some pprev) ∧ x.SameAncestors x' pprev := by
  obtain ⟨t', hextends, -, hnext'⟩ := hnext.exists_nextLinks (some pprev)
  refine ⟨⟨t', x.fields⟩, hnext', fun a ha => ⟨?_, rfl⟩⟩
  obtain ⟨e, he⟩ := BlockTree.indexed_of_mem hindexed ha
  obtain ⟨e', he', hfixed⟩ := hextends a e he
  exact ⟨e, e', he, he', hfixed⟩

/-- The same node with another modifier in one entry. -/
def setModifier (x : StakeIndex) (hash : Uint256) (nStakeModifier : Nat) : StakeIndex where
  tree := x.tree
  fields a := if a = hash then { x.fields a with nStakeModifier := nStakeModifier } else x.fields a

theorem modifierOf_setModifier (x : StakeIndex) (hash : Uint256) (nStakeModifier : Nat) :
    ((x.setModifier hash nStakeModifier).modifierOf hash).nStakeModifier = nStakeModifier := by
  rw [modifierOf, setModifier]
  simp only [if_true]

theorem otherBranches_setModifier {hash : Uint256} (nStakeModifier : Nat)
    (h : hash ∉ x.tree.ancestry (some pprev)) :
    x.OtherBranches (x.setModifier hash nStakeModifier) pprev := by
  refine ⟨rfl, fun a ha => ?_, fun a => ?_⟩
  · apply if_neg
    rintro rfl
    exact h ha
  · simp only [setModifier]
    split
    · rfl
    · rfl

theorem exists_otherBranches (hindexed : x.tree.Indexed pprev)
    (hfrom : blockFrom ∈ x.tree.ancestry (some pprev)) (h : ¬ x.JudgedOnOwnChain pprev blockFrom) :
    ∃ x', x.OtherBranches x' pprev ∧ x'.getKernelStakeModifier blockFrom ≠ x.ownModifier pprev blockFrom := by
  rw [JudgedOnOwnChain] at h
  have hfromIndexed := BlockTree.indexed_of_mem hindexed hfrom
  cases hfind : (x.tree.nextChain blockFrom).tail.find? (x.late blockFrom) with
  | none =>
    -- The active chain has no modifier for the kernel, but the chain of the block has one.
    rw [hfind] at h
    refine ⟨x, ⟨rfl, fun _ _ => rfl, fun _ => rfl⟩, ?_⟩
    rw [getKernelStakeModifier_eq_find hfromIndexed, hfind, ownModifier]
    intro heq
    exact h (Option.map_eq_none_iff.mp heq.symm)
  | some hash =>
    -- The block found is on another branch: let it have another modifier.
    rw [hfind] at h
    let nStakeModifier : Nat :=
      if ((x.ownModifier pprev blockFrom).map (·.nStakeModifier)) = some 0 then 1 else 0
    have hother := x.otherBranches_setModifier nStakeModifier h
    refine ⟨_, hother, fun heq => ?_⟩
    rw [getKernelStakeModifier_eq_find (x := x.setModifier hash nStakeModifier) hfromIndexed,
      hother.late_eq, setModifier, hfind] at heq
    have hvalue := congrArg (Option.map (·.nStakeModifier)) heq
    rw [Option.map_some, Option.map_some, ← setModifier, modifierOf_setModifier] at hvalue
    by_cases hzero : (x.ownModifier pprev blockFrom).map (·.nStakeModifier) = some 0
    · simp only [nStakeModifier, hzero, if_true] at hvalue
      cases hvalue
    · simp only [nStakeModifier, hzero, if_false] at hvalue
      exact hzero hvalue.symm

end Branches

end StakeIndex

/-- **The verdict on a kernel depends only on the chain of the block** that is checked exactly
when it is judged on its own chain: then any two nodes that know this chain and judge the block on
it agree, whatever the other branches carry; else there are other branches with which the node
disagrees with one on which this chain is the active one. -/
theorem judgedOnOwnChain_iff (env : Env) (stakeEnv : StakeEnv) {x : StakeIndex}
    {best : Option Uint256} {pprev : Uint256} {blockFrom : CBlockHeader}
    (hnext : x.tree.NextLinks best) (hindexed : x.tree.Indexed pprev)
    (hfrom : env.blockHash blockFrom ∈ x.tree.ancestry (some pprev)) :
    x.JudgedOnOwnChain pprev (env.blockHash blockFrom) ↔
      ∀ x₁ x₂ best₂, x.OtherBranches x₁ pprev → x₂.tree.NextLinks best₂ →
        x.SameAncestors x₂ pprev → x₂.JudgedOnOwnChain pprev (env.blockHash blockFrom) →
        x₂.getKernelStakeModifier (env.blockHash blockFrom) =
            x₁.getKernelStakeModifier (env.blockHash blockFrom) ∧
          ∀ nBits nTxPrevOffset txPrev prevout nTimeTx,
            checkStakeKernelHash env stakeEnv x₂ nBits blockFrom nTxPrevOffset txPrev prevout
                nTimeTx =
              checkStakeKernelHash env stakeEnv x₁ nBits blockFrom nTxPrevOffset txPrev prevout
                nTimeTx := by
  constructor
  · intro hjudged x₁ x₂ best₂ hother hnext₂ hsame hjudged₂
    have hindexed₂ : x₂.tree.Indexed pprev := by
      obtain ⟨⟨-, e, -, he, -⟩, -⟩ := hsame pprev (x.tree.mem_ancestry_self pprev)
      exact ⟨e, he⟩
    have h₂ := hjudged₂.getKernelStakeModifier_eq hnext₂ hindexed₂ (hsame.ancestry_eq ▸ hfrom)
    have h₁ := (hother.judgedOnOwnChain hjudged).getKernelStakeModifier_eq
      (hother.1 ▸ hnext) (hother.1 ▸ hindexed) (hother.1 ▸ hfrom)
    have heq : x₂.getKernelStakeModifier (env.blockHash blockFrom) =
        x₁.getKernelStakeModifier (env.blockHash blockFrom) := by
      rw [h₂, h₁, hsame.ownModifier_eq hfrom,
        (hother.sameAncestors hindexed).ownModifier_eq hfrom]
    exact ⟨heq, checkStakeKernelHash_congr heq⟩
  · intro hagree
    by_contra hjudged
    obtain ⟨x₁, hother, hne⟩ := StakeIndex.exists_otherBranches hindexed hfrom hjudged
    obtain ⟨x₂, hnext₂, hsame⟩ := StakeIndex.exists_active hnext hindexed
    have hindexed₂ : x₂.tree.Indexed pprev := by
      obtain ⟨⟨-, e, -, he, -⟩, -⟩ := hsame pprev (x.tree.mem_ancestry_self pprev)
      exact ⟨e, he⟩
    have hfrom₂ : env.blockHash blockFrom ∈ x₂.tree.ancestry (some pprev) := hsame.ancestry_eq ▸ hfrom
    have hjudged₂ := StakeIndex.judgedOnOwnChain_of_active hnext₂ hfrom₂
    have heq := (hagree x₁ x₂ _ hother hnext₂ hsame hjudged₂).1
    rw [hjudged₂.getKernelStakeModifier_eq hnext₂ hindexed₂ hfrom₂,
      hsame.ownModifier_eq hfrom] at heq
    exact hne heq.symm

/-! ### Samples -/

theorem pnextOf_sampleGenesis (nTime : Nat) (x : Uint256) : (sampleGenesis nTime).pnextOf x = none := by
  rw [BlockTree.pnextOf, entry_sampleGenesis]
  split <;> rfl

theorem pnextOf_sampleExtend {t : BlockTree} (h : ∀ x, t.pnextOf x = none) (name pprev : Uint256)
    (nTime : Nat) (x : Uint256) : (sampleExtend t name pprev nTime).pnextOf x = none := by
  rw [sampleExtend]
  split
  · exact h x
  · split
    · rw [BlockTree.pnextOf, BlockTree.entry_insert]
      split
      · rfl
      · exact h x
    · exact h x

/-- A block on the genesis block, in which a coin lies, and two blocks on it with modifiers for the kernel. -/
def sampleKernelTree : BlockTree :=
  sampleExtend (sampleExtend (sampleExtend (sampleGenesis 1736294300) 1001 1000 1736294400)
    1002 1001 1736704400) 1003 1001 1736704400

def sampleKernelNode (best : Uint256) : StakeIndex where
  tree := (sampleKernelTree.ancestry (some best)).foldl .linkNext sampleKernelTree
  fields hash := sampleStakeFields true hash

theorem nextLinks_sampleKernelTree : sampleKernelTree.NextLinks none := by
  intro x y
  rw [sampleKernelTree, pnextOf_sampleExtend (pnextOf_sampleExtend (pnextOf_sampleExtend
    (pnextOf_sampleGenesis _) _ _ _) _ _ _), BlockTree.ancestry_none]
  simp

theorem nextLinks_sampleKernelNode (best : Uint256) : (sampleKernelNode best).tree.NextLinks (some best) :=
  nextLinks_sampleKernelTree.link (some best)

/-- The header of the block of the coin. -/
def sampleKernelHeader : CBlockHeader := ⟨1, 1000, 0, 1736294400, 0x1d0fffff, 1001⟩

theorem judgedOnOwnChain_sample :
    (sampleKernelNode 1002).JudgedOnOwnChain 1002 1001 ∧
    ∀ x₂ best₂, x₂.tree.NextLinks best₂ → (sampleKernelNode 1002).SameAncestors x₂ 1002 →
      x₂.JudgedOnOwnChain 1002 1001 →
      x₂.getKernelStakeModifier 1001 = some ⟨1002, 2, 1736704400⟩ := by
  have hentry : (sampleKernelNode 1002).tree.entry 1002 =
      some (sampleEntry 1002 (some 1001) 2 1736704400) := by decide
  have hjudged : (sampleKernelNode 1002).JudgedOnOwnChain 1002 1001 := by
    have hfind : ((sampleKernelNode 1002).tree.nextChain 1001).tail.find?
        ((sampleKernelNode 1002).late 1001) = some 1002 := by decide
    rw [StakeIndex.JudgedOnOwnChain, hfind]
    exact BlockTree.mem_ancestry_self _ _
  refine ⟨hjudged, fun x₂ best₂ hnext₂ hsame hjudged₂ => ?_⟩
  have h := ((judgedOnOwnChain_iff sampleEnv sampleStakeEnv (nextLinks_sampleKernelNode 1002) ⟨_, hentry⟩
    (show sampleEnv.blockHash sampleKernelHeader ∈ _ by decide)).mp hjudged
    (sampleKernelNode 1002) x₂ best₂
    ⟨rfl, fun _ _ => rfl, fun _ => rfl⟩ hnext₂ hsame hjudged₂).1
  have hvalue : (sampleKernelNode 1002).getKernelStakeModifier 1001 =
      some ⟨1002, 2, 1736704400⟩ := by decide
  exact h.trans hvalue

/-- **Two nodes that differ in the active branch only** judge the same kernel with different
modifiers. -/
theorem not_forall_getKernelStakeModifier_eq :
    ¬ ∀ (env : Env) (stakeEnv : StakeEnv) (x x' : StakeIndex) (best best' : Option Uint256)
      (pprev : Uint256) (blockFrom : CBlockHeader),
      x.tree.NextLinks best → x'.tree.NextLinks best' → x.tree.Indexed pprev →
      x.SameAncestors x' pprev → env.blockHash blockFrom ∈ x.tree.ancestry (some pprev) →
      x'.getKernelStakeModifier (env.blockHash blockFrom) =
          x.getKernelStakeModifier (env.blockHash blockFrom) ∧
        ∀ nBits nTxPrevOffset txPrev prevout nTimeTx,
          checkStakeKernelHash env stakeEnv x' nBits blockFrom nTxPrevOffset txPrev prevout nTimeTx =
            checkStakeKernelHash env stakeEnv x nBits blockFrom nTxPrevOffset txPrev prevout
              nTimeTx := by
  intro h
  have hentry : (sampleKernelNode 1002).tree.entry 1002 =
      some (sampleEntry 1002 (some 1001) 2 1736704400) := by decide
  have hsame : (sampleKernelNode 1002).SameAncestors (sampleKernelNode 1003) 1002 := by
    intro a ha
    obtain ⟨e, he⟩ := BlockTree.indexed_of_mem ⟨_, hentry⟩ ha
    have hextends := fun best => BlockTree.extends_foldl BlockTree.extends_linkNext
      (sampleKernelTree.ancestry (some best)) sampleKernelTree
    obtain ⟨e₀, he₀, hfixed₀⟩ := (hextends 1002).2 a e he
    obtain ⟨e', he', hfixed⟩ := (hextends 1003).1 a e₀ he₀
    exact ⟨⟨e, e', he, he', hfixed.trans hfixed₀⟩, rfl⟩
  have heq := (h sampleEnv sampleStakeEnv (sampleKernelNode 1002) (sampleKernelNode 1003) (some 1002)
    (some 1003) 1002 sampleKernelHeader (nextLinks_sampleKernelNode 1002) (nextLinks_sampleKernelNode 1003)
    ⟨_, hentry⟩ hsame (by decide)).1
  have hfirst : (sampleKernelNode 1002).getKernelStakeModifier 1001 =
      some ⟨1002, 2, 1736704400⟩ := by decide
  have hsecond : (sampleKernelNode 1003).getKernelStakeModifier 1001 =
      some ⟨1003, 2, 1736704400⟩ := by decide
  rw [show sampleEnv.blockHash sampleKernelHeader = 1001 from rfl, hfirst, hsecond] at heq
  cases heq

end Manna
