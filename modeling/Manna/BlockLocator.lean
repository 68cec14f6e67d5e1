import Manna.FindBlockByHeight
import Manna.Lib.Samples

/-!
Block locators (`main.h`: `CBlockLocator`).

A locator names blocks of a chain at growing distances from its tip, and the genesis block. A peer with
another chain looks for the first of them that it has in its own.

* `CBlockLocator.set_spec`: the distances are 0, 1, …, 11, 13, 17, 25, …;
* `blockLocator_iff`: when `GetDistanceBack` is the distance of the block that `GetBlockIndex` returns.
-/

namespace Manna

open Samples

/-- The value that an `int` keeps. -/
def wrapInt (n : Int) : Int := n.bmod (2 ^ 32)

def BlockTree.isInMainChain (t : BlockTree) (pindexBest : Option Uint256) (hash : Uint256) : Bool :=
  (t.pnextOf hash).isSome || pindexBest = some hash

/-- `for (int i = 0; pindex && i < nStep; i++) pindex = pindex->pprev;`. -/
def BlockTree.stepBack (t : BlockTree) : Nat → Option Uint256 → Option Uint256
  | 0, pindex => pindex
  | nStep + 1, pindex => t.stepBack nStep (pindex.bind t.pprevOf)

/-- `mapBlockIndex.find(hash)` finds a block of the main chain. -/
def BlockTree.finds (t : BlockTree) (pindexBest : Option Uint256) (hash : Uint256) : Bool :=
  (t.entry hash).isSome && t.isInMainChain pindexBest hash

structure CBlockLocator where
  vHave : List Uint256

namespace CBlockLocator

/-- `while (pindex)`. Every round steps back, so the length of the chain bounds the rounds. -/
def setLoop (t : BlockTree) : Nat → Option Uint256 → Int → List Uint256 → List Uint256
  | 0, _, _, vHave => vHave
  | _ + 1, none, _, vHave => vHave
  | fuel + 1, some pindex, nStep, vHave =>
    let vHave := vHave ++ [pindex]
    let pindex := t.stepBack nStep.toNat (some pindex)
    let nStep := if vHave.length > 10 then wrapInt (nStep * 2) else nStep
    setLoop t fuel pindex nStep vHave

def set (t : BlockTree) (hashGenesisBlock : Uint256) (pindex : Option Uint256) : CBlockLocator :=
  ⟨setLoop t (t.ancestry pindex).length pindex 1 [] ++ [hashGenesisBlock]⟩

def getDistanceBackLoop (t : BlockTree) (pindexBest : Option Uint256) :
    List Uint256 → Int → Int → Int
  | [], nDistance, _ => nDistance
  | hash :: vHave, nDistance, nStep =>
    if t.finds pindexBest hash then nDistance
    else
      let nDistance := wrapInt (nDistance + nStep)
      let nStep := if nDistance > 10 then wrapInt (nStep * 2) else nStep
      getDistanceBackLoop t pindexBest vHave nDistance nStep

def getDistanceBack (t : BlockTree) (pindexBest : Option Uint256) (locator : CBlockLocator) : Int :=
  getDistanceBackLoop t pindexBest locator.vHave 0 1

def getBlockIndex (t : BlockTree) (pindexBest pindexGenesisBlock : Option Uint256)
    (locator : CBlockLocator) : Option Uint256 :=
  (locator.vHave.find? (t.finds pindexBest)).or pindexGenesisBlock

end CBlockLocator

/-! ### Positions in a chain -/

namespace BlockTree

variable {t : BlockTree} {best a root p : Uint256}

theorem getElem?_ancestry_succ (t : BlockTree) (hash : Uint256) (d : Nat) :
    (t.ancestry (some hash))[d + 1]? = (t.ancestry (some hash))[d]?.bind t.pprevOf := by
  induction d generalizing hash with
  | zero =>
    rw [ancestry_some, List.getElem?_cons_succ, List.getElem?_cons_zero, Option.bind_some]
    cases hprev : t.pprevOf hash with
    | none => rfl
    | some pprev => rw [ancestry_some, List.getElem?_cons_zero]
  | succ d ih =>
    rw [ancestry_some, List.getElem?_cons_succ, List.getElem?_cons_succ]
    cases hprev : t.pprevOf hash with
    | none => rfl
    | some pprev => exact ih pprev

theorem stepBack_getElem? (t : BlockTree) (hash : Uint256) (n d : Nat) :
    t.stepBack n (t.ancestry (some hash))[d]? = (t.ancestry (some hash))[d + n]? := by
  induction n generalizing d with
  | zero => rfl
  | succ n ih => rw [stepBack, ← getElem?_ancestry_succ, ih, Nat.add_right_comm, Nat.add_assoc]

/-- The position of a block in a chain is its distance from the tip. -/
theorem nHeight_getElem? {d : Nat} (ha : (t.ancestry (some p))[d]? = some a) :
    t.nHeight a = t.nHeight p - d := by
  induction d generalizing a with
  | zero =>
    rw [ancestry_some, List.getElem?_cons_zero] at ha
    cases ha
    simp
  | succ d ih =>
    rw [getElem?_ancestry_succ] at ha
    obtain ⟨b, hb, hprev⟩ := Option.bind_eq_some_iff.mp ha
    have hheight := (pprevOf_height hprev).2.2.2
    have hrest := ih hb
    push_cast
    omega

theorem length_ancestry (h : t.Indexed p) : ((t.ancestry (some p)).length : Int) = t.nHeight p + 1 := by
  induction p using t.ancestry_induction with
  | step p ih =>
    rw [ancestry_some, List.length_cons]
    cases hprev : t.pprevOf p with
    | none =>
      obtain ⟨e, he⟩ := h
      rw [nHeight_eq he, t.root he ((pprevOf_eq he).symm.trans hprev)]
      rfl
    | some pprev =>
      have hheight := pprevOf_height hprev
      have hrest := ih pprev hprev hheight.2.1
      push_cast
      omega

theorem nHeight_le_INT_MAX (h : t.Indexed p) : t.nHeight p ≤ INT_MAX := by
  obtain ⟨e, he⟩ := h
  rw [nHeight_eq he]
  exact t.height_le he

/-- What follows a block in a chain is in the chain of the block. -/
theorem mem_ancestry_getElem? {d k : Nat} {b : Uint256} (ha : (t.ancestry (some p))[d]? = some a)
    (hb : (t.ancestry (some p))[d + k]? = some b) : b ∈ t.ancestry (some a) := by
  induction k generalizing b with
  | zero =>
    rw [Nat.add_zero, ha] at hb
    cases hb
    exact t.mem_ancestry_self a
  | succ k ih =>
    rw [← Nat.add_assoc, getElem?_ancestry_succ] at hb
    obtain ⟨c, hc, hprev⟩ := Option.bind_eq_some_iff.mp hb
    exact pprevOf_mem_ancestry (ih hc) hprev

/-- `IsInMainChain` is right where `pnext` links the best chain. -/
theorem finds_iff (hbest : t.Indexed best) (hnext : t.NextLinks (some best)) :
    t.finds (some best) a = true ↔ a ∈ t.ancestry (some best) := by
  simp only [finds, isInMainChain, Bool.and_eq_true, Bool.or_eq_true, Option.isSome_iff_exists,
    decide_eq_true_eq, Option.some.injEq]
  constructor
  · rintro ⟨-, ⟨b, hb⟩ | rfl⟩
    · obtain ⟨hmem, hprev⟩ := (hnext a b).mp hb
      exact pprevOf_mem_ancestry hmem hprev
    · exact t.mem_ancestry_self best
  · intro hmem
    refine ⟨indexed_of_mem hbest hmem, ?_⟩
    by_cases heq : a = best
    · exact .inr heq.symm
    · obtain ⟨b, hb⟩ := exists_next hmem heq
      exact .inl ⟨b, (hnext a b).mpr hb⟩

/-- The highest block that two chains share. -/
structure ForkPoint (t : BlockTree) (p best f : Uint256) : Prop where
  mem : f ∈ t.ancestry (some p)
  mem_best : f ∈ t.ancestry (some best)
  highest : ∀ hash ∈ t.ancestry (some p), hash ∈ t.ancestry (some best) → t.nHeight hash ≤ t.nHeight f

theorem exists_forkPoint (hroot : t.Rooted root) (hbest : t.Indexed best) (hp : t.Indexed p) :
    ∃ f, t.ForkPoint p best f := by
  obtain ⟨f, hfind⟩ := findFork_isSome hroot hbest hp
  obtain ⟨hmem_best, hmem, -, habove⟩ := findFork_spec hfind
  refine ⟨f, hmem, hmem_best, fun hash hhash hon => ?_⟩
  rw [← takeWhile_append_ancestry hmem] at hhash
  rcases List.mem_append.mp hhash with hhash | hhash
  · exact absurd hon (habove hash hhash)
  · exact nHeight_le_of_mem hhash

/-- **Where the chains part.** From the fork point on the blocks of the one chain are on the other. -/
theorem ForkPoint.mem_iff {f : Uint256} (h : t.ForkPoint p best f) {d : Nat}
    (ha : (t.ancestry (some p))[d]? = some a) :
    a ∈ t.ancestry (some best) ↔ (t.nHeight p - t.nHeight f).toNat ≤ d := by
  obtain ⟨k, hk⟩ := List.mem_iff_getElem?.mp h.mem
  have hfork := nHeight_getElem? hk
  have hheight := nHeight_getElem? ha
  constructor
  · intro hmem
    have hle := h.highest a (List.mem_of_getElem? ha) hmem
    omega
  · intro hle
    obtain ⟨m, rfl⟩ := Nat.exists_eq_add_of_le (show k ≤ d by omega)
    exact mem_ancestry_trans (mem_ancestry_getElem? hk ha) h.mem_best

end BlockTree

/-! ### The distances -/

def locatorDistance (i : Nat) : Nat := if i ≤ 10 then i else 9 + 2 ^ (i - 10)

/-- From each distance to the next. -/
def locatorStep (i : Nat) : Nat := if i ≤ 10 then 1 else 2 ^ (i - 10)

theorem locatorDistance_succ (i : Nat) : locatorDistance (i + 1) = locatorDistance i + locatorStep i := by
  rcases Nat.lt_trichotomy i 10 with hlt | rfl | hgt
  · rw [locatorDistance, locatorDistance, locatorStep, if_pos (by omega), if_pos hlt.le, if_pos hlt.le]
  · rfl
  · obtain ⟨k, rfl⟩ := Nat.exists_eq_add_of_lt hgt
    have hsub : 10 + k + 1 + 1 - 10 = 10 + k + 1 - 10 + 1 := by omega
    rw [locatorDistance, locatorDistance, locatorStep, if_neg (by omega), if_neg (by omega),
      if_neg (by omega), hsub, Nat.pow_succ]
    omega

theorem locatorStep_succ (i : Nat) :
    locatorStep (i + 1) = if 10 < i + 1 then 2 * locatorStep i else locatorStep i := by
  rcases Nat.lt_trichotomy i 10 with hlt | rfl | hgt
  · rw [if_neg (by omega), locatorStep, locatorStep, if_pos (by omega), if_pos (by omega)]
  · rfl
  · obtain ⟨k, rfl⟩ := Nat.exists_eq_add_of_lt hgt
    have hsub : 10 + k + 1 + 1 - 10 = 10 + k + 1 - 10 + 1 := by omega
    rw [if_pos (by omega), locatorStep, locatorStep, if_neg (by omega), if_neg (by omega), hsub,
      Nat.pow_succ, Nat.mul_comm]

theorem locatorStep_pos (i : Nat) : 0 < locatorStep i := by
  rw [locatorStep]
  split
  · exact Nat.one_pos
  · exact Nat.two_pow_pos _

theorem locatorDistance_strictMono : StrictMono locatorDistance :=
  strictMono_nat_of_lt_succ fun i => by
    have hpos := locatorStep_pos i
    rw [locatorDistance_succ]
    omega

theorem locatorStep_le (i : Nat) : locatorStep i ≤ max 1 (locatorDistance i) := by
  rw [locatorStep, locatorDistance]
  split <;> omega

theorem locatorDistance_succ_le {i start : Nat} (h : locatorDistance i < start) :
    locatorDistance (i + 1) ≤ 2 * start := by
  have hstep := locatorStep_le i
  rw [locatorDistance_succ]
  omega

/-- `vHave.size() > 10` and `nDistance > 10` are the same condition. -/
theorem ten_lt_locatorDistance (i : Nat) : 10 < locatorDistance i ↔ 10 < i := by
  rw [locatorDistance]
  split
  · exact Iff.rfl
  · next hgt =>
    have hpos := Nat.two_pow_pos (i - 10 - 1)
    have hsub : i - 10 = i - 10 - 1 + 1 := by omega
    rw [hsub, Nat.pow_succ]
    omega

theorem wrapInt_eq {n : Int} (hnonneg : 0 ≤ n) (hle : n ≤ INT_MAX) : wrapInt n = n := by
  simp only [INT_MAX] at hle
  rw [wrapInt, Int.bmod_eq_of_le] <;> omega

theorem wrapInt_cases {n : Int} (hnonneg : 0 ≤ n) (hlt : n ≤ 2 * INT_MAX) :
    wrapInt n = n ∨ wrapInt n < 0 := by
  simp only [INT_MAX] at hlt
  rw [wrapInt, Int.bmod_def]
  split <;> omega

/-- The step after a distance that an `int` holds. -/
theorem wrapInt_locatorStep {i : Nat} (hle : (locatorDistance (i + 1) : Int) ≤ INT_MAX) :
    (if 10 < i + 1 then wrapInt ((locatorStep i : Int) * 2) else (locatorStep i : Int)) =
      locatorStep (i + 1) := by
  have hbound := locatorStep_le (i + 1)
  rw [locatorStep_succ] at hbound ⊢
  split
  · next hgt =>
    rw [if_pos hgt] at hbound
    simp only [INT_MAX] at hle
    rw [wrapInt_eq (by omega) (by simp only [INT_MAX]; omega)]
    push_cast
    omega
  · rfl

/-! ### The loops -/

namespace CBlockLocator

variable {t : BlockTree} {best p root : Uint256}

/-- A position of a chain of the index is an `int`. -/
theorem le_INT_MAX_of_getElem? (hp : t.Indexed p) {d : Nat} {a : Uint256}
    (ha : (t.ancestry (some p))[d]? = some a) : (d : Int) ≤ INT_MAX := by
  have hlt := (List.getElem?_eq_some_iff.mp ha).1
  have hlength := BlockTree.length_ancestry hp
  have hheight := BlockTree.nHeight_le_INT_MAX hp
  omega

theorem setLoop_spec (hp : t.Indexed p) (fuel : Nat) (vHave : List Uint256) (nStep : Int)
    (hstep : ((t.ancestry (some p))[locatorDistance vHave.length]?).isSome →
      nStep = locatorStep vHave.length) :
    setLoop t fuel (t.ancestry (some p))[locatorDistance vHave.length]? nStep vHave =
      vHave ++ samplesFrom locatorDistance (t.ancestry (some p)) vHave.length fuel := by
  induction fuel generalizing vHave nStep with
  | zero => rw [setLoop, samplesFrom_zero, List.append_nil]
  | succ fuel ih =>
    cases ha : (t.ancestry (some p))[locatorDistance vHave.length]? with
    | none =>
      rw [setLoop, samplesFrom_eq_nil locatorDistance_strictMono (List.getElem?_eq_none_iff.mp ha),
        List.append_nil]
    | some a =>
      obtain rfl := hstep (by rw [ha]; rfl)
      rw [samplesFrom_eq_cons ha, setLoop]
      have hlength : (vHave ++ [a]).length = vHave.length + 1 := List.length_append
      rw [← ha, BlockTree.stepBack_getElem?, Int.toNat_natCast, ← locatorDistance_succ, ← hlength]
      rw [ih, hlength, List.append_assoc, List.singleton_append]
      intro hsome
      obtain ⟨b, hb⟩ := Option.isSome_iff_exists.mp hsome
      rw [hlength] at hb ⊢
      exact wrapInt_locatorStep (le_INT_MAX_of_getElem? hp hb)

/-- **What a locator names**: the blocks at the distances `locatorDistance` from the tip, as far as the
chain goes, then the genesis block. -/
theorem set_spec (hp : t.Indexed p) (root : Uint256) :
    (set t root (some p)).vHave = samples locatorDistance (t.ancestry (some p)) ++ [root] := by
  have hloop := setLoop_spec hp (t.ancestry (some p)).length [] 1 fun _ => rfl
  have hfirst : (t.ancestry (some p))[locatorDistance ([] : List Uint256).length]? = some p := by
    rw [BlockTree.ancestry_some]
    rfl
  rw [hfirst] at hloop
  rw [set, hloop]
  rfl

/-- Hashes that are not found add to the distance as `Set` steps back. -/
theorem getDistanceBackLoop_missed {missed : List Uint256} (rest : List Uint256)
    (hmissed : ∀ hash ∈ missed, t.finds (some best) hash = false) {i : Nat}
    (hle : (locatorDistance (i + missed.length) : Int) ≤ INT_MAX) :
    getDistanceBackLoop t (some best) (missed ++ rest) (locatorDistance i) (locatorStep i) =
      getDistanceBackLoop t (some best) rest (locatorDistance (i + missed.length))
        (locatorStep (i + missed.length)) := by
  induction missed generalizing i with
  | nil => rfl
  | cons hash missed ih =>
    have hshift : i + (hash :: missed).length = i + 1 + missed.length := by
      rw [List.length_cons]
      omega
    rw [hshift] at hle ⊢
    have hnext : (locatorDistance (i + 1) : Int) ≤ INT_MAX := by
      have hmono := locatorDistance_strictMono.monotone (Nat.le_add_right (i + 1) missed.length)
      omega
    rw [← ih (fun hash hmem => hmissed hash (List.mem_cons_of_mem _ hmem)) hle, List.cons_append,
      getDistanceBackLoop, if_neg (Bool.eq_false_iff.mp (hmissed hash List.mem_cons_self))]
    dsimp only
    have hadd : wrapInt ((locatorDistance i : Int) + locatorStep i) = locatorDistance (i + 1) := by
      rw [← wrapInt_eq (Int.natCast_nonneg _) hnext, locatorDistance_succ, Int.natCast_add]
    rw [hadd, ← wrapInt_locatorStep hnext]
    have hten : (locatorDistance (i + 1) : Int) > 10 ↔ 10 < i + 1 := by
      rw [← ten_lt_locatorDistance (i + 1)]
      omega
    simp only [hten]

end CBlockLocator

/-! ### A locator and a chain -/

/-- **What a locator is for.** It names the tip, the blocks before it and blocks at growing distances down
to the genesis block. `GetBlockIndex` returns a block of both chains that is not above the fork point, and
not farther below it than the tip is above it. `GetDistanceBack` is the distance of that block. -/
structure LocatorCorrect (t : BlockTree) (hashGenesisBlock best p : Uint256) : Prop where
  vHave : (CBlockLocator.set t hashGenesisBlock (some p)).vHave =
    samples locatorDistance (t.ancestry (some p)) ++ [hashGenesisBlock]
  getBlockIndex : ∃ f g, t.ForkPoint p best f ∧
    (CBlockLocator.set t hashGenesisBlock (some p)).getBlockIndex t (some best)
      (some hashGenesisBlock) = some g ∧
    g ∈ t.ancestry (some p) ∧ g ∈ t.ancestry (some best) ∧ t.nHeight g ≤ t.nHeight f ∧
    t.nHeight f - t.nHeight g ≤ t.nHeight p - t.nHeight f
  getDistanceBack : ∀ g, (CBlockLocator.set t hashGenesisBlock (some p)).getBlockIndex t (some best)
      (some hashGenesisBlock) = some g →
    (CBlockLocator.set t hashGenesisBlock (some p)).getDistanceBack t (some best) =
      t.nHeight p - t.nHeight g

section Locator

variable {t : BlockTree} {root best p : Uint256}

/-- The root ends every chain, at height zero. -/
theorem nHeight_root (hroot : t.Rooted root) (hp : t.Indexed p) :
    root ∈ t.ancestry (some p) ∧ t.nHeight root = 0 := by
  have hlast := BlockTree.getLast?_ancestry hroot hp
  have hlength := BlockTree.length_ancestry hp
  rw [List.getLast?_eq_getElem?] at hlast
  have hheight := BlockTree.nHeight_getElem? hlast
  have hpos := (List.getElem?_eq_some_iff.mp hlast).1
  exact ⟨List.mem_of_getElem? hlast, by omega⟩

theorem CBlockLocator.getBlockIndex_append {missed rest : List Uint256} {a : Uint256}
    {pindexGenesisBlock : Option Uint256} (hmissed : ∀ hash ∈ missed, t.finds (some best) hash = false)
    (ha : t.finds (some best) a = true) :
    getBlockIndex t (some best) pindexGenesisBlock ⟨missed ++ a :: rest⟩ = some a := by
  have hnone : missed.find? (t.finds (some best)) = none :=
    List.find?_eq_none.mpr fun hash hmem => Bool.eq_false_iff.mp (hmissed hash hmem)
  rw [getBlockIndex, List.find?_append, hnone, List.find?_cons_of_pos ha]
  rfl

theorem CBlockLocator.getDistanceBack_append {missed rest : List Uint256} {a : Uint256}
    (hmissed : ∀ hash ∈ missed, t.finds (some best) hash = false)
    (ha : t.finds (some best) a = true) (hle : (locatorDistance missed.length : Int) ≤ INT_MAX) :
    getDistanceBack t (some best) ⟨missed ++ a :: rest⟩ = locatorDistance missed.length := by
  have hloop := getDistanceBackLoop_missed (a :: rest) hmissed (i := 0) (by rwa [Nat.zero_add])
  rw [getDistanceBackLoop, if_pos ha, Nat.zero_add] at hloop
  exact hloop

theorem CBlockLocator.getDistanceBack_root {init : List Uint256} {last : Uint256}
    (hmissed : ∀ hash ∈ init ++ [last], t.finds (some best) hash = false)
    (hroot : t.finds (some best) root = true) (hle : (locatorDistance init.length : Int) ≤ INT_MAX) :
    getDistanceBack t (some best) ⟨init ++ ([last] ++ [root])⟩ =
      wrapInt (locatorDistance (init.length + 1)) := by
  have hloop := getDistanceBackLoop_missed ([last] ++ [root])
    (fun hash hmem => hmissed hash (List.mem_append_left _ hmem)) (i := 0) (by rwa [Nat.zero_add])
  have hlast := hmissed last (List.mem_append_right _ (List.mem_singleton_self last))
  rw [List.singleton_append, getDistanceBackLoop, if_neg (Bool.eq_false_iff.mp hlast),
    getDistanceBackLoop, if_pos hroot, Nat.zero_add] at hloop
  rw [locatorDistance_succ, Int.natCast_add]
  exact hloop

/-- **What the two searches return.** Either the steps of the locator reach the best chain, and the
distance is that of the first block that does, or only the appended genesis block is on it, and counts for
a whole step. -/
theorem locator_cases (hroot : t.Rooted root) (hbest : t.Indexed best) (hp : t.Indexed p)
    (hnext : t.NextLinks (some best)) {f : Uint256} (hf : t.ForkPoint p best f) :
    let locator := CBlockLocator.set t root (some p)
    (∃ i a, (t.ancestry (some p))[locatorDistance i]? = some a ∧ a ∈ t.ancestry (some best) ∧
        locator.getBlockIndex t (some best) (some root) = some a ∧
        locator.getDistanceBack t (some best) = locatorDistance i ∧
        ∀ j < i, locatorDistance j < (t.nHeight p - t.nHeight f).toNat) ∨
      (∀ i a, (t.ancestry (some p))[locatorDistance i]? = some a → a ∉ t.ancestry (some best)) ∧
        locator.getBlockIndex t (some best) (some root) = some root ∧
        ∃ k, locator.getDistanceBack t (some best) = wrapInt (locatorDistance (k + 1)) ∧
          locatorDistance k < (t.nHeight p - t.nHeight f).toNat ∧
          t.nHeight p < locatorDistance (k + 1) := by
  intro locator
  have hlocator : locator = ⟨samples locatorDistance (t.ancestry (some p)) ++ [root]⟩ := by
    rw [← CBlockLocator.set_spec hp root]
  have hfinds : ∀ {hash}, t.finds (some best) hash = true ↔ hash ∈ t.ancestry (some best) :=
    BlockTree.finds_iff hbest hnext
  have hnotFinds : ∀ {hash}, hash ∉ t.ancestry (some best) → t.finds (some best) hash = false :=
    fun hnot => Bool.eq_false_iff.mpr fun h => hnot (hfinds.mp h)
  rcases samples_cases locatorDistance_strictMono (fun ha => hf.mem_iff ha) with
    ⟨missed, a, rest, heq, hmissed, hon, ha, hbefore⟩ | ⟨hmissed, hlength, hbefore⟩
  · rw [hlocator, heq, List.append_assoc, List.cons_append]
    exact .inl ⟨missed.length, a, ha, hon,
      CBlockLocator.getBlockIndex_append (fun b hb => hnotFinds (hmissed b hb)) (hfinds.mpr hon),
      CBlockLocator.getDistanceBack_append (fun b hb => hnotFinds (hmissed b hb)) (hfinds.mpr hon)
        (CBlockLocator.le_INT_MAX_of_getElem? hp ha), hbefore⟩
  · have hrootOn := hfinds.mpr (nHeight_root hroot hbest).1
    have hall := fun b hb => hnotFinds (hmissed b hb)
    have hchain := BlockTree.length_ancestry hp
    refine .inr ⟨fun i a ha hon => ?_, ?_, ?_⟩
    · exact hmissed a ((mem_samples_iff locatorDistance_strictMono).mpr ⟨i, ha⟩) hon
    · rw [hlocator]
      exact CBlockLocator.getBlockIndex_append hall hrootOn
    · rw [hlocator]
      rcases List.eq_nil_or_concat (samples locatorDistance (t.ancestry (some p))) with
        hnil | ⟨init, last, hconcat⟩
      · rw [hnil, List.length_nil] at hlength
        exact absurd hlength (by rw [BlockTree.ancestry_some]; exact Nat.not_succ_le_zero _)
      · rw [List.concat_eq_append] at hconcat
        rw [hconcat, List.length_append, List.length_singleton] at hlength hbefore
        rw [hconcat] at hall ⊢
        rw [List.append_assoc]
        have hbelow := hbefore init.length (Nat.lt_succ_self _)
        have hnonneg := t.nHeight_nonneg f
        have hheight := BlockTree.nHeight_le_INT_MAX hp
        exact ⟨init.length, CBlockLocator.getDistanceBack_root hall hrootOn (by omega), hbelow,
          by omega⟩

/-- `GetBlockIndex` returns a block of both chains, near the fork point. -/
theorem locator_getBlockIndex (hroot : t.Rooted root) (hbest : t.Indexed best) (hp : t.Indexed p)
    (hnext : t.NextLinks (some best)) {f : Uint256} (hf : t.ForkPoint p best f) :
    ∃ g, (CBlockLocator.set t root (some p)).getBlockIndex t (some best) (some root) = some g ∧
      g ∈ t.ancestry (some p) ∧ g ∈ t.ancestry (some best) ∧ t.nHeight g ≤ t.nHeight f ∧
      t.nHeight f - t.nHeight g ≤ t.nHeight p - t.nHeight f := by
  have hbelow := BlockTree.nHeight_le_of_mem hf.mem
  have hnonneg := t.nHeight_nonneg f
  rcases locator_cases hroot hbest hp hnext hf with
    ⟨i, a, ha, hon, hindex, -, hbefore⟩ | ⟨-, hindex, k, -, hk, hpast⟩
  · have hheight := BlockTree.nHeight_getElem? ha
    have hstart := (hf.mem_iff ha).mp hon
    have hover : locatorDistance i ≤ 2 * (t.nHeight p - t.nHeight f).toNat := by
      cases i with
      | zero => exact Nat.zero_le _
      | succ i => exact locatorDistance_succ_le (hbefore i (Nat.lt_succ_self i))
    exact ⟨a, hindex, List.mem_of_getElem? ha, hon, by omega, by omega⟩
  · obtain ⟨hmem, hzero⟩ := nHeight_root hroot hp
    have hover := locatorDistance_succ_le hk
    exact ⟨root, hindex, hmem, (nHeight_root hroot hbest).1, by omega, by omega⟩

/-- **When a locator is right**: some block that its steps reach is on the best chain. The appended
genesis block counts for a whole step, however near it is. -/
theorem blockLocator_iff (hroot : t.Rooted root) (hbest : t.Indexed best) (hp : t.Indexed p)
    (hnext : t.NextLinks (some best)) :
    LocatorCorrect t root best p ↔
      ∃ i a, (t.ancestry (some p))[locatorDistance i]? = some a ∧ a ∈ t.ancestry (some best) := by
  obtain ⟨f, hf⟩ := BlockTree.exists_forkPoint hroot hbest hp
  rcases locator_cases hroot hbest hp hnext hf with
    ⟨i, a, ha, hon, hindex, hdistance, -⟩ | ⟨hnone, hindex, k, hdistance, hk, hpast⟩
  · have hheight := BlockTree.nHeight_getElem? ha
    obtain ⟨g, hg⟩ := locator_getBlockIndex hroot hbest hp hnext hf
    refine iff_of_true ⟨CBlockLocator.set_spec hp root, ⟨f, g, hf, hg⟩, ?_⟩ ⟨i, a, ha, hon⟩
    intro g' hg'
    cases hindex.symm.trans hg'
    rw [hdistance]
    omega
  · have hzero := (nHeight_root hroot hp).2
    have hnonneg := t.nHeight_nonneg f
    have hover := locatorDistance_succ_le hk
    have hheight := BlockTree.nHeight_le_INT_MAX hp
    refine iff_of_false (fun h => ?_) fun ⟨i, a, ha, hon⟩ => hnone i a ha hon
    have hback := h.getDistanceBack root hindex
    rw [hdistance, hzero, Int.sub_zero] at hback
    -- The steps have passed the genesis block; a sum that does not fit is negative.
    rcases wrapInt_cases (Int.natCast_nonneg (locatorDistance (k + 1))) (by omega) with hfits | hneg <;>
      omega

end Locator

/-! ### A line of blocks -/

/-- The block of a height in a line of blocks on the genesis block, none of them connected. -/
def lineEntry (n : Nat) : CBlockIndex :=
  { phashBlock := n
    pprev := if n = 0 then none else some (n - 1)
    pnext := none
    nHeight := n
    nChainTrust := 0
    nStatus := ⟨BLOCK_VALID_TRANSACTIONS, true, false, false, false⟩
    nMoneySupply := 0
    nTime := 0
    nBits := 0 }

@[simp] theorem lineEntry_phashBlock (n : Nat) : (lineEntry n).phashBlock = n := rfl

theorem new_lineEntry {t : BlockTree} {n : Nat} (hn : n < 100)
    (ht : ∀ hash : Nat, t.entry hash = if hash < n then some (lineEntry hash) else none) :
    t.New (lineEntry n) where
  fresh := by rw [lineEntry_phashBlock, ht, if_neg (Nat.lt_irrefl n)]
  parent := by
    intro pprev hprev
    by_cases hzero : n = 0
    · rw [lineEntry, if_pos hzero] at hprev
      cases hprev
    · rw [lineEntry, if_neg hzero] at hprev
      cases hprev
      refine ⟨lineEntry (n - 1), by rw [ht, if_pos (by omega)], ?_⟩
      simp only [lineEntry]
      omega
  root := by
    intro hroot
    by_cases hzero : n = 0
    · rw [hzero]
      rfl
    · rw [lineEntry, if_neg hzero] at hroot
      cases hroot
  height_le := by
    simp only [lineEntry, INT_MAX]
    omega

theorem entry_insert_lineEntry {t : BlockTree} {n : Nat} (hn : n < 100)
    (ht : ∀ hash : Nat, t.entry hash = if hash < n then some (lineEntry hash) else none) (hash : Nat) :
    (t.insert _ (new_lineEntry hn ht)).entry hash = if hash < n + 1 then some (lineEntry hash) else none := by
  rw [BlockTree.entry_insert, ht, lineEntry_phashBlock]
  rcases Nat.lt_trichotomy hash n with hlt | rfl | hgt
  · rw [if_neg (Nat.ne_of_lt hlt), if_pos hlt, if_pos (by omega)]
  · rw [if_pos rfl, if_pos (Nat.lt_succ_self _)]
  · rw [if_neg (Nat.ne_of_gt hgt), if_neg (by omega), if_neg (by omega)]

/-- The blocks below a height. -/
def lineTree : (n : Nat) → n ≤ 100 →
    {t : BlockTree // ∀ hash : Nat, t.entry hash = if hash < n then some (lineEntry hash) else none}
  | 0, _ => ⟨.empty, fun hash => by rw [BlockTree.entry_empty, if_neg (Nat.not_lt_zero _)]⟩
  | n + 1, h =>
    match lineTree n (Nat.le_of_succ_le h) with
    | ⟨t, ht⟩ => ⟨t.insert _ (new_lineEntry h ht), entry_insert_lineEntry h ht⟩

/-- Thirteen blocks in a line, the first of them connected. -/
def sampleLine : BlockTree := (lineTree 13 (by decide)).val

theorem sampleLine_entry (hash : Nat) :
    sampleLine.entry hash = if hash < 13 then some (lineEntry hash) else none :=
  (lineTree 13 (by decide)).property hash

theorem rooted_sampleLine : sampleLine.Rooted 0 := by
  intro hash e he hroot
  rw [sampleLine_entry] at he
  split at he
  · cases he
    by_contra hne
    rw [lineEntry, if_neg hne] at hroot
    cases hroot
  · cases he

theorem indexed_sampleLine {hash : Nat} (hlt : hash < 13) : sampleLine.Indexed hash :=
  ⟨_, (sampleLine_entry hash).trans (if_pos hlt)⟩

theorem nextLinks_sampleLine : sampleLine.NextLinks (some 0) := by
  intro a b
  have hzero : sampleLine.pprevOf 0 = none := by
    rw [BlockTree.pprevOf, sampleLine_entry]
    rfl
  have hpnext : sampleLine.pnextOf a = none := by
    rw [BlockTree.pnextOf, sampleLine_entry]
    split <;> rfl
  rw [hpnext, BlockTree.ancestry_some, hzero, BlockTree.ancestry_none, List.mem_singleton]
  refine iff_of_false (Option.some_ne_none b).symm ?_
  rintro ⟨rfl, hprev⟩
  rw [hzero] at hprev
  cases hprev

theorem blockLocator_iff_sampleLine :
    LocatorCorrect sampleLine 0 0 11 ↔ ∃ i a, (sampleLine.ancestry (some 11))[locatorDistance i]? = some a ∧
      a ∈ sampleLine.ancestry (some 0) :=
  blockLocator_iff rooted_sampleLine (indexed_sampleLine (by decide)) (indexed_sampleLine (by decide))
    nextLinks_sampleLine

/-- Twelve blocks above the fork `GetDistanceBack` says thirteen. -/
theorem getDistanceBack_sampleLine : ¬ LocatorCorrect sampleLine 0 0 12 := by
  intro h
  have hindex : (CBlockLocator.set sampleLine 0 (some 12)).getBlockIndex sampleLine (some 0) (some 0) =
      some 0 := by decide +kernel
  have hback := h.getDistanceBack 0 hindex
  have hheight : sampleLine.nHeight 12 - sampleLine.nHeight 0 = 12 := by decide +kernel
  have hdistance : (CBlockLocator.set sampleLine 0 (some 12)).getDistanceBack sampleLine (some 0) = 13 := by
    decide +kernel
  rw [hheight, hdistance] at hback
  cases hback

end Manna
