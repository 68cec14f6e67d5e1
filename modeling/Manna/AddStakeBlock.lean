import Manna.Coherent
import Manna.StakeModifier

/-!
New blocks in the proof-of-stake build (`main.cpp`: `AddToBlockIndex` with `PPCOINSTAKE`).

The entry of a block is filed in `mapBlockIndex` and `setBlockIndexValid` first; then its entropy
bit, the hash of its proof and its stake modifier are set, and each of these steps may return an
error. The model stops where the source goes on to write the entry.

* `addStakeBlock_spec`: which call fails in a stake step, and what it leaves behind;
* `addStakeBlock_unchanged_iff`: when a refused block leaves no trace.
-/

namespace Manna

def VERSION_STAKE_START : Int := 2

/-- `CBlock::IsProofOfStake` of the mannastake build: the lowest bit of the version. -/
def CBlock.isProofOfStake (block : CBlock) : Bool :=
  if block.nVersion < VERSION_STAKE_START then false else decide (block.nVersion % 2 = 1)

/-- `GetProofOfStake`: the output and the time of the stake. Where a proof-of-stake block has no
second transaction with an input, the source reads outside of the vectors. -/
def CBlock.getProofOfStake (block : CBlock) : COutPoint × Nat :=
  if block.isProofOfStake then
    (((block.vtx[1]?.bind (·.vin[0]?)).map (·.prevout)).getD .null,
      (block.vtx[1]?.map (·.nTime)).getD 0)
  else (.null, 0)

/-- `GetBlockTrust` with `PPCOINSTAKE`. -/
def CBlockIndex.getStakeTrust (pindex : CBlockIndex) (fProofOfStake : Bool) : Nat :=
  let bnTarget := setCompact pindex.nBits
  if bnTarget ≤ 0 then 0
  else if fProofOfStake then 2 ^ 256 / (bnTarget.toNat + 1)
  else
    let bnPoWTrust := bnProofOfWorkLimit / (bnTarget + 1)
    if bnPoWTrust > 1 then bnPoWTrust.toNat else 1

def newStakeEntry (env : Env) (t : BlockTree) (block : CBlock) : CBlockIndex :=
  let pindexNew := newEntry env t block
  { pindexNew with
    nChainTrust := ((pindexNew.pprev.map t.nChainTrust).getD 0 +
      pindexNew.getStakeTrust block.isProofOfStake) % 2 ^ 256 }

def newStakeFields (block : CBlock) : StakeFields where
  fProofOfStake := block.isProofOfStake
  fStakeEntropy := false
  fGeneratedStakeModifier := false
  nStakeModifier := 0
  nStakeModifierChecksum := 0
  prevoutStake := block.getProofOfStake.1
  nStakeTime := block.getProofOfStake.2
  hashProofOfStake := 0

theorem new_newStakeEntry {env : Env} {t : BlockTree} {block : CBlock}
    (hfresh : t.entry (block.getHash env) = none) (hmax : (newEntry env t block).nHeight ≤ INT_MAX) :
    t.New (newStakeEntry env t block) where
  fresh := hfresh
  parent := (new_newEntry hfresh hmax).parent
  root := (new_newEntry hfresh hmax).root
  height_le := hmax

/-! ### The steps -/

/-- The globals that `AddToBlockIndex` reads and writes in this build. -/
structure StakeNode where
  node : Node
  fields : Uint256 → StakeFields
  mapProofOfStake : Uint256 → Option Uint256
  setStakeSeen : Finset (COutPoint × Nat)

def StakeNode.index (s : StakeNode) : StakeIndex := ⟨s.node.mapBlockIndex, s.fields⟩

/-- Where `AddToBlockIndex` stops before it writes the entry. -/
inductive AddError where
  | alreadyExists
  /-- The height of the entry exceeds `INT_MAX`. -/
  | overflow
  | setStakeEntropyBit
  | hashProofOfStakeNotFound
  | computeNextStakeModifier (e : ModifierError)
  /-- The assertion of `GetStakeModifierChecksum`. -/
  | assertion
  | stakeModifierCheckpoint
deriving DecidableEq, Repr

/-- The returns of the stake steps. -/
def AddError.isStakeStep : AddError → Bool
  | .setStakeEntropyBit | .hashProofOfStakeNotFound | .computeNextStakeModifier _
  | .stakeModifierCheckpoint => true
  | _ => false

def StakeFields.setStakeEntropyBit (fields : StakeFields) (nEntropyBit : Nat) :
    Option StakeFields :=
  if nEntropyBit > 1 then none
  else some { fields with fStakeEntropy := fields.fStakeEntropy || decide (nEntropyBit ≠ 0) }

def getStakeEntropyBit (hash : Uint256) : Nat := hash % 2 ^ 64 % 2

def checkStakeModifierCheckpoints (stakeEnv : StakeEnv) (_nHeight : Int)
    (_nStakeModifierChecksum : Nat) : Bool :=
  if stakeEnv.fTestNet then true else true

def StakeFields.setStakeModifier (fields : StakeFields) (nModifier : Nat)
    (fGeneratedStakeModifier : Bool) : StakeFields :=
  { fields with
    nStakeModifier := nModifier
    fGeneratedStakeModifier := fields.fGeneratedStakeModifier || fGeneratedStakeModifier }

/-- `GetStakeModifierChecksum`, the fields of the predecessor first; the 32 highest bits. -/
def getStakeModifierChecksum (stakeEnv : StakeEnv) (pprev : Option StakeFields)
    (fields : StakeFields) : Nat :=
  stakeEnv.hashChecksum (pprev.map (·.nStakeModifierChecksum)) fields / 2 ^ 224

/-- The stake steps of `AddToBlockIndex` on the fields of the entry, which is filed in `x`; the
fields are returned as far as they are set. -/
def stakeSteps (env : Env) (stakeEnv : StakeEnv) (x : StakeIndex)
    (mapProofOfStake : Uint256 → Option Uint256) (pindexNew : CBlockIndex) (fields : StakeFields) :
    Option AddError × StakeFields :=
  match fields.setStakeEntropyBit (getStakeEntropyBit pindexNew.phashBlock) with
  | none => (some .setStakeEntropyBit, fields)
  | some fields =>
    match if fields.fProofOfStake then mapProofOfStake pindexNew.phashBlock
      else some fields.hashProofOfStake with
    | none => (some .hashProofOfStakeNotFound, fields)
    | some hashProofOfStake =>
      let fields := { fields with hashProofOfStake := hashProofOfStake }
      match computeNextStakeModifier stakeEnv x pindexNew with
      | .error e => (some (.computeNextStakeModifier e), fields)
      | .ok (nStakeModifier, fGeneratedStakeModifier) =>
        let fields := fields.setStakeModifier nStakeModifier fGeneratedStakeModifier
        if pindexNew.pprev = none ∧ pindexNew.phashBlock ≠ env.hashGenesisBlock then
          (some .assertion, fields)
        else
          let fields := { fields with
            nStakeModifierChecksum :=
              getStakeModifierChecksum stakeEnv (pindexNew.pprev.map x.fields) fields }
          if !checkStakeModifierCheckpoints stakeEnv pindexNew.nHeight
              fields.nStakeModifierChecksum then
            (some .stakeModifierCheckpoint, fields)
          else (none, fields)

def StakeNode.publish (env : Env) (block : CBlock) (s : StakeNode)
    (h : s.node.mapBlockIndex.New (newStakeEntry env s.node.mapBlockIndex block)) : StakeNode :=
  { s with
    node := { s.node with
      mapBlockIndex := s.node.mapBlockIndex.insert _ h
      setBlockIndexValid := insert (block.getHash env) s.node.setBlockIndexValid }
    fields := Function.update s.fields (block.getHash env) (newStakeFields block) }

/-- `AddToBlockIndex` up to where it writes the entry: what it returns if it stops before, and
the node. -/
def addStakeBlock (env : Env) (stakeEnv : StakeEnv) (block : CBlock) (s : StakeNode) :
    Option AddError × StakeNode :=
  if hfresh : s.node.mapBlockIndex.entry (block.getHash env) = none then
    if hmax : (newEntry env s.node.mapBlockIndex block).nHeight ≤ INT_MAX then
      let pindexNew := newStakeEntry env s.node.mapBlockIndex block
      let s := s.publish env block (new_newStakeEntry hfresh hmax)
      let (stopped, fields) :=
        stakeSteps env stakeEnv s.index s.mapProofOfStake pindexNew (newStakeFields block)
      let s := { s with fields := Function.update s.fields (block.getHash env) fields }
      if stopped.isNone ∧ block.isProofOfStake then
        (none, { s with setStakeSeen := insert block.getProofOfStake s.setStakeSeen })
      else (stopped, s)
    else (some .overflow, s)
  else (some .alreadyExists, s)

/-! ### Which steps fail -/

theorem setStakeEntropyBit_eq (fields : StakeFields) (hash : Uint256) :
    ∃ fStakeEntropy, fields.setStakeEntropyBit (getStakeEntropyBit hash) =
      some { fields with fStakeEntropy := fStakeEntropy } := by
  have hbit : ¬ getStakeEntropyBit hash > 1 := by
    unfold getStakeEntropyBit
    omega
  exact ⟨_, if_neg hbit⟩

theorem checkStakeModifierCheckpoints_eq (stakeEnv : StakeEnv) (nHeight : Int) (checksum : Nat) :
    checkStakeModifierCheckpoints stakeEnv nHeight checksum = true := ite_self _

namespace StakeIndex

theorem getLastStakeModifier_eq_none {x : StakeIndex} {l : List Uint256} :
    x.getLastStakeModifier l = none ↔ ∀ a ∈ l, (x.fields a).fGeneratedStakeModifier = false := by
  induction l with
  | nil => simp [getLastStakeModifier]
  | cons a l ih =>
    rw [getLastStakeModifier, List.forall_mem_cons]
    by_cases hgenerated : (x.fields a).fGeneratedStakeModifier = true
    · simp [hgenerated]
    · rw [if_neg hgenerated, ih]
      simp [hgenerated]

end StakeIndex

/-- **When `ComputeNextStakeModifier` fails**: no ancestor has a modifier. -/
theorem computeNextStakeModifier_isError_iff (stakeEnv : StakeEnv) {x : StakeIndex}
    {e : CBlockIndex} (hprev : ∀ pindexPrev, e.pprev = some pindexPrev → x.tree.Indexed pindexPrev) :
    (∃ error, computeNextStakeModifier stakeEnv x e = .error error) ↔ ∃ pprev, e.pprev = some pprev ∧
        ∀ a ∈ x.tree.ancestry (some pprev), (x.fields a).fGeneratedStakeModifier = false := by
  constructor
  · rintro ⟨error, herror⟩
    have hround : computeNextStakeModifier stakeEnv x e ≠ .error .unableToSelectBlock :=
      computeNextStakeModifier_ne_unableToSelectBlock hprev
    rw [herror] at hround
    rw [computeNextStakeModifier] at herror
    split at herror
    · cases herror
    · rename_i pprev hpprev
      split at herror
      · rename_i hlast
        exact ⟨pprev, hpprev, StakeIndex.getLastStakeModifier_eq_none.mp hlast⟩
      · split_ifs at herror
        split at herror
        · cases herror
          exact absurd rfl hround
        · cases herror
  · rintro ⟨pprev, hpprev, hnone⟩
    refine ⟨.unableToGetLastModifier, ?_⟩
    simp only [computeNextStakeModifier, hpprev,
      StakeIndex.getLastStakeModifier_eq_none.mpr hnone]

/-- **Which stake step fails.** -/
theorem stakeSteps_isStakeStep_iff {env : Env} {stakeEnv : StakeEnv} {x : StakeIndex}
    {mapProofOfStake : Uint256 → Option Uint256} {pindexNew : CBlockIndex} {fields : StakeFields}
    (hprev : ∀ pprev, pindexNew.pprev = some pprev → x.tree.Indexed pprev) :
    (∃ e, (stakeSteps env stakeEnv x mapProofOfStake pindexNew fields).1 = some e ∧ e.isStakeStep = true) ↔
      (fields.fProofOfStake = true ∧ mapProofOfStake pindexNew.phashBlock = none) ∨
      ∃ pprev, pindexNew.pprev = some pprev ∧
        ∀ a ∈ x.tree.ancestry (some pprev), (x.fields a).fGeneratedStakeModifier = false := by
  obtain ⟨fStakeEntropy, hentropy⟩ := setStakeEntropyBit_eq fields pindexNew.phashBlock
  rw [← computeNextStakeModifier_isError_iff stakeEnv hprev, stakeSteps, hentropy]
  simp only [checkStakeModifierCheckpoints_eq]
  split
  · rename_i hmissing
    have hstake : fields.fProofOfStake = true := by
      by_contra hwork
      rw [if_neg hwork] at hmissing
      cases hmissing
    rw [if_pos hstake] at hmissing
    exact iff_of_true ⟨_, rfl, rfl⟩ (.inl ⟨hstake, hmissing⟩)
  · rename_i hashProofOfStake hfound
    have hknown : ¬ (fields.fProofOfStake = true ∧
        mapProofOfStake pindexNew.phashBlock = none) := by
      rintro ⟨hstake, hmissing⟩
      rw [if_pos hstake, hmissing] at hfound
      cases hfound
    split
    · rename_i e herror
      exact iff_of_true ⟨_, rfl, rfl⟩ (.inr ⟨e, herror⟩)
    · rename_i nStakeModifier fGeneratedStakeModifier hok
      have hno : ¬ ∃ e, computeNextStakeModifier stakeEnv x pindexNew = .error e := by
        rintro ⟨e, herror⟩
        rw [hok] at herror
        cases herror
      refine iff_of_false ?_ (not_or.mpr ⟨hknown, hno⟩)
      rintro ⟨e, he, hstep⟩
      split at he
      · cases he
        cases hstep
      · simp at he

/-! ### A refused block -/

/-- What the stake steps need: the proof of a proof-of-stake block is known, and if its
predecessor is, one of its ancestors has generated a modifier. -/
def StakeNode.StakeKnown (env : Env) (block : CBlock) (s : StakeNode) : Prop :=
  (block.isProofOfStake = true → s.mapProofOfStake (block.getHash env) ≠ none) ∧
    (s.node.mapBlockIndex.Indexed block.hashPrevBlock →
      ∃ a ∈ s.node.mapBlockIndex.ancestry (some block.hashPrevBlock),
        (s.fields a).fGeneratedStakeModifier = true)

section Refused

variable {env : Env} {stakeEnv : StakeEnv} {block : CBlock} {s : StakeNode}

theorem newStakeEntry_pprev {t : BlockTree} {pprev : Uint256} :
    (newStakeEntry env t block).pprev = some pprev ↔
      t.Indexed block.hashPrevBlock ∧ pprev = block.hashPrevBlock := by
  simp only [newStakeEntry, newEntry, Option.map_eq_some_iff, exists_and_right, BlockTree.Indexed,
    @eq_comm _ pprev]

theorem StakeNode.sameAncestors_publish {pprev : Uint256}
    (h : s.node.mapBlockIndex.New (newStakeEntry env s.node.mapBlockIndex block))
    (hindexed : s.node.mapBlockIndex.Indexed pprev) :
    s.index.SameAncestors (s.publish env block h).index pprev := by
  intro a ha
  obtain ⟨e, he⟩ := BlockTree.indexed_of_mem hindexed ha
  refine ⟨⟨e, e, he, BlockTree.entry_insert_of_entry h he, rfl⟩, ?_⟩
  apply Function.update_of_ne
  rintro rfl
  have hfresh := h.fresh
  rw [show (newStakeEntry env s.node.mapBlockIndex block).phashBlock = block.getHash env from rfl,
    he] at hfresh
  cases hfresh

theorem StakeNode.stakeSteps_publish_iff (stakeEnv : StakeEnv)
    (h : s.node.mapBlockIndex.New (newStakeEntry env s.node.mapBlockIndex block)) :
    (∃ e, (stakeSteps env stakeEnv (s.publish env block h).index s.mapProofOfStake
          (newStakeEntry env s.node.mapBlockIndex block) (newStakeFields block)).1 = some e ∧
        e.isStakeStep = true) ↔ ¬ s.StakeKnown env block := by
  rw [stakeSteps_isStakeStep_iff, StakeNode.StakeKnown, not_and_or]
  · refine or_congr ?_ ?_
    · simp only [newStakeFields, Classical.not_imp, not_not]
      exact Iff.rfl
    · constructor
      · rintro ⟨pprev, hpprev, hnone⟩ hmodifier
        obtain ⟨hindexed, rfl⟩ := newStakeEntry_pprev.mp hpprev
        have hsame := s.sameAncestors_publish h hindexed
        obtain ⟨a, ha, hgenerated⟩ := hmodifier hindexed
        have hfalse := hnone a (hsame.ancestry_eq ▸ ha)
        rw [(hsame a ha).2] at hfalse
        exact absurd (hgenerated.symm.trans hfalse) (by decide)
      · intro hnone
        rw [Classical.not_imp] at hnone
        obtain ⟨hindexed, hnone⟩ := hnone
        have hsame := s.sameAncestors_publish h hindexed
        refine ⟨_, newStakeEntry_pprev.mpr ⟨hindexed, rfl⟩, fun a ha => ?_⟩
        have ha' : a ∈ s.index.tree.ancestry (some block.hashPrevBlock) := hsame.ancestry_eq ▸ ha
        rw [(hsame a ha').2]
        by_contra hgenerated
        exact hnone ⟨a, ha', Bool.eq_true_of_not_eq_false hgenerated⟩
  · intro pprev hpprev
    obtain ⟨p, hp, -⟩ := h.parent hpprev
    exact ⟨p, BlockTree.entry_insert_of_entry h hp⟩

/-- **What a call that fails in a stake step leaves behind**: the entry is in both containers. -/
theorem addStakeBlock_spec (stakeEnv : StakeEnv)
    (hfresh : s.node.mapBlockIndex.entry (block.getHash env) = none)
    (hmax : (newEntry env s.node.mapBlockIndex block).nHeight ≤ INT_MAX) :
    ((∃ e, (addStakeBlock env stakeEnv block s).1 = some e ∧ e.isStakeStep = true) ↔
        ¬ s.StakeKnown env block) ∧ (addStakeBlock env stakeEnv block s).2.node =
        (s.publish env block (new_newStakeEntry hfresh hmax)).node := by
  rw [← StakeNode.stakeSteps_publish_iff stakeEnv (new_newStakeEntry hfresh hmax),
    addStakeBlock, dif_pos hfresh, dif_pos hmax]
  dsimp only
  split
  · rename_i hgoes
    have hnone := Option.isNone_iff_eq_none.mp hgoes.1
    refine ⟨iff_of_false ?_ ?_, rfl⟩
    · rintro ⟨e, he, -⟩
      cases he
    · rintro ⟨e, he, -⟩
      rw [show (stakeSteps _ _ _ s.mapProofOfStake _ _).1 = none from hnone] at he
      cases he
  · exact ⟨Iff.rfl, rfl⟩

end Refused

/-- **A refused block leaves no trace** exactly when no stake step refuses it: the block is
indexed already, or too high, or what the steps need is known. -/
theorem addStakeBlock_unchanged_iff (env : Env) (stakeEnv : StakeEnv) (block : CBlock)
    (s : StakeNode) :
    (∀ e s', addStakeBlock env stakeEnv block s = (some e, s') → e.isStakeStep = true →
      s'.node.mapBlockIndex = s.node.mapBlockIndex ∧
        s'.node.setBlockIndexValid = s.node.setBlockIndexValid ∧
        s'.setStakeSeen = s.setStakeSeen ∧ block.getHash env ∉ s'.node.setBlockIndexValid) ↔
      s.node.mapBlockIndex.entry (block.getHash env) ≠ none ∨
        INT_MAX < (newEntry env s.node.mapBlockIndex block).nHeight ∨ s.StakeKnown env block := by
  by_cases hfresh : s.node.mapBlockIndex.entry (block.getHash env) = none
  · by_cases hmax : (newEntry env s.node.mapBlockIndex block).nHeight ≤ INT_MAX
    · obtain ⟨hfails, hnode⟩ := addStakeBlock_spec stakeEnv hfresh hmax
      have hpublished : block.getHash env ∈
          (addStakeBlock env stakeEnv block s).2.node.setBlockIndexValid := by
        rw [hnode]
        exact Finset.mem_insert_self ..
      constructor
      · intro hunchanged
        refine .inr (.inr ?_)
        by_contra hunknown
        obtain ⟨e, he, hstep⟩ := hfails.mpr hunknown
        exact (hunchanged e _ (Prod.ext he rfl) hstep).2.2.2 hpublished
      · rintro (hknown | hhigh | hknown) e s' hcall hstep
        · exact absurd hfresh hknown
        · omega
        · exact absurd hknown (hfails.mp ⟨e, by rw [hcall], hstep⟩)
    · refine iff_of_true (fun e s' hcall hstep => ?_) (.inr (.inl (by omega)))
      rw [addStakeBlock, dif_pos hfresh, dif_neg hmax] at hcall
      cases hcall
      cases hstep
  · refine iff_of_true (fun e s' hcall hstep => ?_) (.inl hfresh)
    rw [addStakeBlock, dif_neg hfresh] at hcall
    cases hcall
    cases hstep

/-- A node that knows the genesis block, which has generated a modifier, and no proofs. -/
def sampleStakeNode : StakeNode where
  node := sampleLoaded
  fields _ := sampleStakeFields true 0
  mapProofOfStake _ := none
  setStakeSeen := ∅

def sampleStakeBlock : CBlock :=
  ⟨⟨3, 1000, 1, 500, 0x1d0fffff, 1001⟩,
    [sampleCoinBase 1 500 0, sampleTx 2 500 [sampleIn 77 0] [0, 1000000]], []⟩

/-- **A refused block is the next candidate** for the best chain: the hash of its proof is not in
the map, the call returns an error, and `setBlockIndexValid` ends with the block. -/
theorem not_forall_addStakeBlock_unchanged :
    ¬ ∀ (env : Env) (stakeEnv : StakeEnv) (block : CBlock) (s : StakeNode) (e : AddError)
      (s' : StakeNode), addStakeBlock env stakeEnv block s = (some e, s') → e.isStakeStep = true →
      s'.node.mapBlockIndex = s.node.mapBlockIndex ∧
        s'.node.setBlockIndexValid = s.node.setBlockIndexValid ∧
        s'.setStakeSeen = s.setStakeSeen ∧ s'.node.rbegin ≠ some (block.getHash env) := by
  intro h
  have hfails : (addStakeBlock sampleEnv sampleStakeEnv sampleStakeBlock sampleStakeNode).1 =
      some .hashProofOfStakeNotFound := by decide +kernel
  have hcandidate : (addStakeBlock sampleEnv sampleStakeEnv sampleStakeBlock
      sampleStakeNode).2.node.rbegin = some 1001 := by decide +kernel
  exact (h sampleEnv sampleStakeEnv sampleStakeBlock sampleStakeNode _ _ (Prod.ext hfails rfl)
    rfl).2.2.2 hcandidate

end Manna
