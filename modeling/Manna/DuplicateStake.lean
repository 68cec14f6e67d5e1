import Manna.AddStakeBlock
import Manna.OrphanBlocks
import Manna.Solver
import Manna.ValidSet

/-!
Blocks that reuse the stake of the best block (`main.cpp`: `ProcessBlock` with `PPCOINSTAKE`,
`CBlock::CheckBlockSignature`, `InvalidBlockFound`).

A received block whose stake is that of the best block cancels the best block, if it is "correctly
signed". This is decided before any other check of the block, and the key that must have signed is
read from the received block itself.

* `stakeBranch_eq_cancel`: when the best block is cancelled;
* `cancel_authorised_iff`: when only the owner of the stake can do it.
-/

namespace Manna

/-- What the check of a signature calls: `CPubKey(vchPubKey).Verify(hash, vchSig)`, `Hash160`, and
the setting `-ignoreblocksig` (with `-debug`). -/
structure BlockSigEnv where
  verify : Valtype → Uint256 → List UInt8 → Bool
  hash160 : Valtype → Valtype
  fIgnoreBlockSig : Bool

/-- `IsProofOfStake()? vtx[1].vout[1] : vtx[0].vout[0]`, where there is one. -/
def CBlock.signingOutput (block : CBlock) : Option CTxOut :=
  if block.isProofOfStake then block.vtx[1]?.bind (·.vout[1]?) else block.vtx[0]?.bind (·.vout[0]?)

/-- `CBlock::CheckBlockSignature`; `none` where it reads outside of its vectors. -/
def checkBlockSignature (env : Env) (sigEnv : BlockSigEnv) (block : CBlock) : Option Bool :=
  if block.getHash env = env.hashGenesisBlock then some block.vchBlockSig.isEmpty
  else
    match block.signingOutput with
    | none => none
    | some txout =>
      if sigEnv.fIgnoreBlockSig then some true
      else
        match solver txout.scriptPubKey with
        | (true, .pubkey, vchPubKey :: _) =>
          some (if block.vchBlockSig.isEmpty then false
            else sigEnv.verify vchPubKey (block.getHash env) block.vchBlockSig)
        | _ => some false

/-! ### The branch of `ProcessBlock` -/

/-- What `ProcessBlock` decides before it checks the block. -/
inductive StakeBranch where
  /-- `already have block`. -/
  | alreadyHave
  /-- `already have block (orphan)`. -/
  | alreadyHaveOrphan
  /-- A read outside of a vector, or through a null pointer. -/
  | undefined
  /-- `Invalid signature in duplicate block`. -/
  | invalidSignature
  /-- The best block is cancelled. -/
  | cancel (pindexBest : Uint256)
  /-- `duplicate proof-of-stake`. -/
  | duplicate
  /-- The block is checked. -/
  | check
deriving DecidableEq, Repr

/-- The input of the coinstake: `vtx[1].vin[0]`. -/
def CBlock.stakeInput (block : CBlock) : Option CTxIn := block.vtx[1]?.bind (·.vin[0]?)

/-- The decision. `fWanted` is `WantedByPendingSyncCheckpoint(hash)`. -/
def stakeBranch (env : Env) (sigEnv : BlockSigEnv) (fWanted : Bool) (orphans : OrphanBlocks)
    (block : CBlock) (s : StakeNode) : StakeBranch :=
  let hash := block.getHash env
  if (s.node.mapBlockIndex.entry hash).isSome then .alreadyHave
  else if (orphans.mapOrphanBlocks.lookup hash).isSome then .alreadyHaveOrphan
  else if !block.isProofOfStake then .check
  else
    match block.stakeInput, s.node.pindexBest with
    | some txin, some pindexBest =>
      if (s.fields pindexBest).fProofOfStake ∧
          txin.prevout = (s.fields pindexBest).prevoutStake then
        match checkBlockSignature env sigEnv block with
        | none => .undefined
        | some false => .invalidSignature
        | some true => .cancel pindexBest
      else if block.getProofOfStake ∈ s.setStakeSeen ∧ orphans.waiting hash = [] ∧ !fWanted then
        .duplicate
      else .check
    | _, _ => .undefined

section Cancel

variable {env : Env} {sigEnv : BlockSigEnv} {fWanted : Bool} {orphans : OrphanBlocks}
  {block : CBlock} {s : StakeNode} {pindexBest : Uint256}

def IsNew (env : Env) (orphans : OrphanBlocks) (s : StakeNode) (header : CBlockHeader) : Prop :=
  s.node.mapBlockIndex.entry (env.blockHash header) = none ∧
    orphans.mapOrphanBlocks.lookup (env.blockHash header) = none

/-- **When the best block is cancelled**: the block is new, names the stake of the best block, and
its signature is that of its own key. -/
theorem stakeBranch_eq_cancel : stakeBranch env sigEnv fWanted orphans block s = .cancel pindexBest ↔
      IsNew env orphans s block.toCBlockHeader ∧ block.isProofOfStake = true ∧
        s.node.pindexBest = some pindexBest ∧ (s.fields pindexBest).fProofOfStake = true ∧
        (∃ txin, block.stakeInput = some txin ∧ txin.prevout = (s.fields pindexBest).prevoutStake) ∧
        checkBlockSignature env sigEnv block = some true := by
  unfold stakeBranch IsNew
  rw [show env.blockHash block.toCBlockHeader = block.getHash env from rfl]
  dsimp only
  cases hentry : s.node.mapBlockIndex.entry (block.getHash env) with
  | some e => simp
  | none =>
    cases horphan : orphans.mapOrphanBlocks.lookup (block.getHash env) with
    | some orphan => simp
    | none =>
      cases hstake : block.isProofOfStake with
      | false => simp
      | true =>
        cases hinput : block.stakeInput with
        | none => simp
        | some txin =>
          cases hbest : s.node.pindexBest with
          | none => simp
          | some best =>
            simp only [Option.isSome_none, Bool.false_eq_true, if_false, Bool.not_true,
              Option.some.injEq, true_and, and_self, exists_eq_left']
            by_cases hreuse : (s.fields best).fProofOfStake = true ∧
                txin.prevout = (s.fields best).prevoutStake
            · rw [if_pos hreuse]
              constructor
              · intro hcancel
                split at hcancel
                · cases hcancel
                · cases hcancel
                · next hsig =>
                  cases hcancel
                  exact ⟨rfl, hreuse.1, hreuse.2, hsig⟩
              · rintro ⟨rfl, -, -, hsig⟩
                rw [hsig]
            · rw [if_neg hreuse]
              refine iff_of_false ?_ ?_
              · split <;> exact fun hcancel => nomatch hcancel
              · rintro ⟨rfl, hproof, hprevout, -⟩
                exact hreuse ⟨hproof, hprevout⟩

end Cancel

/-! ### Who can cancel it -/

section Authorised

variable {env : Env} {sigEnv : BlockSigEnv} {block : CBlock}

/-- The keys that control an output of the chain: those it pays to, or whose hash it pays to. These
are the outputs that `CreateCoinStake` supports. -/
def Controls (sigEnv : BlockSigEnv) (outputs : COutPoint → Option CTxOut) (prevout : COutPoint)
    (vchPubKey : Valtype) : Prop :=
  ∃ txout, outputs prevout = some txout ∧
    (solver txout.scriptPubKey = (true, .pubkey, [vchPubKey]) ∨
      solver txout.scriptPubKey = (true, .pubkeyhash, [sigEnv.hash160 vchPubKey]))

/-- A key that controls the output made the signature. -/
def Authorised (sigEnv : BlockSigEnv) (outputs : COutPoint → Option CTxOut) (prevout : COutPoint)
    (hash : Uint256) (vchSig : List UInt8) : Prop :=
  ∃ vchPubKey, Controls sigEnv outputs prevout vchPubKey ∧
    sigEnv.verify vchPubKey hash vchSig = true

/-- Some key made the signature, whoever has it; none is needed under `-ignoreblocksig`, and the
genesis block has none. -/
def SomeKeySigned (env : Env) (sigEnv : BlockSigEnv) (hash : Uint256) (vchSig : List UInt8) :
    Prop :=
  if hash = env.hashGenesisBlock then vchSig = []
  else sigEnv.fIgnoreBlockSig = true ∨
    vchSig ≠ [] ∧ ∃ vchPubKey : Valtype, 33 ≤ vchPubKey.length ∧ vchPubKey.length ≤ 120 ∧
      sigEnv.verify vchPubKey hash vchSig = true

/-- A proof-of-stake block with a given header, stake and signature, that pays to a key. -/
def paidTo (header : CBlockHeader) (prevout : COutPoint) (vchPubKey : Valtype)
    (vchBlockSig : List UInt8) : CBlock :=
  ⟨header, [⟨1, header.nTime, [], [], 0⟩,
    ⟨1, header.nTime, [⟨prevout, [], UINT_MAX⟩], [⟨0, []⟩, ⟨0, payToPubKey vchPubKey⟩], 0⟩],
    vchBlockSig⟩

theorem CBlock.isProofOfStake_iff :
    block.isProofOfStake = true ↔ VERSION_STAKE_START ≤ block.nVersion ∧ block.nVersion % 2 = 1 := by
  unfold CBlock.isProofOfStake
  split
  · refine iff_of_false Bool.false_ne_true ?_
    omega
  · rw [decide_eq_true_eq]
    exact (and_iff_right (by omega)).symm

theorem SomeKeySigned.of_check (h : checkBlockSignature env sigEnv block = some true) :
    SomeKeySigned env sigEnv (block.getHash env) block.vchBlockSig := by
  unfold checkBlockSignature at h
  unfold SomeKeySigned
  split at h
  · next hgenesis =>
    rw [if_pos hgenesis]
    exact List.isEmpty_iff.mp (Option.some.inj h)
  · next hgenesis =>
    rw [if_neg hgenesis]
    split at h
    · cases h
    · split at h
      · next hignore => exact .inl hignore
      · refine .inr ?_
        split at h
        · next vchPubKey vSolutions hsolver =>
          obtain ⟨key, hkey, hlower, hupper⟩ := solver_pubkey hsolver
          obtain ⟨rfl, rfl⟩ := List.cons.inj hkey
          split at h
          · cases h
          · next hsig =>
            exact ⟨fun hnil => hsig (List.isEmpty_iff.mpr hnil), _, hlower, hupper,
              Option.some.inj h⟩
        · cases h

/-- **The block may name any key**: with a signature that some key made, a block on any stake
passes the check. -/
theorem SomeKeySigned.check {header : CBlockHeader} {vchSig : List UInt8}
    (hstake : VERSION_STAKE_START ≤ header.nVersion ∧ header.nVersion % 2 = 1)
    (h : SomeKeySigned env sigEnv (env.blockHash header) vchSig) (prevout : COutPoint) :
    ∃ vchPubKey, checkBlockSignature env sigEnv (paidTo header prevout vchPubKey vchSig) = some true := by
  have houtput : ∀ vchPubKey, (paidTo header prevout vchPubKey vchSig).signingOutput =
      some ⟨0, payToPubKey vchPubKey⟩ := by
    intro vchPubKey
    exact if_pos (CBlock.isProofOfStake_iff.mpr hstake)
  have hhash : ∀ vchPubKey, (paidTo header prevout vchPubKey vchSig).getHash env =
      env.blockHash header := fun _ => rfl
  unfold SomeKeySigned at h
  split at h
  · next hgenesis =>
    refine ⟨[], ?_⟩
    rw [checkBlockSignature, hhash, if_pos hgenesis]
    exact congrArg some (List.isEmpty_iff.mpr h)
  · next hgenesis =>
    rcases h with hignore | ⟨hsig, vchPubKey, hlower, hupper, hverify⟩
    · refine ⟨[], ?_⟩
      rw [checkBlockSignature, hhash, if_neg hgenesis, houtput]
      exact if_pos hignore
    · refine ⟨vchPubKey, ?_⟩
      rw [checkBlockSignature, hhash, if_neg hgenesis, houtput]
      dsimp only
      split
      · rfl
      · have hempty : (paidTo header prevout vchPubKey vchSig).vchBlockSig.isEmpty = false :=
          Bool.eq_false_iff.mpr fun hnil => hsig (List.isEmpty_iff.mp hnil)
        rw [solver_payToPubKey hlower hupper]
        dsimp only
        rw [hempty, if_neg Bool.false_ne_true]
        exact congrArg some hverify

end Authorised

/-- **Who can cancel the best block**: only a party with a key that controls its stake, exactly
when the best block is no proof-of-stake block, or no other key can sign any block that is new. -/
theorem cancel_authorised_iff (env : Env) (sigEnv : BlockSigEnv)
    (outputs : COutPoint → Option CTxOut) (fWanted : Bool) (orphans : OrphanBlocks)
    (s : StakeNode) :
    (∀ block pindexBest, stakeBranch env sigEnv fWanted orphans block s = .cancel pindexBest →
        Authorised sigEnv outputs (s.fields pindexBest).prevoutStake (block.getHash env)
          block.vchBlockSig) ↔
      ∀ pindexBest, s.node.pindexBest = some pindexBest →
        (s.fields pindexBest).fProofOfStake = true →
        ∀ header : CBlockHeader, VERSION_STAKE_START ≤ header.nVersion ∧ header.nVersion % 2 = 1 →
          IsNew env orphans s header →
          ∀ vchSig, SomeKeySigned env sigEnv (env.blockHash header) vchSig →
            Authorised sigEnv outputs (s.fields pindexBest).prevoutStake (env.blockHash header)
              vchSig := by
  constructor
  · intro hauthorised pindexBest hbest hproof header hstake hnew vchSig hsigned
    obtain ⟨vchPubKey, hcheck⟩ := hsigned.check hstake (s.fields pindexBest).prevoutStake
    refine hauthorised (paidTo header (s.fields pindexBest).prevoutStake vchPubKey vchSig)
      pindexBest (stakeBranch_eq_cancel.mpr ?_)
    exact ⟨hnew, CBlock.isProofOfStake_iff.mpr hstake, hbest, hproof, ⟨_, rfl, rfl⟩, hcheck⟩
  · intro hguarded block pindexBest hcancel
    obtain ⟨hnew, hstake, hbest, hproof, -, hcheck⟩ := stakeBranch_eq_cancel.mp hcancel
    exact hguarded pindexBest hbest hproof block.toCBlockHeader
      (CBlock.isProofOfStake_iff.mp hstake) hnew block.vchBlockSig (.of_check hcheck)

def sampleBlockSigEnv : BlockSigEnv where
  verify vchPubKey hash vchSig := vchSig == vchPubKey ++ [UInt8.ofNat hash]
  hash160 vchPubKey := vchPubKey.take 20
  fIgnoreBlockSig := false

/-- The sample block of this build is the best block. -/
def sampleStakedNode : StakeNode :=
  let s := sampleStakeNode.publish sampleEnv sampleStakeBlock
    (new_newStakeEntry (by decide +kernel) (by decide +kernel))
  { s with node := { s.node with pindexBest := some 1001 } }

/-- The output that it stakes is controlled by one key. -/
def sampleOutputs (prevout : COutPoint) : Option CTxOut :=
  if prevout = ⟨77, 0⟩ then some ⟨1000000, payToPubKey (List.replicate 33 2)⟩ else none

/-- A block on the same stake that another key signed. -/
def sampleForgedBlock : CBlock :=
  paidTo ⟨3, 1000, 1, 501, 0x1d0fffff, 1002⟩ ⟨77, 0⟩ (List.replicate 33 3)
    (List.replicate 33 3 ++ [UInt8.ofNat 1002])

/-- **Anyone can cancel the best block**: the key that signed the block does not control the stake,
and the branch is taken. -/
theorem not_forall_cancel_authorised :
    ¬ ∀ (env : Env) (sigEnv : BlockSigEnv) (outputs : COutPoint → Option CTxOut) (fWanted : Bool)
      (orphans : OrphanBlocks) (s : StakeNode) (block : CBlock) (pindexBest : Uint256),
      stakeBranch env sigEnv fWanted orphans block s = .cancel pindexBest →
        Authorised sigEnv outputs (s.fields pindexBest).prevoutStake (block.getHash env)
          block.vchBlockSig := by
  intro h
  have hcancel : stakeBranch sampleEnv sampleBlockSigEnv false .empty sampleForgedBlock
      sampleStakedNode = .cancel 1001 := by decide +kernel
  have hstake : (sampleStakedNode.fields 1001).prevoutStake = ⟨77, 0⟩ := by decide
  obtain ⟨vchPubKey, ⟨txout, houtput, hcontrols⟩, hverify⟩ :=
    h sampleEnv sampleBlockSigEnv sampleOutputs false .empty _ _ _ hcancel
  rw [hstake] at houtput
  obtain rfl := Option.some.inj houtput
  rw [solver_payToPubKey (by decide) (by decide)] at hcontrols
  rcases hcontrols with hkey | hkey
  · simp only [Prod.mk.injEq, true_and, List.cons.injEq, and_true] at hkey
    subst hkey
    revert hverify
    decide
  · cases hkey

end Manna
