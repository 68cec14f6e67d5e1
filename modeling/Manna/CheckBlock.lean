import Manna.Block

/-!
The context-free checks of a block (`main.cpp`: `CBlock::CheckBlock`).

`CheckedBlock` collects what a block that passed is like; the clock enters through one
test only (`checkBlock_clock`).
-/

namespace Manna

/-- The loop over the transactions: each is well formed and not later than the block. -/
def checkBlockTransactions (nBlockTime : Int) : List CTransaction → Except Halt Unit
  | [] => .ok ()
  | tx :: vtx =>
    match checkTransaction tx with
    | .error e => .error e
    | .ok _ =>
      if nBlockTime < (tx.nTime : Int) then
        .error (.dos 50 "CheckBlock() : block timestamp earlier than transaction timestamp" false)
      else checkBlockTransactions nBlockTime vtx

/-- The sum of `GetLegacySigOpCount` over a block. -/
def legacySigOps (vtx : List CTransaction) : Nat :=
  (vtx.map CTransaction.getLegacySigOpCount).sum

/-- The part of `CheckBlock` after the test of the clock. -/
def checkBlockContents (env : Env) (block : CBlock) (fCheckMerkleRoot : Bool) : Except Halt Unit :=
  match block.vtx with
  | [] => .error (.dos 100 "CheckBlock() : first tx is not coinbase" false)
  | coinbase :: vtx =>
    if !coinbase.isCoinBase then
      .error (.dos 100 "CheckBlock() : first tx is not coinbase" false)
    else if vtx.any CTransaction.isCoinBase then
      .error (.dos 100 "CheckBlock() : more than one coinbase" false)
    else
      match checkBlockTransactions block.getBlockTime block.vtx with
      | .error e => .error e
      | .ok _ =>
        if ¬ (block.txHashes env).Nodup then
          .error (.dos 100 "CheckBlock() : duplicate transaction" true)
        else if legacySigOps block.vtx > MAX_BLOCK_SIGOPS then
          .error (.dos 100 "CheckBlock() : out-of-bounds SigOpCount" false)
        else if fCheckMerkleRoot ∧ block.hashMerkleRoot ≠ block.buildMerkleTree env then
          .error (.dos 100 "CheckBlock() : hashMerkleRoot mismatch" false)
        else if fCheckMerkleRoot ∧ !env.checkBlockSignature block then
          .error (.dos 100 "CheckBlock() : bad block signature" false)
        else .ok ()

def checkBlock (env : Env) (nAdjustedTime : Int) (block : CBlock)
    (fCheckPOW fCheckMerkleRoot : Bool) : Except Halt Unit :=
  if block.vtx.isEmpty ∨ block.vtx.length > MAX_BLOCK_SIZE ∨ block.serializeSize > MAX_BLOCK_SIZE then
    .error (.dos 100 "CheckBlock() : size limits failed" false)
  else if fCheckPOW ∧ !checkProofOfWork (env.powHash block.toCBlockHeader) block.nBits then
    .error (.dos 50 "CheckBlock() : proof of work failed" false)
  else if block.getBlockTime > nAdjustedTime + nMaxClockDrift then
    .error (.invalid "CheckBlock() : block timestamp too far in the future")
  else checkBlockContents env block fCheckMerkleRoot

/-! ### What passing means -/

/-- A block that passed `CheckBlock`. -/
structure CheckedBlock (env : Env) (block : CBlock) : Prop where
  coinbase : ∃ tx vtx, block.vtx = tx :: vtx ∧ tx.isCoinBase = true ∧
    ∀ tx' ∈ vtx, tx'.isCoinBase = false
  transactions : ∀ tx ∈ block.vtx, checkTransaction tx = .ok () ∧ (tx.nTime : Int) ≤ block.getBlockTime
  txids_nodup : (block.txHashes env).Nodup
  sigops_le : legacySigOps block.vtx ≤ MAX_BLOCK_SIGOPS
  size_le : block.serializeSize ≤ MAX_BLOCK_SIZE

theorem checkBlockTransactions_cons (nBlockTime : Int) (tx : CTransaction)
    (vtx : List CTransaction) :
    checkBlockTransactions nBlockTime (tx :: vtx) =
      match checkTransaction tx with
      | .error e => .error e
      | .ok _ =>
        if nBlockTime < (tx.nTime : Int) then
          .error (.dos 50 "CheckBlock() : block timestamp earlier than transaction timestamp" false)
        else checkBlockTransactions nBlockTime vtx := rfl

theorem checkBlockTransactions_eq_ok {nBlockTime : Int} {vtx : List CTransaction} :
    checkBlockTransactions nBlockTime vtx = .ok () ↔
      ∀ tx ∈ vtx, checkTransaction tx = .ok () ∧ (tx.nTime : Int) ≤ nBlockTime := by
  induction vtx with
  | nil => simp [checkBlockTransactions]
  | cons tx vtx ih =>
    rw [List.forall_mem_cons, ← ih, checkBlockTransactions_cons]
    cases hcheck : checkTransaction tx with
    | error e => simp
    | ok _ =>
      simp only [true_and]
      split
      · next hlate => simp [hlate]
      · next hlate => simp [Int.not_lt.mp hlate]

variable {fCheckMerkleRoot : Bool}

theorem checkBlockContents_eq_ok {env : Env} {block : CBlock} :
    checkBlockContents env block fCheckMerkleRoot = .ok () ↔
      (∃ tx vtx, block.vtx = tx :: vtx ∧ tx.isCoinBase = true ∧ ∀ tx' ∈ vtx, tx'.isCoinBase = false) ∧
      (∀ tx ∈ block.vtx, checkTransaction tx = .ok () ∧ (tx.nTime : Int) ≤ block.getBlockTime) ∧
      (block.txHashes env).Nodup ∧ legacySigOps block.vtx ≤ MAX_BLOCK_SIGOPS ∧ (fCheckMerkleRoot = true →
        block.hashMerkleRoot = block.buildMerkleTree env ∧ env.checkBlockSignature block = true) := by
  unfold checkBlockContents
  rw [← checkBlockTransactions_eq_ok]
  cases hvtx : block.vtx with
  | nil => simp
  | cons coinbase vtx =>
    simp only [List.cons.injEq]
    by_cases hfirst : coinbase.isCoinBase = true
    · by_cases hrest : vtx.any CTransaction.isCoinBase = true
      · have : ¬ ∀ tx' ∈ vtx, tx'.isCoinBase = false := by
          obtain ⟨tx', hmem, hcb⟩ := List.any_eq_true.mp hrest
          intro hnone
          rw [hnone tx' hmem] at hcb
          cases hcb
        simp [hfirst, hrest, this]
      · have hnone : ∀ tx' ∈ vtx, tx'.isCoinBase = false := by
          intro tx' hmem
          by_contra hcb
          exact hrest (List.any_eq_true.mpr ⟨tx', hmem, by simpa using hcb⟩)
        cases hloop : checkBlockTransactions block.getBlockTime (coinbase :: vtx) with
        | error e => simp [hfirst, hrest]
        | ok _ =>
          simp only [hfirst, hrest, Bool.not_true, Bool.false_eq_true, if_false, true_and]
          by_cases hnodup : (block.txHashes env).Nodup
          · by_cases hsigops : legacySigOps (coinbase :: vtx) > MAX_BLOCK_SIGOPS
            · simp [hnodup, hsigops, Nat.not_le.mpr hsigops]
            · rw [if_neg (by simpa using hnodup), if_neg hsigops]
              have hle := Nat.le_of_not_gt hsigops
              cases fCheckMerkleRoot with
              | false => simpa [hnodup, hle, hfirst] using hnone
              | true =>
                by_cases hroot : block.hashMerkleRoot = block.buildMerkleTree env <;>
                  cases hsig : env.checkBlockSignature block <;>
                  simp [hroot, hnodup, hle, hfirst]
                all_goals exact fun tx' hmem => hnone tx' hmem
          · simp [hnodup]
    · simp [hfirst]

theorem checkBlock_eq_ok {env : Env} {nAdjustedTime : Int} {block : CBlock} {fCheckPOW : Bool} :
    checkBlock env nAdjustedTime block fCheckPOW fCheckMerkleRoot = .ok () ↔
      (block.serializeSize ≤ MAX_BLOCK_SIZE ∧ block.vtx.length ≤ MAX_BLOCK_SIZE) ∧
      (fCheckPOW = true → checkProofOfWork (env.powHash block.toCBlockHeader) block.nBits = true) ∧
      block.getBlockTime ≤ nAdjustedTime + nMaxClockDrift ∧
      checkBlockContents env block fCheckMerkleRoot = .ok () := by
  unfold checkBlock
  by_cases hempty : block.vtx = []
  · simp [hempty, checkBlockContents]
  · split
    · next hsize =>
      simp only [List.isEmpty_iff, hempty, false_or] at hsize
      constructor
      · intro h; cases h
      · rintro ⟨⟨hle, hlen⟩, -⟩
        omega
    · next hsize =>
      simp only [List.isEmpty_iff, hempty, false_or, not_or, not_lt] at hsize
      split
      · next hpow => simp_all
      · next hpow =>
        split
        · next htime => simp [Int.not_le.mpr htime]
        · next htime =>
          simp only [hsize, Int.not_lt.mp htime, true_and, and_self]
          constructor
          · intro h
            refine ⟨fun hcheck => ?_, h⟩
            by_contra hfail
            exact hpow ⟨hcheck, by simpa using hfail⟩
          · exact fun h => h.2

theorem CheckedBlock.of_checkBlock {env : Env} {nAdjustedTime : Int} {block : CBlock} {fCheckPOW : Bool}
    (h : checkBlock env nAdjustedTime block fCheckPOW fCheckMerkleRoot = .ok ()) :
    CheckedBlock env block := by
  obtain ⟨hsize, -, -, hcontents⟩ := checkBlock_eq_ok.mp h
  obtain ⟨hcb, htxs, hnodup, hsigops, -⟩ := checkBlockContents_eq_ok.mp hcontents
  exact ⟨hcb, htxs, hnodup, hsigops, hsize.1⟩

theorem checkBlockTransactions_rejects (nBlockTime : Int) (vtx : List CTransaction) :
    Rejects (checkBlockTransactions nBlockTime vtx) := by
  induction vtx with
  | nil => simp [checkBlockTransactions]
  | cons tx vtx ih =>
    have hcheck := checkTransaction_rejects tx
    rw [checkBlockTransactions_cons]
    cases hresult : checkTransaction tx with
    | error e => rw [hresult] at hcheck; simpa using hcheck
    | ok _ =>
      simp only
      split
      · simp
      · exact ih

theorem checkBlockContents_rejects (env : Env) (block : CBlock) (fCheckMerkleRoot : Bool) :
    Rejects (checkBlockContents env block fCheckMerkleRoot) := by
  have hloop := checkBlockTransactions_rejects block.getBlockTime block.vtx
  unfold checkBlockContents
  split
  · simp
  · next hvtx =>
    rw [hvtx] at hloop ⊢
    split
    · simp
    · split
      · simp
      · split
        · next e he => rw [he] at hloop; simpa using hloop
        · split_ifs <;> simp

theorem checkBlock_rejects (env : Env) (nAdjustedTime : Int) (block : CBlock)
    (fCheckPOW fCheckMerkleRoot : Bool) :
    Rejects (checkBlock env nAdjustedTime block fCheckPOW fCheckMerkleRoot) := by
  unfold checkBlock
  split
  · simp
  · split
    · simp
    · split
      · simp
      · exact checkBlockContents_rejects env block fCheckMerkleRoot

/-- Only the test of the block time reads the clock. -/
theorem checkBlock_clock {env : Env} {t t' : Int} {block : CBlock}
    {fCheckPOW : Bool} (ht : block.getBlockTime ≤ t + nMaxClockDrift)
    (ht' : block.getBlockTime ≤ t' + nMaxClockDrift) : checkBlock env t block fCheckPOW fCheckMerkleRoot =
      checkBlock env t' block fCheckPOW fCheckMerkleRoot := by
  unfold checkBlock
  rw [if_neg (Int.not_lt.mpr ht), if_neg (Int.not_lt.mpr ht')]

end Manna
