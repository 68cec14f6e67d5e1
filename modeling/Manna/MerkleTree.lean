import Manna.CheckBlock
import Manna.Lib.MerkleTree
import Mathlib.Data.Nat.Pairing

/-!
The Merkle tree of a block (`main.h`: `CBlock::BuildMerkleTree`, `CalcTreeWidth`) and the check
for duplicate transactions that goes with it (`main.cpp`: `CBlock::CheckBlock`).

`BuildMerkleTree` keeps all levels in one vector. Odd levels repeat their last node, so
different lists can have one root.

* `getLastD_vMerkleTree`: the last entry of the vector is the root over the levels;
* `merkle_malleability_guard`: the duplicate check leaves one list to a root and a depth.
-/

namespace Manna

def calcTreeWidth (nTransactions height : Nat) : Nat :=
  (nTransactions + (1 <<< height) - 1) >>> height

/-- `while (CalcTreeWidth(nHeight) > 1) nHeight++`. -/
def treeHeightLoop (nTransactions : Nat) : Nat → Nat → Nat
  | 0, nHeight => nHeight
  | fuel + 1, nHeight =>
    if calcTreeWidth nTransactions nHeight > 1 then treeHeightLoop nTransactions fuel (nHeight + 1)
    else nHeight

def calcTreeHeight (nTransactions : Nat) : Nat := treeHeightLoop nTransactions nTransactions 0

theorem calcTreeWidth_eq (nTransactions height : Nat) :
    calcTreeWidth nTransactions height = Merkle.width nTransactions height := by
  rw [calcTreeWidth, Merkle.width, Nat.one_shiftLeft, Nat.shiftRight_eq_div_pow]

/-- **The loop ends at its condition**, and at the first height that meets it. -/
theorem treeHeightLoop_spec (nTransactions : Nat) :
    ∀ (fuel nHeight : Nat), nTransactions ≤ 2 ^ (nHeight + fuel) →
      (∀ h < nHeight, 1 < calcTreeWidth nTransactions h) →
      calcTreeWidth nTransactions (treeHeightLoop nTransactions fuel nHeight) ≤ 1 ∧
        ∀ h < treeHeightLoop nTransactions fuel nHeight, 1 < calcTreeWidth nTransactions h
  | 0, nHeight, hfuel, hbelow => by
    rw [Nat.add_zero] at hfuel
    refine ⟨?_, hbelow⟩
    rw [treeHeightLoop, ← Nat.not_lt, calcTreeWidth_eq, Merkle.one_lt_width_iff]
    exact Nat.not_lt.mpr hfuel
  | fuel + 1, nHeight, hfuel, hbelow => by
    rw [treeHeightLoop]
    split
    · rename_i hwide
      apply treeHeightLoop_spec nTransactions fuel (nHeight + 1)
      · rwa [Nat.add_right_comm, Nat.add_assoc]
      · intro h hh
        rcases Nat.lt_succ_iff_lt_or_eq.mp hh with hlt | rfl
        · exact hbelow h hlt
        · exact hwide
    · rename_i hnarrow
      exact ⟨Nat.le_of_not_lt hnarrow, hbelow⟩

theorem calcTreeHeight_spec (nTransactions : Nat) :
    calcTreeWidth nTransactions (calcTreeHeight nTransactions) ≤ 1 ∧
      ∀ h < calcTreeHeight nTransactions, 1 < calcTreeWidth nTransactions h := by
  apply treeHeightLoop_spec
  · rw [Nat.zero_add]
    exact Nat.le_of_lt Nat.lt_two_pow_self
  · intro h hh
    exact absurd hh (Nat.not_lt_zero h)

/-- The height is the first whose power of two reaches the number of leaves. -/
theorem lt_calcTreeHeight_iff {n h : Nat} : h < calcTreeHeight n ↔ 2 ^ h < n := by
  obtain ⟨hend, hfirst⟩ := calcTreeHeight_spec n
  simp only [← Nat.not_lt, calcTreeWidth_eq, Merkle.one_lt_width_iff] at hend hfirst
  constructor
  · exact hfirst h
  · intro hlt
    by_contra hle
    exact hend (Nat.lt_of_le_of_lt (Nat.pow_le_pow_right (by decide) (Nat.not_lt.mp hle)) hlt)

/-! ### The vector of all levels -/

/-- One round of the outer loop: the hashes over the `nSize` nodes from `j` on. -/
def merkleRound (env : Env) (vMerkleTree : List Uint256) (j nSize : Nat) : List Uint256 :=
  (List.range ((nSize + 1) / 2)).map fun k =>
    let i := 2 * k
    let i2 := min (i + 1) (nSize - 1)
    env.hashPair (vMerkleTree.getD (j + i) 0) (vMerkleTree.getD (j + i2) 0)

def buildMerkleLoop (env : Env) : Nat → List Uint256 → Nat → Nat → List Uint256
  | 0, vMerkleTree, _, _ => vMerkleTree
  | fuel + 1, vMerkleTree, j, nSize =>
    if nSize > 1 then
      buildMerkleLoop env fuel (vMerkleTree ++ merkleRound env vMerkleTree j nSize) (j + nSize)
        ((nSize + 1) / 2)
    else vMerkleTree

/-- `vMerkleTree` after `BuildMerkleTree`; the number of leaves bounds the rounds. -/
def vMerkleTree (env : Env) (vTxid : List Uint256) : List Uint256 :=
  buildMerkleLoop env vTxid.length vTxid 0 vTxid.length

theorem merkleLevel_eq (env : Env) (level : List Uint256) :
    merkleLevel env level = Merkle.parents env.hashPair level := by
  induction level using Merkle.parents.induct with
  | case1 => rfl
  | case2 a => rfl
  | case3 a b level ih => rw [merkleLevel, Merkle.parents, ih]

/-- A round reads the last `nSize` entries and adds the level above them. -/
theorem merkleRound_eq (env : Env) (before level : List Uint256) :
    merkleRound env (before ++ level) before.length level.length = merkleLevel env level := by
  rw [merkleLevel_eq]
  apply List.ext_getElem?
  intro i
  have hread : ∀ k, (before ++ level).getD (before.length + k) 0 = level.getD k 0 := by
    intro k
    rw [List.getD_eq_getElem?_getD, List.getD_eq_getElem?_getD,
      List.getElem?_append_right (Nat.le_add_right _ _), Nat.add_sub_cancel_left]
  rw [Merkle.getElem?_parents, merkleRound, List.getElem?_map]
  simp only [hread]
  by_cases hi : 2 * i < level.length
  · rw [List.getElem?_range (by omega), List.getElem?_eq_getElem hi]
    simp only [Option.map_some, Option.some.injEq, List.getD_eq_getElem?_getD]
    rw [List.getElem?_eq_getElem hi]
    -- The second child is the last node of the level when the first one is.
    by_cases hsecond : 2 * i + 1 < level.length
    · rw [Nat.min_eq_left (by omega), List.getElem?_eq_getElem hsecond]
      rfl
    · have hlast : min (2 * i + 1) (level.length - 1) = 2 * i := by omega
      rw [hlast, List.getElem?_eq_getElem hi, List.getElem?_eq_none (by omega)]
      rfl
  · rw [List.getElem?_eq_none (by rw [List.length_range]; omega),
      List.getElem?_eq_none (l := level) (i := 2 * i) (by omega)]
    rfl

theorem length_merkleLevel (env : Env) (level : List Uint256) :
    (merkleLevel env level).length = (level.length + 1) / 2 := by
  rw [merkleLevel_eq, Merkle.length_parents]

theorem merkleLevel_ne_nil (env : Env) {level : List Uint256} (h : level ≠ []) :
    merkleLevel env level ≠ [] := by
  have hpos := List.length_pos_iff.mpr h
  have hlen := length_merkleLevel env level
  apply List.length_pos_iff.mp
  omega

theorem merkleLoop_singleton (env : Env) (fuel : Nat) (root : Uint256) :
    merkleLoop env fuel [root] = root := by
  cases fuel <;> rfl

theorem merkleLoop_more (env : Env) (fuel : Nat) {level : List Uint256} (h : 1 < level.length) :
    merkleLoop env (fuel + 1) level = merkleLoop env fuel (merkleLevel env level) := by
  match level, h with
  | a :: b :: level, _ => rfl

theorem getLastD_buildMerkleLoop (env : Env) (fuel : Nat) (before level : List Uint256)
    (hlevel : level ≠ []) (hfuel : level.length ≤ fuel + 1) :
    (buildMerkleLoop env fuel (before ++ level) before.length level.length).getLastD 0 =
      merkleLoop env fuel level := by
  induction fuel generalizing before level with
  | zero =>
    have hpos := List.length_pos_iff.mpr hlevel
    obtain ⟨root, rfl⟩ := List.length_eq_one_iff.mp (by omega : level.length = 1)
    rw [buildMerkleLoop, merkleLoop_singleton, List.getLastD_concat]
  | succ fuel ih =>
    rw [buildMerkleLoop]
    split
    · rename_i hmore
      have hlen := length_merkleLevel env level
      rw [merkleRound_eq, merkleLoop_more env fuel hmore, ← hlen, ← List.length_append]
      apply ih
      · exact merkleLevel_ne_nil env hlevel
      · omega
    · rename_i hone
      have hpos := List.length_pos_iff.mpr hlevel
      obtain ⟨root, rfl⟩ := List.length_eq_one_iff.mp (by omega : level.length = 1)
      rw [merkleLoop_singleton, List.getLastD_concat]

/-- **The two readings of `BuildMerkleTree` agree**: the last entry of `vMerkleTree` is the
root reached over the levels. -/
theorem getLastD_vMerkleTree (env : Env) (vTxid : List Uint256) :
    (vMerkleTree env vTxid).getLastD 0 = merkleLoop env vTxid.length vTxid := by
  cases vTxid with
  | nil => rfl
  | cons txid vTxid =>
    exact getLastD_buildMerkleLoop env _ [] (txid :: vTxid) (by simp) (Nat.le_succ _)

theorem level_eq_merkleLoop (env : Env) (fuel : Nat) (level : List Uint256) (h : Nat)
    (hlevel : level ≠ []) (hfuel : level.length ≤ fuel + 1) (hheight : ∀ h', h' < h ↔ 2 ^ h' < level.length) :
    Merkle.level env.hashPair h level = [merkleLoop env fuel level] := by
  have hpos := List.length_pos_iff.mpr hlevel
  induction fuel generalizing level h with
  | zero =>
    have hone : level.length = 1 := by omega
    obtain ⟨root, rfl⟩ := List.length_eq_one_iff.mp hone
    obtain rfl : h = 0 := by simpa using hheight 0
    rw [merkleLoop_singleton, Merkle.level]
  | succ fuel ih =>
    cases h with
    | zero =>
      have hle : level.length ≤ 1 := by simpa using hheight 0
      have hone : level.length = 1 := by omega
      obtain ⟨root, rfl⟩ := List.length_eq_one_iff.mp hone
      rw [merkleLoop_singleton, Merkle.level]
    | succ h =>
      have hmore : 1 < level.length := (hheight 0).mp (Nat.succ_pos h)
      have hlen := length_merkleLevel env level
      rw [merkleLoop_more env fuel hmore, Merkle.level_succ', ← merkleLevel_eq]
      apply ih
      · exact merkleLevel_ne_nil env hlevel
      · omega
      · intro h'
        have hstep := hheight (h' + 1)
        rw [Nat.pow_succ] at hstep
        omega
      · omega

/-- **The root is the level at the height of the tree.** -/
theorem level_calcTreeHeight (env : Env) {vTxid : List Uint256} (h : vTxid ≠ []) :
    Merkle.level env.hashPair (calcTreeHeight vTxid.length) vTxid = [merkleLoop env vTxid.length vTxid] :=
  level_eq_merkleLoop env _ vTxid _ h (Nat.le_succ _) fun _ => lt_calcTreeHeight_iff

/-- Repeating the last subtree leaves the height of the tree as it is, unless the subtree is the
whole tree. -/
theorem calcTreeHeight_duplicate_trailing {n h : Nat} (hn : 0 < n) (hdvd : 2 ^ (h + 1) ∣ n) :
    calcTreeHeight (n + 2 ^ h + 2 ^ h) = calcTreeHeight (n + 2 ^ h) := by
  have hle : 2 ^ (h + 1) ≤ n := Nat.le_of_dvd hn hdvd
  have hsame : ∀ h', h' < calcTreeHeight (n + 2 ^ h + 2 ^ h) ↔ h' < calcTreeHeight (n + 2 ^ h) := by
    intro h'
    rw [lt_calcTreeHeight_iff, lt_calcTreeHeight_iff]
    rcases Nat.lt_or_ge h h' with hup | hlow
    · -- Above the subtree both sides say that the power of two is at most `n`.
      obtain ⟨k, rfl⟩ := hdvd
      obtain ⟨j, rfl⟩ : ∃ j, h' = h + 1 + j := ⟨h' - (h + 1), by omega⟩
      have hpos : 0 < 2 ^ h := Nat.two_pow_pos h
      constructor
      · intro hlt
        have hround : 2 ^ (h + 1) * k + 2 ^ h + 2 ^ h = 2 ^ (h + 1) * (k + 1) := by
          rw [Nat.pow_succ]
          ring
        rw [hround, Nat.pow_add] at hlt
        have hk : 2 ^ j ≤ k := Nat.le_of_lt_succ (Nat.lt_of_mul_lt_mul_left hlt)
        have hmul := Nat.mul_le_mul_left (2 ^ (h + 1)) hk
        rw [Nat.pow_add]
        omega
      · intro hlt
        omega
    · have hpow : 2 ^ h' ≤ 2 ^ h := Nat.pow_le_pow_right (by decide) hlow
      rw [Nat.pow_succ] at hle
      omega
  have hlt := hsame (calcTreeHeight (n + 2 ^ h))
  have hgt := hsame (calcTreeHeight (n + 2 ^ h + 2 ^ h))
  omega

/-- **The known trick.** Repeating the last subtree of a list leaves the root as it is. -/
theorem merkleLoop_duplicate_trailing (env : Env) {l s : List Uint256} {h : Nat} (hne : l ≠ [])
    (hs : s.length = 2 ^ h) (hl : 2 ^ (h + 1) ∣ l.length) :
    merkleLoop env (l ++ s ++ s).length (l ++ s ++ s) = merkleLoop env (l ++ s).length (l ++ s) := by
  have hpos := List.length_pos_iff.mpr hne
  have hheight : calcTreeHeight (l ++ s ++ s).length = calcTreeHeight (l ++ s).length := by
    rw [List.length_append, List.length_append, hs]
    exact calcTreeHeight_duplicate_trailing hpos hl
  have hup : h < calcTreeHeight (l ++ s).length := by
    rw [lt_calcTreeHeight_iff, List.length_append, hs]
    omega
  obtain ⟨j, hj⟩ : ∃ j, calcTreeHeight (l ++ s).length = h + 1 + j :=
    ⟨calcTreeHeight (l ++ s).length - (h + 1), by omega⟩
  have hroot := level_calcTreeHeight env (show l ++ s ≠ [] by simp [hne])
  have hroot' := level_calcTreeHeight env (show l ++ s ++ s ≠ [] by simp [hne])
  rw [hheight, hj, Merkle.level_duplicate_trailing env.hashPair hs hl, ← hj, hroot] at hroot'
  exact (List.singleton_inj.mp hroot').symm

/-! ### The duplicate check -/

/-- A block that gets past the duplicate check and the comparison of the root. -/
structure CBlock.MerkleChecked (env : Env) (block : CBlock) : Prop where
  nonempty : block.vtx ≠ []
  nodup : (block.txHashes env).Nodup
  root : block.hashMerkleRoot = block.buildMerkleTree env

variable {block : CBlock}

theorem CBlock.txHashes_ne_nil (env : Env) (h : block.vtx ≠ []) : block.txHashes env ≠ [] := by
  rwa [CBlock.txHashes, ne_eq, List.map_eq_nil_iff]

theorem CBlock.level_buildMerkleTree (env : Env) (h : block.vtx ≠ []) :
    Merkle.level env.hashPair (calcTreeHeight block.vtx.length) (block.txHashes env) =
      [block.buildMerkleTree env] := by
  have hroot := level_calcTreeHeight env (CBlock.txHashes_ne_nil env h)
  rwa [CBlock.txHashes, List.length_map] at hroot

/-- Lists without duplicates with one root and one depth are equal. -/
theorem txHashes_eq_of_root_eq {env : Env} (hpair : Function.Injective2 env.hashPair) {a b : CBlock}
    (ha : a.vtx ≠ []) (hb : b.vtx ≠ []) (hnodup : (a.txHashes env).Nodup)
    (hnodup' : (b.txHashes env).Nodup) (hroot : a.buildMerkleTree env = b.buildMerkleTree env)
    (hdepth : calcTreeHeight a.vtx.length = calcTreeHeight b.vtx.length) :
    a.txHashes env = b.txHashes env := by
  apply Merkle.level_injective_of_nodup hpair hnodup hnodup' (h := calcTreeHeight a.vtx.length)
  rw [CBlock.level_buildMerkleTree env ha, hdepth, CBlock.level_buildMerkleTree env hb, hroot]

/-- A block that gets as far as the duplicate check. -/
structure CBlock.ReachesDuplicateCheck (env : Env) (nAdjustedTime : Int) (fCheckPOW : Bool)
    (block : CBlock) : Prop where
  size : block.serializeSize ≤ MAX_BLOCK_SIZE ∧ block.vtx.length ≤ MAX_BLOCK_SIZE
  proofOfWork : fCheckPOW = true →
    checkProofOfWork (env.powHash block.toCBlockHeader) block.nBits = true
  time : block.getBlockTime ≤ nAdjustedTime + nMaxClockDrift
  coinbase : ∃ tx vtx, block.vtx = tx :: vtx ∧ tx.isCoinBase = true ∧
    ∀ tx' ∈ vtx, tx'.isCoinBase = false
  transactions : checkBlockTransactions block.getBlockTime block.vtx = .ok ()

/-- **A block with duplicate transactions is refused as such**, whatever its root. -/
theorem checkBlock_eq_duplicate {env : Env} {nAdjustedTime : Int} {fCheckPOW fCheckMerkleRoot : Bool}
    (h : block.ReachesDuplicateCheck env nAdjustedTime fCheckPOW) (hdup : ¬ (block.txHashes env).Nodup) :
    checkBlock env nAdjustedTime block fCheckPOW fCheckMerkleRoot =
      .error (.dos 100 "CheckBlock() : duplicate transaction" true) := by
  obtain ⟨tx, vtx, hvtx, hfirst, hrest⟩ := h.coinbase
  have hsize : ¬ (block.vtx.isEmpty = true ∨ block.vtx.length > MAX_BLOCK_SIZE ∨
      block.serializeSize > MAX_BLOCK_SIZE) := by
    rintro (hempty | hlong | hlarge)
    · simp [hvtx] at hempty
    · exact Nat.not_lt.mpr h.size.2 hlong
    · exact Nat.not_lt.mpr h.size.1 hlarge
  have hpow : ¬ (fCheckPOW = true ∧
      (!checkProofOfWork (env.powHash block.toCBlockHeader) block.nBits) = true) := by
    rintro ⟨hcheck, hfail⟩
    rw [h.proofOfWork hcheck] at hfail
    cases hfail
  have hothers : ¬ vtx.any CTransaction.isCoinBase = true := by
    intro hany
    obtain ⟨tx', hmem, hcb⟩ := List.any_eq_true.mp hany
    rw [hrest tx' hmem] at hcb
    cases hcb
  have htransactions := h.transactions
  rw [checkBlock, if_neg hsize, if_neg hpow, if_neg (Int.not_lt.mpr h.time), checkBlockContents]
  rw [hvtx] at htransactions ⊢
  simp only [hfirst, hothers, htransactions, hdup, Bool.not_true, Bool.false_eq_true,
    not_false_eq_true, if_false, if_true]

/-- **The duplicate check leaves one list of transactions to a root and a depth.**
A list with the root and the depth of a block that was accepted is that block's, or the
duplicate check stops it; and the lists that repeat trailing transactions are of this kind. -/
theorem merkle_malleability_guard {env : Env} (hpair : Function.Injective2 env.hashPair) :
    (∀ a b : CBlock, a.MerkleChecked env → b.MerkleChecked env →
      a.hashMerkleRoot = b.hashMerkleRoot →
      calcTreeHeight a.vtx.length = calcTreeHeight b.vtx.length →
      a.txHashes env = b.txHashes env) ∧
    (∀ (a b : CBlock) (nAdjustedTime : Int) (fCheckPOW : Bool), a.MerkleChecked env →
      b.ReachesDuplicateCheck env nAdjustedTime fCheckPOW →
      b.buildMerkleTree env = a.hashMerkleRoot →
      calcTreeHeight b.vtx.length = calcTreeHeight a.vtx.length →
      b.txHashes env ≠ a.txHashes env →
      checkBlock env nAdjustedTime b fCheckPOW true =
        .error (.dos 100 "CheckBlock() : duplicate transaction" true)) ∧
    (∀ (a b : CBlock) (nAdjustedTime : Int) (fCheckPOW : Bool) (l s : List Uint256) (h : Nat),
      a.MerkleChecked env → b.ReachesDuplicateCheck env nAdjustedTime fCheckPOW →
      a.txHashes env = l ++ s → b.txHashes env = l ++ s ++ s → l ≠ [] → s.length = 2 ^ h →
      2 ^ (h + 1) ∣ l.length →
      b.buildMerkleTree env = a.hashMerkleRoot ∧
        calcTreeHeight b.vtx.length = calcTreeHeight a.vtx.length ∧
        checkBlock env nAdjustedTime b fCheckPOW true =
          .error (.dos 100 "CheckBlock() : duplicate transaction" true)) := by
  refine ⟨?_, ?_, ?_⟩
  · intro a b ha hb hroot hdepth
    rw [ha.root, hb.root] at hroot
    exact txHashes_eq_of_root_eq hpair ha.nonempty hb.nonempty ha.nodup hb.nodup hroot hdepth
  · intro a b nAdjustedTime fCheckPOW ha hb hroot hdepth hne
    apply checkBlock_eq_duplicate hb
    intro hnodup
    obtain ⟨tx, vtx, hvtx, -⟩ := hb.coinbase
    apply hne
    exact txHashes_eq_of_root_eq hpair (by simp [hvtx]) ha.nonempty hnodup ha.nodup
      (hroot.trans ha.root) hdepth
  · intro a b nAdjustedTime fCheckPOW l s h ha hb hatx hbtx hl hs hdvd
    have hlen : ∀ c : CBlock, c.vtx.length = (c.txHashes env).length := fun c => by
      rw [CBlock.txHashes, List.length_map]
    refine ⟨?_, ?_, ?_⟩
    · rw [ha.root, CBlock.buildMerkleTree, CBlock.buildMerkleTree, hlen, hlen, hatx, hbtx]
      exact merkleLoop_duplicate_trailing env hl hs hdvd
    · rw [hlen, hlen, hatx, hbtx, List.length_append, List.length_append, hs]
      exact calcTreeHeight_duplicate_trailing (List.length_pos_iff.mpr hl) hdvd
    · apply checkBlock_eq_duplicate hb
      rw [hbtx, List.nodup_append']
      rintro ⟨-, -, hdisjoint⟩
      have hspos : 0 < s.length := by
        rw [hs]
        exact Nat.two_pow_pos h
      have hmem := List.getElem_mem hspos
      exact hdisjoint (List.mem_append_right l hmem) hmem

/-- Surroundings in which no two pairs have one hash. -/
def samplePairEnv : Env := { sampleEnv with hashPair := Nat.pair }

/-- A block of three transactions. -/
def sampleOddBlock : CBlock where
  nVersion := 1
  hashPrevBlock := 0
  hashMerkleRoot := Nat.pair (Nat.pair 1 2) (Nat.pair 3 3)
  nTime := 10
  nBits := 0x1d0fffff
  nNonce := 0
  vtx := [sampleCoinBase 1 10 0, sampleTx 2 10 [sampleIn 7 0] [1000000],
    sampleTx 3 10 [sampleIn 8 0] [1000000]]
  vchBlockSig := []

/-- The block with its last transaction repeated. -/
def sampleMutatedBlock : CBlock :=
  { sampleOddBlock with vtx := sampleOddBlock.vtx ++ [sampleTx 3 10 [sampleIn 8 0] [1000000]] }

theorem merkle_malleability_guard_sample :
    sampleMutatedBlock.buildMerkleTree samplePairEnv = sampleOddBlock.hashMerkleRoot ∧
      calcTreeHeight sampleMutatedBlock.vtx.length = calcTreeHeight sampleOddBlock.vtx.length ∧
      checkBlock samplePairEnv 10 sampleMutatedBlock true true =
        .error (.dos 100 "CheckBlock() : duplicate transaction" true) := by
  have hpair : Function.Injective2 samplePairEnv.hashPair := fun _ _ _ _ h => Nat.pair_eq_pair.mp h
  refine (merkle_malleability_guard hpair).2.2 sampleOddBlock sampleMutatedBlock 10 true [1, 2] [3] 0
    ?_ ?_ rfl rfl (by simp) rfl (by decide)
  · exact ⟨by simp [sampleOddBlock], by decide, rfl⟩
  · refine ⟨by decide, fun _ => by decide, by decide, ?_, by decide⟩
    exact ⟨_, _, rfl, by decide, by decide⟩

end Manna
