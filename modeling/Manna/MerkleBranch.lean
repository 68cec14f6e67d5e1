import Manna.MerkleTree

/-!
Merkle branches (`main.h`: `CBlock::GetMerkleBranch`, `CheckMerkleBranch`).

`GetMerkleBranch` reads the levels out of the vector that `BuildMerkleTree` left behind, and builds it if
it is empty. `none` stands for a read outside of it.

* `checkMerkleBranch_climb`: the branch from a level of the vector leads to the root over the level;
* `checkMerkleBranch_getMerkleBranch`: from each transaction of a block to the root of the block.
-/

namespace Manna

/-- The loop of `GetMerkleBranch` over the levels; the number of leaves bounds the rounds. -/
def merkleBranchLoop (vMerkleTree : List Uint256) : Nat → Nat → Nat → Nat → Option (List Uint256)
  | 0, _, _, _ => some []
  | fuel + 1, j, nSize, nIndex =>
    if nSize > 1 then
      let i := min (nIndex ^^^ 1) (nSize - 1)
      match vMerkleTree[j + i]? with
      | none => none
      | some otherside =>
        (merkleBranchLoop vMerkleTree fuel (j + nSize) ((nSize + 1) / 2) (nIndex >>> 1)).map
          fun vMerkleBranch => otherside :: vMerkleBranch
    else some []

def CBlock.getMerkleBranch (env : Env) (block : CBlock) (tree : List Uint256) (nIndex : Nat) :
    Option (List Uint256) :=
  let tree := if tree.isEmpty then vMerkleTree env (block.txHashes env) else tree
  merkleBranchLoop tree block.vtx.length 0 block.vtx.length nIndex

def checkMerkleBranch (env : Env) (hash : Uint256) (vMerkleBranch : List Uint256) (nIndex : Int) :
    Uint256 :=
  if nIndex = -1 then 0
  else
    (vMerkleBranch.foldl
      (fun s otherside =>
        (if s.2 % 2 = 1 then env.hashPair otherside s.1 else env.hashPair s.1 otherside, s.2 / 2))
      (hash, nIndex)).1

/-- The rounds over the branch, from an index that is not negative. -/
def climb (env : Env) : Uint256 → List Uint256 → Nat → Uint256
  | hash, [], _ => hash
  | hash, otherside :: vMerkleBranch, nIndex =>
    climb env (if nIndex % 2 = 1 then env.hashPair otherside hash else env.hashPair hash otherside)
      vMerkleBranch (nIndex / 2)

theorem checkMerkleBranch_eq (env : Env) (hash : Uint256) (vMerkleBranch : List Uint256) (nIndex : Nat) :
    checkMerkleBranch env hash vMerkleBranch nIndex = climb env hash vMerkleBranch nIndex := by
  rw [checkMerkleBranch, if_neg (by omega)]
  induction vMerkleBranch generalizing hash nIndex with
  | nil => rfl
  | cons otherside vMerkleBranch ih =>
    have hodd : ((nIndex : Int) % 2 = 1) ↔ nIndex % 2 = 1 := by omega
    have hhalf : (nIndex : Int) / 2 = (nIndex / 2 : Nat) := by omega
    rw [List.foldl_cons, climb]
    dsimp only
    rw [hhalf, ih]
    simp only [hodd]

theorem xor_one (nIndex : Nat) : nIndex ^^^ 1 = if nIndex % 2 = 1 then nIndex - 1 else nIndex + 1 := by
  split
  · next hodd =>
    obtain ⟨k, rfl⟩ : ∃ k, nIndex = 2 * k + 1 := ⟨nIndex / 2, by omega⟩
    rw [← Nat.bit_true_apply, show (1 : Nat) = Nat.bit true 0 from rfl, Nat.xor_bit]
    simp
  · next heven =>
    obtain ⟨k, rfl⟩ : ∃ k, nIndex = 2 * k := ⟨nIndex / 2, by omega⟩
    rw [← Nat.bit_false_apply, show (1 : Nat) = Nat.bit true 0 from rfl, Nat.xor_bit]
    simp

/-- **The node over an index** is the hash of its node and the neighbour that the branch takes. -/
theorem parent_eq (env : Env) {level : List Uint256} {nIndex : Nat} {hash : Uint256}
    (hhash : level[nIndex]? = some hash) (hmore : 1 < level.length) :
    ∃ otherside, level[min (nIndex ^^^ 1) (level.length - 1)]? = some otherside ∧
      (merkleLevel env level)[nIndex / 2]? = some
        (if nIndex % 2 = 1 then env.hashPair otherside hash else env.hashPair hash otherside) := by
  have hlt : nIndex < level.length := (List.getElem?_eq_some_iff.mp hhash).1
  rw [merkleLevel_eq, Merkle.getElem?_parents, xor_one]
  by_cases hodd : nIndex % 2 = 1
  · have hleft : 2 * (nIndex / 2) = nIndex - 1 := by omega
    have hright : 2 * (nIndex / 2) + 1 = nIndex := by omega
    have hin : nIndex - 1 < level.length := by omega
    refine ⟨level[nIndex - 1], ?_, ?_⟩
    · rw [if_pos hodd, Nat.min_eq_left (by omega), List.getElem?_eq_getElem hin]
    · rw [if_pos hodd, hright, hleft, hhash, List.getElem?_eq_getElem hin]
      rfl
  · have hleft : 2 * (nIndex / 2) = nIndex := by omega
    simp only [if_neg hodd]
    rw [hleft, hhash]
    by_cases hnext : nIndex + 1 < level.length
    · refine ⟨level[nIndex + 1], ?_, ?_⟩
      · rw [Nat.min_eq_left (by omega), List.getElem?_eq_getElem hnext]
      · rw [List.getElem?_eq_getElem hnext]
        rfl
    · -- the last node of an odd level is its own neighbour
      refine ⟨hash, ?_, ?_⟩
      · rw [show min (nIndex + 1) (level.length - 1) = nIndex by omega, hhash]
      · rw [List.getElem?_eq_none (by omega)]
        rfl

/-! ### All levels -/

theorem prefix_buildMerkleLoop (env : Env) (fuel : Nat) (vMerkleTree : List Uint256) (j nSize : Nat) :
    vMerkleTree <+: buildMerkleLoop env fuel vMerkleTree j nSize := by
  induction fuel generalizing vMerkleTree j nSize with
  | zero => exact List.prefix_refl _
  | succ fuel ih =>
    rw [buildMerkleLoop]
    split
    · exact (List.prefix_append _ _).trans (ih _ _ _)
    · exact List.prefix_refl _

/-- **From a level to the root over it.** -/
theorem checkMerkleBranch_climb (env : Env) (fuel : Nat) (before level : List Uint256) {nIndex : Nat}
    {hash : Uint256} (hhash : level[nIndex]? = some hash) (hfuel : level.length ≤ fuel + 1) : ∃ vMerkleBranch,
      merkleBranchLoop (buildMerkleLoop env fuel (before ++ level) before.length level.length) fuel
        before.length level.length nIndex = some vMerkleBranch ∧
      climb env hash vMerkleBranch nIndex = merkleLoop env fuel level := by
  induction fuel generalizing before level nIndex hash with
  | zero =>
    have hlt := (List.getElem?_eq_some_iff.mp hhash).1
    obtain ⟨root, rfl⟩ := List.length_eq_one_iff.mp (by omega : level.length = 1)
    obtain rfl : nIndex = 0 := by simpa using hlt
    obtain rfl : root = hash := by simpa using hhash
    exact ⟨[], rfl, (merkleLoop_singleton env 0 root).symm⟩
  | succ fuel ih =>
    by_cases hmore : 1 < level.length
    · obtain ⟨otherside, hother, hparent⟩ := parent_eq env hhash hmore
      have hlen := length_merkleLevel env level
      obtain ⟨vMerkleBranch, hbranch, hclimb⟩ :=
        ih (before ++ level) (merkleLevel env level) hparent (by omega)
      have hbuild : buildMerkleLoop env (fuel + 1) (before ++ level) before.length level.length =
          buildMerkleLoop env fuel (before ++ level ++ merkleLevel env level)
            (before ++ level).length (merkleLevel env level).length := by
        rw [buildMerkleLoop, if_pos hmore, merkleRound_eq, hlen, List.length_append]
      rw [hbuild]
      -- the vector still holds the level where the loop reads its node
      have hread : (buildMerkleLoop env fuel (before ++ level ++ merkleLevel env level)
          (before ++ level).length (merkleLevel env level).length)[before.length +
            min (nIndex ^^^ 1) (level.length - 1)]? = some otherside := by
        obtain ⟨rest, hrest⟩ := prefix_buildMerkleLoop env fuel
          (before ++ level ++ merkleLevel env level) (before ++ level).length
          (merkleLevel env level).length
        rw [← hrest, List.append_assoc, List.append_assoc,
          List.getElem?_append_right (Nat.le_add_right _ _), Nat.add_sub_cancel_left,
          List.getElem?_append_left (List.getElem?_eq_some_iff.mp hother).1, hother]
      refine ⟨otherside :: vMerkleBranch, ?_, ?_⟩
      · rw [merkleBranchLoop, if_pos hmore]
        dsimp only
        rw [hread]
        dsimp only
        rw [Nat.shiftRight_one, ← hlen, ← List.length_append, hbranch, Option.map_some]
      · rw [climb, hclimb, merkleLoop_more env fuel hmore]
    · have hlt := (List.getElem?_eq_some_iff.mp hhash).1
      obtain ⟨root, rfl⟩ := List.length_eq_one_iff.mp (by omega : level.length = 1)
      obtain rfl : nIndex = 0 := by simpa using hlt
      obtain rfl : root = hash := by simpa using hhash
      refine ⟨[], ?_, (merkleLoop_singleton env _ root).symm⟩
      rw [merkleBranchLoop, if_neg hmore]

/-- **Merkle branches.** The branch of each transaction of a block leads from its hash to the root that
`BuildMerkleTree` returns, whether that has filled the vector before or not. -/
theorem checkMerkleBranch_getMerkleBranch (env : Env) (block : CBlock) (fBuilt : Bool)
    (nIndex : Fin block.vtx.length) :
    ∃ vMerkleBranch,
      block.getMerkleBranch env (if fBuilt then vMerkleTree env (block.txHashes env) else []) nIndex =
        some vMerkleBranch ∧
      checkMerkleBranch env (env.txHash block.vtx[nIndex]) vMerkleBranch (nIndex : Nat) =
        block.buildMerkleTree env := by
  have hlen : (block.txHashes env).length = block.vtx.length := List.length_map _
  have hhash : (block.txHashes env)[(nIndex : Nat)]? = some (env.txHash block.vtx[nIndex]) := by
    rw [CBlock.txHashes, List.getElem?_map, List.getElem?_eq_getElem nIndex.isLt]
    rfl
  obtain ⟨vMerkleBranch, hbranch, hclimb⟩ :=
    checkMerkleBranch_climb env block.vtx.length [] (block.txHashes env) hhash (by omega)
  have htree : (if (if fBuilt then vMerkleTree env (block.txHashes env) else []).isEmpty then
      vMerkleTree env (block.txHashes env)
      else if fBuilt then vMerkleTree env (block.txHashes env) else []) =
      vMerkleTree env (block.txHashes env) := by
    cases fBuilt with
    | false => rfl
    | true => exact ite_self _
  refine ⟨vMerkleBranch, ?_, ?_⟩
  · rw [CBlock.getMerkleBranch, htree]
    rw [List.nil_append, hlen] at hbranch
    rw [vMerkleTree, hlen]
    exact hbranch
  · rw [checkMerkleBranch_eq, hclimb, CBlock.buildMerkleTree]

end Manna
