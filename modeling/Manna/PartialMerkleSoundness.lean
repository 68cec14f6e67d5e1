import Manna.PartialMerkleTree

/-!
Partial Merkle trees from others (`main.cpp`: `CPartialMerkleTree::ExtractMatches`).

A tree that is received can hold any bits and hashes. Zero is returned where the traversal runs
out of them or leaves some over, so a block whose root is zero is proved by every bad tree.

* `extractMatches_isSome`: no tree makes it read outside of a vector;
* `WellFormed.of_extractMatches`: what is not written depth first gives zero;
* `PartialNode.matched_subset`: under a node of the block's tree the matched transactions are the
  block's;
* `extractMatches_sound`: the two together.
-/

namespace Manna

section Reads

variable {env : Env} {tree : CPartialMerkleTree}

theorem takeBit_isSome {s : ExtractState} {next : Bool → ExtractState → Option (Uint256 × ExtractState)}
    (h : ∀ b s, (next b s).isSome) : (takeBit tree s next).isSome := by
  rw [takeBit]
  split
  · rfl
  · rename_i hin
    rw [List.getElem?_eq_getElem (Nat.not_le.mp hin)]
    exact h _ _

theorem takeHash_isSome (fMatched : Bool) (s : ExtractState) : (takeHash tree fMatched s).isSome := by
  rw [takeHash]
  split
  · rfl
  · rename_i hin
    rw [List.getElem?_eq_getElem (Nat.not_le.mp hin)]
    rfl

/-- **The traversal reads inside of the vectors**, whatever they hold. -/
theorem traverseAndExtract_isSome (env : Env) (tree : CPartialMerkleTree) (height pos : Nat)
    (s : ExtractState) : (traverseAndExtract env tree height pos s).isSome := by
  induction height generalizing pos s with
  | zero =>
    rw [traverseAndExtract]
    exact takeBit_isSome fun b s => takeHash_isSome b s
  | succ height ih =>
    rw [traverseAndExtract]
    apply takeBit_isSome
    intro fParentOfMatch s
    split
    · exact takeHash_isSome false s
    · obtain ⟨⟨left, s₁⟩, hleft⟩ := Option.isSome_iff_exists.mp (ih (pos * 2) s)
      obtain ⟨⟨right, s₂⟩, hright⟩ := Option.isSome_iff_exists.mp (ih (pos * 2 + 1) s₁)
      simp only [hleft, hright]
      split <;> rfl

/-- **`ExtractMatches` returns** for every tree, and reads inside of its vectors. -/
theorem extractMatches_isSome (env : Env) (tree : CPartialMerkleTree) : (extractMatches env tree).isSome := by
  obtain ⟨⟨root, s⟩, htraverse⟩ := Option.isSome_iff_exists.mp
    (traverseAndExtract_isSome env tree (calcTreeHeight tree.nTransactions) 0
      ⟨0, 0, [], tree.fBad⟩)
  rw [extractMatches, htraverse]
  simp only
  split_ifs <;> rfl

end Reads

/-! ### What a good traversal has read -/

section Traversed

variable {env : Env} {tree : CPartialMerkleTree}

theorem drop_eq_cons {α : Type} {l : List α} {n : Nat} {a : α} (h : l[n]? = some a) :
    l.drop n = a :: l.drop (n + 1) := by
  obtain ⟨hlt, hget⟩ := List.getElem?_eq_some_iff.mp h
  rw [List.drop_eq_getElem_cons hlt, hget]

variable {hash : Uint256}

theorem takeBit_eq_some {s s' : ExtractState} {next : Bool → ExtractState → Option (Uint256 × ExtractState)}
    (h : takeBit tree s next = some (hash, s')) (hgood : s'.fBad = false) :
    ∃ b, tree.vBits.drop s.nBitsUsed = b :: tree.vBits.drop (s.nBitsUsed + 1) ∧
      next b { s with nBitsUsed := s.nBitsUsed + 1 } = some (hash, s') := by
  rw [takeBit] at h
  split at h
  · cases h
    cases hgood
  · split at h
    · cases h
    · rename_i b hget
      exact ⟨b, drop_eq_cons hget, h⟩

theorem takeHash_eq_some {s s' : ExtractState} {fMatched : Bool}
    (h : takeHash tree fMatched s = some (hash, s')) (hgood : s'.fBad = false) :
    tree.vHash.drop s.nHashUsed = hash :: tree.vHash.drop (s.nHashUsed + 1) ∧
      s' = { s with
        nHashUsed := s.nHashUsed + 1
        vMatch := s.vMatch ++ if fMatched then [hash] else [] } := by
  rw [takeHash] at h
  split at h
  · cases h
    cases hgood
  · split at h
    · cases h
    · rename_i hash' hget
      cases h
      refine ⟨drop_eq_cons hget, ?_⟩
      cases fMatched <;> simp

/-- What a traversal that ended good has read: a subtree written depth first. -/
structure Traversed (env : Env) (tree : CPartialMerkleTree) (height pos : Nat) (hash : Uint256)
    (s s' : ExtractState) (bits : List Bool) (hashes matched : List Uint256) : Prop where
  node : PartialNode env tree.nTransactions height pos bits hashes hash matched
  readBits : tree.vBits.drop s.nBitsUsed = bits ++ tree.vBits.drop s'.nBitsUsed
  readHashes : tree.vHash.drop s.nHashUsed = hashes ++ tree.vHash.drop s'.nHashUsed
  state : s' = ⟨s.nBitsUsed + bits.length, s.nHashUsed + hashes.length, s.vMatch ++ matched, s.fBad⟩

theorem traverseAndExtract_eq_some {height pos : Nat} {s s' : ExtractState}
    (h : traverseAndExtract env tree height pos s = some (hash, s')) (hgood : s'.fBad = false) :
    ∃ bits hashes matched, Traversed env tree height pos hash s s' bits hashes matched := by
  induction height generalizing pos s s' hash with
  | zero =>
    rw [traverseAndExtract] at h
    obtain ⟨b, hbit, htake⟩ := takeBit_eq_some h hgood
    obtain ⟨hhash, rfl⟩ := takeHash_eq_some htake hgood
    exact ⟨[b], [hash], _, .leaf pos b hash, hbit, hhash, rfl⟩
  | succ height ih =>
    rw [traverseAndExtract] at h
    obtain ⟨b, hbit, hnext⟩ := takeBit_eq_some h hgood
    cases b with
    | false =>
      change takeHash tree false _ = _ at hnext
      obtain ⟨hhash, rfl⟩ := takeHash_eq_some hnext hgood
      refine ⟨[false], [hash], [], .stored height pos hash, hbit, hhash, ?_⟩
      simp
    | true =>
      simp only [Bool.not_true, Bool.false_eq_true, if_false] at hnext
      split at hnext
      · cases hnext
      · rename_i left s₁ hleft
        split at hnext
        · rename_i hright
          split at hnext
          · cases hnext
          · rename_i right s₂ hrightEq
            cases hnext
            obtain ⟨bits', hashes', matched', hr⟩ := ih hrightEq hgood
            have hgood₁ : s₁.fBad = false := by
              have hstate := hr.state
              rw [hstate] at hgood
              exact hgood
            obtain ⟨bits, hashes, matched, hl⟩ := ih hleft hgood₁
            refine ⟨true :: (bits ++ bits'), hashes ++ hashes', matched ++ matched',
              .fork hright hl.node hr.node, ?_, ?_, ?_⟩
            · rw [hbit, hl.readBits, hr.readBits, List.cons_append, List.append_assoc]
            · rw [hl.readHashes, hr.readHashes, List.append_assoc]
            · rw [hr.state, hl.state]
              simp only [List.length_cons, List.length_append, List.append_assoc,
                ExtractState.mk.injEq, and_true]
              omega
        · rename_i hright
          cases hnext
          obtain ⟨bits, hashes, matched, hl⟩ := ih hleft hgood
          refine ⟨true :: bits, hashes, matched, .single hright hl.node, ?_, hl.readHashes, ?_⟩
          · rw [hbit, hl.readBits, List.cons_append]
          · rw [hl.state]
            simp only [List.length_cons, ExtractState.mk.injEq, and_true]
            omega

/-- **A tree that is not written depth first gives zero.** -/
theorem CPartialMerkleTree.WellFormed.of_extractMatches {vMatch : List Uint256}
    {tree' : CPartialMerkleTree} (h : extractMatches env tree = some (hash, vMatch, tree'))
    (hne : hash ≠ 0) : tree.WellFormed env hash vMatch := by
  obtain ⟨⟨root, s⟩, htraverse⟩ := Option.isSome_iff_exists.mp
    (traverseAndExtract_isSome env tree (calcTreeHeight tree.nTransactions) 0
      ⟨0, 0, [], tree.fBad⟩)
  rw [extractMatches, htraverse] at h
  simp only at h
  split_ifs at h with hzero hmax hmany hfew hbad hbits hhashes
  -- Every early exit returns zero.
  iterate 7
    · exact absurd (Prod.mk.inj (Option.some.inj h)).1.symm hne
  simp only [Option.some.injEq, Prod.mk.injEq] at h
  obtain ⟨rfl, rfl, -⟩ := h
  obtain ⟨bits, hashes, matched, htraversed⟩ :=
    traverseAndExtract_eq_some htraverse (Bool.eq_false_iff.mpr hbad)
  have hstate := htraversed.state
  simp only [Nat.zero_add, List.nil_append] at hstate
  have hreadBits := htraversed.readBits
  have hreadHashes := htraversed.readHashes
  rw [List.drop_zero] at hreadBits hreadHashes
  refine ⟨⟨Nat.pos_of_ne_zero hzero, Nat.not_lt.mp hmax⟩, ?_, bits, _, hreadBits, ?_, ?_⟩
  · rw [hstate] at hbad
    exact Bool.eq_false_iff.mpr hbad
  · rw [hstate, not_not] at hbits
    exact hbits
  · -- All hashes are used, so the ones that were read are all there are.
    rw [hstate, not_not] at hhashes
    have hall : tree.vHash.drop s.nHashUsed = [] := by
      rw [hstate]
      exact List.drop_eq_nil_of_le (Nat.le_of_eq hhashes.symm)
    rw [hall, List.append_nil] at hreadHashes
    rw [hreadHashes, hstate]
    exact htraversed.node

end Traversed

/-! ### Soundness -/

/-- **Below a node of the block's tree the matched transactions are the block's.** The pairing
gives the children away, so a subtree with the hash of a node has the hashes below it. -/
theorem PartialNode.matched_subset {env : Env} (hpair : Function.Injective2 env.hashPair)
    {vTxid : List Uint256} {height pos : Nat} {bits : List Bool} {hashes : List Uint256}
    {hash : Uint256} {matched : List Uint256}
    (h : PartialNode env vTxid.length height pos bits hashes hash matched)
    (hnode : (Merkle.level env.hashPair height vTxid)[pos]? = some hash) :
    ∀ txid ∈ matched, txid ∈ vTxid := by
  -- The hashes of the children are those of the tree.
  have hchildren : ∀ {height pos : Nat} {left right : Uint256},
      (Merkle.level env.hashPair (height + 1) vTxid)[pos]? = some (env.hashPair left right) →
      (Merkle.level env.hashPair height vTxid)[pos * 2]? = some left ∧
        (pos * 2 + 1 < calcTreeWidth vTxid.length height →
          (Merkle.level env.hashPair height vTxid)[pos * 2 + 1]? = some right) := by
    intro height pos left right hnode
    rw [Merkle.getElem?_level_succ, Nat.mul_comm 2 pos, Option.map_eq_some_iff] at hnode
    obtain ⟨left', hleft', heq⟩ := hnode
    obtain ⟨rfl, hright⟩ := hpair heq
    refine ⟨hleft', fun hin => ?_⟩
    rw [calcTreeWidth_eq, ← Merkle.length_level env.hashPair] at hin
    rw [List.getElem?_eq_getElem hin, Option.getD_some] at hright
    rw [List.getElem?_eq_getElem hin, hright]
  induction h with
  | leaf pos fMatched hash =>
    intro txid hmem
    cases fMatched with
    | false => cases hmem
    | true =>
      obtain rfl := List.mem_singleton.mp hmem
      exact List.mem_of_getElem? hnode
  | stored => exact fun txid hmem => absurd hmem List.not_mem_nil
  | fork hright l r ihl ihr =>
    obtain ⟨hl, hr⟩ := hchildren hnode
    exact List.forall_mem_append.mpr ⟨ihl hl, ihr (hr hright)⟩
  | single hright l ih => exact ih (hchildren hnode).1

/-- **A partial tree that gives the root of a block reports its transactions only**, unless the
root is the value of failure; and every tree is read inside of its vectors, with zero for one
that is not written depth first. -/
theorem extractMatches_sound {env : Env} (hpair : Function.Injective2 env.hashPair) :
    (∀ (block : CBlock) (tree tree' : CPartialMerkleTree) (vMatch : List Uint256),
      tree.nTransactions = block.vtx.length → block.buildMerkleTree env ≠ 0 →
      extractMatches env tree = some (block.buildMerkleTree env, vMatch, tree') →
      ∀ txid ∈ vMatch, ∃ tx ∈ block.vtx, env.txHash tx = txid) ∧
    (∀ tree : CPartialMerkleTree, ∃ hash vMatch tree',
      extractMatches env tree = some (hash, vMatch, tree') ∧
      ((¬ ∃ hash' matched, tree.WellFormed env hash' matched) → hash = 0)) := by
  constructor
  · intro block tree tree' vMatch hn hroot hextract txid hmem
    obtain ⟨⟨hpos, -⟩, -, bits, -, -, -, hnode⟩ :=
      CPartialMerkleTree.WellFormed.of_extractMatches hextract hroot
    have hvtx : block.vtx ≠ [] := by
      apply List.length_pos_iff.mp
      rwa [← hn]
    have hlen : (block.txHashes env).length = block.vtx.length := List.length_map _
    have htop := CBlock.level_buildMerkleTree env hvtx
    rw [hn, ← hlen] at hnode
    rw [← hlen] at htop
    have hsubset := hnode.matched_subset hpair (by rw [htop, List.getElem?_cons_zero])
    exact List.mem_map.mp (hsubset txid hmem)
  · intro tree
    obtain ⟨⟨hash, vMatch, tree'⟩, hextract⟩ := Option.isSome_iff_exists.mp (extractMatches_isSome env tree)
    refine ⟨hash, vMatch, tree', hextract, fun hbad => ?_⟩
    by_contra hne
    exact hbad ⟨hash, vMatch, .of_extractMatches hextract hne⟩

/-- A proof that the second of the three transactions is in the block. -/
def samplePartialTree : CPartialMerkleTree :=
  CPartialMerkleTree.build samplePairEnv [1, 2, 3] [false, true, false]

theorem extractMatches_sound_sample :
    extractMatches samplePairEnv samplePartialTree =
        some (sampleOddBlock.buildMerkleTree samplePairEnv, [2], samplePartialTree) ∧
      ∀ txid ∈ [2], ∃ tx ∈ sampleOddBlock.vtx, samplePairEnv.txHash tx = txid := by
  have hpair : Function.Injective2 samplePairEnv.hashPair := fun _ _ _ _ h => Nat.pair_eq_pair.mp h
  have hextract : extractMatches samplePairEnv samplePartialTree =
      some (sampleOddBlock.buildMerkleTree samplePairEnv, [2], samplePartialTree) := by
    decide
  exact ⟨hextract, (extractMatches_sound hpair).1 sampleOddBlock samplePartialTree samplePartialTree
    [2] rfl (by decide) hextract⟩

/-- A tree over one transaction with eight bits too many. -/
def sampleBadTree : CPartialMerkleTree := ⟨1, List.replicate 9 true, [5], false⟩

/-- **A root of zero is proved by a bad tree**: zero is what failure returns too. -/
theorem not_forall_extractMatches_sound :
    ¬ ∀ (env : Env) (block : CBlock) (tree tree' : CPartialMerkleTree) (vMatch : List Uint256),
      Function.Injective2 env.hashPair → (block.txHashes env).Nodup →
      (∀ height, 0 < height → height ≤ calcTreeHeight block.vtx.length →
        ∀ node ∈ Merkle.level env.hashPair height (block.txHashes env),
          node ∉ block.txHashes env) →
      tree.nTransactions = block.vtx.length →
      extractMatches env tree = some (block.buildMerkleTree env, vMatch, tree') →
      ∀ txid ∈ vMatch, ∃ tx ∈ block.vtx, env.txHash tx = txid := by
  intro hall
  have hpair : Function.Injective2 samplePairEnv.hashPair := fun _ _ _ _ h => Nat.pair_eq_pair.mp h
  have hmem := hall samplePairEnv (sampleBlock 0 0 10 [sampleCoinBase 0 10 0]) sampleBadTree
    sampleBadTree [5] hpair (List.nodup_singleton _) ?_ rfl (by decide) 5
    (List.mem_singleton_self 5)
  · revert hmem
    decide
  · intro height hpos hle
    have hzero : calcTreeHeight (sampleBlock 0 0 10 [sampleCoinBase 0 10 0]).vtx.length = 0 := by
      decide
    omega

end Manna
