import Manna.CompactSize
import Manna.MerkleTree

/-!
Partial Merkle trees (`main.h`, `main.cpp`: `CPartialMerkleTree`).

A partial tree proves that some transactions are in a block. It is written depth first: a bit for
each node visited that says whether a matched transaction is below it, and the hash of each node
whose children are not visited.

* `CPartialMerkleTree.deserialize_serialize`: the bits come back with padding;
* `extractMatches_build`: a tree that is built, written and read gives the root of the block and
  the matched transactions.
-/

namespace Manna

open Codec

/-- `CPartialMerkleTree`. -/
structure CPartialMerkleTree where
  nTransactions : Nat
  vBits : List Bool
  vHash : List Uint256
  fBad : Bool
deriving DecidableEq, Repr

section Building

variable (env : Env) (nTransactions : Nat) (vTxid : List Uint256) (vMatch : List Bool)

/-- `CalcHash`. -/
def calcHash : Nat → Nat → Uint256
  | 0, pos => vTxid.getD pos 0
  | height + 1, pos =>
    let left := calcHash height (pos * 2)
    let right :=
      if pos * 2 + 1 < calcTreeWidth nTransactions height then calcHash height (pos * 2 + 1)
      else left
    env.hashPair left right

/-- `fParentOfMatch`: the loop over the transactions below a node. -/
def parentOfMatch (height pos : Nat) : Bool :=
  let first := pos <<< height
  let last := min ((pos + 1) <<< height) nTransactions
  (List.range' first (last - first)).any fun p => vMatch.getD p false

/-- `TraverseAndBuild`, on `vBits` and `vHash`. -/
def traverseAndBuild : Nat → Nat → List Bool × List Uint256 → List Bool × List Uint256
  | 0, pos, (vBits, vHash) =>
    (vBits ++ [parentOfMatch nTransactions vMatch 0 pos],
      vHash ++ [calcHash env nTransactions vTxid 0 pos])
  | height + 1, pos, (vBits, vHash) =>
    let fParentOfMatch := parentOfMatch nTransactions vMatch (height + 1) pos
    let vBits := vBits ++ [fParentOfMatch]
    if !fParentOfMatch then (vBits, vHash ++ [calcHash env nTransactions vTxid (height + 1) pos])
    else
      let out := traverseAndBuild height (pos * 2) (vBits, vHash)
      if pos * 2 + 1 < calcTreeWidth nTransactions height then
        traverseAndBuild height (pos * 2 + 1) out
      else out

end Building

/-- `CPartialMerkleTree(vTxid, vMatch)`. -/
def CPartialMerkleTree.build (env : Env) (vTxid : List Uint256) (vMatch : List Bool) :
    CPartialMerkleTree :=
  let nHeight := calcTreeHeight vTxid.length
  let out := traverseAndBuild env vTxid.length vTxid vMatch nHeight 0 ([], [])
  ⟨vTxid.length, out.1, out.2, false⟩

/-! ### Extracting -/

/-- What `TraverseAndExtract` changes: the numbers of bits and hashes used, the matched
transactions, and `fBad`. -/
structure ExtractState where
  nBitsUsed : Nat
  nHashUsed : Nat
  vMatch : List Uint256
  fBad : Bool
deriving DecidableEq, Repr

section Extracting

variable (env : Env) (tree : CPartialMerkleTree)

/-- The next bit, and what is done with it; past the end the tree is bad and the hash zero.
A read outside of the vector would be `none`. -/
def takeBit (s : ExtractState) (next : Bool → ExtractState → Option (Uint256 × ExtractState)) :
    Option (Uint256 × ExtractState) :=
  if s.nBitsUsed ≥ tree.vBits.length then some (0, { s with fBad := true })
  else
    match tree.vBits[s.nBitsUsed]? with
    | none => none
    | some fParentOfMatch => next fParentOfMatch { s with nBitsUsed := s.nBitsUsed + 1 }

/-- A node that is not descended into: its hash is the next one. A read outside of the vector
would be `none`. -/
def takeHash (fMatched : Bool) (s : ExtractState) : Option (Uint256 × ExtractState) :=
  if s.nHashUsed ≥ tree.vHash.length then some (0, { s with fBad := true })
  else
    match tree.vHash[s.nHashUsed]? with
    | none => none
    | some hash =>
      let s := { s with nHashUsed := s.nHashUsed + 1 }
      some (hash, if fMatched then { s with vMatch := s.vMatch ++ [hash] } else s)

def traverseAndExtract : Nat → Nat → ExtractState → Option (Uint256 × ExtractState)
  | 0, _, s => takeBit tree s fun fParentOfMatch s => takeHash tree fParentOfMatch s
  | height + 1, pos, s =>
    takeBit tree s fun fParentOfMatch s =>
      if !fParentOfMatch then takeHash tree false s
      else
        match traverseAndExtract height (pos * 2) s with
        | none => none
        | some (left, s) =>
          if pos * 2 + 1 < calcTreeWidth tree.nTransactions height then
            match traverseAndExtract height (pos * 2 + 1) s with
            | none => none
            | some (right, s) => some (env.hashPair left right, s)
          else some (env.hashPair left left, s)

/-- `ExtractMatches`: the root or zero, the matched transactions, and the tree afterwards. -/
def extractMatches : Option (Uint256 × List Uint256 × CPartialMerkleTree) :=
  if tree.nTransactions = 0 then some (0, [], tree)
  else if tree.nTransactions > MAX_BLOCK_SIZE / 60 then some (0, [], tree)
  else if tree.vHash.length > tree.nTransactions then some (0, [], tree)
  else if tree.vBits.length < tree.vHash.length then some (0, [], tree)
  else
    match traverseAndExtract env tree (calcTreeHeight tree.nTransactions) 0 ⟨0, 0, [], tree.fBad⟩ with
    | none => none
    | some (hashMerkleRoot, s) =>
      let tree' := { tree with fBad := s.fBad }
      if s.fBad then some (0, s.vMatch, tree')
      else if (s.nBitsUsed + 7) / 8 ≠ (tree.vBits.length + 7) / 8 then some (0, s.vMatch, tree')
      else if s.nHashUsed ≠ tree.vHash.length then some (0, s.vMatch, tree')
      else some (hashMerkleRoot, s.vMatch, tree')

end Extracting

/-- `vBytes`: eight bits to a byte, the first one in the lowest bit. -/
def packBitVector (vBits : List Bool) : List UInt8 :=
  (List.range ((vBits.length + 7) / 8)).map fun i => packByte fun p => vBits.getD (i * 8 + p) false

def CPartialMerkleTree.serialize (tree : CPartialMerkleTree) : List UInt8 :=
  littleEndian 4 tree.nTransactions ++ (writeVector (littleEndian 32) tree.vHash ++
    writeVector (fun b => [b]) (packBitVector tree.vBits))

def CPartialMerkleTree.deserialize : Reader CPartialMerkleTree := do
  let nTransactions ← readLittleEndian 4
  let vHash ← readVector (readLittleEndian 32)
  let vBytes ← readVector byte
  return ⟨nTransactions, vBytes.flatMap unpackByte, vHash, false⟩

section Matches

variable {env : Env} {vTxid : List Uint256} {vMatch : List Bool}

/-- **`CalcHash` is the node of the tree** at its height and position. -/
theorem getElem?_level_eq_calcHash (env : Env) {height pos : Nat}
    (hpos : pos < calcTreeWidth vTxid.length height) : (Merkle.level env.hashPair height vTxid)[pos]? =
      some (calcHash env vTxid.length vTxid height pos) := by
  induction height generalizing pos with
  | zero =>
    rw [calcTreeWidth_eq, Merkle.width_zero] at hpos
    rw [Merkle.level, calcHash, List.getD_eq_getElem?_getD, List.getElem?_eq_getElem hpos]
    rfl
  | succ height ih =>
    rw [calcTreeWidth_eq, Merkle.width_succ, ← calcTreeWidth_eq] at hpos
    have hleft : pos * 2 < calcTreeWidth vTxid.length height := by omega
    have hlen := Merkle.length_level env.hashPair height vTxid
    rw [← calcTreeWidth_eq] at hlen
    rw [Merkle.getElem?_level_succ, Nat.mul_comm 2 pos, ih hleft, calcHash]
    by_cases hright : pos * 2 + 1 < calcTreeWidth vTxid.length height
    · rw [if_pos hright, ih hright]
      rfl
    · have hnone : (Merkle.level env.hashPair height vTxid)[pos * 2 + 1]? = none :=
        List.getElem?_eq_none (by omega)
      rw [if_neg hright, hnone]
      rfl

end Matches

theorem drop_succ {α : Type} {l rest : List α} {n : Nat} {a : α} (h : l.drop n = a :: rest) :
    l.drop (n + 1) = rest := by
  rw [← List.drop_drop, h, List.drop_one, List.tail_cons]

theorem drop_append {α : Type} {l l' rest : List α} {n : Nat} (h : l.drop n = l' ++ rest) :
    l.drop (n + l'.length) = rest := by
  rw [← List.drop_drop, h, List.drop_left]

theorem getElem?_of_drop {α : Type} {l rest : List α} {n : Nat} {a : α} (h : l.drop n = a :: rest) :
    ¬ n ≥ l.length ∧ l[n]? = some a := by
  have hget : l[n]? = some a := by
    rw [← Nat.add_zero n, ← List.getElem?_drop, h, List.getElem?_cons_zero]
  exact ⟨Nat.not_le.mpr (List.getElem?_eq_some_iff.mp hget).1, hget⟩

section Next

variable {tree : CPartialMerkleTree} {s : ExtractState}

theorem takeBit_cons {b : Bool} {rest : List Bool}
    {next : Bool → ExtractState → Option (Uint256 × ExtractState)}
    (h : tree.vBits.drop s.nBitsUsed = b :: rest) :
    takeBit tree s next = next b { s with nBitsUsed := s.nBitsUsed + 1 } := by
  obtain ⟨hlt, hget⟩ := getElem?_of_drop h
  rw [takeBit, if_neg hlt, hget]

theorem takeHash_cons (fMatched : Bool) {hash : Uint256} {rest : List Uint256}
    (h : tree.vHash.drop s.nHashUsed = hash :: rest) :
    takeHash tree fMatched s =
      some (hash, { s with
        nHashUsed := s.nHashUsed + 1
        vMatch := s.vMatch ++ if fMatched then [hash] else [] }) := by
  obtain ⟨hlt, hget⟩ := getElem?_of_drop h
  rw [takeHash, if_neg hlt, hget]
  cases fMatched <;> simp

end Next

/-! ### Subtrees written depth first -/

/-- **A subtree written depth first**: its bits, its hashes, the hash of its top, and its matched
transactions. -/
inductive PartialNode (env : Env) (nTransactions : Nat) :
    Nat → Nat → List Bool → List Uint256 → Uint256 → List Uint256 → Prop
  | leaf (pos : Nat) (fMatched : Bool) (hash : Uint256) :
      PartialNode env nTransactions 0 pos [fMatched] [hash] hash (if fMatched then [hash] else [])
  | stored (height pos : Nat) (hash : Uint256) :
      PartialNode env nTransactions (height + 1) pos [false] [hash] hash []
  | fork {height pos : Nat} {bits bits' : List Bool} {hashes hashes' : List Uint256}
      {left right : Uint256} {matched matched' : List Uint256}
      (hright : pos * 2 + 1 < calcTreeWidth nTransactions height)
      (l : PartialNode env nTransactions height (pos * 2) bits hashes left matched)
      (r : PartialNode env nTransactions height (pos * 2 + 1) bits' hashes' right matched') :
      PartialNode env nTransactions (height + 1) pos (true :: (bits ++ bits')) (hashes ++ hashes')
        (env.hashPair left right) (matched ++ matched')
  | single {height pos : Nat} {bits : List Bool} {hashes : List Uint256} {left : Uint256}
      {matched : List Uint256} (hright : ¬ pos * 2 + 1 < calcTreeWidth nTransactions height)
      (l : PartialNode env nTransactions height (pos * 2) bits hashes left matched) :
      PartialNode env nTransactions (height + 1) pos (true :: bits) hashes (env.hashPair left left)
        matched

section PartialNode

variable {env : Env} {nTransactions height pos : Nat} {bits : List Bool} {hashes : List Uint256}
  {hash : Uint256} {matched : List Uint256}

/-- A tree of height `height` has fewer than `2 ^ (height + 1)` nodes. -/
theorem PartialNode.length_bits_lt (h : PartialNode env nTransactions height pos bits hashes hash matched) :
    bits.length < 2 ^ (height + 1) := by
  induction h with
  | leaf => simp
  | stored height => exact Nat.one_lt_two_pow (by omega)
  | fork hright l r ihl ihr =>
    rw [Nat.pow_succ]
    simp only [List.length_cons, List.length_append]
    omega
  | single hright l ih =>
    rw [Nat.pow_succ]
    simp only [List.length_cons]
    omega

theorem PartialNode.length_hashes_le (h : PartialNode env nTransactions height pos bits hashes hash matched) :
    hashes.length ≤ bits.length := by
  induction h with
  | leaf => exact Nat.le_refl 1
  | stored => exact Nat.le_refl 1
  | fork hright l r ihl ihr =>
    simp only [List.length_cons, List.length_append]
    omega
  | single hright l ih =>
    simp only [List.length_cons]
    omega

theorem lt_calcTreeWidth_iff : pos < calcTreeWidth nTransactions height ↔
    pos * 2 ^ height < nTransactions := by
  have hpow : 0 < 2 ^ height := Nat.two_pow_pos height
  rw [calcTreeWidth_eq, Merkle.width, Nat.lt_iff_add_one_le, Nat.le_div_iff_mul_le hpow, Nat.add_mul]
  omega

theorem PartialNode.length_hashes_le_leaves
    (h : PartialNode env nTransactions height pos bits hashes hash matched)
    (hpos : pos < calcTreeWidth nTransactions height) :
    pos * 2 ^ height + hashes.length ≤ min ((pos + 1) * 2 ^ height) nTransactions := by
  induction h with
  | leaf pos =>
    rw [lt_calcTreeWidth_iff] at hpos
    simp only [List.length_singleton]
    omega
  | stored height pos =>
    have hpow : 0 < 2 ^ (height + 1) := Nat.two_pow_pos _
    rw [lt_calcTreeWidth_iff] at hpos
    rw [Nat.add_mul]
    simp only [List.length_singleton]
    omega
  | @fork height pos _ _ _ _ _ _ _ _ hright l r ihl ihr =>
    have hleft := ihl (by omega)
    have hright := ihr hright
    rw [List.length_append, Nat.pow_succ]
    have h₁ : pos * (2 ^ height * 2) = pos * 2 * 2 ^ height := by ring
    have h₂ : (pos + 1) * (2 ^ height * 2) = (pos * 2 + 1 + 1) * 2 ^ height := by ring
    omega
  | @single height pos _ _ _ _ hright l ih =>
    rw [lt_calcTreeWidth_iff, Nat.pow_succ] at hpos
    have h₁ : pos * (2 ^ height * 2) = pos * 2 * 2 ^ height := by ring
    have h₂ : (pos + 1) * (2 ^ height * 2) = (pos * 2 + 1) * 2 ^ height + 2 ^ height := by ring
    have hleft := ih (by rw [lt_calcTreeWidth_iff]; omega)
    have hpow : 0 < 2 ^ height := Nat.two_pow_pos height
    rw [Nat.le_min] at hleft
    rw [Nat.pow_succ, h₁, h₂, Nat.le_min]
    omega

/-- **A subtree that is there is extracted** with the hash of its top and its matched
transactions, and with just its bits and hashes. -/
theorem PartialNode.traverseAndExtract_eq
    (h : PartialNode env nTransactions height pos bits hashes hash matched)
    {tree : CPartialMerkleTree} {s : ExtractState} {restBits : List Bool} {restHashes : List Uint256}
    (htree : tree.nTransactions = nTransactions) (hbits : tree.vBits.drop s.nBitsUsed = bits ++ restBits)
    (hhashes : tree.vHash.drop s.nHashUsed = hashes ++ restHashes) :
    traverseAndExtract env tree height pos s =
      some (hash, ⟨s.nBitsUsed + bits.length, s.nHashUsed + hashes.length, s.vMatch ++ matched, s.fBad⟩) := by
  induction h generalizing s restBits restHashes with
  | leaf pos fMatched hash =>
    rw [traverseAndExtract, takeBit_cons hbits]
    exact takeHash_cons (s := { s with nBitsUsed := s.nBitsUsed + 1 }) fMatched hhashes
  | stored height pos hash =>
    rw [traverseAndExtract, takeBit_cons hbits]
    exact takeHash_cons (s := { s with nBitsUsed := s.nBitsUsed + 1 }) false hhashes
  | @fork height pos bits bits' hashes hashes' left right matched matched' hright l r ihl ihr =>
    rw [List.cons_append, List.append_assoc] at hbits
    rw [List.append_assoc] at hhashes
    have hleft := ihl (s := { s with nBitsUsed := s.nBitsUsed + 1 }) (drop_succ hbits) hhashes
    have hbits' := drop_append (drop_succ hbits)
    have hhashes' := drop_append hhashes
    have hrest := ihr (s := ⟨s.nBitsUsed + 1 + bits.length, s.nHashUsed + hashes.length,
      s.vMatch ++ matched, s.fBad⟩) hbits' hhashes'
    rw [traverseAndExtract, takeBit_cons hbits]
    simp only [Bool.not_true, Bool.false_eq_true, if_false, hleft, htree, hright, if_true, hrest]
    simp only [List.length_cons, List.length_append, List.append_assoc, Option.some.injEq,
      Prod.mk.injEq, ExtractState.mk.injEq, and_true, true_and]
    omega
  | @single height pos bits hashes left matched hright l ih =>
    rw [List.cons_append] at hbits
    have hleft := ih (s := { s with nBitsUsed := s.nBitsUsed + 1 }) (drop_succ hbits) hhashes
    rw [traverseAndExtract, takeBit_cons hbits]
    simp only [Bool.not_true, Bool.false_eq_true, if_false, hleft, htree, hright]
    simp only [List.length_cons, Option.some.injEq, Prod.mk.injEq, ExtractState.mk.injEq, and_true,
      true_and]
    omega

end PartialNode

/-! ### The matched transactions of a range -/

/-- The transactions in a range of positions, with their flags. -/
def matchSlice (vTxid : List Uint256) (vMatch : List Bool) (first last : Nat) :
    List (Uint256 × Bool) :=
  ((vTxid.zip vMatch).take last).drop first

/-- The matched ones of a list of transactions, in order. -/
def matchedOf (l : List (Uint256 × Bool)) : List Uint256 := (l.filter (·.2)).map (·.1)

section Slices

variable {vTxid : List Uint256} {vMatch : List Bool}

theorem matchedOf_append (l l' : List (Uint256 × Bool)) :
    matchedOf (l ++ l') = matchedOf l ++ matchedOf l' := by
  rw [matchedOf, List.filter_append, List.map_append, matchedOf, matchedOf]

theorem matchedOf_eq_nil {l : List (Uint256 × Bool)} (h : l.any (·.2) = false) : matchedOf l = [] := by
  rw [matchedOf, List.map_eq_nil_iff, List.filter_eq_nil_iff]
  exact List.any_eq_false.mp h

theorem matchSlice_append {first mid last : Nat} (h₁ : first ≤ mid) (h₂ : mid ≤ last) :
    matchSlice vTxid vMatch first mid ++ matchSlice vTxid vMatch mid last =
      matchSlice vTxid vMatch first last := by
  have hmid : (vTxid.zip vMatch).take mid = ((vTxid.zip vMatch).take last).take mid := by
    rw [List.take_take, Nat.min_eq_left h₂]
  rw [matchSlice, matchSlice, matchSlice, hmid]
  generalize (vTxid.zip vMatch).take last = l
  calc (l.take mid).drop first ++ l.drop mid
      = (l.drop first).take (mid - first) ++ (l.drop first).drop (mid - first) := by
        rw [List.drop_take, List.drop_drop, Nat.add_sub_of_le h₁]
    _ = l.drop first := List.take_append_drop _ _

theorem matchSlice_of_length_le (vMatch : List Bool) {first : Nat} (last : Nat)
    (h : vTxid.length ≤ first) : matchSlice vTxid vMatch first last = [] := by
  apply List.drop_eq_nil_of_le
  rw [List.length_take, List.length_zip]
  omega

theorem getElem?_matchSlice (first last i : Nat) : (matchSlice vTxid vMatch first last)[i]? =
      if first + i < last then (vTxid.zip vMatch)[first + i]? else none := by
  rw [matchSlice, List.getElem?_drop, List.getElem?_take]

theorem matchSlice_singleton {pos : Nat} (hlen : vMatch.length = vTxid.length) (hpos : pos < vTxid.length) :
    matchSlice vTxid vMatch pos (pos + 1) = [(vTxid.getD pos 0, vMatch.getD pos false)] := by
  have hmatch : pos < vMatch.length := by omega
  apply List.ext_getElem?
  intro i
  rw [getElem?_matchSlice]
  cases i with
  | zero =>
    rw [Nat.add_zero, if_pos (Nat.lt_succ_self pos), List.getElem?_cons_zero,
      List.getD_eq_getElem?_getD, List.getD_eq_getElem?_getD, List.getElem?_eq_getElem hpos,
      List.getElem?_eq_getElem hmatch,
      List.getElem?_eq_getElem (by rw [List.length_zip]; omega), List.getElem_zip]
    rfl
  | succ i => simp

theorem parentOfMatch_eq (hlen : vMatch.length = vTxid.length) (height pos : Nat) :
    parentOfMatch vTxid.length vMatch height pos =
      (matchSlice vTxid vMatch (pos * 2 ^ height) ((pos + 1) * 2 ^ height)).any (·.2) := by
  rw [parentOfMatch, Nat.shiftLeft_eq, Nat.shiftLeft_eq]
  generalize pos * 2 ^ height = first
  generalize (pos + 1) * 2 ^ height = last
  rw [Bool.eq_iff_iff, List.any_eq_true, List.any_eq_true]
  constructor
  · rintro ⟨p, hp, hmatch⟩
    rw [List.mem_range'_1] at hp
    have htxid : p < vTxid.length := by omega
    have hflag : p < vMatch.length := by omega
    refine ⟨(vTxid[p], vMatch[p]), ?_, ?_⟩
    · rw [List.mem_iff_getElem?]
      refine ⟨p - first, ?_⟩
      rw [getElem?_matchSlice, Nat.add_sub_of_le hp.1, if_pos (by omega),
        List.getElem?_eq_getElem (by rw [List.length_zip]; omega), List.getElem_zip]
    · rwa [List.getD_eq_getElem?_getD, List.getElem?_eq_getElem hflag] at hmatch
  · rintro ⟨e, he, hmatch⟩
    obtain ⟨i, hi⟩ := List.mem_iff_getElem?.mp he
    rw [getElem?_matchSlice] at hi
    split at hi
    · rename_i hlast
      obtain ⟨hbound, hget⟩ := List.getElem?_eq_some_iff.mp hi
      rw [List.length_zip] at hbound
      rw [List.getElem_zip] at hget
      refine ⟨first + i, ?_, ?_⟩
      · rw [List.mem_range'_1]
        omega
      · rw [List.getD_eq_getElem?_getD, List.getElem?_eq_getElem (by omega), Option.getD_some]
        rw [← hget] at hmatch
        exact hmatch
    · cases hi

end Slices

/-! ### What is built is read -/

section Built

variable {env : Env} {vTxid : List Uint256} {vMatch : List Bool}

/-- **A subtree is built** as its depth first description, after what was there before. -/
theorem traverseAndBuild_node (env : Env) (hlen : vMatch.length = vTxid.length) {height pos : Nat}
    (hpos : pos < calcTreeWidth vTxid.length height) : ∃ bits hashes,
      PartialNode env vTxid.length height pos bits hashes (calcHash env vTxid.length vTxid height pos)
        (matchedOf (matchSlice vTxid vMatch (pos * 2 ^ height) ((pos + 1) * 2 ^ height))) ∧
      (∀ vBits vHash, traverseAndBuild env vTxid.length vTxid vMatch height pos (vBits, vHash) =
        (vBits ++ bits, vHash ++ hashes)) ∧
      ∀ hash ∈ hashes, ∃ height' pos', pos' < calcTreeWidth vTxid.length height' ∧
        hash = calcHash env vTxid.length vTxid height' pos' := by
  induction height generalizing pos with
  | zero =>
    have hbound : pos < vTxid.length := by rwa [lt_calcTreeWidth_iff, Nat.pow_zero, Nat.mul_one] at hpos
    have hslice := matchSlice_singleton hlen hbound
    refine ⟨_, _, ?_, fun vBits vHash => rfl,
      fun hash hmem => ⟨0, pos, hpos, List.mem_singleton.mp hmem⟩⟩
    rw [parentOfMatch_eq hlen, Nat.pow_zero, Nat.mul_one, Nat.mul_one, hslice]
    have hnode : PartialNode env vTxid.length 0 pos _ _ _ _ :=
      .leaf pos (vMatch.getD pos false) (vTxid.getD pos 0)
    cases hflag : vMatch.getD pos false <;> rwa [hflag] at hnode
  | succ height ih =>
    have hsplit : matchSlice vTxid vMatch (pos * 2 ^ (height + 1)) ((pos + 1) * 2 ^ (height + 1)) =
        matchSlice vTxid vMatch (pos * 2 * 2 ^ height) ((pos * 2 + 1) * 2 ^ height) ++
          matchSlice vTxid vMatch ((pos * 2 + 1) * 2 ^ height) ((pos * 2 + 1 + 1) * 2 ^ height) := by
      rw [matchSlice_append]
      · rw [Nat.pow_succ]
        congr 1 <;> ring
      · exact Nat.mul_le_mul_right _ (Nat.le_succ _)
      · exact Nat.mul_le_mul_right _ (Nat.le_succ _)
    cases hflag : parentOfMatch vTxid.length vMatch (height + 1) pos with
    | false =>
      refine ⟨[false], [calcHash env vTxid.length vTxid (height + 1) pos], ?_, ?_,
        fun hash hmem => ⟨height + 1, pos, hpos, List.mem_singleton.mp hmem⟩⟩
      · rw [parentOfMatch_eq hlen] at hflag
        rw [matchedOf_eq_nil hflag]
        exact .stored height pos _
      · intro vBits vHash
        simp only [traverseAndBuild, hflag, Bool.not_false, if_true]
    | true =>
      have hleft : pos * 2 < calcTreeWidth vTxid.length height := by
        rw [lt_calcTreeWidth_iff] at hpos ⊢
        rwa [Nat.pow_succ', ← Nat.mul_assoc] at hpos
      obtain ⟨bits, hashes, hnode, hbuild, hfrom⟩ := ih hleft
      by_cases hright : pos * 2 + 1 < calcTreeWidth vTxid.length height
      · obtain ⟨bits', hashes', hnode', hbuild', hfrom'⟩ := ih hright
        refine ⟨true :: (bits ++ bits'), hashes ++ hashes', ?_, ?_,
          List.forall_mem_append.mpr ⟨hfrom, hfrom'⟩⟩
        · rw [hsplit, matchedOf_append, calcHash, if_pos hright]
          exact .fork hright hnode hnode'
        · intro vBits vHash
          simp only [traverseAndBuild, hflag, Bool.not_true, Bool.false_eq_true, if_false, hright,
            if_true, hbuild, hbuild', List.append_assoc, List.cons_append, List.nil_append]
      · refine ⟨true :: bits, hashes, ?_, ?_, hfrom⟩
        · have hempty := matchSlice_of_length_le vMatch
            ((pos * 2 + 1 + 1) * 2 ^ height) (Nat.not_lt.mp (lt_calcTreeWidth_iff.not.mp hright))
          rw [hsplit, hempty, List.append_nil, calcHash, if_neg hright]
          exact .single hright hnode
        · intro vBits vHash
          simp only [traverseAndBuild, hflag, Bool.not_true, Bool.false_eq_true, if_false, hright,
            hbuild, List.append_assoc, List.cons_append, List.nil_append]

theorem calcHash_lt (htxid : ∀ txid ∈ vTxid, txid < 2 ^ 256)
    (hhash : ∀ left right, env.hashPair left right < 2 ^ 256) {height pos : Nat}
    (hpos : pos < calcTreeWidth vTxid.length height) :
    calcHash env vTxid.length vTxid height pos < 2 ^ 256 := by
  cases height with
  | zero =>
    have hmem := List.mem_of_getElem? (getElem?_level_eq_calcHash env hpos)
    exact htxid _ hmem
  | succ height => exact hhash _ _

end Built

/-- The bits that come back: the last byte is filled up. -/
def padBits (vBits : List Bool) : List Bool :=
  vBits ++ List.replicate ((vBits.length + 7) / 8 * 8 - vBits.length) false

/-- **The bits come back with padding.** -/
theorem flatMap_unpackByte_packBitVector (vBits : List Bool) :
    (packBitVector vBits).flatMap unpackByte = padBits vBits := by
  rw [packBitVector, flatMap_unpackByte fun i => vBits.getD i false]
  apply List.ext_getElem?
  intro i
  rw [padBits, List.getElem?_map, List.getElem?_append]
  by_cases hi : i < (vBits.length + 7) / 8 * 8
  · rw [List.getElem?_range hi, Option.map_some, List.getD_eq_getElem?_getD]
    split
    · rename_i hbit
      rw [List.getElem?_eq_getElem hbit]
      rfl
    · rename_i hpad
      rw [List.getElem?_eq_none (Nat.not_lt.mp hpad), List.getElem?_replicate, if_pos (by omega)]
      rfl
  · rw [if_neg (by omega), List.getElem?_eq_none (by rw [List.length_range]; omega),
      List.getElem?_replicate, if_neg (by omega)]
    rfl

/-- **A tree is read back** from its bytes, with the last byte of its bits filled up. -/
theorem CPartialMerkleTree.deserialize_serialize {tree : CPartialMerkleTree}
    (hcount : tree.nTransactions < 2 ^ 32) (hsize : tree.vHash.length ≤ MAX_SIZE)
    (hhash : ∀ hash ∈ tree.vHash, hash < 2 ^ 256) (hbits : (tree.vBits.length + 7) / 8 ≤ MAX_SIZE) :
    Reads CPartialMerkleTree.deserialize tree.serialize
      { tree with vBits := padBits tree.vBits, fBad := false } := by
  have hhashes : Reads (readVector (readLittleEndian 32)) (writeVector (littleEndian 32) tree.vHash)
      tree.vHash := by
    have hread := reads_writeVector (readLittleEndian 32) (g := id) hsize
      fun hash hmem => reads_littleEndian (k := 32) (hhash hash hmem)
    rwa [List.map_id] at hread
  have hbytes : Reads (readVector byte) (writeVector (fun b => [b]) (packBitVector tree.vBits))
      (packBitVector tree.vBits) := by
    have hlen : (packBitVector tree.vBits).length ≤ MAX_SIZE := by
      rwa [packBitVector, List.length_map, List.length_range]
    have hread := reads_writeVector byte (g := id) hlen fun b _ => reads_byte b
    rwa [List.map_id] at hread
  have htree := hbytes.map (f := fun vBytes : List UInt8 =>
    (⟨tree.nTransactions, vBytes.flatMap unpackByte, tree.vHash, false⟩ : CPartialMerkleTree))
  rw [flatMap_unpackByte_packBitVector] at htree
  have htail : Reads (readVector (readLittleEndian 32) >>= fun vHash => readVector byte >>= fun vBytes =>
      pure (⟨tree.nTransactions, vBytes.flatMap unpackByte, vHash, false⟩ : CPartialMerkleTree)) _ _ :=
    hhashes.bind htree
  exact (reads_littleEndian (k := 4) hcount).bind htail

/-! ### The whole way -/

/-- A partial tree over a possible number of transactions whose hashes are those of a subtree
written depth first, and whose bits are too, up to the padding of the last byte. -/
structure CPartialMerkleTree.WellFormed (env : Env) (tree : CPartialMerkleTree) (hash : Uint256)
    (matched : List Uint256) : Prop where
  nTransactions : 0 < tree.nTransactions ∧ tree.nTransactions ≤ MAX_BLOCK_SIZE / 60
  good : tree.fBad = false
  node : ∃ bits pad, tree.vBits = bits ++ pad ∧
    (bits.length + 7) / 8 = (tree.vBits.length + 7) / 8 ∧
    PartialNode env tree.nTransactions (calcTreeHeight tree.nTransactions) 0 bits tree.vHash hash
      matched

theorem calcTreeWidth_root_pos {n : Nat} (hn : 0 < n) : 0 < calcTreeWidth n (calcTreeHeight n) := by
  rw [calcTreeWidth_eq]
  exact Merkle.width_pos hn _

/-- **A well-formed tree is extracted.** -/
theorem CPartialMerkleTree.WellFormed.extractMatches_eq {env : Env} {tree : CPartialMerkleTree}
    {hash : Uint256} {matched : List Uint256} (h : tree.WellFormed env hash matched) :
    extractMatches env tree = some (hash, matched, tree) := by
  obtain ⟨bits, pad, hbits, hpad, hnode⟩ := h.node
  have hleaves := hnode.length_hashes_le_leaves (calcTreeWidth_root_pos h.nTransactions.1)
  have hhashes := hnode.length_hashes_le
  have hfew : ¬ tree.vHash.length > tree.nTransactions := by omega
  have hmany : ¬ tree.vBits.length < tree.vHash.length := by
    rw [hbits, List.length_append]
    omega
  have hextract := hnode.traverseAndExtract_eq (s := ⟨0, 0, [], tree.fBad⟩) rfl hbits
    (List.append_nil tree.vHash).symm
  rw [extractMatches, if_neg (Nat.ne_of_gt h.nTransactions.1),
    if_neg (Nat.not_lt.mpr h.nTransactions.2), if_neg hfew, if_neg hmany, hextract]
  simp only [h.good, Bool.false_eq_true, if_false, Nat.zero_add, hpad, ne_eq, not_true_eq_false,
    List.nil_append]
  rw [← h.good]

section Completeness

variable {env : Env} {vTxid : List Uint256} {vMatch : List Bool}

theorem matchSlice_all (hlen : vMatch.length = vTxid.length) {last : Nat}
    (hlast : vTxid.length ≤ last) : matchSlice vTxid vMatch 0 last = vTxid.zip vMatch := by
  rw [matchSlice, List.drop_zero]
  apply List.take_of_length_le
  rw [List.length_zip]
  omega

theorem calcHash_root (hne : vTxid ≠ []) : calcHash env vTxid.length vTxid (calcTreeHeight vTxid.length) 0 =
      (vMerkleTree env vTxid).getLastD 0 := by
  have hlevel := getElem?_level_eq_calcHash env
    (calcTreeWidth_root_pos (List.length_pos_iff.mpr hne))
  rw [level_calcTreeHeight env hne, List.getElem?_cons_zero, Option.some.injEq] at hlevel
  rw [getLastD_vMerkleTree, hlevel]

/-- **What is built** is the whole tree written depth first. -/
theorem build_node (env : Env) (hne : vTxid ≠ []) (hlen : vMatch.length = vTxid.length) : ∃ bits hashes,
      CPartialMerkleTree.build env vTxid vMatch = ⟨vTxid.length, bits, hashes, false⟩ ∧
      PartialNode env vTxid.length (calcTreeHeight vTxid.length) 0 bits hashes
        ((vMerkleTree env vTxid).getLastD 0) (matchedOf (vTxid.zip vMatch)) ∧
      ∀ hash ∈ hashes, ∃ height pos, pos < calcTreeWidth vTxid.length height ∧
        hash = calcHash env vTxid.length vTxid height pos := by
  obtain ⟨bits, hashes, hnode, hbuild, hfrom⟩ := traverseAndBuild_node env hlen
    (calcTreeWidth_root_pos (List.length_pos_iff.mpr hne))
  have hlast : ¬ 2 ^ calcTreeHeight vTxid.length < vTxid.length := by
    rw [← lt_calcTreeHeight_iff]
    exact Nat.lt_irrefl _
  rw [Nat.zero_mul, Nat.zero_add, Nat.one_mul, matchSlice_all hlen (Nat.not_lt.mp hlast),
    calcHash_root hne] at hnode
  refine ⟨bits, hashes, ?_, hnode, hfrom⟩
  rw [CPartialMerkleTree.build]
  simp only [hbuild, List.nil_append]

/-- The tree over as many transactions as `ExtractMatches` allows is at most 15 levels high. -/
theorem calcTreeHeight_le {n : Nat} (hn : n ≤ MAX_BLOCK_SIZE / 60) : calcTreeHeight n ≤ 15 := by
  by_contra hhigh
  have hlt : 15 < calcTreeHeight n := Nat.not_le.mp hhigh
  rw [lt_calcTreeHeight_iff] at hlt
  have hbound : MAX_BLOCK_SIZE / 60 ≤ 2 ^ 15 := by decide
  exact absurd hlt (Nat.not_lt.mpr (Nat.le_trans hn hbound))

theorem length_padBits (vBits : List Bool) : (padBits vBits).length = (vBits.length + 7) / 8 * 8 := by
  rw [padBits, List.length_append, List.length_replicate]
  omega

/-- **A partial tree that is built, written and read proves the block's root** and gives the
matched transactions in order. -/
theorem extractMatches_build (hne : vTxid ≠ []) (hmax : vTxid.length ≤ MAX_BLOCK_SIZE / 60)
    (hlen : vMatch.length = vTxid.length) (htxid : ∀ txid ∈ vTxid, txid < 2 ^ 256)
    (hhash : ∀ left right, env.hashPair left right < 2 ^ 256) :
    ∃ tree, Reads CPartialMerkleTree.deserialize
        (CPartialMerkleTree.build env vTxid vMatch).serialize tree ∧
      extractMatches env tree =
        some ((vMerkleTree env vTxid).getLastD 0,
          ((vTxid.zip vMatch).filter (·.2)).map (·.1), tree) := by
  have hpos : 0 < vTxid.length := List.length_pos_iff.mpr hne
  have hheight := calcTreeHeight_le hmax
  obtain ⟨bits, hashes, hbuild, hnode, hfrom⟩ := build_node env hne hlen
  have hbits : bits.length < 2 ^ 16 :=
    Nat.lt_of_lt_of_le hnode.length_bits_lt (Nat.pow_le_pow_right (by decide) (by omega))
  have hhashes : hashes.length ≤ vTxid.length := by
    have hleaves := hnode.length_hashes_le_leaves (calcTreeWidth_root_pos hpos)
    omega
  refine ⟨⟨vTxid.length, padBits bits, hashes, false⟩, ?_, ?_⟩
  · rw [hbuild]
    apply CPartialMerkleTree.deserialize_serialize
    · have hbound : MAX_BLOCK_SIZE / 60 < 2 ^ 32 := by decide
      exact Nat.lt_of_le_of_lt hmax hbound
    · have hbound : MAX_BLOCK_SIZE / 60 ≤ MAX_SIZE := by decide
      exact Nat.le_trans hhashes (Nat.le_trans hmax hbound)
    · intro hash hmem
      obtain ⟨height, pos, hin, rfl⟩ := hfrom hash hmem
      exact calcHash_lt htxid hhash hin
    · have hbound : 2 ^ 16 ≤ MAX_SIZE := by decide
      simp only
      omega
  · apply CPartialMerkleTree.WellFormed.extractMatches_eq
    refine ⟨⟨hpos, hmax⟩, rfl, bits, _, rfl, ?_, hnode⟩
    simp only [length_padBits]
    omega

end Completeness

/-- Surroundings with a pairing of 256 bits. -/
def sampleWordEnv : Env :=
  { sampleEnv with hashPair := fun left right => (3 * left + 5 * right + 1) % 2 ^ 256 }

theorem extractMatches_build_sample :
    ∃ tree, Reads CPartialMerkleTree.deserialize
        (CPartialMerkleTree.build sampleWordEnv [10, 20, 30] [false, true, true]).serialize tree ∧
      extractMatches sampleWordEnv tree =
        some ((vMerkleTree sampleWordEnv [10, 20, 30]).getLastD 0, [20, 30], tree) :=
  extractMatches_build (by simp) (by decide) rfl (by decide)
    fun _ _ => Nat.mod_lt _ (Nat.two_pow_pos 256)

end Manna
