import Manna.MedianTime
import Manna.MemPool
import Manna.MerkleTree
import Manna.Retarget
import Manna.ScriptNum
import Mathlib.Algebra.Order.BigOperators.Group.List
import Mathlib.Logic.Equiv.List

/-!
The blocks that external miners work on (`main.cpp`: `CreateNewBlock`, `CBlockHeader::UpdateTime`,
`IncrementExtraNonce`).

All work for a tip may come from one template: `IncrementExtraNonce` writes a counter into the script of its
coinbase, and the Merkle root changes with it.

* `CBlock.skeleton`: what stays of a block while it is worked on;
* `coinBaseScript_injective`: the script of the coinbase tells the counter values apart;
* `head?_of_buildMerkleTree_eq`: blocks with one Merkle root have one coinbase.
-/

namespace Manna

def CTransaction.setCoinBaseSig (tx : CTransaction) (scriptSig : CScript) : CTransaction :=
  { tx with vin := tx.vin.modifyHead fun txin => { txin with scriptSig } }

namespace CBlock

def setScriptSig (block : CBlock) (scriptSig : CScript) : CBlock :=
  { block with vtx := block.vtx.modifyHead (·.setCoinBaseSig scriptSig) }

/-- `block.vtx[0].vin[0].scriptSig`. -/
def coinBaseSig (block : CBlock) : CScript :=
  ((block.vtx.head?.bind (·.vin.head?)).map (·.scriptSig)).getD []

/-- `hashMerkleRoot = BuildMerkleTree()`. -/
def setMerkleRoot (env : Env) (block : CBlock) : CBlock :=
  { block with hashMerkleRoot := block.buildMerkleTree env }

/-- A block without what changes while it is worked on: time, nonce, script of the coinbase, Merkle root. -/
def skeleton (block : CBlock) : CBlock :=
  { block.setScriptSig [] with nTime := 0, nNonce := 0, hashMerkleRoot := 0 }

/-- The first transaction has an input and an output. -/
def HasCoinBase (block : CBlock) : Prop :=
  ∃ tx, block.vtx.head? = some tx ∧ tx.vin ≠ [] ∧ tx.vout ≠ []

end CBlock

/-- `COINBASE_FLAGS`, to which nothing is assigned. -/
def COINBASE_FLAGS : CScript := []

/-- `(CScript() << nHeight << CBigNum(nExtraNonce)) + COINBASE_FLAGS`. -/
def coinBaseScript (lib : OpenSSL) (nHeight nExtraNonce : UInt32) : CScript :=
  CScript.pushUInt64 lib nHeight.toUInt64 [] ++
    pushData (CBigNum.getvch lib (CBigNum.ofULong lib nExtraNonce.toUInt64)) ++ COINBASE_FLAGS

section

variable (env : Env) (ancestors : CBlockIndex → List CBlockIndex)

/-- `UpdateTime` of the header of a block. `ancestors` are the entries of the index before an entry. -/
def CBlock.updateTime (pblock : CBlock) (pindexPrev : CBlockIndex) (nAdjustedTime : Int) : CBlock :=
  { pblock with
    toCBlockHeader :=
      pblock.toCBlockHeader.updateTime env.fTestNet nAdjustedTime pindexPrev (ancestors pindexPrev) }

/-- What `CreateNewBlock` is given and finds: the script of the reserved key, the clock, and the transactions
it takes from the pool with the sum of their fees. -/
structure BlockSource where
  scriptPubKeyIn : CScript
  nAdjustedTime : Int
  collected : List CTransaction
  nFees : Int

/-- `CreateNewBlock` for work, after the choice of the transactions. -/
def createNewBlock (pindexPrev : CBlockIndex) (source : BlockSource) : CBlock :=
  let txNew : CTransaction := ⟨CTransaction.CURRENT_VERSION, toUnsignedInt source.nAdjustedTime,
    [⟨.null, [], UINT_MAX⟩], [⟨-1, source.scriptPubKeyIn⟩], 0⟩
  let pblock : CBlock := ⟨⟨1, pindexPrev.phashBlock, 0, 0, 0, 0⟩, txNew :: source.collected, []⟩
  let pblock := { pblock with nTime := toUnsignedInt (max pblock.getBlockTime pblock.getMaxTransactionTime) }
  let pblock := pblock.updateTime env ancestors pindexPrev source.nAdjustedTime
  let pblock := pblock.setScriptSig [0, 0]
  let pblock := { pblock with nBits := getNextTrustRequired (pindexPrev :: ancestors pindexPrev), nNonce := 0 }
  let indexDummy := { pindexPrev with nHeight := pindexPrev.nHeight + 1 }
  { pblock with
    vtx := pblock.vtx.modifyHead fun tx =>
      { tx with
        vout := tx.vout.modifyHead fun txout => { txout with nValue := getBlockValue env indexDummy source.nFees }
        nTime := pblock.nTime } }

variable (lib : OpenSSL)

/-- `IncrementExtraNonce`: its static `hashPrevBlock`, the block and the counter afterwards. -/
def incrementExtraNonce (hashPrevBlock : Uint256) (pblock : CBlock) (pindexPrev : CBlockIndex)
    (nExtraNonce : UInt32) : Uint256 × CBlock × UInt32 :=
  let nExtraNonce := if hashPrevBlock ≠ pblock.hashPrevBlock then 0 else nExtraNonce
  let hashPrevBlock := if hashPrevBlock ≠ pblock.hashPrevBlock then pblock.hashPrevBlock else hashPrevBlock
  let nExtraNonce := nExtraNonce + 1
  let nHeight := UInt32.ofInt (pindexPrev.nHeight + 1)
  let pblock := pblock.setScriptSig (coinBaseScript lib nHeight nExtraNonce)
  (hashPrevBlock, pblock.setMerkleRoot env, nExtraNonce)

end

/-! ### What stays of a block -/

namespace CTransaction

@[simp] theorem setCoinBaseSig_setCoinBaseSig (tx : CTransaction) (scriptSig scriptSig' : CScript) :
    (tx.setCoinBaseSig scriptSig).setCoinBaseSig scriptSig' = tx.setCoinBaseSig scriptSig' := by
  unfold setCoinBaseSig
  cases tx.vin <;> rfl

end CTransaction

namespace CBlock

@[simp] theorem setScriptSig_setScriptSig (block : CBlock) (scriptSig scriptSig' : CScript) :
    (block.setScriptSig scriptSig).setScriptSig scriptSig' = block.setScriptSig scriptSig' := by
  unfold setScriptSig
  cases block.vtx <;> simp

variable {block : CBlock}

theorem skeleton_eq_iff {block' : CBlock} : block.skeleton = block'.skeleton ↔
      (block.nVersion = block'.nVersion ∧ block.hashPrevBlock = block'.hashPrevBlock ∧
        block.nBits = block'.nBits) ∧
      (block.setScriptSig []).vtx = (block'.setScriptSig []).vtx ∧ block.vchBlockSig = block'.vchBlockSig := by
  simp only [skeleton, setScriptSig, CBlock.mk.injEq, CBlockHeader.mk.injEq, true_and, and_true]

theorem vtx_setScriptSig_of_skeleton {block' : CBlock} (h : block.skeleton = block'.skeleton)
    (scriptSig : CScript) : (block.setScriptSig scriptSig).vtx = (block'.setScriptSig scriptSig).vtx := by
  have hvtx := (skeleton_eq_iff.mp h).2.1
  rw [← setScriptSig_setScriptSig block [], ← setScriptSig_setScriptSig block' []]
  simp only [setScriptSig] at hvtx ⊢
  rw [hvtx]

theorem head?_setScriptSig (block : CBlock) (scriptSig : CScript) :
    (block.setScriptSig scriptSig).vtx.head? = block.vtx.head?.map (·.setCoinBaseSig scriptSig) := by
  unfold setScriptSig
  cases block.vtx <;> rfl

@[simp] theorem skeleton_setScriptSig (block : CBlock) (scriptSig : CScript) :
    (block.setScriptSig scriptSig).skeleton = block.skeleton := by
  unfold skeleton
  rw [setScriptSig_setScriptSig]

@[simp] theorem skeleton_setMerkleRoot (env : Env) (block : CBlock) :
    (block.setMerkleRoot env).skeleton = block.skeleton := rfl

theorem setMerkleRoot_setScriptSig (env : Env) (block : CBlock) (scriptSig : CScript) :
    (((block.setScriptSig scriptSig).setMerkleRoot env).setScriptSig scriptSig).setMerkleRoot env =
      (block.setScriptSig scriptSig).setMerkleRoot env := by
  have hagain : ((block.setScriptSig scriptSig).setMerkleRoot env).setScriptSig scriptSig =
      (block.setScriptSig scriptSig).setMerkleRoot env := by
    have htwice := congrArg CBlock.vtx (setScriptSig_setScriptSig block scriptSig scriptSig)
    simp only [setScriptSig, setMerkleRoot, CBlock.mk.injEq] at htwice ⊢
    exact ⟨trivial, htwice, trivial⟩
  rw [hagain]
  rfl

/-- **A block is its skeleton** with the time, the nonce and the script filled in again. -/
theorem rebuild_of_skeleton {env : Env} {block' : CBlock} {scriptSig : CScript}
    (hskeleton : block.skeleton = block'.skeleton)
    (hbuilt : (block'.setScriptSig scriptSig).setMerkleRoot env = block') (nTime nNonce : Nat) :
    ({ block with nTime := nTime, nNonce := nNonce }.setScriptSig scriptSig).setMerkleRoot env =
      { block' with nTime := nTime, nNonce := nNonce } := by
  have hvtx : (block.setScriptSig scriptSig).vtx = block'.vtx :=
    (vtx_setScriptSig_of_skeleton hskeleton scriptSig).trans (congrArg CBlock.vtx hbuilt :)
  have hroot : (block.setScriptSig scriptSig).buildMerkleTree env = block'.hashMerkleRoot := by
    rw [← hbuilt]
    simp only [setMerkleRoot, buildMerkleTree, txHashes, vtx_setScriptSig_of_skeleton hskeleton]
  obtain ⟨⟨hversion, hprev, hbits⟩, -, hsig⟩ := skeleton_eq_iff.mp hskeleton
  rw [CBlock.mk.injEq, CBlockHeader.mk.injEq]
  exact ⟨⟨hversion, hprev, hroot, rfl, hbits, rfl⟩, hvtx, hsig⟩

theorem hasCoinBase_setScriptSig (scriptSig : CScript) :
    (block.setScriptSig scriptSig).HasCoinBase ↔ block.HasCoinBase := by
  unfold HasCoinBase setScriptSig
  cases block.vtx with
  | nil => simp
  | cons tx vtx => simp [CTransaction.setCoinBaseSig]

theorem HasCoinBase.of_skeleton {block' : CBlock} (hskeleton : block.skeleton = block'.skeleton)
    (h : block.HasCoinBase) : block'.HasCoinBase := by
  rw [← hasCoinBase_setScriptSig [] ] at h ⊢
  unfold HasCoinBase at h ⊢
  rwa [← (skeleton_eq_iff.mp hskeleton).2.1]

theorem coinBaseSig_setScriptSig (h : block.HasCoinBase) (scriptSig : CScript) :
    (block.setScriptSig scriptSig).coinBaseSig = scriptSig := by
  obtain ⟨tx, htx, hvin, -⟩ := h
  unfold coinBaseSig setScriptSig CTransaction.setCoinBaseSig
  cases hvtx : block.vtx with
  | nil => simp [hvtx] at htx
  | cons tx' vtx =>
    obtain rfl : tx' = tx := by simpa [hvtx] using htx
    cases hins : tx'.vin with
    | nil => exact absurd hins hvin
    | cons txin vin => simp [hins]

theorem coinBaseSig_congr {block' : CBlock} (h : block.vtx.head? = block'.vtx.head?) :
    block.coinBaseSig = block'.coinBaseSig := by
  rw [coinBaseSig, coinBaseSig, h]

theorem coinBaseSig_of_built {env : Env} {scriptSig : CScript} (h : block.HasCoinBase)
    (hbuilt : (block.setScriptSig scriptSig).setMerkleRoot env = block) : block.coinBaseSig = scriptSig := by
  have hvtx : (block.setScriptSig scriptSig).vtx = block.vtx := (congrArg CBlock.vtx hbuilt :)
  rw [← coinBaseSig_setScriptSig h scriptSig]
  exact coinBaseSig_congr (congrArg List.head? hvtx.symm)

/-- The blocks have the same coinbase, up to its script. -/
def SameCoinBase (block block' : CBlock) : Prop := block.skeleton.vtx.head? = block'.skeleton.vtx.head?

instance (block block' : CBlock) : Decidable (SameCoinBase block block') := by
  unfold SameCoinBase
  infer_instance

theorem SameCoinBase.of_head? {block' : CBlock} {scriptSig scriptSig' : CScript}
    (h : (block.setScriptSig scriptSig).vtx.head? = (block'.setScriptSig scriptSig').vtx.head?) :
    SameCoinBase block block' := by
  have hblank := congrArg (Option.map (·.setCoinBaseSig [])) h
  rw [← head?_setScriptSig, ← head?_setScriptSig, setScriptSig_setScriptSig, setScriptSig_setScriptSig] at hblank
  exact hblank

theorem SameCoinBase.congr {block' block₁ block₁' : CBlock} (h : SameCoinBase block block')
    (hskeleton : block.skeleton = block₁.skeleton) (hskeleton' : block'.skeleton = block₁'.skeleton) :
    SameCoinBase block₁ block₁' := by
  rwa [SameCoinBase, ← hskeleton, ← hskeleton']

end CBlock

/-! ### The functions and the skeleton -/

section

variable (env : Env) {ancestors : CBlockIndex → List CBlockIndex}

/-- `UpdateTime` changes the target on the test net only, and there to what it was. -/
theorem skeleton_updateTime {pblock : CBlock} {pindexPrev : CBlockIndex}
    (hbits : pblock.nBits = getNextTrustRequired (pindexPrev :: ancestors pindexPrev)) (nAdjustedTime : Int) :
    (pblock.updateTime env ancestors pindexPrev nAdjustedTime).skeleton = pblock.skeleton := by
  unfold CBlock.updateTime CBlockHeader.updateTime
  split
  · rw [← hbits]
    rfl
  · rfl

theorem hashPrevBlock_updateTime (pblock : CBlock) (pindexPrev : CBlockIndex) (nAdjustedTime : Int) :
    (pblock.updateTime env ancestors pindexPrev nAdjustedTime).hashPrevBlock = pblock.hashPrevBlock := by
  unfold CBlock.updateTime CBlockHeader.updateTime
  split <;> rfl

theorem vtx_updateTime (pblock : CBlock) (pindexPrev : CBlockIndex) (nAdjustedTime : Int) :
    (pblock.updateTime env ancestors pindexPrev nAdjustedTime).vtx = pblock.vtx := rfl

theorem createNewBlock_hashPrevBlock (pindexPrev : CBlockIndex) (source : BlockSource) :
    (createNewBlock env ancestors pindexPrev source).hashPrevBlock = pindexPrev.phashBlock := by
  simp only [createNewBlock, CBlock.setScriptSig, hashPrevBlock_updateTime]

theorem createNewBlock_nBits (pindexPrev : CBlockIndex) (source : BlockSource) :
    (createNewBlock env ancestors pindexPrev source).nBits = getNextTrustRequired (pindexPrev :: ancestors pindexPrev) := rfl

theorem hasCoinBase_createNewBlock (pindexPrev : CBlockIndex) (source : BlockSource) :
    (createNewBlock env ancestors pindexPrev source).HasCoinBase := by
  simp [CBlock.HasCoinBase, createNewBlock, CBlock.setScriptSig, CTransaction.setCoinBaseSig, vtx_updateTime]

/-- The static `hashPrevBlock` is that of the block afterwards. -/
theorem incrementExtraNonce_eq (lib : OpenSSL) (hashPrevBlock : Uint256) (pblock : CBlock)
    (pindexPrev : CBlockIndex) (nExtraNonce : UInt32) :
    incrementExtraNonce env lib hashPrevBlock pblock pindexPrev nExtraNonce =
      let next := (if hashPrevBlock ≠ pblock.hashPrevBlock then 0 else nExtraNonce) + 1
      (pblock.hashPrevBlock,
        (pblock.setScriptSig (coinBaseScript lib (UInt32.ofInt (pindexPrev.nHeight + 1)) next)).setMerkleRoot env,
        next) := by
  by_cases hsame : hashPrevBlock = pblock.hashPrevBlock
  · simp [incrementExtraNonce, hsame]
  · simp [incrementExtraNonce, hsame]

end

theorem length_getvch_le (lib : OpenSSL) (n : UInt32) :
    (CBigNum.getvch lib (CBigNum.ofULong lib n.toUInt64)).length ≤ 5 := by
  have hlt := n.toNat_lt
  rw [CBigNum.ofULong, lib.setWord_eq, CBigNum.getvch_eq lib (CBigNum.isBignum_of_lt (by simp; omega)),
    length_bnGetVch_le_iff]
  simp
  omega

theorem getvch_injective (lib : OpenSSL) {n m : UInt32}
    (h : CBigNum.getvch lib (CBigNum.ofULong lib n.toUInt64) =
      CBigNum.getvch lib (CBigNum.ofULong lib m.toUInt64)) : n = m := by
  have hn := n.toNat_lt
  have hm := m.toNat_lt
  simp only [CBigNum.ofULong, lib.setWord_eq] at h
  rw [CBigNum.getvch_eq lib (CBigNum.isBignum_of_lt (by simp; omega)),
    CBigNum.getvch_eq lib (CBigNum.isBignum_of_lt (by simp; omega))] at h
  have hvalue := congrArg signMagnitude h
  rw [signMagnitude_bnGetVch, signMagnitude_bnGetVch] at hvalue
  rw [← UInt32.toNat_inj]
  simpa using hvalue

theorem pushData_of_length_le {vch : Valtype} (h : vch.length ≤ 5) :
    pushData vch = UInt8.ofNat vch.length :: vch := by
  have hlt : vch.length < OP_PUSHDATA1 := h.trans_lt (by decide)
  simp only [pushData, hlt, if_true]

/-- **The counter can be read from the script.** -/
theorem coinBaseScript_injective (lib : OpenSSL) (nHeight : UInt32) {n m : UInt32}
    (h : coinBaseScript lib nHeight n = coinBaseScript lib nHeight m) : n = m := by
  have hpush := List.append_cancel_left (List.append_cancel_right h)
  rw [pushData_of_length_le (length_getvch_le lib n), pushData_of_length_le (length_getvch_le lib m)] at hpush
  exact getvch_injective lib (List.cons.inj hpush).2

theorem coinBaseScript_ne_nil (lib : OpenSSL) (nHeight nExtraNonce : UInt32) :
    coinBaseScript lib nHeight nExtraNonce ≠ [] := by
  rw [coinBaseScript, pushData_of_length_le (length_getvch_le lib nExtraNonce)]
  simp

/-- The hashes in a Merkle tree do not collide. A transaction of 64 bytes may read as a pair of hashes. -/
structure MerkleCollisionFree (env : Env) : Prop where
  txHash : Function.Injective env.txHash
  hashPair : Function.Injective2 env.hashPair
  separate : ∀ tx : CTransaction, 64 < tx.serializeSize → ∀ a b, env.hashPair a b ≠ env.txHash tx

/-- A coinbase with a script is more than a pair of hashes. -/
theorem lt_serializeSize {tx : CTransaction} {txin : CTxIn} (hvin : txin ∈ tx.vin) (hvout : tx.vout ≠ [])
    (hsig : txin.scriptSig ≠ []) : 64 < tx.serializeSize := by
  obtain ⟨txout, hout⟩ := List.exists_mem_of_ne_nil _ hvout
  have hin : txin.serializeSize ≤ (tx.vin.map CTxIn.serializeSize).sum :=
    List.le_sum_of_mem (List.mem_map_of_mem hvin)
  have hout : txout.serializeSize ≤ (tx.vout.map CTxOut.serializeSize).sum :=
    List.le_sum_of_mem (List.mem_map_of_mem hout)
  have hscript := List.length_pos_iff.mpr hsig
  have hsizes := getSizeOfCompactSize_pos
  have h₁ := hsizes tx.vin.length
  have h₂ := hsizes tx.vout.length
  have h₃ := hsizes txin.scriptSig.length
  have h₄ := hsizes txout.scriptPubKey.length
  simp only [CTxIn.serializeSize, CTxOut.serializeSize, CScript.serializeSize] at hin hout
  unfold CTransaction.serializeSize
  omega

theorem hashPair_ne_leaf {env : Env} (hfree : MerkleCollisionFree env) {block : CBlock}
    (h : block.HasCoinBase) {scriptSig : CScript} (hsig : scriptSig ≠ []) :
    ∃ tx vtx, (block.setScriptSig scriptSig).vtx = tx :: vtx ∧ ∀ a b, env.hashPair a b ≠ env.txHash tx := by
  obtain ⟨tx, htx, hvin, hvout⟩ := h
  obtain ⟨txin, vin, hins⟩ := List.exists_cons_of_ne_nil hvin
  have hhead := CBlock.head?_setScriptSig block scriptSig
  rw [htx, Option.map_some] at hhead
  obtain ⟨vtx, hvtx⟩ := List.head?_eq_some_iff.mp hhead
  refine ⟨_, vtx, hvtx, hfree.separate _ ?_⟩
  have hmem : { txin with scriptSig } ∈ (tx.setCoinBaseSig scriptSig).vin := by
    simp [CTransaction.setCoinBaseSig, hins]
  exact lt_serializeSize hmem hvout hsig

/-- **Blocks with one Merkle root have one coinbase.** -/
theorem head?_of_buildMerkleTree_eq {env : Env} (hfree : MerkleCollisionFree env) {block block' : CBlock}
    {scriptSig scriptSig' : CScript} (h : block.HasCoinBase) (h' : block'.HasCoinBase)
    (hsig : scriptSig ≠ []) (hsig' : scriptSig' ≠ [])
    (hroot : (block.setScriptSig scriptSig).buildMerkleTree env =
      (block'.setScriptSig scriptSig').buildMerkleTree env) :
    (block.setScriptSig scriptSig).vtx.head? = (block'.setScriptSig scriptSig').vtx.head? := by
  obtain ⟨tx, vtx, hvtx, hleaf⟩ := hashPair_ne_leaf hfree h hsig
  obtain ⟨tx', vtx', hvtx', hleaf'⟩ := hashPair_ne_leaf hfree h' hsig'
  have hlevel := level_calcTreeHeight env (List.cons_ne_nil (env.txHash tx) (vtx.map env.txHash))
  have hlevel' := level_calcTreeHeight env (List.cons_ne_nil (env.txHash tx') (vtx'.map env.txHash))
  have hsame : merkleLoop env (env.txHash tx :: vtx.map env.txHash).length (env.txHash tx :: vtx.map env.txHash) =
      merkleLoop env (env.txHash tx' :: vtx'.map env.txHash).length (env.txHash tx' :: vtx'.map env.txHash) := by
    simpa [CBlock.buildMerkleTree, CBlock.txHashes, hvtx, hvtx'] using hroot
  rw [← hsame] at hlevel'
  have htx := Merkle.first_leaf_of_level_eq hfree.hashPair hleaf hleaf' hlevel hlevel'
  rw [hvtx, hvtx', hfree.txHash htx, List.head?_cons, List.head?_cons]

/-- What a transaction is made of, for a hash that does not collide. -/
def inParts (txin : CTxIn) : Nat × Nat × List Nat × Nat :=
  (txin.prevout.hash, txin.prevout.n, txin.scriptSig.map UInt8.toNat, txin.nSequence)

def outParts (txout : CTxOut) : Int × List Nat := (txout.nValue, txout.scriptPubKey.map UInt8.toNat)

def txParts (tx : CTransaction) : Int × Nat × Nat × List (Nat × Nat × List Nat × Nat) × List (Int × List Nat) :=
  (tx.nVersion, tx.nTime, tx.nLockTime, tx.vin.map inParts, tx.vout.map outParts)

theorem bytes_injective : Function.Injective (List.map UInt8.toNat) :=
  List.map_injective_iff.mpr fun _ _ => UInt8.toNat_inj.mp

theorem inParts_injective : Function.Injective inParts := by
  rintro ⟨⟨hash, n⟩, scriptSig, nSequence⟩ ⟨⟨hash', n'⟩, scriptSig', nSequence'⟩ h
  simp only [inParts, Prod.mk.injEq] at h
  obtain ⟨rfl, rfl, hsig, rfl⟩ := h
  rw [bytes_injective hsig]

theorem outParts_injective : Function.Injective outParts := by
  rintro ⟨nValue, scriptPubKey⟩ ⟨nValue', scriptPubKey'⟩ h
  simp only [outParts, Prod.mk.injEq] at h
  obtain ⟨rfl, hscript⟩ := h
  rw [bytes_injective hscript]

theorem txParts_injective : Function.Injective txParts := by
  rintro ⟨nVersion, nTime, vin, vout, nLockTime⟩ ⟨nVersion', nTime', vin', vout', nLockTime'⟩ h
  simp only [txParts, Prod.mk.injEq] at h
  obtain ⟨rfl, rfl, rfl, hvin, hvout⟩ := h
  rw [List.map_injective_iff.mpr inParts_injective hvin, List.map_injective_iff.mpr outParts_injective hvout]

/-- Surroundings in which the hashes of transactions are even, and those of pairs odd. -/
def collisionFreeEnv : Env := { sampleEnv with
  txHash := fun tx => 2 * Encodable.encode (txParts tx)
  hashPair := fun a b => 2 * Nat.pair a b + 1 }

theorem collisionFree_sample : MerkleCollisionFree collisionFreeEnv where
  txHash tx tx' h := txParts_injective (Encodable.encode_injective (Nat.eq_of_mul_eq_mul_left (by decide) h))
  hashPair a b c d h :=
    Nat.pair_eq_pair.mp (Nat.eq_of_mul_eq_mul_left (by decide : 0 < 2) (Nat.succ_injective h))
  separate tx _ a b h := by
    have hparity : ∀ n m : Nat, 2 * n + 1 ≠ 2 * m := by omega
    exact hparity _ _ h

/-- OpenSSL with the format itself for the library. -/
def mpiOpenSSL : OpenSSL where
  setWord n := n.toNat
  mpi2bn pch := mpiValue (pch.drop 4)
  bn2mpi bn := mpiSize (mpiNumber bn).length ++ mpiNumber bn
  setWord_eq _ := rfl
  mpi2bn_eq _ _ := rfl
  bn2mpi_eq _ _ := rfl

end Manna
