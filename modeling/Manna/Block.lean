import Manna.BigNum
import Manna.Validation

/-!
Blocks and block index entries (`main.h`: `CBlockHeader`, `CBlock`, `CBlockIndex`), the
rewards (`manna.cpp`) and the parts of the program that validation only calls
(`Env`: hashes, the script interpreter, settings).
-/

namespace Manna

/-- `CBlockHeader`. -/
structure CBlockHeader where
  nVersion : Int
  hashPrevBlock : Uint256
  hashMerkleRoot : Uint256
  nTime : Nat
  nBits : Nat
  nNonce : Nat
deriving DecidableEq, Repr

/-- `CBlock` of the manna build. -/
structure CBlock extends CBlockHeader where
  vtx : List CTransaction
  vchBlockSig : List UInt8
deriving DecidableEq, Repr

def CBlockHeader.getBlockTime (header : CBlockHeader) : Int := header.nTime

/-- `GetSerializeSize` of a block: an 80 byte header, the transactions, the signature. -/
def CBlock.serializeSize (block : CBlock) : Nat :=
  80 + (getSizeOfCompactSize block.vtx.length + (block.vtx.map CTransaction.serializeSize).sum) +
    (getSizeOfCompactSize block.vchBlockSig.length + block.vchBlockSig.length)

def CBlock.getMaxTransactionTime (block : CBlock) : Int :=
  block.vtx.foldl (fun maxTransactionTime tx => max maxTransactionTime (tx.nTime : Int)) 0

/-- `nStatus`: the `BLOCK_VALID_MASK` level and the flag bits. -/
structure BlockStatus where
  nValid : Nat
  haveData : Bool
  haveUndo : Bool
  failedValid : Bool
  failedChild : Bool
deriving DecidableEq, Repr

def BLOCK_VALID_TRANSACTIONS : Nat := 3
def BLOCK_VALID_SCRIPTS : Nat := 5

/-- `nStatus & BLOCK_FAILED_MASK`. -/
def BlockStatus.failed (status : BlockStatus) : Bool := status.failedValid || status.failedChild

/-- `CBlockIndex`. Entries point to each other by block hash; files are addressed by
block hash too, so a position is only known or not (`haveData`, `haveUndo`). -/
structure CBlockIndex where
  phashBlock : Uint256
  pprev : Option Uint256
  pnext : Option Uint256
  nHeight : Int
  nChainTrust : Uint256
  nStatus : BlockStatus
  nMoneySupply : Int
  nTime : Nat
  nBits : Nat
deriving DecidableEq, Repr

def CBlockIndex.getBlockTime (pindex : CBlockIndex) : Int := pindex.nTime

/-- `GetBlockTrust`: the expected number of hashes. -/
def CBlockIndex.getBlockTrust (pindex : CBlockIndex) : Nat :=
  let bnTarget := setCompact pindex.nBits
  if bnTarget ≤ 0 then 0 else 2 ^ 256 / (bnTarget.toNat + 1)

/-! ### The surroundings of validation -/

/-- Flags for `VerifyScript`. -/
structure ScriptFlags where
  p2sh : Bool
  strictEnc : Bool
  noCache : Bool
deriving DecidableEq, Repr

/-- What validation calls but does not define: the hash functions, the script
interpreter and the signature check built on it, the chain parameters and settings.
The checks below are stated for any of these. -/
structure Env where
  /-- `CTransaction::GetHash`. -/
  txHash : CTransaction → Uint256
  /-- `CBlockHeader::GetHash`. -/
  blockHash : CBlockHeader → Uint256
  /-- `CBlockHeader::GetPoWHash`. -/
  powHash : CBlockHeader → Uint256
  /-- `Hash` of two concatenated hashes. -/
  hashPair : Uint256 → Uint256 → Uint256
  /-- `VerifyScript(scriptSig, scriptPubKey, txTo, nIn, flags, 0)`. -/
  verifyScript : CScript → CScript → CTransaction → Nat → ScriptFlags → Bool
  /-- `::IsStandard(scriptPubKey)`. -/
  isStandardScript : CScript → Bool
  /-- One round of `AreInputsStandard`: the output spent, the transaction, the input. -/
  isStandardInput : CTxOut → CTransaction → Nat → Bool
  /-- `CBlock::CheckBlockSignature`. -/
  checkBlockSignature : CBlock → Bool
  hashGenesisBlock : Uint256
  fTestNet : Bool
  fTxIndex : Bool
  nScriptCheckThreads : Nat
  fees : FeeSettings

/-- `CBlock::GetHash`. -/
def CBlock.getHash (env : Env) (block : CBlock) : Uint256 := env.blockHash block.toCBlockHeader

/-- `~uint256(0) >> 28`. -/
def bnProofOfWorkLimit : Int := 2 ^ 228 - 1

def TargetInRange (bnTarget : Int) : Prop := ¬ (bnTarget ≤ 0 ∨ bnTarget > bnProofOfWorkLimit)

instance (bnTarget : Int) : Decidable (TargetInRange bnTarget) := by
  unfold TargetInRange
  infer_instance

/-- `CheckProofOfWork`; `false` in both of its error cases. -/
def checkProofOfWork (hash : Uint256) (nBits : Nat) : Bool :=
  let bnTarget := setCompact nBits
  if ¬ TargetInRange bnTarget then false
  else if (hash : Int) > bnTarget then false
  else true

/-- One level of the tree from the level below; a last odd node is paired with itself. -/
def merkleLevel (env : Env) : List Uint256 → List Uint256
  | [] => []
  | [a] => [env.hashPair a a]
  | a :: b :: level => env.hashPair a b :: merkleLevel env level

def merkleLoop (env : Env) : Nat → List Uint256 → Uint256
  | _, [] => 0
  | _, [root] => root
  | 0, root :: _ => root
  | fuel + 1, level => merkleLoop env fuel (merkleLevel env level)

/-- `GetTxHash(i)` for all `i`: the leaves `BuildMerkleTree` starts from. -/
def CBlock.txHashes (env : Env) (block : CBlock) : List Uint256 := block.vtx.map env.txHash

def CBlock.buildMerkleTree (env : Env) (block : CBlock) : Uint256 :=
  merkleLoop env block.vtx.length (block.txHashes env)

/-! ### Rewards -/

def getProofOfWorkRewardTestNet (nHeight : Int) : Int :=
  if nHeight = 1 then 10000000000 * COIN
  else if nHeight < 500 then CENT
  else if nHeight < 510 then 6250000
  else if nHeight < 520 then 12500000
  else if nHeight < 530 then 25 * COIN
  else if nHeight < 540 then 50 * COIN
  else if nHeight < 550 then 100 * COIN
  else if nHeight < 560 then 200 * COIN
  else if nHeight < 1000 then 400 * COIN
  else if nHeight < 1500 then 200 * COIN
  else if nHeight < 2000 then 100 * COIN
  else if nHeight < 2500 then 50 * COIN
  else if nHeight < 3000 then 25 * COIN
  else if nHeight < 3500 then 12500000
  else if nHeight < 4000 then 6250000
  else if nHeight < 4500 then 3130000
  else if nHeight < 5000 then 1570000
  else COIN

/-- `GetProofOfWorkReward(int)`; fractional multiples of `COIN` are written out. -/
def getProofOfWorkReward (env : Env) (nHeight : Int) : Int :=
  if env.fTestNet then getProofOfWorkRewardTestNet nHeight
  else if nHeight = 1 then 10000000000 * COIN
  else if nHeight < 50000 then CENT
  else if nHeight < 51000 then 6250000
  else if nHeight < 52000 then 12500000
  else if nHeight < 53000 then 25 * COIN
  else if nHeight < 54000 then 50 * COIN
  else if nHeight < 55000 then 100 * COIN
  else if nHeight < 56000 then 200 * COIN
  else if nHeight < 100000 then 400 * COIN
  else if nHeight < 150000 then 200 * COIN
  else if nHeight < 200000 then 100 * COIN
  else if nHeight < 250000 then 50 * COIN
  else if nHeight < 300000 then 25 * COIN
  else if nHeight < 1100000 then 10 * COIN
  else if nHeight < 1200000 then 5 * COIN
  else if nHeight < 1300000 then 2500000
  else 1 * COIN

/-- `GetBlockValue`: `GetSeigniorage` with no coin age. The fees are not part of it. -/
def getBlockValue (env : Env) (pindex : CBlockIndex) (_nFees : Int) : Int :=
  getProofOfWorkReward env pindex.nHeight

/-- A bound on the reward: the planned distribution of the first block, then the maximum
reward. -/
def maxReward (nHeight : Int) : Int := if nHeight = 1 then 10000000000 * COIN else 400 * COIN

theorem ite_range {c : Prop} [Decidable c] {a b lo hi : Int} (ha : lo ≤ a ∧ a ≤ hi)
    (hb : lo ≤ b ∧ b ≤ hi) : lo ≤ (if c then a else b) ∧ (if c then a else b) ≤ hi := by
  split
  · exact ha
  · exact hb

theorem getProofOfWorkReward_range (env : Env) (nHeight : Int) :
    0 ≤ getProofOfWorkReward env nHeight ∧ getProofOfWorkReward env nHeight ≤ maxReward nHeight := by
  unfold getProofOfWorkReward getProofOfWorkRewardTestNet maxReward
  by_cases hfirst : nHeight = 1
  · simp only [hfirst, if_true]
    exact ite_range (by decide) (by decide)
  · simp only [hfirst, if_false]
    repeat' apply ite_range
    all_goals decide

/-- Surroundings in which a transaction is named by its lock time and every script and
signature is accepted. -/
def sampleEnv : Env where
  txHash tx := tx.nLockTime
  blockHash header := header.nNonce
  powHash _ := 0
  hashPair _ _ := 0
  verifyScript _ _ _ _ _ := true
  isStandardScript _ := true
  isStandardInput _ _ _ := true
  checkBlockSignature _ := true
  hashGenesisBlock := 1000
  fTestNet := false
  fTxIndex := false
  nScriptCheckThreads := 0
  fees := .default

def sampleIn (hash : Uint256) (n : Nat) : CTxIn := ⟨⟨hash, n⟩, [0, 0], UINT_MAX⟩

def sampleTx (name nTime : Nat) (vin : List CTxIn) (values : List Int) : CTransaction :=
  ⟨1, nTime, vin, values.map fun nValue => ⟨nValue, []⟩, name⟩

def sampleCoinBase (name nTime : Nat) (nValue : Int) : CTransaction :=
  sampleTx name nTime [⟨.null, [0, 0], UINT_MAX⟩] [nValue]

def sampleBlock (name hashPrevBlock nTime : Nat) (vtx : List CTransaction) : CBlock :=
  ⟨⟨1, hashPrevBlock, 0, nTime, 0x1d0fffff, name⟩, vtx, []⟩

def sampleEntry (name : Uint256) (pprev : Option Uint256) (nHeight : Int) (nTime : Nat) :
    CBlockIndex :=
  ⟨name, pprev, none, nHeight, nHeight.toNat, ⟨BLOCK_VALID_TRANSACTIONS, true, false, false, false⟩,
    0, nTime, 0x1d0fffff⟩

end Manna
