import Manna.Block

/-!
Answers to `getdata` (`main.cpp`: `ProcessGetData`; `net.cpp`: `SocketSendData`).

What a peer asks for waits in `vRecvGetData`; one call of `ProcessGetData` answers from its front on.
Messages wait in `vSendMsg` until the socket takes their bytes, which may happen inside the call. The
network is an oracle: what the n-th call of `send` returns.

* `processGetData_progress_iff`: when a call takes a request from the queue.
-/

namespace Manna.GetData

/-! ### The source -/

/-- `CInv`. -/
structure CInv where
  type : Int
  hash : Uint256
  deriving DecidableEq, Repr

def MSG_TX : Int := 1
def MSG_BLOCK : Int := 2
def MSG_FILTERED_BLOCK : Int := 3

/-- `ppszTypeName`. -/
def ppszTypeName : List String := ["ERROR", "tx", "block", "filtered block"]

def CInv.isKnownType (inv : CInv) : Bool := inv.type ≥ 1 ∧ inv.type < ppszTypeName.length

/-- `CInv::GetCommand`, which is called for known types only. -/
def CInv.getCommand (inv : CInv) : String := (ppszTypeName[inv.type.toNat]?).getD ""

variable (Filter MerkleBlock Stream NetMessage : Type)

/-- What is pushed: the command and what it carries. -/
inductive Message
  | block (block : CBlock)
  | merkleblock (merkleBlock : MerkleBlock)
  | tx (tx : CTransaction)
  | relayed (command : String) (stream : Stream)
  | inv (vInv : List CInv)
  | notfound (vInv : List CInv)

/-- A block of the index: `nHeight`, `IsInMainChain()` and what `ReadFromDisk` reads. -/
structure IndexedBlock where
  nHeight : Int
  isInMainChain : Bool
  block : CBlock

/-- What `ProcessGetData` reads besides the peer. -/
structure GetDataEnv where
  /-- `SendBufferSize()`. -/
  sendBufferSize : Nat
  /-- `mapBlockIndex.find`. -/
  mapBlockIndex : Uint256 → Option IndexedBlock
  /-- The height of `Checkpoints::GetLastCheckpoint`, if there is one. -/
  pcheckpoint : Option Int
  /-- `CMerkleBlock(block, filter)`: the filter after it, and `vMatchedTxn`. -/
  merkleBlock : CBlock → Filter → Filter × MerkleBlock × List (Nat × Uint256)
  /-- `mapRelay.find`. -/
  mapRelay : CInv → Option Stream
  /-- `mempool.lookup`, if it exists. -/
  mempool : Uint256 → Option CTransaction
  hashBestChain : Uint256
  /-- The bytes of a message, with its header. -/
  size : Message MerkleBlock Stream → Nat
  /-- What the n-th call of `send` for so many bytes returns. -/
  send : Nat → Nat → Int

/-- `CNode`. -/
structure CNode where
  vRecvGetData : List CInv
  vRecvMsg : List NetMessage
  vSendMsg : List (Message MerkleBlock Stream)
  nSendSize : Nat
  nSendOffset : Nat
  nSendBytes : Nat
  nBlocksRequested : Nat
  /-- The calls of `send` so far. -/
  nSends : Nat
  pfilter : Option Filter
  hashContinue : Uint256
  setInventoryKnown : CInv → Bool

variable {Filter MerkleBlock Stream NetMessage}

/-- The loop of `SocketSendData` over the messages that wait. -/
def sendLoop (env : GetDataEnv Filter MerkleBlock Stream) :
    List (Message MerkleBlock Stream) → CNode Filter MerkleBlock Stream NetMessage →
      CNode Filter MerkleBlock Stream NetMessage
  | [], pnode => { pnode with vSendMsg := [] }
  | data :: vSendMsg, pnode =>
    let nBytes := env.send pnode.nSends (env.size data - pnode.nSendOffset)
    let pnode := { pnode with nSends := pnode.nSends + 1, vSendMsg := data :: vSendMsg }
    if nBytes > 0 then
      let nSendOffset := pnode.nSendOffset + nBytes.toNat
      let pnode := { pnode with nSendBytes := (pnode.nSendBytes + nBytes.toNat) % 2 ^ 64 }
      if nSendOffset = env.size data then
        sendLoop env vSendMsg
          { pnode with nSendOffset := 0, nSendSize := pnode.nSendSize - env.size data }
      else { pnode with nSendOffset }
    else pnode

def socketSendData (env : GetDataEnv Filter MerkleBlock Stream)
    (pnode : CNode Filter MerkleBlock Stream NetMessage) :
    CNode Filter MerkleBlock Stream NetMessage :=
  sendLoop env pnode.vSendMsg pnode

/-- `PushMessage`: with an empty queue the socket is tried at once. -/
def pushMessage (env : GetDataEnv Filter MerkleBlock Stream) (message : Message MerkleBlock Stream)
    (pnode : CNode Filter MerkleBlock Stream NetMessage) :
    CNode Filter MerkleBlock Stream NetMessage :=
  let pushed := { pnode with
    vSendMsg := pnode.vSendMsg ++ [message], nSendSize := pnode.nSendSize + env.size message }
  if pnode.vSendMsg = [] then socketSendData env pushed else pushed

/-- The transactions of a merkle block that the peer does not know. -/
def pushMatched (env : GetDataEnv Filter MerkleBlock Stream) (block : CBlock)
    (vMatchedTxn : List (Nat × Uint256)) (pfrom : CNode Filter MerkleBlock Stream NetMessage) :
    CNode Filter MerkleBlock Stream NetMessage :=
  vMatchedTxn.foldl (fun pfrom pair =>
    if pfrom.setInventoryKnown ⟨MSG_TX, pair.2⟩ then pfrom
    else
      match block.vtx[pair.1]? with
      | none => pfrom
      | some tx => pushMessage env (.tx tx) pfrom) pfrom

/-- `if (send) { … }`: the block, or its merkle block and transactions, and the `inv` that makes the
peer ask for more. -/
def sendBlock (env : GetDataEnv Filter MerkleBlock Stream) (inv : CInv) (block : CBlock)
    (pfrom : CNode Filter MerkleBlock Stream NetMessage) :
    CNode Filter MerkleBlock Stream NetMessage :=
  let pfrom :=
    if inv.type = MSG_BLOCK then pushMessage env (.block block) pfrom
    else
      match pfrom.pfilter with
      | none => pfrom
      | some filter =>
        let (filter, merkleBlock, vMatchedTxn) := env.merkleBlock block filter
        pushMatched env block vMatchedTxn
          (pushMessage env (.merkleblock merkleBlock) { pfrom with pfilter := some filter })
  if inv.hash = pfrom.hashContinue then
    { pushMessage env (.inv [⟨MSG_BLOCK, env.hashBestChain⟩]) pfrom with hashContinue := 0 }
  else pfrom

/-- A request for a block. A block that is unknown, or old and not in the main chain, is not sent. -/
def serveBlock (env : GetDataEnv Filter MerkleBlock Stream) (inv : CInv)
    (pfrom : CNode Filter MerkleBlock Stream NetMessage) :
    CNode Filter MerkleBlock Stream NetMessage :=
  let pfrom := { pfrom with nBlocksRequested := (pfrom.nBlocksRequested + 1) % 2 ^ 64 }
  match env.mapBlockIndex inv.hash with
  | none => pfrom
  | some entry =>
    let old := env.pcheckpoint.any fun nHeight => entry.nHeight < nHeight
    if old && !entry.isInMainChain then pfrom else sendBlock env inv entry.block pfrom

/-- A request for something else that is known by its type: the peer, and `pushed`. -/
def serveRelay (env : GetDataEnv Filter MerkleBlock Stream) (inv : CInv)
    (pfrom : CNode Filter MerkleBlock Stream NetMessage) :
    CNode Filter MerkleBlock Stream NetMessage × Bool :=
  match env.mapRelay inv with
  | some stream => (pushMessage env (.relayed inv.getCommand stream) pfrom, true)
  | none =>
    if inv.type = MSG_TX then
      match env.mempool inv.hash with
      | some tx => (pushMessage env (.tx tx) pfrom, true)
      | none => (pfrom, false)
    else (pfrom, false)

/-- The loop of `ProcessGetData`: the requests that are left, the peer and `vNotFound`. `Inventory`,
which counts requests for the wallets, is left out. -/
def getDataLoop (env : GetDataEnv Filter MerkleBlock Stream) :
    List CInv → List CInv → CNode Filter MerkleBlock Stream NetMessage →
      List CInv × CNode Filter MerkleBlock Stream NetMessage × List CInv
  | [], vNotFound, pfrom => ([], pfrom, vNotFound)
  | inv :: it, vNotFound, pfrom =>
    if pfrom.nSendSize ≥ env.sendBufferSize then (inv :: it, pfrom, vNotFound)
    else if pfrom.nBlocksRequested * 80 % 2 ^ 64 > pfrom.nSendBytes then
      (inv :: it, pfrom, vNotFound)
    else if inv.type = MSG_BLOCK ∨ inv.type = MSG_FILTERED_BLOCK then
      (it, serveBlock env inv pfrom, vNotFound)
    else if inv.isKnownType then
      let (pfrom, pushed) := serveRelay env inv pfrom
      getDataLoop env it (if pushed then vNotFound else vNotFound ++ [inv]) pfrom
    else getDataLoop env it vNotFound pfrom

def processGetData (env : GetDataEnv Filter MerkleBlock Stream)
    (pfrom : CNode Filter MerkleBlock Stream NetMessage) :
    CNode Filter MerkleBlock Stream NetMessage :=
  let (it, pfrom, vNotFound) := getDataLoop env pfrom.vRecvGetData [] pfrom
  let pfrom := { pfrom with vRecvGetData := it }
  if vNotFound = [] then pfrom else pushMessage env (.notfound vNotFound) pfrom

/-! ### One call -/

section Call

variable (env : GetDataEnv Filter MerkleBlock Stream) {pnode : CNode Filter MerkleBlock Stream NetMessage}

theorem sendLoop_frame (vSendMsg : List (Message MerkleBlock Stream))
    (pnode : CNode Filter MerkleBlock Stream NetMessage) :
    (sendLoop env vSendMsg pnode).vRecvGetData = pnode.vRecvGetData ∧
      (sendLoop env vSendMsg pnode).nBlocksRequested = pnode.nBlocksRequested ∧
      (sendLoop env vSendMsg pnode).vRecvMsg = pnode.vRecvMsg := by
  induction vSendMsg generalizing pnode with
  | nil => exact ⟨rfl, rfl, rfl⟩
  | cons data vSendMsg ih =>
    unfold sendLoop
    dsimp only
    split
    · split
      · exact ih _
      · exact ⟨rfl, rfl, rfl⟩
    · exact ⟨rfl, rfl, rfl⟩

theorem pushMessage_vRecvGetData (message : Message MerkleBlock Stream)
    (pnode : CNode Filter MerkleBlock Stream NetMessage) :
    (pushMessage env message pnode).vRecvGetData = pnode.vRecvGetData := by
  unfold pushMessage
  dsimp only
  split
  · exact (sendLoop_frame env _ _).1
  · rfl

theorem getDataLoop_suffix (it vNotFound : List CInv) (pfrom : CNode Filter MerkleBlock Stream NetMessage) :
    (getDataLoop env it vNotFound pfrom).1 <:+ it := by
  induction it generalizing vNotFound pfrom with
  | nil => exact List.suffix_refl _
  | cons inv it ih =>
    unfold getDataLoop
    split
    · exact List.suffix_refl _
    split
    · exact List.suffix_refl _
    split
    · exact List.suffix_cons inv it
    split
    · exact (ih _ _).trans (List.suffix_cons inv it)
    · exact (ih _ _).trans (List.suffix_cons inv it)

theorem processGetData_vRecvGetData (pfrom : CNode Filter MerkleBlock Stream NetMessage) :
    (processGetData env pfrom).vRecvGetData = (getDataLoop env pfrom.vRecvGetData [] pfrom).1 := by
  unfold processGetData
  dsimp only
  split
  · rfl
  · rw [pushMessage_vRecvGetData]

/-- Everything that was pushed has been sent. -/
structure SendBufferEmpty (pnode : CNode Filter MerkleBlock Stream NetMessage) : Prop where
  vSendMsg_eq : pnode.vSendMsg = []
  nSendSize_eq : pnode.nSendSize = 0
  nSendOffset_eq : pnode.nSendOffset = 0

/-- The requests for blocks so far are paid for by the bytes that were sent. -/
def Paid (pnode : CNode Filter MerkleBlock Stream NetMessage) : Prop :=
  pnode.nBlocksRequested * 80 % 2 ^ 64 ≤ pnode.nSendBytes

/-- **A call makes progress** exactly when the requests for blocks are paid for, and the send buffer has
a size. -/
theorem processGetData_progress_iff (hempty : SendBufferEmpty pnode)
    (hqueue : pnode.vRecvGetData ≠ []) :
    (processGetData env pnode).vRecvGetData.length < pnode.vRecvGetData.length ↔
      0 < env.sendBufferSize ∧ Paid pnode := by
  rw [processGetData_vRecvGetData]
  cases hit : pnode.vRecvGetData with
  | nil => exact absurd hit hqueue
  | cons inv it =>
    constructor
    · intro hlt
      rw [getDataLoop, hempty.nSendSize_eq] at hlt
      by_cases hsize : 0 ≥ env.sendBufferSize
      · rw [if_pos hsize] at hlt
        exact absurd hlt (Nat.lt_irrefl _)
      · rw [if_neg hsize] at hlt
        refine ⟨Nat.not_le.mp hsize, Nat.not_lt.mp fun hunpaid => ?_⟩
        rw [if_pos hunpaid] at hlt
        exact absurd hlt (Nat.lt_irrefl _)
    · rintro ⟨hsize, hpaid⟩
      have hfirst : (getDataLoop env (inv :: it) [] pnode).1 <:+ it := by
        rw [getDataLoop, hempty.nSendSize_eq, if_neg (Nat.not_le.mpr hsize),
          if_neg (Nat.not_lt.mpr hpaid)]
        split
        · exact List.suffix_refl it
        split
        · exact getDataLoop_suffix env it _ _
        · exact getDataLoop_suffix env it _ _
      exact Nat.lt_succ_of_le hfirst.length_le

end Call

/-- A node that has no block. -/
def emptyEnv : GetDataEnv Unit Unit Unit where
  sendBufferSize := 1000000
  mapBlockIndex _ := none
  pcheckpoint := none
  merkleBlock _ filter := (filter, (), [])
  mapRelay _ := none
  mempool _ := none
  hashBestChain := 0
  size _ := 24
  send _ nBytes := nBytes

def newPeer (nSendBytes : Nat) (vRecvGetData : List CInv) : CNode Unit Unit Unit Unit where
  vRecvGetData := vRecvGetData
  vRecvMsg := []
  vSendMsg := []
  nSendSize := 0
  nSendOffset := 0
  nSendBytes := nSendBytes
  nBlocksRequested := 0
  nSends := 0
  pfilter := some ()
  hashContinue := 0
  setInventoryKnown _ := false

/-- With the first request a call makes progress. -/
theorem processGetData_progress_newPeer :
    (processGetData emptyEnv (newPeer 150 [⟨MSG_BLOCK, 1⟩])).vRecvGetData.length < 1 :=
  (processGetData_progress_iff emptyEnv
    (show SendBufferEmpty (newPeer 150 [⟨MSG_BLOCK, 1⟩]) from ⟨rfl, rfl, rfl⟩)
    (List.cons_ne_nil _ _)).mpr ⟨by decide, by unfold Paid; decide⟩

/-- After `version` and `verack`, 150 bytes together, a peer asks for three unknown blocks: two calls
take two requests and send nothing, and the third call takes none. -/
theorem processGetData_stuck :
    ∃ pnode, pnode = (processGetData emptyEnv)^[2]
        (newPeer 150 [⟨MSG_BLOCK, 1⟩, ⟨MSG_BLOCK, 2⟩, ⟨MSG_BLOCK, 3⟩]) ∧
      SendBufferEmpty pnode ∧ pnode.vRecvGetData = [⟨MSG_BLOCK, 3⟩] ∧
      (processGetData emptyEnv pnode).vRecvGetData = [⟨MSG_BLOCK, 3⟩] :=
  ⟨_, rfl, ⟨rfl, rfl, rfl⟩, rfl, rfl⟩

end Manna.GetData
