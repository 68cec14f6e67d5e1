import Manna.ExtraNonce

/-!
Work for external miners (`rpcmining.cpp`: `getwork`, `getworkex`).

Each of the two calls keeps the blocks it works on in static variables of its own: templates, a map from each
root handed out to its template and the script of its coinbase, and the counter for the next script. The
function that writes the script, `IncrementExtraNonce`, keeps the tip it was last called for, and is shared by
the two calls and by the miner of the program.

Work can be handed out twice, or be lost: where work for another tip restarts the counter, where the counter
wraps, where both calls give out one coinbase, where a new block for the tip cannot be created, and where
`getworkex` replaces a coinbase that other roots stand for.

* `MiningState.Keeps`: when a step does nothing of this kind;
* `Ledger.step`: what every such step preserves.
-/

namespace Manna

namespace GetWork

/-! ### The calls -/

/-- The calls, each with static variables of its own. -/
inductive Command
  | getwork
  | getworkex
deriving DecidableEq, Repr

/-- The static variables of a call. A pointer to a template is its place in `vNewBlockTemplate`. -/
structure WorkState where
  mapNewBlock : Uint256 → Option (Nat × CScript)
  vNewBlockTemplate : List CBlock
  nTransactionsUpdatedLast : UInt32
  pindexPrev : Option CBlockIndex
  nStart : Int
  pblocktemplate : Option Nat
  nExtraNonce : UInt32

/-- The tip, the number of changes of the pool, the static variable of `IncrementExtraNonce`, and those of the
calls. -/
structure MiningState where
  pindexBest : CBlockIndex
  nTransactionsUpdated : UInt32
  hashPrevBlock : Uint256
  works : Command → WorkState

/-- What a request reads: `GetTime()`, `GetAdjustedTime()`, and what `CreateNewBlock` finds, if it does not
fail. -/
structure Request where
  nTime : Int
  nAdjustedTime : Int
  source : Option BlockSource

/-- What the bytes of a replacement leave in `vtx[0]`, and whether the transaction could be read to its end. -/
structure Replacement where
  tx : CTransaction
  complete : Bool

/-- The parameters of a call: none, or the data of a header and perhaps a coinbase. -/
inductive Params
  | request (request : Request)
  | submit (pdata : CBlockHeader) (coinbase : Option Replacement)

namespace MiningState

def setWork (s : MiningState) (cmd : Command) (work : WorkState) : MiningState :=
  { s with works := Function.update s.works cmd work }

@[simp] theorem setWork_self (s : MiningState) (cmd : Command) (work : WorkState) :
    (s.setWork cmd work).works cmd = work := Function.update_self ..

theorem setWork_of_ne (s : MiningState) {cmd other : Command} (h : other ≠ cmd) (work : WorkState) :
    (s.setWork cmd work).works other = s.works other := Function.update_of_ne h ..

/-- What holds of the static variables of one call, and of those of the others before. -/
theorem forall_setWork {p : Command → WorkState → Prop} {s : MiningState} {cmd : Command} {work : WorkState}
    (hcmd : p cmd work) (hothers : ∀ other, other ≠ cmd → p other (s.works other)) (other : Command) :
    p other ((s.setWork cmd work).works other) := by
  by_cases hother : other = cmd
  · rw [hother, setWork_self]
    exact hcmd
  · rw [setWork_of_ne s hother]
    exact hothers other hother

@[simp] theorem setWork_works (s : MiningState) (cmd : Command) : s.setWork cmd (s.works cmd) = s := by
  rw [setWork, Function.update_eq_self]

/-- `pindexPrev != pindexBest ||
(nTransactionsUpdated != nTransactionsUpdatedLast && GetTime() - nStart > 60)`. -/
def Outdated (s : MiningState) (work : WorkState) (nTime : Int) : Prop :=
  work.pindexPrev ≠ some s.pindexBest ∨
    (s.nTransactionsUpdated ≠ work.nTransactionsUpdatedLast ∧ nTime - work.nStart > 60)

instance (s : MiningState) (work : WorkState) (nTime : Int) : Decidable (s.Outdated work nTime) := by
  unfold Outdated
  infer_instance

/-- The old blocks are obsolete when the tip is another one. -/
def deallocate (s : MiningState) (work : WorkState) : WorkState :=
  if work.pindexPrev ≠ some s.pindexBest then
    { work with mapNewBlock := fun _ => none, vNewBlockTemplate := [] }
  else work

/-- A new template; `pindexPrev` stays cleared where `CreateNewBlock` fails. -/
def renew (s : MiningState) (work : WorkState) (nTime : Int) (created : Option CBlock) : WorkState :=
  let work := s.deallocate work
  let work := { work with
    pindexPrev := none
    nTransactionsUpdatedLast := s.nTransactionsUpdated
    nStart := nTime
    pblocktemplate := none }
  match created with
  | none => work
  | some pblock =>
    { work with
      pblocktemplate := some work.vNewBlockTemplate.length
      vNewBlockTemplate := work.vNewBlockTemplate ++ [pblock]
      pindexPrev := some s.pindexBest }

end MiningState

/-- `pindexPrev` and the template worked on; `none` after a failure, where the call has thrown. -/
def WorkState.current (work : WorkState) : Option (CBlockIndex × Nat × CBlock) := do
  let pindexPrev ← work.pindexPrev
  let i ← work.pblocktemplate
  let pblock ← work.vNewBlockTemplate[i]?
  return (pindexPrev, i, pblock)

/-- The place of a saved block, its script and the template; `none` where the root is not in the map. -/
def WorkState.savedBlock (work : WorkState) (hashMerkleRoot : Uint256) : Option (Nat × CScript × CBlock) := do
  let (i, scriptSig) ← work.mapNewBlock hashMerkleRoot
  let pblock ← work.vNewBlockTemplate[i]?
  return (i, scriptSig, pblock)

/-- The template in its place again, and saved under its root: `mapNewBlock[pblock->hashMerkleRoot] =
make_pair(pblock, pblock->vtx[0].vin[0].scriptSig)`. -/
def WorkState.save (work : WorkState) (i : Nat) (pblock : CBlock) (nExtraNonce : UInt32) : WorkState :=
  { work with
    vNewBlockTemplate := work.vNewBlockTemplate.set i pblock
    nExtraNonce := nExtraNonce
    mapNewBlock := Function.update work.mapNewBlock pblock.hashMerkleRoot (some (i, pblock.coinBaseSig)) }

@[simp] theorem WorkState.save_mapNewBlock (work : WorkState) (i : Nat) (pblock : CBlock) (nExtraNonce : UInt32) :
    (work.save i pblock nExtraNonce).mapNewBlock =
      Function.update work.mapNewBlock pblock.hashMerkleRoot (some (i, pblock.coinBaseSig)) := rfl

section

variable (env : Env) (ancestors : CBlockIndex → List CBlockIndex) (lib : OpenSSL)

/-- The static variables of a call after the first half of a request: with a new template where one is due. -/
def MiningState.prepare (s : MiningState) (cmd : Command) (request : Request) : WorkState :=
  let work := s.works cmd
  if s.Outdated work request.nTime then
    s.renew work request.nTime (request.source.map (createNewBlock env ancestors s.pindexBest))
  else work

/-- The block of the template with a script of its own, which is saved under the new root. -/
def handOut (s : MiningState) (cmd : Command) (work : WorkState) (nAdjustedTime : Int) (pindexPrev : CBlockIndex)
    (i : Nat) (pblock : CBlock) : MiningState × CBlock :=
  let pblock := pblock.updateTime env ancestors pindexPrev nAdjustedTime
  let pblock := { pblock with nNonce := 0 }
  let (hashPrevBlock, pblock, nExtraNonce) :=
    incrementExtraNonce env lib s.hashPrevBlock pblock pindexPrev work.nExtraNonce
  ({ s with hashPrevBlock := hashPrevBlock }.setWork cmd (work.save i pblock nExtraNonce), pblock)

/-- A call without parameters, of a program that is connected and has the chain: the block that is handed
out. -/
def requestWork (s : MiningState) (cmd : Command) (request : Request) : MiningState × Option CBlock :=
  let work := s.prepare env ancestors cmd request
  match work.current with
  | none => (s.setWork cmd work, none)
  | some (pindexPrev, i, pblock) =>
    let (s, pblock) := handOut env ancestors lib s cmd work request.nAdjustedTime pindexPrev i pblock
    (s, some pblock)

/-- The block of a template after `nTime`, `nNonce` and the coinbase have been filled in. -/
def fillIn (pblock : CBlock) (pdata : CBlockHeader) (scriptSig : CScript) (coinbase : Option Replacement) :
    CBlock :=
  let pblock := { pblock with nTime := pdata.nTime, nNonce := pdata.nNonce }
  match coinbase with
  | none => (pblock.setScriptSig scriptSig).setMerkleRoot env
  | some replacement =>
    let pblock := { pblock with vtx := pblock.vtx.modifyHead fun _ => replacement.tx }
    if replacement.complete then pblock.setMerkleRoot env else pblock

/-- A call with data: the block that `CheckWork` is called with; `none` where the root is not saved or the
coinbase cannot be read. -/
def submitWork (s : MiningState) (cmd : Command) (pdata : CBlockHeader) (coinbase : Option Replacement) :
    MiningState × Option CBlock :=
  let work := s.works cmd
  match work.savedBlock pdata.hashMerkleRoot with
  | none => (s, none)
  | some (i, scriptSig, pblock) =>
    let pblock := fillIn env pblock pdata scriptSig coinbase
    let work := { work with vNewBlockTemplate := work.vNewBlockTemplate.set i pblock }
    (s.setWork cmd work, if coinbase.all (·.complete) then some pblock else none)

/-- `getwork [data]`; with more parameters it throws its help. -/
def getwork (s : MiningState) : Params → MiningState × Option CBlock
  | .request request => requestWork env ancestors lib s .getwork request
  | .submit pdata none => submitWork env s .getwork pdata none
  | .submit _ (some _) => (s, none)

def getworkex (s : MiningState) : Params → MiningState × Option CBlock
  | .request request => requestWork env ancestors lib s .getworkex request
  | .submit pdata coinbase => submitWork env s .getworkex pdata coinbase

def call : Command → MiningState → Params → MiningState × Option CBlock
  | .getwork => getwork env ancestors lib
  | .getworkex => getworkex env ancestors lib

/-! ### Runs -/

/-- What happens around the calls: another miner has its block changed, the pool changes, a chain with more
trust becomes the best one. -/
inductive MiningEvent
  | call (cmd : Command) (params : Params)
  | incrementExtraNonce (pblock : CBlock) (pindexPrev : CBlockIndex) (nExtraNonce : UInt32)
  | poolUpdated
  | setBestChain (pindexNew : CBlockIndex)

/-- Work that was handed out: by which call, for which tip, and the block behind it. -/
structure Handed where
  cmd : Command
  pindexPrev : CBlockIndex
  pblock : CBlock

/-- The program, and the work it has handed out, the last first. -/
structure Ledger where
  state : MiningState
  handed : List Handed

/-- A call; a request hands out a block. -/
def Ledger.call (l : Ledger) (cmd : Command) : Params → Ledger
  | .request request =>
    let (state, pblock) := GetWork.call env ancestors lib cmd l.state (.request request)
    ⟨state, pblock.toList.map (⟨cmd, l.state.pindexBest, ·⟩) ++ l.handed⟩
  | .submit pdata coinbase => ⟨(GetWork.call env ancestors lib cmd l.state (.submit pdata coinbase)).1, l.handed⟩

def step (l : Ledger) : MiningEvent → Ledger
  | .call cmd params => l.call env ancestors lib cmd params
  | .incrementExtraNonce pblock pindexPrev nExtraNonce =>
    let (hashPrevBlock, _, _) :=
      Manna.incrementExtraNonce env lib l.state.hashPrevBlock pblock pindexPrev nExtraNonce
    { l with state.hashPrevBlock := hashPrevBlock }
  | .poolUpdated => { l with state.nTransactionsUpdated := l.state.nTransactionsUpdated + 1 }
  | .setBestChain pindexNew =>
    if l.state.pindexBest.nChainTrust < pindexNew.nChainTrust then
      { l with state := { l.state with
        pindexBest := pindexNew, nTransactionsUpdated := l.state.nTransactionsUpdated + 1 } }
    else l

def run (l : Ledger) (events : List MiningEvent) : Ledger := events.foldl (step env ancestors lib) l

def start (pindexBest : CBlockIndex) (nTransactionsUpdated : UInt32) : Ledger :=
  ⟨⟨pindexBest, nTransactionsUpdated, 0, fun _ => ⟨fun _ => none, [], 0, none, 0, none, 0⟩⟩, []⟩

def DistinctRoots (handed : List Handed) : Prop :=
  handed.Pairwise fun work work' =>
    work.pindexPrev = work'.pindexPrev → work.pblock.hashMerkleRoot ≠ work'.pblock.hashMerkleRoot

/-- Work for the tip that is submitted to its call gives its block, with the submitted time and nonce. -/
def Rebuilds (l : Ledger) : Prop :=
  ∀ work ∈ l.handed, work.pindexPrev = l.state.pindexBest →
    ∀ pdata : CBlockHeader, pdata.hashMerkleRoot = work.pblock.hashMerkleRoot →
      (GetWork.call env ancestors lib work.cmd l.state (.submit pdata none)).2 =
        some { work.pblock with nTime := pdata.nTime, nNonce := pdata.nNonce }

/-- No work is lost, and none is handed out twice. -/
def WorkKept (l : Ledger) : Prop := DistinctRoots l.handed ∧ Rebuilds env ancestors lib l

/-- A request that neither repeats nor drops work. -/
@[mk_iff]
structure MiningState.KeepsRequest (s : MiningState) (cmd : Command) (request : Request) : Prop where
  /-- The counter of a call that works on the tip is not restarted. -/
  counting : (s.works cmd).pindexPrev = some s.pindexBest → s.hashPrevBlock = s.pindexBest.phashBlock
  /-- The counter does not wrap. -/
  unwrapped : s.hashPrevBlock = s.pindexBest.phashBlock → (s.works cmd).nExtraNonce.toNat + 1 < 2 ^ 32
  /-- A new block for the tip that is worked on can be created. -/
  created : (s.works cmd).pindexPrev = some s.pindexBest → s.Outdated (s.works cmd) request.nTime →
    request.source ≠ none
  /-- The other call does not work on the coinbase of a new block. -/
  apart : s.Outdated (s.works cmd) request.nTime → ∀ source ∈ request.source, ∀ other, other ≠ cmd →
    (s.works other).pindexPrev = some s.pindexBest → ∀ block ∈ (s.works other).vNewBlockTemplate,
      ¬ CBlock.SameCoinBase (createNewBlock env ancestors s.pindexBest source) block

/-- A replacement of a saved coinbase may change its script only. -/
def MiningState.KeepsCoinBase (s : MiningState) (pdata : CBlockHeader) (replacement : Replacement) : Prop :=
  ∀ saved ∈ (s.works .getworkex).savedBlock pdata.hashMerkleRoot,
    saved.2.2.vtx.head?.map (·.setCoinBaseSig []) = some (replacement.tx.setCoinBaseSig [])

/-- A step that neither repeats nor drops work. -/
def MiningState.Keeps (s : MiningState) : MiningEvent → Prop
  | .call cmd (.request request) => s.KeepsRequest env ancestors cmd request
  | .call .getworkex (.submit pdata (some replacement)) => s.KeepsCoinBase pdata replacement
  | _ => True

def RunKeeps : Ledger → List MiningEvent → Prop
  | _, [] => True
  | l, event :: events => l.state.Keeps env ancestors event ∧ RunKeeps (step env ancestors lib l event) events

instance {p : Command → Prop} [DecidablePred p] : Decidable (∀ cmd, p cmd) :=
  decidable_of_iff (p .getwork ∧ p .getworkex)
    ⟨fun h cmd => by cases cmd; exacts [h.1, h.2], fun h => ⟨h .getwork, h .getworkex⟩⟩

instance (s : MiningState) (cmd : Command) (request : Request) : Decidable (s.KeepsRequest env ancestors cmd request) :=
  decidable_of_iff' _ (MiningState.keepsRequest_iff env ancestors s cmd request)

instance (s : MiningState) (pdata : CBlockHeader) (replacement : Replacement) :
    Decidable (s.KeepsCoinBase pdata replacement) := by
  unfold MiningState.KeepsCoinBase
  infer_instance

instance (s : MiningState) : DecidablePred (s.Keeps env ancestors)
  | .call cmd (.request request) => inferInstanceAs (Decidable (s.KeepsRequest env ancestors cmd request))
  | .call .getworkex (.submit pdata (some replacement)) =>
    inferInstanceAs (Decidable (s.KeepsCoinBase pdata replacement))
  | .call .getworkex (.submit _ none) => .isTrue trivial
  | .call .getwork (.submit _ none) => .isTrue trivial
  | .call .getwork (.submit _ (some _)) => .isTrue trivial
  | .incrementExtraNonce _ _ _ => .isTrue trivial
  | .poolUpdated => .isTrue trivial
  | .setBestChain _ => .isTrue trivial

instance : ∀ (l : Ledger) (events : List MiningEvent), Decidable (RunKeeps env ancestors lib l events)
  | _, [] => .isTrue trivial
  | l, event :: events =>
    have := instDecidableRunKeeps (step env ancestors lib l event) events
    inferInstanceAs (Decidable (_ ∧ _))

end

end GetWork

end Manna
