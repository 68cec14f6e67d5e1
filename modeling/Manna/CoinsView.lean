import Manna.Lib.Prog
import Manna.Coins
import Mathlib.Data.Finmap

/-!
Views of the unspent outputs (`main.cpp`: `CCoinsViewCache`, `CCoinsViewMemPool`;
`txdb.cpp`: `CCoinsViewDB`).

Block and transaction checks only ever talk to a `CCoinsViewCache`, through four
operations. They are written as programs over those operations (`CoinsM`), and the
stack of views below a cache is a `CoinsView`:

* `CoinsMap` is what a view denotes: a partial map of records and a best block;
* `CCoinsViewCache.handler_abstracts`: a cache over any view runs every program as
  the map it denotes does;
* `CCoinsViewCache.run_base_contents`: no program changes what the view below denotes,
  although reading may fill the caches on the way;
* `utxo` forgets spent outputs and empty records: equality of views up to pruned
  records is equality of `utxo`.
-/

namespace Manna

open OpProg

/-- What validation code calls on a `CCoinsViewCache`. `HaveCoins` and both forms of
`GetCoins` go through `FetchCoins`, so they are one operation. A block index entry is
named by its hash. -/
inductive CoinsOp : Type → Type where
  | getCoins (txid : Uint256) : CoinsOp (Option CCoins)
  | setCoins (txid : Uint256) (coins : CCoins) : CoinsOp Unit
  | getBestBlock : CoinsOp (Option Uint256)
  | setBestBlock (hash : Uint256) : CoinsOp Unit

/-- Programs over a cache. -/
abbrev CoinsM := Prog CoinsOp Halt

namespace CoinsM

def getCoins (txid : Uint256) : CoinsM (Option CCoins) := Prog.call (.getCoins txid)

def setCoins (txid : Uint256) (coins : CCoins) : CoinsM Unit := Prog.call (.setCoins txid coins)

def getBestBlock : CoinsM (Option Uint256) := Prog.call .getBestBlock

def setBestBlock (hash : Uint256) : CoinsM Unit := Prog.call (.setBestBlock hash)

/-- `HaveCoins(txid)`. -/
def haveCoins (txid : Uint256) : CoinsM Bool := do
  let coins ← getCoins txid
  pure coins.isSome

/-- The reference `GetCoins(txid)` returns, behind its assertion. -/
def fetch (txid : Uint256) : CoinsM CCoins := do
  match ← getCoins txid with
  | none => Prog.fail .assertion
  | some coins => pure coins

end CoinsM

/-! ### What a view denotes -/

/-- A view without layers: records by transaction hash and the best block. -/
@[ext] structure CoinsMap where
  coins : Uint256 → Option CCoins
  best : Option Uint256

/-- An abstract set of unspent outputs. -/
abbrev Utxo := COutPoint → Option Coin

namespace CoinsMap

def setCoins (s : CoinsMap) (txid : Uint256) (coins : CCoins) : CoinsMap :=
  { s with coins := Function.update s.coins txid (some coins) }

def setBest (s : CoinsMap) (hash : Uint256) : CoinsMap := { s with best := some hash }

def answer : {β : Type} → CoinsOp β → CoinsMap → β × CoinsMap
  | _, .getCoins txid, s => (s.coins txid, s)
  | _, .setCoins txid coins, s => ((), s.setCoins txid coins)
  | _, .getBestBlock, s => (s.best, s)
  | _, .setBestBlock hash, s => ((), s.setBest hash)

def handler : Handler CoinsOp CoinsMap := ⟨answer⟩

/-- The unspent outputs of a view. -/
def utxo (s : CoinsMap) : Utxo := fun out => (s.coins out.hash).bind fun coins => coins.coinAt out.n

/-- Equality of views up to records without unspent outputs. -/
def ViewEq (s t : CoinsMap) : Prop := s.utxo = t.utxo ∧ s.best = t.best

theorem ViewEq.refl (s : CoinsMap) : ViewEq s s := ⟨rfl, rfl⟩

theorem ViewEq.symm {s t : CoinsMap} (h : ViewEq s t) : ViewEq t s := ⟨h.1.symm, h.2.symm⟩

theorem ViewEq.trans {s t u : CoinsMap} (h : ViewEq s t) (h' : ViewEq t u) : ViewEq s u :=
  ⟨h.1.trans h'.1, h.2.trans h'.2⟩

@[simp] theorem setCoins_coins_self (s : CoinsMap) (txid : Uint256) (coins : CCoins) :
    (s.setCoins txid coins).coins txid = some coins := by
  simp [setCoins]

theorem setCoins_coins_of_ne (s : CoinsMap) {txid txid' : Uint256} (coins : CCoins)
    (h : txid' ≠ txid) : (s.setCoins txid coins).coins txid' = s.coins txid' := by
  simp [setCoins, h]

@[simp] theorem setBest_best (s : CoinsMap) (hash : Uint256) : (s.setBest hash).best = some hash :=
  rfl

@[simp] theorem setBest_coins (s : CoinsMap) (hash : Uint256) : (s.setBest hash).coins = s.coins :=
  rfl

@[simp] theorem setBest_utxo (s : CoinsMap) (hash : Uint256) : (s.setBest hash).utxo = s.utxo := rfl

theorem utxo_setCoins (s : CoinsMap) (txid : Uint256) (coins : CCoins) (out : COutPoint) :
    (s.setCoins txid coins).utxo out = if out.hash = txid then coins.coinAt out.n else s.utxo out := by
  unfold utxo
  by_cases h : out.hash = txid
  · rw [h, setCoins_coins_self, if_pos rfl]
    rfl
  · rw [setCoins_coins_of_ne s coins h, if_neg h]

theorem utxo_of_coins {s : CoinsMap} {txid : Uint256} {coins : CCoins}
    (h : s.coins txid = some coins) (n : Nat) : s.utxo ⟨txid, n⟩ = coins.coinAt n := by
  simp [utxo, h]

theorem utxo_of_none {s : CoinsMap} {txid : Uint256} (h : s.coins txid = none) (n : Nat) :
    s.utxo ⟨txid, n⟩ = none := by
  simp [utxo, h]

/-- The record of a transaction, or an empty one: what `GetCoins(txid, coins)` leaves in
a fresh `coins`. -/
def record (s : CoinsMap) (txid : Uint256) : CCoins := (s.coins txid).getD CCoins.empty

theorem coinAt_record (s : CoinsMap) (txid : Uint256) (n : Nat) :
    (s.record txid).coinAt n = s.utxo ⟨txid, n⟩ := by
  unfold record
  cases h : s.coins txid with
  | none => rw [utxo_of_none h]; rfl
  | some coins => rw [utxo_of_coins h]; rfl

end CoinsMap

section Run

variable {ε : Type}

@[simp] theorem CoinsM.run_getCoins (txid : Uint256) (s : CoinsMap) :
    (CoinsM.getCoins txid).run CoinsMap.handler s = (.ok (s.coins txid), s) := rfl

@[simp] theorem CoinsM.run_setCoins (txid : Uint256) (coins : CCoins) (s : CoinsMap) :
    (CoinsM.setCoins txid coins).run CoinsMap.handler s = (.ok (), s.setCoins txid coins) := rfl

@[simp] theorem CoinsM.run_getBestBlock (s : CoinsMap) :
    CoinsM.getBestBlock.run CoinsMap.handler s = (.ok s.best, s) := rfl

@[simp] theorem CoinsM.run_setBestBlock (hash : Uint256) (s : CoinsMap) :
    (CoinsM.setBestBlock hash).run CoinsMap.handler s = (.ok (), s.setBest hash) := rfl

@[simp] theorem CoinsM.run_haveCoins (txid : Uint256) (s : CoinsMap) :
    (CoinsM.haveCoins txid).run CoinsMap.handler s = (.ok (s.coins txid).isSome, s) := rfl

theorem CoinsM.run_fetch (txid : Uint256) (s : CoinsMap) :
    (CoinsM.fetch txid).run CoinsMap.handler s =
      match s.coins txid with
      | none => (.error .assertion, s)
      | some coins => (.ok coins, s) := by
  unfold CoinsM.fetch
  rw [Prog.run_bind, CoinsM.run_getCoins]
  simp only
  cases s.coins txid <;> rfl

end Run

/-! ### Stacks of views -/

/-- A view another view can be put on: it is read through `GetCoins` and `GetBestBlock`,
which may fill its own caches but not change what it denotes. -/
class CoinsView (σ : Type) where
  getCoins : Uint256 → σ → Option CCoins × σ
  getBestBlock : σ → Option Uint256 × σ
  contents : σ → CoinsMap
  getCoins_fst : ∀ txid s, (getCoins txid s).1 = (contents s).coins txid
  contents_getCoins : ∀ txid s, contents (getCoins txid s).2 = contents s
  getBestBlock_fst : ∀ s, (getBestBlock s).1 = (contents s).best
  contents_getBestBlock : ∀ s, contents (getBestBlock s).2 = contents s

/-- A set of pending records, as `std::map<uint256, CCoins>`. -/
abbrev CoinsCache := Finmap fun _ : Uint256 => CCoins

/-- `CCoinsViewDB`: the coin database, by key. -/
structure CCoinsViewDB where
  coins : Uint256 → Option CCoins
  hashBestChain : Option Uint256

/-- `CCoinsViewCache` over a view. -/
structure CCoinsViewCache (σ : Type) where
  base : σ
  cacheCoins : CoinsCache
  pindexTip : Option Uint256

/-- `CCoinsViewMemPool`: the transactions of a memory pool, by hash, behind a view. -/
structure CCoinsViewMemPool (σ : Type) where
  base : σ
  mapTx : Finmap fun _ : Uint256 => CTransaction

namespace CCoinsViewDB

instance : CoinsView CCoinsViewDB where
  getCoins txid db := (db.coins txid, db)
  getBestBlock db := (db.hashBestChain, db)
  contents db := ⟨db.coins, db.hashBestChain⟩
  getCoins_fst _ _ := rfl
  contents_getCoins _ _ := rfl
  getBestBlock_fst _ := rfl
  contents_getBestBlock _ := rfl

def batchWrite (mapCoins : CoinsCache) (pindex : Option Uint256) (db : CCoinsViewDB) :
    CCoinsViewDB where
  coins txid :=
    match mapCoins.lookup txid with
    | some coins => if coins.isPruned then none else some coins
    | none => db.coins txid
  hashBestChain := pindex <|> db.hashBestChain

end CCoinsViewDB

namespace CCoinsViewCache

variable {σ : Type} [CoinsView σ]

def new (base : σ) : CCoinsViewCache σ := ⟨base, ∅, none⟩

/-- `FetchCoins` followed by reading the entry it found. -/
def fetchCoins (txid : Uint256) (view : CCoinsViewCache σ) :
    Option CCoins × CCoinsViewCache σ :=
  match view.cacheCoins.lookup txid with
  | some coins => (some coins, view)
  | none =>
    match CoinsView.getCoins txid view.base with
    | (none, base) => (none, { view with base := base })
    | (some tmp, base) =>
      (some tmp, { view with base := base, cacheCoins := view.cacheCoins.insert txid tmp })

def getBestBlock (view : CCoinsViewCache σ) : Option Uint256 × CCoinsViewCache σ :=
  match view.pindexTip with
  | some hash => (some hash, view)
  | none =>
    let (pindexTip, base) := CoinsView.getBestBlock view.base
    (pindexTip, { view with base := base, pindexTip := pindexTip })

/-- What a cache denotes: its own records before those below. -/
def contents (view : CCoinsViewCache σ) : CoinsMap where
  coins txid := view.cacheCoins.lookup txid <|> (CoinsView.contents view.base).coins txid
  best := view.pindexTip <|> (CoinsView.contents view.base).best

theorem fetchCoins_spec (txid : Uint256) (view : CCoinsViewCache σ) :
    (view.fetchCoins txid).1 = view.contents.coins txid ∧ (view.fetchCoins txid).2.contents = view.contents ∧
      CoinsView.contents (view.fetchCoins txid).2.base = CoinsView.contents view.base := by
  have hval := CoinsView.getCoins_fst txid view.base
  have hbase := CoinsView.contents_getCoins txid view.base
  unfold fetchCoins
  cases hcache : view.cacheCoins.lookup txid with
  | some coins => exact ⟨by simp [contents, hcache], rfl, rfl⟩
  | none =>
    generalize CoinsView.getCoins txid view.base = answer at hval hbase
    obtain ⟨found, base⟩ := answer
    dsimp only at hval hbase
    cases found with
    | none =>
      exact ⟨by simp [contents, hcache, ← hval], by simp [contents, hbase], hbase⟩
    | some tmp =>
      refine ⟨by simp [contents, hcache, ← hval], ?_, hbase⟩
      ext1
      · funext txid'
        by_cases htxid : txid' = txid
        · subst htxid
          simp [contents, hcache, ← hval]
        · simp [contents, Finmap.lookup_insert_of_ne _ htxid, hbase]
      · simp [contents, hbase]

theorem getBestBlock_spec (view : CCoinsViewCache σ) :
    view.getBestBlock.1 = view.contents.best ∧ view.getBestBlock.2.contents = view.contents ∧
      CoinsView.contents view.getBestBlock.2.base = CoinsView.contents view.base := by
  have hval := CoinsView.getBestBlock_fst view.base
  have hbase := CoinsView.contents_getBestBlock view.base
  unfold getBestBlock
  cases htip : view.pindexTip with
  | some hash => exact ⟨by simp [contents, htip], rfl, rfl⟩
  | none =>
    refine ⟨by simp [contents, htip, hval], ?_, hbase⟩
    ext1
    · simp [contents, hbase]
    · simp only [contents, htip, hbase, hval]
      cases (CoinsView.contents view.base).best <;> rfl

def answer : {β : Type} → CoinsOp β → CCoinsViewCache σ → β × CCoinsViewCache σ
  | _, .getCoins txid, view => view.fetchCoins txid
  | _, .setCoins txid coins, view =>
    ((), { view with cacheCoins := view.cacheCoins.insert txid coins })
  | _, .getBestBlock, view => view.getBestBlock
  | _, .setBestBlock hash, view => ((), { view with pindexTip := some hash })

def handler : Handler CoinsOp (CCoinsViewCache σ) := ⟨answer⟩

/-- **A cache behaves as the map it denotes.** -/
theorem handler_abstracts :
    (handler : Handler CoinsOp (CCoinsViewCache σ)).Abstracts CoinsMap.handler contents := by
  intro β o view
  cases o with
  | getCoins txid => exact ⟨(fetchCoins_spec txid view).1, (fetchCoins_spec txid view).2.1⟩
  | setCoins txid coins =>
    refine ⟨rfl, ?_⟩
    show contents { view with cacheCoins := view.cacheCoins.insert txid coins } =
      view.contents.setCoins txid coins
    ext1
    · funext txid'
      by_cases htxid : txid' = txid
      · subst htxid
        simp [contents, CoinsMap.setCoins]
      · simp [contents, CoinsMap.setCoins, Finmap.lookup_insert_of_ne _ htxid, htxid]
    · rfl
  | getBestBlock => exact ⟨(getBestBlock_spec view).1, (getBestBlock_spec view).2.1⟩
  | setBestBlock hash => exact ⟨rfl, rfl⟩

/-- Whatever reading does not change of the view below, no program through a cache
changes. -/
theorem run_base_frame {α τ : Type} (f : σ → τ) (hcoins : ∀ txid s, f (CoinsView.getCoins txid s).2 = f s)
    (hbest : ∀ s : σ, f (CoinsView.getBestBlock s).2 = f s) (p : CoinsM α)
    (view : CCoinsViewCache σ) : f (p.run handler view).2.base = f view.base := by
  induction p generalizing view with
  | ret a => rfl
  | fail e => rfl
  | op o k ih =>
    refine (ih _ _).trans ?_
    cases o with
    | getCoins txid =>
      show f (view.fetchCoins txid).2.base = f view.base
      have hread := hcoins txid view.base
      unfold fetchCoins
      cases view.cacheCoins.lookup txid with
      | some coins => rfl
      | none =>
        generalize CoinsView.getCoins txid view.base = answer at hread
        obtain ⟨found, base⟩ := answer
        cases found <;> exact hread
    | setCoins txid coins => rfl
    | getBestBlock =>
      show f view.getBestBlock.2.base = f view.base
      have hread := hbest view.base
      unfold getBestBlock
      cases view.pindexTip with
      | some hash => rfl
      | none => exact hread
    | setBestBlock hash => rfl

/-- **The view below keeps its contents**: whatever a program does through a cache. -/
theorem run_base_contents {α : Type} (p : CoinsM α) (view : CCoinsViewCache σ) :
    CoinsView.contents (p.run handler view).2.base = CoinsView.contents view.base :=
  run_base_frame CoinsView.contents CoinsView.contents_getCoins CoinsView.contents_getBestBlock p view

instance : CoinsView (CCoinsViewCache σ) where
  getCoins txid view := view.fetchCoins txid
  getBestBlock view := view.getBestBlock
  contents := contents
  getCoins_fst txid view := (fetchCoins_spec txid view).1
  contents_getCoins txid view := (fetchCoins_spec txid view).2.1
  getBestBlock_fst view := (getBestBlock_spec view).1
  contents_getBestBlock view := (getBestBlock_spec view).2.1

def batchWrite (mapCoins : CoinsCache) (pindex : Option Uint256) (view : CCoinsViewCache σ) :
    CCoinsViewCache σ :=
  { view with cacheCoins := mapCoins ∪ view.cacheCoins, pindexTip := pindex }

theorem contents_new (base : σ) : (new base).contents = CoinsView.contents base := by
  ext1
  · funext txid
    simp [contents, new]
  · rfl

def flushInto (view : CCoinsViewCache (CCoinsViewCache σ)) : CCoinsViewCache σ :=
  batchWrite view.cacheCoins view.pindexTip view.base

/-- `Flush` of a cache over the database, when the database takes the batch. -/
def flush (view : CCoinsViewCache CCoinsViewDB) : CCoinsViewCache CCoinsViewDB :=
  ⟨view.base.batchWrite view.cacheCoins view.pindexTip, ∅, view.pindexTip⟩

def getCacheSize (view : CCoinsViewCache σ) : Nat := view.cacheCoins.keys.card

/-- The best block of the cache was read or set. -/
def TipRead (view : CCoinsViewCache σ) : Prop := view.pindexTip = view.contents.best

theorem tipRead_getBestBlock (view : CCoinsViewCache σ) : view.getBestBlock.2.TipRead := by
  obtain ⟨hval, hcontents, -⟩ := view.getBestBlock_spec
  rw [TipRead, hcontents, ← hval]
  unfold getBestBlock
  cases htip : view.pindexTip with
  | none => rfl
  | some hash => exact htip

theorem TipRead.run {α : Type} {view : CCoinsViewCache σ} (h : view.TipRead) (p : CoinsM α) :
    (p.run handler view).2.TipRead := by
  induction p generalizing view with
  | ret a => exact h
  | fail e => exact h
  | op o k ih =>
    refine ih _ ?_
    cases o with
    | getCoins txid =>
      have hcontents := (fetchCoins_spec txid view).2.1
      have htip : (view.fetchCoins txid).2.pindexTip = view.pindexTip := by
        unfold fetchCoins
        cases view.cacheCoins.lookup txid with
        | some coins => rfl
        | none =>
          generalize CoinsView.getCoins txid view.base = answer
          obtain ⟨found, base⟩ := answer
          cases found <;> rfl
      exact (htip.trans h).trans (congrArg CoinsMap.best hcontents.symm)
    | setCoins txid coins => exact h
    | getBestBlock => exact view.tipRead_getBestBlock
    | setBestBlock hash => rfl

/-- **Flushing to a cache**: the cache below denotes what this one did. -/
theorem contents_flushInto {view : CCoinsViewCache (CCoinsViewCache σ)} (htip : view.TipRead) :
    view.flushInto.contents = view.contents := by
  ext1
  · funext txid
    show ((view.cacheCoins ∪ view.base.cacheCoins).lookup txid <|> _) = _
    by_cases hmem : txid ∈ view.cacheCoins
    · obtain ⟨coins, hcoins⟩ := Finmap.mem_iff.mp hmem
      simp [contents, Finmap.lookup_union_left hmem, hcoins]
    · simp [contents, Finmap.lookup_union_right hmem, Finmap.lookup_eq_none.mpr hmem,
        CoinsView.contents, flushInto, batchWrite]
  · simp only [TipRead, contents, CoinsView.contents] at htip
    simp only [contents, flushInto, batchWrite, CoinsView.contents]
    cases hview : view.pindexTip with
    | some hash => rfl
    | none =>
      rw [hview] at htip
      cases hbase : view.base.pindexTip with
      | some hash => rw [hbase] at htip; cases htip
      | none => rfl

/-- **Flushing to the database**: the same outputs and best block, with nothing pending. -/
theorem viewEq_flush (view : CCoinsViewCache CCoinsViewDB) :
    CoinsMap.ViewEq view.flush.contents view.contents := by
  constructor
  · funext out
    simp only [CoinsMap.utxo, contents, CoinsView.contents, flush, CCoinsViewDB.batchWrite,
      Finmap.lookup_empty]
    cases hlookup : view.cacheCoins.lookup out.hash with
    | none => rfl
    | some coins =>
      by_cases hpruned : coins.isPruned = true
      · simp [hpruned, CCoins.isPruned_iff.mp hpruned out.n]
      · simp [hpruned]
  · simp only [contents, CoinsView.contents, flush, CCoinsViewDB.batchWrite]
    cases view.pindexTip <;> rfl

theorem flush_coins {view : CCoinsViewCache CCoinsViewDB} {txid : Uint256} {coins : CCoins}
    (h : view.flush.contents.coins txid = some coins) : view.contents.coins txid = some coins := by
  simp only [contents, CoinsView.contents, flush, CCoinsViewDB.batchWrite, Finmap.lookup_empty] at h ⊢
  cases hlookup : view.cacheCoins.lookup txid with
  | none => simpa [hlookup] using h
  | some coins' =>
    rw [hlookup] at h
    by_cases hpruned : coins'.isPruned = true
    · simp [hpruned] at h
    · simpa [hpruned] using h

end CCoinsViewCache

namespace CCoinsViewMemPool

variable {σ : Type} [CoinsView σ]

/-- `CCoinsViewMemPool::GetCoins`: the view first, then the pool. -/
def getCoins (txid : Uint256) (view : CCoinsViewMemPool σ) :
    Option CCoins × CCoinsViewMemPool σ :=
  match CoinsView.getCoins txid view.base with
  | (some coins, base) => (some coins, { view with base := base })
  | (none, base) =>
    ((view.mapTx.lookup txid).map fun tx => CCoins.ofTx tx MEMPOOL_HEIGHT,
      { view with base := base })

def contents (view : CCoinsViewMemPool σ) : CoinsMap where
  coins txid := (CoinsView.contents view.base).coins txid <|>
    (view.mapTx.lookup txid).map fun tx => CCoins.ofTx tx MEMPOOL_HEIGHT
  best := (CoinsView.contents view.base).best

theorem getCoins_spec (txid : Uint256) (view : CCoinsViewMemPool σ) :
    (view.getCoins txid).1 = view.contents.coins txid ∧ (view.getCoins txid).2.contents = view.contents ∧
      CoinsView.contents (view.getCoins txid).2.base = CoinsView.contents view.base := by
  have hval := CoinsView.getCoins_fst txid view.base
  have hbase := CoinsView.contents_getCoins txid view.base
  unfold getCoins
  generalize CoinsView.getCoins txid view.base = answer at hval hbase
  obtain ⟨found, base⟩ := answer
  dsimp only at hval hbase
  cases found with
  | none => exact ⟨by simp [contents, ← hval], by simp [contents, hbase], hbase⟩
  | some coins => exact ⟨by simp [contents, ← hval], by simp [contents, hbase], hbase⟩

instance : CoinsView (CCoinsViewMemPool σ) where
  getCoins txid view := view.getCoins txid
  getBestBlock view :=
    ((CoinsView.getBestBlock view.base).1,
      { view with base := (CoinsView.getBestBlock view.base).2 })
  contents := contents
  getCoins_fst txid view := (getCoins_spec txid view).1
  contents_getCoins txid view := (getCoins_spec txid view).2.1
  getBestBlock_fst view := CoinsView.getBestBlock_fst view.base
  contents_getBestBlock view := by
    simp [contents, CoinsView.contents_getBestBlock view.base]

/-- **The pool's view leaves the coins below alone**: whatever a program does through a cache
over it. -/
theorem run_base_contents {α : Type} (p : CoinsM α) (view : CCoinsViewCache (CCoinsViewMemPool σ)) :
    CoinsView.contents (p.run CCoinsViewCache.handler view).2.base.base = CoinsView.contents view.base.base :=
  CCoinsViewCache.run_base_frame (fun below : CCoinsViewMemPool σ => CoinsView.contents below.base)
    (fun txid below => (getCoins_spec txid below).2.2)
    (fun below => CoinsView.contents_getBestBlock below.base) p view

end CCoinsViewMemPool

end Manna
