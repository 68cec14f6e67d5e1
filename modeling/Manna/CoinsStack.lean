import Manna.Block
import Manna.CoinsView

/-!
Stacks of coin caches against a single map (`main.cpp`: `CCoinsViewCache`; `txdb.cpp`:
`CCoinsViewDB`).

Every call on the top cache of a stack is answered as one map of records with one best block
would answer it, up to records without unspent outputs: a flush may drop those on its way to
the database, and the map may forget them.

* `CCoinsViewCache.call` is one call, `CCoinsViewCache.calls` a sequence of them;
* `CoinsMap.Admits` are the answers of the map, `CoinsMap.Forgets` what a flush may drop;
* `CCoinsViewCache.calls_spec`: a sequence of calls on a cache over any lawful view;
* `stack_refines`: the same for a stack of any height, and what the database holds once all
  its caches are flushed.
-/

namespace Manna

/-! ### Calls on a cache -/

/-- A view that takes batches: `BatchWrite` says whether it took the batch. -/
class BatchView (σ : Type) extends CoinsView σ where
  batchWrite : CoinsCache → Option Uint256 → σ → Bool × σ

/-- What a cache relies on in the view below it. A batch that is taken replaces the records it
has, where empty ones may be dropped; the best block is the one of the batch, if the batch has
one or there is none yet. -/
class LawfulBatchView (σ : Type) [BatchView σ] : Prop where
  refused : ∀ (mapCoins : CoinsCache) (pindex : Option Uint256) (s : σ),
    (BatchView.batchWrite mapCoins pindex s).1 = false →
      CoinsView.contents (BatchView.batchWrite mapCoins pindex s).2 = CoinsView.contents s
  kept : ∀ (mapCoins : CoinsCache) (pindex : Option Uint256) (s : σ) (txid : Uint256),
    (BatchView.batchWrite mapCoins pindex s).1 = true → mapCoins.lookup txid = none →
      (CoinsView.contents (BatchView.batchWrite mapCoins pindex s).2).coins txid =
        (CoinsView.contents s).coins txid
  written : ∀ (mapCoins : CoinsCache) (pindex : Option Uint256) (s : σ) (txid : Uint256)
      (coins : CCoins),
    (BatchView.batchWrite mapCoins pindex s).1 = true → mapCoins.lookup txid = some coins →
      (CoinsView.contents (BatchView.batchWrite mapCoins pindex s).2).coins txid = some coins ∨
        coins.isPruned = true ∧
          (CoinsView.contents (BatchView.batchWrite mapCoins pindex s).2).coins txid = none
  best : ∀ (mapCoins : CoinsCache) (pindex : Option Uint256) (s : σ),
    (BatchView.batchWrite mapCoins pindex s).1 = true →
      (pindex = none → (CoinsView.contents s).best = none) →
      (CoinsView.contents (BatchView.batchWrite mapCoins pindex s).2).best = pindex

/-- The calls on a `CCoinsViewCache`. `modify` is the form of `GetCoins` that returns a
reference, with what is done through the reference. -/
inductive ViewCall where
  | getCoins (txid : Uint256)
  | modify (txid : Uint256) (f : CCoins → CCoins)
  | setCoins (txid : Uint256) (coins : CCoins)
  | haveCoins (txid : Uint256)
  | setBestBlock (pindex : Option Uint256)
  | getBestBlock
  | flush

/-- What a call returns: the coins found, a flag or a block; or its assertion fails. -/
inductive ViewAnswer where
  | coins (found : Option CCoins)
  | flag (fOk : Bool)
  | block (pindex : Option Uint256)
  | assertion
deriving DecidableEq, Repr

namespace CCoinsViewCache

variable {σ : Type} [BatchView σ]

def call (view : CCoinsViewCache σ) : ViewCall → ViewAnswer × CCoinsViewCache σ
  | .getCoins txid => (.coins (view.fetchCoins txid).1, (view.fetchCoins txid).2)
  | .modify txid f =>
    match view.fetchCoins txid with
    | (none, view) => (.assertion, view)
    | (some coins, view) =>
      (.coins (some coins), { view with cacheCoins := view.cacheCoins.insert txid (f coins) })
  | .setCoins txid coins =>
    (.flag true, { view with cacheCoins := view.cacheCoins.insert txid coins })
  | .haveCoins txid => (.flag (view.fetchCoins txid).1.isSome, (view.fetchCoins txid).2)
  | .setBestBlock pindex => (.flag true, { view with pindexTip := pindex })
  | .getBestBlock => (.block view.getBestBlock.1, view.getBestBlock.2)
  | .flush =>
    match BatchView.batchWrite view.cacheCoins view.pindexTip view.base with
    | (fOk, base) => (.flag fOk, ⟨base, if fOk then ∅ else view.cacheCoins, view.pindexTip⟩)

/-- A sequence of calls, up to the first assertion that fails. -/
def calls : List ViewCall → CCoinsViewCache σ → List ViewAnswer × CCoinsViewCache σ
  | [], view => ([], view)
  | c :: cs, view =>
    match view.call c with
    | (.assertion, view) => ([.assertion], view)
    | (answer, view) => (answer :: (calls cs view).1, (calls cs view).2)

end CCoinsViewCache

/-! ### The map -/

namespace CoinsMap

def apply (m : CoinsMap) : ViewCall → CoinsMap
  | .modify txid f =>
    match m.coins txid with
    | none => m
    | some coins => m.setCoins txid (f coins)
  | .setCoins txid coins => m.setCoins txid coins
  | .setBestBlock pindex => { m with best := pindex }
  | _ => m

/-- What may be found of a transaction: its record, or nothing if that has no unspent
output. -/
def Sees (m : CoinsMap) (txid : Uint256) (found : Option CCoins) : Prop :=
  found = m.coins txid ∨ found = none ∧ ∃ coins, m.coins txid = some coins ∧ coins.isPruned = true

/-- The answers of a map to a call. -/
inductive Admits (m : CoinsMap) : ViewCall → ViewAnswer → Prop
  | getCoins {txid : Uint256} {found : Option CCoins} (h : m.Sees txid found) :
      Admits m (.getCoins txid) (.coins found)
  | modify {txid : Uint256} {f : CCoins → CCoins} {coins : CCoins} (h : m.Sees txid (some coins)) :
      Admits m (.modify txid f) (.coins (some coins))
  | assertion {txid : Uint256} {f : CCoins → CCoins} (h : m.Sees txid none) :
      Admits m (.modify txid f) .assertion
  | setCoins {txid : Uint256} {coins : CCoins} : Admits m (.setCoins txid coins) (.flag true)
  | haveCoins {txid : Uint256} {found : Option CCoins} (h : m.Sees txid found) :
      Admits m (.haveCoins txid) (.flag found.isSome)
  | setBestBlock {pindex : Option Uint256} : Admits m (.setBestBlock pindex) (.flag true)
  | getBestBlock : Admits m .getBestBlock (.block m.best)
  | flush {fOk : Bool} : Admits m .flush (.flag fOk)

/-- The answers to a sequence of calls, the last one perhaps a failed assertion. -/
inductive AdmitsAll : CoinsMap → List ViewCall → List ViewAnswer → Prop
  | nil (m : CoinsMap) : AdmitsAll m [] []
  | stop {m : CoinsMap} {c : ViewCall} {cs : List ViewCall} (h : m.Admits c .assertion) :
      AdmitsAll m (c :: cs) [.assertion]
  | cons {m : CoinsMap} {c : ViewCall} {cs : List ViewCall} {answer : ViewAnswer}
      {answers : List ViewAnswer} (h : m.Admits c answer) (hok : answer ≠ .assertion)
      (hrest : AdmitsAll (m.apply c) cs answers) : AdmitsAll m (c :: cs) (answer :: answers)

/-- `v` is `m` with some of the empty records forgotten. -/
structure Forgets (v m : CoinsMap) : Prop where
  sees : ∀ txid, m.Sees txid (v.coins txid)
  best : v.best = m.best

theorem Sees.refl (m : CoinsMap) (txid : Uint256) : m.Sees txid (m.coins txid) := .inl rfl

theorem Forgets.refl (m : CoinsMap) : Forgets m m := ⟨.refl m, rfl⟩

theorem Sees.eq_of_some {m : CoinsMap} {txid : Uint256} {coins : CCoins}
    (h : m.Sees txid (some coins)) : m.coins txid = some coins := by
  rcases h with h | ⟨h, -⟩
  · exact h.symm
  · cases h

theorem Forgets.trans {u v m : CoinsMap} (h : Forgets u v) (h' : Forgets v m) : Forgets u m := by
  refine ⟨fun txid => ?_, h.best.trans h'.best⟩
  rcases h.sees txid with heq | ⟨hnone, coins, hcoins, hpruned⟩
  · rw [heq]
    exact h'.sees txid
  · have hsees := h'.sees txid
    rw [hcoins] at hsees
    exact .inr ⟨hnone, coins, hsees.eq_of_some, hpruned⟩

/-- Setting a record hides what was forgotten of it. -/
theorem Forgets.setCoins {v m : CoinsMap} (h : Forgets v m) (txid : Uint256) (coins : CCoins) :
    Forgets (v.setCoins txid coins) (m.setCoins txid coins) := by
  refine ⟨fun txid' => ?_, h.best⟩
  by_cases heq : txid' = txid
  · subst heq
    rw [setCoins_coins_self]
    exact .inl (setCoins_coins_self ..).symm
  · rw [setCoins_coins_of_ne _ _ heq]
    unfold Sees
    rw [setCoins_coins_of_ne _ _ heq]
    exact h.sees txid'

end CoinsMap

/-! ### One cache -/

namespace CCoinsViewCache

variable {σ : Type}

theorem fetchCoins_pindexTip [CoinsView σ] (txid : Uint256) (view : CCoinsViewCache σ) :
    (view.fetchCoins txid).2.pindexTip = view.pindexTip := by
  unfold fetchCoins
  cases view.cacheCoins.lookup txid with
  | some coins => rfl
  | none =>
    generalize CoinsView.getCoins txid view.base = answer
    obtain ⟨found, base⟩ := answer
    cases found <;> rfl

theorem contents_insert [CoinsView σ] (txid : Uint256) (coins : CCoins) (view : CCoinsViewCache σ) :
    contents { view with cacheCoins := view.cacheCoins.insert txid coins } =
      view.contents.setCoins txid coins :=
  (handler_abstracts (.setCoins txid coins) view).2

variable {view : CCoinsViewCache σ} {P : σ → Prop}

/-- **A flush loses empty records only**, and keeps the best block that was read. -/
theorem flush_spec [BatchView σ] [LawfulBatchView σ] (h : view.TipRead) :
    (view.call .flush).2.contents.Forgets view.contents ∧ (view.call .flush).2.TipRead := by
  have hrefused := LawfulBatchView.refused view.cacheCoins view.pindexTip view.base
  have hkept := LawfulBatchView.kept view.cacheCoins view.pindexTip view.base
  have hwritten := LawfulBatchView.written view.cacheCoins view.pindexTip view.base
  have hbest := LawfulBatchView.best view.cacheCoins view.pindexTip view.base
  have htip : view.pindexTip = none → (CoinsView.contents view.base).best = none := by
    intro hnone
    rw [TipRead, contents, hnone] at h
    exact h.symm
  unfold call
  dsimp only
  generalize BatchView.batchWrite view.cacheCoins view.pindexTip view.base = written at *
  obtain ⟨fOk, base⟩ := written
  dsimp only at *
  cases fOk with
  | false =>
    have hsame : contents ⟨base, view.cacheCoins, view.pindexTip⟩ = view.contents := by
      rw [contents, hrefused rfl]
      rfl
    rw [if_neg Bool.false_ne_true, TipRead, hsame]
    exact ⟨.refl _, h⟩
  | true =>
    rw [if_pos rfl]
    have hcoins : ∀ txid, (contents ⟨base, ∅, view.pindexTip⟩).coins txid =
        (CoinsView.contents base).coins txid := fun txid => by
      simp only [contents, Finmap.lookup_empty]
      rfl
    have hnew : (contents ⟨base, ∅, view.pindexTip⟩).best = view.pindexTip := by
      simp only [contents, hbest rfl htip]
      cases view.pindexTip <;> rfl
    refine ⟨⟨fun txid => ?_, hnew.trans h⟩, hnew.symm⟩
    rw [hcoins]
    unfold CoinsMap.Sees
    cases hlookup : view.cacheCoins.lookup txid with
    | none =>
      rw [hkept txid rfl hlookup]
      simp [contents, hlookup]
    | some coins =>
      have hold : view.contents.coins txid = some coins := by simp [contents, hlookup]
      rw [hold]
      rcases hwritten txid coins rfl hlookup with heq | ⟨hpruned, hnone⟩
      · exact .inl heq
      · exact .inr ⟨hnone, coins, rfl, hpruned⟩

/-- A call that may be made: a flush follows a call that sets the best block of the cache, and
`SetBestBlock` is given a block. -/
def Allowed [CoinsView σ] (view : CCoinsViewCache σ) : ViewCall → Prop
  | .flush => view.TipRead
  | .setBestBlock pindex => pindex ≠ none
  | _ => True

/-- **One call** is answered by the map, and leaves what the map is afterwards. -/
theorem call_spec [BatchView σ] [LawfulBatchView σ] {m : CoinsMap}
    (h : view.contents.Forgets m) {c : ViewCall} (hc : view.Allowed c) : m.Admits c (view.call c).1 ∧
      ((view.call c).1 ≠ .assertion → (view.call c).2.contents.Forgets (m.apply c)) := by
  cases c with
  | getCoins txid =>
    obtain ⟨hval, hcontents, -⟩ := view.fetchCoins_spec txid
    refine ⟨.getCoins ?_, fun _ => ?_⟩
    · rw [hval]
      exact h.sees txid
    · exact hcontents.symm ▸ h
  | modify txid f =>
    obtain ⟨hval, hcontents, -⟩ := view.fetchCoins_spec txid
    have hsees := h.sees txid
    rw [← hval] at hsees
    unfold call
    dsimp only
    generalize view.fetchCoins txid = fetched at hcontents hsees
    obtain ⟨found, view'⟩ := fetched
    dsimp only at hcontents hsees
    cases found with
    | none => exact ⟨.assertion hsees, fun hok => absurd rfl hok⟩
    | some coins =>
      refine ⟨.modify hsees, fun _ => ?_⟩
      dsimp only
      rw [contents_insert, hcontents, CoinsMap.apply, hsees.eq_of_some]
      exact h.setCoins txid (f coins)
  | setCoins txid coins =>
    refine ⟨.setCoins, fun _ => ?_⟩
    rw [call, contents_insert]
    exact h.setCoins txid coins
  | haveCoins txid =>
    obtain ⟨hval, hcontents, -⟩ := view.fetchCoins_spec txid
    refine ⟨.haveCoins ?_, fun _ => ?_⟩
    · rw [hval]
      exact h.sees txid
    · exact hcontents.symm ▸ h
  | setBestBlock pindex =>
    refine ⟨.setBestBlock, fun _ => ⟨h.sees, ?_⟩⟩
    obtain ⟨hash, rfl⟩ := Option.ne_none_iff_exists'.mp hc
    rfl
  | getBestBlock =>
    obtain ⟨hval, hcontents, -⟩ := view.getBestBlock_spec
    refine ⟨?_, fun _ => hcontents.symm ▸ h⟩
    rw [call, hval, h.best]
    exact .getBestBlock
  | flush => exact ⟨.flush, fun _ => (flush_spec hc).1.trans h⟩

theorem TipRead.call [BatchView σ] [LawfulBatchView σ] (h : view.TipRead)
    {c : ViewCall} (hc : view.Allowed c) : (view.call c).2.TipRead := by
  have hfetch : ∀ txid, (view.fetchCoins txid).2.TipRead := fun txid => by
    rw [TipRead, fetchCoins_pindexTip, (view.fetchCoins_spec txid).2.1]
    exact h
  cases c with
  | getCoins txid => exact hfetch txid
  | haveCoins txid => exact hfetch txid
  | modify txid f =>
    have hread := hfetch txid
    unfold CCoinsViewCache.call
    dsimp only
    generalize view.fetchCoins txid = fetched at hread
    obtain ⟨found, view'⟩ := fetched
    cases found <;> exact hread
  | setCoins txid coins => exact h
  | setBestBlock pindex =>
    obtain ⟨hash, rfl⟩ := Option.ne_none_iff_exists'.mp hc
    rfl
  | getBestBlock => exact view.tipRead_getBestBlock
  | flush => exact (flush_spec h).2

/-- In a sequence of calls every flush follows a `GetBestBlock` or `SetBestBlock`, and
`SetBestBlock` is given a block; `tip` says whether the best block was read or set before. -/
def WellOrdered : Bool → List ViewCall → Prop
  | _, [] => True
  | tip, .flush :: cs => tip = true ∧ WellOrdered tip cs
  | _, .setBestBlock pindex :: cs => pindex ≠ none ∧ WellOrdered true cs
  | _, .getBestBlock :: cs => WellOrdered true cs
  | tip, _ :: cs => WellOrdered tip cs

variable [BatchView σ] [LawfulBatchView σ]

theorem WellOrdered.head {tip : Bool} {c : ViewCall} {cs : List ViewCall}
    (h : WellOrdered tip (c :: cs)) (htip : tip = true → view.TipRead) :
    view.Allowed c ∧ ∃ tip', WellOrdered tip' cs ∧ (tip' = true → (view.call c).2.TipRead) := by
  cases c with
  | getCoins txid => exact ⟨trivial, tip, h, fun ht => (htip ht).call trivial⟩
  | modify txid f => exact ⟨trivial, tip, h, fun ht => (htip ht).call trivial⟩
  | setCoins txid coins => exact ⟨trivial, tip, h, fun ht => (htip ht).call trivial⟩
  | haveCoins txid => exact ⟨trivial, tip, h, fun ht => (htip ht).call trivial⟩
  | setBestBlock pindex =>
    obtain ⟨hash, rfl⟩ := Option.ne_none_iff_exists'.mp h.1
    exact ⟨h.1, true, h.2, fun _ => rfl⟩
  | getBestBlock => exact ⟨trivial, true, h, fun _ => view.tipRead_getBestBlock⟩
  | flush => exact ⟨htip h.1, tip, h.2, fun ht => (htip ht).call (htip ht)⟩

/-- **A sequence of calls** is answered by the map, and leaves what the map is afterwards. -/
theorem calls_spec {tip : Bool} {cs cs' : List ViewCall} (hcs : WellOrdered tip (cs ++ cs'))
    (htip : tip = true → view.TipRead) {m : CoinsMap} (h : view.contents.Forgets m) :
    m.AdmitsAll cs (calls cs view).1 ∧ (ViewAnswer.assertion ∉ (calls cs view).1 →
      (calls cs view).2.contents.Forgets (cs.foldl CoinsMap.apply m) ∧
        ∃ tip', WellOrdered tip' cs' ∧ (tip' = true → (calls cs view).2.TipRead)) := by
  induction cs generalizing tip view m with
  | nil => exact ⟨.nil m, fun _ => ⟨h, tip, hcs, htip⟩⟩
  | cons c cs ih =>
    obtain ⟨hc, tip', hcs', htip'⟩ := hcs.head htip
    obtain ⟨hanswer, hafter⟩ := call_spec h hc
    rw [calls]
    generalize view.call c = called at hanswer hafter htip'
    obtain ⟨answer, view'⟩ := called
    dsimp only at hanswer hafter htip'
    by_cases hok : answer = .assertion
    · subst hok
      exact ⟨.stop hanswer, fun hno => absurd (List.mem_cons_self ..) hno⟩
    · obtain ⟨hrest, hend⟩ := ih hcs' htip' (hafter hok)
      have hstep : (match (answer, view') with
          | (.assertion, view) => ([ViewAnswer.assertion], view)
          | (answer, view) => (answer :: (calls cs view).1, (calls cs view).2)) =
            (answer :: (calls cs view').1, (calls cs view').2) := by
        cases answer <;> first | rfl | exact absurd rfl hok
      rw [hstep]
      exact ⟨.cons hanswer hok hrest, fun hno => hend fun hmem => hno (List.mem_cons_of_mem _ hmem)⟩

/-- What reading and writing a view keep. -/
structure Stable (P : σ → Prop) : Prop where
  getCoins : ∀ txid s, P s → P (CoinsView.getCoins txid s).2
  getBestBlock : ∀ s, P s → P (CoinsView.getBestBlock s).2
  batchWrite : ∀ mapCoins pindex s, P s → P (BatchView.batchWrite mapCoins pindex s).2

omit [LawfulBatchView σ] in
theorem Stable.fetchCoins (hP : Stable P) (txid : Uint256)
    (h : P view.base) : P (view.fetchCoins txid).2.base := by
  have hread := hP.getCoins txid view.base h
  unfold CCoinsViewCache.fetchCoins
  cases view.cacheCoins.lookup txid with
  | some coins => exact h
  | none =>
    generalize CoinsView.getCoins txid view.base = answer at hread
    obtain ⟨found, base⟩ := answer
    cases found <;> exact hread

omit [LawfulBatchView σ] in
theorem Stable.readBestBlock (hP : Stable P) (h : P view.base) : P view.getBestBlock.2.base:= by
  unfold CCoinsViewCache.getBestBlock
  cases view.pindexTip with
  | some hash => exact h
  | none => exact hP.getBestBlock _ h

omit [LawfulBatchView σ] in
theorem Stable.call (hP : Stable P) (c : ViewCall) (h : P view.base) : P (view.call c).2.base:= by
  cases c with
  | getCoins txid => exact hP.fetchCoins txid h
  | haveCoins txid => exact hP.fetchCoins txid h
  | modify txid f =>
    have hread := hP.fetchCoins txid h
    unfold CCoinsViewCache.call
    dsimp only
    generalize view.fetchCoins txid = fetched at hread
    obtain ⟨found, view'⟩ := fetched
    cases found <;> exact hread
  | setCoins txid coins => exact h
  | setBestBlock pindex => exact h
  | getBestBlock => exact hP.readBestBlock h
  | flush => exact hP.batchWrite _ _ _ h

omit [LawfulBatchView σ] in
theorem Stable.calls (hP : Stable P) (cs : List ViewCall)
    (h : P view.base) : P (CCoinsViewCache.calls cs view).2.base := by
  induction cs generalizing view with
  | nil => exact h
  | cons c cs ih =>
    have hcall := hP.call c h
    rw [CCoinsViewCache.calls]
    generalize view.call c = called at hcall
    obtain ⟨answer, view'⟩ := called
    cases answer with
    | assertion => exact hcall
    | _ => exact ih hcall

end CCoinsViewCache

/-! ### Stacks -/

instance : BatchView CCoinsViewDB where
  batchWrite mapCoins pindex db := (true, db.batchWrite mapCoins pindex)

instance : LawfulBatchView CCoinsViewDB where
  refused _ _ _ h := by cases h
  kept mapCoins pindex db txid _ hlookup := by
    simp only [BatchView.batchWrite, CoinsView.contents, CCoinsViewDB.batchWrite, hlookup]
  written mapCoins pindex db txid coins _ hlookup := by
    simp only [BatchView.batchWrite, CoinsView.contents, CCoinsViewDB.batchWrite, hlookup]
    cases coins.isPruned <;> simp
  best mapCoins pindex db _ hnone := by
    simp only [BatchView.batchWrite, CoinsView.contents, CCoinsViewDB.batchWrite] at hnone ⊢
    cases pindex with
    | some hash => rfl
    | none => exact hnone rfl

section Cache

variable {σ : Type} [BatchView σ]

instance : BatchView (CCoinsViewCache σ) where
  batchWrite mapCoins pindex view := (true, view.batchWrite mapCoins pindex)

instance : LawfulBatchView (CCoinsViewCache σ) where
  refused _ _ _ h := by cases h
  kept mapCoins pindex view txid _ hlookup := by
    have hmem : txid ∉ mapCoins := Finmap.lookup_eq_none.mp hlookup
    simp only [BatchView.batchWrite, CoinsView.contents, CCoinsViewCache.contents,
      CCoinsViewCache.batchWrite, Finmap.lookup_union_right hmem]
  written mapCoins pindex view txid coins _ hlookup := by
    have hmem : txid ∈ mapCoins := Finmap.mem_iff.mpr ⟨coins, hlookup⟩
    refine .inl ?_
    simp only [BatchView.batchWrite, CoinsView.contents, CCoinsViewCache.contents,
      CCoinsViewCache.batchWrite, Finmap.lookup_union_left hmem, hlookup]
    rfl
  best mapCoins pindex view _ hnone := by
    simp only [BatchView.batchWrite, CoinsView.contents, CCoinsViewCache.contents,
      CCoinsViewCache.batchWrite] at hnone ⊢
    cases pindex with
    | some hash => rfl
    | none =>
      have hbase := hnone rfl
      cases htip : view.pindexTip with
      | some hash => rw [htip] at hbase; cases hbase
      | none => rw [htip] at hbase; exact hbase

/-- A view that takes the batches of its base. -/
instance : BatchView (CCoinsViewMemPool σ) where
  batchWrite mapCoins pindex view :=
    ((BatchView.batchWrite mapCoins pindex view.base).1,
      { view with base := (BatchView.batchWrite mapCoins pindex view.base).2 })

/-- What is under the top of a stack: `n` caches over a view. -/
def Below (σ : Type) : Nat → Type
  | 0 => σ
  | n + 1 => CCoinsViewCache (Below σ n)

instance Below.batchView : (n : Nat) → BatchView (Below σ n)
  | 0 => inferInstanceAs (BatchView σ)
  | n + 1 =>
    letI := Below.batchView n
    inferInstanceAs (BatchView (CCoinsViewCache (Below σ n)))

instance Below.lawfulBatchView [LawfulBatchView σ] : (n : Nat) → LawfulBatchView (Below σ n)
  | 0 => inferInstanceAs (LawfulBatchView σ)
  | n + 1 => inferInstanceAs (LawfulBatchView (CCoinsViewCache (Below σ n)))

end Cache

/-- A stack of `n + 1` caches. -/
abbrev Stack (σ : Type) (n : Nat) := CCoinsViewCache (Below σ n)

/-- The database after all caches are flushed, from the top down. -/
def flushAll : (n : Nat) → Stack CCoinsViewDB n → CCoinsViewDB
  | 0, view => (view.call .flush).2.base
  | n + 1, view => flushAll n (view.call .flush).2.base

/-- The database holds no record without unspent outputs. -/
def CCoinsViewDB.NoPruned (db : CCoinsViewDB) : Prop :=
  ∀ txid coins, db.coins txid = some coins → coins.isPruned = false

def Below.NoPruned : (n : Nat) → Below CCoinsViewDB n → Prop
  | 0, db => CCoinsViewDB.NoPruned db
  | n + 1, view => Below.NoPruned n (CCoinsViewCache.base view)

/-- `BatchWriteCoins` erases pruned records. -/
theorem CCoinsViewDB.NoPruned.batchWrite {db : CCoinsViewDB} (h : db.NoPruned) (mapCoins : CoinsCache)
    (pindex : Option Uint256) : (db.batchWrite mapCoins pindex).NoPruned := by
  intro txid coins hcoins
  simp only [CCoinsViewDB.batchWrite] at hcoins
  split at hcoins
  · split at hcoins
    · cases hcoins
    · next hpruned =>
      cases hcoins
      exact eq_false_of_ne_true hpruned
  · exact h txid coins hcoins

theorem Below.stable_noPruned : (n : Nat) → CCoinsViewCache.Stable (Below.NoPruned n)
  | 0 => ⟨fun _ _ h => h, fun _ h => h, fun mapCoins pindex _ h => h.batchWrite mapCoins pindex⟩
  | n + 1 =>
    ⟨fun txid _ h => (Below.stable_noPruned n).fetchCoins txid h,
      fun _ h => (Below.stable_noPruned n).readBestBlock h, fun _ _ _ h => h⟩

/-- **What the database holds after all caches are flushed**: the records of the stack that
have unspent outputs, and its best block. -/
theorem flushAll_spec : (n : Nat) → {view : Stack CCoinsViewDB n} → view.TipRead →
    Below.NoPruned n view.base →
      (∀ txid, (flushAll n view).coins txid =
        (view.contents.coins txid).filter fun coins => !coins.isPruned) ∧
      (flushAll n view).hashBestChain = view.contents.best
  | 0, view, htip, hdb => by
    obtain ⟨base, cacheCoins, pindexTip⟩ := view
    refine ⟨fun txid => ?_, ?_⟩
    · show (CCoinsViewDB.batchWrite cacheCoins pindexTip base).coins txid = _
      simp only [CCoinsViewDB.batchWrite, CCoinsViewCache.contents]
      cases hlookup : cacheCoins.lookup txid with
      | some coins =>
        show _ = Option.filter _ (some coins)
        cases hpruned : coins.isPruned <;> simp [Option.filter, hpruned]
      | none =>
        show CCoinsViewDB.coins base txid = (CCoinsViewDB.coins base txid).filter _
        cases hcoins : CCoinsViewDB.coins base txid with
        | none => rfl
        | some coins =>
          have hfull := hdb txid coins hcoins
          simp [Option.filter, hfull]
    · rfl
  | n + 1, view, htip, hdb => by
    have hcontents : (CCoinsViewCache.flushInto view).contents = view.contents :=
      CCoinsViewCache.contents_flushInto htip
    have htip' : (CCoinsViewCache.flushInto view).TipRead := by
      rw [CCoinsViewCache.TipRead, hcontents]
      exact htip
    have hlower := flushAll_spec n htip' hdb
    rw [hcontents] at hlower
    exact hlower

/-- **A stack is one map.** Every sequence of calls on the top of a stack of caches, over any
view that keeps what it is given, is answered by the map the stack starts as, up to records
without unspent outputs, as long as the best block is read or set before the first flush; and
after all caches are flushed the database holds that map without its empty records. -/
theorem stack_refines :
    (∀ {σ : Type} [BatchView σ] [LawfulBatchView σ] (n : Nat) (view : Stack σ n) (cs : List ViewCall),
      CCoinsViewCache.WellOrdered false cs →
        view.contents.AdmitsAll cs (CCoinsViewCache.calls cs view).1 ∧
        (ViewAnswer.assertion ∉ (CCoinsViewCache.calls cs view).1 →
          (CCoinsViewCache.calls cs view).2.contents.Forgets
            (cs.foldl CoinsMap.apply view.contents))) ∧
    (∀ (n : Nat) (view : Stack CCoinsViewDB n) (cs : List ViewCall),
      Below.NoPruned n view.base → CCoinsViewCache.WellOrdered false (cs ++ [.flush]) →
        ViewAnswer.assertion ∉ (CCoinsViewCache.calls cs view).1 →
          (∀ txid, (flushAll n (CCoinsViewCache.calls cs view).2).coins txid =
            ((cs.foldl CoinsMap.apply view.contents).coins txid).filter fun coins =>
              !coins.isPruned) ∧
          (flushAll n (CCoinsViewCache.calls cs view).2).hashBestChain =
            (cs.foldl CoinsMap.apply view.contents).best) := by
  constructor
  · intro σ _ _ n view cs hcs
    rw [← List.append_nil cs] at hcs
    obtain ⟨hanswers, hend⟩ := CCoinsViewCache.calls_spec hcs (fun h => nomatch h)
      (.refl view.contents)
    exact ⟨hanswers, fun hok => (hend hok).1⟩
  · intro n view cs hdb hcs hok
    obtain ⟨-, hend⟩ := CCoinsViewCache.calls_spec hcs (fun h => nomatch h) (.refl view.contents)
    obtain ⟨hforgets, tip', htip', htip⟩ := hend hok
    obtain ⟨hcoins, hbest⟩ := flushAll_spec n (htip htip'.1)
      ((Below.stable_noPruned n).calls cs hdb)
    refine ⟨fun txid => ?_, hbest.trans hforgets.best⟩
    rw [hcoins]
    rcases hforgets.sees txid with heq | ⟨hnone, coins, hsome, hpruned⟩
    · rw [heq]
    · rw [hnone, hsome]
      simp [Option.filter, hpruned]

def emptyCoinsDB : CCoinsViewDB := ⟨fun _ => none, none⟩

/-- A record with one unspent output. -/
def sampleCoins : CCoins := CCoins.ofTx (sampleTx 7 500 [] [CENT]) 1

theorem stack_refines_sample :
    (flushAll 1 (CCoinsViewCache.calls [.setBestBlock (some 1001), .setCoins 7 sampleCoins, .flush]
      (.new (.new emptyCoinsDB) : Stack CCoinsViewDB 1)).2).coins 7 = some sampleCoins := by
  have hend := (stack_refines.2 1 (.new (.new emptyCoinsDB))
    [.setBestBlock (some 1001), .setCoins 7 sampleCoins, .flush] (fun _ _ h => by cases h)
    ⟨by decide, rfl, rfl, trivial⟩ (by decide)).1 7
  rw [hend]
  rfl

/-- **Where a stack is not a map.** No map tells `HaveCoins` apart before and after a flush
that drops an empty record; a best block set to NULL is read from below again; and a cache
flushed through a view of the memory pool finds the pool's transaction where an empty record
was. -/
theorem not_answered_by_map :
    (¬ ∃ has : CoinsMap → Uint256 → Bool, ∀ (cs : List ViewCall) (txid : Uint256),
      CCoinsViewCache.WellOrdered false cs →
        (CCoinsViewCache.calls (cs ++ [.haveCoins txid]) (.new emptyCoinsDB)).1.getLast? =
          some (.flag (has (cs.foldl CoinsMap.apply (CCoinsViewCache.new emptyCoinsDB).contents)
            txid))) ∧
    (CCoinsViewCache.calls [.setBestBlock none, .getBestBlock]
      (.new (⟨fun _ => none, some 1000⟩ : CCoinsViewDB))).1 = [.flag true, .block (some 1000)] ∧
    (CCoinsViewCache.calls [.setCoins 7 .empty, .getBestBlock, .flush, .getCoins 7]
      (.new (⟨emptyCoinsDB, Finmap.singleton 7 (sampleTx 7 500 [] [CENT])⟩ :
        CCoinsViewMemPool CCoinsViewDB))).1 =
      [.flag true, .block none, .flag true,
        .coins (some (CCoins.ofTx (sampleTx 7 500 [] [CENT]) MEMPOOL_HEIGHT))] := by
  refine ⟨?_, by decide, by decide⟩
  rintro ⟨has, h⟩
  -- The flush changes the answer and leaves the map alone.
  have hbefore := h [.setCoins 7 .empty, .getBestBlock] 7 trivial
  have hafter := h [.setCoins 7 .empty, .getBestBlock, .flush] 7 ⟨rfl, trivial⟩
  have htrue : (CCoinsViewCache.calls [.setCoins 7 .empty, .getBestBlock, .haveCoins 7]
      (.new emptyCoinsDB)).1.getLast? = some (.flag true) := by decide
  have hfalse : (CCoinsViewCache.calls [.setCoins 7 .empty, .getBestBlock, .flush, .haveCoins 7]
      (.new emptyCoinsDB)).1.getLast? = some (.flag false) := by decide
  have heq := (htrue.symm.trans hbefore).trans (hafter.symm.trans hfalse)
  cases heq

end Manna
