import Manna.Lib.Worklist
import Manna.SelectCoins

/-!
Which transactions of the wallet are confirmed (`wallet.h`: `CWalletTx::IsConfirmed`).

The work queue of `IsConfirmed` grows while it is gone through, and a transaction that several others spend is
in it several times. It ends as no transaction is its own ancestor.

* `confirmedLoop_eq`: the loop is a worklist;
* `wellFounded_parent`: the order in which it ends;
* `isConfirmed_correct`: it ends, and with the right answer.
-/

namespace Manna

namespace Wallet

open Relation Worklist

namespace CWalletTx

variable (env : WalletEnv) (w : CWallet) (chain : ChainView) (wtx : CWalletTx)

/-- A transaction of `vtxPrev` with an output that another one spends. -/
def Parent (ptx tx : CMerkleTx) : Prop :=
  ptx ∈ wtx.vtxPrev ∧ ∃ txin ∈ tx.vin, txin.prevout.hash = env.txHash ptx.toCTransaction

/-- An input is followed, through `vtxPrev`: not of a transaction in the main chain. -/
def Follows (tx ptx : CMerkleTx) : Prop :=
  ¬ chain.getDepthInMainChain tx ≥ 1 ∧ ∃ txin ∈ tx.vin, wtx.mapPrev env txin.prevout.hash = some ptx

/-- Final, and in the main chain, or the wallet's own with all transactions it spends in `vtxPrev`. -/
def Supported (tx : CMerkleTx) : Prop :=
  tx.isFinalNow chain = true ∧ (chain.getDepthInMainChain tx ≥ 1 ∨
    w.isFromMe tx.toCTransaction = some true ∧
      ∀ txin ∈ tx.vin, ∃ ptx ∈ wtx.vtxPrev, env.txHash ptx.toCTransaction = txin.prevout.hash)

/-- **Confirmed**: final, and in the main chain, or the wallet's own where everything it rests on is
supported. -/
def Confirmed : Prop :=
  wtx.isFinalNow chain = true ∧ (chain.getDepthInMainChain wtx.toCMerkleTx ≥ 1 ∨
    wtx.isFromMe env w chain = some true ∧
      ∀ tx, ReflTransGen (wtx.Follows env chain) wtx.toCMerkleTx tx → wtx.Supported env w chain tx)

/-! ### The loop -/

/-- A round of the loop: it ends with what `IsConfirmed` returns, or with `none` where `GetDebit` throws. -/
def visit (ptx : CMerkleTx) : Visit CMerkleTx (Option Bool) :=
  if !ptx.isFinalNow chain then .stop (some false)
  else if chain.getDepthInMainChain ptx ≥ 1 then .more []
  else
    match w.isFromMe ptx.toCTransaction with
    | none => .stop none
    | some false => .stop (some false)
    | some true =>
      match ptx.vin.mapM fun txin => wtx.mapPrev env txin.prevout.hash with
      | none => .stop (some false)
      | some prevs => .more prevs

variable {env w chain wtx}

/-- **The loop is a worklist**; out of rounds is not the same as an exception. -/
theorem confirmedLoop_eq (rounds : Nat) (vWorkQueue : List CMerkleTx) :
    wtx.confirmedLoop env w chain rounds vWorkQueue =
      (loop (wtx.visit env w chain) (some true) rounds vWorkQueue).join := by
  induction rounds generalizing vWorkQueue with
  | zero => rfl
  | succ rounds ih =>
    cases vWorkQueue with
    | nil => rfl
    | cons ptx vWorkQueue =>
      rw [confirmedLoop, loop, visit]
      split
      · rfl
      · split
        · dsimp only
          rw [ih, List.append_nil]
        · cases w.isFromMe ptx.toCTransaction with
          | none => rfl
          | some fromMe =>
            cases fromMe with
            | false => rfl
            | true =>
              dsimp only
              cases ptx.vin.mapM fun txin => wtx.mapPrev env txin.prevout.hash with
              | none => rfl
              | some prevs => exact ih _

theorem mapPrev_eq_some {hash : Uint256} {ptx : CMerkleTx} (h : wtx.mapPrev env hash = some ptx) :
    ptx ∈ wtx.vtxPrev ∧ env.txHash ptx.toCTransaction = hash := by
  have hmem := List.mem_of_find?_eq_some h
  exact ⟨List.mem_reverse.mp hmem, by simpa using List.find?_some h⟩

theorem exists_mapPrev_iff {hash : Uint256} : (∃ ptx, wtx.mapPrev env hash = some ptx) ↔
      ∃ ptx ∈ wtx.vtxPrev, env.txHash ptx.toCTransaction = hash := by
  constructor
  · rintro ⟨ptx, h⟩
    exact ⟨ptx, mapPrev_eq_some h⟩
  · rintro ⟨ptx, hmem, hhash⟩
    refine Option.isSome_iff_exists.mp (List.find?_isSome.mpr ⟨ptx, List.mem_reverse.mpr hmem, ?_⟩)
    simpa using hhash

theorem mapM_mapPrev {vin : List CTxIn} {prevs : List CMerkleTx}
    (h : vin.mapM (fun txin => wtx.mapPrev env txin.prevout.hash) = some prevs) (ptx : CMerkleTx) :
    ptx ∈ prevs ↔ ∃ txin ∈ vin, wtx.mapPrev env txin.prevout.hash = some ptx := by
  induction vin generalizing prevs with
  | nil =>
    cases h
    simp
  | cons txin vin ih =>
    rw [List.mapM_cons] at h
    simp only [Option.bind_eq_bind, Option.bind_eq_some_iff, Option.pure_def, Option.some.injEq] at h
    obtain ⟨first, hfirst, rest, hrest, rfl⟩ := h
    rw [List.mem_cons, ih hrest, List.exists_mem_cons_iff, hfirst, Option.some.injEq, eq_comm]

theorem exists_mapM_mapPrev_iff {vin : List CTxIn} :
    (∃ prevs, vin.mapM (fun txin => wtx.mapPrev env txin.prevout.hash) = some prevs) ↔
      ∀ txin ∈ vin, ∃ ptx, wtx.mapPrev env txin.prevout.hash = some ptx := by
  induction vin with
  | nil => simp
  | cons txin vin ih =>
    rw [List.forall_mem_cons, ← ih, List.mapM_cons]
    simp only [Option.bind_eq_bind, Option.bind_eq_some_iff, Option.pure_def, Option.some.injEq]
    constructor
    · rintro ⟨_, first, hfirst, rest, hrest, -⟩
      exact ⟨⟨first, hfirst⟩, rest, hrest⟩
    · rintro ⟨⟨first, hfirst⟩, rest, hrest⟩
      exact ⟨_, first, hfirst, rest, hrest, rfl⟩

/-- **A round leads on** where the transaction is supported. -/
theorem exists_visit_iff (tx : CMerkleTx) :
    (∃ prevs, wtx.visit env w chain tx = .more prevs) ↔ wtx.Supported env w chain tx := by
  unfold visit Supported
  cases hfinal : tx.isFinalNow chain with
  | false => simp
  | true =>
    by_cases hdepth : chain.getDepthInMainChain tx ≥ 1
    · simp [hdepth]
    · cases hme : w.isFromMe tx.toCTransaction with
      | none => simp [hdepth]
      | some fromMe =>
        cases fromMe with
        | false => simp [hdepth]
        | true =>
          have hall := @exists_mapM_mapPrev_iff env wtx tx.vin
          simp only [exists_mapPrev_iff] at hall
          simp only [hdepth, Bool.not_true, Bool.false_eq_true, if_false, false_or, true_and, ← hall]
          cases tx.vin.mapM fun txin => wtx.mapPrev env txin.prevout.hash with
          | none => simp
          | some prevs => simp

theorem follows_of_leads {tx ptx : CMerkleTx} (h : Leads (wtx.visit env w chain) tx ptx) :
    wtx.Follows env chain tx ptx := by
  obtain ⟨prevs, hvisit, hmem⟩ := h
  unfold visit at hvisit
  split at hvisit
  · cases hvisit
  · split at hvisit
    · cases hvisit
      cases hmem
    · next hdepth =>
      split at hvisit
      · cases hvisit
      · cases hvisit
      · split at hvisit
        · cases hvisit
        · next prevs' hprevs =>
          cases hvisit
          exact ⟨hdepth, (mapM_mapPrev hprevs ptx).mp hmem⟩

theorem leads_of_follows {tx ptx : CMerkleTx} (hsupported : wtx.Supported env w chain tx)
    (h : wtx.Follows env chain tx ptx) : Leads (wtx.visit env w chain) tx ptx := by
  obtain ⟨prevs, hvisit⟩ := (exists_visit_iff tx).mpr hsupported
  refine ⟨prevs, hvisit, ?_⟩
  obtain ⟨hdepth, hin⟩ := h
  unfold visit at hvisit
  rw [hsupported.1, if_neg hdepth] at hvisit
  simp only [Bool.not_true, Bool.false_eq_true, if_false] at hvisit
  split at hvisit
  · cases hvisit
  · cases hvisit
  · split at hvisit
    · cases hvisit
    · next prevs' hprevs =>
      cases hvisit
      exact (mapM_mapPrev hprevs ptx).mpr hin

/-! ### The end of the loop -/

/-- **No transaction is its own ancestor**, so there is no way up for ever: the ancestors are in `vtxPrev`. -/
theorem wellFounded_parent (hacyclic : ∀ tx, ¬ TransGen (wtx.Parent env) tx tx) :
    WellFounded (wtx.Parent env) := by
  let Ancestor (a b : {tx // tx ∈ wtx.vtxPrev}) : Prop := TransGen (wtx.Parent env) a b
  have htrans : IsTrans _ Ancestor := ⟨fun _ _ _ => TransGen.trans⟩
  have hirrefl : Std.Irrefl Ancestor := ⟨fun a => hacyclic a⟩
  have hfinite : Finite {tx // tx ∈ wtx.vtxPrev} := wtx.vtxPrev.finite_toSet
  have hwf : WellFounded Ancestor := Finite.wellFounded_of_trans_of_irrefl Ancestor
  have hacc : ∀ a : {tx // tx ∈ wtx.vtxPrev}, Acc (wtx.Parent env) a.val := by
    intro a
    induction a using hwf.induction with
    | _ a ih => exact .intro _ fun tx htx => ih ⟨tx, htx.1⟩ (.single htx)
  exact ⟨fun tx => .intro tx fun ptx hptx => hacc ⟨ptx, hptx.1⟩⟩

theorem wellFounded_leads (hacyclic : ∀ tx, ¬ TransGen (wtx.Parent env) tx tx) :
    WellFounded fun ptx tx => Leads (wtx.visit env w chain) tx ptx := by
  refine Subrelation.wf ?_ (wellFounded_parent hacyclic)
  intro ptx tx h
  obtain ⟨-, txin, hmem, hprev⟩ := follows_of_leads h
  obtain ⟨hin, hhash⟩ := mapPrev_eq_some hprev
  exact ⟨hin, txin, hmem, hhash.symm⟩

theorem reached_of_leads {tx ptx : CMerkleTx} (h : ReflTransGen (Leads (wtx.visit env w chain)) tx ptx) :
    ReflTransGen (wtx.Follows env chain) tx ptx :=
  ReflTransGen.mono (fun _ _ => follows_of_leads) tx ptx h

/-- What the loop reaches is what the inputs reach, where everything is supported. -/
theorem all_supported_iff (tx : CMerkleTx) : (∀ ptx, ReflTransGen (Leads (wtx.visit env w chain)) tx ptx →
        ∃ prevs, wtx.visit env w chain ptx = .more prevs) ↔
      ∀ ptx, ReflTransGen (wtx.Follows env chain) tx ptx → wtx.Supported env w chain ptx := by
  simp only [exists_visit_iff]
  constructor
  · intro h ptx hreach
    refine h ptx ?_
    induction hreach with
    | refl => exact .refl
    | tail hreach hfollows ih => exact ih.tail (leads_of_follows (h _ ih) hfollows)
  · exact fun h ptx hreach => h ptx (reached_of_leads hreach)

/-- `GetDebit` throws, for the transaction or for one that is reached. -/
def Throws (env : WalletEnv) (w : CWallet) (chain : ChainView) (wtx : CWalletTx) : Prop :=
  wtx.isFromMe env w chain = none ∨
    ∃ tx, ReflTransGen (wtx.Follows env chain) wtx.toCMerkleTx tx ∧ w.isFromMe tx.toCTransaction = none

theorem visit_ne_done (tx : CMerkleTx) (r : Option Bool) (h : wtx.visit env w chain tx = .stop r) :
    r ≠ some true ∧ (r = none → w.isFromMe tx.toCTransaction = none) := by
  unfold visit at h
  split at h
  · cases h
    simp
  · split at h
    · cases h
    · split at h
      · next hme =>
        cases h
        exact ⟨nofun, fun _ => hme⟩
      · cases h
        simp
      · split at h
        · cases h
          simp
        · cases h

/-- **`IsConfirmed` ends**, and returns true exactly for a transaction that is confirmed. -/
theorem isConfirmed_correct (hacyclic : ∀ tx, ¬ TransGen (wtx.Parent env) tx tx) :
    ∃ rounds, ∀ n ≥ rounds,
      (∃ r, loop (wtx.visit env w chain) (some true) n [wtx.toCMerkleTx] = some r) ∧
      (wtx.isConfirmed env w chain n = some true ↔ wtx.Confirmed env w chain) ∧
      (wtx.isConfirmed env w chain n = none → wtx.Throws env w chain) := by
  have hends : ∃ rounds r, ∀ n ≥ rounds, loop (wtx.visit env w chain) (some true) n [wtx.toCMerkleTx] = some r :=
    exists_rounds (wellFounded_leads hacyclic) [wtx.toCMerkleTx]
  obtain ⟨rounds, r, hloop⟩ := hends
  refine ⟨rounds, fun n hn => ⟨⟨r, hloop n hn⟩, ?_⟩⟩
  have hdone := loop_eq_done_iff (fun y r h => (visit_ne_done y r h).1) (hloop n hn)
  rw [List.forall_mem_singleton, all_supported_iff] at hdone
  unfold isConfirmed Confirmed Throws
  cases hfinal : wtx.isFinalNow chain with
  | false => simp
  | true =>
    by_cases hdepth : chain.getDepthInMainChain wtx.toCMerkleTx ≥ 1
    · simp [hdepth]
    · cases hme : wtx.isFromMe env w chain with
      | none => simp [hdepth]
      | some fromMe =>
        cases fromMe with
        | false => simp [hdepth]
        | true =>
          simp only [Bool.not_true, Bool.false_eq_true, if_false, hdepth, confirmedLoop_eq, hloop n hn,
            Option.join_some, true_and, false_or, hdone, reduceCtorEq]
          rintro rfl
          rcases loop_cases (hloop n hn) with ⟨hnone, -⟩ | ⟨x, hx, y, hreach, hstop⟩
          · cases hnone
          · obtain rfl := List.mem_singleton.mp hx
            exact ⟨y, reached_of_leads hreach, (visit_ne_done y none hstop).2 rfl⟩

/-- A transaction that spends an own output of its parent, which is in the main chain. -/
theorem isConfirmed_correct_sample : ∃ (env : WalletEnv) (w : CWallet) (chain : ChainView) (wtx : CWalletTx),
    wtx.Confirmed env w chain ∧ ¬ chain.getDepthInMainChain wtx.toCMerkleTx ≥ 1 ∧
      ∃ rounds, ∀ n ≥ rounds, wtx.isConfirmed env w chain n = some true := by
  let parent : CMerkleTx := ⟨⟨1, 7, [], [⟨5, []⟩], 0⟩, 0, [], -1⟩
  let wtx : CWalletTx := { CWalletTx.ofTransaction ⟨1, 8, [⟨⟨7, 0⟩, [], 0⟩], [], 0⟩ with vtxPrev := [parent] }
  let env : WalletEnv := ⟨fun tx => tx.nTime, id, 0, false⟩
  let w : CWallet := ⟨Finmap.singleton 7 (CWalletTx.ofTransaction parent.toCTransaction),
    ⟨fun _ => false, fun _ => false, fun _ => true⟩, ∅, none, ∅⟩
  let chain : ChainView := ⟨0, 0, fun tx => if tx.nTime = 7 then 1 else 0⟩
  have hacyclic : ∀ tx, ¬ TransGen (wtx.Parent env) tx tx := by
    intro tx h
    obtain ⟨b, hfirst⟩ : ∃ b, wtx.Parent env tx b := by
      cases TransGen.head'_iff.mp h with
      | intro b hb => exact ⟨b, hb.1⟩
    obtain ⟨a, hlast⟩ : ∃ a, wtx.Parent env a tx := by
      cases TransGen.tail'_iff.mp h with
      | intro a ha => exact ⟨a, ha.2⟩
    obtain rfl := List.mem_singleton.mp hfirst.1
    obtain ⟨-, txin, hin, -⟩ := hlast
    cases hin
  have hreached : ∀ tx, ReflTransGen (wtx.Follows env chain) wtx.toCMerkleTx tx →
      tx = wtx.toCMerkleTx ∨ tx = parent := by
    intro tx h
    rcases h.cases_tail with rfl | ⟨_, -, -, _, -, hprev⟩
    · exact .inl rfl
    · exact .inr (List.mem_singleton.mp (mapPrev_eq_some hprev).1)
  have hme : w.isFromMe wtx.toCTransaction = some true := by decide +kernel
  have hconfirmed : wtx.Confirmed env w chain := by
    refine ⟨by decide, .inr ⟨by decide +kernel, fun tx htx => ?_⟩⟩
    rcases hreached tx htx with rfl | rfl
    · exact ⟨by decide, .inr ⟨hme, by decide⟩⟩
    · exact ⟨by decide, .inl (by decide)⟩
  obtain ⟨rounds, hrounds⟩ := @isConfirmed_correct env w chain wtx hacyclic
  exact ⟨env, w, chain, wtx, hconfirmed, by decide, rounds, fun n hn => (hrounds n hn).2.1.mpr hconfirmed⟩

end CWalletTx

end Wallet

end Manna
