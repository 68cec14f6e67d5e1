import Manna.GetData
import Mathlib.Data.Finmap
import Mathlib.Data.List.Induction

/-!
The items that are kept for relay (`net.cpp`: `AddRelay`, `RelayTransaction`).

A map has the messages, and a queue says when each expires. An item that is relayed again gets a second entry
in the queue; when the first one expires the message is erased all the same.

* `vRelayExpiration_relay`, `mem_mapRelay_relay`: one call;
* `relayWindow_iff`: in which runs the items are held for fifteen minutes.
-/

namespace Manna

open GetData (CInv MSG_TX)

/-- `mapRelay` and `vRelayExpiration`. -/
structure RelayState (δ : Type) where
  mapRelay : Finmap fun _ : CInv => δ
  vRelayExpiration : List (Int × CInv)

/-- A call, and what `GetTime` returns in it. -/
inductive RelayCall (δ : Type)
  | addRelay (nNow : Int) (inv : CInv) (ss : δ)
  | relayTransaction (nNow : Int) (hash : Uint256) (ss : δ)

namespace RelayCall

variable {δ : Type}

def nNow : RelayCall δ → Int
  | addRelay nNow _ _ => nNow
  | relayTransaction nNow _ _ => nNow

def inv : RelayCall δ → CInv
  | addRelay _ inv _ => inv
  | relayTransaction _ hash _ => ⟨MSG_TX, hash⟩

def ss : RelayCall δ → δ
  | addRelay _ _ ss => ss
  | relayTransaction _ _ ss => ss

/-- The calls are at non-decreasing times. -/
def Ordered (calls : List (RelayCall δ)) : Prop := calls.Pairwise fun a b => a.nNow ≤ b.nNow

variable {calls : List (RelayCall δ)} {call : RelayCall δ}

theorem Ordered.init (h : Ordered (calls ++ [call])) : Ordered calls := (List.pairwise_append.mp h).1

theorem Ordered.le_last (h : Ordered (calls ++ [call])) : ∀ earlier ∈ calls, earlier.nNow ≤ call.nNow :=
  fun earlier hearlier => (List.pairwise_append.mp h).2.2 earlier hearlier call List.mem_cons_self

end RelayCall

variable {δ : Type}

namespace RelayState

open RelayCall

def initial : RelayState δ := ⟨∅, []⟩

def expireLoop (nNow : Int) : List (Int × CInv) → Finmap (fun _ : CInv => δ) → RelayState δ
  | [], mapRelay => ⟨mapRelay, []⟩
  | front :: queue, mapRelay =>
    if front.1 < nNow then expireLoop nNow queue (mapRelay.erase front.2) else ⟨mapRelay, front :: queue⟩

/-- What both functions do under the lock; `insert` keeps a message that is there. -/
def relay (s : RelayState δ) (call : RelayCall δ) : RelayState δ :=
  let s := expireLoop call.nNow s.vRelayExpiration s.mapRelay
  { mapRelay := if call.inv ∈ s.mapRelay then s.mapRelay else s.mapRelay.insert call.inv call.ss
    vRelayExpiration := s.vRelayExpiration ++ [(call.nNow + 15 * 60, call.inv)] }

/-- One call after the other. -/
def run (calls : List (RelayCall δ)) : RelayState δ := calls.foldl relay initial

/-- The keys of the map are the items that have an entry in the queue. -/
def Matches (s : RelayState δ) : Prop := ∀ inv, inv ∈ s.mapRelay ↔ ∃ nTime, (nTime, inv) ∈ s.vRelayExpiration

/-- **The window**: an item is kept for fifteen minutes after its last relay, and the map has the items of the
queue. -/
structure RelayWindow (calls : List (RelayCall δ)) : Prop where
  kept : ∀ before call after, calls = before ++ call :: after → (∀ later ∈ after, later.inv ≠ call.inv) →
    (∀ later ∈ after, later.nNow ≤ call.nNow + 15 * 60) → call.inv ∈ (run calls).mapRelay
  matches_queue : Matches (run calls)

/-- **A call is steady**: no entry expires of an item that has another one left, but for the item that is
relayed. -/
def Steady (s : RelayState δ) (call : RelayCall δ) : Prop :=
  ∀ front ∈ s.vRelayExpiration, front.1 < call.nNow → front.2 ≠ call.inv →
    ∀ other ∈ s.vRelayExpiration, other.2 = front.2 → other.1 < call.nNow

variable {s : RelayState δ} {call : RelayCall δ} {calls : List (RelayCall δ)} {inv : CInv}

/-! ### One call -/

theorem expireLoop_eq {nNow : Int} {queue : List (Int × CInv)} {mapRelay : Finmap fun _ : CInv => δ}
    (hsorted : queue.Pairwise fun a b => a.1 ≤ b.1) :
    (expireLoop nNow queue mapRelay).vRelayExpiration = queue.filter (fun e => nNow ≤ e.1) ∧
      (inv ∈ (expireLoop nNow queue mapRelay).mapRelay ↔
        inv ∈ mapRelay ∧ ∀ e ∈ queue, e.2 = inv → nNow ≤ e.1) := by
  induction queue generalizing mapRelay with
  | nil => simp [expireLoop]
  | cons front queue ih =>
    rw [List.pairwise_cons] at hsorted
    rw [expireLoop]
    split
    · next hold =>
      obtain ⟨hqueue, hmap⟩ := @ih (mapRelay.erase front.2) hsorted.2
      rw [hqueue, hmap, List.filter_cons_of_neg (by simpa using hold), Finmap.mem_erase, List.forall_mem_cons]
      refine ⟨rfl, ?_⟩
      constructor
      · rintro ⟨⟨hne, hmem⟩, hrest⟩
        exact ⟨hmem, fun heq => absurd heq.symm hne, hrest⟩
      · rintro ⟨hmem, hfront, hrest⟩
        refine ⟨⟨fun heq => ?_, hmem⟩, hrest⟩
        have hlate := hfront heq.symm
        omega
    · next hfresh =>
      have hall : ∀ e ∈ front :: queue, nNow ≤ e.1 := by
        rw [List.forall_mem_cons]
        exact ⟨not_lt.mp hfresh, fun e he => (not_lt.mp hfresh).trans (hsorted.1 e he)⟩
      refine ⟨(List.filter_eq_self.mpr fun e he => decide_eq_true (hall e he)).symm, ?_⟩
      exact (and_iff_left fun e he _ => hall e he).symm

theorem vRelayExpiration_relay (hsorted : s.vRelayExpiration.Pairwise fun a b => a.1 ≤ b.1) :
    (relay s call).vRelayExpiration =
      s.vRelayExpiration.filter (fun e => call.nNow ≤ e.1) ++ [(call.nNow + 15 * 60, call.inv)] := by
  simp only [relay, (@expireLoop_eq _ call.inv _ _ s.mapRelay hsorted).1]

theorem mem_mapRelay_relay (hsorted : s.vRelayExpiration.Pairwise fun a b => a.1 ≤ b.1) :
    inv ∈ (relay s call).mapRelay ↔
      inv = call.inv ∨ inv ∈ s.mapRelay ∧ ∀ e ∈ s.vRelayExpiration, e.2 = inv → call.nNow ≤ e.1 := by
  have hexpire := (@expireLoop_eq _ inv call.nNow _ s.mapRelay hsorted).2
  simp only [relay]
  split
  · next hmem =>
    rw [← hexpire]
    constructor
    · exact .inr
    · rintro (rfl | hmem)
      · assumption
      · exact hmem
  · rw [Finmap.mem_insert, ← hexpire]

/-- **One call** keeps the keys of the map the items of the queue if and only if it is steady. -/
theorem Matches.relay_iff (h : Matches s) (hsorted : s.vRelayExpiration.Pairwise fun a b => a.1 ≤ b.1) :
    Matches (relay s call) ↔ Steady s call := by
  have hqueue : ∀ {nTime inv}, (nTime, inv) ∈ (relay s call).vRelayExpiration ↔
      (nTime, inv) ∈ s.vRelayExpiration ∧ call.nNow ≤ nTime ∨ nTime = call.nNow + 15 * 60 ∧ inv = call.inv := by
    intro nTime inv
    rw [vRelayExpiration_relay hsorted]
    simp
  constructor
  · rintro hmatches ⟨early, inv⟩ hfront hold hne ⟨late, _⟩ hother rfl
    by_contra hlate
    have hentry := hqueue.mpr (.inl ⟨hother, not_lt.mp hlate⟩)
    have hmem := (hmatches _).mpr ⟨late, hentry⟩
    obtain heq | ⟨_, hfresh⟩ := (mem_mapRelay_relay hsorted).mp hmem
    · exact hne heq
    · have := hfresh _ hfront rfl
      omega
  · intro hsteady inv
    rw [mem_mapRelay_relay hsorted]
    constructor
    · rintro (rfl | ⟨hmem, hfresh⟩)
      · exact ⟨_, hqueue.mpr (.inr ⟨rfl, rfl⟩)⟩
      · obtain ⟨nTime, hentry⟩ := (h inv).mp hmem
        exact ⟨nTime, hqueue.mpr (.inl ⟨hentry, hfresh _ hentry rfl⟩)⟩
    · rintro ⟨nTime, hentry⟩
      obtain ⟨hentry, hlate⟩ | ⟨_, rfl⟩ := hqueue.mp hentry
      · by_cases hinv : inv = call.inv
        · exact .inl hinv
        · refine .inr ⟨(h inv).mpr ⟨nTime, hentry⟩, fun e he heq => ?_⟩
          by_contra hold
          have := hsteady e he (not_le.mp hold) (heq ▸ hinv) _ hentry heq.symm
          omega
      · exact .inl rfl

/-! ### Runs -/

theorem run_append (calls : List (RelayCall δ)) (call : RelayCall δ) :
    run (calls ++ [call]) = relay (run calls) call := by
  simp [run, List.foldl_append]

theorem sorted_run (h : Ordered calls) : ((run calls).vRelayExpiration.Pairwise fun a b => a.1 ≤ b.1) ∧
      ∀ e ∈ (run calls).vRelayExpiration, ∃ call ∈ calls, e.1 = call.nNow + 15 * 60 := by
  induction calls using List.reverseRecOn with
  | nil => exact ⟨.nil, nofun⟩
  | append_singleton calls call ih =>
    obtain ⟨hsorted, hcalls⟩ := ih h.init
    rw [run_append, vRelayExpiration_relay hsorted]
    constructor
    · refine List.pairwise_append.mpr ⟨hsorted.sublist List.filter_sublist, List.pairwise_singleton _ _, ?_⟩
      intro e he last hlast
      obtain rfl := List.mem_singleton.mp hlast
      obtain ⟨earlier, hearlier, heq⟩ := hcalls e (List.mem_of_mem_filter he)
      have := h.le_last earlier hearlier
      dsimp only
      omega
    · intro e he
      rcases List.mem_append.mp he with hold | hnew
      · obtain ⟨earlier, hearlier, heq⟩ := hcalls e (List.mem_of_mem_filter hold)
        exact ⟨earlier, List.mem_append_left _ hearlier, heq⟩
      · obtain rfl := List.mem_singleton.mp hnew
        exact ⟨call, List.mem_append_right _ List.mem_cons_self, rfl⟩

theorem entry_mem_run {before after : List (RelayCall δ)} (h : Ordered (before ++ call :: after))
    (hlater : ∀ later ∈ after, later.nNow ≤ call.nNow + 15 * 60) :
    (call.nNow + 15 * 60, call.inv) ∈ (run (before ++ call :: after)).vRelayExpiration := by
  induction after using List.reverseRecOn with
  | nil =>
    rw [run_append, vRelayExpiration_relay (sorted_run h.init).1]
    exact List.mem_append_right _ List.mem_cons_self
  | append_singleton after last ih =>
    rw [← List.cons_append, ← List.append_assoc] at h ⊢
    have hentry := ih h.init fun later hmem => hlater later (List.mem_append_left _ hmem)
    have hlast := hlater last (List.mem_append_right _ List.mem_cons_self)
    rw [run_append, vRelayExpiration_relay (sorted_run h.init).1]
    exact List.mem_append_left _ (List.mem_filter.mpr ⟨hentry, decide_eq_true hlast⟩)

theorem relayWindow_iff_matches (h : Ordered calls) : RelayWindow calls ↔ Matches (run calls) := by
  constructor
  · exact RelayWindow.matches_queue
  · intro hmatches
    refine ⟨?_, hmatches⟩
    rintro before call after rfl - hlater
    exact (hmatches _).mpr ⟨_, entry_mem_run h hlater⟩

theorem RelayWindow.append_iff (h : RelayWindow calls) (hordered : Ordered (calls ++ [call])) :
    RelayWindow (calls ++ [call]) ↔ Steady (run calls) call := by
  rw [relayWindow_iff_matches hordered, run_append]
  exact h.matches_queue.relay_iff (sorted_run hordered.init).1

theorem RelayWindow.nil : RelayWindow ([] : List (RelayCall δ)) := by
  rw [relayWindow_iff_matches List.Pairwise.nil]
  intro inv
  exact iff_of_false Finmap.notMem_empty fun ⟨_, hmem⟩ => absurd hmem List.not_mem_nil

/-- **Relay window.** In calls at non-decreasing times the items are held throughout if and only if every call
is steady. -/
theorem relayWindow_iff (hordered : Ordered calls) :
    (∀ before, before <+: calls → RelayWindow before) ↔
      ∀ before call, before ++ [call] <+: calls → Steady (run before) call := by
  have hearlier : ∀ {before}, before <+: calls → Ordered before := fun h => hordered.sublist h.sublist
  constructor
  · intro hwindow before call hcall
    have hbefore := hwindow before ((List.prefix_append _ _).trans hcall)
    exact (hbefore.append_iff (hearlier hcall)).mp (hwindow _ hcall)
  · intro hsteady before
    induction before using List.reverseRecOn with
    | nil => exact fun _ => RelayWindow.nil
    | append_singleton before call ih =>
      intro hcall
      have hbefore := ih ((List.prefix_append _ _).trans hcall)
      exact (hbefore.append_iff (hearlier hcall)).mpr (hsteady before call hcall)

/-- Three items are relayed, the last one when the entry of the first is due. -/
def relayedOnce : List (RelayCall Unit) :=
  [.relayTransaction 0 1 (), .relayTransaction 600 2 (), .relayTransaction 901 3 ()]

theorem relayWindow_iff_relayedOnce : RelayWindow relayedOnce := by
  have hordered : Ordered relayedOnce := by simp [Ordered, relayedOnce, nNow]
  have hsteady : ∀ n : Fin relayedOnce.length, Steady (run (relayedOnce.take n)) (relayedOnce.get n) := by
    unfold Steady
    decide
  refine (relayWindow_iff hordered).mpr ?_ _ List.prefix_rfl
  rintro before call ⟨rest, hrest⟩
  rw [List.append_assoc, List.singleton_append] at hrest
  have hlt : before.length < relayedOnce.length := by simp [← hrest]
  have htake : relayedOnce.take before.length = before := by rw [← hrest, List.take_left]
  have hget : relayedOnce.get ⟨before.length, hlt⟩ = call := by simp [← hrest]
  have hcase := hsteady ⟨before.length, hlt⟩
  rwa [hget, htake] at hcase

/-- An item is relayed twice, ten minutes apart, and another one after the first entry is due. -/
def relayedTwice : List (RelayCall Unit) :=
  [.relayTransaction 0 1 (), .relayTransaction 600 1 (), .relayTransaction 901 2 ()]

theorem ordered_relayedTwice : Ordered relayedTwice := by simp [Ordered, relayedTwice, nNow]

theorem not_forall_relayWindow :
    ¬ ∀ calls : List (RelayCall Unit), Ordered calls → ∀ before, before <+: calls → RelayWindow before := by
  intro h
  have hwindow := h relayedTwice ordered_relayedTwice relayedTwice List.prefix_rfl
  have hmem := hwindow.kept [.relayTransaction 0 1 ()] (.relayTransaction 600 1 ())
    [.relayTransaction 901 2 ()] rfl (by simp [inv]) (by simp [nNow])
  exact absurd hmem (by decide)

end RelayState

end Manna
