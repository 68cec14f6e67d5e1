import Mathlib.Data.Finset.Card
import Mathlib.Data.List.DropRight

/-!
The set of the most recent elements (`mruset.h`), in which a node remembers what a peer knows.

The elements stand in `set`, and in `queue` in the order in which they came in.

* `MruSet.Recent`: what holds of both and of the elements inserted so far;
* `MruSet.Recent.insert`, `MruSet.Recent.setMaxSize`: the calls keep it;
* `MruSet.recent_run`: the elements are the most recent ones in every run.
-/

namespace Manna

/-- `mruset`: `set`, `queue`, `nMaxSize`. -/
structure MruSet (T : Type) where
  set : Finset T
  queue : List T
  nMaxSize : Nat

namespace MruSet

/-- The calls that change a set. -/
inductive Call (T : Type) where
  | insert (x : T)
  | max_size (s : Nat)

variable {T : Type} [DecidableEq T]

/-- `mruset(size_type nMaxSizeIn = 0)`. -/
def new (nMaxSizeIn : Nat) : MruSet T := ⟨∅, [], nMaxSizeIn⟩

def size (m : MruSet T) : Nat := m.set.card

def popFront (set : Finset T) : List T → Finset T × List T
  | [] => (set, [])
  | x :: queue => (set.erase x, queue)

/-- `insert`, with the flag of the pair it returns. -/
def insert (m : MruSet T) (x : T) : MruSet T × Bool :=
  if x ∈ m.set then (m, false)
  else
    let set := Insert.insert x m.set
    let (set, queue) :=
      if m.nMaxSize ≠ 0 ∧ m.queue.length = m.nMaxSize then popFront set m.queue else (set, m.queue)
    (⟨set, queue ++ [x], m.nMaxSize⟩, true)

def shrink (s : Nat) (set : Finset T) : List T → Finset T × List T
  | [] => (set, [])
  | x :: queue => if s < (x :: queue).length then shrink s (set.erase x) queue else (set, x :: queue)

def setMaxSize (m : MruSet T) (s : Nat) : MruSet T :=
  let (set, queue) := if s ≠ 0 then shrink s m.set m.queue else (m.set, m.queue)
  ⟨set, queue, s⟩

def step (m : MruSet T) : Call T → MruSet T
  | .insert x => (m.insert x).1
  | .max_size s => m.setMaxSize s

/-- Calls one after another. -/
def run (m : MruSet T) (calls : List (Call T)) : MruSet T := calls.foldl step m

def inserted (m : MruSet T) : Call T → List T
  | .insert x => if x ∈ m.set then [] else [x]
  | .max_size _ => []

def effective (m : MruSet T) : List (Call T) → List T
  | [] => []
  | call :: calls => m.inserted call ++ (m.step call).effective calls

/-! ### The invariant -/

/-- The set holds the elements of the queue, each once, no more than the limit; they are the last of those
inserted so far. -/
structure Recent (m : MruSet T) (history : List T) : Prop where
  set_eq : m.set = m.queue.toFinset
  nodup : m.queue.Nodup
  length_le : m.nMaxSize ≠ 0 → m.queue.length ≤ m.nMaxSize
  suffix : m.queue <:+ history

variable {m : MruSet T} {history : List T} {x : T}

theorem recent_new (n : Nat) : (new n : MruSet T).Recent [] :=
  ⟨rfl, List.nodup_nil, fun _ => Nat.zero_le _, List.suffix_refl _⟩

namespace Recent

theorem mem_iff (h : m.Recent history) : x ∈ m.set ↔ x ∈ m.queue := by
  rw [h.set_eq, List.mem_toFinset]

theorem size_eq (h : m.Recent history) : m.size = m.queue.length := by
  rw [size, h.set_eq, List.toFinset_card_of_nodup h.nodup]

/-- An element that is there already changes nothing. -/
theorem insert_of_mem (hx : x ∈ m.set) : m.insert x = (m, false) := by
  rw [MruSet.insert, if_pos hx]

/-- A new element under a limit that is reached replaces the first one of the queue. -/
theorem insert_of_full (h : m.Recent history) (hx : x ∉ m.set) {y : T} {queue : List T}
    (hqueue : m.queue = y :: queue) (full : m.nMaxSize ≠ 0 ∧ m.queue.length = m.nMaxSize) :
    (m.insert x).1 = ⟨(queue ++ [x]).toFinset, queue ++ [x], m.nMaxSize⟩ := by
  have nodup := h.nodup
  rw [hqueue, List.nodup_cons] at nodup
  have hxy : x ≠ y := fun heq => hx (h.mem_iff.mpr (by rw [hqueue, heq]; exact List.mem_cons_self ..))
  rw [MruSet.insert, if_neg hx]
  simp only [if_pos full]
  rw [hqueue, popFront]
  congr 1
  ext z
  rw [h.set_eq, hqueue]
  simp only [Finset.mem_erase, Finset.mem_insert, List.mem_toFinset, List.mem_cons, List.mem_append,
    List.not_mem_nil, or_false]
  grind

theorem insert_of_room (h : m.Recent history) (hx : x ∉ m.set)
    (room : ¬ (m.nMaxSize ≠ 0 ∧ m.queue.length = m.nMaxSize)) :
    (m.insert x).1 = ⟨(m.queue ++ [x]).toFinset, m.queue ++ [x], m.nMaxSize⟩ := by
  rw [MruSet.insert, if_neg hx]
  simp only [if_neg room]
  congr 1
  ext z
  simp [h.set_eq]

/-- **A new element is the last of the queue.** -/
theorem insert (h : m.Recent history) (hx : x ∉ m.set) :
    (m.insert x).1.Recent (history ++ [x]) ∧ (m.insert x).1.nMaxSize = m.nMaxSize ∧
      (m.insert x).1.queue.length =
        if m.nMaxSize ≠ 0 ∧ m.queue.length = m.nMaxSize then m.nMaxSize else m.queue.length + 1 := by
  have fresh : x ∉ m.queue := fun hmem => hx (h.mem_iff.mpr hmem)
  have kept : ∀ queue, queue <:+ m.queue → (m.nMaxSize ≠ 0 → queue.length + 1 ≤ m.nMaxSize) →
      Recent ⟨(queue ++ [x]).toFinset, queue ++ [x], m.nMaxSize⟩ (history ++ [x]) := by
    intro queue sub limit
    refine ⟨rfl, ?_, fun hlimit => by simpa using limit hlimit, ?_⟩
    · have nodup := h.nodup.sublist sub.sublist
      have concat := (List.nodup_concat queue x).mpr ⟨fun hmem => fresh (sub.subset hmem), nodup⟩
      rwa [List.concat_eq_append] at concat
    · obtain ⟨front, hfront⟩ := sub.trans h.suffix
      exact ⟨front, by rw [← List.append_assoc, hfront]⟩
  by_cases full : m.nMaxSize ≠ 0 ∧ m.queue.length = m.nMaxSize
  · obtain ⟨y, queue, hqueue⟩ : ∃ y queue, m.queue = y :: queue := by
      refine List.exists_cons_of_ne_nil fun hnil => full.1 ?_
      rw [← full.2, hnil, List.length_nil]
    have length : queue.length + 1 = m.nMaxSize := by rw [← full.2, hqueue, List.length_cons]
    rw [h.insert_of_full hx hqueue full, if_pos full]
    exact ⟨kept queue (hqueue ▸ List.suffix_cons y queue) fun _ => length.le, rfl, by simpa using length⟩
  · rw [h.insert_of_room hx full, if_neg full]
    refine ⟨kept m.queue (List.suffix_refl _) fun hlimit => ?_, rfl, by simp⟩
    have := h.length_le hlimit
    omega

/-- The loop of `max_size` leaves the last elements. -/
theorem shrink_eq {queue : List T} (nodup : queue.Nodup) (s : Nat) :
    shrink s queue.toFinset queue = ((queue.rtake s).toFinset, queue.rtake s) := by
  induction queue with
  | nil => simp [shrink, List.rtake]
  | cons x queue ih =>
    rw [List.nodup_cons] at nodup
    rw [shrink]
    split
    next hlong =>
      have erased : (x :: queue).toFinset.erase x = queue.toFinset := by
        rw [List.toFinset_cons, Finset.erase_insert (by simpa using nodup.1)]
      have last : (x :: queue).rtake s = queue.rtake s := by
        rw [List.length_cons] at hlong
        rw [List.rtake, List.rtake, List.length_cons, Nat.succ_sub (by omega), List.drop_succ_cons]
      rw [erased, ih nodup.2, last]
    next hshort =>
      have last : (x :: queue).rtake s = x :: queue := by
        rw [List.rtake, Nat.sub_eq_zero_of_le (by omega), List.drop_zero]
      rw [last]

/-- **A new limit leaves the last elements.** -/
theorem setMaxSize (h : m.Recent history) (s : Nat) :
    (m.setMaxSize s).Recent history ∧ (m.setMaxSize s).nMaxSize = s ∧
      (s ≠ 0 → (m.setMaxSize s).queue.length = min s m.queue.length) := by
  by_cases hs : s ≠ 0
  · have shrunk : m.setMaxSize s = ⟨(m.queue.rtake s).toFinset, m.queue.rtake s, s⟩ := by
      rw [MruSet.setMaxSize, if_pos hs, h.set_eq, shrink_eq h.nodup]
    have length : (m.queue.rtake s).length = min s m.queue.length := by
      rw [List.rtake, List.length_drop]
      omega
    have sub : m.queue.rtake s <:+ m.queue := List.drop_suffix _ _
    rw [shrunk]
    refine ⟨⟨rfl, h.nodup.sublist sub.sublist, fun _ => ?_, sub.trans h.suffix⟩, rfl, fun _ => length⟩
    exact length.trans_le (min_le_left _ _)
  · have unlimited : m.setMaxSize s = ⟨m.set, m.queue, s⟩ := by rw [MruSet.setMaxSize, if_neg hs]
    rw [unlimited]
    exact ⟨⟨h.set_eq, h.nodup, fun hlimit => absurd hlimit hs, h.suffix⟩, rfl, fun hlimit => absurd hlimit hs⟩

theorem step (h : m.Recent history) (call : Call T) : (m.step call).Recent (history ++ m.inserted call) := by
  cases call with
  | insert x =>
    by_cases hx : x ∈ m.set
    · rw [MruSet.step, insert_of_mem hx, inserted, if_pos hx, List.append_nil]
      exact h
    · rw [MruSet.step, inserted, if_neg hx]
      exact (h.insert hx).1
  | max_size s =>
    rw [MruSet.step, inserted, List.append_nil]
    exact (h.setMaxSize s).1

theorem run (h : m.Recent history) (calls : List (Call T)) :
    (m.run calls).Recent (history ++ m.effective calls) := by
  induction calls generalizing m history with
  | nil =>
    rw [effective, List.append_nil]
    exact h
  | cons call calls ih =>
    rw [effective, ← List.append_assoc]
    exact ih (h.step call)

end Recent

/-! ### A limit that stays -/

def Call.KeepsAt (N : Nat) : Call T → Prop
  | .insert _ => True
  | .max_size s => s = N

/-- Under the limit `N` all along, there are as many elements as it allows. -/
structure Full (N : Nat) (m : MruSet T) (history : List T) : Prop where
  limit : m.nMaxSize = N
  length : m.queue.length = min N history.length

theorem Full.step {N : Nat} (hN : 0 < N) (full : Full N m history) (h : m.Recent history) {call : Call T}
    (keeps : call.KeepsAt N) : Full N (m.step call) (history ++ m.inserted call) := by
  have limit := full.limit
  have length := full.length
  cases call with
  | insert x =>
    by_cases hx : x ∈ m.set
    · rw [MruSet.step, Recent.insert_of_mem hx, inserted, if_pos hx, List.append_nil]
      exact full
    · obtain ⟨-, hlimit, hlength⟩ := h.insert hx
      rw [MruSet.step, inserted, if_neg hx]
      refine ⟨hlimit.trans limit, ?_⟩
      rw [hlength, List.length_append, List.length_singleton]
      split <;> omega
  | max_size s =>
    obtain rfl : s = N := keeps
    obtain ⟨-, hlimit, hlength⟩ := h.setMaxSize s
    rw [MruSet.step, inserted, List.append_nil]
    refine ⟨hlimit, ?_⟩
    rw [hlength hN.ne', length]
    omega

theorem Full.run {N : Nat} (hN : 0 < N) (full : Full N m history) (h : m.Recent history) {calls : List (Call T)}
    (keeps : ∀ call ∈ calls, call.KeepsAt N) : Full N (m.run calls) (history ++ m.effective calls) := by
  induction calls generalizing m history with
  | nil =>
    rw [effective, List.append_nil]
    exact full
  | cons call calls ih =>
    rw [List.forall_mem_cons] at keeps
    rw [effective, ← List.append_assoc]
    exact ih (full.step hN h keeps.1) (h.step call) keeps.2

/-- A suffix is told by its length. -/
theorem eq_rtake_of_suffix {α : Type} {queue history : List α} (h : queue <:+ history) :
    queue = history.rtake queue.length := by
  obtain ⟨front, rfl⟩ := h
  rw [List.rtake, List.length_append, Nat.add_sub_cancel, List.drop_left]

/-- **The elements are the most recent ones in every run.** -/
theorem recent_run (nMaxSizeIn : Nat) (calls : List (Call T)) :
    let m := (new nMaxSizeIn).run calls
    let history := (new nMaxSizeIn).effective calls
    (∀ x, x ∈ m.set ↔ x ∈ m.queue) ∧ m.queue.Nodup ∧ (m.nMaxSize ≠ 0 → m.size ≤ m.nMaxSize) ∧
      m.queue <:+ history ∧
      (0 < nMaxSizeIn → (∀ call ∈ calls, call.KeepsAt nMaxSizeIn) →
        m.queue = history.rtake (min nMaxSizeIn history.length)) := by
  intro m history
  have recent : m.Recent history := (recent_new nMaxSizeIn).run calls
  refine ⟨fun x => recent.mem_iff, recent.nodup, fun hlimit => ?_, recent.suffix, fun pos keeps => ?_⟩
  · rw [recent.size_eq]
    exact recent.length_le hlimit
  · have full : Full nMaxSizeIn m history :=
      Full.run pos (show Full nMaxSizeIn (new nMaxSizeIn) [] from ⟨rfl, by simp [new]⟩) (recent_new nMaxSizeIn) keeps
    rw [← full.length]
    exact eq_rtake_of_suffix recent.suffix

/-- Under the limit two: of three elements, one of them inserted again, the last two. -/
theorem recent_run_sample :
    ((new 2).run [.insert 1, .insert 2, .insert 1, .insert 3] : MruSet Nat).queue = [2, 3] := by
  have calls := recent_run 2 ([.insert 1, .insert 2, .insert 1, .insert 3] : List (Call Nat))
  have last := calls.2.2.2.2 (by decide) (by simp [Call.KeepsAt])
  exact last.trans (by decide)

end MruSet

end Manna
