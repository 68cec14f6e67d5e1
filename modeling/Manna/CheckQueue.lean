import Mathlib.Algebra.BigOperators.Group.Finset.Basic
import Mathlib.Algebra.Order.BigOperators.Group.Finset
import Mathlib.Data.Fintype.Option
import Mathlib.Tactic.Abel
import Manna.Block

/-!
The queue of script checks (`checkqueue.h`).

A master adds batches of checks and waits; workers run them. A step is a half of a critical section of
`Loop`, the one of `Add`, one check that a thread runs or skips, or one read of `CCheckQueueControl`, whose
constructor takes no lock. A thread that waits may wake at any time. The queue is a list with its back at
the head.

* `System.Good`: what holds after every step;
* `System.apart`: no worker is in the way of the constructor;
* `checkQueue_of_run`: then `Wait` returns whether all checks hold, every check is taken once, and no
  assertion fails;
* `control_fails`: a worker in the way makes one fail.
-/

namespace Manna

namespace CheckQueue

/-! ### The queue -/

/-- The values of an `unsigned int`. -/
def uintSize : Nat := 2 ^ 32

/-- `CCheckQueue`. -/
structure CCheckQueue (T : Type) where
  queue : List T
  nIdle : Nat
  nTotal : Nat
  fAllOk : Bool
  nTodo : Nat
  fQuit : Bool
  nBatchSize : Nat

/-- Where a thread is. -/
inductive Thread (T : Type) where
  /-- It is not in `Loop`. -/
  | outside
  /-- It holds the lock, after the clean-up of its last round. -/
  | inside
  /-- It waits on its condition, and may have been notified. -/
  | waits (notified : Bool)
  /-- It has taken `nNow` checks and is yet to do the listed ones. -/
  | works (nNow : Nat) (vChecks : List T) (fOk : Bool)
  /-- It has left `Loop` for good. -/
  | returned

variable {T : Type}

namespace CCheckQueue

/-- The constructor. -/
def empty (nBatchSize : Nat) : CCheckQueue T := ⟨[], 0, 0, true, 0, false, nBatchSize⟩

def add (vChecks : List T) (q : CCheckQueue T) : CCheckQueue T :=
  { q with
    queue := vChecks.reverse ++ q.queue
    nTodo := (q.nTodo + vChecks.length) % uintSize }

def cleanUp (nNow : Nat) (fOk : Bool) (q : CCheckQueue T) : CCheckQueue T :=
  { q with
    fAllOk := q.fAllOk && fOk
    nTodo := (q.nTodo + uintSize - nNow) % uintSize }

/-- How many checks a thread takes. -/
def nNow (q : CCheckQueue T) : Nat :=
  max 1 (min q.nBatchSize (q.queue.length % uintSize / (q.nTotal + q.nIdle + 1)))

/-- `Loop` may be left. -/
def finished (fMaster : Bool) (q : CCheckQueue T) : Bool :=
  q.queue.isEmpty && (fMaster || q.fQuit) && q.nTodo == 0

end CCheckQueue

namespace Thread

def notify : Thread T → Thread T
  | .waits _ => .waits true
  | thread => thread

def locks : Thread T → Bool
  | .inside => true
  | _ => false

def asleep : Thread T → Bool
  | .waits notified => !notified
  | _ => false

/-- It counts as one of `nTotal`. -/
def started : Thread T → Nat
  | .inside | .waits _ | .works .. => 1
  | .outside | .returned => 0

/-- It counts as one of `nIdle`. -/
def idles : Thread T → Nat
  | .waits _ => 1
  | _ => 0

/-- How many checks it takes off `nTodo`. -/
def takes : Thread T → Nat
  | .works nNow _ _ => nNow
  | _ => 0

def holds : Thread T → Multiset T
  | .works _ vChecks _ => vChecks
  | _ => 0

end Thread

/-! ### The threads -/

/-- How far the constructor of the next `CCheckQueueControl` has come: it reads the counters one by one. -/
inductive Control where
  | before
  /-- It has read `nTotal`. -/
  | total (nTotal : Nat)
  /-- `nTotal == nIdle` held. -/
  | idle
  /-- `nTodo == 0` held. -/
  | todo
  /-- An assertion failed: the program is aborted. -/
  | failed
  deriving DecidableEq

/-- What the master does between two `CCheckQueueControl`s: it adds batches, then waits. -/
structure Session (T : Type) where
  batches : List (List T)
  small : batches.flatten.length < uintSize

def Session.checks (session : Session T) : List T := session.batches.flatten

variable {n : Nat}

/-- A check was run or skipped by a thread; the master is `none`. -/
structure Entry (n : Nat) (T : Type) where
  thread : Option (Fin n)
  check : T
  ran : Bool

/-- A session after its `Wait`. -/
structure Record (n : Nat) (T : Type) where
  session : Session T
  fRet : Bool
  log : List (Entry n T)

/-- The queue, the master and `n` workers. -/
structure System (n : Nat) (T : Type) where
  q : CCheckQueue T
  threads : Option (Fin n) → Thread T
  control : Control
  /-- The session of the master, and the batches that it is yet to add. -/
  current : Option (Session T × List (List T))
  /-- The sessions after this one. -/
  sessions : List (Session T)
  /-- What became of the checks of this session. -/
  log : List (Entry n T)
  history : List (Record n T)

inductive Event (n : Nat) where
  /-- The constructor of a `CCheckQueueControl` reads a counter. -/
  | control
  /-- The master adds its next batch. The worker is the one that `notify_one` wakes. -/
  | add (worker : Option (Fin n))
  /-- A thread goes on. -/
  | run (i : Option (Fin n))

namespace System

/-- Notifies those threads that wait. -/
def notify (p : Option (Fin n) → Bool) (s : System n T) : System n T :=
  { s with threads := fun i => if p i then (s.threads i).notify else s.threads i }

def set (i : Option (Fin n)) (thread : Thread T) (s : System n T) : System n T :=
  { s with threads := Function.update s.threads i thread }

/-- The worker that `notify_one` wakes: one that sleeps, if there is one. -/
def CanNotify (s : System n T) : Option (Fin n) → Prop
  | some j => (s.threads (some j)).asleep = true
  | none => ∀ j, (s.threads (some j)).asleep = false

instance (s : System n T) (worker : Option (Fin n)) : Decidable (s.CanNotify worker) :=
  match worker with
  | some _ => inferInstanceAs (Decidable (_ = true))
  | none => inferInstanceAs (Decidable (∀ _, _ = false))

/-- No thread holds the lock. -/
def Unlocked (s : System n T) : Prop := ∀ i, (s.threads i).locks = false

instance (s : System n T) : Decidable s.Unlocked := inferInstanceAs (Decidable (∀ _, _ = false))

/-- Whom `Add` notifies. -/
def notified (vChecks : List T) (worker : Option (Fin n)) : Option (Fin n) → Bool
  | none => false
  | some j => if vChecks.length = 1 then worker = some j else 1 < vChecks.length

/-- `Loop` up to its inner loop: the clean-up of the previous round, or the count in the first one. -/
def enter (i : Option (Fin n)) (s : System n T) : Option (System n T) :=
  match s.threads i with
  | .outside =>
    match i, s.current with
    | some _, _ | none, some (_, []) =>
      some (set i .inside { s with q := { s.q with nTotal := s.q.nTotal + 1 } })
    | none, _ => none
  | .waits _ => some (set i .inside { s with q := { s.q with nIdle := s.q.nIdle - 1 } })
  | .works nNow [] fOk =>
    let q := s.q.cleanUp nNow fOk
    some (set i .inside ({ s with q }.notify fun j => j.isNone && i.isSome && q.nTodo == 0))
  | _ => none

/-- The rest of the critical section. -/
def leave (i : Option (Fin n)) (s : System n T) : System n T :=
  if s.q.finished i.isNone then
    match i, s.current with
    | none, some (session, _) =>
      set none .outside { s with
        q := { s.q with nTotal := s.q.nTotal - 1, fAllOk := true }
        current := none
        log := []
        history := s.history ++ [⟨session, s.q.fAllOk, s.log⟩] }
    | _, _ => set i .returned { s with q := { s.q with nTotal := s.q.nTotal - 1 } }
  else if s.q.queue.isEmpty then set i (.waits false) { s with q := { s.q with nIdle := s.q.nIdle + 1 } }
  else
    set i (.works s.q.nNow (s.q.queue.take s.q.nNow) s.q.fAllOk)
      { s with q := { s.q with queue := s.q.queue.drop s.q.nNow } }

/-- The constructor of `CCheckQueueControl`, up to its next read. -/
def construct (session : Session T) (sessions : List (Session T)) (s : System n T) : System n T :=
  match s.control with
  | .before => { s with control := .total s.q.nTotal }
  | .total nTotal => { s with control := if nTotal = s.q.nIdle then .idle else .failed }
  | .idle => { s with control := if s.q.nTodo = 0 then .todo else .failed }
  | .todo =>
    if s.q.fAllOk then { s with control := .before, current := some (session, session.batches), sessions }
    else { s with control := .failed }
  | .failed => s

/-- A step; `none` where it cannot happen. -/
def step (check : T → Bool) (s : System n T) (event : Event n) : Option (System n T) :=
  if s.control = .failed then none
  else match event with
  | .control =>
    match s.current, s.sessions with
    | none, session :: sessions => some (s.construct session sessions)
    | _, _ => none
  | .add worker =>
    match s.threads none, s.current with
    | .outside, some (session, vChecks :: batches) =>
      if s.Unlocked ∧ s.CanNotify worker then
        some ({ s with q := s.q.add vChecks, current := some (session, batches) }.notify
          (notified vChecks worker))
      else none
    | _, _ => none
  | .run i =>
    match s.threads i with
    | .works nNow (vCheck :: vChecks) fOk =>
      some (set i (.works nNow vChecks (fOk && check vCheck))
        { s with log := s.log ++ [⟨i, vCheck, fOk⟩] })
    | .inside => some (s.leave i)
    | _ => if s.Unlocked then s.enter i else none

/-- Before the first session. -/
def start (n nBatchSize : Nat) (sessions : List (Session T)) : System n T :=
  ⟨.empty nBatchSize, fun _ => .outside, .before, none, sessions, [], []⟩

/-- The states of the runs whose steps are all allowed. -/
inductive Run (allowed : System n T → Event n → Bool) (check : T → Bool) (nBatchSize : Nat)
    (sessions : List (Session T)) : System n T → Prop where
  | start : Run allowed check nBatchSize sessions (start n nBatchSize sessions)
  | step {s s' : System n T} {event : Event n} : Run allowed check nBatchSize sessions s →
      allowed s event = true → s.step check event = some s' → Run allowed check nBatchSize sessions s'

/-- **No worker is in the way** of the constructor: none starts between its reads of `nTotal` and `nIdle`, and
none holds the lock when it reads `nIdle`. -/
def apart (s : System n T) (event : Event n) : Bool :=
  match s.control, event with
  | .total _, .control => decide s.Unlocked
  | .total _, .run i => (s.threads i).started == 1
  | _, _ => true

end System

/-- Some check was run and failed. -/
def Failed (check : T → Bool) (log : List (Entry n T)) : Prop :=
  ∃ entry ∈ log, entry.ran = true ∧ check entry.check = false

/-- **A check is skipped** only after some check has failed. -/
def SkipsLate (check : T → Bool) (log : List (Entry n T)) : Prop :=
  ∀ before entry after, log = before ++ entry :: after → entry.ran = false → Failed check before

/-- **What `Wait` returns**: whether all checks hold. Each of them was taken by one thread. -/
structure Record.Exact (check : T → Bool) (record : Record n T) : Prop where
  verdict : record.fRet = record.session.checks.all check
  once : (record.log.map Entry.check).Perm record.session.checks
  skips : SkipsLate check record.log

namespace System

/-- The checks of the session. -/
def checks (s : System n T) : List T := (s.current.map fun current => current.1.checks).getD []

/-- The checks that the master is yet to add. -/
def pending (s : System n T) : List T := (s.current.map fun current => current.2.flatten).getD []

/-- A sum over all threads. -/
def total {M : Type} [AddCommMonoid M] (f : Thread T → M) (threads : Option (Fin n) → Thread T) : M :=
  ∑ i, f (threads i)

/-- **The queue keeps its promises** in a state. -/
structure Sound (check : T → Bool) (sessions : List (Session T)) (s : System n T) : Prop where
  /-- The sessions that are over had the right result. -/
  exact : ∀ record ∈ s.history, record.Exact check
  order : s.history.map Record.session ++ (s.current.map Prod.fst).toList ++ s.sessions = sessions
  /-- Each check of this session is at one place. -/
  once : (s.checks : Multiset T) =
    s.pending + s.q.queue + total Thread.holds s.threads + (s.log.map Entry.check : List T)
  skips : SkipsLate check s.log
  /-- A clean-up does not underflow. -/
  cleanUp_le : ∀ i nNow vChecks fOk, s.threads i = .works nNow vChecks fOk → nNow ≤ s.q.nTodo
  /-- A master that sleeps waits for a worker. -/
  awake : s.threads none = .waits false → s.q.nTodo ≠ 0 ∧
    ∃ j nNow vChecks fOk, s.threads (some j) = .works nNow vChecks fOk
  /-- The assertions of `CCheckQueueControl` have held. -/
  asserts : s.control ≠ .failed

/-! ### The invariant -/

/-- What the counters count. -/
structure Counted (s : System n T) : Prop where
  nTotal_eq : s.q.nTotal = total Thread.started s.threads
  nIdle_eq : s.q.nIdle = total Thread.idles s.threads
  nTodo_eq : s.q.nTodo = s.q.queue.length + total Thread.takes s.threads
  small : s.q.queue.length + total Thread.takes s.threads + s.pending.length ≤ s.checks.length
  takes_pos : ∀ i nNow vChecks fOk, s.threads i = .works nNow vChecks fOk → 0 < nNow
  once : (s.checks : Multiset T) =
    s.pending + s.q.queue + total Thread.holds s.threads + (s.log.map Entry.check : List T)

/-- Where a failed check shows. -/
structure Judged (check : T → Bool) (s : System n T) : Prop where
  fAllOk_false : s.q.fAllOk = false → Failed check s.log
  fOk_false : ∀ i nNow vChecks, s.threads i = .works nNow vChecks false → Failed check s.log
  caught : ∀ entry ∈ s.log, (entry.ran && check entry.check) = false →
    s.q.fAllOk = false ∨ ∃ i nNow vChecks, s.threads i = .works nNow vChecks false
  skips : SkipsLate check s.log

/-- What the master does. -/
structure Mastered (check : T → Bool) (sessions : List (Session T)) (s : System n T) : Prop where
  exact : ∀ record ∈ s.history, record.Exact check
  order : s.history.map Record.session ++ (s.current.map Prod.fst).toList ++ s.sessions = sessions
  log_nil : s.current = none → s.log = []
  fQuit_eq : s.q.fQuit = false
  /-- The master is in `Loop` only when it has added everything. -/
  added : (s.threads none).started ≠ 0 → ∃ session, s.current = some (session, [])
  asleep : ∀ notified, s.threads none = .waits notified →
    s.q.queue = [] ∧ (notified = false → s.q.nTodo ≠ 0)

/-- **What holds after every step**, and in the middle of a critical section. -/
structure Good (check : T → Bool) (sessions : List (Session T)) (s : System n T) : Prop where
  counted : s.Counted
  judged : s.Judged check
  mastered : s.Mastered check sessions

section Sums

variable {threads : Option (Fin n) → Thread T} {i : Option (Fin n)}

/-- A sum over all threads, when one of them changes. -/
theorem total_update {M : Type} [AddCommMonoid M] (f : Thread T → M) (thread : Thread T) :
    total f (Function.update threads i thread) + f (threads i) = total f threads + f thread := by
  unfold total
  rw [← Finset.add_sum_erase _ _ (Finset.mem_univ i),
    ← Finset.add_sum_erase _ (fun j => f (threads j)) (Finset.mem_univ i), Function.update_self]
  have hrest : ∑ j ∈ Finset.univ.erase i, f (Function.update threads i thread j) =
      ∑ j ∈ Finset.univ.erase i, f (threads j) := by
    refine Finset.sum_congr rfl fun j hj => ?_
    rw [Function.update_of_ne (Finset.ne_of_mem_erase hj)]
  rw [hrest]
  abel

theorem le_total (f : Thread T → Nat) (i : Option (Fin n)) : f (threads i) ≤ total f threads :=
  Finset.single_le_sum (f := fun i => f (threads i)) (fun _ _ => Nat.zero_le _) (Finset.mem_univ i)

theorem set_self {s : System n T} {thread : Thread T} : (s.set i thread).threads i = thread :=
  Function.update_self ..

theorem notify_ne (thread : Thread T) : thread.notify ≠ .waits false := by
  cases thread with
  | outside | inside | waits | works | returned => exact nofun

theorem apply_notify {α : Type} {f : Thread T → α} (hf : ∀ notified, f (.waits notified) = f (.waits true))
    (thread : Thread T) : f thread.notify = f thread := by
  cases thread with
  | waits notified => exact (hf notified).symm
  | outside | inside | works | returned => rfl

theorem total_notify {M : Type} [AddCommMonoid M] {f : Thread T → M}
    (hf : ∀ notified, f (.waits notified) = f (.waits true)) (p : Option (Fin n) → Bool) :
    total f (fun i => if p i then (threads i).notify else threads i) = total f threads := by
  refine Finset.sum_congr rfl fun j _ => ?_
  dsimp only
  split
  · exact apply_notify hf _
  · rfl

theorem notify_eq_works_iff {p : Prop} [Decidable p] {thread : Thread T} {nNow : Nat} {vChecks : List T}
    {fOk : Bool} :
    (if p then thread.notify else thread) = .works nNow vChecks fOk ↔ thread = .works nNow vChecks fOk := by
  split
  · cases thread with
    | outside | inside | waits | works | returned => simp [Thread.notify]
  · rfl

end Sums

/-! ### Notifications -/

section Notify

variable {check : T → Bool} {sessions : List (Session T)} {s : System n T}

theorem Counted.notify (h : s.Counted) (p : Option (Fin n) → Bool) : (s.notify p).Counted where
  nTotal_eq := h.nTotal_eq.trans (total_notify (fun _ => rfl) p).symm
  nIdle_eq := h.nIdle_eq.trans (total_notify (fun _ => rfl) p).symm
  nTodo_eq := by
    rw [System.notify, total_notify (fun _ => rfl) p]
    exact h.nTodo_eq
  small := by
    rw [System.notify, total_notify (fun _ => rfl) p]
    exact h.small
  takes_pos := by
    intro i nNow vChecks fOk hworks
    exact h.takes_pos i nNow vChecks fOk (notify_eq_works_iff.mp hworks)
  once := by
    rw [System.notify, total_notify (fun _ => rfl) p]
    exact h.once

theorem Judged.notify (h : s.Judged check) (p : Option (Fin n) → Bool) : (s.notify p).Judged check where
  fAllOk_false := h.fAllOk_false
  fOk_false := by
    intro i nNow vChecks hworks
    exact h.fOk_false i nNow vChecks (notify_eq_works_iff.mp hworks)
  caught := by
    intro entry hentry hfailed
    refine (h.caught entry hentry hfailed).imp_right ?_
    rintro ⟨i, nNow, vChecks, hworks⟩
    exact ⟨i, nNow, vChecks, notify_eq_works_iff.mpr hworks⟩
  skips := h.skips

theorem Mastered.notify (h : s.Mastered check sessions) (p : Option (Fin n) → Bool) :
    (s.notify p).Mastered check sessions where
  exact := h.exact
  order := h.order
  log_nil := h.log_nil
  fQuit_eq := h.fQuit_eq
  added := by
    intro hstarted
    refine h.added ?_
    unfold System.notify at hstarted
    dsimp only at hstarted
    split at hstarted
    · rwa [apply_notify (f := Thread.started) fun _ => rfl] at hstarted
    · exact hstarted
  asleep := by
    intro notified hwaits
    unfold System.notify at hwaits
    dsimp only at hwaits
    split at hwaits
    · cases hmaster : s.threads none with
      | waits notified' =>
        rw [hmaster] at hwaits
        cases hwaits
        exact ⟨(h.asleep notified' hmaster).1, nofun⟩
      | outside | inside | works | returned =>
        rw [hmaster] at hwaits
        cases hwaits
    · exact h.asleep notified hwaits

theorem Good.notify (h : s.Good check sessions) (p : Option (Fin n) → Bool) :
    (s.notify p).Good check sessions :=
  ⟨h.counted.notify p, h.judged.notify p, h.mastered.notify p⟩

end Notify

/-! ### One thread changes -/

section Change

variable {check : T → Bool} {sessions : List (Session T)} {s s' : System n T} {i : Option (Fin n)}
  {thread : Thread T}

theorem Counted.set (h : s.Counted) (hthreads : s'.threads = Function.update s.threads i thread)
    (hcurrent : s'.current = s.current)
    (hTotal : s'.q.nTotal + (s.threads i).started = s.q.nTotal + thread.started)
    (hIdle : s'.q.nIdle + (s.threads i).idles = s.q.nIdle + thread.idles)
    (hTodo : s'.q.nTodo + s.q.queue.length + (s.threads i).takes =
      s.q.nTodo + s'.q.queue.length + thread.takes)
    (hsmall : s'.q.queue.length + thread.takes ≤ s.q.queue.length + (s.threads i).takes)
    (hpos : ∀ nNow vChecks fOk, thread = .works nNow vChecks fOk → 0 < nNow)
    (honce : (s'.q.queue : Multiset T) + thread.holds + (s'.log.map Entry.check : List T) =
      s.q.queue + (s.threads i).holds + (s.log.map Entry.check : List T)) : s'.Counted := by
  have hchecks : s'.checks = s.checks := by unfold checks; rw [hcurrent]
  have hpending : s'.pending = s.pending := by unfold pending; rw [hcurrent]
  have htakes : total Thread.takes s'.threads + (s.threads i).takes =
      total Thread.takes s.threads + thread.takes := by rw [hthreads, total_update]
  refine ⟨?_, ?_, ?_, ?_, ?_, ?_⟩
  · have hstarted : total Thread.started s'.threads + (s.threads i).started =
        total Thread.started s.threads + thread.started := by rw [hthreads, total_update]
    have hold := h.nTotal_eq
    omega
  · have hidles : total Thread.idles s'.threads + (s.threads i).idles =
        total Thread.idles s.threads + thread.idles := by rw [hthreads, total_update]
    have hold := h.nIdle_eq
    omega
  · have hold := h.nTodo_eq
    omega
  · have hold := h.small
    rw [hchecks, hpending]
    omega
  · intro j nNow vChecks fOk hworks
    rw [hthreads, Function.update_apply] at hworks
    split at hworks
    · exact hpos nNow vChecks fOk hworks
    · exact h.takes_pos j nNow vChecks fOk hworks
  · have hholds : total Thread.holds s'.threads + (s.threads i).holds =
        total Thread.holds s.threads + thread.holds := by rw [hthreads, total_update]
    refine add_right_cancel (b := (s.threads i).holds) ?_
    calc (s'.checks : Multiset T) + (s.threads i).holds
      _ = s.pending + (s.q.queue + (s.threads i).holds + (s.log.map Entry.check : List T)) +
          total Thread.holds s.threads := by
        rw [hchecks, h.once]
        abel
      _ = s'.pending + s'.q.queue + (total Thread.holds s.threads + thread.holds) +
          (s'.log.map Entry.check : List T) := by
        rw [← honce, hpending]
        abel
      _ = s'.pending + s'.q.queue + total Thread.holds s'.threads +
          (s'.log.map Entry.check : List T) + (s.threads i).holds := by
        rw [← hholds]
        abel

theorem Judged.set (h : s.Judged check) (hthreads : s'.threads = Function.update s.threads i thread)
    (hlog : s'.log = s.log) (hfailed : s'.q.fAllOk = false → Failed check s.log)
    (hworks : ∀ nNow vChecks, thread = .works nNow vChecks false → Failed check s.log)
    (hall : s.q.fAllOk = false → s'.q.fAllOk = false)
    (hkept : ∀ nNow vChecks, s.threads i = .works nNow vChecks false → s'.q.fAllOk = false) :
    s'.Judged check := by
  refine ⟨fun hfalse => hlog ▸ hfailed hfalse, ?_, ?_, hlog ▸ h.skips⟩
  · intro j nNow vChecks hj
    rw [hlog]
    rw [hthreads, Function.update_apply] at hj
    split at hj
    · exact hworks nNow vChecks hj
    · exact h.fOk_false j nNow vChecks hj
  · intro entry hentry hfalse
    rw [hlog] at hentry
    rcases h.caught entry hentry hfalse with hfalse | ⟨j, nNow, vChecks, hj⟩
    · exact .inl (hall hfalse)
    · by_cases hi : j = i
      · exact .inl (hkept nNow vChecks (hi ▸ hj))
      · refine .inr ⟨j, nNow, vChecks, ?_⟩
        rw [hthreads, Function.update_of_ne hi]
        exact hj

theorem Mastered.set (h : s.Mastered check sessions)
    (hthreads : s'.threads = Function.update s.threads i thread) (hcurrent : s'.current = s.current)
    (hsessions : s'.sessions = s.sessions) (hhistory : s'.history = s.history)
    (hlog : s.current = none → s'.log = s.log) (hquit : s'.q.fQuit = s.q.fQuit)
    (hadded : i = none → thread.started ≠ 0 → ∃ session, s.current = some (session, []))
    (hasleep : i = none → ∀ notified, thread = .waits notified →
      s'.q.queue = [] ∧ (notified = false → s'.q.nTodo ≠ 0))
    (hmaster : i ≠ none → ∀ notified, s.threads none = .waits notified →
      s'.q.queue = [] ∧ (notified = false → s'.q.nTodo ≠ 0)) : s'.Mastered check sessions := by
  refine ⟨hhistory ▸ h.exact, ?_, ?_, hquit.trans h.fQuit_eq, ?_, ?_⟩
  · rw [hcurrent, hsessions, hhistory]
    exact h.order
  · intro hnone
    rw [hcurrent] at hnone
    exact (hlog hnone).trans (h.log_nil hnone)
  · intro hstarted
    rw [hcurrent]
    rw [hthreads, Function.update_apply] at hstarted
    split at hstarted
    · next hi => exact hadded hi.symm hstarted
    · exact h.added hstarted
  · intro notified hwaits
    rw [hthreads, Function.update_apply] at hwaits
    split at hwaits
    · next hi => exact hasleep hi.symm notified hwaits
    · next hi => exact hmaster (Ne.symm hi) notified hwaits

end Change

/-! ### The steps -/

section Steps

variable {check : T → Bool} {sessions : List (Session T)} {s s' : System n T} {i : Option (Fin n)}

theorem length_checks_lt (s : System n T) : s.checks.length < uintSize := by
  unfold checks
  cases s.current with
  | none => exact Nat.two_pow_pos 32
  | some current => exact current.1.small

theorem Counted.nTodo_lt (h : s.Counted) : s.q.nTodo < uintSize := by
  have htodo := h.nTodo_eq
  have hsmall := h.small
  have hlt := length_checks_lt s
  omega

variable {vChecks : List T} {session : Session T}

theorem Counted.takes_le (h : s.Counted) {nNow : Nat} {fOk : Bool}
    (hworks : s.threads i = .works nNow vChecks fOk) : nNow ≤ s.q.nTodo := by
  have htakes : (s.threads i).takes ≤ total Thread.takes s.threads := le_total Thread.takes i
  rw [hworks] at htakes
  have htodo := h.nTodo_eq
  change nNow ≤ _ at htakes
  omega

theorem Counted.nTodo_cleanUp (h : s.Counted) {nNow : Nat} {fOk : Bool}
    (hworks : s.threads i = .works nNow vChecks fOk) (fOk' : Bool) :
    (s.q.cleanUp nNow fOk').nTodo + nNow = s.q.nTodo := by
  have hle := h.takes_le hworks
  have hlt := h.nTodo_lt
  have hsub : s.q.nTodo + uintSize - nNow = s.q.nTodo - nNow + uintSize := by omega
  unfold CCheckQueue.cleanUp
  dsimp only
  rw [hsub, Nat.add_mod_right, Nat.mod_eq_of_lt (by omega)]
  omega

theorem Good.cleanUp (h : s.Good check sessions) {nNow : Nat} {fOk : Bool}
    (hworks : s.threads i = .works nNow [] fOk)
    (hwoken : i ≠ none → s.threads none = .waits false → (s.q.cleanUp nNow fOk).nTodo ≠ 0) :
    (set i .inside { s with q := s.q.cleanUp nNow fOk }).Good check sessions := by
  have htodo := h.counted.nTodo_cleanUp hworks fOk
  refine ⟨?_, ?_, ?_⟩
  · refine h.counted.set rfl rfl ?_ ?_ ?_ ?_ nofun ?_ <;> rw [hworks]
    · rfl
    · rfl
    · exact (Nat.add_right_comm _ _ _).trans (congrArg (· + _) htodo)
    · exact Nat.le_add_right _ _
    · rfl
  · refine h.judged.set rfl rfl (fun hfalse => ?_) nofun (fun hfalse => ?_) fun nNow' vChecks hfalse => ?_
    · rcases Bool.and_eq_false_iff.mp hfalse with hfalse | rfl
      · exact h.judged.fAllOk_false hfalse
      · exact h.judged.fOk_false i nNow [] hworks
    · exact Bool.and_eq_false_iff.mpr (.inl hfalse)
    · rw [hworks] at hfalse
      cases hfalse
      exact Bool.and_false _
  · refine h.mastered.set rfl rfl rfl rfl (fun _ => rfl) rfl (fun hi _ => ?_) nofun
      fun hi notified hwaits => ⟨(h.mastered.asleep notified hwaits).1, ?_⟩
    · subst hi
      exact h.mastered.added (by rw [hworks]; exact one_ne_zero)
    · rintro rfl
      exact hwoken hi hwaits

theorem Good.inside (h : s.Good check sessions) {nTotal nIdle : Nat}
    (hTotal : nTotal + (s.threads i).started = s.q.nTotal + 1)
    (hIdle : nIdle + (s.threads i).idles = s.q.nIdle) (htakes : (s.threads i).takes = 0)
    (hholds : (s.threads i).holds = 0) (hadded : i = none → ∃ session, s.current = some (session, [])) :
    (set i .inside { s with q := { s.q with nTotal, nIdle } }).Good check sessions where
  counted := by
    refine h.counted.set rfl rfl hTotal hIdle ?_ ?_ nofun ?_
    · rw [htakes]
      rfl
    · rw [htakes]
      exact le_refl _
    · rw [hholds]
      rfl
  judged := by
    refine h.judged.set rfl rfl h.judged.fAllOk_false nofun id fun nNow vChecks hworks => ?_
    rw [hworks] at htakes
    exact absurd htakes (h.counted.takes_pos i nNow vChecks false hworks).ne'
  mastered :=
    h.mastered.set rfl rfl rfl rfl (fun _ => rfl) rfl (fun hi _ => hadded hi) nofun
      fun _ => h.mastered.asleep

/-- **Into the critical section.** -/
theorem Good.enter (h : s.Good check sessions) (henter : s.enter i = some s') :
    s'.Good check sessions ∧ s'.threads i = .inside := by
  unfold System.enter at henter
  split at henter
  · next houtside =>
    have hstarted : s.q.nTotal + 1 + (s.threads i).started = s.q.nTotal + 1 := by rw [houtside]; rfl
    have hidles : s.q.nIdle + (s.threads i).idles = s.q.nIdle := by rw [houtside]; rfl
    have htakes : (s.threads i).takes = 0 := by rw [houtside]; rfl
    have hholds : (s.threads i).holds = 0 := by rw [houtside]; rfl
    split at henter
    · next j =>
      obtain rfl := Option.some.inj henter
      exact ⟨h.inside hstarted hidles htakes hholds nofun, set_self⟩
    · next session hcurrent =>
      obtain rfl := Option.some.inj henter
      exact ⟨h.inside hstarted hidles htakes hholds fun _ => ⟨session, hcurrent⟩, set_self⟩
    · cases henter
  · next notified hwaits =>
    obtain rfl := Option.some.inj henter
    have hidles : s.q.nIdle - 1 + (s.threads i).idles = s.q.nIdle := by
      have hle : (s.threads i).idles ≤ total Thread.idles s.threads := le_total Thread.idles i
      rw [← h.counted.nIdle_eq, hwaits] at hle
      rw [hwaits]
      exact Nat.sub_add_cancel hle
    refine ⟨h.inside (by rw [hwaits]; rfl) hidles (by rw [hwaits]; rfl) (by rw [hwaits]; rfl) ?_,
      set_self⟩
    rintro rfl
    exact h.mastered.added (by rw [hwaits]; exact one_ne_zero)
  · next nNow fOk hworks =>
    obtain rfl := Option.some.inj henter
    refine ⟨Good.cleanUp (h.notify _) (notify_eq_works_iff.mpr hworks) fun hi hwaits htodo => ?_,
      set_self⟩
    -- A master that waits has just been notified.
    have hzero : (s.q.cleanUp nNow fOk).nTodo = 0 := htodo
    have hnotified : ((none : Option (Fin n)).isNone && i.isSome &&
        (s.q.cleanUp nNow fOk).nTodo == 0) = true := by
      rw [Option.isNone_none, Option.isSome_iff_ne_none.mpr hi, beq_iff_eq.mpr hzero]
      rfl
    exact notify_ne _ ((if_pos hnotified).symm.trans hwaits)
  · cases henter

theorem Counted.not_works (h : s.Counted) (htodo : s.q.nTodo = 0) (i : Option (Fin n)) (nNow : Nat)
    (vChecks : List T) (fOk : Bool) : s.threads i ≠ .works nNow vChecks fOk := by
  intro hworks
  have hpos := h.takes_pos i nNow vChecks fOk hworks
  have hle := h.takes_le hworks
  omega

theorem Counted.holds_eq_zero (h : s.Counted) (htodo : s.q.nTodo = 0) : total Thread.holds s.threads = 0 := by
  refine Finset.sum_eq_zero fun i _ => ?_
  cases hi : s.threads i with
  | works nNow vChecks fOk => exact absurd hi (h.not_works htodo i nNow vChecks fOk)
  | outside | inside | waits | returned => rfl

/-- **The session is over** with the right result. -/
theorem Good.exact (h : s.Good check sessions) (hqueue : s.q.queue = []) (htodo : s.q.nTodo = 0)
    (hcurrent : s.current = some (session, [])) :
    (⟨session, s.q.fAllOk, s.log⟩ : Record n T).Exact check := by
  have hchecks : s.checks = session.checks := by unfold checks; rw [hcurrent]; rfl
  have hpending : s.pending = [] := by unfold pending; rw [hcurrent]; rfl
  have honce : (s.log.map Entry.check).Perm session.checks := by
    have honce := h.counted.once
    rw [hchecks, hpending, hqueue, h.counted.holds_eq_zero htodo] at honce
    rw [← Multiset.coe_eq_coe, honce]
    simp only [Multiset.coe_nil, zero_add]
  refine ⟨?_, honce, h.judged.skips⟩
  dsimp only
  rw [← honce.all_eq, List.all_map]
  cases hall : s.q.fAllOk with
  | true =>
    symm
    rw [List.all_eq_true]
    intro entry hentry
    by_contra hfailed
    have hfalse : (entry.ran && check entry.check) = false := by
      rw [Function.comp_apply, Bool.not_eq_true] at hfailed
      rw [hfailed, Bool.and_false]
    rcases h.judged.caught entry hentry hfalse with hno | ⟨i, nNow, vChecks, hworks⟩
    · rw [hall] at hno
      cases hno
    · exact h.counted.not_works htodo i nNow vChecks false hworks
  | false =>
    obtain ⟨entry, hentry, -, hfailed⟩ := h.judged.fAllOk_false hall
    symm
    rw [List.all_eq_false]
    exact ⟨entry, hentry, by rw [Function.comp_apply, hfailed]; exact Bool.false_ne_true⟩

/-- `Wait` returns. -/
theorem Good.returns (h : s.Good check sessions) (hinside : s.threads none = .inside)
    (hqueue : s.q.queue = []) (htodo : s.q.nTodo = 0) (hcurrent : s.current = some (session, [])) :
    (set none .outside { s with
      q := { s.q with nTotal := s.q.nTotal - 1, fAllOk := true }
      current := none
      log := []
      history := s.history ++ [⟨session, s.q.fAllOk, s.log⟩] }).Good check sessions := by
  have hworks : ∀ i nNow vChecks fOk,
      Function.update s.threads none .outside i ≠ .works nNow vChecks fOk := by
    intro i nNow vChecks fOk hi
    rw [Function.update_apply] at hi
    split at hi
    · cases hi
    · exact h.counted.not_works htodo i nNow vChecks fOk hi
  have houtside : ∀ f : Thread T → Nat, total f (Function.update s.threads none .outside) +
      f (s.threads none) = total f s.threads + f .outside := fun f => total_update f .outside
  have htakes : total Thread.takes (Function.update s.threads none .outside) = 0 := by
    have heq := houtside Thread.takes
    rw [hinside] at heq
    exact Nat.le_zero.mp (heq.le.trans (h.counted.nTodo_eq.symm.trans htodo ▸ Nat.le_add_left _ _))
  have hholds : total Thread.holds (Function.update s.threads none .outside) = 0 := by
    have heq : total Thread.holds (Function.update s.threads none .outside) + (s.threads none).holds =
      total Thread.holds s.threads + Thread.outside.holds := total_update Thread.holds .outside
    rw [hinside, h.counted.holds_eq_zero htodo] at heq
    exact (add_zero _).symm.trans (heq.trans (add_zero 0))
  have hidles : total Thread.idles (Function.update s.threads none .outside) = s.q.nIdle := by
    have heq := houtside Thread.idles
    rw [hinside, ← h.counted.nIdle_eq] at heq
    exact heq
  have hstarted : total Thread.started (Function.update s.threads none .outside) + 1 = s.q.nTotal := by
    have heq := houtside Thread.started
    rw [hinside, ← h.counted.nTotal_eq] at heq
    exact heq
  have hlength : s.q.queue.length = 0 := by rw [hqueue]; rfl
  have hcoe : (s.q.queue : Multiset T) = 0 := by rw [hqueue]; rfl
  refine ⟨⟨congrArg (· - 1) hstarted.symm, hidles.symm, ?_, ?_, ?_, ?_⟩, ⟨nofun, ?_, nofun, ?_⟩,
    ⟨?_, ?_, fun _ => rfl, h.mastered.fQuit_eq, ?_, ?_⟩⟩
  · exact htodo.trans (congrArg₂ (· + ·) hlength htakes).symm
  · exact (congrArg₂ (· + ·) hlength htakes).le
  · exact fun i nNow vChecks fOk hi => absurd hi (hworks i nNow vChecks fOk)
  · exact (congrArg₂ (fun queue held => (0 : Multiset T) + queue + held + 0) hcoe hholds).symm
  · exact fun i nNow vChecks hi => absurd hi (hworks i nNow vChecks false)
  · intro before entry after hnil
    exact absurd hnil.symm (List.append_ne_nil_of_right_ne_nil _ (List.cons_ne_nil _ _))
  · refine List.forall_mem_append.mpr ⟨h.mastered.exact, List.forall_mem_singleton.mpr ?_⟩
    exact h.exact hqueue htodo hcurrent
  · have horder := h.mastered.order
    rw [hcurrent] at horder
    exact (congrArg (· ++ s.sessions) ((List.append_nil _).trans List.map_append)).trans horder
  · intro hstarted
    exact absurd (congrArg Thread.started set_self) hstarted
  · intro notified hwaits
    cases set_self.symm.trans hwaits

theorem nNow_le {q : CCheckQueue T} (hne : q.queue ≠ []) : q.nNow ≤ q.queue.length := by
  have hpos := List.length_pos_of_ne_nil hne
  refine max_le hpos ((min_le_right _ _).trans ((Nat.div_le_self _ _).trans (Nat.mod_le _ _)))

/-- **Out of the critical section.** -/
theorem Good.leave (h : s.Good check sessions) (hinside : s.threads i = .inside) :
    (s.leave i).Good check sessions := by
  have hadded : i = none → ∃ session, s.current = some (session, []) := by
    rintro rfl
    exact h.mastered.added (by rw [hinside]; exact one_ne_zero)
  unfold System.leave
  split
  · next hfinished =>
    unfold CCheckQueue.finished at hfinished
    rw [h.mastered.fQuit_eq, Bool.or_false, Bool.and_eq_true, Bool.and_eq_true, Option.isNone_iff_eq_none,
      List.isEmpty_iff, beq_iff_eq] at hfinished
    obtain ⟨⟨hqueue, rfl⟩, htodo⟩ := hfinished
    obtain ⟨session, hcurrent⟩ := hadded rfl
    rw [hcurrent]
    exact h.returns hinside hqueue htodo hcurrent
  · next hfinished =>
    split
    · next hempty =>
      have hqueue := List.isEmpty_iff.mp hempty
      refine ⟨?_, ?_, ?_⟩
      · refine h.counted.set rfl rfl ?_ ?_ ?_ ?_ nofun ?_ <;> rw [hinside] <;> rfl
      · exact h.judged.set rfl rfl h.judged.fAllOk_false nofun id (by rw [hinside]; exact nofun)
      · refine h.mastered.set rfl rfl rfl rfl (fun _ => rfl) rfl (fun hi _ => hadded hi) ?_
          fun _ => h.mastered.asleep
        rintro rfl notified -
        refine ⟨hqueue, fun _ htodo => hfinished ?_⟩
        have hzero : s.q.nTodo = 0 := htodo
        unfold CCheckQueue.finished
        rw [hempty, hzero]
        rfl
    · next hne =>
      rw [List.isEmpty_iff] at hne
      have hle := nNow_le hne
      have hpos : 0 < s.q.nNow := Nat.one_pos.trans_le (le_max_left _ _)
      refine ⟨?_, ?_, ?_⟩
      · refine h.counted.set rfl rfl (by rw [hinside]; rfl) (by rw [hinside]; rfl) ?_ ?_ ?_ ?_
        · rw [hinside]
          dsimp only [System.set, Thread.takes]
          rw [List.length_drop]
          omega
        · rw [hinside]
          dsimp only [System.set, Thread.takes]
          rw [List.length_drop]
          omega
        · rintro nNow vChecks fOk hworks
          exact (Thread.works.inj hworks).1 ▸ hpos
        · rw [hinside]
          dsimp only [System.set, Thread.holds]
          rw [Multiset.coe_add, add_zero, Multiset.coe_eq_coe.mpr List.perm_append_comm,
            List.take_append_drop]
      · refine h.judged.set rfl rfl h.judged.fAllOk_false ?_ id (by rw [hinside]; exact nofun)
        intro nNow vChecks hworks
        exact h.judged.fAllOk_false (Thread.works.inj hworks).2.2
      · refine h.mastered.set rfl rfl rfl rfl (fun _ => rfl) rfl (fun hi _ => hadded hi) nofun ?_
        intro _ notified hwaits
        exact absurd (h.mastered.asleep notified hwaits).1 hne

theorem failed_append {log : List (Entry n T)} (h : Failed check log) (more : List (Entry n T)) :
    Failed check (log ++ more) := by
  obtain ⟨entry, hentry, hran⟩ := h
  exact ⟨entry, List.mem_append_left _ hentry, hran⟩

theorem skipsLate_append {log : List (Entry n T)} (h : SkipsLate check log) {entry : Entry n T}
    (hentry : entry.ran = false → Failed check log) : SkipsLate check (log ++ [entry]) := by
  intro before skipped after heq hskipped
  rcases List.eq_nil_or_concat after with rfl | ⟨after, last, rfl⟩
  · obtain ⟨rfl, hlast⟩ := List.append_inj' heq rfl
    cases hlast
    exact hentry hskipped
  · rw [List.concat_eq_append, ← List.cons_append, ← List.append_assoc] at heq
    exact h before skipped after (List.append_inj' heq rfl).1 hskipped

theorem Counted.nTodo_eq_zero (h : s.Counted) (hcurrent : s.current = none) : s.q.nTodo = 0 := by
  have hsmall := h.small
  have htodo := h.nTodo_eq
  have hchecks : s.checks = [] := by unfold checks; rw [hcurrent]; rfl
  rw [hchecks, List.length_nil] at hsmall
  omega

/-- **A check is run or skipped.** -/
theorem Good.run (h : s.Good check sessions) {nNow : Nat} {vCheck : T} {fOk : Bool}
    (hworks : s.threads i = .works nNow (vCheck :: vChecks) fOk) :
    (set i (.works nNow vChecks (fOk && check vCheck))
      { s with log := s.log ++ [⟨i, vCheck, fOk⟩] }).Good check sessions := by
  refine ⟨?_, ⟨fun hfalse => failed_append (h.judged.fAllOk_false hfalse) _, ?_, ?_, ?_⟩, ?_⟩
  · refine h.counted.set rfl rfl (by rw [hworks]; rfl) (by rw [hworks]; rfl) (by rw [hworks]; rfl)
      (by rw [hworks]; exact le_refl _) ?_ ?_
    · rintro nNow' vChecks' fOk' heq
      exact (Thread.works.inj heq).1 ▸ h.counted.takes_pos i nNow _ fOk hworks
    · rw [hworks]
      dsimp only [System.set, Thread.holds]
      rw [List.map_append, ← Multiset.coe_add, ← Multiset.cons_coe, ← Multiset.singleton_add,
        List.map_singleton, Multiset.coe_singleton]
      abel
  · intro j nNow' vChecks' hj
    unfold System.set at hj
    dsimp only at hj
    rw [Function.update_apply] at hj
    split at hj
    · cases fOk with
      | false => exact failed_append (h.judged.fOk_false i _ _ hworks) _
      | true =>
        refine ⟨_, List.mem_append_right _ (List.mem_singleton_self _), rfl, ?_⟩
        injection hj
    · exact failed_append (h.judged.fOk_false j _ _ hj) _
  · intro entry hentry hfalse
    have hnew : (fOk && check vCheck) = false → ∃ j nNow' vChecks',
        (set i (.works nNow vChecks (fOk && check vCheck))
          { s with log := s.log ++ [⟨i, vCheck, fOk⟩] }).threads j = .works nNow' vChecks' false :=
      fun hno => ⟨i, nNow, vChecks, hno ▸ set_self⟩
    rcases List.mem_append.mp hentry with hentry | hentry
    · rcases h.judged.caught entry hentry hfalse with hno | ⟨j, nNow', vChecks', hj⟩
      · exact .inl hno
      · by_cases hi : j = i
        · subst hi
          cases hworks.symm.trans hj
          exact .inr (hnew rfl)
        · exact .inr ⟨j, nNow', vChecks', (Function.update_of_ne hi _ _).trans hj⟩
    · obtain rfl := List.mem_singleton.mp hentry
      exact .inr (hnew hfalse)
  · refine skipsLate_append h.judged.skips fun hno => ?_
    dsimp only at hno
    subst hno
    exact h.judged.fOk_false i _ _ hworks
  · refine h.mastered.set rfl rfl rfl rfl (fun hnone => ?_) rfl (fun hi _ => ?_) nofun
      fun _ => h.mastered.asleep
    · exact absurd hworks (h.counted.not_works (h.counted.nTodo_eq_zero hnone) i _ _ _)
    · subst hi
      exact h.mastered.added (by rw [hworks]; exact one_ne_zero)

theorem Good.setControl (h : s.Good check sessions) (control : Control) :
    ({ s with control } : System n T).Good check sessions :=
  ⟨{ h.counted with }, { h.judged with }, { h.mastered with }⟩

/-- **A session begins.** -/
theorem Good.begin (h : s.Good check sessions) {rest : List (Session T)}
    (hcurrent : s.current = none) (hsessions : s.sessions = session :: rest) :
    ({ s with control := .before, current := some (session, session.batches), sessions := rest } :
      System n T).Good check sessions := by
  have htodo := h.counted.nTodo_eq_zero hcurrent
  have heq := h.counted.nTodo_eq
  have hmaster : (s.threads none).started = 0 := by
    by_contra hstarted
    obtain ⟨session, hsome⟩ := h.mastered.added hstarted
    cases hcurrent.symm.trans hsome
  have hlog := h.mastered.log_nil hcurrent
  have hqueue : s.q.queue = [] := List.length_eq_zero_iff.mp (by omega)
  refine ⟨⟨h.counted.nTotal_eq, h.counted.nIdle_eq, h.counted.nTodo_eq, ?_, h.counted.takes_pos, ?_⟩,
    ⟨h.judged.fAllOk_false, h.judged.fOk_false, h.judged.caught, h.judged.skips⟩,
    ⟨h.mastered.exact, ?_, nofun, h.mastered.fQuit_eq, fun hstarted => absurd hmaster hstarted, ?_⟩⟩
  · have hle : s.q.queue.length + total Thread.takes s.threads = 0 := heq.symm.trans htodo
    exact (congrArg (· + _) hle).le.trans (Nat.zero_add _).le
  · rw [hqueue, h.counted.holds_eq_zero htodo, hlog]
    simp only [Multiset.coe_nil, List.map_nil, add_zero]
    rfl
  · have horder := h.mastered.order
    rw [hcurrent, hsessions] at horder
    rw [← horder]
    simp
  · intro notified hwaits
    rw [hwaits] at hmaster
    cases hmaster

/-- **A batch is added.** -/
theorem Good.add (h : s.Good check sessions) {batches : List (List T)} (hmaster : s.threads none = .outside)
    (hcurrent : s.current = some (session, vChecks :: batches)) :
    ({ s with q := s.q.add vChecks, current := some (session, batches) } : System n T).Good check
      sessions := by
  have hchecks : s.checks = session.checks := by unfold checks; rw [hcurrent]; rfl
  have hpending : s.pending = vChecks ++ batches.flatten := by unfold pending; rw [hcurrent]; rfl
  have hsmall := h.counted.small
  rw [hchecks, hpending, List.length_append] at hsmall
  have hlt : session.checks.length < uintSize := session.small
  have htodo : (s.q.add vChecks).nTodo = s.q.nTodo + vChecks.length := by
    have heq := h.counted.nTodo_eq
    exact Nat.mod_eq_of_lt (by omega)
  have hqueue : (s.q.add vChecks).queue.length = s.q.queue.length + vChecks.length := by
    unfold CCheckQueue.add
    rw [List.length_append, List.length_reverse, Nat.add_comm]
  refine ⟨⟨h.counted.nTotal_eq, h.counted.nIdle_eq, ?_, ?_, h.counted.takes_pos, ?_⟩,
    ⟨h.judged.fAllOk_false, h.judged.fOk_false, h.judged.caught, h.judged.skips⟩,
    ⟨h.mastered.exact, ?_, nofun, h.mastered.fQuit_eq, fun hstarted => ?_, fun notified hwaits => ?_⟩⟩
  · have heq := h.counted.nTodo_eq
    dsimp only
    omega
  · have hle : (s.q.add vChecks).queue.length + total Thread.takes s.threads + batches.flatten.length ≤
        session.checks.length := by omega
    exact hle
  · have honce := h.counted.once
    rw [hchecks, hpending] at honce
    have hcoe : ((s.q.add vChecks).queue : Multiset T) = vChecks + s.q.queue := by
      unfold CCheckQueue.add
      rw [← Multiset.coe_add, Multiset.coe_reverse]
    have hsame : (session.checks : Multiset T) = batches.flatten + (s.q.add vChecks).queue +
        total Thread.holds s.threads + (s.log.map Entry.check : List T) := by
      rw [honce, hcoe, ← Multiset.coe_add]
      abel
    exact hsame
  · have horder := h.mastered.order
    rw [hcurrent] at horder
    exact horder
  · exact absurd (congrArg Thread.started hmaster) hstarted
  · cases hmaster.symm.trans hwaits

theorem Good.start (n nBatchSize : Nat) : (start n nBatchSize sessions).Good check sessions where
  counted := by
    refine ⟨?_, ?_, ?_, ?_, nofun, ?_⟩
    · exact (Finset.sum_eq_zero fun _ _ => rfl).symm
    · exact (Finset.sum_eq_zero fun _ _ => rfl).symm
    · exact (congrArg (0 + ·) (Finset.sum_eq_zero fun _ _ => rfl)).symm
    · exact (congrArg (0 + · + 0) (Finset.sum_eq_zero fun _ _ => rfl)).le
    · exact (congrArg (fun held => (0 : Multiset T) + 0 + held + 0)
        (Finset.sum_eq_zero fun _ _ => rfl)).symm
  judged := ⟨nofun, nofun, nofun, fun before entry after hnil =>
    absurd hnil.symm (List.append_ne_nil_of_right_ne_nil _ (List.cons_ne_nil _ _))⟩
  mastered := ⟨nofun, rfl, fun _ => rfl, rfl, fun hstarted => absurd rfl hstarted, nofun⟩

theorem Good.construct (h : s.Good check sessions) {rest : List (Session T)}
    (hcurrent : s.current = none) (hsessions : s.sessions = session :: rest) :
    (s.construct session rest).Good check sessions := by
  unfold System.construct
  split
  · exact h.setControl _
  · exact h.setControl _
  · exact h.setControl _
  · split
    · exact h.begin hcurrent hsessions
    · exact h.setControl _
  · exact h

/-- What a step is. -/
theorem step_cases {event : Event n} (hstep : s.step check event = some s') : s.control ≠ .failed ∧
    ((∃ session rest, event = .control ∧ s.current = none ∧ s.sessions = session :: rest ∧
        s' = s.construct session rest) ∨
      (∃ worker session vChecks batches, event = .add worker ∧ s.threads none = .outside ∧
        s.current = some (session, vChecks :: batches) ∧
        s' = ({ s with q := s.q.add vChecks, current := some (session, batches) } : System n T).notify
          (notified vChecks worker)) ∨
      ∃ i, event = .run i ∧
        ((∃ nNow vCheck vChecks fOk, s.threads i = .works nNow (vCheck :: vChecks) fOk ∧
            s' = set i (.works nNow vChecks (fOk && check vCheck))
              { s with log := s.log ++ [⟨i, vCheck, fOk⟩] }) ∨
          (s.threads i = .inside ∧ s' = s.leave i) ∨ s.enter i = some s')) := by
  unfold System.step at hstep
  split at hstep
  · cases hstep
  next hcontrol =>
  refine ⟨hcontrol, ?_⟩
  cases event with
  | control =>
    dsimp only at hstep
    split at hstep
    · next session rest hcurrent hsessions =>
      exact .inl ⟨session, rest, rfl, hcurrent, hsessions, (Option.some.inj hstep).symm⟩
    · cases hstep
  | add worker =>
    dsimp only at hstep
    split at hstep
    · next session vChecks batches hmaster hcurrent =>
      split at hstep
      · exact .inr (.inl ⟨worker, session, vChecks, batches, rfl, hmaster, hcurrent,
          (Option.some.inj hstep).symm⟩)
      · cases hstep
    · cases hstep
  | run i =>
    refine .inr (.inr ⟨i, rfl, ?_⟩)
    dsimp only at hstep
    split at hstep
    · next nNow vCheck vChecks fOk hworks =>
      exact .inl ⟨nNow, vCheck, vChecks, fOk, hworks, (Option.some.inj hstep).symm⟩
    · next hinside => exact .inr (.inl ⟨hinside, (Option.some.inj hstep).symm⟩)
    · split at hstep
      · exact .inr (.inr hstep)
      · cases hstep

/-- **Every step keeps the invariant.** -/
theorem Good.step (h : s.Good check sessions) {event : Event n} (hstep : s.step check event = some s') :
    s'.Good check sessions := by
  obtain ⟨-, hcases⟩ := step_cases hstep
  rcases hcases with ⟨session, rest, -, hcurrent, hsessions, rfl⟩ |
    ⟨worker, session, vChecks, batches, -, hmaster, hcurrent, rfl⟩ | ⟨i, -, hrun⟩
  · exact h.construct hcurrent hsessions
  · exact (h.add hmaster hcurrent).notify _
  · rcases hrun with ⟨nNow, vCheck, vChecks, fOk, hworks, rfl⟩ | ⟨hinside, rfl⟩ | henter
    · exact h.run hworks
    · exact h.leave hinside
    · exact (h.enter henter).1

theorem Good.of_run {allowed : System n T → Event n → Bool} {nBatchSize : Nat} {s : System n T}
    (hrun : Run allowed check nBatchSize sessions s) : s.Good check sessions := by
  induction hrun with
  | start => exact Good.start n nBatchSize
  | step hrun hallowed hstep ih => exact ih.step hstep

end Steps

/-! ### The constructor of `CCheckQueueControl` -/

section Construct

variable {check : T → Bool} {sessions : List (Session T)} {s s' : System n T} {i : Option (Fin n)}

/-- **What its reads have seen** is still so. -/
structure Constructing (s : System n T) : Prop where
  total : ∀ nTotal, s.control = .total nTotal → s.current = none ∧ nTotal = s.q.nTotal
  current : s.control ≠ .before → s.current = none
  asserts : s.control ≠ .failed

theorem Good.nTotal_eq (h : s.Good check sessions) (hlock : s.Unlocked) (hcurrent : s.current = none) :
    s.q.nTotal = s.q.nIdle := by
  rw [h.counted.nTotal_eq, h.counted.nIdle_eq]
  refine Finset.sum_congr rfl fun i _ => ?_
  have hi' := hlock i
  cases hi : s.threads i with
  | inside =>
    rw [hi] at hi'
    cases hi'
  | works nNow vChecks fOk =>
    exact absurd hi (h.counted.not_works (h.counted.nTodo_eq_zero hcurrent) i nNow vChecks fOk)
  | outside | waits | returned => rfl

theorem Good.fAllOk (h : s.Good check sessions) (hcurrent : s.current = none) : s.q.fAllOk = true := by
  by_contra hfalse
  obtain ⟨entry, hentry, -⟩ := h.judged.fAllOk_false (Bool.not_eq_true _ ▸ hfalse)
  rw [h.mastered.log_nil hcurrent] at hentry
  cases hentry

theorem Constructing.keep (h : s.Constructing) (hcontrol : s'.control = s.control)
    (hcurrent : s.control ≠ .before → s'.current = s.current)
    (htotal : ∀ nTotal, s.control = .total nTotal → s'.q.nTotal = s.q.nTotal) : s'.Constructing where
  total nTotal heq := by
    rw [hcontrol] at heq
    obtain ⟨hnone, hread⟩ := h.total nTotal heq
    have hne : s.control ≠ .before := by
      rw [heq]
      exact nofun
    exact ⟨(hcurrent hne).trans hnone, hread.trans (htotal nTotal heq).symm⟩
  current hne := by
    rw [hcontrol] at hne
    exact (hcurrent hne).trans (h.current hne)
  asserts := hcontrol ▸ h.asserts

theorem enter_spec (henter : s.enter i = some s') : s'.control = s.control ∧ s'.current = s.current ∧
    ((s.threads i).started = 1 → s'.q.nTotal = s.q.nTotal) := by
  unfold enter at henter
  split at henter
  · next houtside =>
    rw [houtside]
    split at henter
    · cases henter
      exact ⟨rfl, rfl, nofun⟩
    · cases henter
      exact ⟨rfl, rfl, nofun⟩
    · cases henter
  · cases henter
    exact ⟨rfl, rfl, fun _ => rfl⟩
  · cases henter
    exact ⟨rfl, rfl, fun _ => rfl⟩
  · cases henter

theorem leave_control : (s.leave i).control = s.control := by
  unfold leave
  split
  · split <;> rfl
  · split <;> rfl

/-- A worker does not leave `Loop` for good, and the master is in it only in a session. -/
theorem Good.leave_eq (h : s.Good check sessions) (hinside : s.threads i = .inside)
    (hcurrent : s.current = none) :
    (s.leave i).current = s.current ∧ (s.leave i).q.nTotal = s.q.nTotal := by
  unfold System.leave
  split
  · next hfinished =>
    cases i with
    | none =>
      obtain ⟨session, hsome⟩ := h.mastered.added (by rw [hinside]; exact one_ne_zero)
      cases hcurrent.symm.trans hsome
    | some j =>
      rw [CCheckQueue.finished, h.mastered.fQuit_eq] at hfinished
      simp at hfinished
  · split
    · exact ⟨rfl, rfl⟩
    · exact ⟨rfl, rfl⟩

theorem unlocked_of_apart (h : s.apart .control = true) {nTotal : Nat} (htotal : s.control = .total nTotal) :
    s.Unlocked := by
  unfold apart at h
  rw [htotal] at h
  exact of_decide_eq_true h

theorem started_of_apart (h : s.apart (.run i) = true) {nTotal : Nat} (htotal : s.control = .total nTotal) :
    (s.threads i).started = 1 := by
  unfold apart at h
  rw [htotal] at h
  exact beq_iff_eq.mp h

/-- **A step that is apart** lets the assertions hold. -/
theorem Constructing.step (h : s.Constructing) (hgood : s.Good check sessions) {event : Event n}
    (hapart : s.apart event = true) (hstep : s.step check event = some s') : s'.Constructing := by
  obtain ⟨-, hcases⟩ := step_cases hstep
  rcases hcases with ⟨session, rest, rfl, hcurrent, -, rfl⟩ |
    ⟨worker, session, vChecks, batches, rfl, -, hcurrent, rfl⟩ | ⟨i, rfl, hrun⟩
  · unfold construct
    split
    · exact ⟨fun nTotal heq => ⟨hcurrent, (Control.total.inj heq).symm⟩, fun _ => hcurrent, nofun⟩
    · next nTotal htotal =>
      have hidle : nTotal = s.q.nIdle :=
        (h.total nTotal htotal).2.trans (hgood.nTotal_eq (unlocked_of_apart hapart htotal) hcurrent)
      rw [if_pos hidle]
      exact ⟨nofun, fun _ => hcurrent, nofun⟩
    · rw [if_pos (hgood.counted.nTodo_eq_zero hcurrent)]
      exact ⟨nofun, fun _ => hcurrent, nofun⟩
    · rw [if_pos (hgood.fAllOk hcurrent)]
      exact ⟨nofun, fun hne => absurd rfl hne, nofun⟩
    · exact h
  · have hbefore : s.control = .before := by
      by_contra hne
      cases hcurrent.symm.trans (h.current hne)
    refine h.keep rfl (fun hne => absurd hbefore hne) fun nTotal htotal => ?_
    cases hbefore.symm.trans htotal
  · rcases hrun with ⟨nNow, vCheck, vChecks, fOk, -, rfl⟩ | ⟨hinside, rfl⟩ | henter
    · exact h.keep rfl (fun _ => rfl) fun _ _ => rfl
    · refine h.keep leave_control (fun hne => ?_) fun nTotal htotal => ?_
      · exact (hgood.leave_eq hinside (h.current hne)).1
      · exact (hgood.leave_eq hinside (h.total nTotal htotal).1).2
    · obtain ⟨hcontrol, hcurrent, htotal⟩ := enter_spec henter
      exact h.keep hcontrol (fun _ => hcurrent) fun nTotal heq => htotal (started_of_apart hapart heq)

theorem Constructing.of_run {nBatchSize : Nat} (hrun : Run apart check nBatchSize sessions s) :
    s.Constructing := by
  induction hrun with
  | start => exact ⟨nofun, fun hne => absurd rfl hne, nofun⟩
  | step hrun hapart hstep ih => exact ih.step (.of_run hrun) hapart hstep

end Construct

section Between

variable {check : T → Bool} {sessions : List (Session T)} {s s' : System n T} {i : Option (Fin n)}

theorem Good.awake (h : s.Good check sessions) (hasleep : s.threads none = .waits false) :
    s.q.nTodo ≠ 0 ∧ ∃ j nNow vChecks fOk, s.threads (some j) = .works nNow vChecks fOk := by
  obtain ⟨hqueue, htodo⟩ := h.mastered.asleep false hasleep
  refine ⟨htodo rfl, ?_⟩
  have htakes : total Thread.takes s.threads ≠ 0 := by
    have heq := h.counted.nTodo_eq
    rw [hqueue, List.length_nil, Nat.zero_add] at heq
    exact heq ▸ htodo rfl
  obtain ⟨i, -, hi⟩ := Finset.exists_ne_zero_of_sum_ne_zero htakes
  cases hthread : s.threads i with
  | works nNow vChecks fOk =>
    cases i with
    | none => cases hasleep.symm.trans hthread
    | some j => exact ⟨j, nNow, vChecks, fOk, hthread⟩
  | outside | inside | waits | returned =>
    rw [hthread] at hi
    exact absurd rfl hi

end Between

end System

/-- **The queue keeps its promises** in every state, for any number of workers, any sessions of the
master and any order of the steps in which no worker is in the way of a constructor. -/
theorem checkQueue_of_run (check : T → Bool) (n nBatchSize : Nat) (sessions : List (Session T))
    (s : System n T) (hrun : System.Run System.apart check nBatchSize sessions s) : s.Sound check sessions :=
  have hgood := System.Good.of_run hrun
  { exact := hgood.mastered.exact
    order := hgood.mastered.order
    once := hgood.counted.once
    skips := hgood.judged.skips
    cleanUp_le := fun _ _ _ _ hworks => hgood.counted.takes_le hworks
    awake := hgood.awake
    asserts := (System.Constructing.of_run hrun).asserts }

namespace Sample

/-- A check that holds, and one that does not. -/
def session : Session Bool := ⟨[[true, false]], by decide⟩

/-- The worker starts and waits, and takes the check that does not hold; the master takes the other. -/
def events : List (Event 1) :=
  [.run (some 0), .control, .run (some 0), .control, .control, .control, .add (some 0), .run (some 0),
    .run (some 0), .run none, .run none, .run (some 0), .run none, .run none, .run none, .run (some 0),
    .run (some 0), .run none, .run none]

def runEvents (events : List (Event 1)) (s : System 1 Bool) : Option (System 1 Bool) :=
  events.foldlM (fun s event => if s.apart event then s.step id event else none) s

theorem run_runEvents {s s' : System 1 Bool} {events : List (Event 1)}
    (hrun : System.Run System.apart id 128 [session] s) (h : runEvents events s = some s') :
    System.Run System.apart id 128 [session] s' := by
  induction events generalizing s with
  | nil =>
    cases h
    exact hrun
  | cons event events ih =>
    obtain ⟨s'', hstep, hrest⟩ := Option.bind_eq_some_iff.mp h
    dsimp only at hstep
    split at hstep
    · next hapart => exact ih (hrun.step hapart hstep) hrest
    · cases hstep

end Sample

open Sample in
/-- The master waits for the worker, and `Wait` returns `false`. -/
theorem checkQueue_of_run_sample : ∃ s : System 1 Bool, System.Run System.apart id 128 [session] s ∧
    s.history.map Record.fRet = [false] ∧ s.Sound id [session] := by
  have hends : (runEvents events (System.start 1 128 [session])).map
      (fun s => s.history.map Record.fRet) = some [false] := by decide
  obtain ⟨s, hs, hret⟩ := Option.map_eq_some_iff.mp hends
  have hrun := run_runEvents .start hs
  exact ⟨s, hrun, hret, checkQueue_of_run id 1 128 [session] s hrun⟩

open Sample in
/-- **An assertion fails**: the worker has counted itself in `nTotal`, and not yet in `nIdle`. -/
theorem control_fails : ∃ s : System 1 Bool, System.Run (fun _ _ => true) id 128 [session] s ∧
    ¬ s.Sound id [session] := by
  have hrun : System.Run (fun _ _ => true) id 128 [session] (System.start 1 128 [session]) := .start
  have hrun := @System.Run.step _ _ _ _ _ _ _ _ (.run (some 0)) hrun rfl rfl
  have hrun := @System.Run.step _ _ _ _ _ _ _ _ .control hrun rfl rfl
  have hrun := @System.Run.step _ _ _ _ _ _ _ _ .control hrun rfl rfl
  exact ⟨_, hrun, fun h => h.asserts rfl⟩

end CheckQueue

end Manna
