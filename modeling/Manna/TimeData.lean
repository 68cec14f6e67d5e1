import Manna.AddrMan
import Manna.Lib.OrderStatistic

/-!
The time of the peers (`util.cpp`: `AddTimeData`; `util.h`: `CMedianFilter`, `abs64`).

The clock is moved by the median of the samples in a window, if that is less than five minutes. The test
takes an absolute value, and the smallest `int64_t` is its own.

* `addTimeData_of_updates`: what an update makes of the offset;
* `clockHeld_iff`: the offset stays in its bounds as long as no update meets a window that is more than
  half full of the smallest sample.
-/

namespace Manna

open OrderStatistic

/-- `int64_t` in two's complement. -/
def wrapInt64 (n : Int) : Int := n.bmod (2 ^ 64)

/-- The smallest `int64_t`. -/
def minInt64 : Int := -2 ^ 63

def abs64 (n : Int) : Int := if n ≥ 0 then n else wrapInt64 (-n)

/-! ### CMedianFilter -/

/-- `CMedianFilter<int64_t>`. -/
structure CMedianFilter where
  vValues : List Int
  vSorted : List Int
  nSize : Nat

namespace CMedianFilter

def new (size : Nat) (initial_value : Int) : CMedianFilter := ⟨[initial_value], [initial_value], size⟩

def input (filter : CMedianFilter) (value : Int) : CMedianFilter :=
  let vValues := if filter.vValues.length = filter.nSize then filter.vValues.tail else filter.vValues
  let vValues := vValues ++ [value]
  { filter with vValues, vSorted := vValues.insertionSort (· ≤ ·) }

/-- `median`, of a filter that is not empty. -/
def median (filter : CMedianFilter) : Int :=
  let size := filter.vSorted.length
  if size % 2 = 1 then filter.vSorted.getD (size / 2) 0
  else (wrapInt64 (filter.vSorted.getD (size / 2 - 1) 0 + filter.vSorted.getD (size / 2) 0)).tdiv 2

def size (filter : CMedianFilter) : Nat := filter.vValues.length

end CMedianFilter

/-! ### AddTimeData -/

/-- What `AddTimeData` keeps. -/
structure TimeData where
  vTimeOffsets : CMedianFilter
  nTimeOffset : Int
  setKnown : Finset CNetAddr
  fDone : Bool
  strMiscWarning : String

/-- A call of `AddTimeData`, and what `GetTime` returns in it. -/
structure TimeCall where
  ip : CNetAddr
  nTime : Int
  now : Int

/-- `nOffsetSample`. -/
def TimeCall.nOffsetSample (call : TimeCall) : Int := wrapInt64 (call.nTime - call.now)

namespace TimeData

def initial : TimeData := ⟨.new 200 0, 0, ∅, false, ""⟩

def strMessage : String :=
  "Warning: Please check that your computer's date and time are correct! If your clock is wrong Manna " ++
    "will not work properly."

/-- The warning, "if nobody has a time different than ours but within 2 minutes of ours". -/
def warn (vSorted : List Int) (data : TimeData) : TimeData :=
  if data.fDone then data
  else if vSorted.any fun nOffset => decide (nOffset ≠ 0 ∧ abs64 nOffset < 2 * 60) then data
  else { data with fDone := true, strMiscWarning := strMessage }

/-- "Only let other nodes change our time by so much". -/
def setOffset (data : TimeData) : TimeData :=
  let nMedian := data.vTimeOffsets.median
  if abs64 nMedian < 5 * 60 then { data with nTimeOffset := nMedian }
  else warn data.vTimeOffsets.vSorted { data with nTimeOffset := 0 }

def addTimeData (data : TimeData) (call : TimeCall) : TimeData :=
  if call.ip ∈ data.setKnown then data
  else
    let data := { data with
      setKnown := insert call.ip data.setKnown
      vTimeOffsets := data.vTimeOffsets.input call.nOffsetSample }
    if data.vTimeOffsets.size ≥ 5 ∧ data.vTimeOffsets.size % 2 = 1 then data.setOffset else data

/-- The state after calls. -/
def run (calls : List TimeCall) : TimeData := calls.foldl addTimeData initial

def window (data : TimeData) (call : TimeCall) : List Int :=
  (data.vTimeOffsets.input call.nOffsetSample).vValues

def Updates (data : TimeData) (call : TimeCall) : Prop :=
  call.ip ∉ data.setKnown ∧ (data.window call).length ≥ 5 ∧ (data.window call).length % 2 = 1

instance (data : TimeData) (call : TimeCall) : Decidable (data.Updates call) :=
  inferInstanceAs (Decidable (_ ∧ _))

def lastWindow (calls : List TimeCall) : Option (List Int) :=
  (calls.foldl (fun state call =>
    (addTimeData state.1 call, if state.1.Updates call then some (state.1.window call) else state.2))
      (initial, none)).2

/-- **The clock is held**: the offset is less than five minutes, and it is zero or the median of the window
of the last update. -/
structure ClockHeld (calls : List TimeCall) : Prop where
  bounded : -300 < (run calls).nTimeOffset ∧ (run calls).nTimeOffset < 300
  median : (run calls).nTimeOffset = 0 ∨
    ∃ values ∈ lastWindow calls, upperMedian values = some (run calls).nTimeOffset

/-- An update does not meet a window that is more than half full of the smallest sample. -/
def Steady (data : TimeData) (call : TimeCall) : Prop :=
  data.Updates call → (data.window call).count minInt64 ≤ (data.window call).length / 2

/-! ### Samples -/

theorem wrapInt64_mem (n : Int) : minInt64 ≤ wrapInt64 n ∧ wrapInt64 n < 2 ^ 63 := by
  have hlow := Int.le_bmod (x := n) (m := 2 ^ 64) (by decide)
  have hhigh := Int.bmod_lt (x := n) (m := 2 ^ 64) (by decide)
  unfold wrapInt64 minInt64
  omega

/-- **The bound test** lets the smallest `int64_t` pass. -/
theorem abs64_lt_iff {n : Int} (hlow : minInt64 ≤ n) : abs64 n < 300 ↔ -300 < n ∧ n < 300 ∨ n = minInt64 := by
  unfold minInt64 at hlow ⊢
  unfold abs64 wrapInt64
  split
  · omega
  · by_cases hmin : n = -2 ^ 63
    · subst hmin
      decide
    · have hwrap : (-n).bmod (2 ^ 64) = -n := Int.bmod_eq_of_le (by omega) (by omega)
      rw [hwrap]
      omega

/-- What holds of the filter after every call. -/
structure Sorted (data : TimeData) : Prop where
  sorted : data.vTimeOffsets.vSorted = data.vTimeOffsets.vValues.insertionSort (· ≤ ·)
  samples : ∀ n ∈ data.vTimeOffsets.vValues, minInt64 ≤ n

theorem Sorted.initial : Sorted initial := by
  refine ⟨rfl, fun n hn => ?_⟩
  obtain rfl := List.mem_singleton.mp hn
  decide

variable {data : TimeData} {call : TimeCall}

theorem samples_window (h : Sorted data) : ∀ n ∈ data.window call, minInt64 ≤ n := by
  intro n hn
  rcases List.mem_append.mp hn with hold | hnew
  · split at hold
    · exact h.samples n (List.mem_of_mem_tail hold)
    · exact h.samples n hold
  · obtain rfl := List.mem_singleton.mp hnew
    exact (wrapInt64_mem _).1

@[simp] theorem warn_vTimeOffsets (vSorted : List Int) (data : TimeData) :
    (warn vSorted data).vTimeOffsets = data.vTimeOffsets := by
  unfold warn
  split
  · rfl
  · split <;> rfl

@[simp] theorem warn_nTimeOffset (vSorted : List Int) (data : TimeData) :
    (warn vSorted data).nTimeOffset = data.nTimeOffset := by
  unfold warn
  split
  · rfl
  · split <;> rfl

@[simp] theorem setOffset_vTimeOffsets (data : TimeData) :
    data.setOffset.vTimeOffsets = data.vTimeOffsets := by
  unfold setOffset
  dsimp only
  split
  · rfl
  · simp

theorem addTimeData_vTimeOffsets (data : TimeData) (call : TimeCall) :
    (data.addTimeData call).vTimeOffsets = if call.ip ∈ data.setKnown then data.vTimeOffsets
      else data.vTimeOffsets.input call.nOffsetSample := by
  unfold addTimeData
  split
  · rfl
  · dsimp only
    split <;> simp

theorem Sorted.addTimeData (h : Sorted data) (call : TimeCall) : Sorted (data.addTimeData call) := by
  by_cases hknown : call.ip ∈ data.setKnown
  · have hsame : (data.addTimeData call).vTimeOffsets = data.vTimeOffsets := by
      rw [addTimeData_vTimeOffsets, if_pos hknown]
    exact ⟨hsame ▸ h.sorted, hsame ▸ h.samples⟩
  · have hinput : (data.addTimeData call).vTimeOffsets = data.vTimeOffsets.input call.nOffsetSample := by
      rw [addTimeData_vTimeOffsets, if_neg hknown]
    exact ⟨hinput ▸ rfl, hinput ▸ samples_window h⟩

theorem Sorted.run (calls : List TimeCall) : Sorted (run calls) := by
  unfold TimeData.run
  generalize hstart : TimeData.initial = start
  have hsorted : Sorted start := hstart ▸ Sorted.initial
  clear hstart
  induction calls generalizing start with
  | nil => exact hsorted
  | cons call calls ih => exact ih _ (hsorted.addTimeData call)

/-- Without an update the offset stays. -/
theorem nTimeOffset_of_not_updates (h : ¬ data.Updates call) :
    (data.addTimeData call).nTimeOffset = data.nTimeOffset := by
  unfold addTimeData
  split
  · rfl
  · next hnew =>
    dsimp only
    rw [if_neg]
    exact fun hsize => h ⟨hnew, hsize⟩

/-- **One update**: the offset is the median of the window, if that passes the test, or zero. -/
theorem addTimeData_of_updates (hupdates : data.Updates call) :
    ∃ nMedian, upperMedian (data.window call) = some nMedian ∧
      (data.addTimeData call).nTimeOffset = if abs64 nMedian < 300 then nMedian else 0 := by
  obtain ⟨hnew, hsize, hodd⟩ := hupdates
  have hne : data.window call ≠ [] := List.ne_nil_of_length_pos (by omega)
  obtain ⟨nMedian, hmedian⟩ := exists_upperMedian hne
  refine ⟨nMedian, hmedian, ?_⟩
  have hfilter : (data.vTimeOffsets.input call.nOffsetSample).median = nMedian := by
    have hlength : (data.vTimeOffsets.input call.nOffsetSample).vSorted.length = (data.window call).length :=
      List.length_insertionSort ..
    unfold CMedianFilter.median
    rw [hlength, if_pos hodd, List.getD_eq_getElem?_getD]
    exact congrArg (·.getD 0) hmedian
  unfold addTimeData
  rw [if_neg hnew]
  dsimp only
  rw [if_pos ⟨hsize, hodd⟩]
  unfold setOffset
  dsimp only
  rw [hfilter]
  by_cases htest : abs64 nMedian < 300
  · rw [if_pos (show abs64 nMedian < 5 * 60 from htest), if_pos htest]
  · rw [if_neg (show ¬ abs64 nMedian < 5 * 60 from htest), if_neg htest, warn_nTimeOffset]

/-- The median is the smallest sample where that fills more than half of the window. -/
theorem median_eq_minInt64_iff (hsorted : Sorted data) {nMedian : Int}
    (hmedian : upperMedian (data.window call) = some nMedian) :
    nMedian = minInt64 ↔ (data.window call).length / 2 < (data.window call).count minInt64 := by
  have hsamples : ∀ n ∈ data.window call, minInt64 ≤ n := samples_window hsorted
  have hmem : nMedian ∈ data.window call := by
    have hsort := List.mem_of_getElem? hmedian
    exact (List.perm_insertionSort _ _).mem_iff.mp hsort
  have hcount : (data.window call).countP (· ≤ minInt64) = (data.window call).count minInt64 := by
    rw [List.count_eq_countP]
    refine List.countP_congr fun n hn => ?_
    have := hsamples n hn
    simp only [decide_eq_true_eq, beq_iff_eq]
    omega
  have hiff := upperMedian_iff (p := (· ≤ minInt64)) (fun hab hb => hab.trans hb) hmedian
  rw [hcount] at hiff
  rw [← hiff]
  have := hsamples nMedian hmem
  omega

/-! ### Runs -/

theorem run_append (calls : List TimeCall) (call : TimeCall) :
    run (calls ++ [call]) = (run calls).addTimeData call := by
  simp [run, List.foldl_append]

theorem lastWindow_append (calls : List TimeCall) (call : TimeCall) : lastWindow (calls ++ [call]) =
      if (run calls).Updates call then some ((run calls).window call) else lastWindow calls := by
  have hfirst : ∀ (calls : List TimeCall) (state : TimeData × Option (List Int)),
      (calls.foldl (fun state call => (addTimeData state.1 call,
        if state.1.Updates call then some (state.1.window call) else state.2)) state).1 =
      calls.foldl addTimeData state.1 := by
    intro calls
    induction calls with
    | nil => exact fun _ => rfl
    | cons call calls ih => exact fun state => ih _
  unfold lastWindow
  rw [List.foldl_append, List.foldl_cons, List.foldl_nil, hfirst]
  rfl

/-- **One call** holds the clock if and only if it is steady. -/
theorem ClockHeld.append_iff {calls : List TimeCall} (h : ClockHeld calls) (call : TimeCall) :
    ClockHeld (calls ++ [call]) ↔ (run calls).Steady call := by
  have hsorted := Sorted.run calls
  by_cases hupdates : (run calls).Updates call
  · obtain ⟨nMedian, hmedian, hoffset⟩ := addTimeData_of_updates hupdates
    rw [← run_append] at hoffset
    have hlow : minInt64 ≤ nMedian :=
      samples_window hsorted _ ((List.perm_insertionSort _ _).mem_iff.mp (List.mem_of_getElem? hmedian))
    have hmin := median_eq_minInt64_iff hsorted hmedian
    have htest := abs64_lt_iff hlow
    constructor
    · intro hheld _
      by_contra hcount
      have heq : nMedian = minInt64 := hmin.mpr (by omega)
      rw [if_pos (htest.mpr (.inr heq)), heq] at hoffset
      have hbound := hheld.bounded.1
      rw [hoffset] at hbound
      exact absurd hbound (by decide)
    · intro hsteady
      have hne : nMedian ≠ minInt64 := by
        intro heq
        have := hsteady hupdates
        have := hmin.mp heq
        omega
      split at hoffset
      · next hpass =>
        have hrange := (htest.mp hpass).resolve_right hne
        refine ⟨hoffset ▸ hrange, .inr ⟨_, ?_, hoffset ▸ hmedian⟩⟩
        rw [lastWindow_append, if_pos hupdates]
        rfl
      · exact ⟨hoffset ▸ ⟨by decide, by decide⟩, .inl hoffset⟩
  · have hoffset := nTimeOffset_of_not_updates hupdates
    rw [← run_append] at hoffset
    refine iff_of_true ⟨hoffset ▸ h.bounded, ?_⟩ fun hup => absurd hup hupdates
    rw [lastWindow_append, if_neg hupdates, hoffset]
    exact h.median

theorem ClockHeld.nil : ClockHeld [] := ⟨⟨by decide, by decide⟩, .inl rfl⟩

/-- **Peer time and the clock.** The clock is held throughout a run if and only if every call of it is
steady. -/
theorem clockHeld_iff (calls : List TimeCall) :
    (∀ before, before <+: calls → ClockHeld before) ↔
      ∀ before call, before ++ [call] <+: calls → (run before).Steady call := by
  constructor
  · intro hheld before call hprefix
    exact ((hheld before ((List.prefix_append _ _).trans hprefix)).append_iff call).mp (hheld _ hprefix)
  · intro hsteady before
    induction before using List.reverseRecOn with
    | nil => exact fun _ => ClockHeld.nil
    | append_singleton before call ih =>
      intro hprefix
      exact ((ih ((List.prefix_append _ _).trans hprefix)).append_iff call).mpr (hsteady before call hprefix)

/-- Peers whose samples are the smallest `int64_t`. -/
def minSamples : List TimeCall := (List.range 4).map fun i => ⟨⟨i⟩, minInt64 + 1700000000, 1700000000⟩

theorem not_forall_clockHeld : ¬ ∀ calls, ClockHeld calls := by
  intro h
  have hbound := (h minSamples).bounded.1
  exact absurd hbound (by decide)

end TimeData

end Manna
