import Manna.Lib.Runs
import Mathlib.Data.List.Count
import Mathlib.Data.List.Nodup
import Mathlib.Data.Nat.Bitwise
import Mathlib.Logic.Function.Basic

/-!
Stacked page locks (`allocators.h`: `LockedPageManagerBase`).

A page is locked while a live range touches it; the histogram counts these ranges for each page, in `int`s.

* `Touches`, `touching`: the ranges that keep a page locked;
* `Counting.foldlM`: what a loop over pages does to the counts;
* `mem_visited`: the pages of both loops are those that the range touches;
* `stacks_run`: pages are locked and unlocked as their counts leave and reach zero.
-/

namespace Manna

namespace LockedPages

variable {w : Nat}

/-! ### The manager -/

/-- A failed assertion, an `int` out of its range, or a loop that does not end. -/
inductive Fault where
  | assertion
  | overflow
  | outOfFuel
deriving DecidableEq

/-- `locker.Lock(page, page_size)` and `locker.Unlock(page, page_size)`. -/
inductive LockerCall (w : Nat) where
  | lock (page : BitVec w)
  | unlock (page : BitVec w)
deriving DecidableEq

/-- `LockedPageManagerBase`, where `locker` are the calls made to it. A `size_t` has `w` bits. -/
structure Manager (w : Nat) where
  page_size : BitVec w
  page_mask : BitVec w
  histogram : BitVec w → Option Int
  locker : List (LockerCall w)

/-- A value assigned to an `int`. -/
def toInt (n : Int) : Except Fault Int :=
  if -2 ^ 31 ≤ n ∧ n < 2 ^ 31 then .ok n else .error .overflow

/-- The constructor. -/
def new (page_size : BitVec w) : Except Fault (Manager w) :=
  if page_size &&& (page_size - 1) = 0 then
    .ok ⟨page_size, ~~~(page_size - 1), fun _ => none, []⟩
  else .error .assertion

def forPages {σ : Type} (page_size end_page : BitVec w) (body : σ → BitVec w → Except Fault σ) :
    Nat → BitVec w → σ → Except Fault σ
  | 0, _, _ => .error .outOfFuel
  | fuel + 1, page, s =>
    if page ≤ end_page then do
      forPages page_size end_page body fuel (page + page_size) (← body s page)
    else .ok s

/-- The body of the loop of `LockRange`. -/
def lockPage (m : Manager w) (page : BitVec w) : Except Fault (Manager w) :=
  match m.histogram page with
  | none =>
    .ok { m with locker := m.locker ++ [.lock page], histogram := Function.update m.histogram page (some 1) }
  | some n => do
    let n ← toInt (n + 1)
    return { m with histogram := Function.update m.histogram page (some n) }

/-- The body of the loop of `UnlockRange`. -/
def unlockPage (m : Manager w) (page : BitVec w) : Except Fault (Manager w) :=
  match m.histogram page with
  | none => .error .assertion
  | some n => do
    let n ← toInt (n - 1)
    if n = 0 then
      return { m with locker := m.locker ++ [.unlock page], histogram := Function.update m.histogram page none }
    else
      return { m with histogram := Function.update m.histogram page (some n) }

/-- The pages of a range, one after another, with fuel for every value of `page`. -/
def overRange (body : Manager w → BitVec w → Except Fault (Manager w)) (m : Manager w) (p size : BitVec w) :
    Except Fault (Manager w) :=
  if size = 0 then .ok m
  else
    let base_addr := p
    let start_page := base_addr &&& m.page_mask
    let end_page := (base_addr + size - 1) &&& m.page_mask
    forPages m.page_size end_page body (2 ^ w + 1) start_page m

def lockRange (m : Manager w) (p size : BitVec w) : Except Fault (Manager w) := overRange lockPage m p size

def unlockRange (m : Manager w) (p size : BitVec w) : Except Fault (Manager w) := overRange unlockPage m p size

/-! ### Live ranges -/

/-- The arguments of a call. -/
structure Range (w : Nat) where
  base : BitVec w
  size : BitVec w
deriving DecidableEq

/-- One of the two calls. -/
inductive Call (w : Nat) where
  | lock (r : Range w)
  | unlock (r : Range w)

/-- The live ranges after a call. -/
def Call.live (live : List (Range w)) : Call w → List (Range w)
  | .lock r => r :: live
  | .unlock r => live.erase r

def Call.apply (m : Manager w) : Call w → Except Fault (Manager w)
  | .lock r => lockRange m r.base r.size
  | .unlock r => unlockRange m r.base r.size

/-- A call, with the ranges that are live. -/
def step (s : Manager w × List (Range w)) (call : Call w) : Except Fault (Manager w × List (Range w)) := do
  return (← call.apply s.1, call.live s.2)

/-- A byte of the range lies in this page of `2 ^ k` bytes. -/
def Touches (k : Nat) (page : BitVec w) (r : Range w) : Prop :=
  2 ^ k ∣ page.toNat ∧ ∃ a, r.base.toNat ≤ a ∧ a < r.base.toNat + r.size.toNat ∧
    page.toNat ≤ a ∧ a < page.toNat + 2 ^ k

theorem touches_iff {k : Nat} {page : BitVec w} {r : Range w} :
    Touches k page r ↔ 2 ^ k ∣ page.toNat ∧ 0 < r.size.toNat ∧
      page.toNat < r.base.toNat + r.size.toNat ∧ r.base.toNat < page.toNat + 2 ^ k := by
  have pos : 0 < 2 ^ k := Nat.two_pow_pos k
  refine and_congr_right fun _ => ?_
  constructor
  · rintro ⟨a, hbase, hend, hpage, hpageEnd⟩
    omega
  · rintro ⟨hsize, hend, hbase⟩
    exact ⟨max r.base.toNat page.toNat, by omega, by omega, by omega, by omega⟩

instance (k : Nat) (page : BitVec w) (r : Range w) : Decidable (Touches k page r) :=
  decidable_of_iff _ touches_iff.symm

def touching (k : Nat) (live : List (Range w)) (page : BitVec w) : Nat :=
  live.countP fun r => Touches k page r

def lastPage (w k : Nat) : BitVec w := BitVec.ofNat w (2 ^ w - 2 ^ k)

/-- The end of the range does not wrap, and the range does not reach into the last page. -/
structure Fits (k : Nat) (r : Range w) : Prop where
  end_lt : r.base.toNat + r.size.toNat < 2 ^ w
  not_last : ¬ Touches k (lastPage w k) r

/-- A range may be locked if it fits, and unlocked while it is live. -/
def Allowed (k : Nat) (live : List (Range w)) : Call w → Prop
  | .lock r => Fits k r
  | .unlock r => r ∈ live

/-- What a call does: the histogram has the number of live ranges for each page, and a page is locked when this
number leaves zero and unlocked when it is zero again. -/
def Stacks (k : Nat) (s : Manager w × List (Range w)) (call : Call w) : Prop :=
  ∃ m calls, step s call = .ok (m, call.live s.2) ∧ m.locker = s.1.locker ++ calls ∧ ∀ page,
    let before := touching k s.2 page
    let after := touching k (call.live s.2) page
    m.histogram page = (if after = 0 then none else some (after : Int)) ∧
    calls.count (.lock page) = (if before = 0 ∧ after = 1 then 1 else 0) ∧
    calls.count (.unlock page) = (if before = 1 ∧ after = 0 then 1 else 0)

/-! ### Counts -/

/-- The histogram has these counts, all of which are `int`s. -/
structure Counts (k : Nat) (m : Manager w) (c : BitVec w → Nat) : Prop where
  page_size : m.page_size = BitVec.twoPow w k
  page_mask : m.page_mask = ~~~(BitVec.twoPow w k - 1)
  histogram : ∀ page, m.histogram page = if c page = 0 then none else some (c page : Int)
  lt : ∀ page, c page < 2 ^ 31

/-- What the body of a loop does to a page with an admitted count: the count changes by `next`, and where the
old one is `edge` there is a call to the locker. -/
def Counting (k : Nat) (body : Manager w → BitVec w → Except Fault (Manager w)) (admits : Nat → Prop)
    (next : Nat → Nat) (edge : Nat) (call : BitVec w → LockerCall w) : Prop :=
  ∀ m c page, Counts k m c → admits (c page) → ∃ m', body m page = .ok m' ∧
    Counts k m' (Function.update c page (next (c page))) ∧
    m'.locker = m.locker ++ if c page = edge then [call page] else []

variable {k : Nat} {m : Manager w} {c : BitVec w → Nat} {page : BitVec w}

theorem Counts.update (h : Counts k m c) (page : BitVec w) {n : Nat} (hn : n < 2 ^ 31)
    (locker : List (LockerCall w)) : Counts k ⟨m.page_size, m.page_mask,
        Function.update m.histogram page (if n = 0 then none else some (n : Int)), locker⟩
      (Function.update c page n) := by
  refine ⟨h.page_size, h.page_mask, fun p => ?_, fun p => ?_⟩
  · by_cases hp : p = page
    · subst hp
      simp only [Function.update_self]
    · simp only [Function.update_of_ne hp]
      exact h.histogram p
  · by_cases hp : p = page
    · subst hp
      simpa only [Function.update_self] using hn
    · simpa only [Function.update_of_ne hp] using h.lt p

theorem toInt_of_lt {n : Nat} (hn : n < 2 ^ 31) : toInt n = .ok n :=
  if_pos ⟨by omega, by omega⟩

theorem lockPage_counting : Counting k (lockPage (w := w)) (· + 1 < 2 ^ 31) (· + 1) 0 .lock := by
  intro m c page h hlt
  have found := h.histogram page
  by_cases zero : c page = 0
  · rw [if_pos zero] at found
    refine ⟨_, ?_, h.update page hlt (m.locker ++ [.lock page]), by rw [if_pos zero]⟩
    rw [lockPage, found, zero]
    rfl
  · rw [if_neg zero] at found
    have next : toInt ((c page : Int) + 1) = .ok ((c page + 1 : Nat) : Int) := toInt_of_lt hlt
    refine ⟨_, ?_, h.update page hlt m.locker, by simp [if_neg zero]⟩
    rw [lockPage, found]
    simp only [next]
    rfl

theorem unlockPage_counting : Counting k (unlockPage (w := w)) (0 < ·) (· - 1) 1 .unlock := by
  intro m c page h hpos
  have found := h.histogram page
  rw [if_neg hpos.ne'] at found
  have hlt : c page - 1 < 2 ^ 31 := (Nat.sub_le _ _).trans_lt (h.lt page)
  have next : toInt ((c page : Int) - 1) = .ok ((c page - 1 : Nat) : Int) := by
    have cast : (c page : Int) - 1 = ((c page - 1 : Nat) : Int) := by omega
    rw [cast]
    exact toInt_of_lt hlt
  by_cases one : c page = 1
  · refine ⟨_, ?_, h.update page hlt (m.locker ++ [.unlock page]), by simp [one]⟩
    rw [unlockPage, found]
    simp only [one]
    rfl
  · refine ⟨_, ?_, h.update page hlt m.locker, by simp [one]⟩
    have left : c page - 1 ≠ 0 := by omega
    rw [unlockPage, found, if_neg left]
    simp only [next]
    exact if_neg (by omega)

/-- **A loop over pages changes the counts of these pages, each once.** -/
theorem Counting.foldlM {body : Manager w → BitVec w → Except Fault (Manager w)} {admits : Nat → Prop}
    {next : Nat → Nat} {edge : Nat} {call : BitVec w → LockerCall w}
    (counting : Counting k body admits next edge call) {pages : List (BitVec w)} (nodup : pages.Nodup)
    (h : Counts k m c) (hadmits : ∀ p ∈ pages, admits (c p)) :
    ∃ m', pages.foldlM body m = .ok m' ∧ Counts k m' (fun p => if p ∈ pages then next (c p) else c p) ∧
      m'.locker = m.locker ++ (pages.filter fun p => c p = edge).map call := by
  induction pages generalizing m c with
  | nil => exact ⟨m, rfl, by simpa using h, by simp⟩
  | cons page pages ih =>
    rw [List.nodup_cons] at nodup
    rw [List.forall_mem_cons] at hadmits
    obtain ⟨m₁, hbody, hcounts, hlocker⟩ := counting m c page h hadmits.1
    have others : ∀ p ∈ pages, Function.update c page (next (c page)) p = c p := by
      intro p hp
      rw [Function.update_of_ne]
      rintro rfl
      exact nodup.1 hp
    obtain ⟨m₂, hfold, hcounts', hlocker'⟩ :=
      ih nodup.2 hcounts fun p hp => by rw [others p hp]; exact hadmits.2 p hp
    refine ⟨m₂, ?_, ?_, ?_⟩
    · rw [List.foldlM_cons, hbody]
      exact hfold
    · convert hcounts' using 2 with p
      by_cases hp : p = page
      · subst hp
        simp [nodup.1]
      · by_cases hmem : p ∈ pages
        · simp [hmem, others p hmem]
        · simp [hp, hmem]
    · have same : (pages.filter fun p => Function.update c page (next (c page)) p = edge) =
          pages.filter fun p => c p = edge :=
        List.filter_congr fun p hp => by rw [others p hp]
      rw [hlocker', hlocker, same, List.filter_cons]
      by_cases hedge : c page = edge
      · simp [hedge]
      · simp [hedge]

/-- A page of the loop with the count `edge` is named in one call. -/
theorem count_calls {pages : List (BitVec w)} (nodup : pages.Nodup) {edge : Nat}
    {call : BitVec w → LockerCall w} (inj : Function.Injective call) (page : BitVec w) :
    ((pages.filter fun p => c p = edge).map call).count (call page) =
      if page ∈ pages ∧ c page = edge then 1 else 0 := by
  have named := (nodup.filter fun p => c p = edge).map inj
  rw [named.count]
  refine if_congr ?_ rfl rfl
  rw [List.mem_map_of_injective inj, List.mem_filter, decide_eq_true_eq]

theorem count_other {l : List (BitVec w)} {call call' : BitVec w → LockerCall w}
    (other : ∀ p q, call p ≠ call' q) (page : BitVec w) : (l.map call).count (call' page) = 0 := by
  rw [List.count_eq_zero]
  intro hmem
  obtain ⟨p, -, hp⟩ := List.mem_map.mp hmem
  exact other p page hp

/-! ### The pages of a range -/

theorem getLsbD_offset (hk : k < w) (i : Nat) : (BitVec.twoPow w k - 1).getLsbD i = decide (i < k) := by
  have low : (BitVec.twoPow w k - 1).toNat = 2 ^ k - 1 := by
    have pos : 0 < 2 ^ k := Nat.two_pow_pos k
    have one : (1 : BitVec w).toNat = 1 := Nat.mod_eq_of_lt (Nat.one_lt_two_pow (by omega))
    have two := BitVec.toNat_twoPow_of_lt hk
    rw [BitVec.toNat_sub_of_le (by rw [BitVec.le_def]; omega), two, one]
  rw [← BitVec.testBit_toNat, low, Nat.testBit_two_pow_sub_one]

theorem twoPow_and_offset (hk : k < w) : BitVec.twoPow w k &&& (BitVec.twoPow w k - 1) = 0 := by
  refine BitVec.eq_of_getLsbD_eq fun i hi => ?_
  rw [BitVec.getLsbD_and, getLsbD_offset hk, BitVec.getLsbD_twoPow]
  by_cases hik : i < k
  · simp [hik, (Nat.ne_of_lt hik).symm]
  · simp [hik]

/-- Clearing the bits below `k`. -/
theorem toNat_and_mask (hk : k < w) (x : BitVec w) :
    (x &&& ~~~(BitVec.twoPow w k - 1)).toNat = x.toNat / 2 ^ k * 2 ^ k := by
  refine Nat.eq_of_testBit_eq fun i => ?_
  rw [BitVec.testBit_toNat, BitVec.getLsbD_and, BitVec.getLsbD_not, getLsbD_offset hk, Nat.mul_comm,
    Nat.testBit_two_pow_mul, Nat.testBit_div_two_pow]
  by_cases hi : i < k
  · simp [hi]
  · rw [Nat.sub_add_cancel (by omega), BitVec.testBit_toNat]
    by_cases hw : i < w
    · simp [hi, hw]
      omega
    · simp [BitVec.getLsbD_of_ge x i (by omega)]

theorem toNat_pageAt {i n : Nat} (hn : n * 2 ^ k < 2 ^ w) (hi : i ≤ n) :
    (BitVec.ofNat w (i * 2 ^ k)).toNat = i * 2 ^ k :=
  (BitVec.toNat_ofNat _ _).trans (Nat.mod_eq_of_lt ((Nat.mul_le_mul_right _ hi).trans_lt hn))

/-- The pages with the numbers from `first` on, `n` of them. -/
def pagesFrom (w k first n : Nat) : List (BitVec w) :=
  (List.range' first n).map fun i => BitVec.ofNat w (i * 2 ^ k)

/-- **The loop runs over the pages up to the last one, if the page behind it is not the first one again.** -/
theorem forPages_eq {σ : Type} {body : σ → BitVec w → Except Fault σ} (hk : k < w) {first last fuel : Nat}
    (hlast : (last + 1) * 2 ^ k < 2 ^ w) (hfirst : first ≤ last + 1) (hfuel : last + 1 - first < fuel) (s : σ) :
    forPages (BitVec.twoPow w k) (BitVec.ofNat w (last * 2 ^ k)) body fuel (BitVec.ofNat w (first * 2 ^ k)) s =
      (pagesFrom w k first (last + 1 - first)).foldlM body s := by
  have toNat : ∀ i ≤ last + 1, (BitVec.ofNat w (i * 2 ^ k)).toNat = i * 2 ^ k := fun i hi =>
    toNat_pageAt hlast hi
  have pos : 0 < 2 ^ k := Nat.two_pow_pos k
  induction fuel generalizing first s with
  | zero => omega
  | succ fuel ih =>
    rw [forPages]
    by_cases inside : first ≤ last
    · have next : BitVec.ofNat w (first * 2 ^ k) + BitVec.twoPow w k = BitVec.ofNat w ((first + 1) * 2 ^ k) := by
        refine BitVec.eq_of_toNat_eq ?_
        rw [BitVec.toNat_add, toNat first hfirst, toNat (first + 1) (by omega), BitVec.toNat_twoPow_of_lt hk,
          Nat.add_mul, Nat.one_mul]
        exact Nat.mod_eq_of_lt (lt_of_le_of_lt (by rw [← Nat.succ_mul]; exact Nat.mul_le_mul_right _ (by omega)) hlast)
      have room : last + 1 - first = last + 1 - (first + 1) + 1 := by omega
      rw [if_pos, next, room, pagesFrom, List.range'_succ, List.map_cons, List.foldlM_cons]
      · refine bind_congr fun s' => ?_
        exact ih (by omega) (by omega) s'
      · rw [BitVec.le_def, toNat first hfirst, toNat last (by omega)]
        exact Nat.mul_le_mul_right _ inside
    · have done : last + 1 - first = 0 := by omega
      rw [if_neg, done]
      · rfl
      · rw [BitVec.le_def, toNat first hfirst, toNat last (by omega), not_le]
        exact Nat.mul_lt_mul_of_pos_right (by omega) pos

theorem size_pos {r : Range w} (h : ¬ r.size = 0) : 0 < r.size.toNat := by
  rw [Nat.pos_iff_ne_zero]
  exact fun hzero => h (BitVec.eq_of_toNat_eq hzero)

theorem end_le_of_not_touches (hk : k < w) {r : Range w} (hsize : 0 < r.size.toNat)
    (h : ¬ Touches k (lastPage w k) r) : r.base.toNat + r.size.toNat ≤ 2 ^ w - 2 ^ k := by
  have pos : 0 < 2 ^ k := Nat.two_pow_pos k
  have hlt : 2 ^ k < 2 ^ w := Nat.pow_lt_pow_right (by omega) hk
  have toNat : (lastPage w k).toNat = 2 ^ w - 2 ^ k :=
    (BitVec.toNat_ofNat _ _).trans (Nat.mod_eq_of_lt (by omega))
  have dvd : 2 ^ k ∣ 2 ^ w - 2 ^ k := Nat.dvd_sub (Nat.pow_dvd_pow 2 hk.le) dvd_rfl
  rw [touches_iff, toNat] at h
  have hbase := r.base.isLt
  by_contra hlong
  exact h ⟨dvd, hsize, by omega, by omega⟩

/-- The pages that the loops visit. -/
def visited (k : Nat) (r : Range w) : List (BitVec w) :=
  if r.size = 0 then []
  else
    pagesFrom w k (r.base.toNat / 2 ^ k)
      ((r.base.toNat + r.size.toNat - 1) / 2 ^ k + 1 - r.base.toNat / 2 ^ k)

theorem lastNumber_lt (hk : k < w) {r : Range w} (hsize : 0 < r.size.toNat)
    (h : ¬ Touches k (lastPage w k) r) : ((r.base.toNat + r.size.toNat - 1) / 2 ^ k + 1) * 2 ^ k < 2 ^ w := by
  have pos : 0 < 2 ^ k := Nat.two_pow_pos k
  have hend := end_le_of_not_touches hk hsize h
  have hlt : 2 ^ k < 2 ^ w := Nat.pow_lt_pow_right (by omega) hk
  have below := Nat.div_mul_le_self (r.base.toNat + r.size.toNat - 1) (2 ^ k)
  rw [Nat.add_mul, Nat.one_mul]
  omega

theorem overRange_eq (hk : k < w) {r : Range w} (fits : Fits k r) (hsize : m.page_size = BitVec.twoPow w k)
    (hmask : m.page_mask = ~~~(BitVec.twoPow w k - 1))
    (body : Manager w → BitVec w → Except Fault (Manager w)) :
    overRange body m r.base r.size = (visited k r).foldlM body m := by
  rw [overRange, visited]
  split
  next => rfl
  next nonempty =>
    have pos := size_pos nonempty
    have number := lastNumber_lt hk pos fits.not_last
    have toNat_add : (r.base + r.size - 1).toNat = r.base.toNat + r.size.toNat - 1 := by
      have one : (1 : BitVec w).toNat = 1 := Nat.mod_eq_of_lt (Nat.one_lt_two_pow (by omega))
      have sum : (r.base + r.size).toNat = r.base.toNat + r.size.toNat :=
        (BitVec.toNat_add _ _).trans (Nat.mod_eq_of_lt fits.end_lt)
      rw [BitVec.toNat_sub_of_le (by rw [BitVec.le_def]; omega), sum, one]
    have start_page : r.base &&& m.page_mask = BitVec.ofNat w (r.base.toNat / 2 ^ k * 2 ^ k) := by
      rw [hmask, ← toNat_and_mask hk, BitVec.ofNat_toNat, BitVec.setWidth_eq]
    have end_page : (r.base + r.size - 1) &&& m.page_mask =
        BitVec.ofNat w ((r.base.toNat + r.size.toNat - 1) / 2 ^ k * 2 ^ k) := by
      rw [hmask, ← toNat_add, ← toNat_and_mask hk, BitVec.ofNat_toNat, BitVec.setWidth_eq]
    have order : r.base.toNat / 2 ^ k ≤ (r.base.toNat + r.size.toNat - 1) / 2 ^ k :=
      Nat.div_le_div_right (by omega)
    have few : (r.base.toNat + r.size.toNat - 1) / 2 ^ k ≤ r.base.toNat + r.size.toNat - 1 := Nat.div_le_self _ _
    simp only [start_page, end_page, hsize]
    refine forPages_eq hk number (by omega) ((Nat.sub_le _ _).trans_lt ?_) m
    have := fits.end_lt
    exact Nat.succ_lt_succ (few.trans_lt (by omega))

/-- **Both loops visit the pages that the range touches.** -/
theorem mem_visited (hk : k < w) {r : Range w} (fits : Fits k r) {page : BitVec w} :
    page ∈ visited k r ↔ Touches k page r := by
  rw [touches_iff, visited]
  have pos : 0 < 2 ^ k := Nat.two_pow_pos k
  by_cases empty : r.size = 0
  · simp [empty]
  · have hsize := size_pos empty
    have number := lastNumber_lt hk hsize fits.not_last
    have order : r.base.toNat / 2 ^ k ≤ (r.base.toNat + r.size.toNat - 1) / 2 ^ k :=
      Nat.div_le_div_right (by omega)
    rw [if_neg empty, pagesFrom, List.mem_map]
    constructor
    · rintro ⟨i, hi, rfl⟩
      rw [List.mem_range'_1] at hi
      have toNat : (BitVec.ofNat w (i * 2 ^ k)).toNat = i * 2 ^ k := toNat_pageAt number (by omega)
      have upper : i * 2 ^ k ≤ r.base.toNat + r.size.toNat - 1 := (Nat.le_div_iff_mul_le pos).mp (by omega)
      have lower : r.base.toNat < (i + 1) * 2 ^ k := (Nat.div_lt_iff_lt_mul pos).mp (by omega)
      rw [toNat]
      rw [Nat.add_mul, Nat.one_mul] at lower
      exact ⟨dvd_mul_left _ _, hsize, by omega, lower⟩
    · rintro ⟨⟨i, hi⟩, -, hend, hbase⟩
      rw [Nat.mul_comm] at hi
      rw [hi] at hend hbase
      have upper : i ≤ (r.base.toNat + r.size.toNat - 1) / 2 ^ k := (Nat.le_div_iff_mul_le pos).mpr (by omega)
      have lower : r.base.toNat / 2 ^ k < i + 1 :=
        (Nat.div_lt_iff_lt_mul pos).mpr (by rw [Nat.add_mul, Nat.one_mul]; exact hbase)
      refine ⟨i, List.mem_range'_1.mpr (by omega), ?_⟩
      rw [← hi, BitVec.ofNat_toNat, BitVec.setWidth_eq]

theorem nodup_visited (hk : k < w) {r : Range w} (fits : Fits k r) : (visited k r).Nodup := by
  rw [visited]
  split
  next => exact List.nodup_nil
  next nonempty =>
    have hsize := size_pos nonempty
    have number := lastNumber_lt hk hsize fits.not_last
    have order : r.base.toNat / 2 ^ k ≤ (r.base.toNat + r.size.toNat - 1) / 2 ^ k :=
      Nat.div_le_div_right (by omega)
    have pos : 0 < 2 ^ k := Nat.two_pow_pos k
    refine List.Nodup.map_on (fun i hi j hj heq => ?_) List.nodup_range'
    rw [List.mem_range'_1] at hi hj
    have toNat := congrArg BitVec.toNat heq
    rw [toNat_pageAt number (by omega), toNat_pageAt number (by omega)] at toNat
    exact Nat.eq_of_mul_eq_mul_right pos toNat

/-! ### One call -/

theorem touching_cons (r : Range w) (live : List (Range w)) (page : BitVec w) :
    touching k (r :: live) page = touching k live page + if Touches k page r then 1 else 0 := by
  simp [touching, List.countP_cons]

theorem touching_erase {r : Range w} {live : List (Range w)} (hr : r ∈ live) (page : BitVec w) :
    touching k live page = touching k (live.erase r) page + if Touches k page r then 1 else 0 := by
  rw [← touching_cons]
  exact (List.perm_cons_erase hr).countP_eq _

/-- The invariant: the histogram counts the live ranges, which all fit. -/
structure Valid (k : Nat) (s : Manager w × List (Range w)) : Prop where
  counts : Counts k s.1 (touching k s.2)
  fits : ∀ r ∈ s.2, Fits k r

variable {s : Manager w × List (Range w)}

/-- **A call counts the live ranges anew, and calls the locker where a count leaves or reaches zero.** -/
theorem step_spec (hk : k < w) (valid : Valid k s) {call : Call w} (allowed : Allowed k s.2 call)
    (few : ∀ page, touching k (call.live s.2) page < 2 ^ 31) :
    ∃ m calls, step s call = .ok (m, call.live s.2) ∧ Counts k m (touching k (call.live s.2)) ∧
      m.locker = s.1.locker ++ calls ∧ ∀ page, calls.count (.lock page) =
          (if touching k s.2 page = 0 ∧ touching k (call.live s.2) page = 1 then 1 else 0) ∧
        calls.count (.unlock page) =
          (if touching k s.2 page = 1 ∧ touching k (call.live s.2) page = 0 then 1 else 0) := by
  have counts := valid.counts
  cases call with
  | lock r =>
    have after : ∀ page, touching k (r :: s.2) page =
        if page ∈ visited k r then touching k s.2 page + 1 else touching k s.2 page := by
      intro page
      rw [touching_cons, if_congr (mem_visited hk allowed).symm rfl rfl]
      split <;> rfl
    obtain ⟨m, hfold, hcounts, hlocker⟩ :=
      lockPage_counting.foldlM (nodup_visited hk allowed) counts fun page hpage => by
        have bound := few page
        rw [Call.live, after, if_pos hpage] at bound
        exact bound
    refine ⟨m, _, ?_, ?_, hlocker, fun page => ⟨?_, ?_⟩⟩
    · rw [step, Call.apply, lockRange, overRange_eq hk allowed counts.page_size counts.page_mask, hfold]
      rfl
    · rw [Call.live, funext after]
      exact hcounts
    · rw [count_calls (nodup_visited hk allowed) (fun _ _ => LockerCall.lock.inj), Call.live, after]
      refine if_congr ?_ rfl rfl
      split <;> simp_all
    · rw [count_other (by simp), Call.live, after]
      refine (if_neg ?_).symm
      split <;> omega
  | unlock r =>
    have fits := valid.fits r allowed
    have before : ∀ page, touching k s.2 page =
        touching k (s.2.erase r) page + if page ∈ visited k r then 1 else 0 := by
      intro page
      rw [touching_erase allowed, if_congr (mem_visited hk fits) rfl rfl]
    obtain ⟨m, hfold, hcounts, hlocker⟩ :=
      unlockPage_counting.foldlM (nodup_visited hk fits) counts fun page hpage => by
        rw [before, if_pos hpage]
        exact Nat.succ_pos _
    refine ⟨m, _, ?_, ?_, hlocker, fun page => ⟨?_, ?_⟩⟩
    · rw [step, Call.apply, unlockRange, overRange_eq hk fits counts.page_size counts.page_mask, hfold]
      rfl
    · convert hcounts using 2 with page
      rw [Call.live, before]
      split <;> rfl
    · rw [count_other (by simp), Call.live, before]
      refine (if_neg ?_).symm
      split <;> omega
    · rw [count_calls (nodup_visited hk fits) (fun _ _ => LockerCall.unlock.inj), Call.live, before]
      refine if_congr ?_ rfl rfl
      split <;> simp_all

theorem valid_live {live : List (Range w)} (fits : ∀ r ∈ live, Fits k r) {call : Call w}
    (allowed : Allowed k live call) : ∀ r ∈ call.live live, Fits k r := by
  cases call with
  | lock r => exact List.forall_mem_cons.mpr ⟨allowed, fits⟩
  | unlock r => exact fun r' hr' => fits r' (List.mem_of_mem_erase hr')

/-- A call is allowed, and no page is touched by more ranges after it than an `int` counts. -/
def Counted (k : Nat) (live : List (Range w)) (call : Call w) : Prop :=
  Allowed k live call ∧ ∀ page, touching k (call.live live) page < 2 ^ 31

theorem Valid.stacks (hk : k < w) (valid : Valid k s) {call : Call w} (counted : Counted k s.2 call) :
    Stacks k s call := by
  obtain ⟨m, calls, hstep, hcounts, hlocker, hcalls⟩ := step_spec hk valid counted.1 counted.2
  exact ⟨m, calls, hstep, hlocker, fun page => ⟨hcounts.histogram page, hcalls page⟩⟩

theorem Valid.step (hk : k < w) (valid : Valid k s) {call : Call w} (counted : Counted k s.2 call)
    {s' : Manager w × List (Range w)} (hstep : step s call = .ok s') : Valid k s' := by
  obtain ⟨m, calls, hok, hcounts, -⟩ := step_spec hk valid counted.1 counted.2
  obtain rfl := Except.ok.inj (hok.symm.trans hstep)
  exact ⟨hcounts, valid_live valid.fits counted.1⟩

theorem valid_new (hk : k < w) : ∃ m, new (BitVec.twoPow w k) = .ok m ∧ Valid k (m, []) := by
  exact ⟨_, if_pos (twoPow_and_offset hk), ⟨rfl, rfl, fun _ => rfl, fun _ => by simp [touching]⟩, by simp⟩

/-- The live ranges on their own. -/
def liveStep (live : List (Range w)) (call : Call w) : Except Fault (List (Range w)) := .ok (call.live live)

theorem liveStep_of_step {call : Call w} {s' : Manager w × List (Range w)} (hstep : step s call = .ok s') :
    liveStep s.2 call = .ok s'.2 := by
  rw [step] at hstep
  cases happly : call.apply s.1 with
  | error fault =>
    rw [happly] at hstep
    cases hstep
  | ok m =>
    rw [happly] at hstep
    obtain rfl := Except.ok.inj hstep
    rfl

theorem eachCall_live_cons {P : List (Range w) → Call w → Prop} {live : List (Range w)} {call : Call w}
    {calls : List (Call w)} (h : P live call) (hcalls : Runs.EachCall liveStep P (call.live live) calls) :
    Runs.EachCall liveStep P live (call :: calls) :=
  ⟨h, fun _ hlive => Except.ok.inj hlive ▸ hcalls⟩

/-- An `int` counts the ranges of each page when there are no more of them in all. -/
theorem counted_of_length {live : List (Range w)} {call : Call w} (allowed : Allowed k live call)
    (few : (call.live live).length < 2 ^ 31) : Counted k live call :=
  ⟨allowed, fun _ => List.countP_le_length.trans_lt few⟩

/-- **Page locks stack in every run of allowed calls, as long as an `int` counts the ranges of each page.** -/
theorem stacks_run (hk : k < w) (calls : List (Call w)) (counted : Runs.EachCall liveStep (Counted k) [] calls) :
    ∃ m, new (BitVec.twoPow w k) = .ok m ∧ Runs.EachCall step (Stacks k) (m, []) calls := by
  obtain ⟨m, hnew, valid⟩ := valid_new hk
  refine ⟨m, hnew, ?_⟩
  have lifted : Runs.EachCall step (fun s call => Counted k s.2 call) (m, []) calls :=
    Runs.EachCall.lift Prod.snd (fun _ _ _ hstep => liveStep_of_step hstep) counted
  exact lifted.imp (fun _ _ _ valid counted hstep => valid.step hk counted hstep)
    (fun _ _ valid counted => valid.stacks hk counted) valid

/-- A range over the boundary of two pages is locked twice and unlocked. -/
theorem stacks_run_sample : ∃ m, new (BitVec.twoPow 64 12) = .ok m ∧
    Runs.EachCall step (Stacks 12) (m, []) [.lock ⟨8190, 4⟩, .lock ⟨8190, 4⟩, .unlock ⟨8190, 4⟩] := by
  have fits : Fits 12 (⟨8190, 4⟩ : Range 64) := ⟨by decide, by decide⟩
  have allowed : Allowed 12 [⟨8190, 4⟩, ⟨8190, 4⟩] (.unlock (⟨8190, 4⟩ : Range 64)) := List.mem_cons_self ..
  refine stacks_run (by decide) _ (eachCall_live_cons (counted_of_length fits (by decide)) ?_)
  refine eachCall_live_cons (counted_of_length fits (by decide)) ?_
  exact eachCall_live_cons (counted_of_length allowed (by decide)) trivial

/-! ### More ranges than an `int` counts -/

theorem touching_replicate {r : Range w} (htouches : Touches k page r) (n : Nat) :
    touching k (List.replicate n r) page = n := by
  simp [touching, List.countP_replicate, htouches]

/-- One range more than an `int` counts. -/
theorem lock_overflow (hk : k < w) {r : Range w} (fits : Fits k r) (htouches : Touches k page r)
    (valid : Valid k (m, List.replicate (2 ^ 31 - 1) r)) : lockRange m r.base r.size = .error .overflow := by
  have counts := valid.counts
  have visits : page ∈ visited k r := (mem_visited hk fits).mpr htouches
  rw [lockRange, overRange_eq hk fits counts.page_size counts.page_mask]
  cases hvisited : visited k r with
  | nil =>
    rw [hvisited] at visits
    cases visits
  | cons first rest =>
    have touched : Touches k first r := (mem_visited hk fits).mp (hvisited ▸ List.mem_cons_self ..)
    have found := counts.histogram first
    rw [touching_replicate touched, if_neg (by decide)] at found
    rw [List.foldlM_cons, lockPage, found]
    rfl

theorem not_stacks_replicate (hk : k < w) {r : Range w} (fits : Fits k r) (htouches : Touches k page r)
    {n d : Nat} (hn : n + d + 1 = 2 ^ 31) (valid : Valid k (m, List.replicate n r)) :
    ¬ Runs.EachCall step (Stacks k) (m, List.replicate n r) (List.replicate (d + 1) (.lock r)) := by
  induction d generalizing n m with
  | zero =>
    rintro ⟨⟨m', calls, hstep, -⟩, -⟩
    obtain rfl : n = 2 ^ 31 - 1 := by omega
    rw [step, Call.apply, lock_overflow hk fits htouches valid] at hstep
    cases hstep
  | succ d ih =>
    rintro ⟨⟨m', calls, hstep, -⟩, hrest⟩
    have counted : Counted k (List.replicate n r) (.lock r) :=
      counted_of_length fits (by rw [Call.live, List.length_cons, List.length_replicate]; omega)
    exact ih (n := n + 1) (by omega) (valid.step hk counted hstep) (hrest _ hstep)

theorem allowed_replicate {r : Range w} (fits : Fits k r) (n : Nat) (live : List (Range w)) :
    Runs.EachCall liveStep (Allowed k) live (List.replicate n (.lock r)) := by
  induction n generalizing live with
  | zero => trivial
  | succ n ih => exact eachCall_live_cons fits (ih _)

/-- **A page that one range more than an `int` counts is locked for.** -/
theorem not_stacks_run :
    Runs.EachCall liveStep (Allowed 12) [] (List.replicate (2 ^ 31) (.lock (⟨8190, 1⟩ : Range 64))) ∧
      ∃ m, new (BitVec.twoPow 64 12) = .ok m ∧
        ¬ Runs.EachCall step (Stacks 12) (m, []) (List.replicate (2 ^ 31) (.lock ⟨8190, 1⟩)) := by
  have fits : Fits 12 (⟨8190, 1⟩ : Range 64) := ⟨by decide, by decide⟩
  have htouches : Touches 12 4096 (⟨8190, 1⟩ : Range 64) := by decide
  obtain ⟨m, hnew, valid⟩ := valid_new (w := 64) (k := 12) (by decide)
  refine ⟨allowed_replicate fits _ _, m, hnew, ?_⟩
  exact not_stacks_replicate (by decide) fits htouches (n := 0) (d := 2 ^ 31 - 1) (by decide) valid

end LockedPages

end Manna
