import Mathlib.Data.List.TakeWhile
import Mathlib.Order.Lattice
import Mathlib.Order.Nat
import Mathlib.Tactic.SplitIfs

/-!
Walking down a forest of parent pointers.

`parent` gives the parent of an element, `rank` a height that drops along it (`Ranked`).
`path` lists an element and its ancestors, and `meet` lets two walkers descend from two
elements until they stand on the same one.

* `path_eq`: the equation of `path`, from which everything else follows;
* `mem_path_trans`, `path_suffix`: the path of an ancestor is the rest of the path;
* `foldl_recompute`: a recurrence along the parents, recomputed in the order of the ranks;
* `meet_spec`: the walkers meet in the highest common element;
* `meet_isSome`: they do meet when both paths end in the same lowest element.
-/

namespace Descent

variable {α : Type*}

def Ranked (parent : α → Option α) (rank : α → Nat) : Prop :=
  ∀ ⦃a b⦄, parent a = some b → rank b < rank a

def walk (parent : α → Option α) : Nat → α → List α
  | 0, _ => []
  | fuel + 1, a =>
    a :: match parent a with
      | none => []
      | some b => walk parent fuel b

/-- An element and its ancestors. -/
def path (parent : α → Option α) (rank : α → Nat) (a : α) : List α := walk parent (rank a + 1) a

section Path

variable {parent : α → Option α} {rank : α → Nat} {a b c : α}

theorem walk_eq (h : Ranked parent rank) {n m : Nat} (hn : rank a < n) (hm : rank a < m) :
    walk parent n a = walk parent m a := by
  induction n generalizing a m with
  | zero => exact absurd hn (Nat.not_lt_zero _)
  | succ n ih =>
    cases m with
    | zero => exact absurd hm (Nat.not_lt_zero _)
    | succ m =>
      simp only [walk, List.cons.injEq, true_and]
      cases hp : parent a with
      | none => rfl
      | some b =>
        have hlt := h hp
        exact ih (by omega) (by omega)

theorem path_eq (h : Ranked parent rank) (a : α) :
    path parent rank a = a :: (parent a).elim [] (path parent rank) := by
  show a :: _ = a :: _
  cases hp : parent a with
  | none => rfl
  | some b =>
    have hlt := h hp
    exact congrArg (a :: ·) (walk_eq h hlt (Nat.lt_succ_self _))

theorem path_induction (h : Ranked parent rank) {motive : α → Prop}
    (step : ∀ a, (∀ b, parent a = some b → motive b) → motive a) (a : α) : motive a := by
  induction hrank : rank a using Nat.strong_induction_on generalizing a with
  | _ n ih => exact step a fun b hb => ih _ (hrank ▸ h hb) b rfl

theorem mem_path_self (h : Ranked parent rank) (a : α) : a ∈ path parent rank a := by
  rw [path_eq h]
  exact List.mem_cons_self ..

theorem mem_path (h : Ranked parent rank) :
    b ∈ path parent rank a ↔ b = a ∨ ∃ c, parent a = some c ∧ b ∈ path parent rank c := by
  rw [path_eq h, List.mem_cons]
  cases parent a <;> simp

/-- **The path of an ancestor** is what is left of the path. -/
theorem path_suffix (h : Ranked parent rank) (hb : b ∈ path parent rank a) :
    path parent rank b <:+ path parent rank a := by
  induction a using path_induction h with
  | step a ih =>
    rcases (mem_path h).mp hb with rfl | ⟨c, hc, hb⟩
    · exact List.suffix_rfl
    · rw [path_eq h a, hc]
      exact (ih c hc hb).trans (List.suffix_cons ..)

theorem mem_path_trans (h : Ranked parent rank) (hc : c ∈ path parent rank b)
    (hb : b ∈ path parent rank a) : c ∈ path parent rank a :=
  (path_suffix h hb).subset hc

theorem parent_mem_path (h : Ranked parent rank) (ha : a ∈ path parent rank c)
    (hp : parent a = some b) : b ∈ path parent rank c :=
  mem_path_trans h ((mem_path h).mpr (.inr ⟨b, hp, mem_path_self h b⟩)) ha

theorem exists_child_of_mem (h : Ranked parent rank) (hb : b ∈ path parent rank a) :
    b = a ∨ ∃ c, parent c = some b := by
  induction a using path_induction h with
  | step a ih =>
    rcases (mem_path h).mp hb with rfl | ⟨c, hc, hbc⟩
    · exact .inl rfl
    · rcases ih c hc hbc with rfl | hchild
      · exact .inr ⟨a, hc⟩
      · exact .inr hchild

theorem rank_le_of_mem (h : Ranked parent rank) (hb : b ∈ path parent rank a) : rank b ≤ rank a := by
  induction a using path_induction h with
  | step a ih =>
    rcases (mem_path h).mp hb with rfl | ⟨c, hc, hb⟩
    · exact le_rfl
    · exact (ih c hc hb).trans (h hc).le

theorem path_pairwise (h : Ranked parent rank) (a : α) :
    (path parent rank a).Pairwise fun x y => rank y < rank x := by
  induction a using path_induction h with
  | step a ih =>
    rw [path_eq h]
    cases hp : parent a with
    | none => simp
    | some c =>
      refine List.pairwise_cons.mpr ⟨fun b hb => ?_, ih c hp⟩
      exact (rank_le_of_mem h hb).trans_lt (h hp)

theorem path_nodup (h : Ranked parent rank) (a : α) : (path parent rank a).Nodup :=
  (path_pairwise h a).imp fun hlt heq => absurd hlt (by rw [heq]; exact lt_irrefl _)

theorem eq_of_rank_eq (h : Ranked parent rank) (hb : b ∈ path parent rank a)
    (hc : c ∈ path parent rank a) (hrank : rank b = rank c) : b = c := by
  induction a using path_induction h with
  | step a ih =>
    rcases (mem_path h).mp hb with rfl | ⟨p, hp, hbp⟩
    · rcases (mem_path h).mp hc with rfl | ⟨q, hq, hcq⟩
      · rfl
      · have := rank_le_of_mem h hcq
        have := h hq
        omega
    · rcases (mem_path h).mp hc with rfl | ⟨q, hq, hcq⟩
      · have := rank_le_of_mem h hbp
        have := h hp
        omega
      · rw [hp, Option.some.injEq] at hq
        exact ih p hp hbp (hq ▸ hcq)

/-- A path is the part above one of its elements, followed by the path of that element. -/
theorem takeWhile_append_path [DecidableEq α] (h : Ranked parent rank) (hb : b ∈ path parent rank a) :
    (path parent rank a).takeWhile (· ≠ b) ++ path parent rank b = path parent rank a := by
  induction a using path_induction h with
  | step a ih =>
    rcases (mem_path h).mp hb with rfl | ⟨c, hc, hb'⟩
    · rw [path_eq h b, List.takeWhile_cons_of_neg (by simp)]
      rfl
    · have hne : a ≠ b := by
        rintro rfl
        have := rank_le_of_mem h hb'
        have := h hc
        omega
      rw [path_eq h a, hc, Option.elim_some, List.takeWhile_cons_of_pos (by simpa using hne),
        List.cons_append, ih c hc hb']

end Path

/-- A recurrence along the parents is recomputed by one pass over a list that is ordered by rank
and closed under parents: each value is set when that of the parent is final. `I` is what the
pass keeps of the state. -/
theorem foldl_recompute {σ β : Type*} {parent : α → Option α} {rank : α → Nat}
    (h : Ranked parent rank) {l : List α} {I : σ → Prop} (step : σ → α → σ) (value : σ → α → β)
    (combine : α → Option β → β) {target : α → β} (hkeep : ∀ s, ∀ a ∈ l, I s → I (step s a))
    (hself : ∀ s, ∀ a ∈ l, I s → value (step s a) a = combine a ((parent a).map (value s)))
    (hother : ∀ s, ∀ a ∈ l, I s → ∀ b, b ≠ a → value (step s a) b = value s b)
    (hsorted : l.Pairwise fun a b => rank a ≤ rank b) (hclosed : ∀ a ∈ l, ∀ b, parent a = some b → b ∈ l)
    (htarget : ∀ a ∈ l, target a = combine a ((parent a).map target)) {s : σ} (hs : I s) :
    I (l.foldl step s) ∧ ∀ a ∈ l, value (l.foldl step s) a = target a := by
  -- With a part of the list done, the values of that part are final.
  have hpass : ∀ done rest : List α, done ++ rest = l → ∀ s, I s →
      (∀ a ∈ done, value s a = target a) →
      I (rest.foldl step s) ∧ ∀ a ∈ l, value (rest.foldl step s) a = target a := by
    intro done rest
    induction rest generalizing done with
    | nil =>
      rintro rfl s hs hdone
      rw [List.append_nil]
      exact ⟨hs, hdone⟩
    | cons a rest ih =>
      intro heq s hs hdone
      have ha : a ∈ l := heq ▸ List.mem_append_right _ List.mem_cons_self
      refine ih (done ++ [a]) (by rw [← heq, List.append_assoc]; rfl) (step s a) (hkeep s a ha hs)
        fun b hb => ?_
      by_cases hab : b = a
      · subst hab
        rw [hself s b ha hs, htarget b ha]
        cases hp : parent b with
        | none => rfl
        | some c =>
          -- The parent comes before its child.
          have hc : c ∈ done := by
            have hin := hclosed b ha c hp
            rw [← heq] at hin hsorted
            refine (List.mem_append.mp hin).resolve_right fun hlate => ?_
            have hlt := h hp
            rcases List.mem_cons.mp hlate with rfl | hlate
            · exact lt_irrefl _ hlt
            · have hrest := (List.pairwise_append.mp hsorted).2.1
              exact absurd ((List.pairwise_cons.mp hrest).1 c hlate) (not_le.mpr hlt)
          rw [Option.map_some, Option.map_some, hdone c hc]
      · rw [hother s a ha hs b hab]
        exact hdone b ((List.mem_append.mp hb).resolve_right fun hmem =>
          hab (List.mem_singleton.mp hmem))
  exact hpass [] l rfl s hs fun _ hmem => absurd hmem List.not_mem_nil

/-! ### Two walkers -/

section Meet

variable {β : Type*} [LinearOrder β] [DecidableEq α] (height : α → β)

/-- Two walkers on descending lists. In each round the second one descends to the height of
the first, and then the first takes a step; `none` when a walker falls off the end of its
list, `some none` when the first list is empty. -/
def meet : List α → List α → Option (Option α)
  | [], _ => some none
  | first :: firsts, seconds =>
    if seconds.head? = some first then some (some first)
    else
      match seconds.dropWhile fun second => height first < height second with
      | [] => none
      | second :: seconds =>
        if first = second then some (some first)
        else if firsts = [] then none
        else meet firsts (second :: seconds)

variable {height} {firsts seconds : List α} {a : α}

omit [DecidableEq α] in
theorem exists_dropWhile (height : α → β) (first : α) (seconds : List α) :
    ∃ above below, (seconds.dropWhile fun second => height first < height second) = below ∧
      seconds = above ++ below ∧ (∀ x ∈ above, height first < height x) ∧
      ∀ second ∈ below.head?, height second ≤ height first := by
  refine ⟨_, _, rfl, (List.takeWhile_append_dropWhile ..).symm, fun x hx => ?_, fun second hhead => ?_⟩
  · simpa using List.mem_takeWhile_imp hx
  · have hstop := List.head?_dropWhile_not (fun second => decide (height first < height second)) seconds
    rw [Option.mem_def.mp hhead] at hstop
    simpa using hstop

/-- **Where the walkers meet**: on a common element such that neither passed an element of
the other's list before. -/
theorem meet_spec (hfirst : firsts.Pairwise fun x y => height y < height x)
    (hsecond : seconds.Pairwise fun x y => height y < height x)
    (h : meet height firsts seconds = some (some a)) :
    a ∈ firsts ∧ a ∈ seconds ∧ (∀ x ∈ firsts.takeWhile (· ≠ a), x ∉ seconds) ∧
      ∀ x ∈ seconds.takeWhile (· ≠ a), x ∉ firsts := by
  induction firsts generalizing seconds with
  | nil => cases h
  | cons first firsts ih =>
    obtain ⟨hbelow, hrest⟩ := List.pairwise_cons.mp hfirst
    unfold meet at h
    split at h
    · next hhead =>
      cases h
      obtain ⟨seconds', rfl⟩ : ∃ tail, seconds = a :: tail := by
        cases seconds with
        | nil => cases hhead
        | cons b tail =>
          rw [List.head?_cons, Option.some.injEq] at hhead
          exact ⟨tail, by rw [hhead]⟩
      simp
    · obtain ⟨above, below, hdrop, rfl, habove, hhead⟩ := exists_dropWhile height first seconds
      rw [hdrop] at h
      cases below with
      | nil => cases h
      | cons second below =>
        have hle := hhead second rfl
        obtain ⟨-, hpair, -⟩ := List.pairwise_append.mp hsecond
        obtain ⟨hlower, -⟩ := List.pairwise_cons.mp hpair
        -- What was skipped is above everything the first walker still has.
        have hskipped : ∀ x ∈ above, x ∉ first :: firsts := by
          intro x hx hmem
          have hlt := habove x hx
          rcases List.mem_cons.mp hmem with rfl | hmem
          · exact lt_irrefl _ hlt
          · exact lt_irrefl _ (hlt.trans (hbelow x hmem))
        simp only at h
        split at h
        · next heq =>
          subst heq
          cases h
          refine ⟨List.mem_cons_self .., by simp, by simp, fun x hx => ?_⟩
          rw [List.takeWhile_append_of_pos, List.takeWhile_cons_of_neg (by simp),
            List.append_nil] at hx
          · exact hskipped x hx
          · intro y hy
            have hne : y ≠ a := fun heq => hskipped y hy (heq ▸ List.mem_cons_self ..)
            simpa using hne
        · next hne =>
          split at h
          · cases h
          · obtain ⟨hmem, hmem', hfree, hfree'⟩ := ih hrest hpair h
            have hfirst_free : first ∉ above ++ second :: below := by
              intro hin
              rcases List.mem_append.mp hin with hin | hin
              · exact lt_irrefl _ (habove first hin)
              · rcases List.mem_cons.mp hin with heq | hin
                · exact hne heq
                · exact absurd (hlower first hin) (not_lt.mpr hle)
            have hne' : first ≠ a := fun heq => hfirst_free (heq ▸ List.mem_append_right _ hmem')
            refine ⟨List.mem_cons_of_mem _ hmem, List.mem_append_right _ hmem', ?_, ?_⟩
            · intro x hx
              rw [List.takeWhile_cons_of_pos (by simpa using hne')] at hx
              rcases List.mem_cons.mp hx with rfl | hx
              · exact hfirst_free
              · intro hin
                rcases List.mem_append.mp hin with hin | hin
                · exact hskipped x hin (List.mem_cons_of_mem _
                    (List.takeWhile_prefix _ |>.subset hx))
                · exact hfree x hx hin
            · intro x hx
              rw [List.takeWhile_append_of_pos] at hx
              · rcases List.mem_append.mp hx with hx | hx
                · exact hskipped x hx
                · intro hin
                  rcases List.mem_cons.mp hin with rfl | hin
                  · exact hfirst_free (List.mem_append_right _
                      (List.takeWhile_prefix _ |>.subset hx))
                  · exact hfree' x hx hin
              · intro y hy
                have : y ≠ a := fun heq =>
                  hskipped y hy (heq ▸ List.mem_cons_of_mem _ hmem)
                simpa using this

theorem meet_eq_none (h : meet height firsts seconds = some none) : firsts = [] := by
  induction firsts generalizing seconds with
  | nil => rfl
  | cons first firsts ih =>
    unfold meet at h
    split at h
    · cases h
    · split at h
      · cases h
      · split at h
        · cases h
        · split at h
          · cases h
          · next hne => exact absurd (ih h) hne

/-- **The walkers meet** when both lists end in an element that is lowest in both. -/
theorem meet_isSome {low : α} (hfirst : firsts.Pairwise fun x y => height y < height x)
    (hsecond : seconds.Pairwise fun x y => height y < height x)
    (hlast : firsts.getLast? = some low) (hlast' : seconds.getLast? = some low)
    (hlow : ∀ x ∈ firsts, height low ≤ height x) : ∃ a, meet height firsts seconds = some (some a) := by
  induction firsts generalizing seconds with
  | nil => cases hlast
  | cons first firsts ih =>
    obtain ⟨hbelow, hrest⟩ := List.pairwise_cons.mp hfirst
    unfold meet
    split
    · exact ⟨first, rfl⟩
    · obtain ⟨above, below, hdrop, rfl, habove, hhead⟩ := exists_dropWhile height first seconds
      have hmem : low ∈ below :=
        (List.mem_append.mp (List.mem_of_getLast? hlast')).resolve_left fun hin =>
          absurd (hlow first (List.mem_cons_self ..)) (not_le.mpr (habove low hin))
      rw [hdrop]
      cases below with
      | nil => cases hmem
      | cons second below =>
        simp only
        split
        · exact ⟨first, rfl⟩
        · next hne =>
          obtain ⟨-, hpair, -⟩ := List.pairwise_append.mp hsecond
          have hle := hhead second rfl
          rw [if_neg]
          · refine ih hrest hpair ?_ ?_ fun x hx => hlow x (List.mem_cons_of_mem _ hx)
            · cases firsts with
              | nil =>
                rw [List.getLast?_singleton, Option.some.injEq] at hlast
                subst hlast
                rcases List.mem_cons.mp hmem with heq | hin
                · exact absurd heq hne
                · exact absurd ((List.pairwise_cons.mp hpair).1 _ hin) (not_lt.mpr hle)
              | cons _ _ => rwa [List.getLast?_cons_cons] at hlast
            · rwa [List.getLast?_append, List.getLast?_cons, Option.some_or,
                ← List.getLast?_cons] at hlast'
          · -- The first walker is not on its last element: that one is also the other's.
            rintro rfl
            rw [List.getLast?_singleton, Option.some.injEq] at hlast
            subst hlast
            rcases List.mem_cons.mp hmem with heq | hin
            · exact hne heq
            · exact absurd ((List.pairwise_cons.mp hpair).1 _ hin) (not_lt.mpr hle)

end Meet

end Descent
