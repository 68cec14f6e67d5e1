import Manna.Lib.Codec

/-!
Values one after the other in a byte stream that grows.

A framing is a reader that takes at least a byte and does not look beyond what it takes. The values of
a stream are then determined by its bytes, and more bytes only add values at the end.

* `Takes`: readers of a fixed number of bytes;
* `Framing.values_append`: the values of the first bytes stay the first values;
* `Framing.values_flatMap`: what was written is what is read.
-/

namespace Codec

variable {α β : Type} {p : Reader α}

/-! ### Readers of a fixed size -/

/-- The reader takes so many bytes, whatever they are. -/
def Takes (p : Reader α) (n : Nat) : Prop :=
  ∃ f : List UInt8 → α, ∀ s, p s = if s.length < n then none else some (f (s.take n), s.drop n)

theorem takes_pure (a : α) : Takes (pure a) 0 := by
  refine ⟨fun _ => a, fun s => ?_⟩
  rw [if_neg (Nat.not_lt_zero _)]
  rfl

theorem takes_bytes (n : Nat) : Takes (bytes n) n := ⟨id, fun _ => rfl⟩

theorem bytes_eq_some_iff {n : Nat} {s b rest : List UInt8} :
    bytes n s = some (b, rest) ↔ b.length = n ∧ s = b ++ rest := by
  constructor
  · intro h
    rw [bytes] at h
    split at h
    · cases h
    · next hlen =>
      obtain ⟨rfl, rfl⟩ := Prod.mk.inj (Option.some.inj h)
      rw [List.length_take, List.take_append_drop]
      exact ⟨Nat.min_eq_left (Nat.le_of_not_lt hlen), rfl⟩
  · rintro ⟨rfl, rfl⟩
    exact reads_bytes b rest

theorem takes_byte : Takes byte 1 := by
  refine ⟨fun s => s.headD 0, fun s => ?_⟩
  cases s with
  | nil => rfl
  | cons b s => simp [byte]

theorem Takes.bind {n m : Nat} {q : α → Reader β} (hp : Takes p n) (hq : ∀ a, Takes (q a) m) :
    Takes (p >>= q) (n + m) := by
  obtain ⟨f, hf⟩ := hp
  choose g hg using hq
  refine ⟨fun s => g (f (s.take n)) (s.drop n), fun s => ?_⟩
  change (p s).bind (fun out => q out.1 out.2) = _
  rw [hf s]
  by_cases hn : s.length < n
  · rw [if_pos hn, if_pos (Nat.lt_of_lt_of_le hn (Nat.le_add_right n m))]
    rfl
  · have htake : (s.take (n + m)).take n = s.take n := by
      rw [List.take_take, Nat.min_eq_left (Nat.le_add_right n m)]
    have hrest : (s.take (n + m)).drop n = (s.drop n).take m := by
      rw [List.drop_take, Nat.add_sub_cancel_left]
    have hlength : (s.drop n).length < m ↔ s.length < n + m := by
      rw [List.length_drop]
      omega
    rw [if_neg hn, Option.bind_some, hg]
    simp only [htake, hrest, hlength, List.drop_drop]

theorem takes_readLittleEndian (k : Nat) : Takes (readLittleEndian k) k := by
  induction k with
  | zero => exact takes_pure 0
  | succ k ih =>
    have hlength : k + 1 = 1 + (k + 0) := Nat.add_comm k 1
    have hread := takes_byte.bind fun b => ih.bind fun n => takes_pure (b.toNat + 256 * n)
    rw [← hlength] at hread
    exact hread

theorem Takes.exists_of_length {n : Nat} (h : Takes p n) {s : List UInt8} (hs : s.length = n) :
    ∃ a, p s = some (a, []) := by
  obtain ⟨f, hf⟩ := h
  refine ⟨f (s.take n), ?_⟩
  rw [hf, if_neg (Nat.not_lt.mpr (Nat.le_of_eq hs.symm)), List.drop_of_length_le (Nat.le_of_eq hs)]

/-! ### Framings -/

/-- **A framing.** -/
structure Framing (p : Reader α) : Prop where
  shrinks {s rest : List UInt8} {a : α} : p s = some (a, rest) → rest.length < s.length
  stable {s rest : List UInt8} {a : α} (t : List UInt8) : p s = some (a, rest) → p (s ++ t) = some (a, rest ++ t)

/-- The values that are read until the reader fails, so many at most. -/
def valuesUpTo (p : Reader α) : Nat → List UInt8 → List α
  | 0, _ => []
  | fuel + 1, s =>
    match p s with
    | none => []
    | some (a, rest) => a :: valuesUpTo p fuel rest

def values (p : Reader α) (s : List UInt8) : List α := valuesUpTo p s.length s

namespace Framing

variable (h : Framing p) {s rest : List UInt8} {a : α}

include h

theorem valuesUpTo_eq {fuel : Nat} (hfuel : s.length ≤ fuel) : valuesUpTo p fuel s = values p s := by
  have hsame : ∀ fuel fuel' s, s.length ≤ fuel → s.length ≤ fuel' → valuesUpTo p fuel s = valuesUpTo p fuel' s := by
    intro fuel
    induction fuel with
    | zero =>
      intro fuel' s hs _
      obtain rfl := List.length_eq_zero_iff.mp (Nat.le_zero.mp hs)
      cases fuel' with
      | zero => rfl
      | succ fuel' =>
        cases hread : p [] with
        | none => simp [valuesUpTo, hread]
        | some out => exact absurd (h.shrinks hread) (Nat.not_lt_zero _)
    | succ fuel ih =>
      intro fuel' s hs hs'
      cases hread : p s with
      | none => cases fuel' <;> simp [valuesUpTo, hread]
      | some out =>
        have hlt := h.shrinks hread
        cases fuel' with
        | zero => omega
        | succ fuel' =>
          simp only [valuesUpTo, hread]
          rw [ih fuel' out.2 (by omega) (by omega)]
  exact hsame _ _ _ hfuel (Nat.le_refl _)

theorem values_of_some (hread : p s = some (a, rest)) : values p s = a :: values p rest := by
  have hlt := h.shrinks hread
  obtain ⟨fuel, hfuel⟩ : ∃ fuel, s.length = fuel + 1 := ⟨s.length - 1, by omega⟩
  rw [values, hfuel, valuesUpTo, hread]
  simp only
  rw [h.valuesUpTo_eq (by omega)]

omit h in
theorem values_of_none (hread : p s = none) : values p s = [] := by
  rw [values]
  cases s.length with
  | zero => rfl
  | succ fuel => simp [valuesUpTo, hread]

/-- **More bytes only add values.** -/
theorem values_append (s t : List UInt8) : values p s <+: values p (s ++ t) := by
  induction hlen : s.length using Nat.strong_induction_on generalizing s with
  | _ n ih =>
    cases hread : p s with
    | none =>
      rw [values_of_none hread]
      exact List.nil_prefix
    | some out =>
      have hlt := h.shrinks hread
      rw [h.values_of_some hread, h.values_of_some (h.stable t hread), List.cons_prefix_cons]
      exact ⟨rfl, ih out.2.length (by omega) out.2 rfl⟩

/-- **What was written is what is read.** -/
theorem values_flatMap {w : α → List UInt8} {l : List α} (hl : ∀ a ∈ l, Reads p (w a) a) (rest : List UInt8) :
    values p (l.flatMap w ++ rest) = l ++ values p rest := by
  induction l with
  | nil => rfl
  | cons a l ih =>
    rw [List.forall_mem_cons] at hl
    rw [List.flatMap_cons, List.append_assoc, h.values_of_some (hl.1 _), ih hl.2, List.cons_append]

end Framing

end Codec
