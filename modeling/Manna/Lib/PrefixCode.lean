import Manna.Lib.Codec

/-!
Codes of which none starts another.

`Separates D write` says that a value in `D` is known from any byte string that starts with its
code, and so is what follows. A code that can be read back separates (`Reads.separates`); the
codes of the parts of a value, written one after the other, separate the value.

* `Separates.append`, `Separates.flatMap`: parts in sequence.
-/

namespace Codec

variable {α β : Type}

/-- **None of the codes starts another.** -/
def Separates (D : α → Prop) (write : α → List UInt8) : Prop :=
  ∀ ⦃a b⦄, D a → D b → ∀ ⦃s t⦄, write a ++ s = write b ++ t → a = b ∧ s = t

variable {D D' : α → Prop} {E : β → Prop} {write : α → List UInt8} {write' : β → List UInt8}

theorem Separates.mono (h : Separates D write) (hD : ∀ a, D' a → D a) : Separates D' write :=
  fun _ _ ha hb => h (hD _ ha) (hD _ hb)

theorem Separates.of_reads {p : Reader α} (h : ∀ a, D a → Reads p (write a) a) : Separates D write := by
  intro a b ha hb s t heq
  have hread := h a ha s
  rw [heq, h b hb t] at hread
  cases hread
  exact ⟨rfl, rfl⟩

/-- **Two parts in sequence.** -/
theorem Separates.append (h : Separates D write) (h' : Separates E write') :
    Separates (fun p : α × β => D p.1 ∧ E p.2) fun p => write p.1 ++ write' p.2 := by
  rintro ⟨a, b⟩ ⟨a', b'⟩ ⟨ha, hb⟩ ⟨ha', hb'⟩ s t heq
  rw [List.append_assoc, List.append_assoc] at heq
  obtain ⟨hfirst, heq⟩ := h ha ha' heq
  obtain ⟨hsecond, heq⟩ := h' hb hb' heq
  exact ⟨Prod.ext hfirst hsecond, heq⟩

theorem Separates.comap {f : β → α} (h : Separates D write) (hf : Function.Injective f) :
    Separates (fun b => D (f b)) fun b => write (f b) := by
  intro b b' hb hb' s t heq
  obtain ⟨hval, hrest⟩ := h hb hb' heq
  exact ⟨hf hval, hrest⟩

/-- **Lists of one length.** -/
theorem Separates.flatMap (h : Separates D write) {l l' : List α} (hl : ∀ a ∈ l, D a)
    (hl' : ∀ a ∈ l', D a) (hlen : l.length = l'.length) {s t : List UInt8}
    (heq : l.flatMap write ++ s = l'.flatMap write ++ t) : l = l' ∧ s = t := by
  induction l generalizing l' with
  | nil =>
    obtain rfl : l' = [] := List.length_eq_zero_iff.mp hlen.symm
    exact ⟨rfl, heq⟩
  | cons a l ih =>
    cases l' with
    | nil => cases hlen
    | cons b l' =>
      rw [List.flatMap_cons, List.flatMap_cons, List.append_assoc, List.append_assoc] at heq
      obtain ⟨rfl, hrest⟩ := h (hl a List.mem_cons_self) (hl' b List.mem_cons_self) heq
      obtain ⟨rfl, hend⟩ := ih (fun c hc => hl c (List.mem_cons_of_mem a hc))
        (fun c hc => hl' c (List.mem_cons_of_mem a hc)) (Nat.succ.inj hlen) hrest
      exact ⟨rfl, hend⟩

end Codec
