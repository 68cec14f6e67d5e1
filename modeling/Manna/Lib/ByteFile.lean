import Mathlib.Data.List.Basic

/-!
Files as byte strings.

`Holds content p bytes` says that the file has these bytes from a position on. A write puts bytes
at a position; where the file is shorter, zeros come between.

* `holds_write`: what was written is there;
* `Holds.write`, `Holds.truncate`: bytes that are not touched stay.
-/

namespace ByteFile

/-- The file has these bytes at a position. -/
def Holds (content : List UInt8) (p : Nat) (bytes : List UInt8) : Prop := bytes <+: content.drop p

/-- Bytes put at a position. -/
def write (p : Nat) (bytes content : List UInt8) : List UInt8 :=
  content.take p ++ List.replicate (p - content.length) 0 ++ (bytes ++ content.drop (p + bytes.length))

variable {content bytes : List UInt8} {p : Nat}

theorem length_gap (p : Nat) (content : List UInt8) :
    (content.take p ++ List.replicate (p - content.length) 0).length = p := by
  rw [List.length_append, List.length_take, List.length_replicate]
  omega

theorem drop_write : (write p bytes content).drop p = bytes ++ content.drop (p + bytes.length) := by
  rw [write, List.drop_left' (length_gap p content)]

/-- **What was written is there.** -/
theorem holds_write (p : Nat) (bytes content : List UInt8) : Holds (write p bytes content) p bytes := by
  rw [Holds, drop_write]
  exact List.prefix_append _ _

theorem write_append {before old after : List UInt8} (hp : before.length = p)
    (hlen : old.length = bytes.length) :
    write p bytes (before ++ (old ++ after)) = before ++ (bytes ++ after) := by
  have hgap : p - (before ++ (old ++ after)).length = 0 := by
    rw [List.length_append]
    omega
  have hdrop : (before ++ (old ++ after)).drop (p + bytes.length) = after := by
    rw [← List.append_assoc]
    exact List.drop_left' (by rw [List.length_append]; omega)
  rw [write, List.take_left' hp, hgap, List.replicate_zero, List.append_nil, hdrop]

theorem Holds.of_append {before : List UInt8} (h : Holds content p (before ++ bytes)) :
    Holds content (p + before.length) bytes := by
  obtain ⟨rest, heq⟩ := h
  refine ⟨rest, ?_⟩
  rw [← List.drop_drop, ← heq, List.append_assoc, List.drop_left]

theorem Holds.le_length (h : Holds content p bytes) (hne : bytes ≠ []) :
    p + bytes.length ≤ content.length := by
  have hle := h.length_le
  have hpos := List.length_pos_of_ne_nil hne
  rw [List.length_drop] at hle
  omega

theorem Holds.of_take (h : Holds content p bytes) {content' : List UInt8}
    (heq : content'.take (p + bytes.length) = content.take (p + bytes.length)) : Holds content' p bytes := by
  have htake : ∀ l : List UInt8, (l.drop p).take bytes.length = (l.take (p + bytes.length)).drop p := by
    intro l
    rw [List.drop_take, Nat.add_sub_cancel_left]
  rw [Holds, List.prefix_iff_eq_take] at h ⊢
  rw [htake, heq, ← htake]
  exact h

/-- **Bytes that a write does not touch stay.** -/
theorem Holds.write (h : Holds content p bytes) (hne : bytes ≠ []) {q : Nat} {bytes' : List UInt8}
    (hapart : p + bytes.length ≤ q ∨ q + bytes'.length ≤ p) : Holds (write q bytes' content) p bytes := by
  rcases hapart with hbefore | hafter
  · refine h.of_take ?_
    have hlen := h.le_length hne
    have hgap : p + bytes.length ≤ (content.take q ++ List.replicate (q - content.length) 0).length := by
      rw [length_gap]
      exact hbefore
    rw [ByteFile.write, List.take_append_of_le_length hgap, List.take_append_of_le_length ?_,
      List.take_take, Nat.min_eq_left hbefore]
    rw [List.length_take]
    omega
  · obtain ⟨k, rfl⟩ := Nat.exists_eq_add_of_le hafter
    have hdrop : (ByteFile.write q bytes' content).drop (q + bytes'.length + k) =
        content.drop (q + bytes'.length + k) := by
      rw [Nat.add_assoc, ← List.drop_drop, drop_write, ← List.drop_drop, List.drop_left, List.drop_drop,
        Nat.add_assoc]
    rw [Holds, hdrop]
    exact h

theorem Holds.truncate (h : Holds content p bytes) {n : Nat} (hle : p + bytes.length ≤ n) :
    Holds (content.take n) p bytes := by
  refine h.of_take ?_
  rw [List.take_take, Nat.min_eq_left hle]

end ByteFile
