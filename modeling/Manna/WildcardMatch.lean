import Manna.Lib.Decimal
import Manna.Lib.Wildcard

/-!
Wildcard masks (`util.cpp`: `WildcardMatch`) and the addresses that may call the RPC server
(`mannarpc.cpp`: `ClientAllowed`).

A pointer is the rest of the memory it points into, which ends somewhere behind the terminator.

* `clientAllowed_decides`: the addresses that are let in.
-/

namespace Manna

open Decimal (cStr)

/-! ### The matcher -/

/-- What may go wrong: the calls do not end, or a pointer is read behind the memory it points into. -/
inductive MatchFault where
  | outOfFuel
  | pastEnd
deriving DecidableEq

/-- `*p`. -/
def deref : List UInt8 → Except MatchFault UInt8
  | [] => .error .pastEnd
  | c :: _ => .ok c

/-- `WildcardMatch`; a further round of its loop is a call. -/
def wildcardMatch : Nat → List UInt8 → List UInt8 → Except MatchFault Bool
  | 0, _, _ => .error .outOfFuel
  | fuel + 1, psz, mask => do
    let c ← deref mask
    if c = 0 then
      return (← deref psz) = 0
    else if c = 42 then -- '*'
      if ← wildcardMatch fuel psz mask.tail then
        return true
      else if (← deref psz) ≠ 0 then
        wildcardMatch fuel psz.tail mask
      else
        return false
    else if c = 63 then -- '?'
      if (← deref psz) = 0 then
        return false
      else
        wildcardMatch fuel psz.tail mask.tail
    else
      if (← deref psz) ≠ c then
        return false
      else
        wildcardMatch fuel psz.tail mask.tail

def c_str (str : List UInt8) : List UInt8 := str ++ [0]

/-- `WildcardMatch` of two strings, with fuel for their lengths. -/
def wildcardMatchStr (str mask : List UInt8) : Except MatchFault Bool :=
  wildcardMatch (str.length + mask.length + 1) (c_str str) (c_str mask)

/-- What a character of a mask stands for. -/
def maskToken (c : UInt8) : Wildcard.Token UInt8 :=
  if c = 42 then .any else if c = 63 then .one else .lit c

/-- The strings that a mask stands for. -/
def maskLanguage (mask : List UInt8) : Language UInt8 := Wildcard.language (mask.map maskToken)

variable {s mask : List UInt8} {c x : UInt8}

theorem mem_maskLanguage_nil : s ∈ maskLanguage [] ↔ s = [] := Wildcard.mem_nil

theorem mem_maskLanguage_any : s ∈ maskLanguage (42 :: mask) ↔
      s ∈ maskLanguage mask ∨ ∃ x t, s = x :: t ∧ t ∈ maskLanguage (42 :: mask) :=
  Wildcard.mem_any_cons

theorem mem_maskLanguage_one : s ∈ maskLanguage (63 :: mask) ↔ ∃ x t, s = x :: t ∧ t ∈ maskLanguage mask :=
  Wildcard.mem_one_cons

theorem mem_maskLanguage_lit (hany : c ≠ 42) (hone : c ≠ 63) :
    s ∈ maskLanguage (c :: mask) ↔ ∃ t, s = c :: t ∧ t ∈ maskLanguage mask := by
  rw [maskLanguage, List.map_cons, maskToken, if_neg hany, if_neg hone]
  exact Wildcard.mem_lit_cons

/-! ### Every round -/

section Rounds

variable {fuel : Nat} {psz m : List UInt8} {b : Bool}

theorem wildcardMatch_end (hc : deref psz = .ok c) :
    wildcardMatch (fuel + 1) psz (0 :: m) = .ok (decide (c = 0)) := by
  rw [wildcardMatch, hc]
  rfl

/-- At `*`: the rest of the mask is tried here. -/
theorem wildcardMatch_any (h : wildcardMatch fuel psz m = .ok b) :
    wildcardMatch (fuel + 1) psz (42 :: m) = if b then .ok true
      else do if (← deref psz) ≠ 0 then wildcardMatch fuel psz.tail (42 :: m) else return false := by
  rw [wildcardMatch, List.tail_cons, h]
  cases b <;> rfl

theorem wildcardMatch_one (hc : deref psz = .ok c) :
    wildcardMatch (fuel + 1) psz (63 :: m) = if c = 0 then .ok false else wildcardMatch fuel psz.tail m := by
  rw [wildcardMatch, hc]
  rfl

theorem wildcardMatch_lit (hx : x ≠ 0) (hany : x ≠ 42) (hone : x ≠ 63) (hc : deref psz = .ok c) :
    wildcardMatch (fuel + 1) psz (x :: m) = if c ≠ x then .ok false else wildcardMatch fuel psz.tail m := by
  rw [wildcardMatch, hc, deref]
  change (if x = 0 then _ else if x = 42 then _ else if x = 63 then _ else _) = _
  rw [if_neg hx, if_neg hany, if_neg hone]
  rfl

end Rounds

/-- The result is there, and tells whether `P` holds. -/
def Decides (result : Except MatchFault Bool) (P : Prop) : Prop :=
  ∃ b, result = .ok b ∧ (b = true ↔ P)

/-- **The matcher stops, reads no further than the terminators, and decides the language of the mask.** -/
theorem wildcardMatch_decides {s mask : List UInt8} (rest rest' : List UInt8) {fuel : Nat} (hs : 0 ∉ s)
    (hmask : 0 ∉ mask) (hfuel : s.length + mask.length < fuel) :
    Decides (wildcardMatch fuel (s ++ 0 :: rest) (mask ++ 0 :: rest')) (s ∈ maskLanguage mask) := by
  induction fuel generalizing s mask with
  | zero => omega
  | succ fuel ih =>
    cases mask with
    | nil =>
      cases s with
      | nil =>
        exact ⟨true, (wildcardMatch_end (c := 0) rfl).trans rfl, by simp [mem_maskLanguage_nil]⟩
      | cons x s =>
        have hx : x ≠ 0 := fun heq => hs (heq ▸ List.mem_cons_self ..)
        refine ⟨false, (wildcardMatch_end rfl).trans (by simp [hx]), by simp [mem_maskLanguage_nil]⟩
    | cons c mask =>
      rw [List.mem_cons, not_or] at hmask
      rw [List.length_cons] at hfuel
      by_cases hany : c = 42
      · subst hany
        obtain ⟨b, hb, hbiff⟩ := ih hs hmask.2 (by omega)
        rw [List.cons_append, wildcardMatch_any hb, mem_maskLanguage_any]
        cases b with
        | true => exact ⟨true, rfl, by simp [hbiff.mp rfl]⟩
        | false =>
          have hnot : s ∉ maskLanguage mask := fun hmem => Bool.false_ne_true (hbiff.mpr hmem)
          cases s with
          | nil => exact ⟨false, rfl, by simp [hnot]⟩
          | cons x s =>
            rw [List.mem_cons, not_or] at hs
            rw [List.length_cons] at hfuel
            obtain ⟨b', hb', hbiff'⟩ := ih hs.2
              (show 0 ∉ 42 :: mask by simpa using hmask.2) (by rw [List.length_cons]; omega)
            refine ⟨b', ?_, by rw [hbiff']; simp [hnot]⟩
            rw [← hb']
            exact if_pos (Ne.symm hs.1)
      · by_cases hone : c = 63
        · subst hone
          cases s with
          | nil =>
            exact ⟨false, (wildcardMatch_one (c := 0) rfl).trans (if_pos rfl), by simp [mem_maskLanguage_one]⟩
          | cons x s =>
            rw [List.mem_cons, not_or] at hs
            rw [List.length_cons] at hfuel
            obtain ⟨b, hb, hbiff⟩ := ih hs.2 hmask.2 (by omega)
            refine ⟨b, ?_, by rw [hbiff, mem_maskLanguage_one]; simp⟩
            rw [← hb]
            exact (wildcardMatch_one rfl).trans (if_neg (Ne.symm hs.1))
        · have hc : c ≠ 0 := Ne.symm hmask.1
          rw [mem_maskLanguage_lit hany hone]
          cases s with
          | nil =>
            exact ⟨false, (wildcardMatch_lit hc hany hone rfl).trans (if_pos hmask.1), by simp⟩
          | cons x s =>
            rw [List.mem_cons, not_or] at hs
            rw [List.length_cons] at hfuel
            by_cases hx : x = c
            · subst hx
              obtain ⟨b, hb, hbiff⟩ := ih hs.2 hmask.2 (by omega)
              refine ⟨b, ?_, by rw [hbiff]; simp⟩
              rw [← hb]
              exact (wildcardMatch_lit hc hany hone rfl).trans (if_neg (not_not.mpr rfl))
            · exact ⟨false, (wildcardMatch_lit hc hany hone rfl).trans (if_pos hx), by simp [hx]⟩

theorem c_str_eq (str : List UInt8) : ∃ rest, c_str str = cStr str ++ 0 :: rest := by
  rw [c_str, cStr]
  induction str with
  | nil => exact ⟨[], rfl⟩
  | cons c str ih =>
    obtain ⟨rest, hrest⟩ := ih
    by_cases hc : c = 0
    · subst hc
      exact ⟨str ++ [0], rfl⟩
    · refine ⟨rest, ?_⟩
      rw [List.takeWhile_cons_of_pos (by simpa using hc), List.cons_append, List.cons_append, hrest]

theorem zero_notMem_cStr (str : List UInt8) : 0 ∉ cStr str := fun h => by
  simpa using List.mem_takeWhile_imp h

theorem wildcardMatchStr_decides (str mask : List UInt8) :
    Decides (wildcardMatchStr str mask) (cStr str ∈ maskLanguage (cStr mask)) := by
  obtain ⟨rest, hrest⟩ := c_str_eq str
  obtain ⟨rest', hrest'⟩ := c_str_eq mask
  have hstr := (List.takeWhile_sublist (p := (· ≠ (0 : UInt8))) (l := str)).length_le
  have hmask := (List.takeWhile_sublist (p := (· ≠ (0 : UInt8))) (l := mask)).length_le
  rw [wildcardMatchStr, hrest, hrest']
  refine wildcardMatch_decides rest rest' (zero_notMem_cStr str) (zero_notMem_cStr mask) ?_
  rw [cStr, cStr]
  omega

/-! ### `-rpcallowip` -/

/-- `boost::asio::ip::address`. -/
inductive Address (V6 : Type) where
  | v4 (address : UInt32)
  | v6 (address : V6)
deriving DecidableEq

/-- What the library does with addresses. -/
structure Asio (V6 : Type) where
  loopback : V6
  is_v4_compatible : V6 → Bool
  is_v4_mapped : V6 → Bool
  to_v4 : V6 → UInt32
  to_string : Address V6 → List UInt8

section ClientAllowed

variable {V6 : Type} [DecidableEq V6] (asio : Asio V6)

/-- The address as an IPv4 address, if it stands for one. -/
def Asio.toV4 : Address V6 → Address V6
  | .v4 address => .v4 address
  | .v6 address =>
    if asio.is_v4_compatible address || asio.is_v4_mapped address then .v4 (asio.to_v4 address)
    else .v6 address

def Asio.isLoopback : Address V6 → Bool
  | .v4 address => address = 0x7f000001 || address &&& 0xff000000 = 0x7f000000
  | .v6 address => address = asio.loopback

/-- `ClientAllowed`, with `mapMultiArgs["-rpcallowip"]`. -/
def clientAllowed (vAllow : List (List UInt8)) (address : Address V6) : Except MatchFault Bool :=
  let address := asio.toV4 address
  if asio.isLoopback address then return true
  else
    let strAddress := asio.to_string address
    vAllow.anyM fun strAllow => wildcardMatchStr strAddress strAllow

variable {asio}

theorem anyM_decides {α : Type} {test : α → Except MatchFault Bool} {P : α → Prop} {l : List α}
    (h : ∀ a ∈ l, Decides (test a) (P a)) : Decides (l.anyM test) (∃ a ∈ l, P a) := by
  induction l with
  | nil => exact ⟨false, rfl, by simp⟩
  | cons a l ih =>
    rw [List.forall_mem_cons] at h
    obtain ⟨b, hb, hbiff⟩ := h.1
    rw [List.anyM, hb]
    cases b with
    | true => exact ⟨true, rfl, by simp [hbiff.mp rfl]⟩
    | false =>
      have hnot : ¬ P a := fun ha => Bool.false_ne_true (hbiff.mpr ha)
      obtain ⟨b', hb', hbiff'⟩ := ih h.2
      exact ⟨b', hb', by simp [hnot, hbiff']⟩

/-- **The setting lets in the addresses that a mask stands for, besides the loopback interface.** -/
theorem clientAllowed_decides (vAllow : List (List UInt8)) (address : Address V6) :
    Decides (clientAllowed asio vAllow address) (asio.isLoopback (asio.toV4 address) ∨
        ∃ strAllow ∈ vAllow, cStr (asio.to_string (asio.toV4 address)) ∈ maskLanguage (cStr strAllow)) := by
  by_cases loopback : asio.isLoopback (asio.toV4 address) = true
  · exact ⟨true, if_pos loopback, by simp [loopback]⟩
  · obtain ⟨b, hb, hbiff⟩ := anyM_decides (l := vAllow) fun strAllow _ =>
      wildcardMatchStr_decides (asio.to_string (asio.toV4 address)) strAllow
    exact ⟨b, (if_neg loopback).trans hb, by rw [hbiff]; simp [loopback]⟩

/-- **Masks denote their languages, and the setting lets in what its masks denote.** -/
theorem wildcardMatch_clientAllowed (asio : Asio V6) :
    (∀ (s mask rest rest' : List UInt8) (fuel : Nat), 0 ∉ s → 0 ∉ mask → s.length + mask.length < fuel →
      Decides (wildcardMatch fuel (s ++ 0 :: rest) (mask ++ 0 :: rest')) (s ∈ maskLanguage mask)) ∧
    ∀ (vAllow : List (List UInt8)) (address : Address V6),
      Decides (clientAllowed asio vAllow address)
        (asio.isLoopback (asio.toV4 address) ∨ ∃ strAllow ∈ vAllow,
          cStr (asio.to_string (asio.toV4 address)) ∈ maskLanguage (cStr strAllow)) :=
  ⟨fun _ _ rest rest' _ hs hmask hfuel => wildcardMatch_decides rest rest' hs hmask hfuel,
    clientAllowed_decides⟩

/-- The mask `a?c*` and the string `abcde`; the setting `10.*` and the address 10.1.2.3. -/
theorem wildcardMatch_clientAllowed_sample :
    ([97, 98, 99, 100, 101] : List UInt8) ∈ maskLanguage [97, 63, 99, 42] ∧
      ([49, 48, 46, 49, 46, 50, 46, 51] : List UInt8) ∈ maskLanguage [49, 48, 46, 42] := by
  let asio : Asio Unit :=
    ⟨(), fun _ => false, fun _ => false, fun _ => 0, fun _ => [49, 48, 46, 49, 46, 50, 46, 51]⟩
  constructor
  · obtain ⟨b, hb, hbiff⟩ := (wildcardMatch_clientAllowed asio).1 [97, 98, 99, 100, 101] [97, 63, 99, 42] [] []
      10 (by decide) (by decide) (by decide)
    have result : wildcardMatch 10 ([97, 98, 99, 100, 101] ++ 0 :: []) ([97, 63, 99, 42] ++ 0 :: []) =
        .ok true := by decide
    exact hbiff.mp (Except.ok.inj (hb.symm.trans result))
  · obtain ⟨b, hb, hbiff⟩ := (wildcardMatch_clientAllowed asio).2 [[49, 48, 46, 42]] (.v4 0x0a010203)
    have result : clientAllowed asio [[49, 48, 46, 42]] (.v4 0x0a010203) = .ok true := by decide
    rcases hbiff.mp (Except.ok.inj (hb.symm.trans result)) with loopback | ⟨strAllow, hmem, hlanguage⟩
    · exact absurd loopback (by decide)
    · obtain rfl := List.mem_singleton.mp hmem
      exact hlanguage

end ClientAllowed

end Manna
