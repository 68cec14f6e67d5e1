import Manna.AddrMan
import Manna.Lib.Decimal
import Manna.Validation

/-!
Hosts and ports as text (`netbase.cpp`: `SplitHostPort`, `CNetAddr::ToStringIP`,
`CService::ToStringIPPort`; `util.cpp`: `EncodeBase32`).

The number behind the separating colon goes through `strtol` into an `int`: its low word is taken, and what
`strtol` lets pass before and behind it.

* `splitsAsWritten_iff`: which texts give a port that is not written there;
* `splitHostPort_toStringIPPort`: an address is split as it was put together.
-/

namespace Manna

open Codec Decimal

namespace HostPort

/-! ### SplitHostPort -/

def splitLastColon : List UInt8 → Option (List UInt8 × List UInt8)
  | [] => none
  | c :: str =>
    match splitLastColon str with
    | some (host, text) => some (c :: host, text)
    | none => if c = 58 then some ([], str) else none

/-- Where `strtol` stops in a C string: at its begin, if there are no digits. -/
def strtolEnd (str : List UInt8) : List UInt8 :=
  let p := str.dropWhile isSpace
  let p := match p with
    | 45 :: p => p
    | 43 :: p => p
    | p => p
  if p.takeWhile isDigit = [] then str else p.dropWhile isDigit

/-- `strtol` with base ten: the value and `endp`. -/
def strtol (str : List UInt8) : Int × List UInt8 := (parseInt int64Min int64Max str, strtolEnd str)

def isBracketed (str : List UInt8) : Bool := str.head? == some 91 && str.getLast? == some 93

/-- The text before the last colon is the host: nothing, or in brackets, or without another colon. -/
def isHost (host : List UInt8) : Bool := host.isEmpty || isBracketed host || !host.any (· == 58)

/-- The end of `SplitHostPort`: brackets are taken off. -/
def unbracket (str : List UInt8) : List UInt8 := if isBracketed str then str.tail.dropLast else str

/-- `SplitHostPort`: what `portOut` is set to, if it is, and `hostOut`. -/
def splitHostPort (str : List UInt8) : Option Int × List UInt8 :=
  match splitLastColon str with
  | none => (none, unbracket str)
  | some (host, text) =>
    if isHost host then
      let (value, endp) := strtol (cStr text)
      let n := value.bmod (2 ^ 32)
      if endp = [] ∧ n ≥ 0 then (if n > 0 ∧ n < 0x10000 then some n else none, unbracket host)
      else (none, unbracket str)
    else (none, unbracket str)

def Separates (str host text : List UInt8) : Prop := splitLastColon str = some (host, text) ∧ isHost host

def IsPort (text : List UInt8) : Prop :=
  text ≠ [] ∧ (∀ c ∈ text, isDigit c = true) ∧ 1 ≤ value text ∧ value text ≤ 65535

/-- **Split as written**: the port is changed only if a numeral of a port is behind the separating colon, and
then to its value; the host is the rest without brackets. -/
def SplitsAsWritten (str : List UInt8) : Prop :=
  ∀ n, (splitHostPort str).1 = some n → ∃ host text, Separates str host text ∧ IsPort text ∧
    n = value text ∧ (splitHostPort str).2 = unbracket host

/-- What `strtol` reads whole: white space, perhaps a sign, digits, and perhaps a zero byte with anything
behind it. -/
structure Taken (text blanks sign digits tail : List UInt8) : Prop where
  text : text = blanks ++ (sign ++ (digits ++ tail))
  blanks : ∀ c ∈ blanks, isSpace c = true
  sign : sign = [] ∨ sign = [43] ∨ sign = [45]
  nonempty : digits ≠ []
  digits : ∀ c ∈ digits, isDigit c = true
  tail : tail = [] ∨ tail.head? = some 0

/-- The low word of the number that `strtol` reads. -/
def lowWord (sign digits : List UInt8) : Int :=
  (if sign = [45] then max int64Min (-(value digits)) else min int64Max (value digits)).bmod (2 ^ 32)

/-- **A text is misread**: it has white space or a sign before the digits, or a zero byte behind them, or a
number beyond the ports, and the low word is a port. -/
def Misread (text : List UInt8) : Prop :=
  ∃ blanks sign digits tail, Taken text blanks sign digits tail ∧
    (1 ≤ lowWord sign digits ∧ lowWord sign digits ≤ 65535) ∧
    ¬ (blanks = [] ∧ sign = [] ∧ tail = [] ∧ value digits ≤ 65535)

theorem splitLastColon_eq_none {str : List UInt8} : splitLastColon str = none ↔ 58 ∉ str := by
  induction str with
  | nil => simp [splitLastColon]
  | cons c str ih =>
    rw [splitLastColon]
    cases hrest : splitLastColon str with
    | some out =>
      have hmem : 58 ∈ str := by
        by_contra hout
        rw [ih.mpr hout] at hrest
        cases hrest
      simp [hmem]
    | none =>
      have hout := ih.mp hrest
      by_cases hc : c = 58
      · simp [hc]
      · simp [hc, hout, Ne.symm hc]

/-- **The last colon** splits a text. -/
theorem splitLastColon_eq_some {str host text : List UInt8} :
    splitLastColon str = some (host, text) ↔ str = host ++ 58 :: text ∧ 58 ∉ text := by
  induction str generalizing host text with
  | nil => simp [splitLastColon]
  | cons c str ih =>
    rw [splitLastColon]
    cases hrest : splitLastColon str with
    | some out =>
      obtain ⟨first, last⟩ := out
      have hfirst := ih.mp hrest
      constructor
      · intro h
        cases h
        exact ⟨congrArg _ hfirst.1, hfirst.2⟩
      · rintro ⟨htext, hout⟩
        cases host with
        | nil =>
          cases htext
          exact absurd (hfirst.1 ▸ List.mem_append_right _ List.mem_cons_self) hout
        | cons d host =>
          obtain ⟨rfl, hstr⟩ := List.cons.inj htext
          have hsame := hrest.symm.trans (ih.mpr ⟨hstr, hout⟩)
          cases hsame
          rfl
    | none =>
      have hout := splitLastColon_eq_none.mp hrest
      constructor
      · intro h
        dsimp only at h
        split at h
        · next hc =>
          cases h
          exact ⟨hc ▸ rfl, hout⟩
        · cases h
      · rintro ⟨htext, -⟩
        cases host with
        | nil =>
          obtain ⟨rfl, rfl⟩ := List.cons.inj htext
          rfl
        | cons d host =>
          obtain ⟨-, rfl⟩ := List.cons.inj htext
          exact absurd (List.mem_append_right _ List.mem_cons_self) hout

/-! ### strtol -/

section Strtol

variable {text blanks sign digits tail : List UInt8}

theorem head_sign_digits (hsign : sign = [] ∨ sign = [43] ∨ sign = [45])
    (hdigits : ∀ c ∈ digits, isDigit c = true) : ∀ c ∈ (sign ++ digits).head?, isSpace c = false := by
  intro c hc
  rcases hsign with rfl | rfl | rfl
  · exact not_isSpace_of_isDigit (hdigits c (List.mem_of_mem_head? hc))
  · cases hc
    rfl
  · cases hc
    rfl

theorem dropWhile_blanks (hblanks : ∀ c ∈ blanks, isSpace c = true)
    (hsign : sign = [] ∨ sign = [43] ∨ sign = [45]) (hdigits : ∀ c ∈ digits, isDigit c = true) :
    (blanks ++ (sign ++ digits)).dropWhile isSpace = sign ++ digits := by
  rw [List.dropWhile_append_of_pos hblanks]
  exact dropWhile_isSpace_eq_self (head_sign_digits hsign hdigits)

/-- **`strtol` on a number.** -/
theorem strtol_number (hblanks : ∀ c ∈ blanks, isSpace c = true)
    (hsign : sign = [] ∨ sign = [43] ∨ sign = [45]) (hne : digits ≠ [])
    (hdigits : ∀ c ∈ digits, isDigit c = true) : strtol (blanks ++ (sign ++ digits)) =
      (if sign = [45] then max int64Min (-(value digits)) else min int64Max (value digits), []) := by
  have hdrop := dropWhile_blanks hblanks hsign hdigits
  have htake : digits.takeWhile isDigit = digits := List.takeWhile_eq_self_iff.mpr hdigits
  have hrest : digits.dropWhile isDigit = [] := List.dropWhile_eq_nil_iff.mpr hdigits
  have hparse := parseNat_eq_value hdigits
  unfold strtol strtolEnd parseInt
  rw [hdrop]
  rcases hsign with rfl | rfl | rfl
  · cases digits with
    | nil => exact absurd rfl hne
    | cons c digits =>
      have hc := hdigits c List.mem_cons_self
      have hminus : c ≠ 45 := by
        rintro rfl
        cases hc
      have hplus : c ≠ 43 := by
        rintro rfl
        cases hc
      simp [hminus, hplus, htake, hrest, hparse]
  · simp [htake, hrest, hparse, hne]
  · simp [htake, hrest, hparse, hne]

/-- What `strtol` reads up to the end is a number, or nothing. -/
theorem exists_of_strtolEnd {str : List UInt8} (h : strtolEnd str = []) :
    str = [] ∨ ∃ blanks sign digits, str = blanks ++ (sign ++ digits) ∧ (∀ c ∈ blanks, isSpace c = true) ∧
      (sign = [] ∨ sign = [43] ∨ sign = [45]) ∧ digits ≠ [] ∧ ∀ c ∈ digits, isDigit c = true := by
  have hsplit := (List.takeWhile_append_dropWhile (p := isSpace) (l := str)).symm
  have hblanks : ∀ c ∈ str.takeWhile isSpace, isSpace c = true := fun c hc => List.mem_takeWhile_imp hc
  have hend : ∀ sign p, str.dropWhile isSpace = sign ++ p → (sign = [] ∨ sign = [43] ∨ sign = [45]) →
      (if p.takeWhile isDigit = [] then str else p.dropWhile isDigit) = [] →
      str = [] ∨ ∃ blanks sign digits, str = blanks ++ (sign ++ digits) ∧
        (∀ c ∈ blanks, isSpace c = true) ∧ (sign = [] ∨ sign = [43] ∨ sign = [45]) ∧ digits ≠ [] ∧
        ∀ c ∈ digits, isDigit c = true := by
    intro sign p hp hsign hif
    split at hif
    · exact .inl hif
    · next hne =>
      have hdigits : ∀ c ∈ p, isDigit c = true := List.dropWhile_eq_nil_iff.mp hif
      refine .inr ⟨str.takeWhile isSpace, sign, p, hp ▸ hsplit, hblanks, hsign, ?_, hdigits⟩
      rintro rfl
      exact hne rfl
  unfold strtolEnd at h
  dsimp only at h
  split at h
  · next p hp => exact hend [45] p hp (.inr (.inr rfl)) h
  · next p hp => exact hend [43] p hp (.inr (.inl rfl)) h
  · exact hend [] _ rfl (.inl rfl) h

/-- The value that `SplitHostPort` gives a text, if it takes it for a port. -/
def portOf (text : List UInt8) : Option Int :=
  let (value, endp) := strtol (cStr text)
  let n := value.bmod (2 ^ 32)
  if endp = [] ∧ 1 ≤ n ∧ n ≤ 65535 then some n else none

theorem cStr_of_taken (h : Taken text blanks sign digits tail) : cStr text = blanks ++ (sign ++ digits) := by
  have hne : ∀ c ∈ blanks ++ (sign ++ digits), c ≠ 0 := by
    intro c hc
    rcases List.mem_append.mp hc with hc | hc
    · rintro rfl
      cases h.blanks 0 hc
    · rcases List.mem_append.mp hc with hc | hc
      · rcases h.sign with hsign | hsign | hsign <;> rw [hsign] at hc
        · cases hc
        · rw [List.mem_singleton.mp hc]
          decide
        · rw [List.mem_singleton.mp hc]
          decide
      · exact ne_zero_of_isDigit (h.digits c hc)
  have htail : tail.takeWhile (· ≠ 0) = [] := by
    rcases h.tail with rfl | hzero
    · rfl
    · cases tail with
      | nil => cases hzero
      | cons c tail =>
        cases hzero
        rfl
  rw [h.text, ← List.append_assoc, ← List.append_assoc, List.append_assoc blanks, cStr,
    List.takeWhile_append_of_pos fun c hc => decide_eq_true (hne c hc), htail, List.append_nil]

/-- **Which texts give a port**, and which one. -/
theorem portOf_eq_some_iff {n : Int} : portOf text = some n ↔
    ∃ blanks sign digits tail, Taken text blanks sign digits tail ∧ n = lowWord sign digits ∧ 1 ≤ n ∧
      n ≤ 65535 := by
  constructor
  · intro h
    unfold portOf at h
    dsimp only at h
    split at h
    · next hport =>
      obtain ⟨hend, hlow, hhigh⟩ := hport
      cases h
      rcases exists_of_strtolEnd hend with hnil | ⟨blanks, sign, digits, hstr, hblanks, hsign, hne, hdigits⟩
      · rw [hnil] at hlow
        exact absurd hlow (by decide)
      · refine ⟨blanks, sign, digits, text.dropWhile (· ≠ 0),
          ⟨?_, hblanks, hsign, hne, hdigits, ?_⟩, ?_, hlow, hhigh⟩
        · have hsplit := (List.takeWhile_append_dropWhile (p := fun c : UInt8 => decide (c ≠ 0)) (l := text)).symm
          rw [cStr] at hstr
          rw [hstr, List.append_assoc, List.append_assoc] at hsplit
          exact hsplit
        · cases hrest : text.dropWhile (· ≠ 0) with
          | nil => exact .inl rfl
          | cons c rest =>
            have hc := List.head?_dropWhile_not (fun c : UInt8 => decide (c ≠ 0)) text
            rw [hrest] at hc
            right
            simpa using hc
        · rw [hstr, strtol_number hblanks hsign hne hdigits, lowWord]
    · cases h
  · rintro ⟨blanks, sign, digits, tail, htaken, rfl, hlow, hhigh⟩
    unfold portOf
    rw [cStr_of_taken htaken, strtol_number htaken.blanks htaken.sign htaken.nonempty htaken.digits]
    exact if_pos ⟨rfl, hlow, hhigh⟩

end Strtol

/-! ### Which strings are split as written -/

/-- What `SplitHostPort` does at a separating colon. -/
theorem splitHostPort_of_separates {str host text : List UInt8} (h : Separates str host text) {n : Int} :
    (splitHostPort str).1 = some n ↔ portOf text = some n := by
  unfold splitHostPort portOf
  rw [h.1]
  dsimp only
  rw [if_pos h.2]
  generalize (strtol (cStr text)).1.bmod (2 ^ 32) = m
  by_cases hend : (strtol (cStr text)).2 = []
  · simp only [hend, true_and]
    by_cases hport : 1 ≤ m ∧ m ≤ 65535
    · rw [if_pos (show m ≥ 0 by omega), if_pos (show m > 0 ∧ m < 0x10000 by omega), if_pos hport]
    · rw [if_neg hport]
      split
      · rw [if_neg (show ¬ (m > 0 ∧ m < 0x10000) by omega)]
      · exact Iff.rfl
  · rw [if_neg (fun h => hend h.1), if_neg (fun h => hend h.1)]

theorem exists_separates {str : List UInt8} {n : Int} (h : (splitHostPort str).1 = some n) :
    ∃ host text, Separates str host text ∧ (splitHostPort str).2 = unbracket host := by
  unfold splitHostPort at h ⊢
  split at h
  · cases h
  · next host text hsplit =>
    split at h
    · next hhost =>
      refine ⟨host, text, ⟨hsplit, hhost⟩, ?_⟩
      dsimp only at h ⊢
      rw [if_pos hhost]
      split at h
      · next hend => rw [if_pos hend]
      · cases h
    · cases h

theorem lowWord_of_port {digits : List UInt8} (h : value digits ≤ 65535) :
    lowWord [] digits = value digits := by
  have hmax : min int64Max (value digits : Int) = value digits := by
    rw [int64Max]
    omega
  rw [lowWord, if_neg (by decide), hmax]
  exact Int.bmod_eq_of_le (by omega) (by omega)

theorem Taken.of_isPort {text blanks sign digits tail : List UInt8}
    (htaken : Taken text blanks sign digits tail) (h : ∀ c ∈ text, isDigit c = true) :
    blanks = [] ∧ sign = [] ∧ tail = [] := by
  rw [htaken.text] at h
  refine ⟨?_, ?_, ?_⟩
  · cases blanks with
    | nil => rfl
    | cons c blanks =>
      have hspace := htaken.blanks c List.mem_cons_self
      rw [not_isSpace_of_isDigit (h c List.mem_cons_self)] at hspace
      cases hspace
  · have hdigit : ∀ c ∈ sign, isDigit c = true := fun c hc =>
      h c (List.mem_append_right _ (List.mem_append_left _ hc))
    rcases htaken.sign with rfl | rfl | rfl
    · rfl
    · cases hdigit 43 List.mem_cons_self
    · cases hdigit 45 List.mem_cons_self
  · have hdigit : ∀ c ∈ tail, isDigit c = true := fun c hc =>
      h c (List.mem_append_right _ (List.mem_append_right _ (List.mem_append_right _ hc)))
    rcases htaken.tail with rfl | hzero
    · rfl
    · cases hdigit 0 (List.mem_of_mem_head? hzero)

/-- **Which strings are split as written**: those without a misread text behind the separating colon. -/
theorem splitsAsWritten_iff (str : List UInt8) :
    SplitsAsWritten str ↔ ∀ host text, Separates str host text → ¬ Misread text := by
  constructor
  · rintro h host text hsep ⟨blanks, sign, digits, tail, htaken, hport, hother⟩
    have hn := (splitHostPort_of_separates hsep).mpr
      (portOf_eq_some_iff.mpr ⟨blanks, sign, digits, tail, htaken, rfl, hport⟩)
    obtain ⟨host', text', hsep', ⟨-, hdigits, -, hhigh⟩, -, -⟩ := h _ hn
    cases hsep.1.symm.trans hsep'.1
    obtain ⟨rfl, rfl, rfl⟩ := htaken.of_isPort hdigits
    have htext : text = digits := by simpa using htaken.text
    exact hother ⟨rfl, rfl, rfl, htext ▸ hhigh⟩
  · intro h n hn
    obtain ⟨host, text, hsep, hhost⟩ := exists_separates hn
    obtain ⟨blanks, sign, digits, tail, htaken, rfl, hport⟩ :=
      portOf_eq_some_iff.mp ((splitHostPort_of_separates hsep).mp hn)
    have hread := h host text hsep
    have hplain : blanks = [] ∧ sign = [] ∧ tail = [] ∧ value digits ≤ 65535 := by
      by_contra hother
      exact hread ⟨blanks, sign, digits, tail, htaken, hport, hother⟩
    obtain ⟨rfl, rfl, rfl, hhigh⟩ := hplain
    have htext : text = digits := by simpa using htaken.text
    have hlow := lowWord_of_port hhigh
    subst htext
    rw [hlow] at hport ⊢
    exact ⟨host, text, hsep, ⟨htaken.nonempty, htaken.digits, by omega, hhigh⟩, rfl, hhost⟩

/-! ### Addresses as text -/

end HostPort

namespace CNetAddr

/-- The array `ip`. -/
def bytes (addr : CNetAddr) : List UInt8 := littleEndian 16 addr.ip.toNat

/-- `GetByte`, from the last byte on. -/
def getByte (addr : CNetAddr) (n : Nat) : Nat := (addr.bytes.getD (15 - n) 0).toNat

def pchIPv4 : List UInt8 := [0, 0, 0, 0, 0, 0, 0, 0, 0, 0, 0xff, 0xff]

def pchOnionCat : List UInt8 := [0xFD, 0x87, 0xD8, 0x7E, 0xEB, 0x43]

def pchGarliCat : List UInt8 := [0xFD, 0x60, 0xDB, 0x4D, 0xDD, 0xB5]

def isIPv4 (addr : CNetAddr) : Bool := addr.bytes.take 12 == pchIPv4

def isTor (addr : CNetAddr) : Bool := addr.bytes.take 6 == pchOnionCat

def isI2P (addr : CNetAddr) : Bool := addr.bytes.take 6 == pchGarliCat

/-- `"%u.%u.%u.%u"`. -/
def dotted (addr : CNetAddr) : List UInt8 :=
  printNat (addr.getByte 3) ++ 46 :: (printNat (addr.getByte 2) ++ 46 :: (printNat (addr.getByte 1) ++
    46 :: printNat (addr.getByte 0)))

/-- `"%x"`. -/
def printHex (n : Nat) : List UInt8 :=
  if n = 0 then [48] else
    (Nat.digits 16 n).reverse.map fun d => if d < 10 then digit d else UInt8.ofNat (87 + d)

/-- `"%x:%x:%x:%x:%x:%x:%x:%x"`. -/
def grouped (addr : CNetAddr) : List UInt8 :=
  List.intercalate [58] ([7, 6, 5, 4, 3, 2, 1, 0].map fun i =>
    printHex ((addr.getByte (2 * i + 1)) <<< 8 ||| addr.getByte (2 * i)))

end CNetAddr

namespace HostPort

/-- Sixteen letters, ten letters and six digits. -/
def pbase32 : List UInt8 :=
  [97, 98, 99, 100, 101, 102, 103, 104, 105, 106, 107, 108, 109, 110, 111, 112, 113, 114, 115, 116, 117, 118,
    119, 120, 121, 122, 50, 51, 52, 53, 54, 55]

/-- What `EncodeBase32` has done so far: the bits that are left over belong to the next character. -/
structure Base32 where
  mode : Nat
  left : Nat
  strRet : List UInt8

/-- A byte, according to how many bits there are: none, three, one, four or two. -/
def Base32.feed (state : Base32) (pch : UInt8) : Base32 :=
  let enc := pch.toNat
  let put (n : Nat) : UInt8 := pbase32.getD n 0
  match state.mode with
  | 0 => ⟨1, (enc &&& 7) <<< 2, state.strRet ++ [put (enc >>> 3)]⟩
  | 1 => ⟨2, (enc &&& 1) <<< 4, state.strRet ++ [put (state.left ||| (enc >>> 6)), put ((enc >>> 1) &&& 31)]⟩
  | 2 => ⟨3, (enc &&& 15) <<< 1, state.strRet ++ [put (state.left ||| (enc >>> 4))]⟩
  | 3 => ⟨4, (enc &&& 3) <<< 3, state.strRet ++ [put (state.left ||| (enc >>> 7)), put ((enc >>> 2) &&& 31)]⟩
  | 4 => ⟨0, state.left, state.strRet ++ [put (state.left ||| (enc >>> 5)), put (enc &&& 31)]⟩
  | _ => state

def nPadding : List Nat := [0, 6, 4, 3, 1]

def encodeBase32 (pch : List UInt8) : List UInt8 :=
  let state := pch.foldl Base32.feed ⟨0, 0, []⟩
  if state.mode ≠ 0 then
    state.strRet ++ pbase32.getD state.left 0 :: List.replicate (nPadding.getD state.mode 0) 61
  else state.strRet

/-- The system's `getnameinfo` with `NI_NUMERICHOST`: a name for an address, if it gives one. Of an IPv4 address
it is the dotted decimal. -/
structure Resolver where
  useIPv6 : Bool
  getnameinfo : CNetAddr → Option (List UInt8)
  getnameinfo_ipv4 : ∀ addr name, addr.isIPv4 → getnameinfo addr = some name → name = addr.dotted

/-- `".onion"`. -/
def dotOnion : List UInt8 := [46, 111, 110, 105, 111, 110]

def dotI2P : List UInt8 := [46, 111, 99, 46, 98, 51, 50, 46, 105, 50, 112]

/-- `ToStringIP`: there is a socket address of an IPv4 address, and of others where IPv6 is used. -/
def toStringIP (resolver : Resolver) (addr : CNetAddr) : List UInt8 :=
  if addr.isTor then encodeBase32 (addr.bytes.drop 6) ++ dotOnion
  else if addr.isI2P then encodeBase32 (addr.bytes.drop 6) ++ dotI2P
  else
    let name := if addr.isIPv4 || resolver.useIPv6 then resolver.getnameinfo addr else none
    match name with
    | some name => name
    | none => if addr.isIPv4 then addr.dotted else addr.grouped

def toStringPort (addr : CService) : List UInt8 := printNat addr.port.toNat

/-- `ToStringIPPort`: an address with colons is in brackets. -/
def toStringIPPort (resolver : Resolver) (addr : CService) : List UInt8 :=
  let ip := toStringIP resolver addr.toCNetAddr
  if addr.isIPv4 || addr.isTor || addr.isI2P then ip ++ 58 :: toStringPort addr
  else 91 :: (ip ++ [93]) ++ 58 :: toStringPort addr

/-- Text that neither has a colon nor a bracket. -/
def Plain (text : List UInt8) : Prop := ∀ c ∈ text, c ≠ 58 ∧ c ≠ 91

instance (text : List UInt8) : Decidable (Plain text) :=
  List.decidableBAll (fun c => c ≠ 58 ∧ c ≠ 91) text

theorem Plain.append {s t : List UInt8} (hs : Plain s) (ht : Plain t) : Plain (s ++ t) := by
  intro c hc
  rcases List.mem_append.mp hc with hc | hc
  · exact hs c hc
  · exact ht c hc

theorem plain_of_isDigit {text : List UInt8} (h : ∀ c ∈ text, isDigit c = true) : Plain text := by
  intro c hc
  have hdigit := h c hc
  constructor <;> rintro rfl <;> cases hdigit

theorem plain_dotted (addr : CNetAddr) : Plain addr.dotted := by
  have hprint : ∀ n, Plain (printNat n) := fun n => plain_of_isDigit fun _ => isDigit_of_mem_printNat
  have hdot : Plain [46] := by decide
  exact (hprint _).append (hdot.append ((hprint _).append (hdot.append ((hprint _).append
    (hdot.append (hprint _))))))

/-! #### Base 32 -/

theorem plain_put (n : Nat) : Plain [pbase32.getD n 0] := by
  have hall : Plain (0 :: pbase32) := by decide
  intro c hc
  obtain rfl := List.mem_singleton.mp hc
  by_cases hn : n < pbase32.length
  · rw [List.getD_eq_getElem _ _ hn]
    exact hall _ (List.mem_cons_of_mem _ (List.getElem_mem hn))
  · rw [List.getD_eq_default _ _ (not_lt.mp hn)]
    exact hall _ List.mem_cons_self

theorem plain_feed {state : Base32} (h : Plain state.strRet) (pch : UInt8) :
    Plain (state.feed pch).strRet := by
  unfold Base32.feed
  dsimp only
  split
  · exact h.append (plain_put _)
  · exact h.append ((plain_put _).append (plain_put _))
  · exact h.append (plain_put _)
  · exact h.append ((plain_put _).append (plain_put _))
  · exact h.append ((plain_put _).append (plain_put _))
  · exact h

theorem plain_foldl_feed {state : Base32} (h : Plain state.strRet) (pch : List UInt8) :
    Plain (pch.foldl Base32.feed state).strRet := by
  induction pch generalizing state with
  | nil => exact h
  | cons c pch ih => exact ih (plain_feed h c)

theorem plain_encodeBase32 (pch : List UInt8) : Plain (encodeBase32 pch) := by
  have hstate : Plain (pch.foldl Base32.feed ⟨0, 0, []⟩).strRet := plain_foldl_feed (by simp [Plain]) pch
  have hpad : ∀ k, Plain (List.replicate k 61) := by
    intro k c hc
    rw [(List.mem_replicate.mp hc).2]
    decide
  unfold encodeBase32
  dsimp only
  split
  · exact hstate.append ((plain_put _).append (hpad _))
  · exact hstate

/-! #### Splitting an address -/

theorem plain_toStringIP (resolver : Resolver) {addr : CNetAddr}
    (h : addr.isIPv4 || addr.isTor || addr.isI2P) : Plain (toStringIP resolver addr) := by
  unfold toStringIP
  split
  · exact (plain_encodeBase32 _).append (by decide)
  · next htor =>
    split
    · exact (plain_encodeBase32 _).append (by decide)
    · next hi2p =>
      have hipv4 : addr.isIPv4 = true := by simpa [htor, hi2p] using h
      dsimp only
      split
      · next name hname =>
        rw [hipv4, Bool.true_or, if_pos rfl] at hname
        rw [resolver.getnameinfo_ipv4 addr name hipv4 hname]
        exact plain_dotted addr
      · rw [if_pos hipv4]
        exact plain_dotted addr

theorem splitHostPort_append {host : List UInt8} (hhost : isHost host = true) {port : Nat}
    (hlow : 1 ≤ port) (hhigh : port ≤ 65535) :
    splitHostPort (host ++ 58 :: printNat port) = (some (port : Int), unbracket host) := by
  have hdigits : ∀ c ∈ printNat port, isDigit c = true := fun _ => isDigit_of_mem_printNat
  have hsep : Separates (host ++ 58 :: printNat port) host (printNat port) :=
    ⟨splitLastColon_eq_some.mpr ⟨rfl, fun h => (plain_of_isDigit hdigits _ h).1 rfl⟩, hhost⟩
  have hvalue := value_printNat port
  have hne : printNat port ≠ [] := by
    obtain ⟨b, s, hprint, -⟩ := printNat_eq_cons port
    rw [hprint]
    exact List.cons_ne_nil b s
  have htaken : Taken (printNat port) [] [] (printNat port) [] :=
    ⟨by simp, by simp, .inl rfl, hne, hdigits, .inl rfl⟩
  have hword : (port : Int) = lowWord [] (printNat port) := by
    rw [lowWord_of_port (by omega), hvalue]
  have hport : (splitHostPort (host ++ 58 :: printNat port)).1 = some (port : Int) :=
    (splitHostPort_of_separates hsep).mpr
      (portOf_eq_some_iff.mpr ⟨_, _, _, _, htaken, hword, by omega, by omega⟩)
  obtain ⟨host', text, hsep', hout⟩ := exists_separates hport
  cases hsep.1.symm.trans hsep'.1
  exact Prod.ext hport hout

/-- **An address is split as it was put together.** -/
theorem splitHostPort_toStringIPPort (resolver : Resolver) (addr : CService) (h : 1 ≤ addr.port) :
    splitHostPort (toStringIPPort resolver addr) =
      (some (addr.port.toNat : Int), toStringIP resolver addr.toCNetAddr) := by
  have hlow : 1 ≤ addr.port.toNat := UInt16.le_iff_toNat_le.mp h
  have hhigh : addr.port.toNat ≤ 65535 := by
    have := addr.port.toNat_lt
    omega
  unfold toStringIPPort toStringPort
  dsimp only
  split
  · next hplain =>
    have hip := plain_toStringIP resolver hplain
    have hhost : isHost (toStringIP resolver addr.toCNetAddr) = true := by
      have hany : (toStringIP resolver addr.toCNetAddr).any (· == 58) = false := by
        simpa using fun c hc => (hip c hc).1
      simp [isHost, hany]
    have hbracket : isBracketed (toStringIP resolver addr.toCNetAddr) = false := by
      have hhead : (toStringIP resolver addr.toCNetAddr).head? ≠ some 91 := fun hhead =>
        (hip 91 (List.mem_of_mem_head? hhead)).2 rfl
      simp [isBracketed, hhead]
    rw [splitHostPort_append hhost hlow hhigh, unbracket, hbracket]
    rfl
  · have hbracket : isBracketed (91 :: (toStringIP resolver addr.toCNetAddr ++ [93])) = true := by
      rw [← List.cons_append, isBracketed, List.getLast?_concat]
      rfl
    have hhost : isHost (91 :: (toStringIP resolver addr.toCNetAddr ++ [93])) = true := by
      simp [isHost, hbracket]
    rw [splitHostPort_append hhost hlow hhigh, unbracket, hbracket]
    simp

/-- Which strings are split as written, and that each address is. -/
theorem hostPorts (str : List UInt8) (resolver : Resolver) {addr : CService} (hport : 1 ≤ addr.port) :
    (SplitsAsWritten str ↔ ∀ host text, Separates str host text → ¬ Misread text) ∧
    splitHostPort (toStringIPPort resolver addr) =
      (some (addr.port.toNat : Int), toStringIP resolver addr.toCNetAddr) :=
  ⟨splitsAsWritten_iff str, splitHostPort_toStringIPPort resolver addr hport⟩

/-- A Tor service with the port 8333, and the text `"h:0"`, which changes no port. -/
theorem hostPorts_tor : ∃ (resolver : Resolver) (addr : CService), addr.isTor ∧ 1 ≤ addr.port ∧
    splitHostPort (toStringIPPort resolver addr) =
      (some (addr.port.toNat : Int), toStringIP resolver addr.toCNetAddr) ∧ SplitsAsWritten [104, 58, 48] := by
  let resolver : Resolver := ⟨true, fun addr => some addr.dotted, fun addr name _ h => (Option.some.inj h).symm⟩
  let addr : CService := { ip := 0x43EB7ED887FD, port := 8333 }
  obtain ⟨hstr, haddr⟩ := @hostPorts [104, 58, 48] resolver addr (by decide)
  refine ⟨resolver, addr, by decide, by decide, haddr, hstr.mpr ?_⟩
  rintro host text hsep ⟨blanks, sign, digits, tail, htaken, hport, -⟩
  have hn := (splitHostPort_of_separates hsep).mpr
    (portOf_eq_some_iff.mpr ⟨blanks, sign, digits, tail, htaken, rfl, hport⟩)
  have hnone : (splitHostPort [104, 58, 48]).1 = none := by decide +kernel
  cases hnone.symm.trans hn

/-- In `"h:4294967376"` the number behind the colon is 2^32 + 80: the port is 80. -/
theorem not_forall_splitsAsWritten : ¬ ∀ str, SplitsAsWritten str := by
  intro h
  have hport : (splitHostPort [104, 58, 52, 50, 57, 52, 57, 54, 55, 51, 55, 54]).1 = some 80 := by decide +kernel
  obtain ⟨host, text, hsep, hnumeral, hvalue, -⟩ := h _ 80 hport
  have hsplit : splitLastColon [104, 58, 52, 50, 57, 52, 57, 54, 55, 51, 55, 54] =
      some ([104], [52, 50, 57, 52, 57, 54, 55, 51, 55, 54]) := by decide +kernel
  cases hsplit.symm.trans hsep.1
  exact absurd hnumeral.2.2.2 (by decide +kernel)

end HostPort

end Manna
