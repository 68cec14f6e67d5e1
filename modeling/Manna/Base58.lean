import Manna.CryptoKeyStore
import Manna.Lib.Decimal
import Manna.ScriptNum
import Manna.Wallet

/-!
Base 58 and what is written in it (`base58.h`: `EncodeBase58`, `DecodeBase58`, `EncodeBase58Check`,
`DecodeBase58Check`, `CBase58Data`, `CBitcoinAddress`, `CBitcoinSecret`).

Bytes and base 58 are digits of a number, where each leading zero byte is a leading `1`. With a version byte
before and four bytes of a hash behind them, the bytes are an address or a secret.

* `encodeBase58_eq`, `exists_digits_of_decodeBase58`: both directions are conversions of digits;
* `decodeBase58_encodeBase58`, `encodeBase58_of_decodeBase58`: they invert each other;
* `setString_toString`: what was written is read back.
-/

namespace Manna

open Codec Crypto Radix
open Decimal (isSpace cStr)

namespace Base58

/-! ### EncodeBase58 and DecodeBase58 -/

/-- The digits from 1 to 9, and letters without `I`, `O` and `l`. -/
def pszBase58 : List UInt8 :=
  [49, 50, 51, 52, 53, 54, 55, 56, 57, 65, 66, 67, 68, 69, 70, 71, 72, 74, 75, 76, 77, 78, 80, 81, 82, 83, 84,
    85, 86, 87, 88, 89, 90, 97, 98, 99, 100, 101, 102, 103, 104, 105, 106, 107, 109, 110, 111, 112, 113, 114,
    115, 116, 117, 118, 119, 120, 121, 122]

def base58Char (c : Nat) : UInt8 := pszBase58.getD c 0

/-- The loop of `EncodeBase58`, the lowest digit first. -/
def encodeLoop : Nat → Int → List UInt8
  | 0, _ => []
  | fuel + 1, bn => if bn > 0 then base58Char (bn.tmod 58).toNat :: encodeLoop fuel (bn.tdiv 58) else []

/-- `EncodeBase58`: a zero behind the reversed bytes keeps the number positive. -/
def encodeBase58 (vch : List UInt8) : List UInt8 :=
  let bn := bnSetVch (vch.reverse ++ [0])
  (encodeLoop bn.toNat bn ++ (vch.takeWhile (· = 0)).map fun _ => base58Char 0).reverse

/-- The loop of `DecodeBase58`; behind the digits there may be white space. -/
def decodeLoop (bn : Int) : List UInt8 → Option Int
  | [] => some bn
  | c :: p =>
    match pszBase58.idxOf? c with
    | none => if (c :: p).dropWhile isSpace = [] then some bn else none
    | some p1 => decodeLoop (bn * 58 + p1) p

def trimSign (vchTmp : List UInt8) : List UInt8 :=
  if vchTmp.length ≥ 2 ∧ vchTmp.getD (vchTmp.length - 1) 0 = 0 ∧ vchTmp.getD (vchTmp.length - 2) 0 ≥ 0x80 then
    vchTmp.dropLast
  else vchTmp

/-- `DecodeBase58` of a C string; `none` where it returns false. -/
def decodeBase58 (psz : List UInt8) : Option (List UInt8) :=
  let psz := psz.dropWhile isSpace
  match decodeLoop 0 psz with
  | none => none
  | some bn =>
    let vchTmp := trimSign (bnGetVch bn)
    let nLeadingZeros := (psz.takeWhile (· = base58Char 0)).length
    some (List.replicate nLeadingZeros 0 ++ vchTmp.reverse)

def decodeBase58Str (str : List UInt8) : Option (List UInt8) := decodeBase58 (cStr str)

/-- A text without the white space around it. -/
def trim (str : List UInt8) : List UInt8 := ((str.dropWhile isSpace).reverse.dropWhile isSpace).reverse

theorem idxOf?_base58Char {d : Nat} (h : d < 58) : pszBase58.idxOf? (base58Char d) = some d := by
  interval_cases d <;> rfl

theorem exists_digit_of_idxOf? {c : UInt8} {d : Nat} (h : pszBase58.idxOf? c = some d) :
    d < 58 ∧ c = base58Char d := by
  obtain ⟨hlt, hget, -⟩ := List.findIdx?_eq_some_iff_getElem.mp h
  refine ⟨hlt, ?_⟩
  rw [base58Char, List.getD_eq_getElem _ _ hlt]
  exact (eq_of_beq hget).symm

theorem idxOf?_of_isSpace {c : UInt8} (h : isSpace c = true) : pszBase58.idxOf? c = none := by
  have hall : pszBase58.all (fun c => !isSpace c) = true := rfl
  rw [List.idxOf?_eq_none_iff]
  intro hmem
  have hblank := List.all_eq_true.mp hall c hmem
  rw [h] at hblank
  cases hblank

theorem not_isSpace_base58Char {d : Nat} (h : d < 58) : isSpace (base58Char d) = false := by
  interval_cases d <;> rfl

theorem base58Char_eq_iff {d : Nat} (h : d < 58) : base58Char d = base58Char 0 ↔ d = 0 := by
  interval_cases d <;> decide

/-! ### Digits and bytes -/

theorem value_cons (b d : Nat) (l : List Nat) : value b (d :: l) = d * b ^ l.length + value b l := by
  rw [value, Nat.ofDigits_reverse_cons, value]
  ring

theorem ofBytes_reverse (v : List UInt8) : ofBytes v.reverse = value 256 (v.map UInt8.toNat) := by
  rw [ofBytes, value, List.map_reverse]

theorem encodeLoop_eq {fuel n : Nat} (h : n ≤ fuel) :
    encodeLoop fuel n = (Nat.digits 58 n).map base58Char := by
  induction fuel generalizing n with
  | zero =>
    obtain rfl : n = 0 := Nat.le_zero.mp h
    rfl
  | succ fuel ih =>
    rw [encodeLoop]
    split
    · next hpos =>
      rw [Nat.digits_def' (by decide) (by omega), List.map_cons]
      have hdiv : (n : Int).tdiv 58 = (n / 58 : Nat) := rfl
      have hmod : ((n : Int).tmod 58).toNat = n % 58 := rfl
      rw [hdiv, hmod, ih (by omega)]
    · obtain rfl : n = 0 := by omega
      rfl

/-- **`EncodeBase58` converts digits.** -/
theorem encodeBase58_eq (v : List UInt8) :
    encodeBase58 v = (convert 256 58 (v.map UInt8.toNat)).map base58Char := by
  have hbn : bnSetVch (v.reverse ++ [0]) = (value 256 (v.map UInt8.toNat) : Nat) := by
    rw [bnSetVch_eq, signMagnitude_concat, if_pos (by decide), ofBytes_reverse]
    simp
  have hzeros : (v.takeWhile (· = 0)).length = leading (v.map UInt8.toNat) := by
    rw [leading, List.takeWhile_map, List.length_map]
    congr 2
    funext b
    rw [Function.comp_apply, decide_eq_decide]
    exact UInt8.toNat_inj.symm
  unfold encodeBase58
  dsimp only
  rw [hbn, Int.toNat_natCast, encodeLoop_eq (Nat.le_refl _), List.map_const', hzeros, List.reverse_append,
    List.reverse_replicate, ← List.map_reverse, convert, List.map_append, List.map_replicate, numeral]

/-- The sign byte is the one that `getvch` adds. -/
theorem trimSign_bnGetVch (n : Nat) : trimSign (bnGetVch n) = toBytes n := by
  by_cases hzero : n = 0
  · subst hzero
    rfl
  · obtain ⟨l, top, hne, hbytes, -, hvch⟩ := bnGetVch_eq (Int.natCast_ne_zero.mpr hzero)
    rw [Int.natAbs_natCast] at hbytes
    have hsign : signByte (n : Int) = 0 := if_neg (by omega)
    rw [hvch, hbytes, hsign]
    split
    · next htop =>
      have hlast : (l ++ [top]).getD ((l ++ [top]).length - 1) 0 = top := by simp
      rw [UInt8.add_zero, trimSign, hlast, if_neg fun h => hne h.2.1]
    · next htop =>
      have hlast : (l ++ [top] ++ [0]).getD ((l ++ [top] ++ [0]).length - 1) 0 = 0 := by simp
      have hbefore : (l ++ [top] ++ [0]).getD ((l ++ [top] ++ [0]).length - 2) 0 = top := by simp
      rw [trimSign, hlast, hbefore, if_pos, List.dropLast_concat]
      refine ⟨by simp, rfl, ?_⟩
      exact UInt8.le_iff_toNat_le.mpr (Nat.not_lt.mp htop)

variable {digits : List Nat}

theorem decodeLoop_digits (hdigits : ∀ d ∈ digits, d < 58) {blanks : List UInt8}
    (hblanks : ∀ c ∈ blanks, isSpace c = true) (bn : Nat) : decodeLoop bn (digits.map base58Char ++ blanks) =
      some ((bn * 58 ^ digits.length + value 58 digits : Nat) : Int) := by
  induction digits generalizing bn with
  | nil =>
    have hvalue : bn * 58 ^ ([] : List Nat).length + value 58 [] = bn := by simp [value]
    rw [List.map_nil, List.nil_append, hvalue]
    cases blanks with
    | nil => rfl
    | cons c blanks =>
      rw [decodeLoop, idxOf?_of_isSpace (hblanks c List.mem_cons_self)]
      exact if_pos (List.dropWhile_eq_nil_iff.mpr hblanks)
  | cons d digits ih =>
    obtain ⟨hd, hrest⟩ := List.forall_mem_cons.mp hdigits
    rw [List.map_cons, List.cons_append, decodeLoop, idxOf?_base58Char hd]
    have hstep : (bn : Int) * 58 + (d : Nat) = (bn * 58 + d : Nat) := by push_cast; rfl
    simp only
    rw [hstep, ih hrest, value_cons, List.length_cons, pow_succ]
    congr 2
    ring

theorem exists_digits_of_decodeLoop {p : List UInt8} {bn r : Int} (h : decodeLoop bn p = some r) :
    ∃ (digits : List Nat) (blanks : List UInt8), p = digits.map base58Char ++ blanks ∧ (∀ d ∈ digits, d < 58) ∧
      ∀ c ∈ blanks, isSpace c = true := by
  induction p generalizing bn with
  | nil => exact ⟨[], [], rfl, by simp, by simp⟩
  | cons c p ih =>
    rw [decodeLoop] at h
    split at h
    · split at h
      · next hblanks => exact ⟨[], c :: p, rfl, by simp, List.dropWhile_eq_nil_iff.mp hblanks⟩
      · cases h
    · next d hd =>
      obtain ⟨digits, blanks, rfl, hdigits, hblanks⟩ := ih h
      obtain ⟨hlt, rfl⟩ := exists_digit_of_idxOf? hd
      exact ⟨d :: digits, blanks, rfl, List.forall_mem_cons.mpr ⟨hlt, hdigits⟩, hblanks⟩

theorem length_takeWhile_eq_leading (hdigits : ∀ d ∈ digits, d < 58)
    {blanks : List UInt8} (hblanks : ∀ c ∈ blanks, isSpace c = true) :
    ((digits.map base58Char ++ blanks).takeWhile (· = base58Char 0)).length = leading digits := by
  induction digits with
  | nil =>
    cases blanks with
    | nil => rfl
    | cons c blanks =>
      have hne : c ≠ base58Char 0 := by
        rintro rfl
        cases hblanks _ List.mem_cons_self
      simp [hne, leading]
  | cons d digits ih =>
    obtain ⟨hd, hrest⟩ := List.forall_mem_cons.mp hdigits
    have hiff := base58Char_eq_iff hd
    have htail := ih hrest
    unfold leading at htail ⊢
    by_cases hzero : d = 0
    · simp [hzero, htail]
    · simp [hzero, hiff]

theorem decodeBase58_digits (hdigits : ∀ d ∈ digits, d < 58) {blanks psz : List UInt8}
    (hblanks : ∀ c ∈ blanks, isSpace c = true)
    (hpsz : psz.dropWhile isSpace = digits.map base58Char ++ blanks) :
    ∃ v, decodeBase58 psz = some v ∧ v.map UInt8.toNat = convert 58 256 digits := by
  have hloop := decodeLoop_digits hdigits hblanks 0
  rw [Nat.zero_mul, Nat.zero_add] at hloop
  refine ⟨List.replicate (leading digits) 0 ++ (toBytes (value 58 digits)).reverse, ?_, ?_⟩
  · unfold decodeBase58
    dsimp only
    rw [hpsz, length_takeWhile_eq_leading hdigits hblanks]
    rw [show decodeLoop 0 _ = _ from hloop]
    simp only [trimSign_bnGetVch]
  · rw [List.map_append, List.map_replicate, List.map_reverse, map_toNat_toBytes, convert, numeral]
    rfl

/-! ### Both directions -/

/-- **What was encoded is decoded.** -/
theorem decodeBase58_encodeBase58 (v : List UInt8) : decodeBase58 (encodeBase58 v) = some v := by
  have hdigits : ∀ d ∈ convert 256 58 (v.map UInt8.toNat), d < 58 := lt_of_mem_convert (by decide)
  have hbytes : ∀ d ∈ v.map UInt8.toNat, d < 256 := by
    intro d hd
    obtain ⟨b, -, rfl⟩ := List.mem_map.mp hd
    exact b.toNat_lt
  have hskip : (encodeBase58 v).dropWhile isSpace =
      (convert 256 58 (v.map UInt8.toNat)).map base58Char ++ [] := by
    rw [encodeBase58_eq, List.append_nil]
    refine Decimal.dropWhile_isSpace_eq_self fun c hc => ?_
    obtain ⟨d, hd, rfl⟩ := List.mem_map.mp (List.mem_of_mem_head? hc)
    exact not_isSpace_base58Char (hdigits d hd)
  obtain ⟨v', hdecode, hv'⟩ := decodeBase58_digits hdigits (by simp) hskip
  rw [convert_convert (by decide) 58 hbytes] at hv'
  have hinj : Function.Injective UInt8.toNat := fun _ _ => UInt8.toNat_inj.mp
  rw [hdecode, List.map_injective_iff.mpr hinj hv']

theorem trim_eq {before blanks : List UInt8} (hdigits : ∀ d ∈ digits, d < 58)
    (hbefore : ∀ c ∈ before, isSpace c = true) (hblanks : ∀ c ∈ blanks, isSpace c = true) :
    trim (before ++ (digits.map base58Char ++ blanks)) = digits.map base58Char := by
  have hchars : ∀ c ∈ digits.map base58Char, isSpace c = false := by
    intro c hc
    obtain ⟨d, hd, rfl⟩ := List.mem_map.mp hc
    exact not_isSpace_base58Char (hdigits d hd)
  have hlast : ((digits.map base58Char ++ blanks).reverse.dropWhile isSpace).reverse =
      digits.map base58Char := by
    have hskip : ((digits.map base58Char).reverse).dropWhile isSpace = (digits.map base58Char).reverse :=
      Decimal.dropWhile_isSpace_eq_self fun c hc =>
        hchars c (List.mem_reverse.mp (List.mem_of_mem_head? hc))
    rw [List.reverse_append, List.dropWhile_append_of_pos fun c hc => hblanks c (List.mem_reverse.mp hc),
      hskip, List.reverse_reverse]
  rw [trim, List.dropWhile_append_of_pos hbefore]
  cases hnil : digits with
  | nil =>
    have hall : blanks.dropWhile isSpace = [] := List.dropWhile_eq_nil_iff.mpr hblanks
    simp [hall]
  | cons d rest =>
    rw [← hnil]
    have hhead : (digits.map base58Char ++ blanks).dropWhile isSpace = digits.map base58Char ++ blanks := by
      refine Decimal.dropWhile_isSpace_eq_self fun c hc => ?_
      rw [hnil] at hc
      refine hchars c ?_
      rw [hnil]
      exact List.mem_of_mem_head? hc
    rw [hhead, hlast]

/-- **What was decoded is encoded** as it was written, without the white space around it. -/
theorem encodeBase58_of_decodeBase58 {psz v : List UInt8} (h : decodeBase58 psz = some v) :
    encodeBase58 v = trim psz := by
  have hloop : ∃ r, decodeLoop 0 (psz.dropWhile isSpace) = some r := by
    unfold decodeBase58 at h
    dsimp only at h
    split at h
    · cases h
    · next bn hbn => exact ⟨bn, hbn⟩
  obtain ⟨r, hr⟩ := hloop
  obtain ⟨digits, blanks, hpsz, hdigits, hblanks⟩ := exists_digits_of_decodeLoop hr
  obtain ⟨v', hdecode, hv'⟩ := decodeBase58_digits hdigits hblanks hpsz
  cases h.symm.trans hdecode
  have hsplit := (List.takeWhile_append_dropWhile (p := isSpace) (l := psz)).symm
  rw [hpsz] at hsplit
  have hbefore : ∀ c ∈ psz.takeWhile isSpace, isSpace c = true := fun c hc => List.mem_takeWhile_imp hc
  have htrim := trim_eq hdigits hbefore hblanks
  rw [← hsplit] at htrim
  rw [htrim, encodeBase58_eq, hv', convert_convert (by decide) 256 hdigits]

theorem encodeBase58_ne_zero {v : List UInt8} : ∀ c ∈ encodeBase58 v, c ≠ 0 := by
  intro c hc
  rw [encodeBase58_eq] at hc
  obtain ⟨d, hd, rfl⟩ := List.mem_map.mp hc
  have hlt : d < 58 := lt_of_mem_convert (by decide) d hd
  have hall : ∀ d < 58, base58Char d ≠ 0 := by decide
  exact hall d hlt

/-- The first four bytes of a hash in memory. -/
def checksum (hash : Valtype → Uint256) (vch : List UInt8) : List UInt8 := (littleEndian 32 (hash vch)).take 4

def encodeBase58Check (hash : Valtype → Uint256) (vchIn : List UInt8) : List UInt8 :=
  encodeBase58 (vchIn ++ checksum hash vchIn)

/-- `DecodeBase58Check`: what is returned, and `vchRet`. -/
def decodeBase58Check (hash : Valtype → Uint256) (psz : List UInt8) : Bool × List UInt8 :=
  match decodeBase58 psz with
  | none => (false, [])
  | some vchRet =>
    if vchRet.length < 4 then (false, [])
    else
      let vchData := vchRet.take (vchRet.length - 4)
      if checksum hash vchData ≠ vchRet.drop (vchRet.length - 4) then (false, []) else (true, vchData)

theorem length_checksum (hash : Valtype → Uint256) (vch : List UInt8) : (checksum hash vch).length = 4 := by
  rw [checksum, List.length_take, length_littleEndian]
  rfl

theorem decodeBase58Check_encodeBase58Check (hash : Valtype → Uint256) (vch : List UInt8) :
    decodeBase58Check hash (encodeBase58Check hash vch) = (true, vch) := by
  have hlen := length_checksum hash vch
  unfold decodeBase58Check encodeBase58Check
  rw [decodeBase58_encodeBase58]
  dsimp only
  rw [List.length_append, hlen, if_neg (by omega), Nat.add_sub_cancel, List.take_left, List.drop_left]
  exact if_neg fun h => h rfl

/-! ### CBase58Data -/

/-- `CBase58Data`: a version and what is encoded. -/
structure CBase58Data where
  nVersion : UInt8
  vchData : List UInt8
deriving DecidableEq

namespace CBase58Data

/-- `SetString`, and what it returns. -/
def setString (hash : Valtype → Uint256) (psz : List UInt8) : CBase58Data × Bool :=
  match (decodeBase58Check hash psz).2 with
  | [] => (⟨0, []⟩, false)
  | nVersion :: vchData => (⟨nVersion, vchData⟩, true)

def toString (hash : Valtype → Uint256) (data : CBase58Data) : List UInt8 :=
  encodeBase58Check hash (data.nVersion :: data.vchData)

/-- **What was written is read back.** -/
theorem setString_toString (hash : Valtype → Uint256) (data : CBase58Data) :
    setString hash (cStr (data.toString hash)) = (data, true) := by
  have hstr : cStr (data.toString hash) = data.toString hash := Decimal.cStr_eq_self encodeBase58_ne_zero
  rw [hstr, setString, toString, decodeBase58Check_encodeBase58Check]

end CBase58Data

/-! ### CBitcoinAddress -/

/-- `uint160` in memory. -/
structure Uint160 where
  bytes : List UInt8
  size : bytes.length = 20

namespace CBitcoinAddress

def PUBKEY_ADDRESS : UInt8 := 38
def SCRIPT_ADDRESS : UInt8 := 97
def PUBKEY_ADDRESS_TEST : UInt8 := 65
def SCRIPT_ADDRESS_TEST : UInt8 := 127

/-- `Set` of a `CKeyID`. -/
def setKeyID (fTestNet : Bool) (id : Uint160) : CBase58Data :=
  ⟨if fTestNet then PUBKEY_ADDRESS_TEST else PUBKEY_ADDRESS, id.bytes⟩

def setScriptID (fTestNet : Bool) (id : Uint160) : CBase58Data :=
  ⟨if fTestNet then SCRIPT_ADDRESS_TEST else SCRIPT_ADDRESS, id.bytes⟩

/-- What `IsValid` expects of a version: the size and the network. -/
def expected (nVersion : UInt8) : Option (Nat × Bool) :=
  if nVersion = PUBKEY_ADDRESS then some (20, false)
  else if nVersion = SCRIPT_ADDRESS then some (20, false)
  else if nVersion = PUBKEY_ADDRESS_TEST then some (20, true)
  else if nVersion = SCRIPT_ADDRESS_TEST then some (20, true)
  else none

def isValid (fTestNet : Bool) (addr : CBase58Data) : Bool :=
  match expected addr.nVersion with
  | none => false
  | some (nExpectedSize, fExpectTestNet) =>
    fExpectTestNet == fTestNet && addr.vchData.length == nExpectedSize

def get (fTestNet : Bool) (addr : CBase58Data) : Wallet.CTxDestination :=
  if !isValid fTestNet addr then .noDestination
  else if addr.nVersion = PUBKEY_ADDRESS ∨ addr.nVersion = PUBKEY_ADDRESS_TEST then
    .keyID (addr.vchData.take 20)
  else if addr.nVersion = SCRIPT_ADDRESS ∨ addr.nVersion = SCRIPT_ADDRESS_TEST then
    .scriptID (addr.vchData.take 20)
  else .noDestination

/-- `GetKeyID`; `none` where it returns false. -/
def getKeyID (fTestNet : Bool) (addr : CBase58Data) : Option (List UInt8) :=
  if !isValid fTestNet addr then none
  else if addr.nVersion = PUBKEY_ADDRESS ∨ addr.nVersion = PUBKEY_ADDRESS_TEST then
    some (addr.vchData.take 20)
  else none

def isScript (fTestNet : Bool) (addr : CBase58Data) : Bool :=
  isValid fTestNet addr && (addr.nVersion == SCRIPT_ADDRESS || addr.nVersion == SCRIPT_ADDRESS_TEST)

/-- A string is an address: `CBitcoinAddress(str).IsValid()`. -/
def accepts (hash : Valtype → Uint256) (fTestNet : Bool) (psz : List UInt8) : Prop :=
  isValid fTestNet (CBase58Data.setString hash psz).1

end CBitcoinAddress

/-! ### CBitcoinSecret -/

namespace CBitcoinSecret

def PRIVKEY_ADDRESS : UInt8 := CBitcoinAddress.PUBKEY_ADDRESS + 128
def PRIVKEY_ADDRESS_TEST : UInt8 := CBitcoinAddress.PUBKEY_ADDRESS_TEST + 128

/-- `SetKey`: a byte behind the secret says that the key is compressed. -/
def setKey {env : CryptoEnv} (fTestNet : Bool) (vchSecret : Crypto.CKey env) : CBase58Data :=
  ⟨if fTestNet then PRIVKEY_ADDRESS_TEST else PRIVKEY_ADDRESS,
    vchSecret.vch ++ if vchSecret.fCompressed then [1] else []⟩

/-- `GetKey` of a valid secret. -/
def getKey {env : CryptoEnv} (secret : CBase58Data) : Option (Crypto.CKey env) :=
  Crypto.CKey.set (secret.vchData.take 32)
    (decide (secret.vchData.length > 32) && secret.vchData.getD 32 0 == 1)

/-- The network that `IsValid` expects of a version. -/
def expected (nVersion : UInt8) : Option Bool :=
  if nVersion = PRIVKEY_ADDRESS then some false
  else if nVersion = PRIVKEY_ADDRESS_TEST then some true
  else none

def isValid (fTestNet : Bool) (secret : CBase58Data) : Bool :=
  match expected secret.nVersion with
  | none => false
  | some fExpectTestNet =>
    fExpectTestNet == fTestNet &&
      (secret.vchData.length == 32 || (secret.vchData.length == 33 && secret.vchData.getD 32 0 == 1))

/-- `SetString`, and what it returns. -/
def setString (hash : Valtype → Uint256) (fTestNet : Bool) (psz : List UInt8) : CBase58Data × Bool :=
  let (secret, fRet) := CBase58Data.setString hash psz
  (secret, fRet && isValid fTestNet secret)

/-- A string is a secret: `SetString` returns true. -/
def accepts (hash : Valtype → Uint256) (fTestNet : Bool) (psz : List UInt8) : Prop :=
  (setString hash fTestNet psz).2

end CBitcoinSecret

/-! ### What is read back, and what is accepted -/

section Objects

variable {env : CryptoEnv} {hash : Valtype → Uint256} {fTestNet : Bool} {psz : List UInt8}

theorem isValid_address_iff {addr : CBase58Data} : CBitcoinAddress.isValid fTestNet addr = true ↔
      CBitcoinAddress.expected addr.nVersion = some (20, fTestNet) ∧ addr.vchData.length = 20 := by
  have hsize : ∀ p, CBitcoinAddress.expected addr.nVersion = some p → p.1 = 20 := by
    intro p hp
    unfold CBitcoinAddress.expected at hp
    split_ifs at hp <;> cases hp <;> rfl
  unfold CBitcoinAddress.isValid
  split
  · next hnone => simp [hnone]
  · next nExpectedSize fExpectTestNet hsome =>
    obtain rfl : nExpectedSize = 20 := hsize _ hsome
    simp [hsome]

theorem isValid_secret_iff {secret : CBase58Data} : CBitcoinSecret.isValid fTestNet secret = true ↔
      CBitcoinSecret.expected secret.nVersion = some fTestNet ∧
        (secret.vchData.length = 32 ∨ (secret.vchData.length = 33 ∧ secret.vchData.getD 32 0 = 1)) := by
  unfold CBitcoinSecret.isValid
  split
  · next hnone => simp [hnone]
  · next hsome => simp [hsome]

/-- **The address of a key** is valid, and of this key. -/
theorem get_setKeyID (fTestNet : Bool) (id : Uint160) :
    CBitcoinAddress.isValid fTestNet (CBitcoinAddress.setKeyID fTestNet id) = true ∧
      CBitcoinAddress.get fTestNet (CBitcoinAddress.setKeyID fTestNet id) = .keyID id.bytes := by
  have hvalid : CBitcoinAddress.isValid fTestNet (CBitcoinAddress.setKeyID fTestNet id) = true := by
    rw [isValid_address_iff]
    exact ⟨by cases fTestNet <;> rfl, id.size⟩
  refine ⟨hvalid, ?_⟩
  have htake : id.bytes.take 20 = id.bytes := List.take_of_length_le id.size.le
  rw [CBitcoinAddress.get, hvalid]
  cases fTestNet <;> simp [CBitcoinAddress.setKeyID, htake]

/-- **The address of a script** is valid, and of this script. -/
theorem get_setScriptID (fTestNet : Bool) (id : Uint160) :
    CBitcoinAddress.isValid fTestNet (CBitcoinAddress.setScriptID fTestNet id) = true ∧
      CBitcoinAddress.get fTestNet (CBitcoinAddress.setScriptID fTestNet id) = .scriptID id.bytes := by
  have hvalid : CBitcoinAddress.isValid fTestNet (CBitcoinAddress.setScriptID fTestNet id) = true := by
    rw [isValid_address_iff]
    exact ⟨by cases fTestNet <;> rfl, id.size⟩
  refine ⟨hvalid, ?_⟩
  have htake : id.bytes.take 20 = id.bytes := List.take_of_length_le id.size.le
  rw [CBitcoinAddress.get, hvalid]
  cases fTestNet <;> simp [CBitcoinAddress.setScriptID, htake] <;> decide

/-- **The secret of a key** is valid, and the key is read from it. -/
theorem getKey_setKey (fTestNet : Bool) (key : Crypto.CKey env) :
    CBitcoinSecret.isValid fTestNet (CBitcoinSecret.setKey fTestNet key) = true ∧
      CBitcoinSecret.getKey (CBitcoinSecret.setKey fTestNet key) = some key := by
  have hversion : CBitcoinSecret.expected (CBitcoinSecret.setKey fTestNet key).nVersion = some fTestNet := by
    cases fTestNet <;> rfl
  obtain ⟨vch, fCompressed, hsize, hcheck⟩ := key
  have htake : ∀ tail, (vch ++ tail).take 32 = vch := fun tail => hsize ▸ List.take_left
  have hset := Crypto.CKey.set_vch (⟨vch, fCompressed, hsize, hcheck⟩ : Crypto.CKey env)
  rw [isValid_secret_iff]
  unfold CBitcoinSecret.getKey
  cases fCompressed with
  | false =>
    have hdata : (CBitcoinSecret.setKey fTestNet ⟨vch, false, hsize, hcheck⟩).vchData = vch :=
      List.append_nil vch
    have htakeNil := htake []
    rw [List.append_nil] at htakeNil
    rw [hdata, htakeNil, hsize]
    exact ⟨⟨hversion, .inl rfl⟩, hset⟩
  | true =>
    have hdata : (CBitcoinSecret.setKey fTestNet ⟨vch, true, hsize, hcheck⟩).vchData = vch ++ [1] := rfl
    have hlen : (vch ++ [1]).length = 33 := by rw [List.length_append, hsize]; rfl
    have hbyte : (vch ++ [1]).getD 32 0 = 1 := by
      rw [List.getD_append_right _ _ _ _ hsize.le, hsize]
      rfl
    rw [hdata, htake, hlen, hbyte]
    exact ⟨⟨hversion, .inr ⟨rfl, rfl⟩⟩, hset⟩

theorem version_of_accepts (h : CBitcoinAddress.accepts hash fTestNet psz) :
    CBitcoinAddress.expected (CBase58Data.setString hash psz).1.nVersion = some (20, fTestNet) :=
  (isValid_address_iff.mp h).1

theorem version_of_accepts_secret (h : CBitcoinSecret.accepts hash fTestNet psz) :
    CBitcoinSecret.expected (CBase58Data.setString hash psz).1.nVersion = some fTestNet :=
  (isValid_secret_iff.mp (Bool.and_eq_true_iff.mp h).2).1

theorem expected_address_or_secret (nVersion : UInt8) :
    CBitcoinAddress.expected nVersion = none ∨ CBitcoinSecret.expected nVersion = none := by
  by_cases h : nVersion = CBitcoinSecret.PRIVKEY_ADDRESS ∨ nVersion = CBitcoinSecret.PRIVKEY_ADDRESS_TEST
  · left
    rcases h with rfl | rfl <;> rfl
  · obtain ⟨hmain, htest⟩ := not_or.mp h
    right
    rw [CBitcoinSecret.expected, if_neg hmain, if_neg htest]

def isKeyAddress (hash : Valtype → Uint256) (fTestNet : Bool) (psz : List UInt8) : Prop :=
  (CBitcoinAddress.getKeyID fTestNet (CBase58Data.setString hash psz).1).isSome

def isScriptAddress (hash : Valtype → Uint256) (fTestNet : Bool) (psz : List UInt8) : Prop :=
  CBitcoinAddress.isScript fTestNet (CBase58Data.setString hash psz).1

/-- **A string that is accepted as one thing** is nothing else, on no network. -/
structure AcceptedOnce (hash : Valtype → Uint256) (psz : List UInt8) : Prop where
  address_secret : ∀ net net', ¬ (CBitcoinAddress.accepts hash net psz ∧ CBitcoinSecret.accepts hash net' psz)
  address_network : ∀ net net', CBitcoinAddress.accepts hash net psz → CBitcoinAddress.accepts hash net' psz →
    net = net'
  secret_network : ∀ net net', CBitcoinSecret.accepts hash net psz → CBitcoinSecret.accepts hash net' psz →
    net = net'
  address_type : ∀ net net', ¬ (isKeyAddress hash net psz ∧ isScriptAddress hash net' psz)

theorem acceptedOnce (hash : Valtype → Uint256) (psz : List UInt8) : AcceptedOnce hash psz where
  address_secret := by
    rintro net net' ⟨haddr, hsecret⟩
    have hversion := version_of_accepts haddr
    have hversion' := version_of_accepts_secret hsecret
    rcases expected_address_or_secret (CBase58Data.setString hash psz).1.nVersion with hnone | hnone
    · rw [hnone] at hversion
      cases hversion
    · rw [hnone] at hversion'
      cases hversion'
  address_network net net' h h' := by
    have hsame := (version_of_accepts h).symm.trans (version_of_accepts h')
    cases hsame
    rfl
  secret_network net net' h h' := by
    have hsame := (version_of_accepts_secret h).symm.trans (version_of_accepts_secret h')
    cases hsame
    rfl
  address_type := by
    rintro net net' ⟨hkey, hscript⟩
    unfold isKeyAddress CBitcoinAddress.getKeyID at hkey
    unfold isScriptAddress CBitcoinAddress.isScript at hscript
    generalize (CBase58Data.setString hash psz).1 = addr at hkey hscript
    simp only [Bool.and_eq_true, Bool.or_eq_true, beq_iff_eq] at hscript
    split at hkey
    · cases hkey
    · split at hkey
      · next hversion =>
        rcases hversion with hversion | hversion <;> rcases hscript.2 with hscript | hscript <;>
          exact absurd (hversion.symm.trans hscript) (by decide)
      · cases hkey

/-- **Base 58, addresses and secrets.** -/
structure Base58Codecs (env : CryptoEnv) : Prop where
  bytes : ∀ v, decodeBase58Str (encodeBase58 v) = some v
  text : ∀ str v, decodeBase58Str str = some v → encodeBase58 v = trim (cStr str)
  object : ∀ data : CBase58Data, CBase58Data.setString env.hash (cStr (data.toString env.hash)) = (data, true)
  keyID : ∀ fTestNet id, CBitcoinAddress.get fTestNet (CBase58Data.setString env.hash
    (cStr ((CBitcoinAddress.setKeyID fTestNet id).toString env.hash))).1 = .keyID id.bytes
  scriptID : ∀ fTestNet id, CBitcoinAddress.get fTestNet (CBase58Data.setString env.hash
    (cStr ((CBitcoinAddress.setScriptID fTestNet id).toString env.hash))).1 = .scriptID id.bytes
  secret : ∀ fTestNet (key : Crypto.CKey env), ∃ secret, CBitcoinSecret.setString env.hash fTestNet
    (cStr ((CBitcoinSecret.setKey fTestNet key).toString env.hash)) = (secret, true) ∧
      CBitcoinSecret.getKey secret = some key
  once : ∀ psz, AcceptedOnce env.hash psz

theorem base58Codecs (env : CryptoEnv) : Base58Codecs env where
  bytes v := by
    rw [decodeBase58Str, Decimal.cStr_eq_self encodeBase58_ne_zero, decodeBase58_encodeBase58]
  text _ _ h := encodeBase58_of_decodeBase58 h
  object data := CBase58Data.setString_toString env.hash data
  keyID fTestNet id := by
    rw [CBase58Data.setString_toString]
    exact (get_setKeyID fTestNet id).2
  scriptID fTestNet id := by
    rw [CBase58Data.setString_toString]
    exact (get_setScriptID fTestNet id).2
  secret fTestNet key := by
    obtain ⟨hvalid, hkey⟩ := getKey_setKey fTestNet key
    refine ⟨CBitcoinSecret.setKey fTestNet key, ?_, hkey⟩
    rw [CBitcoinSecret.setString, CBase58Data.setString_toString]
    simp [hvalid]
  once psz := acceptedOnce env.hash psz

/-- Behind a zero byte nothing is read. -/
theorem not_forall_encodeBase58 : ¬ ∀ str v, decodeBase58Str str = some v → encodeBase58 v = trim str := by
  intro h
  have hdecode : decodeBase58Str [50, 0] = some [1] := by decide +kernel
  exact absurd (h [50, 0] [1] hdecode) (by decide +kernel)

end Objects

end Base58

end Manna
