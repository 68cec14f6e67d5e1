import Manna.Transaction
import Manna.VarInt
import Mathlib.Tactic.Linarith
import Mathlib.Tactic.Ring

/-!
Compact serialization of an output (`script.h`, `script.cpp`: `CScriptCompressor`;
`main.h`, `main.cpp`: `CTxOutCompressor`).

Six script forms are written as a byte below six and the data they hold, any other
script as its size plus six and its bytes. An amount loses its trailing zeros first.
Reading, writing and sizing are three functions of the source, and of this module.

* `decompress_compress`: a script form is restored from its data;
* `decompressAmount_compressAmount`: so is an amount in the money range;
* `CTxOutCompressor.reads_serialize`, `CTxOutCompressor.length_serialize`: an output is
  read back from exactly the bytes written, and `GetSerializeSize` counts them.
-/

namespace Manna

open Codec

/-- What `CPubKey` asks of the elliptic curve library. -/
structure PubKeyOps where
  /-- `IsFullyValid`, on the bytes of the key. -/
  isFullyValid : List UInt8 → Bool
  /-- `Decompress`: the uncompressed key, `none` where it returns false. -/
  decompress : List UInt8 → Option (List UInt8)

/-- **Decompression inverts point compression.** A fully valid uncompressed key is
restored from its x coordinate and the parity of its last byte. -/
def PubKeyOps.Lawful (keys : PubKeyOps) : Prop :=
  ∀ pubkey : List UInt8, pubkey.length = 65 → pubkey[0]? = some 0x04 →
    keys.isFullyValid pubkey = true →
      keys.decompress ((0x02 ||| (pubkey[64]?.getD 0 &&& 0x01)) :: (pubkey.drop 1).take 32) =
        some pubkey

/-! ### Special scripts -/

namespace CScriptCompressor

def nSpecialScripts : Nat := 6

def OP_DUP : Nat := 0x76
def OP_EQUALVERIFY : Nat := 0x88

/-- An opcode as it stands in a script. -/
def op (opcode : Nat) : UInt8 := UInt8.ofNat opcode

def isToKeyID (script : CScript) : Option (List UInt8) :=
  if script.length = 25 ∧ script[0]? = some (op OP_DUP) ∧ script[1]? = some (op OP_HASH160) ∧
      script[2]? = some 20 ∧ script[23]? = some (op OP_EQUALVERIFY) ∧
      script[24]? = some (op OP_CHECKSIG) then
    some ((script.drop 3).take 20)
  else none

def isToScriptID (script : CScript) : Option (List UInt8) :=
  if script.length = 23 ∧ script[0]? = some (op OP_HASH160) ∧ script[1]? = some 20 ∧
      script[22]? = some (op OP_EQUAL) then
    some ((script.drop 2).take 20)
  else none

/-- `IsToPubKey`: a compressed key as it is, an uncompressed one when it is valid. -/
def isToPubKey (keys : PubKeyOps) (script : CScript) : Option (List UInt8) :=
  if script.length = 35 ∧ script[0]? = some 33 ∧ script[34]? = some (op OP_CHECKSIG) ∧
      (script[1]? = some 0x02 ∨ script[1]? = some 0x03) then
    some ((script.drop 1).take 33)
  else if script.length = 67 ∧ script[0]? = some 65 ∧ script[66]? = some (op OP_CHECKSIG) ∧
      script[1]? = some 0x04 then
    if keys.isFullyValid ((script.drop 1).take 65) then some ((script.drop 1).take 65) else none
  else none

/-- The part of `Compress` that turns a key into 33 bytes. -/
def compressPubKey (pubkey : List UInt8) : Option (List UInt8) :=
  if pubkey[0]? = some 0x02 ∨ pubkey[0]? = some 0x03 then
    some (pubkey[0]?.getD 0 :: (pubkey.drop 1).take 32)
  else if pubkey[0]? = some 0x04 then
    some ((0x04 ||| (pubkey[64]?.getD 0 &&& 0x01)) :: (pubkey.drop 1).take 32)
  else none

/-- `Compress`; `none` where it returns false. -/
def compress (keys : PubKeyOps) (script : CScript) : Option (List UInt8) :=
  match isToKeyID script with
  | some keyID => some (0x00 :: keyID)
  | none =>
    match isToScriptID script with
    | some scriptID => some (0x01 :: scriptID)
    | none => (isToPubKey keys script).bind compressPubKey

def getSpecialSize (nSize : Nat) : Nat :=
  if nSize = 0 ∨ nSize = 1 then 20
  else if nSize = 2 ∨ nSize = 3 ∨ nSize = 4 ∨ nSize = 5 then 32
  else 0

/-- `Decompress`: the script it leaves, `none` where it returns false. -/
def decompress (keys : PubKeyOps) (nSize : Nat) (data : List UInt8) : Option CScript :=
  match nSize with
  | 0 => some (op OP_DUP :: op OP_HASH160 :: 20 :: (data ++ [op OP_EQUALVERIFY, op OP_CHECKSIG]))
  | 1 => some (op OP_HASH160 :: 20 :: (data ++ [op OP_EQUAL]))
  | 2 | 3 => some (33 :: UInt8.ofNat nSize :: (data ++ [op OP_CHECKSIG]))
  | 4 | 5 =>
    (keys.decompress (UInt8.ofNat (nSize - 2) :: data)).map fun pubkey =>
      65 :: (pubkey ++ [op OP_CHECKSIG])
  | _ => none

def getSerializeSize (keys : PubKeyOps) (script : CScript) : Nat :=
  match compress keys script with
  | some compr => compr.length
  | none =>
    let nSize : Nat := (script.length + nSpecialScripts) % 2 ^ 32
    (script.length + getSizeOfVarInt nSize) % 2 ^ 32

def serialize (keys : PubKeyOps) (script : CScript) : List UInt8 :=
  match compress keys script with
  | some compr => compr
  | none =>
    let nSize : Nat := (script.length + nSpecialScripts) % 2 ^ 32
    writeVarInt nSize ++ script

/-- `Unserialize` into `script`, which a failed `Decompress` leaves as it is. -/
def unserialize (keys : PubKeyOps) (script : CScript) : Reader CScript := do
  let nSize ← readVarInt 32
  if nSize < nSpecialScripts then
    let vch ← bytes (getSpecialSize nSize)
    return (decompress keys nSize vch).getD script
  else bytes (nSize - nSpecialScripts)

end CScriptCompressor

namespace CTxOutCompressor

/-- The first loop of `CompressAmount`: at most so many trailing zeros are dropped. -/
def stripZeros : Nat → Nat → Nat × Nat
  | 0, n => (n, 0)
  | k + 1, n =>
    if n % 10 = 0 then ((stripZeros k (n / 10)).1, (stripZeros k (n / 10)).2 + 1) else (n, 0)

def compressAmount (n : Nat) : Nat :=
  if n = 0 then 0
  else
    let e := (stripZeros 9 n).2
    let n := (stripZeros 9 n).1
    if e < 9 then (1 + (n / 10 * 9 + n % 10 - 1) * 10 + e) % 2 ^ 64
    else (1 + (n - 1) * 10 + 9) % 2 ^ 64

def decompressAmount (x : Nat) : Nat :=
  if x = 0 then 0
  else
    let x := x - 1
    let e := x % 10
    let x := x / 10
    let n := if e < 9 then x / 9 * 10 + (x % 9 + 1) else x + 1
    n * 10 ^ e % 2 ^ 64

/-- The number that a code stands for. -/
def codeValue (x : Nat) : Nat :=
  if x = 0 then 0
  else
    let e := (x - 1) % 10
    let x := (x - 1) / 10
    (if e < 9 then x / 9 * 10 + (x % 9 + 1) else x + 1) * 10 ^ e

/-- The value as `uint64_t`. -/
def amount (txout : CTxOut) : Nat := (txout.nValue % 2 ^ 64).toNat

def getSerializeSize (keys : PubKeyOps) (txout : CTxOut) : Nat :=
  (getSizeOfVarInt (compressAmount (amount txout)) +
    CScriptCompressor.getSerializeSize keys txout.scriptPubKey) % 2 ^ 32

def serialize (keys : PubKeyOps) (txout : CTxOut) : List UInt8 :=
  writeVarInt (compressAmount (amount txout)) ++
    CScriptCompressor.serialize keys txout.scriptPubKey

/-- `Unserialize` (`IMPLEMENT_SERIALIZE`) into an output. -/
def unserialize (keys : PubKeyOps) (txout : CTxOut) : Reader CTxOut := do
  let nVal ← readVarInt 64
  let scriptPubKey ← CScriptCompressor.unserialize keys txout.scriptPubKey
  return ⟨Int.bmod (decompressAmount nVal) (2 ^ 64), scriptPubKey⟩

end CTxOutCompressor

/-! ### The special scripts come back -/

namespace CScriptCompressor

variable {keys : PubKeyOps} {script : CScript} {data : List UInt8}

theorem eq_take_concat {l : List UInt8} {n : Nat} {b : UInt8} (hlen : l.length = n + 1)
    (hlast : l[n]? = some b) : l = l.take n ++ [b] := by
  obtain ⟨hlt, hget⟩ := List.getElem?_eq_some_iff.mp hlast
  have hdrop : l.drop n = [b] := by
    rw [List.drop_eq_getElem_cons hlt, hget, List.drop_eq_nil_of_le (Nat.le_of_eq hlen)]
  rw [← hdrop, List.take_append_drop]

theorem eq_cons_drop {l : List UInt8} {b : UInt8} (hfirst : l[0]? = some b) : l = b :: l.drop 1 := by
  cases l with
  | nil => cases hfirst
  | cons a l =>
    simp only [List.getElem?_cons_zero, Option.some.injEq] at hfirst
    rw [hfirst, List.drop_one, List.tail_cons]

theorem eq_of_isToKeyID (h : isToKeyID script = some data) : script = op OP_DUP :: op OP_HASH160 :: 20 ::
        (data ++ [op OP_EQUALVERIFY, op OP_CHECKSIG]) ∧ data.length = 20 := by
  unfold isToKeyID at h
  split_ifs at h with hform
  obtain ⟨hlen, hdup, hhash, hsize, hverify, hsig⟩ := hform
  cases h
  constructor
  · have hlast := eq_take_concat hlen hsig
    have hbefore : script.take 24 = script.take 23 ++ [op OP_EQUALVERIFY] := by
      have hsplit := eq_take_concat (l := script.take 24) (n := 23) (by simp [hlen])
        (by rwa [List.getElem?_take_of_lt (by omega)])
      rwa [List.take_take, Nat.min_eq_left (by omega)] at hsplit
    have hhead := eq_cons_drop hdup
    have hnext := eq_cons_drop (l := script.drop 1) (by rwa [List.getElem?_drop])
    have hthird := eq_cons_drop (l := script.drop 2) (by rwa [List.getElem?_drop])
    rw [List.drop_drop] at hnext hthird
    have hfront : script.take 23 = op OP_DUP :: op OP_HASH160 :: 20 :: (script.drop 3).take 20 := by
      conv_lhs => rw [hhead, hnext, hthird]
      rfl
    conv_lhs => rw [hlast, hbefore, hfront]
    simp
  · simp [hlen]

theorem eq_of_isToScriptID (h : isToScriptID script = some data) :
    script = op OP_HASH160 :: 20 :: (data ++ [op OP_EQUAL]) ∧ data.length = 20 := by
  unfold isToScriptID at h
  split_ifs at h with hform
  obtain ⟨hlen, hhash, hsize, hequal⟩ := hform
  cases h
  constructor
  · have hlast := eq_take_concat hlen hequal
    have hhead := eq_cons_drop hhash
    have hnext := eq_cons_drop (l := script.drop 1) (by rwa [List.getElem?_drop])
    rw [List.drop_drop] at hnext
    have hfront : script.take 22 = op OP_HASH160 :: 20 :: (script.drop 2).take 20 := by
      conv_lhs => rw [hhead, hnext]
      rfl
    conv_lhs => rw [hlast, hfront]
    simp
  · simp [hlen]

/-- The script of a key: its size, its bytes and `OP_CHECKSIG`. -/
theorem eq_of_keyScript {n : Nat} {size : UInt8} (hlen : script.length = n + 2)
    (hsize : script[0]? = some size) (hsig : script[n + 1]? = some (op OP_CHECKSIG)) :
    script = size :: ((script.drop 1).take n ++ [op OP_CHECKSIG]) := by
  have hlast := eq_take_concat hlen hsig
  have hhead := eq_cons_drop hsize
  have hfront : script.take (n + 1) = size :: (script.drop 1).take n := by
    conv_lhs => rw [hhead]
    rfl
  conv_lhs => rw [hlast, hfront]
  rfl

variable (keys) in
theorem decompress_compressedKey {pubkey : List UInt8} {nSize : Nat} (hsize : nSize = 2 ∨ nSize = 3)
    (hlen : pubkey.length = 33) (hhead : pubkey[0]? = some (UInt8.ofNat nSize)) :
    compressPubKey pubkey = some (UInt8.ofNat nSize :: pubkey.drop 1) ∧
      (pubkey.drop 1).length = getSpecialSize nSize ∧
        decompress keys nSize (pubkey.drop 1) = some (33 :: (pubkey ++ [op OP_CHECKSIG])) := by
  have hpub := eq_cons_drop hhead
  have htake : (pubkey.drop 1).take 32 = pubkey.drop 1 := List.take_of_length_le (by simp [hlen])
  have hdec : decompress keys nSize (pubkey.drop 1) = some (33 :: (pubkey ++ [op OP_CHECKSIG])) := by
    conv_rhs => rw [hpub]
    rcases hsize with rfl | rfl <;> rfl
  refine ⟨?_, ?_, hdec⟩
  · rw [compressPubKey, hhead, htake]
    rcases hsize with rfl | rfl <;> rfl
  · rw [List.length_drop, hlen]
    rcases hsize with rfl | rfl <;> rfl

/-- The parity of the last byte of a key, in the two bytes it is written to. -/
theorem parity_cases (b : UInt8) : b &&& 0x01 = 0 ∨ b &&& 0x01 = 1 := by
  have hbit : (b &&& 0x01).toNat = b.toNat % 2 := by
    rw [UInt8.toNat_and]
    exact Nat.and_two_pow_sub_one_eq_mod b.toNat 1
  rcases Nat.mod_two_eq_zero_or_one b.toNat with heven | hodd
  · exact Or.inl (UInt8.toNat_inj.mp (hbit.trans heven))
  · exact Or.inr (UInt8.toNat_inj.mp (hbit.trans hodd))

theorem decompress_uncompressedKey (hkeys : keys.Lawful) {pubkey : List UInt8}
    (hlen : pubkey.length = 65) (hhead : pubkey[0]? = some 0x04)
    (hvalid : keys.isFullyValid pubkey = true) : ∃ nSize, nSize < nSpecialScripts ∧
      compressPubKey pubkey = some (UInt8.ofNat nSize :: (pubkey.drop 1).take 32) ∧
        ((pubkey.drop 1).take 32).length = getSpecialSize nSize ∧
          decompress keys nSize ((pubkey.drop 1).take 32) = some (65 :: (pubkey ++ [op OP_CHECKSIG])) := by
  have hlaw := hkeys pubkey hlen hhead hvalid
  have hnew : compressPubKey pubkey =
      some ((0x04 ||| (pubkey[64]?.getD 0 &&& 0x01)) :: (pubkey.drop 1).take 32) := by
    rw [compressPubKey, hhead]
    rfl
  have hdata : ((pubkey.drop 1).take 32).length = 32 := by simp [hlen]
  rcases parity_cases (pubkey[64]?.getD 0) with hpar | hpar
  · rw [hpar] at hlaw hnew
    refine ⟨4, by decide, hnew, hdata, ?_⟩
    show (keys.decompress (0x02 :: _)).map _ = _
    rw [show (0x02 : UInt8) = 0x02 ||| 0 by decide, hlaw]
    rfl
  · rw [hpar] at hlaw hnew
    refine ⟨5, by decide, hnew, hdata, ?_⟩
    show (keys.decompress (0x03 :: _)).map _ = _
    rw [show (0x03 : UInt8) = 0x02 ||| 1 by decide, hlaw]
    rfl

/-- **A key script is restored from the compressed key.** -/
theorem decompress_compressPubKey (hkeys : keys.Lawful) {pubkey compr : List UInt8}
    (hpub : isToPubKey keys script = some pubkey) (hcompr : compressPubKey pubkey = some compr) :
    ∃ (nSize : Nat) (data : List UInt8), nSize < nSpecialScripts ∧
      compr = UInt8.ofNat nSize :: data ∧ data.length = getSpecialSize nSize ∧
        decompress keys nSize data = some script := by
  unfold isToPubKey at hpub
  split_ifs at hpub with hshort hlong hvalid
  · obtain ⟨hlen, hsize, hsig, hheader⟩ := hshort
    cases hpub
    have hscript := eq_of_keyScript (n := 33) hlen hsize hsig
    have hhead : ((script.drop 1).take 33)[0]? = script[1]? := by
      rw [List.getElem?_take_of_lt (by omega), List.getElem?_drop]
    obtain ⟨nSize, hnSize, hbyte⟩ : ∃ nSize, (nSize = 2 ∨ nSize = 3) ∧
        script[1]? = some (UInt8.ofNat nSize) :=
      hheader.elim (fun h => ⟨2, Or.inl rfl, h⟩) fun h => ⟨3, Or.inr rfl, h⟩
    obtain ⟨hnew, hdata, hdec⟩ := decompress_compressedKey keys hnSize
      (by simp [hlen]) (hhead.trans hbyte)
    rw [hnew] at hcompr
    cases hcompr
    refine ⟨nSize, _, ?_, rfl, hdata, by rw [hdec, ← hscript]⟩
    rcases hnSize with rfl | rfl <;> decide
  · obtain ⟨hlen, hsize, hsig, hheader⟩ := hlong
    cases hpub
    have hscript := eq_of_keyScript (n := 65) hlen hsize hsig
    have hhead : ((script.drop 1).take 65)[0]? = some 0x04 := by
      rw [List.getElem?_take_of_lt (by omega), List.getElem?_drop]
      exact hheader
    obtain ⟨nSize, hnSize, hnew, hdata, hdec⟩ :=
      decompress_uncompressedKey hkeys (by simp [hlen]) hhead hvalid
    rw [hnew] at hcompr
    cases hcompr
    exact ⟨nSize, _, hnSize, rfl, hdata, by rw [hdec, ← hscript]⟩

/-- **A special script is restored from its data.** What `Compress` gives is a size
below six and as many bytes as `GetSpecialSize` says, and `Decompress` undoes it. -/
theorem decompress_compress (hkeys : keys.Lawful) {compr : List UInt8}
    (h : compress keys script = some compr) : ∃ (nSize : Nat) (data : List UInt8), nSize < nSpecialScripts ∧
      compr = UInt8.ofNat nSize :: data ∧ data.length = getSpecialSize nSize ∧
        decompress keys nSize data = some script := by
  unfold compress at h
  cases hkey : isToKeyID script with
  | some keyID =>
    rw [hkey] at h
    cases h
    obtain ⟨hscript, hlen⟩ := eq_of_isToKeyID hkey
    exact ⟨0, keyID, by decide, rfl, hlen, congrArg some hscript.symm⟩
  | none =>
    cases hid : isToScriptID script with
    | some scriptID =>
      simp only [hkey, hid] at h
      cases h
      obtain ⟨hscript, hlen⟩ := eq_of_isToScriptID hid
      exact ⟨1, scriptID, by decide, rfl, hlen, congrArg some hscript.symm⟩
    | none =>
      simp only [hkey, hid] at h
      obtain ⟨pubkey, hpub, hcompr⟩ := Option.bind_eq_some_iff.mp h
      exact decompress_compressPubKey hkeys hpub hcompr

theorem length_compress_le {compr : List UInt8} (h : compress keys script = some compr) :
    compr.length ≤ script.length := by
  have hkeyLen : ∀ {pubkey out : List UInt8}, compressPubKey pubkey = some out →
      out.length ≤ 33 := by
    intro pubkey out hout
    unfold compressPubKey at hout
    split_ifs at hout <;>
      · cases hout
        rw [List.length_cons]
        exact Nat.succ_le_succ (List.length_take_le _ _)
  unfold compress at h
  cases hkey : isToKeyID script with
  | some keyID =>
    rw [hkey] at h
    cases h
    obtain ⟨hscript, hlen⟩ := eq_of_isToKeyID hkey
    rw [hscript]
    simp [hlen]
  | none =>
    cases hid : isToScriptID script with
    | some scriptID =>
      simp only [hkey, hid] at h
      cases h
      obtain ⟨hscript, hlen⟩ := eq_of_isToScriptID hid
      rw [hscript]
      simp [hlen]
    | none =>
      simp only [hkey, hid] at h
      obtain ⟨pubkey, hpub, hcompr⟩ := Option.bind_eq_some_iff.mp h
      apply le_trans (hkeyLen hcompr)
      unfold isToPubKey at hpub
      split_ifs at hpub with hshort hlong
      · omega
      · omega

/-- **A script is read back** from exactly the bytes written. -/
theorem reads_serialize (hkeys : keys.Lawful) (hlen : script.length + nSpecialScripts < 2 ^ 32)
    (old : CScript) : Reads (unserialize keys old) (serialize keys script) script := by
  unfold serialize
  cases hcompr : compress keys script with
  | some compr =>
    obtain ⟨nSize, data, hsize, rfl, hdata, hdec⟩ := decompress_compress hkeys hcompr
    have hsmall : nSize ≤ 0x7F := by
      have : nSize < 6 := hsize
      omega
    have hhead : Reads (readVarInt 32) [UInt8.ofNat nSize] nSize := by
      rw [← writeVarInt_of_small hsmall]
      exact reads_writeVarInt (by omega) (by omega)
    apply hhead.bind (b := script)
    rw [if_pos hsize]
    have hread := (hdata ▸ reads_bytes data).map
      (f := fun vch => (decompress keys nSize vch).getD old)
    rwa [hdec] at hread
  | none =>
    have hmod : (script.length + nSpecialScripts) % 2 ^ 32 = script.length + nSpecialScripts :=
      Nat.mod_eq_of_lt hlen
    simp only [hmod]
    have hsize : Reads (readVarInt 32) (writeVarInt (script.length + nSpecialScripts : Nat))
        (script.length + nSpecialScripts) :=
      reads_writeVarInt (by omega) (by omega)
    apply hsize.bind
    rw [if_neg (by omega), Nat.add_sub_cancel]
    exact reads_bytes script

variable (keys) in
theorem length_serialize_le (hlen : script.length + nSpecialScripts < 2 ^ 32) :
    (serialize keys script).length ≤ script.length + 5 := by
  unfold serialize
  cases hcompr : compress keys script with
  | some compr => exact le_trans (length_compress_le hcompr) (Nat.le_add_right _ 5)
  | none =>
    simp only [Nat.mod_eq_of_lt hlen, List.length_append, length_writeVarInt]
    have hfive : getSizeOfVarInt (script.length + nSpecialScripts : Nat) ≤ 5 :=
      getSizeOfVarInt_le (k := 4) (by omega)
    omega

/-- **Its size counts the bytes.** -/
theorem length_serialize (hlen : script.length + nSpecialScripts < 2 ^ 32) :
    getSerializeSize keys script = (serialize keys script).length := by
  unfold serialize getSerializeSize
  cases hcompr : compress keys script with
  | some compr => rfl
  | none =>
    have hsix : nSpecialScripts = 6 := rfl
    have hle := length_serialize_le keys hlen
    simp only [serialize, hcompr, List.length_append, length_writeVarInt] at hle
    simp only [List.length_append, length_writeVarInt]
    rw [Nat.mod_eq_of_lt (by omega)]
    exact Nat.add_comm _ _

end CScriptCompressor

/-! ### Amounts come back -/

namespace CTxOutCompressor

/-- What dropping zeros leaves: the zeros are a power of ten, and a digit that is not
zero ends the number unless nine zeros were dropped. -/
theorem stripZeros_spec : ∀ {k n : Nat}, 0 < n →
    0 < (stripZeros k n).1 ∧ n = (stripZeros k n).1 * 10 ^ (stripZeros k n).2 ∧
      (stripZeros k n).2 ≤ k ∧ ((stripZeros k n).2 < k → (stripZeros k n).1 % 10 ≠ 0)
  | 0, n, hn => ⟨hn, (Nat.mul_one n).symm, Nat.le_refl 0, fun h => absurd h (Nat.lt_irrefl 0)⟩
  | k + 1, n, hn => by
    by_cases hzero : n % 10 = 0
    · obtain ⟨hpos, hprod, hle, hdigit⟩ := stripZeros_spec (k := k) (n := n / 10) (by omega)
      rw [stripZeros, if_pos hzero]
      refine ⟨hpos, ?_, by omega, fun hlt => hdigit (by omega)⟩
      rw [Nat.pow_succ, ← Nat.mul_assoc, ← hprod]
      omega
    · rw [stripZeros, if_neg hzero]
      exact ⟨hn, (Nat.mul_one n).symm, Nat.zero_le _, fun _ => hzero⟩

theorem stripZeros_le {k n : Nat} (hn : 0 < n) : (stripZeros k n).1 ≤ n := by
  obtain ⟨-, hprod, -, -⟩ := stripZeros_spec (k := k) hn
  calc (stripZeros k n).1 ≤ (stripZeros k n).1 * 10 ^ (stripZeros k n).2 :=
        Nat.le_mul_of_pos_right _ (Nat.pow_pos (by decide))
    _ = n := hprod.symm

/-- **A compressed amount has at most one digit more.** -/
theorem compressAmount_le {n : Nat} : compressAmount n ≤ 10 * n := by
  unfold compressAmount
  split_ifs with hzero
  · exact Nat.zero_le _
  · have hle := stripZeros_le (k := 9) (Nat.pos_of_ne_zero hzero)
    obtain ⟨hpos, -, hnine, -⟩ := stripZeros_spec (k := 9) (Nat.pos_of_ne_zero hzero)
    generalize stripZeros 9 n = out at hle hpos hnine
    obtain ⟨m, e⟩ := out
    simp only at hle hpos hnine ⊢
    split_ifs
    · exact le_trans (Nat.mod_le _ _) (by omega)
    · exact le_trans (Nat.mod_le _ _) (by omega)

/-- **A code stands for its amount**, as far as `uint64_t` holds the code. -/
theorem codeValue_compressAmount {n : Nat} (hn : 10 * n < 2 ^ 64) : codeValue (compressAmount n) = n := by
  by_cases hzero : n = 0
  · rw [hzero]
    rfl
  · have hle := stripZeros_le (k := 9) (Nat.pos_of_ne_zero hzero)
    obtain ⟨hpos, hprod, hnine, hdigit⟩ := stripZeros_spec (k := 9) (Nat.pos_of_ne_zero hzero)
    rw [compressAmount, if_neg hzero]
    generalize stripZeros 9 n = out at hle hpos hprod hnine hdigit
    obtain ⟨m, e⟩ := out
    simp only at hle hpos hprod hnine hdigit ⊢
    split_ifs with he
    · -- fewer than nine zeros: the last digit is kept as one of nine
      have hlast := hdigit he
      have hx : (1 + (m / 10 * 9 + m % 10 - 1) * 10 + e) % 2 ^ 64 =
          (m / 10 * 9 + m % 10 - 1) * 10 + e + 1 := by
        rw [Nat.mod_eq_of_lt (by omega)]
        omega
      have hdigits : ((m / 10 * 9 + m % 10 - 1) * 10 + e) % 10 = e := by omega
      have hrest : ((m / 10 * 9 + m % 10 - 1) * 10 + e) / 10 = m / 10 * 9 + m % 10 - 1 := by omega
      have hm : (m / 10 * 9 + m % 10 - 1) / 9 * 10 + ((m / 10 * 9 + m % 10 - 1) % 9 + 1) = m := by
        omega
      rw [hx, codeValue, if_neg (Nat.succ_ne_zero _)]
      simp only [Nat.add_sub_cancel, hdigits, hrest, if_pos he, hm]
      exact hprod.symm
    · -- nine zeros or more: the rest is kept whole
      have he : e = 9 := by omega
      subst he
      have hx : (1 + (m - 1) * 10 + 9) % 2 ^ 64 = (m - 1) * 10 + 9 + 1 := by
        rw [Nat.mod_eq_of_lt (by omega)]
        omega
      have hdigits : ((m - 1) * 10 + 9) % 10 = 9 := by omega
      have hrest : ((m - 1) * 10 + 9) / 10 = m - 1 := by omega
      rw [hx, codeValue, if_neg (Nat.succ_ne_zero _)]
      simp only [Nat.add_sub_cancel, hdigits, hrest, if_neg (Nat.lt_irrefl 9),
        Nat.sub_add_cancel hpos]
      exact hprod.symm

theorem decompressAmount_eq {x : Nat} (h : codeValue x < 2 ^ 64) : decompressAmount x = codeValue x := by
  unfold decompressAmount codeValue at *
  split
  · rfl
  · next hx =>
    rw [if_neg hx] at h
    exact Nat.mod_eq_of_lt h

/-- **An amount is restored**, as far as `uint64_t` holds its compressed form. -/
theorem decompressAmount_compressAmount {n : Nat} (hn : 10 * n < 2 ^ 64) :
    decompressAmount (compressAmount n) = n := by
  have hvalue := codeValue_compressAmount hn
  rw [decompressAmount_eq (by omega), hvalue]

variable {keys : PubKeyOps} {txout : CTxOut}

/-- An amount of the money range is its own `uint64_t`. -/
theorem amount_of_moneyRange (hvalue : moneyRange txout.nValue = true) :
    (amount txout : Int) = txout.nValue ∧ 10 * amount txout ≤ 500000000000000000 := by
  obtain ⟨hnonneg, hmax⟩ := moneyRange_iff.mp hvalue
  have hlimit : MAX_MONEY = 50000000000000000 := by decide
  rw [hlimit] at hmax
  have hmod : txout.nValue % 2 ^ 64 = txout.nValue := Int.emod_eq_of_lt hnonneg (by omega)
  rw [amount, hmod]
  omega

theorem reads_serialize (hkeys : keys.Lawful) (hvalue : moneyRange txout.nValue = true)
    (hlen : txout.scriptPubKey.length + CScriptCompressor.nSpecialScripts < 2 ^ 32)
    (old : CTxOut) : Reads (unserialize keys old) (serialize keys txout) txout := by
  obtain ⟨hamount, hmax⟩ := amount_of_moneyRange hvalue
  have hle := compressAmount_le (n := amount txout)
  have hval : Reads (readVarInt 64) (writeVarInt (compressAmount (amount txout)))
      (compressAmount (amount txout)) := reads_writeVarInt (by omega) (by omega)
  have hback := decompressAmount_compressAmount (n := amount txout) (by omega)
  have hscript := CScriptCompressor.reads_serialize hkeys hlen old.scriptPubKey
  have hvalue : Int.bmod (amount txout) (2 ^ 64) = txout.nValue := by
    rw [Int.bmod_def, Int.emod_eq_of_lt (by omega) (by omega), if_pos (by omega), hamount]
  apply hval.bind
  simp only [hback, hvalue]
  exact hscript.map (f := fun script => CTxOut.mk txout.nValue script)

variable (keys) in
theorem length_serialize_le (hvalue : moneyRange txout.nValue = true)
    (hlen : txout.scriptPubKey.length + CScriptCompressor.nSpecialScripts < 2 ^ 32) :
    (serialize keys txout).length ≤ txout.scriptPubKey.length + 14 := by
  obtain ⟨-, hmax⟩ := amount_of_moneyRange hvalue
  have hle := compressAmount_le (n := amount txout)
  have hnine : getSizeOfVarInt (compressAmount (amount txout)) ≤ 9 := getSizeOfVarInt_le (k := 8) (by omega)
  have hscript := CScriptCompressor.length_serialize_le keys hlen
  rw [serialize, List.length_append, length_writeVarInt]
  omega

theorem length_serialize (hvalue : moneyRange txout.nValue = true)
    (hlen : txout.scriptPubKey.length + 14 < 2 ^ 32) :
    getSerializeSize keys txout = (serialize keys txout).length := by
  have hsix : CScriptCompressor.nSpecialScripts = 6 := rfl
  have hle := length_serialize_le keys hvalue (by omega)
  rw [getSerializeSize, CScriptCompressor.length_serialize (by omega), ← length_writeVarInt,
    ← List.length_append]
  exact Nat.mod_eq_of_lt (by
    show (serialize keys txout).length < 2 ^ 32
    omega)

end CTxOutCompressor

end Manna
