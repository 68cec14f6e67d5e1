import Manna.EvalScript

/-!
The encoding of signatures (`script.cpp`: `IsCanonicalSignature`), with every read checked and every
message.

* `CanonicalSignature`: the grammar;
* `readSignature_of_parts`: the tests, on a string that has the parts its two lengths name;
* `readSignature_iff`: no byte outside of the string is read, and the strings that pass are those of the
  grammar.
-/

namespace Manna

/-! ### The source -/

/-- The tests on the value that starts at a place: R or S. `none` stands for a read outside of the
string, an error for `error(...)`, which returns false. -/
def readNumber (vchSig : Valtype) (value : String) (start nLen : Nat) : Option (Except String Unit) :=
  match vchSig[start - 2]? with
  | none => none
  | some type =>
    if type ≠ 0x02 then some (.error s!"Non-canonical signature: {value} value type mismatch")
    else if nLen = 0 then some (.error s!"Non-canonical signature: {value} length is zero")
    else
      match vchSig[start]? with
      | none => none
      | some first =>
        if first &&& 0x80 ≠ 0 then
          some (.error s!"Non-canonical signature: {value} value negative")
        else if nLen > 1 ∧ first = 0x00 then
          match vchSig[start + 1]? with
          | none => none
          | some second =>
            if second &&& 0x80 = 0 then
              some (.error s!"Non-canonical signature: {value} value excessively padded")
            else some (.ok ())
        else some (.ok ())

/-- `IsCanonicalSignature`. -/
def readSignature (vchSig : Valtype) : Option (Except String Unit) :=
  if vchSig.length < 9 then some (.error "Non-canonical signature: too short")
  else if vchSig.length > 73 then some (.error "Non-canonical signature: too long")
  else
    match vchSig[vchSig.length - 1]? with
    | none => none
    | some last =>
      let nHashType := (last &&& ~~~0x80).toNat
      if nHashType < SIGHASH_ALL ∨ nHashType > SIGHASH_SINGLE then
        some (.error "Non-canonical signature: unknown hashtype byte")
      else
        match vchSig[0]?, vchSig[1]?, vchSig[3]? with
        | some type, some len, some lenR =>
          if type ≠ 0x30 then some (.error "Non-canonical signature: wrong type")
          else if len.toNat ≠ vchSig.length - 3 then
            some (.error "Non-canonical signature: wrong length marker")
          else
            let nLenR := lenR.toNat
            if 5 + nLenR ≥ vchSig.length then
              some (.error "Non-canonical signature: S length misplaced")
            else
              match vchSig[5 + nLenR]? with
              | none => none
              | some lenS =>
                let nLenS := lenS.toNat
                if nLenR + nLenS + 7 ≠ vchSig.length then
                  some (.error "Non-canonical signature: R+S length mismatch")
                else
                  match readNumber vchSig "R" 4 nLenR with
                  | none => none
                  | some (.error e) => some (.error e)
                  | some (.ok _) => readNumber vchSig "S" (6 + nLenR) nLenS
        | _, _, _ => none

/-- A number that is not negative, in as few bytes as possible. -/
structure MinimalNumber (number : Valtype) : Prop where
  nonempty : number ≠ []
  nonneg : ∀ first, number.head? = some first → first.toNat < 0x80
  minimal : ∀ second rest, number = 0x00 :: second :: rest → 0x80 ≤ second.toNat

/-- `SIGHASH_ALL`, `SIGHASH_NONE` or `SIGHASH_SINGLE`, with or without `SIGHASH_ANYONECANPAY`. -/
def AllowedHashType (hashtype : UInt8) : Prop :=
  hashtype.toNat % SIGHASH_ANYONECANPAY ∈ [SIGHASH_ALL, SIGHASH_NONE, SIGHASH_SINGLE]

/-- **A canonical signature**: `<30> <total len> <02> <len R> <R> <02> <len S> <S> <hashtype>`. -/
def CanonicalSignature (vchSig : Valtype) : Prop :=
  ∃ (R S : Valtype) (len lenR lenS hashtype : UInt8),
    vchSig = 0x30 :: len :: 0x02 :: lenR :: (R ++ 0x02 :: lenS :: (S ++ [hashtype])) ∧
      len.toNat = R.length + S.length + 4 ∧ lenR.toNat = R.length ∧ lenS.toNat = S.length ∧
      MinimalNumber R ∧ MinimalNumber S ∧ AllowedHashType hashtype ∧
      9 ≤ vchSig.length ∧ vchSig.length ≤ 73

theorem and_highBit_ne_zero (b : UInt8) : b &&& 0x80 ≠ 0 ↔ 0x80 ≤ b.toNat := by
  have hlt := b.toNat_lt
  have hbit : (b &&& 0x80).toNat = (b.toNat.testBit 7).toNat * 2 ^ 7 := by
    rw [UInt8.toNat_and]
    exact Nat.and_two_pow b.toNat 7
  rw [Ne, ← UInt8.toNat_inj, hbit, Nat.testBit_eq_decide_div_mod_eq]
  by_cases h : 0x80 ≤ b.toNat
  · have hone : b.toNat / 128 % 2 = 1 := by omega
    simp [hone, h]
  · have hzero : b.toNat / 128 % 2 = 0 := by omega
    simp [hzero, h]

theorem toNat_and_not_highBit (b : UInt8) : (b &&& ~~~0x80).toNat = b.toNat % SIGHASH_ANYONECANPAY := by
  rw [UInt8.toNat_and]
  exact Nat.and_two_pow_sub_one_eq_mod b.toNat 7

theorem hashType_allowed (b : UInt8) :
    ¬ ((b &&& ~~~0x80).toNat < SIGHASH_ALL ∨ (b &&& ~~~0x80).toNat > SIGHASH_SINGLE) ↔ AllowedHashType b := by
  rw [toNat_and_not_highBit, AllowedHashType]
  simp only [SIGHASH_ALL, SIGHASH_NONE, SIGHASH_SINGLE, SIGHASH_ANYONECANPAY, List.mem_cons,
    List.not_mem_nil, or_false]
  omega

/-! ### The tests on the parts -/

theorem readNumber_of_parts (before after number : Valtype) (type len : UInt8) (value : String)
    (start : Nat) (hstart : start = before.length + 2) :
    ∃ answer, readNumber (before ++ type :: len :: (number ++ after)) value start number.length =
        some answer ∧ (answer = .ok () ↔ type = 0x02 ∧ MinimalNumber number) := by
  subst hstart
  have htype : (before ++ type :: len :: (number ++ after))[before.length + 2 - 2]? = some type := by
    rw [Nat.add_sub_cancel, List.getElem?_append_right (le_refl _), Nat.sub_self]
    rfl
  have hread : ∀ k, (before ++ type :: len :: (number ++ after))[before.length + 2 + k]? =
      (number ++ after)[k]? := by
    intro k
    rw [List.getElem?_append_right (by omega),
      show before.length + 2 + k - before.length = k + 2 by omega]
    rfl
  unfold readNumber
  rw [htype]
  dsimp only
  by_cases h02 : type = 0x02
  · rw [if_neg (not_not.mpr h02)]
    match number with
    | [] => exact ⟨_, rfl, iff_of_false nofun fun h => h.2.nonempty rfl⟩
    | first :: rest =>
      rw [if_neg (by simp), ← Nat.add_zero (before.length + 2), hread]
      dsimp only [List.cons_append, List.getElem?_cons_zero]
      by_cases hneg : first &&& 0x80 ≠ 0
      · rw [if_pos hneg]
        refine ⟨_, rfl, iff_of_false nofun fun h => ?_⟩
        exact absurd (h.2.nonneg first rfl) (Nat.not_lt.mpr ((and_highBit_ne_zero first).mp hneg))
      · rw [if_neg hneg]
        have hnonneg : first.toNat < 0x80 := Nat.not_le.mp (mt (and_highBit_ne_zero first).mpr hneg)
        by_cases hpad : (first :: rest).length > 1 ∧ first = 0x00
        · obtain ⟨hlen, rfl⟩ := hpad
          match rest with
          | second :: rest =>
            have hnext : (before ++ type :: len :: (0 :: second :: rest ++ after))[
                before.length + 2 + 0 + 1]? = some second := hread 1
            rw [if_pos ⟨hlen, rfl⟩, ← List.cons_append, hnext]
            dsimp only
            by_cases hsecond : second &&& 0x80 = 0
            · rw [if_pos hsecond]
              refine ⟨_, rfl, iff_of_false nofun fun h => ?_⟩
              exact (and_highBit_ne_zero second).mpr (h.2.minimal second rest rfl) hsecond
            · rw [if_neg hsecond]
              refine ⟨_, rfl, iff_of_true rfl ⟨h02, List.cons_ne_nil _ _, ?_, ?_⟩⟩
              · rintro _ ⟨⟩
                exact hnonneg
              · rintro _ _ ⟨⟩
                exact (and_highBit_ne_zero second).mp hsecond
        · rw [if_neg hpad]
          refine ⟨_, rfl, iff_of_true rfl ⟨h02, List.cons_ne_nil _ _, ?_, ?_⟩⟩
          · rintro _ ⟨⟩
            exact hnonneg
          · rintro second rest' ⟨⟩
            exact absurd ⟨by simp, rfl⟩ hpad
  · rw [if_pos h02]
    exact ⟨_, rfl, iff_of_false nofun fun h => h02 h.1⟩

/-- **A string with the parts that its two lengths name** passes exactly the tests of the grammar. -/
theorem readSignature_of_parts (R S : Valtype) (type len typeR lenR typeS lenS hashtype : UInt8)
    (hlenR : lenR.toNat = R.length) (hlenS : lenS.toNat = S.length)
    (hshort : 9 ≤ R.length + S.length + 7) (hlong : R.length + S.length + 7 ≤ 73) : ∃ answer, readSignature
        (type :: len :: typeR :: lenR :: (R ++ typeS :: lenS :: (S ++ [hashtype]))) = some answer ∧
      (answer = .ok () ↔ type = 0x30 ∧ len.toNat = R.length + S.length + 4 ∧
        (typeR = 0x02 ∧ MinimalNumber R) ∧ (typeS = 0x02 ∧ MinimalNumber S) ∧ AllowedHashType hashtype) := by
  generalize hsig : type :: len :: typeR :: lenR :: (R ++ typeS :: lenS :: (S ++ [hashtype])) = vchSig
  have hlength : vchSig.length = R.length + S.length + 7 := by
    rw [← hsig]
    simp only [List.length_cons, List.length_append, List.length_nil]
    omega
  have hlast : vchSig[vchSig.length - 1]? = some hashtype := by
    have hsplit : vchSig =
        (type :: len :: typeR :: lenR :: (R ++ typeS :: lenS :: S)) ++ [hashtype] := by
      rw [← hsig]
      simp
    rw [← List.getLast?_eq_getElem?, hsplit, List.getLast?_concat]
  have hS : vchSig[5 + R.length]? = some lenS := by
    have hsplit : vchSig =
        (type :: len :: typeR :: lenR :: (R ++ [typeS])) ++ lenS :: (S ++ [hashtype]) := by
      rw [← hsig]
      simp
    rw [hsplit, List.getElem?_append_right (by simp; omega)]
    simp only [List.length_cons, List.length_append, List.length_nil]
    rw [show 5 + R.length - (R.length + (0 + 1) + 1 + 1 + 1 + 1) = 0 by omega]
    rfl
  obtain ⟨answerR, hreadR, hokR⟩ :=
    readNumber_of_parts [type, len] (typeS :: lenS :: (S ++ [hashtype])) R typeR lenR "R"
      4 rfl
  obtain ⟨answerS, hreadS, hokS⟩ :=
    readNumber_of_parts (type :: len :: typeR :: lenR :: R) [hashtype] S typeS lenS "S"
      (6 + R.length) (by simp only [List.length_cons]; omega)
  have hsigR : [type, len] ++ typeR :: lenR :: (R ++ typeS :: lenS :: (S ++ [hashtype])) = vchSig := hsig
  have hsigS : (type :: len :: typeR :: lenR :: R) ++ typeS :: lenS :: (S ++ [hashtype]) = vchSig := hsig
  rw [hsigR] at hreadR
  rw [hsigS] at hreadS
  have h0 : vchSig[0]? = some type := by rw [← hsig]; rfl
  have h1 : vchSig[1]? = some len := by rw [← hsig]; rfl
  have h3 : vchSig[3]? = some lenR := by rw [← hsig]; rfl
  unfold readSignature
  rw [if_neg (by omega), if_neg (by omega), hlast]
  dsimp only
  by_cases htype : (hashtype &&& ~~~0x80).toNat < SIGHASH_ALL ∨
      (hashtype &&& ~~~0x80).toNat > SIGHASH_SINGLE
  · rw [if_pos htype]
    exact ⟨_, rfl, iff_of_false nofun fun h => (hashType_allowed hashtype).mpr h.2.2.2.2 htype⟩
  have hallowed := (hashType_allowed hashtype).mp htype
  rw [if_neg htype, h0, h1, h3]
  dsimp only
  by_cases h30 : type = 0x30
  swap
  · rw [if_pos h30]
    exact ⟨_, rfl, iff_of_false nofun fun h => h30 h.1⟩
  rw [if_neg (not_not.mpr h30)]
  by_cases hlen : len.toNat = vchSig.length - 3
  swap
  · rw [if_pos hlen]
    exact ⟨_, rfl, iff_of_false nofun fun h => hlen (by omega)⟩
  rw [if_neg (not_not.mpr hlen), hlenR, if_neg (by omega), hS]
  dsimp only
  rw [hlenS, if_neg (by omega), hreadR]
  cases answerR with
  | error e => exact ⟨_, rfl, iff_of_false nofun fun h => nomatch hokR.mpr h.2.2.1⟩
  | ok _ =>
    refine ⟨answerS, hreadS, hokS.trans ⟨fun h => ⟨h30, by omega, hokR.mp rfl, h, hallowed⟩,
      fun h => h.2.2.2.1⟩⟩

variable {vchSig : Valtype}

theorem exists_parts {lenR lenS : UInt8} (hR : vchSig[3]? = some lenR)
    (hS : vchSig[5 + lenR.toNat]? = some lenS) (hsize : lenR.toNat + lenS.toNat + 7 = vchSig.length) :
    ∃ (R S : Valtype) (type len typeR typeS hashtype : UInt8),
      vchSig = type :: len :: typeR :: lenR :: (R ++ typeS :: lenS :: (S ++ [hashtype])) ∧
        lenR.toNat = R.length ∧ lenS.toNat = S.length := by
  match vchSig, hR with
  | type :: len :: typeR :: lenR' :: rest, hR =>
    have hR' : lenR' = lenR := Option.some.inj hR
    subst hR'
    have hrest : rest.length = lenR'.toNat + lenS.toNat + 3 := by
      simp only [List.length_cons] at hsize
      omega
    have hsplit := List.take_append_drop lenR'.toNat rest
    have hdrop : (rest.drop lenR'.toNat).length = lenS.toNat + 3 := by
      rw [List.length_drop]
      omega
    have hget : (rest.drop lenR'.toNat)[1]? = some lenS := by
      rw [List.getElem?_drop, ← hS, show 5 + lenR'.toNat = lenR'.toNat + 1 + 4 by omega]
      rfl
    match hcase : rest.drop lenR'.toNat, hdrop, hget with
    | typeS :: lenS' :: tail, hdrop, hget =>
      have hS' : lenS' = lenS := Option.some.inj hget
      subst hS'
      have htail : tail.length = lenS'.toNat + 1 := by
        simp only [List.length_cons] at hdrop
        omega
      obtain ⟨S, hashtype, rfl⟩ : ∃ S hashtype, tail = S ++ [hashtype] := by
        rcases List.eq_nil_or_concat' tail with rfl | ⟨S, hashtype, rfl⟩
        · simp at htail
        · exact ⟨S, hashtype, rfl⟩
      refine ⟨rest.take lenR'.toNat, S, type, len, typeR, typeS, hashtype, ?_, ?_, ?_⟩
      · rw [hcase] at hsplit
        rw [hsplit]
      · rw [List.length_take]
        omega
      · rw [List.length_append, List.length_singleton] at htail
        omega

theorem canonicalSignature_parts_iff (R S : Valtype) (type len typeR lenR typeS lenS hashtype : UInt8)
    (hlenR : lenR.toNat = R.length) (hlenS : lenS.toNat = S.length)
    (hshort : 9 ≤ R.length + S.length + 7) (hlong : R.length + S.length + 7 ≤ 73) :
    CanonicalSignature (type :: len :: typeR :: lenR :: (R ++ typeS :: lenS :: (S ++ [hashtype]))) ↔
      type = 0x30 ∧ len.toNat = R.length + S.length + 4 ∧
        (typeR = 0x02 ∧ MinimalNumber R) ∧ (typeS = 0x02 ∧ MinimalNumber S) ∧ AllowedHashType hashtype := by
  constructor
  · rintro ⟨R', S', len', lenR', lenS', hashtype', heq, hlen, hlenR', hlenS', hR, hS, hallowed, -, -⟩
    simp only [List.cons.injEq] at heq
    obtain ⟨h30, rfl, htypeR, rfl, hnumbers⟩ := heq
    obtain ⟨rfl, hrest⟩ := List.append_inj hnumbers (hlenR.symm.trans hlenR')
    simp only [List.cons.injEq] at hrest
    obtain ⟨htypeS, rfl, hlast⟩ := hrest
    obtain ⟨rfl, hhashtype⟩ := List.append_inj hlast (hlenS.symm.trans hlenS')
    obtain rfl := List.singleton_inj.mp hhashtype
    exact ⟨h30, hlen, ⟨htypeR, hR⟩, ⟨htypeS, hS⟩, hallowed⟩
  · rintro ⟨rfl, hlen, ⟨rfl, hR⟩, ⟨rfl, hS⟩, hallowed⟩
    have hlength : (0x30 :: len :: 0x02 :: lenR ::
        (R ++ 0x02 :: lenS :: (S ++ [hashtype])) : Valtype).length = R.length + S.length + 7 := by
      simp only [List.length_cons, List.length_append, List.length_nil]
      omega
    exact ⟨R, S, len, lenR, lenS, hashtype, rfl, hlen, hlenR, hlenS, hR, hS, hallowed,
      hlength ▸ hshort, hlength ▸ hlong⟩

theorem CanonicalSignature.parts (h : CanonicalSignature vchSig) :
    ∃ lenR lenS : UInt8, vchSig[3]? = some lenR ∧ vchSig[5 + lenR.toNat]? = some lenS ∧
      lenR.toNat + lenS.toNat + 7 = vchSig.length := by
  obtain ⟨R, S, len, lenR, lenS, hashtype, rfl, -, hlenR, hlenS, -⟩ := h
  refine ⟨lenR, lenS, rfl, ?_, ?_⟩
  · rw [hlenR, show 5 + R.length = R.length + 1 + 4 by omega]
    change (R ++ 0x02 :: lenS :: (S ++ [hashtype]))[R.length + 1]? = some lenS
    rw [List.getElem?_append_right (by omega), Nat.add_sub_cancel_left]
    rfl
  · simp only [List.length_cons, List.length_append, List.length_nil]
    omega

/-- A string without them is refused, and nothing outside of it is read before. -/
theorem readSignature_of_no_parts (hshort : ¬ vchSig.length < 9) (hlong : ¬ vchSig.length > 73)
    (hparts : ¬ ∃ lenR lenS : UInt8, vchSig[3]? = some lenR ∧
      vchSig[5 + lenR.toNat]? = some lenS ∧ lenR.toNat + lenS.toNat + 7 = vchSig.length) :
    ∃ message, readSignature vchSig = some (.error message) := by
  have hread : ∀ i < vchSig.length, ∃ b, vchSig[i]? = some b := fun i hi =>
    ⟨_, List.getElem?_eq_getElem hi⟩
  obtain ⟨last, hlast⟩ := hread (vchSig.length - 1) (by omega)
  obtain ⟨type, h0⟩ := hread 0 (by omega)
  obtain ⟨len, h1⟩ := hread 1 (by omega)
  obtain ⟨lenR, h3⟩ := hread 3 (by omega)
  unfold readSignature
  rw [if_neg hshort, if_neg hlong, hlast, h0, h1, h3]
  dsimp only
  split
  · exact ⟨_, rfl⟩
  split
  · exact ⟨_, rfl⟩
  split
  · exact ⟨_, rfl⟩
  split
  · exact ⟨_, rfl⟩
  rename_i hplace
  obtain ⟨lenS, hS⟩ := hread (5 + lenR.toNat) (by omega)
  rw [hS]
  dsimp only
  rw [if_pos fun hsize => hparts ⟨lenR, lenS, h3, hS, hsize⟩]
  exact ⟨_, rfl⟩

/-- **Canonical signatures.** For every byte string no byte outside of it is read, and the test passes
exactly the strings of the grammar. -/
theorem readSignature_iff (vchSig : Valtype) :
    ∃ answer, readSignature vchSig = some answer ∧
      (answer = .ok () ↔ CanonicalSignature vchSig) := by
  by_cases hshort : vchSig.length < 9
  · refine ⟨_, if_pos hshort, iff_of_false nofun ?_⟩
    rintro ⟨_, _, _, _, _, _, -, -, -, -, -, -, -, hmin, -⟩
    omega
  by_cases hlong : vchSig.length > 73
  · refine ⟨_, (if_neg hshort).trans (if_pos hlong), iff_of_false nofun ?_⟩
    rintro ⟨_, _, _, _, _, _, -, -, -, -, -, -, -, -, hmax⟩
    omega
  by_cases hparts : ∃ lenR lenS : UInt8, vchSig[3]? = some lenR ∧
      vchSig[5 + lenR.toNat]? = some lenS ∧ lenR.toNat + lenS.toNat + 7 = vchSig.length
  · obtain ⟨lenR, lenS, hR, hS, hsize⟩ := hparts
    obtain ⟨R, S, type, len, typeR, typeS, hashtype, rfl, hlenR, hlenS⟩ := exists_parts hR hS hsize
    have hmin : 9 ≤ R.length + S.length + 7 := by omega
    have hmax : R.length + S.length + 7 ≤ 73 := by omega
    obtain ⟨answer, hread, hok⟩ := readSignature_of_parts R S type len typeR lenR typeS lenS
      hashtype hlenR hlenS hmin hmax
    exact ⟨answer, hread, hok.trans
      (canonicalSignature_parts_iff R S type len typeR lenR typeS lenS hashtype hlenR hlenS
        hmin hmax).symm⟩
  · obtain ⟨message, hread⟩ := readSignature_of_no_parts hshort hlong hparts
    exact ⟨_, hread, iff_of_false nofun fun h => hparts h.parts⟩

end Manna
