import Manna.KeyStore

/-!
Signing an input (`script.cpp`: `Sign1`, `SignN`, `Solver`, `SignSignature`).

What `IsMine` counts as the wallet's can be signed, unless a script stored for a payment to a script
hash is itself such a payment, or larger than what may be pushed: `IsMine` looks at neither.

* `signSignature`: as in the source;
* `SignsCorrectly`: what is assumed of `CKey` and `CPubKey`;
* `Redeemable`: the condition;
* `signable_iff_redeemable`: what is the wallet's can be signed exactly then.
-/

namespace Manna

open GreedyMatch

variable {CKey : Type}

/-! ### The source -/

section Sign

variable {env : SignEnv CKey} (keystore : CKeyStore env) (hash : Uint256) (nHashType : Nat)

/-- `Sign1`: `none` where it returns false, which leaves the script as it was. -/
def sign1 (address : Valtype) (scriptSigRet : CScript) : Option CScript :=
  match keystore.getKey address with
  | none => none
  | some key =>
    match env.sign key hash with
    | none => none
    | some vchSig => some (scriptSigRet ++ pushData (vchSig ++ [UInt8.ofNat nHashType]))

def signNLoop (nRequired : Nat) : List Valtype → Nat → CScript → Nat × CScript
  | [], nSigned, scriptSigRet => (nSigned, scriptSigRet)
  | pubkey :: pubkeys, nSigned, scriptSigRet =>
    if nSigned < nRequired then
      match sign1 keystore hash nHashType (env.getID pubkey) scriptSigRet with
      | some scriptSigRet => signNLoop nRequired pubkeys (nSigned + 1) scriptSigRet
      | none => signNLoop nRequired pubkeys nSigned scriptSigRet
    else (nSigned, scriptSigRet)

def signN (multisigdata : List Valtype) (scriptSigRet : CScript) : Bool × CScript :=
  let nRequired := ((multisigdata.headD []).headD 0).toNat
  let signed := signNLoop keystore hash nHashType nRequired (multisigKeys multisigdata) 0 scriptSigRet
  (signed.1 = nRequired, signed.2)

/-- `Solver` with a key store: what it returns, `scriptSigRet` and `whichTypeRet`. -/
def solverSign (scriptPubKey : CScript) : Bool × CScript × TxnOutType :=
  match solver scriptPubKey with
  | (false, whichType, _) => (false, [], whichType)
  | (true, .nonstandard, _) => (false, [], .nonstandard)
  | (true, .pubkey, vSolutions) =>
    match sign1 keystore hash nHashType (env.getID (vSolutions.headD [])) [] with
    | none => (false, [], .pubkey)
    | some scriptSigRet => (true, scriptSigRet, .pubkey)
  | (true, .pubkeyhash, vSolutions) =>
    match sign1 keystore hash nHashType (vSolutions.headD []) [] with
    | none => (false, [], .pubkeyhash)
    | some scriptSigRet =>
      let vch := ((keystore.getKey (vSolutions.headD [])).map fun key =>
        (env.getPubKey key).vch).getD []
      (true, scriptSigRet ++ pushData vch, .pubkeyhash)
  | (true, .scripthash, vSolutions) =>
    match keystore.getCScript (vSolutions.headD []) with
    | none => (false, [], .scripthash)
    | some redeemScript => (true, redeemScript, .scripthash)
  | (true, .multisig, vSolutions) =>
    -- "workaround CHECKMULTISIG bug"
    let signed := signN keystore hash nHashType vSolutions (pushData [])
    (signed.1, signed.2, .multisig)

end Sign

def CTransaction.setScriptSig (txTo : CTransaction) (nIn : Nat) (scriptSig : CScript) :
    CTransaction :=
  { txTo with vin := txTo.vin.modify nIn fun txin => { txin with scriptSig } }

/-- `SCRIPT_VERIFY_P2SH | SCRIPT_VERIFY_STRICTENC`. -/
def signFlags : ScriptFlags := ⟨true, true, false⟩

/-- What `SignSignature` puts into the input, and whether it goes on to test it. -/
def produceSignature {env : SignEnv CKey} (keystore : CKeyStore env) (fromPubKey : CScript)
    (txTo : CTransaction) (nIn nHashType : Nat) : Bool × CScript :=
  let hash := signatureHash env.hash fromPubKey txTo nIn nHashType
  match solverSign keystore hash nHashType fromPubKey with
  | (false, scriptSig, _) => (false, scriptSig)
  | (true, subscript, .scripthash) =>
    let hash2 := signatureHash env.hash subscript txTo nIn nHashType
    let (fOk, scriptSig, subType) := solverSign keystore hash2 nHashType subscript
    (fOk && subType ≠ .scripthash, scriptSig ++ pushData subscript)
  | (true, scriptSig, _) => (true, scriptSig)

/-- `SignSignature`: what it returns and the transaction, `none` where its assertion fails. -/
def signSignature {env : SignEnv CKey} (keystore : CKeyStore env) (fromPubKey : CScript)
    (txTo : CTransaction) (nIn nHashType : Nat) : Option (Bool × CTransaction) :=
  if nIn ≥ txTo.vin.length then none
  else
    let (fSolved, scriptSig) := produceSignature keystore fromPubKey txTo nIn nHashType
    let txTo := txTo.setScriptSig nIn scriptSig
    let verified := verifyScript (env.scriptEnv txTo nIn 0 signFlags) signFlags scriptSig fromPubKey
    some (fSolved && verified.result = some true, txTo)

def IsHashType (nHashType : Nat) : Prop :=
  nHashType < 256 ∧ 1 ≤ nHashType % 128 ∧ nHashType % 128 ≤ 3

instance (nHashType : Nat) : Decidable (IsHashType nHashType) :=
  inferInstanceAs (Decidable (_ ∧ _))

/-- **`CKey` and `CPubKey` are correct**: a key signs, its public key verifies what it signed, and
both are encoded as they are to be. A signature holds two numbers of 32 bytes, up to leading zeros;
that it is longer than the hash of a key is all that is used. -/
structure SignsCorrectly (env : SignEnv CKey) : Prop where
  signs : ∀ key hash, ∃ vchSig, env.sign key hash = some vchSig
  verifies {key hash vchSig} : env.sign key hash = some vchSig →
    env.verify (env.getPubKey key) hash vchSig = true
  canonical_sig {key hash vchSig nHashType} : env.sign key hash = some vchSig →
    IsHashType nHashType → isCanonicalSignature (vchSig ++ [UInt8.ofNat nHashType]) = true
  length_sig {key hash vchSig} : env.sign key hash = some vchSig → 20 < vchSig.length
  canonical_pubKey : ∀ key, isCanonicalPubKey (env.getPubKey key).vch = true

/-- **No collision**: a key named in a script that has the identifier of a stored key is this key. -/
def CKeyStore.NoCollision {env : SignEnv CKey} (keystore : CKeyStore env) (script : CScript) : Prop :=
  ∀ vch ∈ (solver script).2.2, ∀ key, keystore.getKey (env.getID vch) = some key →
    SignEnv.pubKeyBytes vch = (env.getPubKey key).vch

theorem head_of_isCanonicalSignature {vchSig : Valtype} (h : isCanonicalSignature vchSig = true) :
    vchSig.getD 0 0 = 0x30 := by
  unfold isCanonicalSignature at h
  dsimp only at h
  split_ifs at h with _ _ hhead
  all_goals exact (not_not.mp (not_or.mp hhead).1)

theorem length_of_isCanonicalSignature {vchSig : Valtype} (h : isCanonicalSignature vchSig = true) :
    vchSig.length ≤ 73 := by
  unfold isCanonicalSignature at h
  dsimp only at h
  split_ifs at h with hsize
  all_goals omega

theorem head_of_isCanonicalPubKey {vchPubKey : Valtype} (h : isCanonicalPubKey vchPubKey = true) :
    vchPubKey.getD 0 0 ≠ 0x30 := by
  intro hhead
  unfold isCanonicalPubKey at h
  rw [hhead] at h
  split_ifs at h with _ hfirst hsecond
  · exact absurd hfirst (by decide)
  · exact absurd hsecond (by decide)

theorem length_of_isCanonicalPubKey {vchPubKey : Valtype} (h : isCanonicalPubKey vchPubKey = true) :
    vchPubKey.length ≤ 65 := by
  unfold isCanonicalPubKey at h
  split_ifs at h
  all_goals
    rw [decide_eq_true_iff] at h
    omega

theorem ne_of_isCanonical {vchSig vchPubKey : Valtype} (hsig : isCanonicalSignature vchSig = true)
    (hkey : isCanonicalPubKey vchPubKey = true) : vchPubKey ≠ vchSig := by
  rintro rfl
  exact head_of_isCanonicalPubKey hkey (head_of_isCanonicalSignature hsig)

/-! ### A signature -/

section Signed

variable {env : SignEnv CKey} {keystore : CKeyStore env} {nHashType : Nat} {hash : Uint256}

/-- **A signature of a key**, with its hash type. -/
def SignedBy (env : SignEnv CKey) (key : CKey) (hash : Uint256) (nHashType : Nat)
    (vchSig : Valtype) : Prop :=
  ∃ vch, env.sign key hash = some vch ∧ vchSig = vch ++ [UInt8.ofNat nHashType]

theorem sign1_eq (henv : SignsCorrectly env) {address : Valtype} {key : CKey}
    (hkey : keystore.getKey address = some key) (hash : Uint256) (nHashType : Nat)
    (scriptSigRet : CScript) : ∃ vchSig, SignedBy env key hash nHashType vchSig ∧
      sign1 keystore hash nHashType address scriptSigRet = some (scriptSigRet ++ pushData vchSig) := by
  obtain ⟨vch, hsign⟩ := henv.signs key hash
  refine ⟨_, ⟨vch, hsign, rfl⟩, ?_⟩
  unfold sign1
  rw [hkey]
  dsimp only
  rw [hsign]

namespace SignedBy

variable {key : CKey} {vchSig : Valtype}

theorem canonical (h : SignedBy env key hash nHashType vchSig) (henv : SignsCorrectly env)
    (htype : IsHashType nHashType) : isCanonicalSignature vchSig = true := by
  obtain ⟨vch, hsign, rfl⟩ := h
  exact henv.canonical_sig hsign htype

theorem length_le (h : SignedBy env key hash nHashType vchSig) (henv : SignsCorrectly env)
    (htype : IsHashType nHashType) : vchSig.length ≤ MAX_SCRIPT_ELEMENT_SIZE :=
  (length_of_isCanonicalSignature (h.canonical henv htype)).trans (by decide)

/-- **A signature is no item of a script** whose items are keys or short. -/
theorem findAndDelete_eq_self (h : SignedBy env key hash nHashType vchSig)
    (henv : SignsCorrectly env) (htype : IsHashType nHashType) {script : CScript}
    {l : List (Nat × Valtype)} (hscript : Instructions script l)
    (hitems : ∀ op ∈ l, op.2.length ≤ 20 ∨ isCanonicalPubKey op.2 = true) :
    findAndDelete (pushData vchSig) script = script := by
  have hcanonical := h.canonical henv htype
  have hlen := length_of_isCanonicalSignature hcanonical
  obtain ⟨vch, hsign, rfl⟩ := h
  have hlong := henv.length_sig hsign
  refine hscript.findAndDelete_eq_self (Nat.lt_of_le_of_lt hlen (by decide)) fun op hmem => ?_
  rcases hitems op hmem with hshort | hkey
  · rintro heq
    rw [heq, List.length_append] at hshort
    omega
  · exact ne_of_isCanonical hcanonical hkey

end SignedBy

theorem agreeFor_setScriptSig (nHashType : Int) (txTo : CTransaction) (nIn : Nat)
    (scriptSig : CScript) : AgreeFor nHashType nIn txTo (txTo.setScriptSig nIn scriptSig) := by
  have hget : ∀ i, (txTo.setScriptSig nIn scriptSig).vin[i]? =
      txTo.vin[i]?.map fun txin => if nIn = i then { txin with scriptSig } else txin := fun i => by
    rw [CTransaction.setScriptSig, List.getElem?_modify]
    cases txTo.vin[i]? <;> rfl
  constructor
  · rfl
  · rfl
  · rfl
  · rw [hget, Option.map_map]
    refine congrArg (Option.map · _) (funext fun txin => ?_)
    simp
  · intro _
    refine List.ext_getElem? fun i => ?_
    rw [List.getElem?_map, List.getElem?_map, hget, Option.map_map]
    refine congrArg (Option.map · _) (funext fun txin => ?_)
    simp only [Function.comp_apply, coveredInput]
    split_ifs <;> rfl
  · split_ifs
    · rfl
    · rfl

/-- **A signature is accepted** for its key, in every transaction that it covers. -/
theorem SignedBy.accepts {key : CKey} {vchSig : Valtype} {script : CScript} {txTo txTo' : CTransaction}
    {nIn : Nat} (henv : SignsCorrectly env) (htype : IsHashType nHashType)
    (h : SignedBy env key (signatureHash env.hash script txTo nIn nHashType) nHashType vchSig)
    (hagree : AgreeFor nHashType nIn txTo txTo') (flags : ScriptFlags) :
    (env.scriptEnv txTo' nIn 0 flags).accepts flags script vchSig (env.getPubKey key).vch = true := by
  have hcanonical := h.canonical henv htype
  obtain ⟨vch, hsign, rfl⟩ := h
  have hbyte : (UInt8.ofNat nHashType).toNat = nHashType := by
    rw [UInt8.toNat_ofNat']
    exact Nat.mod_eq_of_lt htype.1
  have hcheck : checkSigUncached env.toSigEnv ⟨vch ++ [UInt8.ofNat nHashType],
      (env.getPubKey key).vch, script, txTo', nIn, 0, flags⟩ = true := by
    have hdata : CheckSigCall.sigData env.toSigEnv ⟨vch ++ [UInt8.ofNat nHashType],
        (env.getPubKey key).vch, script, txTo', nIn, 0, flags⟩ =
          some (signatureHash env.hash script txTo nIn nHashType, vch, env.getPubKey key) := by
      unfold CheckSigCall.sigData
      dsimp only
      rw [CPubKey.ofVch_vch, List.getLast?_concat]
      dsimp only
      rw [if_neg (fun hne => hne.1 rfl), if_pos rfl, hbyte, List.dropLast_concat,
        ← signatureHash_congr env.hash script hagree]
    have hverify : env.toSigEnv.verifies
        (signatureHash env.hash script txTo nIn nHashType, vch, env.getPubKey key) = true :=
      henv.verifies hsign
    unfold checkSigUncached lookUp
    rw [hdata]
    dsimp only
    rw [if_neg (Finset.notMem_empty _), hverify]
    rfl
  unfold ScriptEnv.accepts
  rw [hcanonical, henv.canonical_pubKey, Bool.and_self, Bool.or_true, Bool.true_and]
  exact hcheck

/-! ### Scripts that are no payment to a script hash -/

theorem getKey_of_haveKey {vch : Valtype} {script : CScript} (hcollision : keystore.NoCollision script)
    (hmem : vch ∈ (solver script).2.2) (hhave : keystore.haveKey (env.getID vch) = true)
    (henv : SignsCorrectly env) :
    ∃ key, keystore.getKey (env.getID vch) = some key ∧ vch = (env.getPubKey key).vch := by
  obtain ⟨key, hkey⟩ := Option.isSome_iff_exists.mp hhave
  have hbytes := hcollision vch hmem key hkey
  refine ⟨key, hkey, ?_⟩
  unfold SignEnv.pubKeyBytes at hbytes
  cases hvch : CPubKey.ofVch vch with
  | some pubkey =>
    rw [hvch] at hbytes
    rw [← CPubKey.ofVch_eq_some hvch]
    exact hbytes
  | none =>
    have hcanonical := henv.canonical_pubKey key
    rw [hvch] at hbytes
    rw [← hbytes] at hcanonical
    cases hcanonical

/-- The loop of `SignN` with keys that are all stored. -/
theorem signNLoop_eq (henv : SignsCorrectly env) (hash : Uint256) (nHashType : Nat)
    {nRequired : Nat} {pubkeys : List Valtype}
    (hkeys : ∀ vch ∈ pubkeys, ∃ key, keystore.getKey (env.getID vch) = some key ∧
      vch = (env.getPubKey key).vch) {nSigned : Nat} (hn : nSigned ≤ nRequired) (scriptSigRet : CScript) :
    ∃ sigs, signNLoop keystore hash nHashType nRequired pubkeys nSigned scriptSigRet =
        (nSigned + sigs.length, scriptSigRet ++ pushAll sigs) ∧
      sigs.length = min (nRequired - nSigned) pubkeys.length ∧
      List.Forall₂ (fun vchSig vch => ∃ key, vch = (env.getPubKey key).vch ∧
        SignedBy env key hash nHashType vchSig) sigs (pubkeys.take sigs.length) := by
  induction pubkeys generalizing nSigned scriptSigRet with
  | nil => exact ⟨[], by simp [signNLoop, pushAll], by simp, .nil⟩
  | cons vch pubkeys ih =>
    unfold signNLoop
    split_ifs with hmore
    · obtain ⟨key, hkey, hvch⟩ := hkeys vch List.mem_cons_self
      obtain ⟨vchSig, hsigned, hsign⟩ := sign1_eq henv hkey hash nHashType scriptSigRet
      obtain ⟨sigs, hloop, hlen, hrel⟩ := ih (fun v hmem => hkeys v (List.mem_cons_of_mem _ hmem))
        (Nat.succ_le_of_lt hmore) (scriptSigRet ++ pushData vchSig)
      refine ⟨vchSig :: sigs, ?_, ?_, .cons ⟨key, hvch, hsigned⟩ hrel⟩
      · rw [hsign]
        dsimp only
        rw [hloop, pushAll, pushAll, List.flatMap_cons, List.append_assoc, List.length_cons,
          Nat.succ_add_eq_add_succ]
      · rw [List.length_cons, List.length_cons, hlen]
        omega
    · refine ⟨[], by simp [pushAll], ?_, .nil⟩
      rw [List.length_nil]
      omega

/-- **What signing a script yields**: items that satisfy it, in every transaction that the signatures
cover. -/
structure Solves (env : SignEnv CKey) (script : CScript) (txTo : CTransaction) (nIn nHashType : Nat)
    (values : List Valtype) : Prop where
  length_le : ∀ v ∈ values, v.length ≤ MAX_SCRIPT_ELEMENT_SIZE
  count_le : values.length ≤ 18
  satisfies : ∀ txTo', AgreeFor nHashType nIn txTo txTo' → ∀ flags, ∃ below c,
    evalScript (env.scriptEnv txTo' nIn 0 flags) flags script values.reverse =
      ⟨true, vchTrue :: below, c⟩

variable {script : CScript} {txTo : CTransaction} {nIn : Nat}

theorem exists_solves_pubkey (henv : SignsCorrectly env) (htype : IsHashType nHashType)
    {vchPubKey : Valtype} {opcode : Nat} {key : CKey}
    (hinstructions : Instructions script [(opcode, vchPubKey), (OP_CHECKSIG, [])])
    (hlower : 33 ≤ vchPubKey.length) (hupper : vchPubKey.length ≤ 120)
    (hkey : keystore.getKey (env.getID vchPubKey) = some key) (hvch : vchPubKey = (env.getPubKey key).vch) :
    ∃ values, sign1 keystore (signatureHash env.hash script txTo nIn nHashType) nHashType
        (env.getID vchPubKey) [] = some (pushAll values) ∧ Solves env script txTo nIn nHashType values := by
  obtain ⟨vchSig, hsigned, hsign⟩ := sign1_eq henv hkey
    (signatureHash env.hash script txTo nIn nHashType) nHashType []
  have hdelete := hsigned.findAndDelete_eq_self henv htype hinstructions (by
    simp only [List.mem_cons, List.not_mem_nil, or_false, forall_eq_or_imp, forall_eq]
    refine ⟨.inr ?_, .inl (Nat.zero_le _)⟩
    rw [hvch]
    exact henv.canonical_pubKey key)
  refine ⟨[vchSig], ?_, ?_, by simp, ?_⟩
  · rw [hsign, pushAll, List.flatMap_singleton, List.nil_append]
  · intro v hmem
    rw [List.mem_singleton.mp hmem]
    exact hsigned.length_le henv htype
  · intro txTo' hagree flags
    have haccepts := hsigned.accepts henv htype hagree flags
    rw [← hvch] at haccepts
    refine ⟨[], 1, ?_⟩
    have hrun : evalScript (env.scriptEnv txTo' nIn 0 flags) flags script [vchSig] = _ :=
      evalScript_pubkey hinstructions hlower hupper (Nat.zero_le _) hdelete
    rw [haccepts] at hrun
    exact hrun

theorem exists_solves_pubkeyhash (henv : SignsCorrectly env) (htype : IsHashType nHashType)
    {keyID : Valtype} {opcode : Nat} {key : CKey}
    (hinstructions : Instructions script [(OP_DUP, []), (OP_HASH160, []), (opcode, keyID),
      (OP_EQUALVERIFY, []), (OP_CHECKSIG, [])])
    (hkeyID : keyID.length = 20) (hkey : keystore.getKey keyID = some key) :
    ∃ vchSig, sign1 keystore (signatureHash env.hash script txTo nIn nHashType) nHashType
        keyID [] = some (pushData vchSig) ∧
      Solves env script txTo nIn nHashType [vchSig, (env.getPubKey key).vch] := by
  obtain ⟨vchSig, hsigned, hsign⟩ := sign1_eq henv hkey
    (signatureHash env.hash script txTo nIn nHashType) nHashType []
  have hdelete := hsigned.findAndDelete_eq_self henv htype hinstructions (by
    simp only [List.mem_cons, List.not_mem_nil, or_false, forall_eq_or_imp, forall_eq,
      List.length_nil]
    exact ⟨.inl (by decide), .inl (by decide), .inl hkeyID.le, .inl (by decide), .inl (by decide)⟩)
  refine ⟨vchSig, hsign, ?_, by simp, ?_⟩
  · intro v hmem
    simp only [List.mem_cons, List.not_mem_nil, or_false] at hmem
    rcases hmem with rfl | rfl
    · exact hsigned.length_le henv htype
    · exact (length_of_isCanonicalPubKey (henv.canonical_pubKey key)).trans (by decide)
  · intro txTo' hagree flags
    have haccepts := hsigned.accepts henv htype hagree flags
    refine ⟨[], 1, ?_⟩
    have hrun : evalScript (env.scriptEnv txTo' nIn 0 flags) flags script
        [(env.getPubKey key).vch, vchSig] = _ :=
      evalScript_pubkeyhash hinstructions hkeyID (keystore.getKey_id hkey) (Nat.zero_le _) hdelete
    rw [haccepts] at hrun
    exact hrun

theorem exists_solves_multisig (henv : SignsCorrectly env) (htype : IsHashType nHashType)
    {nRequired : Nat} {keys : List (Nat × Valtype)}
    (hinstructions : Instructions script (smallInt nRequired :: (keys ++
      [smallInt keys.length, (OP_CHECKMULTISIG, [])])))
    (hpos : 1 ≤ nRequired) (hle : nRequired ≤ keys.length) (hmax : keys.length ≤ 16)
    (hlens : ∀ key ∈ keys, 33 ≤ key.2.length ∧ key.2.length ≤ 120)
    (hkeys : ∀ vch ∈ keys.map Prod.snd, ∃ key, keystore.getKey (env.getID vch) = some key ∧
      vch = (env.getPubKey key).vch) :
    ∃ values, signNLoop keystore (signatureHash env.hash script txTo nIn nHashType) nHashType
        nRequired (keys.map Prod.snd) 0 (pushData []) = (nRequired, pushAll values) ∧
      Solves env script txTo nIn nHashType values := by
  obtain ⟨sigs, hloop, hlen, hrel⟩ := signNLoop_eq henv
    (signatureHash env.hash script txTo nIn nHashType) nHashType hkeys (Nat.zero_le nRequired)
    (pushData [])
  rw [List.length_map, Nat.sub_zero, Nat.min_eq_left hle] at hlen
  have hsigned : ∀ vchSig ∈ sigs, ∃ key, SignedBy env key
      (signatureHash env.hash script txTo nIn nHashType) nHashType vchSig := by
    intro vchSig hmem
    obtain ⟨i, hi, rfl⟩ := List.mem_iff_getElem.mp hmem
    obtain ⟨key, -, hkey⟩ := hrel.get hi (by rw [← hrel.length_eq]; exact hi)
    exact ⟨key, hkey⟩
  have hcanonical : ∀ op ∈ smallInt nRequired :: (keys ++
      [smallInt keys.length, (OP_CHECKMULTISIG, [])]),
      op.2.length ≤ 20 ∨ isCanonicalPubKey op.2 = true := by
    simp only [List.mem_cons, List.mem_append, List.not_mem_nil, or_false, smallInt]
    rintro op (rfl | hmem | rfl | rfl)
    · exact .inl (Nat.zero_le _)
    · obtain ⟨key, -, hvch⟩ := hkeys op.2 (List.mem_map_of_mem hmem)
      rw [hvch]
      exact .inr (henv.canonical_pubKey key)
    · exact .inl (Nat.zero_le _)
    · exact .inl (Nat.zero_le _)
  have hdelete : ∀ vchSig ∈ sigs.reverse, findAndDelete (pushData vchSig) script = script := by
    intro vchSig hmem
    obtain ⟨key, hkey⟩ := hsigned vchSig (List.mem_reverse.mp hmem)
    exact hkey.findAndDelete_eq_self henv htype hinstructions hcanonical
  refine ⟨[] :: sigs, ?_, ?_, ?_, ?_⟩
  · rw [hloop, Nat.zero_add, hlen]
    rfl
  · intro v hmem
    rcases List.mem_cons.mp hmem with rfl | hmem
    · exact Nat.zero_le _
    · obtain ⟨key, hkey⟩ := hsigned v hmem
      exact hkey.length_le henv htype
  · rw [List.length_cons]
    omega
  · intro txTo' hagree flags
    obtain ⟨nSigChecks, hrun⟩ := evalScript_multisig (env.scriptEnv txTo' nIn 0 flags) flags []
      hinstructions hpos hle hmax hlens (by rwa [List.length_reverse])
      (show ([] : List Valtype).length ≤ 900 from Nat.zero_le _) hdelete
    have hgreedy : greedy ((env.scriptEnv txTo' nIn 0 flags).accepts flags script) sigs.reverse
        (keys.map Prod.snd).reverse = true := by
      rw [greedy_iff, sublistForall₂_reverse_iff]
      refine List.sublistForall₂_iff.mpr ⟨_, hrel.imp ?_, List.take_sublist _ _⟩
      rintro vchSig vch ⟨key, rfl, hkey⟩
      exact hkey.accepts henv htype hagree flags
    refine ⟨[], nSigChecks, ?_⟩
    rw [hgreedy] at hrun
    rw [List.reverse_cons]
    exact hrun

/-- **What is the wallet's can be solved**, unless it is a payment to a script hash. -/
theorem exists_solves (henv : SignsCorrectly env) (htype : IsHashType nHashType)
    (hcollision : keystore.NoCollision script) {fuel : Nat}
    (hmine : isMine keystore fuel script = some true) (hplain : isPayToScriptHash script = false)
    (txTo : CTransaction) (nIn : Nat) : ∃ values whichType, whichType ≠ .scripthash ∧
      solverSign keystore (signatureHash env.hash script txTo nIn nHashType) nHashType script =
        (true, pushAll values, whichType) ∧ Solves env script txTo nIn nHashType values := by
  cases fuel with
  | zero => cases hmine
  | succ fuel =>
    unfold isMine at hmine
    unfold CKeyStore.NoCollision at hcollision
    unfold solverSign
    rcases hsolver : solver script with ⟨fSolved, whichType, vSolutions⟩
    cases fSolved with
    | false =>
      rw [hsolver] at hmine
      cases hmine
    | true =>
      have hstandard := solver_standard hsolver
      have howned : ∀ vch ∈ vSolutions, keystore.haveKey (env.getID vch) = true →
          ∃ key, keystore.getKey (env.getID vch) = some key ∧ vch = (env.getPubKey key).vch := by
        intro vch hmem hhave
        refine getKey_of_haveKey hcollision ?_ hhave henv
        rw [hsolver]
        exact hmem
      rw [hsolver] at hmine
      cases hstandard with
      | @pubkey opcode vchPubKey hinstructions hlower hupper =>
        obtain ⟨key, hkey, hvch⟩ := howned vchPubKey List.mem_cons_self (Option.some.inj hmine)
        obtain ⟨values, hsign, hsolves⟩ := exists_solves_pubkey henv htype hinstructions hlower
          hupper hkey hvch
        refine ⟨values, .pubkey, by decide, ?_, hsolves⟩
        simp only [List.headD_cons, hsign]
      | @pubkeyhash opcode keyID hinstructions hkeyID =>
        obtain ⟨key, hkey⟩ := Option.isSome_iff_exists.mp (Option.some.inj hmine)
        rw [List.headD_cons] at hkey
        obtain ⟨vchSig, hsign, hsolves⟩ := exists_solves_pubkeyhash henv htype hinstructions
          hkeyID hkey
        refine ⟨_, .pubkeyhash, by decide, ?_, hsolves⟩
        simp only [List.headD_cons, hsign, hkey, Option.map_some, Option.getD_some]
        rw [pushAll, List.flatMap_cons, List.flatMap_singleton]
      | scripthash hscript =>
        rw [hplain] at hscript
        cases hscript
      | @multisig nRequired keys hinstructions hpos hle hmax hlens =>
        have hcount := of_decide_eq_true (Option.some.inj hmine)
        rw [multisigKeys_eq, haveKeys, List.countP_eq_length] at hcount
        obtain ⟨values, hsign, hsolves⟩ := exists_solves_multisig henv htype hinstructions hpos
          hle hmax hlens fun vch hmem => howned vch
            (List.mem_cons_of_mem _ (List.mem_append_left _ hmem)) (hcount vch hmem)
        have hbyte : (UInt8.ofNat nRequired).toNat = nRequired := by
          rw [UInt8.toNat_ofNat']
          exact Nat.mod_eq_of_lt (by omega)
        refine ⟨values, .multisig, by decide, ?_, hsolves⟩
        simp only [signN, List.headD_cons, hbyte, multisigKeys_eq, hsign, decide_true]

end Signed

/-! ### What is the wallet's can be signed -/

def verifyInput (env : SignEnv CKey) (txTo : CTransaction) (nIn : Nat) (flags : ScriptFlags)
    (fromPubKey : CScript) : Option Bool :=
  txTo.vin[nIn]?.bind fun txin =>
    (verifyScript (env.scriptEnv txTo nIn 0 flags) flags txin.scriptSig fromPubKey).result

/-- **An input that spends a script can be signed**: `SignSignature` returns true, and what it
produces passes `VerifyScript` whenever payments to script hashes are verified. -/
def Signable {env : SignEnv CKey} (keystore : CKeyStore env) (fromPubKey : CScript)
    (txTo : CTransaction) (nIn nHashType : Nat) : Prop :=
  ∃ txTo', signSignature keystore fromPubKey txTo nIn nHashType = some (true, txTo') ∧
    ∀ flags, flags.p2sh = true → verifyInput env txTo' nIn flags fromPubKey = some true

/-- **The condition**: the script stored for a payment to a script hash is no such payment itself, and
can be pushed. -/
def Redeemable {env : SignEnv CKey} (keystore : CKeyStore env) (fromPubKey : CScript) : Prop :=
  isPayToScriptHash fromPubKey = true → ∀ redeemScript,
    keystore.getCScript ((fromPubKey.drop 2).take 20) = some redeemScript →
      isPayToScriptHash redeemScript = false ∧ redeemScript.length ≤ MAX_SCRIPT_ELEMENT_SIZE

section Signable

variable {env : SignEnv CKey} {keystore : CKeyStore env} {fromPubKey : CScript}
  {txTo : CTransaction} {nIn nHashType : Nat}

theorem getElem?_setScriptSig (hnIn : nIn < txTo.vin.length) (scriptSig : CScript) :
    ∃ txin, (txTo.setScriptSig nIn scriptSig).vin[nIn]? = some txin ∧ txin.scriptSig = scriptSig := by
  refine ⟨{ txTo.vin[nIn] with scriptSig }, ?_, rfl⟩
  rw [CTransaction.setScriptSig, List.getElem?_modify, List.getElem?_eq_getElem hnIn]
  simp

theorem signable_of_verified (hnIn : nIn < txTo.vin.length) {scriptSig : CScript}
    (hproduce : produceSignature keystore fromPubKey txTo nIn nHashType = (true, scriptSig))
    (hverify : ∀ flags : ScriptFlags, flags.p2sh = true →
      (verifyScript (env.scriptEnv (txTo.setScriptSig nIn scriptSig) nIn 0 flags) flags scriptSig
        fromPubKey).result = some true) : Signable keystore fromPubKey txTo nIn nHashType := by
  refine ⟨txTo.setScriptSig nIn scriptSig, ?_, fun flags hp2sh => ?_⟩
  · rw [signSignature, if_neg (Nat.not_le.mpr hnIn), hproduce]
    dsimp only
    rw [hverify signFlags rfl]
    rfl
  · obtain ⟨txin, hget, hscript⟩ := getElem?_setScriptSig hnIn scriptSig
    rw [verifyInput, hget, Option.bind_some, hscript]
    exact hverify flags hp2sh

theorem not_signable (h : ∀ scriptSig,
    produceSignature keystore fromPubKey txTo nIn nHashType = (true, scriptSig) →
      (verifyScript (env.scriptEnv (txTo.setScriptSig nIn scriptSig) nIn 0 signFlags) signFlags
        scriptSig fromPubKey).result ≠ some true) : ¬ Signable keystore fromPubKey txTo nIn nHashType := by
  rintro ⟨txTo', hsign, -⟩
  unfold signSignature at hsign
  split_ifs at hsign
  rcases hproduce : produceSignature keystore fromPubKey txTo nIn nHashType with
    ⟨fSolved, scriptSig⟩
  rw [hproduce] at hsign
  simp only [Option.some.injEq, Prod.mk.injEq, Bool.and_eq_true, decide_eq_true_eq] at hsign
  obtain ⟨⟨rfl, hverify⟩, -⟩ := hsign
  exact h scriptSig hproduce hverify

theorem produceSignature_scripthash {redeemScript : CScript}
    (hscript : isPayToScriptHash fromPubKey = true)
    (hredeem : keystore.getCScript ((fromPubKey.drop 2).take 20) = some redeemScript)
    (txTo : CTransaction) (nIn nHashType : Nat) :
    produceSignature keystore fromPubKey txTo nIn nHashType =
      let signed := solverSign keystore (signatureHash env.hash redeemScript txTo nIn nHashType)
        nHashType redeemScript
      (signed.1 && signed.2.2 ≠ .scripthash, signed.2.1 ++ pushData redeemScript) := by
  have hsolver : solverSign keystore (signatureHash env.hash fromPubKey txTo nIn nHashType) nHashType
      fromPubKey = (true, redeemScript, .scripthash) := by
    simp only [solverSign, solver, if_pos hscript, List.headD_cons, hredeem]
  unfold produceSignature
  dsimp only
  rw [hsolver]

theorem solverSign_scripthash {script : CScript} {hash : Uint256}
    (hscript : isPayToScriptHash script = true) :
    (solverSign keystore hash nHashType script).2.2 = .scripthash := by
  have hsolver : solver script = (true, .scripthash, [(script.drop 2).take 20]) := by
    rw [solver, if_pos hscript]
  unfold solverSign
  rw [hsolver]
  dsimp only [List.headD_cons]
  cases keystore.getCScript ((script.drop 2).take 20) with
  | none => rfl
  | some redeemScript => rfl

theorem isMine_scripthash {script : CScript} {fuel : Nat}
    (hmine : isMine keystore fuel script = some true) (hscript : isPayToScriptHash script = true) :
    ∃ redeemScript, keystore.getCScript ((script.drop 2).take 20) = some redeemScript ∧
      ∃ fuel', isMine keystore fuel' redeemScript = some true := by
  have hsolver : solver script = (true, .scripthash, [(script.drop 2).take 20]) := by
    rw [solver, if_pos hscript]
  cases fuel with
  | zero => cases hmine
  | succ fuel =>
    rw [isMine, hsolver] at hmine
    dsimp only [List.headD_cons] at hmine
    cases hredeem : keystore.getCScript ((script.drop 2).take 20) with
    | none =>
      rw [hredeem] at hmine
      cases hmine
    | some redeemScript =>
      rw [hredeem] at hmine
      exact ⟨redeemScript, rfl, fuel, hmine⟩

theorem signable_plain (henv : SignsCorrectly env) (htype : IsHashType nHashType)
    (hnIn : nIn < txTo.vin.length) (hcollision : keystore.NoCollision fromPubKey) {fuel : Nat}
    (hmine : isMine keystore fuel fromPubKey = some true) (hscript : isPayToScriptHash fromPubKey = false) :
    Signable keystore fromPubKey txTo nIn nHashType := by
  obtain ⟨values, whichType, htype', hsolver, hsolves⟩ := exists_solves henv htype hcollision hmine
    hscript txTo nIn
  refine @signable_of_verified _ _ _ _ _ _ _ hnIn (pushAll values) ?_ fun flags _ => ?_
  · unfold produceSignature
    dsimp only
    rw [hsolver]
    cases whichType <;> first | rfl | exact absurd rfl htype'
  · obtain ⟨below, c, hrun⟩ := hsolves.satisfies _
      (agreeFor_setScriptSig nHashType txTo nIn (pushAll values)) flags
    exact verifyScript_plain hsolves.length_le (hsolves.count_le.trans (by decide)) hscript hrun

theorem signable_scripthash_iff (henv : SignsCorrectly env) (htype : IsHashType nHashType)
    (hnIn : nIn < txTo.vin.length) {redeemScript : CScript}
    (hcollision : keystore.NoCollision redeemScript) (hscript : isPayToScriptHash fromPubKey = true)
    (hredeem : keystore.getCScript ((fromPubKey.drop 2).take 20) = some redeemScript) {fuel : Nat}
    (hmine : isMine keystore fuel redeemScript = some true) :
    Signable keystore fromPubKey txTo nIn nHashType ↔
      isPayToScriptHash redeemScript = false ∧ redeemScript.length ≤ MAX_SCRIPT_ELEMENT_SIZE := by
  have hproduce := produceSignature_scripthash hscript hredeem txTo nIn nHashType
  cases hnested : isPayToScriptHash redeemScript with
  | true =>
    refine iff_of_false (not_signable fun scriptSig hsigned => ?_) fun h => nomatch h.1
    rw [hproduce] at hsigned
    dsimp only at hsigned
    rw [decide_eq_false (not_not_intro (solverSign_scripthash hnested)), Bool.and_false] at hsigned
    cases hsigned
  | false =>
    obtain ⟨values, whichType, htype', hsolver, hsolves⟩ := exists_solves henv htype hcollision
      hmine hnested txTo nIn
    have hall : pushAll values ++ pushData redeemScript = pushAll (values ++ [redeemScript]) := by
      rw [pushAll, pushAll, List.flatMap_append, List.flatMap_singleton]
    rw [hsolver] at hproduce
    dsimp only at hproduce
    rw [decide_eq_true htype', Bool.and_self, hall] at hproduce
    rw [and_iff_right rfl]
    constructor
    · intro hsignable
      by_contra hlarge
      refine not_signable (fun scriptSig hsigned hverified => ?_) hsignable
      rw [hproduce] at hsigned
      cases hsigned
      unfold verifyScript at hverified
      dsimp only at hverified
      rw [evalScript_pushAll_large (List.mem_append_right values (List.mem_singleton_self _))
        (Nat.not_le.mp hlarge)] at hverified
      cases hverified
    · intro hsmall
      refine signable_of_verified hnIn hproduce fun flags hp2sh => ?_
      obtain ⟨below, c, hrun⟩ := hsolves.satisfies _ (agreeFor_setScriptSig nHashType txTo nIn
        (pushAll (values ++ [redeemScript]))) flags
      cases standard_scripthash hscript with
      | scripthash _ hinstructions hscriptID =>
        exact verifyScript_scripthash hp2sh hscript hinstructions hscriptID
          (keystore.getCScript_id hredeem) hsolves.length_le hsmall hsolves.count_le hrun

/-- **What is the wallet's can be signed exactly** if the script stored for a payment to a script
hash is no such payment itself, and can be pushed. -/
theorem signable_iff_redeemable (henv : SignsCorrectly env) (htype : IsHashType nHashType)
    (hnIn : nIn < txTo.vin.length)
    (hcollision : ∀ script, script = fromPubKey ∨ (∃ hash, keystore.getCScript hash = some script) →
      keystore.NoCollision script)
    {fuel : Nat} (hmine : isMine keystore fuel fromPubKey = some true) :
    Signable keystore fromPubKey txTo nIn nHashType ↔ Redeemable keystore fromPubKey := by
  cases hscript : isPayToScriptHash fromPubKey with
  | false =>
    refine iff_of_true ?_ fun h => absurd (hscript.symm.trans h) Bool.false_ne_true
    exact signable_plain henv htype hnIn (hcollision fromPubKey (.inl rfl)) hmine hscript
  | true =>
    obtain ⟨redeemScript, hredeem, fuel', hredeemMine⟩ := isMine_scripthash hmine hscript
    rw [signable_scripthash_iff henv htype hnIn (hcollision redeemScript (.inr ⟨_, hredeem⟩)) hscript
      hredeem hredeemMine]
    constructor
    · intro h _ redeemScript' hredeem'
      rw [hredeem] at hredeem'
      cases hredeem'
      exact h
    · exact fun h => h hscript redeemScript hredeem

end Signable

/-! ### A script that is too large -/

namespace SignSample

/-- The one public key of the sample. -/
def pubKey : CPubKey := ⟨2 :: List.replicate 32 0, by decide⟩

/-- The one signature, without its hash type. -/
def sig : Valtype :=
  [0x30, 0x14, 0x02, 8, 1, 1, 1, 1, 1, 1, 1, 1, 0x02, 8, 1, 1, 1, 1, 1, 1, 1, 1]

/-- One key; `Hash160` gives the first twenty bytes. -/
def env : SignEnv Unit where
  hash _ := 0
  verify pubkey _ vchSig := decide (pubkey = pubKey) && decide (vchSig = sig)
  ripemd160 vch := (vch ++ List.replicate 20 0).take 20
  sha1 := id
  sha256 := id
  getPubKey _ := pubKey
  sign _ _ := some sig

theorem env_correct : SignsCorrectly env where
  signs _ _ := ⟨sig, rfl⟩
  verifies {key hash vchSig} h := by
    cases h
    rfl
  canonical_sig {key hash vchSig nHashType} h htype := by
    cases h
    have hall : ∀ t : Fin 256, IsHashType t →
        isCanonicalSignature (sig ++ [UInt8.ofNat t]) = true := by decide +kernel
    exact hall ⟨nHashType, htype.1⟩ htype
  length_sig {key hash vchSig} h := by
    cases h
    decide
  canonical_pubKey _ := rfl

/-- A payment to the key. -/
def small : CScript := payToPubKey pubKey.vch

/-- One of sixteen, all of them the key. -/
def large : CScript :=
  opcodes [OP_1] ++ (List.replicate 16 (pushData pubKey.vch)).flatten ++
    opcodes [OP_16, OP_CHECKMULTISIG]

def keystore : CKeyStore env where
  getKey address := if address = env.hash160 pubKey.vch then some () else none
  getCScript hash :=
    if hash = env.hash160 small then some small
    else if hash = env.hash160 large then some large
    else none
  getKey_id {address key} h := by
    split_ifs at h with haddress
    exact haddress.symm
  getCScript_id {hash redeemScript} h := by
    split_ifs at h with hsmall hlarge
    · cases h
      exact hsmall.symm
    · cases h
      exact hlarge.symm

def payToScriptHash (script : CScript) : CScript :=
  opcodes [OP_HASH160] ++ pushData (env.hash160 script) ++ opcodes [OP_EQUAL]

def tx : CTransaction := ⟨1, 0, [⟨⟨7, 0⟩, [], 0⟩], [⟨1, []⟩], 0⟩

theorem noCollision {script : CScript}
    (h : ∀ vch ∈ (solver script).2.2, vch = pubKey.vch ∨ CPubKey.ofVch vch = none) :
    keystore.NoCollision script := by
  intro vch hmem key hkey
  rcases h vch hmem with rfl | hinvalid
  · rfl
  · have hbytes : SignEnv.pubKeyBytes vch = [] := by
      unfold SignEnv.pubKeyBytes
      rw [hinvalid]
      rfl
    have hnone : keystore.getKey (env.hash160 []) = none := by decide
    unfold SignEnv.getID at hkey
    rw [hbytes, hnone] at hkey
    cases hkey

theorem noCollision_stored {script : CScript}
    (h : ∃ hash, keystore.getCScript hash = some script) : keystore.NoCollision script := by
  obtain ⟨hash, hscript⟩ := h
  apply noCollision
  simp only [keystore] at hscript
  split_ifs at hscript
  · cases hscript
    decide
  · cases hscript
    decide +kernel

end SignSample

open SignSample in
theorem signable_iff_redeemable_sample :
    Signable keystore (payToScriptHash small) tx 0 SIGHASH_ALL ↔
      Redeemable keystore (payToScriptHash small) :=
  signable_iff_redeemable env_correct (by decide) (by decide)
    (fun script h => h.elim (fun h => h ▸ noCollision (by decide)) noCollision_stored)
    (by decide : isMine keystore 2 _ = some true)

open SignSample in
/-- **Not all that is the wallet's can be signed**: one of sixteen keys is more than may be pushed. -/
theorem not_forall_isMine_signable :
    ¬ ∀ (env : SignEnv Unit) (keystore : CKeyStore env) (fromPubKey : CScript) (txTo : CTransaction)
      (nIn nHashType : Nat), SignsCorrectly env → IsHashType nHashType → nIn < txTo.vin.length →
      (∀ script, script = fromPubKey ∨ (∃ hash, keystore.getCScript hash = some script) →
        keystore.NoCollision script) →
      (∃ fuel, isMine keystore fuel fromPubKey = some true) →
      Signable keystore fromPubKey txTo nIn nHashType := by
  intro hall
  have hsignable := hall env keystore (payToScriptHash large) tx 0 SIGHASH_ALL env_correct
    (by decide) (by decide)
    (fun script h => h.elim (fun h => h ▸ noCollision (by decide)) noCollision_stored)
    ⟨2, by decide +kernel⟩
  have hlarge := (signable_scripthash_iff env_correct (by decide) (by decide)
    (noCollision_stored ⟨env.hash160 large, by decide +kernel⟩) (by decide +kernel)
    (by decide +kernel : keystore.getCScript _ = some large)
    (by decide +kernel : isMine keystore 1 large = some true)).mp hsignable
  exact absurd hlarge.2 (by decide +kernel)

end Manna
