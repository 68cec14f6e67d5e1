import Mathlib.Data.List.Dedup
import Manna.KeyStore

/-!
Combining partial signatures (`script.cpp`: `CombineSignatures`, `CombineMultisig`).

The signatures of both inputs are tried with the keys of the script, and every key keeps one that it
verifies. A `set` is a list in increasing order, a `map` a function.

* `combineSignatures`: as in the source;
* `assignSigs_spec`: which key has which signature;
* `Merges`: what is asked of a combination;
* `combineSignatures_combined`: what holds of it.
-/

namespace Manna

open GreedyMatch

variable {CKey : Type}

/-! ### The source -/

def setInsert (v : Valtype) : List Valtype → List Valtype
  | [] => [v]
  | w :: ws => if v = w then w :: ws else if v < w then v :: w :: ws else w :: setInsert v ws

/-- "Combine all the signatures we've got". -/
def allSigs (sigs1 sigs2 : List Valtype) : List Valtype :=
  (sigs1 ++ sigs2).foldl (fun allsigs v => if v.isEmpty then allsigs else setInsert v allsigs) []

/-- The inner loop of the matching: the first key that has no signature yet and verifies this one. -/
def assignSig (check : Valtype → Valtype → Bool) (pubkeys : List Valtype)
    (sigs : Valtype → Option Valtype) (sig : Valtype) : Valtype → Option Valtype :=
  match pubkeys.find? fun pubkey => (sigs pubkey).isNone && check sig pubkey with
  | none => sigs
  | some pubkey => Function.update sigs pubkey (some sig)

/-- "Build a map of pubkey -> signature by matching sigs to pubkeys". -/
def assignSigs (check : Valtype → Valtype → Bool) (pubkeys allsigs : List Valtype) :
    Valtype → Option Valtype :=
  allsigs.foldl (assignSig check pubkeys) fun _ => none

/-- "Now build a merged CScript": the signatures it has, and the script. -/
def mergeLoop (sigs : Valtype → Option Valtype) (nSigsRequired : Nat) :
    List Valtype → Nat → CScript → Nat × CScript
  | [], nSigsHave, result => (nSigsHave, result)
  | pubkey :: pubkeys, nSigsHave, result =>
    if nSigsHave < nSigsRequired then
      match sigs pubkey with
      | none => mergeLoop sigs nSigsRequired pubkeys nSigsHave result
      | some sig => mergeLoop sigs nSigsRequired pubkeys (nSigsHave + 1) (result ++ pushData sig)
    else (nSigsHave, result)

def combineMultisig (check : Valtype → Valtype → Bool) (vSolutions sigs1 sigs2 : List Valtype) :
    CScript :=
  let pubkeys := multisigKeys vSolutions
  let sigs := assignSigs check pubkeys (allSigs sigs1 sigs2)
  let nSigsRequired := ((vSolutions.headD []).headD 0).toNat
  -- "pop-one-too-many workaround"
  let (nSigsHave, result) := mergeLoop sigs nSigsRequired pubkeys 0 (pushData [])
  -- "Fill any missing with OP_0"
  result ++ pushAll (List.replicate (nSigsRequired - nSigsHave) [])

def trialCheck (env : SignEnv CKey) (txTo : CTransaction) (nIn : Nat) (scriptPubKey : CScript)
    (sig pubkey : Valtype) : Bool :=
  checkSigUncached env.toSigEnv ⟨sig, pubkey, scriptPubKey, txTo, nIn, 0, ⟨false, false, false⟩⟩

/-- The recursive `CombineSignatures`. Every recursion takes an item, so their number bounds it. -/
def combineStacks (env : SignEnv CKey) (txTo : CTransaction) (nIn : Nat) :
    Nat → CScript → TxnOutType → List Valtype → List Valtype → List Valtype → CScript
  | 0, _, _, _, _, _ => []
  | fuel + 1, scriptPubKey, txType, vSolutions, sigs1, sigs2 =>
    match txType with
    | .nonstandard =>
      -- "assume bigger one is correct"
      if sigs1.length ≥ sigs2.length then pushAll sigs1 else pushAll sigs2
    | .pubkey | .pubkeyhash =>
      -- "Signatures are bigger than placeholders or empty scripts"
      if sigs1 = [] ∨ sigs1.headD [] = [] then pushAll sigs2 else pushAll sigs1
    | .scripthash =>
      if sigs1 = [] ∨ sigs1.getLastD [] = [] then pushAll sigs2
      else if sigs2 = [] ∨ sigs2.getLastD [] = [] then pushAll sigs1
      else
        let spk := sigs1.getLastD []
        let (_, txType2, vSolutions2) := solver spk
        combineStacks env txTo nIn fuel spk txType2 vSolutions2 sigs1.dropLast sigs2.dropLast ++
          pushData spk
    | .multisig => combineMultisig (trialCheck env txTo nIn scriptPubKey) vSolutions sigs1 sigs2

def CTransaction.null (nTime : Nat) : CTransaction := ⟨1, nTime, [], [], 0⟩

/-- The items that a `scriptSig` leaves, the bottom first. -/
def scriptSigItems (env : SignEnv CKey) (nTime : Nat) (scriptSig : CScript) : List Valtype :=
  let flags : ScriptFlags := ⟨false, true, false⟩
  (evalScript (env.scriptEnv (.null nTime) 0 0 flags) flags scriptSig []).stack.reverse

def combineSignatures (env : SignEnv CKey) (nTime : Nat) (scriptPubKey : CScript)
    (txTo : CTransaction) (nIn : Nat) (scriptSig1 scriptSig2 : CScript) : CScript :=
  let (_, txType, vSolutions) := solver scriptPubKey
  let stack1 := scriptSigItems env nTime scriptSig1
  let stack2 := scriptSigItems env nTime scriptSig2
  combineStacks env txTo nIn (stack1.length + 1) scriptPubKey txType vSolutions stack1 stack2

/-! ### Matching signatures to keys -/

section Matching

theorem mem_setInsert {v w : Valtype} {l : List Valtype} : w ∈ setInsert v l ↔ w = v ∨ w ∈ l := by
  induction l with
  | nil => rw [setInsert, List.mem_singleton, or_iff_left List.not_mem_nil]
  | cons x l ih =>
    unfold setInsert
    split_ifs with heq
    · subst heq
      rw [List.mem_cons]
      tauto
    · rw [List.mem_cons]
    · rw [List.mem_cons, ih, List.mem_cons]
      tauto

theorem mem_allSigs {sigs1 sigs2 : List Valtype} {sig : Valtype} :
    sig ∈ allSigs sigs1 sigs2 ↔ sig ≠ [] ∧ (sig ∈ sigs1 ∨ sig ∈ sigs2) := by
  have hfold : ∀ l acc, sig ∈ List.foldl
      (fun allsigs v => if v.isEmpty then allsigs else setInsert v allsigs) acc l ↔
        sig ∈ acc ∨ (sig ≠ [] ∧ sig ∈ l) := by
    intro l
    induction l with
    | nil => simp
    | cons v l ih =>
      intro acc
      rw [List.foldl_cons, ih, List.mem_cons]
      split_ifs with hempty
      · rw [List.isEmpty_iff] at hempty
        subst hempty
        tauto
      · rw [mem_setInsert]
        have hne : v ≠ [] := fun h => hempty (h ▸ rfl)
        constructor
        · rintro ((rfl | hmem) | hmem)
          · exact .inr ⟨hne, .inl rfl⟩
          · exact .inl hmem
          · exact .inr ⟨hmem.1, .inr hmem.2⟩
        · rintro (hmem | ⟨hsig, rfl | hmem⟩)
          · exact .inl (.inr hmem)
          · exact .inl (.inl rfl)
          · exact .inr ⟨hsig, hmem⟩
  rw [allSigs, hfold, List.mem_append]
  simp

variable {check : Valtype → Valtype → Bool} {pubkeys : List Valtype}

/-- **A signature is one key's**: of the keys of the script it verifies for one at most. -/
def OneKey (check : Valtype → Valtype → Bool) (pubkeys : List Valtype) (sig : Valtype) : Prop :=
  ∀ k ∈ pubkeys, ∀ k' ∈ pubkeys, check sig k = true → check sig k' = true → k = k'

/-- The map so far: what it holds is verified, and a key has a signature if one was seen. -/
structure Assigned (check : Valtype → Valtype → Bool) (pubkeys seen : List Valtype)
    (sigs : Valtype → Option Valtype) : Prop where
  sound {pubkey sig} : sigs pubkey = some sig → sig ∈ seen ∧ check sig pubkey = true
  complete {pubkey sig} : pubkey ∈ pubkeys → sig ∈ seen → check sig pubkey = true →
    (sigs pubkey).isSome

/-- What a signature changes: nothing, or it is stored for a key that it verifies for and that has
none. -/
theorem assignSig_cases (check : Valtype → Valtype → Bool) (pubkeys : List Valtype)
    (sigs : Valtype → Option Valtype) (sig : Valtype) : (assignSig check pubkeys sigs sig = sigs ∧
      ∀ k ∈ pubkeys, check sig k = true → (sigs k).isSome) ∨ ∃ k ∈ pubkeys, check sig k = true ∧
      assignSig check pubkeys sigs sig = Function.update sigs k (some sig) := by
  cases hfind : pubkeys.find? fun pubkey => (sigs pubkey).isNone && check sig pubkey with
  | none =>
    refine .inl ⟨by rw [assignSig, hfind], fun k hmem hcheck => ?_⟩
    have hnone := List.find?_eq_none.mp hfind k hmem
    rw [hcheck, Bool.and_true, Option.isNone_iff_eq_none] at hnone
    exact Option.isSome_iff_ne_none.mpr hnone
  | some k =>
    have hfound := List.find?_some hfind
    rw [Bool.and_eq_true] at hfound
    exact .inr ⟨k, List.mem_of_find?_eq_some hfind, hfound.2, by rw [assignSig, hfind]⟩

theorem Assigned.step {seen : List Valtype} {sigs : Valtype → Option Valtype} {sig : Valtype}
    (h : Assigned check pubkeys seen sigs) (hone : OneKey check pubkeys sig) :
    Assigned check pubkeys (seen ++ [sig]) (assignSig check pubkeys sigs sig) := by
  rcases assignSig_cases check pubkeys sigs sig with
    ⟨heq, hall⟩ | ⟨k, hk, hcheck, heq⟩
  · rw [heq]
    constructor
    · intro pubkey sig' hsig
      exact ⟨List.mem_append_left _ (h.sound hsig).1, (h.sound hsig).2⟩
    · intro pubkey sig' hmem hsig hcheck
      rcases List.mem_append.mp hsig with hseen | hnew
      · exact h.complete hmem hseen hcheck
      · rw [List.mem_singleton.mp hnew] at hcheck
        exact hall pubkey hmem hcheck
  · rw [heq]
    constructor
    · intro pubkey sig' hsig
      rw [Function.update_apply] at hsig
      split_ifs at hsig with hpubkey
      · cases hsig
        rw [hpubkey]
        exact ⟨List.mem_append_right _ (List.mem_singleton_self _), hcheck⟩
      · exact ⟨List.mem_append_left _ (h.sound hsig).1, (h.sound hsig).2⟩
    · intro pubkey sig' hmem hsig hcheck'
      rw [Function.update_apply]
      split_ifs with hpubkey
      · rfl
      · rcases List.mem_append.mp hsig with hseen | hnew
        · exact h.complete hmem hseen hcheck'
        · rw [List.mem_singleton.mp hnew] at hcheck'
          exact absurd (hone pubkey hmem k hk hcheck' hcheck) hpubkey

/-- **Which key has which signature**: one that it verifies, if there is any. -/
theorem assignSigs_spec {allsigs : List Valtype} (hone : ∀ sig ∈ allsigs, OneKey check pubkeys sig) :
    Assigned check pubkeys allsigs (assignSigs check pubkeys allsigs) := by
  have hfold : ∀ l seen sigs, (∀ sig ∈ l, OneKey check pubkeys sig) →
      Assigned check pubkeys seen sigs →
        Assigned check pubkeys (seen ++ l) (l.foldl (assignSig check pubkeys) sigs) := by
    intro l
    induction l with
    | nil =>
      intro seen sigs _ h
      rw [List.append_nil]
      exact h
    | cons sig l ih =>
      intro seen sigs hl h
      have hnext := ih (seen ++ [sig]) _ (fun s hmem => hl s (List.mem_cons_of_mem _ hmem))
        (h.step (hl sig List.mem_cons_self))
      rwa [List.append_assoc, List.singleton_append] at hnext
  have hstart : Assigned check pubkeys [] fun _ => none :=
    ⟨fun h => (nomatch h), fun _ h => absurd h List.not_mem_nil⟩
  exact hfold allsigs [] _ hone hstart

/-- The merged script has the signatures of the first keys that have one. -/
theorem mergeLoop_eq (sigs : Valtype → Option Valtype) (nSigsRequired : Nat)
    (pubkeys : List Valtype) (nSigsHave : Nat) (result : CScript) :
    mergeLoop sigs nSigsRequired pubkeys nSigsHave result =
      (nSigsHave + ((pubkeys.filterMap sigs).take (nSigsRequired - nSigsHave)).length,
        result ++ pushAll ((pubkeys.filterMap sigs).take (nSigsRequired - nSigsHave))) := by
  induction pubkeys generalizing nSigsHave result with
  | nil => simp [mergeLoop, pushAll]
  | cons pubkey pubkeys ih =>
    unfold mergeLoop
    split_ifs with hmore
    · cases hsig : sigs pubkey with
      | none =>
        dsimp only
        rw [ih, List.filterMap_cons_none hsig]
      | some sig =>
        have hsucc : nSigsRequired - nSigsHave = (nSigsRequired - (nSigsHave + 1)) + 1 := by omega
        dsimp only
        rw [ih, List.filterMap_cons_some hsig, hsucc, List.take_succ_cons, List.length_cons,
          pushAll, pushAll, List.flatMap_cons, List.append_assoc, Nat.add_assoc, Nat.add_comm 1]
    · rw [Nat.sub_eq_zero_of_le (Nat.not_lt.mp hmore), List.take_zero]
      simp [pushAll]

theorem filterMap_eq_map_filter (f : Valtype → Option Valtype) (l : List Valtype) :
    l.filterMap f = (l.filter fun k => (f k).isSome).map fun k => (f k).getD [] := by
  induction l with
  | nil => rfl
  | cons k l ih =>
    cases hk : f k with
    | none => rw [List.filterMap_cons_none hk, List.filter_cons_of_neg (by simp [hk]), ih]
    | some v =>
      rw [List.filterMap_cons_some hk, List.filter_cons_of_pos (by simp [hk]), List.map_cons, ih, hk]
      rfl

end Matching

section Spec

variable (ok : Valtype → Valtype → Bool) (keys : List Valtype) (m : Nat)

/-- **Correctly placed signatures**: at most as many slots as signatures are required, each empty or
with a signature that is accepted for a key, in the order of the keys. -/
structure Placed (slots : List Valtype) : Prop where
  length_le : slots.length ≤ m
  placed : List.SublistForall₂ (fun sig key => ok sig key = true)
    (slots.filter fun sig => !sig.isEmpty) keys
  pushable : ∀ sig ∈ slots, sig.length ≤ MAX_SCRIPT_ELEMENT_SIZE

/-- A key has a signature in the slots. -/
def signs (slots : List Valtype) (key : Valtype) : Bool := slots.any fun sig => ok sig key

/-- **What is asked of a combination**: it is correctly placed; a key that has a signature in either
input has one, unless as many as are required are there already; the order of the inputs does not
matter for the keys that have one; and it is verified if as many keys as are required have one. -/
structure Merges (slots1 slots2 slots slots' : List Valtype) (verified : Prop) : Prop where
  placed : Placed ok keys m slots
  complete : ∀ key ∈ keys, (signs ok slots1 key || signs ok slots2 key) = true →
    signs ok slots key = true ∨ (slots.filter fun sig => !sig.isEmpty).length = m
  symmetric : ∀ key ∈ keys, signs ok slots key = signs ok slots' key
  verified : m ≤ (keys.dedup.filter fun key => signs ok slots1 key || signs ok slots2 key).length →
    verified

end Spec

/-- A script is paid to, directly or by its hash; what is pushed after the signatures to spend it. -/
inductive Pays (env : SignEnv CKey) (script : CScript) : CScript → List Valtype → Prop
  | plain : Pays env script script []
  | scripthash {scriptPubKey} : isPayToScriptHash scriptPubKey = true →
      env.hash160 script = (scriptPubKey.drop 2).take 20 → Pays env script scriptPubKey [script]

/-- A partial `scriptSig`: nothing, or the item that is popped too, the slots, and what is pushed after
them. -/
def partialScriptSig (suffix : List Valtype) : Option (List Valtype) → CScript
  | none => []
  | some slots => pushAll ([] :: (slots ++ suffix))

section Spec

variable (env : SignEnv CKey) (nTime : Nat) (flags : ScriptFlags) (txTo : CTransaction) (nIn : Nat)
  (script scriptPubKey : CScript) (vSolutions suffix : List Valtype)
  (slots1 slots2 : Option (List Valtype))

/-- **Two partial inputs** for a multisig that is paid to directly or by its hash. -/
structure PartialInputs : Prop where
  solver : solver script = (true, .multisig, vSolutions)
  pays : Pays env script scriptPubKey suffix
  p2sh : flags.p2sh = true
  left : Placed ((env.scriptEnv txTo nIn 0 flags).accepts flags script) (multisigKeys vSolutions)
    ((vSolutions.headD []).headD 0).toNat (slots1.getD [])
  right : Placed ((env.scriptEnv txTo nIn 0 flags).accepts flags script) (multisigKeys vSolutions)
    ((vSolutions.headD []).headD 0).toNat (slots2.getD [])

/-- `CombineSignatures` of the two inputs. -/
def combination : CScript :=
  combineSignatures env nTime scriptPubKey txTo nIn (partialScriptSig suffix slots1)
    (partialScriptSig suffix slots2)

/-- **What is asked of the two inputs**: both ways round, the result is a partial `scriptSig`, with
the slots asked for, and `VerifyScript` passes once enough keys have a signature. -/
def Combined : Prop :=
  ∃ slots slots',
    combination env nTime txTo nIn scriptPubKey suffix slots1 slots2 =
      partialScriptSig suffix slots ∧
    combination env nTime txTo nIn scriptPubKey suffix slots2 slots1 =
      partialScriptSig suffix slots' ∧
    Merges ((env.scriptEnv txTo nIn 0 flags).accepts flags script) (multisigKeys vSolutions)
      ((vSolutions.headD []).headD 0).toNat (slots1.getD []) (slots2.getD []) (slots.getD [])
      (slots'.getD [])
      ((verifyScript (env.scriptEnv txTo nIn 0 flags) flags
        (combination env nTime txTo nIn scriptPubKey suffix slots1 slots2) scriptPubKey).result =
          some true)

end Spec

/-! ### The combination -/

section Combination

variable {ok check : Valtype → Valtype → Bool} {keys : List Valtype} {m : Nat}
  {slots1 slots2 : List Valtype}

/-- The assumptions on the two inputs. -/
structure Inputs (ok check : Valtype → Valtype → Bool) (keys : List Valtype) (m : Nat)
    (slots1 slots2 : List Valtype) : Prop where
  left : Placed ok keys m slots1
  right : Placed ok keys m slots2
  check_of_ok : ∀ {sig key}, ok sig key = true → check sig key = true
  oneKey : ∀ sig ∈ slots1 ++ slots2, OneKey check keys sig

theorem Inputs.swap (h : Inputs ok check keys m slots1 slots2) : Inputs ok check keys m slots2 slots1 where
  left := h.right
  right := h.left
  check_of_ok := h.check_of_ok
  oneKey sig hmem := h.oneKey sig (List.mem_append.mpr (List.mem_append.mp hmem).symm)

/-- A signature in a slot is accepted for a key. -/
theorem Placed.exists_key {slots : List Valtype} (h : Placed ok keys m slots) {sig : Valtype}
    (hmem : sig ∈ slots) (hne : sig ≠ []) : ∃ key ∈ keys, ok sig key = true := by
  obtain ⟨l, hrel, hsub⟩ := List.sublistForall₂_iff.mp h.placed
  have hfilter : sig ∈ slots.filter fun sig => !sig.isEmpty := List.mem_filter.mpr ⟨hmem, by simpa using hne⟩
  obtain ⟨i, hi, rfl⟩ := List.mem_iff_getElem.mp hfilter
  have hi' : i < l.length := hrel.length_eq ▸ hi
  exact ⟨l[i], hsub.subset (List.getElem_mem hi'), hrel.get hi hi'⟩

/-- The keys that have a signature, as far as signatures are required. -/
def signedKeys (ok : Valtype → Valtype → Bool) (keys : List Valtype) (m : Nat)
    (slots1 slots2 : List Valtype) : List Valtype :=
  (keys.filter fun key => signs ok slots1 key || signs ok slots2 key).take m

/-- One signature each, and the slots that are left. -/
def slotsOf (m : Nat) (signed : List Valtype) (g : Valtype → Valtype) : List Valtype :=
  signed.map g ++ List.replicate (m - signed.length) []

/-- **What is combined**: of the first keys that have a signature, as many as are required, one
signature each. -/
theorem exists_combineMultisig (h : Inputs ok check keys m slots1 slots2) {n : Valtype} {b : UInt8}
    (hm : b.toNat = m) {l1 l2 : List Valtype} (hl1 : ∀ sig, sig ≠ [] → (sig ∈ l1 ↔ sig ∈ slots1))
    (hl2 : ∀ sig, sig ≠ [] → (sig ∈ l2 ↔ sig ∈ slots2)) (hok : ∀ key, ok [] key = false) :
    ∃ g : Valtype → Valtype, combineMultisig check ([b] :: (keys ++ [n])) l1 l2 =
        pushAll ([] :: slotsOf m (signedKeys ok keys m slots1 slots2) g) ∧
      ∀ key ∈ keys, (signs ok slots1 key || signs ok slots2 key) = true →
        g key ≠ [] ∧ g key ∈ slots1 ++ slots2 ∧ ok (g key) key = true := by
  have hmem : ∀ sig, sig ∈ allSigs l1 l2 ↔ sig ≠ [] ∧ sig ∈ slots1 ++ slots2 := by
    intro sig
    rw [mem_allSigs, List.mem_append]
    exact and_congr_right fun hne => or_congr (hl1 sig hne) (hl2 sig hne)
  have hassigned := assignSigs_spec fun sig hsig => h.oneKey sig ((hmem sig).mp hsig).2
  generalize hsigs : assignSigs check keys (allSigs l1 l2) = sigs at hassigned
  have hgood : ∀ key ∈ keys, ∀ sig, sigs key = some sig →
      sig ≠ [] ∧ sig ∈ slots1 ++ slots2 ∧ ok sig key = true := by
    intro key hkey sig hsig
    obtain ⟨hin, hcheck⟩ := hassigned.sound hsig
    obtain ⟨hne, hslots⟩ := (hmem sig).mp hin
    obtain ⟨key', hkey', hok'⟩ : ∃ key' ∈ keys, ok sig key' = true := by
      rcases List.mem_append.mp hslots with hslot | hslot
      · exact h.left.exists_key hslot hne
      · exact h.right.exists_key hslot hne
    rw [h.oneKey sig hslots key hkey key' hkey' hcheck (h.check_of_ok hok')]
    exact ⟨hne, hslots, hok'⟩
  have hsome : ∀ key ∈ keys, (sigs key).isSome = (signs ok slots1 key || signs ok slots2 key) := by
    intro key hkey
    rw [Bool.eq_iff_iff]
    constructor
    · intro hhas
      obtain ⟨sig, hsig⟩ := Option.isSome_iff_exists.mp hhas
      obtain ⟨-, hslots, hok'⟩ := hgood key hkey sig hsig
      rw [Bool.or_eq_true, signs, signs, List.any_eq_true, List.any_eq_true]
      rcases List.mem_append.mp hslots with hslot | hslot
      · exact .inl ⟨sig, hslot, hok'⟩
      · exact .inr ⟨sig, hslot, hok'⟩
    · intro hsigned
      obtain ⟨sig, hslots, hok'⟩ : ∃ sig ∈ slots1 ++ slots2, ok sig key = true := by
        rw [Bool.or_eq_true, signs, signs, List.any_eq_true, List.any_eq_true] at hsigned
        rcases hsigned with ⟨sig, hslot, hok'⟩ | ⟨sig, hslot, hok'⟩
        · exact ⟨sig, List.mem_append_left _ hslot, hok'⟩
        · exact ⟨sig, List.mem_append_right _ hslot, hok'⟩
      have hne : sig ≠ [] := by
        rintro rfl
        rw [hok] at hok'
        cases hok'
      exact hassigned.complete hkey ((hmem sig).mpr ⟨hne, hslots⟩) (h.check_of_ok hok')
  refine ⟨fun key => (sigs key).getD [], ?_, ?_⟩
  · rw [combineMultisig, multisigKeys_eq, hsigs, List.headD_cons, List.headD_cons, hm, mergeLoop_eq,
      filterMap_eq_map_filter, List.filter_congr hsome, Nat.sub_zero, Nat.zero_add, ← List.map_take,
      List.length_map]
    simp only [pushAll, slotsOf, signedKeys, List.flatMap_cons, List.flatMap_append, List.append_assoc]
  · intro key hkey hsigned
    rw [← hsome key hkey] at hsigned
    obtain ⟨sig, hsig⟩ := Option.isSome_iff_exists.mp hsigned
    simp only [hsig, Option.getD_some]
    exact hgood key hkey sig hsig

section Slots

variable {signed : List Valtype} {g : Valtype → Valtype}

theorem filter_slotsOf (hne : ∀ key ∈ signed, g key ≠ []) :
    (slotsOf m signed g).filter (fun sig => !sig.isEmpty) = signed.map g := by
  rw [slotsOf, List.filter_append, List.filter_replicate_of_neg (by simp), List.append_nil,
    List.filter_eq_self]
  intro sig hmem
  obtain ⟨key, hkey, rfl⟩ := List.mem_map.mp hmem
  simpa using hne key hkey

theorem placed_slotsOf (hle : signed.length ≤ m) (hsub : signed.Sublist keys)
    (hg : ∀ key ∈ signed, g key ≠ [] ∧ (g key).length ≤ MAX_SCRIPT_ELEMENT_SIZE ∧
      ok (g key) key = true) : Placed ok keys m (slotsOf m signed g) where
  length_le := by
    rw [slotsOf, List.length_append, List.length_map, List.length_replicate]
    omega
  placed := by
    rw [filter_slotsOf fun key hkey => (hg key hkey).1]
    refine List.sublistForall₂_iff.mpr ⟨signed, ?_, hsub⟩
    rw [List.forall₂_map_left_iff, List.forall₂_same]
    exact fun key hkey => (hg key hkey).2.2
  pushable sig hmem := by
    rcases List.mem_append.mp hmem with hmem | hmem
    · obtain ⟨key, hkey, rfl⟩ := List.mem_map.mp hmem
      exact (hg key hkey).2.1
    · rw [List.eq_of_mem_replicate hmem]
      exact Nat.zero_le _

theorem signs_slotsOf (hok : ∀ key, ok [] key = false) (hg : ∀ key ∈ signed, ok (g key) key = true)
    (hone : ∀ key ∈ signed, ∀ key' ∈ keys, ok (g key) key' = true → key' = key) {key : Valtype}
    (hkey : key ∈ keys) : signs ok (slotsOf m signed g) key = true ↔ key ∈ signed := by
  rw [signs, List.any_eq_true]
  constructor
  · rintro ⟨sig, hmem, hsig⟩
    rcases List.mem_append.mp hmem with hmem | hmem
    · obtain ⟨key', hkey', rfl⟩ := List.mem_map.mp hmem
      rw [hone key' hkey' key hkey hsig]
      exact hkey'
    · rw [List.eq_of_mem_replicate hmem, hok] at hsig
      cases hsig
  · intro hmem
    exact ⟨g key, List.mem_append_left _ (List.mem_map_of_mem hmem), hg key hmem⟩

end Slots

/-- **The slots of a combination** satisfy what is asked, once they are verified when they are full. -/
theorem merges_slotsOf (h : Inputs ok check keys m slots1 slots2) (hok : ∀ key, ok [] key = false)
    {g g' : Valtype → Valtype} (hg : ∀ key ∈ keys, (signs ok slots1 key || signs ok slots2 key) = true →
      g key ≠ [] ∧ g key ∈ slots1 ++ slots2 ∧ ok (g key) key = true)
    (hg' : ∀ key ∈ keys, (signs ok slots2 key || signs ok slots1 key) = true →
      g' key ≠ [] ∧ g' key ∈ slots2 ++ slots1 ∧ ok (g' key) key = true) {verified : Prop}
    (hverified : (signedKeys ok keys m slots1 slots2).length = m →
      Placed ok keys m (slotsOf m (signedKeys ok keys m slots1 slots2) g) → verified) :
    Merges ok keys m slots1 slots2 (slotsOf m (signedKeys ok keys m slots1 slots2) g)
      (slotsOf m (signedKeys ok keys m slots2 slots1) g') verified := by
  have hsub : ∀ slots1 slots2, (signedKeys ok keys m slots1 slots2).Sublist keys := fun _ _ =>
    (List.take_sublist _ _).trans List.filter_sublist
  have hsigned : ∀ slots1 slots2, ∀ key ∈ signedKeys ok keys m slots1 slots2,
      key ∈ keys ∧ (signs ok slots1 key || signs ok slots2 key) = true := fun _ _ key hmem =>
    List.mem_filter.mp (List.mem_of_mem_take hmem)
  have hle : (signedKeys ok keys m slots1 slots2).length ≤ m := List.length_take_le _ _
  have hall : ∀ key ∈ signedKeys ok keys m slots1 slots2, g key ≠ [] ∧ g key ∈ slots1 ++ slots2 ∧
      ok (g key) key = true := fun key hmem =>
    hg key (hsigned _ _ key hmem).1 (hsigned _ _ key hmem).2
  have hall' : ∀ key ∈ signedKeys ok keys m slots2 slots1, g' key ≠ [] ∧ g' key ∈ slots2 ++ slots1 ∧
      ok (g' key) key = true := fun key hmem =>
    hg' key (hsigned _ _ key hmem).1 (hsigned _ _ key hmem).2
  have hplaced : Placed ok keys m (slotsOf m (signedKeys ok keys m slots1 slots2) g) := by
    refine placed_slotsOf hle (hsub _ _) fun key hmem => ?_
    obtain ⟨hne, hslots, hsig⟩ := hall key hmem
    refine ⟨hne, ?_, hsig⟩
    rcases List.mem_append.mp hslots with hslot | hslot
    · exact h.left.pushable _ hslot
    · exact h.right.pushable _ hslot
  have hone : ∀ key ∈ signedKeys ok keys m slots1 slots2, ∀ key' ∈ keys, ok (g key) key' = true →
      key' = key := fun key hmem key' hkey' hsig =>
    h.oneKey _ (hall key hmem).2.1 key' hkey' key (hsigned _ _ key hmem).1 (h.check_of_ok hsig)
      (h.check_of_ok (hall key hmem).2.2)
  have hone' : ∀ key ∈ signedKeys ok keys m slots2 slots1, ∀ key' ∈ keys, ok (g' key) key' = true →
      key' = key := fun key hmem key' hkey' hsig =>
    h.swap.oneKey _ (hall' key hmem).2.1 key' hkey' key (hsigned _ _ key hmem).1 (h.check_of_ok hsig)
      (h.check_of_ok (hall' key hmem).2.2)
  have hcomm : signedKeys ok keys m slots2 slots1 = signedKeys ok keys m slots1 slots2 := by
    simp only [signedKeys, Bool.or_comm]
  have hiff : ∀ key ∈ keys, signs ok (slotsOf m (signedKeys ok keys m slots1 slots2) g) key = true ↔
      key ∈ signedKeys ok keys m slots1 slots2 := fun key hkey =>
    signs_slotsOf hok (fun k hk => (hall k hk).2.2) hone hkey
  constructor
  · exact hplaced
  · intro key hkey hsome
    rw [hiff key hkey, filter_slotsOf fun k hk => (hall k hk).1, List.length_map]
    by_cases hmem : key ∈ signedKeys ok keys m slots1 slots2
    · exact .inl hmem
    · refine .inr (hle.antisymm ?_)
      -- A key that is left out is after as many as are required.
      by_contra hless
      have hfilter : key ∈ keys.filter fun key => signs ok slots1 key || signs ok slots2 key :=
        List.mem_filter.mpr ⟨hkey, hsome⟩
      rw [signedKeys, List.length_take] at hless
      rw [signedKeys, List.take_of_length_le (by omega)] at hmem
      exact hmem hfilter
  · intro key hkey
    rw [Bool.eq_iff_iff, hiff key hkey,
      signs_slotsOf hok (fun k hk => (hall' k hk).2.2) hone' hkey, hcomm]
  · intro hcount
    refine hverified ?_ hplaced
    have hdedup := ((List.dedup_sublist keys).filter fun key =>
      signs ok slots1 key || signs ok slots2 key).length_le
    rw [signedKeys, List.length_take]
    omega

/-- **Different keys have different signatures**, where no signature verifies for two. -/
theorem length_signed_le {slots : List Valtype} (hcheck : ∀ {sig key}, ok sig key = true → check sig key = true)
    (hone : ∀ sig ∈ slots, OneKey check keys sig) (hok : ∀ key, ok [] key = false) :
    (keys.dedup.filter (signs ok slots)).length ≤ (slots.filter fun sig => !sig.isEmpty).length := by
  have hsig : ∀ key ∈ keys.dedup.filter (signs ok slots), ∃ sig ∈ slots, ok sig key = true :=
    fun key hmem => List.any_eq_true.mp (List.mem_filter.mp hmem).2
  choose! g hgmem hgok using hsig
  have hinj : ∀ k ∈ keys.dedup.filter (signs ok slots),
      ∀ k' ∈ keys.dedup.filter (signs ok slots), g k = g k' → k = k' := by
    intro k hk k' hk' heq
    have hkeys : ∀ k ∈ keys.dedup.filter (signs ok slots), k ∈ keys := fun k hk =>
      List.mem_dedup.mp (List.mem_filter.mp hk).1
    refine hone (g k) (hgmem k hk) k (hkeys k hk) k' (hkeys k' hk') (hcheck (hgok k hk)) ?_
    rw [heq]
    exact hcheck (hgok k' hk')
  have hnodup : ((keys.dedup.filter (signs ok slots)).map g).Nodup :=
    ((List.nodup_dedup keys).filter _).map_on hinj
  have hsubset : (keys.dedup.filter (signs ok slots)).map g ⊆ slots.filter fun sig => !sig.isEmpty := by
    intro sig hmem
    obtain ⟨key, hkey, rfl⟩ := List.mem_map.mp hmem
    refine List.mem_filter.mpr ⟨hgmem key hkey, ?_⟩
    have hsig := hgok key hkey
    by_contra hempty
    rw [Bool.not_eq_true, Bool.not_eq_false', List.isEmpty_iff] at hempty
    rw [hempty, hok] at hsig
    cases hsig
  have hlen := (hnodup.subperm hsubset).length_le
  rwa [List.length_map] at hlen

/-- **One input only**: it is what is asked of a combination with nothing. -/
theorem merges_one (h : Inputs ok check keys m [] slots2) (hok : ∀ key, ok [] key = false)
    {verified : Prop} (hverified : (slots2.filter fun sig => !sig.isEmpty).length = m → verified) :
    Merges ok keys m [] slots2 slots2 slots2 verified := by
  have hnone : ∀ key, (signs ok [] key || signs ok slots2 key) = signs ok slots2 key := fun _ => rfl
  constructor
  · exact h.right
  · intro key _ hsome
    rw [hnone] at hsome
    exact .inl hsome
  · exact fun _ _ => rfl
  · intro hcount
    simp only [hnone] at hcount
    apply hverified
    have hle : (slots2.filter fun sig => !sig.isEmpty).length ≤ m :=
      (List.length_filter_le _ _).trans h.right.length_le
    exact hle.antisymm (hcount.trans (length_signed_le h.check_of_ok
      (fun sig hmem => h.oneKey sig (List.mem_append_right _ hmem)) hok))

theorem Merges.swap {slots slots' : List Valtype} {verified : Prop}
    (h : Merges ok keys m slots1 slots2 slots slots' verified) :
    Merges ok keys m slots2 slots1 slots slots' verified where
  placed := h.placed
  complete key hkey := by
    rw [Bool.or_comm]
    exact h.complete key hkey
  symmetric := h.symmetric
  verified hcount := h.verified (by simpa only [Bool.or_comm] using hcount)

end Combination

/-! ### Verification -/

section Verification

variable {env : SignEnv CKey} {flags : ScriptFlags} {txTo : CTransaction} {nIn : Nat}
  {script scriptPubKey : CScript} {vSolutions suffix : List Valtype}

theorem exists_multisig (hsolver : solver script = (true, .multisig, vSolutions)) :
    ∃ (nRequired : Nat) (ops : List (Nat × Valtype)), Instructions script (smallInt nRequired :: (ops ++
        [smallInt ops.length, (OP_CHECKMULTISIG, [])])) ∧
      1 ≤ nRequired ∧ nRequired ≤ ops.length ∧ ops.length ≤ 16 ∧
      (∀ op ∈ ops, 33 ≤ op.2.length ∧ op.2.length ≤ 120) ∧
      vSolutions = [UInt8.ofNat nRequired] :: (ops.map Prod.snd ++ [[UInt8.ofNat ops.length]]) ∧
      (UInt8.ofNat nRequired).toNat = nRequired := by
  cases solver_standard hsolver with
  | @multisig nRequired ops hinstructions hpos hle hmax hlens =>
    refine ⟨nRequired, ops, hinstructions, hpos, hle, hmax, hlens, rfl, ?_⟩
    rw [UInt8.toNat_ofNat']
    exact Nat.mod_eq_of_lt (by omega)

/-- **As many signatures as are required**, in the order of their keys, are verified. -/
theorem verified_of_full {m : Nat} {slots : List Valtype}
    (hsolver : solver script = (true, .multisig, vSolutions))
    (hm : ((vSolutions.headD []).headD 0).toNat = m) (hpays : Pays env script scriptPubKey suffix)
    (hp2sh : flags.p2sh = true) (hsize : ∀ v ∈ suffix, v.length ≤ MAX_SCRIPT_ELEMENT_SIZE)
    (hplaced : Placed ((env.scriptEnv txTo nIn 0 flags).accepts flags script)
      (multisigKeys vSolutions) m slots) (hfull : (slots.filter fun sig => !sig.isEmpty).length = m)
    (hfresh : ∀ sig ∈ slots, sig ∉ multisigKeys vSolutions) :
    (verifyScript (env.scriptEnv txTo nIn 0 flags) flags (partialScriptSig suffix (some slots))
      scriptPubKey).result = some true := by
  obtain ⟨nRequired, ops, hinstructions, hpos, hle, hmax, hlens, rfl, hbyte⟩ := exists_multisig hsolver
  rw [List.headD_cons, List.headD_cons, hbyte] at hm
  subst hm
  have hlen : slots.length = nRequired := hplaced.length_le.antisymm (hfull ▸ List.length_filter_le _ _)
  have hfilter : slots.filter (fun sig => !sig.isEmpty) = slots :=
    List.filter_sublist.eq_of_length (hfull.trans hlen.symm)
  have hmatch := hplaced.placed
  rw [hfilter, multisigKeys_eq] at hmatch
  rw [multisigKeys_eq] at hfresh
  have hdelete : ∀ sig ∈ slots.reverse, findAndDelete (pushData sig) script = script := by
    intro sig hmem
    rw [List.mem_reverse] at hmem
    have hne : sig ≠ [] := by
      rintro rfl
      rw [← hfilter, List.mem_filter] at hmem
      exact absurd hmem.2 (by simp)
    refine hinstructions.findAndDelete_eq_self
      (Nat.lt_of_le_of_lt (hplaced.pushable sig hmem) (by decide)) ?_
    simp only [List.mem_cons, List.mem_append, List.not_mem_nil, or_false, smallInt]
    rintro op (rfl | hop | rfl | rfl)
    · exact hne.symm
    · rintro rfl
      exact hfresh _ hmem (List.mem_map_of_mem hop)
    · exact hne.symm
    · exact hne.symm
  obtain ⟨nSigChecks, hrun⟩ := evalScript_multisig (env.scriptEnv txTo nIn 0 flags) flags []
    hinstructions hpos hle hmax hlens (by rwa [List.length_reverse])
    (show ([] : List Valtype).length ≤ 900 from Nat.zero_le _) hdelete
  have hgreedy : greedy ((env.scriptEnv txTo nIn 0 flags).accepts flags script) slots.reverse
      (ops.map Prod.snd).reverse = true := by
    rwa [greedy_iff, sublistForall₂_reverse_iff]
  rw [hgreedy, ← List.reverse_cons] at hrun
  have hitems : ∀ v ∈ [] :: slots, v.length ≤ MAX_SCRIPT_ELEMENT_SIZE := by
    intro v hmem
    rcases List.mem_cons.mp hmem with rfl | hmem
    · exact Nat.zero_le _
    · exact hplaced.pushable v hmem
  cases hpays with
  | plain =>
    rw [partialScriptSig, List.append_nil]
    refine verifyScript_plain hitems (by rw [List.length_cons]; omega) ?_ hrun
    rw [← Bool.not_eq_true]
    intro hscript
    rw [solver, if_pos hscript] at hsolver
    cases hsolver
  | scripthash hscript hhash =>
    cases standard_scripthash hscript with
    | scripthash _ hspends hscriptID =>
      have hredeem : (env.scriptEnv txTo nIn 0 flags).hash160 script =
          (scriptPubKey.drop 2).take 20 := hhash
      rw [partialScriptSig, ← List.cons_append]
      exact verifyScript_scripthash hp2sh hscript hspends hscriptID hredeem hitems
        (hsize script (List.mem_singleton_self _)) (by rw [List.length_cons]; omega) hrun

/-- The items of a partial `scriptSig`. -/
theorem scriptSigItems_eq (env : SignEnv CKey) (nTime : Nat) {slots : Option (List Valtype)}
    (hsize : ∀ v ∈ suffix, v.length ≤ MAX_SCRIPT_ELEMENT_SIZE) (hsuffix : suffix.length ≤ 1)
    (hpushable : ∀ sig ∈ slots.getD [], sig.length ≤ MAX_SCRIPT_ELEMENT_SIZE)
    (hcount : (slots.getD []).length ≤ 16) : scriptSigItems env nTime (partialScriptSig suffix slots) =
      (slots.map fun slots => [] :: (slots ++ suffix)).getD [] := by
  cases slots with
  | none => rfl
  | some slots =>
    rw [Option.getD_some] at hpushable hcount
    have hitems : ∀ v ∈ [] :: (slots ++ suffix), v.length ≤ MAX_SCRIPT_ELEMENT_SIZE := by
      intro v hmem
      rcases List.mem_cons.mp hmem with rfl | hmem
      · exact Nat.zero_le _
      · rcases List.mem_append.mp hmem with hmem | hmem
        · exact hpushable v hmem
        · exact hsize v hmem
    have hlen : ([] :: (slots ++ suffix)).length ≤ 19 := by
      rw [List.length_cons, List.length_append]
      omega
    have hrun : evalScript (env.scriptEnv (.null nTime) 0 0 ⟨false, true, false⟩)
        ⟨false, true, false⟩ (pushAll ([] :: (slots ++ suffix))) [] = _ :=
      evalScript_pushAll hitems hlen
    rw [scriptSigItems, partialScriptSig, hrun, List.reverse_reverse]
    rfl

theorem trialCheck_of_accepts {sig key : Valtype}
    (h : (env.scriptEnv txTo nIn 0 flags).accepts flags script sig key = true) :
    trialCheck env txTo nIn script sig key = true := by
  rw [ScriptEnv.accepts, Bool.and_eq_true] at h
  have hcheck : checkSigUncached env.toSigEnv ⟨sig, key, script, txTo, nIn, 0, flags⟩ = true := h.2
  have hflags : ∀ flags flags', checkSigUncached env.toSigEnv ⟨sig, key, script, txTo, nIn, 0, flags⟩ =
      checkSigUncached env.toSigEnv ⟨sig, key, script, txTo, nIn, 0, flags'⟩ := by
    intro flags flags'
    unfold checkSigUncached lookUp
    have hdata : CheckSigCall.sigData env.toSigEnv ⟨sig, key, script, txTo, nIn, 0, flags⟩ =
        CheckSigCall.sigData env.toSigEnv ⟨sig, key, script, txTo, nIn, 0, flags'⟩ := rfl
    rw [hdata]
    cases CheckSigCall.sigData env.toSigEnv ⟨sig, key, script, txTo, nIn, 0, flags'⟩ with
    | none => rfl
    | some k =>
      dsimp only
      split_ifs <;> rfl
  exact (hflags _ _).trans hcheck

theorem checkSigUncached_nil (env : SignEnv CKey) (key : Valtype) (script : CScript) (txTo : CTransaction)
    (nIn : Nat) (flags : ScriptFlags) :
    checkSigUncached env.toSigEnv ⟨[], key, script, txTo, nIn, 0, flags⟩ = false := by
  have hdata : CheckSigCall.sigData env.toSigEnv ⟨[], key, script, txTo, nIn, 0, flags⟩ = none := by
    unfold CheckSigCall.sigData
    dsimp only [List.getLast?_nil]
    split
    · next h => cases h
    · rfl
  rw [checkSigUncached, lookUp, hdata]

theorem accepts_nil (key : Valtype) :
    (env.scriptEnv txTo nIn 0 flags).accepts flags script [] key = false := by
  rw [ScriptEnv.accepts, Bool.and_eq_false_iff]
  exact .inr (checkSigUncached_nil env key script txTo nIn flags)

/-- The combination of two inputs that are not both missing in front of a script. -/
theorem combineSignatures_eq (txTo : CTransaction) (nIn : Nat) {nTime : Nat}
    {slots1 slots2 : Option (List Valtype)} (hsolver : solver script = (true, .multisig, vSolutions))
    (hpays : Pays env script scriptPubKey suffix)
    (hitems1 : scriptSigItems env nTime (partialScriptSig suffix slots1) =
      (slots1.map fun slots => [] :: (slots ++ suffix)).getD [])
    (hitems2 : scriptSigItems env nTime (partialScriptSig suffix slots2) =
      (slots2.map fun slots => [] :: (slots ++ suffix)).getD []) :
    combineSignatures env nTime scriptPubKey txTo nIn (partialScriptSig suffix slots1)
        (partialScriptSig suffix slots2) = if suffix ≠ [] ∧ slots1 = none then partialScriptSig suffix slots2
      else if suffix ≠ [] ∧ slots2 = none then partialScriptSig suffix slots1 else
        combineMultisig (trialCheck env txTo nIn script) vSolutions
          ((slots1.map fun slots => [] :: slots).getD [])
          ((slots2.map fun slots => [] :: slots).getD []) ++ pushAll suffix := by
  have hpushes : ∀ slots : Option (List Valtype),
      pushAll ((slots.map fun slots => [] :: (slots ++ suffix)).getD []) =
        partialScriptSig suffix slots := fun slots => by
    cases slots <;> rfl
  unfold combineSignatures
  dsimp only
  rw [hitems1, hitems2]
  cases hpays with
  | plain =>
    rw [hsolver]
    simp only [combineStacks, List.append_nil, pushAll, List.flatMap_nil, ne_eq, not_true_eq_false,
      false_and, if_false]
  | scripthash hscript hhash =>
    have hpubkey : solver scriptPubKey = (true, .scripthash, [(scriptPubKey.drop 2).take 20]) := by
      rw [solver, if_pos hscript]
    have hne : script ≠ [] := by
      rintro rfl
      obtain ⟨nRequired, ops, hinstructions, -⟩ := exists_multisig hsolver
      cases hinstructions with
      | cons hop _ => cases hop
    rw [hpubkey]
    dsimp only
    unfold combineStacks
    dsimp only
    rw [hpushes, hpushes]
    have hlast : ∀ slots : List Valtype, ([] :: (slots ++ [script])).getLastD [] = script :=
      fun slots => by rw [← List.cons_append, List.getLastD_concat]
    have hrest : ∀ slots : List Valtype, ([] :: (slots ++ [script])).dropLast = [] :: slots :=
      fun slots => by rw [← List.cons_append, List.dropLast_concat]
    cases slots1 with
    | none => simp
    | some slots1 =>
      cases slots2 with
      | none =>
        simp only [Option.map_some, Option.map_none, Option.getD_some, Option.getD_none, hlast,
          hne, reduceCtorEq, or_self, true_or, if_false, if_true, ne_eq, not_false_eq_true,
          and_false, and_self, List.cons_ne_nil]
      | some slots2 =>
        simp only [Option.map_some, Option.getD_some, hlast, hrest, hsolver, hne, reduceCtorEq,
          or_self, if_false, ne_eq, and_false, List.length_cons]
        rw [combineStacks, pushAll, List.flatMap_singleton]

theorem PartialInputs.swap {slots1 slots2 : Option (List Valtype)}
    (h : PartialInputs env flags txTo nIn script scriptPubKey vSolutions suffix slots1 slots2) :
    PartialInputs env flags txTo nIn script scriptPubKey vSolutions suffix slots2 slots1 :=
  ⟨h.solver, h.pays, h.p2sh, h.right, h.left⟩

theorem combination_eq (nTime : Nat) {slots1 slots2 : Option (List Valtype)}
    (h : PartialInputs env flags txTo nIn script scriptPubKey vSolutions suffix slots1 slots2)
    (hsize : ∀ v ∈ suffix, v.length ≤ MAX_SCRIPT_ELEMENT_SIZE) :
    combination env nTime txTo nIn scriptPubKey suffix slots1 slots2 =
      if suffix ≠ [] ∧ slots1 = none then partialScriptSig suffix slots2
      else if suffix ≠ [] ∧ slots2 = none then partialScriptSig suffix slots1 else
        combineMultisig (trialCheck env txTo nIn script) vSolutions
          ((slots1.map fun slots => [] :: slots).getD [])
          ((slots2.map fun slots => [] :: slots).getD []) ++ pushAll suffix := by
  obtain ⟨nRequired, ops, -, hpos, hle, hmax, -, hvs, hbyte⟩ := exists_multisig h.solver
  have hm : ((vSolutions.headD []).headD 0).toNat = nRequired := by
    rw [hvs, List.headD_cons, List.headD_cons, hbyte]
  have hsuffix : suffix.length ≤ 1 := by
    cases h.pays with
    | plain => exact Nat.zero_le _
    | scripthash _ _ => exact Nat.le_refl _
  exact combineSignatures_eq txTo nIn h.solver h.pays
    (scriptSigItems_eq env nTime hsize hsuffix h.left.pushable (h.left.length_le.trans (by omega)))
    (scriptSigItems_eq env nTime hsize hsuffix h.right.pushable (h.right.length_le.trans (by omega)))

/-- **The slots of the combination**: one signature for each of the first keys that have one. -/
theorem exists_slots {slots1 slots2 : Option (List Valtype)}
    (h : PartialInputs env flags txTo nIn script scriptPubKey vSolutions suffix slots1 slots2)
    (hone : ∀ sig ∈ slots1.getD [] ++ slots2.getD [],
      OneKey (trialCheck env txTo nIn script) (multisigKeys vSolutions) sig) : ∃ g : Valtype → Valtype,
      combineMultisig (trialCheck env txTo nIn script) vSolutions
          ((slots1.map fun slots => [] :: slots).getD [])
          ((slots2.map fun slots => [] :: slots).getD []) ++ pushAll suffix =
        partialScriptSig suffix (some (slotsOf ((vSolutions.headD []).headD 0).toNat
          (signedKeys ((env.scriptEnv txTo nIn 0 flags).accepts flags script) (multisigKeys vSolutions)
            ((vSolutions.headD []).headD 0).toNat (slots1.getD []) (slots2.getD [])) g)) ∧
      ∀ key ∈ multisigKeys vSolutions,
        (signs ((env.scriptEnv txTo nIn 0 flags).accepts flags script) (slots1.getD []) key ||
          signs ((env.scriptEnv txTo nIn 0 flags).accepts flags script) (slots2.getD []) key) = true →
        g key ≠ [] ∧ g key ∈ slots1.getD [] ++ slots2.getD [] ∧
          (env.scriptEnv txTo nIn 0 flags).accepts flags script (g key) key = true := by
  obtain ⟨nRequired, ops, -, -, -, -, -, hvs, hbyte⟩ := exists_multisig h.solver
  have hm : ((vSolutions.headD []).headD 0).toNat = nRequired := by
    rw [hvs, List.headD_cons, List.headD_cons, hbyte]
  have hkeys : multisigKeys vSolutions = ops.map Prod.snd := by rw [hvs, multisigKeys_eq]
  have hslots : ∀ slots : Option (List Valtype), ∀ sig, sig ≠ [] →
      (sig ∈ (slots.map fun slots => [] :: slots).getD [] ↔ sig ∈ slots.getD []) := by
    intro slots sig hne
    cases slots with
    | none => rfl
    | some slots => simp [hne]
  have hinputs : Inputs ((env.scriptEnv txTo nIn 0 flags).accepts flags script)
      (trialCheck env txTo nIn script) (multisigKeys vSolutions) nRequired (slots1.getD [])
      (slots2.getD []) := ⟨hm ▸ h.left, hm ▸ h.right, trialCheck_of_accepts, hone⟩
  obtain ⟨g, heq, hg⟩ := exists_combineMultisig hinputs hbyte (hslots slots1) (hslots slots2)
    accepts_nil (n := [UInt8.ofNat ops.length])
  refine ⟨g, ?_, hg⟩
  rw [hm]
  conv_lhs => rw [hvs, ← hkeys]
  rw [heq, partialScriptSig]
  simp only [pushAll, List.flatMap_cons, List.flatMap_append, List.append_assoc]

/-- **Combining partial signatures of a multisig**: what is asked holds if the script can be pushed
where it is paid to by its hash, no signature verifies for two keys of the script, and none is one of
its keys. -/
theorem combineSignatures_combined {nTime : Nat} {slots1 slots2 : Option (List Valtype)}
    (h : PartialInputs env flags txTo nIn script scriptPubKey vSolutions suffix slots1 slots2)
    (hsize : ∀ v ∈ suffix, v.length ≤ MAX_SCRIPT_ELEMENT_SIZE)
    (hone : ∀ sig ∈ slots1.getD [] ++ slots2.getD [],
      OneKey (trialCheck env txTo nIn script) (multisigKeys vSolutions) sig)
    (hfresh : ∀ sig ∈ slots1.getD [] ++ slots2.getD [], sig ∉ multisigKeys vSolutions) :
    Combined env nTime flags txTo nIn script scriptPubKey vSolutions suffix slots1 slots2 := by
  have hcombine12 := combination_eq nTime h hsize
  have hcombine21 := combination_eq nTime h.swap hsize
  unfold Combined
  obtain ⟨nRequired, ops, -, hpos, -, -, hlens, hvs, hbyte⟩ := exists_multisig h.solver
  have hm : ((vSolutions.headD []).headD 0).toNat = nRequired := by
    rw [hvs, List.headD_cons, List.headD_cons, hbyte]
  have hkeys : multisigKeys vSolutions = ops.map Prod.snd := by rw [hvs, multisigKeys_eq]
  have hinputs : Inputs ((env.scriptEnv txTo nIn 0 flags).accepts flags script)
      (trialCheck env txTo nIn script) (multisigKeys vSolutions) nRequired (slots1.getD [])
      (slots2.getD []) := ⟨hm ▸ h.left, hm ▸ h.right, trialCheck_of_accepts, hone⟩
  have hfull : ∀ slots : Option (List Valtype),
      Placed ((env.scriptEnv txTo nIn 0 flags).accepts flags script) (multisigKeys vSolutions)
        nRequired (slots.getD []) → (∀ sig ∈ slots.getD [], sig ∉ multisigKeys vSolutions) →
      ((slots.getD []).filter fun sig => !sig.isEmpty).length = nRequired →
      (verifyScript (env.scriptEnv txTo nIn 0 flags) flags (partialScriptSig suffix slots)
        scriptPubKey).result = some true := by
    intro slots hplaced hfresh hcount
    cases slots with
    | none =>
      rw [Option.getD_none, List.filter_nil, List.length_nil] at hcount
      omega
    | some slots => exact verified_of_full h.solver hm h.pays h.p2sh hsize hplaced hcount hfresh
  by_cases hmissing1 : suffix ≠ [] ∧ slots1 = none
  · -- Nothing is signed in the first input.
    have hresult21 : combination env nTime txTo nIn scriptPubKey suffix slots2 slots1 =
        partialScriptSig suffix slots2 := by
      rw [hcombine21]
      split_ifs with hmissing2
      · rw [hmissing1.2, hmissing2.2]
      · rfl
    rw [if_pos hmissing1] at hcombine12
    rw [hm, hcombine12, hresult21]
    refine ⟨slots2, slots2, rfl, rfl, ?_⟩
    rw [hmissing1.2, Option.getD_none] at hinputs hfresh ⊢
    exact merges_one hinputs accepts_nil (hfull slots2 hinputs.right hfresh)
  · by_cases hmissing2 : suffix ≠ [] ∧ slots2 = none
    · -- Nothing is signed in the second input.
      rw [if_neg hmissing1, if_pos hmissing2] at hcombine12
      rw [if_pos hmissing2] at hcombine21
      rw [hm, hcombine12, hcombine21]
      refine ⟨slots1, slots1, rfl, rfl, ?_⟩
      rw [hmissing2.2, Option.getD_none] at hinputs hfresh ⊢
      rw [List.append_nil] at hfresh
      exact (merges_one hinputs.swap accepts_nil (hfull slots1 hinputs.left hfresh)).swap
    · obtain ⟨g, heq, hg⟩ := exists_slots h hone
      obtain ⟨g', heq', hg'⟩ := exists_slots h.swap hinputs.swap.oneKey
      rw [if_neg hmissing1, if_neg hmissing2, heq] at hcombine12
      rw [if_neg hmissing2, if_neg hmissing1, heq'] at hcombine21
      rw [hcombine12, hcombine21]
      refine ⟨some _, some _, rfl, rfl, ?_⟩
      rw [hm, Option.getD_some, Option.getD_some]
      refine merges_slotsOf hinputs accepts_nil hg hg' fun hcount hplaced => ?_
      have hchosen : ∀ key ∈ signedKeys ((env.scriptEnv txTo nIn 0 flags).accepts flags script)
          (multisigKeys vSolutions) nRequired (slots1.getD []) (slots2.getD []),
          g key ≠ [] ∧ g key ∈ slots1.getD [] ++ slots2.getD [] := by
        intro key hmem
        have hkey := List.mem_filter.mp (List.mem_of_mem_take hmem)
        obtain ⟨hne, hslot, -⟩ := hg key hkey.1 hkey.2
        exact ⟨hne, hslot⟩
      refine hfull (some _) hplaced ?_ ?_
      · intro sig hmem
        rcases List.mem_append.mp hmem with hmem | hmem
        · obtain ⟨key, hkey, rfl⟩ := List.mem_map.mp hmem
          exact hfresh _ (hchosen key hkey).2
        · rw [List.eq_of_mem_replicate hmem, hkeys]
          intro hempty
          obtain ⟨op, hop, hvch⟩ := List.mem_map.mp hempty
          have hlen := (hlens op hop).1
          rw [hvch, List.length_nil] at hlen
          omega
      · rw [Option.getD_some, filter_slotsOf fun key hkey => (hchosen key hkey).1, List.length_map,
          hcount]

end Verification

/-! ### Samples -/

namespace CombineSample

def key : Valtype := 2 :: List.replicate 32 7

/-- The same key, not compressed. -/
def keyLong : Valtype := 4 :: List.replicate 64 7

def otherKey : Valtype := 3 :: List.replicate 32 9

/-- A signature of a key is a byte of it; the length of what is hashed stands for the hash. One long
signature is only for what has 147 bytes. -/
def env : SignEnv Unit where
  hash bytes := bytes.length
  verify pubkey hash vchSig :=
    vchSig = (pubkey.vch.drop 1).take 1 || vchSig = List.replicate 40 7 && hash = 147
  ripemd160 vch := (vch ++ List.replicate 20 0).take 20
  sha1 := id
  sha256 := id
  getPubKey _ := ⟨key, by decide⟩
  sign _ _ := none

def sig : Valtype := [7, 1]

def otherSig : Valtype := [9, 1]

def multisig (m : Nat) (keys : List Valtype) : CScript :=
  opcodes [OP_1 - 1 + m] ++ pushAll keys ++ opcodes [OP_1 - 1 + keys.length, OP_CHECKMULTISIG]

def payToScriptHash (script : CScript) : CScript :=
  opcodes [OP_HASH160] ++ pushData (env.hash160 script) ++ opcodes [OP_EQUAL]

def tx : CTransaction := ⟨1, 0, [⟨⟨7, 0⟩, [], 0⟩], [⟨1, []⟩], 0⟩

def flags : ScriptFlags := ⟨true, false, false⟩

theorem placed {ok : Valtype → Valtype → Bool} {keys slots : List Valtype} {m : Nat}
    (hlen : slots.length ≤ m) (hmatch : greedy ok (slots.filter fun sig => !sig.isEmpty) keys = true)
    (hpush : ∀ sig ∈ slots, sig.length ≤ MAX_SCRIPT_ELEMENT_SIZE) : Placed ok keys m slots :=
  ⟨hlen, greedy_iff.mp hmatch, hpush⟩

/-- The long signature, which its script names as a key. -/
def longSig : Valtype := List.replicate 40 7 ++ [1]

def twoOfThree : CScript := multisig 2 [key, otherKey, key]

/-- One of sixteen, which is too large. -/
def large : CScript := multisig 1 (List.replicate 16 key)

/-- One key under two encodings. -/
def twice : CScript := multisig 2 [key, keyLong]

/-- A script that names its signature. -/
def selfSigned : CScript := multisig 1 [key, longSig]

theorem twoOfThree_inputs : PartialInputs env flags tx 0 twoOfThree (payToScriptHash twoOfThree)
    (solver twoOfThree).2.2 [twoOfThree] (some [sig, []]) (some [[], otherSig]) where
  solver := by decide
  pays := .scripthash (by decide) (by decide)
  p2sh := rfl
  left := placed (by decide) (by decide) (by decide)
  right := placed (by decide) (by decide) (by decide)

end CombineSample

open CombineSample in
theorem combineSignatures_combined_sample :
    Combined env 0 flags tx 0 twoOfThree (payToScriptHash twoOfThree) (solver twoOfThree).2.2
      [twoOfThree] (some [sig, []]) (some [[], otherSig]) :=
  combineSignatures_combined twoOfThree_inputs (by decide) (by unfold OneKey; decide)
    (by decide)

open CombineSample in
/-- **Each condition is needed**: a script that is too large, a signature that verifies for two keys,
and a signature that the script names. -/
theorem not_forall_combined :
    (PartialInputs env flags tx 0 large (payToScriptHash large) (solver large).2.2 [large]
        (some [sig]) none ∧
      ¬ Combined env 0 flags tx 0 large (payToScriptHash large) (solver large).2.2 [large]
        (some [sig]) none) ∧
    (PartialInputs env flags tx 0 twice twice (solver twice).2.2 [] (some [sig, []])
        (some [[], sig]) ∧
      ¬ Combined env 0 flags tx 0 twice twice (solver twice).2.2 [] (some [sig, []])
        (some [[], sig])) ∧
    (PartialInputs env flags tx 0 selfSigned selfSigned (solver selfSigned).2.2 [] (some [longSig])
        none ∧
      ¬ Combined env 0 flags tx 0 selfSigned selfSigned (solver selfSigned).2.2 [] (some [longSig])
        none) := by
  refine ⟨⟨⟨by decide +kernel, .scripthash (by decide +kernel) (by decide +kernel), rfl,
      placed (by decide +kernel) (by decide +kernel) (by decide),
      placed (by decide +kernel) (by decide +kernel) (by decide)⟩, ?_⟩,
    ⟨⟨by decide +kernel, .plain, rfl, placed (by decide +kernel) (by decide +kernel) (by decide),
      placed (by decide +kernel) (by decide +kernel) (by decide)⟩, ?_⟩,
    ⟨⟨by decide +kernel, .plain, rfl, placed (by decide +kernel) (by decide +kernel) (by decide),
      placed (by decide +kernel) (by decide +kernel) (by decide)⟩, ?_⟩⟩
  · rintro ⟨slots, slots', -, -, h⟩
    exact absurd (h.verified (by decide +kernel)) (by decide +kernel)
  · rintro ⟨slots, slots', -, -, h⟩
    exact absurd (h.verified (by decide +kernel)) (by decide +kernel)
  · rintro ⟨slots, slots', -, -, h⟩
    exact absurd (h.verified (by decide +kernel)) (by decide +kernel)

end Manna
