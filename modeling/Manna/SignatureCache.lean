import Mathlib.Data.Finset.Card
import Manna.SignatureHash

/-!
The signature cache (`script.cpp`: `CSignatureCache`, `CheckSig`; `key.h`: `CPubKey`).

`CheckSig` looks up the hash that was signed, the signature and the key, and stores them once they
are verified. When the cache is full an entry is evicted, chosen at random: here by any choice of a
member. The calls of several threads may interleave, a call storing its entry at any time after its
lookup (`CacheRun`).

* `SoundCache`: every entry is verified;
* `checkSig_transparent`: every call returns what it returns with an empty cache.
-/

namespace Manna

/-- `CPubKey::GetLen`. -/
def pubKeyLen (chHeader : UInt8) : Nat :=
  if chHeader = 2 ∨ chHeader = 3 then 33
  else if chHeader = 4 ∨ chHeader = 6 ∨ chHeader = 7 then 65
  else 0

/-- **A valid `CPubKey`**: the length is the one its first byte says. -/
structure CPubKey where
  vch : Valtype
  valid : vch.head?.map pubKeyLen = some vch.length
deriving DecidableEq

/-- The constructor of `CPubKey` from bytes; `none` where the key is not valid. -/
def CPubKey.ofVch (vch : Valtype) : Option CPubKey :=
  if h : vch.head?.map pubKeyLen = some vch.length then some ⟨vch, h⟩ else none

theorem CPubKey.ofVch_eq_some {vch : Valtype} {pubkey : CPubKey} (h : ofVch vch = some pubkey) :
    pubkey.vch = vch := by
  unfold ofVch at h
  split at h
  · cases h
    rfl
  · cases h

theorem CPubKey.ofVch_vch (pubkey : CPubKey) : ofVch pubkey.vch = some pubkey := dif_pos pubkey.valid

/-- What `CheckSig` rests on: the hash function, and `CPubKey::Verify`. -/
structure SigEnv where
  hash : List UInt8 → Uint256
  verify : CPubKey → Uint256 → Valtype → Bool

/-- `sigdata_type`: the hash, the signature and the key. -/
abbrev SigData := Uint256 × Valtype × CPubKey

/-- A choice of the entry to evict. -/
abbrev Eviction := (setValid : Finset SigData) → setValid.Nonempty → { k // k ∈ setValid }

/-- The loop of `CSignatureCache::Set`: entries are evicted while there are too many. -/
def evictLoop (evict : Eviction) (nMaxCacheSize : Int) : Nat → Finset SigData → Finset SigData
  | 0, setValid => setValid
  | fuel + 1, setValid =>
    if (setValid.card : Int) > nMaxCacheSize then
      if h : setValid.Nonempty then
        evictLoop evict nMaxCacheSize fuel (setValid.erase (evict setValid h))
      else setValid
    else setValid

/-- `CSignatureCache::Set`. Every eviction takes an entry, so their number bounds the rounds. -/
def cacheSet (evict : Eviction) (nMaxCacheSize : Int) (setValid : Finset SigData) (k : SigData) :
    Finset SigData :=
  if nMaxCacheSize ≤ 0 then setValid
  else insert k (evictLoop evict nMaxCacheSize setValid.card setValid)

theorem evictLoop_subset (evict : Eviction) (nMaxCacheSize : Int) (fuel : Nat)
    (setValid : Finset SigData) : evictLoop evict nMaxCacheSize fuel setValid ⊆ setValid := by
  induction fuel generalizing setValid with
  | zero => exact Finset.Subset.refl _
  | succ fuel ih =>
    unfold evictLoop
    split_ifs
    · exact (ih _).trans (Finset.erase_subset _ _)
    · exact Finset.Subset.refl _
    · exact Finset.Subset.refl _

theorem mem_cacheSet {evict : Eviction} {nMaxCacheSize : Int} {setValid : Finset SigData}
    {k k' : SigData} (h : k' ∈ cacheSet evict nMaxCacheSize setValid k) : k' = k ∨ k' ∈ setValid := by
  unfold cacheSet at h
  split at h
  · exact .inr h
  · rcases Finset.mem_insert.mp h with rfl | hmem
    · exact .inl rfl
    · exact .inr (evictLoop_subset _ _ _ _ hmem)

/-! ### CheckSig -/

/-- The arguments of `CheckSig`. -/
structure CheckSigCall where
  vchSig : Valtype
  vchPubKey : Valtype
  scriptCode : CScript
  txTo : CTransaction
  nIn : Nat
  nHashType : Int
  flags : ScriptFlags

section CheckSig

variable (env : SigEnv)

/-- `CheckSig` up to the lookup: what is looked up, `none` where it returns false before. "Hash type
is one byte tacked on to the end of the signature". -/
def CheckSigCall.sigData (call : CheckSigCall) : Option SigData :=
  match CPubKey.ofVch call.vchPubKey, call.vchSig.getLast? with
  | some pubkey, some back =>
    if call.nHashType ≠ 0 ∧ call.nHashType ≠ back.toNat then none
    else
      let nHashType : Int := if call.nHashType = 0 then back.toNat else call.nHashType
      some (signatureHash env.hash call.scriptCode call.txTo call.nIn nHashType,
        call.vchSig.dropLast, pubkey)
  | _, _ => none

/-- `pubkey.Verify(sighash, vchSig)`. -/
def SigEnv.verifies (k : SigData) : Bool := env.verify k.2.2 k.1 k.2.1

/-- The result of `CheckSig`, and the entry that it stores then, if any. -/
def lookUp (setValid : Finset SigData) (call : CheckSigCall) : Bool × Option SigData :=
  match call.sigData env with
  | none => (false, none)
  | some k =>
    if k ∈ setValid then (true, none)
    else if !env.verifies k then (false, none)
    else (true, if call.flags.noCache then none else some k)

def checkSig (evict : Eviction) (nMaxCacheSize : Int) (setValid : Finset SigData)
    (call : CheckSigCall) : Bool × Finset SigData :=
  match lookUp env setValid call with
  | (fOk, none) => (fOk, setValid)
  | (fOk, some k) => (fOk, cacheSet evict nMaxCacheSize setValid k)

/-- Calls of `CheckSig` one after the other, each with the evictions it makes. -/
def checkSigs (nMaxCacheSize : Int) (setValid : Finset SigData) :
    List (CheckSigCall × Eviction) → List Bool
  | [] => []
  | (call, evict) :: calls =>
    let checked := checkSig env evict nMaxCacheSize setValid call
    checked.1 :: checkSigs nMaxCacheSize checked.2 calls

/-- `CheckSig` with an empty cache. -/
def checkSigUncached (call : CheckSigCall) : Bool := (lookUp env ∅ call).1

/-- **Every entry is verified.** -/
def SoundCache (setValid : Finset SigData) : Prop := ∀ k ∈ setValid, env.verifies k = true

variable {env} {evict : Eviction} {nMaxCacheSize : Int} {setValid : Finset SigData}
  {call : CheckSigCall}

theorem SoundCache.empty : SoundCache env ∅ := fun _ h => absurd h (Finset.notMem_empty _)

theorem SoundCache.set (h : SoundCache env setValid) {k : SigData} (hk : env.verifies k = true) :
    SoundCache env (cacheSet evict nMaxCacheSize setValid k) := by
  intro k' hmem
  rcases mem_cacheSet hmem with rfl | hold
  · exact hk
  · exact h k' hold

/-- **A lookup in a sound cache** gives what verification gives, and stores what is verified. -/
theorem SoundCache.lookUp (h : SoundCache env setValid) (call : CheckSigCall) :
    (lookUp env setValid call).1 = checkSigUncached env call ∧
      ∀ k ∈ (Manna.lookUp env setValid call).2, env.verifies k = true := by
  unfold checkSigUncached Manna.lookUp
  cases call.sigData env with
  | none => exact ⟨rfl, nofun⟩
  | some k =>
    dsimp only
    rw [if_neg (Finset.notMem_empty k)]
    by_cases hmem : k ∈ setValid
    · rw [if_pos hmem, h k hmem]
      exact ⟨rfl, nofun⟩
    · rw [if_neg hmem]
      cases hverify : env.verifies k with
      | false => exact ⟨rfl, nofun⟩
      | true =>
        refine ⟨rfl, ?_⟩
        intro k' hstored
        simp only [Bool.not_true, Bool.false_eq_true, if_false] at hstored
        split at hstored
        · cases hstored
        · cases hstored
          exact hverify

theorem SoundCache.checkSig (h : SoundCache env setValid) (evict : Eviction) (nMaxCacheSize : Int)
    (call : CheckSigCall) : (checkSig env evict nMaxCacheSize setValid call).1 = checkSigUncached env call ∧
      SoundCache env (Manna.checkSig env evict nMaxCacheSize setValid call).2 := by
  obtain ⟨hresult, hstored⟩ := h.lookUp call
  unfold Manna.checkSig
  generalize Manna.lookUp env setValid call = looked at hresult hstored ⊢
  obtain ⟨fOk, stored⟩ := looked
  cases stored with
  | none => exact ⟨hresult, h⟩
  | some k => exact ⟨hresult, h.set (hstored k rfl)⟩

theorem SoundCache.checkSigs (h : SoundCache env setValid) (nMaxCacheSize : Int)
    (calls : List (CheckSigCall × Eviction)) :
    checkSigs env nMaxCacheSize setValid calls = calls.map fun c => checkSigUncached env c.1 := by
  induction calls generalizing setValid with
  | nil => rfl
  | cons c calls ih =>
    obtain ⟨call, evict⟩ := c
    obtain ⟨hresult, hsound⟩ := h.checkSig evict nMaxCacheSize call
    rw [Manna.checkSigs, List.map_cons, ih hsound, hresult]

end CheckSig

/-- The cache, and the entries that calls under way are about to store. -/
structure CacheState where
  setValid : Finset SigData
  underWay : List SigData

/-- **Calls of several threads**, by the calls whose lookup was made and their results. The lock is
held for a lookup and for a store, so a call stores its entry at any time after its lookup, or has
not stored it yet. -/
inductive CacheRun (env : SigEnv) (nMaxCacheSize : Int) :
    CacheState → List (CheckSigCall × Bool) → CacheState → Prop
  | start {s} : CacheRun env nMaxCacheSize s [] s
  | looked {s results s' call} : CacheRun env nMaxCacheSize s results s' →
      CacheRun env nMaxCacheSize s (results ++ [(call, (lookUp env s'.setValid call).1)])
        { s' with underWay := (lookUp env s'.setValid call).2.toList ++ s'.underWay }
  | stored {s results s' k evict} : CacheRun env nMaxCacheSize s results s' → k ∈ s'.underWay →
      CacheRun env nMaxCacheSize s results
        ⟨cacheSet evict nMaxCacheSize s'.setValid k, s'.underWay.erase k⟩

/-- **The invariant of interleaved calls**: what is stored, or about to be, is verified, and the
results so far are those of verification. -/
theorem CacheRun.sound {env : SigEnv} {nMaxCacheSize : Int} {s s' : CacheState}
    {results : List (CheckSigCall × Bool)} (h : CacheRun env nMaxCacheSize s results s')
    (hcache : SoundCache env s.setValid) (hunderWay : ∀ k ∈ s.underWay, env.verifies k = true) :
    SoundCache env s'.setValid ∧ (∀ k ∈ s'.underWay, env.verifies k = true) ∧
      ∀ r ∈ results, r.2 = checkSigUncached env r.1 := by
  induction h with
  | start => exact ⟨hcache, hunderWay, nofun⟩
  | @looked results s' call _ ih =>
    obtain ⟨hsound, hpending, hresults⟩ := ih
    obtain ⟨hresult, hstored⟩ := hsound.lookUp call
    refine ⟨hsound, ?_, ?_⟩
    · intro k hmem
      rcases List.mem_append.mp hmem with hnew | hold
      · exact hstored k (Option.mem_toList.mp hnew)
      · exact hpending k hold
    · intro r hmem
      rcases List.mem_append.mp hmem with hold | hnew
      · exact hresults r hold
      · obtain rfl := List.mem_singleton.mp hnew
        exact hresult
  | stored _ hmem ih =>
    obtain ⟨hsound, hpending, hresults⟩ := ih
    refine ⟨hsound.set (hpending _ hmem), ?_, hresults⟩
    intro k hk
    exact hpending k (List.mem_of_mem_erase hk)

/-- **The cache is transparent.** Whatever the sequence of calls, their flags, the size of the cache
and the choices of what is evicted, every call of `CheckSig` returns what it returns with an empty
cache; and so do the calls of several threads, however they interleave. -/
theorem checkSig_transparent (env : SigEnv) (nMaxCacheSize : Int) :
    (∀ calls : List (CheckSigCall × Eviction),
      checkSigs env nMaxCacheSize ∅ calls = calls.map fun c => checkSigUncached env c.1) ∧
    ∀ results s, CacheRun env nMaxCacheSize ⟨∅, []⟩ results s →
      ∀ r ∈ results, r.2 = checkSigUncached env r.1 := by
  constructor
  · exact SoundCache.empty.checkSigs nMaxCacheSize
  · intro results s hrun
    exact (hrun.sound SoundCache.empty nofun).2.2

end Manna
