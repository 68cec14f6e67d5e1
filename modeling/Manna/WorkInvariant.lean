import Manna.GetWork

/-!
The work of external miners is not lost (`rpcmining.cpp`: `getwork`, `getworkex`).

Roots for one tip differ because the scripts of their coinbases differ, as long as the counter of a call goes
on, or because the coinbases differ otherwise. They can be rebuilt because the skeleton of a template is never
changed and its scripts are saved.

* `handOut_eq`, `skeleton_fillIn`: what a request and a submission do to a template;
* `WorkInvariant`: what holds of the static variables and of the work handed out;
* `WorkInvariant.step`: every step that neither repeats nor drops work keeps the invariant;
* `workKept_run`: no work is lost or handed out twice in a run of such steps.
-/

namespace Manna

namespace GetWork

section

variable {env : Env} {ancestors : CBlockIndex → List CBlockIndex} {lib : OpenSSL}

/-! ### Single steps -/

/-- The script of the coinbase over an entry of the index. -/
abbrev scriptFor (lib : OpenSSL) (pindexPrev : CBlockIndex) (nExtraNonce : UInt32) : CScript :=
  coinBaseScript lib (UInt32.ofInt (pindexPrev.nHeight + 1)) nExtraNonce

/-- A template for a tip. -/
structure IsTemplate (ancestors : CBlockIndex → List CBlockIndex) (pindexBest : CBlockIndex) (block : CBlock) :
    Prop where
  prev : block.hashPrevBlock = pindexBest.phashBlock
  bits : block.nBits = getNextTrustRequired (pindexBest :: ancestors pindexBest)
  coinBase : block.HasCoinBase

variable {pindexBest : CBlockIndex} {work : WorkState} {i : Nat}

theorem IsTemplate.of_skeleton {block block' : CBlock}
    (h : IsTemplate ancestors pindexBest block) (hskeleton : block.skeleton = block'.skeleton) :
    IsTemplate ancestors pindexBest block' := by
  obtain ⟨⟨-, hprev, hbits⟩, -⟩ := CBlock.skeleton_eq_iff.mp hskeleton
  exact ⟨hprev.symm.trans h.prev, hbits.symm.trans h.bits, h.coinBase.of_skeleton hskeleton⟩

theorem isTemplate_createNewBlock (env : Env) (pindexBest : CBlockIndex) (source : BlockSource) :
    IsTemplate ancestors pindexBest (createNewBlock env ancestors pindexBest source) :=
  ⟨createNewBlock_hashPrevBlock env pindexBest source, createNewBlock_nBits env pindexBest source,
    hasCoinBase_createNewBlock env pindexBest source⟩

/-- The counter after `IncrementExtraNonce`. -/
def nextExtraNonce (s : MiningState) (nExtraNonce : UInt32) : UInt32 :=
  (if s.hashPrevBlock ≠ s.pindexBest.phashBlock then 0 else nExtraNonce) + 1

/-- The counter goes on where it is not restarted and does not wrap. -/
theorem lt_nextExtraNonce {s : MiningState} {n m : UInt32} (hkept : s.hashPrevBlock = s.pindexBest.phashBlock)
    (hwrap : s.hashPrevBlock = s.pindexBest.phashBlock → n.toNat + 1 < 2 ^ 32) (hle : m ≤ n) :
    m < nextExtraNonce s n := by
  have hlt := hwrap hkept
  rw [UInt32.le_iff_toNat_le] at hle
  rw [nextExtraNonce, if_neg (not_not.mpr hkept), UInt32.lt_iff_toNat_lt, UInt32.toNat_add, UInt32.toNat_one,
    Nat.mod_eq_of_lt hlt]
  omega

/-- **What a hand-out does**: the template gets the next script, and is saved under its new root. -/
theorem handOut_eq (env : Env) (lib : OpenSSL) (s : MiningState) (cmd : Command) (work : WorkState) (nAdjustedTime : Int) (i : Nat)
    {pblock : CBlock} (h : IsTemplate ancestors s.pindexBest pblock) :
    ∃ pblock' : CBlock, pblock'.skeleton = pblock.skeleton ∧
      (pblock'.setScriptSig (scriptFor lib s.pindexBest (nextExtraNonce s work.nExtraNonce))).setMerkleRoot env =
        pblock' ∧
      handOut env ancestors lib s cmd work nAdjustedTime s.pindexBest i pblock =
        ({ s with hashPrevBlock := s.pindexBest.phashBlock }.setWork cmd
          (work.save i pblock' (nextExtraNonce s work.nExtraNonce)), pblock') := by
  have hprev : (pblock.updateTime env ancestors s.pindexBest nAdjustedTime).hashPrevBlock =
      s.pindexBest.phashBlock := (hashPrevBlock_updateTime env _ _ _).trans h.prev
  have hskeleton := skeleton_updateTime env h.bits nAdjustedTime
  refine ⟨_, ?_, CBlock.setMerkleRoot_setScriptSig env
    { pblock.updateTime env ancestors s.pindexBest nAdjustedTime with nNonce := 0 } _, ?_⟩
  · rw [CBlock.skeleton_setMerkleRoot, CBlock.skeleton_setScriptSig]
    exact hskeleton
  · simp only [handOut, incrementExtraNonce_eq, hprev, nextExtraNonce]

theorem handOut_update (s : MiningState) (cmd : Command) (work work' : WorkState) (nAdjustedTime : Int)
    (pindexPrev : CBlockIndex) (i : Nat) (pblock : CBlock) :
    handOut env ancestors lib (s.setWork cmd work') cmd work nAdjustedTime pindexPrev i pblock =
      handOut env ancestors lib s cmd work nAdjustedTime pindexPrev i pblock := by
  simp only [handOut, MiningState.setWork, Function.update_idem]

theorem skeleton_fillIn (pblock : CBlock) (pdata : CBlockHeader) (scriptSig : CScript)
    {coinbase : Option Replacement} (h : ∀ replacement, coinbase = some replacement →
      pblock.vtx.head?.map (·.setCoinBaseSig []) = some (replacement.tx.setCoinBaseSig [])) :
    (fillIn env pblock pdata scriptSig coinbase).skeleton = pblock.skeleton := by
  cases coinbase with
  | none =>
    rw [fillIn, CBlock.skeleton_setMerkleRoot, CBlock.skeleton_setScriptSig]
    rfl
  | some replacement =>
    have hsame := h replacement rfl
    have hskeleton : { pblock with vtx := pblock.vtx.modifyHead fun _ => replacement.tx }.skeleton =
        pblock.skeleton := by
      cases hvtx : pblock.vtx with
      | nil => simp [hvtx] at hsame
      | cons tx vtx =>
        rw [hvtx, List.head?_cons, Option.map_some, Option.some_inj] at hsame
        simp [CBlock.skeleton_eq_iff, CBlock.setScriptSig, hvtx, hsame]
    simp only [fillIn]
    split
    · exact hskeleton
    · exact hskeleton

/-! ### Templates in their places -/

theorem of_current {pindexPrev : CBlockIndex} {pblock : CBlock}
    (h : work.current = some (pindexPrev, i, pblock)) :
    work.pindexPrev = some pindexPrev ∧ work.vNewBlockTemplate[i]? = some pblock := by
  simp only [WorkState.current, Option.bind_eq_bind, Option.bind_eq_some_iff, Option.pure_def, Option.some.injEq,
    Prod.mk.injEq] at h
  obtain ⟨_, hprev, _, -, _, htemplate, rfl, rfl, rfl⟩ := h
  exact ⟨hprev, htemplate⟩

theorem savedBlock_eq_some {hashMerkleRoot : Uint256} {scriptSig : CScript} {pblock : CBlock} :
    work.savedBlock hashMerkleRoot = some (i, scriptSig, pblock) ↔
      work.mapNewBlock hashMerkleRoot = some (i, scriptSig) ∧ work.vNewBlockTemplate[i]? = some pblock := by
  simp only [WorkState.savedBlock, Option.bind_eq_bind, Option.bind_eq_some_iff, Option.pure_def, Option.some.injEq,
    Prod.mk.injEq]
  constructor
  · rintro ⟨_, hmap, _, htemplate, rfl, rfl, rfl⟩
    exact ⟨hmap, htemplate⟩
  · rintro ⟨hmap, htemplate⟩
    exact ⟨_, hmap, _, htemplate, rfl, rfl, rfl⟩

theorem renew_same {s : MiningState} (h : work.pindexPrev = some s.pindexBest) (nTime : Int)
    (pblock : CBlock) :
    s.renew work nTime (some pblock) = { work with
      pindexPrev := some s.pindexBest
      nTransactionsUpdatedLast := s.nTransactionsUpdated
      nStart := nTime
      pblocktemplate := some work.vNewBlockTemplate.length
      vNewBlockTemplate := work.vNewBlockTemplate ++ [pblock] } := by
  simp [MiningState.renew, MiningState.deallocate, h]

theorem renew_other {s : MiningState} (h : work.pindexPrev ≠ some s.pindexBest) (nTime : Int)
    (pblock : CBlock) :
    s.renew work nTime (some pblock) = { work with
      mapNewBlock := fun _ => none
      pindexPrev := some s.pindexBest
      nTransactionsUpdatedLast := s.nTransactionsUpdated
      nStart := nTime
      pblocktemplate := some 0
      vNewBlockTemplate := [pblock] } := by
  simp [MiningState.renew, MiningState.deallocate, h]

theorem renew_failed (s : MiningState) (work : WorkState) (nTime : Int) :
    (s.renew work nTime none).pindexPrev = none := rfl

theorem nExtraNonce_renew (s : MiningState) (work : WorkState) (nTime : Int) (created : Option CBlock) :
    (s.renew work nTime created).nExtraNonce = work.nExtraNonce := by
  unfold MiningState.renew MiningState.deallocate
  split <;> cases created <;> rfl

theorem exists_of_mem_set {templates : List CBlock} {block block' x : CBlock}
    (hblock : templates[i]? = some block) (hskeleton : block'.skeleton = block.skeleton)
    (hx : x ∈ templates.set i block') : ∃ y ∈ templates, y.skeleton = x.skeleton := by
  rcases List.mem_or_eq_of_mem_set hx with hmem | rfl
  · exact ⟨x, hmem, rfl⟩
  · exact ⟨block, List.mem_of_getElem? hblock, hskeleton.symm⟩

theorem exists_getElem?_set {templates : List CBlock} {j : Nat} {block block' x : CBlock}
    (hblock : templates[i]? = some block) (hskeleton : block'.skeleton = block.skeleton)
    (hx : templates[j]? = some x) : ∃ y, (templates.set i block')[j]? = some y ∧ y.skeleton = x.skeleton := by
  by_cases hij : i = j
  · subst hij
    obtain rfl : block = x := Option.some_inj.mp (hblock.symm.trans hx)
    exact ⟨block', List.getElem?_set_self (List.getElem?_eq_some_iff.mp hblock).1, hskeleton⟩
  · exact ⟨x, by rw [List.getElem?_set_ne hij, hx], rfl⟩

/-! ### The invariant -/

/-- The work can be rebuilt: the script saved for it is the one it was handed out with, and its template has the
rest of it. -/
def Saved (env : Env) (lib : OpenSSL) (work : WorkState) (handed : Handed) : Prop :=
  ∃ i block nExtraNonce,
    work.mapNewBlock handed.pblock.hashMerkleRoot = some (i, scriptFor lib handed.pindexPrev nExtraNonce) ∧
    work.vNewBlockTemplate[i]? = some block ∧ block.skeleton = handed.pblock.skeleton ∧
    (handed.pblock.setScriptSig (scriptFor lib handed.pindexPrev nExtraNonce)).setMerkleRoot env = handed.pblock ∧
    nExtraNonce ≤ work.nExtraNonce

/-- A call that works on the tip. -/
structure Working (env : Env) (ancestors : CBlockIndex → List CBlockIndex) (lib : OpenSSL) (pindexBest : CBlockIndex)
    (handed : List Handed) (cmd : Command) (work : WorkState) : Prop where
  templates : ∀ block ∈ work.vNewBlockTemplate, IsTemplate ancestors pindexBest block
  saved : ∀ w ∈ handed, w.cmd = cmd → w.pindexPrev = pindexBest → Saved env lib work w

/-- A template may change outside its skeleton. -/
theorem Saved.setTemplate {w : Handed} (h : Saved env lib work w)
    {block block' : CBlock} (hblock : work.vNewBlockTemplate[i]? = some block)
    (hskeleton : block'.skeleton = block.skeleton) :
    Saved env lib { work with vNewBlockTemplate := work.vNewBlockTemplate.set i block' } w := by
  obtain ⟨j, x, nExtraNonce, hmap, hx, hxskeleton, hbuilt, hle⟩ := h
  obtain ⟨y, hy, hyskeleton⟩ := exists_getElem?_set hblock hskeleton hx
  exact ⟨j, y, nExtraNonce, hmap, hy, hyskeleton.trans hxskeleton, hbuilt, hle⟩

theorem Working.setTemplate {handed : List Handed} {cmd : Command}
    (h : Working env ancestors lib pindexBest handed cmd work) {block block' : CBlock}
    (hblock : work.vNewBlockTemplate[i]? = some block) (hskeleton : block'.skeleton = block.skeleton) :
    Working env ancestors lib pindexBest handed cmd
      { work with vNewBlockTemplate := work.vNewBlockTemplate.set i block' } where
  templates := by
    intro x hx
    obtain ⟨y, hy, hxy⟩ := exists_of_mem_set hblock hskeleton hx
    exact (h.templates y hy).of_skeleton hxy
  saved w hw hcmd htip := (h.saved w hw hcmd htip).setTemplate hblock hskeleton

theorem Working.save {handed : List Handed} {cmd : Command}
    (h : Working env ancestors lib pindexBest handed cmd work) {block block' : CBlock}
    (hblock : work.vNewBlockTemplate[i]? = some block) (hskeleton : block'.skeleton = block.skeleton)
    {next : UInt32} (hnew : ∀ w ∈ handed, w.cmd = cmd → w.pindexPrev = pindexBest →
      block'.hashMerkleRoot ≠ w.pblock.hashMerkleRoot ∧ work.nExtraNonce ≤ next) :
    Working env ancestors lib pindexBest handed cmd (work.save i block' next) where
  templates := (h.setTemplate hblock hskeleton).templates
  saved := by
    intro w hw hcmd htip
    obtain ⟨hroot, hle'⟩ := hnew w hw hcmd htip
    obtain ⟨j, x, nExtraNonce, hmap, hx, hxskeleton, hbuilt, hle⟩ :=
      (h.saved w hw hcmd htip).setTemplate hblock hskeleton
    refine ⟨j, x, nExtraNonce, ?_, hx, hxskeleton, hbuilt, UInt32.le_trans hle hle'⟩
    rw [WorkState.save_mapNewBlock, Function.update_of_ne hroot.symm]
    exact hmap

/-- A further template for the tip leaves the others in their places. -/
theorem Working.push {handed : List Handed} {cmd : Command}
    (h : Working env ancestors lib pindexBest handed cmd work) {block : CBlock}
    (hblock : IsTemplate ancestors pindexBest block) {nTransactionsUpdatedLast : UInt32} {nStart : Int} :
    Working env ancestors lib pindexBest handed cmd { work with
      pindexPrev := some pindexBest
      nTransactionsUpdatedLast := nTransactionsUpdatedLast
      nStart := nStart
      pblocktemplate := some work.vNewBlockTemplate.length
      vNewBlockTemplate := work.vNewBlockTemplate ++ [block] } where
  templates := by
    intro x hx
    rcases List.mem_append.mp hx with hx | hx
    · exact h.templates x hx
    · rw [List.mem_singleton.mp hx]
      exact hblock
  saved := by
    intro w hw hcmd htip
    obtain ⟨i, x, nExtraNonce, hmap, hx, hrest⟩ := h.saved w hw hcmd htip
    refine ⟨i, x, nExtraNonce, hmap, ?_, hrest⟩
    rw [List.getElem?_append_left (List.getElem?_eq_some_iff.mp hx).1, hx]

/-- **The invariant**: calls that do not work on the tip have no work for it out, and those that do can rebuild
theirs, from templates with different coinbases. -/
structure WorkInvariant (env : Env) (ancestors : CBlockIndex → List CBlockIndex) (lib : OpenSSL) (s : MiningState)
    (handed : List Handed) : Prop where
  distinct : DistinctRoots handed
  handedTrust : ∀ w ∈ handed, w.pindexPrev.nChainTrust ≤ s.pindexBest.nChainTrust
  trust : ∀ cmd pindex, (s.works cmd).pindexPrev = some pindex →
    pindex.nChainTrust ≤ s.pindexBest.nChainTrust
  idle : ∀ cmd, (s.works cmd).pindexPrev ≠ some s.pindexBest →
    ∀ w ∈ handed, w.cmd = cmd → w.pindexPrev ≠ s.pindexBest
  working : ∀ cmd, (s.works cmd).pindexPrev = some s.pindexBest →
    Working env ancestors lib s.pindexBest handed cmd (s.works cmd)
  apart : ∀ cmd other, other ≠ cmd → (s.works cmd).pindexPrev = some s.pindexBest →
    (s.works other).pindexPrev = some s.pindexBest →
    ∀ block ∈ (s.works cmd).vNewBlockTemplate, ∀ block' ∈ (s.works other).vNewBlockTemplate,
      ¬ CBlock.SameCoinBase block block'

namespace WorkInvariant

variable {s : MiningState} {handed : List Handed}

variable {cmd : Command}

/-- The static variables of one call may change, as long as they meet the invariant. -/
theorem update (h : WorkInvariant env ancestors lib s handed) {work : WorkState}
    (htrust : ∀ pindex, work.pindexPrev = some pindex → pindex.nChainTrust ≤ s.pindexBest.nChainTrust)
    (hidle : work.pindexPrev ≠ some s.pindexBest → ∀ w ∈ handed, w.cmd = cmd → w.pindexPrev ≠ s.pindexBest)
    (hworking : work.pindexPrev = some s.pindexBest → Working env ancestors lib s.pindexBest handed cmd work)
    (hapart : work.pindexPrev = some s.pindexBest → ∀ other, other ≠ cmd →
      (s.works other).pindexPrev = some s.pindexBest →
      ∀ block ∈ work.vNewBlockTemplate, ∀ block' ∈ (s.works other).vNewBlockTemplate,
        ¬ CBlock.SameCoinBase block block') :
    WorkInvariant env ancestors lib (s.setWork cmd work) handed where
  distinct := h.distinct
  handedTrust := h.handedTrust
  trust := MiningState.forall_setWork (p := fun _ work => ∀ pindex, work.pindexPrev = some pindex →
    pindex.nChainTrust ≤ s.pindexBest.nChainTrust) htrust fun other _ => h.trust other
  idle := MiningState.forall_setWork (p := fun cmd work => work.pindexPrev ≠ some s.pindexBest →
    ∀ w ∈ handed, w.cmd = cmd → w.pindexPrev ≠ s.pindexBest) hidle fun other _ => h.idle other
  working := MiningState.forall_setWork (p := fun cmd work => work.pindexPrev = some s.pindexBest →
    Working env ancestors lib s.pindexBest handed cmd work) hworking fun other _ => h.working other
  apart := by
    intro cmd₁ cmd₂ hne
    by_cases hcmd : cmd₁ = cmd
    · subst hcmd
      rw [MiningState.setWork_self, MiningState.setWork_of_ne _ hne]
      intro hprev
      exact hapart hprev cmd₂ hne
    · rw [MiningState.setWork_of_ne _ hcmd]
      by_cases hcmd' : cmd₂ = cmd
      · subst hcmd'
        rw [MiningState.setWork_self]
        intro hprev hprev' block hblock block' hblock' hsame
        exact hapart hprev' cmd₁ (Ne.symm hne) hprev block' hblock' block hblock hsame.symm
      · rw [MiningState.setWork_of_ne _ hcmd']
        exact h.apart cmd₁ cmd₂ hne

theorem updateWorking (h : WorkInvariant env ancestors lib s handed) {work : WorkState}
    (hprev : work.pindexPrev = some s.pindexBest)
    (hworking : Working env ancestors lib s.pindexBest handed cmd work)
    (hapart : ∀ other, other ≠ cmd → (s.works other).pindexPrev = some s.pindexBest →
      ∀ block ∈ work.vNewBlockTemplate, ∀ block' ∈ (s.works other).vNewBlockTemplate,
        ¬ CBlock.SameCoinBase block block') :
    WorkInvariant env ancestors lib (s.setWork cmd work) handed := by
  apply h.update
  · intro pindex hpindex
    rw [Option.some_inj.mp (hpindex.symm.trans hprev)]
  · intro hne
    exact absurd hprev hne
  · intro _
    exact hworking
  · intro _
    exact hapart

theorem apart_set (h : WorkInvariant env ancestors lib s handed) {other : Command} (hother : other ≠ cmd)
    (hprev : (s.works cmd).pindexPrev = some s.pindexBest)
    (hprev' : (s.works other).pindexPrev = some s.pindexBest) {i : Nat} {block block' : CBlock}
    (hblock : (s.works cmd).vNewBlockTemplate[i]? = some block)
    (hskeleton : block'.skeleton = block.skeleton) :
    ∀ x ∈ (s.works cmd).vNewBlockTemplate.set i block', ∀ x' ∈ (s.works other).vNewBlockTemplate,
      ¬ CBlock.SameCoinBase x x' := by
  intro x hx x' hx' hsame
  obtain ⟨y, hy, hxy⟩ := exists_of_mem_set hblock hskeleton hx
  exact h.apart cmd other hother hprev hprev' y hy x' hx' (hsame.congr hxy.symm rfl)

theorem setTemplate (h : WorkInvariant env ancestors lib s handed) (cmd : Command) {i : Nat} {block block' : CBlock}
    (hblock : (s.works cmd).vNewBlockTemplate[i]? = some block)
    (hskeleton : block'.skeleton = block.skeleton) : WorkInvariant env ancestors lib (s.setWork cmd
      { s.works cmd with vNewBlockTemplate := (s.works cmd).vNewBlockTemplate.set i block' }) handed := by
  apply h.update
  · exact h.trust cmd
  · exact h.idle cmd
  · intro hprev
    exact (h.working cmd hprev).setTemplate hblock hskeleton
  · intro hprev other hother hprev'
    exact h.apart_set hother hprev hprev' hblock hskeleton

theorem hand (h : WorkInvariant env ancestors lib s handed) {w : Handed} (htip : w.pindexPrev = s.pindexBest)
    (hprev : (s.works w.cmd).pindexPrev = some s.pindexBest) (hsaved : Saved env lib (s.works w.cmd) w)
    (hnew : ∀ w' ∈ handed, w'.pindexPrev = s.pindexBest →
      w.pblock.hashMerkleRoot ≠ w'.pblock.hashMerkleRoot) :
    WorkInvariant env ancestors lib s (w :: handed) where
  distinct := by
    refine List.pairwise_cons.mpr ⟨?_, h.distinct⟩
    intro w' hw' hsame
    exact hnew w' hw' (hsame.symm.trans htip)
  handedTrust := by
    intro w' hw'
    rcases List.mem_cons.mp hw' with rfl | hw'
    · rw [htip]
    · exact h.handedTrust w' hw'
  trust := h.trust
  idle := by
    intro cmd hidle w' hw' hcmd
    rcases List.mem_cons.mp hw' with rfl | hw'
    · subst hcmd
      exact absurd hprev hidle
    · exact h.idle cmd hidle w' hw' hcmd
  working := by
    intro cmd hcmd
    have hworking := h.working cmd hcmd
    refine ⟨hworking.templates, ?_⟩
    intro w' hw' hw'cmd hw'tip
    rcases List.mem_cons.mp hw' with rfl | hw'
    · subst hw'cmd
      exact hsaved
    · exact hworking.saved w' hw' hw'cmd hw'tip
  apart := h.apart

theorem setBestChain (h : WorkInvariant env ancestors lib s handed) {pindexNew : CBlockIndex} (nTransactionsUpdated : UInt32)
    (htrust : s.pindexBest.nChainTrust < pindexNew.nChainTrust) : WorkInvariant env ancestors lib
      { s with pindexBest := pindexNew, nTransactionsUpdated := nTransactionsUpdated } handed := by
  have hnone : ∀ cmd, (s.works cmd).pindexPrev ≠ some pindexNew := by
    intro cmd hprev
    exact absurd (h.trust cmd pindexNew hprev) (Nat.not_le.mpr htrust)
  refine ⟨h.distinct, ?_, ?_, ?_, ?_, ?_⟩
  · intro w hw
    exact (h.handedTrust w hw).trans htrust.le
  · intro cmd pindex hpindex
    exact (h.trust cmd pindex hpindex).trans htrust.le
  · rintro cmd - w hw - rfl
    exact absurd (h.handedTrust w hw) (Nat.not_le.mpr htrust)
  · intro cmd hprev
    exact absurd hprev (hnone cmd)
  · intro cmd _ _ hprev
    exact absurd hprev (hnone cmd)

/-- The invariant is not about the static variable of `IncrementExtraNonce`, nor about the pool. -/
theorem congr (h : WorkInvariant env ancestors lib s handed) (nTransactionsUpdated : UInt32) (hashPrevBlock : Uint256) :
    WorkInvariant env ancestors lib
      { s with nTransactionsUpdated := nTransactionsUpdated, hashPrevBlock := hashPrevBlock } handed :=
  ⟨h.distinct, h.handedTrust, h.trust, h.idle, h.working, h.apart⟩

/-- **The first half of a request**: a new template where one is due. -/
theorem prepared (h : WorkInvariant env ancestors lib s handed) {request : Request} {work : WorkState}
    (hkeeps : s.KeepsRequest env ancestors cmd request) (hwork : work = s.prepare env ancestors cmd request) :
    WorkInvariant env ancestors lib (s.setWork cmd work) handed ∧
      (∀ pindex, work.pindexPrev = some pindex → pindex = s.pindexBest) ∧
      work.nExtraNonce = (s.works cmd).nExtraNonce := by
  unfold MiningState.prepare at hwork
  simp only [] at hwork
  by_cases hout : s.Outdated (s.works cmd) request.nTime
  · rw [if_pos hout] at hwork
    cases hsource : request.source with
    | none =>
      rw [hsource, Option.map_none] at hwork
      have hnone : work.pindexPrev = none := by rw [hwork, renew_failed]
      refine ⟨h.update ?_ ?_ ?_ ?_, ?_, ?_⟩
      · simp [hnone]
      · intro _
        exact h.idle cmd fun hprev => hkeeps.created hprev hout hsource
      · simp [hnone]
      · simp [hnone]
      · simp [hnone]
      · rw [hwork, nExtraNonce_renew]
    | some source =>
      rw [hsource, Option.map_some] at hwork
      have hnew := hkeeps.apart hout source hsource
      have htemplate : IsTemplate ancestors s.pindexBest (createNewBlock env ancestors s.pindexBest source) :=
        isTemplate_createNewBlock env s.pindexBest source
      by_cases hprev : (s.works cmd).pindexPrev = some s.pindexBest
      · rw [renew_same hprev] at hwork
        subst hwork
        refine ⟨h.updateWorking rfl ((h.working cmd hprev).push htemplate) ?_, ?_, rfl⟩
        · intro other hother hbusy block hblock block' hblock'
          rcases List.mem_append.mp hblock with hblock | hblock
          · exact h.apart cmd other hother hprev hbusy block hblock block' hblock'
          · rw [List.mem_singleton.mp hblock]
            exact hnew other hother hbusy block' hblock'
        · rintro pindex ⟨⟩
          rfl
      · rw [renew_other hprev] at hwork
        subst hwork
        refine ⟨h.updateWorking rfl ⟨?_, ?_⟩ ?_, ?_, rfl⟩
        · intro block hblock
          rw [List.mem_singleton.mp hblock]
          exact htemplate
        · intro w hw hcmd htip
          exact absurd htip (h.idle cmd hprev w hw hcmd)
        · intro other hother hbusy block hblock block' hblock'
          rw [List.mem_singleton.mp hblock]
          exact hnew other hother hbusy block' hblock'
        · rintro pindex ⟨⟩
          rfl
  · rw [if_neg hout] at hwork
    subst hwork
    have hprev : (s.works cmd).pindexPrev = some s.pindexBest := by
      by_contra hne
      exact hout (Or.inl hne)
    refine ⟨?_, ?_, rfl⟩
    · rw [MiningState.setWork_works]
      exact h
    · intro pindex hpindex
      exact Option.some_inj.mp (hpindex.symm.trans hprev)

/-- A new script makes a new root: the counter tells it from the other roots of the call, and the rest of the
coinbase from those of the other call. -/
theorem root_ne (hfree : MerkleCollisionFree env) (h : WorkInvariant env ancestors lib s handed)
    (hprev : (s.works cmd).pindexPrev = some s.pindexBest) {i : Nat} {pblock pblock' : CBlock}
    (htemplate : (s.works cmd).vNewBlockTemplate[i]? = some pblock)
    (hskeleton : pblock'.skeleton = pblock.skeleton) {next : UInt32}
    (hbuilt : (pblock'.setScriptSig (scriptFor lib s.pindexBest next)).setMerkleRoot env = pblock')
    (hnext : ∀ w ∈ handed, w.cmd = cmd → w.pindexPrev = s.pindexBest →
      ∀ nExtraNonce ≤ (s.works cmd).nExtraNonce, nExtraNonce ≠ next) {w : Handed} (hw : w ∈ handed)
    (htip : w.pindexPrev = s.pindexBest) : pblock'.hashMerkleRoot ≠ w.pblock.hashMerkleRoot := by
  intro hroot
  have hbusy : (s.works w.cmd).pindexPrev = some s.pindexBest := by
    by_contra hidle
    exact h.idle w.cmd hidle w hw rfl htip
  have hworking := h.working cmd hprev
  have hworking' := h.working w.cmd hbusy
  obtain ⟨j, x, nExtraNonce, -, hx, hxskeleton, hwbuilt, hle⟩ := hworking'.saved w hw rfl htip
  have hcoinBase := (hworking.templates _ (List.mem_of_getElem? htemplate)).coinBase.of_skeleton hskeleton.symm
  have hcoinBase' := (hworking'.templates _ (List.mem_of_getElem? hx)).coinBase.of_skeleton hxskeleton
  have hhead := head?_of_buildMerkleTree_eq hfree hcoinBase hcoinBase' (coinBaseScript_ne_nil lib _ next)
    (coinBaseScript_ne_nil lib (UInt32.ofInt (w.pindexPrev.nHeight + 1)) nExtraNonce)
    ((congrArg (·.hashMerkleRoot) hbuilt).trans (hroot.trans (congrArg (·.hashMerkleRoot) hwbuilt).symm))
  by_cases hcmd : w.cmd = cmd
  · subst hcmd
    have hscript := CBlock.coinBaseSig_congr hhead
    rw [CBlock.coinBaseSig_setScriptSig hcoinBase, CBlock.coinBaseSig_setScriptSig hcoinBase', htip] at hscript
    exact hnext w hw rfl htip nExtraNonce hle (coinBaseScript_injective lib _ hscript).symm
  · exact h.apart cmd w.cmd hcmd hprev hbusy pblock (List.mem_of_getElem? htemplate) x (List.mem_of_getElem? hx)
      ((CBlock.SameCoinBase.of_head? hhead).congr hskeleton hxskeleton.symm)

/-- **The second half**: the root is new, and the work can be rebuilt. -/
theorem handOut (hfree : MerkleCollisionFree env) (h : WorkInvariant env ancestors lib s handed) (cmd : Command)
    (i : Nat) (pblock : CBlock) (hprev : (s.works cmd).pindexPrev = some s.pindexBest)
    (htemplate : (s.works cmd).vNewBlockTemplate[i]? = some pblock)
    (hcount : s.hashPrevBlock = s.pindexBest.phashBlock → (s.works cmd).nExtraNonce.toNat + 1 < 2 ^ 32)
    (hrestart : s.hashPrevBlock ≠ s.pindexBest.phashBlock →
      ∀ w ∈ handed, w.cmd = cmd → w.pindexPrev ≠ s.pindexBest) (nAdjustedTime : Int) :
    WorkInvariant env ancestors lib
      (GetWork.handOut env ancestors lib s cmd (s.works cmd) nAdjustedTime s.pindexBest i pblock).1
      (⟨cmd, s.pindexBest,
        (GetWork.handOut env ancestors lib s cmd (s.works cmd) nAdjustedTime s.pindexBest i pblock).2⟩ :: handed) := by
  have hworking := h.working cmd hprev
  obtain ⟨pblock', hskeleton, hbuilt, heq⟩ := handOut_eq env lib s cmd (s.works cmd)
    nAdjustedTime i (hworking.templates _ (List.mem_of_getElem? htemplate))
  rw [heq]
  have hcoinBase := (hworking.templates _ (List.mem_of_getElem? htemplate)).coinBase.of_skeleton hskeleton.symm
  have hlt : ∀ w ∈ handed, w.cmd = cmd → w.pindexPrev = s.pindexBest →
      ∀ nExtraNonce ≤ (s.works cmd).nExtraNonce,
        nExtraNonce < nextExtraNonce s (s.works cmd).nExtraNonce := by
    intro w hw hcmd htip nExtraNonce hle
    refine lt_nextExtraNonce ?_ hcount hle
    by_contra hne
    exact hrestart hne w hw hcmd htip
  have hroot : ∀ w ∈ handed, w.pindexPrev = s.pindexBest →
      pblock'.hashMerkleRoot ≠ w.pblock.hashMerkleRoot := by
    intro w hw htip
    refine h.root_ne hfree hprev htemplate hskeleton hbuilt ?_ hw htip
    intro w' hw' hcmd' htip' nExtraNonce hle
    exact UInt32.ne_of_lt (hlt w' hw' hcmd' htip' nExtraNonce hle)
  have hsaved : WorkInvariant env ancestors lib (s.setWork cmd
      ((s.works cmd).save i pblock' (nextExtraNonce s (s.works cmd).nExtraNonce))) handed := by
    refine h.updateWorking ?_ ?_ ?_
    · exact hprev
    · apply hworking.save htemplate hskeleton
      intro w hw hcmd htip
      exact ⟨hroot w hw htip, UInt32.le_of_lt (hlt w hw hcmd htip _ (UInt32.le_refl _))⟩
    · intro other hother hprev'
      exact h.apart_set hother hprev hprev' htemplate hskeleton
  refine (hsaved.congr s.nTransactionsUpdated s.pindexBest.phashBlock).hand rfl ?_ ?_ hroot
  · simp only [MiningState.setWork_self]
    exact hprev
  · simp only [MiningState.setWork_self]
    refine ⟨i, pblock', _, ?_, ?_, rfl, hbuilt, UInt32.le_refl _⟩
    · rw [WorkState.save_mapNewBlock, Function.update_self, CBlock.coinBaseSig_of_built hcoinBase hbuilt]
    · exact List.getElem?_set_self (List.getElem?_eq_some_iff.mp htemplate).1

/-- **A request keeps the invariant.** -/
theorem request (hfree : MerkleCollisionFree env) (h : WorkInvariant env ancestors lib s handed)
    {request : Request} (hkeeps : s.KeepsRequest env ancestors cmd request) :
    WorkInvariant env ancestors lib (Ledger.call env ancestors lib ⟨s, handed⟩ cmd (.request request)).state
      (Ledger.call env ancestors lib ⟨s, handed⟩ cmd (.request request)).handed := by
  have hcall : call env ancestors lib cmd s (.request request) = requestWork env ancestors lib s cmd request := by
    cases cmd <;> rfl
  simp only [Ledger.call, hcall, requestWork]
  generalize hwork : s.prepare env ancestors cmd request = work
  obtain ⟨hinv, htip, hcounter⟩ := h.prepared hkeeps hwork.symm
  cases hcurrent : work.current with
  | none => exact hinv
  | some current =>
    obtain ⟨pindexPrev, i, pblock⟩ := current
    obtain ⟨hprev, htemplate⟩ := of_current hcurrent
    obtain rfl := htip pindexPrev hprev
    have hout := hinv.handOut hfree cmd i pblock
      (by rw [MiningState.setWork_self]; exact hprev) (by rw [MiningState.setWork_self]; exact htemplate)
      (by rw [MiningState.setWork_self, hcounter]; exact hkeeps.unwrapped)
      (fun hne => h.idle cmd fun hworking => hne (hkeeps.counting hworking)) request.nAdjustedTime
    rw [MiningState.setWork_self, handOut_update] at hout
    exact hout

/-- **A submission keeps the invariant**, where a replacement keeps all of the coinbase but its script. -/
theorem submit (h : WorkInvariant env ancestors lib s handed) {pdata : CBlockHeader}
    {coinbase : Option Replacement} (hkeeps : ∀ replacement, coinbase = some replacement →
      ∀ saved, (s.works cmd).savedBlock pdata.hashMerkleRoot = some saved →
        saved.2.2.vtx.head?.map (·.setCoinBaseSig []) = some (replacement.tx.setCoinBaseSig [])) :
    WorkInvariant env ancestors lib (submitWork env s cmd pdata coinbase).1 handed := by
  unfold submitWork
  cases hsaved : (s.works cmd).savedBlock pdata.hashMerkleRoot with
  | none =>
    simp only [hsaved]
    exact h
  | some saved =>
    simp only [hsaved]
    apply h.setTemplate cmd (savedBlock_eq_some.mp hsaved).2
    apply skeleton_fillIn
    intro replacement hreplacement
    exact hkeeps replacement hreplacement saved hsaved

/-- **Every step keeps the invariant.** -/
theorem step (hfree : MerkleCollisionFree env) (h : WorkInvariant env ancestors lib s handed) {event : MiningEvent}
    (hkeeps : s.Keeps env ancestors event) : WorkInvariant env ancestors lib (GetWork.step env ancestors lib ⟨s, handed⟩ event).state
      (GetWork.step env ancestors lib ⟨s, handed⟩ event).handed := by
  cases event with
  | call cmd params =>
    cases params with
    | request request => exact h.request hfree hkeeps
    | submit pdata coinbase =>
      cases cmd with
      | getwork =>
        cases coinbase with
        | none => exact h.submit (by simp)
        | some replacement => exact h
      | getworkex =>
        cases coinbase with
        | none => exact h.submit (by simp)
        | some replacement =>
          apply h.submit
          rintro _ ⟨⟩
          exact hkeeps
  | incrementExtraNonce pblock pindexPrev nExtraNonce => exact h.congr _ _
  | poolUpdated => exact h.congr _ _
  | setBestChain pindexNew =>
    by_cases htrust : s.pindexBest.nChainTrust < pindexNew.nChainTrust
    · simp only [GetWork.step, if_pos htrust]
      exact h.setBestChain _ htrust
    · simp only [GetWork.step, if_neg htrust]
      exact h

/-- **The work that is out can be rebuilt.** -/
theorem workKept (h : WorkInvariant env ancestors lib s handed) : WorkKept env ancestors lib ⟨s, handed⟩ := by
  refine ⟨h.distinct, ?_⟩
  intro w hw htip pdata hroot
  have hbusy : (s.works w.cmd).pindexPrev = some s.pindexBest := by
    by_contra hidle
    exact h.idle w.cmd hidle w hw rfl htip
  obtain ⟨i, block, nExtraNonce, hmap, hblock, hskeleton, hbuilt, -⟩ :=
    (h.working w.cmd hbusy).saved w hw rfl htip
  have hcall : call env ancestors lib w.cmd s (.submit pdata none) =
      submitWork env s w.cmd pdata none := by cases w.cmd <;> rfl
  have hsaved := savedBlock_eq_some.mpr ⟨hmap, hblock⟩
  simp only [hcall, submitWork, hroot, hsaved, fillIn, CBlock.rebuild_of_skeleton hskeleton hbuilt]
  rfl

end WorkInvariant

theorem invariant_start (pindexBest : CBlockIndex) (nTransactionsUpdated : UInt32) :
    WorkInvariant env ancestors lib (start pindexBest nTransactionsUpdated).state
      (start pindexBest nTransactionsUpdated).handed := by
  refine ⟨List.Pairwise.nil, ?_, ?_, ?_, ?_, ?_⟩ <;> simp [start]

theorem invariant_run (hfree : MerkleCollisionFree env) {l : Ledger} (h : WorkInvariant env ancestors lib l.state l.handed)
    {events : List MiningEvent} (hkeeps : RunKeeps env ancestors lib l events) :
    WorkInvariant env ancestors lib (run env ancestors lib l events).state (run env ancestors lib l events).handed := by
  induction events generalizing l with
  | nil => exact h
  | cons event events ih => exact ih (h.step hfree hkeeps.1) hkeeps.2

theorem RunKeeps.of_prefix {l : Ledger} {before events : List MiningEvent} (h : before <+: events)
    (hkeeps : RunKeeps env ancestors lib l events) : RunKeeps env ancestors lib l before := by
  induction before generalizing l events with
  | nil => exact trivial
  | cons event before ih =>
    cases events with
    | nil => simp at h
    | cons event' events =>
      obtain ⟨rfl, hrest⟩ := List.cons_prefix_cons.mp h
      exact ⟨hkeeps.1, ih hrest hkeeps.2⟩

/-- **No work is lost or handed out twice** in a run of steps that keep the work, in any state it goes
through. -/
theorem workKept_run (hfree : MerkleCollisionFree env) (pindexBest : CBlockIndex) (nTransactionsUpdated : UInt32)
    {events : List MiningEvent}
    (hkeeps : RunKeeps env ancestors lib (start pindexBest nTransactionsUpdated) events) :
    ∀ before, before <+: events →
      WorkKept env ancestors lib (run env ancestors lib (start pindexBest nTransactionsUpdated) before) := by
  intro before hbefore
  exact (invariant_run hfree (invariant_start pindexBest nTransactionsUpdated)
    (hkeeps.of_prefix hbefore)).workKept

end

/-! ### Samples -/

def sampleTip : CBlockIndex := sampleEntry 7 (some 6) 5 1000

/-- A request at a time, for a block without further transactions. -/
def sampleRequest (nAdjustedTime : Int) : Request :=
  ⟨nAdjustedTime, nAdjustedTime, some ⟨[], nAdjustedTime, [], 0⟩⟩

def sampleRun (events : List MiningEvent) : Ledger :=
  run collisionFreeEnv (fun _ => []) mpiOpenSSL (start sampleTip 0) events

/-- A run with another miner, a change of the pool, both calls and a new tip. -/
def sampleEvents : List MiningEvent :=
  [.call .getwork (.request (sampleRequest 2000)),
    .incrementExtraNonce (sampleBlock 0 7 2000 [sampleCoinBase 0 2000 1]) sampleTip 3,
    .poolUpdated,
    .call .getwork (.request (sampleRequest 2100)),
    .call .getworkex (.request (sampleRequest 2200)),
    .call .getwork (.submit ⟨1, 7, 0, 2200, 0, 1⟩ none),
    .setBestChain (sampleEntry 8 (some 7) 6 2200),
    .call .getwork (.request (sampleRequest 2300))]

/-- The four roots that are out are distinct, and the last one can be submitted. -/
theorem workKept_run_sample :
    RunKeeps collisionFreeEnv (fun _ => []) mpiOpenSSL (start sampleTip 0) sampleEvents ∧
      ∀ before, before <+: sampleEvents →
        WorkKept collisionFreeEnv (fun _ => []) mpiOpenSSL (sampleRun before) := by
  have hkeeps : RunKeeps collisionFreeEnv (fun _ => []) mpiOpenSSL (start sampleTip 0) sampleEvents := by
    decide
  exact ⟨hkeeps, workKept_run collisionFree_sample sampleTip 0 hkeeps⟩

def bothCalls : List MiningEvent :=
  [.call .getwork (.request (sampleRequest 2000)), .call .getworkex (.request (sampleRequest 2000))]

def twoRequests : List MiningEvent :=
  [.call .getworkex (.request (sampleRequest 2000)), .call .getworkex (.request (sampleRequest 2001))]

/-- The second of two blocks of one template is submitted with another coinbase. -/
def replacedCoinBase : List MiningEvent :=
  twoRequests ++ ((sampleRun twoRequests).handed.take 1).map fun work =>
    .call .getworkex (.submit work.pblock.toCBlockHeader (some ⟨sampleCoinBase 0 2000 1, true⟩))

/-- **Work is handed out twice, and work is lost**: the two calls give out one root, and a replacement of the
coinbase for one root leaves the other block without its own. -/
theorem not_workKept :
    (¬ ∀ (env : Env) (ancestors : CBlockIndex → List CBlockIndex) (lib : OpenSSL), MerkleCollisionFree env →
      ∀ pindexBest nTransactionsUpdated events,
        DistinctRoots (run env ancestors lib (start pindexBest nTransactionsUpdated) events).handed) ∧
    ¬ ∀ (env : Env) (ancestors : CBlockIndex → List CBlockIndex) (lib : OpenSSL), MerkleCollisionFree env →
      ∀ pindexBest nTransactionsUpdated events,
        Rebuilds env ancestors lib (run env ancestors lib (start pindexBest nTransactionsUpdated) events) := by
  constructor
  · intro h
    have hdistinct : DistinctRoots (sampleRun bothCalls).handed :=
      h collisionFreeEnv (fun _ => []) mpiOpenSSL collisionFree_sample sampleTip 0 bothCalls
    exact (List.pairwise_cons.mp hdistinct).1 _ (List.mem_singleton_self _) rfl rfl
  · intro h
    have hrebuilds : Rebuilds collisionFreeEnv (fun _ => []) mpiOpenSSL (sampleRun replacedCoinBase) :=
      h collisionFreeEnv (fun _ => []) mpiOpenSSL collisionFree_sample sampleTip 0 replacedCoinBase
    have hfirst := hrebuilds _ (List.getElem_mem (n := 1) (by decide)) rfl _ rfl
    have hvalues := congrArg (Option.map fun block => block.vtx.map (·.vout)) hfirst
    revert hvalues
    decide

end GetWork

end Manna
