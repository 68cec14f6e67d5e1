import Manna.Wallet

/-!
Which coins a payment may take (`wallet.h`, `wallet.cpp`: `CWalletTx::IsConfirmed`,
`AvailableCoins`, `ApproximateBestSubset`, `SelectCoinsMinConf`, `SelectCoins`).

A function that throws, or does not end, returns `none`. A set of coins is a list without repetitions;
what is random, and the order of coins of one value, is a parameter.

* `mem_availableCoins`: which coins are available;
* `mem_of_selectCoins`: only those are selected.
-/

namespace Manna

namespace Wallet

namespace CWalletTx

variable (env : WalletEnv) (w : CWallet) (chain : ChainView) (wtx : CWalletTx)

def mapPrev (hash : Uint256) : Option CMerkleTx :=
  wtx.vtxPrev.reverse.find? fun tx => env.txHash tx.toCTransaction = hash

/-- The loop of `IsConfirmed` over `vWorkQueue`. -/
def confirmedLoop : Nat → List CMerkleTx → Option Bool
  | 0, _ => none
  | _ + 1, [] => some true
  | rounds + 1, ptx :: vWorkQueue =>
    if !ptx.isFinalNow chain then some false
    else if chain.getDepthInMainChain ptx ≥ 1 then confirmedLoop rounds vWorkQueue
    else
      match w.isFromMe ptx.toCTransaction with
      | none => none
      | some false => some false
      | some true =>
        match ptx.vin.mapM fun txin => wtx.mapPrev env txin.prevout.hash with
        | none => some false
        | some prevs => confirmedLoop rounds (vWorkQueue ++ prevs)

/-- `IsConfirmed`, with so many rounds of its loop at most. -/
def isConfirmed (rounds : Nat) : Option Bool :=
  if !wtx.isFinalNow chain then some false
  else if chain.getDepthInMainChain wtx.toCMerkleTx ≥ 1 then some true
  else
    -- "using wtx's cached debit"
    match wtx.isFromMe env w chain with
    | none => none
    | some false => some false
    | some true => wtx.confirmedLoop env w chain rounds [wtx.toCMerkleTx]

end CWalletTx

/-! ### Available coins -/

/-- `COutput`. -/
structure COutput where
  tx : CWalletTx
  i : Nat
  nDepth : Int

namespace COutput

def outpoint (env : WalletEnv) (out : COutput) : COutPoint :=
  ⟨env.txHash out.tx.toCTransaction, out.i⟩

/-- `tx->vout[i].nValue`. -/
def nValue (out : COutput) : Int := (out.tx.vout.getD out.i .null).nValue

end COutput

/-- `CCoinControl`. -/
structure CCoinControl where
  destChange : CTxDestination
  setSelected : Finset COutPoint

namespace CWallet

/-- `IsLockedCoin`. -/
def isLockedCoin (w : CWallet) (outpoint : COutPoint) : Bool :=
  decide (outpoint ∈ w.setLockedCoins)

def lockCoin (w : CWallet) (outpoint : COutPoint) : CWallet :=
  { w with setLockedCoins := insert outpoint w.setLockedCoins }

section AvailableCoins

variable (env : WalletEnv) (chain : ChainView) (rounds : Nat) (fOnlyConfirmed : Bool)
  (coinControl : Option CCoinControl) (w : CWallet)

/-- The tests of `AvailableCoins` on a transaction. -/
def hasAvailable (pcoin : CWalletTx) : Option Bool :=
  if !pcoin.isFinalNow chain then some false
  else
    match if fOnlyConfirmed then pcoin.isConfirmed env w chain rounds else some true with
    | none => none
    | some fConfirmed => some (fConfirmed && decide (pcoin.getBlocksToMaturity chain ≤ 0))

/-- Whether coin control leaves an output: it is not used, or has selected this one, or none. -/
def admits (outpoint : COutPoint) : Bool :=
  match coinControl with
  | none => true
  | some coinControl =>
    decide (coinControl.setSelected = ∅ ∨ outpoint ∈ coinControl.setSelected)

/-- The test of `AvailableCoins` on an output. -/
def isAvailable (hash : Uint256) (pcoin : CWalletTx) (i : Nat) (txout : CTxOut) : Bool :=
  !pcoin.isSpent i && w.keystore.isMine txout.scriptPubKey && decide (txout.nValue > 0) &&
    admits coinControl ⟨hash, i⟩

def coinsOf (hash : Uint256) (pcoin : CWalletTx) : List COutput :=
  (pcoin.vout.zipIdx.filter fun txout =>
    w.isAvailable coinControl hash pcoin txout.2 txout.1).map fun txout =>
      ⟨pcoin, txout.2, chain.getDepthInMainChain pcoin.toCMerkleTx⟩

def availableLoop : List Uint256 → Option (List COutput)
  | [] => some []
  | hash :: hashes =>
    match w.mapWallet.lookup hash with
    | none => availableLoop hashes
    | some pcoin =>
      match w.hasAvailable env chain rounds fOnlyConfirmed pcoin with
      | none => none
      | some false => availableLoop hashes
      | some true =>
        (availableLoop hashes).map fun vCoins =>
          w.coinsOf chain coinControl hash pcoin ++ vCoins

def availableCoins : Option (List COutput) :=
  w.availableLoop env chain rounds fOnlyConfirmed coinControl (w.mapWallet.keys.sort (· ≤ ·))

end AvailableCoins

end CWallet

/-- The variables of `ApproximateBestSubset`. -/
structure BestSubset where
  nTotal : Int
  vfIncluded : List Bool
  fReachedTarget : Bool
  nBest : Int
  vfBest : List Bool

namespace BestSubset

/-- A coin is added, and taken out again where the target is reached. -/
def addCoin (nTargetValue : Int) (s : BestSubset) (coin : COutput × Nat) : BestSubset :=
  let nTotal := s.nTotal + coin.1.nValue
  let vfIncluded := s.vfIncluded.set coin.2 true
  if nTotal ≥ nTargetValue then
    { nTotal := s.nTotal
      vfIncluded := vfIncluded.set coin.2 false
      fReachedTarget := true
      nBest := if nTotal < s.nBest then nTotal else s.nBest
      vfBest := if nTotal < s.nBest then vfIncluded else s.vfBest }
  else { s with nTotal, vfIncluded }

/-- A pass over the coins. -/
def pass (nTargetValue : Int) (tries : BestSubset → Nat → Bool) (vValue : List COutput)
    (s : BestSubset) : BestSubset :=
  vValue.zipIdx.foldl
    (fun s coin => if tries s coin.2 then s.addCoin nTargetValue coin else s) s

/-- A repetition: coins at random first, then those that were left out. -/
def rep (bits : Nat → Bool) (nTargetValue : Int) (vValue : List COutput) (s : BestSubset) :
    BestSubset :=
  let s :=
    { s with
      nTotal := 0, vfIncluded := List.replicate vValue.length false, fReachedTarget := false }
  let s := s.pass nTargetValue (fun _ i => bits i) vValue
  if s.fReachedTarget then s
  else s.pass nTargetValue (fun s i => !s.vfIncluded.getD i false) vValue

/-- The repetitions. -/
def repeats (bits : Nat → Nat → Bool) (nTargetValue : Int) (vValue : List COutput) :
    Nat → BestSubset → BestSubset
  | 0, s => s
  | iterations + 1, s =>
    if s.nBest = nTargetValue then s
    else repeats bits nTargetValue vValue iterations (s.rep (bits iterations) nTargetValue vValue)

end BestSubset

/-- `ApproximateBestSubset`: `vfBest` and `nBest`. -/
def approximateBestSubset (bits : Nat → Nat → Bool) (vValue : List COutput)
    (nTotalLower nTargetValue : Int) : List Bool × Int :=
  let s := BestSubset.repeats bits nTargetValue vValue 1000
    { nTotal := 0, vfIncluded := [], fReachedTarget := false, nBest := nTotalLower
      vfBest := List.replicate vValue.length true }
  (s.vfBest, s.nBest)

/-! ### Selection -/

/-- **What is random in a selection**, and the order that `sort` gives to coins of one value. -/
structure Choice where
  shuffle : List COutput → List COutput
  shuffle_perm (vCoins : List COutput) : (shuffle vCoins).Perm vCoins
  sort : List COutput → List COutput
  sort_perm (vValue : List COutput) : (sort vValue).Perm vValue
  sort_sorted (vValue : List COutput) :
    (sort vValue).Pairwise fun coin coin' => coin'.nValue ≤ coin.nValue
  /-- The bits of the calls of `ApproximateBestSubset`. -/
  bits : Bool → Nat → Nat → Bool

/-- What the loop of `SelectCoinsMinConf` finds: a coin of the value, or the small coins and the least
of the others. -/
inductive Sorted where
  | exact (coin : COutput)
  | split (vValue : List COutput) (nTotalLower : Int) (coinLowestLarger : Option COutput)

/-- `setCoinsRet.insert`. -/
def insertCoin (env : WalletEnv) (setCoins : List COutput) (coin : COutput) : List COutput :=
  if setCoins.any fun coin' => coin'.outpoint env = coin.outpoint env then setCoins
  else setCoins ++ [coin]

section SelectCoins

variable (env : WalletEnv) (chain : ChainView) (w : CWallet)

/-- The loop of `SelectCoinsMinConf` over the coins. -/
def sortCoins (nTargetValue nConfMine nConfTheirs : Int) :
    List COutput → List COutput → Int → Option COutput → Option Sorted
  | [], vValue, nTotalLower, coinLowestLarger => some (.split vValue nTotalLower coinLowestLarger)
  | coin :: vCoins, vValue, nTotalLower, coinLowestLarger =>
    match coin.tx.isFromMe env w chain with
    | none => none
    | some fFromMe =>
      if coin.nDepth < (if fFromMe then nConfMine else nConfTheirs) then
        sortCoins nTargetValue nConfMine nConfTheirs vCoins vValue nTotalLower coinLowestLarger
      else if coin.nValue = nTargetValue then some (.exact coin)
      else if coin.nValue < nTargetValue + CENT then
        sortCoins nTargetValue nConfMine nConfTheirs vCoins (vValue ++ [coin])
          (nTotalLower + coin.nValue) coinLowestLarger
      else if coin.nValue < (coinLowestLarger.map COutput.nValue).getD (2 ^ 63 - 1) then
        sortCoins nTargetValue nConfMine nConfTheirs vCoins vValue nTotalLower (some coin)
      else
        sortCoins nTargetValue nConfMine nConfTheirs vCoins vValue nTotalLower coinLowestLarger

def subsetCoins (vValue : List COutput) (vfBest : List Bool) : List COutput :=
  (vValue.zipIdx.filter fun coin => vfBest.getD coin.2 false).map Prod.fst

/-- `setCoinsRet` with some coins, and `nValueRet`. -/
def coinsRet (coins : List COutput) : List COutput × Int :=
  (coins.foldl (insertCoin env) [], (coins.map COutput.nValue).sum)

/-- "Solve subset sum by stochastic approximation". -/
def selectSubset (choice : Choice) (nTargetValue nTotalLower : Int) (vValue : List COutput)
    (coinLowestLarger : Option COutput) : List COutput :=
  let vValue := choice.sort vValue
  let best := approximateBestSubset (choice.bits false) vValue nTotalLower nTargetValue
  let best :=
    if best.2 ≠ nTargetValue ∧ nTotalLower ≥ nTargetValue + CENT then
      approximateBestSubset (choice.bits true) vValue nTotalLower (nTargetValue + CENT)
    else best
  match coinLowestLarger with
  | none => subsetCoins vValue best.1
  | some coin =>
    if (best.2 ≠ nTargetValue ∧ best.2 < nTargetValue + CENT) ∨ coin.nValue ≤ best.2 then [coin]
    else subsetCoins vValue best.1

def selectCoinsMinConf (choice : Choice) (nTargetValue nConfMine nConfTheirs : Int)
    (vCoins : List COutput) : Option (Option (List COutput)) :=
  match sortCoins env chain w nTargetValue nConfMine nConfTheirs (choice.shuffle vCoins) [] 0 none with
  | none => none
  | some (.exact coin) => some (some [coin])
  | some (.split vValue nTotalLower coinLowestLarger) =>
    if nTotalLower = nTargetValue then some (some vValue)
    else if nTotalLower < nTargetValue then some (coinLowestLarger.map fun coin => [coin])
    else some (some (selectSubset choice nTargetValue nTotalLower vValue coinLowestLarger))

/-- The calls of `SelectCoinsMinConf`, up to the first that returns true. -/
def selectFirst (nTargetValue : Int) (vCoins : List COutput) :
    List (Choice × Int × Int) → Option (Option (List COutput))
  | [] => some none
  | (choice, nConfMine, nConfTheirs) :: calls =>
    match selectCoinsMinConf env chain w choice nTargetValue nConfMine nConfTheirs vCoins with
    | none => none
    | some (some coins) => some (some coins)
    | some none => selectFirst nTargetValue vCoins calls

/-- The choices in the calls that `SelectCoins` makes, one after the other. -/
def choices (choice : Fin 3 → Choice) : Choice × Choice × Choice := (choice 0, choice 1, choice 2)

/-- `SelectCoins`: whether it returns true, `setCoinsRet` and `nValueRet`. -/
def selectCoins (rounds : Nat) (choice : Fin 3 → Choice) (nTargetValue : Int)
    (coinControl : Option CCoinControl) : Option (Bool × List COutput × Int) :=
  match w.availableCoins env chain rounds true coinControl with
  | none => none
  | some vCoins =>
    if ∃ control ∈ coinControl, control.setSelected ≠ ∅ then
      some (decide ((coinsRet env vCoins).2 ≥ nTargetValue), coinsRet env vCoins)
    else
      (selectFirst env chain w nTargetValue vCoins
        [(choice 0, 1, 6), (choice 1, 1, 1), (choice 2, 0, 1)]).map fun coins =>
          (coins.isSome, coinsRet env (coins.getD []))

end SelectCoins

/-! ### Which coins are available -/

section Mem

variable {env : WalletEnv} {chain : ChainView} {w : CWallet} {rounds : Nat} {fOnlyConfirmed : Bool}
  {coinControl : Option CCoinControl}

theorem mem_coinsOf {hash : Uint256} {pcoin : CWalletTx} {out : COutput} :
    out ∈ w.coinsOf chain coinControl hash pcoin ↔ ∃ txout, pcoin.vout[out.i]? = some txout ∧
        w.isAvailable coinControl hash pcoin out.i txout = true ∧ out.tx = pcoin ∧
        out.nDepth = chain.getDepthInMainChain pcoin.toCMerkleTx := by
  unfold CWallet.coinsOf
  rw [List.mem_map]
  constructor
  · rintro ⟨⟨txout, i⟩, hmem, rfl⟩
    obtain ⟨hzip, havailable⟩ := List.mem_filter.mp hmem
    exact ⟨txout, List.mem_zipIdx_iff_getElem?.mp hzip, havailable, rfl, rfl⟩
  · rintro ⟨txout, hout, havailable, rfl, hdepth⟩
    refine ⟨(txout, out.i), ?_, ?_⟩
    · exact List.mem_filter.mpr ⟨List.mem_zipIdx_iff_getElem?.mpr hout, havailable⟩
    · rw [← hdepth]

theorem mem_availableLoop {hashes : List Uint256} {vCoins : List COutput}
    (h : w.availableLoop env chain rounds fOnlyConfirmed coinControl hashes = some vCoins)
    {out : COutput} : out ∈ vCoins ↔ ∃ hash ∈ hashes, ∃ pcoin, w.mapWallet.lookup hash = some pcoin ∧
      w.hasAvailable env chain rounds fOnlyConfirmed pcoin = some true ∧
      out ∈ w.coinsOf chain coinControl hash pcoin := by
  induction hashes generalizing vCoins with
  | nil =>
    cases h
    simp
  | cons hash hashes ih =>
    rw [List.exists_mem_cons_iff]
    unfold CWallet.availableLoop at h
    cases hlookup : w.mapWallet.lookup hash with
    | none =>
      rw [hlookup] at h
      rw [ih h]
      simp
    | some pcoin =>
      rw [hlookup] at h
      dsimp only at h
      cases hpass : w.hasAvailable env chain rounds fOnlyConfirmed pcoin with
      | none =>
        rw [hpass] at h
        cases h
      | some passes =>
        rw [hpass] at h
        cases passes with
        | false =>
          rw [ih h]
          simp [hpass]
        | true =>
          obtain ⟨rest, hrest, rfl⟩ := Option.map_eq_some_iff.mp h
          rw [List.mem_append, ih hrest]
          simp [hpass]

/-- **Which coins are available.** -/
theorem mem_availableCoins {vCoins : List COutput}
    (h : w.availableCoins env chain rounds fOnlyConfirmed coinControl = some vCoins) {out : COutput} :
    out ∈ vCoins ↔ ∃ hash pcoin, w.mapWallet.lookup hash = some pcoin ∧
      w.hasAvailable env chain rounds fOnlyConfirmed pcoin = some true ∧
      out ∈ w.coinsOf chain coinControl hash pcoin := by
  rw [mem_availableLoop h]
  constructor
  · rintro ⟨hash, -, hcoin⟩
    exact ⟨hash, hcoin⟩
  · rintro ⟨hash, pcoin, hlookup, hcoin⟩
    refine ⟨hash, ?_, pcoin, hlookup, hcoin⟩
    rw [Finset.mem_sort, Finmap.mem_keys]
    exact Finmap.mem_of_lookup_eq_some hlookup

/-- Without the test of `IsConfirmed`, the coins are always found. -/
theorem availableCoins_unconfirmed :
    ∃ vCoins, w.availableCoins env chain rounds false coinControl = some vCoins := by
  suffices ∀ hashes, ∃ vCoins,
      w.availableLoop env chain rounds false coinControl hashes = some vCoins from this _
  intro hashes
  induction hashes with
  | nil => exact ⟨[], rfl⟩
  | cons hash hashes ih =>
    obtain ⟨vCoins, hcoins⟩ := ih
    unfold CWallet.availableLoop
    cases w.mapWallet.lookup hash with
    | none => exact ⟨vCoins, hcoins⟩
    | some pcoin =>
      have hpass : ∃ passes, w.hasAvailable env chain rounds false pcoin = some passes := by
        unfold CWallet.hasAvailable
        cases pcoin.isFinalNow chain with
        | false => exact ⟨false, rfl⟩
        | true => exact ⟨_, rfl⟩
      obtain ⟨passes, hpass⟩ := hpass
      dsimp only
      rw [hpass, hcoins]
      cases passes with
      | false => exact ⟨vCoins, rfl⟩
      | true => exact ⟨_, rfl⟩

end Mem

/-! ### Only available coins are selected -/

section Select

variable {env : WalletEnv} {chain : ChainView} {w : CWallet}

variable {coin : COutput} {nTargetValue : Int}

theorem mem_of_foldl_insertCoin {coins setCoins : List COutput}
    (h : coin ∈ coins.foldl (insertCoin env) setCoins) : coin ∈ setCoins ∨ coin ∈ coins := by
  induction coins generalizing setCoins with
  | nil => exact .inl h
  | cons first coins ih =>
    rcases ih h with hset | hmem
    · unfold insertCoin at hset
      split_ifs at hset
      · exact .inl hset
      · rcases List.mem_append.mp hset with hset | hfirst
        · exact .inl hset
        · exact .inr (List.mem_cons.mpr (.inl (List.mem_singleton.mp hfirst)))
    · exact .inr (List.mem_cons_of_mem first hmem)

theorem mem_of_coinsRet {coins : List COutput} (h : coin ∈ (coinsRet env coins).1) : coin ∈ coins :=
  (mem_of_foldl_insertCoin h).resolve_left List.not_mem_nil

/-- The coins that the loop of `SelectCoinsMinConf` finds satisfy what those given do. -/
def Sorted.Forall (P : COutput → Prop) : Sorted → Prop
  | .exact coin => P coin
  | .split vValue _ coinLowestLarger =>
    (∀ coin ∈ vValue, P coin) ∧ ∀ coin ∈ coinLowestLarger, P coin

theorem sortCoins_forall {P : COutput → Prop} {nConfMine nConfTheirs : Int}
    {vCoins vValue : List COutput} {nTotalLower : Int} {coinLowestLarger : Option COutput} {sorted : Sorted}
    (h : sortCoins env chain w nTargetValue nConfMine nConfTheirs vCoins vValue nTotalLower
      coinLowestLarger = some sorted) (hcoins : ∀ coin ∈ vCoins, P coin) (hvalue : ∀ coin ∈ vValue, P coin)
    (hlarger : ∀ coin ∈ coinLowestLarger, P coin) : sorted.Forall P := by
  induction vCoins generalizing vValue nTotalLower coinLowestLarger with
  | nil =>
    cases h
    exact ⟨hvalue, hlarger⟩
  | cons coin vCoins ih =>
    have hcoin := hcoins coin List.mem_cons_self
    have hrest : ∀ coin ∈ vCoins, P coin := fun c hc => hcoins c (List.mem_cons_of_mem coin hc)
    unfold sortCoins at h
    cases hmine : coin.tx.isFromMe env w chain with
    | none =>
      rw [hmine] at h
      cases h
    | some fFromMe =>
      rw [hmine] at h
      dsimp only at h
      generalize (if fFromMe = true then nConfMine else nConfTheirs) = nConf at h
      split_ifs at h
      · exact ih h hrest hvalue hlarger
      · cases h
        exact hcoin
      · refine ih h hrest ?_ hlarger
        intro c hc
        rcases List.mem_append.mp hc with hc | hc
        · exact hvalue c hc
        · rwa [List.mem_singleton.mp hc]
      · refine ih h hrest hvalue ?_
        rintro c ⟨⟩
        exact hcoin
      · exact ih h hrest hvalue hlarger

theorem mem_of_subsetCoins {vValue : List COutput} {vfBest : List Bool}
    (h : coin ∈ subsetCoins vValue vfBest) : coin ∈ vValue := by
  obtain ⟨⟨c, i⟩, hmem, rfl⟩ := List.mem_map.mp h
  exact List.mem_of_getElem? (List.mem_zipIdx_iff_getElem?.mp (List.mem_filter.mp hmem).1)

theorem mem_of_selectSubset {choice : Choice} {nTotalLower : Int}
    {vValue : List COutput} {coinLowestLarger : Option COutput}
    (h : coin ∈ selectSubset choice nTargetValue nTotalLower vValue coinLowestLarger) :
    coin ∈ vValue ∨ coinLowestLarger = some coin := by
  have hsubset : ∀ vfBest, coin ∈ subsetCoins (choice.sort vValue) vfBest → coin ∈ vValue :=
    fun _ hmem => (choice.sort_perm vValue).mem_iff.mp (mem_of_subsetCoins hmem)
  unfold selectSubset at h
  cases coinLowestLarger with
  | none => exact .inl (hsubset _ h)
  | some larger =>
    have hlarger : coin ∈ [larger] → some larger = some coin := fun hmem =>
      congrArg some (List.mem_singleton.mp hmem).symm
    have hcases : ∀ {p : Prop} [Decidable p] {vfBest : List Bool},
        coin ∈ (if p then [larger] else subsetCoins (choice.sort vValue) vfBest) →
          coin ∈ vValue ∨ some larger = some coin := by
      intro p _ vfBest hmem
      split_ifs at hmem
      · exact .inr (hlarger hmem)
      · exact .inl (hsubset _ hmem)
    exact hcases h

theorem mem_of_selectCoinsMinConf {choice : Choice} {nConfMine nConfTheirs : Int}
    {vCoins coins : List COutput}
    (h : selectCoinsMinConf env chain w choice nTargetValue nConfMine nConfTheirs vCoins =
      some (some coins)) (hmem : coin ∈ coins) : coin ∈ vCoins := by
  unfold selectCoinsMinConf at h
  cases hsort : sortCoins env chain w nTargetValue nConfMine nConfTheirs (choice.shuffle vCoins) []
    0 none with
  | none =>
    rw [hsort] at h
    cases h
  | some sorted =>
    have hall := sortCoins_forall (P := fun coin => coin ∈ vCoins) hsort
      (fun c hc => (choice.shuffle_perm vCoins).mem_iff.mp hc) (fun _ hc => nomatch hc)
      (fun _ hc => nomatch hc)
    rw [hsort] at h
    cases sorted with
    | exact found =>
      cases h
      exact List.mem_singleton.mp hmem ▸ hall
    | split vValue nTotalLower coinLowestLarger =>
      obtain ⟨hvalue, hlarger⟩ := hall
      dsimp only at h
      split_ifs at h
      · cases h
        exact hvalue coin hmem
      · obtain ⟨larger, hsome, rfl⟩ := Option.map_eq_some_iff.mp (Option.some.inj h)
        exact hlarger coin (List.mem_singleton.mp hmem ▸ hsome)
      · cases h
        rcases mem_of_selectSubset hmem with hmem | hsome
        · exact hvalue coin hmem
        · exact hlarger coin hsome

theorem mem_of_selectFirst {vCoins coins : List COutput} {calls : List (Choice × Int × Int)}
    (h : selectFirst env chain w nTargetValue vCoins calls = some (some coins))
    (hmem : coin ∈ coins) : coin ∈ vCoins := by
  induction calls with
  | nil => cases h
  | cons call calls ih =>
    obtain ⟨choice, nConfMine, nConfTheirs⟩ := call
    unfold selectFirst at h
    split at h
    · cases h
    · next found hfound =>
        cases h
        exact mem_of_selectCoinsMinConf hfound hmem
    · exact ih h

/-- **Only available coins are selected.** -/
theorem mem_of_selectCoins {rounds : Nat} {choice : Fin 3 → Choice} {nValueRet : Int}
    {coinControl : Option CCoinControl} {fOk : Bool} {setCoins : List COutput}
    (h : selectCoins env chain w rounds choice nTargetValue coinControl =
      some (fOk, setCoins, nValueRet)) (hmem : coin ∈ setCoins) :
    ∃ vCoins, w.availableCoins env chain rounds true coinControl = some vCoins ∧ coin ∈ vCoins := by
  unfold selectCoins at h
  cases havailable : w.availableCoins env chain rounds true coinControl with
  | none =>
    rw [havailable] at h
    cases h
  | some vCoins =>
    refine ⟨vCoins, rfl, ?_⟩
    rw [havailable] at h
    dsimp only at h
    split_ifs at h
    · cases h
      exact mem_of_coinsRet hmem
    · obtain ⟨coins, hcoins, heq⟩ := Option.map_eq_some_iff.mp h
      cases heq
      have hin := mem_of_coinsRet hmem
      cases coins with
      | none => exact absurd hin List.not_mem_nil
      | some coins => exact mem_of_selectFirst hcoins hin

end Select

end Wallet

end Manna
