import Manna.Lib.Components
import Manna.Wallet

/-!
Which addresses are known to belong together (`wallet.cpp`: `CWallet::GetAddressGroupings`).

The groups of addresses are on the heap: `uniqueGroupings` and `setmap` hold pointers. `none` stands for
the use of a pointer that was deleted.

* `getAddressGroupings`: as in the source; with `PPCOINSTAKE` it also copies a record that nothing reads;
* `Groups.merge_spec`: one round of the merging loop takes a group into the blocks;
* `getAddressGroupings_partition`: what is returned are the components of the addresses.
-/

namespace Manna

namespace Wallet

/-- **What the standard library decides**: the order in which a set is gone through, and where `new` puts
a group. -/
structure SetEnv where
  elements : {α : Type} → Finset α → List α
  mem_elements {α : Type} (s : Finset α) (a : α) : a ∈ elements s ↔ a ∈ s
  nodup_elements {α : Type} (s : Finset α) : (elements s).Nodup
  new : (Finmap fun _ : Nat => Finset CTxDestination) → Nat
  new_fresh (heap : Finmap fun _ : Nat => Finset CTxDestination) : new heap ∉ heap

/-- Some order, and a heap that grows upwards. -/
noncomputable instance : Inhabited SetEnv where
  default :=
    { elements := Finset.toList
      mem_elements _ _ := Finset.mem_toList
      nodup_elements s := s.nodup_toList
      new heap := heap.keys.sup id + 1
      new_fresh heap hmem := by
        have hle := Finset.le_sup (f := id) (Finmap.mem_keys.mpr hmem)
        exact absurd hle (Nat.not_succ_le_self _) }

namespace CWallet

variable (env : WalletEnv) (w : CWallet)

/-- `IsMine` of an input. -/
def isMineIn (txin : CTxIn) : Bool :=
  match w.prevOut txin with
  | none => false
  | some txout => w.keystore.isMine txout.scriptPubKey

def groupInput (s : Finset CTxDestination × Bool) (txin : CTxIn) : Finset CTxDestination × Bool :=
  if !w.isMineIn txin then s
  else
    match (w.prevOut txin).bind fun txout => extractDestination env.getID txout.scriptPubKey with
    | none => s
    | some address => (insert address s.1, true)

/-- "group change with input addresses". -/
def groupChange (grouping : Finset CTxDestination) (txout : CTxOut) : Finset CTxDestination :=
  if w.isChange env txout then
    match extractDestination env.getID txout.scriptPubKey with
    | none => grouping
    | some txoutAddr => insert txoutAddr grouping
  else grouping

def inputGrouping (pcoin : CWalletTx) : Finset CTxDestination :=
  let (grouping, any_mine) := pcoin.vin.foldl (w.groupInput env) (∅, false)
  if any_mine then pcoin.vout.foldl (w.groupChange env) grouping else grouping

def groupLone (groupings : Finset (Finset CTxDestination)) (txout : CTxOut) :
    Finset (Finset CTxDestination) :=
  if w.keystore.isMine txout.scriptPubKey then
    match extractDestination env.getID txout.scriptPubKey with
    | none => groupings
    | some address => insert {address} groupings
  else groupings

/-- A round of the loop over the wallet. -/
def groupTransaction (groupings : Finset (Finset CTxDestination)) (pcoin : CWalletTx) :
    Finset (Finset CTxDestination) :=
  let groupings :=
    if pcoin.vin.length > 0 ∧ (w.inputGrouping env pcoin).card > 0 then
      insert (w.inputGrouping env pcoin) groupings
    else groupings
  pcoin.vout.foldl (w.groupLone env) groupings

def groupings : Finset (Finset CTxDestination) :=
  ((w.mapWallet.keys.sort (· ≤ ·)).filterMap fun hash => w.mapWallet.lookup hash).foldl
    (w.groupTransaction env) ∅

end CWallet

/-! ### The merging loop -/

/-- The heap with the groups, `uniqueGroupings` and `setmap`. -/
structure Groups where
  heap : Finmap fun _ : Nat => Finset CTxDestination
  uniqueGroupings : Finset Nat
  setmap : Finmap fun _ : CTxDestination => Nat

namespace Groups

def empty : Groups := ⟨∅, ∅, ∅⟩

/-- "merge all hit groups into a new single group and delete old groups". -/
def mergeHits (merged : Nat) : List Nat → Groups → Option Groups
  | [], s => some s
  | hit :: hits, s =>
    match s.heap.lookup merged, s.heap.lookup hit with
    | some group, some group' =>
      mergeHits merged hits
        { s with
          heap := (s.heap.insert merged (group ∪ group')).erase hit
          uniqueGroupings := s.uniqueGroupings.erase hit }
    | _, _ => none

/-- A round of the merging loop. -/
def merge (senv : SetEnv) (grouping : Finset CTxDestination) (s : Groups) : Option Groups :=
  -- "make a set of all the groups hit by this new group"
  let hits := ((senv.elements grouping).filterMap fun address => s.setmap.lookup address).toFinset
  let merged := senv.new s.heap
  match mergeHits merged (senv.elements hits) { s with heap := s.heap.insert merged grouping } with
  | none => none
  | some s =>
    match s.heap.lookup merged with
    | none => none
    | some group =>
      some
        { s with
          uniqueGroupings := insert merged s.uniqueGroupings
          setmap := (senv.elements group).foldl (fun setmap element => setmap.insert element merged)
            s.setmap }

def mergeAll (senv : SetEnv) : List (Finset CTxDestination) → Groups → Option Groups
  | [], s => some s
  | grouping :: groupings, s =>
    match s.merge senv grouping with
    | none => none
    | some s => mergeAll senv groupings s

def collect : List Nat → (Finmap fun _ : Nat => Finset CTxDestination) →
    Finset (Finset CTxDestination) → Option (Finset (Finset CTxDestination))
  | [], _, ret => some ret
  | uniqueGrouping :: pointers, heap, ret =>
    match heap.lookup uniqueGrouping with
    | none => none
    | some group => collect pointers (heap.erase uniqueGrouping) (insert group ret)

end Groups

def CWallet.getAddressGroupings (env : WalletEnv) (senv : SetEnv) (w : CWallet) :
    Option (Finset (Finset CTxDestination)) :=
  match Groups.empty.mergeAll senv (senv.elements (w.groupings env)) with
  | none => none
  | some s => Groups.collect (senv.elements s.uniqueGroupings) s.heap ∅

section Spec

variable (env : WalletEnv) (w : CWallet)

/-- An address of an own output that a transaction spends. -/
def OwnInput (wtx : CWalletTx) (address : CTxDestination) : Prop :=
  ∃ txin ∈ wtx.vin, ∃ txout, w.prevOut txin = some txout ∧
    w.keystore.isMine txout.scriptPubKey = true ∧
    extractDestination env.getID txout.scriptPubKey = some address

def ChangeAddress (wtx : CWalletTx) (address : CTxDestination) : Prop :=
  ∃ txout ∈ wtx.vout, w.isChange env txout = true ∧
    extractDestination env.getID txout.scriptPubKey = some address

/-- An input of a transaction, or change with inputs. -/
def TakesPart (wtx : CWalletTx) (address : CTxDestination) : Prop :=
  OwnInput env w wtx address ∨
    ChangeAddress env w wtx address ∧ ∃ input, OwnInput env w wtx input

/-- **Two addresses appear together** in a transaction of the wallet. -/
def AppearTogether (address address' : CTxDestination) : Prop :=
  ∃ hash wtx, w.mapWallet.lookup hash = some wtx ∧
    TakesPart env w wtx address ∧ TakesPart env w wtx address'

def OwnOutput (address : CTxDestination) : Prop :=
  ∃ hash wtx, w.mapWallet.lookup hash = some wtx ∧ ∃ txout ∈ wtx.vout,
    w.keystore.isMine txout.scriptPubKey = true ∧
      extractDestination env.getID txout.scriptPubKey = some address

def WalletAddress (address : CTxDestination) : Prop :=
  OwnOutput env w address ∨ AppearTogether env w address address

/-- **The partition into components.** -/
structure IsPartition (ret : Finset (Finset CTxDestination)) : Prop where
  nonempty : ∀ group ∈ ret, group.Nonempty
  disjoint : ∀ group ∈ ret, ∀ group' ∈ ret, group ≠ group' → Disjoint group group'
  covers : ∀ address, (∃ group ∈ ret, address ∈ group) ↔ WalletAddress env w address
  linked : ∀ address address', WalletAddress env w address →
    ((∃ group ∈ ret, address ∈ group ∧ address' ∈ group) ↔
      Relation.ReflTransGen (AppearTogether env w) address address')

end Spec

/-! ### Which groups there are -/

section Groupings

variable {env : WalletEnv} {w : CWallet}

/-- The loop over the inputs. -/
theorem foldl_groupInput (env : WalletEnv) (w : CWallet) (vin : List CTxIn)
    {s : Finset CTxDestination × Bool}
    (hs : s.2 = true ↔ s.1.Nonempty) :
    let t := vin.foldl (w.groupInput env) s
    (t.2 = true ↔ t.1.Nonempty) ∧ ∀ address, address ∈ t.1 ↔ address ∈ s.1 ∨
      ∃ txin ∈ vin, ∃ txout, w.prevOut txin = some txout ∧
        w.keystore.isMine txout.scriptPubKey = true ∧
        extractDestination env.getID txout.scriptPubKey = some address := by
  induction vin generalizing s with
  | nil => simpa using hs
  | cons txin vin ih =>
    have hstep : ((w.groupInput env s txin).2 = true ↔ (w.groupInput env s txin).1.Nonempty) ∧
        ∀ address, address ∈ (w.groupInput env s txin).1 ↔ address ∈ s.1 ∨
          ∃ txout, w.prevOut txin = some txout ∧ w.keystore.isMine txout.scriptPubKey = true ∧
            extractDestination env.getID txout.scriptPubKey = some address := by
      unfold CWallet.groupInput CWallet.isMineIn
      cases hprev : w.prevOut txin with
      | none => simpa using hs
      | some txout =>
        cases hmine : w.keystore.isMine txout.scriptPubKey with
        | false => simpa [hmine] using hs
        | true =>
          cases haddress : extractDestination env.getID txout.scriptPubKey with
          | none => simpa [hmine, haddress] using hs
          | some found =>
            simp only [hmine, Bool.not_true, Bool.false_eq_true, if_false, Option.bind_some,
              haddress, Option.some.injEq, exists_eq_left', true_and]
            refine ⟨by simp, fun address => ?_⟩
            rw [Finset.mem_insert, or_comm, eq_comm]
    obtain ⟨hmine, hmem⟩ := hstep
    obtain ⟨hany, hall⟩ := ih hmine
    refine ⟨hany, fun address => ?_⟩
    rw [List.foldl_cons, hall, hmem, List.exists_mem_cons_iff, or_assoc]

variable {address : CTxDestination}

theorem mem_foldl_groupChange {vout : List CTxOut} {grouping : Finset CTxDestination} :
    address ∈ vout.foldl (w.groupChange env) grouping ↔ address ∈ grouping ∨
      ∃ txout ∈ vout, w.isChange env txout = true ∧
        extractDestination env.getID txout.scriptPubKey = some address := by
  induction vout generalizing grouping with
  | nil => simp
  | cons txout vout ih =>
    have hstep : address ∈ w.groupChange env grouping txout ↔ address ∈ grouping ∨
        (w.isChange env txout = true ∧
          extractDestination env.getID txout.scriptPubKey = some address) := by
      unfold CWallet.groupChange
      cases w.isChange env txout with
      | false => simp
      | true =>
        cases extractDestination env.getID txout.scriptPubKey with
        | none => simp
        | some found => simp [or_comm, eq_comm]
    rw [List.foldl_cons, ih, hstep, List.exists_mem_cons_iff, or_assoc]

theorem mem_inputGrouping {wtx : CWalletTx} :
    address ∈ w.inputGrouping env wtx ↔ TakesPart env w wtx address := by
  obtain ⟨hany, hmem⟩ := foldl_groupInput env w wtx.vin (s := (∅, false)) (by simp)
  have hinput : ∀ address, address ∈ (wtx.vin.foldl (w.groupInput env) (∅, false)).1 ↔
      OwnInput env w wtx address := fun address => by
    rw [hmem]
    simp [OwnInput]
  unfold CWallet.inputGrouping TakesPart
  generalize wtx.vin.foldl (w.groupInput env) (∅, false) = t at hany hinput
  obtain ⟨grouping, any_mine⟩ := t
  dsimp only at hany hinput ⊢
  have hsome : any_mine = true ↔ ∃ input, OwnInput env w wtx input := hany.trans (exists_congr hinput)
  split_ifs with h
  · rw [mem_foldl_groupChange, hinput, and_iff_left (hsome.mp h)]
    rfl
  · rw [hinput, ← hsome]
    simp [h]

theorem mem_foldl_groupLone {vout : List CTxOut} {groupings : Finset (Finset CTxDestination)}
    {group : Finset CTxDestination} : group ∈ vout.foldl (w.groupLone env) groupings ↔ group ∈ groupings ∨
      ∃ txout ∈ vout, w.keystore.isMine txout.scriptPubKey = true ∧
        ∃ address, extractDestination env.getID txout.scriptPubKey = some address ∧ group = {address} := by
  induction vout generalizing groupings with
  | nil => simp
  | cons txout vout ih =>
    have hstep : group ∈ w.groupLone env groupings txout ↔ group ∈ groupings ∨
        (w.keystore.isMine txout.scriptPubKey = true ∧
          ∃ address, extractDestination env.getID txout.scriptPubKey = some address ∧
            group = {address}) := by
      unfold CWallet.groupLone
      cases w.keystore.isMine txout.scriptPubKey with
      | false => simp
      | true =>
        cases extractDestination env.getID txout.scriptPubKey with
        | none => simp
        | some found => simp [or_comm]
    rw [List.foldl_cons, ih, hstep, List.exists_mem_cons_iff, or_assoc]

theorem mem_groupTransaction {groupings : Finset (Finset CTxDestination)} {wtx : CWalletTx}
    {group : Finset CTxDestination} : group ∈ w.groupTransaction env groupings wtx ↔ group ∈ groupings ∨
      (group.Nonempty ∧ group = w.inputGrouping env wtx) ∨
      ∃ txout ∈ wtx.vout, w.keystore.isMine txout.scriptPubKey = true ∧
        ∃ address, extractDestination env.getID txout.scriptPubKey = some address ∧ group = {address} := by
  have hvin : (w.inputGrouping env wtx).Nonempty → wtx.vin.length > 0 := by
    rintro ⟨address, haddress⟩
    rcases mem_inputGrouping.mp haddress with ⟨txin, htxin, -⟩ | ⟨-, -, txin, htxin, -⟩
    · exact List.length_pos_of_mem htxin
    · exact List.length_pos_of_mem htxin
  unfold CWallet.groupTransaction
  dsimp only
  rw [mem_foldl_groupLone, ← or_assoc]
  refine or_congr_left ?_
  split_ifs with h
  · have hne := Finset.card_pos.mp h.2
    rw [Finset.mem_insert, or_comm]
    refine or_congr_right ⟨?_, And.right⟩
    rintro rfl
    exact ⟨hne, rfl⟩
  · refine (or_iff_left ?_).symm
    rintro ⟨hne, rfl⟩
    exact h ⟨hvin hne, Finset.card_pos.mpr hne⟩

/-- **Which groups are found**: those of the inputs and the change, and the addresses alone. -/
theorem mem_groupings {group : Finset CTxDestination} : group ∈ w.groupings env ↔
    ∃ hash wtx, w.mapWallet.lookup hash = some wtx ∧ ((group.Nonempty ∧ group = w.inputGrouping env wtx) ∨
        ∃ txout ∈ wtx.vout, w.keystore.isMine txout.scriptPubKey = true ∧
          ∃ address, extractDestination env.getID txout.scriptPubKey = some address ∧ group = {address}) := by
  have hfold : ∀ (coins : List CWalletTx) (groupings : Finset (Finset CTxDestination)),
      group ∈ coins.foldl (w.groupTransaction env) groupings ↔ group ∈ groupings ∨
        ∃ wtx ∈ coins, ((group.Nonempty ∧ group = w.inputGrouping env wtx) ∨
          ∃ txout ∈ wtx.vout, w.keystore.isMine txout.scriptPubKey = true ∧
            ∃ address, extractDestination env.getID txout.scriptPubKey = some address ∧
              group = {address}) := by
    intro coins
    induction coins with
    | nil => simp
    | cons wtx coins ih =>
      intro groupings
      rw [List.foldl_cons, ih, mem_groupTransaction, List.exists_mem_cons_iff, or_assoc]
  unfold CWallet.groupings
  rw [hfold, or_iff_right (Finset.notMem_empty _)]
  constructor
  · rintro ⟨wtx, hmem, hgroup⟩
    obtain ⟨hash, -, hlookup⟩ := List.mem_filterMap.mp hmem
    exact ⟨hash, wtx, hlookup, hgroup⟩
  · rintro ⟨hash, wtx, hlookup, hgroup⟩
    refine ⟨wtx, List.mem_filterMap.mpr ⟨hash, ?_, hlookup⟩, hgroup⟩
    rw [Finset.mem_sort, Finmap.mem_keys]
    exact Finmap.mem_of_lookup_eq_some hlookup

theorem nonempty_of_mem_groupings {group : Finset CTxDestination} (h : group ∈ w.groupings env) :
    group.Nonempty := by
  obtain ⟨-, -, -, ⟨hne, -⟩ | ⟨-, -, -, address, -, rfl⟩⟩ := mem_groupings.mp h
  · exact hne
  · exact Finset.singleton_nonempty address

theorem exists_grouping_iff (env : WalletEnv) (w : CWallet) (address : CTxDestination) :
    (∃ group ∈ {group | group ∈ w.groupings env}, address ∈ group) ↔ WalletAddress env w address := by
  constructor
  · rintro ⟨group, hgroup, haddress⟩
    obtain ⟨hash, wtx, hlookup, ⟨-, rfl⟩ | ⟨txout, hout, hmine, found, hfound, rfl⟩⟩ :=
      mem_groupings.mp hgroup
    · have hpart := mem_inputGrouping.mp haddress
      exact .inr ⟨hash, wtx, hlookup, hpart, hpart⟩
    · rw [← Finset.mem_singleton.mp haddress] at hfound
      exact .inl ⟨hash, wtx, hlookup, txout, hout, hmine, hfound⟩
  · rintro (⟨hash, wtx, hlookup, txout, hout, hmine, hfound⟩ | ⟨hash, wtx, hlookup, hpart, -⟩)
    · refine ⟨{address}, ?_, Finset.mem_singleton_self _⟩
      exact mem_groupings.mpr ⟨hash, wtx, hlookup, .inr ⟨txout, hout, hmine, address, hfound, rfl⟩⟩
    · have hmem := mem_inputGrouping.mpr hpart
      exact ⟨_, mem_groupings.mpr ⟨hash, wtx, hlookup, .inl ⟨⟨address, hmem⟩, rfl⟩⟩, hmem⟩

theorem together_groupings {address' : CTxDestination}
    (h : Components.Together {group | group ∈ w.groupings env} address address') :
    AppearTogether env w address address' ∨ address = address' := by
  obtain ⟨group, hgroup, haddress, haddress'⟩ := h
  obtain ⟨hash, wtx, hlookup, ⟨-, rfl⟩ | ⟨-, -, -, found, -, rfl⟩⟩ := mem_groupings.mp hgroup
  · exact .inl ⟨hash, wtx, hlookup, mem_inputGrouping.mp haddress, mem_inputGrouping.mp haddress'⟩
  · rw [Finset.mem_singleton] at haddress haddress'
    exact .inr (haddress.trans haddress'.symm)

theorem AppearTogether.together {address' : CTxDestination} (h : AppearTogether env w address address') :
    Components.Together {group | group ∈ w.groupings env} address address' := by
  obtain ⟨hash, wtx, hlookup, hpart, hpart'⟩ := h
  have hmem := mem_inputGrouping.mpr hpart
  exact ⟨_, mem_groupings.mpr ⟨hash, wtx, hlookup, .inl ⟨⟨address, hmem⟩, rfl⟩⟩, hmem,
    mem_inputGrouping.mpr hpart'⟩

theorem chain_groupings_iff {address' : CTxDestination} :
    Relation.ReflTransGen (Components.Together {group | group ∈ w.groupings env}) address address' ↔
      Relation.ReflTransGen (AppearTogether env w) address address' := by
  constructor
  · intro h
    induction h with
    | refl => exact .refl
    | tail _ hstep ih =>
      rcases together_groupings hstep with htogether | rfl
      · exact ih.tail htogether
      · exact ih
  · intro h
    induction h with
    | refl => exact .refl
    | tail _ hstep ih => exact ih.tail hstep.together

end Groupings

/-! ### One round of the merging loop -/

namespace Groups

variable {senv : SetEnv} {s : Groups}

def groupAt (s : Groups) (pointer : Nat) : Finset CTxDestination := (s.heap.lookup pointer).getD ∅

/-- The groups that `uniqueGroupings` points to. -/
def blocks (s : Groups) : Finset (Finset CTxDestination) := s.uniqueGroupings.image s.groupAt

/-- **What the loop keeps**: no pointer of `uniqueGroupings` was deleted, and `setmap` maps an address to
the pointer to its group. -/
structure Inv (s : Groups) : Prop where
  live : ∀ pointer ∈ s.uniqueGroupings, ∃ group, s.heap.lookup pointer = some group
  mapped : ∀ address pointer, s.setmap.lookup address = some pointer ↔
    pointer ∈ s.uniqueGroupings ∧ address ∈ s.groupAt pointer

theorem inv_empty : Inv empty where
  live _ h := absurd h (Finset.notMem_empty _)
  mapped address pointer := by
    rw [empty, Finmap.lookup_empty]
    simp

/-- The loop over the hits deletes them, and leaves their addresses in the merged group. -/
theorem mergeHits_spec (merged : Nat) {hits : List Nat} (hnodup : hits.Nodup)
    (hfresh : merged ∉ hits) (hlive : ∀ hit ∈ hits, ∃ group, s.heap.lookup hit = some group)
    (hmerged : ∃ group, s.heap.lookup merged = some group) :
    ∃ t, s.mergeHits merged hits = some t ∧ t.setmap = s.setmap ∧
      (∀ pointer, pointer ∈ t.uniqueGroupings ↔ pointer ∈ s.uniqueGroupings ∧ pointer ∉ hits) ∧
      (∀ pointer, pointer ≠ merged → pointer ∉ hits → t.heap.lookup pointer = s.heap.lookup pointer) ∧
      ∃ group, t.heap.lookup merged = some group ∧ ∀ address, address ∈ group ↔
          address ∈ s.groupAt merged ∨ ∃ hit ∈ hits, address ∈ s.groupAt hit := by
  induction hits generalizing s with
  | nil =>
    obtain ⟨group, hgroup⟩ := hmerged
    refine ⟨s, rfl, rfl, by simp, fun _ _ _ => rfl, group, hgroup, fun address => ?_⟩
    simp [groupAt, hgroup]
  | cons hit hits ih =>
    obtain ⟨hnotin, hnodup⟩ := List.nodup_cons.mp hnodup
    obtain ⟨hne, hfresh⟩ := not_or.mp (mt List.mem_cons.mpr hfresh)
    obtain ⟨group, hgroup⟩ := hmerged
    obtain ⟨group', hgroup'⟩ := hlive hit List.mem_cons_self
    let s' : Groups :=
      { s with
        heap := (s.heap.insert merged (group ∪ group')).erase hit
        uniqueGroupings := s.uniqueGroupings.erase hit }
    have hother : ∀ pointer, pointer ≠ merged → pointer ≠ hit →
        s'.heap.lookup pointer = s.heap.lookup pointer := by
      intro pointer hpointer hhit
      rw [Finmap.lookup_erase_ne hhit, Finmap.lookup_insert_of_ne _ hpointer]
    have hunion : s'.heap.lookup merged = some (group ∪ group') := by
      rw [Finmap.lookup_erase_ne hne, Finmap.lookup_insert]
    have hkeep : ∀ hit' ∈ hits, s'.heap.lookup hit' = s.heap.lookup hit' := by
      intro hit' hmem
      refine hother hit' ?_ ?_
      · rintro rfl
        exact hfresh hmem
      · rintro rfl
        exact hnotin hmem
    obtain ⟨t, hrun, hsetmap, hunique, hheap, result, hresult, hmem⟩ :=
      ih (s := s') hnodup hfresh
        (fun hit' hhit' => by
          rw [hkeep hit' hhit']
          exact hlive hit' (List.mem_cons_of_mem hit hhit'))
        ⟨_, hunion⟩
    refine ⟨t, ?_, hsetmap, fun pointer => ?_, fun pointer hpointer hnot => ?_, result, hresult,
      fun address => ?_⟩
    · rw [mergeHits, hgroup, hgroup']
      exact hrun
    · rw [hunique, Finset.mem_erase, List.mem_cons, not_or]
      tauto
    · obtain ⟨hhit, hnot⟩ := not_or.mp (mt List.mem_cons.mpr hnot)
      rw [hheap pointer hpointer hnot, hother pointer hpointer hhit]
    · have hin : (∃ hit' ∈ hits, address ∈ s'.groupAt hit') ↔
          ∃ hit' ∈ hits, address ∈ s.groupAt hit' :=
        exists_congr fun hit' => and_congr_right fun hmem => by
          rw [groupAt, groupAt, hkeep hit' hmem]
      rw [hmem, hin, List.exists_mem_cons_iff, groupAt, hunion, groupAt, hgroup, groupAt, hgroup']
      simp [or_assoc]

variable {merged : Nat} {grouping : Finset CTxDestination}

theorem lookup_foldl_insert {elements : List CTxDestination}
    {setmap : Finmap fun _ : CTxDestination => Nat} {address : CTxDestination} :
    (elements.foldl (fun setmap element => setmap.insert element merged) setmap).lookup address =
      if address ∈ elements then some merged else setmap.lookup address := by
  induction elements generalizing setmap with
  | nil => simp
  | cons element elements ih =>
    rw [List.foldl_cons, ih]
    by_cases hmem : address ∈ elements
    · rw [if_pos hmem, if_pos (List.mem_cons_of_mem element hmem)]
    · rw [if_neg hmem]
      by_cases heq : address = element
      · rw [heq, Finmap.lookup_insert, if_pos List.mem_cons_self]
      · rw [Finmap.lookup_insert_of_ne _ heq, if_neg]
        exact fun h => (List.mem_cons.mp h).elim heq hmem

/-- **What a round does**: the merged group is put where nothing was, the blocks that it does not meet stay
where they are, and its addresses are mapped to it. -/
structure Merges (s : Groups) (grouping : Finset CTxDestination) (merged : Nat) (t : Groups) : Prop where
  group : t.heap.lookup merged = some (Components.merged s.blocks grouping)
  listed : ∀ pointer, pointer ∈ t.uniqueGroupings ↔ pointer = merged ∨
    pointer ∈ s.uniqueGroupings ∧ ¬ ∃ address ∈ grouping, address ∈ s.groupAt pointer
  kept : ∀ pointer ∈ s.uniqueGroupings, (¬ ∃ address ∈ grouping, address ∈ s.groupAt pointer) →
    t.heap.lookup pointer = s.heap.lookup pointer
  mapped : ∀ address, t.setmap.lookup address =
    if address ∈ Components.merged s.blocks grouping then some merged else s.setmap.lookup address

/-- The hits are the blocks that the group meets. -/
theorem mem_hits (senv : SetEnv) (h : s.Inv) (grouping : Finset CTxDestination) (pointer : Nat) :
    pointer ∈ ((senv.elements grouping).filterMap fun address => s.setmap.lookup address).toFinset ↔
      pointer ∈ s.uniqueGroupings ∧ ∃ address ∈ grouping, address ∈ s.groupAt pointer := by
  rw [List.mem_toFinset, List.mem_filterMap]
  simp only [senv.mem_elements, h.mapped]
  exact ⟨fun ⟨address, hin, hunique, hat⟩ => ⟨hunique, address, hin, hat⟩,
    fun ⟨hunique, address, hin, hat⟩ => ⟨address, hin, hunique, hat⟩⟩

theorem Inv.ne_new (senv : SetEnv) (h : s.Inv) (pointer : Nat) (hlisted : pointer ∈ s.uniqueGroupings) :
    pointer ≠ senv.new s.heap := by
  rintro rfl
  obtain ⟨group, hgroup⟩ := h.live _ hlisted
  rw [Finmap.lookup_eq_none.mpr (senv.new_fresh s.heap)] at hgroup
  cases hgroup

theorem merge_run (senv : SetEnv) (h : s.Inv) (grouping : Finset CTxDestination) :
    ∃ t, s.merge senv grouping = some t ∧ s.Merges grouping (senv.new s.heap) t := by
  have hmem_hits := mem_hits senv h grouping
  unfold merge
  dsimp only
  generalize ((senv.elements grouping).filterMap fun address =>
    s.setmap.lookup address).toFinset = hits at hmem_hits ⊢
  have hne := h.ne_new senv
  generalize senv.new s.heap = merged at hne ⊢
  let s₀ : Groups := { s with heap := s.heap.insert merged grouping }
  have hat₀ : ∀ pointer ∈ s.uniqueGroupings, s₀.heap.lookup pointer = s.heap.lookup pointer :=
    fun pointer hlisted => Finmap.lookup_insert_of_ne _ (hne pointer hlisted)
  obtain ⟨s₁, hrun, hsetmap, hunique, hheap, group, hgroup, hmem⟩ :=
    mergeHits_spec (s := s₀) merged (senv.nodup_elements hits)
      (fun hin => hne merged ((hmem_hits merged).mp ((senv.mem_elements _ _).mp hin)).1 rfl)
      (fun hit hin => by
        obtain ⟨hlisted, -⟩ := (hmem_hits hit).mp ((senv.mem_elements _ _).mp hin)
        rw [hat₀ hit hlisted]
        exact h.live hit hlisted)
      ⟨grouping, Finmap.lookup_insert _⟩
  have hmerged : group = Components.merged s.blocks grouping := by
    ext address
    have hfirst : s₀.groupAt merged = grouping := by
      rw [groupAt, Finmap.lookup_insert, Option.getD_some]
    rw [hmem, hfirst, Components.mem_merged]
    refine or_congr_right ⟨?_, ?_⟩
    · rintro ⟨hit, hin, haddress⟩
      obtain ⟨hlisted, hmeets⟩ := (hmem_hits hit).mp ((senv.mem_elements _ _).mp hin)
      rw [groupAt, hat₀ hit hlisted] at haddress
      exact ⟨s.groupAt hit, Components.mem_hits.mpr ⟨Finset.mem_image_of_mem _ hlisted, hmeets⟩,
        haddress⟩
    · rintro ⟨block, hblock, haddress⟩
      obtain ⟨hblock, hmeets⟩ := Components.mem_hits.mp hblock
      obtain ⟨hit, hlisted, rfl⟩ := Finset.mem_image.mp hblock
      refine ⟨hit, (senv.mem_elements _ _).mpr ((hmem_hits hit).mpr ⟨hlisted, hmeets⟩), ?_⟩
      rw [groupAt, hat₀ hit hlisted]
      exact haddress
  rw [hrun]
  dsimp only
  rw [hgroup]
  refine ⟨_, rfl, hmerged ▸ hgroup, fun pointer => ?_, fun pointer hlisted hmiss => ?_,
    fun address => ?_⟩
  · rw [Finset.mem_insert, hunique, senv.mem_elements, hmem_hits]
    refine or_congr_right (and_congr_right fun hlisted => not_congr ?_)
    exact and_iff_right hlisted
  · have hnot : pointer ∉ senv.elements hits := fun hhit =>
      hmiss ((hmem_hits pointer).mp ((senv.mem_elements _ _).mp hhit)).2
    exact (hheap pointer (hne pointer hlisted) hnot).trans (hat₀ pointer hlisted)
  · rw [lookup_foldl_insert, hsetmap]
    simp only [senv.mem_elements, hmerged]
    rfl

theorem Inv.notMem_merged (h : s.Inv) {pointer : Nat}
    {address : CTxDestination} (hlisted : pointer ∈ s.uniqueGroupings)
    (hmiss : ¬ ∃ address ∈ grouping, address ∈ s.groupAt pointer)
    (haddress : address ∈ s.groupAt pointer) : address ∉ Components.merged s.blocks grouping := by
  rw [Components.mem_merged]
  rintro (hgrouping | ⟨block, hblock, hin⟩)
  · exact hmiss ⟨address, hgrouping, haddress⟩
  · obtain ⟨hblock, hmeets⟩ := Components.mem_hits.mp hblock
    obtain ⟨hit, hlisted', rfl⟩ := Finset.mem_image.mp hblock
    have hsame := (h.mapped address hit).mpr ⟨hlisted', hin⟩
    rw [(h.mapped address pointer).mpr ⟨hlisted, haddress⟩, Option.some_inj] at hsame
    exact hmiss (hsame ▸ hmeets)

theorem Merges.groupAt_merged {t : Groups} (hmerges : s.Merges grouping merged t) :
    t.groupAt merged = Components.merged s.blocks grouping := by
  rw [groupAt, hmerges.group, Option.getD_some]

theorem Merges.groupAt_kept {pointer : Nat} {t : Groups}
    (hmerges : s.Merges grouping merged t) (hlisted : pointer ∈ s.uniqueGroupings)
    (hmiss : ¬ ∃ address ∈ grouping, address ∈ s.groupAt pointer) :
    t.groupAt pointer = s.groupAt pointer := by
  rw [groupAt, hmerges.kept pointer hlisted hmiss, groupAt]

theorem Merges.inv {t : Groups} (h : s.Inv) (hmerges : s.Merges grouping merged t) : t.Inv:= by
  refine ⟨fun pointer hin => ?_, fun address pointer => ?_⟩
  · rcases (hmerges.listed pointer).mp hin with rfl | ⟨hlisted, hmiss⟩
    · exact ⟨_, hmerges.group⟩
    · rw [hmerges.kept pointer hlisted hmiss]
      exact h.live pointer hlisted
  · rw [hmerges.mapped, hmerges.listed]
    split_ifs with haddress
    · rw [Option.some_inj]
      constructor
      · rintro rfl
        exact ⟨.inl rfl, hmerges.groupAt_merged ▸ haddress⟩
      · rintro ⟨rfl | ⟨hlisted, hmiss⟩, hat⟩
        · rfl
        · rw [hmerges.groupAt_kept hlisted hmiss] at hat
          exact absurd haddress (h.notMem_merged hlisted hmiss hat)
    · rw [h.mapped]
      constructor
      · rintro ⟨hlisted, hat⟩
        have hmiss : ¬ ∃ address ∈ grouping, address ∈ s.groupAt pointer := fun hmeets =>
          haddress (Components.mem_merged.mpr (.inr
            ⟨_, Components.mem_hits.mpr ⟨Finset.mem_image_of_mem _ hlisted, hmeets⟩, hat⟩))
        exact ⟨.inr ⟨hlisted, hmiss⟩, (hmerges.groupAt_kept hlisted hmiss).symm ▸ hat⟩
      · rintro ⟨rfl | ⟨hlisted, hmiss⟩, hat⟩
        · exact absurd (hmerges.groupAt_merged ▸ hat) haddress
        · exact ⟨hlisted, hmerges.groupAt_kept hlisted hmiss ▸ hat⟩

theorem Merges.blocks_eq {t : Groups} (hmerges : s.Merges grouping merged t) :
    t.blocks = Components.absorb s.blocks grouping := by
  ext block
  rw [Components.mem_absorb, blocks, Finset.mem_image]
  constructor
  · rintro ⟨pointer, hin, rfl⟩
    rcases (hmerges.listed pointer).mp hin with rfl | ⟨hlisted, hmiss⟩
    · exact .inl hmerges.groupAt_merged
    · rw [hmerges.groupAt_kept hlisted hmiss]
      exact .inr ⟨Finset.mem_image_of_mem _ hlisted, hmiss⟩
  · rintro (rfl | ⟨hblock, hmiss⟩)
    · exact ⟨merged, (hmerges.listed merged).mpr (.inl rfl), hmerges.groupAt_merged⟩
    · obtain ⟨pointer, hlisted, rfl⟩ := Finset.mem_image.mp hblock
      exact ⟨pointer, (hmerges.listed pointer).mpr (.inr ⟨hlisted, hmiss⟩),
        hmerges.groupAt_kept hlisted hmiss⟩

/-- **One round** takes the group into the blocks. -/
theorem merge_spec (senv : SetEnv) (h : s.Inv) (grouping : Finset CTxDestination) :
    ∃ t, s.merge senv grouping = some t ∧ t.Inv ∧ t.blocks = Components.absorb s.blocks grouping := by
  obtain ⟨t, hrun, hmerges⟩ := merge_run senv h grouping
  exact ⟨t, hrun, hmerges.inv h, hmerges.blocks_eq⟩

/-! ### The loops -/

theorem mergeAll_spec (senv : SetEnv) (groupings : List (Finset CTxDestination)) {done : Set (Finset CTxDestination)}
    (h : s.Inv) (hdone : Components.IsComponents done s.blocks)
    (hne : ∀ grouping ∈ groupings, grouping.Nonempty) : ∃ t, s.mergeAll senv groupings = some t ∧ t.Inv ∧
      Components.IsComponents (done ∪ {grouping | grouping ∈ groupings}) t.blocks := by
  induction groupings generalizing s done with
  | nil =>
    refine ⟨s, rfl, h, ?_⟩
    simpa using hdone
  | cons grouping groupings ih =>
    obtain ⟨s₁, hrun, hinv, hblocks⟩ := merge_spec senv h grouping
    have hstep := hdone.absorb (hne grouping List.mem_cons_self)
    rw [← hblocks] at hstep
    obtain ⟨t, hrest, htinv, ht⟩ := ih hinv hstep fun g hg => hne g (List.mem_cons_of_mem _ hg)
    refine ⟨t, ?_, htinv, ?_⟩
    · rw [mergeAll, hrun]
      exact hrest
    · have hset : done ∪ {g | g ∈ grouping :: groupings} =
          insert grouping done ∪ {g | g ∈ groupings} := by
        ext g
        simp only [Set.mem_union, Set.mem_insert_iff, Set.mem_ofPred_eq, List.mem_cons]
        tauto
      rwa [hset]

theorem collect_spec {pointers : List Nat} {heap : Finmap fun _ : Nat => Finset CTxDestination}
    (ret : Finset (Finset CTxDestination)) (hnodup : pointers.Nodup)
    (hlive : ∀ pointer ∈ pointers, ∃ group, heap.lookup pointer = some group) :
    ∃ ret', collect pointers heap ret = some ret' ∧ ∀ group, group ∈ ret' ↔
      group ∈ ret ∨ ∃ pointer ∈ pointers, (heap.lookup pointer).getD ∅ = group := by
  induction pointers generalizing heap ret with
  | nil => exact ⟨ret, rfl, by simp⟩
  | cons pointer pointers ih =>
    obtain ⟨hnotin, hnodup⟩ := List.nodup_cons.mp hnodup
    obtain ⟨group, hgroup⟩ := hlive pointer List.mem_cons_self
    have hkeep : ∀ pointer' ∈ pointers,
        (heap.erase pointer).lookup pointer' = heap.lookup pointer' := by
      intro pointer' hmem
      refine Finmap.lookup_erase_ne ?_
      rintro rfl
      exact hnotin hmem
    obtain ⟨ret', hrun, hmem⟩ := @ih (heap.erase pointer) (insert group ret) hnodup
      fun pointer' hin => by
        rw [hkeep pointer' hin]
        exact hlive pointer' (List.mem_cons_of_mem pointer hin)
    refine ⟨ret', ?_, fun group' => ?_⟩
    · rw [collect, hgroup]
      exact hrun
    · have hin : (∃ pointer' ∈ pointers, ((heap.erase pointer).lookup pointer').getD ∅ = group') ↔
          ∃ pointer' ∈ pointers, (heap.lookup pointer').getD ∅ = group' :=
        exists_congr fun pointer' => and_congr_right fun hmem => by rw [hkeep pointer' hmem]
      rw [hmem, hin, List.exists_mem_cons_iff, hgroup, Option.getD_some, Finset.mem_insert]
      tauto

end Groups

/-- **Address groupings.** For every wallet, `GetAddressGroupings` returns the partition of its addresses
into components. -/
theorem CWallet.getAddressGroupings_partition (env : WalletEnv) (senv : SetEnv) (w : CWallet) :
    ∃ ret, w.getAddressGroupings env senv = some ret ∧ IsPartition env w ret := by
  obtain ⟨s, hmerge, hinv, hcomponents⟩ :=
    Groups.mergeAll_spec senv (senv.elements (w.groupings env))
      Groups.inv_empty Components.isComponents_empty fun group hgroup =>
        nonempty_of_mem_groupings ((senv.mem_elements _ _).mp hgroup)
  obtain ⟨ret, hcollect, hmem⟩ :=
    Groups.collect_spec ∅ (senv.nodup_elements s.uniqueGroupings) fun pointer hin =>
      hinv.live pointer ((senv.mem_elements _ _).mp hin)
  have hret : ret = s.blocks := by
    ext group
    rw [hmem, Groups.blocks, Finset.mem_image, or_iff_right (Finset.notMem_empty _)]
    simp only [senv.mem_elements]
    rfl
  have hgroups : (∅ ∪ {group | group ∈ senv.elements (w.groupings env)} :
      Set (Finset CTxDestination)) = {group | group ∈ w.groupings env} := by
    ext group
    simp [senv.mem_elements]
  rw [hgroups, ← hret] at hcomponents
  have hcovers := fun address => hcomponents.mem_block_iff.trans
    (exists_grouping_iff env w address)
  refine ⟨ret, ?_, ?_, ?_, hcovers, fun address address' haddress => ?_⟩
  · rw [getAddressGroupings, hmerge]
    exact hcollect
  · exact hcomponents.nonempty
  · intro group hgroup group' hgroup' hdiff
    rw [Finset.disjoint_left]
    intro address haddress haddress'
    exact hdiff (hcomponents.unique group hgroup group' hgroup' address haddress haddress')
  · rw [← chain_groupings_iff]
    exact hcomponents.same_iff ((hcovers address).mpr haddress)

end Wallet

end Manna
