import Manna.WalletRecord

/-!
The list of transactions (`rpcwallet.cpp`: `listtransactions`, `ListTransactions`, `AcentryToJSON`;
`wallet.cpp`: `CWallet::OrderedTxItems`, `CWalletTx::GetAmounts`).

The items are gone through from the newest on, until there are as many entries as are skipped and returned;
then the array is cut at both ends. Numbers and sizes are `int`.

* `gather_spec`: what is gathered;
* `cut_of_le`, `cut_of_lt`: what is left after the cut;
* `listtransactions_iff`: when that is the window that was asked for.
-/

namespace Manna.ListTransactions

open Alerts (bytesOf)
open Wallet (CTxDestination extractDestination)
open WalletRecord (CAccountingEntry items)

/-! ### The source -/

inductive Value where
  | str (s : Valtype)
  | int (n : Int)
  | bool (b : Bool)
  /-- `ValueFromAmount`. -/
  | amount (n : Int)
  /-- `GetHex`. -/
  | hex (hash : Uint256)
deriving DecidableEq

abbrev Object := List (Valtype × Value)

/-- What an entry is made from, besides the wallet transaction. -/
structure HistoryEnv where
  getID : Valtype → Valtype
  getHash : CTransaction → Uint256
  isMine : CTxOut → Bool
  isChange : CTxOut → Bool
  mapAddressBook : CTxDestination → Option Valtype
  /-- `CBitcoinAddress(dest).ToString()`. -/
  addressString : CTxDestination → Valtype
  getDebit : WalletRecord.CWalletTx → Int
  getDepthInMainChain : WalletRecord.CWalletTx → Int
  /-- `mapBlockIndex[hashBlock]->nTime`. -/
  blockTime : Uint256 → Nat

/-- What the wallet and its database have: the transactions in the order of their hashes, the entries of
accounts in the order of their keys. -/
structure History where
  mapWallet : List WalletRecord.CWalletTx
  acentries : List (Valtype × CAccountingEntry)

/-- `GetAmounts`. -/
structure Amounts where
  listReceived : List (CTxDestination × Int)
  listSent : List (CTxDestination × Int)
  nFee : Int
  strSentAccount : Valtype

section Entries

variable (env : HistoryEnv)

/-- `GetAmounts`, of outputs whose sum is in range. -/
def getAmounts (wtx : WalletRecord.CWalletTx) : Amounts :=
  let nDebit := env.getDebit wtx
  let outputs := wtx.vout.filterMap fun txout =>
    (extractDestination env.getID txout.scriptPubKey).bind fun address =>
      if nDebit > 0 ∧ env.isChange txout then none else some (address, txout)
  { listReceived := (outputs.filter fun out => env.isMine out.2).map fun out => (out.1, out.2.nValue)
    listSent := if nDebit > 0 then outputs.map fun out => (out.1, out.2.nValue) else []
    nFee := if nDebit > 0 then nDebit - valueSum wtx.vout else 0
    strSentAccount := wtx.strFromAccount }

def walletTxToJSON (wtx : WalletRecord.CWalletTx) : Object :=
  let confirms := env.getDepthInMainChain wtx
  let time : Nat := if wtx.nTimeSmart ≠ 0 then wtx.nTimeSmart else wtx.nTimeReceived
  [(bytesOf "confirmations", .int confirms)] ++
    (if wtx.isGenerated then [(bytesOf "generated", .bool true)] else []) ++
    (if confirms ≠ 0 then [(bytesOf "blockhash", .hex wtx.hashBlock), (bytesOf "blockindex", .int wtx.nIndex),
      (bytesOf "blocktime", .int (env.blockTime wtx.hashBlock))] else []) ++
    [(bytesOf "txid", .hex (env.getHash wtx.toCTransaction)), (bytesOf "time", .int time),
      (bytesOf "timereceived", .int wtx.nTimeReceived)] ++
    (items wtx.mapValue).map fun item => (item.1, .str item.2)

def category (wtx : WalletRecord.CWalletTx) : Valtype :=
  if wtx.isCoinBase then
    if env.getDepthInMainChain wtx < 1 then bytesOf "orphan"
    else if max 0 (COINBASE_MATURITY + 20 - env.getDepthInMainChain wtx) > 0 then bytesOf "immature"
    else bytesOf "generate"
  else bytesOf "receive"

/-- `ListTransactions`, with `fLong`. -/
def listTransactions (wtx : WalletRecord.CWalletTx) (strAccount : Valtype) (nMinDepth : Int) : List Object :=
  let fAllAccounts : Bool := strAccount = bytesOf "*"
  let amounts := getAmounts env wtx
  let sent :=
    if (amounts.listSent ≠ [] ∨ amounts.nFee ≠ 0) ∧ (fAllAccounts ∨ strAccount = amounts.strSentAccount) then
      amounts.listSent.map fun s =>
        [(bytesOf "account", .str amounts.strSentAccount), (bytesOf "address", .str (env.addressString s.1)),
          (bytesOf "category", .str (bytesOf "send")), (bytesOf "amount", .amount (-s.2)),
          (bytesOf "fee", .amount (-amounts.nFee))] ++ walletTxToJSON env wtx
    else []
  let received :=
    if amounts.listReceived ≠ [] ∧ env.getDepthInMainChain wtx ≥ nMinDepth then
      amounts.listReceived.filterMap fun r =>
        let account := (env.mapAddressBook r.1).getD []
        if fAllAccounts ∨ account = strAccount then
          some ([(bytesOf "account", .str account), (bytesOf "address", .str (env.addressString r.1)),
            (bytesOf "category", .str (category env wtx)), (bytesOf "amount", .amount r.2)] ++
              walletTxToJSON env wtx)
        else none
    else []
  sent ++ received

def acentryToJSON (acentry : Valtype × CAccountingEntry) (strAccount : Valtype) : List Object :=
  if strAccount = bytesOf "*" ∨ acentry.1 = strAccount then
    [[(bytesOf "account", .str acentry.1), (bytesOf "category", .str (bytesOf "move")),
      (bytesOf "time", .int acentry.2.nTime), (bytesOf "amount", .amount acentry.2.nCreditDebit),
      (bytesOf "otheraccount", .str acentry.2.strOtherAccount),
      (bytesOf "comment", .str acentry.2.strComment)]]
  else []

/-- `TxPair`. -/
inductive Item where
  | tx (wtx : WalletRecord.CWalletTx)
  | acentry (entry : Valtype × CAccountingEntry)

def Item.nOrderPos : Item → Int
  | tx wtx => wtx.nOrderPos
  | acentry entry => entry.2.nOrderPos

/-- `ListAccountCreditDebit`: the records of an account lie together. -/
def History.listAccountCreditDebit (history : History) (strAccount : Valtype) : List (Valtype × CAccountingEntry) :=
  history.acentries.filter fun acentry => strAccount = bytesOf "*" ∨ acentry.1 = strAccount

/-- `OrderedTxItems`: items of one position stay in the order in which they are inserted. -/
def History.orderedTxItems (history : History) (strAccount : Valtype) : List Item :=
  (history.mapWallet.map Item.tx ++ (history.listAccountCreditDebit strAccount).map Item.acentry).insertionSort
    fun a b => a.nOrderPos ≤ b.nOrderPos

end Entries

/-- What one round of `listtransactions` appends. -/
def Item.entries (item : Item) (env : HistoryEnv) (strAccount : Valtype) : List Object :=
  match item with
  | tx wtx => listTransactions env wtx strAccount 0
  | acentry entry => acentryToJSON entry strAccount

/-- A sum of two `int`. -/
def addInt (a b : Int) : Except Halt Int := if -2 ^ 31 ≤ a + b ∧ a + b ≤ INT_MAX then .ok (a + b) else .error .overflow

def toInt (size : Nat) : Int := (size : Int).bmod (2 ^ 32)

section Window

variable {ι α : Type} (entries : ι → List α)

/-- "iterate backwards until we have nCount items to return". -/
def gather (nCount nFrom : Int) : List ι → List α → Except Halt (List α)
  | [], ret => .ok ret
  | item :: rest, ret =>
    let ret := ret ++ entries item
    match addInt nCount nFrom with
    | .error e => .error e
    | .ok n => if toInt ret.length ≥ n then .ok ret else gather nCount nFrom rest ret

def advance (ret : List α) (n : Int) : Except Halt Nat :=
  if 0 ≤ n ∧ n ≤ ret.length then .ok n.toNat else .error .undefined

/-- What is done with the array after the loop. -/
def cut (nCount nFrom : Int) (ret : List α) : Except Halt (List α) := do
  let nFrom := if nFrom > toInt ret.length then toInt ret.length else nFrom
  let nCount := if (← addInt nFrom nCount) > toInt ret.length then ((ret.length : Int) - nFrom).bmod (2 ^ 32) else nCount
  let first ← advance ret nFrom
  let last ← advance ret (← addInt nFrom nCount)
  let ret := ret.take last
  if first ≤ ret.length then .ok (ret.drop first).reverse else .error .undefined

end Window

/-- `listtransactions`, with its three arguments. -/
def listtransactions (env : HistoryEnv) (history : History) (strAccount : Valtype) (nCount nFrom : Int) :
    Except Halt (List Object) :=
  if nCount < 0 then .error (.runtimeError "Negative count")
  else if nFrom < 0 then .error (.runtimeError "Negative from")
  else do
    let txOrdered := history.orderedTxItems strAccount
    let ret ← gather (fun item => item.entries env strAccount) nCount nFrom txOrdered.reverse []
    cut nCount nFrom ret

/-! ### The window -/

def newestFirst (env : HistoryEnv) (history : History) (strAccount : Valtype) : List Object :=
  (history.orderedTxItems strAccount).reverse.flatMap fun item => item.entries env strAccount

section Window

variable {ι α : Type} (entries : ι → List α)

/-- The elements from a position on, so many of them, in reverse. -/
def window (nCount nFrom : Int) (list : List α) : List α := ((list.drop nFrom.toNat).take nCount.toNat).reverse

/-- **The loop and the cut agree with the window**: there are no items; or the sum is an `int` and there are
fewer entries, or at some number of the newest items the entries, counted as an `int`, are as many, or none
is returned and the number of all entries is not negative as an `int`. -/
def Counts (nCount nFrom : Int) (list : List ι) : Prop :=
  list = [] ∨ nCount + nFrom ≤ INT_MAX ∧
    (((list.flatMap entries).length : Int) < nCount + nFrom ∨
      (∃ newest, newest ≠ [] ∧ newest <+: list ∧ nCount + nFrom ≤ toInt (newest.flatMap entries).length) ∨
      nCount = 0 ∧ 0 ≤ toInt (list.flatMap entries).length)

variable {entries} {nCount nFrom : Int} {list : List ι} {ret : List α}

theorem addInt_of_le (hcount : 0 ≤ nCount) (hfrom : 0 ≤ nFrom) (h : nCount + nFrom ≤ INT_MAX) :
    addInt nCount nFrom = .ok (nCount + nFrom) :=
  if_pos ⟨by omega, h⟩

theorem toInt_of_lt {size : Nat} (h : size < 2 ^ 31) : toInt size = size :=
  Int.bmod_eq_of_le (by omega) (by omega)

theorem toInt_le (size : Nat) : toInt size ≤ size := by
  unfold toInt Int.bmod
  dsimp only
  split <;> omega

theorem toInt_lt (size : Nat) : toInt size < 2 ^ 31 := Int.bmod_lt (m := 2 ^ 32) (by decide)

theorem le_toInt (size : Nat) : -2 ^ 31 ≤ toInt size := Int.le_bmod (m := 2 ^ 32) (by decide)

/-- What is left of an array behind a position of its part that is an `int`. -/
theorem bmod_sub {size : Nat} {n : Int} (hlow : 0 ≤ n) (hhigh : n ≤ toInt size) :
    ((size : Int) - n).bmod (2 ^ 32) = toInt size - n := by
  have hlt := toInt_lt size
  have hsub : ((size : Int) - n).bmod (2 ^ 32) = (toInt size - n).bmod (2 ^ 32) := Int.bmod_sub_bmod.symm
  have hbelow : -((2 ^ 32 : Nat) : Int) / 2 ≤ toInt size - n := by omega
  have habove : toInt size - n < (((2 ^ 32 : Nat) : Int) + 1) / 2 := by omega
  rw [hsub]
  exact Int.bmod_eq_of_le hbelow habove

/-- **What is gathered**: the entries of the newest items, up to the first number of them that is enough. -/
theorem gather_spec (hcount : 0 ≤ nCount) (hfrom : 0 ≤ nFrom) (h : nCount + nFrom ≤ INT_MAX) (ret : List α) :
    ∃ newest rest, list = newest ++ rest ∧
      gather entries nCount nFrom list ret = .ok (ret ++ newest.flatMap entries) ∧
      (newest ≠ [] ∧ nCount + nFrom ≤ toInt (ret ++ newest.flatMap entries).length ∨
        rest = [] ∧ ∀ some, some ≠ [] → some <+: list →
          toInt (ret ++ some.flatMap entries).length < nCount + nFrom) := by
  induction list generalizing ret with
  | nil =>
    refine ⟨[], [], rfl, by simp [gather], .inr ⟨rfl, fun some hne hprefix => ?_⟩⟩
    exact absurd (List.prefix_nil.mp hprefix) hne
  | cons item list ih =>
    rw [gather, addInt_of_le hcount hfrom h]
    dsimp only
    by_cases henough : toInt (ret ++ entries item).length ≥ nCount + nFrom
    · rw [if_pos henough]
      exact ⟨[item], list, rfl, by simp, .inl ⟨by simp, by simpa using henough⟩⟩
    · rw [if_neg henough]
      obtain ⟨newest, rest, rfl, hgather, hstop⟩ := ih (ret ++ entries item)
      have hflat : ∀ items : List ι, ret ++ entries item ++ items.flatMap entries =
          ret ++ (item :: items).flatMap entries := fun items => by
        rw [List.flatMap_cons, List.append_assoc]
      simp only [hflat] at hgather hstop
      refine ⟨item :: newest, rest, rfl, hgather, ?_⟩
      rcases hstop with ⟨-, hreach⟩ | ⟨rfl, hnone⟩
      · exact .inl ⟨List.cons_ne_nil _ _, hreach⟩
      · refine .inr ⟨rfl, fun some hne hprefix => ?_⟩
        cases some with
        | nil => exact absurd rfl hne
        | cons other some =>
          obtain ⟨rfl, hrest⟩ := List.cons_prefix_cons.mp hprefix
          by_cases hsome : some = []
          · subst hsome
            simpa using henough
          · exact hnone some hsome hrest

theorem ok_bind {β γ : Type} (b : β) (f : β → Except Halt γ) : (Except.ok b >>= f) = f b := rfl

theorem advance_of_le {n : Int} (hlow : 0 ≤ n) (hhigh : n ≤ ret.length) : advance ret n = .ok n.toNat :=
  if_pos ⟨hlow, hhigh⟩

theorem erase_eq (hcount : 0 ≤ nCount) (hfrom : 0 ≤ nFrom) (hsize : nCount + nFrom ≤ ret.length)
    (hmax : nCount + nFrom ≤ INT_MAX) :
    (do
      let first ← advance ret nFrom
      let last ← advance ret (← addInt nFrom nCount)
      let ret := ret.take last
      if first ≤ ret.length then .ok (ret.drop first).reverse else .error .undefined) =
      (.ok (window nCount nFrom ret) : Except Halt (List α)) := by
  have hsum : addInt nFrom nCount = .ok (nFrom + nCount) := addInt_of_le hfrom hcount (by omega)
  rw [hsum, advance_of_le hfrom (by omega)]
  simp only [bind, Except.bind]
  rw [advance_of_le (by omega) (by omega)]
  dsimp only
  rw [if_pos (by rw [List.length_take]; omega), window, List.drop_take, Int.toNat_add hfrom hcount,
    Nat.add_sub_cancel_left]

theorem cut_of_le (hcount : 0 ≤ nCount) (hfrom : 0 ≤ nFrom) (hmax : nCount + nFrom ≤ INT_MAX)
    (hsize : nCount + nFrom ≤ toInt ret.length) : cut nCount nFrom ret = .ok (window nCount nFrom ret) := by
  have hle := toInt_le ret.length
  have hsum : addInt nFrom nCount = .ok (nFrom + nCount) := addInt_of_le hfrom hcount (by omega)
  have herase := @erase_eq _ nCount nFrom ret hcount hfrom (by omega) hmax
  unfold cut
  dsimp only
  rw [if_neg (show ¬ nFrom > toInt ret.length by omega), hsum, ok_bind,
    if_neg (show ¬ nFrom + nCount > toInt ret.length by omega)]
  exact herase

/-- The cut of an array with less entries, which are an `int`. -/
theorem cut_of_lt (hcount : 0 ≤ nCount) (hfrom : 0 ≤ nFrom) (hsize : toInt ret.length < nCount + nFrom)
    (hmax : nCount + min nFrom (toInt ret.length) ≤ INT_MAX) (hpos : 0 ≤ toInt ret.length) :
    cut nCount nFrom ret =
      .ok (window (toInt ret.length - min nFrom (toInt ret.length)) (min nFrom (toInt ret.length)) ret) := by
  have hle := toInt_le ret.length
  have hlt := toInt_lt ret.length
  have hclamp : (if nFrom > toInt ret.length then toInt ret.length else nFrom) = min nFrom (toInt ret.length) := by
    split <;> omega
  have hrest := @bmod_sub ret.length _ (le_min hfrom hpos) (min_le_right nFrom (toInt ret.length))
  generalize hfirst : min nFrom (toInt ret.length) = nFirst at *
  have hsum : addInt nFirst nCount = .ok (nFirst + nCount) := addInt_of_le (by omega) hcount (by omega)
  have hnew : (if nFirst + nCount > toInt ret.length then ((ret.length : Int) - nFirst).bmod (2 ^ 32) else nCount) =
      toInt ret.length - nFirst := by
    rw [hrest]
    split <;> omega
  have herase := @erase_eq _ (toInt ret.length - nFirst) nFirst ret (by omega) (by omega) (by omega) (by
    rw [INT_MAX]
    omega)
  unfold cut
  dsimp only
  rw [hclamp, hsum, ok_bind, hnew]
  exact herase

/-- The cut of an array whose size is negative as an `int`. -/
theorem cut_of_neg (hcount : 0 ≤ nCount) (hmax : nCount ≤ INT_MAX) (hfrom : 0 ≤ nFrom)
    (hneg : toInt ret.length < 0) : cut nCount nFrom ret = .error .undefined := by
  have hlow := le_toInt ret.length
  have hsum : addInt (toInt ret.length) nCount = .ok (toInt ret.length + nCount) := if_pos ⟨by omega, by omega⟩
  have hoff : advance ret (toInt ret.length) = .error .undefined := if_neg (by omega)
  unfold cut
  dsimp only
  rw [if_pos (show nFrom > toInt ret.length by omega), hsum, hoff]
  rfl

/-! ### The result -/

theorem window_prefix {prefix_ whole : List α} (h : prefix_ <+: whole) (hcount : 0 ≤ nCount) (hfrom : 0 ≤ nFrom)
    (hsize : nCount + nFrom ≤ prefix_.length) : window nCount nFrom prefix_ = window nCount nFrom whole := by
  obtain ⟨rest, rfl⟩ := h
  rw [window, window, List.drop_append_of_le_length (by omega), List.take_append_of_le_length]
  rw [List.length_drop]
  omega

theorem length_window (list : List α) :
    (window nCount nFrom list).length = min nCount.toNat (list.length - nFrom.toNat) := by
  rw [window, List.length_reverse, List.length_take, List.length_drop]

theorem window_of_le {n : Int} (hfrom : 0 ≤ nFrom) (hcount : (ret.length : Int) ≤ nCount + nFrom)
    (hn : (ret.length : Int) ≤ n + min nFrom ret.length) :
    window n (min nFrom ret.length) ret = window nCount nFrom ret := by
  have hall : ∀ {a b : Int}, (ret.length : Int) ≤ a + b → 0 ≤ b → window a b ret = (ret.drop b.toNat).reverse := by
    intro a b hle hb
    rw [window, List.take_of_length_le]
    rw [List.length_drop]
    omega
  rw [hall hn (by omega), hall hcount hfrom]
  rcases le_total nFrom ret.length with hle | hge
  · rw [min_eq_left hle]
  · rw [min_eq_right hge, List.drop_of_length_le (by omega), List.drop_of_length_le (by omega)]

theorem gather_cut_nil (hcount : 0 ≤ nCount) (hcountMax : nCount ≤ INT_MAX) (hfrom : 0 ≤ nFrom) :
    gather entries nCount nFrom [] [] >>= cut nCount nFrom = .ok [] := by
  have hzero : toInt ([] : List α).length = 0 := toInt_of_lt (by simp)
  rw [gather, ok_bind]
  by_cases hsum : nCount + nFrom ≤ 0
  · have hmax : nCount + nFrom ≤ INT_MAX := hsum.trans (by decide)
    rw [cut_of_le hcount hfrom hmax (by rw [hzero]; exact hsum)]
    simp [window]
  · rw [cut_of_lt hcount hfrom (by rw [hzero]; omega) (by rw [hzero]; omega) hzero.ge]
    simp [window]

theorem gather_cut_iff (hcount : 0 ≤ nCount) (hcountMax : nCount ≤ INT_MAX) (hfrom : 0 ≤ nFrom)
    (list : List ι) :
    gather entries nCount nFrom list [] >>= cut nCount nFrom = .ok (window nCount nFrom (list.flatMap entries)) ↔
      Counts entries nCount nFrom list := by
  by_cases hnil : list = []
  · subst hnil
    exact iff_of_true ((gather_cut_nil hcount hcountMax hfrom).trans (by simp [window])) (.inl rfl)
  by_cases hmax : nCount + nFrom ≤ INT_MAX
  · obtain ⟨newest, rest, hlist, hgather, hstop⟩ := @gather_spec _ _ entries _ _ list hcount hfrom hmax []
    simp only [List.nil_append] at hgather hstop
    rw [hgather, ok_bind]
    rcases hstop with ⟨hne, hreach⟩ | ⟨rfl, hnone⟩
    · -- enough entries, so that the window is in what was gathered
      have hprefix : newest.flatMap entries <+: list.flatMap entries :=
        ⟨rest.flatMap entries, by rw [hlist, List.flatMap_append]⟩
      have hle := toInt_le (newest.flatMap entries).length
      rw [cut_of_le hcount hfrom hmax hreach, window_prefix hprefix hcount hfrom (by omega)]
      exact iff_of_true rfl (.inr ⟨hmax, .inr (.inl ⟨newest, hne, ⟨rest, hlist.symm⟩, hreach⟩)⟩)
    · -- never enough: all the entries were gathered
      rw [List.append_nil] at hlist
      subst hlist
      have hless := hnone list hnil List.prefix_rfl
      have hsome : ¬ ∃ newest, newest ≠ [] ∧ newest <+: list ∧
          nCount + nFrom ≤ toInt (newest.flatMap entries).length := by
        rintro ⟨some, hne, hprefix, hle⟩
        have := hnone some hne hprefix
        omega
      simp only [Counts, hnil, false_or, hmax, true_and, hsome]
      generalize list.flatMap entries = ret at hless
      have hle := toInt_le ret.length
      by_cases hneg : toInt ret.length < 0
      · rw [cut_of_neg hcount hcountMax hfrom hneg]
        refine iff_of_false nofun ?_
        rintro (hfew | ⟨-, hpos⟩)
        · rw [toInt_of_lt (by rw [INT_MAX] at hmax; omega)] at hneg
          omega
        · omega
      · rw [cut_of_lt hcount hfrom hless (by omega) (by omega)]
        by_cases hfew : (ret.length : Int) < nCount + nFrom
        · have hsize : toInt ret.length = ret.length := toInt_of_lt (by rw [INT_MAX] at hmax; omega)
          rw [hsize, @window_of_le _ nCount nFrom ret (ret.length - min nFrom ret.length) hfrom (by omega) (by omega)]
          exact iff_of_true rfl (.inl hfew)
        · simp only [hfew, false_or]
          constructor
          · intro heq
            have hlen := congrArg List.length (Except.ok.inj heq)
            rw [length_window, length_window] at hlen
            generalize toInt ret.length = size at *
            generalize ret.length = length at *
            clear heq
            exact ⟨by omega, by omega⟩
          · rintro ⟨rfl, hpos⟩
            have hfirst : min nFrom (toInt ret.length) = toInt ret.length := by omega
            rw [hfirst, Int.sub_self]
            simp [window]
  · refine iff_of_false ?_ ?_
    · cases list with
      | nil => exact absurd rfl hnil
      | cons item list =>
        have hover : addInt nCount nFrom = .error .overflow := if_neg fun h => hmax h.2
        rw [gather, hover]
        nofun
    · rintro (hempty | ⟨hle, -⟩)
      · exact hnil hempty
      · exact hmax hle

theorem counts_iff_of_lt (hfew : (list.flatMap entries).length < 2 ^ 31) :
    Counts entries nCount nFrom list ↔ list = [] ∨ nCount + nFrom ≤ INT_MAX := by
  constructor
  · rintro (hnil | ⟨hmax, -⟩)
    · exact .inl hnil
    · exact .inr hmax
  · rintro (hnil | hmax)
    · exact .inl hnil
    · by_cases hnil : list = []
      · exact .inl hnil
      · by_cases hless : ((list.flatMap entries).length : Int) < nCount + nFrom
        · exact .inr ⟨hmax, .inl hless⟩
        · refine .inr ⟨hmax, .inr (.inl ⟨list, hnil, List.prefix_rfl, ?_⟩)⟩
          rw [toInt_of_lt hfew]
          exact not_lt.mp hless

end Window

variable {env : HistoryEnv} {history : History} {strAccount : Valtype} {nCount nFrom : Int}

/-- **The list of transactions** is the window that was asked for, the oldest first, if and only if the loop and
the cut agree with it. -/
theorem listtransactions_iff (env : HistoryEnv) (history : History) (strAccount : Valtype) (hcount : 0 ≤ nCount)
    (hcountMax : nCount ≤ INT_MAX) (hfrom : 0 ≤ nFrom) :
    listtransactions env history strAccount nCount nFrom =
        .ok (window nCount nFrom (newestFirst env history strAccount)) ↔
      Counts (fun item => item.entries env strAccount) nCount nFrom
        (history.orderedTxItems strAccount).reverse := by
  unfold listtransactions
  rw [if_neg (not_lt.mpr hcount), if_neg (not_lt.mpr hfrom)]
  exact gather_cut_iff hcount hcountMax hfrom _

/-- An entry of the account `""` at a position. -/
def sampleEntry (nOrderPos : Int) : Valtype × CAccountingEntry := ([], ⟨5, 0, [], [], ∅, nOrderPos, []⟩)

def sampleHistoryEnv : HistoryEnv :=
  ⟨id, fun _ => 0, fun _ => false, fun _ => false, fun _ => none, fun _ => [], fun _ => 0, fun _ => 0, fun _ => 0⟩

/-- Of two entries the newest one is skipped. -/
theorem listtransactions_iff_sample :
    listtransactions sampleHistoryEnv ⟨[], [sampleEntry 1, sampleEntry 2]⟩ (bytesOf "*") 1 1 =
      .ok (window 1 1 (newestFirst sampleHistoryEnv ⟨[], [sampleEntry 1, sampleEntry 2]⟩ (bytesOf "*"))) :=
  (listtransactions_iff sampleHistoryEnv ⟨[], [sampleEntry 1, sampleEntry 2]⟩ (bytesOf "*") (by decide) (by decide)
    (by decide)).mpr ((counts_iff_of_lt (by decide)).mpr (.inr (by decide)))

/-- One is skipped, and as many as can be are asked for. -/
theorem not_forall_listtransactions :
    ¬ ∀ env history strAccount nCount nFrom, 0 ≤ nCount → nCount ≤ INT_MAX → 0 ≤ nFrom → nFrom ≤ INT_MAX →
      listtransactions env history strAccount nCount nFrom =
        .ok (window nCount nFrom (newestFirst env history strAccount)) := by
  intro h
  have hok := h sampleHistoryEnv ⟨[], [sampleEntry 1]⟩ (bytesOf "*") INT_MAX 1 (by decide) le_rfl (by decide)
    (by decide)
  have hover : addInt INT_MAX 1 = .error .overflow := by decide
  unfold listtransactions at hok
  rw [if_neg (by decide), if_neg (by decide)] at hok
  have hitems : (History.orderedTxItems ⟨[], [sampleEntry 1]⟩ (bytesOf "*")).reverse =
      [Item.acentry (sampleEntry 1)] := rfl
  simp only [hitems, gather, hover] at hok
  cases hok

end Manna.ListTransactions
