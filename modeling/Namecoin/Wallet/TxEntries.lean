import Namecoin.Wallet.Listing
import Namecoin.Wallet.Prepared

namespace Namecoin

open Std (TreeMap)

structure TxNotes where
  fTimeReceivedIsTxTime : Nat
  mapValue : TreeMap StdString StdString

section Time

variable (s : NodeState)

def stepNext : Nat → CBlockIndex → Option CBlockIndex
  | 0, pindex => some pindex
  | n + 1, pindex => (pindex.pnext.bind s.mapBlockIndex).bind (stepNext n)

def getMedianTime (pindex : CBlockIndex) : Nat :=
  match stepNext s (nMedianTimeSpan / 2) pindex with
  | none => pindex.nTime
  | some last => getMedianTimePast (s.walk (some last.hashBlock))

def WalletTx.getTxTime (wtx : WalletTx) (notes : TxNotes) : Nat :=
  if notes.fTimeReceivedIsTxTime = 0 ∧ wtx.merkle.hashBlock ≠ 0 then
    match s.mapBlockIndex wtx.merkle.hashBlock with
    | some pindex => getMedianTime s pindex
    | none => wtx.nTimeReceived
  else wtx.nTimeReceived

end Time

inductive TxCategory where
  | immature
  | orphan
  | generate
  | send
  | receive
  deriving DecidableEq

structure TxDetails where
  confirmations : Int
  txid : Uint256
  time : Nat
  mapValue : List (StdString × StdString)

structure ListedTx where
  account : StdString
  address : Option StdString
  category : TxCategory
  amount : Int
  fee : Option Int
  details : Option TxDetails

inductive AccountEntry where
  | tx (entry : ListedTx)
  | move (acentry : CAccountingEntry)

structure ListEnv (env : Env) where
  e : NodeEnv
  s : NodeState
  notes : Uint256 → TxNotes

namespace Wallet

variable {env : Env} (w : Wallet env) (l : ListEnv env)

def walletTxToJson (wtx : WalletTx) : TxDetails :=
  let hash := wtx.merkle.tx.getHash env
  ⟨wtx.getDepthInMainChain l.e l.s, hash, wtx.getTxTime l.s (l.notes hash),
    (l.notes hash).mapValue.toList⟩

def shows (strAccount account : StdString) : Bool :=
  decide (strAccount = str "*" ∨ strAccount = account)

def generatedEntries (a : Amounts) (nDepth : Int) (strAccount : StdString)
    (details : Option TxDetails) : List ListedTx :=
  if a.nGeneratedMature + a.nGeneratedImmature ≠ 0 ∧ shows strAccount [] then
    if a.nGeneratedImmature ≠ 0 then
      [⟨[], none, if nDepth ≠ 0 then .immature else .orphan, a.nGeneratedImmature, none, details⟩]
    else [⟨[], none, .generate, a.nGeneratedMature, none, details⟩]
  else []

def nameAddress (tx : CTransaction) : Except Fault StdString := do
  let nTxOut ← indexOfNameOutput env tx (l.s.view l.e).pindexBestHeight
  match tx.vout[nTxOut]? with
  | none => .error .undefined
  | some txout => .ok ((extractAddress txout.scriptPubKey).getD [])

def sentEntries (wtx : WalletTx) (a : Amounts) (strAccount : StdString)
    (details : Option TxDetails) : Except Fault (List ListedTx) :=
  if (a.listSent ≠ [] ∨ a.nFee ≠ 0 ∨ a.fNameTx) ∧ shows strAccount a.strSentAccount then
    if a.listSent = [] ∨ a.fNameTx then do
      let strAddress ← if a.fNameTx then nameAddress l wtx.merkle.tx else .ok []
      pure [⟨a.strSentAccount, some strAddress, .send, 0, some (-a.nFee), details⟩]
    else
      .ok (a.listSent.map fun p =>
        ⟨a.strSentAccount, some p.1, .send, -p.2, some (-a.nFee), details⟩)
  else .ok []

def receivedEntries (a : Amounts) (nDepth nMinDepth : Int) (strAccount : StdString)
    (details : Option TxDetails) : List ListedTx :=
  if nMinDepth ≤ nDepth then
    (a.listReceived.filter fun p => shows strAccount (w.accountOf p)).map fun p =>
      ⟨w.accountOf p, some p.1, .receive, p.2, none, details⟩
  else []

def listTransactions (wtx : WalletTx) (strAccount : StdString) (nMinDepth : Int) (fLong : Bool) :
    Except Fault (List ListedTx) := do
  let a ← w.getAmounts l.e l.s wtx
  let nDepth := wtx.getDepthInMainChain l.e l.s
  let details := if fLong then some (walletTxToJson l wtx) else none
  let sent ← sentEntries l wtx a strAccount details
  pure (generatedEntries a nDepth strAccount details ++ sent ++
    w.receivedEntries a nDepth nMinDepth strAccount details)

end Wallet

def acentryToJson (acentry : CAccountingEntry) (strAccount : StdString) : List AccountEntry :=
  if Wallet.shows strAccount acentry.strAccount then [.move acentry] else []

inductive TxPair where
  | tx (wtx : WalletTx)
  | acentry (acentry : CAccountingEntry)

namespace Wallet

variable {env : Env} (w : Wallet env) (l : ListEnv env) (strAccount : StdString)

def itemTime : TxPair → Nat
  | .tx wtx => wtx.getTxTime l.s (l.notes (wtx.merkle.tx.getHash env))
  | .acentry acentry => acentry.nTime

def txByTime (acentries : List CAccountingEntry) : List TxPair :=
  (w.txs.map TxPair.tx ++ acentries.map TxPair.acentry).insertionSort fun i j =>
    itemTime l i ≤ itemTime l j

def newestFirst (b : AccountBook) : Except Fault (List TxPair) :=
  (b.listAccountCreditDebit strAccount).map fun acentries => (w.txByTime l acentries).reverse

def emit : TxPair → Except Fault (List AccountEntry)
  | .tx wtx => (w.listTransactions l wtx strAccount 0 true).map (List.map AccountEntry.tx)
  | .acentry acentry => .ok (acentryToJson acentry strAccount)

def collect (nCount : Nat) : List TxPair → List AccountEntry → Except Fault (List AccountEntry)
  | [], ret => .ok ret
  | item :: rest, ret => do
    let entries ← w.emit l strAccount item
    if nCount ≤ (ret ++ entries).length then pure (ret ++ entries)
    else collect nCount rest (ret ++ entries)

-- The comparison with ret.size() is made on unsigned numbers, so a negative count has no effect.
def countLimit (nCount : Int) : Nat := if nCount < 0 then (2 ^ 64 + nCount).toNat else nCount.toNat

def listtransactions (b : AccountBook) (nCount nFrom : Int) : Except Fault (List AccountEntry) := do
  let items ← w.newestFirst l strAccount b
  Except.raiseIf (nFrom < 0 ∨ items.length < nFrom) .undefined
  let ret ← w.collect l strAccount (countLimit nCount) (items.drop nFrom.toNat) []
  pure (ret.take (countLimit nCount)).reverse

section Pages

def emitted (item : TxPair) : List AccountEntry := (w.emit l strAccount item).toOption.getD []

def accountEntries (items : List TxPair) : List AccountEntry := items.flatMap (w.emitted l strAccount)

def PageRight (b : AccountBook) (nCount nFrom : Nat) : Prop :=
  ∃ items, w.newestFirst l strAccount b = .ok items ∧
    w.listtransactions l strAccount b nCount nFrom =
      .ok (((w.accountEntries l strAccount items).drop nFrom).take nCount).reverse

structure FromAligned (b : AccountBook) (nFrom : Nat) (items : List TxPair) : Prop where
  listed : w.newestFirst l strAccount b = .ok items
  enough : nFrom ≤ items.length
  emits : ∀ item ∈ items.drop nFrom, ∃ entries, w.emit l strAccount item = .ok entries
  skipped : (w.accountEntries l strAccount (items.take nFrom)).length = nFrom ∨
    (w.accountEntries l strAccount (items.take nFrom)).length =
      (w.accountEntries l strAccount items).length ∧ (w.accountEntries l strAccount items).length ≤ nFrom

variable {w l strAccount}

theorem accountEntries_split (items : List TxPair) (nFrom : Nat) :
    w.accountEntries l strAccount items =
      w.accountEntries l strAccount (items.take nFrom) ++ w.accountEntries l strAccount (items.drop nFrom) := by
  rw [accountEntries, accountEntries, accountEntries, ← List.flatMap_append, List.take_append_drop]

theorem collect_take {nCount : Nat} {items : List TxPair} {ret : List AccountEntry}
    (h : ∀ item ∈ items, ∃ entries, w.emit l strAccount item = .ok entries) :
    ∃ r, w.collect l strAccount nCount items ret = .ok r ∧
      r.take nCount = (ret ++ w.accountEntries l strAccount items).take nCount := by
  induction items generalizing ret with
  | nil => exact ⟨ret, rfl, by rw [accountEntries, List.flatMap_nil, List.append_nil]⟩
  | cons item items ih =>
    obtain ⟨⟨entries, hemit⟩, hrest⟩ := List.forall_mem_cons.mp h
    have hhead : w.accountEntries l strAccount (item :: items) =
        entries ++ w.accountEntries l strAccount items := by
      rw [accountEntries, List.flatMap_cons, emitted, hemit]
      rfl
    rw [collect, hemit, hhead, ← List.append_assoc]
    by_cases hfull : nCount ≤ (ret ++ entries).length
    · refine ⟨ret ++ entries, if_pos hfull, (List.take_append_of_le_length hfull).symm⟩
    · obtain ⟨r, hr, htake⟩ := @ih (ret ++ entries) hrest
      exact ⟨r, (if_neg hfull).trans hr, htake⟩

theorem collect_emits {nCount : Nat} {items : List TxPair} {ret r : List AccountEntry}
    (hcount : (ret ++ w.accountEntries l strAccount items).length < nCount)
    (h : w.collect l strAccount nCount items ret = .ok r) :
    ∀ item ∈ items, ∃ entries, w.emit l strAccount item = .ok entries := by
  induction items generalizing ret with
  | nil => simp
  | cons item items ih =>
    rw [collect] at h
    obtain ⟨entries, hemit, hrest⟩ := Except.bind_eq_ok.mp h
    have hhead : w.accountEntries l strAccount (item :: items) =
        entries ++ w.accountEntries l strAccount items := by
      rw [accountEntries, List.flatMap_cons, emitted, hemit]
      rfl
    rw [hhead, ← List.append_assoc] at hcount
    have hshort : ¬nCount ≤ (ret ++ entries).length := by
      rw [List.length_append] at hcount
      omega
    rw [if_neg hshort] at hrest
    exact List.forall_mem_cons.mpr ⟨⟨entries, hemit⟩, ih hcount hrest⟩

theorem countLimit_natCast (nCount : Nat) : countLimit nCount = nCount := by
  rw [countLimit, if_neg (by omega), Int.toNat_natCast]

theorem FromAligned.drop_eq {b : AccountBook} {nFrom : Nat} {items : List TxPair}
    (h : w.FromAligned l strAccount b nFrom items) :
    (w.accountEntries l strAccount items).drop nFrom =
      w.accountEntries l strAccount (items.drop nFrom) := by
  have hsplit : w.accountEntries l strAccount items = _ := accountEntries_split items nFrom
  rcases h.skipped with heq | ⟨hall, hle⟩
  · rw [hsplit]
    exact List.drop_left' heq
  · rw [List.drop_eq_nil_of_le hle]
    have hlen := congrArg List.length hsplit
    rw [List.length_append] at hlen
    exact (List.eq_nil_of_length_eq_zero (by omega)).symm

theorem listtransactions_ok {b : AccountBook} {items : List TxPair}
    (hitems : w.newestFirst l strAccount b = .ok items) (nCount nFrom : Nat)
    (r : List AccountEntry) :
    w.listtransactions l strAccount b nCount nFrom = .ok r ↔ nFrom ≤ items.length ∧
      ∃ ret, w.collect l strAccount nCount (items.drop nFrom) [] = .ok ret ∧
        (ret.take nCount).reverse = r := by
  rw [listtransactions, hitems, countLimit_natCast, Int.toNat_natCast, Except.bind_eq_ok]
  constructor
  · rintro ⟨items', heq, hrest⟩
    obtain rfl : items = items' := Except.ok.inj heq
    obtain ⟨_, hrange, hrest⟩ := Except.bind_eq_ok.mp hrest
    obtain ⟨ret, hcollect, hret⟩ := Except.bind_eq_ok.mp hrest
    have henough : nFrom ≤ items.length := by
      have := Except.raiseIf_eq_ok.mp hrange
      omega
    exact ⟨henough, ret, hcollect, Except.pure_eq_ok.mp hret⟩
  · rintro ⟨henough, ret, hcollect, hret⟩
    refine ⟨items, rfl, Except.bind_eq_ok.mpr ⟨(), Except.raiseIf_eq_ok.mpr (by omega), ?_⟩⟩
    exact Except.bind_eq_ok.mpr ⟨ret, hcollect, Except.pure_eq_ok.mpr hret⟩

end Pages

theorem listtransactions_pages_iff (b : AccountBook) (nFrom : Nat) :
    (∀ nCount : Nat, w.PageRight l strAccount b nCount nFrom) ↔
      ∃ items, w.FromAligned l strAccount b nFrom items := by
  constructor
  · intro h
    obtain ⟨items, hitems, -⟩ := h 0
    -- A count above the number of entries makes the scan visit every item after the first nFrom.
    obtain ⟨items', hitems', hpage⟩ := h ((w.accountEntries l strAccount items).length + 1)
    obtain rfl : items = items' := Except.ok.inj (hitems.symm.trans hitems')
    obtain ⟨henough, ret, hcollect, hret⟩ := (listtransactions_ok hitems _ nFrom _).mp hpage
    have hsplit : w.accountEntries l strAccount items = _ := accountEntries_split items nFrom
    have hlen := congrArg List.length hsplit
    rw [List.length_append] at hlen
    have hemits := collect_emits (by rw [List.nil_append]; omega) hcollect
    obtain ⟨ret', hcollect', htake⟩ := @collect_take _ w l strAccount
      ((w.accountEntries l strAccount items).length + 1) _ [] hemits
    obtain rfl : ret = ret' := Except.ok.inj (hcollect.symm.trans hcollect')
    have hsame := congrArg List.length (htake.symm.trans (List.reverse_injective hret))
    rw [List.nil_append, List.length_take, List.length_take, List.length_drop] at hsame
    exact ⟨items, hitems, henough, hemits, by omega⟩
  · rintro ⟨items, halign⟩ nCount
    obtain ⟨ret, hcollect, htake⟩ := @collect_take _ w l strAccount nCount _ [] halign.emits
    refine ⟨items, halign.listed, (listtransactions_ok halign.listed nCount nFrom _).mpr
      ⟨halign.enough, ret, hcollect, ?_⟩⟩
    rw [htake, List.nil_append, halign.drop_eq]

end Wallet

def sampleList : ListEnv sampleEnv := ⟨sampleNodeEnv, zeroNode, fun _ => ⟨0, ∅⟩⟩

def rentBook : AccountBook :=
  blankBook.writeAccountingEntry ⟨str "rent", 3 * coin, 0, str "shop", []⟩

theorem listtransactions_repeats :
    ¬fundedWallet.PageRight sampleList (str "rent") rentBook 10 1 := by
  have hpage : (fundedWallet.listtransactions sampleList (str "rent") rentBook 10 1).toOption.map
      List.length = some 1 := by decide +kernel
  have hall : (fundedWallet.newestFirst sampleList (str "rent") rentBook).toOption.map
      (fun items => (fundedWallet.accountEntries sampleList (str "rent") items).length) =
        some 1 := by decide +kernel
  rintro ⟨items, hitems, hright⟩
  rw [hitems] at hall
  have hone : (fundedWallet.accountEntries sampleList (str "rent") items).length = 1 :=
    Option.some.inj hall
  have hright : fundedWallet.listtransactions sampleList (str "rent") rentBook 10 1 = _ := hright
  rw [hright] at hpage
  have hlen := Option.some.inj hpage
  rw [List.length_reverse, List.length_take, List.length_drop, hone] at hlen
  cases hlen

end Namecoin
