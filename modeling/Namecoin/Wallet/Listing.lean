import Namecoin.Lib.OrderedMap
import Namecoin.Wallet.Accounts
import Namecoin.Wallet.NameCoins
import Namecoin.Wallet.Watch
import Namecoin.Data.RoundTrip

namespace Namecoin

open Std (TreeMap)
open Reading OrderedMap

namespace AccountBalances

theorem getD_bump (m : AccountBalances) (a account : StdString) (n : Int) :
    (m.bump account n).getD a 0 = m.getD a 0 + if account = a then n else 0 := by
  rw [bump, TreeMap.getD_insert]
  split
  · rename_i heq
    obtain rfl := Std.LawfulEqCmp.compare_eq_iff_eq.mp heq
    rw [if_pos rfl]
  · rename_i hne
    rw [if_neg (fun heq => hne (Std.LawfulEqCmp.compare_eq_iff_eq.mpr heq)), add_zero]

def total (m : AccountBalances) : Int := mapSum id m

theorem total_bump (m : AccountBalances) (account : StdString) (n : Int) :
    (m.bump account n).total = m.total + n := by
  have h := mapSum_insert (f := id) (k := account) (v := m.getD account 0 + n) m
  have hget : ((m[account]?).map id).getD 0 = m.getD account 0 := by
    rw [TreeMap.getD_eq_getD_getElem?, Option.map_id_fun, id_eq]
  rw [hget, id_eq] at h
  unfold total bump
  omega

section Fold

variable {β : Type} (account : β → StdString) (n : β → Int)

def bumpAll (l : List β) (m : AccountBalances) : AccountBalances :=
  l.foldl (fun m x => m.bump (account x) (n x)) m

theorem getD_bumpAll (a : StdString) (l : List β) (m : AccountBalances) :
    (bumpAll account n l m).getD a 0 =
      m.getD a 0 + ((l.filter (fun x => decide (account x = a))).map n).sum := by
  induction l generalizing m with
  | nil => simp [bumpAll]
  | cons x l ih =>
    have hstep : bumpAll account n (x :: l) m = bumpAll account n l (m.bump (account x) (n x)) := rfl
    rw [hstep, ih, getD_bump, List.filter_cons]
    split
    · rename_i h
      rw [if_pos (by simpa using h), List.map_cons, List.sum_cons, add_assoc]
    · rename_i h
      rw [if_neg (by simpa using h), add_zero]

theorem total_bumpAll (l : List β) (m : AccountBalances) :
    (bumpAll account n l m).total = m.total + (l.map n).sum := by
  induction l generalizing m with
  | nil => simp [bumpAll]
  | cons x l ih =>
    have hstep : bumpAll account n (x :: l) m = bumpAll account n l (m.bump (account x) (n x)) := rfl
    rw [hstep, ih, total_bump, List.map_cons, List.sum_cons, add_assoc]

end Fold

end AccountBalances

section Keys

theorem acentry_length : (str "acentry").length ≤ maxSize := by decide

theorem acentryKey_eq (strAccount : StdString) (nNumber : Nat) :
    acentryKey strAccount nNumber =
      serBytes (str "acentry") ++ (serBytes strAccount ++ leBytes 8 nNumber) := by
  rw [acentryKey, serString, List.append_assoc]

theorem leBytes_zero_le (n : Nat) {b : List UInt8} (h : b.length = n) :
    compare b (leBytes n 0) ≠ .lt := by
  induction n generalizing b with
  | zero =>
    obtain rfl := List.length_eq_zero_iff.mp h
    exact fun hlt => by cases hlt
  | succ n ih =>
    cases b with
    | nil => cases h
    | cons x b =>
      have hzero : leBytes (n + 1) 0 = 0 :: leBytes n 0 := by simp [leBytes]
      rw [hzero, List.compare_cons_cons]
      cases hx : compare x 0 with
      | lt => exact absurd (Std.compare_eq_lt.mp hx) (by simp)
      | gt => exact fun hlt => by cases hlt
      | eq => exact ih (Nat.succ.inj h)

theorem acentryKey_not_below (strAccount : StdString) (nNumber : Nat) :
    compare (acentryKey strAccount nNumber) (acentryKey strAccount 0) ≠ .lt := by
  simp only [acentryKey_eq, compare_append_left]
  exact leBytes_zero_le 8 (leBytes_length 8 nNumber)

theorem acentryKey_not_below_first (strAccount : StdString) (nNumber : Nat) :
    compare (acentryKey strAccount nNumber) (acentryKey [] 0) ≠ .lt := by
  cases strAccount with
  | nil => exact acentryKey_not_below [] nNumber
  | cons c cs =>
    obtain ⟨n, rest, hser, hpos⟩ := serBytes_cons (List.cons_ne_nil c cs)
    have hnil : serBytes ([] : VchType) = [0] := by decide
    have hgt : compare n 0 = .gt := Std.compare_eq_gt.mpr hpos
    simp only [acentryKey_eq, compare_append_left, hser, hnil, List.cons_append]
    exact compare_head hgt _ _

end Keys

def DbValue.asEntry : DbValue → Option CAccountingEntry
  | .acentry entry => some entry
  | .other => none

def DbValue.nCreditDebit : DbValue → Int
  | .acentry entry => entry.nCreditDebit
  | .other => 0

def DbValue.Filed (nLast : Nat) (ssKey : List UInt8) : DbValue → Prop
  | .acentry entry =>
    entry.strAccount.length ≤ maxSize ∧ ∃ n ≤ nLast, ssKey = acentryKey entry.strAccount n
  | .other => ∃ strType rest, strType.length ≤ maxSize ∧ strType ≠ str "acentry" ∧
      ssKey = serBytes strType ++ rest

def AccountBook.AllFiled (b : AccountBook) : Prop :=
  ∀ (k : List UInt8) (v : DbValue), b.walletdb[k]? = some v → v.Filed b.nAccountingEntryNumber k

def AccountBook.creditDebit (b : AccountBook) : Int := mapSum DbValue.nCreditDebit b.walletdb

namespace AccountBook

def wanted (strAccount : StdString) (v : DbValue) : Bool :=
  match v with
  | .acentry entry => decide (strAccount = str "*" ∨ entry.strAccount = strAccount)
  | .other => false

def entries (b : AccountBook) : List CAccountingEntry :=
  b.walletdb.toList.filterMap (fun p => p.2.asEntry)

theorem scanEntries_filed {nLast : Nat} {strAccount : StdString}
    {l : List (List UInt8 × DbValue)} (h : ∀ p ∈ l, p.2.Filed nLast p.1) :
    scanEntries (decide (strAccount = str "*")) strAccount l =
      .ok ((l.takeWhile (fun p => wanted strAccount p.2)).filterMap (fun p => p.2.asEntry)) := by
  induction l with
  | nil => rfl
  | cons p l ih =>
    obtain ⟨hp, hl⟩ := List.forall_mem_cons.mp h
    obtain ⟨k, v⟩ := p
    cases v with
    | other =>
      obtain ⟨strType, rest, hlen, hne, rfl⟩ := hp
      rw [scanEntries, reads_bytes hlen rest]
      dsimp only
      rw [if_pos hne, List.takeWhile_cons_of_neg (by simp [wanted])]
      rfl
    | acentry entry =>
      obtain ⟨hlen, n, -, rfl⟩ := hp
      rw [scanEntries, acentryKey_eq, reads_bytes acentry_length]
      dsimp only
      rw [if_neg (by simp), reads_bytes hlen]
      dsimp only
      split
      · rename_i hout
        rw [List.takeWhile_cons_of_neg]
        · rfl
        · simpa [wanted] using hout
      · rename_i hin
        rw [ih hl, List.takeWhile_cons_of_pos]
        · rfl
        · simp only [wanted, decide_eq_true_eq]
          simp only [decide_eq_true_eq, not_and, not_not] at hin
          exact or_iff_not_imp_left.mpr hin

variable {b : AccountBook}

theorem AllFiled.mem (h : b.AllFiled) {p : List UInt8 × DbValue} (hp : p ∈ b.walletdb.toList) :
    p.2.Filed b.nAccountingEntryNumber p.1 :=
  h p.1 p.2 (TreeMap.mem_toList_iff_getElem?_eq_some.mp hp)

theorem wanted_of_between {nLast : Nat} {strAccount : StdString} {x y : List UInt8 × DbValue}
    (hx : x.2.Filed nLast x.1) (hy : y.2.Filed nLast y.1) (hlt : compare x.1 y.1 = .lt)
    (hlow : compare x.1 (acentryKey (if strAccount = str "*" then [] else strAccount) 0) ≠ .lt)
    (hw : wanted strAccount y.2 = true) : wanted strAccount x.2 = true := by
  obtain ⟨k, v⟩ := x
  obtain ⟨k', v'⟩ := y
  cases v' with
  | other => cases hw
  | acentry entry' =>
    obtain ⟨hlen', n', -, rfl⟩ := hy
    simp only [wanted, decide_eq_true_eq] at hw
    simp only [acentryKey_eq] at hlt hlow
    cases v with
    | other =>
      obtain ⟨strType, rest, hlen, hne, rfl⟩ := hx
      obtain ⟨z, hz⟩ := isPrefix_of_between hlow hlt
      exact absurd (serBytes_inj acentry_length hlen hz).1.symm hne
    | acentry entry =>
      obtain ⟨hlen, n, -, rfl⟩ := hx
      simp only [wanted, decide_eq_true_eq]
      rcases Classical.em (strAccount = str "*") with hall | hone
      · exact .inl hall
      · rw [if_neg hone] at hlow
        obtain rfl := hw.resolve_left hone
        rw [← List.append_assoc] at hlow hlt
        obtain ⟨z, hz⟩ := isPrefix_of_between hlow hlt
        rw [acentryKey_eq, List.append_assoc] at hz
        exact .inr (serBytes_inj hlen' hlen (List.append_cancel_left hz)).1.symm

theorem not_below_of_wanted {nLast : Nat} {strAccount : StdString} {x : List UInt8 × DbValue}
    (hx : x.2.Filed nLast x.1) (hw : wanted strAccount x.2 = true) :
    compare x.1 (acentryKey (if strAccount = str "*" then [] else strAccount) 0) ≠ .lt := by
  obtain ⟨k, v⟩ := x
  cases v with
  | other => cases hw
  | acentry entry =>
    obtain ⟨-, n, -, rfl⟩ := hx
    simp only [wanted, decide_eq_true_eq] at hw
    split
    · exact acentryKey_not_below_first _ n
    · rename_i hone
      obtain rfl := hw.resolve_left hone
      exact acentryKey_not_below _ n

theorem AllFiled.listAccountCreditDebit (h : b.AllFiled) (strAccount : StdString) :
    b.listAccountCreditDebit strAccount =
      .ok (b.entries.filter (fun entry => decide (strAccount = str "*" ∨ entry.strAccount = strAccount))) := by
  let start := acentryKey (if strAccount = str "*" then [] else strAccount) 0
  let below : List UInt8 × DbValue → Bool := fun p => decide (compare p.1 start = .lt)
  have hordered := TreeMap.ordered_keys_toList (t := b.walletdb)
  have hbelow : b.walletdb.toList.Pairwise (fun x y => below y = true → below x = true) := by
    apply hordered.imp
    intro x y hxy hy
    exact decide_eq_true (Std.TransCmp.lt_trans hxy (of_decide_eq_true hy))
  have hinside : b.walletdb.toList.Pairwise (fun x y => wanted strAccount y.2 = true →
      below x = true ∨ wanted strAccount x.2 = true) := by
    apply hordered.imp_of_mem
    intro x y hx hy hxy hw
    cases hb : below x with
    | true => exact .inl rfl
    | false =>
      exact .inr (wanted_of_between (h.mem hx) (h.mem hy) hxy (of_decide_eq_false hb) hw)
  have hdisjoint : ∀ x ∈ b.walletdb.toList, wanted strAccount x.2 = true → below x = false := by
    intro x hx hw
    exact decide_eq_false (not_below_of_wanted (h.mem hx) hw)
  have hscan := @scanEntries_filed b.nAccountingEntryNumber strAccount
    (b.walletdb.toList.dropWhile below) (fun p hp => h.mem ((List.dropWhile_sublist _).subset hp))
  rw [range_eq_filter hbelow hinside hdisjoint] at hscan
  rw [AccountBook.listAccountCreditDebit]
  simp only [decide_eq_true_eq]
  rw [hscan, entries, List.filterMap_filter, List.filter_filterMap]
  congr 2
  funext p
  obtain ⟨k, v⟩ := p
  cases v with
  | other => rfl
  | acentry entry => simp [wanted, DbValue.asEntry, Option.filter_some]

theorem AllFiled.fresh (h : b.AllFiled) {strAccount : StdString}
    (hlen : strAccount.length ≤ maxSize) (hnext : b.nAccountingEntryNumber + 1 < 2 ^ 64) :
    b.walletdb[acentryKey strAccount (b.nAccountingEntryNumber + 1)]? = none := by
  cases hget : b.walletdb[acentryKey strAccount (b.nAccountingEntryNumber + 1)]? with
  | none => rfl
  | some v =>
    have hv := h _ v hget
    rw [acentryKey_eq] at hv
    cases v with
    | other =>
      obtain ⟨strType, rest, hlen', hne, hkey⟩ := hv
      exact absurd (serBytes_inj acentry_length hlen' hkey).1.symm hne
    | acentry entry =>
      obtain ⟨hlen', n, hn, hkey⟩ := hv
      rw [acentryKey_eq] at hkey
      obtain ⟨-, hnum⟩ := serBytes_inj hlen hlen' (List.append_cancel_left hkey)
      have hle := congrArg leNat hnum
      rw [leNat_leBytes_of_lt (by norm_num at hnext ⊢; omega),
        leNat_leBytes_of_lt (by norm_num at hnext ⊢; omega)] at hle
      omega

theorem AllFiled.writeAccountingEntry (h : b.AllFiled) {acentry : CAccountingEntry}
    (hlen : acentry.strAccount.length ≤ maxSize) (hnext : b.nAccountingEntryNumber + 1 < 2 ^ 64) :
    (b.writeAccountingEntry acentry).AllFiled ∧
      (b.writeAccountingEntry acentry).creditDebit = b.creditDebit + acentry.nCreditDebit ∧
      (b.writeAccountingEntry acentry).nAccountingEntryNumber = b.nAccountingEntryNumber + 1 := by
  have hnum : (b.nAccountingEntryNumber + 1) % 2 ^ 64 = b.nAccountingEntryNumber + 1 :=
    Nat.mod_eq_of_lt hnext
  have hwrite : b.writeAccountingEntry acentry =
      ⟨b.walletdb.insert (acentryKey acentry.strAccount (b.nAccountingEntryNumber + 1))
        (.acentry acentry), b.nAccountingEntryNumber + 1⟩ := by
    simp only [AccountBook.writeAccountingEntry, hnum]
  rw [hwrite]
  refine ⟨?_, ?_, rfl⟩
  · intro k v hget
    rw [keyMap_insert] at hget
    split at hget
    · rename_i heq
      cases hget
      exact ⟨hlen, _, le_refl _, heq.symm⟩
    · have hv := h k v hget
      cases v with
      | other => exact hv
      | acentry entry =>
        obtain ⟨hlen', n, hn, hkey⟩ := hv
        exact ⟨hlen', n, Nat.le_succ_of_le hn, hkey⟩
  · have hsum := mapSum_insert (f := DbValue.nCreditDebit) (v := .acentry acentry)
      (k := acentryKey acentry.strAccount (b.nAccountingEntryNumber + 1)) b.walletdb
    rw [h.fresh hlen hnext] at hsum
    simpa [creditDebit, DbValue.nCreditDebit] using hsum

theorem accountFromValue_eq {account strAccount : StdString}
    (h : accountFromValue account = .ok strAccount) : strAccount = account := by
  unfold accountFromValue at h
  split at h
  · cases h
  · exact (Except.ok.inj h).symm

theorem AllFiled.movecmd {b' : AccountBook} {c : MoveCmd} (h : b.AllFiled)
    (hnext : b.nAccountingEntryNumber + 2 < 2 ^ 64) (hmove : movecmd c b = .ok b') :
    b'.AllFiled ∧ b'.creditDebit = b.creditDebit ∧
      b'.nAccountingEntryNumber = b.nAccountingEntryNumber + 2 := by
  obtain ⟨strFrom, hfrom, hmove⟩ := Except.bind_eq_ok.mp hmove
  obtain ⟨strTo, hto, hmove⟩ := Except.bind_eq_ok.mp hmove
  obtain ⟨nAmount, -, hmove⟩ := Except.bind_eq_ok.mp hmove
  obtain rfl := accountFromValue_eq hfrom
  obtain rfl := accountFromValue_eq hto
  obtain ⟨h1, hsum1, hnum1⟩ := @AllFiled.writeAccountingEntry b h
    ⟨c.strFrom, -nAmount, c.nNow, c.strTo, c.strComment⟩ c.fits.1 (by omega)
  obtain ⟨h2, hsum2, hnum2⟩ := @AllFiled.writeAccountingEntry _ h1
    ⟨c.strTo, nAmount, c.nNow, c.strFrom, c.strComment⟩ c.fits.2 (by omega)
  obtain rfl := Except.ok.inj hmove
  refine ⟨h2, ?_, by rw [hnum2, hnum1]⟩
  rw [hsum2, hsum1]
  dsimp only
  omega

theorem AllFiled.runMoves (h : b.AllFiled) {cs : List MoveCmd}
    (hnext : b.nAccountingEntryNumber + 2 * cs.length < 2 ^ 64) :
    (runMoves cs b).AllFiled ∧ (runMoves cs b).creditDebit = b.creditDebit := by
  induction cs generalizing b with
  | nil => exact ⟨h, rfl⟩
  | cons c cs ih =>
    rw [List.length_cons] at hnext
    change (Namecoin.runMoves cs ((Namecoin.movecmd c b).toOption.getD b)).AllFiled ∧
      (Namecoin.runMoves cs ((Namecoin.movecmd c b).toOption.getD b)).creditDebit = b.creditDebit
    cases hmove : Namecoin.movecmd c b with
    | error fault => exact ih (b := b) h (by omega)
    | ok b' =>
      obtain ⟨h', hsum, hnum⟩ := h.movecmd (by omega) hmove
      obtain ⟨hrun, hrunSum⟩ := ih h' (by omega)
      exact ⟨hrun, hrunSum.trans hsum⟩

structure Blank (b : AccountBook) : Prop where
  others : ∀ (k : List UInt8) (v : DbValue), b.walletdb[k]? = some v → v = .other ∧
    ∃ strType rest, strType.length ≤ maxSize ∧ strType ≠ str "acentry" ∧
      k = serBytes strType ++ rest
  unnumbered : b.nAccountingEntryNumber = 0

theorem Blank.filed (h : b.Blank) : b.AllFiled ∧ b.creditDebit = 0 := by
  constructor
  · intro k v hget
    obtain ⟨rfl, hkey⟩ := h.others k v hget
    exact hkey
  · apply List.sum_eq_zero
    intro n hn
    obtain ⟨p, hp, rfl⟩ := List.mem_map.mp hn
    rw [(h.others p.1 p.2 (TreeMap.mem_toList_iff_getElem?_eq_some.mp hp)).1]
    rfl

theorem entries_creditDebit (b : AccountBook) :
    (b.entries.map CAccountingEntry.nCreditDebit).sum = b.creditDebit := by
  unfold entries creditDebit mapSum
  induction b.walletdb.toList with
  | nil => rfl
  | cons p l ih =>
    obtain ⟨k, v⟩ := p
    cases v with
    | other => simpa [DbValue.asEntry, DbValue.nCreditDebit] using ih
    | acentry entry => simpa [DbValue.asEntry, DbValue.nCreditDebit] using ih

end AccountBook

structure Posting where
  amounts : Amounts
  isFinal : Bool
  nDepth : Int

namespace Posting

def sent (p : Posting) : Int := (p.amounts.listSent.map Prod.snd).sum + p.amounts.nFee

def deep (p : Posting) (nMinDepth : Int) : Bool := decide (nMinDepth ≤ p.nDepth)

end Posting

namespace Wallet

variable {env : Env} (w : Wallet env) (e : NodeEnv) (s : NodeState)

def posting (wtx : WalletTx) : Except Fault Posting := do
  let a ← w.getAmounts e s wtx
  pure ⟨a, wtx.merkle.tx.isFinalNow e s, wtx.getDepthInMainChain e s⟩

def postings : Except Fault (List Posting) := w.txs.mapM (w.posting e s)

def receivedIn (strAccount : StdString) (p : Posting) : Int :=
  ((p.amounts.listReceived.filter (w.receivedBy strAccount)).map Prod.snd).sum

def listed (nMinDepth : Int) (strAccount : StdString) (p : Posting) : Int :=
  (if p.deep nMinDepth then
      (if strAccount = [] then p.amounts.nGeneratedMature else 0) + w.receivedIn strAccount p
    else 0) - if strAccount = p.amounts.strSentAccount then p.sent else 0

def skew (nMinDepth : Int) (strAccount : StdString) (p : Posting) : Int :=
  if ¬p.isFinal then w.listed nMinDepth strAccount p
  else if strAccount = [] ∧ ¬p.deep nMinDepth then -p.amounts.nGeneratedMature
  else 0

def listedTotal (nMinDepth : Int) (p : Posting) : Int :=
  (if p.deep nMinDepth then
      p.amounts.nGeneratedMature + (p.amounts.listReceived.map Prod.snd).sum
    else 0) - p.sent

def skewTotal (nMinDepth : Int) (p : Posting) : Int :=
  if ¬p.isFinal then listedTotal nMinDepth p
  else if ¬p.deep nMinDepth then -p.amounts.nGeneratedMature
  else 0

section Postings

variable {w e s} {nMinDepth : Int} {strAccount : StdString} {wtx : WalletTx} {p : Posting}

theorem posting_eq (h : w.posting e s wtx = .ok p) :
    w.getAmounts e s wtx = .ok p.amounts ∧ p.isFinal = wtx.merkle.tx.isFinalNow e s ∧
      p.nDepth = wtx.getDepthInMainChain e s := by
  obtain ⟨a, ha, h⟩ := Except.bind_eq_ok.mp h
  cases h
  exact ⟨ha, rfl, rfl⟩

theorem accountTx_posting (h : w.posting e s wtx = .ok p) :
    w.accountTx e s strAccount nMinDepth wtx =
      .ok (w.listed nMinDepth strAccount p - w.skew nMinDepth strAccount p) := by
  obtain ⟨ha, hfinal, hdepth⟩ := posting_eq h
  cases hf : p.isFinal with
  | false =>
    rw [accountTx, ← hfinal, hf, if_pos (by simp), skew, hf, if_pos (by simp), sub_self]
  | true =>
    have hamounts : w.getAccountAmounts e s strAccount wtx =
        .ok ⟨if strAccount = [] then p.amounts.nGeneratedMature else 0, w.receivedIn strAccount p,
          if strAccount = p.amounts.strSentAccount then (p.amounts.listSent.map Prod.snd).sum else 0,
          if strAccount = p.amounts.strSentAccount then p.amounts.nFee else 0⟩ := by
      rw [getAccountAmounts, ha]
      rfl
    have hskew : w.skew nMinDepth strAccount p =
        if strAccount = [] ∧ ¬p.deep nMinDepth then -p.amounts.nGeneratedMature else 0 := by
      rw [skew, hf, if_neg (by simp)]
    rw [accountTx, ← hfinal, hf, if_neg (by simp), hamounts, ← hdepth, hskew, listed]
    refine congrArg Except.ok ?_
    dsimp only
    rcases Classical.em (nMinDepth ≤ p.nDepth) with hdeep | hshallow
    · have hreceived : (if w.receivedIn strAccount p ≠ 0 ∧ nMinDepth ≤ p.nDepth then
          w.receivedIn strAccount p else 0) = w.receivedIn strAccount p := by
        split <;> omega
      rw [hreceived]
      simp only [Posting.deep, Posting.sent, hdeep, decide_true, if_true, not_true_eq_false,
        and_false, if_false]
      split_ifs <;> omega
    · rw [if_neg (fun h => hshallow h.2)]
      simp only [Posting.deep, Posting.sent, hshallow, decide_false, Bool.false_eq_true, if_false,
        not_false_eq_true, and_true]
      split_ifs <;> omega

theorem totalTx_posting (h : w.posting e s wtx = .ok p) :
    w.totalTx e s nMinDepth wtx = .ok (listedTotal nMinDepth p - skewTotal nMinDepth p) := by
  obtain ⟨ha, hfinal, hdepth⟩ := posting_eq h
  cases hf : p.isFinal with
  | false =>
    rw [totalTx, ← hfinal, hf, if_pos (by simp), skewTotal, hf, if_pos (by simp), sub_self]
  | true =>
    have hskew : skewTotal nMinDepth p =
        if ¬p.deep nMinDepth then -p.amounts.nGeneratedMature else 0 := by
      rw [skewTotal, hf, if_neg (by simp)]
    rw [totalTx, ← hfinal, hf, if_neg (by simp), ha, ← hdepth, hskew, listedTotal]
    refine congrArg Except.ok ?_
    rcases Classical.em (nMinDepth ≤ p.nDepth) with hdeep | hshallow
    · simp only [Posting.deep, Posting.sent, hdeep, decide_true, if_true, not_true_eq_false, if_false]
      omega
    · simp only [Posting.deep, Posting.sent, hshallow, decide_false, Bool.false_eq_true, if_false,
        not_false_eq_true, if_true]
      omega

theorem mapM_postings {f : WalletTx → Except Fault Int} {g : Posting → Int} {l : List WalletTx}
    {ps : List Posting} (hf : ∀ wtx p, w.posting e s wtx = .ok p → f wtx = .ok (g p))
    (h : l.mapM (w.posting e s) = .ok ps) : l.mapM f = .ok (ps.map g) :=
  Except.mapM_eq_ok.mpr (List.forall₂_map_right_iff.mpr
    ((Except.mapM_eq_ok.mp h).imp fun wtx p => hf wtx p))

theorem listTxs_postings {l : List WalletTx} {ps : List Posting}
    (h : l.mapM (w.posting e s) = .ok ps) (m : AccountBalances) :
    w.listTxs e s nMinDepth l m =
      .ok (ps.foldl (fun m p => w.listAmounts nMinDepth p.nDepth p.amounts m) m) := by
  induction l generalizing ps m with
  | nil =>
    cases h
    rfl
  | cons wtx l ih =>
    rw [List.mapM_cons] at h
    obtain ⟨p, hp, h⟩ := Except.bind_eq_ok.mp h
    obtain ⟨ps', hps, h⟩ := Except.bind_eq_ok.mp h
    cases h
    obtain ⟨ha, -, hdepth⟩ := posting_eq hp
    rw [listTxs, ha, ← hdepth]
    exact ih hps _

end Postings

section Listing

open AccountBalances

variable {w e s} {nMinDepth nDepth : Int} {a : Amounts}

def accountOf (r : StdString × Int) : StdString := (w.mapAddressBook[r.1]?).getD []

theorem listReceivedIn_eq (m : AccountBalances) (r : StdString × Int) :
    w.listReceivedIn m r = m.bump (w.accountOf r) r.2 := by
  unfold listReceivedIn accountOf
  cases w.mapAddressBook[r.1]? <;> rfl

theorem receivedBy_eq (strAccount : StdString) :
    w.receivedBy strAccount = fun r => decide (w.accountOf r = strAccount) := by
  funext r
  unfold receivedBy accountOf
  cases w.mapAddressBook[r.1]? with
  | some account => rfl
  | none => exact decide_eq_decide.mpr eq_comm

theorem listAmounts_eq (m : AccountBalances) :
    w.listAmounts nMinDepth nDepth a m =
      let m := bumpAll (fun _ => a.strSentAccount) (fun p => -p.2) a.listSent
        (m.bump a.strSentAccount (-a.nFee))
      if nMinDepth ≤ nDepth then
        bumpAll w.accountOf Prod.snd a.listReceived (m.bump [] a.nGeneratedMature)
      else m := by
  have hfun : w.listReceivedIn = fun m r => m.bump (w.accountOf r) r.2 := by
    funext m r
    exact listReceivedIn_eq m r
  rw [listAmounts, hfun]
  rfl

theorem sum_map_neg_snd (l : List (StdString × Int)) :
    (l.map (fun p => -p.2)).sum = -(l.map Prod.snd).sum := by
  induction l with
  | nil => rfl
  | cons p l ih =>
    simp only [List.map_cons, List.sum_cons, ih]
    omega

theorem getD_listAmounts (m : AccountBalances) (strAccount : StdString) (p : Posting) :
    (w.listAmounts nMinDepth p.nDepth p.amounts m).getD strAccount 0 =
      m.getD strAccount 0 + w.listed nMinDepth strAccount p := by
  have hsent : ((p.amounts.listSent.filter
      (fun _ => decide (p.amounts.strSentAccount = strAccount))).map (fun q => -q.2)).sum =
        if strAccount = p.amounts.strSentAccount then -(p.amounts.listSent.map Prod.snd).sum
        else 0 := by
    rcases Classical.em (strAccount = p.amounts.strSentAccount) with rfl | hne
    · simp [sum_map_neg_snd]
    · simp [hne, Ne.symm hne]
  rw [listAmounts_eq, listed, receivedIn, receivedBy_eq, Posting.deep, Posting.sent]
  simp only [decide_eq_true_eq]
  split
  · rw [getD_bumpAll, getD_bump, getD_bumpAll, getD_bump, hsent]
    simp only [eq_comm (a := ([] : StdString)), eq_comm (a := p.amounts.strSentAccount)]
    split_ifs <;> omega
  · rw [getD_bumpAll, getD_bump, hsent]
    simp only [eq_comm (a := p.amounts.strSentAccount)]
    split_ifs <;> omega

theorem total_listAmounts (m : AccountBalances) (p : Posting) :
    (w.listAmounts nMinDepth p.nDepth p.amounts m).total = m.total + listedTotal nMinDepth p := by
  rw [listAmounts_eq, listedTotal, Posting.deep, Posting.sent]
  simp only [decide_eq_true_eq]
  split
  · rw [total_bumpAll, total_bump, total_bumpAll, total_bump, sum_map_neg_snd]
    omega
  · rw [total_bumpAll, total_bump, sum_map_neg_snd]
    omega

def Blank (m : AccountBalances) : Prop := (∀ strAccount, m.getD strAccount 0 = 0) ∧ m.total = 0

theorem Blank.insert {m : AccountBalances} (h : Blank m) (strAccount : StdString) :
    Blank (m.insert strAccount 0) := by
  have hbump : m.insert strAccount 0 = m.bump strAccount 0 := by
    rw [AccountBalances.bump, h.1, add_zero]
  rw [hbump]
  refine ⟨?_, by rw [total_bump, h.2, add_zero]⟩
  intro a
  rw [getD_bump, h.1, zero_add, ite_self]

theorem listAddressBook_blank : Blank w.listAddressBook := by
  unfold listAddressBook
  apply List.foldlRecOn (motive := Blank)
  · exact ⟨fun _ => rfl, rfl⟩
  · intro m hm entry _
    split
    · exact hm.insert entry.2
    · exact hm

theorem listPostings (ps : List Posting) (m : AccountBalances) :
    (∀ strAccount, (ps.foldl (fun m p => w.listAmounts nMinDepth p.nDepth p.amounts m) m).getD
        strAccount 0 = m.getD strAccount 0 + (ps.map (w.listed nMinDepth strAccount)).sum) ∧
      AccountBalances.total (ps.foldl (fun m p => w.listAmounts nMinDepth p.nDepth p.amounts m) m) =
        m.total + (ps.map (listedTotal nMinDepth)).sum := by
  induction ps generalizing m with
  | nil => simp
  | cons p ps ih =>
    obtain ⟨hget, htotal⟩ := ih (w.listAmounts nMinDepth p.nDepth p.amounts m)
    refine ⟨?_, ?_⟩
    · intro strAccount
      rw [List.foldl_cons, hget, getD_listAmounts, List.map_cons, List.sum_cons, add_assoc]
    · rw [List.foldl_cons, htotal, total_listAmounts, List.map_cons, List.sum_cons, add_assoc]

variable {b : AccountBook} {ps : List Posting}

theorem listaccounts_postings (hb : b.AllFiled) (hps : w.postings e s = .ok ps) :
    ∃ m, w.listaccounts e s b nMinDepth = .ok m ∧
      (∀ strAccount, m.getD strAccount 0 = (ps.map (w.listed nMinDepth strAccount)).sum +
        ((b.entries.filter (fun entry => decide (entry.strAccount = strAccount))).map
          CAccountingEntry.nCreditDebit).sum) ∧
      AccountBalances.total m = (ps.map (listedTotal nMinDepth)).sum + b.creditDebit := by
  have hall : b.listAccountCreditDebit (str "*") = .ok b.entries := by
    rw [hb.listAccountCreditDebit]
    simp
  obtain ⟨hget, htotal⟩ := @listPostings env w nMinDepth ps w.listAddressBook
  obtain ⟨hblank, hzero⟩ := listAddressBook_blank (w := w)
  refine ⟨bumpAll CAccountingEntry.strAccount CAccountingEntry.nCreditDebit b.entries
    (ps.foldl (fun m p => w.listAmounts nMinDepth p.nDepth p.amounts m) w.listAddressBook), ?_, ?_, ?_⟩
  · rw [listaccounts, listTxs_postings hps, hall]
    rfl
  · intro strAccount
    rw [getD_bumpAll, hget, hblank, zero_add]
  · rw [total_bumpAll, htotal, hzero, zero_add, AccountBook.entries_creditDebit]

theorem getAccountBalance_postings (hb : b.AllFiled) (hps : w.postings e s = .ok ps)
    {strAccount : StdString} (hone : strAccount ≠ str "*") :
    w.getAccountBalance e s b strAccount nMinDepth =
      .ok ((ps.map (w.listed nMinDepth strAccount)).sum - (ps.map (w.skew nMinDepth strAccount)).sum +
        ((b.entries.filter (fun entry => decide (entry.strAccount = strAccount))).map
          CAccountingEntry.nCreditDebit).sum) := by
  have hentries : b.getAccountCreditDebit strAccount =
      .ok ((b.entries.filter (fun entry => decide (entry.strAccount = strAccount))).map
        CAccountingEntry.nCreditDebit).sum := by
    rw [AccountBook.getAccountCreditDebit, hb.listAccountCreditDebit]
    simp only [hone, false_or]
    rfl
  have htxs := mapM_postings
    (fun wtx p => @accountTx_posting env w e s nMinDepth strAccount wtx p) hps
  rw [getAccountBalance, htxs, hentries, ← sum_map_sub]
  rfl

theorem getTotalBalance_postings (hps : w.postings e s = .ok ps) :
    w.getTotalBalance e s nMinDepth =
      .ok ((ps.map (listedTotal nMinDepth)).sum - (ps.map (skewTotal nMinDepth)).sum) := by
  have htxs := mapM_postings (fun wtx p => @totalTx_posting env w e s nMinDepth wtx p) hps
  rw [getTotalBalance, htxs, ← sum_map_sub]
  rfl

theorem listaccounts_agrees_iff (w : Wallet env) (e : NodeEnv) (s : NodeState) {ps : List Posting}
    (hps : w.postings e s = .ok ps) {b : AccountBook} (hb : b.Blank) {cs : List MoveCmd}
    (hcount : 2 * cs.length < 2 ^ 64) (fuel : Nat) (nMinDepth : Int) :
    ∃ m, w.listaccounts e s (runMoves cs b) nMinDepth = .ok m ∧
      (∀ (strAccount : StdString) (n : Int), strAccount ≠ str "*" → m[strAccount]? = some n →
        (w.getbalance e s (runMoves cs b) fuel (some (strAccount, nMinDepth)) = .ok n ↔
          (ps.map (w.skew nMinDepth strAccount)).sum = 0)) ∧
      (w.getbalance e s (runMoves cs b) fuel (some (str "*", nMinDepth)) =
          .ok (AccountBalances.total m) ↔
        (ps.map (skewTotal nMinDepth)).sum = 0) := by
  obtain ⟨hblank, hnone⟩ := hb.filed
  obtain ⟨hfiled, hsum⟩ := @AccountBook.AllFiled.runMoves b hblank cs
    (by rw [hb.unnumbered]; omega)
  obtain ⟨m, hm, hget, htotal⟩ := @listaccounts_postings env w e s nMinDepth _ ps hfiled hps
  refine ⟨m, hm, ?_, ?_⟩
  · intro strAccount n hone hn
    have hlisted : m.getD strAccount 0 = n := by
      rw [TreeMap.getD_eq_getD_getElem?, hn, Option.getD_some]
    rw [hget] at hlisted
    have haccount : accountFromValue strAccount = .ok strAccount := by
      rw [accountFromValue, if_neg hone]
    rw [getbalance]
    simp only [hone, if_false, haccount]
    change w.getAccountBalance e s (runMoves cs b) strAccount nMinDepth = .ok n ↔ _
    rw [getAccountBalance_postings hfiled hps hone, Except.ok.injEq]
    omega
  · rw [getbalance]
    simp only [if_true]
    rw [getTotalBalance_postings hps, Except.ok.injEq, htotal, hsum, hnone]
    omega

end Listing

end Wallet

def blankBook : AccountBook := ⟨∅, 0⟩

theorem blankBook_blank : blankBook.Blank where
  others := by
    intro k v hget
    simp [blankBook] at hget
  unnumbered := rfl

def sampleMove : MoveCmd := ⟨[], str "rent", 3 * coin, 0, [], by decide⟩

theorem isOk_ok {α : Type} {x : Except Fault α} (h : x.toOption.isSome = true) :
    ∃ a, x = .ok a := by
  cases x with
  | error fault => cases h
  | ok a => exact ⟨a, rfl⟩

def lockedTx : WalletTx :=
  { plainTx with
    merkle := ⟨⟨1, [⟨⟨5, 0⟩, [], 0⟩], [⟨5 * coin, payToPubkey walletPubKey⟩], 1000⟩, 0, [], -1⟩ }

def lockedWallet : Wallet sampleEnv := blankWallet.putTx lockedTx

def mixedWallet : Wallet sampleEnv := fundedWallet.putTx lockedTx

-- The transaction that is not final counts for the account it pays and for the total, and leaves
-- the account of the move alone; at depth 1 it is not listed.
theorem mixedWallet_books :
    mixedWallet.getbalance sampleNodeEnv zeroNode (runMoves [sampleMove] blankBook) 0
        (some (str "rent", 0)) = .ok (3 * coin) ∧
      mixedWallet.getbalance sampleNodeEnv zeroNode (runMoves [sampleMove] blankBook) 0
        (some ([], 0)) ≠ .ok (7 * coin) ∧
      mixedWallet.getbalance sampleNodeEnv zeroNode (runMoves [sampleMove] blankBook) 0
        (some (str "*", 1)) = .ok (5 * coin) := by
  obtain ⟨ps, hps⟩ := isOk_ok (x := mixedWallet.postings sampleNodeEnv zeroNode) (by decide +kernel)
  have hskews : (mixedWallet.postings sampleNodeEnv zeroNode).toOption.map (fun ps =>
      ((ps.map (mixedWallet.skew 0 (str "rent"))).sum, (ps.map (mixedWallet.skew 0 [])).sum,
        (ps.map (Wallet.skewTotal 1)).sum)) = some (0, 5 * coin, 0) := by decide +kernel
  rw [hps, Except.toOption, Option.map_some, Option.some.injEq, Prod.mk.injEq, Prod.mk.injEq] at hskews
  obtain ⟨hrent, hown, hall⟩ := hskews
  have hlisted : (mixedWallet.listaccounts sampleNodeEnv zeroNode
      (runMoves [sampleMove] blankBook) 0).toOption.map (fun m =>
        (m[str "rent"]?, m[([] : StdString)]?)) = some (some (3 * coin), some (7 * coin)) := by
    decide +kernel
  have htotals : (mixedWallet.listaccounts sampleNodeEnv zeroNode
      (runMoves [sampleMove] blankBook) 1).toOption.map AccountBalances.total =
        some (5 * coin) := by decide +kernel
  obtain ⟨m, hm, hone, -⟩ := @Wallet.listaccounts_agrees_iff sampleEnv mixedWallet sampleNodeEnv
    zeroNode ps hps blankBook blankBook_blank [sampleMove] (by decide) 0 0
  obtain ⟨m', hm', -, htotal⟩ := @Wallet.listaccounts_agrees_iff sampleEnv mixedWallet sampleNodeEnv
    zeroNode ps hps blankBook blankBook_blank [sampleMove] (by decide) 0 1
  rw [hm, Except.toOption, Option.map_some, Option.some.injEq, Prod.mk.injEq] at hlisted
  rw [hm', Except.toOption, Option.map_some, Option.some.injEq] at htotals
  refine ⟨(hone (str "rent") _ (by decide) hlisted.1).mpr hrent, ?_, ?_⟩
  · intro hbalance
    have hzero := (hone [] _ (by decide) hlisted.2).mp hbalance
    rw [hown] at hzero
    exact absurd hzero (by decide)
  · rw [← htotals]
    exact htotal.mpr hall

theorem lockedWallet_books :
    ((lockedWallet.listaccounts sampleNodeEnv zeroNode blankBook 0).toOption.bind
        (fun m => m[([] : StdString)]?)) = some (5 * coin) ∧
      lockedWallet.getbalance sampleNodeEnv zeroNode blankBook 0 (some ([], 0)) = .ok 0 := by
  decide +kernel

end Namecoin
