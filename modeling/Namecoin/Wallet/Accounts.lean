import Namecoin.Wallet.Book
import Namecoin.Chain.Proxy
import Namecoin.Data.Codec
import Namecoin.Data.Text

namespace Namecoin

open Std (TreeMap)
open Reading

section Base58

def pszBase58 : StdString := str "123456789ABCDEFGHJKLMNPQRSTUVWXYZabcdefghijkmnopqrstuvwxyz"

def bigEndian (vch : List UInt8) : Nat := vch.foldl (fun n b => n * 256 + b.toNat) 0

def encodeBase58 (vch : List UInt8) : StdString :=
  let digits := (Nat.digits 58 (bigEndian vch)).map (fun c => pszBase58.getD c 0)
  let zeros := (vch.takeWhile (fun b => b == 0)).map (fun _ => pszBase58.getD 0 0)
  (digits ++ zeros).reverse

def base58Value : StdString → Nat → Option Nat
  | [], bn => some bn
  | c :: rest, bn =>
    match pszBase58.idxOf? c with
    | none => if (c :: rest).dropWhile isspace = [] then some bn else none
    | some digit => base58Value rest (bn * 58 + digit)

def decodeBase58 (s : StdString) : Option (List UInt8) :=
  let psz := (s.takeWhile (fun c => c != 0)).dropWhile isspace
  (base58Value psz 0).map (fun bn =>
    (psz.takeWhile (fun c => c == pszBase58.getD 0 0)).map (fun _ => 0) ++
      (Nat.digits 256 bn).reverse.map UInt8.ofNat)

variable (env : Env)

def encodeBase58Check (vch : List UInt8) : StdString :=
  encodeBase58 (vch ++ (serHash (env.hash vch)).take 4)

def decodeBase58Check (s : StdString) : Option (List UInt8) :=
  match decodeBase58 s with
  | none => none
  | some vch =>
    if vch.length < 4 then none
    else
      let body := vch.take (vch.length - 4)
      if (serHash (env.hash body)).take 4 = vch.drop (vch.length - 4) then some body else none

def getAddressVersion : UInt8 := if env.fTestNet then 111 else 52

def hash160ToAddress (hash160 : Uint160) : StdString :=
  encodeBase58Check env (getAddressVersion env :: hash160.val)

def pubKeyToAddress (vchPubKey : VchType) : StdString := hash160ToAddress env (env.hash160 vchPubKey)

def addressToHash160 (s : StdString) : Option Uint160 :=
  match decodeBase58Check env s with
  | none => none
  | some [] => none
  | some (nVersion :: rest) =>
    if rest.length = 20 ∧ nVersion = getAddressVersion env then some (uint160 rest) else none

end Base58

section OutAddress

def nameFromOp (op : Nat) : StdString :=
  if op = opNameNew then str "name_new"
  else if op = opNameUpdate then str "name_update"
  else if op = opNameFirstupdate then str "name_firstupdate"
  else str "<unknown name op>"

def hexStr (vch : VchType) : StdString :=
  vch.flatMap (fun b => (hexByte b).map (fun c => UInt8.ofNat c.toNat))

def extractAddress (script : CScript) : Option StdString :=
  if script = [UInt8.ofNat opReturn] then some (str "network fee")
  else
    let d := decodeNameScript script 0 []
    if ¬d.ok then none
    else
      let vch := d.vvch.headD []
      let strName := if d.op = opNameNew then hexStr vch else vch
      some (nameFromOp d.op ++ str ": " ++ strName)

structure OutAddress where
  address : StdString
  nameOp : Option Nat

def hookAddress (script : CScript) : OutAddress :=
  match extractAddress script with
  | none => ⟨str " unknown ", none⟩
  | some address =>
    let d := decodeNameScript script 0 []
    ⟨address, if d.ok then some d.op else none⟩

def outAddress (env : Env) (script : CScript) : OutAddress :=
  match extractHash160 script with
  | some hash160 => ⟨hash160ToAddress env hash160, none⟩
  | none =>
    match extractPubKeyOnly script with
    | some vchPubKey => ⟨pubKeyToAddress env vchPubKey, none⟩
    | none => hookAddress script

end OutAddress

def sumInRange {α : Type} (msg : String) (f : α → Except Fault Int) :
    List α → Int → Except Fault Int
  | [], n => .ok n
  | a :: rest, n => do
    let v ← f a
    let n ← add64 n v
    Except.raiseIf (¬moneyRange n) (.exception msg)
    sumInRange msg f rest n

def CWallet.getDebit (w : CWallet) (txin : CTxIn) : Int :=
  match w.mapWallet txin.prevout.hash with
  | none => 0
  | some prev =>
    match prev.merkle.tx.vout[txin.prevout.n]? with
    | none => 0
    | some txout => if w.isMineTxOut txout then txout.nValue else 0

def CWallet.getCredit (w : CWallet) (txout : CTxOut) : Except Fault Int :=
  if ¬moneyRange txout.nValue then .error (.exception "CWallet::GetCredit() : value out of range")
  else .ok (if w.isMineTxOut txout then txout.nValue else 0)

def CWallet.hookIsMineKnown (w : CWallet) (tx : CTransaction) (txout : CTxOut) : Bool :=
  decide ((decodeNameScript txout.scriptPubKey 0 []).op ≠ opNameNew) && w.hookIsMine tx txout

structure Amounts where
  nGeneratedImmature : Int
  nGeneratedMature : Int
  listReceived : List (StdString × Int)
  listSent : List (StdString × Int)
  nFee : Int
  strSentAccount : StdString
  fNameTx : Bool

structure AccountAmounts where
  nGenerated : Int
  nReceived : Int
  nSent : Int
  nFee : Int

structure OutTally where
  listReceived : List (StdString × Int)
  listSent : List (StdString × Int)
  nCarriedOverCoin : Int

def feeAfterCarry (nCarriedOverCoin nFee : Int) : Int :=
  if 0 < nCarriedOverCoin then
    if nFee ≤ nCarriedOverCoin then 0 else nFee - nCarriedOverCoin
  else nFee

namespace Wallet

variable {env : Env} (w : Wallet env)

def txs : List WalletTx := w.mapWallet.toList.map Prod.snd

theorem mem_txs {w : Wallet env} {wtx : WalletTx} {h : Uint256}
    (hget : w.mapWallet[h]? = some wtx) : wtx ∈ w.txs :=
  List.mem_map.mpr ⟨(h, wtx), TreeMap.mem_toList_iff_getElem?_eq_some.mpr hget, rfl⟩

def isChange (txout : CTxOut) : Bool :=
  match w.keys.extractPubKey txout.scriptPubKey with
  | none => false
  | some vchPubKey => !w.mapAddressBook.contains (pubKeyToAddress env vchPubKey)

def getDebit (wtx : WalletTx) : Except Fault Int :=
  if wtx.merkle.tx.vin = [] then .ok 0
  else
    match wtx.nDebitCached with
    | some nDebit => .ok nDebit
    | none =>
      sumInRange "CWallet::GetDebit() : value out of range"
        (fun txin => .ok (w.toCWallet.getDebit txin)) wtx.merkle.tx.vin 0

def getCreditTx (tx : CTransaction) : Except Fault Int :=
  sumInRange "CWallet::GetCredit() : value out of range" w.toCWallet.getCredit tx.vout 0

def unspentOuts (wtx : WalletTx) : List CTxOut :=
  (wtx.merkle.tx.vout.zipIdx.filter (fun p => !(wtx.vfSpent[p.2]?).getD false)).map Prod.fst

section Amounts

variable (e : NodeEnv) (s : NodeState)

def getCredit (wtx : WalletTx) : Except Fault Int :=
  if wtx.merkle.tx.isCoinBase ∧ 0 < wtx.getBlocksToMaturity e s then .ok 0
  else
    match wtx.nCreditCached with
    | some nCredit => .ok nCredit
    | none => w.getCreditTx wtx.merkle.tx

def getAvailableCredit (wtx : WalletTx) : Except Fault Int :=
  if wtx.merkle.tx.isCoinBase ∧ 0 < wtx.getBlocksToMaturity e s then .ok 0
  else
    match wtx.nAvailableCreditCached with
    | some nCredit => .ok nCredit
    | none =>
      sumInRange "CWalletTx::GetAvailableCredit() : value out of range" w.toCWallet.getCredit
        (unspentOuts wtx) 0

def availableBalance (fuel : Nat) (wtx : WalletTx) : Except Fault Int :=
  if ¬wtx.merkle.tx.isFinalNow e s then .ok 0
  else do
    let confirmed ← w.isConfirmed e s fuel wtx
    if confirmed then w.getAvailableCredit e s wtx else .ok 0

def getBalance (fuel : Nat) : Except Fault Int := do
  let nTotals ← w.txs.mapM (w.availableBalance e s fuel)
  pure nTotals.sum

def listOut (tx : CTransaction) (nDebit : Int) (address : StdString) (t : OutTally)
    (txout : CTxOut) : OutTally :=
  let t := if 0 < nDebit then { t with listSent := t.listSent ++ [(address, txout.nValue)] } else t
  if w.toCWallet.isMineTxOut txout || w.toCWallet.hookIsMineKnown tx txout then
    { t with listReceived := t.listReceived ++ [(address, txout.nValue)] }
  else t

def tallyOut (tx : CTransaction) (nDebit : Int) (t : OutTally) (txout : CTxOut) : OutTally :=
  let a := outAddress env txout.scriptPubKey
  let t := if a.nameOp.isSome then
      { t with nCarriedOverCoin := t.nCarriedOverCoin - txout.nValue }
    else t
  if a.nameOp.isSome ∧ a.nameOp ≠ some opNameNew then t
  else if 0 < nDebit ∧ w.isChange txout then t
  else w.listOut tx nDebit a.address t txout

def feeBeforeCarry (tx : CTransaction) (nDebit : Int) : Except Fault Int :=
  if 0 < nDebit then tx.getValueOut.map (fun nValueOut => nDebit - nValueOut) else .ok 0

def generatedAmounts (wtx : WalletTx) : Except Fault Amounts :=
  if 0 < wtx.getBlocksToMaturity e s then
    (w.getCreditTx wtx.merkle.tx).map (fun n => ⟨n, 0, [], [], 0, wtx.strFromAccount, false⟩)
  else (w.getCredit e s wtx).map (fun n => ⟨0, n, [], [], 0, wtx.strFromAccount, false⟩)

def sentAmounts (wtx : WalletTx) : Except Fault Amounts := do
  let tx := wtx.merkle.tx
  let nDebit ← w.getDebitInclName wtx
  let nFee ← feeBeforeCarry tx nDebit
  let nPlain ← w.getDebit wtx
  let t := tx.vout.foldl (w.tallyOut tx nDebit) ⟨[], [], nDebit - nPlain⟩
  pure ⟨0, 0, t.listReceived, t.listSent, feeAfterCarry t.nCarriedOverCoin nFee,
    wtx.strFromAccount, decide (nDebit - nPlain ≠ 0)⟩

def getAmounts (wtx : WalletTx) : Except Fault Amounts :=
  if wtx.merkle.tx.isCoinBase then w.generatedAmounts e s wtx else w.sentAmounts wtx

def receivedBy (strAccount : StdString) (r : StdString × Int) : Bool :=
  match w.mapAddressBook[r.1]? with
  | some account => decide (account = strAccount)
  | none => decide (strAccount = [])

def getAccountAmounts (strAccount : StdString) (wtx : WalletTx) : Except Fault AccountAmounts := do
  let a ← w.getAmounts e s wtx
  let nGenerated := if strAccount = [] then a.nGeneratedMature else 0
  let nReceived := ((a.listReceived.filter (w.receivedBy strAccount)).map Prod.snd).sum
  let nSent := if strAccount = a.strSentAccount then (a.listSent.map Prod.snd).sum else 0
  let nFee := if strAccount = a.strSentAccount then a.nFee else 0
  pure ⟨nGenerated, nReceived, nSent, nFee⟩

end Amounts

end Wallet

structure CAccountingEntry where
  strAccount : StdString
  nCreditDebit : Int
  nTime : Nat
  strOtherAccount : StdString
  strComment : StdString

inductive DbValue where
  | acentry (entry : CAccountingEntry)
  | other

abbrev AccountingDb := TreeMap (List UInt8) DbValue

def acentryKey (strAccount : StdString) (nNumber : Nat) : List UInt8 :=
  serString "acentry" ++ serBytes strAccount ++ leBytes 8 nNumber

structure AccountBook where
  walletdb : AccountingDb
  nAccountingEntryNumber : Nat

def accountFromValue (strAccount : StdString) : Except Fault StdString :=
  if strAccount = str "*" then .error (.exception "Invalid account name") else .ok strAccount

namespace AccountBook

def writeAccountingEntry (acentry : CAccountingEntry) (b : AccountBook) : AccountBook :=
  let nNumber := (b.nAccountingEntryNumber + 1) % 2 ^ 64
  ⟨b.walletdb.insert (acentryKey acentry.strAccount nNumber) (.acentry acentry), nNumber⟩

def scanEntries (fAllAccounts : Bool) (strAccount : StdString) :
    List (List UInt8 × DbValue) → Except Fault (List CAccountingEntry)
  | [] => .ok []
  | (ssKey, ssValue) :: rest =>
    match readBytes ssKey with
    | none => .error (.exception "CDataStream::read() : end of data")
    | some (strType, ssKey) =>
      if strType ≠ str "acentry" then .ok []
      else
        match readBytes ssKey with
        | none => .error (.exception "CDataStream::read() : end of data")
        | some (account, _) =>
          if ¬fAllAccounts ∧ account ≠ strAccount then .ok []
          else
            match ssValue with
            | .other => .error .undefined
            | .acentry acentry => do
              let entries ← scanEntries fAllAccounts strAccount rest
              pure ({ acentry with strAccount := account } :: entries)

def listAccountCreditDebit (strAccount : StdString) (b : AccountBook) :
    Except Fault (List CAccountingEntry) :=
  let fAllAccounts := decide (strAccount = str "*")
  let start := acentryKey (if fAllAccounts then [] else strAccount) 0
  scanEntries fAllAccounts strAccount
    (b.walletdb.toList.dropWhile (fun p => decide (compare p.1 start = .lt)))

def getAccountCreditDebit (strAccount : StdString) (b : AccountBook) : Except Fault Int :=
  (b.listAccountCreditDebit strAccount).map
    (fun entries => (entries.map CAccountingEntry.nCreditDebit).sum)

end AccountBook

structure MoveCmd where
  strFrom : StdString
  strTo : StdString
  nAmount : Int
  nNow : Nat
  strComment : StdString
  fits : strFrom.length ≤ maxSize ∧ strTo.length ≤ maxSize

def amountFromValue (nAmount : Int) : Except Fault Int :=
  if ¬moneyRange nAmount then .error (.exception "Invalid amount") else .ok nAmount

def movecmd (c : MoveCmd) (b : AccountBook) : Except Fault AccountBook := do
  let strFrom ← accountFromValue c.strFrom
  let strTo ← accountFromValue c.strTo
  let nAmount ← amountFromValue c.nAmount
  let b := b.writeAccountingEntry ⟨strFrom, -nAmount, c.nNow, strTo, c.strComment⟩
  pure (b.writeAccountingEntry ⟨strTo, nAmount, c.nNow, strFrom, c.strComment⟩)

def runMoves (cs : List MoveCmd) (b : AccountBook) : AccountBook :=
  cs.foldl (fun b c => (movecmd c b).toOption.getD b) b

abbrev AccountBalances := TreeMap StdString Int

def AccountBalances.bump (m : AccountBalances) (strAccount : StdString) (n : Int) :
    AccountBalances :=
  m.insert strAccount (m.getD strAccount 0 + n)

namespace Wallet

variable {env : Env} (w : Wallet env) (e : NodeEnv) (s : NodeState) (b : AccountBook)

def accountTx (strAccount : StdString) (nMinDepth : Int) (wtx : WalletTx) : Except Fault Int :=
  if ¬wtx.merkle.tx.isFinalNow e s then .ok 0
  else do
    let a ← w.getAccountAmounts e s strAccount wtx
    let nReceived :=
      if a.nReceived ≠ 0 ∧ nMinDepth ≤ wtx.getDepthInMainChain e s then a.nReceived else 0
    pure (nReceived + (a.nGenerated - a.nSent - a.nFee))

def getAccountBalance (strAccount : StdString) (nMinDepth : Int) : Except Fault Int := do
  let nBalances ← w.txs.mapM (w.accountTx e s strAccount nMinDepth)
  let nCreditDebit ← b.getAccountCreditDebit strAccount
  pure (nBalances.sum + nCreditDebit)

def totalTx (nMinDepth : Int) (wtx : WalletTx) : Except Fault Int :=
  if ¬wtx.merkle.tx.isFinalNow e s then .ok 0
  else do
    let a ← w.getAmounts e s wtx
    let nReceived :=
      if nMinDepth ≤ wtx.getDepthInMainChain e s then (a.listReceived.map Prod.snd).sum else 0
    pure (nReceived - (a.listSent.map Prod.snd).sum - a.nFee + a.nGeneratedMature)

def getTotalBalance (nMinDepth : Int) : Except Fault Int := do
  let nBalances ← w.txs.mapM (w.totalTx e s nMinDepth)
  pure nBalances.sum

def getbalance (fuel : Nat) (params : Option (StdString × Int)) : Except Fault Int :=
  match params with
  | none => w.getBalance e s fuel
  | some (account, nMinDepth) =>
    if account = str "*" then w.getTotalBalance e s nMinDepth
    else do
      let strAccount ← accountFromValue account
      w.getAccountBalance e s b strAccount nMinDepth

def ownAddress (address : StdString) : Bool :=
  match addressToHash160 env address with
  | none => false
  | some hash160 => (w.keys.mapPubKeys hash160).isSome

def listAddressBook : AccountBalances :=
  w.mapAddressBook.toList.foldl
    (fun m entry => if w.ownAddress entry.1 then m.insert entry.2 0 else m) ∅

def listReceivedIn (m : AccountBalances) (r : StdString × Int) : AccountBalances :=
  match w.mapAddressBook[r.1]? with
  | some account => m.bump account r.2
  | none => m.bump [] r.2

def listAmounts (nMinDepth nDepth : Int) (a : Amounts) (m : AccountBalances) : AccountBalances :=
  let m := m.bump a.strSentAccount (-a.nFee)
  let m := a.listSent.foldl (fun m p => m.bump a.strSentAccount (-p.2)) m
  if nMinDepth ≤ nDepth then
    a.listReceived.foldl w.listReceivedIn (m.bump [] a.nGeneratedMature)
  else m

def listTxs (nMinDepth : Int) : List WalletTx → AccountBalances → Except Fault AccountBalances
  | [], m => .ok m
  | wtx :: rest, m => do
    let a ← w.getAmounts e s wtx
    listTxs nMinDepth rest (w.listAmounts nMinDepth (wtx.getDepthInMainChain e s) a m)

def listaccounts (nMinDepth : Int) : Except Fault AccountBalances := do
  let m ← w.listTxs e s nMinDepth w.txs w.listAddressBook
  let acentries ← b.listAccountCreditDebit (str "*")
  pure (acentries.foldl (fun m entry => m.bump entry.strAccount entry.nCreditDebit) m)

end Wallet

end Namecoin
