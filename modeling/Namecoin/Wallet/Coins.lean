import Namecoin.Wallet.Book

namespace Namecoin

open Std (TreeMap)

abbrev Coin := Uint256 × Nat

structure Choices where
  shuffle : Nat → Nat → Nat
  rand : Nat → Nat → Nat → Bool
  addr : Uint256 → Nat
  position : Nat → Nat
  reservedKey : Except Fault VchType

def swapAt {α : Type} (l : List α) (i j : Nat) : List α :=
  match l[i]?, l[j]? with
  | some a, some b => (l.set i b).set j a
  | _, _ => l

def randomShuffle {α : Type} (getRandInt : Nat → Nat) (l : List α) : List α :=
  (List.range l.length).foldl (fun l i => swapAt l i (getRandInt i % (i + 1))) l

structure CoinScan where
  exact : Option (Int × Coin)
  lowestLarger : Int × Option Coin
  vValue : List (Int × Coin)
  nTotalLower : Int

def int64Max : Int := 2 ^ 63 - 1

def CoinScan.start : CoinScan := ⟨none, (int64Max, none), [], 0⟩

def CoinScan.put (nTargetValue n : Int) (coin : Coin) (r : CoinScan) : CoinScan :=
  if n = nTargetValue then { r with exact := some (n, coin) }
  else if n < nTargetValue + cent then
    { r with vValue := r.vValue ++ [(n, coin)], nTotalLower := r.nTotalLower + n }
  else if n < r.lowestLarger.1 then { r with lowestLarger := (n, some coin) }
  else r

structure Approx where
  nTotal : Int
  vfIncluded : List Bool
  fReachedTarget : Bool
  nBest : Int
  vfBest : List Bool

def Approx.tryCoin (nTargetValue : Int) (pick : Bool) (i : Nat) (value : Int) (a : Approx) :
    Approx :=
  if pick then
    let nTotal := a.nTotal + value
    let vfIncluded := a.vfIncluded.set i true
    if nTargetValue ≤ nTotal then
      let best := if nTotal < a.nBest then (nTotal, vfIncluded) else (a.nBest, a.vfBest)
      ⟨nTotal - value, vfIncluded.set i false, true, best.1, best.2⟩
    else { a with nTotal := nTotal, vfIncluded := vfIncluded }
  else a

def Approx.pass (nTargetValue : Int) (pick : Nat → Bool → Bool) :
    List (Int × Coin) → Nat → Approx → Approx
  | [], _, a => a
  | v :: rest, i, a =>
    Approx.pass nTargetValue pick rest (i + 1)
      (a.tryCoin nTargetValue (pick i (a.vfIncluded.getD i false)) i v.1)

def Approx.rep (nTargetValue : Int) (vValue : List (Int × Coin)) (rand : Nat → Bool) (a : Approx) :
    Approx :=
  let a := { a with
    nTotal := 0, vfIncluded := List.replicate vValue.length false, fReachedTarget := false }
  let a := Approx.pass nTargetValue (fun i _ => rand i) vValue 0 a
  if a.fReachedTarget then a
  else Approx.pass nTargetValue (fun _ included => !included) vValue 0 a

def Approx.reps (nTargetValue : Int) (vValue : List (Int × Coin)) (rand : Nat → Nat → Bool) :
    Nat → Approx → Approx
  | 0, a => a
  | n + 1, a =>
    if a.nBest = nTargetValue then a
    else Approx.reps nTargetValue vValue rand n (Approx.rep nTargetValue vValue (rand n) a)

def setInsertAll (l : List (Int × Coin)) : List Coin × Int :=
  ((l.map Prod.snd).dedup, (l.map Prod.fst).sum)

def descending (addr : Uint256 → Nat) (a b : Int × Coin) : Bool :=
  decide (b.1 < a.1 ∨ (b.1 = a.1 ∧
    (addr b.2.1 < addr a.2.1 ∨ (addr b.2.1 = addr a.2.1 ∧ b.2.2 ≤ a.2.2))))

def included (vValue : List (Int × Coin)) (vfBest : List Bool) : List (Int × Coin) :=
  ((vValue.zip vfBest).filter Prod.snd).map Prod.fst

def CoinScan.largerCoin (r : CoinScan) : Option (List (Int × Coin)) :=
  r.lowestLarger.2.map (fun coin => [(r.lowestLarger.1, coin)])

def CoinScan.needed (nTargetValue : Int) (r : CoinScan) : Int :=
  nTargetValue + if r.largerCoin.isSome then cent else 0

def CoinScan.approximate (nTargetValue : Int) (ch : Choices) (nCall : Nat) (r : CoinScan) :
    List (Int × Coin) × Approx :=
  let vValue := r.vValue.mergeSort (descending ch.addr)
  (vValue, Approx.reps nTargetValue vValue (ch.rand nCall) 1000
    ⟨0, [], false, r.nTotalLower, List.replicate vValue.length true⟩)

def CoinScan.closest (nTargetValue : Int) (ch : Choices) (nCall : Nat) (r : CoinScan) :
    List (Int × Coin) :=
  let best := r.approximate nTargetValue ch nCall
  match r.largerCoin with
  | some coins =>
    if r.lowestLarger.1 - nTargetValue ≤ best.2.nBest - nTargetValue then coins
    else included best.1 best.2.vfBest
  | none => included best.1 best.2.vfBest

def CoinScan.choose (nTargetValue : Int) (ch : Choices) (nCall : Nat) (r : CoinScan) :
    Option (List (Int × Coin)) :=
  if r.nTotalLower = nTargetValue ∨ r.nTotalLower = nTargetValue + cent then some r.vValue
  else if r.nTotalLower < r.needed nTargetValue then r.largerCoin
  else if nTargetValue + cent ≤ r.nTotalLower then some (r.closest (nTargetValue + cent) ch nCall)
  else some (r.closest nTargetValue ch nCall)

namespace Wallet

variable {env : Env} (w : Wallet env) (e : NodeEnv) (s : NodeState) (fuel : Nat)

def scanOuts (nTargetValue : Int) (hash : Uint256) (wtx : WalletTx) :
    List CTxOut → Nat → CoinScan → Except Fault CoinScan
  | [], _, r => .ok r
  | txout :: rest, i, r => do
    if r.exact.isSome then return r
    let spent ← wtx.isSpent i
    if spent || !w.keys.isSpendable env txout.scriptPubKey ||
        decide (txout.nValue ≤ 0 ∨ txout.nValue < w.nMinimumInputValue) then
      scanOuts nTargetValue hash wtx rest (i + 1) r
    else
      scanOuts nTargetValue hash wtx rest (i + 1) (r.put nTargetValue txout.nValue (hash, i))

def eligible (nConfMine nConfTheirs : Int) (wtx : WalletTx) : Except Fault Bool :=
  if ¬wtx.merkle.tx.isFinalNow e s then .ok false
  else do
    let confirmed ← w.isConfirmed e s fuel wtx
    if ¬confirmed then return false
    if wtx.merkle.tx.isCoinBase ∧ 0 < wtx.getBlocksToMaturity e s then return false
    let mine ← w.isFromMe wtx
    return decide ((if mine then nConfMine else nConfTheirs) ≤ wtx.getDepthInMainChain e s)

def scanTxs (nTargetValue nConfMine nConfTheirs : Int) :
    List (Uint256 × WalletTx) → CoinScan → Except Fault CoinScan
  | [], r => .ok r
  | pcoin :: rest, r => do
    if r.exact.isSome then return r
    let ok ← w.eligible e s fuel nConfMine nConfTheirs pcoin.2
    if ok then
      let r ← w.scanOuts nTargetValue pcoin.1 pcoin.2 pcoin.2.merkle.tx.vout 0 r
      scanTxs nTargetValue nConfMine nConfTheirs rest r
    else scanTxs nTargetValue nConfMine nConfTheirs rest r

def selectCoinsMinConf (nTargetValue nConfMine nConfTheirs : Int) (ch : Choices) (nCall : Nat) :
    Except Fault (Option (List Coin × Int)) := do
  let vCoins := randomShuffle (ch.shuffle nCall) w.mapWallet.toList
  let r ← w.scanTxs e s fuel nTargetValue nConfMine nConfTheirs vCoins CoinScan.start
  match r.exact with
  | some coin => return some (setInsertAll [coin])
  | none => return (r.choose nTargetValue ch nCall).map setInsertAll

def selectCoins (nTargetValue : Int) (ch : Choices) : Except Fault (Option (List Coin × Int)) := do
  let first ← w.selectCoinsMinConf e s fuel nTargetValue 1 6 ch 0
  if first.isSome then return first
  let second ← w.selectCoinsMinConf e s fuel nTargetValue 1 1 ch 1
  if second.isSome then return second
  w.selectCoinsMinConf e s fuel nTargetValue 0 1 ch 2

end Wallet

structure SendEnv where
  evp : Evp
  signatureHash : CScript → CTransaction → Nat → Nat → Uint256
  sign : VchType → Uint256 → Option VchType
  allowFree : List (Int × Int) → Nat → Bool
  nTransactionFee : Int

def sighashAll : Nat := 1

abbrev Input := WalletTx × Nat

def Input.outPoint (env : Env) (coin : Input) : COutPoint := ⟨coin.1.merkle.tx.getHash env, coin.2⟩

def CTransaction.setScriptSig (tx : CTransaction) (nIn : Nat) (scriptSig : CScript) :
    CTransaction :=
  { tx with vin := tx.vin.modify nIn (fun txin => { txin with scriptSig := scriptSig }) }

def rawScript (fromPubKey : CScript) : CScript :=
  if isNameScript fromPubKey then nameScriptRest fromPubKey else fromPubKey

def signSignature (env : Env) (c : SendEnv) (ks : CKeyStore) (fromPubKey : CScript)
    (txTo : CTransaction) (nIn nHashType : Nat) : Option CTransaction :=
  let hash := c.signatureHash fromPubKey txTo nIn nHashType
  let signature (vchPubKey : VchType) :=
    ((ks.getPrivKey env c.evp vchPubKey).bind (fun privkey => c.sign privkey hash)).map
      (fun vchSig => vchSig ++ [UInt8.ofNat nHashType])
  let r := ks.solve env signature (rawScript fromPubKey) hash
  let txTo := txTo.setScriptSig nIn r.2
  if r.1 && env.verifyScript r.2 fromPubKey txTo nIn 0 then some txTo else none

def signInputs (env : Env) (c : SendEnv) (ks : CKeyStore) :
    List Input → Nat → CTransaction → Except Fault (Option CTransaction)
  | [], _, tx => .ok (some tx)
  | coin :: rest, nIn, tx =>
    match coin.1.merkle.tx.vout[coin.2]? with
    | none => .error .assertion
    | some txout =>
      match signSignature env c ks txout.scriptPubKey tx nIn sighashAll with
      | none => .ok none
      | some tx => signInputs env c ks rest (nIn + 1) tx

inductive Round where
  | fail
  | retry (nFeeRet : Int)
  | done (wtxNew : CTransaction)

def sendTotal : List (CScript × Int) → Int → Option Int
  | [], nValue => if nValue < 0 then none else some nValue
  | s :: rest, nValue => if nValue < 0 then none else sendTotal rest (nValue + s.2)

def feeLoop (round : Nat → Int → Except Fault Round) : Nat → Nat → Int →
    Except Fault (Option CTransaction)
  | 0, _, _ => .error .undefined
  | fuel + 1, k, nFeeRet => do
    match ← round k nFeeRet with
    | .fail => return none
    | .retry nFeeRet => feeLoop round fuel (k + 1) nFeeRet
    | .done wtxNew => return some wtxNew

namespace Wallet

variable {env : Env} (w : Wallet env) (e : NodeEnv) (s : NodeState) (fuel : Nat) (c : SendEnv)
  (vecSend : List (CScript × Int))

def inSetOrder (addr : Uint256 → Nat) (a b : Coin) : Bool :=
  decide (addr a.1 < addr b.1 ∨ (addr a.1 = addr b.1 ∧ a.2 ≤ b.2))

def inputs (addr : Uint256 → Nat) (setCoins : List Coin) : List Input :=
  (setCoins.mergeSort (inSetOrder addr)).filterMap
    (fun coin => (w.mapWallet[coin.1]?).map (fun wtx => (wtx, coin.2)))

def fillVout (ch : Choices) (nChange : Int) : Except Fault (List CTxOut) := do
  let vout := vecSend.map (fun s => CTxOut.mk s.2 s.1)
  if nChange < cent then return vout
  let vchPubKey ← ch.reservedKey
  Except.raiseIf (¬w.keys.haveKey vchPubKey) .assertion
  let scriptChange :=
    if ((vecSend.head?).map (fun s => getBitcoinAddressHash160 env s.1)).getD uint160Null ≠
        uint160Null then setBitcoinAddress (env.hash160 vchPubKey)
    else payToPubkey vchPubKey
  return vout.insertIdx (ch.position vout.length % vout.length) ⟨nChange, scriptChange⟩

def credits (vecCoins : List Input) : List (Int × Int) :=
  vecCoins.map (fun coin =>
    (((coin.1.merkle.tx.vout[coin.2]?).map CTxOut.nValue).getD 0, coin.1.getDepthInMainChain e s))

def assemble (wtxNew : CTransaction) (ch : Choices) (nMaxBytes : Nat)
    (nFeeRet nTotalValue nValueIn : Int) (vecCoins : List Input) : Except Fault Round := do
  let vout ← w.fillVout vecSend ch (nValueIn - nTotalValue)
  let vin := vecCoins.map (fun coin => CTxIn.mk (coin.outPoint env) [] uintMax)
  match ← signInputs env c w.keys vecCoins 0 { wtxNew with vin := vin, vout := vout } with
  | none => return .fail
  | some wtxNew =>
    let nBytes := wtxNew.getSerializeSize
    if nMaxBytes ≤ nBytes then return .fail
    let nPayFee := c.nTransactionFee * (1 + (nBytes / 1000 : Nat))
    let nMinFee := wtxNew.getMinFee 1 (c.allowFree (credits e s vecCoins) nBytes) false
    if nFeeRet < max nPayFee nMinFee then return .retry (max nPayFee nMinFee)
    return .done wtxNew

def createRound (nValue : Int) (wtxNew : CTransaction) (ch : Choices) (nFeeRet : Int) :
    Except Fault Round := do
  let nTotalValue := nValue + nFeeRet
  match ← w.selectCoins e s fuel nTotalValue ch with
  | none => return .fail
  | some (setCoins, nValueIn) =>
    w.assemble e s c vecSend wtxNew ch maxStandardTxSize nFeeRet nTotalValue nValueIn
      (w.inputs ch.addr setCoins)

def createTransaction (wtxNew : CTransaction) (ch : Nat → Choices) :
    Except Fault (Option CTransaction) :=
  match vecSend, sendTotal vecSend 0 with
  | _ :: _, some nValue =>
    feeLoop (fun k nFeeRet => w.createRound e s fuel c vecSend nValue wtxNew (ch k) nFeeRet) fuel 0
      c.nTransactionFee
  | _, _ => .ok none

def selectExtra (nNeeded : Int) (ch : Choices) : Except Fault (Option (List Coin × Int)) :=
  if 0 < nNeeded then w.selectCoins e s fuel nNeeded ch else .ok (some ([], 0))

def createRoundWithInputTx (nValue : Int) (wtxIn : WalletTx) (nTxOut : Nat) (wtxNew : CTransaction)
    (ch : Choices) (nFeeRet : Int) : Except Fault Round := do
  let nTotalValue := nValue + nFeeRet
  match wtxIn.merkle.tx.vout[nTxOut]? with
  | none => .error .undefined
  | some txout =>
    let nWtxinCredit := txout.nValue
    match ← w.selectExtra e s fuel (nTotalValue - nWtxinCredit) ch with
    | none => return .fail
    | some (setCoins, nValueIn) =>
      w.assemble e s c vecSend wtxNew ch (maxBlockSizeGen / 5) nFeeRet nTotalValue
        (nValueIn + nWtxinCredit) ((wtxIn, nTxOut) :: w.inputs ch.addr setCoins)

def createTransactionWithInputTx (wtxIn : WalletTx) (nTxOut : Nat) (wtxNew : CTransaction)
    (ch : Nat → Choices) : Except Fault (Option CTransaction) :=
  match vecSend, sendTotal vecSend 0 with
  | _ :: _, some nValue =>
    feeLoop (fun k nFeeRet =>
      w.createRoundWithInputTx e s fuel c vecSend nValue wtxIn nTxOut wtxNew (ch k) nFeeRet) fuel 0
      c.nTransactionFee
  | _, _ => .ok none

end Wallet

end Namecoin
