import Namecoin.Data.Money
import Namecoin.Mining.AuxWork
import Namecoin.Name.Expiry
import Namecoin.Wallet.Commit
import Namecoin.Wallet.NameCoins
import Namecoin.Wallet.NameScript

namespace Namecoin

open Std (TreeMap)

def moneyText (n : Int) : String :=
  String.ofList ((Money.formatMoney n false).map fun c => Char.ofNat c.toNat)

def feeLoopRet (round : Nat → Int → Except Fault Round) : Nat → Nat → Int → Except Fault Int
  | 0, _, _ => .error .undefined
  | fuel + 1, k, nFeeRet => do
    match ← round k nFeeRet with
    | .retry nFeeRet => feeLoopRet round fuel (k + 1) nFeeRet
    | _ => return nFeeRet

def indexOfNameOutput (env : Env) (tx : CTransaction) (nHeight : Nat) : Except Fault Nat :=
  match decodeNameTx env tx nHeight with
  | none => .error (.exception "IndexOfNameOutput() : name output not found")
  | some d => .ok d.nOut

structure GuiEnv (e : NodeEnv) where
  send : SendEnv
  fuel : Nat
  supporting : Wallet e.env → NodeState → CTransaction → List (CMerkleTx × Bool)

structure PreparedNameFirstUpdate where
  rand : Nat
  vchData : VchType
  wtx : WalletTx

structure FirstUpdateRecord where
  hex : Uint256
  rand : Nat
  vchData : VchType
  wtx : WalletTx

structure WalletModel (e : NodeEnv) where
  node : NodeState
  wallet : Wallet e.env
  mapMyNames : TreeMap VchType Uint256
  mapMyNameHashes : Uint160 → Option VchType
  mapMyNameFirstUpdate : TreeMap VchType PreparedNameFirstUpdate
  walletdb : TreeMap VchType FirstUpdateRecord

structure NameNewReturn where
  ok : Bool
  errMsg : String
  vchName : VchType
  address : VchType
  hex : Uint256
  rand : Nat
  hash : Uint160

def commitmentHash (env : Env) (rand : Nat) (vchName : VchType) : Uint160 :=
  env.hash160 (bigNumVch rand ++ vchName)

def nameNewScriptPubKey (env : Env) (rand : Nat) (vchName vchPubKey : VchType) : CScript :=
  newScript (commitmentHash env rand vchName).val ++ setBitcoinAddress (env.hash160 vchPubKey)

def firstUpdateScriptPubKey (env : Env) (rand : Nat) (vchName vchValue vchPubKey : VchType) :
    CScript :=
  firstupdateScript vchName (bigNumVch rand) vchValue ++ setBitcoinAddress (env.hash160 vchPubKey)

def firstUpdateSend (env : Env) (rand : Nat) (vchName vchValue vchPubKey : VchType)
    (nNetFee : Int) : List (CScript × Int) :=
  (firstUpdateScriptPubKey env rand vchName vchValue vchPubKey, minAmount) ::
    if nNetFee = 0 then [] else [([UInt8.ofNat opReturn], nNetFee)]

def roundedNetFee (nNetFee : Int) : Int := (nNetFee + (cent - 1)).tdiv cent * cent

def feeError (strEnd : String) (nValue nFeeRequired nBalance : Int) : String :=
  if nBalance < nValue + nFeeRequired then
    "Error: This transaction requires a transaction fee of at least " ++ moneyText nFeeRequired ++
      " because of its amount, complexity, or use of recently received funds " ++ strEnd
  else "Error: Transaction creation failed  "

def nameNewHash (vout : List CTxOut) (vchHash : Option VchType) :
    Except Fault (Except String (Option VchType)) :=
  match vout with
  | [] => .ok (.ok vchHash)
  | out :: rest =>
    let d := decodeNameScript out.scriptPubKey 0 []
    if d.ok then
      if d.op ≠ opNameNew then .ok (.error "previous transaction wasn't a name_new")
      else do
        let vch ← vchAt d.vvch 0
        nameNewHash rest (some vch)
    else nameNewHash rest vchHash

structure FirstUpdateInput where
  vchPubKey : VchType
  choices : Nat → Choices

structure NameNewInput where
  vchName : VchType
  rand : Nat
  vchPubKey : VchType
  threadSafeAskFee : Int → Bool
  choices : Nat → Nat → Choices
  firstUpdate : Nat → FirstUpdateInput
  fRateLimited : Bool

namespace Wallet

variable {env : Env} (w : Wallet env) (e : NodeEnv) (s : NodeState) (fuel : Nat) (c : SendEnv)
  (vecSend : List (CScript × Int))

def createTransactionFee (wtxNew : CTransaction) (ch : Nat → Choices) : Except Fault Int :=
  match vecSend, sendTotal vecSend 0 with
  | _ :: _, some nValue =>
    feeLoopRet (fun k nFeeRet => w.createRound e s fuel c vecSend nValue wtxNew (ch k) nFeeRet)
      fuel 0 c.nTransactionFee
  | _, _ => .error .undefined

def createTransactionWithInputTxFee (wtxIn : WalletTx) (nTxOut : Nat) (wtxNew : CTransaction)
    (ch : Nat → Choices) : Except Fault Int :=
  match vecSend, sendTotal vecSend 0 with
  | _ :: _, some nValue =>
    feeLoopRet (fun k nFeeRet =>
      w.createRoundWithInputTx e s fuel c vecSend nValue wtxIn nTxOut wtxNew (ch k) nFeeRet) fuel 0
      c.nTransactionFee
  | _, _ => .error .undefined

def sendMoneyPrepare (scriptPubKey : CScript) (nValue : Int) (wtxNew : CTransaction)
    (ch : Nat → Choices) (fAskFee : Bool) (threadSafeAskFee : Int → Bool) :
    Except Fault (Except String CTransaction) := do
  let vecSend := [(scriptPubKey, nValue)]
  let nFeeRequired ← w.createTransactionFee e s fuel c vecSend wtxNew ch
  match ← w.createTransaction e s fuel c vecSend wtxNew ch with
  | none =>
    let nBalance ← w.getBalance e s fuel
    return .error (feeError " " nValue nFeeRequired nBalance)
  | some wtx =>
    if fAskFee ∧ threadSafeAskFee nFeeRequired = false then return .error "ABORTED"
    return .ok wtx

end Wallet

def nameTxStart : CTransaction := ⟨namecoinTxVersion, [], [], 0⟩

namespace WalletModel

variable {e : NodeEnv} (g : GuiEnv e)

def createFirstUpdate (vchName : VchType) (wtxIn : WalletTx) (rand : Nat) (vchValue : VchType)
    (inp : FirstUpdateInput) (m : WalletModel e) :
    Except Fault (Except String (WalletTx × Int)) := do
  let nHeight := (m.node.view e).pindexBestHeight
  let nNetFee := roundedNetFee (getNetworkFee e.env nHeight)
  let nTxOut ← indexOfNameOutput e.env wtxIn.merkle.tx nHeight
  let vecSend := firstUpdateSend e.env rand vchName vchValue inp.vchPubKey nNetFee
  let nFeeRequired ← m.wallet.createTransactionWithInputTxFee e m.node g.fuel g.send vecSend wtxIn
    nTxOut nameTxStart inp.choices
  match ← m.wallet.createTransactionWithInputTx e m.node g.fuel g.send vecSend wtxIn nTxOut
      nameTxStart inp.choices with
  | none =>
    let nBalance ← m.wallet.getBalance e m.node g.fuel
    return .error (feeError "" minAmount nFeeRequired nBalance)
  | some tx =>
    match tx.checkTransaction e.env with
    | .ok () =>
      return .ok ({ WalletTx.ofTx tx with
        fFromMe := true
        vtxPrev := g.supporting m.wallet m.node tx }, nNetFee + nFeeRequired)
    | .error (.reject _) =>
      return .error
        "Error: CheckTransaction failed for transaction created by nameFirstUpdateCreateTx"
    | .error fault => .error fault

def nameFirstUpdateCreateTx (vchName : VchType) (wtxIn : WalletTx) (rand : Nat)
    (vchValue : VchType) (inp : FirstUpdateInput) (m : WalletModel e) :
    Except Fault (Except String (WalletTx × Int)) :=
  if m.node.chain.mapNamePending vchName ≠ ∅ then
    .ok (.error "there are pending operations on that name")
  else if (getTxOfName (m.node.view e) m.node.chain.dbset vchName).isSome then
    .ok (.error "this name is already active")
  else do
    match ← nameNewHash wtxIn.merkle.tx.vout none with
    | .error strError => return .error strError
    | .ok none => return .error "previous tx on this name is not a name tx"
    | .ok (some vchHash) =>
      if uint160 vchHash ≠ commitmentHash e.env rand vchName then
        return .error "previous tx used a different random value"
      else m.createFirstUpdate g vchName wtxIn rand vchValue inp

def nameNewPass (inp : NameNewInput) (pass : Nat) (nFirstUpdateFee : Int) (m : WalletModel e) :
    Except Fault (Except String (WalletTx × WalletTx × Int)) := do
  let scriptPubKey := nameNewScriptPubKey e.env inp.rand inp.vchName inp.vchPubKey
  match ← m.wallet.sendMoneyPrepare e m.node g.fuel g.send scriptPubKey
      (minAmount + nFirstUpdateFee) nameTxStart (inp.choices pass) (pass == 1)
      inp.threadSafeAskFee with
  | .error strError => return .error strError
  | .ok tx =>
    let wtx := { WalletTx.ofTx tx with
      fFromMe := true
      vtxPrev := g.supporting m.wallet m.node tx }
    match ← m.nameFirstUpdateCreateTx g inp.vchName wtx inp.rand [] (inp.firstUpdate pass) with
    | .error strError => return .error strError
    | .ok (prep, nFirstUpdateFee) => return .ok (wtx, prep, nFirstUpdateFee)

def nameNewDraft (inp : NameNewInput) (m : WalletModel e) :
    Except Fault (Except String (WalletTx × WalletTx)) := do
  match ← m.nameNewPass g inp 1 0 with
  | .error strError => return .error strError
  | .ok (wtx, prep, nFirstUpdateFee) =>
    if nFirstUpdateFee = 0 then return .ok (wtx, prep)
    else
      match ← m.nameNewPass g inp 2 nFirstUpdateFee with
      | .error strError => return .error strError
      | .ok (wtx, prep, _) => return .ok (wtx, prep)

def writeFirstUpdate (vchName : VchType) (r : FirstUpdateRecord) (m : WalletModel e) :
    WalletModel e :=
  { m with walletdb := m.walletdb.insert vchName r }

def eraseFirstUpdate (vchName : VchType) (m : WalletModel e) : WalletModel e :=
  { m with
    mapMyNameFirstUpdate := m.mapMyNameFirstUpdate.erase vchName
    walletdb := m.walletdb.erase vchName }

def rejectedMsg : String :=
  "Error: The transaction was rejected.  This might happen if some of the coins in your wallet " ++
    "were already spent, such as if you used a copy of wallet.dat and coins were spent in the " ++
    "copy but not marked as spent here."

def nameNew (inp : NameNewInput) (m : WalletModel e) :
    Except Fault (NameNewReturn × WalletModel e) := do
  let hash := commitmentHash e.env inp.rand inp.vchName
  let ret : NameNewReturn := ⟨false, "", inp.vchName, inp.vchPubKey, 0, inp.rand, hash⟩
  match ← m.nameNewDraft g inp with
  | .error strError => return ({ ret with errMsg := strError }, m)
  | .ok (wtx, prepTx) =>
    let hex := wtx.merkle.tx.getHash e.env
    let (fOk, w, s) ← m.wallet.commitTransaction e inp.fRateLimited wtx m.node
    let m := { m with
      wallet := w
      node := s }
    if fOk = false then return ({ ret with hex := hex, errMsg := rejectedMsg }, m)
    let m := { m with
      mapMyNames := m.mapMyNames.insert inp.vchName hex
      mapMyNameHashes := Function.update m.mapMyNameHashes hash (some inp.vchName)
      mapMyNameFirstUpdate := m.mapMyNameFirstUpdate.insert inp.vchName ⟨inp.rand, [], prepTx⟩ }
    let written := { prepTx with vtxPrev := g.supporting w s prepTx.merkle.tx }
    return ({ ret with ok := true, hex := hex },
      m.writeFirstUpdate inp.vchName ⟨hex, inp.rand, [], written⟩)

def nameFirstUpdatePrepare (vchName vchValue : VchType) (inp : FirstUpdateInput)
    (m : WalletModel e) : Except Fault (String × WalletModel e) :=
  match m.mapMyNames[vchName]?, m.mapMyNameFirstUpdate[vchName]? with
  | none, _ => .ok ("Cannot find stored tx hash for name", m)
  | some _, none => .ok ("Cannot find stored rand value for name", m)
  | some wtxInHash, some prep =>
    match m.wallet.mapWallet[wtxInHash]? with
    | none => .ok ("previous transaction is not in the wallet", m)
    | some wtxIn => do
      match ← m.nameFirstUpdateCreateTx g vchName wtxIn prep.rand vchValue inp with
      | .error strError => return (strError, m)
      | .ok (wtx, _) =>
        let m := { m with
          mapMyNameFirstUpdate := m.mapMyNameFirstUpdate.insert vchName ⟨prep.rand, vchValue, wtx⟩ }
        return ("", m.writeFirstUpdate vchName ⟨wtxInHash, prep.rand, vchValue, wtx⟩)

structure Sent where
  vchName : VchType
  rand : Nat
  prevTx : Uint256
  vchData : VchType
  tx : CTransaction
  fAccepted : Bool

def sendPending (fRateLimited : VchType → Bool) : List (VchType × PreparedNameFirstUpdate) →
    WalletModel e → Except Fault (List Sent × WalletModel e)
  | [], m => .ok ([], m)
  | (vchName, prep) :: rest, m =>
    match m.mapMyNames[vchName]? with
    | none => sendPending fRateLimited rest (m.eraseFirstUpdate vchName)
    | some wtxInHash =>
      match m.wallet.mapWallet[wtxInHash]? with
      | none => sendPending fRateLimited rest (m.eraseFirstUpdate vchName)
      | some wtxIn =>
        if wtxIn.getDepthInMainChain e m.node < minFirstupdateDepth then
          sendPending fRateLimited rest m
        else do
          let (fAccepted, w, s) ←
            m.wallet.commitTransaction e (fRateLimited vchName) prep.wtx m.node
          let m := { m with
            wallet := w
            node := s }
          let (log, m) ← sendPending fRateLimited rest (m.eraseFirstUpdate vchName)
          return (⟨vchName, prep.rand, wtxInHash, prep.vchData, prep.wtx.merkle.tx, fAccepted⟩ :: log,
            m)

def sendPendingNameFirstUpdates (fRateLimited : VchType → Bool) (m : WalletModel e) :
    Except Fault (List Sent × WalletModel e) :=
  sendPending fRateLimited m.mapMyNameFirstUpdate.toList m

end WalletModel

end Namecoin
