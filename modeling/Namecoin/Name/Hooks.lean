import Namecoin.Lib.Act
import Namecoin.Name.Decode

namespace Namecoin

open Act

structure ConnState where
  dbset : DatabaseSet
  mapTestPool : Uint256 → Option CTxIndex
  mapNamePending : VchType → Finset Uint256
  vin : List CTxInCache
  nFees : Int

structure View where
  disk : Disk
  mapTransactions : Uint256 → Option CTransaction
  nBestHeight : Int
  pindexBestHeight : Nat
  fCacheTxPrev : Bool

def DatabaseSet.writeName (db : DatabaseSet) (name : VchType) (vtxPos : List CNameIndex) :
    DatabaseSet := { db with name := Function.update db.name name (some vtxPos) }

def DatabaseSet.readNameOrEmpty (db : DatabaseSet) (name : VchType) : List CNameIndex :=
  (db.name name).getD []

def getNameHeight (db : DatabaseSet) (vchName : VchType) : Int :=
  match (db.readNameOrEmpty vchName).getLast? with
  | none => -1
  | some txPos => txPos.nHeight

def getValueOfTxPos (env : Env) (v : View) (txPos : CDiskTxPos) : Except Fault (Option VchType) :=
  match v.disk.readFromDisk txPos with
  | none => .ok none
  | some tx => getValueOfNameTx env tx v.pindexBestHeight

def prevScripts (tx : CTransaction) (vTxPrev : List CTransaction) : List CScript :=
  List.zipWith (fun txin txPrev => ((txPrev.vout[txin.prevout.n]?).map
    CTxOut.scriptPubKey).getD []) tx.vin vTxPrev

structure NameCall where
  env : Env
  view : View
  tx : CTransaction
  vTxindex : List CTxIndex
  pindexBlock : Branch
  txPos : CDiskTxPos
  fBlock : Bool
  fMiner : Bool

namespace NameCall

def nHeight (c : NameCall) : Nat := c.pindexBlock.pindex.nHeight

def strictScan (c : NameCall) : Bool :=
  c.fMiner || !c.fBlock || postLibcoinFork c.env c.nHeight

def enforced (c : NameCall) : Bool := !c.fBlock || doStrictChecks c.env c.nHeight

def inputIndex (c : NameCall) (prev : NameScan) : Except Fault CTxIndex :=
  match prev.found with
  | none => .error .undefined
  | some nInput =>
    match c.vTxindex[nInput]? with
    | none => .error .undefined
    | some txindex => .ok txindex

def depthOf (c : NameCall) (txindex : CTxIndex) (maxDepth : Nat) : Int :=
  checkTransactionAtRelativeDepth c.pindexBlock txindex maxDepth

def checkNew (vchName : VchType) (prev : NameScan) : Except Fault Bool := do
  Except.raiseIf (prev.found.isSome)
    (.reject "ConnectInputsHook() : name_new tx pointing to previous namecoin tx")
  Except.raiseIf (vchName.length ≠ 20) (.reject "name_new tx with incorrect hash length")
  pure false

def checkMiner (c : NameCall) (s : ConnState) (vchName : VchType) (txindex : CTxIndex) :
    Except Fault Unit := do
  Except.raiseIf (c.depthOf txindex (getExpirationDepth c.nHeight) = -1)
    (.reject "ConnectInputsHook() : name_firstupdate cannot be mined if name_new is not already in chain and unexpired")
  Except.raiseIf (∃ h ∈ s.mapNamePending vchName, (s.mapTestPool h).isSome = true) (.reject "")

def checkFirstupdate (c : NameCall) (s : ConnState) (vchName : VchType) (d : NameTx)
    (prev : NameScan) : Except Fault Bool := do
  let nNetFee ← getNameNetFee c.tx
  Except.raiseIf (nNetFee < getNetworkFee c.env c.nHeight)
    (.reject "ConnectInputsHook() : got tx with fee too low")
  Except.raiseIf (prev.found.isNone ∨ prev.op ≠ opNameNew)
    (.reject "ConnectInputsHook() : name_firstupdate tx without previous name_new tx")
  let vchRand ← vchAt d.vvch 1
  Except.raiseIf (20 < vchRand.length) (.reject "name_firstupdate tx with rand too big")
  let vchValue ← vchAt d.vvch 2
  Except.raiseIf (maxValueLength < vchValue.length)
    (.reject "name_firstupdate tx with value too long")
  let vchHash ← vchAt prev.vvch 0
  let mismatch := decide (uint160 vchHash ≠ c.env.hash160 (vchRand ++ vchName))
  Except.raiseIf (mismatch ∧ postLibcoinFork c.env c.nHeight)
    (.reject "ConnectInputsHook() : name_firstupdate hash mismatch")
  let nPrevHeight := getNameHeight s.dbset vchName
  Except.raiseIf (0 ≤ nPrevHeight ∧
      (c.nHeight : Int) - nPrevHeight < getExpirationDepth c.nHeight)
    (.reject "ConnectInputsHook() : name_firstupdate on an unexpired name")
  let txindex ← c.inputIndex prev
  let nDepth := c.depthOf txindex minFirstupdateDepth
  Except.raiseIf ((c.fBlock || c.fMiner) ∧ 0 ≤ nDepth ∧ nDepth < minFirstupdateDepth) (.reject "")
  Except.doIf c.fMiner (c.checkMiner s vchName txindex)
  pure mismatch

def checkUpdate (c : NameCall) (vchName : VchType) (d : NameTx) (prev : NameScan) :
    Except Fault Bool := do
  Except.raiseIf (prev.found.isNone ∨ (prev.op ≠ opNameFirstupdate ∧ prev.op ≠ opNameUpdate))
    (.reject "name_update tx without previous update tx")
  let vchValue ← vchAt d.vvch 1
  Except.raiseIf (maxValueLength < vchValue.length) (.reject "name_update tx with value too long")
  let vchPrevName ← vchAt prev.vvch 0
  let mismatch := decide (vchPrevName ≠ vchName)
  Except.raiseIf (mismatch ∧ postLibcoinFork c.env c.nHeight)
    (.reject "ConnectInputsHook() : name_update name mismatch")
  let txindex ← c.inputIndex prev
  let nDepth := c.depthOf txindex (getExpirationDepth c.nHeight)
  Except.raiseIf ((c.fBlock || c.fMiner) ∧ nDepth < 0)
    (.reject "ConnectInputsHook() : name_update on an expired name, or there is a pending transaction on the name")
  pure mismatch

def checkSwitch (c : NameCall) (s : ConnState) (vchName : VchType) (d : NameTx)
    (prev : NameScan) : Except Fault Bool :=
  if d.op = opNameNew then checkNew vchName prev
  else if d.op = opNameFirstupdate then c.checkFirstupdate s vchName d prev
  else if d.op = opNameUpdate then c.checkUpdate vchName d prev
  else .error (.reject "ConnectInputsHook() : name transaction has unknown op")

def checkNameOp (c : NameCall) (s : ConnState) (d : NameTx) (prev : NameScan) :
    Except Fault Bool := do
  let nValue := ((c.tx.vout[d.nOut]?).map CTxOut.nValue).getD 0
  Except.raiseIf (nValue < minAmount ∧ c.enforced)
    (.reject "ConnectInputsHook: not enough locked amount")
  let vchName ← vchAt d.vvch 0
  Except.raiseIf (maxNameLength < vchName.length) (.reject "name transaction with name too long")
  let fBugWorkaround ← c.checkSwitch s vchName d prev
  Except.raiseIf (c.fMiner ∧ fBugWorkaround)
    (.reject "ConnectInputsHook(): mismatch bug workaround - should not mine this tx")
  pure fBugWorkaround

def badPrevPos (c : NameCall) (vtxPos : List CNameIndex) (d : NameTx) (prev : NameScan) :
    Except Fault Bool :=
  if d.op = opNameUpdate then (c.inputIndex prev).map (fun t => !checkNameTxPos vtxPos t.pos)
  else .ok false

def writeHistory (c : NameCall) (vchName : VchType) (d : NameTx) (prev : NameScan) :
    Act Fault ConnState Unit := do
  let s ← get
  let vtxPos := s.dbset.readNameOrEmpty vchName
  let bad ← fromExcept (c.badPrevPos vtxPos d prev)
  if bad then
    raiseIf (postLibcoinFork c.env c.nHeight) (.reject "")
  else do
    let vchValue ← fromExcept (getValueOfTxPos c.env c.view c.txPos)
    modify (fun s => { s with
      dbset := s.dbset.writeName vchName (vtxPos ++ [⟨c.txPos, c.nHeight, vchValue.getD []⟩]) })

def erasePending (c : NameCall) (vchName : VchType) : Act Fault ConnState Unit :=
  modify (fun s => { s with
    mapNamePending := Function.update s.mapNamePending vchName
      ((s.mapNamePending vchName).erase (c.tx.getHash c.env)) })

def applyNameOp (c : NameCall) (d : NameTx) (prev : NameScan) : Act Fault ConnState Unit := do
  let s ← get
  let vchName ← fromExcept (vchAt d.vvch 0)
  let bad ← fromExcept (c.badPrevPos (s.dbset.readNameOrEmpty vchName) d prev)
  raiseIf (c.fBlock = false ∧ bad)
    (.reject "ConnectInputsHook() : Name bug workaround: tx rejected, since previous tx is not in the name DB")
  doIf (c.fBlock ∧ (d.op = opNameFirstupdate ∨ d.op = opNameUpdate))
    (c.writeHistory vchName d prev)
  doIf (c.fBlock ∧ d.op ≠ opNameNew) (c.erasePending vchName)

def connectInputs (c : NameCall) (vTxPrev : List CTransaction) : Act Fault ConnState Unit := do
  let prev ← fromOption (.reject "ConnectInputHook() : multiple previous name transactions")
    (scanNameScripts c.strictScan (prevScripts c.tx vTxPrev) 0 NameScan.start)
  if c.tx.nVersion ≠ namecoinTxVersion then do
    raiseIf (c.tx.outScripts.any isNameScript ∧ c.enforced)
      (.reject "ConnectInputHook: non-Namecoin tx has name outputs")
    raiseIf (prev.found.isSome)
      (.reject "ConnectInputHook() : a non-namecoin transaction with a namecoin input")
  else do
    let d ← fromOption (.reject "ConnectInputsHook() : could not decode a namecoin tx")
      (decodeNameTx c.env c.tx c.nHeight)
    let s ← get
    let fBugWorkaround ← fromExcept (c.checkNameOp s d prev)
    doIf (fBugWorkaround = false) (c.applyNameOp d prev)

end NameCall

def popHistory (db : DatabaseSet) (hash : Uint256) (vchName : VchType) :
    Except Fault DatabaseSet :=
  match db.name vchName with
  | none => .error (.reject "DisconnectInputsHook() : failed to read from name DB")
  | some vtxPos =>
    match vtxPos.getLast? with
    | none => .ok (db.writeName vchName vtxPos)
    | some last =>
      match db.tx hash with
      | none => .error (.reject "DisconnectInputsHook() : failed to read tx index")
      | some txindex =>
        if last.txPos = txindex.pos then .ok (db.writeName vchName vtxPos.dropLast)
        else .ok (db.writeName vchName vtxPos)

def hookDisconnectInputs (env : Env) (tx : CTransaction) (pindexBlock : CBlockIndex)
    (db : DatabaseSet) : Except Fault DatabaseSet :=
  if tx.nVersion ≠ namecoinTxVersion then .ok db
  else
    match decodeNameTx env tx pindexBlock.nHeight with
    | none => .error (.reject "DisconnectInputsHook() : could not decode namecoin tx")
    | some d =>
      if d.op = opNameFirstupdate ∨ d.op = opNameUpdate then
        (vchAt d.vvch 0).bind (popHistory db (tx.getHash env))
      else .ok db

def checkNameRules (env : Env) (tx : CTransaction) (nHeight : Nat) : Except Fault Bool :=
  match decodeNameTx env tx nHeight with
  | none => .ok false
  | some d =>
    (vchAt d.vvch 0).bind (fun vchName =>
      if maxNameLength < vchName.length then .ok false
      else if d.op = opNameNew then .ok (decide (vchName.length = 20))
      else if d.op = opNameFirstupdate then
        (vchAt d.vvch 1).bind (fun vchRand => (vchAt d.vvch 2).map (fun vchValue =>
          decide (vchRand.length ≤ 20) && decide (vchValue.length ≤ maxValueLength)))
      else if d.op = opNameUpdate then
        (vchAt d.vvch 1).map (fun vchValue => decide (vchValue.length ≤ maxValueLength))
      else .ok false)

def hookCheckTransaction (env : Env) (tx : CTransaction) : Except Fault Bool :=
  if tx.nVersion ≠ namecoinTxVersion then .ok true
  else
    (checkNameRules env tx 0).bind (fun ret0 =>
      (checkNameRules env tx bugWorkaroundBlock).map (fun ret1 => ret0 || ret1))

end Namecoin
