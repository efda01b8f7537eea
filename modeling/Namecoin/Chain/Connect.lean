import Namecoin.Name.Hooks

namespace Namecoin

open Act

def DatabaseSet.writeTx (db : DatabaseSet) (h : Uint256) (t : Option CTxIndex) : DatabaseSet :=
  { db with tx := Function.update db.tx h t }

def lockinHeight (env : Env) : Int := if env.fTestNet then 0 else 193000

def valueOutFrom : List CTxOut → Int → Except Fault Int
  | [], nValueOut => .ok nValueOut
  | txout :: rest, nValueOut => do
    let nValueOut ← add64 nValueOut txout.nValue
    Except.raiseIf (¬(moneyRange txout.nValue ∧ moneyRange nValueOut))
      (.exception "CTransaction::GetValueOut() : value out of range")
    valueOutFrom rest nValueOut

def CTransaction.getValueOut (tx : CTransaction) : Except Fault Int := valueOutFrom tx.vout 0

def checkOutputs : List CTxOut → Int → Except Fault Unit
  | [], _ => .ok ()
  | txout :: rest, nValueOut => do
    Except.raiseIf (txout.nValue < 0)
      (.reject "CTransaction::CheckTransaction() : txout.nValue negative")
    Except.raiseIf (maxMoney < txout.nValue)
      (.reject "CTransaction::CheckTransaction() : txout.nValue too high")
    let nValueOut ← add64 nValueOut txout.nValue
    Except.raiseIf (¬moneyRange nValueOut)
      (.reject "CTransaction::CheckTransaction() : txout total out of range")
    checkOutputs rest nValueOut

def CTransaction.checkInputs (tx : CTransaction) : Except Fault Unit :=
  if tx.isCoinBase then
    Except.raiseIf (tx.vin.any (fun txin => decide (txin.scriptSig.length < 2) ||
        decide (100 < txin.scriptSig.length)))
      (.reject "CTransaction::CheckTransaction() : coinbase script size")
  else
    Except.raiseIf (tx.vin.any (fun txin => decide (txin.prevout = COutPoint.null)))
      (.reject "CTransaction::CheckTransaction() : prevout is null")

def CTransaction.checkTransaction (env : Env) (tx : CTransaction) : Except Fault Unit := do
  Except.raiseIf (tx.vin = [] ∨ tx.vout = [])
    (.reject "CTransaction::CheckTransaction() : vin or vout empty")
  Except.raiseIf (maxBlockSize < tx.getSerializeSize)
    (.reject "CTransaction::CheckTransaction() : size limits failed")
  checkOutputs tx.vout 0
  tx.checkInputs
  let ok ← hookCheckTransaction env tx
  Except.raiseIf (¬ok) (.reject "name transaction rejected")

structure TxCall where
  env : Env
  view : View
  tx : CTransaction
  pindexBlock : Branch
  fBlock : Bool
  fMiner : Bool

namespace TxCall

def readTxIndex (c : TxCall) (s : ConnState) (h : Uint256) : Option CTxIndex :=
  if c.fMiner && (s.mapTestPool h).isSome then s.mapTestPool h else s.dbset.tx h

def readPrev (c : TxCall) (prevout : COutPoint) (fFound : Bool) (txindex : CTxIndex) :
    Except Fault CTransaction :=
  if !fFound || decide (txindex.pos = CDiskTxPos.memPool) then
    match c.view.mapTransactions prevout.hash with
    | none => .error (.reject "ConnectInputs() : mapTransactions prev not found")
    | some txPrev => .ok txPrev
  else
    match c.view.disk.readFromDisk txindex.pos with
    | none => .error (.reject "ConnectInputs: ReadFromDisk prev tx failed")
    | some txPrev => .ok txPrev

def putCache (i : Nat) (f : CTxInCache → CTxInCache) : Act Fault ConnState Unit :=
  modify (fun s => { s with vin := s.vin.modify i f })

def fetchPrev (c : TxCall) (i : Nat) (prevout : COutPoint) (fFound : Bool) (txindex : CTxIndex) :
    Act Fault ConnState CTransaction := do
  let s ← get
  let cache := s.vin.getD i CTxInCache.empty
  match cache.txPrev with
  | some txPrev => do
    raiseIf (cache.fHasPrevInfo = false) .assertion
    pure txPrev
  | none => do
    let txPrev ← fromExcept (c.readPrev prevout fFound txindex)
    putCache i (fun old => { old with
      txPrev := if c.view.fCacheTxPrev then some txPrev else none
      fHasPrevInfo := true
      fChecked := if old.fHasPrevInfo then old.fChecked else false
      prevPos := txindex.pos })
    pure txPrev

def verifySignature (c : TxCall) (i : Nat) (txin : CTxIn) (txPrev : CTransaction) :
    Act Fault ConnState Unit := do
  let s ← get
  let cache := s.vin.getD i CTxInCache.empty
  match txPrev.vout[txin.prevout.n]? with
  | none => throw (.reject "ConnectInputs: VerifySignature failed")
  | some txout => do
    raiseIf (txin.prevout.hash ≠ txPrev.getHash c.env)
      (.reject "ConnectInputs: VerifySignature failed")
    raiseIf ((cache.fHasPrevInfo && cache.fChecked) = false ∧
        c.env.verifyScript txin.scriptSig txout.scriptPubKey c.tx i 0 = false)
      (.reject "ConnectInputs: VerifySignature failed")
    putCache i (fun old => { old with fChecked := old.fChecked || old.fHasPrevInfo })

def immature (c : TxCall) (pos : CDiskTxPos) : Bool :=
  (relativeDepth c.pindexBlock.pindex.nHeight pos coinbaseMaturity c.pindexBlock.walk).isSome

def writeBack (c : TxCall) (h : Uint256) (txindex : CTxIndex) : Act Fault ConnState Unit :=
  modify (fun s =>
    if c.fBlock then
      { s with dbset := s.dbset.writeTx h (some txindex) }
    else if c.fMiner then
      { s with mapTestPool := Function.update s.mapTestPool h (some txindex) }
    else s)

def connectInput (c : TxCall) (i : Nat) (txin : CTxIn) (nValueIn : Int) :
    Act Fault ConnState (CTransaction × CTxIndex × Int) := do
  let s ← get
  let prevout := txin.prevout
  let read := c.readTxIndex s prevout.hash
  raiseIf (read.isNone ∧ (c.fBlock || c.fMiner))
    (.reject "ConnectInputs() : prev tx index entry not found")
  let txindex := read.getD (CTxIndex.make CDiskTxPos.null (prevout.n + 1))
  raiseIf (txindex.getOutputCount ≤ prevout.n) (.reject "ConnectInputs: prevout.n out of range")
  let txPrev ← c.fetchPrev i prevout read.isSome txindex
  raiseIf (txPrev.vout.length ≤ prevout.n) (.reject "ConnectInputs: prevout.n out of range")
  doIf (¬(c.fBlock ∧ c.view.nBestHeight < lockinHeight c.env)) (c.verifySignature i txin txPrev)
  raiseIf (txPrev.isCoinBase ∧ c.immature txindex.pos)
    (.reject "ConnectInputs() : tried to spend coinbase at depth")
  raiseIf (txindex.isSpent[prevout.n]? = some true)
    (.reject "ConnectInputs() : prev tx already spent")
  let nValue := ((txPrev.vout[prevout.n]?).map CTxOut.nValue).getD 0
  putCache i (fun old => { old with nValue := nValue })
  let nValueIn ← fromExcept (add64 nValueIn nValue)
  raiseIf (¬(moneyRange nValue ∧ moneyRange nValueIn))
    (.reject "ConnectInputs() : txin values out of range")
  let txindex := txindex.setSpent prevout.n true
  c.writeBack prevout.hash txindex
  pure (txPrev, txindex, nValueIn)

def connectVin (c : TxCall) : List CTxIn → Nat → Int →
    Act Fault ConnState (List (CTransaction × CTxIndex) × Int)
  | [], _, nValueIn => pure ([], nValueIn)
  | txin :: rest, i, nValueIn => do
    let r ← c.connectInput i txin nValueIn
    let rs ← connectVin c rest (i + 1) r.2.2
    pure ((r.1, r.2.1) :: rs.1, rs.2)

def nameCall (c : TxCall) (posThisTx : CDiskTxPos) (vTxindex : List CTxIndex) : NameCall :=
  ⟨c.env, c.view, c.tx, vTxindex, c.pindexBlock, posThisTx, c.fBlock, c.fMiner⟩

def tallyFee (c : TxCall) (nValueIn nMinFee : Int) : Act Fault ConnState Unit := do
  let nValueOut ← fromExcept c.tx.getValueOut
  let nTxFee ← fromExcept (add64 nValueIn (-nValueOut))
  raiseIf (nTxFee < 0) (.reject "ConnectInputs() : nTxFee < 0")
  raiseIf (nTxFee < nMinFee) (.reject "")
  let s ← get
  let nFees ← fromExcept (add64 s.nFees nTxFee)
  modify (fun s => { s with nFees := nFees })
  raiseIf (¬moneyRange nFees) (.reject "ConnectInputs() : nFees out of range")

def addTxIndex (c : TxCall) (posThisTx : CDiskTxPos) : Act Fault ConnState Unit :=
  modify (fun s =>
    let h := c.tx.getHash c.env
    if c.fBlock then
      { s with dbset := s.dbset.writeTx h (some (CTxIndex.make posThisTx c.tx.vout.length)) }
    else if c.fMiner then
      let txindex := CTxIndex.make CDiskTxPos.memPool c.tx.vout.length
      { s with mapTestPool := Function.update s.mapTestPool h (some txindex) }
    else s)

def spendInputs (c : TxCall) (posThisTx : CDiskTxPos) (nMinFee : Int) :
    Act Fault ConnState Unit := do
  let rs ← c.connectVin c.tx.vin 0 0
  (c.nameCall posThisTx (rs.1.map Prod.snd)).connectInputs (rs.1.map Prod.fst)
  c.tallyFee rs.2 nMinFee

def connectInputs (c : TxCall) (posThisTx : CDiskTxPos) (nMinFee : Int) :
    Act Fault ConnState Unit := do
  doIf (c.tx.isCoinBase = false) (c.spendInputs posThisTx nMinFee)
  c.addTxIndex posThisTx

end TxCall

def disconnectVin : List CTxIn → DatabaseSet → Except Fault DatabaseSet
  | [], db => .ok db
  | txin :: rest, db =>
    match db.tx txin.prevout.hash with
    | none => .error (.reject "DisconnectInputs() : ReadTxIndex failed")
    | some txindex =>
      if txindex.getOutputCount ≤ txin.prevout.n then
        .error (.reject "DisconnectInputs() : prevout.n out of range")
      else if txindex.isSpent[txin.prevout.n]? = some false then .error .assertion
      else
        let txindex := txindex.setSpent txin.prevout.n false
        disconnectVin rest (db.writeTx txin.prevout.hash (some txindex))

def CTransaction.restoreInputs (tx : CTransaction) (db : DatabaseSet) : Except Fault DatabaseSet :=
  if tx.isCoinBase then .ok db else disconnectVin tx.vin db

def CTransaction.disconnectInputs (env : Env) (tx : CTransaction) (pindex : CBlockIndex)
    (db : DatabaseSet) : Except Fault DatabaseSet := do
  let db ← hookDisconnectInputs env tx pindex db
  let db ← tx.restoreInputs db
  pure (db.writeTx (tx.getHash env) none)

end Namecoin
