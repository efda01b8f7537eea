import Namecoin.Chain.Wallet

namespace Namecoin

open Act

def getBlockValue (nHeight : Nat) (nFees : Int) : Except Fault Int :=
  add64 ((50 * coin) >>> (nHeight / 210000 % 64)) nFees

def CBlock.checkProofOfWork (env : Env) (b : CBlock) (nHeight : Nat) : Bool :=
  let hash := b.toCBlockHeader.getHash env
  if getAuxPowStartBlock env ≤ nHeight then
    (env.fTestNet || nHeight == intMax || b.toCBlockHeader.getChainID == getOurChainID) &&
      match b.auxpow with
      | some a =>
        !(doStrictChecks env nHeight && hasAuxPowVersion a.parent.nVersion) &&
          a.check env hash b.toCBlockHeader.getChainID &&
          Namecoin.checkProofOfWork env (a.parent.getHash env) b.nBits
      | none => Namecoin.checkProofOfWork env hash b.nBits
  else b.auxpow.isNone && Namecoin.checkProofOfWork env hash b.nBits

def checkDbLockLimit (env : Env) (vtx : List CTransaction) : Bool :=
  let ids := vtx.flatMap (fun tx => tx.getHash env :: tx.vin.map (fun txin => txin.prevout.hash))
  let nNames := (vtx.filter (fun tx => decide (tx.nVersion = namecoinTxVersion))).length
  decide (ids.dedup.length + nNames ≤ 4500)

def checkTransactions (env : Env) : List CTransaction → Except Fault Unit
  | [] => .ok ()
  | tx :: rest => do
    tx.checkTransaction env
    checkTransactions env rest

def CBlock.checkBlock (env : Env) (nNow : Int) (b : CBlock) (nHeight : Nat) :
    Except Fault Unit := do
  Except.raiseIf (b.vtx = [] ∨ maxBlockSize < b.vtx.length ∨ maxBlockSize < b.getSerializeSize)
    (.reject "CheckBlock() : size limits failed")
  Except.raiseIf (doStrictChecks env nHeight ∧ ¬checkDbLockLimit env b.vtx)
    (.reject "CheckBlock : DB lock limit exceeded")
  Except.raiseIf (¬b.checkProofOfWork env nHeight)
    (.reject "CheckBlock() : proof of work failed")
  Except.raiseIf (nNow + 2 * 60 * 60 < b.nTime)
    (.reject "CheckBlock() : block timestamp too far in the future")
  Except.raiseIf (¬(b.vtx.head?.any CTransaction.isCoinBase))
    (.reject "CheckBlock() : first tx is not coinbase")
  Except.raiseIf (b.vtx.tail.any CTransaction.isCoinBase)
    (.reject "CheckBlock() : more than one coinbase")
  checkTransactions env b.vtx
  Except.raiseIf (¬(txHashes env b.vtx).Nodup) (.reject "CheckBlock() : duplicate transaction")
  Except.raiseIf (maxBlockSigops < (b.vtx.map CTransaction.getSigOpCount).sum)
    (.reject "CheckBlock() : too many nonstandard transactions")
  Except.raiseIf (b.hashMerkleRoot ≠ b.buildMerkleTree env)
    (.reject "CheckBlock() : hashMerkleRoot mismatch")

theorem CBlock.checkBlock_nodup {env : Env} {nNow : Int} {b : CBlock} {nHeight : Nat} {u : Unit}
    (h : b.checkBlock env nNow nHeight = .ok u) : (txHashes env b.vtx).Nodup := by
  simp only [checkBlock, Except.bind_eq_ok, Except.raiseIf_eq_ok] at h
  obtain ⟨-, -, -, -, -, -, -, -, -, -, -, -, -, -, -, hnd, -⟩ := h
  exact not_not.mp hnd

structure ChainState where
  dbset : DatabaseSet
  mapNamePending : VchType → Finset Uint256
  wallet : CWallet

structure BlockCall where
  env : Env
  view : View
  nNow : Nat
  pindex : Branch

namespace BlockCall

def txCall (c : BlockCall) (tx : CTransaction) : TxCall :=
  ⟨c.env, c.view, tx, c.pindex, true, false⟩

def connectTx (c : BlockCall) (tx : CTransaction) (nTxPos : Nat) : Act Fault ConnState Unit := do
  modify (fun s => { s with vin := tx.vin.map (fun _ => CTxInCache.empty) })
  (c.txCall tx).connectInputs ⟨c.pindex.pindex.nFile, c.pindex.pindex.nBlockPos, nTxPos⟩ 0

def connectTxs (c : BlockCall) : List CTransaction → Nat → Act Fault ConnState Unit
  | [], _ => pure ()
  | tx :: rest, nTxPos => do
    c.connectTx tx nTxPos
    connectTxs c rest (nTxPos + tx.getSerializeSize)

def firstTxPos (c : BlockCall) (b : CBlock) : Nat :=
  c.pindex.pindex.nBlockPos + b.headerSize + getSizeOfCompactSize b.vtx.length

def writePrevIndex (c : BlockCall) (hashNext : Uint256) (db : DatabaseSet) : DatabaseSet :=
  match c.pindex.pprev with
  | [] => db
  | pprev :: _ =>
    let disk : CDiskBlockIndex := ⟨pprev, pprev.pprev.getD 0, hashNext⟩
    { db with blockindex := Function.update db.blockindex pprev.hashBlock (some disk) }

def startState (s : ChainState) : ConnState :=
  ⟨s.dbset, fun _ => none, s.mapNamePending, [], 0⟩

def connectBlock (c : BlockCall) (b : CBlock) : Act Fault ChainState Unit := do
  fromExcept (b.checkBlock c.env c.nNow c.pindex.pindex.nHeight)
  let s ← get
  let r := exec (c.connectTxs b.vtx (c.firstTxPos b)) (startState s)
  modify (fun s => { s with dbset := r.2.dbset, mapNamePending := r.2.mapNamePending })
  fromExcept r.1
  let nValueOut ← fromExcept ((b.vtx.head?.map CTransaction.getValueOut).getD (.ok 0))
  let nBlockValue ← fromExcept (getBlockValue c.pindex.pindex.nHeight r.2.nFees)
  raiseIf (nBlockValue < nValueOut) (.reject "")
  modify (fun s => { s with dbset := c.writePrevIndex c.pindex.pindex.hashBlock s.dbset })
  let s ← get
  let wallet ← fromExcept (s.wallet.syncWithWallets c.env c.nNow b b.vtx)
  modify (fun s => { s with wallet := wallet })

def disconnectTxs (c : BlockCall) : List CTransaction → DatabaseSet → Except Fault DatabaseSet
  | [], db => .ok db
  | tx :: rest, db => do
    let db ← disconnectTxs c rest db
    tx.disconnectInputs c.env c.pindex.pindex db

def disconnectBlock (c : BlockCall) (b : CBlock) (db : DatabaseSet) : Except Fault DatabaseSet := do
  let db ← c.disconnectTxs b.vtx db
  pure (c.writePrevIndex 0 db)

end BlockCall

end Namecoin
