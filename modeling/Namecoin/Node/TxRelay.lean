import Namecoin.Data.RoundTrip
import Namecoin.Node.Mempool

namespace Namecoin

open Act

-- A multimap entry's stream pointer is the key its stream has in mapOrphanTransactions. The
-- rate limiter runs on floating point over the clock, so it is the answers it will give, next first.
structure TxRelay where
  node : NodeState
  mapOrphanTransactions : Uint256 → Option (List UInt8)
  mapOrphanTransactionsByPrev : List (Uint256 × Uint256)
  rateLimiter : Nat → Bool

structure TxMessage where
  nNow : Nat
  vRecv : List UInt8

def NodeEnv.atTime (e : NodeEnv) (nNow : Nat) : NodeEnv := { e with nNow := nNow }

def CTransaction.prevHashes (tx : CTransaction) : List Uint256 :=
  tx.vin.map (fun txin => txin.prevout.hash)

def readTx (vMsg : List UInt8) : Except Fault CTransaction :=
  match CTransaction.unserialize vMsg with
  | none => .error (.exception "CDataStream::read() : end of data")
  | some r => .ok r.1

def poolStart (s : NodeState) (tx : CTransaction) : ConnState :=
  ⟨s.chain.dbset, fun _ => none, s.chain.mapNamePending, tx.vin.map (fun _ => CTxInCache.empty), 0⟩

def poolConnect (e : NodeEnv) (tx : CTransaction) (s : NodeState) : Except Fault Unit × ConnState :=
  match s.pindexBest.bind s.mapBlockIndex with
  | none => (.error .undefined, poolStart s tx)
  | some pindexBest =>
    exec ((poolCall e s pindexBest tx).connectInputs CDiskTxPos.memPool 0) (poolStart s tx)

def Fault.isReject : Fault → Bool
  | .reject _ => true
  | _ => false

def fMissingInputs (e : NodeEnv) (tx : CTransaction) (s : NodeState) : Bool :=
  match checkPoolTx e tx true s, (poolConnect e tx s).1 with
  | .ok (), .error fault => fault.isReject
  | _, _ => false

namespace TxRelay

def withNode (rl : TxRelay) (node : NodeState) : TxRelay :=
  { rl with node := node, rateLimiter := fun n => rl.rateLimiter (n + 1) }

def orphansOf (rl : TxRelay) (hashPrev : Uint256) : List Uint256 :=
  (rl.mapOrphanTransactionsByPrev.filter (fun p => decide (p.1 = hashPrev))).map Prod.snd

def addOrphan (hash : Uint256) (tx : CTransaction) (vMsg : List UInt8) (rl : TxRelay) : TxRelay :=
  { rl with
    mapOrphanTransactions := Function.update rl.mapOrphanTransactions hash (some vMsg)
    mapOrphanTransactionsByPrev :=
      tx.vin.foldl (fun m txin => m ++ [(txin.prevout.hash, hash)]) rl.mapOrphanTransactionsByPrev }

def eraseOrphan (hash : Uint256) (tx : CTransaction) (rl : TxRelay) : TxRelay :=
  { rl with
    mapOrphanTransactionsByPrev := tx.vin.foldl
      (fun m txin => m.filter (fun p => decide (¬(p.1 = txin.prevout.hash ∧ p.2 = hash))))
      rl.mapOrphanTransactionsByPrev
    mapOrphanTransactions := Function.update rl.mapOrphanTransactions hash none }

end TxRelay

def acceptTx (e : NodeEnv) (tx : CTransaction) : Act Fault TxRelay Bool := do
  let rl ← get
  let r := exec (acceptToMemoryPool e tx true true (rl.rateLimiter 0)) rl.node
  modify (fun rl => rl.withNode r.2)
  match r.1 with
  | .ok () => pure true
  | .error (.reject _) => pure false
  | .error fault => throw fault

def addOrphanTx (env : Env) (vMsg : List UInt8) : Act Fault TxRelay Unit := do
  let tx ← fromExcept (readTx vMsg)
  let hash := tx.getHash env
  let rl ← get
  doIf ((rl.mapOrphanTransactions hash).isNone) (modify (TxRelay.addOrphan hash tx vMsg))

def eraseOrphanTx (hash : Uint256) : Act Fault TxRelay Unit := do
  let rl ← get
  match rl.mapOrphanTransactions hash with
  | none => pure ()
  | some vMsg => do
    let tx ← fromExcept (readTx vMsg)
    modify (TxRelay.eraseOrphan hash tx)

def eraseOrphanTxs : List Uint256 → Act Fault TxRelay Unit
  | [] => pure ()
  | hash :: rest => do
    eraseOrphanTx hash
    eraseOrphanTxs rest

def retryOrphan (e : NodeEnv) (hash : Uint256) : Act Fault TxRelay (List Uint256) := do
  let rl ← get
  let vMsg ← fromOption .undefined (rl.mapOrphanTransactions hash)
  let tx ← fromExcept (readTx vMsg)
  let fAccepted ← acceptTx e tx
  pure (if fAccepted then [tx.getHash e.env] else [])

def retryOrphans (e : NodeEnv) : List Uint256 → Act Fault TxRelay (List Uint256)
  | [] => pure []
  | hash :: rest => do
    let vFirst ← retryOrphan e hash
    let vRest ← retryOrphans e rest
    pure (vFirst ++ vRest)

def drainQueue (e : NodeEnv) : Nat → List Uint256 → Act Fault TxRelay (List Uint256)
  | _, [] => pure []
  | 0, _ :: _ => throw .undefined
  | fuel + 1, hashPrev :: vWorkQueue => do
    let rl ← get
    let vNew ← retryOrphans e (rl.orphansOf hashPrev)
    let vRest ← drainQueue e fuel (vWorkQueue ++ vNew)
    pure (hashPrev :: vRest)

def processTx (e : NodeEnv) (vRecv : List UInt8) : Act Fault TxRelay Unit := do
  let tx ← fromExcept (readTx vRecv)
  let vMsg := vRecv.take tx.getSerializeSize
  let rl ← get
  let fAccepted ← acceptTx e tx
  if fAccepted then do
    let vWorkQueue ← drainQueue e (rl.mapOrphanTransactionsByPrev.length + 1) [tx.getHash e.env]
    eraseOrphanTxs vWorkQueue
  else doIf (fMissingInputs e tx rl.node) (addOrphanTx e.env vMsg)

theorem readTx_append {tx : CTransaction} (h : tx.Fits) (rest : List UInt8) :
    readTx (tx.serialize ++ rest) = .ok tx := by
  rw [readTx, CTransaction.reads h rest]

theorem readTx_serialize {tx : CTransaction} (h : tx.Fits) : readTx tx.serialize = .ok tx := by
  simpa using readTx_append h []

theorem take_message (tx : CTransaction) (rest : List UInt8) :
    (tx.serialize ++ rest).take tx.getSerializeSize = tx.serialize := by
  rw [← CTransaction.serialize_length, List.take_left]

theorem checkPoolInputs_eq (e : NodeEnv) (tx : CTransaction) (fLimitFree fRateLimited : Bool)
    (s : NodeState) :
    checkPoolInputs e tx fLimitFree fRateLimited s = (do
      (poolConnect e tx s).1
      Except.raiseIf (fLimitFree ∧ (poolConnect e tx s).2.nFees < tx.getMinFee 1000 true true)
        (.reject "AcceptToMemoryPool() : not enough fees")
      Except.raiseIf (fLimitFree ∧ (poolConnect e tx s).2.nFees < minRelayTxFee ∧ fRateLimited)
        (.reject "AcceptToMemoryPool() : free transaction rejected by rate limiter")) := by
  unfold checkPoolInputs poolConnect
  cases s.pindexBest.bind s.mapBlockIndex with
  | none => rfl
  | some pindexBest => rfl

end Namecoin
