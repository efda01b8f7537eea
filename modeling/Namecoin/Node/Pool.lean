import Namecoin.Node.Rules

namespace Namecoin

open Act

structure NodeState where
  mapBlockIndex : Uint256 → Option CBlockIndex
  pindexGenesisBlock : Option Uint256
  pindexBest : Option Uint256
  hashBestChain : Uint256
  nBestHeight : Int
  bnBestChainWork : Int
  bnBestInvalidWork : Int
  disk : Disk
  chain : ChainState
  mapTransactions : Uint256 → Option CTransaction
  mapNextTx : COutPoint → Option (Uint256 × Nat)
  setNewHashes : Finset VchType
  mapOrphanBlocks : Uint256 → Option CBlock
  mapOrphanBlocksByPrev : List (Uint256 × CBlock)

structure NodeEnv where
  env : Env
  hashGenesisBlock : Uint256
  nNow : Nat
  fCacheTxPrev : Bool
  writeToDisk : NodeState → CBlock → Option (Nat × Nat)

def pprevWalk (m : Uint256 → Option CBlockIndex) : Nat → Option Uint256 → List CBlockIndex
  | 0, _ => []
  | fuel + 1, h =>
    match h.bind m with
    | none => []
    | some pindex => pindex :: pprevWalk m fuel pindex.pprev

namespace NodeState

def walk (s : NodeState) (h : Option Uint256) : List CBlockIndex :=
  pprevWalk s.mapBlockIndex (((h.bind s.mapBlockIndex).map CBlockIndex.nHeight).getD 0 + 1) h

def view (e : NodeEnv) (s : NodeState) : View :=
  ⟨s.disk, s.mapTransactions, s.nBestHeight,
    ((s.pindexBest.bind s.mapBlockIndex).map CBlockIndex.nHeight).getD 0, e.fCacheTxPrev⟩

def withPending (s : NodeState) (m : VchType → Finset Uint256) : NodeState :=
  { s with chain := { s.chain with mapNamePending := m } }

def addNextTx (hash : Uint256) : List CTxIn → Nat → (COutPoint → Option (Uint256 × Nat)) →
    COutPoint → Option (Uint256 × Nat)
  | [], _, m => m
  | txin :: rest, i, m => addNextTx hash rest (i + 1) (Function.update m txin.prevout (some (hash, i)))

def addToMemoryPoolUnchecked (env : Env) (tx : CTransaction) (s : NodeState) : NodeState :=
  let hash := tx.getHash env
  { s with
    mapTransactions := Function.update s.mapTransactions hash (some tx)
    mapNextTx := addNextTx hash tx.vin 0 s.mapNextTx }

def eraseNextTx (vin : List CTxIn) (m : COutPoint → Option (Uint256 × Nat)) :
    COutPoint → Option (Uint256 × Nat) :=
  vin.foldl (fun m txin => Function.update m txin.prevout none) m

def hookRemoveFromMemoryPool (env : Env) (tx : CTransaction) (s : NodeState) : NodeState :=
  if tx.nVersion ≠ namecoinTxVersion ∨ tx.vout = [] then s
  else
    match decodeNameTx env tx bugWorkaroundBlock with
    | none => s
    | some d =>
      match d.vvch[0]? with
      | some vchName =>
        if d.op = opNameNew then s
        else
          let m := s.chain.mapNamePending
          s.withPending (Function.update m vchName ((m vchName).erase (tx.getHash env)))
      | none => s

def removeFromMemoryPool (env : Env) (tx : CTransaction) (s : NodeState) : NodeState :=
  let s := s.hookRemoveFromMemoryPool env tx
  { s with
    mapNextTx := eraseNextTx tx.vin s.mapNextTx
    mapTransactions := Function.update s.mapTransactions (tx.getHash env) none }

def removeAll (env : Env) (vtx : List CTransaction) (s : NodeState) : NodeState :=
  vtx.foldl (fun s tx => s.removeFromMemoryPool env tx) s

end NodeState

def hookAcceptToMemoryPool (env : Env) (tx : CTransaction) : Act Fault NodeState Unit :=
  if tx.nVersion ≠ namecoinTxVersion then pure ()
  else do
    raiseIf (tx.vout = []) (.reject "AcceptToMemoryPool: no output in name tx")
    let d ← fromOption (.reject "AcceptToMemoryPool: no output out script in name tx")
      (decodeNameTx env tx bugWorkaroundBlock)
    let vchName ← fromExcept (vchAt d.vvch 0)
    if d.op = opNameNew then do
      let s ← get
      raiseIf (vchName ∈ s.setNewHashes)
        (.reject "AcceptToMemoryPool: duplicate name_new hash in tx")
      modify (fun s => { s with setNewHashes := insert vchName s.setNewHashes })
    else
      modify (fun s =>
        let m := s.chain.mapNamePending
        s.withPending (Function.update m vchName (insert (tx.getHash env) (m vchName))))

def poolCall (e : NodeEnv) (s : NodeState) (pindexBest : CBlockIndex) (tx : CTransaction) : TxCall :=
  ⟨e.env, s.view e, tx, ⟨pindexBest, s.walk pindexBest.pprev⟩, false, false⟩

def checkPoolInputs (e : NodeEnv) (tx : CTransaction) (fLimitFree fRateLimited : Bool)
    (s : NodeState) : Except Fault Unit := do
  match s.pindexBest.bind s.mapBlockIndex with
  | none => .error .undefined
  | some pindexBest => do
    let c := poolCall e s pindexBest tx
    let start : ConnState := ⟨s.chain.dbset, fun _ => none, s.chain.mapNamePending,
      tx.vin.map (fun _ => CTxInCache.empty), 0⟩
    let r := exec (c.connectInputs CDiskTxPos.memPool 0) start
    r.1
    Except.raiseIf (fLimitFree ∧ r.2.nFees < tx.getMinFee 1000 true true)
      (.reject "AcceptToMemoryPool() : not enough fees")
    Except.raiseIf (fLimitFree ∧ r.2.nFees < minRelayTxFee ∧ fRateLimited)
      (.reject "AcceptToMemoryPool() : free transaction rejected by rate limiter")

def checkPoolTx (e : NodeEnv) (tx : CTransaction) (fCheckInputs : Bool) (s : NodeState) :
    Except Fault Unit := do
  tx.checkTransaction e.env
  Except.raiseIf (tx.isCoinBase) (.reject "AcceptToMemoryPool() : coinbase as individual tx")
  Except.raiseIf (intMax < tx.nLockTime)
    (.reject "AcceptToMemoryPool() : not accepting nLockTime beyond 2038 yet")
  let nSize := tx.getSerializeSize
  Except.raiseIf (nSize / 34 < tx.getSigOpCount ∨ nSize < 100)
    (.reject "AcceptToMemoryPool() : nonstandard transaction")
  Except.raiseIf (maxStandardTxSize ≤ nSize)
    (.reject "AcceptToMemoryPool() : transaction too large")
  Except.raiseIf (e.env.fTestNet = false ∧ tx.isStandard s.nBestHeight e.nNow = false)
    (.reject "AcceptToMemoryPool() : nonstandard transaction type")
  Except.raiseIf (tx.vout.any (fun out => decide (out.nValue < minRelayTxFee / 10)))
    (.reject "AcceptToMemoryPool : disallowed dust output")
  Except.raiseIf ((s.mapTransactions (tx.getHash e.env)).isSome) (.reject "")
  Except.raiseIf (fCheckInputs ∧ (s.chain.dbset.tx (tx.getHash e.env)).isSome) (.reject "")
  Except.raiseIf (tx.vin.any (fun txin => (s.mapNextTx txin.prevout).isSome)) (.reject "")

def acceptToMemoryPool (e : NodeEnv) (tx : CTransaction)
    (fCheckInputs fLimitFree fRateLimited : Bool) : Act Fault NodeState Unit := do
  let s ← get
  fromExcept (checkPoolTx e tx fCheckInputs s)
  fromExcept (Except.doIf fCheckInputs (checkPoolInputs e tx fLimitFree fRateLimited s))
  hookAcceptToMemoryPool e.env tx
  modify (fun s => s.addToMemoryPoolUnchecked e.env tx)

end Namecoin
