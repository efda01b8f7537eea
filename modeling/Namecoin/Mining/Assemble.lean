import Namecoin.Lib.Waiting
import Namecoin.Mining.AuxWork
import Namecoin.Mining.Priority

namespace Namecoin

open Act

-- The operations on double that the priorities use; nothing is assumed of the rounding.
structure Doubles (D : Type) where
  zero : D
  addWeighted : D → Int → Int → D
  div : D → Nat → D
  neg : D → D
  lt : D → D → Bool
  allowFree : D → Bool

structure COrphan (D : Type) where
  ptx : Uint256
  setDependsOn : Finset Uint256
  dPriority : D

-- A COrphan pointer is an index into vOrphan.
structure TxQueue (D : Type) where
  miner : MinerNode
  vOrphan : List (COrphan D)
  mapDependers : Uint256 → List Nat
  mapPriority : List (D × Uint256)

section Queue

variable {D : Type} (m : Doubles D)

-- A multimap inserts behind the entries whose key is not greater.
def insertPriority (x : D × Uint256) : List (D × Uint256) → List (D × Uint256)
  | [] => [x]
  | y :: rest => if m.lt x.1 y.1 then x :: y :: rest else y :: insertPriority x rest

def MinerNode.cacheAt (s : MinerNode) (hash : Uint256) (i : Nat) : CTxInCache :=
  (s.vin hash).getD i CTxInCache.empty

def MinerNode.cachedVin (s : MinerNode) (hash : Uint256) (tx : CTransaction) :
    List (CTxIn × CTxInCache) :=
  tx.vin.zipIdx.map fun p => (p.1, s.cacheAt hash p.2)

structure VisitedTx (D : Type) where
  vin : List CTxInCache
  setDependsOn : List Uint256
  dPriority : Option D

-- The priority is none where the loop goes to skipTransaction.
def visitTx (env : Env) (s : NodeState) : List (CTxIn × CTxInCache) → D →
    Except Fault (VisitedTx D)
  | [], dPriority => .ok ⟨[], [], some dPriority⟩
  | (txin, cache) :: rest, dPriority =>
    if cache.fHasPrevInfo = false then .ok ⟨cache :: rest.map Prod.snd, [], none⟩
    else
      match visitInput env s cache with
      | (cache, none) => do
        let r ← visitTx env s rest dPriority
        pure { r with
          vin := cache :: r.vin
          setDependsOn := txin.prevout.hash :: r.setDependsOn }
      | (cache, some nConf) => do
        Except.raiseIf (¬0 < nConf) .assertion
        let r ← visitTx env s rest (m.addWeighted dPriority cache.nValue nConf)
        pure { r with vin := cache :: r.vin }

def pushDependers (porphan : Nat) (mapDependers : Uint256 → List Nat) (setDependsOn : List Uint256) :
    Uint256 → List Nat :=
  setDependsOn.foldl (fun d hash => Function.update d hash (d hash ++ [porphan])) mapDependers

namespace TxQueue

def insert (hash : Uint256) (nSize : Nat) (r : VisitedTx D) (q : TxQueue D) : TxQueue D :=
  let dPriority := r.dPriority.map fun d => m.div d nSize
  let q := { q with miner := { q.miner with vin := Function.update q.miner.vin hash r.vin } }
  if r.setDependsOn = [] then
    match dPriority with
    | none => q
    | some d => { q with mapPriority := insertPriority m (m.neg d, hash) q.mapPriority }
  else
    { q with
      vOrphan := q.vOrphan ++ [⟨hash, r.setDependsOn.toFinset, dPriority.getD m.zero⟩]
      mapDependers := pushDependers q.vOrphan.length q.mapDependers r.setDependsOn }

def visit (e : NodeEnv) (hash : Uint256) (q : TxQueue D) : Except Fault (TxQueue D) :=
  match q.miner.node.mapTransactions hash with
  | none => .ok q
  | some tx =>
    if q.miner.visits e hash = false then .ok q
    else do
      let r ← visitTx m e.env q.miner.node (q.miner.cachedVin hash tx) m.zero
      pure (q.insert m hash tx.getSerializeSize r)

-- The keys of mapTransactions in the order of the map.
def visitAll (e : NodeEnv) : List Uint256 → TxQueue D → Except Fault (TxQueue D)
  | [], q => .ok q
  | hash :: rest, q => do
    let q ← q.visit m e hash
    visitAll e rest q

def start (s : MinerNode) : TxQueue D := ⟨s, [], fun _ => [], []⟩

end TxQueue

structure Assembly (D : Type) extends TxQueue D where
  vtx : List CTransaction
  nFees : Int
  mapTestPool : Uint256 → Option CTxIndex
  nBlockSize : Nat
  nBlockSigOps : Nat

def getValueIn : List (CTxIn × CTxInCache) → Int → Except Fault Int
  | [], nValueIn => .ok nValueIn
  | (_, cache) :: rest, nValueIn =>
    if cache.fHasPrevInfo = false then .ok (-1)
    else do
      let nValueIn ← add64 nValueIn cache.nValue
      Except.raiseIf (¬(moneyRange cache.nValue ∧ moneyRange nValueIn))
        (.exception "CTransaction::GetValueIn() : value out of range")
      getValueIn rest nValueIn

namespace Assembly

def release (hash : Uint256) : List Nat → List (COrphan D) → List (D × Uint256) →
    List (COrphan D) × List (D × Uint256)
  | [], vOrphan, mapPriority => (vOrphan, mapPriority)
  | i :: rest, vOrphan, mapPriority =>
    match vOrphan[i]? with
    | none => release hash rest vOrphan mapPriority
    | some o =>
      if o.setDependsOn = ∅ then release hash rest vOrphan mapPriority
      else
        let o := { o with setDependsOn := o.setDependsOn.erase hash }
        release hash rest (vOrphan.set i o)
          (if o.setDependsOn = ∅ then insertPriority m (m.neg o.dPriority, o.ptx) mapPriority
          else mapPriority)

def fits (env : Env) (tx : CTransaction) (a : Assembly D) : Bool :=
  decide (a.nBlockSize + tx.getSerializeSize < maxBlockSizeGen) &&
    decide (a.nBlockSigOps + tx.getSigOpCount < maxBlockSigops) &&
    checkDbLockLimit env (a.vtx ++ [tx])

def minFee (dPriority : D) (tx : CTransaction) (a : Assembly D) : Int :=
  let fAllowFree := decide (a.nBlockSize + tx.getSerializeSize < 4000) || m.allowFree dPriority
  tx.getMinFee a.nBlockSize fAllowFree true

def add (env : Env) (tx : CTransaction) (mapTestPool : Uint256 → Option CTxIndex)
    (a : Assembly D) : Assembly D :=
  let hash := tx.getHash env
  let r := release m hash (a.mapDependers hash) a.vOrphan a.mapPriority
  { a with
    vOrphan := r.1
    mapPriority := r.2
    vtx := a.vtx ++ [tx]
    mapTestPool := mapTestPool
    nBlockSize := a.nBlockSize + tx.getSerializeSize
    nBlockSigOps := a.nBlockSigOps + tx.getSigOpCount }

def txCall (e : NodeEnv) (s : MinerNode) (tx : CTransaction) (pindexPrev : CBlockIndex) : TxCall :=
  ⟨e.env, s.node.view e, tx, ⟨pindexPrev, s.node.walk pindexPrev.pprev⟩, false, true⟩

def connState (hash : Uint256) (tx : CTransaction) (a : Assembly D) : ConnState :=
  ⟨a.miner.node.chain.dbset, a.mapTestPool, a.miner.node.chain.mapNamePending,
    (a.miner.cachedVin hash tx).map Prod.snd, a.nFees⟩

def withConn (hash : Uint256) (r : ConnState) (a : Assembly D) : Assembly D :=
  { a with
    miner := { a.miner with vin := Function.update a.miner.vin hash r.vin }
    nFees := r.nFees }

def connect (e : NodeEnv) (pindexPrev : CBlockIndex) (hash : Uint256) (tx : CTransaction)
    (nMinFee : Int) (a : Assembly D) : Except Fault (Assembly D) :=
  let r := exec ((txCall e a.miner tx pindexPrev).connectInputs CDiskTxPos.memPool nMinFee)
    (a.connState hash tx)
  match r.1 with
  | .ok _ => .ok ((a.withConn hash r.2).add m e.env tx r.2.mapTestPool)
  | .error (.reject _) => .ok (a.withConn hash r.2)
  | .error fault => .error fault

def tryTx (e : NodeEnv) (pindexPrev : CBlockIndex) (dPriority : D) (hash : Uint256)
    (tx : CTransaction) (a : Assembly D) : Except Fault (Assembly D) :=
  if a.fits e.env tx = false then .ok a
  else do
    let nMinFee := a.minFee m dPriority tx
    let nValueIn ← getValueIn (a.miner.cachedVin hash tx) 0
    if nValueIn < 0 then pure a
    else do
      let nValueOut ← tx.getValueOut
      let nFee ← add64 nValueIn (-nValueOut)
      if nFee < nMinFee then pure a else a.connect m e pindexPrev hash tx nMinFee

def tryFirst (e : NodeEnv) (pindexPrev : CBlockIndex) (first : D × Uint256) (a : Assembly D) :
    Except Fault (Assembly D) :=
  match a.miner.node.mapTransactions first.2 with
  | none => .error .undefined
  | some tx => a.tryTx m e pindexPrev (m.neg first.1) first.2 tx

def collect (e : NodeEnv) (pindexPrev : CBlockIndex) : Nat → Assembly D → Except Fault (Assembly D)
  | 0, a => .ok a
  | fuel + 1, a =>
    match a.mapPriority with
    | [] => .ok a
    | first :: rest => do
      let a ← { a with mapPriority := rest }.tryFirst m e pindexPrev first
      collect e pindexPrev fuel a

def start (txNew : CTransaction) (q : TxQueue D) : Assembly D :=
  { q with
    vtx := [txNew]
    nFees := 0
    mapTestPool := fun _ => none
    nBlockSize := 1000
    nBlockSigOps := 100 }

def coinbase (pubKey : VchType) (nValue : Int) : CTransaction :=
  ⟨1, [⟨COutPoint.null, [], uintMax⟩], [⟨nValue, payToPubkey pubKey⟩], 0⟩

-- A block spends each entry of the queue and of vOrphan at most once.
def collectAll (e : NodeEnv) (pindexPrev : CBlockIndex) (pubKey : VchType) (q : TxQueue D) :
    Except Fault (Assembly D) :=
  collect m e pindexPrev (q.mapPriority.length + q.vOrphan.length) (start (coinbase pubKey 0) q)

def finish (e : NodeEnv) (pindexPrev : CBlockIndex) (pubKey : VchType) (a : Assembly D) :
    Except Fault CBlock :=
  fillBlock e.env ⟨pindexPrev, a.miner.node.walk pindexPrev.pprev⟩ e.nNow pubKey a.vtx.tail a.nFees

def createNewBlock (e : NodeEnv) (hashes : List Uint256) (pubKey : VchType) (s : MinerNode) :
    Except Fault (CBlock × MinerNode) :=
  match s.node.pindexBest.bind s.node.mapBlockIndex with
  | none => .error .undefined
  | some pindexPrev => do
    let q ← (TxQueue.start s).visitAll m e hashes
    let a ← collectAll m e pindexPrev pubKey q
    let b ← a.finish e pindexPrev pubKey
    pure (b, a.miner)

end Assembly

end Queue

end Namecoin
