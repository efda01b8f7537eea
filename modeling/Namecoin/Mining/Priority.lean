import Namecoin.Chain.SigCache
import Namecoin.Node.Orphan
import Namecoin.Node.TxIndexed
import Namecoin.Node.TxRelay

namespace Namecoin

open Act

structure MinerNode where
  node : NodeState
  vin : Uint256 → List CTxInCache

def getContainingBlock (env : Env) (s : NodeState) (pos : CDiskTxPos) : Option CBlockIndex :=
  if pos.isNull ∨ pos = CDiskTxPos.memPool then none
  else (s.disk.readBlock pos.nFile pos.nBlockPos).bind (fun b => s.mapBlockIndex (b.getHash env))

def getHeight (env : Env) (s : NodeState) (pos : CDiskTxPos) : Int :=
  match getContainingBlock env s pos with
  | none => -1
  | some pindex => pindex.nHeight

def minPriorityCacheConf : Int := 120

-- The comparison is unsigned, since MIN_PRIORITY_CACHE_CONF is.
def remembersHeight (nHeight nBestHeight : Int) : Bool :=
  decide ((nHeight + minPriorityCacheConf) % 2 ^ 32 < nBestHeight % 2 ^ 32)

def visitInput (env : Env) (s : NodeState) (txin : CTxInCache) : CTxInCache × Option Int :=
  if txin.prevHeight ≠ -1 then (txin, some (1 + s.nBestHeight - txin.prevHeight))
  else
    let nHeight := getHeight env s txin.prevPos
    (if remembersHeight nHeight s.nBestHeight then { txin with prevHeight := nHeight } else txin,
      if nHeight = -1 then none else some (1 + s.nBestHeight - nHeight))

def visitInputs (env : Env) (s : NodeState) : List CTxInCache → List CTxInCache × List Int
  | [] => ([], [])
  | txin :: rest =>
    if txin.fHasPrevInfo = false then (txin :: rest, [])
    else
      let first := visitInput env s txin
      let more := visitInputs env s rest
      (first.1 :: more.1, first.2.toList ++ more.2)

namespace MinerNode

def visits (e : NodeEnv) (s : MinerNode) (hash : Uint256) : Bool :=
  match s.node.mapTransactions hash with
  | none => false
  | some tx => !tx.isCoinBase && tx.isFinalTx s.node.nBestHeight e.nNow 0 0

def nConfs (e : NodeEnv) (s : MinerNode) (hash : Uint256) : List Int :=
  if s.visits e hash then (visitInputs e.env s.node (s.vin hash)).2 else []

def visitPool (e : NodeEnv) (s : MinerNode) : MinerNode :=
  { s with vin := fun hash =>
      if s.visits e hash then (visitInputs e.env s.node (s.vin hash)).1 else s.vin hash }

def prioritised (e : NodeEnv) (s : MinerNode) (hash : Uint256) : Bool :=
  s.visits e hash && !(s.vin hash).isEmpty && (s.vin hash).all CTxInCache.fHasPrevInfo

-- The transactions tried, with the fee asked of each, follow priorities kept in floating point.
def mineTxs (e : NodeEnv) (pindexPrev : CBlockIndex) : List (Uint256 × Int) →
    (Uint256 → Option CTxIndex) → Int → MinerNode → MinerNode
  | [], _, _, s => s
  | (hash, nMinFee) :: rest, mapTestPool, nFees, s =>
    match s.node.mapTransactions hash with
    | none => mineTxs e pindexPrev rest mapTestPool nFees s
    | some tx =>
      if s.prioritised e hash = false then mineTxs e pindexPrev rest mapTestPool nFees s
      else
        let c : TxCall := ⟨e.env, s.node.view e, tx, ⟨pindexPrev, s.node.walk pindexPrev.pprev⟩,
          false, true⟩
        let r := exec (c.connectInputs CDiskTxPos.memPool nMinFee)
          ⟨s.node.chain.dbset, mapTestPool, s.node.chain.mapNamePending, s.vin hash, nFees⟩
        let s := { s with vin := Function.update s.vin hash r.2.vin }
        match r.1 with
        | .ok _ => mineTxs e pindexPrev rest r.2.mapTestPool r.2.nFees s
        | .error (.reject _) => mineTxs e pindexPrev rest mapTestPool r.2.nFees s
        | .error _ => s

def createNewBlock (e : NodeEnv) (tries : List (Uint256 × Int)) (s : MinerNode) : MinerNode :=
  let s := s.visitPool e
  match s.node.pindexBest.bind s.node.mapBlockIndex with
  | none => s
  | some pindexPrev => mineTxs e pindexPrev tries (fun _ => none) 0 s

def acceptToMemoryPool (e : NodeEnv) (tx : CTransaction)
    (fCheckInputs fLimitFree fRateLimited : Bool) (s : MinerNode) : MinerNode :=
  let r := exec (Namecoin.acceptToMemoryPool e tx fCheckInputs fLimitFree fRateLimited) s.node
  let vin := if fCheckInputs then (poolConnect e tx s.node).2.vin
    else tx.vin.map (fun _ => CTxInCache.empty)
  match r.1 with
  | .ok _ => ⟨r.2, Function.update s.vin (tx.getHash e.env)
      (vin.map (CTxInCache.assign e.fCacheTxPrev CTxInCache.empty))⟩
  | .error _ => ⟨r.2, s.vin⟩

def keepCaches (calls : List (NodeState × CBlock)) (vin : Uint256 → List CTxInCache) :
    Uint256 → List CTxInCache :=
  calls.foldl (fun vin call hash =>
    if (call.1.mapTransactions hash).isSome then vin hash else []) vin

def processBlock (e : NodeEnv) (b : CBlock) (s : MinerNode) : MinerNode :=
  ⟨(exec (Namecoin.processBlock e b) s.node).2, keepCaches (processCalls e b s.node) s.vin⟩

end MinerNode

end Namecoin
