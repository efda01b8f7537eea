import Namecoin.Node.Pool
import Namecoin.Chain.Run

namespace Namecoin

open Act

def CBlock.getHash (env : Env) (b : CBlock) : Uint256 := b.toCBlockHeader.getHash env

def Disk.readIndexed (env : Env) (d : Disk) (pindex : CBlockIndex) : Option CBlock :=
  (d.readBlock pindex.nFile pindex.nBlockPos).filter
    (fun b => decide (b.getHash env = pindex.hashBlock))

def branches : List CBlockIndex → List Branch
  | [] => []
  | pindex :: pprev => ⟨pindex, pprev⟩ :: branches pprev

def findFork : List CBlockIndex → List CBlockIndex → Except Fault CBlockIndex
  | [], _ => .error (.reject "Reorganize() : pfork->pprev is null")
  | pfork :: rest, plonger =>
    match plonger.dropWhile (fun p => decide (pfork.nHeight < p.nHeight)) with
    | [] => .error (.reject "Reorganize() : plonger->pprev is null")
    | p :: more =>
      if p.hashBlock = pfork.hashBlock then .ok pfork else findFork rest (p :: more)

def upTo (pfork : CBlockIndex) (walk : List CBlockIndex) : List Branch :=
  (branches walk).takeWhile (fun b => decide (b.pindex.hashBlock ≠ pfork.hashBlock))

def DatabaseSet.writeHashBestChain (db : DatabaseSet) (hash : Uint256) : DatabaseSet :=
  { db with hashBestChain := some hash }

def writeBest (hash : Uint256) : Act Fault ChainState Unit :=
  modify (fun s => { s with dbset := s.dbset.writeHashBestChain hash })

def disconnectBranch : List BlockCall → Act Fault ChainState (List CTransaction)
  | [] => pure []
  | c :: rest => do
    let block ← fromOption (.reject "Reorganize() : ReadFromDisk for disconnect failed")
      (c.view.disk.readIndexed c.env c.pindex.pindex)
    let s ← get
    let db ← fromExcept (c.disconnectBlock block s.dbset)
    modify (fun s => { s with dbset := db })
    let vResurrect ← disconnectBranch rest
    pure (block.vtx.filter (fun tx => !tx.isCoinBase) ++ vResurrect)

def connectBranch : List BlockCall → Act Fault ChainState (List CTransaction)
  | [] => pure []
  | c :: rest => do
    let block ← fromOption (.reject "Reorganize() : ReadFromDisk for connect failed")
      (c.view.disk.readIndexed c.env c.pindex.pindex)
    c.connectBlock block
    let vDelete ← connectBranch rest
    pure (block.vtx ++ vDelete)

def extendChain (c : BlockCall) (b : CBlock) : Act Fault ChainState Unit := do
  c.connectBlock b
  writeBest (b.getHash c.env)

def switchBranch (vDisconnect vConnect : List BlockCall) (hash : Uint256) :
    Act Fault ChainState (List CTransaction × List CTransaction) := do
  let vResurrect ← disconnectBranch vDisconnect
  let vDelete ← connectBranch vConnect
  writeBest hash
  pure (vResurrect, vDelete)

def setNext (h next : Option Uint256) (m : Uint256 → Option CBlockIndex) :
    Uint256 → Option CBlockIndex :=
  match h with
  | none => m
  | some h => Function.update m h ((m h).map (fun pindex => { pindex with pnext := next }))

namespace NodeState

def blockCall (e : NodeEnv) (s : NodeState) (b : Branch) : BlockCall :=
  ⟨e.env, s.view e, e.nNow, b⟩

def invalidChainFound (pindexNew : CBlockIndex) (s : NodeState) : NodeState :=
  { s with bnBestInvalidWork := max s.bnBestInvalidWork pindexNew.bnChainWork }

def linkNext (pindex : CBlockIndex) (next : Option Uint256) (s : NodeState) : NodeState :=
  { s with mapBlockIndex := setNext pindex.pprev next s.mapBlockIndex }

def newBest (pindexNew : CBlockIndex) (hash : Uint256) (s : NodeState) : NodeState :=
  { s with
    hashBestChain := hash
    pindexBest := some hash
    nBestHeight := pindexNew.nHeight
    bnBestChainWork := pindexNew.bnChainWork }

def resurrect (e : NodeEnv) (vResurrect : List CTransaction) (s : NodeState) : NodeState :=
  vResurrect.foldl (fun s tx => (exec (acceptToMemoryPool e tx false true false) s).2) s

end NodeState

def runTxn {α : Type} (pindexNew : CBlockIndex) (x : Act Fault ChainState α) :
    Act Fault NodeState α := do
  let s ← get
  let r := exec x s.chain
  match r.1 with
  | .ok a => do
    modify (fun s => { s with chain := r.2 })
    pure a
  | .error fault => do
    modify (fun s => NodeState.invalidChainFound pindexNew
      { s with chain := { r.2 with dbset := s.chain.dbset } })
    throw fault

def relink (vDisconnect vConnect : List Branch) (s : NodeState) : NodeState :=
  let s := vDisconnect.foldl (fun s b => s.linkNext b.pindex none) s
  vConnect.foldl (fun s b => s.linkNext b.pindex (some b.pindex.hashBlock)) s

def reorganize (e : NodeEnv) (pindexNew : CBlockIndex) : Act Fault NodeState Unit := do
  let s ← get
  let longer := pindexNew :: s.walk pindexNew.pprev
  match findFork (s.walk s.pindexBest) longer with
  | .error fault => do
    modify (fun s => s.invalidChainFound pindexNew)
    throw fault
  | .ok pfork => do
    let vDisconnect := upTo pfork (s.walk s.pindexBest)
    let vConnect := (upTo pfork longer).reverse
    let r ← runTxn pindexNew (switchBranch (vDisconnect.map (s.blockCall e))
      (vConnect.map (s.blockCall e)) pindexNew.hashBlock)
    modify (relink vDisconnect vConnect)
    modify (fun s => s.resurrect e r.1)
    modify (fun s => s.removeAll e.env r.2)

def extendBest (e : NodeEnv) (b : CBlock) (pindexNew : CBlockIndex) : Act Fault NodeState Unit := do
  let s ← get
  runTxn pindexNew (extendChain (s.blockCall e ⟨pindexNew, s.walk pindexNew.pprev⟩) b)
  modify (fun s => s.linkNext pindexNew (some pindexNew.hashBlock))
  modify (fun s => s.removeAll e.env b.vtx)

def NodeState.becomeGenesis (hash : Uint256) (s : NodeState) : NodeState :=
  { s with
    chain := { s.chain with dbset := s.chain.dbset.writeHashBestChain hash }
    pindexGenesisBlock := some hash }

def moveChain (e : NodeEnv) (b : CBlock) (pindexNew : CBlockIndex) : Act Fault NodeState Unit := do
  let s ← get
  if s.pindexGenesisBlock = none ∧ b.getHash e.env = e.hashGenesisBlock then
    modify (NodeState.becomeGenesis (b.getHash e.env))
  else if b.hashPrevBlock = s.hashBestChain then extendBest e b pindexNew
  else reorganize e pindexNew

def setBestChain (e : NodeEnv) (b : CBlock) (pindexNew : CBlockIndex) :
    Act Fault NodeState Unit := do
  moveChain e b pindexNew
  modify (fun s => s.newBest pindexNew (b.getHash e.env))

def newBlockIndex (env : Env) (s : NodeState) (b : CBlock) (nFile nBlockPos : Nat) : CBlockIndex :=
  let pprev := s.mapBlockIndex b.hashPrevBlock
  { hashBlock := b.getHash env
    pprev := pprev.map (fun _ => b.hashPrevBlock)
    pnext := none
    nFile := nFile
    nBlockPos := nBlockPos
    nHeight := (pprev.map (fun p => p.nHeight + 1)).getD 0
    bnChainWork := (pprev.map CBlockIndex.bnChainWork).getD 0 + getBlockWork b.nBits
    nVersion := b.nVersion
    hashMerkleRoot := b.hashMerkleRoot
    nTime := b.nTime
    nBits := b.nBits
    nNonce := b.nNonce }

def insertBlockIndex (pindexNew : CBlockIndex) (s : NodeState) : NodeState :=
  let disk : CDiskBlockIndex := ⟨pindexNew, pindexNew.pprev.getD 0, 0⟩
  let db := s.chain.dbset
  { s with
    mapBlockIndex := Function.update s.mapBlockIndex pindexNew.hashBlock (some pindexNew)
    chain := { s.chain with dbset := { db with
      blockindex := Function.update db.blockindex pindexNew.hashBlock (some disk) } } }

def addToBlockIndex (e : NodeEnv) (b : CBlock) (nFile nBlockPos : Nat) :
    Act Fault NodeState Unit := do
  let s ← get
  raiseIf ((s.mapBlockIndex (b.getHash e.env)).isSome) (.reject "AddToBlockIndex() : already exists")
  let pindexNew := newBlockIndex e.env s b nFile nBlockPos
  modify (insertBlockIndex pindexNew)
  doIf (s.bnBestChainWork < pindexNew.bnChainWork) (setBestChain e b pindexNew)

def checkAccept (e : NodeEnv) (s : NodeState) (b : CBlock) (pindexPrev : CBlockIndex) :
    Except Fault Unit := do
  let walk := s.walk (some b.hashPrevBlock)
  let nHeight := pindexPrev.nHeight + 1
  let nBits ← getNextWorkRequired e.env walk b.toCBlockHeader
  Except.raiseIf (b.nBits ≠ nBits) (.reject "AcceptBlock() : incorrect proof of work")
  Except.raiseIf (b.nTime ≤ getMedianTimePast walk)
    (.reject "AcceptBlock() : block's timestamp is too early")
  Except.raiseIf (b.vtx.any (fun tx => !tx.isFinalTx s.nBestHeight e.nNow nHeight b.nTime))
    (.reject "AcceptBlock() : contains a non-final transaction")
  Except.raiseIf (lockin e.env nHeight (b.getHash e.env) = false)
    (.reject "AcceptBlock() : rejected by checkpoint lockin")

def acceptBlock (e : NodeEnv) (b : CBlock) : Act Fault NodeState Unit := do
  let s ← get
  raiseIf ((s.mapBlockIndex (b.getHash e.env)).isSome)
    (.reject "AcceptBlock() : block already in mapBlockIndex")
  let pindexPrev ← fromOption (.reject "AcceptBlock() : prev block not found")
    (s.mapBlockIndex b.hashPrevBlock)
  fromExcept (checkAccept e s b pindexPrev)
  let pos ← fromOption (.reject "AcceptBlock() : WriteToDisk failed") (e.writeToDisk s b)
  modify (fun s => { s with disk := s.disk.writeToDisk pos.1 pos.2 b })
  addToBlockIndex e b pos.1 pos.2

def NodeState.eraseOrphan (hash : Uint256) (s : NodeState) : NodeState :=
  { s with mapOrphanBlocks := Function.update s.mapOrphanBlocks hash none }

def NodeState.eraseOrphansByPrev (hashPrev : Uint256) (s : NodeState) : NodeState :=
  { s with mapOrphanBlocksByPrev :=
      s.mapOrphanBlocksByPrev.filter (fun o => decide (o.1 ≠ hashPrev)) }

def NodeState.orphansOf (s : NodeState) (hashPrev : Uint256) : List CBlock :=
  (s.mapOrphanBlocksByPrev.filter (fun o => decide (o.1 = hashPrev))).map Prod.snd

def NodeState.addOrphan (env : Env) (b : CBlock) (s : NodeState) : NodeState :=
  { s with
    mapOrphanBlocks := Function.update s.mapOrphanBlocks (b.getHash env) (some b)
    mapOrphanBlocksByPrev := s.mapOrphanBlocksByPrev ++ [(b.hashPrevBlock, b)] }

def acceptOrphans (e : NodeEnv) : List CBlock → NodeState → List Uint256 × NodeState
  | [], s => ([], s)
  | b :: rest, s =>
    let r := exec (acceptBlock e b) s
    let more := acceptOrphans e rest (r.2.eraseOrphan (b.getHash e.env))
    match r.1 with
    | .ok _ => (b.getHash e.env :: more.1, more.2)
    | .error _ => more

def acceptDependents (e : NodeEnv) : Nat → List Uint256 → NodeState → NodeState
  | 0, _, s => s
  | _, [], s => s
  | fuel + 1, hashPrev :: vWorkQueue, s =>
    let r := acceptOrphans e (s.orphansOf hashPrev) s
    acceptDependents e fuel (vWorkQueue ++ r.1) (r.2.eraseOrphansByPrev hashPrev)

def processBlock (e : NodeEnv) (b : CBlock) : Act Fault NodeState Unit := do
  let s ← get
  raiseIf ((s.mapBlockIndex (b.getHash e.env)).isSome) (.reject "ProcessBlock() : already have block")
  raiseIf ((s.mapOrphanBlocks (b.getHash e.env)).isSome)
    (.reject "ProcessBlock() : already have block (orphan)")
  fromExcept (b.checkBlock e.env e.nNow intMax)
  if (s.mapBlockIndex b.hashPrevBlock).isNone then
    modify (fun s => s.addOrphan e.env b)
  else do
    acceptBlock e b
    modify (fun s =>
      acceptDependents e (s.mapOrphanBlocksByPrev.length + 1) [b.getHash e.env] s)

end Namecoin
