import Namecoin.Net.Peers

namespace Namecoin

open Act

def CNode.pushGetBlocks (locator : Except Fault (List Uint256)) (pindexBegin : Option Uint256)
    (hashEnd : Uint256) (n : CNode) : CNode :=
  -- Filter out duplicate requests
  if pindexBegin = n.pindexLastGetBlocksBegin ∧ hashEnd = n.hashLastGetBlocksEnd then n
  else
    let asked := { n with
      pindexLastGetBlocksBegin := pindexBegin
      hashLastGetBlocksEnd := hashEnd }
    match locator with
    | .ok vHave => asked.pushMessages [.getblocks vHave hashEnd]
    | .error _ => asked

def locatorAt (e : NodeEnv) (s : NodeState) : Option Uint256 → Except Fault (List Uint256)
  | none => .ok [e.hashGenesisBlock]
  | some hashBlock => CBlockLocator.set e s ((s.walk (some hashBlock)).length + 1) hashBlock

-- Work back to the first block in the orphan chain.
def getOrphanRoot (env : Env) (s : NodeState) : Nat → CBlock → Option Uint256
  | 0, _ => none
  | fuel + 1, b =>
    match s.mapOrphanBlocks b.hashPrevBlock with
    | none => some (b.getHash env)
    | some bPrev => getOrphanRoot env s fuel bPrev

def CAlert.relayTo (c : NetEnv) (a : CAlert) (n : CNode) : CNode :=
  if !a.isInEffect c.node.nNow then n
  else if a.getHash c.node.env ∈ n.setKnown then n
  else
    let told := n.addKnown (a.getHash c.node.env)
    if a.appliesTo c.node.nNow n.nVersion n.strSubVer || a.appliesToMe c.node.nNow ||
        decide ((c.node.nNow : Int) < a.nRelayUntil) then
      told.pushMessages [.alert a.vchMsg a.vchSig]
    else told

-- Relay inventory, but don't relay old inventory during initial block download.
def relayBlock (nLockinHeight nBestHeight : Int) (hash : Uint256) (n : CNode) : CNode :=
  if (if n.nStartingHeight ≠ -1 then n.nStartingHeight - 2000 else nLockinHeight) < nBestHeight then
    n.pushInventory (CInv.block hash)
  else n

def relayAccepted (e : NodeEnv) (vNodes : List CNode) (call : NodeState × CBlock) : List CNode :=
  match exec (acceptBlock e call.2) call.1 with
  | (.ok _, s) =>
    if s.hashBestChain = call.2.getHash e.env then
      vNodes.map (relayBlock (lockinHeight e.env) s.nBestHeight (call.2.getHash e.env))
    else vNodes
  | (.error _, _) => vNodes

def orphanRelays (e : NodeEnv) : List Uint256 → TxRelay → List (CInv × List UInt8)
  | [], _ => []
  | hash :: rest, rl =>
    let r := exec (retryOrphan e hash) rl
    match r.1, rl.mapOrphanTransactions hash with
    | .ok (hashTx :: _), some vMsg => (⟨msgTx, hashTx⟩, vMsg) :: orphanRelays e rest r.2
    | .ok [], _ => orphanRelays e rest r.2
    | _, _ => []

def queueRelays (e : NodeEnv) : Nat → List Uint256 → TxRelay → List (CInv × List UInt8)
  | 0, _, _ => []
  | _, [], _ => []
  | fuel + 1, hashPrev :: vWorkQueue, rl =>
    let r := exec (retryOrphans e (rl.orphansOf hashPrev)) rl
    orphanRelays e (rl.orphansOf hashPrev) rl ++
      match r.1 with
      | .ok vNew => queueRelays e fuel (vWorkQueue ++ vNew) r.2
      | .error _ => []

-- The transactions that one tx message gets accepted, with the streams that are relayed.
def txRelays (e : NodeEnv) (vRecv : List UInt8) (rl : TxRelay) : List (CInv × List UInt8) :=
  match readTx vRecv with
  | .error _ => []
  | .ok tx =>
    match exec (acceptTx e tx) rl with
    | (.ok true, rl') =>
      (⟨msgTx, tx.getHash e.env⟩, vRecv.take tx.getSerializeSize) ::
        queueRelays e (rl.mapOrphanTransactionsByPrev.length + 1) [tx.getHash e.env] rl'
    | _ => []

namespace NetNode

def onAll (f : CNode → CNode) (s : NetNode) : NetNode := { s with vNodes := s.vNodes.map f }

def withState (node : NodeState) (s : NetNode) : NetNode :=
  { s with relay := { s.relay with node := node } }

def withAlerts (mapAlerts : List (Uint256 × CAlert)) (s : NetNode) : NetNode :=
  { s with mapAlerts := mapAlerts }

def pushGetBlocks (c : NetEnv) (i : Nat) (pindexBegin : Option Uint256) (hashEnd : Uint256)
    (s : NetNode) : NetNode :=
  s.onNode i (CNode.pushGetBlocks (locatorAt c.node s.state pindexBegin) pindexBegin hashEnd)

-- Ask this guy to fill in what we're missing.
def askFill (c : NetEnv) (i : Nat) (b : CBlock) (s : NetNode) : NetNode :=
  match getOrphanRoot c.node.env s.state (s.state.mapOrphanBlocksByPrev.length + 1) b with
  | none => s
  | some hashRoot => s.pushGetBlocks c i s.state.pindexBest hashRoot

def hearInv (c : NetEnv) (i : Nat) (s : NetNode) (inv : CInv) : NetNode :=
  let known := s.onNode i (CNode.addInventoryKnown inv)
  if known.alreadyHave inv = false then known.askFor c.nTime i inv
  else if inv.type = msgBlock then
    match known.state.mapOrphanBlocks inv.hash with
    | none => known
    | some b => known.askFill c i b
  else known

def processInv (c : NetEnv) (i : Nat) (vInv : List CInv) (s : NetNode) : NetNode :=
  if 50000 < vInv.length then s else vInv.foldl (hearInv c i) s

def blockAt (s : NodeState) (pindex : CBlockIndex) : CBlock :=
  (s.disk.readBlock pindex.nFile pindex.nBlockPos).getD CBlock.null

-- The inventory after the last block of a batch bypasses pushInventory.
def serveBlock (hashBestChain : Uint256) (b : CBlock) (hash : Uint256) (n : CNode) : CNode :=
  let sent := n.pushMessages [.block b]
  if hash = n.hashContinue then
    { sent.pushMessages [.inv [CInv.block hashBestChain]] with hashContinue := 0 }
  else sent

def serveInv (i : Nat) (s : NetNode) (inv : CInv) : NetNode :=
  if inv.type = msgBlock then
    match s.state.mapBlockIndex inv.hash with
    | none => s
    | some pindex => s.onNode i (serveBlock s.state.hashBestChain (blockAt s.state pindex) inv.hash)
  else if inv.isKnownType then
    match s.memory.mapRelay inv with
    | none => s
    | some ss => s.onNode i (CNode.pushMessages [.tx ss.bytes])
  else s

def processGetdata (i : Nat) (vInv : List CInv) (s : NetNode) : NetNode :=
  if 50000 < vInv.length then s else vInv.foldl (serveInv i) s

def announce (r : BlocksReply) (n : CNode) : CNode :=
  let offered := r.inventory.foldl (fun n hash => n.pushInventory (CInv.block hash)) n
  { offered with hashContinue := r.hashContinue.getD offered.hashContinue }

theorem foldl_pushInventory (hashes : List Uint256) (n : CNode) :
    hashes.foldl (fun n hash => n.pushInventory (CInv.block hash)) n =
      { n with vInventoryToSend := n.vInventoryToSend ++
        (hashes.map CInv.block).filter fun inv => decide (inv ∉ n.setInventoryKnown) } := by
  induction hashes generalizing n with
  | nil => rw [List.foldl_nil, List.map_nil, List.filter_nil, List.append_nil]
  | cons hash rest ih =>
    rw [List.foldl_cons, ih, CNode.pushInventory, List.map_cons, List.filter_cons]
    split
    · rename_i hknown
      rw [if_neg (by simpa using hknown)]
    · rename_i hnew
      rw [if_pos (by simpa using hnew)]
      simp

def processGetblocks (c : NetEnv) (i : Nat) (vHave : List Uint256) (hashStop : Uint256)
    (s : NetNode) : NetNode :=
  match getblocks s.state c.nSendBufferSize (s.state.nBestHeight.toNat + 1) vHave hashStop with
  | .ok r => s.onNode i (announce r)
  | .error _ => s

def processBlock (c : NetEnv) (i : Nat) (b : CBlock) (s : NetNode) : NetNode :=
  let inv := CInv.block (b.getHash c.node.env)
  let known := s.onNode i (CNode.addInventoryKnown inv)
  let r := exec (Namecoin.processBlock c.node b) s.state
  let relayed := { known.withState r.2 with
    vNodes := (processCalls c.node b s.state).foldl (relayAccepted c.node) known.vNodes }
  match r.1 with
  | .error _ => relayed
  | .ok _ =>
    let filled := if (s.state.mapBlockIndex b.hashPrevBlock).isNone then relayed.askFill c i b
      else relayed
    { filled with times := filled.times.erase inv }

def relayMessage (c : NetEnv) (s : NetNode) (message : CInv × List UInt8) : NetNode :=
  let kept := { s with
    memory := s.memory.relayMessage c.nTime message.1 (CDataStream.empty.append message.2) }
  let relayed := kept.relayInventory message.1
  { relayed with times := relayed.times.erase message.1 }

def processTx (c : NetEnv) (i : Nat) (vRecv : List UInt8) (s : NetNode) : NetNode :=
  match readTx vRecv with
  | .error _ => s
  | .ok tx =>
    let known := s.onNode i (CNode.addInventoryKnown ⟨msgTx, tx.getHash c.node.env⟩)
    (txRelays c.node vRecv s.relay).foldl (relayMessage c)
      { known with relay := (exec (Namecoin.processTx c.node vRecv) s.relay).2 }

def processAlert (c : NetEnv) (i : Nat) (vchMsg vchSig : VchType) (s : NetNode) : NetNode :=
  let r := CAlert.processAlert c vchMsg vchSig s.mapAlerts
  let stored := s.withAlerts r.2
  match r.1 with
  | none => stored
  | some a =>
    let known := stored.onNode i (CNode.addKnown (a.getHash c.node.env))
    known.onAll (a.relayTo c)

-- The connection has had its version message.
def processMessage (c : NetEnv) (i : Nat) (m : NetMessage) (s : NetNode) : NetNode :=
  match m with
  | .inv vInv => s.processInv c i vInv
  | .getdata vInv => s.processGetdata i vInv
  | .getblocks vHave hashStop => s.processGetblocks c i vHave hashStop
  | .block b => s.processBlock c i b
  | .tx vRecv => s.processTx c i vRecv
  | .alert vchMsg vchSig => s.processAlert c i vchMsg vchSig

end NetNode

end Namecoin
