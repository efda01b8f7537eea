import Mathlib.Data.Finset.Basic
import Namecoin.Lib.Outbox
import Namecoin.Net.Alert
import Namecoin.Net.Locator
import Namecoin.Net.RelayMemory
import Namecoin.Net.ServeChain
import Namecoin.Node.Orphan
import Namecoin.Node.TxRelay

namespace Namecoin

open Act

def msgTx : Int := 1
def msgBlock : Int := 2

namespace CInv

def isKnownType (inv : CInv) : Bool := decide (1 ≤ inv.type ∧ inv.type < 3)

def block (hash : Uint256) : CInv := ⟨msgBlock, hash⟩

end CInv

inductive NetMessage where
  | inv (vInv : List CInv)
  | getdata (vInv : List CInv)
  | getblocks (vHave : List Uint256) (hashStop : Uint256)
  | block (b : CBlock)
  | tx (vRecv : List UInt8)
  | alert (vchMsg vchSig : VchType)

-- vSend is the whole stream of messages pushed for the peer.
structure CNode where
  nVersion : Int
  strSubVer : StdString
  nStartingHeight : Int
  setKnown : Finset Uint256
  hashContinue : Uint256
  pindexLastGetBlocksBegin : Option Uint256
  hashLastGetBlocksEnd : Uint256
  setInventoryKnown : Finset CInv
  vInventoryToSend : List CInv
  mapAskFor : List (Int × CInv)
  vSend : List NetMessage

-- A missing entry of mapAlreadyAskedFor reads as zero.
structure AskTimes where
  mapAlreadyAskedFor : CInv → Int
  nLastTime : Int

-- std::multimap keeps entries with one key in the order of their insertion.
def insertAsk (entry : Int × CInv) : List (Int × CInv) → List (Int × CInv)
  | [] => [entry]
  | first :: rest =>
    if first.1 ≤ entry.1 then first :: insertAsk entry rest else entry :: first :: rest

namespace AskTimes

def tick (nTime : Int) (a : AskTimes) : Int := max ((nTime - 1) * 1000000) (a.nLastTime + 1)

def requestTime (nTime : Int) (inv : CInv) (a : AskTimes) : Int :=
  max (a.mapAlreadyAskedFor inv + 2 * 60 * 1000000) (a.tick nTime)

def asked (nTime : Int) (inv : CInv) (a : AskTimes) : AskTimes :=
  ⟨Function.update a.mapAlreadyAskedFor inv (a.requestTime nTime inv), a.tick nTime⟩

def erase (inv : CInv) (a : AskTimes) : AskTimes :=
  { a with mapAlreadyAskedFor := Function.update a.mapAlreadyAskedFor inv 0 }

end AskTimes

structure InvPass where
  setInventoryKnown : Finset CInv
  vInvWait : List CInv
  vInv : List (List CInv) × List CInv

def InvPass.visit (fSendTrickle : Bool) (fTrickleWait : CInv → Bool) (st : InvPass) (inv : CInv) :
    InvPass :=
  if inv ∈ st.setInventoryKnown then st
  else if inv.type = msgTx ∧ fSendTrickle = false ∧ fTrickleWait inv = true then
    { st with vInvWait := st.vInvWait ++ [inv] }
  else
    { st with
      setInventoryKnown := insert inv st.setInventoryKnown
      vInv := Batch.push 1000 st.vInv inv }

-- The due entries that are still missing go into getdata messages, the others stay.
def dueAsks (nNow : Int) (alreadyHave : CInv → Bool) :
    List (Int × CInv) → List (List CInv) × List CInv →
      (List (List CInv) × List CInv) × List (Int × CInv)
  | [], vGetData => (vGetData, [])
  | (nRequestTime, inv) :: rest, vGetData =>
    if nRequestTime ≤ nNow then
      dueAsks nNow alreadyHave rest
        (if alreadyHave inv then vGetData else Batch.push 1000 vGetData inv)
    else (vGetData, (nRequestTime, inv) :: rest)

namespace CNode

def addInventoryKnown (inv : CInv) (n : CNode) : CNode :=
  { n with setInventoryKnown := insert inv n.setInventoryKnown }

def addKnown (hash : Uint256) (n : CNode) : CNode :=
  { n with setKnown := insert hash n.setKnown }

def pushInventory (inv : CInv) (n : CNode) : CNode :=
  if inv ∈ n.setInventoryKnown then n
  else { n with vInventoryToSend := n.vInventoryToSend ++ [inv] }

def pushMessages (ms : List NetMessage) (n : CNode) : CNode := { n with vSend := n.vSend ++ ms }

def askFor (nRequestTime : Int) (inv : CInv) (n : CNode) : CNode :=
  { n with mapAskFor := insertAsk (nRequestTime, inv) n.mapAskFor }

def inventoryPass (fSendTrickle : Bool) (fTrickleWait : CInv → Bool) (n : CNode) : InvPass :=
  n.vInventoryToSend.foldl (InvPass.visit fSendTrickle fTrickleWait)
    ⟨n.setInventoryKnown, [], [], []⟩

def inventoryMessages (fSendTrickle : Bool) (fTrickleWait : CInv → Bool) (n : CNode) :
    List (List CInv) :=
  Batch.close (n.inventoryPass fSendTrickle fTrickleWait).vInv

def sendInventory (fSendTrickle : Bool) (fTrickleWait : CInv → Bool) (n : CNode) : CNode :=
  let st := n.inventoryPass fSendTrickle fTrickleWait
  { n with
    setInventoryKnown := st.setInventoryKnown
    vInventoryToSend := st.vInvWait
    vSend := n.vSend ++ (Batch.close st.vInv).map NetMessage.inv }

def sendGetdata (nNow : Int) (alreadyHave : CInv → Bool) (n : CNode) : CNode :=
  let due := dueAsks nNow alreadyHave n.mapAskFor ([], [])
  { n with
    mapAskFor := due.2
    vSend := n.vSend ++ (Batch.close due.1).map NetMessage.getdata }

-- The keep-alive, address and wallet rebroadcast parts of SendMessages push other messages.
def sendMessages (nTime : Int) (fSendTrickle : Bool) (fTrickleWait alreadyHave : CInv → Bool)
    (n : CNode) : CNode :=
  if n.nVersion = 0 then n
  else (n.sendInventory fSendTrickle fTrickleWait).sendGetdata (nTime * 1000000) alreadyHave

end CNode

structure NetNode where
  relay : TxRelay
  memory : RelayMemory
  times : AskTimes
  mapAlerts : List (Uint256 × CAlert)
  vNodes : List CNode

namespace NetNode

def state (s : NetNode) : NodeState := s.relay.node

def onNode (i : Nat) (f : CNode → CNode) (s : NetNode) : NetNode :=
  { s with vNodes := s.vNodes.modify i f }

def relayInventory (inv : CInv) (s : NetNode) : NetNode :=
  { s with vNodes := s.vNodes.map (CNode.pushInventory inv) }

def alreadyHave (s : NetNode) (inv : CInv) : Bool :=
  if inv.type = msgTx then
    (s.state.mapTransactions inv.hash).isSome ||
      (s.relay.mapOrphanTransactions inv.hash).isSome || (s.state.chain.dbset.tx inv.hash).isSome
  else if inv.type = msgBlock then
    (s.state.mapBlockIndex inv.hash).isSome || (s.state.mapOrphanBlocks inv.hash).isSome
  else true

def askFor (nTime : Int) (i : Nat) (inv : CInv) (s : NetNode) : NetNode :=
  { s.onNode i (CNode.askFor (s.times.requestTime nTime inv) inv) with
    times := s.times.asked nTime inv }

def sendMessages (nTime : Int) (fSendTrickle : Bool) (fTrickleWait : CInv → Bool) (i : Nat)
    (s : NetNode) : NetNode :=
  s.onNode i (CNode.sendMessages nTime fSendTrickle fTrickleWait s.alreadyHave)

end NetNode

end Namecoin
