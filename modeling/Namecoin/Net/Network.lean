import Namecoin.Net.Dispatch
import Namecoin.Net.Requests

namespace Namecoin

-- peer v i is the other end of the i-th connection of v, none when it is outside the network.
structure Links (V : Type) where
  peer : V → Nat → Option (V × Nat)
  symm : ∀ v i w j, peer v i = some (w, j) → peer w j = some (v, i)

-- nRead v i is how much of the stream on the i-th connection of v its other end has handled.
structure PeerNet (V : Type) where
  node : V → NetNode
  nRead : V → Nat → Nat

inductive NetEvent (V : Type) where
  | deliver (c : NetEnv) (v : V) (i : Nat)
  | receive (c : NetEnv) (v : V) (i : Nat) (m : NetMessage)
  | sendMessages (c : NetEnv) (v : V) (i : Nat) (fSendTrickle : Bool) (fTrickleWait : CInv → Bool)

def NetEvent.netEnv {V : Type} : NetEvent V → NetEnv
  | deliver c _ _ => c
  | receive c _ _ _ => c
  | sendMessages c _ _ _ _ => c

namespace PeerNet

variable {V : Type}

def unread (net : PeerNet V) (v : V) (i : Nat) : List NetMessage :=
  ((net.node v).streamAt i).drop (net.nRead v i)

variable [DecidableEq V]

def handle (c : NetEnv) (v : V) (i : Nat) (m : NetMessage) (net : PeerNet V) : PeerNet V :=
  { net with node := Function.update net.node v ((net.node v).processMessage c i m) }

def countRead (v : V) (i : Nat) (net : PeerNet V) : PeerNet V :=
  { net with
    nRead := Function.update net.nRead v (Function.update (net.nRead v) i (net.nRead v i + 1)) }

def deliver (c : NetEnv) (v : V) (i : Nat) (other : V × Nat) (net : PeerNet V) : PeerNet V :=
  match net.unread other.1 other.2 with
  | [] => net
  | m :: _ => (net.handle c v i m).countRead other.1 other.2

def step (l : Links V) : NetEvent V → PeerNet V → PeerNet V
  | .deliver c v i, net =>
    match l.peer v i with
    | none => net
    | some other => net.deliver c v i other
  | .receive c v i m, net => if (l.peer v i).isNone then net.handle c v i m else net
  | .sendMessages c v i fSendTrickle fTrickleWait, net =>
    { net with
      node := Function.update net.node v
        ((net.node v).sendMessages c.nTime fSendTrickle fTrickleWait i) }

def run (l : Links V) (evs : List (NetEvent V)) (net : PeerNet V) : PeerNet V :=
  evs.foldl (fun net ev => step l ev net) net

end PeerNet

end Namecoin
