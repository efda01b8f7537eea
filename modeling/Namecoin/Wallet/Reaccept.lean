import Namecoin.Lib.Rounds
import Namecoin.Wallet.CacheRun
import Namecoin.Wallet.FailedCommit

namespace Namecoin

open Relation

open Std (TreeMap)

namespace Wallet

variable {env : Env}

def IndexSpent (s : NodeState) (w : Wallet env) (o : COutPoint) : Prop :=
  ∃ tx txindex, w.toCWallet.txAt o.hash = some tx ∧ s.chain.dbset.tx o.hash = some txindex ∧
    txindex.getOutputCount = tx.vout.length ∧ txindex.isSpent[o.n]? = some true

def SkippedTx (w : Wallet env) (hash : Uint256) : Prop :=
  ∃ tx, w.toCWallet.txAt hash = some tx ∧ tx.isCoinBase ∧ w.toCWallet.spentAt ⟨hash, 0⟩ = true

section Visit

variable {w w' : Wallet env} {e : NodeEnv} {s : NodeState} {hash : Uint256} {wtx wtx' : WalletTx}
  {S S' : Set COutPoint} {fUpdated : Bool}

def Found (s : NodeState) (w : Wallet env) (hash : Uint256) : Set COutPoint :=
  {o | o.hash = hash ∧ w.toCWallet.Owns o ∧ IndexSpent s w o}

def Visited (s : NodeState) (w : Wallet env) (hash : Uint256) : Set COutPoint :=
  {o | o ∈ Found s w hash ∧ ¬w.SkippedTx hash}

theorem Marks.holds (h : Marks w w' S) (k : Uint256) : w'.Holds k ↔ w.Holds k := by
  have hsome := congrArg Option.isSome (h.record k)
  rw [Option.isSome_map, Option.isSome_map] at hsome
  rw [Holds, Holds, hsome]

def Passed (s : NodeState) (w : Wallet env) (l : List WalletTx) : Set COutPoint :=
  {o | ∃ wtx ∈ l, o ∈ Visited s w (wtx.merkle.tx.getHash env)}

end Visit

def missing (vtx : List (CTransaction × CBlock)) (w : Wallet env) : Nat :=
  vtx.countP (fun p => (w.mapWallet[p.1.getHash env]?).isNone)

section Round

variable {w w' v : Wallet env} {e : NodeEnv} {s : NodeState} {vtx : List (CTransaction × CBlock)}
  {ret : Nat}

end Round

end Wallet

end Namecoin
