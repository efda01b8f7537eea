import Mathlib

namespace Namecoin

abbrev Uint256 := BitVec 256

abbrev Uint160 := {b : List UInt8 // b.length = 20}

abbrev VchType := List UInt8

abbrev CScript := List UInt8

def uint160Null : Uint160 := ⟨List.replicate 20 0, by simp⟩

def uint160 (vch : VchType) : Uint160 :=
  if h : vch.length = 20 then ⟨vch, h⟩ else uint160Null

def uintMax : Nat := 2 ^ 32 - 1

def intMax : Nat := 2 ^ 31 - 1

def coin : Int := 100000000
def cent : Int := 1000000
def minTxFee : Int := 500000
def minRelayTxFee : Int := minTxFee / 5
def maxMoney : Int := 21000000 * coin
def coinbaseMaturity : Nat := 100
def maxBlockSize : Nat := 1000000
def maxBlockSizeGen : Nat := maxBlockSize / 2
def maxStandardTxSize : Nat := 20000
def maxBlockSigops : Nat := maxBlockSize / 50

def namecoinTxVersion : Int := 0x7100
def minAmount : Int := cent
def maxNameLength : Nat := 255
def maxValueLength : Nat := 1023
def opNameNew : Nat := 1
def opNameFirstupdate : Nat := 2
def opNameUpdate : Nat := 3
def minFirstupdateDepth : Nat := 12
def bugWorkaroundBlock : Nat := 150000

def moneyRange (nValue : Int) : Bool := decide (0 ≤ nValue) && decide (nValue ≤ maxMoney)

structure CDiskTxPos where
  nFile : Nat
  nBlockPos : Nat
  nTxPos : Nat
  deriving DecidableEq, Repr

def CDiskTxPos.null : CDiskTxPos := ⟨uintMax, 0, 0⟩

def CDiskTxPos.isNull (pos : CDiskTxPos) : Bool := decide (pos.nFile = uintMax)

def CDiskTxPos.memPool : CDiskTxPos := ⟨1, 1, 1⟩

structure CNameIndex where
  txPos : CDiskTxPos
  nHeight : Nat
  vValue : VchType
  deriving DecidableEq, Repr

structure COutPoint where
  hash : Uint256
  n : Nat
  deriving DecidableEq, Repr

def COutPoint.null : COutPoint := ⟨0, uintMax⟩

structure CTxIn where
  prevout : COutPoint
  scriptSig : CScript
  nSequence : Nat
  deriving DecidableEq, Repr

structure CTxOut where
  nValue : Int
  scriptPubKey : CScript
  deriving DecidableEq, Repr

structure CTransaction where
  nVersion : Int
  vin : List CTxIn
  vout : List CTxOut
  nLockTime : Nat
  deriving DecidableEq, Repr

def CTransaction.isCoinBase (tx : CTransaction) : Bool :=
  match tx.vin with
  | [txin] => decide (txin.prevout = COutPoint.null)
  | _ => false

theorem isCoinBase_vin {tx : CTransaction} (h : tx.isCoinBase = true) :
    ∃ txin, tx.vin = [txin] ∧ txin.prevout = COutPoint.null := by
  unfold CTransaction.isCoinBase at h
  split at h
  · rename_i txin hv
    exact ⟨txin, hv, by simpa using h⟩
  · cases h

structure CTxInCache where
  txPrev : Option CTransaction
  fHasPrevInfo : Bool
  prevPos : CDiskTxPos
  nValue : Int
  prevHeight : Int
  fChecked : Bool
  deriving DecidableEq, Repr

def CTxInCache.empty : CTxInCache := ⟨none, false, CDiskTxPos.null, 0, -1, false⟩

structure CTxIndex where
  pos : CDiskTxPos
  isSpent : List Bool
  deriving DecidableEq, Repr

def CTxIndex.make (pos : CDiskTxPos) (nOutputs : Nat) : CTxIndex :=
  ⟨pos, List.replicate nOutputs false⟩

def CTxIndex.getOutputCount (t : CTxIndex) : Nat := t.isSpent.length

def CTxIndex.setSpent (t : CTxIndex) (n : Nat) (spent : Bool) : CTxIndex :=
  { t with isSpent := t.isSpent.set n spent }

structure CMerkleTx where
  tx : CTransaction
  hashBlock : Uint256
  vMerkleBranch : List Uint256
  nIndex : Int
  deriving DecidableEq, Repr

structure CBlockHeader where
  nVersion : Int
  hashPrevBlock : Uint256
  hashMerkleRoot : Uint256
  nTime : Nat
  nBits : Nat
  nNonce : Nat
  deriving DecidableEq, Repr

inductive CAuxPow where
  | mk (merkleTx : CMerkleTx) (vChainMerkleBranch : List Uint256) (nChainIndex : Int)
      (parentHeader : CBlockHeader) (parentVtx : List CTransaction)
      (parentAuxpow : Option CAuxPow)

structure CBlock extends CBlockHeader where
  vtx : List CTransaction
  auxpow : Option CAuxPow

structure CBlockIndex where
  hashBlock : Uint256
  pprev : Option Uint256
  pnext : Option Uint256
  nFile : Nat
  nBlockPos : Nat
  nHeight : Nat
  bnChainWork : Int
  nVersion : Int
  hashMerkleRoot : Uint256
  nTime : Nat
  nBits : Nat
  nNonce : Nat
  deriving DecidableEq, Repr

structure CDiskBlockIndex where
  index : CBlockIndex
  hashPrev : Uint256
  hashNext : Uint256
  deriving DecidableEq, Repr

structure Branch where
  pindex : CBlockIndex
  pprev : List CBlockIndex
  deriving DecidableEq, Repr

def Branch.walk (b : Branch) : List CBlockIndex := b.pindex :: b.pprev

structure DatabaseSet where
  tx : Uint256 → Option CTxIndex
  name : VchType → Option (List CNameIndex)
  blockindex : Uint256 → Option CDiskBlockIndex
  hashBestChain : Option Uint256

structure Disk where
  readTx : Nat → Nat → Option CTransaction
  readBlock : Nat → Nat → Option CBlock

def Disk.readFromDisk (d : Disk) (pos : CDiskTxPos) : Option CTransaction :=
  if pos.nFile = uintMax then none else d.readTx pos.nFile pos.nTxPos

structure Env where
  fTestNet : Bool
  hash : List UInt8 → Uint256
  hash160 : VchType → Uint160
  verifyScript : CScript → CScript → CTransaction → Nat → Int → Bool

inductive Fault where
  | reject (msg : String)
  | assertion
  | exception (msg : String)
  | overflow
  | undefined
  deriving DecidableEq, Repr

end Namecoin
