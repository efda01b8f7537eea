import Namecoin.Chain.Proxy
import Namecoin.Chain.Wallet
import Namecoin.Data.RoundTrip
import Namecoin.Node.Rules
import Namecoin.Script.Eval

namespace Namecoin

open Act

def op2 : Nat := 82
def opInvalidopcode : Nat := 255
def serGetHash : Nat := 2 ^ 2

def pushUint64 (n : Nat) : CScript :=
  if 1 ≤ n ∧ n ≤ 16 then [UInt8.ofNat (n + (op1 - 1))] else pushData (bigNumVch n)

def makeCoinbaseWithAux (nBits nExtraNonce : Nat) (vchAux : VchType) : CScript :=
  pushUint64 nBits ++ (pushUint64 nExtraNonce ++
    (UInt8.ofNat op2 :: pushData (pchMergedMiningHeader ++ vchAux)))

def removeMergedMiningHeader (vchAux : VchType) : Except Fault VchType :=
  if vchAux = [] then .error .undefined
  else if search pchMergedMiningHeader vchAux 0 ≠ some 0 then
    .error (.exception "merged mining aux too short")
  else .ok (vchAux.drop pchMergedMiningHeader.length)

def nextOp (s : CScript) : Nat × VchType × CScript :=
  (getOp s).getD (opInvalidopcode, [], afterOp s)

def auxOfScript (script : CScript) : Except Fault VchType :=
  let third := nextOp (nextOp (nextOp script).2.2).2.2
  if third.1 ≠ op2 then .error (.exception "invalid aux pow script")
  else removeMergedMiningHeader (nextOp third.2.2).2.1

namespace CBlock

def coinbaseScript (b : CBlock) : CScript :=
  ((b.vtx.head?.bind (fun tx => tx.vin.head?)).map CTxIn.scriptSig).getD []

def setCoinbaseScript (scriptSig : CScript) (b : CBlock) : CBlock :=
  match b.vtx with
  | [] => b
  | tx :: rest =>
    match tx.vin with
    | [] => b
    | txin :: ins =>
      { b with vtx := { tx with vin := { txin with scriptSig := scriptSig } :: ins } :: rest }

def withCoinbase (env : Env) (scriptSig : CScript) (b : CBlock) : CBlock :=
  let b := b.setCoinbaseScript scriptSig
  { b with hashMerkleRoot := b.buildMerkleTree env }

end CBlock

-- What a call finds: the node, the transactions it would put in a block, and the key that
-- GetReservedKey returns or what it throws.
structure MinerCall where
  connected : Bool
  initialDownload : Bool
  pindexBest : Branch
  nTransactionsUpdated : Nat
  nTime : Int
  nAdjustedTime : Nat
  reserved : Except Fault VchType
  reserved_le : ∀ vchPubKey, reserved = .ok vchPubKey → vchPubKey.length ≤ 120
  vtx : List CTransaction
  vtx_lt : vtx.length + 1 < maxSize
  nFees : Int

namespace MinerCall

variable (c : MinerCall)

def hashBest : Uint256 := c.pindexBest.pindex.hashBlock

def nNow : Nat := max (getMedianTimePast c.pindexBest.walk + 1) c.nAdjustedTime

def checkReady : Except Fault Unit := do
  Except.raiseIf (¬c.connected) (.exception "Namecoin is not connected!")
  Except.raiseIf c.initialDownload (.exception "Namecoin is downloading blocks...")

end MinerCall

def blockVersionDefault : Int := 1 + getOurChainID * blockVersionChainStart

def fillBlock (env : Env) (pindexPrev : Branch) (nNow : Nat) (vchPubKey : VchType)
    (vtx : List CTransaction) (nFees : Int) : Except Fault CBlock := do
  let nValue ← getBlockValue (pindexPrev.pindex.nHeight + 1) nFees
  let txNew : CTransaction :=
    ⟨1, [⟨COutPoint.null, [], uintMax⟩], [⟨nValue, payToPubkey vchPubKey⟩], 0⟩
  let nTime := max (getMedianTimePast pindexPrev.walk + 1) nNow
  let b : CBlock := ⟨⟨blockVersionDefault, pindexPrev.pindex.hashBlock, 0, nTime % 2 ^ 32, 0, 0⟩,
    txNew :: vtx, none⟩
  let b := { b with hashMerkleRoot := b.buildMerkleTree env }
  let nBits ← getNextWorkRequired env pindexPrev.walk b.toCBlockHeader
  pure { b with nBits := nBits % 2 ^ 32 }

def createNewBlock (env : Env) (c : MinerCall) : Except Fault CBlock := do
  let vchPubKey ← c.reserved
  fillBlock env c.pindexBest c.nAdjustedTime vchPubKey c.vtx c.nFees

structure AuxWork where
  header : CBlockHeader
  vchAux : VchType

-- A CBlock pointer is an index into vNewBlock; one that is out of range points to no block.
structure AuxMiner where
  mapNewBlock : Uint256 → Option (Nat × Nat)
  vNewBlock : List CBlock
  vchAuxPrev : VchType
  nTransactionsUpdatedLast : Nat
  pindexPrev : Option Uint256
  nStart : Int
  pblock : Nat
  nExtraNonce : Nat
  nPrevTime : Nat

def formatHashBlocks (header : CBlockHeader) : List UInt8 :=
  header.serialize ++ (0x80 :: (List.replicate 43 0 ++ [0, 0, 2, 0x80]))

def byteReverse : List UInt8 → List UInt8
  | a :: b :: c :: d :: rest => d :: c :: b :: a :: byteReverse rest
  | short => short

namespace AuxMiner

def start : AuxMiner := ⟨fun _ => none, [], [], 0, none, 0, 0, 0, 0⟩

variable (env : Env) (c : MinerCall) (vchAux : VchType)

def needsBlock (m : AuxMiner) : Bool :=
  decide (m.pindexPrev ≠ some c.hashBest) || decide (vchAux ≠ m.vchAuxPrev) ||
    (decide (c.nTransactionsUpdated ≠ m.nTransactionsUpdatedLast) &&
      decide (60 < c.nTime - m.nStart))

def dropStale (m : AuxMiner) : AuxMiner :=
  if m.pindexPrev ≠ some c.hashBest then
    { m with mapNewBlock := fun _ => none, vNewBlock := [] }
  else m

-- All that is set before CreateNewBlock is called, and stays set when it throws.
def renew (m : AuxMiner) : AuxMiner :=
  { m.dropStale c with
    nTransactionsUpdatedLast := c.nTransactionsUpdated
    pindexPrev := some c.hashBest
    vchAuxPrev := vchAux
    nStart := c.nTime }

def pushBlock (pblock : CBlock) (m : AuxMiner) : AuxMiner :=
  { m with
    vNewBlock := m.vNewBlock ++ [pblock]
    pblock := m.vNewBlock.length }

def setBlock (i : Nat) (b : CBlock) (m : AuxMiner) : AuxMiner :=
  { m with vNewBlock := m.vNewBlock.set i b }

def updateBlock : Act Fault AuxMiner Unit := do
  let m ← get
  doIf (m.needsBlock c vchAux) do
    modify (renew c vchAux)
    let pblock ← fromExcept (createNewBlock env c)
    modify (pushBlock pblock)

def incrementExtraNonce (m : AuxMiner) : Nat × Nat :=
  let nExtraNonce := (m.nExtraNonce + 1) % 2 ^ 32
  if 0x7f ≤ nExtraNonce ∧ m.nPrevTime + 1 < c.nNow then (1, c.nNow) else (nExtraNonce, m.nPrevTime)

def handOut : Act Fault AuxMiner AuxWork := do
  let m ← get
  let b ← fromOption .undefined m.vNewBlock[m.pblock]?
  let nExtraNonce := m.incrementExtraNonce c
  let b := { b with nTime := c.nNow % 2 ^ 32, nNonce := 0 }
  let b := b.withCoinbase env (makeCoinbaseWithAux b.nBits nExtraNonce.1 vchAux)
  modify (fun m =>
    { m.setBlock m.pblock b with
      nExtraNonce := nExtraNonce.1
      nPrevTime := nExtraNonce.2
      mapNewBlock :=
        Function.update m.mapNewBlock b.hashMerkleRoot (some (m.pblock, nExtraNonce.1)) })
  pure ⟨b.toCBlockHeader, vchAux⟩

def getworkaux : Act Fault AuxMiner AuxWork := do
  fromExcept c.checkReady
  updateBlock env c vchAux
  handOut env c vchAux

def reconstruct (pdata : CBlockHeader) : Act Fault AuxMiner (Option (CBlock × VchType)) := do
  let m ← get
  match m.mapNewBlock pdata.hashMerkleRoot with
  | none => pure none
  | some (i, nExtraNonce) => do
    let b ← fromOption .undefined m.vNewBlock[i]?
    let b := { b with nTime := pdata.nTime, nNonce := pdata.nNonce }
    modify (setBlock i b)
    let vchAux ← fromExcept (auxOfScript b.coinbaseScript)
    let b := b.withCoinbase env (makeCoinbaseWithAux b.nBits nExtraNonce vchAux)
    modify (setBlock i b)
    pure (some (b, vchAux))

def submitwork (vchData : List UInt8) : Act Fault AuxMiner (Option (CBlock × VchType)) := do
  fromExcept c.checkReady
  raiseIf (vchData.length ≠ 128) (.exception "Invalid parameter")
  let pdata ← fromOption .undefined (CBlockHeader.unserialize (byteReverse vchData))
  reconstruct env pdata.1

-- The block to go on with was built for the tip and the aux string that are on record.
def Current (m : AuxMiner) : Prop :=
  ∃ b, m.vNewBlock[m.pblock]? = some b ∧ m.pindexPrev = some b.hashPrevBlock ∧
    auxOfScript b.coinbaseScript = .ok m.vchAuxPrev

end AuxMiner

def auxPowOf (env : Env) (b : CBlock) (vChainMerkleBranch : List Uint256) (nChainIndex : Int) :
    Option CAuxPow :=
  b.vtx.head?.map (fun tx => .mk (CWallet.setMerkleBranch env tx b) vChainMerkleBranch nChainIndex
    b.toCBlockHeader b.vtx b.auxpow)

def CAuxPow.hex (a : CAuxPow) : List Char :=
  (a.serialize (serGetHash ||| serBlockHeaderOnly)).flatMap hexByte

def parseAuxPow (hex : List Char) : Option (CAuxPow × List UInt8) :=
  CAuxPow.unserialize (serGetHash ||| serBlockHeaderOnly) (parseHex hex)

structure AuxRequest where
  call : MinerCall
  aux : List Char
  fits : aux.length ≤ maxSize

inductive MinerEvent where
  | getwork (request : AuxRequest)
  | submit (call : MinerCall) (vchData : List UInt8)

structure MinerRun where
  miner : AuxMiner
  works : List AuxWork

namespace MinerRun

def start : MinerRun := ⟨AuxMiner.start, []⟩

-- The works are those handed out since getworkaux last saw the tip change.
def after (r : MinerRun) (x : Except Fault AuxWork × AuxMiner) : MinerRun :=
  let works := if x.2.pindexPrev = r.miner.pindexPrev then r.works else []
  match x.1 with
  | .error _ => ⟨x.2, works⟩
  | .ok work => ⟨x.2, work :: works⟩

def step (env : Env) (r : MinerRun) : MinerEvent → MinerRun
  | .getwork q => r.after (exec (AuxMiner.getworkaux env q.call (parseHex q.aux)) r.miner)
  | .submit c vchData => { r with miner := (exec (AuxMiner.submitwork env c vchData) r.miner).2 }

def runFrom (env : Env) (r : MinerRun) (events : List MinerEvent) : MinerRun :=
  events.foldl (step env) r

def run (env : Env) (events : List MinerEvent) : MinerRun := runFrom env start events

-- The call builds a block, or goes on with one that was built for what is on record.
def Sound (r : MinerRun) : MinerEvent → Prop
  | .getwork q => q.call.checkReady = .ok () →
      r.miner.needsBlock q.call (parseHex q.aux) = true ∨ r.miner.Current
  | .submit _ _ => True

def AllSound (env : Env) : MinerRun → List MinerEvent → Prop
  | _, [] => True
  | r, event :: rest => r.Sound event ∧ AllSound env (r.step env event) rest

end MinerRun

end Namecoin
