import Namecoin.Lib.Reader
import Namecoin.Data.Bytes

namespace Namecoin

open Reading

def maxSize : Nat := 0x02000000

def pchMessageStart (env : Env) : List UInt8 :=
  if env.fTestNet then [0xfa, 0xbf, 0xb5, 0xfe] else [0xf9, 0xbe, 0xb4, 0xfe]

theorem pchMessageStart_length (env : Env) : (pchMessageStart env).length = 4 := by
  unfold pchMessageStart
  split <;> rfl

def serNetwork : Nat := 2 ^ 0
def serDisk : Nat := 2 ^ 1
def serBlockHeaderOnly : Nat := 2 ^ 17

def headerOnly (nType : Nat) : Bool := nType &&& serBlockHeaderOnly != 0

def serVector {α : Type} (f : α → List UInt8) (v : List α) : List UInt8 :=
  writeCompactSize v.length ++ v.flatMap f

def CMerkleTx.serialize (m : CMerkleTx) : List UInt8 :=
  m.tx.serialize ++ serHash m.hashBlock ++ serVector serHash m.vMerkleBranch ++ serInt 4 m.nIndex

def serBlock (nType : Nat) (header : CBlockHeader) (auxpow : List UInt8)
    (vtx : List CTransaction) : List UInt8 :=
  header.serialize ++ auxpow ++
    if headerOnly nType then [] else serVector CTransaction.serialize vtx

mutual

def CAuxPow.serialize (nType : Nat) : CAuxPow → List UInt8
  | .mk m branch nChainIndex header vtx parent =>
    m.serialize ++ serVector serHash branch ++ serInt 4 nChainIndex ++
      serBlock (nType ||| serBlockHeaderOnly) header
        (writeAuxPow (nType ||| serBlockHeaderOnly) header.nVersion parent) vtx

def writeAuxPow (nType : Nat) (nVersion : Int) : Option CAuxPow → List UInt8
  | none => []
  | some a => if hasAuxPowVersion nVersion then a.serialize nType else []

end

def CBlock.serialize (nType : Nat) (b : CBlock) : List UInt8 :=
  serBlock nType b.toCBlockHeader (writeAuxPow nType b.nVersion b.auxpow) b.vtx

def CBlock.serializeSize (nType : Nat) (b : CBlock) : Nat :=
  if headerOnly nType then b.headerSize else b.getSerializeSize

def readUInt (k : Nat) : Reader UInt8 Nat := do
  let b ← raw k
  pure (leNat b)

def toSigned (k n : Nat) : Int := if n < 2 ^ (8 * k - 1) then n else (n : Int) - 256 ^ k

def readInt (k : Nat) : Reader UInt8 Int := do
  let b ← raw k
  pure (toSigned k (leNat b))

def readHash : Reader UInt8 Uint256 := do
  let b ← raw 32
  pure (BitVec.ofNat 256 (leNat b))

def readLongSize (chSize : Nat) : Reader UInt8 Nat :=
  if chSize < 253 then pure chSize
  else if chSize = 253 then readUInt 2
  else if chSize = 254 then readUInt 4
  else readUInt 8

def readCompactSize : Reader UInt8 Nat := do
  let chSize ← readUInt 1
  let nSizeRet ← readLongSize chSize
  if maxSize < nSizeRet then fail else pure nSizeRet

def readBytes : Reader UInt8 (List UInt8) := do
  let nSize ← readCompactSize
  raw nSize

def readVector {α : Type} (p : Reader UInt8 α) : Reader UInt8 (List α) := do
  let nSize ← readCompactSize
  many p nSize

def CTxIn.unserialize : Reader UInt8 CTxIn := do
  let hash ← readHash
  let n ← readUInt 4
  let scriptSig ← readBytes
  let nSequence ← readUInt 4
  pure ⟨⟨hash, n⟩, scriptSig, nSequence⟩

def CTxOut.unserialize : Reader UInt8 CTxOut := do
  let nValue ← readInt 8
  let scriptPubKey ← readBytes
  pure ⟨nValue, scriptPubKey⟩

def CTransaction.unserialize : Reader UInt8 CTransaction := do
  let nVersion ← readInt 4
  let vin ← readVector CTxIn.unserialize
  let vout ← readVector CTxOut.unserialize
  let nLockTime ← readUInt 4
  pure ⟨nVersion, vin, vout, nLockTime⟩

def CMerkleTx.unserialize : Reader UInt8 CMerkleTx := do
  let tx ← CTransaction.unserialize
  let hashBlock ← readHash
  let vMerkleBranch ← readVector readHash
  let nIndex ← readInt 4
  pure ⟨tx, hashBlock, vMerkleBranch, nIndex⟩

def CBlockHeader.unserialize : Reader UInt8 CBlockHeader := do
  let nVersion ← readInt 4
  let hashPrevBlock ← readHash
  let hashMerkleRoot ← readHash
  let nTime ← readUInt 4
  let nBits ← readUInt 4
  let nNonce ← readUInt 4
  pure ⟨nVersion, hashPrevBlock, hashMerkleRoot, nTime, nBits, nNonce⟩

def readAuxPow (readAux : Reader UInt8 CAuxPow) (nVersion : Int) :
    Reader UInt8 (Option CAuxPow) :=
  if hasAuxPowVersion nVersion then some <$> readAux else pure none

def readVtx (nType : Nat) : Reader UInt8 (List CTransaction) :=
  if headerOnly nType then pure [] else readVector CTransaction.unserialize

def readBlock (readAux : Reader UInt8 CAuxPow) (nType : Nat) : Reader UInt8 CBlock := do
  let header ← CBlockHeader.unserialize
  let auxpow ← readAuxPow readAux header.nVersion
  let vtx ← readVtx nType
  pure ⟨header, vtx, auxpow⟩

def CAuxPow.unserializeFuel : Nat → Nat → Reader UInt8 CAuxPow
  | 0, _ => fail
  | fuel + 1, nType => do
    let m ← CMerkleTx.unserialize
    let branch ← readVector readHash
    let nChainIndex ← readInt 4
    let parentBlock ← readBlock (CAuxPow.unserializeFuel fuel (nType ||| serBlockHeaderOnly))
      (nType ||| serBlockHeaderOnly)
    pure (.mk m branch nChainIndex parentBlock.toCBlockHeader parentBlock.vtx parentBlock.auxpow)

def CAuxPow.unserialize (nType : Nat) : Reader UInt8 CAuxPow := fun s =>
  CAuxPow.unserializeFuel (s.length + 1) nType s

def CBlock.unserialize (nType : Nat) : Reader UInt8 CBlock := fun s =>
  readBlock (CAuxPow.unserializeFuel (s.length + 1) nType) nType s

end Namecoin
