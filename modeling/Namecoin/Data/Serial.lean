import Namecoin.Data.Types

namespace Namecoin

def leBytes : Nat → Nat → List UInt8
  | 0, _ => []
  | k + 1, n => UInt8.ofNat (n % 256) :: leBytes k (n / 256)

def serInt (k : Nat) (n : Int) : List UInt8 := leBytes k (n % (256 ^ k : Nat)).toNat

def serHash (h : Uint256) : List UInt8 := leBytes 32 h.toNat

def getSizeOfCompactSize (nSize : Nat) : Nat :=
  if nSize < 253 then 1
  else if nSize ≤ 0xffff then 3
  else if nSize ≤ 0xffffffff then 5
  else 9

def writeCompactSize (nSize : Nat) : List UInt8 :=
  if nSize < 253 then leBytes 1 nSize
  else if nSize ≤ 0xffff then 253 :: leBytes 2 nSize
  else if nSize ≤ 0xffffffff then 254 :: leBytes 4 nSize
  else 255 :: leBytes 8 nSize

def serBytes (b : List UInt8) : List UInt8 := writeCompactSize b.length ++ b

abbrev StdString := List UInt8

def str (s : String) : StdString := s.toList.map (fun c => UInt8.ofNat c.toNat)

def serString (s : String) : List UInt8 := serBytes (str s)

def CTxIn.serialize (txin : CTxIn) : List UInt8 :=
  serHash txin.prevout.hash ++ leBytes 4 txin.prevout.n ++ serBytes txin.scriptSig ++
    leBytes 4 txin.nSequence

def CTxOut.serialize (txout : CTxOut) : List UInt8 :=
  serInt 8 txout.nValue ++ serBytes txout.scriptPubKey

def CTransaction.serialize (tx : CTransaction) : List UInt8 :=
  serInt 4 tx.nVersion ++
    writeCompactSize tx.vin.length ++ tx.vin.flatMap CTxIn.serialize ++
    writeCompactSize tx.vout.length ++ tx.vout.flatMap CTxOut.serialize ++
    leBytes 4 tx.nLockTime

def CBlockHeader.serialize (b : CBlockHeader) : List UInt8 :=
  serInt 4 b.nVersion ++ serHash b.hashPrevBlock ++ serHash b.hashMerkleRoot ++
    leBytes 4 b.nTime ++ leBytes 4 b.nBits ++ leBytes 4 b.nNonce

def CTransaction.getHash (env : Env) (tx : CTransaction) : Uint256 := env.hash tx.serialize

def CBlockHeader.getHash (env : Env) (b : CBlockHeader) : Uint256 := env.hash b.serialize

def sizeBytes (b : List UInt8) : Nat := getSizeOfCompactSize b.length + b.length

def CTxIn.getSerializeSize (txin : CTxIn) : Nat := 36 + sizeBytes txin.scriptSig + 4

def CTxOut.getSerializeSize (txout : CTxOut) : Nat := 8 + sizeBytes txout.scriptPubKey

def CTransaction.getSerializeSize (tx : CTransaction) : Nat :=
  4 + (getSizeOfCompactSize tx.vin.length + (tx.vin.map CTxIn.getSerializeSize).sum) +
    (getSizeOfCompactSize tx.vout.length + (tx.vout.map CTxOut.getSerializeSize).sum) + 4

def CMerkleTx.getSerializeSize (m : CMerkleTx) : Nat :=
  m.tx.getSerializeSize + 32 +
    (getSizeOfCompactSize m.vMerkleBranch.length + 32 * m.vMerkleBranch.length) + 4

def blockVersionAuxpow : Nat := 2 ^ 8

def blockVersionChainStart : Int := 2 ^ 16

def hasAuxPowVersion (nVersion : Int) : Bool :=
  (nVersion / blockVersionAuxpow) % 2 == 1

mutual

def CAuxPow.getSerializeSize : CAuxPow → Nat
  | .mk m branch _ header _ parent =>
    m.getSerializeSize + (getSizeOfCompactSize branch.length + 32 * branch.length) + 4 +
      (80 + auxPowSize header.nVersion parent)

def auxPowSize (nVersion : Int) : Option CAuxPow → Nat
  | none => 0
  | some a => if hasAuxPowVersion nVersion then a.getSerializeSize else 0

end

def CBlock.headerSize (b : CBlock) : Nat := 80 + auxPowSize b.nVersion b.auxpow

def CBlock.getSerializeSize (b : CBlock) : Nat :=
  b.headerSize +
    (getSizeOfCompactSize b.vtx.length + (b.vtx.map CTransaction.getSerializeSize).sum)

theorem size_pos (tx : CTransaction) : 0 < tx.getSerializeSize := by
  unfold CTransaction.getSerializeSize
  omega

end Namecoin
