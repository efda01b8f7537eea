import Namecoin.Data.Script

namespace Namecoin

-- the number that CBigNum.setCompact reads from the bytes of the word (setCompact_eq)
def setCompact (nCompact : Nat) : Int :=
  let nSize := nCompact / 2 ^ 24
  let word := nCompact % 2 ^ 24
  let mant := word % 2 ^ 23
  let mag : Nat := if nSize ≤ 3 then mant / 256 ^ (3 - nSize) else mant * 256 ^ (nSize - 3)
  if 2 ^ 23 ≤ word then -(mag : Int) else mag

def bnProofOfWorkLimit (env : Env) : Int := if env.fTestNet then 2 ^ 228 - 1 else 2 ^ 224 - 1

def getBlockWork (nBits : Nat) : Int :=
  let bnTarget := setCompact nBits
  if bnTarget ≤ 0 then 0 else 2 ^ 256 / (bnTarget + 1)

def checkProofOfWork (env : Env) (hash : Uint256) (nBits : Nat) : Bool :=
  let bnTarget := setCompact nBits
  decide (0 < bnTarget) && decide (bnTarget ≤ bnProofOfWorkLimit env) &&
    decide ((hash.toNat : Int) ≤ bnTarget)

def hashPair (env : Env) (a b : Uint256) : Uint256 := env.hash (serHash a ++ serHash b)

def nextLevel (env : Env) : List Uint256 → List Uint256
  | [] => []
  | [a] => [hashPair env a a]
  | a :: b :: rest => hashPair env a b :: nextLevel env rest

def merkleLevels (env : Env) : Nat → List Uint256 → List (List Uint256)
  | 0, l => [l]
  | fuel + 1, l => if l.length ≤ 1 then [l] else l :: merkleLevels env fuel (nextLevel env l)

def txHashes (env : Env) (vtx : List CTransaction) : List Uint256 := vtx.map (·.getHash env)

def CBlock.levels (env : Env) (b : CBlock) : List (List Uint256) :=
  merkleLevels env b.vtx.length (txHashes env b.vtx)

def CBlock.buildMerkleTree (env : Env) (b : CBlock) : Uint256 :=
  ((b.levels env).flatten.getLast?).getD 0

def merkleBranchOf : List (List Uint256) → Nat → List Uint256
  | [], _ => []
  | l :: rest, nIndex =>
    if l.length ≤ 1 then []
    else l.getD (min (nIndex ^^^ 1) (l.length - 1)) 0 :: merkleBranchOf rest (nIndex / 2)

def CBlock.getMerkleBranch (env : Env) (b : CBlock) (nIndex : Nat) : List Uint256 :=
  merkleBranchOf (b.levels env) nIndex

def foldBranch (env : Env) (hash : Uint256) : List Uint256 → Int → Uint256
  | [], _ => hash
  | otherside :: rest, nIndex =>
    if nIndex % 2 = 1 then foldBranch env (hashPair env otherside hash) rest (nIndex / 2)
    else foldBranch env (hashPair env hash otherside) rest (nIndex / 2)

def checkMerkleBranch (env : Env) (hash : Uint256) (vMerkleBranch : List Uint256)
    (nIndex : Int) : Uint256 :=
  if nIndex = -1 then 0 else foldBranch env hash vMerkleBranch nIndex

def search (pat : List UInt8) : List UInt8 → Nat → Option Nat
  | [], pos => if pat = [] then some pos else none
  | b :: s, pos => if pat.isPrefixOf (b :: s) then some pos else search pat s (pos + 1)

def pchMergedMiningHeader : List UInt8 := [0xfa, 0xbe, 0x6d, 0x6d]

def CBlockHeader.getChainID (b : CBlockHeader) : Int := b.nVersion.tdiv blockVersionChainStart

def getOurChainID : Int := 1

def getAuxPowStartBlock (env : Env) : Nat := if env.fTestNet then 0 else 19200

def auxSlot (nNonce : Nat) (nChainID : Int) (nSize : Nat) : Nat :=
  let rand : Nat := (nNonce * 1103515245 + 12345) % 2 ^ 32
  let rand : Nat := (((rand : Int) + nChainID) % 2 ^ 32).toNat
  let rand : Nat := (rand * 1103515245 + 12345) % 2 ^ 32
  rand % nSize

def checkAuxScript (script : CScript) (root : List UInt8) (nBranch : Nat) (nChainIndex : Int)
    (nChainID : Int) : Bool :=
  match search root script 0 with
  | none => false
  | some pc =>
    let placed := match search pchMergedMiningHeader script 0 with
      | some pcHead =>
        (search pchMergedMiningHeader (script.drop (pcHead + 1)) 0).isNone &&
          pcHead + pchMergedMiningHeader.length == pc
      | none => decide (pc ≤ 20)
    let tail := script.drop (pc + root.length)
    placed && decide (8 ≤ tail.length) && leNat (tail.take 4) == 2 ^ nBranch &&
      (nChainIndex % 2 ^ 32).toNat == auxSlot (leNat ((tail.drop 4).take 4)) nChainID (2 ^ nBranch)

def CAuxPow.check (env : Env) : CAuxPow → Uint256 → Int → Bool
  | .mk m branch nChainIndex parent _ _, hashAuxBlock, nChainID =>
    m.nIndex == 0 && (env.fTestNet || parent.getChainID != nChainID) &&
      decide (branch.length ≤ 30) &&
      checkMerkleBranch env (m.tx.getHash env) m.vMerkleBranch m.nIndex == parent.hashMerkleRoot &&
      match m.tx.vin with
      | [] => false
      | txin :: _ =>
        checkAuxScript txin.scriptSig
          (serHash (checkMerkleBranch env hashAuxBlock branch nChainIndex)).reverse
          branch.length nChainIndex nChainID

def CAuxPow.parent : CAuxPow → CBlockHeader
  | .mk _ _ _ parent _ _ => parent

end Namecoin
