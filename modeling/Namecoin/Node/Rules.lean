import Namecoin.Chain.Block

namespace Namecoin

-- the word that CBigNum.getCompact writes byte by byte (getCompact_eq)
def getCompact (bn : Int) : Nat :=
  let mag := bn.natAbs
  if mag = 0 then 0
  else
    let nSize := Nat.size mag / 8 + 1
    let top := if 3 ≤ nSize then mag / 256 ^ (nSize - 3) else mag * 256 ^ (3 - nSize)
    nSize * 2 ^ 24 + top + if bn < 0 then 2 ^ 23 else 0

def nTargetTimespan : Int := 14 * 24 * 60 * 60
def nTargetSpacing : Int := 10 * 60
def nInterval : Nat := 2016
def nMedianTimeSpan : Nat := 11

def getFullRetargetStartBlock (env : Env) : Nat := if env.fTestNet then 0 else 19200

def lastNormalBits (nProofOfWorkLimit : Nat) : List CBlockIndex → Nat
  | [] => nProofOfWorkLimit
  | [pindex] => pindex.nBits
  | pindex :: rest =>
    if pindex.nHeight % nInterval ≠ 0 ∧ pindex.nBits = nProofOfWorkLimit then
      lastNormalBits nProofOfWorkLimit rest
    else pindex.nBits

def retarget (env : Env) (pindexLast pindexFirst : CBlockIndex) : Nat :=
  let nActualTimespan : Int := pindexLast.nTime - pindexFirst.nTime
  let nActualTimespan := max nActualTimespan (nTargetTimespan / 4)
  let nActualTimespan := min nActualTimespan (nTargetTimespan * 4)
  let bnNew := (setCompact pindexLast.nBits * nActualTimespan).tdiv nTargetTimespan
  getCompact (min bnNew (bnProofOfWorkLimit env))

def getNextWorkRequired (env : Env) (walk : List CBlockIndex) (pblock : CBlockHeader) :
    Except Fault Nat :=
  let nProofOfWorkLimit := getCompact (bnProofOfWorkLimit env)
  match walk with
  | [] => .ok nProofOfWorkLimit
  | pindexLast :: _ =>
    if (pindexLast.nHeight + 1) % nInterval ≠ 0 then
      if env.fTestNet ∧ 1394838000 < pblock.nTime then
        if nTargetSpacing * 2 < ((pblock.nTime : Int) - pindexLast.nTime) % 2 ^ 32 then
          .ok nProofOfWorkLimit
        else .ok (lastNormalBits nProofOfWorkLimit walk)
      else .ok pindexLast.nBits
    else
      let nBlocksBack :=
        if getFullRetargetStartBlock env ≤ pindexLast.nHeight ∧ nInterval < pindexLast.nHeight + 1
        then nInterval else nInterval - 1
      match walk[nBlocksBack]? with
      | none => .error .assertion
      | some pindexFirst => .ok (retarget env pindexLast pindexFirst)

def getMedianTimePast (walk : List CBlockIndex) : Nat :=
  let pmedian := ((walk.take nMedianTimeSpan).map CBlockIndex.nTime).insertionSort (· ≤ ·)
  pmedian.getD (pmedian.length / 2) 0

def CTransaction.isFinalTx (nBestHeight : Int) (nNow : Nat) (tx : CTransaction)
    (nBlockHeight : Int) (nBlockTime : Nat) : Bool :=
  let nBlockHeight := if nBlockHeight = 0 then nBestHeight else nBlockHeight
  let nBlockTime := if nBlockTime = 0 then nNow else nBlockTime
  decide (tx.nLockTime = 0) ||
    decide ((tx.nLockTime : Int) < if tx.nLockTime < 500000000 then nBlockHeight else nBlockTime) ||
    tx.vin.all (fun txin => decide (txin.nSequence = uintMax))

def lockins : List (Nat × Nat) :=
  [(2016, 0x0000000000660bad0d9fbde55ba7ee14ddf766ed5f527e3fbca523ac11460b92),
    (4032, 0x0000000000493b5696ad482deb79da835fe2385304b841beef1938655ddbc411),
    (6048, 0x000000000027939a2e1d8bb63f36c47da858e56d570f143e67e85068943470c9),
    (8064, 0x000000000003a01f708da7396e54d081701ea406ed163e519589717d8b7c95a5),
    (10080, 0x00000000000fed3899f818b2228b4f01b9a0a7eeee907abd172852df71c64b06),
    (12096, 0x0000000000006c06988ff361f124314f9f4bb45b6997d90a7ee4cedf434c670f),
    (14112, 0x00000000000045d95e0588c47c17d593c7b5cb4fb1e56213d1b3843c1773df2b),
    (16128, 0x000000000001d9964f9483f9096cf9d6c6c2886ed1e5dec95ad2aeec3ce72fa9),
    (18940, 0x00000000000087f7fc0c8085217503ba86f796fa4984f7e5a08b6c4c12906c05),
    (30240, 0xe1c8c862ff342358384d4c22fa6ea5f669f3e1cdcf34111f8017371c3c0be1da),
    (57000, 0xaa3ec60168a0200799e362e2b572ee01f3c3852030d07d036e0aa884ec61f203),
    (112896, 0x73f880e78a04dd6a31efc8abf7ca5db4e262c4ae130d559730d6ccb8808095bf),
    (182000, 0xd47b4a8fd282f635d66ce34ebbeb26ffd64c35b41f286646598abfd813cba6d9),
    (193000, 0x3b85e70ba7f5433049cfbcf0ae35ed869496dbedcd1c0fafadb0284ec81d7b58)]

def lockin (env : Env) (nHeight : Nat) (hash : Uint256) : Bool :=
  env.fTestNet || lockins.all (fun p => decide (nHeight ≠ p.1) || decide (hash.toNat = p.2))

def CTransaction.isStandard (nBestHeight : Int) (nNow : Nat) (tx : CTransaction) : Bool :=
  tx.isFinalTx nBestHeight nNow 0 0 && tx.vin.all (fun txin => isPushOnly txin.scriptSig)

def CTransaction.getMinFee (tx : CTransaction) (nBlockSize : Nat) (fAllowFree fForRelay : Bool) :
    Int :=
  let nBaseFee := if fForRelay then minRelayTxFee else minTxFee
  let nBytes := tx.getSerializeSize
  let nNewBlockSize := nBlockSize + nBytes
  let nMinFee := (1 + (nBytes / 1000 : Nat)) * nBaseFee
  let nMinFee :=
    if fAllowFree ∧ ((nBlockSize = 1 ∧ nBytes < 1000) ∨ (nBlockSize ≠ 1 ∧ nNewBlockSize < 9000)) then 0
    else nMinFee
  let nMinFee :=
    if fForRelay then nMinFee
    else nMinFee + nBaseFee * (tx.vout.countP (fun txout => decide (txout.nValue < cent)) : Nat)
  if nBlockSize ≠ 1 ∧ maxBlockSizeGen ≤ nNewBlockSize then maxMoney
  else
    let nMinFee :=
      if nBlockSize ≠ 1 ∧ maxBlockSizeGen / 2 ≤ nNewBlockSize then
        nMinFee * (maxBlockSizeGen / (maxBlockSizeGen - nNewBlockSize) : Nat)
      else nMinFee
    if moneyRange nMinFee then nMinFee else maxMoney

end Namecoin
