import Namecoin.Data.Script

namespace Namecoin

def add64 (a b : Int) : Except Fault Int :=
  if -2 ^ 63 ≤ a + b ∧ a + b < 2 ^ 63 then .ok (a + b) else .error .overflow

def postLibcoinFork (env : Env) (nHeight : Nat) : Bool :=
  if env.fTestNet then decide (108000 ≤ nHeight) else decide (bugWorkaroundBlock ≤ nHeight)

def doStrictChecks (env : Env) (nHeight : Nat) : Bool :=
  if env.fTestNet then decide (108000 ≤ nHeight) else decide (212500 ≤ nHeight)

def getExpirationDepth (nHeight : Nat) : Nat :=
  if nHeight < 24000 then 12000
  else if nHeight < 48000 then nHeight - 12000
  else 36000

def getNetworkFee (env : Env) (nHeight : Nat) : Int :=
  let nHeight := if 24000 ≤ nHeight then nHeight + (nHeight - 24000) * 3 else nHeight
  if 60 ≤ nHeight >>> 13 then 0
  else
    let nStart := if env.fTestNet then 10 * cent else 50 * coin
    let nRes := nStart >>> (nHeight >>> 13)
    nRes - (nRes >>> 14) * (nHeight % 8192 : Nat)

structure NameScan where
  found : Option Nat
  op : Nat
  vvch : List VchType
  deriving DecidableEq, Repr

def NameScan.start : NameScan := ⟨none, 0, []⟩

def scanNameScripts (strict : Bool) : List CScript → Nat → NameScan → Option NameScan
  | [], _, r => some r
  | script :: rest, i, r =>
    let d := decodeNameScript script r.op (if strict then [] else r.vvch)
    if d.ok then
      match r.found with
      | some _ => none
      | none => scanNameScripts strict rest (i + 1) ⟨some i, d.op, d.vvch⟩
    else
      scanNameScripts strict rest (i + 1) ⟨r.found, d.op, if strict then r.vvch else d.vvch⟩

structure NameTx where
  op : Nat
  nOut : Nat
  vvch : List VchType
  deriving DecidableEq, Repr

def CTransaction.outScripts (tx : CTransaction) : List CScript := tx.vout.map CTxOut.scriptPubKey

def decodeNameTx (env : Env) (tx : CTransaction) (nHeight : Nat) : Option NameTx :=
  match scanNameScripts (postLibcoinFork env nHeight) tx.outScripts 0 NameScan.start with
  | none => none
  | some r => r.found.map (fun nOut => ⟨r.op, nOut, r.vvch⟩)

def sum64 : List Int → Int → Except Fault Int
  | [], n => .ok n
  | v :: rest, n =>
    match add64 n v with
    | .error e => .error e
    | .ok m => sum64 rest m

def getNameNetFee (tx : CTransaction) : Except Fault Int :=
  sum64 ((tx.vout.filter (fun out => decide (out.scriptPubKey = [UInt8.ofNat opReturn]))).map
    CTxOut.nValue) 0

def vchAt (vvch : List VchType) (i : Nat) : Except Fault VchType :=
  match vvch[i]? with
  | some vch => .ok vch
  | none => .error .undefined

def getValueOfNameTx (env : Env) (tx : CTransaction) (nBestHeight : Nat) :
    Except Fault (Option VchType) :=
  match decodeNameTx env tx nBestHeight with
  | none => .ok none
  | some d =>
    if d.op = opNameFirstupdate then (vchAt d.vvch 2).map some
    else if d.op = opNameUpdate then (vchAt d.vvch 1).map some
    else .ok none

def checkNameTxPos (vtxPos : List CNameIndex) (txPos : CDiskTxPos) : Bool :=
  match vtxPos.getLast? with
  | none => false
  | some e => decide (e.txPos = txPos)

def relativeDepth (nHeight : Nat) (pos : CDiskTxPos) (maxDepth : Nat) :
    List CBlockIndex → Option Int
  | [] => none
  | pindex :: rest =>
    if (nHeight : Int) - pindex.nHeight < maxDepth then
      if pindex.nBlockPos = pos.nBlockPos ∧ pindex.nFile = pos.nFile then
        some ((nHeight : Int) - pindex.nHeight)
      else relativeDepth nHeight pos maxDepth rest
    else none

def checkTransactionAtRelativeDepth (pindexBlock : Branch) (txindex : CTxIndex)
    (maxDepth : Nat) : Int :=
  (relativeDepth pindexBlock.pindex.nHeight txindex.pos maxDepth pindexBlock.walk).getD (-1)

theorem vchAt_ok {vvch : List VchType} {i : Nat} {vch : VchType} :
    vchAt vvch i = .ok vch ↔ vvch[i]? = some vch := by
  unfold vchAt
  cases vvch[i]? <;> simp

theorem add64_ok {a b c : Int} : add64 a b = .ok c ↔
    c = a + b ∧ -2 ^ 63 ≤ a + b ∧ a + b < 2 ^ 63 := by
  unfold add64
  split
  · rename_i h
    simp only [Except.ok.injEq]
    exact ⟨fun e => ⟨e.symm, h⟩, fun e => e.1.symm⟩
  · rename_i h
    simp only [reduceCtorEq, false_iff]
    exact fun e => h e.2

end Namecoin
