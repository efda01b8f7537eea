import Namecoin.Chain.Connect
import Namecoin.Chain.Work

namespace Namecoin

structure CWalletTx where
  merkle : CMerkleTx
  nTimeReceived : Nat
  fFromMe : Bool
  vfSpent : List Bool
  deriving DecidableEq, Repr

structure CWallet where
  isMineScript : CScript → Bool
  isMyName : CScript → Bool
  nMinimumInputValue : Int
  mapWallet : Uint256 → Option CWalletTx

namespace CWalletTx

def updateSpent (wtx : CWalletTx) (vfNewSpent : List Bool) : CWalletTx :=
  let padded := vfNewSpent ++ List.replicate wtx.vfSpent.length false
  { wtx with vfSpent := List.zipWith (· || ·) wtx.vfSpent padded }

def isSpent (wtx : CWalletTx) (nOut : Nat) : Except Fault Bool :=
  if wtx.merkle.tx.vout.length ≤ nOut then
    .error (.exception "CWalletTx::IsSpent() : nOut out of range")
  else .ok ((wtx.vfSpent[nOut]?).getD false)

def markSpent (wtx : CWalletTx) (nOut : Nat) : CWalletTx :=
  let n := wtx.merkle.tx.vout.length
  let vfSpent := (wtx.vfSpent ++ List.replicate n false).take n
  { wtx with vfSpent := vfSpent.set nOut true }

end CWalletTx

namespace CWallet

def putTx (w : CWallet) (hash : Uint256) (wtx : CWalletTx) : CWallet :=
  { w with mapWallet := Function.update w.mapWallet hash (some wtx) }

def isMineTxOut (w : CWallet) (txout : CTxOut) : Bool := w.isMineScript txout.scriptPubKey

def hookIsMineTx (env : Env) (w : CWallet) (tx : CTransaction) : Bool :=
  if tx.nVersion ≠ namecoinTxVersion then false
  else match decodeNameTx env tx bugWorkaroundBlock with
    | none => false
    | some d => ((tx.vout[d.nOut]?).map (fun out => w.isMyName out.scriptPubKey)).getD false

def hookIsMine (w : CWallet) (tx : CTransaction) (txout : CTxOut) : Bool :=
  decide (tx.nVersion = namecoinTxVersion) && isNameScript txout.scriptPubKey &&
    w.isMyName txout.scriptPubKey

def isMine (env : Env) (w : CWallet) (tx : CTransaction) : Bool :=
  tx.vout.any (fun txout => w.isMineTxOut txout && decide (w.nMinimumInputValue ≤ txout.nValue)) ||
    w.hookIsMineTx env tx

def getDebitInclName (w : CWallet) (txin : CTxIn) : Int :=
  match w.mapWallet txin.prevout.hash with
  | none => 0
  | some prev =>
    match prev.merkle.tx.vout[txin.prevout.n]? with
    | none => 0
    | some txout =>
      if w.isMineTxOut txout || w.hookIsMine prev.merkle.tx txout then txout.nValue else 0

def debitFrom (w : CWallet) : List CTxIn → Int → Except Fault Int
  | [], nDebit => .ok nDebit
  | txin :: rest, nDebit => do
    let nDebit ← add64 nDebit (w.getDebitInclName txin)
    Except.raiseIf (¬moneyRange nDebit)
      (.exception "CWallet::GetDebitInclName() : value out of range")
    debitFrom w rest nDebit

def isFromMe (w : CWallet) (tx : CTransaction) : Except Fault Bool :=
  (w.debitFrom tx.vin 0).map (fun nDebit => decide (0 < nDebit))

def walletUpdateSpent (w : CWallet) : List CTxIn → Except Fault CWallet
  | [] => .ok w
  | txin :: rest =>
    match w.mapWallet txin.prevout.hash with
    | none => walletUpdateSpent w rest
    | some wtx => do
      let spent ← wtx.isSpent txin.prevout.n
      let mine := ((wtx.merkle.tx.vout[txin.prevout.n]?).map w.isMineTxOut).getD false
      if !spent && mine then
        walletUpdateSpent (w.putTx txin.prevout.hash (wtx.markSpent txin.prevout.n)) rest
      else walletUpdateSpent w rest

def setMerkleBranch (env : Env) (tx : CTransaction) (block : CBlock) : CMerkleTx :=
  match block.vtx.findIdx? (fun t => decide (t = tx)) with
  | some nIndex => ⟨tx, block.toCBlockHeader.getHash env, block.getMerkleBranch env nIndex, nIndex⟩
  | none => ⟨tx, block.toCBlockHeader.getHash env, [], -1⟩

def mergeTx (wtx wtxIn : CWalletTx) : CWalletTx :=
  let m := wtx.merkle
  let hashBlock := if wtxIn.merkle.hashBlock ≠ 0 then wtxIn.merkle.hashBlock else m.hashBlock
  let m := { m with hashBlock := hashBlock }
  let m := if wtxIn.merkle.nIndex ≠ -1 then
      { m with vMerkleBranch := wtxIn.merkle.vMerkleBranch, nIndex := wtxIn.merkle.nIndex }
    else m
  ({ wtx with merkle := m, fFromMe := wtx.fFromMe || wtxIn.fFromMe }).updateSpent wtxIn.vfSpent

def addToWallet (env : Env) (w : CWallet) (nNow : Nat) (wtxIn : CWalletTx) :
    Except Fault CWallet :=
  let hash := wtxIn.merkle.tx.getHash env
  let wtx := match w.mapWallet hash with
    | none => { wtxIn with nTimeReceived := nNow }
    | some old => mergeTx old wtxIn
  walletUpdateSpent (w.putTx hash wtx) wtx.merkle.tx.vin

def involvesMe (env : Env) (w : CWallet) (tx : CTransaction) : Except Fault Bool :=
  if (w.mapWallet (tx.getHash env)).isSome || w.isMine env tx then .ok true else w.isFromMe tx

def involve (env : Env) (w : CWallet) (nNow : Nat) (tx : CTransaction) (block : CBlock)
    (mine : Bool) : Except Fault CWallet :=
  if mine then w.addToWallet env nNow ⟨setMerkleBranch env tx block, 0, false, []⟩
  else w.walletUpdateSpent tx.vin

def addToWalletIfInvolvingMe (env : Env) (w : CWallet) (nNow : Nat) (tx : CTransaction)
    (block : CBlock) : Except Fault CWallet := do
  let mine ← w.involvesMe env tx
  w.involve env nNow tx block mine

def syncWithWallets (env : Env) (nNow : Nat) (block : CBlock) :
    List CTransaction → CWallet → Except Fault CWallet
  | [], w => .ok w
  | tx :: rest, w => do
    let w ← w.addToWalletIfInvolvingMe env nNow tx block
    syncWithWallets env nNow block rest w

end CWallet

end Namecoin
