import Namecoin.Wallet.KeyStore
import Namecoin.Chain.Wallet
import Namecoin.Node.Pool

namespace Namecoin

open Std (TreeMap)

structure WalletTx extends CWalletTx where
  fMerkleVerified : Bool
  vtxPrev : List (CMerkleTx × Bool)
  strFromAccount : StdString
  nDebitCached : Option Int
  nDebitInclNameCached : Option Int
  nCreditCached : Option Int
  nAvailableCreditCached : Option Int

structure Wallet (env : Env) where
  keys : CKeyStore
  mapWallet : TreeMap Uint256 WalletTx
  mapAddressBook : TreeMap StdString StdString
  nMinimumInputValue : Int
  keyed : ∀ (h : Uint256) (wtx : WalletTx), mapWallet[h]? = some wtx →
    wtx.merkle.tx.getHash env = h

theorem keyed_empty (env : Env) (h : Uint256) (wtx : WalletTx)
    (hget : (∅ : TreeMap Uint256 WalletTx)[h]? = some wtx) : wtx.merkle.tx.getHash env = h := by
  rw [TreeMap.getElem?_emptyc] at hget
  cases hget

def isMyName (env : Env) (ks : CKeyStore) (script : CScript) : Bool :=
  match removeNameScriptPrefix script with
  | .error _ => false
  | .ok scriptPubKey => ks.isMine env scriptPubKey

def Wallet.putTx {env : Env} (w : Wallet env) (wtx : WalletTx) : Wallet env :=
  { w with
    mapWallet := w.mapWallet.insert (wtx.merkle.tx.getHash env) wtx
    keyed := by
      intro h wtx' hget
      rw [TreeMap.getElem?_insert] at hget
      split at hget
      · rename_i heq
        cases hget
        exact Std.LawfulEqCmp.compare_eq_iff_eq.mp heq
      · exact w.keyed h wtx' hget }

def Wallet.toCWallet {env : Env} (w : Wallet env) : CWallet where
  isMineScript := w.keys.isMine env
  isMyName := isMyName env w.keys
  nMinimumInputValue := w.nMinimumInputValue
  mapWallet := fun h => (w.mapWallet[h]?).map WalletTx.toCWalletTx

section Depth

variable (e : NodeEnv) (s : NodeState)

def CBlockIndex.isInMainChain (pindex : CBlockIndex) : Bool :=
  pindex.pnext.isSome || decide (s.pindexBest = some pindex.hashBlock)

def CMerkleTx.getDepthInMainChain (m : CMerkleTx) (fMerkleVerified : Bool) : Int :=
  if m.hashBlock = 0 ∨ m.nIndex = -1 then 0
  else
    match s.mapBlockIndex m.hashBlock with
    | none => 0
    | some pindex =>
      if ¬pindex.isInMainChain s then 0
      else if ¬fMerkleVerified ∧
          checkMerkleBranch e.env (m.tx.getHash e.env) m.vMerkleBranch m.nIndex ≠
            pindex.hashMerkleRoot then 0
      else
        (((s.pindexBest.bind s.mapBlockIndex).map CBlockIndex.nHeight).getD 0 : Int) -
          pindex.nHeight + 1

def CTransaction.isFinalNow (tx : CTransaction) : Bool := tx.isFinalTx s.nBestHeight e.nNow 0 0

namespace WalletTx

def getDepthInMainChain (wtx : WalletTx) : Int :=
  wtx.merkle.getDepthInMainChain e s wtx.fMerkleVerified

def getBlocksToMaturity (wtx : WalletTx) : Int :=
  if wtx.merkle.tx.isCoinBase then
    max 0 ((coinbaseMaturity : Int) + 20 - wtx.getDepthInMainChain e s)
  else 0

end WalletTx

end Depth

namespace Wallet

variable {env : Env} (w : Wallet env)

def getDebitInclName (wtx : WalletTx) : Except Fault Int :=
  if wtx.merkle.tx.vin = [] then .ok 0
  else
    match wtx.nDebitInclNameCached with
    | some nDebit => .ok nDebit
    | none => w.toCWallet.debitFrom wtx.merkle.tx.vin 0

def isFromMe (wtx : WalletTx) : Except Fault Bool :=
  (w.getDebitInclName wtx).map (fun nDebit => decide (0 < nDebit))

section Confirmed

variable (e : NodeEnv) (s : NodeState)

def prevIn (env : Env) (vtxPrev : List (CMerkleTx × Bool)) (hash : Uint256) :
    Option (CMerkleTx × Bool) :=
  vtxPrev.reverse.find? (fun m => decide (m.1.tx.getHash env = hash))

def confirmQueue (vtxPrev : List (CMerkleTx × Bool)) :
    Nat → List (CMerkleTx × Bool) → Except Fault Bool
  | _, [] => .ok true
  | 0, _ => .error .undefined
  | fuel + 1, ptx :: vWorkQueue =>
    if ¬ptx.1.tx.isFinalNow e s then .ok false
    else if 1 ≤ ptx.1.getDepthInMainChain e s ptx.2 then confirmQueue vtxPrev fuel vWorkQueue
    else do
      let mine ← w.toCWallet.isFromMe ptx.1.tx
      if mine then
        match ptx.1.tx.vin.mapM (fun txin => prevIn env vtxPrev txin.prevout.hash) with
        | none => .ok false
        | some prevs => confirmQueue vtxPrev fuel (vWorkQueue ++ prevs)
      else .ok false

def isConfirmed (fuel : Nat) (wtx : WalletTx) : Except Fault Bool :=
  if ¬wtx.merkle.tx.isFinalNow e s then .ok false
  else if 1 ≤ wtx.getDepthInMainChain e s then .ok true
  else do
    let mine ← w.isFromMe wtx
    if mine then w.confirmQueue e s wtx.vtxPrev fuel [(wtx.merkle, wtx.fMerkleVerified)]
    else .ok false

end Confirmed

end Wallet

end Namecoin
