import Namecoin.Name.Expiry
import Namecoin.Node.Process
import Namecoin.Wallet.Commit

namespace Namecoin

open Std (TreeMap)

namespace WalletTx

def markUnspent (wtx : WalletTx) (nOut : Nat) : WalletTx :=
  let n := wtx.merkle.tx.vout.length
  let vfSpent := (wtx.vfSpent ++ List.replicate n false).take n
  if (vfSpent[nOut]?).getD false then wtx.setSpent (vfSpent.set nOut false)
  else { wtx with vfSpent := vfSpent }

def arrived (env : Env) (tx : CTransaction) (pblock : Option CBlock) : WalletTx :=
  { WalletTx.ofTx tx with
    merkle := (pblock.map (CWallet.setMerkleBranch env tx)).getD ⟨tx, 0, [], -1⟩ }

end WalletTx

namespace Wallet

variable {env : Env}

def isMineIn (w : Wallet env) (txin : CTxIn) : Bool :=
  match w.mapWallet[txin.prevout.hash]? with
  | none => false
  | some prev => ((prev.merkle.tx.vout[txin.prevout.n]?).map w.toCWallet.isMineTxOut).getD false

def unspendInputs : List CTxIn → Wallet env → Wallet env
  | [], w => w
  | txin :: rest, w =>
    if w.isMineIn txin then
      match w.mapWallet[txin.prevout.hash]? with
      | none => unspendInputs rest w
      | some prev => unspendInputs rest (w.putTx (prev.markUnspent txin.prevout.n))
    else unspendInputs rest w

def eraseFromWallet (hash : Uint256) (w : Wallet env) : Wallet env :=
  { w with
    mapWallet := w.mapWallet.erase hash
    keyed := by
      intro h wtx hget
      rw [TreeMap.getElem?_erase] at hget
      split at hget
      · cases hget
      · exact w.keyed h wtx hget }

def markDirty (w : Wallet env) : Wallet env :=
  { w with
    mapWallet := w.mapWallet.map (fun _ wtx => wtx.markDirty)
    keyed := by
      intro h wtx hget
      rw [TreeMap.getElem?_map] at hget
      obtain ⟨old, hold, rfl⟩ := Option.map_eq_some_iff.mp hget
      exact w.keyed h old hold }

def removeTx (hash : Uint256) (tx : CTransaction) (w : Wallet env) : Wallet env :=
  (w.unspendInputs tx.vin).eraseFromWallet hash

section Node

variable (e : NodeEnv) (s : NodeState)

def inBlockchain (env : Env) (hash : Uint256) : Bool :=
  match s.chain.dbset.tx hash with
  | none => false
  | some txindex =>
    match s.disk.readFromDisk txindex.pos with
    | none => false
    | some tx =>
      if tx.vout = [] ∨ tx.getHash env ≠ hash then false
      else
        ((s.disk.readBlock txindex.pos.nFile txindex.pos.nBlockPos).map
          (fun block => decide (block.getHash env ≠ 0))).getD false

def deletetransaction (hash : Uint256) (w : Wallet env) : Except Fault (Wallet env) :=
  match w.mapWallet[hash]? with
  | none => .error (.exception "transaction not in wallet")
  | some wtx =>
    if (s.mapTransactions hash).isNone ∧ inBlockchain s env hash then
      .error (.exception "transaction is already in blockchain")
    else .ok (w.removeTx (wtx.merkle.tx.getHash env) wtx.merkle.tx)

def cleanStart (w : Wallet env) : Except Fault (TreeMap Uint256 CTransaction) :=
  w.txs.foldlM (fun mapRemove wtx => do
    if wtx.getDepthInMainChain e s < 1 then
      let conflicted ← isConflictedTx env (s.view e) s.chain.dbset wtx.merkle.tx
      if conflicted then return mapRemove.insert (wtx.merkle.tx.getHash env) wtx.merkle.tx
    return mapRemove) ∅

def cleanVisit (env : Env) (mapRemove : TreeMap Uint256 CTransaction) (wtx : WalletTx) :
    TreeMap Uint256 CTransaction :=
  if wtx.merkle.tx.vin.any (fun txin => mapRemove.contains txin.prevout.hash) &&
      !mapRemove.contains (wtx.merkle.tx.getHash env) then
    mapRemove.insert (wtx.merkle.tx.getHash env) wtx.merkle.tx
  else mapRemove

def cleanClose (w : Wallet env) :
    Nat → TreeMap Uint256 CTransaction → Except Fault (TreeMap Uint256 CTransaction)
  | 0, _ => .error .undefined
  | fuel + 1, mapRemove =>
    let grown := w.txs.foldl (cleanVisit env) mapRemove
    if grown.size = mapRemove.size then .ok grown else cleanClose w fuel grown

def nameClean (w : Wallet env) : Except Fault (Wallet env) := do
  let mapRemove ← w.cleanStart e s
  let mapRemove ← w.cleanClose (w.mapWallet.size + 1) mapRemove
  return mapRemove.toList.foldl (fun w p => w.removeTx p.1 p.2) w

def addToWalletIfInvolvingMe (tx : CTransaction) (pblock : Option CBlock) (fUpdate : Bool)
    (w : Wallet env) : Except Fault (Bool × Wallet env) :=
  if (w.mapWallet[tx.getHash env]?).isSome ∧ fUpdate = false then .ok (false, w)
  else do
    let involved ← w.toCWallet.involvesMe env tx
    if involved then
      (w.addToWallet e s (WalletTx.arrived env tx pblock)).map (fun w => (true, w))
    else (w.walletUpdateSpent e s tx.vin).map (fun w => (false, w))

def scanForWalletTransactions (fUpdate : Bool) :
    List (CTransaction × CBlock) → Wallet env → Except Fault (Nat × Wallet env)
  | [], w => .ok (0, w)
  | (tx, block) :: rest, w => do
    let (added, w) ← w.addToWalletIfInvolvingMe e s tx (some block) fUpdate
    let (ret, w) ← scanForWalletTransactions fUpdate rest w
    return (if added then ret + 1 else ret, w)

def spentElsewhere (w : Wallet env) (wtx : WalletTx) (txindex : CTxIndex) : List Nat :=
  (List.range txindex.getOutputCount).filter (fun i =>
    !(wtx.vfSpent[i]?).getD false && (txindex.isSpent[i]?).getD false &&
      ((wtx.merkle.tx.vout[i]?).map w.toCWallet.isMineTxOut).getD false)

def markElsewhere (wtx : WalletTx) (w : Wallet env) : Except Fault (Bool × Wallet env) :=
  match s.chain.dbset.tx (wtx.merkle.tx.getHash env) with
  -- AcceptWalletTransaction changes the memory pool only
  | none => .ok (false, w)
  | some txindex =>
    if txindex.getOutputCount ≠ wtx.merkle.tx.vout.length then .ok (false, w)
    else if w.spentElsewhere wtx txindex = [] then .ok (false, w)
    else do
      let marked ← (w.spentElsewhere wtx txindex).foldlM WalletTx.markSpent wtx
      let filled ← w.fillCredit e s marked
      return (true, w.putTx filled.markDirty)

def reacceptTx (wtx : WalletTx) (w : Wallet env) : Except Fault (Bool × Wallet env) :=
  if wtx.merkle.tx.isCoinBase then do
    let spent ← wtx.isSpent 0
    if spent then return (false, w) else w.markElsewhere e s wtx
  else w.markElsewhere e s wtx

def reacceptPass : List WalletTx → Wallet env → Except Fault (Bool × Wallet env)
  | [], w => .ok (false, w)
  | wtx :: rest, w => do
    let (fUpdated, w) ← w.reacceptTx e s wtx
    let (hasMissingTx, w) ← reacceptPass rest w
    return (fUpdated || hasMissingTx, w)

def reacceptWalletTransactions (vtx : List (CTransaction × CBlock)) :
    Nat → Wallet env → Except Fault (Wallet env)
  | 0, _ => .error .undefined
  | fuel + 1, w => do
    let (hasMissingTx, w) ← reacceptPass e s w.txs w
    if hasMissingTx then
      let (ret, w) ← scanForWalletTransactions e s false vtx w
      if ret ≠ 0 then reacceptWalletTransactions vtx fuel w else return w
    else return w

def withKeys (ks : CKeyStore) (strAddress strLabel : StdString) (w : Wallet env) : Wallet env :=
  { ({ w with keys := ks } : Wallet env).markDirty with
    mapAddressBook := w.mapAddressBook.insert strAddress strLabel }

def rescan (fRescan : Bool) (vtx : List (CTransaction × CBlock)) (fuel : Nat) (w : Wallet env) :
    Except Fault (Wallet env) := do
  if fRescan then
    let (_, w) ← scanForWalletTransactions e s true vtx w
    reacceptWalletTransactions e s vtx fuel w
  else return w

def importprivkey (evp : Evp) (key : CKey) (strLabel : StdString) (fRescan : Bool)
    (vtx : List (CTransaction × CBlock)) (fuel : Nat) (w : Wallet env) :
    Except Fault (Wallet env) :=
  let x := w.keys.addKey env evp key
  if w.keys.isLocked then
    .error (.exception "Error: Please enter the wallet passphrase with walletpassphrase first.")
  else if x.1 = false then .error (.exception "Error adding key to wallet")
  else (w.withKeys x.2 (pubKeyToAddress env key.vchPubKey) strLabel).rescan e s fRescan vtx fuel

def importaddress (strAddress strLabel : StdString) (fRescan : Bool)
    (vtx : List (CTransaction × CBlock)) (fuel : Nat) (w : Wallet env) :
    Except Fault (Wallet env) :=
  match addressToHash160 env strAddress with
  | none => .error (.exception "Invalid Namecoin address")
  | some hash160 =>
    (w.withKeys (w.keys.addAddress hash160) strAddress strLabel).rescan e s fRescan vtx fuel

end Node

end Wallet

end Namecoin
