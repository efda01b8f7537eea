import Namecoin.Name.Records
import Namecoin.Chain.Index

namespace Namecoin

open Act

def popAt (pos : CDiskTxPos) (vtxPos : List CNameIndex) : List CNameIndex :=
  if (vtxPos.getLast?).map CNameIndex.txPos = some pos then vtxPos.dropLast else vtxPos

def undoTarget (env : Env) (tx : CTransaction) (nHeight : Nat) : Option (Option VchType) :=
  if tx.nVersion ≠ namecoinTxVersion then some none
  else (decodeNameTx env tx nHeight).map (fun d => if d.writes then d.vvch[0]? else none)

def undoNames (pos : CDiskTxPos) (db : DatabaseSet) : Option VchType → Option DatabaseSet
  | none => some db
  | some vchName =>
    (db.name vchName).map (fun vtxPos => db.writeName vchName (popAt pos vtxPos))

theorem popHistory_eq {db : DatabaseSet} {hash : Uint256} {txindex : CTxIndex}
    (hindex : db.tx hash = some txindex) (vchName : VchType) :
    (popHistory db hash vchName).toOption = undoNames txindex.pos db (some vchName) := by
  unfold popHistory undoNames popAt
  dsimp only
  cases db.name vchName with
  | none => rfl
  | some vtxPos =>
    cases hl : vtxPos.getLast? with
    | none => simp [hl, Except.toOption]
    | some last =>
      simp only [hindex, hl, Option.map_some, Option.some.injEq]
      split <;> rfl

theorem hookDisconnectInputs_eq {env : Env} {tx : CTransaction} (pindex : CBlockIndex)
    {db : DatabaseSet} {txindex : CTxIndex} (hindex : db.tx (tx.getHash env) = some txindex) :
    (hookDisconnectInputs env tx pindex db).toOption =
      (undoTarget env tx pindex.nHeight).bind (undoNames txindex.pos db) := by
  unfold hookDisconnectInputs undoTarget
  split
  · rfl
  · cases hd : decodeNameTx env tx pindex.nHeight with
    | none => rfl
    | some d =>
      simp only [Option.map_some, Option.bind_some]
      by_cases hw : d.op = opNameFirstupdate ∨ d.op = opNameUpdate
      · obtain ⟨vchName, hname⟩ := decodeNameTx_name hd
        rw [if_pos hw, if_pos (show d.writes from hw), hname, vchAt_ok.mpr hname]
        exact popHistory_eq hindex vchName
      · rw [if_neg hw, if_neg (show ¬d.writes from hw)]
        rfl

theorem toOption_eq_some {ε α : Type} {x : Except ε α} {a : α} :
    x.toOption = some a ↔ x = .ok a := by
  cases x <;> simp [Except.toOption]

theorem TxSpends.undoTarget_eq {c : TxCall} {pos : CDiskTxPos} {l : Ledger} {t : TxMap} {fee : Int}
    {vchName : VchType} {entry : CNameIndex}
    (h : TxSpends c pos l t (.append vchName entry) fee) :
    undoTarget c.env c.tx c.pindexBlock.pindex.nHeight = some (some vchName) := by
  obtain ⟨-, d, hd, hw, hname, hv⟩ := h.append_entry
  simp [undoTarget, hv, hd, hw, hname]

theorem undoNames_tx {pos : CDiskTxPos} {db db' : DatabaseSet} {target : Option VchType}
    (h : undoNames pos db target = some db') : db'.tx = db.tx := by
  cases target with
  | none =>
    obtain rfl := Option.some.inj h
    rfl
  | some vchName =>
    obtain ⟨vtxPos, -, rfl⟩ := Option.map_eq_some_iff.mp h
    rfl

theorem TxSpends.restoreInputs_eq {c : TxCall} {pos : CDiskTxPos} {l : Ledger} {t : TxMap}
    {e : NameEffect} {fee : Int} {db : DatabaseSet} (h : TxSpends c pos l t e fee)
    (fresh : l.db.tx (c.tx.getHash c.env) = none)
    (hdb : db.tx = Function.update t (c.tx.getHash c.env) (some (c.entry pos))) :
    ∃ db', c.tx.restoreInputs db = .ok db' ∧
      db'.writeTx (c.tx.getHash c.env) none = db.withTx l.db.tx := by
  have hback (t0 : TxMap) (h0 : t0 (c.tx.getHash c.env) = none) :
      Function.update t0 (c.tx.getHash c.env) none = t0 := by
    rw [← h0, Function.update_eq_self]
  cases h with
  | coinbase cb =>
    refine ⟨db, by simp [CTransaction.restoreInputs, cb], ?_⟩
    simp only [DatabaseSet.writeTx, DatabaseSet.withTx, hdb, Function.update_idem,
      hback _ fresh]
  | @spend rs t nIn nOut prev e cb run scan name value fee range =>
    have hne : ∀ p ∈ prevouts c.tx.vin, p.hash ≠ c.tx.getHash c.env := by
      intro p hp heq
      obtain ⟨txin, hin, rfl⟩ := List.mem_map.mp hp
      exact run.found hin (heq ▸ fresh)
    have hflag : ∀ p ∈ prevouts c.tx.vin, spentFlag db.tx p = some true := by
      intro p hp
      have heq : spentFlag db.tx p = spentFlag t p := by
        simp [spentFlag, hdb, hne p hp]
      rw [heq, run.eq_setAll, spentFlag_setAll, if_pos hp, run.unspent.2 p hp]
      rfl
    have hrestore : c.tx.restoreInputs db =
        .ok { db with tx := setAll (prevouts c.tx.vin) false db.tx } := by
      simp [CTransaction.restoreInputs, cb, disconnectVin_eq run.unspent.1 hflag]
    refine ⟨_, hrestore, ?_⟩
    simp only [DatabaseSet.writeTx, DatabaseSet.withTx, hdb, setAll_update hne,
      Function.update_idem]
    rw [run.eq_setAll, setAll_undo run.unspent.2, hback _ fresh]

theorem TxSpends.disconnectInputs_eq {c : BlockCall} {tx : CTransaction} {nTxPos : Nat}
    {l : Ledger} {t : TxMap} {e : NameEffect} {fee : Int} {db : DatabaseSet}
    (h : TxSpends (c.txCall tx) (c.posOf nTxPos) l t e fee)
    (fresh : l.db.tx (tx.getHash c.env) = none)
    (hdb : db.tx = ((c.txCall tx).after (c.posOf nTxPos) l t e fee).db.tx) :
    (tx.disconnectInputs c.env c.pindex.pindex db).toOption =
      ((undoTarget c.env tx c.pindex.pindex.nHeight).bind (undoNames (c.posOf nTxPos) db)).map
        (fun db' => db'.withTx l.db.tx) := by
  rw [TxCall.after_tx] at hdb
  have hindex : db.tx (tx.getHash c.env) = some ((c.txCall tx).entry (c.posOf nTxPos)) := by
    rw [hdb]
    exact Function.update_self ..
  have hhook := hookDisconnectInputs_eq c.pindex.pindex hindex
  rw [show ((c.txCall tx).entry (c.posOf nTxPos)).pos = c.posOf nTxPos from rfl] at hhook
  rw [← hhook]
  unfold CTransaction.disconnectInputs
  cases hr : hookDisconnectInputs c.env tx c.pindex.pindex db with
  | error e => rfl
  | ok db1 =>
    rw [hr] at hhook
    obtain ⟨target, -, htarget⟩ := Option.bind_eq_some_iff.mp hhook.symm
    have htx : db1.tx = db.tx := undoNames_tx htarget
    obtain ⟨db2, h2, heq⟩ := h.restoreInputs_eq fresh (htx.trans hdb)
    have h2' : tx.restoreInputs db1 = .ok db2 := h2
    simp only [bind, Except.bind, h2', pure, Except.pure, Except.toOption, Option.map_some,
      Option.some.injEq]
    exact heq

end Namecoin
