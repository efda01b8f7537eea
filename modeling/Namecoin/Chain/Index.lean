import Namecoin.Chain.Flags
import Namecoin.Chain.Run

namespace Namecoin

open Act

structure EntryOk (env : Env) (d : Disk) (hash : Uint256) (txindex : CTxIndex)
    (tx : CTransaction) : Prop where
  read : d.readFromDisk txindex.pos = some tx
  onDisk : txindex.pos ≠ CDiskTxPos.memPool
  hash : tx.getHash env = hash
  outputs : txindex.isSpent.length = tx.vout.length
  checked : tx.checkTransaction env = .ok ()

def IndexOk (env : Env) (d : Disk) (t : TxMap) : Prop :=
  ∀ hash txindex, t hash = some txindex → ∃ tx, EntryOk env d hash txindex tx

theorem readFromDisk_extends {d d' : Disk} (h : d.Extends d') {pos : CDiskTxPos}
    {tx : CTransaction} (hr : d.readFromDisk pos = some tx) : d'.readFromDisk pos = some tx := by
  unfold Disk.readFromDisk at *
  split at hr
  · cases hr
  · rename_i hf
    rw [if_neg hf]
    exact h _ _ _ hr

theorem readPrev_onDisk {tc : TxCall} {prevout : COutPoint} {txindex : CTxIndex}
    {txPrev : CTransaction} (hdisk : txindex.pos ≠ CDiskTxPos.memPool)
    (hread : tc.view.disk.readFromDisk txindex.pos = some txPrev) :
    tc.readPrev prevout true txindex = .ok txPrev := by
  exact TxCall.readPrev_ok.mpr (Or.inr ⟨⟨rfl, hdisk⟩, hread⟩)

theorem IndexOk.mono {env : Env} {d d' : Disk} {t : TxMap} (h : IndexOk env d t)
    (hd : d.Extends d') : IndexOk env d' t := by
  intro hash txindex ht
  obtain ⟨tx, hok⟩ := h hash txindex ht
  exact ⟨tx, readFromDisk_extends hd hok.read, hok.onDisk, hok.hash, hok.outputs, hok.checked⟩

theorem IndexOk.setSpent {env : Env} {d : Disk} {t : TxMap} (h : IndexOk env d t)
    {hash : Uint256} {txindex : CTxIndex} (ht : t hash = some txindex) (n : Nat) (b : Bool) :
    IndexOk env d (Function.update t hash (some (txindex.setSpent n b))) := by
  intro k x hk
  by_cases hkh : k = hash
  · subst hkh
    obtain rfl : txindex.setSpent n b = x := by simpa using hk
    obtain ⟨tx, hok⟩ := h k txindex ht
    exact ⟨tx, hok.read, hok.onDisk, hok.hash, by simpa [CTxIndex.setSpent] using hok.outputs,
      hok.checked⟩
  · rw [Function.update_of_ne hkh] at hk
    exact h k x hk

theorem IndexOk.add {env : Env} {d : Disk} {t : TxMap} (h : IndexOk env d t) {hash : Uint256}
    {txindex : CTxIndex} {tx : CTransaction} (hok : EntryOk env d hash txindex tx) :
    IndexOk env d (Function.update t hash (some txindex)) := by
  intro k x hk
  by_cases hkh : k = hash
  · subst hkh
    obtain rfl : txindex = x := by simpa using hk
    exact ⟨tx, hok⟩
  · rw [Function.update_of_ne hkh] at hk
    exact h k x hk

theorem SpendRun.indexOk {c : TxCall} {vin : List CTxIn} {t t' : TxMap} {n n' : Int}
    {rs : List (CTransaction × CTxIndex)} {env : Env} {d : Disk}
    (h : SpendRun c vin t n rs t' n') (hok : IndexOk env d t) : IndexOk env d t' := by
  induction h with
  | nil t n => exact hok
  | cons step range tail ih => exact ih (hok.setSpent step.found _ _)

theorem SpendStep.entry {c : TxCall} {t : TxMap} {txin : CTxIn} {txPrev : CTransaction}
    {txindex : CTxIndex} (h : SpendStep c t txin txPrev txindex) {env : Env}
    (hok : IndexOk env c.view.disk t) :
    EntryOk env c.view.disk txin.prevout.hash txindex txPrev := by
  obtain ⟨tx, hentry⟩ := hok _ _ h.found
  rcases TxCall.readPrev_ok.mp h.read with ⟨hpool, -⟩ | ⟨-, hread⟩
  · exact absurd (hpool rfl) hentry.onDisk
  · cases hentry.read.symm.trans hread
    exact hentry

theorem TxSpends.indexOk {c : TxCall} {pos : CDiskTxPos} {l : Ledger} {t : TxMap}
    {e : NameEffect} {fee : Int} {env : Env} {d : Disk} (h : TxSpends c pos l t e fee)
    (hok : IndexOk env d l.db.tx) : IndexOk env d t := by
  cases h with
  | coinbase cb => exact hok
  | spend cb run scan name value fee range => exact run.indexOk hok

structure Storable (c : BlockCall) (txs : List CTransaction) (nTxPos : Nat) : Prop where
  file : c.pindex.pindex.nFile ≠ uintMax
  past : c.pindex.pindex.nBlockPos < nTxPos
  stores : c.view.disk.Stores c.pindex.pindex.nFile txs nTxPos
  checked : ∀ tx ∈ txs, tx.checkTransaction c.env = .ok ()

theorem Storable.tail {c : BlockCall} {tx : CTransaction} {rest : List CTransaction} {nTxPos : Nat}
    (h : Storable c (tx :: rest) nTxPos) : Storable c rest (nTxPos + tx.getSerializeSize) :=
  ⟨h.file, h.past.trans_le (Nat.le_add_right _ _), h.stores.2,
    fun t ht => h.checked t (List.mem_cons_of_mem _ ht)⟩

theorem Storable.read {c : BlockCall} {tx : CTransaction} {rest : List CTransaction} {nTxPos : Nat}
    (h : Storable c (tx :: rest) nTxPos) :
    c.view.disk.readFromDisk (c.posOf nTxPos) = some tx := by
  simp only [Disk.readFromDisk, BlockCall.posOf, h.file, if_false]
  exact h.stores.1

theorem Storable.entry {c : BlockCall} {tx : CTransaction} {rest : List CTransaction}
    {nTxPos : Nat} (h : Storable c (tx :: rest) nTxPos) :
    EntryOk c.env c.view.disk (tx.getHash c.env) ((c.txCall tx).entry (c.posOf nTxPos)) tx where
  read := h.read
  onDisk heq := by
    have hpast := h.past
    have hpos : c.posOf nTxPos = CDiskTxPos.memPool := heq
    have h1 := congrArg CDiskTxPos.nBlockPos hpos
    have h2 := congrArg CDiskTxPos.nTxPos hpos
    simp only [BlockCall.posOf, CDiskTxPos.memPool] at h1 h2
    omega
  hash := rfl
  outputs := by simp [TxCall.entry, CTxIndex.make, BlockCall.txCall]
  checked := h.checked tx List.mem_cons_self

theorem TxSpends.after_indexOk {c : BlockCall} {tx : CTransaction} {rest : List CTransaction}
    {nTxPos : Nat} {l : Ledger} {t : TxMap} {e : NameEffect} {fee : Int}
    (hs : TxSpends (c.txCall tx) (c.posOf nTxPos) l t e fee)
    (hstore : Storable c (tx :: rest) nTxPos) (hok : IndexOk c.env c.view.disk l.db.tx) :
    IndexOk c.env c.view.disk ((c.txCall tx).after (c.posOf nTxPos) l t e fee).db.tx := by
  rw [TxCall.after_tx]
  exact (hs.indexOk hok).add hstore.entry

theorem txsRun_indexOk {c : BlockCall} {txs : List CTransaction} {nTxPos : Nat} {l l' : Ledger}
    (run : c.TxsRun txs nTxPos l l') (hstore : Storable c txs nTxPos)
    (hok : IndexOk c.env c.view.disk l.db.tx) : IndexOk c.env c.view.disk l'.db.tx := by
  induction run with
  | nil nTxPos l => exact hok
  | cons head tail ih => exact ih hstore.tail (head.after_indexOk hstore hok)

theorem checkTransactions_ok {env : Env} {txs : List CTransaction} {u : Unit}
    (h : checkTransactions env txs = .ok u) : ∀ tx ∈ txs, tx.checkTransaction env = .ok () := by
  induction txs with
  | nil => simp
  | cons tx rest ih =>
    simp only [checkTransactions, Except.bind_eq_ok] at h
    obtain ⟨u1, h1, h2⟩ := h
    intro tx' hin
    rcases List.mem_cons.mp hin with rfl | hin
    · exact h1
    · exact ih h2 tx' hin

theorem CBlock.checkBlock_txs {env : Env} {nNow : Int} {b : CBlock} {nHeight : Nat} {u : Unit}
    (h : b.checkBlock env nNow nHeight = .ok u) :
    (∀ tx ∈ b.vtx, tx.checkTransaction env = .ok ()) ∧
      ∃ tx rest, b.vtx = tx :: rest ∧ tx.isCoinBase = true ∧
        ∀ tx' ∈ rest, tx'.isCoinBase = false := by
  simp only [checkBlock, Except.bind_eq_ok, Except.raiseIf_eq_ok] at h
  obtain ⟨-, -, -, -, -, -, -, -, -, hcb, -, hone, u1, hall, -⟩ := h
  refine ⟨checkTransactions_ok hall, ?_⟩
  cases hv : b.vtx with
  | nil => simp [hv] at hcb
  | cons tx rest =>
    refine ⟨tx, rest, rfl, by simpa [hv] using hcb, ?_⟩
    intro tx' hin
    rw [hv] at hone
    have hany := hone
    simp only [List.tail_cons, List.any_eq_true, not_exists, not_and] at hany
    simpa using hany tx' hin

theorem firstTxPos_gt (c : BlockCall) (b : CBlock) :
    c.pindex.pindex.nBlockPos < c.firstTxPos b := by
  unfold BlockCall.firstTxPos CBlock.headerSize
  omega

theorem Offered.storable {env : Env} {n : ChainNode} {c : BlockCall} {b : CBlock}
    (hc : Offered env n c b) (h : ∀ tx ∈ b.vtx, tx.checkTransaction c.env = .ok ()) :
    Storable c b.vtx (c.firstTxPos b) :=
  ⟨hc.file, firstTxPos_gt c b, hc.stores, h⟩

theorem Connected.storable {env : Env} {n n' : ChainNode} {c : BlockCall} {b : CBlock}
    (hc : Connected env n c b n') : Storable c b.vtx (c.firstTxPos b) :=
  hc.toOffered.storable (CBlock.checkBlock_txs (BlockCall.connectBlock_txs hc.accepted).1).1

theorem Connected.indexOk {env : Env} {n n' : ChainNode} {c : BlockCall} {b : CBlock}
    (hc : Connected env n c b n') (h : IndexOk env n.disk n.state.dbset.tx) :
    IndexOk env n'.disk n'.state.dbset.tx := by
  obtain ⟨l, hdone⟩ := BlockCall.connectBlock_ok hc.accepted
  have hstart : IndexOk c.env c.view.disk n.state.dbset.tx := by
    rw [hc.sameEnv]
    exact h.mono hc.grows
  have hend := txsRun_indexOk hdone.run hc.storable hstart
  rw [hc.sameEnv] at hend
  rw [hdone.db, writePrevIndex_tx, hc.disk]
  exact hend

structure FreshTxs (env : Env) (txs : List CTransaction) (t : TxMap) : Prop where
  nodup : (txHashes env txs).Nodup
  absent : ∀ tx ∈ txs, t (tx.getHash env) = none

theorem FreshTxs.tail {c : BlockCall} {tx : CTransaction} {rest : List CTransaction}
    {nTxPos : Nat} {l : Ledger} {t : TxMap} {e : NameEffect} {fee : Int}
    (h : FreshTxs c.env (tx :: rest) l.db.tx)
    (hs : TxSpends (c.txCall tx) (c.posOf nTxPos) l t e fee) :
    FreshTxs c.env rest ((c.txCall tx).after (c.posOf nTxPos) l t e fee).db.tx := by
  obtain ⟨hnot, hnd⟩ := List.nodup_cons.mp h.nodup
  refine ⟨hnd, ?_⟩
  intro tx' hin
  have hne : tx'.getHash c.env ≠ tx.getHash c.env := by
    intro heq
    exact hnot (List.mem_map.mpr ⟨tx', hin, heq⟩)
  have hpos := hs.pos_eq (tx'.getHash c.env)
  rw [h.absent tx' (List.mem_cons_of_mem _ hin), Option.map_none, Option.map_eq_none_iff] at hpos
  rw [TxCall.after_tx]
  exact (Function.update_of_ne hne _ _).trans hpos

-- What a run of connectTxs has done once its first transaction is connected.
theorem BlockCall.connectTxs_first {c : BlockCall} {tx : CTransaction} {rest : List CTransaction}
    {nTxPos : Nat} {s s' : ConnState} (fresh : FreshTxs c.env (tx :: rest) s.dbset.tx)
    (h : exec (c.connectTxs (tx :: rest) nTxPos) s = (.ok (), s')) :
    ∃ s1 t e fee, exec (c.connectTx tx nTxPos) s = (.ok (), s1) ∧
      exec (c.connectTxs rest (nTxPos + tx.getSerializeSize)) s1 = (.ok (), s') ∧
      TxSpends (c.txCall tx) (c.posOf nTxPos) s.ledger t e fee ∧
      s1.dbset = ((c.txCall tx).after (c.posOf nTxPos) s.ledger t e fee).db ∧
      FreshTxs c.env rest s1.dbset.tx := by
  simp only [BlockCall.connectTxs, bind_ok] at h
  obtain ⟨u, s1, h1, h2⟩ := h
  obtain ⟨t, e, fee, hspend, hafter⟩ := BlockCall.connectTx_ok h1
  have hdb1 : s1.dbset = ((c.txCall tx).after (c.posOf nTxPos) s.ledger t e fee).db :=
    congrArg Ledger.db hafter
  refine ⟨s1, t, e, fee, h1, h2, hspend, hdb1, ?_⟩
  rw [hdb1]
  exact FreshTxs.tail (l := s.ledger) fresh hspend

end Namecoin
