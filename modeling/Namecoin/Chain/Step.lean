import Namecoin.Name.Step
import Namecoin.Chain.Spend
import Namecoin.Chain.Block

namespace Namecoin

open Act

structure Ledger where
  db : DatabaseSet
  pending : VchType → Finset Uint256
  fees : Int

def ConnState.ledger (s : ConnState) : Ledger := ⟨s.dbset, s.mapNamePending, s.nFees⟩

def DatabaseSet.withTx (db : DatabaseSet) (t : TxMap) : DatabaseSet := { db with tx := t }

@[simp] theorem withTx_tx (db : DatabaseSet) (t : TxMap) : (db.withTx t).tx = t := rfl

@[simp] theorem withTx_name (db : DatabaseSet) (t : TxMap) : (db.withTx t).name = db.name := rfl

@[simp] theorem withTx_readNameOrEmpty (db : DatabaseSet) (t : TxMap) :
    (db.withTx t).readNameOrEmpty = db.readNameOrEmpty := rfl

theorem eq_withTx {db db' : DatabaseSet} (hn : db'.name = db.name)
    (hb : db'.blockindex = db.blockindex) (hh : db'.hashBestChain = db.hashBestChain) :
    db' = db.withTx db'.tx := by
  obtain ⟨t, n, b, h⟩ := db'
  simp_all [DatabaseSet.withTx]

inductive TxSpends (c : TxCall) (pos : CDiskTxPos) (l : Ledger) :
    TxMap → NameEffect → Int → Prop
  | coinbase (cb : c.tx.isCoinBase = true) : TxSpends c pos l l.db.tx .keep 0
  | spend {rs : List (CTransaction × CTxIndex)} {t : TxMap} {nValueIn nValueOut : Int}
      {prev : NameScan} {e : NameEffect} (cb : c.tx.isCoinBase = false)
      (run : SpendRun c c.tx.vin l.db.tx 0 rs t nValueIn)
      (scan : scanNameScripts (postLibcoinFork c.env c.pindexBlock.pindex.nHeight)
        (prevScripts c.tx (rs.map Prod.fst)) 0 NameScan.start = some prev)
      (name : NameCall.NameStep (c.nameCall pos (rs.map Prod.snd)) (l.db.withTx t) prev e)
      (value : c.tx.getValueOut = .ok nValueOut)
      (fee : 0 ≤ nValueIn - nValueOut)
      (range : moneyRange (l.fees + (nValueIn - nValueOut)) = true) :
      TxSpends c pos l t e (nValueIn - nValueOut)

def TxCall.entry (c : TxCall) (pos : CDiskTxPos) : CTxIndex := CTxIndex.make pos c.tx.vout.length

def TxCall.after (c : TxCall) (pos : CDiskTxPos) (l : Ledger) (t : TxMap) (e : NameEffect)
    (fee : Int) : Ledger :=
  ⟨(e.onNames (l.db.withTx t)).writeTx (c.tx.getHash c.env) (some (c.entry pos)),
    e.onPending l.pending (c.tx.getHash c.env), l.fees + fee⟩

theorem onNames_name_congr {db db' : DatabaseSet} (h : db'.name = db.name) (e : NameEffect) :
    (e.onNames db').name = (e.onNames db).name := by
  cases e with
  | keep => exact h
  | skip vchName => exact h
  | append vchName entry =>
    simp [NameEffect.onNames, DatabaseSet.writeName, DatabaseSet.readNameOrEmpty, h]

namespace TxCall

variable {c : TxCall} {pos : CDiskTxPos}

@[simp] theorem after_tx (l : Ledger) (t : TxMap) (e : NameEffect) (fee : Int) :
    (c.after pos l t e fee).db.tx = Function.update t (c.tx.getHash c.env) (some (c.entry pos)) := by
  simp [after, DatabaseSet.writeTx, NameEffect.onNames_tx]

@[simp] theorem after_name (l : Ledger) (t : TxMap) (e : NameEffect) (fee : Int) :
    (c.after pos l t e fee).db.name = (e.onNames l.db).name := by
  simpa [after, DatabaseSet.writeTx] using onNames_name_congr (withTx_name l.db t) e

@[simp] theorem after_blockindex (l : Ledger) (t : TxMap) (e : NameEffect) (fee : Int) :
    (c.after pos l t e fee).db.blockindex = l.db.blockindex := by
  simp [after, DatabaseSet.writeTx, NameEffect.onNames_blockindex, DatabaseSet.withTx]

@[simp] theorem after_hashBestChain (l : Ledger) (t : TxMap) (e : NameEffect) (fee : Int) :
    (c.after pos l t e fee).db.hashBestChain = l.db.hashBestChain := by
  simp [after, DatabaseSet.writeTx, NameEffect.onNames_hashBestChain, DatabaseSet.withTx]

@[simp] theorem after_fees (l : Ledger) (t : TxMap) (e : NameEffect) (fee : Int) :
    (c.after pos l t e fee).fees = l.fees + fee := rfl

theorem tallyFee_ok {nValueIn nMinFee : Int} {s s' : ConnState} {u : Unit}
    (h : exec (c.tallyFee nValueIn nMinFee) s = (.ok u, s')) :
    ∃ nValueOut, c.tx.getValueOut = .ok nValueOut ∧ 0 ≤ nValueIn - nValueOut ∧
      moneyRange (s.nFees + (nValueIn - nValueOut)) = true ∧
      s' = { s with nFees := s.nFees + (nValueIn - nValueOut) } := by
  simp only [tallyFee, bind_ok, fromExcept_ok, raiseIf_ok, get_ok, modify_ok] at h
  obtain ⟨nValueOut, s1, ⟨hout, rfl⟩, nTxFee, s2, ⟨hfee, rfl⟩, -, s3, ⟨hneg, rfl⟩, -, s4,
    ⟨-, rfl⟩, t, s5, ⟨rfl, rfl⟩, nFees, s6, ⟨hfees, rfl⟩, -, s7, rfl, hrange, rfl⟩ := h
  obtain ⟨rfl, -⟩ := add64_ok.mp hfee
  obtain ⟨rfl, -⟩ := add64_ok.mp hfees
  refine ⟨nValueOut, hout, by omega, ?_, ?_⟩
  · simpa [Int.sub_eq_add_neg] using hrange
  · simp [Int.sub_eq_add_neg]

theorem connectInputs_ok {nMinFee : Int} (hb : c.fBlock = true) (hm : c.fMiner = false)
    {s s' : ConnState} {u : Unit} (hfresh : freshFrom 0 s)
    (h : exec (c.connectInputs pos nMinFee) s = (.ok u, s')) :
    ∃ t e fee, TxSpends c pos s.ledger t e fee ∧ s'.ledger = c.after pos s.ledger t e fee := by
  simp only [connectInputs, bind_ok, doIf_ok, addTxIndex, modify_ok, hb, if_true] at h
  obtain ⟨u1, s1, hspend, rfl⟩ := h
  rcases hspend with ⟨hcb, hspend⟩ | ⟨hcb, rfl⟩
  · simp only [spendInputs, bind_ok] at hspend
    obtain ⟨⟨rs, nIn⟩, s2, hvin, u2, s3, hname, hfee⟩ := hspend
    obtain ⟨hrun, hsame⟩ := connectVin_ok hb hm hfresh hvin
    obtain ⟨prev, e, hscan, hstep, rfl⟩ :=
      NameCall.connectInputs_ok (by simpa [nameCall] using hb) (by simpa [nameCall] using hm) hname
    obtain ⟨nOut, hout, hge, hrange, rfl⟩ := tallyFee_ok hfee
    have hdb : s2.dbset = s.dbset.withTx s2.dbset.tx :=
      eq_withTx hsame.name hsame.blockindex hsame.hashBestChain
    refine ⟨s2.dbset.tx, e, nIn - nOut, .spend hcb hrun hscan ?_ hout hge ?_, ?_⟩
    · rw [hdb] at hstep
      exact hstep
    · simpa [NameCall.effectOn, ConnState.ledger, hsame.fees] using hrange
    · simp only [ConnState.ledger, after, NameCall.effectOn, hsame.fees, hsame.pending, ← hdb]
      rfl
  · refine ⟨s.dbset.tx, .keep, 0, .coinbase (by simpa using hcb), ?_⟩
    simp [ConnState.ledger, after, NameEffect.onNames, NameEffect.onPending, DatabaseSet.withTx,
      entry]

end TxCall

theorem writePrevIndex_name (c : BlockCall) (hashNext : Uint256) (db : DatabaseSet) :
    (c.writePrevIndex hashNext db).name = db.name := by
  unfold BlockCall.writePrevIndex
  split <;> rfl

theorem writePrevIndex_tx (c : BlockCall) (hashNext : Uint256) (db : DatabaseSet) :
    (c.writePrevIndex hashNext db).tx = db.tx := by
  unfold BlockCall.writePrevIndex
  split <;> rfl

namespace BlockCall

def posOf (c : BlockCall) (nTxPos : Nat) : CDiskTxPos :=
  ⟨c.pindex.pindex.nFile, c.pindex.pindex.nBlockPos, nTxPos⟩

inductive TxsRun (c : BlockCall) : List CTransaction → Nat → Ledger → Ledger → Prop
  | nil (nTxPos : Nat) (l : Ledger) : TxsRun c [] nTxPos l l
  | cons {tx : CTransaction} {rest : List CTransaction} {nTxPos : Nat} {l l' : Ledger} {t : TxMap}
      {e : NameEffect} {fee : Int} (head : TxSpends (c.txCall tx) (c.posOf nTxPos) l t e fee)
      (tail : TxsRun c rest (nTxPos + tx.getSerializeSize)
        ((c.txCall tx).after (c.posOf nTxPos) l t e fee) l') :
      TxsRun c (tx :: rest) nTxPos l l'

structure BlockDone (c : BlockCall) (b : CBlock) (s s' : ChainState) (l : Ledger) : Prop where
  check : b.checkBlock c.env c.nNow c.pindex.pindex.nHeight = .ok ()
  run : TxsRun c b.vtx (c.firstTxPos b) ⟨s.dbset, s.mapNamePending, 0⟩ l
  value : ∃ nValueOut nBlockValue, (b.vtx.head?.map CTransaction.getValueOut).getD (.ok 0) =
    .ok nValueOut ∧ getBlockValue c.pindex.pindex.nHeight l.fees = .ok nBlockValue ∧
      nValueOut ≤ nBlockValue
  db : s'.dbset = c.writePrevIndex c.pindex.pindex.hashBlock l.db
  pending : s'.mapNamePending = l.pending

theorem after_own {c : BlockCall} {tx : CTransaction} {pos : CDiskTxPos} {l : Ledger} {t : TxMap}
    {e : NameEffect} {fee : Int} : ((c.txCall tx).after pos l t e fee).db.tx (tx.getHash c.env) =
      some ((c.txCall tx).entry pos) := by
  rw [TxCall.after_tx]
  exact Function.update_self _ _ _

theorem connectTx_ok {c : BlockCall} {tx : CTransaction} {nTxPos : Nat} {s s' : ConnState}
    {u : Unit} (h : exec (c.connectTx tx nTxPos) s = (.ok u, s')) :
    ∃ t e fee, TxSpends (c.txCall tx) (c.posOf nTxPos) s.ledger t e fee ∧
      s'.ledger = (c.txCall tx).after (c.posOf nTxPos) s.ledger t e fee := by
  simp only [connectTx, bind_ok, modify_ok] at h
  obtain ⟨-, s1, rfl, h⟩ := h
  have hfresh : freshFrom 0 { s with vin := tx.vin.map (fun _ => CTxInCache.empty) } := by
    intro j _
    by_cases hj : j < tx.vin.length <;> simp [hj, CTxInCache.empty]
  have hdone := TxCall.connectInputs_ok (c := c.txCall tx) rfl rfl hfresh h
  exact hdone

theorem connectTxs_ok {c : BlockCall} {txs : List CTransaction} {nTxPos : Nat} {s s' : ConnState}
    {u : Unit} (h : exec (c.connectTxs txs nTxPos) s = (.ok u, s')) :
    TxsRun c txs nTxPos s.ledger s'.ledger := by
  induction txs generalizing nTxPos s with
  | nil =>
    simp only [connectTxs, pure_ok] at h
    obtain ⟨-, rfl⟩ := h
    exact .nil _ _
  | cons tx rest ih =>
    simp only [connectTxs, bind_ok] at h
    obtain ⟨u1, s1, h1, h2⟩ := h
    obtain ⟨t, e, fee, hspend, hafter⟩ := connectTx_ok h1
    have hrest := ih h2
    rw [hafter] at hrest
    exact .cons hspend hrest

theorem connectBlock_txs {c : BlockCall} {b : CBlock} {s s' : ChainState} {u : Unit}
    (h : exec (c.connectBlock b) s = (.ok u, s')) :
    b.checkBlock c.env c.nNow c.pindex.pindex.nHeight = .ok () ∧
      ∃ s1, exec (c.connectTxs b.vtx (c.firstTxPos b)) (startState s) = (.ok (), s1) ∧
        BlockDone c b s s' s1.ledger := by
  simp only [connectBlock, bind_ok, fromExcept_ok, get_ok, modify_ok, raiseIf_ok] at h
  obtain ⟨u0, s1, ⟨hcheck, rfl⟩, t, s2, ⟨rfl, rfl⟩, -, s3, rfl, u1, s4, ⟨hr, rfl⟩, nOut, s5,
    ⟨hout, rfl⟩, nValue, s6, ⟨hvalue, rfl⟩, -, s7, ⟨hle, rfl⟩, -, s8, rfl, t, s9, ⟨rfl, rfl⟩, w,
    s10, ⟨-, rfl⟩, rfl⟩ := h
  rcases hx : exec (c.connectTxs b.vtx (c.firstTxPos b)) (startState s) with ⟨r, s11⟩
  rw [hx] at hr hvalue
  simp only at hr hvalue
  subst hr
  exact ⟨hcheck, s11, rfl, hcheck, connectTxs_ok hx, ⟨nOut, nValue, hout, hvalue, by omega⟩, rfl,
    rfl⟩

theorem connectBlock_ok {c : BlockCall} {b : CBlock} {s s' : ChainState} {u : Unit}
    (h : exec (c.connectBlock b) s = (.ok u, s')) : ∃ l, BlockDone c b s s' l := by
  obtain ⟨-, s1, -, hdone⟩ := connectBlock_txs h
  exact ⟨s1.ledger, hdone⟩

end BlockCall

end Namecoin
