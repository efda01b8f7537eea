import Namecoin.Chain.Index
import Namecoin.Lib.Total

namespace Namecoin

open Act

def valueOf (vout : List CTxOut) : Int := (vout.map CTxOut.nValue).sum

def unspentValue : List CTxOut → List Bool → Int
  | out :: vout, spent :: isSpent =>
    (if spent then 0 else out.nValue) + unspentValue vout isSpent
  | _, _ => 0

def entryValue (d : Disk) (txindex : CTxIndex) : Int :=
  match d.readFromDisk txindex.pos with
  | none => 0
  | some tx => unspentValue tx.vout txindex.isSpent

noncomputable def coinTotal (d : Disk) (t : TxMap) : Int := Total.total (entryValue d) t

theorem unspentValue_set {vout : List CTxOut} {isSpent : List Bool} {n : Nat} {out : CTxOut}
    (hout : vout[n]? = some out) (hflag : isSpent[n]? = some false) :
    unspentValue vout (isSpent.set n true) = unspentValue vout isSpent - out.nValue := by
  induction vout generalizing isSpent n with
  | nil => simp at hout
  | cons o vout ih =>
    cases isSpent with
    | nil => simp at hflag
    | cons b isSpent =>
      cases n with
      | zero =>
        obtain rfl : o = out := by simpa using hout
        obtain rfl : b = false := by simpa using hflag
        simp [unspentValue]
      | succ n =>
        rw [List.set_cons_succ, unspentValue, unspentValue, ih (by simpa using hout)
          (by simpa using hflag)]
        omega

theorem unspentValue_fresh (vout : List CTxOut) :
    unspentValue vout (List.replicate vout.length false) = valueOf vout := by
  induction vout with
  | nil => rfl
  | cons o vout ih =>
    rw [List.length_cons, List.replicate_succ, unspentValue, ih]
    simp [valueOf]

theorem prevValue_eq {txPrev : CTransaction} {n : Nat} {out : CTxOut}
    (h : txPrev.vout[n]? = some out) : prevValue txPrev n = out.nValue := by
  simp [prevValue, h]

theorem SpendStep.coinTotal_eq {c : TxCall} {t : TxMap} {txin : CTxIn} {txPrev : CTransaction}
    {txindex : CTxIndex} (h : SpendStep c t txin txPrev txindex) {env : Env}
    (hok : IndexOk env c.view.disk t) :
    coinTotal c.view.disk (Function.update t txin.prevout.hash
      (some (txindex.setSpent txin.prevout.n true))) =
      coinTotal c.view.disk t - prevValue txPrev txin.prevout.n := by
  have hentry := h.entry hok
  obtain ⟨out, hout⟩ : ∃ out, txPrev.vout[txin.prevout.n]? = some out :=
    ⟨_, List.getElem?_eq_getElem h.inVout⟩
  have hset : entryValue c.view.disk (txindex.setSpent txin.prevout.n true) =
      entryValue c.view.disk txindex - out.nValue := by
    simp only [entryValue, CTxIndex.setSpent, hentry.read]
    exact unspentValue_set hout h.unspent
  rw [coinTotal, Total.total_update, h.found, Option.map_some, Option.getD_some, hset,
    prevValue_eq hout, coinTotal]
  omega

theorem SpendRun.coinTotal_eq {c : TxCall} {vin : List CTxIn} {t t' : TxMap} {n n' : Int}
    {rs : List (CTransaction × CTxIndex)} (h : SpendRun c vin t n rs t' n') {env : Env}
    (hok : IndexOk env c.view.disk t) :
    coinTotal c.view.disk t' = coinTotal c.view.disk t - (n' - n) := by
  induction h with
  | nil t n => omega
  | cons step range tail ih =>
    rw [ih (hok.setSpent step.found _ _), step.coinTotal_eq hok]
    omega

theorem valueOutFrom_ok {vout : List CTxOut} {n m : Int} (h : valueOutFrom vout n = .ok m) :
    m = n + valueOf vout := by
  induction vout generalizing n with
  | nil =>
    obtain rfl : n = m := Except.ok.inj h
    simp [valueOf]
  | cons o vout ih =>
    simp only [valueOutFrom, Except.bind_eq_ok, Except.raiseIf_eq_ok] at h
    obtain ⟨k, hk, -, -, hrest⟩ := h
    obtain ⟨rfl, -⟩ := add64_ok.mp hk
    rw [ih hrest]
    simp [valueOf]
    omega

theorem getValueOut_ok {tx : CTransaction} {n : Int} (h : tx.getValueOut = .ok n) :
    n = valueOf tx.vout := by
  rw [valueOutFrom_ok h]
  omega

theorem coinTotal_add {env : Env} {d : Disk} {t : TxMap} {hash : Uint256} {pos : CDiskTxPos}
    {tx : CTransaction} (hnone : t hash = none)
    (hok : EntryOk env d hash (CTxIndex.make pos tx.vout.length) tx) :
    coinTotal d (Function.update t hash (some (CTxIndex.make pos tx.vout.length))) =
      coinTotal d t + valueOf tx.vout := by
  have hvalue : entryValue d (CTxIndex.make pos tx.vout.length) = valueOf tx.vout := by
    simp only [entryValue, hok.read]
    exact unspentValue_fresh tx.vout
  rw [coinTotal, Total.total_update, hnone, hvalue, coinTotal]
  simp

section Step

variable {c : BlockCall} {tx : CTransaction} {rest : List CTransaction} {nTxPos : Nat}
  {l : Ledger} {t : TxMap} {e : NameEffect} {fee : Int}

theorem TxSpends.none_of_none (hs : TxSpends (c.txCall tx) (c.posOf nTxPos) l t e fee)
    {hash : Uint256} (h : l.db.tx hash = none) : t hash = none := by
  have hpos := hs.pos_eq hash
  rw [h, Option.map_none, Option.map_eq_none_iff] at hpos
  exact hpos

theorem coinbase_coinTotal (hs : TxSpends (c.txCall tx) (c.posOf nTxPos) l t e fee)
    (hcb : tx.isCoinBase = true) (hstore : Storable c (tx :: rest) nTxPos)
    (hfresh : FreshTxs c.env (tx :: rest) l.db.tx) :
    fee = 0 ∧ coinTotal c.view.disk ((c.txCall tx).after (c.posOf nTxPos) l t e fee).db.tx =
      coinTotal c.view.disk l.db.tx + valueOf tx.vout := by
  cases hs with
  | coinbase cb =>
    refine ⟨rfl, ?_⟩
    rw [TxCall.after_tx]
    exact coinTotal_add (hfresh.absent tx List.mem_cons_self) hstore.entry
  | spend cb => exact absurd hcb (by simp [show tx.isCoinBase = false from cb])

theorem spend_coinTotal (hs : TxSpends (c.txCall tx) (c.posOf nTxPos) l t e fee)
    (hcb : tx.isCoinBase = false) (hstore : Storable c (tx :: rest) nTxPos)
    (hfresh : FreshTxs c.env (tx :: rest) l.db.tx) (hok : IndexOk c.env c.view.disk l.db.tx) :
    coinTotal c.view.disk ((c.txCall tx).after (c.posOf nTxPos) l t e fee).db.tx =
      coinTotal c.view.disk l.db.tx - fee := by
  have hnone := hs.none_of_none (hfresh.absent tx List.mem_cons_self)
  rw [TxCall.after_tx]
  have hadd : coinTotal c.view.disk (Function.update t ((c.txCall tx).tx.getHash (c.txCall tx).env)
      (some ((c.txCall tx).entry (c.posOf nTxPos)))) =
      coinTotal c.view.disk t + valueOf tx.vout := coinTotal_add hnone hstore.entry
  rw [hadd]
  cases hs with
  | coinbase cb => exact absurd cb (by simp [show (c.txCall tx).tx.isCoinBase = false from hcb])
  | @spend rs t nIn nOut prev e cb run scan name value fee range =>
    have hrun := run.coinTotal_eq hok
    rw [show (c.txCall tx).view = c.view from rfl] at hrun
    rw [hrun, getValueOut_ok value, show (c.txCall tx).tx = tx from rfl]
    omega

end Step

theorem txsRun_coinTotal {c : BlockCall} {txs : List CTransaction} {nTxPos : Nat} {l l' : Ledger}
    (run : c.TxsRun txs nTxPos l l') (hcb : ∀ tx ∈ txs, tx.isCoinBase = false)
    (hstore : Storable c txs nTxPos) (hfresh : FreshTxs c.env txs l.db.tx)
    (hok : IndexOk c.env c.view.disk l.db.tx) :
    coinTotal c.view.disk l'.db.tx = coinTotal c.view.disk l.db.tx - (l'.fees - l.fees) := by
  induction run with
  | nil nTxPos l => omega
  | cons head tail ih =>
    rw [ih (fun tx h => hcb tx (List.mem_cons_of_mem _ h)) hstore.tail (hfresh.tail head)
      (head.after_indexOk hstore hok),
      spend_coinTotal head (hcb _ List.mem_cons_self) hstore hfresh hok, TxCall.after_fees]
    omega

end Namecoin
