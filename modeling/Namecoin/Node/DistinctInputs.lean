import Namecoin.Node.PoolRules
import Namecoin.Node.RelayPool
import Namecoin.Node.SpendMap

namespace Namecoin

open Act

namespace NodeState

def prevTx (s : NodeState) (p : COutPoint) : Option CTransaction :=
  match s.chain.dbset.tx p.hash with
  | none => s.mapTransactions p.hash
  | some txindex =>
    if txindex.pos = CDiskTxPos.memPool then s.mapTransactions p.hash
    else s.disk.readFromDisk txindex.pos

def coinValue (s : NodeState) (p : COutPoint) : Int :=
  (((s.prevTx p).bind fun txPrev => txPrev.vout[p.n]?).map CTxOut.nValue).getD 0

def Spendable (s : NodeState) (p : COutPoint) : Prop :=
  spentFlag s.chain.dbset.tx p = some false ∨
    ∃ txPrev, s.mapTransactions p.hash = some txPrev ∧ p.n < txPrev.vout.length

end NodeState

section Settled

variable {e : NodeEnv} {s : NodeState} {tx : CTransaction} {pindexBest : CBlockIndex}

theorem readPrev_prevTx {p : COutPoint} {txPrev : CTransaction}
    (h : (poolCall e s pindexBest tx).readPrev p (s.chain.dbset.tx p.hash).isSome
      (prevIndex s.chain.dbset.tx p) = .ok txPrev) : s.prevTx p = some txPrev := by
  rw [TxCall.readPrev_ok] at h
  unfold NodeState.prevTx
  cases ht : s.chain.dbset.tx p.hash with
  | none =>
    rw [ht, Option.isSome_none] at h
    rcases h with ⟨-, hpool⟩ | ⟨hfound, -⟩
    · exact hpool
    · cases hfound.1
  | some txindex =>
    have hindex : prevIndex s.chain.dbset.tx p = txindex := by rw [prevIndex, ht, Option.getD_some]
    rw [ht, hindex, Option.isSome_some] at h
    dsimp only
    rcases h with ⟨hpos, hpool⟩ | ⟨hfound, hdisk⟩
    · rwa [if_pos (hpos rfl)]
    · rwa [if_neg hfound.2]

theorem Meets.coinValue {i : Nat} {txin : CTxIn} {txPrev : CTransaction} {txout : CTxOut}
    (h : (poolCall e s pindexBest tx).Meets s.chain.dbset.tx i txin txPrev txout) :
    s.coinValue txin.prevout = txout.nValue := by
  rw [NodeState.coinValue, readPrev_prevTx h.read, Option.bind_some, h.output]
  rfl

theorem Meets.spendable {i : Nat} {txin : CTxIn} {txPrev : CTransaction} {txout : CTxOut}
    (h : (poolCall e s pindexBest tx).Meets s.chain.dbset.tx i txin txPrev txout) :
    s.Spendable txin.prevout := by
  have hprev := readPrev_prevTx h.read
  cases ht : s.chain.dbset.tx txin.prevout.hash with
  | none =>
    rw [NodeState.prevTx, ht] at hprev
    exact .inr ⟨txPrev, hprev, (List.getElem?_eq_some_iff.mp h.output).1⟩
  | some txindex =>
    have hindex : prevIndex s.chain.dbset.tx txin.prevout = txindex := by
      rw [prevIndex, ht, Option.getD_some]
    have hin : txin.prevout.n < txindex.isSpent.length := by
      have hcount := h.indexed
      rwa [hindex] at hcount
    have hflag := h.unspent
    refine .inl ?_
    rw [spentFlag, ht, Option.bind_some]
    rw [hindex, List.getElem?_eq_getElem hin] at hflag
    rw [List.getElem?_eq_getElem hin]
    simpa using hflag

theorem Settled.total {vin : List CTxIn} {i : Nat} {n m : Int}
    {rs : List (CTransaction × CTxIndex)}
    (h : (poolCall e s pindexBest tx).Settled s.chain.dbset.tx vin i n rs m) :
    m = n + ((prevouts vin).map s.coinValue).sum := by
  induction h with
  | nil => simp [prevouts]
  | @cons txin rest i n m txPrev txout rs hmeets _ _ ih =>
    have hvalue : s.coinValue txin.prevout = txout.nValue := Meets.coinValue hmeets
    rw [ih, prevouts, prevouts, List.map_cons, List.map_cons, List.sum_cons, hvalue]
    omega

theorem Settled.spendable {vin : List CTxIn} {i : Nat} {n m : Int}
    {rs : List (CTransaction × CTxIndex)}
    (h : (poolCall e s pindexBest tx).Settled s.chain.dbset.tx vin i n rs m) :
    ∀ p ∈ prevouts vin, s.Spendable p := by
  induction h with
  | nil => simp [prevouts]
  | @cons txin rest i n m txPrev txout rs hmeets _ _ ih =>
    rw [prevouts, List.map_cons]
    exact List.forall_mem_cons.mpr ⟨Meets.spendable hmeets, ih⟩

end Settled

section Accept

variable {e : NodeEnv} {s : NodeState} {tx : CTransaction} {fLimitFree fRateLimited : Bool}

theorem accept_checks {fCheckInputs : Bool}
    (h : (exec (acceptToMemoryPool e tx fCheckInputs fLimitFree fRateLimited) s).1 = .ok ()) :
    checkPoolTx e tx fCheckInputs s = .ok () ∧
      Except.doIf fCheckInputs (checkPoolInputs e tx fLimitFree fRateLimited s) = .ok () := by
  have hok := exec_eta h
  simp only [acceptToMemoryPool, bind_ok, get_ok, fromExcept_ok] at hok
  obtain ⟨_, _, ⟨rfl, rfl⟩, _, _, ⟨hcheck, rfl⟩, _, _, ⟨hinputs, rfl⟩, -⟩ := hok
  exact ⟨hcheck, hinputs⟩

theorem poolConnect_best (h : (poolConnect e tx s).1 = .ok ()) :
    ∃ pindexBest, s.pindexBest.bind s.mapBlockIndex = some pindexBest := by
  unfold poolConnect at h
  split at h
  · cases h
  · next pindexBest hbest => exact ⟨pindexBest, hbest⟩

theorem accept_rules
    (h : (exec (acceptToMemoryPool e tx true fLimitFree fRateLimited) s).1 = .ok ()) :
    ∃ pindexBest rs n, RulesMet e s tx pindexBest rs n ∧
      (poolConnect e tx s).2.nFees = n - valueOf tx.vout := by
  obtain ⟨hcheck, hinputs⟩ := accept_checks h
  have hloose := (checkPoolTx_iff.mp hcheck).1
  rw [Except.doIf, if_pos rfl, checkPoolInputs_eq, Except.bind_eq_ok] at hinputs
  obtain ⟨_, hconnect, -⟩ := hinputs
  obtain ⟨pindexBest, hbest⟩ := poolConnect_best hconnect
  have hentering : Entering e s tx pindexBest := ⟨hbest, hloose.valid, hloose.notCoinBase⟩
  obtain ⟨rs, n, hmet⟩ := hentering.ok_iff.mp hconnect
  have hrun := hentering.settled hmet.settled hmet.names
  rw [if_neg (Int.not_lt.mpr hmet.funded)] at hrun
  exact ⟨pindexBest, rs, n, hmet, hrun.2⟩

structure CountsOnce (s : NodeState) (tx : CTransaction) (nFees : Int) : Prop where
  distinct : (prevouts tx.vin).Nodup
  spendable : ∀ p ∈ prevouts tx.vin, s.Spendable p
  fee : nFees = (((prevouts tx.vin).dedup).map s.coinValue).sum - valueOf tx.vout

theorem pool_counts_once_iff
    (h : (exec (acceptToMemoryPool e tx true fLimitFree fRateLimited) s).1 = .ok ()) :
    CountsOnce s tx (poolConnect e tx s).2.nFees ↔ (prevouts tx.vin).Nodup := by
  obtain ⟨pindexBest, rs, n, hmet, hfees⟩ := accept_rules h
  constructor
  · exact fun hcounts => hcounts.distinct
  · intro hnodup
    have htotal := Settled.total hmet.settled
    refine ⟨hnodup, Settled.spendable hmet.settled, ?_⟩
    rw [List.dedup_eq_self.mpr hnodup, hfees, htotal, Int.zero_add]

theorem pool_counts_once_sample :
    CountsOnce fundedNode (spendFund 1)
      (poolConnect sampleNodeEnv (spendFund 1) fundedNode).2.nFees := by
  have haccept : (exec (acceptToMemoryPool sampleNodeEnv (spendFund 1) true true false)
      fundedNode).1 = .ok () := by decide +kernel
  exact (pool_counts_once_iff haccept).mpr (by decide +kernel)

def doubleSpend : CTransaction :=
  sampleTx 1 [(fundTx.getHash sampleEnv, 0), (fundTx.getHash sampleEnv, 0)]
    [(15 * coin, List.replicate 25 (UInt8.ofNat opNop))]

theorem pool_counts_twice :
    (exec (acceptToMemoryPool sampleNodeEnv doubleSpend true true false) fundedNode).1 = .ok () ∧
      fundedNode.coinValue fundPoint < valueOf doubleSpend.vout ∧
      ¬CountsOnce fundedNode doubleSpend
        (poolConnect sampleNodeEnv doubleSpend fundedNode).2.nFees := by
  refine ⟨by decide +kernel, by decide +kernel, fun h => ?_⟩
  have hnodup := h.distinct
  revert hnodup
  decide +kernel

end Accept

end Namecoin
