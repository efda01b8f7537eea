import Namecoin.Node.Ledger

namespace Namecoin

open Act

-- The pool holds checked loose transactions, none of them in the index of the main chain.
structure PoolApart (env : Env) (s : NodeState) : Prop where
  named : ∀ k tx, s.mapTransactions k = some tx → tx.getHash env = k
  loose : ∀ k tx, s.mapTransactions k = some tx → tx.isCoinBase = false
  checked : ∀ k tx, s.mapTransactions k = some tx → tx.checkTransaction env = .ok ()
  apart : ∀ k tx, s.mapTransactions k = some tx → s.chain.dbset.tx k = none

structure Checked (env : Env) (tx : CTransaction) : Prop where
  loose : tx.isCoinBase = false
  valid : tx.checkTransaction env = .ok ()

def PoolChecked (env : Env) (s : NodeState) : Prop :=
  ∀ k tx, s.mapTransactions k = some tx → tx.getHash env = k ∧ Checked env tx

section Accept

variable {e : NodeEnv} {tx : CTransaction} {s : NodeState} {fCheckInputs : Bool}

theorem checkPoolTx_checked (h : checkPoolTx e tx fCheckInputs s = .ok ()) : Checked e.env tx := by
  refine ⟨checkPoolTx_loose h, ?_⟩
  obtain ⟨u, hcheck, -⟩ := Except.bind_eq_ok.mp h
  exact hcheck

theorem checkPoolTx_unindexed (h : checkPoolTx e tx true s = .ok ()) :
    s.chain.dbset.tx (tx.getHash e.env) = none := by
  simp only [checkPoolTx, Except.bind_eq_ok, Except.raiseIf_eq_ok] at h
  obtain ⟨_, -, _, -, _, -, _, -, _, -, _, -, _, -, _, -, _, hindexed, -⟩ := h
  simpa using hindexed

-- What the pool holds after AcceptToMemoryPool it held before, or it is the new transaction.
theorem acceptToMemoryPool_entry {fLimitFree fRateLimited : Bool} {k : Uint256} {a : CTransaction}
    (hk : (exec (acceptToMemoryPool e tx fCheckInputs fLimitFree fRateLimited) s).2.mapTransactions k =
      some a) :
    s.mapTransactions k = some a ∨
      k = tx.getHash e.env ∧ a = tx ∧ checkPoolTx e tx fCheckInputs s = .ok () := by
  rcases acceptToMemoryPool_cases e tx fCheckInputs fLimitFree fRateLimited s with
    ⟨fault, hx⟩ | ⟨s', hx, hadmits⟩
  · rw [hx] at hk
    exact .inl hk
  · obtain ⟨hcheck, -⟩ := acceptToMemoryPool_ok hx
    rw [hx, hadmits.transactions] at hk
    rcases eq_or_ne k (tx.getHash e.env) with rfl | hne
    · rw [Function.update_self] at hk
      exact .inr ⟨rfl, (Option.some.inj hk).symm, hcheck⟩
    · rw [Function.update_of_ne hne] at hk
      exact .inl hk

theorem PoolChecked.accept (h : PoolChecked e.env s) (tx : CTransaction)
    (fCheckInputs fLimitFree fRateLimited : Bool) :
    PoolChecked e.env (exec (acceptToMemoryPool e tx fCheckInputs fLimitFree fRateLimited) s).2 := by
  intro k a hk
  rcases acceptToMemoryPool_entry hk with hold | ⟨rfl, rfl, hcheck⟩
  · exact h k a hold
  · exact ⟨rfl, checkPoolTx_checked hcheck⟩

theorem PoolChecked.resurrect (h : PoolChecked e.env s) (txs : List CTransaction) :
    PoolChecked e.env (s.resurrect e txs) := by
  induction txs generalizing s with
  | nil => exact h
  | cons tx rest ih => exact ih (h.accept tx false true false)

theorem PoolApart.checkedPool {env : Env} (h : PoolApart env s) : PoolChecked env s := fun k tx hk =>
  ⟨h.named k tx hk, h.loose k tx hk, h.checked k tx hk⟩

theorem PoolChecked.apart {env : Env} (h : PoolChecked env s)
    (hapart : ∀ k tx, s.mapTransactions k = some tx → s.chain.dbset.tx k = none) : PoolApart env s :=
  ⟨fun k tx hk => (h k tx hk).1, fun k tx hk => (h k tx hk).2.loose,
    fun k tx hk => (h k tx hk).2.valid, hapart⟩

theorem PoolApart.congr {env : Env} {s' : NodeState} (h : PoolApart env s)
    (hpool : s'.mapTransactions = s.mapTransactions) (hindex : s'.chain.dbset.tx = s.chain.dbset.tx) :
    PoolApart env s' := by
  refine ⟨?_, ?_, ?_, ?_⟩
  · rw [hpool]
    exact h.named
  · rw [hpool]
    exact h.loose
  · rw [hpool]
    exact h.checked
  · rw [hpool, hindex]
    exact h.apart

theorem PoolApart.accept (h : PoolApart e.env s) (tx : CTransaction) (fLimitFree fRateLimited : Bool) :
    PoolApart e.env (exec (acceptToMemoryPool e tx true fLimitFree fRateLimited) s).2 := by
  have hchecked := h.checkedPool.accept tx true fLimitFree fRateLimited
  have hindex := (acceptToMemoryPool_poolOnly e tx true fLimitFree fRateLimited s).dbset
  refine hchecked.apart fun k a hk => ?_
  rw [hindex]
  rcases acceptToMemoryPool_entry hk with hold | ⟨rfl, -, hcheck⟩
  · exact h.apart k a hold
  · exact checkPoolTx_unindexed hcheck

end Accept

structure ApartOk (env : Env) (genesis : Uint256) (s : NodeState) (best : Uint256) : Prop where
  ledger : LedgerOk env genesis s best
  pool : PoolApart env s

def ApartKept (env : Env) (genesis : Uint256) (s : NodeState) : Prop :=
  ∃ best, ApartOk env genesis s best

section Kept

variable {e : NodeEnv} {genesis best : Uint256} {s s' : NodeState} {b : CBlock}
  {pindexNew : CBlockIndex} {pos : Nat × Nat}

theorem PoolApart.adopt (h : PoolApart e.env s) (hsettles : Settles e b pindexNew s s')
    (hreplays : Replays e b pindexNew s s'.chain.dbset.tx) : PoolApart e.env s' := by
  have hrestored : ∀ k tx, s'.mapTransactions k = some tx →
      k ∉ txHashes e.env (s.vDelete e b pindexNew) ∧ s.poolRestored e b pindexNew k = some tx := by
    intro k tx hk
    rw [hsettles.pool] at hk
    split at hk
    · cases hk
    · rename_i hnot
      exact ⟨hnot, hk⟩
  have hchecked := h.checkedPool.resurrect (s.vResurrect e b pindexNew)
  refine PoolChecked.apart (fun k tx hk => hchecked k tx (hrestored k tx hk).2) fun k tx hk => ?_
  obtain ⟨hnot, hback⟩ := hrestored k tx hk
  obtain ⟨t₀, old, hold, hperm, hnew⟩ := hreplays.moved
  have hbefore : t₀ k = none := by
    rcases (resurrect_restores e (s.vResurrect e b pindexNew) s).origin k tx hback with
      hpool | ⟨hin, hname⟩
    · by_contra hne
      exact ((hold.run.has_iff k).mpr (.inl hne)) (h.apart k tx hpool)
    · rw [NodeState.vResurrect_eq] at hin
      have hundone := hperm.mem_iff.mpr (List.mem_filter.mp hin).1
      have hfresh := hold.run.fresh tx hundone
      rw [← hname]
      exact not_not.mp hfresh
  by_contra hne
  rcases (hnew.run.has_iff k).mp hne with hhad | hin
  · exact hhad hbefore
  · exact hnot hin

theorem ApartOk.setBestChain (h : ApartOk e.env genesis s best)
    (hhash : b.getHash e.env = pindexNew.hashBlock)
    (hnew : s.mapBlockIndex pindexNew.hashBlock = some pindexNew)
    (hprev : pindexNew.pprev = some b.hashPrevBlock)
    (hstored : s.disk.readIndexed e.env pindexNew = some b)
    (hcopies : (exec (setBestChain e b pindexNew) s).1 = .ok () → NoCopies e s b pindexNew) :
    ApartKept e.env genesis (exec (setBestChain e b pindexNew) s).2 := by
  obtain ⟨best', hledger⟩ := h.ledger.setBestChain hhash hnew hprev hstored hcopies
  refine ⟨best', hledger, ?_⟩
  rcases setBestChain_cases e b pindexNew s with ⟨fault, s', hx, -⟩ | ⟨s', hx, hsettles⟩
  · have hsame := (setBestChain_failed hx).same
    rw [hx]
    exact h.pool.congr hsame.pool hsame.index
  · rw [hx] at hcopies ⊢
    exact h.pool.adopt hsettles
      (setBestChain_replays h.ledger.tree h.ledger.built hnew hprev hstored (hcopies rfl) hx)

theorem ApartOk.acceptBlock (h : ApartOk e.env genesis s best) (happends : e.Appends)
    (hfree : CopyFree e s b) : ApartKept e.env genesis (exec (acceptBlock e b) s).2 := by
  rcases acceptBlock_cases e b s with ⟨fault, hx⟩ | ⟨pos, hfiles, hx⟩
  · rw [hx]
    exact ⟨best, h⟩
  · have hins : ApartOk e.env genesis (s.withIndex e b pos) best :=
      ⟨h.ledger.insert happends hfiles, h.pool.congr rfl rfl⟩
    unfold CopyFree at hfree
    rw [hx] at hfree ⊢
    unfold doIf at hfree ⊢
    split
    · rename_i hmore
      rw [if_pos hmore] at hfree
      obtain ⟨pprev, hpprev⟩ := Option.isSome_iff_exists.mp hfiles.prev
      refine hins.setBestChain rfl (Function.update_self _ _ _) ?_ ?_ fun hok =>
        hfree hok pos hfiles.written hmore
      · simp [NodeState.newIndex, newBlockIndex, NodeState.withBlock, hpprev]
      · refine Option.filter_eq_some_iff.mpr ⟨?_, ?_⟩
        · show (s.disk.writeToDisk pos.1 pos.2 b).readBlock pos.1 pos.2 = some b
          simp [Disk.writeToDisk]
        · simp [NodeState.newIndex, newBlockIndex]
    · exact ⟨best, hins⟩

theorem apartKept_guarded (happends : e.Appends) (genesis : Uint256) :
    GuardedKeeps e (CopyFree e) (ApartKept e.env genesis) where
  park b s hs := by
    obtain ⟨best, h⟩ := hs
    exact ⟨best, h.ledger.congr rfl rfl rfl, h.pool.congr rfl rfl⟩
  erase x s hs := by
    obtain ⟨best, h⟩ := hs
    exact ⟨best, h.ledger.congr rfl rfl rfl, h.pool.congr rfl rfl⟩
  drop x s hs := by
    obtain ⟨best, h⟩ := hs
    exact ⟨best, h.ledger.congr rfl rfl rfl, h.pool.congr rfl rfl⟩
  accept b s hfree hs := by
    obtain ⟨best, h⟩ := hs
    exact h.acceptBlock happends hfree

end Kept

-- ProcessBlock on blocks that bring no copy of an indexed transaction, and checked pool transactions.
inductive ApartStep (env : Env) (s : NodeState) : NodeState → Prop
  | block (e : NodeEnv) (b : CBlock) (henv : e.env = env) (happends : e.Appends)
      (hfree : ∀ c ∈ processCalls e b s, CopyFree e c.1 c.2) :
      ApartStep env s (exec (processBlock e b) s).2
  | tx (e : NodeEnv) (tx : CTransaction) (fLimitFree fRateLimited : Bool) (henv : e.env = env) :
      ApartStep env s (exec (acceptToMemoryPool e tx true fLimitFree fRateLimited) s).2

section Runs

variable {env : Env} {genesis : Uint256} {s0 s s' : NodeState}

theorem ApartStep.kept (hstep : ApartStep env s s') (h : ApartKept env genesis s) :
    ApartKept env genesis s' := by
  cases hstep with
  | block e b henv happends hfree =>
    subst henv
    exact (apartKept_guarded happends genesis).processBlock hfree h
  | tx e tx fLimitFree fRateLimited henv =>
    subst henv
    obtain ⟨best, h⟩ := h
    have honly := acceptToMemoryPool_poolOnly e tx true fLimitFree fRateLimited s
    exact ⟨best, h.ledger.congr honly.tree honly.disk (congrArg DatabaseSet.tx honly.dbset),
      h.pool.accept tx fLimitFree fRateLimited⟩

theorem apartKept_of_run (hstart : Started env genesis s0) (hplain : PlainGenesis env genesis s0)
    (run : Relation.ReflTransGen (ApartStep env) s0 s) : ApartKept env genesis s := by
  induction run with
  | refl =>
    have hok := hstart.inputsOk hplain
    have hnone := hstart.emptyPool.transactions
    have hempty : ∀ {P : Uint256 → CTransaction → Prop} k tx, s0.mapTransactions k = some tx → P k tx := by
      intro P k tx hk
      rw [hnone] at hk
      cases hk
    exact ⟨genesis, ⟨hok.tree, hok.built⟩, ⟨hempty, hempty, hempty, hempty⟩⟩
  | tail _ hstep ih => exact hstep.kept ih

end Runs

end Namecoin
