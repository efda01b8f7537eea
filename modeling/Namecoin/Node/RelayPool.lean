import Namecoin.Node.PoolInputs

namespace Namecoin

open Act

def NodeState.withTransactions (s : NodeState) (m : Uint256 → Option CTransaction) : NodeState :=
  { s with mapTransactions := m }

def NodeState.withPoolOf (s t : NodeState) : NodeState :=
  { s with
    mapTransactions := t.mapTransactions
    mapNextTx := t.mapNextTx
    setNewHashes := t.setNewHashes
    chain := { s.chain with mapNamePending := t.chain.mapNamePending } }

theorem PoolOnly.eq_withPoolOf {s t : NodeState} (h : PoolOnly s t) : t = s.withPoolOf t := by
  have hback : t = t.withoutPool.withPoolOf t := rfl
  rw [hback, h]
  rfl

section Connect

variable {e : NodeEnv} {tx : CTransaction} {s t : NodeState} {m m' : Uint256 → Option CTransaction}

theorem PoolOnly.poolConnect (h : PoolOnly s t) (e : NodeEnv) (tx : CTransaction) :
    poolConnect e tx t = ((poolConnect e tx (s.withTransactions t.mapTransactions)).1,
      (poolConnect e tx (s.withTransactions t.mapTransactions)).2.withPending
        t.chain.mapNamePending) := by
  rw [h.eq_withPoolOf]
  unfold Namecoin.poolConnect
  cases hbest : s.pindexBest.bind s.mapBlockIndex with
  | none =>
    simp only [NodeState.withPoolOf, NodeState.withTransactions, hbest]
    rfl
  | some pindexBest =>
    simp only [NodeState.withPoolOf, NodeState.withTransactions, hbest]
    exact TxCall.connectInputs_commutes
      (c := poolCall e (s.withTransactions t.mapTransactions) pindexBest tx) rfl rfl
      CDiskTxPos.memPool 0 (poolStart s tx)

def Agrees (s : NodeState) (tx : CTransaction) (m m' : Uint256 → Option CTransaction) : Prop :=
  ∀ txin ∈ tx.vin, InPool s.chain.dbset.tx txin.prevout.hash →
    m' txin.prevout.hash = m txin.prevout.hash

def Ready (s : NodeState) (m : Uint256 → Option CTransaction) (tx : CTransaction) : Prop :=
  ∀ txin ∈ tx.vin, InPool s.chain.dbset.tx txin.prevout.hash → (m txin.prevout.hash).isSome

theorem poolConnect_congr (h : Agrees s tx m m') :
    poolConnect e tx (s.withTransactions m') = poolConnect e tx (s.withTransactions m) := by
  unfold poolConnect
  cases hbest : s.pindexBest.bind s.mapBlockIndex with
  | none =>
    simp only [NodeState.withTransactions, hbest]
    rfl
  | some pindexBest =>
    simp only [NodeState.withTransactions, hbest]
    exact TxCall.connectInputs_congr (c := poolCall e (s.withTransactions m) pindexBest tx)
      (s := poolStart s tx) rfl rfl h

theorem poolConnect_missing (hcb : tx.isCoinBase = false)
    (hok : (poolConnect e tx (s.withTransactions m)).1 = .ok ())
    (hsub : ∀ h, m' h = none ∨ m' h = m h) (hmissing : ¬Ready s m' tx) :
    ∃ msg, (poolConnect e tx (s.withTransactions m')).1 = .error (.reject msg) := by
  unfold Ready at hmissing
  push Not at hmissing
  obtain ⟨txin, hin, hpool, hnone⟩ := hmissing
  unfold poolConnect at hok ⊢
  cases hbest : s.pindexBest.bind s.mapBlockIndex with
  | none => simp [NodeState.withTransactions, hbest] at hok
  | some pindexBest =>
    simp only [NodeState.withTransactions, hbest] at hok ⊢
    refine TxCall.connectInputs_missing
      (c := poolCall e (s.withTransactions m) pindexBest tx) (s := poolStart s tx) rfl rfl hcb hok
      ?_ hsub ⟨txin, hin, hpool, by simpa using hnone⟩
    intro j
    simp only [poolStart, List.getD_eq_getElem?_getD, List.getElem?_map]
    cases tx.vin[j]? <;> rfl

theorem ready_of_connect (hcb : tx.isCoinBase = false)
    (hok : (poolConnect e tx (s.withTransactions m)).1 = .ok ()) : Ready s m tx := by
  by_contra hready
  obtain ⟨msg, herr⟩ := poolConnect_missing hcb hok (fun _ => .inr rfl) hready
  rw [hok] at herr
  cases herr

end Connect

def poolMap (env : Env) (A : List CTransaction) (h : Uint256) : Option CTransaction :=
  A.find? (fun tx => decide (tx.getHash env = h))

section PoolMap

variable {env : Env} {A S : List CTransaction} {tx : CTransaction} {h : Uint256}

theorem poolMap_cons (env : Env) (tx : CTransaction) (A : List CTransaction) :
    poolMap env (tx :: A) = Function.update (poolMap env A) (tx.getHash env) (some tx) := by
  funext h
  rw [poolMap, List.find?_cons]
  by_cases hh : tx.getHash env = h
  · simp [hh]
  · rw [Function.update_of_ne (Ne.symm hh)]
    simp [hh, poolMap]

theorem poolMap_some (hfind : poolMap env A h = some tx) : tx ∈ A ∧ tx.getHash env = h := by
  refine ⟨List.mem_of_find?_eq_some hfind, ?_⟩
  simpa using List.find?_some hfind

theorem poolMap_isSome : (poolMap env A h).isSome ↔ ∃ tx ∈ A, tx.getHash env = h := by
  simp [poolMap]

def HashesDiffer (env : Env) (S : List CTransaction) : Prop :=
  ∀ t ∈ S, ∀ t' ∈ S, t.getHash env = t'.getHash env → t = t'

theorem HashesDiffer.poolMap_iff (hS : HashesDiffer env S) :
    poolMap env S h = some tx ↔ tx ∈ S ∧ tx.getHash env = h := by
  constructor
  · exact poolMap_some
  · rintro ⟨hmem, hhash⟩
    obtain ⟨t, ht⟩ := Option.isSome_iff_exists.mp (poolMap_isSome.mpr ⟨tx, hmem, hhash⟩)
    obtain ⟨hmem', hhash'⟩ := poolMap_some ht
    rw [ht, hS t hmem' tx hmem (hhash'.trans hhash.symm)]

theorem HashesDiffer.mono (hS : HashesDiffer env S) (hsub : A ⊆ S) : HashesDiffer env A :=
  fun t ht t' ht' => hS t (hsub ht) t' (hsub ht')

theorem HashesDiffer.poolMap_sub (hS : HashesDiffer env S) (hsub : A ⊆ S) (h : Uint256) :
    poolMap env A h = none ∨ poolMap env A h = poolMap env S h := by
  cases hA : poolMap env A h with
  | none => exact .inl rfl
  | some tx =>
    obtain ⟨hmem, hhash⟩ := poolMap_some hA
    exact .inr (hS.poolMap_iff.mpr ⟨hsub hmem, hhash⟩).symm

theorem Ready.mono {s : NodeState} (hready : Ready s (poolMap env A) tx) (hsub : A ⊆ S) :
    Ready s (poolMap env S) tx := by
  intro txin hin hpool
  obtain ⟨t, ht, hhash⟩ := poolMap_isSome.mp (hready txin hin hpool)
  exact poolMap_isSome.mpr ⟨t, hsub ht, hhash⟩

theorem Ready.agrees {s : NodeState} (hready : Ready s (poolMap env A) tx)
    (hS : HashesDiffer env S) (hsub : A ⊆ S) : Agrees s tx (poolMap env S) (poolMap env A) := by
  intro txin hin hpool
  refine (hS.poolMap_sub hsub _).resolve_left ?_
  have hsome := hready txin hin hpool
  intro hnone
  simp [hnone] at hsome

end PoolMap

structure PoolIs (env : Env) (s0 : NodeState) (A : List CTransaction) (s : NodeState) : Prop where
  only : PoolOnly s0 s
  transactions : s.mapTransactions = poolMap env A
  nextTx : ∀ p, (s.mapNextTx p).isSome ↔ ∃ t ∈ A, p ∈ prevouts t.vin
  newHashes : ∀ v, v ∈ s.setNewHashes ↔ v ∈ s0.setNewHashes ∨ ∃ t ∈ A, t.commitsTo env = some v

theorem link_isSome {k : Uint256} {os : List COutPoint} {i : Nat}
    {next : COutPoint → Option (Uint256 × Nat)} (p : COutPoint) :
    (Mirror.link k os i next p).isSome ↔ p ∈ os ∨ (next p).isSome := by
  induction os generalizing i next with
  | nil => simp [Mirror.link]
  | cons o rest ih =>
    rw [Mirror.link, ih, List.mem_cons]
    by_cases hp : p = o
    · simp [hp]
    · simp [hp]

theorem PoolIs.admits {env : Env} {s0 s s' : NodeState} {A : List CTransaction} {tx : CTransaction}
    (h : PoolIs env s0 A s) (hadmits : Admits env tx s s') (honly : PoolOnly s s') :
    PoolIs env s0 (tx :: A) s' where
  only := h.only.trans honly
  transactions := by rw [hadmits.transactions, h.transactions, poolMap_cons]
  nextTx p := by
    rw [hadmits.nextTx, link_isSome, h.nextTx]
    simp
  newHashes v := by
    rw [hadmits.newHashes, Finset.mem_union, h.newHashes]
    simp only [Option.mem_toFinset, Option.mem_def, List.mem_cons, exists_eq_or_imp]
    tauto

structure LooseTx (e : NodeEnv) (nBestHeight : Int) (tx : CTransaction) : Prop where
  valid : tx.checkTransaction e.env = .ok ()
  notCoinBase : tx.isCoinBase = false
  lockTime : ¬intMax < tx.nLockTime
  sigOps : ¬(tx.getSerializeSize / 34 < tx.getSigOpCount ∨ tx.getSerializeSize < 100)
  size : ¬maxStandardTxSize ≤ tx.getSerializeSize
  standard : ¬(e.env.fTestNet = false ∧ tx.isStandard nBestHeight e.nNow = false)
  dust : ¬tx.vout.any (fun out => decide (out.nValue < minRelayTxFee / 10)) = true

section Checks

variable {e : NodeEnv} {tx : CTransaction} {s0 s : NodeState}

theorem checkPoolTx_iff : checkPoolTx e tx true s = .ok () ↔ LooseTx e s.nBestHeight tx ∧
    s.mapTransactions (tx.getHash e.env) = none ∧ s.chain.dbset.tx (tx.getHash e.env) = none ∧
      ∀ p ∈ prevouts tx.vin, s.mapNextTx p = none := by
  have hnext : ¬tx.vin.any (fun txin => (s.mapNextTx txin.prevout).isSome) = true ↔
      ∀ p ∈ prevouts tx.vin, s.mapNextTx p = none := by
    simp [prevouts]
  simp only [checkPoolTx, Except.bind_eq_ok, Except.raiseIf_eq_ok, hnext]
  constructor
  · rintro ⟨_, h1, _, h2, _, h3, _, h4, _, h5, _, h6, _, h7, _, h8, _, h9, h10⟩
    exact ⟨⟨h1, by simpa using h2, h3, h4, h5, h6, h7⟩, by simpa using h8, by simpa using h9, h10⟩
  · rintro ⟨⟨h1, h2, h3, h4, h5, h6, h7⟩, h8, h9, h10⟩
    exact ⟨(), h1, (), by simp [h2], (), h3, (), h4, (), h5, (), h6, (), h7, (), by simp [h8], (),
      by simp [h9], h10⟩

theorem checkPoolTx_have (h : LooseTx e s.nBestHeight tx)
    (hhave : (s.mapTransactions (tx.getHash e.env)).isSome) :
    checkPoolTx e tx true s = .error (.reject "") := by
  obtain ⟨h1, h2, h3, h4, h5, h6, h7⟩ := h
  simp only [checkPoolTx, h1, Except.raiseIf, h2, h3, h4, h5, h6, h7, hhave, Bool.false_eq_true,
    if_false, if_true]
  rfl

theorem LooseTx.later {nBestHeight : Int} (h : LooseTx e nBestHeight tx) {nNow : Nat}
    (hnow : e.nNow ≤ nNow) : LooseTx (e.atTime nNow) nBestHeight tx := by
  refine ⟨h.valid, h.notCoinBase, h.lockTime, h.sigOps, h.size, ?_, h.dust⟩
  rintro ⟨hnet, hstd⟩
  refine h.standard ⟨hnet, ?_⟩
  by_contra hnot
  rw [Bool.not_eq_false, CTransaction.isStandard, Bool.and_eq_true] at hnot
  rw [CTransaction.isStandard, Bool.and_eq_false_iff] at hstd
  refine hstd.elim (fun hfinal => ?_) (fun hpush => ?_)
  · have hwas := hnot.1
    unfold CTransaction.isFinalTx at hwas hfinal
    simp only [if_true, Bool.or_eq_true, Bool.or_eq_false_iff, decide_eq_true_eq,
      decide_eq_false_iff_not] at hwas hfinal
    rcases hwas with (hzero | htime) | hseq
    · exact hfinal.1.1 hzero
    · refine hfinal.1.2 ?_
      split at htime
      · next hlt => rwa [if_pos hlt]
      · next hlt =>
        rw [if_neg hlt]
        have : (e.nNow : Int) ≤ nNow := by exact_mod_cast hnow
        exact lt_of_lt_of_le htime this
    · rw [hseq] at hfinal
      cases hfinal.2
  · rw [hnot.2] at hpush
    cases hpush

theorem hookAccept_of_ok {s' : NodeState} {u : Unit}
    (hok : exec (hookAcceptToMemoryPool e.env tx) s = (.ok u, s')) (t : NodeState)
    (hfresh : ∀ v, tx.commitsTo e.env = some v → v ∉ t.setNewHashes) :
    ∃ t', exec (hookAcceptToMemoryPool e.env tx) t = (.ok (), t') := by
  unfold hookAcceptToMemoryPool at hok ⊢
  split at hok
  · next hv =>
    rw [if_pos hv]
    exact ⟨t, rfl⟩
  · next hv =>
    rw [if_neg hv]
    have hver : tx.nVersion = namecoinTxVersion := not_not.mp hv
    simp only [bind_ok, raiseIf_ok, fromOption_ok, fromExcept_ok] at hok
    obtain ⟨_, _, ⟨hout, rfl⟩, d, _, ⟨hd, rfl⟩, vchName, _, ⟨hname, rfl⟩, -⟩ := hok
    simp only [raiseIf, if_neg hout, pure_bind, hd, fromOption, hname, fromExcept]
    split
    · next hop =>
      have hpooled : tx.pooledName e.env = some d := (if_pos hver).trans hd
      obtain ⟨-, hcommits⟩ := CTransaction.pendsOn_of_new hpooled hop
      have hnot := hfresh vchName (hcommits.trans (vchAt_ok.mp hname))
      rw [exec_get_bind, if_neg hnot]
      exact ⟨_, rfl⟩
    · exact ⟨_, rfl⟩

end Checks

structure Passes (e : NodeEnv) (s0 : NodeState) (m : Uint256 → Option CTransaction)
    (tx : CTransaction) : Prop where
  loose : LooseTx e s0.nBestHeight tx
  unconfirmed : s0.chain.dbset.tx (tx.getHash e.env) = none
  connects : (poolConnect e tx (s0.withTransactions m)).1 = .ok ()
  minFee : tx.getMinFee 1000 true true ≤ (poolConnect e tx (s0.withTransactions m)).2.nFees
  relayFee : minRelayTxFee ≤ (poolConnect e tx (s0.withTransactions m)).2.nFees
  hooked : ∃ s s', exec (hookAcceptToMemoryPool e.env tx) s = (.ok (), s')
  uncommitted : ∀ v, tx.commitsTo e.env = some v → v ∉ s0.setNewHashes

structure Relayable (e : NodeEnv) (s0 : NodeState) (S : List CTransaction) : Prop where
  hashes : HashesDiffer e.env S
  inputs : ∀ t ∈ S, ∀ t' ∈ S, t ≠ t' → ∀ p ∈ prevouts t.vin, p ∉ prevouts t'.vin
  commits : ∀ t ∈ S, ∀ t' ∈ S, t ≠ t' → ∀ v, t.commitsTo e.env = some v →
    t'.commitsTo e.env ≠ some v
  passes : ∀ t ∈ S, Passes e s0 (poolMap e.env S) t

section Accept

variable {e : NodeEnv} {s0 s : NodeState} {S A : List CTransaction} {tx : CTransaction}
  {nNow : Nat}

theorem Passes.congr {m m' : Uint256 → Option CTransaction} (h : Passes e s0 m tx)
    (hsame : Agrees s0 tx m m') : Passes e s0 m' tx := by
  have hconnect := @poolConnect_congr e tx s0 m m' hsame
  refine ⟨h.loose, h.unconfirmed, ?_, ?_, ?_, h.hooked, h.uncommitted⟩
  · rw [hconnect]
    exact h.connects
  · rw [hconnect]
    exact h.minFee
  · rw [hconnect]
    exact h.relayFee

theorem Passes.ready {m : Uint256 → Option CTransaction} (h : Passes e s0 m tx) : Ready s0 m tx :=
  ready_of_connect h.loose.notCoinBase h.connects

theorem PoolIs.height (h : PoolIs e.env s0 A s) : s.nBestHeight = s0.nBestHeight := by
  rw [h.only.eq_withPoolOf]
  rfl

theorem PoolIs.dbset (h : PoolIs e.env s0 A s) : s.chain.dbset = s0.chain.dbset := by
  rw [h.only.eq_withPoolOf]
  rfl

theorem PoolIs.connect (h : PoolIs e.env s0 A s) (tx : CTransaction) :
    (poolConnect e tx s).1 = (poolConnect e tx (s0.withTransactions (poolMap e.env A))).1 ∧
      (poolConnect e tx s).2.nFees =
        (poolConnect e tx (s0.withTransactions (poolMap e.env A))).2.nFees := by
  rw [h.only.poolConnect e tx, h.transactions]
  exact ⟨rfl, rfl⟩

theorem Relayable.checks (hrel : Relayable e s0 S) (hpool : PoolIs e.env s0 A s) (hsub : A ⊆ S)
    (htx : tx ∈ S) (hnew : tx ∉ A) (hnow : e.nNow ≤ nNow) :
    checkPoolTx (e.atTime nNow) tx true s = .ok () := by
  have hpass := hrel.passes tx htx
  refine checkPoolTx_iff.mpr ⟨?_, ?_, ?_, ?_⟩
  · rw [hpool.height]
    exact hpass.loose.later hnow
  · rw [hpool.transactions, ← Option.not_isSome_iff_eq_none]
    intro hsome
    obtain ⟨t, ht, hhash⟩ := poolMap_isSome.mp hsome
    obtain rfl := hrel.hashes t (hsub ht) tx htx hhash
    exact hnew ht
  · rw [hpool.dbset]
    exact hpass.unconfirmed
  · intro p hp
    rw [← Option.not_isSome_iff_eq_none, hpool.nextTx]
    rintro ⟨t, ht, hp'⟩
    refine hrel.inputs t (hsub ht) tx htx ?_ p hp' hp
    rintro rfl
    exact hnew ht

theorem Relayable.accept_ready (hrel : Relayable e s0 S) (hpool : PoolIs e.env s0 A s)
    (hsub : A ⊆ S) (htx : tx ∈ S) (hnew : tx ∉ A) (hready : Ready s0 (poolMap e.env A) tx)
    (hnow : e.nNow ≤ nNow) (fRateLimited : Bool) :
    ∃ s', exec (acceptToMemoryPool (e.atTime nNow) tx true true fRateLimited) s = (.ok (), s') ∧
      PoolIs e.env s0 (tx :: A) s' := by
  have hpass := (hrel.passes tx htx).congr (hready.agrees hrel.hashes hsub)
  obtain ⟨hconnect, hfees⟩ := hpool.connect tx
  have hinputs : checkPoolInputs (e.atTime nNow) tx true fRateLimited s = .ok () := by
    have hconnect' : (poolConnect (e.atTime nNow) tx s).1 = .ok () :=
      hconnect.trans hpass.connects
    have hfees' : (poolConnect (e.atTime nNow) tx s).2.nFees =
        (poolConnect e tx (s0.withTransactions (poolMap e.env A))).2.nFees := hfees
    simp only [checkPoolInputs_eq, Except.bind_eq_ok, Except.raiseIf_eq_ok, hfees']
    refine ⟨(), hconnect', (), ?_, ?_⟩
    · rintro ⟨-, hlow⟩
      exact absurd hpass.minFee (not_le.mpr hlow)
    · rintro ⟨-, hlow, -⟩
      exact absurd hpass.relayFee (not_le.mpr hlow)
  have hfresh : ∀ v, tx.commitsTo e.env = some v → v ∉ s.setNewHashes := by
    intro v hv hmem
    rcases (hpool.newHashes v).mp hmem with hold | ⟨t, ht, hcommit⟩
    · exact hpass.uncommitted v hv hold
    · refine hrel.commits t (hsub ht) tx htx ?_ v hcommit hv
      rintro rfl
      exact hnew ht
  obtain ⟨s1, s2, hhook⟩ := hpass.hooked
  obtain ⟨s', hs'⟩ := hookAccept_of_ok hhook s hfresh
  have hok : exec (acceptToMemoryPool (e.atTime nNow) tx true true fRateLimited) s =
      (.ok (), s'.addToMemoryPoolUnchecked e.env tx) := by
    unfold acceptToMemoryPool
    rw [exec_get_bind, hrel.checks hpool hsub htx hnew hnow]
    simp only [fromExcept, pure_bind, Except.doIf, if_true, hinputs]
    rw [exec_bind_ok (show exec (hookAcceptToMemoryPool (e.atTime nNow).env tx) s = (.ok (), s')
      from hs')]
    rfl
  refine ⟨_, hok, ?_⟩
  have honly := acceptToMemoryPool_poolOnly (e.atTime nNow) tx true true fRateLimited s
  rw [hok] at honly
  rcases acceptToMemoryPool_cases (e.atTime nNow) tx true true fRateLimited s with
    ⟨fault, herr⟩ | ⟨t, ht, hadmits⟩
  · rw [hok] at herr
    cases herr
  · rw [hok] at ht
    cases ht
    exact hpool.admits hadmits honly

theorem Relayable.accept_waits (hrel : Relayable e s0 S) (hpool : PoolIs e.env s0 A s)
    (hsub : A ⊆ S) (htx : tx ∈ S) (hnew : tx ∉ A) (hready : ¬Ready s0 (poolMap e.env A) tx)
    (hnow : e.nNow ≤ nNow) (fRateLimited : Bool) :
    (∃ msg, exec (acceptToMemoryPool (e.atTime nNow) tx true true fRateLimited) s =
      (.error (.reject msg), s)) ∧ fMissingInputs (e.atTime nNow) tx s = true := by
  have hpass := hrel.passes tx htx
  obtain ⟨msg, hmsg⟩ := poolConnect_missing hpass.loose.notCoinBase hpass.connects
    (hrel.hashes.poolMap_sub hsub) hready
  have hconnect : (poolConnect (e.atTime nNow) tx s).1 = .error (.reject msg) :=
    (hpool.connect tx).1.trans hmsg
  have hcheck := hrel.checks hpool hsub htx hnew hnow
  constructor
  · refine ⟨msg, ?_⟩
    have hinputs : checkPoolInputs (e.atTime nNow) tx true fRateLimited s =
        .error (.reject msg) := by
      rw [checkPoolInputs_eq, hconnect]
      rfl
    unfold acceptToMemoryPool
    rw [exec_get_bind, hcheck]
    simp only [fromExcept, pure_bind, Except.doIf, if_true, hinputs]
    rfl
  · rw [fMissingInputs, hcheck, hconnect]
    rfl

theorem Relayable.accept_have (hrel : Relayable e s0 S) (hpool : PoolIs e.env s0 A s)
    (hsub : A ⊆ S) (htx : tx ∈ A) (hnow : e.nNow ≤ nNow) (fRateLimited : Bool) :
    exec (acceptToMemoryPool (e.atTime nNow) tx true true fRateLimited) s =
      (.error (.reject ""), s) ∧ fMissingInputs (e.atTime nNow) tx s = false := by
  have hcheck : checkPoolTx (e.atTime nNow) tx true s = .error (.reject "") := by
    refine checkPoolTx_have ?_ ?_
    · rw [hpool.height]
      exact (hrel.passes tx (hsub htx)).loose.later hnow
    · rw [hpool.transactions]
      exact poolMap_isSome.mpr ⟨tx, htx, rfl⟩
  constructor
  · unfold acceptToMemoryPool
    rw [exec_get_bind, hcheck]
    rfl
  · rw [fMissingInputs, hcheck]

end Accept

section Grow

variable {e : NodeEnv} {s0 s s' : NodeState} {A : List CTransaction} {tx : CTransaction}
  {fLimitFree fRateLimited : Bool}

theorem acceptToMemoryPool_parts
    (h : exec (acceptToMemoryPool e tx true fLimitFree fRateLimited) s = (.ok (), s')) :
    checkPoolTx e tx true s = .ok () ∧ (poolConnect e tx s).1 = .ok () ∧
      (∃ s1, exec (hookAcceptToMemoryPool e.env tx) s = (.ok (), s1)) ∧
      Admits e.env tx s s' ∧ PoolOnly s s' := by
  have hadmits : Admits e.env tx s s' := by
    rcases acceptToMemoryPool_cases e tx true fLimitFree fRateLimited s with
      ⟨fault, herr⟩ | ⟨t, ht, hadmits⟩
    · rw [h] at herr
      cases herr
    · rw [h] at ht
      cases ht
      exact hadmits
  have honly := acceptToMemoryPool_poolOnly e tx true fLimitFree fRateLimited s
  rw [h] at honly
  unfold acceptToMemoryPool at h
  simp only [bind_ok, get_ok, fromExcept_ok, Except.doIf, if_true] at h
  obtain ⟨_, _, ⟨rfl, rfl⟩, _, _, ⟨hcheck, rfl⟩, _, _, ⟨hinputs, rfl⟩, _, s1, hhook, -⟩ := h
  rw [checkPoolInputs_eq, Except.bind_eq_ok] at hinputs
  obtain ⟨_, hconnect, -⟩ := hinputs
  exact ⟨hcheck, hconnect, ⟨s1, hhook⟩, hadmits, honly⟩

theorem Relayable.grow (hrel : Relayable e s0 A) (hpool : PoolIs e.env s0 A s)
    (h : exec (acceptToMemoryPool e tx true fLimitFree fRateLimited) s = (.ok (), s'))
    (hmin : tx.getMinFee 1000 true true ≤ (poolConnect e tx s).2.nFees)
    (hrelay : minRelayTxFee ≤ (poolConnect e tx s).2.nFees) :
    Relayable e s0 (tx :: A) ∧ PoolIs e.env s0 (tx :: A) s' ∧
      Ready s0 (poolMap e.env A) tx := by
  obtain ⟨hcheck, hconnect, ⟨s1, hhook⟩, hadmits, honly⟩ := acceptToMemoryPool_parts h
  obtain ⟨hloose, hnone, hindex, hunspent⟩ := checkPoolTx_iff.mp hcheck
  rw [hpool.height] at hloose
  rw [hpool.transactions] at hnone
  rw [hpool.dbset] at hindex
  obtain ⟨hconnect0, hfees0⟩ := hpool.connect tx
  have hpass : Passes e s0 (poolMap e.env A) tx := by
    refine ⟨hloose, hindex, ?_, ?_, ?_, ⟨s, s1, hhook⟩, ?_⟩
    · rw [← hconnect0]
      exact hconnect
    · rw [← hfees0]
      exact hmin
    · rw [← hfees0]
      exact hrelay
    · intro v hv hmem
      exact hadmits.uncommitted v hv ((hpool.newHashes v).mpr (.inl hmem))
  have hother : ∀ t ∈ A, t.getHash e.env ≠ tx.getHash e.env := by
    intro t ht hhash
    have hsome : (poolMap e.env A (tx.getHash e.env)).isSome := poolMap_isSome.mpr ⟨t, ht, hhash⟩
    rw [hnone] at hsome
    cases hsome
  have hinputs : ∀ t ∈ A, ∀ p ∈ prevouts tx.vin, p ∉ prevouts t.vin := by
    intro t ht p hp hp'
    have hsome := (hpool.nextTx p).mpr ⟨t, ht, hp'⟩
    rw [hunspent p hp] at hsome
    cases hsome
  have hcommits : ∀ t ∈ A, ∀ v, tx.commitsTo e.env = some v → t.commitsTo e.env ≠ some v :=
    fun t ht v hv hv' =>
      hadmits.uncommitted v hv ((hpool.newHashes v).mpr (.inr ⟨t, ht, hv'⟩))
  have hhashes : HashesDiffer e.env (tx :: A) := by
    intro t ht t' ht' heq
    rcases List.mem_cons.mp ht with rfl | hold <;> rcases List.mem_cons.mp ht' with rfl | hold'
    · rfl
    · exact absurd heq.symm (hother t' hold')
    · exact absurd heq (hother t hold)
    · exact hrel.hashes t hold t' hold' heq
  have hagrees : ∀ t, Ready s0 (poolMap e.env A) t →
      Agrees s0 t (poolMap e.env A) (poolMap e.env (tx :: A)) := by
    intro t hready txin hin hp
    exact (hready.agrees hhashes (List.subset_cons_self _ _) txin hin hp).symm
  refine ⟨⟨hhashes, ?_, ?_, ?_⟩, hpool.admits hadmits honly, hpass.ready⟩
  · intro t ht t' ht' hne p hp hp'
    rcases List.mem_cons.mp ht with rfl | hold <;> rcases List.mem_cons.mp ht' with rfl | hold'
    · exact hne rfl
    · exact hinputs t' hold' p hp hp'
    · exact hinputs t hold p hp' hp
    · exact hrel.inputs t hold t' hold' hne p hp hp'
  · intro t ht t' ht' hne v hv hv'
    rcases List.mem_cons.mp ht with rfl | hold <;> rcases List.mem_cons.mp ht' with rfl | hold'
    · exact hne rfl
    · exact hcommits t' hold' v hv hv'
    · exact hcommits t hold v hv' hv
    · exact hrel.commits t hold t' hold' hne v hv hv'
  · intro t ht
    rcases List.mem_cons.mp ht with rfl | ht
    · exact hpass.congr (hagrees t hpass.ready)
    · exact (hrel.passes t ht).congr (hagrees t (hrel.passes t ht).ready)

end Grow

end Namecoin
