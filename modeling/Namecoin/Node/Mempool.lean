import Namecoin.Lib.Mirror
import Namecoin.Chain.Flags
import Namecoin.Name.Scan
import Namecoin.Node.Best

namespace Namecoin

open Act

namespace CTransaction

def pooledName (env : Env) (tx : CTransaction) : Option NameTx :=
  if tx.nVersion = namecoinTxVersion then decodeNameTx env tx bugWorkaroundBlock else none

def pendsOn (env : Env) (tx : CTransaction) : Option VchType :=
  (tx.pooledName env).bind (fun d =>
    if d.op = opNameFirstupdate ∨ d.op = opNameUpdate then d.vvch[0]? else none)

def commitsTo (env : Env) (tx : CTransaction) : Option VchType :=
  (tx.pooledName env).bind (fun d => if d.op = opNameNew then d.vvch[0]? else none)

theorem pendsOn_of_name {env : Env} {tx : CTransaction} {d : NameTx}
    (h : tx.pooledName env = some d) (hop : d.op = opNameFirstupdate ∨ d.op = opNameUpdate) :
    tx.pendsOn env = d.vvch[0]? ∧ tx.commitsTo env = none := by
  have hne : d.op ≠ opNameNew := by
    rcases hop with hop | hop <;> rw [hop] <;> decide
  simp [pendsOn, commitsTo, h, hop, hne]

theorem pendsOn_of_new {env : Env} {tx : CTransaction} {d : NameTx}
    (h : tx.pooledName env = some d) (hop : d.op = opNameNew) :
    tx.pendsOn env = none ∧ tx.commitsTo env = d.vvch[0]? := by
  have hne : ¬(d.op = opNameFirstupdate ∨ d.op = opNameUpdate) := by
    rw [hop]
    decide
  simp [pendsOn, commitsTo, h, hop, opNameNew, opNameFirstupdate, opNameUpdate]

theorem decodeNameTx_op {env : Env} {tx : CTransaction} {nHeight nHeight' : Nat} {d d' : NameTx}
    (h : decodeNameTx env tx nHeight = some d) (h' : decodeNameTx env tx nHeight' = some d') :
    d.op = d'.op := by
  have hop : ∀ {n : Nat} {x : NameTx}, decodeNameTx env tx n = some x →
      x.op = leftoverOp tx.outScripts 0 := by
    intro n x hx
    unfold decodeNameTx at hx
    split at hx
    · cases hx
    · next r hr =>
      obtain ⟨nOut, -, rfl⟩ := Option.map_eq_some_iff.mp hx
      exact scanNameScripts_op hr
  rw [hop h, hop h']

theorem checkNameRules_op {env : Env} {tx : CTransaction} {nHeight : Nat}
    (h : checkNameRules env tx nHeight = .ok true) :
    ∃ d, decodeNameTx env tx nHeight = some d ∧
      (d.op = opNameNew ∨ d.op = opNameFirstupdate ∨ d.op = opNameUpdate) := by
  unfold checkNameRules at h
  cases hd : decodeNameTx env tx nHeight with
  | none => simp [hd] at h
  | some d =>
    refine ⟨d, rfl, ?_⟩
    simp only [hd] at h
    by_contra hop
    simp only [not_or] at hop
    cases hname : vchAt d.vvch 0 with
    | error fault => simp [hname, Except.bind] at h
    | ok vchName => simp [hname, Except.bind, hop] at h

theorem checkTransaction_op {env : Env} {tx : CTransaction} {u : Unit} {d : NameTx}
    (h : tx.checkTransaction env = .ok u) (hd : tx.pooledName env = some d) :
    d.op = opNameNew ∨ d.op = opNameFirstupdate ∨ d.op = opNameUpdate := by
  unfold pooledName at hd
  split at hd
  · next hv =>
    simp only [checkTransaction, Except.bind_eq_ok, Except.raiseIf_eq_ok] at h
    obtain ⟨-, -, -, -, -, -, -, -, ok, hhook, hok⟩ := h
    obtain rfl : ok = true := by simpa using hok
    simp only [hookCheckTransaction, hv, ne_eq, not_true_eq_false, if_false] at hhook
    cases h0 : checkNameRules env tx 0 with
    | error fault => simp [h0, Except.bind] at hhook
    | ok ret0 =>
      cases h1 : checkNameRules env tx bugWorkaroundBlock with
      | error fault => simp [h0, h1, Except.bind, Except.map] at hhook
      | ok ret1 =>
        have hor : ret0 = true ∨ ret1 = true := by
          simpa [h0, h1, Except.bind, Except.map] using hhook
        rcases hor with rfl | rfl
        · obtain ⟨d0, hd0, hop⟩ := checkNameRules_op h0
          rw [decodeNameTx_op hd hd0]
          exact hop
        · obtain ⟨d1, hd1, hop⟩ := checkNameRules_op h1
          rw [decodeNameTx_op hd hd1]
          exact hop
  · cases hd

end CTransaction

theorem addNextTx_eq (hash : Uint256) (vin : List CTxIn) (i : Nat)
    (m : COutPoint → Option (Uint256 × Nat)) :
    NodeState.addNextTx hash vin i m = Mirror.link hash (prevouts vin) i m := by
  induction vin generalizing i m with
  | nil => rfl
  | cons txin rest ih => exact ih _ _

theorem eraseNextTx_eq (vin : List CTxIn) (m : COutPoint → Option (Uint256 × Nat)) :
    NodeState.eraseNextTx vin m = Mirror.unlink (prevouts vin) m := by
  induction vin generalizing m with
  | nil => rfl
  | cons txin rest ih => exact ih _

structure Admits (env : Env) (tx : CTransaction) (s s' : NodeState) : Prop where
  unpooled : s.mapTransactions (tx.getHash env) = none
  unspent : ∀ p ∈ prevouts tx.vin, s.mapNextTx p = none
  uncommitted : ∀ vchHash, tx.commitsTo env = some vchHash → vchHash ∉ s.setNewHashes
  transactions : s'.mapTransactions =
    Function.update s.mapTransactions (tx.getHash env) (some tx)
  nextTx : s'.mapNextTx = Mirror.link (tx.getHash env) (prevouts tx.vin) 0 s.mapNextTx
  pending : s'.chain.mapNamePending =
    Mirror.file (tx.getHash env) s.chain.mapNamePending (tx.pendsOn env)
  newHashes : s'.setNewHashes = (tx.commitsTo env).toFinset ∪ s.setNewHashes

structure Hooked (env : Env) (tx : CTransaction) (s s' : NodeState) : Prop where
  uncommitted : ∀ vchHash, tx.commitsTo env = some vchHash → vchHash ∉ s.setNewHashes
  transactions : s'.mapTransactions = s.mapTransactions
  nextTx : s'.mapNextTx = s.mapNextTx
  pending : s'.chain.mapNamePending =
    Mirror.file (tx.getHash env) s.chain.mapNamePending (tx.pendsOn env)
  newHashes : s'.setNewHashes = (tx.commitsTo env).toFinset ∪ s.setNewHashes

theorem checkPoolTx_ok {e : NodeEnv} {tx : CTransaction} {fCheckInputs : Bool} {s : NodeState}
    {u : Unit} (h : checkPoolTx e tx fCheckInputs s = .ok u) :
    tx.checkTransaction e.env = .ok () ∧ s.mapTransactions (tx.getHash e.env) = none ∧
      ∀ p ∈ prevouts tx.vin, s.mapNextTx p = none := by
  simp only [checkPoolTx, Except.bind_eq_ok, Except.raiseIf_eq_ok] at h
  obtain ⟨_, hcheck, -, -, -, -, -, -, -, -, -, -, -, -, -, hpool, -, -, hnext⟩ := h
  refine ⟨hcheck, by simpa using hpool, ?_⟩
  intro p hp
  obtain ⟨txin, hin, rfl⟩ := List.mem_map.mp hp
  simp only [List.any_eq_true, not_exists, not_and, Bool.not_eq_true,
    Option.isSome_eq_false_iff, Option.isNone_iff_eq_none] at hnext
  exact hnext txin hin

theorem hookAccept_cases {env : Env} {tx : CTransaction} (hcheck : tx.checkTransaction env = .ok ())
    (s : NodeState) :
    (∃ fault, exec (hookAcceptToMemoryPool env tx) s = (.error fault, s)) ∨
      ∃ s', exec (hookAcceptToMemoryPool env tx) s = (.ok (), s') ∧ Hooked env tx s s' := by
  unfold hookAcceptToMemoryPool
  split
  · next hv =>
    have hname : tx.pooledName env = none := if_neg hv
    have hpends : tx.pendsOn env = none := by simp [CTransaction.pendsOn, hname]
    have hcommits : tx.commitsTo env = none := by simp [CTransaction.commitsTo, hname]
    refine .inr ⟨s, rfl, ?_, rfl, rfl, ?_, ?_⟩
    · simp [hcommits]
    · rw [hpends]
      rfl
    · simp [hcommits]
  · next hv =>
    have hver : tx.nVersion = namecoinTxVersion := not_not.mp hv
    by_cases hout : tx.vout = []
    · exact .inl ⟨_, exec_bind_error (by rw [raiseIf, if_pos hout]; rfl)⟩
    rw [exec_bind_ok (show exec _ s = (.ok (), s) by rw [raiseIf, if_neg hout]; rfl)]
    cases hd : decodeNameTx env tx bugWorkaroundBlock with
    | none => exact .inl ⟨_, exec_bind_error rfl⟩
    | some d =>
      have hname : tx.pooledName env = some d := (if_pos hver).trans hd
      rw [exec_bind_ok (show exec (fromOption _ (some d)) s = (.ok d, s) from rfl)]
      cases hv0 : vchAt d.vvch 0 with
      | error fault => exact .inl ⟨_, exec_bind_error rfl⟩
      | ok vchName =>
        have hget : d.vvch[0]? = some vchName := vchAt_ok.mp hv0
        rw [exec_bind_ok (show exec (fromExcept (.ok vchName)) s = (.ok vchName, s) from rfl)]
        split
        · next hop =>
          obtain ⟨hpends, hcommits⟩ := CTransaction.pendsOn_of_new hname hop
          rw [hget] at hcommits
          rw [exec_get_bind]
          by_cases hmem : vchName ∈ s.setNewHashes
          · exact .inl ⟨_, exec_bind_error (by rw [raiseIf, if_pos hmem]; rfl)⟩
          rw [exec_bind_ok (show exec _ s = (.ok (), s) by rw [raiseIf, if_neg hmem]; rfl)]
          refine .inr ⟨_, exec_modify _ _, ?_, rfl, rfl, ?_, ?_⟩
          · intro vchHash hhash
            rw [hcommits] at hhash
            obtain rfl := Option.some.inj hhash
            exact hmem
          · rw [hpends]
            rfl
          · simp [hcommits]
        · next hop =>
          have hop' : d.op = opNameFirstupdate ∨ d.op = opNameUpdate :=
            (CTransaction.checkTransaction_op hcheck hname).resolve_left hop
          obtain ⟨hpends, hcommits⟩ := CTransaction.pendsOn_of_name hname hop'
          rw [hget] at hpends
          refine .inr ⟨_, exec_modify _ _, ?_, rfl, rfl, ?_, ?_⟩
          · simp [hcommits]
          · rw [hpends]
            rfl
          · simp [hcommits, NodeState.withPending]

theorem acceptToMemoryPool_cases (e : NodeEnv) (tx : CTransaction)
    (fCheckInputs fLimitFree fRateLimited : Bool) (s : NodeState) :
    (∃ fault, exec (acceptToMemoryPool e tx fCheckInputs fLimitFree fRateLimited) s =
      (.error fault, s)) ∨
    ∃ s', exec (acceptToMemoryPool e tx fCheckInputs fLimitFree fRateLimited) s = (.ok (), s') ∧
      Admits e.env tx s s' := by
  unfold acceptToMemoryPool
  rw [exec_get_bind]
  cases hcheck : checkPoolTx e tx fCheckInputs s with
  | error fault => exact .inl ⟨fault, exec_bind_error rfl⟩
  | ok u =>
    rw [exec_bind_ok (show exec (fromExcept (.ok u)) s = (.ok u, s) from rfl)]
    cases hin : Except.doIf fCheckInputs (checkPoolInputs e tx fLimitFree fRateLimited s) with
    | error fault => exact .inl ⟨fault, exec_bind_error rfl⟩
    | ok u =>
      rw [exec_bind_ok (show exec (fromExcept (.ok u)) s = (.ok u, s) from rfl)]
      obtain ⟨htx, hpool, hnext⟩ := checkPoolTx_ok hcheck
      rcases hookAccept_cases htx s with ⟨fault, hx⟩ | ⟨s1, hx, hook⟩
      · exact .inl ⟨fault, exec_bind_error hx⟩
      · rw [exec_bind_ok hx]
        refine .inr ⟨_, exec_modify _ _, hpool, hnext, hook.uncommitted, ?_, ?_, hook.pending,
          hook.newHashes⟩
        · rw [← hook.transactions]
          rfl
        · rw [← hook.nextTx]
          exact addNextTx_eq _ _ _ _

structure PoolAlike (s t : NodeState) : Prop where
  transactions : s.mapTransactions = t.mapTransactions
  nextTx : s.mapNextTx = t.mapNextTx
  newHashes : s.setNewHashes = t.setNewHashes
  bestHeight : s.nBestHeight = t.nBestHeight

theorem PoolAlike.checkPoolTx_eq {s t : NodeState} (h : PoolAlike s t) (e : NodeEnv)
    (tx : CTransaction) : checkPoolTx e tx false s = checkPoolTx e tx false t := by
  simp [checkPoolTx, h.transactions, h.nextTx, h.bestHeight]

theorem PoolAlike.hookAccept {s t : NodeState} (h : PoolAlike s t) (env : Env)
    (tx : CTransaction) :
    (exec (hookAcceptToMemoryPool env tx) s).1 = (exec (hookAcceptToMemoryPool env tx) t).1 ∧
      PoolAlike (exec (hookAcceptToMemoryPool env tx) s).2
        (exec (hookAcceptToMemoryPool env tx) t).2 := by
  unfold hookAcceptToMemoryPool
  split
  · exact ⟨rfl, h⟩
  · by_cases hout : tx.vout = []
    · simp only [raiseIf, if_pos hout]
      exact ⟨rfl, h⟩
    simp only [raiseIf, if_neg hout, pure_bind]
    cases decodeNameTx env tx bugWorkaroundBlock with
    | none => exact ⟨rfl, h⟩
    | some d =>
      simp only [fromOption, pure_bind]
      cases vchAt d.vvch 0 with
      | error fault => exact ⟨rfl, h⟩
      | ok vchName =>
        simp only [fromExcept, pure_bind]
        split
        · rw [exec_get_bind, exec_get_bind, h.newHashes]
          by_cases hmem : vchName ∈ t.setNewHashes
          · simp only [if_pos hmem]
            exact ⟨rfl, h⟩
          · simp only [if_neg hmem, pure_bind, exec_modify]
            exact ⟨trivial, h.transactions, h.nextTx, by rw [h.newHashes], h.bestHeight⟩
        · exact ⟨rfl, h.transactions, h.nextTx, h.newHashes, h.bestHeight⟩

theorem PoolAlike.accept {s t : NodeState} (h : PoolAlike s t) (e : NodeEnv) (tx : CTransaction)
    (fLimitFree fRateLimited : Bool) :
    (exec (acceptToMemoryPool e tx false fLimitFree fRateLimited) s).1 =
        (exec (acceptToMemoryPool e tx false fLimitFree fRateLimited) t).1 ∧
      PoolAlike (exec (acceptToMemoryPool e tx false fLimitFree fRateLimited) s).2
        (exec (acceptToMemoryPool e tx false fLimitFree fRateLimited) t).2 := by
  unfold acceptToMemoryPool
  rw [exec_get_bind, exec_get_bind, h.checkPoolTx_eq]
  cases checkPoolTx e tx false t with
  | error fault => exact ⟨rfl, h⟩
  | ok u =>
    simp only [fromExcept, pure_bind, Except.doIf, Bool.false_eq_true, if_false]
    obtain ⟨hr, halike⟩ := h.hookAccept e.env tx
    rw [exec_bind, exec_bind]
    rcases hs : exec (hookAcceptToMemoryPool e.env tx) s with ⟨r, s'⟩
    rcases ht : exec (hookAcceptToMemoryPool e.env tx) t with ⟨r', t'⟩
    rw [hs, ht] at hr halike
    obtain rfl : r = r' := hr
    cases r with
    | error fault => exact ⟨rfl, halike⟩
    | ok u =>
      simp only [exec_modify, NodeState.addToMemoryPoolUnchecked]
      exact ⟨trivial, by rw [halike.transactions], by rw [halike.nextTx], halike.newHashes,
        halike.bestHeight⟩

theorem PoolAlike.resurrect {s t : NodeState} (h : PoolAlike s t) (e : NodeEnv)
    (vResurrect : List CTransaction) :
    PoolAlike (s.resurrect e vResurrect) (t.resurrect e vResurrect) := by
  induction vResurrect generalizing s t with
  | nil => exact h
  | cons tx rest ih => exact ih (h.accept e tx true false).2

structure Removes (env : Env) (ds : List CTransaction) (s s' : NodeState) : Prop where
  transactions : ∀ k, s'.mapTransactions k =
    if k ∈ txHashes env ds then none else s.mapTransactions k
  newHashes : s'.setNewHashes = s.setNewHashes
  shrinks : ∀ vchName k, k ∈ s'.chain.mapNamePending vchName → k ∈ s.chain.mapNamePending vchName
  keeps : ∀ vchName k, k ∈ s.chain.mapNamePending vchName → k ∉ txHashes env ds →
    k ∈ s'.chain.mapNamePending vchName
  clears : ∀ d ∈ ds, ∀ vchName, d.pendsOn env = some vchName →
    d.getHash env ∉ s'.chain.mapNamePending vchName

theorem hookRemove_pending (env : Env) (tx : CTransaction) (s : NodeState) :
    ∃ o, (s.hookRemoveFromMemoryPool env tx).chain.mapNamePending =
        Mirror.unfile (tx.getHash env) s.chain.mapNamePending o ∧
      ∀ vchName, tx.pendsOn env = some vchName → o = some vchName := by
  unfold NodeState.hookRemoveFromMemoryPool
  by_cases hplain : tx.nVersion ≠ namecoinTxVersion ∨ tx.vout = []
  · rw [if_pos hplain]
    refine ⟨none, rfl, ?_⟩
    intro vchName hpends
    obtain ⟨d, hd, hop⟩ := Option.bind_eq_some_iff.mp hpends
    unfold CTransaction.pooledName at hd
    split at hd
    · next hv =>
      rcases hplain with hv' | hout
      · exact absurd hv hv'
      · simp [decodeNameTx, CTransaction.outScripts, hout, scanNameScripts, NameScan.start] at hd
    · cases hd
  · rw [if_neg hplain]
    have hv : tx.nVersion = namecoinTxVersion := by
      by_contra hv
      exact hplain (.inl hv)
    have hname : tx.pooledName env = decodeNameTx env tx bugWorkaroundBlock := if_pos hv
    cases hd : decodeNameTx env tx bugWorkaroundBlock with
    | none => exact ⟨none, rfl, by simp [CTransaction.pendsOn, hname, hd]⟩
    | some d =>
      simp only
      cases h0 : d.vvch[0]? with
      | none => exact ⟨none, rfl, by simp [CTransaction.pendsOn, hname, hd, h0]⟩
      | some name =>
        simp only
        split
        · next hop =>
          refine ⟨none, rfl, ?_⟩
          rw [(CTransaction.pendsOn_of_new (hname.trans hd) hop).1]
          simp
        · refine ⟨some name, rfl, ?_⟩
          intro vchName hpends
          simp only [CTransaction.pendsOn, hname, hd, Option.bind_some, h0] at hpends
          split at hpends
          · exact hpends
          · cases hpends

theorem hookRemove_maps (env : Env) (tx : CTransaction) (s : NodeState) :
    (s.hookRemoveFromMemoryPool env tx).mapTransactions = s.mapTransactions ∧
      (s.hookRemoveFromMemoryPool env tx).mapNextTx = s.mapNextTx ∧
      (s.hookRemoveFromMemoryPool env tx).setNewHashes = s.setNewHashes := by
  unfold NodeState.hookRemoveFromMemoryPool
  repeat' split
  all_goals exact ⟨rfl, rfl, rfl⟩

theorem removeFromMemoryPool_transactions (env : Env) (tx : CTransaction) (s : NodeState) :
    (s.removeFromMemoryPool env tx).mapTransactions =
      Function.update s.mapTransactions (tx.getHash env) none := by
  rw [← (hookRemove_maps env tx s).1]
  rfl

theorem removeFromMemoryPool_nextTx (env : Env) (tx : CTransaction) (s : NodeState) :
    (s.removeFromMemoryPool env tx).mapNextTx = Mirror.unlink (prevouts tx.vin) s.mapNextTx := by
  rw [← (hookRemove_maps env tx s).2.1]
  exact eraseNextTx_eq _ _

theorem removeAll_removes (env : Env) (ds : List CTransaction) (s : NodeState) :
    Removes env ds s (s.removeAll env ds) := by
  induction ds generalizing s with
  | nil => exact ⟨fun k => by simp [txHashes, NodeState.removeAll], rfl, fun _ _ h => h,
      fun _ _ h _ => h, by simp⟩
  | cons tx rest ih =>
    have hrest := ih (s.removeFromMemoryPool env tx)
    obtain ⟨o, hpend, ho⟩ := hookRemove_pending env tx s
    have hpend' : (s.removeFromMemoryPool env tx).chain.mapNamePending =
        Mirror.unfile (tx.getHash env) s.chain.mapNamePending o := hpend
    have hstep : s.removeAll env (tx :: rest) = (s.removeFromMemoryPool env tx).removeAll env rest :=
      rfl
    rw [hstep]
    refine ⟨?_, ?_, ?_, ?_, ?_⟩
    · intro k
      rw [hrest.transactions, removeFromMemoryPool_transactions]
      simp only [txHashes, List.map_cons, List.mem_cons, Function.update_apply]
      split
      · next hk => rw [if_pos (.inr hk)]
      · next hk => simp [hk]
    · rw [hrest.newHashes]
      exact (hookRemove_maps env tx s).2.2
    · intro vchName k hk
      have hk1 := hrest.shrinks vchName k hk
      rw [hpend', Mirror.mem_unfile] at hk1
      exact hk1.2
    · intro vchName k hk hne
      simp only [txHashes, List.map_cons, List.mem_cons, not_or] at hne
      refine hrest.keeps vchName k ?_ hne.2
      rw [hpend', Mirror.mem_unfile]
      exact ⟨fun h => hne.1 h.1, hk⟩
    · intro d hd vchName hname hk
      rcases List.mem_cons.mp hd with rfl | hd
      · have hk1 := hrest.shrinks vchName _ hk
        rw [hpend', Mirror.mem_unfile] at hk1
        exact hk1.1 ⟨rfl, ho vchName hname⟩
      · exact hrest.clears d hd vchName hname hk

structure Sheds (ids : List Uint256) (m m' : VchType → Finset Uint256) : Prop where
  shrinks : ∀ vchName k, k ∈ m' vchName → k ∈ m vchName
  keeps : ∀ vchName k, k ∈ m vchName → k ∉ ids → k ∈ m' vchName

theorem Sheds.refl (ids : List Uint256) (m : VchType → Finset Uint256) : Sheds ids m m :=
  ⟨fun _ _ h => h, fun _ _ h _ => h⟩

theorem Sheds.append {ids ids' : List Uint256} {m m' m'' : VchType → Finset Uint256}
    (h : Sheds ids m m') (h' : Sheds ids' m' m'') : Sheds (ids ++ ids') m m'' where
  shrinks vchName k hk := h.shrinks vchName k (h'.shrinks vchName k hk)
  keeps vchName k hk hne := by
    rw [List.mem_append, not_or] at hne
    exact h'.keeps vchName k (h.keeps vchName k hk hne.1) hne.2

theorem NameEffect.sheds (eff : NameEffect) (m : VchType → Finset Uint256) (hash : Uint256) :
    Sheds [hash] m (eff.onPending m hash) := by
  have herase : ∀ name, Sheds [hash] m (Mirror.unfile hash m (some name)) := by
    intro name
    constructor
    · intro vchName k hk
      exact (Mirror.mem_unfile.mp hk).2
    · intro vchName k hk hne
      rw [List.mem_singleton] at hne
      exact Mirror.mem_unfile.mpr ⟨fun h => hne h.1, hk⟩
  cases eff with
  | keep => exact Sheds.refl _ m
  | skip name => exact herase name
  | append name entry => exact herase name

theorem BlockCall.TxsRun.sheds {c : BlockCall} {txs : List CTransaction} {nTxPos : Nat}
    {l l' : Ledger} (h : c.TxsRun txs nTxPos l l') :
    Sheds (txHashes c.env txs) l.pending l'.pending := by
  induction h with
  | nil nTxPos l => exact Sheds.refl _ _
  | @cons tx rest nTxPos l l' t eff fee head tail ih =>
    exact (NameEffect.sheds eff l.pending (tx.getHash c.env)).append ih

theorem BlockCall.connectBlock_sheds {c : BlockCall} {b : CBlock} {s s' : ChainState} {u : Unit}
    (h : exec (c.connectBlock b) s = (.ok u, s')) :
    Sheds (txHashes c.env b.vtx) s.mapNamePending s'.mapNamePending := by
  obtain ⟨l, hdone⟩ := BlockCall.connectBlock_ok h
  rw [hdone.pending]
  exact hdone.run.sheds

theorem extendChain_sheds {c : BlockCall} {b : CBlock} {s s' : ChainState} {u : Unit}
    (h : exec (extendChain c b) s = (.ok u, s')) :
    Sheds (txHashes c.env b.vtx) s.mapNamePending s'.mapNamePending := by
  simp only [extendChain, bind_ok, writeBest, modify_ok] at h
  obtain ⟨u, s1, hblock, rfl⟩ := h
  have hsheds := BlockCall.connectBlock_sheds hblock
  exact hsheds

theorem disconnectBranch_ok {cs : List BlockCall} {s s' : ChainState} {vResurrect : List CTransaction}
    (h : exec (disconnectBranch cs) s = (.ok vResurrect, s')) :
    s'.mapNamePending = s.mapNamePending ∧
      vResurrect = (cs.flatMap (fun c =>
        ((c.view.disk.readIndexed c.env c.pindex.pindex).map CBlock.vtx).getD [])).filter
          (fun tx => !tx.isCoinBase) := by
  induction cs generalizing s vResurrect with
  | nil =>
    obtain ⟨rfl, rfl⟩ := pure_ok.mp h
    exact ⟨rfl, rfl⟩
  | cons c rest ih =>
    simp only [disconnectBranch, bind_ok, fromOption_ok, get_ok, fromExcept_ok, modify_ok,
      pure_ok] at h
    obtain ⟨block, s1, ⟨hread, rfl⟩, t, s2, ⟨rfl, rfl⟩, db, s3, ⟨-, rfl⟩, -, s4, rfl, more, s5,
      hrest, rfl, rfl⟩ := h
    obtain ⟨hpend, rfl⟩ := ih hrest
    refine ⟨hpend, ?_⟩
    rw [List.flatMap_cons, List.filter_append, hread]
    rfl

theorem connectBranch_ok {env : Env} {cs : List BlockCall} (henv : ∀ c ∈ cs, c.env = env)
    {s s' : ChainState} {vDelete : List CTransaction}
    (h : exec (connectBranch cs) s = (.ok vDelete, s')) :
    Sheds (txHashes env vDelete) s.mapNamePending s'.mapNamePending ∧
      vDelete = cs.flatMap (fun c =>
        ((c.view.disk.readIndexed c.env c.pindex.pindex).map CBlock.vtx).getD []) := by
  induction cs generalizing s vDelete with
  | nil =>
    obtain ⟨rfl, rfl⟩ := pure_ok.mp h
    exact ⟨Sheds.refl _ _, rfl⟩
  | cons c rest ih =>
    simp only [connectBranch, bind_ok, fromOption_ok, pure_ok] at h
    obtain ⟨block, s1, ⟨hread, rfl⟩, u, s2, hblock, more, s3, hrest, rfl, rfl⟩ := h
    obtain ⟨hsheds, rfl⟩ := ih (fun c' hc' => henv c' (List.mem_cons_of_mem _ hc')) hrest
    have hfirst := BlockCall.connectBlock_sheds hblock
    rw [henv c List.mem_cons_self] at hfirst
    constructor
    · rw [txHashes, List.map_append]
      exact hfirst.append hsheds
    · rw [List.flatMap_cons, hread]
      rfl

namespace NodeState

def branchTxs (e : NodeEnv) (s : NodeState) (bs : List Branch) : List CTransaction :=
  bs.flatMap (fun b => ((s.disk.readIndexed e.env b.pindex).map CBlock.vtx).getD [])

def vResurrect (e : NodeEnv) (s : NodeState) (b : CBlock) (pindexNew : CBlockIndex) :
    List CTransaction :=
  if s.pindexGenesisBlock = none ∧ b.getHash e.env = e.hashGenesisBlock then []
  else if b.hashPrevBlock = s.hashBestChain then []
  else
    match findFork (s.walk s.pindexBest) (s.longer pindexNew) with
    | .error _ => []
    | .ok pfork => (s.branchTxs e (s.vDisconnect pfork)).filter (fun tx => !tx.isCoinBase)

def vDelete (e : NodeEnv) (s : NodeState) (b : CBlock) (pindexNew : CBlockIndex) :
    List CTransaction :=
  if s.pindexGenesisBlock = none ∧ b.getHash e.env = e.hashGenesisBlock then []
  else if b.hashPrevBlock = s.hashBestChain then b.vtx
  else
    match findFork (s.walk s.pindexBest) (s.longer pindexNew) with
    | .error _ => []
    | .ok pfork => s.branchTxs e (s.vConnect pindexNew pfork)

theorem branchTxs_eq (e : NodeEnv) (s : NodeState) (bs : List Branch) :
    (bs.map (s.blockCall e)).flatMap (fun c =>
      ((c.view.disk.readIndexed c.env c.pindex.pindex).map CBlock.vtx).getD []) =
      s.branchTxs e bs := by
  rw [List.flatMap_map]
  rfl

end NodeState

theorem switchCall_ok {e : NodeEnv} {s : NodeState} {pindexNew pfork : CBlockIndex}
    {r : List CTransaction × List CTransaction} {c : ChainState}
    (h : exec (s.switchCall e pindexNew pfork) s.chain = (.ok r, c)) :
    r = ((s.branchTxs e (s.vDisconnect pfork)).filter (fun tx => !tx.isCoinBase),
        s.branchTxs e (s.vConnect pindexNew pfork)) ∧
      Sheds (txHashes e.env r.2) s.chain.mapNamePending c.mapNamePending := by
  simp only [NodeState.switchCall, switchBranch, bind_ok, writeBest, modify_ok, pure_ok] at h
  obtain ⟨vResurrect, s1, hd, vDelete, s2, hc, -, s3, rfl, rfl, rfl⟩ := h
  have henv : ∀ c ∈ (s.vConnect pindexNew pfork).map (s.blockCall e), c.env = e.env := by
    intro c hmem
    obtain ⟨b, -, rfl⟩ := List.mem_map.mp hmem
    rfl
  obtain ⟨hpend, hres⟩ := disconnectBranch_ok hd
  obtain ⟨hsheds, hdel⟩ := connectBranch_ok henv hc
  rw [NodeState.branchTxs_eq] at hres hdel
  rw [hpend] at hsheds
  exact ⟨by rw [hres, hdel], hsheds⟩

structure Settles (e : NodeEnv) (b : CBlock) (pindexNew : CBlockIndex) (s s' : NodeState) :
    Prop where
  done : ∃ s1, PoolAlike s1 s ∧
    Sheds (txHashes e.env (s.vDelete e b pindexNew)) s.chain.mapNamePending
      s1.chain.mapNamePending ∧
    s' = ((s1.resurrect e (s.vResurrect e b pindexNew)).removeAll e.env
      (s.vDelete e b pindexNew)).newBest pindexNew (b.getHash e.env)

theorem setBestChain_cases (e : NodeEnv) (b : CBlock) (pindexNew : CBlockIndex) (s : NodeState) :
    (∃ fault s', exec (setBestChain e b pindexNew) s = (.error fault, s') ∧ PoolAlike s' s) ∨
    ∃ s', exec (setBestChain e b pindexNew) s = (.ok (), s') ∧ Settles e b pindexNew s s' := by
  by_cases hgen : s.pindexGenesisBlock = none ∧ b.getHash e.env = e.hashGenesisBlock
  · refine .inr ⟨((s.becomeGenesis (b.getHash e.env)).newBest pindexNew (b.getHash e.env)), ?_,
      s.becomeGenesis (b.getHash e.env), ⟨rfl, rfl, rfl, rfl⟩, Sheds.refl _ _, ?_⟩
    · unfold setBestChain moveChain
      rw [bind_assoc, exec_get_bind, if_pos hgen]
      rfl
    · simp only [NodeState.vResurrect, NodeState.vDelete, if_pos hgen]
      rfl
  · unfold setBestChain
    rcases hx : exec (moveChain e b pindexNew) s with ⟨r, s'⟩
    have hmove := moveChain_moved e b pindexNew s
    rw [hx] at hmove
    cases hmove with
    | genesis hnone hhash => exact absurd ⟨hnone, hhash⟩ hgen
    | extendFails hprev hfail =>
      rw [exec_bind_error hx]
      exact .inl ⟨_, _, rfl, rfl, rfl, rfl, rfl⟩
    | @extended hprev c hok =>
      rw [exec_bind_ok hx]
      have hdelete : s.vDelete e b pindexNew = b.vtx := by
        rw [NodeState.vDelete, if_neg hgen, if_pos hprev]
      have hres : s.vResurrect e b pindexNew = [] := by
        rw [NodeState.vResurrect, if_neg hgen, if_pos hprev]
      refine .inr ⟨_, exec_modify _ _,
        (s.commitTxn c).linkNext pindexNew (some pindexNew.hashBlock), ⟨rfl, rfl, rfl, rfl⟩, ?_, ?_⟩
      · rw [hdelete]
        exact extendChain_sheds hok
      · rw [hdelete, hres]
        rfl
    | noFork hprev hf =>
      rw [exec_bind_error hx]
      exact .inl ⟨_, _, rfl, rfl, rfl, rfl, rfl⟩
    | switchFails hprev hf hfail =>
      rw [exec_bind_error hx]
      exact .inl ⟨_, _, rfl, rfl, rfl, rfl, rfl⟩
    | @switched hprev pfork r c hf hok =>
      rw [exec_bind_ok hx]
      obtain ⟨rfl, hsheds⟩ := switchCall_ok hok
      have hdelete : s.vDelete e b pindexNew = s.branchTxs e (s.vConnect pindexNew pfork) := by
        rw [NodeState.vDelete, if_neg hgen, if_neg hprev, hf]
      have hres : s.vResurrect e b pindexNew =
          (s.branchTxs e (s.vDisconnect pfork)).filter (fun tx => !tx.isCoinBase) := by
        rw [NodeState.vResurrect, if_neg hgen, if_neg hprev, hf]
      refine .inr ⟨_, exec_modify _ _, relink (s.vDisconnect pfork) (s.vConnect pindexNew pfork)
        (s.commitTxn c), ?_, ?_, ?_⟩
      · rw [relink_eq]
        exact ⟨rfl, rfl, rfl, rfl⟩
      · rw [relink_eq, hdelete]
        exact hsheds
      · rw [hdelete, hres]

end Namecoin
