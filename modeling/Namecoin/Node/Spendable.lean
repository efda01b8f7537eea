import Namecoin.Node.PoolInputs
import Namecoin.Node.Replay
import Namecoin.Node.Rollback
import Namecoin.Node.SpendMap

namespace Namecoin

open Act

structure Spendable (env : Env) (s : NodeState) (p : COutPoint) : Prop where
  existing : (∃ txindex, s.chain.dbset.tx p.hash = some txindex ∧ p.n < txindex.getOutputCount) ∨
    ∃ txPrev, s.mapTransactions p.hash = some txPrev ∧ p.n < txPrev.vout.length
  unspent : ∀ h pindex b, s.mapBlockIndex h = some pindex → isInMainChain s pindex →
    s.disk.readIndexed env pindex = some b → ∀ tx ∈ b.vtx, p ∉ tx.spentPoints

def PoolSpendable (env : Env) (s : NodeState) : Prop :=
  ∀ k tx, s.mapTransactions k = some tx → ∀ p ∈ prevouts tx.vin, Spendable env s p

inductive InputAct where
  | accept (e : NodeEnv) (tx : CTransaction) (fLimitFree fRateLimited : Bool)
  | block (e : NodeEnv) (b : CBlock)

namespace InputAct

def env : InputAct → Env
  | accept e _ _ _ => e.env
  | block e _ => e.env

def run : InputAct → NodeState → NodeState
  | accept e tx fLimitFree fRateLimited, s =>
    (exec (acceptToMemoryPool e tx true fLimitFree fRateLimited) s).2
  | block e b, s => (exec (acceptBlock e b) s).2

def Writes : InputAct → Prop
  | accept _ _ _ _ => True
  | block e _ => e.Appends

end InputAct

structure SameInputs (s s' : NodeState) : Prop where
  tree : s'.tree = s.tree
  disk : s'.disk = s.disk
  index : s'.chain.dbset.tx = s.chain.dbset.tx
  pool : s'.mapTransactions = s.mapTransactions

inductive InputStep (env : Env) (G : NodeState → InputAct → Prop) : NodeState → NodeState → Prop
  | act {s : NodeState} (a : InputAct) (henv : a.env = env) (hwrites : a.Writes) (hG : G s a) :
      InputStep env G s (a.run s)
  | elsewhere {s s' : NodeState} (h : SameInputs s s') : InputStep env G s s'

theorem InputStep.mono {env : Env} {G G' : NodeState → InputAct → Prop} {s s' : NodeState}
    (h : InputStep env G s s') (hle : ∀ s a, G s a → G' s a) : InputStep env G' s s' := by
  cases h with
  | act a henv hwrites hG => exact .act a henv hwrites (hle _ a hG)
  | elsewhere h => exact .elsewhere h

namespace NodeState

def poolRestored (e : NodeEnv) (s : NodeState) (b : CBlock) (pindexNew : CBlockIndex) :
    Uint256 → Option CTransaction :=
  (s.resurrect e (s.vResurrect e b pindexNew)).mapTransactions

def withBlock (s : NodeState) (b : CBlock) (pos : Nat × Nat) : NodeState :=
  { s with disk := s.disk.writeToDisk pos.1 pos.2 b }

def newIndex (e : NodeEnv) (s : NodeState) (b : CBlock) (pos : Nat × Nat) : CBlockIndex :=
  newBlockIndex e.env (s.withBlock b pos) b pos.1 pos.2

def withIndex (e : NodeEnv) (s : NodeState) (b : CBlock) (pos : Nat × Nat) : NodeState :=
  insertBlockIndex (s.newIndex e b pos) (s.withBlock b pos)

end NodeState

-- What the blocks of the new branch must leave alone, and what the old branch must give back.
structure KeepsInputs (e : NodeEnv) (b : CBlock) (pindexNew : CBlockIndex) (s : NodeState) :
    Prop where
  copies : NoCopies e s b pindexNew
  twins : ∀ a ∈ s.vDelete e b pindexNew, ∀ tx, tx ∈ s.vUndone e b pindexNew ∨
    s.mapTransactions (a.getHash e.env) = some tx → tx.getHash e.env = a.getHash e.env → tx = a
  unspent : ∀ k tx, s.poolRestored e b pindexNew k = some tx →
    k ∉ txHashes e.env (s.vDelete e b pindexNew) → ∀ p ∈ prevouts tx.vin,
      ∀ a ∈ s.vDelete e b pindexNew, p ∉ a.spentPoints
  returned : ∀ k tx, s.poolRestored e b pindexNew k = some tx →
    k ∉ txHashes e.env (s.vDelete e b pindexNew) → ∀ p ∈ prevouts tx.vin,
      p.hash ∈ txHashes e.env (s.vUndone e b pindexNew) →
        p.hash ∈ txHashes e.env (s.vDelete e b pindexNew) ∨
          ∃ r ∈ s.vUndone e b pindexNew, r.getHash e.env = p.hash ∧
            s.poolRestored e b pindexNew p.hash = some r

def InputsKept (s : NodeState) : InputAct → Prop
  | .accept _ _ _ _ => True
  | .block e b => (exec (acceptBlock e b) s).1 = .ok () → ∀ pos, e.writeToDisk s b = some pos →
      s.bnBestChainWork < (s.newIndex e b pos).bnChainWork →
        KeepsInputs e b (s.newIndex e b pos) (s.withIndex e b pos)

def Backed (env : Env) (s : NodeState) (p : COutPoint) : Prop :=
  Coins.Backed (coinIndex env s.chain.dbset.tx) s.mapTransactions p

section Inputs

variable {c : TxCall} {s s' : ConnState}

def TxCall.Backs (c : TxCall) (t : TxMap) (p : COutPoint) : Prop :=
  spentFlag t p = some false ∨
    t p.hash = none ∧ ∃ txPrev, c.view.mapTransactions p.hash = some txPrev ∧ p.n < txPrev.vout.length

theorem connectInput_backs (hm : c.fMiner = false) {i : Nat}
    {txin : CTxIn} {nValueIn : Int} {r : CTransaction × CTxIndex × Int}
    (hfresh : (s.vin.getD i CTxInCache.empty).txPrev = none)
    (h : exec (c.connectInput i txin nValueIn) s = (.ok r, s')) :
    c.Backs s.dbset.tx txin.prevout := by
  simp only [TxCall.connectInput, bind_ok, get_ok, raiseIf_ok, fromExcept_ok] at h
  obtain ⟨_, _, ⟨rfl, rfl⟩, -, _, ⟨-, rfl⟩, -, _, ⟨hcount, rfl⟩, txPrev, s₁, hfetch, -, _,
    ⟨hvout, rfl⟩, -, s₂, -, -, _, ⟨-, rfl⟩, -, _, ⟨hspent, rfl⟩, -⟩ := h
  rw [c.readTxIndex_pool hm] at hcount hfetch hspent
  obtain ⟨hread, -⟩ := TxCall.fetchPrev_ok hfresh hfetch
  cases ht : s.dbset.tx txin.prevout.hash with
  | some txindex =>
    rw [ht, Option.getD_some] at hcount hspent
    have hin : txin.prevout.n < txindex.isSpent.length := by
      simpa [CTxIndex.getOutputCount] using hcount
    refine .inl ?_
    rw [spentFlag, ht, Option.bind_some]
    rw [List.getElem?_eq_getElem hin] at hspent ⊢
    simpa using hspent
  | none =>
    rw [ht, Option.isSome_none] at hread
    refine .inr ⟨ht, txPrev, ?_, by omega⟩
    rcases TxCall.readPrev_ok.mp hread with ⟨-, hpool⟩ | ⟨hfound, -⟩
    · exact hpool
    · cases hfound.1

theorem connectVin_backs (hb : c.fBlock = false) (hm : c.fMiner = false) {vin : List CTxIn}
    {i : Nat} {nValueIn : Int} {r : List (CTransaction × CTxIndex) × Int}
    (hfresh : ∀ j, i ≤ j → (s.vin.getD j CTxInCache.empty).txPrev = none)
    (h : exec (c.connectVin vin i nValueIn) s = (.ok r, s')) :
    ∀ p ∈ prevouts vin, c.Backs s.dbset.tx p := by
  induction vin generalizing s s' i nValueIn r with
  | nil => simp [prevouts]
  | cons txin rest ih =>
    rw [TxCall.connectVin, bind_ok] at h
    obtain ⟨first, s₁, hfirst, h⟩ := h
    rw [bind_ok] at h
    obtain ⟨more, s₂, hrest, -⟩ := h
    have honly := TxCall.connectInput_onlyInput_ok hb hm hfirst
    have hlater := ih (fun j (hj : i + 1 ≤ j) => by
      rw [honly.others j (by omega)]
      exact hfresh j (by omega)) hrest
    rw [honly.dbset] at hlater
    rw [prevouts, List.map_cons]
    exact List.forall_mem_cons.mpr
      ⟨connectInput_backs hm (hfresh i (le_refl i)) hfirst, hlater⟩

end Inputs

section Accept

variable {e : NodeEnv} {tx : CTransaction} {fLimitFree fRateLimited : Bool} {s s' : NodeState}

theorem acceptToMemoryPool_ok {fCheckInputs : Bool}
    (h : exec (acceptToMemoryPool e tx fCheckInputs fLimitFree fRateLimited) s = (.ok (), s')) :
    checkPoolTx e tx fCheckInputs s = .ok () ∧
      Except.doIf fCheckInputs (checkPoolInputs e tx fLimitFree fRateLimited s) = .ok () ∧
      ∃ s₁, exec (hookAcceptToMemoryPool e.env tx) s = (.ok (), s₁) := by
  simp only [acceptToMemoryPool, bind_ok, get_ok, fromExcept_ok] at h
  obtain ⟨_, _, ⟨rfl, rfl⟩, _, _, ⟨hcheck, rfl⟩, _, _, ⟨hinputs, rfl⟩, _, s₁, hhook, -⟩ := h
  exact ⟨hcheck, hinputs, s₁, hhook⟩

theorem checkPoolTx_loose {fCheckInputs : Bool} {u : Unit}
    (h : checkPoolTx e tx fCheckInputs s = .ok u) : tx.isCoinBase = false := by
  simp only [checkPoolTx, Except.bind_eq_ok, Except.raiseIf_eq_ok] at h
  obtain ⟨_, -, _, hloose, -⟩ := h
  simpa using hloose

theorem checkPoolInputs_backed {u : Unit} (hloose : tx.isCoinBase = false)
    (h : checkPoolInputs e tx fLimitFree fRateLimited s = .ok u) :
    ∀ p ∈ prevouts tx.vin, Backed e.env s p := by
  unfold checkPoolInputs at h
  split at h
  · cases h
  · rename_i pindexBest hbest
    dsimp only at h
    rw [Except.bind_eq_ok] at h
    obtain ⟨u₁, hrun, -⟩ := h
    have hok := exec_eta hrun
    unfold TxCall.connectInputs at hok
    rw [bind_ok] at hok
    obtain ⟨u₂, s₁, hspend, -⟩ := hok
    rw [doIf, if_pos (show (poolCall e s pindexBest tx).tx.isCoinBase = false from hloose),
      TxCall.spendInputs, bind_ok] at hspend
    obtain ⟨rs, s₂, hvin, -⟩ := hspend
    have hbacks := connectVin_backs rfl rfl (fun j _ => by
      by_cases hj : j < tx.vin.length <;> simp [hj, CTxInCache.empty]) hvin
    intro p hp
    rcases hbacks p hp with hflag | ⟨hnone, txPrev, hpool, hout⟩
    · exact .inl hflag
    · exact .inr ⟨not_not.mpr hnone, txPrev, hpool, hout⟩

end Accept

structure PoolSound (env : Env) (s : NodeState) : Prop where
  named : ∀ k tx, s.mapTransactions k = some tx → tx.getHash env = k
  loose : ∀ k tx, s.mapTransactions k = some tx → tx.isCoinBase = false
  backed : Coins.PoolOk (coinIndex env s.chain.dbset.tx) s.mapTransactions

namespace PoolSound

variable {e : NodeEnv} {s s' : NodeState} {tx : CTransaction}

theorem congr {env : Env} (h : PoolSound env s) (hpool : s'.mapTransactions = s.mapTransactions)
    (hindex : s'.chain.dbset.tx = s.chain.dbset.tx) : PoolSound env s' := by
  constructor
  · rw [hpool]
    exact h.named
  · rw [hpool]
    exact h.loose
  · rw [hpool, hindex]
    exact h.backed

theorem accept (h : PoolSound e.env s) (tx : CTransaction) (fLimitFree fRateLimited : Bool) :
    PoolSound e.env (exec (acceptToMemoryPool e tx true fLimitFree fRateLimited) s).2 := by
  rcases acceptToMemoryPool_cases e tx true fLimitFree fRateLimited s with
    ⟨fault, hx⟩ | ⟨s', hx, hadmits⟩
  · rw [hx]
    exact h
  · obtain ⟨hcheck, hinputs, -⟩ := acceptToMemoryPool_ok hx
    have hloose := checkPoolTx_loose hcheck
    have hback := checkPoolInputs_backed hloose (Except.doIf_eq_ok.mp hinputs rfl)
    have hindex : s'.chain.dbset = s.chain.dbset := by
      have honly := acceptToMemoryPool_poolOnly e tx true fLimitFree fRateLimited s
      rw [hx] at honly
      exact honly.dbset
    rw [hx]
    constructor
    · intro k a hk
      rw [hadmits.transactions] at hk
      rcases eq_or_ne k (tx.getHash e.env) with rfl | hne
      · rw [Function.update_self] at hk
        rw [← Option.some.inj hk]
      · rw [Function.update_of_ne hne] at hk
        exact h.named k a hk
    · intro k a hk
      rw [hadmits.transactions] at hk
      rcases eq_or_ne k (tx.getHash e.env) with rfl | hne
      · rw [Function.update_self] at hk
        rw [← Option.some.inj hk]
        exact hloose
      · rw [Function.update_of_ne hne] at hk
        exact h.loose k a hk
    · dsimp only
      rw [hadmits.transactions, hindex]
      refine @Coins.PoolOk.insert _ _ _ (coinKind e.env) _ _ _ tx h.backed hadmits.unpooled
        (fun o ho => ?_)
      have ho' : o ∈ tx.spentPoints := ho
      rw [CTransaction.spentPoints_of_not hloose] at ho'
      exact hback o ho'

end PoolSound

structure Restores (env : Env) (txs : List CTransaction) (s s' : NodeState) : Prop where
  keeps : ∀ k tx, s.mapTransactions k = some tx → s'.mapTransactions k = some tx
  origin : ∀ k tx, s'.mapTransactions k = some tx →
    s.mapTransactions k = some tx ∨ tx ∈ txs ∧ tx.getHash env = k

theorem resurrect_restores (e : NodeEnv) (txs : List CTransaction) (s : NodeState) :
    Restores e.env txs s (s.resurrect e txs) := by
  induction txs generalizing s with
  | nil => exact ⟨fun _ _ h => h, fun _ _ h => .inl h⟩
  | cons tx rest ih =>
    have hrest := ih (exec (acceptToMemoryPool e tx false true false) s).2
    have hstep : s.resurrect e (tx :: rest) =
        (exec (acceptToMemoryPool e tx false true false) s).2.resurrect e rest := rfl
    rw [hstep]
    rcases acceptToMemoryPool_cases e tx false true false s with ⟨fault, hx⟩ | ⟨s', hx, hadmits⟩
    · rw [hx] at hrest ⊢
      refine ⟨hrest.keeps, fun k a hk => ?_⟩
      exact (hrest.origin k a hk).imp_right fun h => ⟨List.mem_cons_of_mem _ h.1, h.2⟩
    · rw [hx] at hrest ⊢
      constructor
      · intro k a hk
        refine hrest.keeps k a ?_
        rw [hadmits.transactions, Function.update_of_ne, hk]
        rintro rfl
        rw [hadmits.unpooled] at hk
        cases hk
      · intro k a hk
        rcases hrest.origin k a hk with hmid | ⟨hmem, hname⟩
        · rw [hadmits.transactions] at hmid
          rcases eq_or_ne k (tx.getHash e.env) with rfl | hne
          · rw [Function.update_self] at hmid
            obtain rfl := Option.some.inj hmid
            exact .inr ⟨List.mem_cons_self, rfl⟩
          · rw [Function.update_of_ne hne] at hmid
            exact .inl hmid
        · exact .inr ⟨List.mem_cons_of_mem _ hmem, hname⟩

theorem CTransaction.spentPoints_subset {tx : CTransaction} {p : COutPoint}
    (hp : p ∈ tx.spentPoints) : p ∈ prevouts tx.vin := by
  unfold spentPoints at hp
  split at hp
  · cases hp
  · exact hp

structure InputsOk (env : Env) (genesis : Uint256) (s : NodeState) (best : Uint256) : Prop where
  tree : TreeOk s.tree genesis best
  built : Built env s.mapBlockIndex s.disk best s.chain.dbset.tx
  sound : PoolSound env s

theorem InputsOk.congr {env : Env} {genesis best : Uint256} {s s' : NodeState}
    (h : InputsOk env genesis s best) (hsame : SameInputs s s') :
    InputsOk env genesis s' best := by
  have hmap : s'.mapBlockIndex = s.mapBlockIndex := congrArg TreeView.mapBlockIndex hsame.tree
  refine ⟨?_, ?_, h.sound.congr hsame.pool hsame.index⟩
  · rw [hsame.tree]
    exact h.tree
  · rw [hmap, hsame.disk, hsame.index]
    exact h.built

section Best

variable {e : NodeEnv} {s s' : NodeState} {b : CBlock} {genesis best : Uint256}
  {pindexNew : CBlockIndex}

theorem Moved.same {fault : Fault} (h : Moved e b pindexNew s (.error fault, s')) :
    SameInputs s s' := by
  cases h with
  | extendFails _ _ | noFork _ _ | switchFails _ _ _ => exact ⟨rfl, rfl, rfl, rfl⟩

theorem Moved.disk {r : Except Fault Unit × NodeState} (h : Moved e b pindexNew s r) :
    r.2.disk = s.disk := by
  cases h with
  | genesis _ _ | extendFails _ _ | noFork _ _ | switchFails _ _ _ => rfl
  | extended _ _ => exact (removeAll_poolOnly _ _ _).disk
  | @switched _ pfork r c _ _ =>
    have hpool : PoolOnly (relink (s.vDisconnect pfork) (s.vConnect pindexNew pfork)
        (s.commitTxn c)) _ := (resurrect_poolOnly e r.1 _).trans (removeAll_poolOnly e.env r.2 _)
    rw [relink_eq] at hpool ⊢
    exact hpool.disk

theorem TreeOk.adopted (hok : TreeOk s.tree genesis best)
    (hhash : b.getHash e.env = pindexNew.hashBlock)
    (hnew : s.mapBlockIndex pindexNew.hashBlock = some pindexNew)
    (hprev : pindexNew.pprev = some b.hashPrevBlock)
    (hrun : exec (Namecoin.setBestChain e b pindexNew) s = (.ok (), s')) :
    TreeOk s'.tree genesis pindexNew.hashBlock ∧ SameTree s.mapBlockIndex s'.mapBlockIndex ∧
      s'.disk = s.disk := by
  have htree := hok.setBestChain hhash hnew hprev
  rw [hrun] at htree
  unfold Namecoin.setBestChain at hrun
  rcases hx : exec (moveChain e b pindexNew) s with ⟨r, s₁⟩
  have hmove := moveChain_moved e b pindexNew s
  rw [hx] at hmove
  rcases hok.moved hnew hprev hmove with ⟨fault, rfl, -⟩ | ⟨m, rfl, ht, hsame, -⟩
  · rw [exec_bind_error hx] at hrun
    cases hrun
  · rw [exec_bind_ok hx, exec_modify] at hrun
    obtain rfl := (Prod.mk.inj hrun).2
    have hmap : s₁.mapBlockIndex = m := congrArg TreeView.mapBlockIndex ht
    rw [← hmap] at hsame
    refine ⟨?_, hsame, hmove.disk⟩
    rcases htree with heq | htree
    · have hpoint : s.pindexBest = some pindexNew.hashBlock := by
        have hbest : some (b.getHash e.env) = s.pindexBest := congrArg TreeView.pindexBest heq
        rw [← hbest, hhash]
      obtain rfl : best = pindexNew.hashBlock := Option.some.inj (hok.isBest.symm.trans hpoint)
      exact heq ▸ hok
    · exact htree.1

theorem Settles.pool (h : Settles e b pindexNew s s') (k : Uint256) : s'.mapTransactions k =
    if k ∈ txHashes e.env (s.vDelete e b pindexNew) then none
    else s.poolRestored e b pindexNew k := by
  obtain ⟨s₁, halike, -, rfl⟩ := h.done
  have hremoved := (removeAll_removes e.env (s.vDelete e b pindexNew)
    (s₁.resurrect e (s.vResurrect e b pindexNew))).transactions k
  rw [(halike.resurrect e (s.vResurrect e b pindexNew)).transactions] at hremoved
  exact hremoved

theorem KeepsInputs.switch (h : KeepsInputs e b pindexNew s) (hsound : PoolSound e.env s)
    (hsettles : Settles e b pindexNew s s') {old : List CTransaction} {t₀ : TxMap}
    (hperm : old.Perm (s.vUndone e b pindexNew)) :
    Coins.Switch (coinIndex e.env t₀) old (s.vDelete e b pindexNew) s.mapTransactions
      s'.mapTransactions := by
  have hrestores := resurrect_restores e (s.vResurrect e b pindexNew) s
  have hleft : ∀ k tx, s'.mapTransactions k = some tx →
      k ∉ txHashes e.env (s.vDelete e b pindexNew) ∧
        s.poolRestored e b pindexNew k = some tx := by
    intro k tx hk
    rw [hsettles.pool] at hk
    split at hk
    · cases hk
    · rename_i hnot
      exact ⟨hnot, hk⟩
  have hstays : ∀ k tx, s.poolRestored e b pindexNew k = some tx →
      k ∉ txHashes e.env (s.vDelete e b pindexNew) → s'.mapTransactions k = some tx := by
    intro k tx hk hnot
    rw [hsettles.pool, if_neg hnot]
    exact hk
  constructor
  · exact hsound.named
  · intro k tx hk
    exact (hleft k tx hk).1
  · intro k tx hk
    refine (hrestores.origin k tx (hleft k tx hk).2).imp_right fun hin => ?_
    have hmem := hin.1
    rw [NodeState.vResurrect_eq] at hmem
    exact hperm.mem_iff.mpr (List.mem_filter.mp hmem).1
  · intro k tx hk hnot
    exact hstays k tx (hrestores.keeps k tx hk) hnot
  · intro a ha tx hor hname
    exact h.twins a ha tx (hor.imp_left hperm.mem_iff.mp) hname
  · intro k tx hk p hp
    obtain ⟨hnot, hk'⟩ := hleft k tx hk
    exact h.unspent k tx hk' hnot p (CTransaction.spentPoints_subset hp)
  · intro k tx hk p hp hin
    obtain ⟨hnot, hk'⟩ := hleft k tx hk
    have hin' : p.hash ∈ txHashes e.env (s.vUndone e b pindexNew) := (hperm.map _).mem_iff.mp hin
    by_cases hagain : p.hash ∈ txHashes e.env (s.vDelete e b pindexNew)
    · exact .inl hagain
    · have hback := h.returned k tx hk' hnot p (CTransaction.spentPoints_subset hp) hin'
      obtain ⟨r, hr, hname, hpool⟩ := hback.resolve_left hagain
      exact .inr ⟨r, hperm.mem_iff.mpr hr, hname, hstays _ r hpool hagain⟩

theorem PoolSound.adopt (h : PoolSound e.env s) (hsettles : Settles e b pindexNew s s')
    (hkeeps : KeepsInputs e b pindexNew s) (hreplays : Replays e b pindexNew s s'.chain.dbset.tx) :
    PoolSound e.env s' := by
  have hrestores := resurrect_restores e (s.vResurrect e b pindexNew) s
  have horigin : ∀ k tx, s'.mapTransactions k = some tx → s.mapTransactions k = some tx ∨
      tx ∈ s.vResurrect e b pindexNew ∧ tx.getHash e.env = k := by
    intro k tx hk
    rw [hsettles.pool] at hk
    split at hk
    · cases hk
    · exact hrestores.origin k tx hk
  constructor
  · intro k tx hk
    rcases horigin k tx hk with hbefore | ⟨-, hname⟩
    · exact h.named k tx hbefore
    · exact hname
  · intro k tx hk
    rcases horigin k tx hk with hbefore | ⟨hmem, -⟩
    · exact h.loose k tx hbefore
    · rw [NodeState.vResurrect_eq, List.mem_filter] at hmem
      simpa using hmem.2
  · obtain ⟨t₀, old, hold, hperm, hnew⟩ := hreplays.moved
    exact h.backed.switch (hkeeps.switch h hsettles hperm) hold.run hnew.run

theorem InputsOk.setBestChain (h : InputsOk e.env genesis s best)
    (hhash : b.getHash e.env = pindexNew.hashBlock)
    (hnew : s.mapBlockIndex pindexNew.hashBlock = some pindexNew)
    (hprev : pindexNew.pprev = some b.hashPrevBlock)
    (hstored : s.disk.readIndexed e.env pindexNew = some b)
    (hkeeps : (exec (setBestChain e b pindexNew) s).1 = .ok () → KeepsInputs e b pindexNew s) :
    ∃ best', InputsOk e.env genesis (exec (setBestChain e b pindexNew) s).2 best' := by
  rcases setBestChain_cases e b pindexNew s with ⟨fault, s', hx, -⟩ | ⟨s', hx, hsettles⟩
  · rw [hx]
    exact ⟨best, h.congr (setBestChain_failed hx).same⟩
  · rw [hx] at hkeeps ⊢
    have hguard := hkeeps rfl
    obtain ⟨htree, hsame, hdisk⟩ := h.tree.adopted hhash hnew hprev hx
    have hreplays := setBestChain_replays h.tree h.built hnew hprev hstored hguard.copies hx
    refine ⟨pindexNew.hashBlock, htree, ?_, h.sound.adopt hsettles hguard hreplays⟩
    refine hreplays.built.grow hsame.grows ?_
    rw [hdisk]
    exact fun _ _ _ hread => hread

end Best

section Block

variable {e : NodeEnv} {s s' : NodeState} {b : CBlock} {genesis best : Uint256} {pos : Nat × Nat}

structure Files (e : NodeEnv) (s : NodeState) (b : CBlock) (pos : Nat × Nat) : Prop where
  fresh : s.mapBlockIndex (b.getHash e.env) = none
  prev : (s.mapBlockIndex b.hashPrevBlock).isSome
  written : e.writeToDisk s b = some pos

theorem addToBlockIndex_fresh (hfresh : s.mapBlockIndex (b.getHash e.env) = none)
    (nFile nBlockPos : Nat) : exec (addToBlockIndex e b nFile nBlockPos) s =
      exec (doIf (s.bnBestChainWork < (newBlockIndex e.env s b nFile nBlockPos).bnChainWork)
        (setBestChain e b (newBlockIndex e.env s b nFile nBlockPos)))
          (insertBlockIndex (newBlockIndex e.env s b nFile nBlockPos) s) := by
  unfold addToBlockIndex
  rw [exec_get_bind, exec_bind_ok (show exec _ s = (.ok (), s) by
    rw [raiseIf, if_neg (by simp [hfresh])]; rfl)]
  exact exec_modify_bind _ _ _

theorem acceptBlock_cases (e : NodeEnv) (b : CBlock) (s : NodeState) :
    (∃ fault, exec (acceptBlock e b) s = (.error fault, s)) ∨
    ∃ pos, Files e s b pos ∧ exec (acceptBlock e b) s =
      exec (doIf (s.bnBestChainWork < (s.newIndex e b pos).bnChainWork)
        (setBestChain e b (s.newIndex e b pos))) (s.withIndex e b pos) := by
  unfold acceptBlock
  rw [exec_get_bind]
  by_cases hfresh : (s.mapBlockIndex (b.getHash e.env)).isSome
  · exact .inl ⟨_, exec_bind_error (by rw [raiseIf, if_pos hfresh]; rfl)⟩
  rw [exec_bind_ok (show exec _ s = (.ok (), s) by rw [raiseIf, if_neg hfresh]; rfl)]
  cases hprev : s.mapBlockIndex b.hashPrevBlock with
  | none => exact .inl ⟨_, exec_bind_error rfl⟩
  | some pindexPrev =>
    rw [exec_bind_ok (show exec (fromOption _ (some pindexPrev)) s = (.ok pindexPrev, s) from rfl)]
    cases hcheck : checkAccept e s b pindexPrev with
    | error fault => exact .inl ⟨_, exec_bind_error rfl⟩
    | ok u =>
      rw [exec_bind_ok (show exec (fromExcept (.ok u)) s = (.ok u, s) from rfl)]
      cases hpos : e.writeToDisk s b with
      | none => exact .inl ⟨_, exec_bind_error rfl⟩
      | some pos =>
        have hnone : s.mapBlockIndex (b.getHash e.env) = none := by simpa using hfresh
        refine .inr ⟨pos, ⟨hnone, by simp [hprev], hpos⟩, ?_⟩
        rw [exec_bind_ok (show exec (fromOption _ (some pos)) s = (.ok pos, s) from rfl),
          exec_modify_bind]
        exact @addToBlockIndex_fresh e (s.withBlock b pos) b hnone pos.1 pos.2

theorem InputsOk.insert (h : InputsOk e.env genesis s best) (happends : e.Appends)
    (hfiles : Files e s b pos) : InputsOk e.env genesis (s.withIndex e b pos) best := by
  obtain ⟨hfresh, hprev, hpos⟩ := hfiles
  obtain ⟨pprev, hpprev⟩ := Option.isSome_iff_exists.mp hprev
  have hlink : (s.newIndex e b pos).pprev = some b.hashPrevBlock := by
    simp [NodeState.newIndex, newBlockIndex, NodeState.withBlock, hpprev]
  have hroot := @Rooted.insert s.mapBlockIndex genesis h.tree.rooted (s.newIndex e b pos) pprev
    b.hashPrevBlock hfresh hpprev hlink
    (by simp [NodeState.newIndex, newBlockIndex, NodeState.withBlock, hpprev])
    (by simp [NodeState.newIndex, newBlockIndex, NodeState.withBlock, hpprev])
  have hkeeps := writeToDisk_keeps (happends s b pos.1 pos.2 hpos) b
  exact ⟨h.tree.insert hfresh rfl hroot, h.built.grow (grows_insert hfresh) hkeeps,
    h.sound.congr rfl rfl⟩

theorem InputsOk.acceptBlock (h : InputsOk e.env genesis s best) (happends : e.Appends)
    (hguard : InputsKept s (.block e b)) :
    ∃ best', InputsOk e.env genesis (exec (acceptBlock e b) s).2 best' := by
  rcases acceptBlock_cases e b s with ⟨fault, hx⟩ | ⟨pos, hfiles, hx⟩
  · rw [hx]
    exact ⟨best, h⟩
  · have hguard' : (exec (Namecoin.acceptBlock e b) s).1 = .ok () → ∀ pos,
        e.writeToDisk s b = some pos → s.bnBestChainWork < (s.newIndex e b pos).bnChainWork →
          KeepsInputs e b (s.newIndex e b pos) (s.withIndex e b pos) := hguard
    have hins := h.insert happends hfiles
    rw [hx] at hguard' ⊢
    unfold doIf at hguard' ⊢
    split
    · rename_i hmore
      rw [if_pos hmore] at hguard'
      obtain ⟨pprev, hpprev⟩ := Option.isSome_iff_exists.mp hfiles.prev
      refine hins.setBestChain rfl (Function.update_self _ _ _) ?_ ?_ fun hok =>
        hguard' hok pos hfiles.written hmore
      · simp [NodeState.newIndex, newBlockIndex, NodeState.withBlock, hpprev]
      · refine Option.filter_eq_some_iff.mpr ⟨?_, ?_⟩
        · show (s.disk.writeToDisk pos.1 pos.2 b).readBlock pos.1 pos.2 = some b
          simp [Disk.writeToDisk]
        · simp [NodeState.newIndex, newBlockIndex]
    · exact ⟨best, hins⟩

theorem InputsOk.accept (h : InputsOk e.env genesis s best) (tx : CTransaction)
    (fLimitFree fRateLimited : Bool) : InputsOk e.env genesis
      (exec (acceptToMemoryPool e tx true fLimitFree fRateLimited) s).2 best := by
  have honly := acceptToMemoryPool_poolOnly e tx true fLimitFree fRateLimited s
  have hmap : (exec (acceptToMemoryPool e tx true fLimitFree fRateLimited) s).2.mapBlockIndex =
      s.mapBlockIndex := congrArg TreeView.mapBlockIndex honly.tree
  refine ⟨?_, ?_, h.sound.accept tx fLimitFree fRateLimited⟩
  · rw [honly.tree]
    exact h.tree
  · rw [hmap, honly.disk, honly.dbset]
    exact h.built

theorem InputStep.ok {env : Env} (h : InputStep env InputsKept s s')
    (hok : ∃ best, InputsOk env genesis s best) : ∃ best, InputsOk env genesis s' best := by
  obtain ⟨best, hok⟩ := hok
  cases h with
  | elsewhere hsame => exact ⟨best, hok.congr hsame⟩
  | act a henv hwrites hG =>
    subst henv
    cases a with
    | accept e tx fLimitFree fRateLimited => exact ⟨best, hok.accept tx fLimitFree fRateLimited⟩
    | block e b => exact hok.acceptBlock hwrites hG

end Block

def PlainGenesis (env : Env) (hashGenesisBlock : Uint256) (s : NodeState) : Prop :=
  ∀ pindex b, s.mapBlockIndex hashGenesisBlock = some pindex →
    s.disk.readIndexed env pindex = some b → ∀ tx ∈ b.vtx, tx.isCoinBase = true

section Runs

variable {env : Env} {hashGenesisBlock best : Uint256} {s0 s : NodeState}

theorem Started.stored (h : Started env hashGenesisBlock s) :
    s.chain.dbset.tx = (fun _ => none) ∧ ∃ pindex b,
      s.mapBlockIndex hashGenesisBlock = some pindex ∧ pindex.pprev = none ∧
        s.disk.readIndexed env pindex = some b := by
  obtain ⟨e, genesis, wallet, rfl, rfl, hprev, hwork, hload⟩ := h.loaded
  simp only [loadBlockIndex, bind_ok, get_ok, raiseIf_ok, fromOption_ok, modify_ok] at hload
  obtain ⟨_, _, ⟨rfl, rfl⟩, -, _, ⟨hhash, rfl⟩, pos, _, ⟨-, rfl⟩, -, _, rfl, hadd⟩ := hload
  have hstate := @addToBlockIndex_genesis e genesis ((NodeState.blank wallet).withBlock genesis pos)
    rfl (not_not.mp hhash) hwork pos.1 pos.2
  have hsame := hadd.symm.trans hstate
  cases hsame
  refine ⟨rfl, (NodeState.blank wallet).newIndex e genesis pos, genesis, ?_, rfl, ?_⟩
  · rw [← not_not.mp hhash]
    exact Function.update_self _ _ _
  · refine Option.filter_eq_some_iff.mpr ⟨?_, ?_⟩
    · show ((NodeState.blank wallet).disk.writeToDisk pos.1 pos.2 genesis).readBlock pos.1 pos.2 = _
      simp [Disk.writeToDisk]
    · simp [NodeState.newIndex, newBlockIndex]

theorem Started.inputsOk (h : Started env hashGenesisBlock s)
    (hplain : PlainGenesis env hashGenesisBlock s) :
    InputsOk env hashGenesisBlock s hashGenesisBlock := by
  obtain ⟨hindex, pindex, b, hp, hprev, hread⟩ := h.stored
  have hnone := h.emptyPool.transactions
  refine ⟨h.treeOk, ?_, ?_⟩
  · rw [hindex]
    exact .genesis hp hprev hread (hplain pindex b hp hread)
  · refine ⟨fun k tx hk => ?_, fun k tx hk => ?_, fun k tx hk => ?_⟩
    · rw [hnone] at hk
      cases hk
    · rw [hnone] at hk
      cases hk
    · rw [hnone] at hk
      cases hk

theorem InputsOk.spendable (h : InputsOk env hashGenesisBlock s best) : PoolSpendable env s := by
  intro k tx hk p hp
  have hloose := h.sound.loose k tx hk
  have hp' : p ∈ tx.spentPoints := by
    rw [CTransaction.spentPoints_of_not hloose]
    exact hp
  have hunspent : spentFlag s.chain.dbset.tx p ≠ some true → ∀ x pindex b,
      s.mapBlockIndex x = some pindex → isInMainChain s pindex →
        s.disk.readIndexed env pindex = some b → ∀ a ∈ b.vtx, p ∉ a.spentPoints := by
    intro hflag x pindex b hx hmain hread a ha hin
    exact hflag (h.built.spent ((h.tree.main_iff hx).mp hmain) hx hread ha hin)
  rcases h.sound.backed k tx hk p hp' with hflag | ⟨hnot, txPrev, hprev, hmakes⟩
  · have hflag' : spentFlag s.chain.dbset.tx p = some false := hflag
    refine ⟨.inl ?_, hunspent (by rw [hflag']; simp)⟩
    obtain ⟨txindex, htx, hget⟩ := Option.bind_eq_some_iff.mp hflag'
    obtain ⟨hlt, -⟩ := List.getElem?_eq_some_iff.mp hget
    exact ⟨txindex, htx, hlt⟩
  · have hnone : s.chain.dbset.tx p.hash = none := not_not.mp hnot
    exact ⟨.inr ⟨txPrev, hprev, hmakes⟩, hunspent (by rw [spentFlag, hnone]; simp)⟩

end Runs

section Tip

variable {e : NodeEnv} {s : NodeState} {b : CBlock} {pindexNew : CBlockIndex}

structure OnTip (e : NodeEnv) (s : NodeState) (b : CBlock) : Prop where
  started : s.pindexGenesisBlock ≠ none
  prev : b.hashPrevBlock = s.hashBestChain

theorem OnTip.lists (h : OnTip e s b) : s.vUndone e b pindexNew = [] ∧
    s.vDelete e b pindexNew = b.vtx ∧ s.poolRestored e b pindexNew = s.mapTransactions := by
  have hgen : ¬(s.pindexGenesisBlock = none ∧ b.getHash e.env = e.hashGenesisBlock) :=
    fun hg => h.started hg.1
  refine ⟨?_, ?_, ?_⟩
  · rw [NodeState.vUndone, if_neg hgen, if_pos h.prev]
  · rw [NodeState.vDelete, if_neg hgen, if_pos h.prev]
  · rw [NodeState.poolRestored, NodeState.vResurrect, if_neg hgen, if_pos h.prev]
    rfl

theorem OnTip.keepsInputs (h : OnTip e s b) (hnd : (txHashes e.env b.vtx).Nodup)
    (hfresh : ∀ tx ∈ b.vtx, s.chain.dbset.tx (tx.getHash e.env) = none)
    (htwins : ∀ a ∈ b.vtx, ∀ tx, s.mapTransactions (a.getHash e.env) = some tx →
      tx.getHash e.env = a.getHash e.env → tx = a)
    (hunspent : ∀ k tx, s.mapTransactions k = some tx → k ∉ txHashes e.env b.vtx →
      ∀ p ∈ prevouts tx.vin, ∀ a ∈ b.vtx, p ∉ a.spentPoints) : KeepsInputs e b pindexNew s := by
  obtain ⟨hundone, hdelete, hpool⟩ := @OnTip.lists e s b pindexNew h
  refine ⟨⟨?_, ?_⟩, ?_, ?_, ?_⟩
  · rw [hdelete]
    exact hnd
  · rw [hdelete]
    exact fun tx htx => .inl (hfresh tx htx)
  · rw [hdelete, hundone]
    intro a ha tx hor hname
    exact htwins a ha tx (hor.resolve_left List.not_mem_nil) hname
  · rw [hdelete, hpool]
    exact hunspent
  · rw [hundone]
    intro _ _ _ _ p _ hin
    exact absurd hin List.not_mem_nil

theorem OnTip.emptyPool (h : OnTip e s b) (hempty : s.mapTransactions = fun _ => none) :
    (exec (acceptBlock e b) s).2.mapTransactions = fun _ => none := by
  rcases acceptBlock_cases e b s with ⟨fault, hx⟩ | ⟨pos, -, hx⟩
  · rw [hx]
    exact hempty
  · have hindex : (s.withIndex e b pos).mapTransactions = fun _ => none := hempty
    have htip : OnTip e (s.withIndex e b pos) b := ⟨h.started, h.prev⟩
    rw [hx]
    unfold doIf
    split
    · rcases setBestChain_cases e b (s.newIndex e b pos) (s.withIndex e b pos) with
        ⟨fault, s', hy, halike⟩ | ⟨s', hy, hsettles⟩
      · rw [hy]
        exact halike.transactions.trans hindex
      · rw [hy]
        funext k
        obtain ⟨-, -, hpool⟩ := @OnTip.lists e _ b (s.newIndex e b pos) htip
        rw [hsettles.pool, hpool, hindex, ite_self]
    · exact hindex

end Tip

def appendEnv : NodeEnv :=
  { sampleNodeEnv with
    writeToDisk := fun s b =>
      if (s.disk.readBlock 1 (1000 * b.nTime)).isNone then some (1, 1000 * b.nTime) else none }

theorem appendEnv_appends : appendEnv.Appends := by
  intro s b nFile nBlockPos h
  simp only [appendEnv] at h
  split at h
  · rename_i hnone
    cases h
    exact Option.isNone_iff_eq_none.mp hnone
  · cases h

def coinbaseChain : Nat → CBlock
  | 0 => zeroBlock
  | n + 1 => linkedBlock ((coinbaseChain n).getHash sampleEnv) (n + 2) [sampleCoinbase (n + 1)]

def tipBlock (s : NodeState) (n : Nat) (vtx : List CTransaction) : CBlock :=
  linkedBlock s.hashBestChain (n + 2) (sampleCoinbase (n + 1) :: vtx)

def mined (n : Nat) (vtx : List CTransaction) (s : NodeState) : NodeState :=
  (exec (acceptBlock appendEnv (tipBlock s n vtx)) s).2

def minedRun : List Nat → NodeState → NodeState
  | [], s => s
  | n :: rest, s => minedRun rest (mined n [] s)

def freshRun (check : NodeState → Bool) : List Nat → NodeState → Bool
  | [], s => check s
  | n :: rest, s => (s.chain.dbset.tx ((sampleCoinbase (n + 1)).getHash sampleEnv)).isNone &&
      freshRun check rest (mined n [] s)

def spendOne (n : Nat) : CTransaction :=
  sampleTx 1 [((sampleCoinbase 1).getHash sampleEnv, 0)]
    [(n * cent, List.replicate 25 (UInt8.ofNat opNop)),
      (10 * cent, List.replicate 25 (UInt8.ofNat opNop))]

def heldNode (s : NodeState) : NodeState :=
  (exec (acceptToMemoryPool appendEnv (spendOne 1) true false false) s).2

theorem mined_step {s : NodeState} {genesis : Uint256}
    (hok : ∃ best, InputsOk sampleEnv genesis s best) (hempty : s.mapTransactions = fun _ => none)
    {n : Nat} (hfresh : s.chain.dbset.tx ((sampleCoinbase (n + 1)).getHash sampleEnv) = none) :
    InputStep sampleEnv InputsKept s (mined n [] s) ∧
      (mined n [] s).mapTransactions = fun _ => none := by
  obtain ⟨best, hok⟩ := hok
  have hgen : s.pindexGenesisBlock = some genesis := hok.tree.genesisBlock
  have htip : OnTip appendEnv s (tipBlock s n []) := ⟨by simp [hgen], rfl⟩
  refine ⟨.act (.block appendEnv (tipBlock s n [])) rfl appendEnv_appends ?_,
    htip.emptyPool hempty⟩
  intro _ pos _ _
  have htip' : OnTip appendEnv (s.withIndex appendEnv (tipBlock s n []) pos) (tipBlock s n []) :=
    ⟨htip.started, rfl⟩
  have hempty' : (s.withIndex appendEnv (tipBlock s n []) pos).mapTransactions = fun _ => none :=
    hempty
  have hone : (tipBlock s n []).vtx = [sampleCoinbase (n + 1)] := rfl
  refine htip'.keepsInputs ?_ ?_ ?_ ?_
  · rw [hone]
    exact List.nodup_singleton _
  · rw [hone]
    exact List.forall_mem_singleton.mpr hfresh
  · rw [hempty']
    intro _ _ _ hk
    cases hk
  · rw [hempty']
    intro _ _ hk
    cases hk

theorem freshRun_run {check : NodeState → Bool} {ns : List Nat} {s : NodeState} {genesis : Uint256}
    (hok : ∃ best, InputsOk sampleEnv genesis s best) (hempty : s.mapTransactions = fun _ => none)
    (h : freshRun check ns s = true) :
    Relation.ReflTransGen (InputStep sampleEnv InputsKept) s (minedRun ns s) ∧
      check (minedRun ns s) = true := by
  induction ns generalizing s with
  | nil => exact ⟨.refl, h⟩
  | cons n rest ih =>
    rw [freshRun, Bool.and_eq_true, Option.isNone_iff_eq_none] at h
    obtain ⟨hstep, hempty'⟩ := mined_step hok hempty h.1
    obtain ⟨hrun, hcheck⟩ := ih (hstep.ok hok) hempty' h.2
    exact ⟨.head hstep hrun, hcheck⟩

def spentInTip (s : NodeState) (p : COutPoint) : Bool :=
  (s.pindexBest.bind s.mapBlockIndex).any fun pindex =>
    decide (s.pindexBest = some pindex.hashBlock) &&
      (s.disk.readIndexed sampleEnv pindex).any fun b =>
        b.vtx.any fun tx => decide (p ∈ tx.spentPoints)

theorem not_spendable_of_tip {s : NodeState} {k : Uint256} {tx : CTransaction} {p : COutPoint}
    (hspent : spentInTip s p = true) (hk : s.mapTransactions k = some tx)
    (hp : p ∈ prevouts tx.vin) : ¬PoolSpendable sampleEnv s := by
  intro hall
  obtain ⟨pindex, hbest, hspent⟩ := (Option.any_eq_true _ _).mp hspent
  obtain ⟨h, -, hpindex⟩ := Option.bind_eq_some_iff.mp hbest
  rw [Bool.and_eq_true, decide_eq_true_eq] at hspent
  obtain ⟨b, hread, hvtx⟩ := (Option.any_eq_true _ _).mp hspent.2
  obtain ⟨a, ha, hin⟩ := List.any_eq_true.mp hvtx
  have hmain : isInMainChain s pindex := .inr hspent.1
  exact (hall k tx hk p hp).unspent h pindex b hpindex hmain hread a ha (of_decide_eq_true hin)

def onePoint : COutPoint := ⟨(sampleCoinbase 1).getHash sampleEnv, 0⟩

def overtakenNode (s : NodeState) : NodeState := mined 101 [spendOne 2] (heldNode s)

theorem heldNode_step (s : NodeState) : InputStep sampleEnv InputsKept s (heldNode s) :=
  .act (.accept appendEnv (spendOne 1) false false) rfl trivial trivial

theorem overtakenNode_step (s : NodeState) :
    InputStep sampleEnv (fun _ _ => True) (heldNode s) (overtakenNode s) :=
  .act (.block appendEnv (tipBlock (heldNode s) 101 [spendOne 2])) rfl appendEnv_appends trivial

structure HoldsSpent (s : NodeState) : Prop where
  held : (heldNode s).mapTransactions ((spendOne 1).getHash sampleEnv) = some (spendOne 1)
  still : (overtakenNode s).mapTransactions ((spendOne 1).getHash sampleEnv) = some (spendOne 1)
  spent : spentInTip (overtakenNode s) onePoint = true

instance (s : NodeState) : Decidable (HoldsSpent s) :=
  decidable_of_iff ((heldNode s).mapTransactions ((spendOne 1).getHash sampleEnv) =
      some (spendOne 1) ∧
    (overtakenNode s).mapTransactions ((spendOne 1).getHash sampleEnv) = some (spendOne 1) ∧
      spentInTip (overtakenNode s) onePoint = true)
    ⟨fun h => ⟨h.1, h.2.1, h.2.2⟩, fun h => ⟨h.held, h.still, h.spent⟩⟩

def tallNode : NodeState := minedRun (List.range 101) zeroNode

theorem tall_checks : freshRun (fun s => decide (HoldsSpent s)) (List.range 101) zeroNode = true := by
  decide +kernel

theorem zeroNode_plain : PlainGenesis sampleEnv sampleNodeEnv.hashGenesisBlock zeroNode := by
  have hvtx : (zeroNode.mapBlockIndex sampleNodeEnv.hashGenesisBlock).bind (fun pindex =>
      (zeroNode.disk.readIndexed sampleEnv pindex).map CBlock.vtx) = some [sampleCoinbase 0] := by
    decide +kernel
  intro pindex b hp hread
  rw [hp, Option.bind_some, hread] at hvtx
  have hone : b.vtx = [sampleCoinbase 0] := Option.some.inj hvtx
  rw [hone]
  exact List.forall_mem_singleton.mpr rfl

theorem tallNode_run :
    Relation.ReflTransGen (InputStep sampleEnv InputsKept) zeroNode tallNode ∧ HoldsSpent tallNode := by
  obtain ⟨hrun, hcheck⟩ := freshRun_run ⟨_, zeroNode_started.inputsOk zeroNode_plain⟩
    zeroNode_started.emptyPool.transactions tall_checks
  exact ⟨hrun, of_decide_eq_true hcheck⟩

theorem pool_spendable {env : Env} {hashGenesisBlock : Uint256} {s0 s : NodeState}
    (hstart : Started env hashGenesisBlock s0)
    (hplain : PlainGenesis env hashGenesisBlock s0)
    (run : Relation.ReflTransGen (InputStep env InputsKept) s0 s) : PoolSpendable env s := by
  have hok : ∃ best, InputsOk env hashGenesisBlock s best := by
    induction run with
    | refl => exact ⟨_, hstart.inputsOk hplain⟩
    | tail _ hstep ih => exact hstep.ok ih
  obtain ⟨best, hok⟩ := hok
  exact hok.spendable

theorem tallNode_spendable : PoolSpendable sampleEnv (heldNode tallNode) ∧
    (heldNode tallNode).mapTransactions ((spendOne 1).getHash sampleEnv) = some (spendOne 1) := by
  obtain ⟨hrun, hheld⟩ := tallNode_run
  exact ⟨pool_spendable zeroNode_started zeroNode_plain (hrun.tail (heldNode_step tallNode)),
    hheld.held⟩

theorem pool_keeps_spent : ¬∀ (env : Env) (hashGenesisBlock : Uint256) (s0 s : NodeState),
    Started env hashGenesisBlock s0 → PlainGenesis env hashGenesisBlock s0 →
      Relation.ReflTransGen (InputStep env fun _ _ => True) s0 s → PoolSpendable env s := by
  intro hall
  obtain ⟨hrun, hheld⟩ := tallNode_run
  have hmono : ∀ a b, InputStep sampleEnv InputsKept a b →
      InputStep sampleEnv (fun _ _ => True) a b := fun a b h => h.mono fun _ _ _ => trivial
  have hrun' := (Relation.ReflTransGen.mono hmono _ _ (hrun.tail (heldNode_step tallNode))).tail
    (overtakenNode_step tallNode)
  exact not_spendable_of_tip hheld.spent hheld.still (List.mem_singleton.mpr rfl)
    (hall sampleEnv _ zeroNode _ zeroNode_started zeroNode_plain hrun')

end Namecoin
