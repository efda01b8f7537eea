import Namecoin.Node.MainChain
import Namecoin.Node.Mempool

namespace Namecoin

open Act

inductive PoolAct where
  | accept (e : NodeEnv) (tx : CTransaction) (fCheckInputs fLimitFree fRateLimited : Bool)
  | best (e : NodeEnv) (b : CBlock) (pindexNew : CBlockIndex)

namespace PoolAct

def env : PoolAct → Env
  | accept e _ _ _ _ => e.env
  | best e _ _ => e.env

def run : PoolAct → NodeState → Except Fault Unit × NodeState
  | accept e tx fCheckInputs fLimitFree fRateLimited, s =>
    exec (acceptToMemoryPool e tx fCheckInputs fLimitFree fRateLimited) s
  | best e b pindexNew, s => exec (setBestChain e b pindexNew) s

end PoolAct

structure SamePool (s s' : NodeState) : Prop where
  transactions : s'.mapTransactions = s.mapTransactions
  nextTx : s'.mapNextTx = s.mapNextTx
  pending : s'.chain.mapNamePending = s.chain.mapNamePending
  newHashes : s'.setNewHashes = s.setNewHashes

inductive PoolStep (env : Env) (G : NodeState → PoolAct → Prop) : NodeState → NodeState → Prop
  | act {s : NodeState} (a : PoolAct) (henv : a.env = env) (hG : G s a) :
      PoolStep env G s (a.run s).2
  | elsewhere {s s' : NodeState} (h : SamePool s s') : PoolStep env G s s'

structure EmptyPool (s : NodeState) : Prop where
  transactions : s.mapTransactions = fun _ => none
  nextTx : s.mapNextTx = fun _ => none
  pending : s.chain.mapNamePending = fun _ => ∅
  newHashes : s.setNewHashes = ∅

theorem SamePool.emptyPool {s s' : NodeState} (h : SamePool s s') (he : EmptyPool s) :
    EmptyPool s' :=
  ⟨h.transactions.trans he.transactions, h.nextTx.trans he.nextTx, h.pending.trans he.pending,
    h.newHashes.trans he.newHashes⟩

theorem Started.emptyPool {env : Env} {hashGenesisBlock : Uint256} {s : NodeState}
    (h : Started env hashGenesisBlock s) : EmptyPool s := by
  obtain ⟨e, genesis, wallet, disk, nFile, nBlockPos, rfl, rfl, -, hwork, hhash, hadd⟩ := h.added
  have hstate := @addToBlockIndex_genesis e genesis { NodeState.blank wallet with disk := disk } rfl
    hhash hwork nFile nBlockPos
  rw [hadd] at hstate
  cases hstate
  exact ⟨rfl, rfl, rfl, rfl⟩

def spends (tx : CTransaction) : List COutPoint := prevouts tx.vin

def Undisputed (s : NodeState) : PoolAct → Prop
  | .accept e tx fCheckInputs fLimitFree fRateLimited =>
    (exec (acceptToMemoryPool e tx fCheckInputs fLimitFree fRateLimited) s).1 = .ok () →
      (spends tx).Nodup
  | .best e b pindexNew =>
    (exec (setBestChain e b pindexNew) s).1 = .ok () →
      (∀ tx ∈ s.vResurrect e b pindexNew, (spends tx).Nodup) ∧
      ∀ d ∈ s.vDelete e b pindexNew, Mirror.Harmless spends
        (s.resurrect e (s.vResurrect e b pindexNew)).mapTransactions (d.getHash e.env) d

def SpendMirror (s : NodeState) : Prop := Mirror.Mirrors spends s.mapTransactions s.mapNextTx

theorem EmptyPool.spendMirror {s : NodeState} (h : EmptyPool s) : SpendMirror s := by
  unfold SpendMirror
  rw [h.transactions, h.nextTx]
  exact Mirror.mirrors_empty

theorem PoolAlike.spendMirror {s t : NodeState} (h : PoolAlike s t) (hm : SpendMirror t) :
    SpendMirror s := by
  unfold SpendMirror
  rw [h.transactions, h.nextTx]
  exact hm

theorem Admits.spendMirror {env : Env} {tx : CTransaction} {s s' : NodeState}
    (h : Admits env tx s s') (hm : SpendMirror s) (hnd : (spends tx).Nodup) : SpendMirror s' := by
  unfold SpendMirror
  rw [h.transactions, h.nextTx]
  exact hm.insert h.unpooled h.unspent hnd

theorem SpendMirror.accept {e : NodeEnv} {tx : CTransaction}
    {fCheckInputs fLimitFree fRateLimited : Bool} {s : NodeState} (hm : SpendMirror s)
    (hnd : (exec (acceptToMemoryPool e tx fCheckInputs fLimitFree fRateLimited) s).1 = .ok () →
      (spends tx).Nodup) :
    SpendMirror (exec (acceptToMemoryPool e tx fCheckInputs fLimitFree fRateLimited) s).2 := by
  rcases acceptToMemoryPool_cases e tx fCheckInputs fLimitFree fRateLimited s with
    ⟨fault, hx⟩ | ⟨s', hx, hadmits⟩
  · rw [hx]
    exact hm
  · rw [hx] at hnd ⊢
    exact hadmits.spendMirror hm (hnd rfl)

theorem SpendMirror.resurrect {e : NodeEnv} {vResurrect : List CTransaction} {s : NodeState}
    (hm : SpendMirror s) (hnd : ∀ tx ∈ vResurrect, (spends tx).Nodup) :
    SpendMirror (s.resurrect e vResurrect) := by
  induction vResurrect generalizing s with
  | nil => exact hm
  | cons tx rest ih =>
    have hfirst : SpendMirror (exec (acceptToMemoryPool e tx false true false) s).2 :=
      hm.accept (fun _ => hnd tx List.mem_cons_self)
    exact ih hfirst (fun tx' htx' => hnd tx' (List.mem_cons_of_mem _ htx'))

theorem SpendMirror.removeAll {env : Env} {ds : List CTransaction} {s : NodeState}
    (hm : SpendMirror s)
    (hsafe : ∀ d ∈ ds, Mirror.Harmless spends s.mapTransactions (d.getHash env) d) :
    SpendMirror (s.removeAll env ds) := by
  induction ds generalizing s with
  | nil => exact hm
  | cons d rest ih =>
    have hfirst : SpendMirror (s.removeFromMemoryPool env d) := by
      unfold SpendMirror
      rw [removeFromMemoryPool_transactions, removeFromMemoryPool_nextTx]
      exact Mirror.Mirrors.remove hm (hsafe d List.mem_cons_self)
    refine ih hfirst ?_
    intro d' hd'
    rw [removeFromMemoryPool_transactions]
    exact (hsafe d' (List.mem_cons_of_mem _ hd')).of_remove

theorem SpendMirror.best {e : NodeEnv} {b : CBlock} {pindexNew : CBlockIndex} {s : NodeState}
    (hm : SpendMirror s) (hG : Undisputed s (.best e b pindexNew)) :
    SpendMirror (exec (setBestChain e b pindexNew) s).2 := by
  simp only [Undisputed] at hG
  rcases setBestChain_cases e b pindexNew s with ⟨fault, s', hx, halike⟩ | ⟨s', hx, hsettles⟩
  · rw [hx]
    exact halike.spendMirror hm
  · rw [hx] at hG ⊢
    obtain ⟨hnd, hsafe⟩ := hG rfl
    obtain ⟨s1, halike, -, rfl⟩ := hsettles.done
    have hpool := halike.resurrect e (s.vResurrect e b pindexNew)
    rw [← hpool.transactions] at hsafe
    have hres : SpendMirror (s1.resurrect e (s.vResurrect e b pindexNew)) :=
      (halike.spendMirror hm).resurrect hnd
    have hremoved := hres.removeAll hsafe
    exact hremoved

theorem SpendMirror.step {env : Env} {s s' : NodeState} (hm : SpendMirror s)
    (hstep : PoolStep env Undisputed s s') : SpendMirror s' := by
  cases hstep with
  | act a henv hG =>
    cases a with
    | accept e tx fCheckInputs fLimitFree fRateLimited => exact hm.accept hG
    | best e b pindexNew => exact hm.best hG
  | elsewhere h =>
    unfold SpendMirror
    rw [h.transactions, h.nextTx]
    exact hm

theorem spendMirror_of_run {env : Env} {s0 s : NodeState} (hstart : EmptyPool s0)
    (run : Relation.ReflTransGen (PoolStep env Undisputed) s0 s) : SpendMirror s := by
  induction run with
  | refl => exact hstart.spendMirror
  | tail _ hstep ih => exact ih.step hstep

def MirrorsPool (s : NodeState) : Prop :=
  (∀ p h i, s.mapNextTx p = some (h, i) ↔
    ∃ tx, s.mapTransactions h = some tx ∧ (tx.vin[i]?).map CTxIn.prevout = some p) ∧
  ∀ h h' tx tx' p, s.mapTransactions h = some tx → s.mapTransactions h' = some tx' →
    p ∈ prevouts tx.vin → p ∈ prevouts tx'.vin → h = h'

theorem spend_map_mirrors {env : Env} {s0 s : NodeState} (hstart : EmptyPool s0)
    (run : Relation.ReflTransGen (PoolStep env Undisputed) s0 s) : MirrorsPool s := by
  have hm := spendMirror_of_run hstart run
  refine ⟨?_, ?_⟩
  · intro p h i
    rw [hm p h i]
    simp only [spends, prevouts, List.getElem?_map]
  · intro h h' tx tx' p htx htx' hp hp'
    exact hm.disjoint htx htx' hp hp'

def fundTx : CTransaction := sampleTx 1 [(7, 0)] [(10 * coin, [UInt8.ofNat op1])]

def fundBlock : CBlock := sampleBlock 0 [sampleCoinbase 9, fundTx]

def fundPoint : COutPoint := ⟨fundTx.getHash sampleEnv, 0⟩

def withFund (s : NodeState) : NodeState :=
  { s with
    disk := s.disk.writeToDisk 1 50000 fundBlock
    chain := { s.chain with
      dbset := s.chain.dbset.writeTx (fundTx.getHash sampleEnv)
        (some (CTxIndex.make (samplePos 50000 fundBlock 1) 1)) } }

theorem withFund_samePool (s : NodeState) : SamePool s (withFund s) := ⟨rfl, rfl, rfl, rfl⟩

def fundedNode : NodeState := withFund zeroNode

def spendFund (n : Nat) : CTransaction :=
  sampleTx 1 [(fundTx.getHash sampleEnv, 0)]
    [(coin, List.replicate 25 (UInt8.ofNat opNop)), (n * coin, List.replicate 25 (UInt8.ofNat opNop))]

def spendBlock (n : Nat) : CBlock :=
  linkedBlock (zeroBlock.getHash sampleEnv) 2 [sampleCoinbase 1, spendFund n]

def acceptNode (s : NodeState) (tx : CTransaction) : NodeState :=
  (exec (acceptToMemoryPool sampleNodeEnv tx true true false) s).2

def offeredIndex (s : NodeState) (b : CBlock) : CBlockIndex :=
  newBlockIndex sampleEnv s b 1 (1000 * b.nTime)

def offeredNode (s : NodeState) (b : CBlock) : NodeState :=
  insertBlockIndex (offeredIndex s b) { s with disk := s.disk.writeToDisk 1 (1000 * b.nTime) b }

def bestNode (s : NodeState) (b : CBlock) : NodeState :=
  (exec (setBestChain sampleNodeEnv b (offeredIndex s b)) (offeredNode s b)).2

theorem fundedNode_empty : EmptyPool fundedNode := by
  have hsame : SamePool zeroNode fundedNode := withFund_samePool zeroNode
  exact hsame.emptyPool zeroNode_started.emptyPool

theorem offeredNode_samePool (s : NodeState) (b : CBlock) : SamePool s (offeredNode s b) :=
  ⟨rfl, rfl, rfl, rfl⟩

theorem acceptThenBest_run {s : NodeState} {tx : CTransaction} {b : CBlock}
    {G : NodeState → PoolAct → Prop} (haccept : G s (.accept sampleNodeEnv tx true true false))
    (hbest : G (offeredNode (acceptNode s tx) b)
      (.best sampleNodeEnv b (offeredIndex (acceptNode s tx) b))) :
    Relation.ReflTransGen (PoolStep sampleEnv G) s (bestNode (acceptNode s tx) b) := by
  have hfirst : PoolStep sampleEnv G s (acceptNode s tx) :=
    .act (.accept sampleNodeEnv tx true true false) rfl haccept
  have hsecond : PoolStep sampleEnv G (acceptNode s tx) (offeredNode (acceptNode s tx) b) :=
    .elsewhere (offeredNode_samePool _ _)
  have hthird : PoolStep sampleEnv G (offeredNode (acceptNode s tx) b)
      (bestNode (acceptNode s tx) b) :=
    .act (.best sampleNodeEnv b (offeredIndex (acceptNode s tx) b)) rfl hbest
  exact ((Relation.ReflTransGen.single hfirst).tail hsecond).tail hthird

def pooledNode : NodeState := acceptNode fundedNode (spendFund 1)

theorem spend_map_forgets :
    ¬ ∀ s0 s, EmptyPool s0 →
      Relation.ReflTransGen (PoolStep sampleEnv (fun _ _ => True)) s0 s → MirrorsPool s := by
  intro hall
  have hrun : Relation.ReflTransGen (PoolStep sampleEnv (fun _ _ => True)) fundedNode
      (bestNode pooledNode (spendBlock 2)) := acceptThenBest_run trivial trivial
  have hmirror := hall _ _ fundedNode_empty hrun
  have hpool : (bestNode pooledNode (spendBlock 2)).mapTransactions
      ((spendFund 1).getHash sampleEnv) = some (spendFund 1) := by decide +kernel
  have hnext : (bestNode pooledNode (spendBlock 2)).mapNextTx fundPoint = none := by
    decide +kernel
  have hback := (hmirror.1 fundPoint ((spendFund 1).getHash sampleEnv) 0).mpr
    ⟨spendFund 1, hpool, rfl⟩
  rw [hnext] at hback
  cases hback

theorem acceptNode_transactions {s : NodeState} {tx : CTransaction} (hempty : EmptyPool s)
    (hok : (exec (acceptToMemoryPool sampleNodeEnv tx true true false) s).1 = .ok ()) :
    (acceptNode s tx).mapTransactions =
      Function.update (fun _ => none) (tx.getHash sampleEnv) (some tx) := by
  rcases acceptToMemoryPool_cases sampleNodeEnv tx true true false s with
    ⟨fault, hx⟩ | ⟨s', hx, hadmits⟩
  · rw [hx] at hok
    cases hok
  · rw [acceptNode, hx, hadmits.transactions, hempty.transactions]
    rfl

theorem pooledNode_transactions : pooledNode.mapTransactions =
    Function.update (fun _ => none) ((spendFund 1).getHash sampleEnv) (some (spendFund 1)) :=
  acceptNode_transactions fundedNode_empty (by decide +kernel)

theorem resurrect_nil (e : NodeEnv) (s : NodeState) : s.resurrect e [] = s := rfl

theorem spendBlock_undisputed :
    Undisputed (offeredNode pooledNode (spendBlock 1))
      (.best sampleNodeEnv (spendBlock 1) (offeredIndex pooledNode (spendBlock 1))) := by
  intro _
  have hres : NodeState.vResurrect sampleNodeEnv (offeredNode pooledNode (spendBlock 1))
      (spendBlock 1) (offeredIndex pooledNode (spendBlock 1)) = [] := by decide +kernel
  have hdelete : NodeState.vDelete sampleNodeEnv (offeredNode pooledNode (spendBlock 1))
      (spendBlock 1) (offeredIndex pooledNode (spendBlock 1)) = [sampleCoinbase 1, spendFund 1] := by
    decide +kernel
  rw [hres, hdelete]
  refine ⟨by simp, ?_⟩
  intro d hd k tx hk hclash
  rw [resurrect_nil, (offeredNode_samePool pooledNode (spendBlock 1)).transactions,
    pooledNode_transactions] at hk
  rcases eq_or_ne k ((spendFund 1).getHash sampleEnv) with rfl | hne
  · rw [Function.update_self] at hk
    obtain rfl := Option.some.inj hk
    rcases List.mem_cons.mp hd with rfl | hd
    · exfalso
      revert hclash
      decide +kernel
    · obtain rfl := List.mem_singleton.mp hd
      exact ⟨rfl, rfl⟩
  · rw [Function.update_of_ne hne] at hk
    cases hk

theorem spendBlock_mirrors :
    (bestNode pooledNode (spendBlock 1)).nBestHeight = 1 ∧
      pooledNode.mapNextTx fundPoint = some ((spendFund 1).getHash sampleEnv, 0) ∧
      MirrorsPool (bestNode pooledNode (spendBlock 1)) := by
  have hrun : Relation.ReflTransGen (PoolStep sampleEnv Undisputed) fundedNode
      (bestNode pooledNode (spendBlock 1)) :=
    acceptThenBest_run (fun _ => by decide) spendBlock_undisputed
  exact ⟨by decide +kernel, by decide +kernel, spend_map_mirrors fundedNode_empty hrun⟩

end Namecoin
