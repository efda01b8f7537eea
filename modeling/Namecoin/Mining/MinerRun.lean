import Namecoin.Mining.Confirmations

namespace Namecoin

open Act

structure MinerOk (env : Env) (genesis : Uint256) (s : MinerNode) (peak : Uint256 → Int) :
    Prop where
  indexed : Indexed env genesis s.node
  floor : ∀ hash, -1 ≤ peak hash
  caches : ∀ hash, ∀ txin ∈ s.vin hash, CacheBelow env s.node (peak hash) txin

section Accept

variable {e : NodeEnv} {genesis : Uint256} {tx : CTransaction}

theorem Indexed.poolStart {s : NodeState} (h : Indexed e.env genesis s) (tx : CTransaction) :
    ConnBelow e.env s s.nBestHeight (poolStart s tx) := by
  refine ⟨?_, fun _ _ => h.seen, ?_⟩
  · intro hash txindex htx
    cases htx
  · intro txin hmem
    obtain ⟨_, -, rfl⟩ := List.mem_map.mp hmem
    have hheight := h.height_nonneg
    exact cacheBelow_empty (by omega)

theorem Indexed.poolConnect {s : NodeState} (h : Indexed e.env genesis s) (tx : CTransaction) :
    ∀ txin ∈ (poolConnect e tx s).2.vin, CacheBelow e.env s s.nBestHeight txin := by
  unfold Namecoin.poolConnect
  split
  · exact (h.poolStart tx).caches
  · exact (connectInputs_below rfl le_rfl CDiskTxPos.memPool 0 _ (h.poolStart tx)).1.caches

def MinerNode.acceptedPeak (e : NodeEnv) (tx : CTransaction)
    (fCheckInputs fLimitFree fRateLimited : Bool) (s : MinerNode) (peak : Uint256 → Int) :
    Uint256 → Int :=
  match (exec (Namecoin.acceptToMemoryPool e tx fCheckInputs fLimitFree fRateLimited) s.node).1 with
  | .ok _ => Function.update peak (tx.getHash e.env) s.node.nBestHeight
  | .error _ => peak

theorem MinerOk.accept {s : MinerNode} {peak : Uint256 → Int} (h : MinerOk e.env genesis s peak)
    (tx : CTransaction) (fCheckInputs fLimitFree fRateLimited : Bool) :
    MinerOk e.env genesis (s.acceptToMemoryPool e tx fCheckInputs fLimitFree fRateLimited)
      (s.acceptedPeak e tx fCheckInputs fLimitFree fRateLimited peak) := by
  have hstep : IndexStep e.env genesis s.node
      (exec (Namecoin.acceptToMemoryPool e tx fCheckInputs fLimitFree fRateLimited) s.node).2 :=
    (acceptToMemoryPool_poolOnly e tx fCheckInputs fLimitFree fRateLimited s.node).indexStep
  have hheight := h.indexed.height_nonneg
  have hnew : ∀ txin ∈ (if fCheckInputs then (poolConnect e tx s.node).2.vin
      else tx.vin.map (fun _ => CTxInCache.empty)),
      CacheBelow e.env s.node s.node.nBestHeight txin := by
    split
    · exact h.indexed.poolConnect tx
    · exact (h.indexed.poolStart tx).caches
  have hkept : ∀ hash, ∀ txin ∈ s.vin hash,
      CacheBelow e.env (exec (Namecoin.acceptToMemoryPool e tx fCheckInputs fLimitFree fRateLimited)
        s.node).2 (peak hash) txin := fun hash txin hmem => (h.caches hash txin hmem).step hstep
  unfold MinerNode.acceptToMemoryPool MinerNode.acceptedPeak
  dsimp only
  cases (exec (Namecoin.acceptToMemoryPool e tx fCheckInputs fLimitFree fRateLimited) s.node).1 with
  | error fault => exact ⟨hstep.indexed h.indexed, h.floor, hkept⟩
  | ok _ =>
    refine ⟨hstep.indexed h.indexed, ?_, ?_⟩
    · intro hash
      by_cases hhash : hash = tx.getHash e.env
      · subst hhash
        simp only [Function.update_self]
        omega
      · simp only [Function.update_of_ne hhash]
        exact h.floor hash
    · intro hash
      by_cases hhash : hash = tx.getHash e.env
      · subst hhash
        simp only [Function.update_self]
        intro txin hmem
        obtain ⟨old, hold, rfl⟩ := List.mem_map.mp hmem
        exact ((hnew old hold).step hstep).assign (by omega) e.fCacheTxPrev
      · simp only [Function.update_of_ne hhash]
        exact hkept hash

end Accept

section Block

variable {e : NodeEnv} {genesis : Uint256}

theorem indexStep_carries (happends : e.Appends) (genesis : Uint256) :
    Carries e (fun s s' => Indexed e.env genesis s → IndexStep e.env genesis s s') where
  refl s _ := indexStep_refl e.env genesis s
  trans h h' hs := (h hs).trans (h' ((h hs).indexed hs))
  park _ _ _ := indexStep_of_same rfl rfl rfl
  erase _ _ _ := indexStep_of_same rfl rfl rfl
  drop _ _ _ := indexStep_of_same rfl rfl rfl
  accept b s hs := acceptBlock_indexStep happends b s hs

theorem mem_keepCaches {calls : List (NodeState × CBlock)} {vin : Uint256 → List CTxInCache}
    {hash : Uint256} {txin : CTxInCache} (h : txin ∈ MinerNode.keepCaches calls vin hash) :
    txin ∈ vin hash := by
  induction calls generalizing vin with
  | nil => exact h
  | cons call rest ih =>
    have hmem := ih h
    dsimp only at hmem
    split at hmem
    · exact hmem
    · cases hmem

theorem MinerOk.block {s : MinerNode} {peak : Uint256 → Int} (h : MinerOk e.env genesis s peak)
    (happends : e.Appends) (b : CBlock) : MinerOk e.env genesis (s.processBlock e b) peak := by
  have hstep := (indexStep_carries happends genesis).processBlock b s.node h.indexed
  refine ⟨hstep.indexed h.indexed, h.floor, ?_⟩
  intro hash txin hmem
  exact (h.caches hash txin (mem_keepCaches hmem)).step hstep

end Block

section Create

variable {e : NodeEnv} {genesis : Uint256}

theorem MinerOk.visitPool {s : MinerNode} {peak : Uint256 → Int} (h : MinerOk e.env genesis s peak) :
    MinerOk e.env genesis (s.visitPool e) peak := by
  refine ⟨h.indexed, h.floor, ?_⟩
  intro hash
  simp only [MinerNode.visitPool]
  split
  · exact (visitInputs_below (h.caches hash) (h.floor hash)).1
  · exact h.caches hash

theorem MinerOk.raise {s : MinerNode} {peak peak' : Uint256 → Int}
    (h : MinerOk e.env genesis s peak) (hle : ∀ hash, peak hash ≤ peak' hash) :
    MinerOk e.env genesis s peak' := by
  refine ⟨h.indexed, fun hash => (h.floor hash).trans (hle hash), ?_⟩
  intro hash txin hmem
  exact (h.caches hash txin hmem).mono (hle hash)

theorem MinerOk.mineTxs {s : MinerNode} {peak : Uint256 → Int} (h : MinerOk e.env genesis s peak)
    (hpeak : ∀ hash, s.node.nBestHeight ≤ peak hash) (pindexPrev : CBlockIndex)
    (tries : List (Uint256 × Int)) (mapTestPool : Uint256 → Option CTxIndex) (nFees : Int)
    (hpool : ∀ hash txindex, mapTestPool hash = some txindex →
      Seen e.env s.node s.node.nBestHeight txindex.pos) :
    MinerOk e.env genesis (MinerNode.mineTxs e pindexPrev tries mapTestPool nFees s) peak := by
  induction tries generalizing s mapTestPool nFees with
  | nil => exact h
  | cons entry rest ih =>
    obtain ⟨hash, nMinFee⟩ := entry
    rw [MinerNode.mineTxs]
    split
    · exact ih h hpeak mapTestPool nFees hpool
    · next tx _ =>
      split
      · exact ih h hpeak mapTestPool nFees hpool
      · have hconn := (@connectInputs_below e.env s.node (peak hash) ⟨e.env, s.node.view e, tx,
          ⟨pindexPrev, s.node.walk pindexPrev.pprev⟩, false, true⟩ rfl (hpeak hash)
          CDiskTxPos.memPool nMinFee ⟨s.node.chain.dbset, mapTestPool, s.node.chain.mapNamePending,
            s.vin hash, nFees⟩ ⟨hpool, fun _ _ => h.indexed.seen, h.caches hash⟩).1
        dsimp only
        generalize exec (TxCall.connectInputs _ _ _) _ = r at hconn ⊢
        have hnext : MinerOk e.env genesis { s with vin := Function.update s.vin hash r.2.vin }
            peak := by
          refine ⟨h.indexed, h.floor, ?_⟩
          intro k
          by_cases hk : k = hash
          · subst hk
            simp only [Function.update_self]
            exact hconn.caches
          · simp only [Function.update_of_ne hk]
            exact h.caches k
        split
        · exact ih hnext hpeak _ _ hconn.testPool
        · exact ih hnext hpeak _ _ hpool
        · exact hnext

theorem MinerOk.create {s : MinerNode} {peak : Uint256 → Int} (h : MinerOk e.env genesis s peak)
    (tries : List (Uint256 × Int)) :
    MinerOk e.env genesis (s.createNewBlock e tries)
      (fun hash => max (peak hash) s.node.nBestHeight) := by
  have hraise : MinerOk e.env genesis (s.visitPool e)
      (fun hash => max (peak hash) s.node.nBestHeight) :=
    h.visitPool.raise (fun hash => le_max_left _ _)
  unfold MinerNode.createNewBlock
  dsimp only
  split
  · exact hraise
  · refine hraise.mineTxs (fun hash => le_max_right _ _) _ tries _ 0 ?_
    intro hash txindex htx
    cases htx

end Create

def MinerNode.ConfsPositive (e : NodeEnv) (s : MinerNode) : Prop :=
  ∀ hash, ∀ nConf ∈ s.nConfs e hash, 0 < nConf

def MinerNode.AtPeak (e : NodeEnv) (s : MinerNode) (peak : Uint256 → Int) : Prop :=
  ∀ hash, s.visits e hash = true → s.vin hash ≠ [] → peak hash ≤ s.node.nBestHeight

inductive MinerStep (env : Env) (genesis : Uint256) :
    MinerNode × (Uint256 → Int) → MinerNode × (Uint256 → Int) → Prop
  | accept (e : NodeEnv) (tx : CTransaction) (fCheckInputs fLimitFree fRateLimited : Bool)
      (s : MinerNode) (peak : Uint256 → Int) (henv : e.env = env)
      (hgenesis : e.hashGenesisBlock = genesis) :
      MinerStep env genesis (s, peak)
        (s.acceptToMemoryPool e tx fCheckInputs fLimitFree fRateLimited,
          s.acceptedPeak e tx fCheckInputs fLimitFree fRateLimited peak)
  | block (e : NodeEnv) (b : CBlock) (s : MinerNode) (peak : Uint256 → Int) (henv : e.env = env)
      (hgenesis : e.hashGenesisBlock = genesis) (happends : e.Appends) :
      MinerStep env genesis (s, peak) (s.processBlock e b, peak)
  | create (e : NodeEnv) (tries : List (Uint256 × Int)) (s : MinerNode) (peak : Uint256 → Int)
      (henv : e.env = env) (hgenesis : e.hashGenesisBlock = genesis)
      (hassert : s.ConfsPositive e) :
      MinerStep env genesis (s, peak)
        (s.createNewBlock e tries, fun hash => max (peak hash) s.node.nBestHeight)

theorem MinerStep.ok {env : Env} {genesis : Uint256} {x y : MinerNode × (Uint256 → Int)}
    (hstep : MinerStep env genesis x y) (h : MinerOk env genesis x.1 x.2) :
    MinerOk env genesis y.1 y.2 := by
  cases hstep with
  | accept e tx fCheckInputs fLimitFree fRateLimited s peak henv _ =>
    subst henv
    exact h.accept tx fCheckInputs fLimitFree fRateLimited
  | block e b s peak henv _ happends =>
    subst henv
    exact h.block happends b
  | create e tries s peak henv _ _ =>
    subst henv
    exact h.create tries

theorem Started.indexed {env : Env} {genesis : Uint256} {s : NodeState}
    (h : Started env genesis s) : Indexed env genesis s := by
  refine ⟨_, h.treeOk, ?_⟩
  obtain ⟨e, block, wallet, disk, nFile, nBlockPos, rfl, rfl, -, hwork, hhash, hadd⟩ := h.added
  have hstate := @addToBlockIndex_genesis e block { NodeState.blank wallet with disk := disk } rfl
    hhash hwork nFile nBlockPos
  rw [hadd] at hstate
  cases hstate
  intro hash txindex htx
  cases htx

theorem minerOk_of_run {env : Env} {genesis : Uint256} {node : NodeState}
    {x : MinerNode × (Uint256 → Int)} (hstart : Started env genesis node)
    (run : Relation.ReflTransGen (MinerStep env genesis) (⟨node, fun _ => []⟩, fun _ => -1) x) :
    MinerOk env genesis x.1 x.2 := by
  induction run with
  | refl =>
    refine ⟨hstart.indexed, fun _ => le_rfl, ?_⟩
    intro hash txin hmem
    cases hmem
  | tail _ hstep ih => exact hstep.ok ih

theorem confs_positive {env : Env} {genesis : Uint256} {node : NodeState} {s : MinerNode}
    {peak : Uint256 → Int} {e : NodeEnv} (hstart : Started env genesis node)
    (run : Relation.ReflTransGen (MinerStep env genesis) (⟨node, fun _ => []⟩, fun _ => -1)
      (s, peak)) (hpeak : s.AtPeak e peak) (henv : e.env = env) : s.ConfsPositive e := by
  subst henv
  have hok : MinerOk e.env genesis s peak := minerOk_of_run hstart run
  intro hash nConf hmem
  unfold MinerNode.nConfs at hmem
  split at hmem
  · next hvisits =>
    have hne : s.vin hash ≠ [] := by
      intro hnil
      rw [hnil] at hmem
      cases hmem
    have hle := (visitInputs_below (hok.caches hash) (hok.floor hash)).2 nConf hmem
    have htop := hpeak hash hvisits hne
    omega
  · cases hmem

def testNetEnv : Env := { sampleEnv with fTestNet := true }

def nTestNetTime : Nat := 1394838000

def testNetBlock (hashPrevBlock : Uint256) (nTime nBits : Nat) (vtx : List CTransaction) : CBlock :=
  let b : CBlock := ⟨⟨65537, hashPrevBlock, 0, nTestNetTime + nTime, nBits, 0⟩, vtx, none⟩
  { b with hashMerkleRoot := b.buildMerkleTree testNetEnv }

def testNetGenesis : CBlock := testNetBlock 0 1 0x1d03ffff [sampleCoinbase 0]

def testNetNodeEnv : NodeEnv where
  env := testNetEnv
  hashGenesisBlock := testNetGenesis.getHash testNetEnv
  nNow := nTestNetTime + 10000
  fCacheTxPrev := false
  writeToDisk s b :=
    let nBlockPos := 1000 * (b.nTime - nTestNetTime)
    if (s.disk.readBlock 1 nBlockPos).isNone then some (1, nBlockPos) else none

theorem testNetNodeEnv_appends : testNetNodeEnv.Appends := by
  intro s b nFile nBlockPos h
  simp only [testNetNodeEnv] at h
  split at h
  · next hnone =>
    cases h
    exact Option.isNone_iff_eq_none.mp hnone
  · cases h

def testNetNode : NodeState :=
  (exec (loadBlockIndex testNetNodeEnv testNetGenesis) (NodeState.blank sampleWallet)).2

theorem testNetNode_started :
    Started testNetEnv testNetNodeEnv.hashGenesisBlock testNetNode where
  loaded := by
    have hok : (exec (loadBlockIndex testNetNodeEnv testNetGenesis)
        (NodeState.blank sampleWallet)).1 = .ok () := by decide +kernel
    exact ⟨testNetNodeEnv, testNetGenesis, sampleWallet, rfl, rfl, rfl, by decide +kernel,
      exec_eta hok⟩

def minedOn (nTime nBits : Nat) (vtx : List CTransaction) (bs : List CBlock) : CBlock :=
  testNetBlock ((bs.head?.map (CBlock.getHash testNetEnv)).getD testNetNodeEnv.hashGenesisBlock)
    nTime nBits vtx

def minedChain : Nat → List CBlock
  | 0 => []
  | n + 1 => minedOn (n + 2) 0x1d03ffff [sampleCoinbase (n + 1)] (minedChain n) :: minedChain n

def minedSpend (hash : Uint256) (nValue : Int) : CTransaction :=
  sampleTx 1 [(hash, 0)] [(nValue, List.replicate 60 (UInt8.ofNat op1))]

def minedParent : CTransaction := minedSpend ((sampleCoinbase 1).getHash testNetEnv) (coin / 2)

def minedChild : CTransaction := minedSpend (minedParent.getHash testNetEnv) (coin / 4)

-- Each of the last two blocks comes twenty minutes late, so testnet lets it have the least work.
def easyBranch : List CBlock :=
  let first := minedOn 1302 0x1d0fffff [sampleCoinbase 100] (minedChain 99)
  [minedOn 2604 0x1d0fffff [sampleCoinbase 101, minedParent] [first], first]

def heavyBlock : CBlock := minedOn 101 0x1d03ffff [sampleCoinbase 200] (minedChain 99)

def MinerNode.feed (s : MinerNode) (bs : List CBlock) : MinerNode :=
  bs.foldl (fun s b => s.processBlock testNetNodeEnv b) s

def tallMiner : MinerNode :=
  MinerNode.feed ⟨testNetNode, fun _ => []⟩ (easyBranch ++ minedChain 99).reverse

def pooledMiner : MinerNode :=
  tallMiner.acceptToMemoryPool testNetNodeEnv minedChild true true false

def loweredMiner : MinerNode := pooledMiner.processBlock testNetNodeEnv heavyBlock

theorem miner_confs :
    pooledMiner.nConfs testNetNodeEnv (minedChild.getHash testNetEnv) = [1] ∧
      loweredMiner.nConfs testNetNodeEnv (minedChild.getHash testNetEnv) = [0] := by
  decide +kernel

theorem feed_run (bs : List CBlock) (s : MinerNode) (peak : Uint256 → Int) :
    Relation.ReflTransGen (MinerStep testNetEnv testNetNodeEnv.hashGenesisBlock) (s, peak)
      (s.feed bs, peak) := by
  induction bs generalizing s with
  | nil => exact .refl
  | cons b rest ih =>
    have hstep : MinerStep testNetEnv testNetNodeEnv.hashGenesisBlock (s, peak)
        (s.processBlock testNetNodeEnv b, peak) :=
      .block testNetNodeEnv b s peak rfl rfl testNetNodeEnv_appends
    exact .head hstep (ih (s.processBlock testNetNodeEnv b))

def pooledPeak : Uint256 → Int :=
  tallMiner.acceptedPeak testNetNodeEnv minedChild true true false (fun _ => -1)

theorem tallMiner_run :
    Relation.ReflTransGen (MinerStep testNetEnv testNetNodeEnv.hashGenesisBlock)
      (⟨testNetNode, fun _ => []⟩, fun _ => -1) (tallMiner, fun _ => -1) :=
  feed_run (easyBranch ++ minedChain 99).reverse ⟨testNetNode, fun _ => []⟩ (fun _ => -1)

theorem pooledMiner_run :
    Relation.ReflTransGen (MinerStep testNetEnv testNetNodeEnv.hashGenesisBlock)
      (⟨testNetNode, fun _ => []⟩, fun _ => -1) (pooledMiner, pooledPeak) :=
  .tail tallMiner_run (.accept testNetNodeEnv minedChild true true false _ _ rfl rfl)

theorem MinerNode.atPeak_accepted {e : NodeEnv} {s : MinerNode} {peak : Uint256 → Int}
    (hpeak : ∀ hash, peak hash ≤ s.node.nBestHeight) (tx : CTransaction)
    (fCheckInputs fLimitFree fRateLimited : Bool) :
    (s.acceptToMemoryPool e tx fCheckInputs fLimitFree fRateLimited).AtPeak e
      (s.acceptedPeak e tx fCheckInputs fLimitFree fRateLimited peak) := by
  intro hash _ _
  have htree := (acceptToMemoryPool_poolOnly e tx fCheckInputs fLimitFree fRateLimited s.node).tree
  have hheight : (exec (Namecoin.acceptToMemoryPool e tx fCheckInputs fLimitFree fRateLimited)
      s.node).2.nBestHeight = s.node.nBestHeight := congrArg TreeView.nBestHeight htree
  unfold MinerNode.acceptToMemoryPool MinerNode.acceptedPeak
  dsimp only
  cases (exec (Namecoin.acceptToMemoryPool e tx fCheckInputs fLimitFree fRateLimited) s.node).1 with
  | error fault =>
    rw [hheight]
    exact hpeak hash
  | ok _ =>
    dsimp only
    rw [hheight]
    by_cases hhash : hash = tx.getHash e.env
    · subst hhash
      rw [Function.update_self]
    · rw [Function.update_of_ne hhash]
      exact hpeak hash

theorem pooledMiner_positive :
    pooledMiner.ConfsPositive testNetNodeEnv ∧
      pooledMiner.nConfs testNetNodeEnv (minedChild.getHash testNetEnv) = [1] := by
  have hok := minerOk_of_run testNetNode_started tallMiner_run
  have hheight := hok.indexed.height_nonneg
  dsimp only at hheight
  refine ⟨confs_positive testNetNode_started pooledMiner_run ?_ rfl, miner_confs.1⟩
  exact MinerNode.atPeak_accepted (fun _ => by omega) minedChild true true false

theorem loweredMiner_asserts :
    ¬∀ (env : Env) (genesis : Uint256) (node : NodeState) (s : MinerNode) (peak : Uint256 → Int)
      (e : NodeEnv), Started env genesis node →
      Relation.ReflTransGen (MinerStep env genesis) (⟨node, fun _ => []⟩, fun _ => -1) (s, peak) →
      e.env = env → s.ConfsPositive e := by
  intro hall
  have hlast : MinerStep testNetEnv testNetNodeEnv.hashGenesisBlock (pooledMiner, pooledPeak)
      (loweredMiner, pooledPeak) :=
    .block testNetNodeEnv heavyBlock _ _ rfl rfl testNetNodeEnv_appends
  have hpos := hall testNetEnv testNetNodeEnv.hashGenesisBlock testNetNode loweredMiner pooledPeak
    testNetNodeEnv testNetNode_started (.tail pooledMiner_run hlast) rfl
  have hzero := hpos (minedChild.getHash testNetEnv) 0
    (by rw [miner_confs.2]; exact List.mem_singleton_self 0)
  exact absurd hzero (lt_irrefl 0)

end Namecoin
