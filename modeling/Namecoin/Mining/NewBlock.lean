import Namecoin.Mining.MinerRun
import Namecoin.Mining.Template

namespace Namecoin

open Act

namespace Assembly

section Start

variable {D : Type} {m : Doubles D} {e : NodeEnv} {pindexPrev : CBlockIndex} {s : MinerNode}
  {q : TxQueue D} {a : Assembly D} {hashes : List Uint256} {pubKey : VchType}

theorem checkDbLockLimit_coinbase (env : Env) (pubKey : VchType) (nValue : Int) :
    checkDbLockLimit env [coinbase pubKey nValue] = true := by
  unfold checkDbLockLimit
  dsimp only
  rw [decide_eq_true_eq, List.flatMap_singleton]
  have hids := (List.dedup_sublist ((coinbase pubKey nValue).getHash env ::
    (coinbase pubKey nValue).vin.map fun txin => txin.prevout.hash)).length_le
  have hnames := List.length_filter_le (fun tx : CTransaction =>
    decide (tx.nVersion = namecoinTxVersion)) [coinbase pubKey nValue]
  have htwo : ((coinbase pubKey nValue).getHash env ::
    (coinbase pubKey nValue).vin.map fun txin => txin.prevout.hash).length = 2 := rfl
  rw [htwo] at hids
  rw [List.length_singleton] at hnames
  omega

theorem filled_start (hnode : q.miner.node = s.node) :
    Filled e s (coinbase pubKey 0) [] (start (coinbase pubKey 0) q) where
  node := hnode
  vtx := rfl
  ledger := by
    show TxsApplied e.env [] _ (overlay (fun _ => none) _)
    rw [overlay_empty]
    exact .nil _
  size := rfl
  size_lt := by
    show 1000 < maxBlockSizeGen
    decide
  sigOps := rfl
  sigOps_lt := by
    show 100 < maxBlockSigops
    decide
  locks := checkDbLockLimit_coinbase e.env pubKey 0
  fees_nonneg := le_refl (0 : Int)
  fees _ := ⟨[], .nil, rfl⟩

theorem Visiting.collecting (h : Visiting e s hashes q)
    (hranks : Ranks m e s q.miner.vin q.vOrphan q.mapPriority) :
    Collecting m e pindexPrev s q (s.plan e hashes) (coinbase pubKey 0)
      (start (coinbase pubKey 0) q) [] [] where
  reached := .refl
  vin _ _ := rfl
  ranks := hranks
  filled := filled_start h.node
  waiting := h.waiting
  linked := h.linked
  pooled tx htx := by cases htx
  decided hash hin := by cases hin

theorem Visiting.jobs_le (h : Visiting e s hashes q) :
    (s.plan e hashes).jobs.card ≤ q.mapPriority.length + q.vOrphan.length := by
  have hsub : (s.plan e hashes).jobs ⊆
      (q.mapPriority.map Prod.snd ++ q.vOrphan.map COrphan.ptx).toFinset := by
    intro hash hjob
    rw [List.mem_toFinset, List.mem_append]
    by_cases hdeps : (s.plan e hashes).deps hash = ∅
    · have hready := (h.waiting.listed hash).mpr ⟨hjob, by rw [Waiting.Plan.left, hdeps]; rfl⟩
      exact .inl hready
    · exact .inr ((h.linked.listed hash).mpr ⟨hjob, hdeps⟩)
  have hcard := (Finset.card_le_card hsub).trans (List.toFinset_card_le _)
  rwa [List.length_append, List.length_map, List.length_map] at hcard

theorem collectAll_run (hpool : PoolApart e.env s.node) (hvisited : Visiting e s hashes q)
    (hranks : Ranks m e s q.miner.vin q.vOrphan q.mapPriority)
    (h : collectAll m e pindexPrev pubKey q = .ok a) :
    ∃ tried txs, Collecting m e pindexPrev s q (s.plan e hashes) (coinbase pubKey 0) a tried txs ∧
      a.mapPriority = [] :=
  (Visiting.collecting hvisited hranks).collect hpool (Visiting.jobs_le hvisited) h

end Start

structure WellAssembled {D : Type} (m : Doubles D) (e : NodeEnv) (s : MinerNode)
    (hashes : List Uint256) (pindexPrev : CBlockIndex) (pubKey : VchType) (b : CBlock)
    (txs : List CTransaction) (nFees : Int) : Prop where
  vtx : ∃ nValue, getBlockValue (pindexPrev.nHeight + 1) nFees = .ok nValue ∧
    b.vtx = coinbase pubKey nValue :: txs
  hashPrevBlock : b.hashPrevBlock = pindexPrev.hashBlock
  fees : moneyRange nFees = true → PaidBy e.env txs nFees
  pooled : ∀ tx ∈ txs, ∃ hash ∈ hashes, s.node.mapTransactions hash = some tx ∧
    s.queued e hash = true
  parents : ∀ tx ∈ txs, ∀ k ∈ s.parents e.env (tx.getHash e.env), k ∈ txHashes e.env txs
  history : Coins.Causal (coinKind e.env) (s.node.mainTxs e.env ++ txs)
  size : 1000 + (txs.map CTransaction.getSerializeSize).sum < maxBlockSizeGen
  sigOps : 100 + (txs.map CTransaction.getSigOpCount).sum < maxBlockSigops
  decided : ∃ q, (TxQueue.start s).visitAll m e hashes = .ok q ∧
    ∀ hash ∈ hashes, s.queued e hash = true →
      (∀ k ∈ s.parents e.env hash, k ∈ txHashes e.env txs) →
        Decided m e pindexPrev s q (coinbase pubKey 0) txs hash

section Assembled

variable {D : Type} {m : Doubles D} {e : NodeEnv} {pindexPrev : CBlockIndex} {s : MinerNode}
  {q : TxQueue D} {a : Assembly D} {hashes tried : List Uint256} {pubKey : VchType} {b : CBlock}
  {txs : List CTransaction} {genesis best : Uint256}

theorem finish_ok (h : a.finish e pindexPrev pubKey = .ok b) :
    b.hashPrevBlock = pindexPrev.hashBlock ∧
      ∃ nValue, getBlockValue (pindexPrev.nHeight + 1) a.nFees = .ok nValue ∧
        b.vtx = coinbase pubKey nValue :: a.vtx.tail := by
  obtain ⟨nValue, hvalue, h⟩ := Except.bind_eq_ok.mp h
  obtain ⟨nBits, -, h⟩ := Except.bind_eq_ok.mp h
  obtain rfl := Except.ok.inj h
  exact ⟨rfl, nValue, hvalue, rfl⟩

theorem Collecting.history (h : Collecting m e pindexPrev s q (s.plan e hashes) (coinbase pubKey 0) a
    tried txs) (hledger : LedgerOk e.env genesis s.node best) :
    Coins.Causal (coinKind e.env) (s.node.mainTxs e.env ++ txs) := by
  have hisBest : s.node.pindexBest = some best := hledger.tree.isBest
  have hreplay : TxsApplied e.env (s.node.mainTxs e.env) (fun _ => none) s.node.chain.dbset.tx := by
    rw [NodeState.mainTxs, hisBest]
    exact hledger.built.replay hledger.tree.rooted
  exact (hreplay.append h.filled.ledger).run.causal fun k hk => hk rfl

theorem Collecting.wellAssembled
    (h : Collecting m e pindexPrev s q (s.plan e hashes) (coinbase pubKey 0) a tried txs)
    (hdone : a.mapPriority = []) (hpool : PoolApart e.env s.node)
    (hledger : LedgerOk e.env genesis s.node best)
    (hvisit : (TxQueue.start s).visitAll m e hashes = .ok q)
    (hfinish : a.finish e pindexPrev pubKey = .ok b) :
    WellAssembled m e s hashes pindexPrev pubKey b txs a.nFees := by
  obtain ⟨hprev, nValue, hvalue, hvtx⟩ := finish_ok hfinish
  have hwaiting := h.waiting
  rw [hdone, List.map_nil] at hwaiting
  obtain ⟨-, htried⟩ := hwaiting.finished
  have hjob : ∀ hash, hash ∈ (s.plan e hashes).jobs ↔ hash ∈ hashes ∧ s.queued e hash = true := by
    intro hash
    rw [MinerNode.plan, List.mem_toFinset, List.mem_filter]
  have hdeps : ∀ hash, (∀ k ∈ (s.plan e hashes).deps hash, k ∈ (txHashes e.env txs).reverse) ↔
      ∀ k ∈ s.parents e.env hash, k ∈ txHashes e.env txs := by
    intro hash
    simp [MinerNode.plan]
  refine ⟨⟨nValue, hvalue, ?_⟩, hprev, h.filled.fees, ?_, ?_, h.history hledger, ?_, ?_,
    q, hvisit, ?_⟩
  · rw [hvtx, h.filled.vtx]
    rfl
  · intro tx htx
    obtain ⟨hash, hin, hget⟩ := h.pooled tx htx
    obtain ⟨hlisted, hqueued⟩ := (hjob hash).mp ((htried hash).mp hin).1
    exact ⟨hash, hlisted, hget, hqueued⟩
  · intro tx htx
    obtain ⟨hash, hin, hget⟩ := h.pooled tx htx
    rw [hpool.named hash tx hget]
    exact (hdeps hash).mp ((htried hash).mp hin).2
  · rw [← h.filled.size]
    exact h.filled.size_lt
  · rw [← h.filled.sigOps]
    exact h.filled.sigOps_lt
  · intro hash hlisted hqueued hparents
    exact h.decided hash ((htried hash).mpr ⟨(hjob hash).mpr ⟨hlisted, hqueued⟩,
      (hdeps hash).mpr hparents⟩)

-- What a call that returns a block went through.
structure Collected (m : Doubles D) (e : NodeEnv) (s : MinerNode) (hashes : List Uint256)
    (pubKey : VchType) (b : CBlock) (s' : MinerNode) (pindexPrev : CBlockIndex) (q : TxQueue D)
    (a : Assembly D) : Prop where
  best : s.node.pindexBest.bind s.node.mapBlockIndex = some pindexPrev
  visit : (TxQueue.start s).visitAll m e hashes = .ok q
  collect : collectAll m e pindexPrev pubKey q = .ok a
  finish : a.finish e pindexPrev pubKey = .ok b
  miner : s' = a.miner

theorem createNewBlock_ok {s' : MinerNode}
    (h : createNewBlock m e hashes pubKey s = .ok (b, s')) :
    ∃ pindexPrev q a, Collected m e s hashes pubKey b s' pindexPrev q a := by
  unfold createNewBlock at h
  cases hbest : s.node.pindexBest.bind s.node.mapBlockIndex with
  | none =>
    rw [hbest] at h
    cases h
  | some pindexPrev =>
    rw [hbest] at h
    obtain ⟨q, hvisit, h⟩ := Except.bind_eq_ok.mp h
    obtain ⟨a, hcollect, h⟩ := Except.bind_eq_ok.mp h
    obtain ⟨b', hfinish, h⟩ := Except.bind_eq_ok.mp h
    obtain ⟨rfl, rfl⟩ := Prod.mk.inj (Except.ok.inj h)
    exact ⟨pindexPrev, q, a, hbest, hvisit, hcollect, hfinish, rfl⟩

theorem Collected.visiting {s' : MinerNode}
    (h : Collected m e s hashes pubKey b s' pindexPrev q a) (hnodup : hashes.Nodup) :
    Visiting e s hashes q ∧ Ranks m e s q.miner.vin q.vOrphan q.mapPriority := by
  have hseen : ([] ++ hashes).Nodup := by rwa [List.nil_append]
  have hvisited := (visiting_start e s).visitAll hseen h.visit
  rw [List.nil_append] at hvisited
  exact ⟨hvisited, (visiting_start e s).ranks_visitAll hseen (ranks_start e s) h.visit⟩

theorem Collected.collecting {s' : MinerNode}
    (h : Collected m e s hashes pubKey b s' pindexPrev q a) (hpool : PoolApart e.env s.node)
    (hnodup : hashes.Nodup) :
    ∃ tried txs, Collecting m e pindexPrev s q (s.plan e hashes) (coinbase pubKey 0) a tried txs ∧
      a.mapPriority = [] := by
  obtain ⟨hvisited, hranks⟩ := h.visiting hnodup
  exact collectAll_run hpool hvisited hranks h.collect

theorem assembled_of_run {node : NodeState} {s' : MinerNode} (hstart : Started e.env genesis node)
    (hplain : PlainGenesis e.env genesis node)
    (run : Relation.ReflTransGen (ApartStep e.env) node s.node) (hnodup : hashes.Nodup)
    (h : createNewBlock m e hashes pubKey s = .ok (b, s')) :
    s'.node = s.node ∧ ∃ pindexPrev txs nFees,
      s.node.pindexBest.bind s.node.mapBlockIndex = some pindexPrev ∧
        WellAssembled m e s hashes pindexPrev pubKey b txs nFees := by
  obtain ⟨best, hledger, hpool⟩ := apartKept_of_run hstart hplain run
  obtain ⟨pindexPrev, q, a, hcollected⟩ := createNewBlock_ok h
  obtain ⟨tried, txs, hcollecting, hdone⟩ := hcollected.collecting hpool hnodup
  refine ⟨?_, pindexPrev, txs, a.nFees, hcollected.best,
    hcollecting.wellAssembled hdone hpool hledger hcollected.visit hcollected.finish⟩
  rw [hcollected.miner]
  exact hcollecting.filled.node

end Assembled

section Call

variable {D : Type} {m : Doubles D} {e : NodeEnv} {pindexPrev : CBlockIndex} {s s' : MinerNode}
  {a : Assembly D} {hashes : List Uint256} {pubKey : VchType} {b : CBlock}

theorem serializeSize_pos (tx : CTransaction) : 1 ≤ tx.getSerializeSize := by
  unfold CTransaction.getSerializeSize
  omega

theorem Filled.vtx_lt {txNew : CTransaction} {txs : List CTransaction} (h : Filled e s txNew txs a) :
    a.vtx.tail.length + 1 < maxSize := by
  have hle := List.length_le_sum_of_one_le (txs.map CTransaction.getSerializeSize)
    (List.forall_mem_map.mpr fun tx _ => serializeSize_pos tx)
  rw [List.length_map] at hle
  have hsize := h.size_lt
  rw [h.size] at hsize
  have hmax : maxBlockSizeGen < maxSize := by decide
  rw [h.vtx, List.tail_cons]
  omega

-- The call behind the work that is handed out, with what the loop collected.
def call (c : MinerCall) (e : NodeEnv) (pindexPrev : CBlockIndex) (hkey : pubKey.length ≤ 120)
    (a : Assembly D) (hvtx : a.vtx.tail.length + 1 < maxSize) : MinerCall :=
  { c with
    pindexBest := ⟨pindexPrev, a.miner.node.walk pindexPrev.pprev⟩
    nAdjustedTime := e.nNow
    reserved := .ok pubKey
    reserved_le := fun _ h => Except.ok.inj h ▸ hkey
    vtx := a.vtx.tail
    vtx_lt := hvtx
    nFees := a.nFees }

theorem createNewBlock_call (c : MinerCall) (hpool : PoolApart e.env s.node)
    (hnodup : hashes.Nodup) (hkey : pubKey.length ≤ 120)
    (h : createNewBlock m e hashes pubKey s = .ok (b, s')) :
    ∃ (pindexPrev : CBlockIndex) (a : Assembly D) (hvtx : a.vtx.tail.length + 1 < maxSize),
      s.node.pindexBest.bind s.node.mapBlockIndex = some pindexPrev ∧ s' = a.miner ∧
        Namecoin.createNewBlock e.env (call c e pindexPrev hkey a hvtx) = .ok b := by
  obtain ⟨pindexPrev, q, a, hcollected⟩ := createNewBlock_ok h
  obtain ⟨tried, txs, hcollecting, -⟩ := hcollected.collecting hpool hnodup
  exact ⟨pindexPrev, a, hcollecting.filled.vtx_lt, hcollected.best, hcollected.miner,
    hcollected.finish⟩

end Call

section Tries

variable {D : Type} {m : Doubles D} {e : NodeEnv} {pindexPrev : CBlockIndex} {s s' w : MinerNode}
  {q q' : TxQueue D} {a a' : Assembly D} {hash : Uint256} {tx : CTransaction}
  {hashes seen tried : List Uint256} {pubKey : VchType} {b : CBlock} {txs : List CTransaction}

-- Equal up to the empty caches that a new transaction object starts with.
structure SameCaches (s s' : MinerNode) : Prop where
  node : s'.node = s.node
  caches : ∀ hash i, s'.cacheAt hash i = s.cacheAt hash i

def CachesFit (s : MinerNode) : Prop :=
  ∀ hash tx, s.node.mapTransactions hash = some tx →
    s.vin hash = [] ∨ (s.vin hash).length = tx.vin.length

theorem cachedVin_snd (h : (s.vin hash).length = tx.vin.length) :
    (s.cachedVin hash tx).map Prod.snd = s.vin hash := by
  refine List.ext_getElem (by simp [MinerNode.cachedVin, h]) fun i h₁ h₂ => ?_
  simp [MinerNode.cachedVin, MinerNode.cacheAt, List.getD_eq_getElem?_getD, h₂]

theorem cachedVin_nil (h : s.vin hash = []) :
    (s.cachedVin hash tx).map Prod.snd = List.replicate tx.vin.length CTxInCache.empty := by
  refine List.ext_getElem (by simp [MinerNode.cachedVin]) fun i h₁ h₂ => ?_
  simp [MinerNode.cachedVin, MinerNode.cacheAt, h]

theorem SameCaches.cachedVin (h : SameCaches s s') (hash : Uint256) (tx : CTransaction) :
    s'.cachedVin hash tx = s.cachedVin hash tx :=
  List.map_congr_left fun p _ => Prod.ext rfl (h.caches hash p.2)

theorem visitInputs_length (env : Env) (s : NodeState) (vin : List CTxInCache) :
    (visitInputs env s vin).1.length = vin.length := by
  induction vin with
  | nil => rfl
  | cons txin rest ih =>
    rw [visitInputs]
    split
    · rfl
    · exact congrArg (· + 1) ih

theorem visitInputs_empty (env : Env) (s : NodeState) (n : Nat) :
    (visitInputs env s (List.replicate n CTxInCache.empty)).1 =
      List.replicate n CTxInCache.empty := by
  cases n <;> rfl

theorem visitTx_vin {env : Env} {s : NodeState} {ins : List (CTxIn × CTxInCache)} {d : D}
    {r : VisitedTx D} (h : visitTx m env s ins d = .ok r) :
    r.vin = (visitInputs env s (ins.map Prod.snd)).1 := by
  induction ins generalizing d r with
  | nil =>
    obtain rfl := Except.ok.inj h
    rfl
  | cons first rest ih =>
    obtain ⟨txin, cache⟩ := first
    rw [visitTx] at h
    rw [List.map_cons, visitInputs]
    split at h
    · next hinfo =>
      obtain rfl := Except.ok.inj h
      rw [if_pos hinfo]
    · next hinfo =>
      rw [if_neg hinfo]
      split at h
      · next cache' hvisit =>
        obtain ⟨r', hrest, h⟩ := Except.bind_eq_ok.mp h
        obtain rfl := Except.ok.inj h
        rw [hvisit, ih hrest]
      · next cache' nConf hvisit =>
        obtain ⟨-, -, h⟩ := Except.bind_eq_ok.mp h
        obtain ⟨r', hrest, h⟩ := Except.bind_eq_ok.mp h
        obtain rfl := Except.ok.inj h
        rw [hvisit, ih hrest]

theorem visited_cache (hfit : s.vin hash = [] ∨ (s.vin hash).length = tx.vin.length) {d : D}
    {r : VisitedTx D} (h : visitTx m e.env s.node (s.cachedVin hash tx) d = .ok r) (i : Nat) :
    r.vin.getD i CTxInCache.empty =
      (visitInputs e.env s.node (s.vin hash)).1.getD i CTxInCache.empty := by
  rw [visitTx_vin h]
  rcases hfit with hnil | hlen
  · have hempty : (List.replicate tx.vin.length CTxInCache.empty).getD i CTxInCache.empty =
        CTxInCache.empty := by
      rw [List.getD_eq_getElem?_getD, List.getElem?_replicate]
      split <;> rfl
    rw [cachedVin_nil hnil, visitInputs_empty, hnil, hempty]
    rfl
  · rw [cachedVin_snd hlen]

theorem CachesFit.visitPool (h : CachesFit s) (e : NodeEnv) : CachesFit (s.visitPool e) := by
  intro hash tx htx
  have hold := h hash tx htx
  simp only [MinerNode.visitPool]
  split
  · rcases hold with hnil | hlen
    · rw [hnil]
      exact .inl rfl
    · exact .inr (by rw [visitInputs_length, hlen])
  · exact hold

-- The pass over the keys of the pool leaves the caches that visitPool leaves.
theorem visited_step (h : Visiting e s seen q) (hfit : CachesFit s) (hnew : hash ∉ seen)
    (hseen : ∀ k ∈ seen, ∀ i, q.miner.cacheAt k i = (s.visitPool e).cacheAt k i)
    (hrun : q.visit m e hash = .ok q') :
    ∀ k ∈ seen ++ [hash], ∀ i, q'.miner.cacheAt k i = (s.visitPool e).cacheAt k i := by
  have hvisits : q.miner.visits e hash = s.visits e hash := by
    unfold MinerNode.visits
    rw [h.node]
  have hsame : s.visits e hash = false →
      ∀ k ∈ seen ++ [hash], ∀ i, q.miner.cacheAt k i = (s.visitPool e).cacheAt k i := by
    intro hno k hk i
    rcases List.mem_append.mp hk with hold | hlast
    · exact hseen k hold i
    · obtain rfl := List.mem_singleton.mp hlast
      have hkept : (s.visitPool e).vin k = s.vin k := by
        simp only [MinerNode.visitPool]
        rw [if_neg (by simp [hno])]
      rw [MinerNode.cacheAt, MinerNode.cacheAt, h.vin k hnew, hkept]
  unfold TxQueue.visit at hrun
  rw [h.node] at hrun
  cases htx : s.node.mapTransactions hash with
  | none =>
    rw [htx] at hrun
    obtain rfl := Except.ok.inj hrun
    exact hsame (by simp [MinerNode.visits, htx])
  | some tx =>
    rw [htx] at hrun
    dsimp only at hrun
    rw [hvisits] at hrun
    split at hrun
    · next hno =>
      obtain rfl := Except.ok.inj hrun
      exact hsame hno
    · next hyes =>
      obtain ⟨r, hvisit, hrun⟩ := Except.bind_eq_ok.mp hrun
      obtain rfl := Except.ok.inj hrun
      have hcached : q.miner.cachedVin hash tx = s.cachedVin hash tx := by
        unfold MinerNode.cachedVin MinerNode.cacheAt
        rw [h.vin hash hnew]
      rw [hcached] at hvisit
      have hvin : (q.insert m hash tx.getSerializeSize r).miner.vin =
          Function.update q.miner.vin hash r.vin := by
        unfold TxQueue.insert
        dsimp only
        split
        · split <;> rfl
        · rfl
      intro k hk i
      rw [MinerNode.cacheAt, hvin]
      by_cases hkey : k = hash
      · subst hkey
        have hpass : (s.visitPool e).vin k = (visitInputs e.env s.node (s.vin k)).1 := by
          simp only [MinerNode.visitPool]
          rw [if_pos (by simpa using hyes)]
        rw [Function.update_self, visited_cache (hfit k tx htx) hvisit, MinerNode.cacheAt, hpass]
      · rw [Function.update_of_ne hkey]
        refine hseen k ?_ i
        rcases List.mem_append.mp hk with hold | hlast
        · exact hold
        · exact absurd (List.mem_singleton.mp hlast) hkey

theorem visited_all {rest : List Uint256} (h : Visiting e s seen q) (hfit : CachesFit s)
    (hnodup : (seen ++ rest).Nodup)
    (hseen : ∀ k ∈ seen, ∀ i, q.miner.cacheAt k i = (s.visitPool e).cacheAt k i)
    (hrun : q.visitAll m e rest = .ok q') :
    ∀ k ∈ seen ++ rest, ∀ i, q'.miner.cacheAt k i = (s.visitPool e).cacheAt k i := by
  induction rest generalizing seen q with
  | nil =>
    obtain rfl := Except.ok.inj hrun
    rwa [List.append_nil]
  | cons hash rest ih =>
    obtain ⟨q₁, hvisit, hrun⟩ := Except.bind_eq_ok.mp hrun
    have hnew : hash ∉ seen := fun hin =>
      (List.nodup_append.mp hnodup).2.2 hash hin hash List.mem_cons_self rfl
    have hsplit : seen ++ hash :: rest = (seen ++ [hash]) ++ rest := by rw [List.append_assoc]; rfl
    rw [hsplit] at hnodup ⊢
    exact ih (h.visit hnew hvisit) hnodup (visited_step h hfit hnew hseen hvisit) hrun

def SameLength (s s' : ConnState) : Prop := s'.vin.length = s.vin.length

theorem sameLength_refl (s : ConnState) : SameLength s s := rfl

theorem SameLength.trans {c d f : ConnState} (h : SameLength c d) (h' : SameLength d f) :
    SameLength c f := Eq.trans h' h

theorem writeBack_sameLength (c : TxCall) (h : Uint256) (txindex : CTxIndex) :
    Keeps SameLength (c.writeBack h txindex) := by
  refine keeps_modify (fun s => ?_)
  rw [SameLength]
  split
  · rfl
  · split <;> rfl

theorem connectInputs_sameLength (c : TxCall) (pos : CDiskTxPos) (nMinFee : Int) :
    Keeps SameLength (c.connectInputs pos nMinFee) := by
  have hvin : ∀ {α : Type} {x : Act Fault ConnState α}, Keeps SameVin x → Keeps SameLength x :=
    fun h s => congrArg List.length (h s)
  refine keeps_bind @SameLength.trans (keeps_doIf sameLength_refl _ ?_)
    (fun _ => hvin (addTxIndex_sameVin c pos))
  refine keeps_bind @SameLength.trans (TxCall.connectVin_keeps sameLength_refl @SameLength.trans
    (fun i f => keeps_modify fun s => List.length_modify f s.vin i) (writeBack_sameLength c) _ _ _)
    (fun rs => ?_)
  exact keeps_bind @SameLength.trans (hvin (NameCall.connectInputs_sameVin _ _))
    (fun _ => hvin (tallyFee_sameVin c _ _))

theorem getValueIn_info {ins : List (CTxIn × CTxInCache)} {nValueIn n : Int}
    (h : getValueIn ins nValueIn = .ok n) (hn : 0 ≤ n) : ∀ p ∈ ins, p.2.fHasPrevInfo = true := by
  induction ins generalizing nValueIn with
  | nil => simp
  | cons first rest ih =>
    obtain ⟨txin, cache⟩ := first
    rw [getValueIn] at h
    split at h
    · obtain rfl := Except.ok.inj h
      omega
    · next hinfo =>
      obtain ⟨nValueIn', -, h⟩ := Except.bind_eq_ok.mp h
      obtain ⟨-, -, h⟩ := Except.bind_eq_ok.mp h
      exact List.forall_mem_cons.mpr ⟨by simpa using hinfo, ih h⟩

-- A transaction taken from the queue is passed over or reaches ConnectInputs.
theorem tryTx_connects {d : D} (h : a.tryTx m e pindexPrev d hash tx = .ok a') :
    a' = a ∨ ∃ nMinFee, (∀ p ∈ a.miner.cachedVin hash tx, p.2.fHasPrevInfo = true) ∧
      a.connect m e pindexPrev hash tx nMinFee = .ok a' := by
  unfold tryTx at h
  split at h
  · exact .inl (Except.ok.inj h).symm
  · obtain ⟨nValueIn, hin, h⟩ := Except.bind_eq_ok.mp h
    split at h
    · exact .inl (Except.ok.inj h).symm
    · next hneg =>
      obtain ⟨nValueOut, -, h⟩ := Except.bind_eq_ok.mp h
      obtain ⟨nFee, -, h⟩ := Except.bind_eq_ok.mp h
      split at h
      · exact .inl (Except.ok.inj h).symm
      · exact .inr ⟨_, getValueIn_info hin (by omega), h⟩

theorem SameCaches.connState (h : SameCaches w a.miner) (hlen : (w.vin hash).length = tx.vin.length) :
    a.connState hash tx = ⟨w.node.chain.dbset, a.mapTestPool, w.node.chain.mapNamePending,
      w.vin hash, a.nFees⟩ := by
  rw [Assembly.connState, h.node, h.cachedVin, cachedVin_snd hlen]

theorem SameCaches.update (h : SameCaches w s) (hash : Uint256) (vin : List CTxInCache) :
    SameCaches { w with vin := Function.update w.vin hash vin }
      { s with vin := Function.update s.vin hash vin } where
  node := h.node
  caches k i := by
    by_cases hk : k = hash
    · subst hk
      simp only [MinerNode.cacheAt, Function.update_self]
    · simp only [MinerNode.cacheAt, Function.update_of_ne hk]
      exact h.caches k i

theorem CachesFit.update (h : CachesFit w) (htx : w.node.mapTransactions hash = some tx)
    {vin : List CTxInCache} (hlen : vin.length = tx.vin.length) :
    CachesFit { w with vin := Function.update w.vin hash vin } := by
  intro k tx' htx'
  by_cases hk : k = hash
  · subst hk
    obtain rfl := Option.some.inj (htx.symm.trans htx')
    exact .inr (by simpa using hlen)
  · simp only [Function.update_of_ne hk]
    exact h k tx' htx'

theorem CachesFit.accept (h : CachesFit s) (e : NodeEnv) (tx : CTransaction)
    (fCheckInputs fLimitFree fRateLimited : Bool) :
    CachesFit (s.acceptToMemoryPool e tx fCheckInputs fLimitFree fRateLimited) := by
  have hconnect : (poolConnect e tx s.node).2.vin.length = tx.vin.length := by
    have hstart : (poolStart s.node tx).vin.length = tx.vin.length := List.length_map _
    unfold poolConnect
    split
    · exact hstart
    · exact Eq.trans (connectInputs_sameLength _ _ _ _) hstart
  unfold MinerNode.acceptToMemoryPool
  dsimp only
  rcases acceptToMemoryPool_cases e tx fCheckInputs fLimitFree fRateLimited s.node with
    ⟨fault, hrun⟩ | ⟨node, hrun, hadmits⟩
  · rw [hrun]
    exact h
  · rw [hrun]
    intro hash tx' htx'
    change node.mapTransactions hash = some tx' at htx'
    rw [hadmits.transactions, Function.update_apply] at htx'
    dsimp only
    rw [Function.update_apply]
    split at htx'
    · next hhash =>
      obtain rfl := Option.some.inj htx'
      rw [if_pos hhash, List.length_map]
      split
      · exact .inr hconnect
      · exact .inr (List.length_map _)
    · next hhash =>
      rw [if_neg hhash]
      exact h hash tx' htx'

theorem vin_ne_nil {env : Env} (h : tx.checkTransaction env = .ok ()) : tx.vin ≠ [] := by
  intro hnil
  rw [CTransaction.checkTransaction, hnil] at h
  cases h

-- The caches of a transaction that reaches ConnectInputs are those of its inputs.
theorem CachesFit.full (h : CachesFit w) (hpool : PoolApart e.env w.node)
    (htx : w.node.mapTransactions hash = some tx)
    (hinfo : ∀ p ∈ w.cachedVin hash tx, p.2.fHasPrevInfo = true) :
    (w.vin hash).length = tx.vin.length ∧ !(w.vin hash).isEmpty ∧
      (w.vin hash).all CTxInCache.fHasPrevInfo := by
  have hne := vin_ne_nil (hpool.checked hash tx htx)
  obtain ⟨txin, rest, hvin⟩ := List.exists_cons_of_ne_nil hne
  rcases h hash tx htx with hnil | hlen
  · have hfirst := hinfo (txin, CTxInCache.empty)
      (by simp [MinerNode.cachedVin, MinerNode.cacheAt, hnil, hvin])
    cases hfirst
  · have hall : ∀ cache ∈ w.vin hash, cache.fHasPrevInfo = true := by
      rw [← cachedVin_snd hlen]
      intro cache hcache
      obtain ⟨p, hp, rfl⟩ := List.mem_map.mp hcache
      exact hinfo p hp
    refine ⟨hlen, ?_, List.all_eq_true.mpr hall⟩
    cases hw : w.vin hash with
    | nil => rw [hw, hvin] at hlen; cases hlen
    | cons cache rest => rfl

theorem mineTxs_connects (htx : w.node.mapTransactions hash = some tx)
    (hprioritised : w.prioritised e hash = true) {nMinFee nFees : Int}
    {mapTestPool : Uint256 → Option CTxIndex} {r : Except Fault Unit} {t : ConnState}
    (hx : exec ((txCall e w tx pindexPrev).connectInputs CDiskTxPos.memPool nMinFee)
      ⟨w.node.chain.dbset, mapTestPool, w.node.chain.mapNamePending, w.vin hash, nFees⟩ = (r, t))
    (hgoes : ∀ fault, r = .error fault → fault.isReject = true) (rest : List (Uint256 × Int)) :
    w.mineTxs e pindexPrev ((hash, nMinFee) :: rest) mapTestPool nFees =
      MinerNode.mineTxs e pindexPrev rest
        (if r.isOk then t.mapTestPool else mapTestPool) t.nFees
        { w with vin := Function.update w.vin hash t.vin } := by
  rw [MinerNode.mineTxs, htx]
  dsimp only
  rw [if_neg (by simp [hprioritised])]
  rw [txCall] at hx
  rw [hx]
  cases r with
  | ok u => rfl
  | error fault =>
    cases fault with
    | reject msg => rfl
    | _ => cases hgoes _ rfl

theorem connect_mines (hpool : PoolApart e.env w.node) (hsame : SameCaches w a.miner)
    (hfit : CachesFit w) (htx : w.node.mapTransactions hash = some tx)
    (hvisits : w.visits e hash = true)
    (hinfo : ∀ p ∈ a.miner.cachedVin hash tx, p.2.fHasPrevInfo = true) {nMinFee : Int}
    (h : a.connect m e pindexPrev hash tx nMinFee = .ok a') :
    ∃ w', w'.node = w.node ∧ SameCaches w' a'.miner ∧ CachesFit w' ∧
      ∀ rest, w.mineTxs e pindexPrev ((hash, nMinFee) :: rest) a.mapTestPool a.nFees =
        w'.mineTxs e pindexPrev rest a'.mapTestPool a'.nFees := by
  rw [hsame.cachedVin] at hinfo
  obtain ⟨hlen, hnonempty, hall⟩ := hfit.full hpool htx hinfo
  have hprioritised : w.prioritised e hash = true := by
    rw [MinerNode.prioritised, hvisits, hnonempty, hall]
    rfl
  have hcall : txCall e a.miner tx pindexPrev = txCall e w tx pindexPrev := by
    rw [txCall, hsame.node, txCall]
  unfold connect at h
  dsimp only at h
  rw [hcall, hsame.connState hlen] at h
  have hlength := connectInputs_sameLength (txCall e w tx pindexPrev) CDiskTxPos.memPool nMinFee
    ⟨w.node.chain.dbset, a.mapTestPool, w.node.chain.mapNamePending, w.vin hash, a.nFees⟩
  rcases hx : exec ((txCall e w tx pindexPrev).connectInputs CDiskTxPos.memPool nMinFee)
    ⟨w.node.chain.dbset, a.mapTestPool, w.node.chain.mapNamePending, w.vin hash, a.nFees⟩ with ⟨r, t⟩
  rw [hx] at h hlength
  have hfit' : CachesFit { w with vin := Function.update w.vin hash t.vin } :=
    hfit.update htx (Eq.trans hlength hlen)
  cases r with
  | ok u =>
    obtain rfl := Except.ok.inj h
    exact ⟨{ w with vin := Function.update w.vin hash t.vin }, rfl, hsame.update hash t.vin, hfit',
      mineTxs_connects htx hprioritised hx (by rintro _ ⟨⟩)⟩
  | error fault =>
    cases fault with
    | reject msg =>
      obtain rfl := Except.ok.inj h
      exact ⟨{ w with vin := Function.update w.vin hash t.vin }, rfl, hsame.update hash t.vin, hfit',
        mineTxs_connects htx hprioritised hx (by rintro _ ⟨⟩; rfl)⟩
    | _ => cases h

-- The attempts at ConnectInputs, in their order, are a list that mineTxs goes through alike.
theorem Collecting.tries
    (h : Collecting m e pindexPrev s q (s.plan e hashes) (coinbase pubKey 0) a tried txs)
    (hpool : PoolApart e.env s.node) (hnode : w.node = s.node) (hsame : SameCaches w a.miner)
    (hfit : CachesFit w) {fuel : Nat} (hrun : a.collect m e pindexPrev fuel = .ok a') :
    ∃ tries, SameCaches (w.mineTxs e pindexPrev tries a.mapTestPool a.nFees) a'.miner := by
  induction fuel generalizing a tried txs w with
  | zero =>
    obtain rfl := Except.ok.inj hrun
    exact ⟨[], hsame⟩
  | succ fuel ih =>
    unfold Assembly.collect at hrun
    cases hqueue : a.mapPriority with
    | nil =>
      rw [hqueue] at hrun
      obtain rfl := Except.ok.inj hrun
      exact ⟨[], hsame⟩
    | cons first rest =>
      rw [hqueue] at hrun
      obtain ⟨a₁, hfirst, hrun⟩ := Except.bind_eq_ok.mp hrun
      obtain ⟨txs₁, hnext⟩ := h.tryFirst hpool hqueue hfirst
      have hvisits : w.visits e first.2 = true := by
        have hlisted := h.waiting.listed first.2
        rw [hqueue] at hlisted
        have hjob := (hlisted.mp (by simp)).1
        rw [MinerNode.plan, List.mem_toFinset, List.mem_filter, MinerNode.queued,
          Bool.and_eq_true] at hjob
        rw [MinerNode.visits, hnode]
        exact hjob.2.1
      unfold Assembly.tryFirst at hfirst
      dsimp only at hfirst
      rw [h.filled.node] at hfirst
      cases htx : s.node.mapTransactions first.2 with
      | none =>
        rw [htx] at hfirst
        cases hfirst
      | some tx =>
        rw [htx] at hfirst
        rcases tryTx_connects hfirst with rfl | ⟨nMinFee, hinfo, hconnect⟩
        · have hskip := ih hnext hnode hsame hfit hrun
          exact hskip
        · obtain ⟨w', hnode', hsame', hfit', hmine⟩ := @connect_mines _ m e pindexPrev w
            { a with mapPriority := rest } a₁ first.2 tx (hnode ▸ hpool) hsame hfit
            (hnode ▸ htx) hvisits hinfo nMinFee hconnect
          obtain ⟨tries, hdone⟩ := ih hnext (hnode'.trans hnode) hsame' hfit' hrun
          exact ⟨(first.2, nMinFee) :: tries, by rw [hmine]; exact hdone⟩

-- What MinerNode.createNewBlock does to the caches for some list of attempts is what the whole
-- function does.
theorem createNewBlock_tries (hpool : PoolApart e.env s.node) (hnodup : hashes.Nodup)
    (hall : ∀ hash, s.visits e hash = true → hash ∈ hashes) (hfit : CachesFit s)
    (h : createNewBlock m e hashes pubKey s = .ok (b, s')) :
    ∃ tries, SameCaches (s.createNewBlock e tries) s' := by
  obtain ⟨pindexPrev, q, a, hcollected⟩ := createNewBlock_ok h
  obtain ⟨hvisited, hranks⟩ := hcollected.visiting hnodup
  have hpass := visited_all (visiting_start e s) hfit (by rwa [List.nil_append])
    (by simp) hcollected.visit
  have hsame : SameCaches (s.visitPool e) q.miner := by
    refine ⟨hvisited.node, fun hash i => ?_⟩
    by_cases hin : hash ∈ hashes
    · exact hpass hash (by rwa [List.nil_append]) i
    · have hno : s.visits e hash = false := by
        by_contra hyes
        exact hin (hall hash (by simpa using hyes))
      have hkept : (s.visitPool e).vin hash = s.vin hash := by
        simp only [MinerNode.visitPool]
        rw [if_neg (by simp [hno])]
      rw [MinerNode.cacheAt, MinerNode.cacheAt, hvisited.vin hash hin, hkept]
  obtain ⟨tries, htries⟩ := (Visiting.collecting hvisited hranks).tries (w := s.visitPool e) hpool
    rfl hsame (hfit.visitPool e) hcollected.collect
  refine ⟨tries, ?_⟩
  rw [hcollected.miner]
  unfold MinerNode.createNewBlock
  have hbest : (s.visitPool e).node.pindexBest.bind (s.visitPool e).node.mapBlockIndex =
      some pindexPrev := hcollected.best
  dsimp only
  rw [hbest]
  exact htries

end Tries

end Assembly

section Sample

def bringsNoCopies (e : NodeEnv) : List CBlock → NodeState → Bool
  | [], _ => true
  | b :: rest, s => ((processCalls e b s).all fun c => copyFreeBool e c.1 c.2) &&
      bringsNoCopies e rest (exec (processBlock e b) s).2

theorem feed_apart {bs : List CBlock} {node : NodeState} (vin : Uint256 → List CTxInCache)
    (h : bringsNoCopies testNetNodeEnv bs node = true) :
    Relation.ReflTransGen (ApartStep testNetEnv) node (MinerNode.feed ⟨node, vin⟩ bs).node := by
  induction bs generalizing node vin with
  | nil => exact .refl
  | cons b rest ih =>
    rw [bringsNoCopies, Bool.and_eq_true] at h
    have hstep : ApartStep testNetEnv node (exec (processBlock testNetNodeEnv b) node).2 :=
      .block testNetNodeEnv b rfl testNetNodeEnv_appends (block_copyFree h.1)
    exact .head hstep (ih _ h.2)

theorem MinerNode.acceptToMemoryPool_node (e : NodeEnv) (tx : CTransaction)
    (fCheckInputs fLimitFree fRateLimited : Bool) (s : MinerNode) :
    (s.acceptToMemoryPool e tx fCheckInputs fLimitFree fRateLimited).node =
      (exec (Namecoin.acceptToMemoryPool e tx fCheckInputs fLimitFree fRateLimited) s.node).2 := by
  unfold MinerNode.acceptToMemoryPool
  dsimp only
  split <;> rfl

theorem tallMiner_free :
    bringsNoCopies testNetNodeEnv (easyBranch ++ minedChain 99).reverse testNetNode = true := by
  decide +kernel

theorem pooledMiner_apart :
    Relation.ReflTransGen (ApartStep testNetEnv) testNetNode pooledMiner.node := by
  refine (feed_apart (fun _ => []) tallMiner_free).tail ?_
  rw [pooledMiner, MinerNode.acceptToMemoryPool_node]
  exact .tx testNetNodeEnv minedChild true false rfl

theorem testNetNode_plain :
    PlainGenesis testNetEnv testNetNodeEnv.hashGenesisBlock testNetNode := by
  have hvtx : (testNetNode.mapBlockIndex testNetNodeEnv.hashGenesisBlock).bind (fun pindex =>
      (testNetNode.disk.readIndexed testNetEnv pindex).map CBlock.vtx) = some [sampleCoinbase 0] := by
    decide +kernel
  intro pindex b hp hread
  rw [hp, Option.bind_some, hread] at hvtx
  have hone : b.vtx = [sampleCoinbase 0] := Option.some.inj hvtx
  rw [hone]
  exact List.forall_mem_singleton.mpr rfl

-- Whole numbers in place of the double priorities, exact on this pool.
def wholeDoubles : Doubles Int where
  zero := 0
  addWeighted d nValue nConf := d + nValue * nConf
  div d n := d / n
  neg d := -d
  lt d d' := decide (d < d')
  allowFree d := decide (coin * 144 / 250 < d)

def minedTemplate : Except Fault (CBlock × MinerNode) :=
  Assembly.createNewBlock wholeDoubles testNetNodeEnv [minedChild.getHash testNetEnv]
    (List.replicate 33 2) pooledMiner

theorem minedTemplate_vtx :
    (minedTemplate.toOption.map fun r => r.1.vtx.tail) = some [minedChild] := by
  decide +kernel

theorem minedTemplate_assembled : ∃ b s' pindexPrev txs nFees, minedTemplate = .ok (b, s') ∧
    b.vtx.tail = [minedChild] ∧ Assembly.WellAssembled wholeDoubles testNetNodeEnv pooledMiner
      [minedChild.getHash testNetEnv] pindexPrev (List.replicate 33 2) b txs nFees := by
  have hvtx := minedTemplate_vtx
  cases hrun : minedTemplate with
  | error fault =>
    rw [hrun] at hvtx
    cases hvtx
  | ok r =>
    rw [hrun] at hvtx
    have htail : r.1.vtx.tail = [minedChild] := Option.some.inj hvtx
    rw [minedTemplate] at hrun
    obtain ⟨-, pindexPrev, txs, nFees, -, hwell⟩ :=
      Assembly.assembled_of_run (e := testNetNodeEnv) testNetNode_started testNetNode_plain
        pooledMiner_apart (List.nodup_singleton _) hrun
    exact ⟨r.1, r.2, pindexPrev, txs, nFees, rfl, htail, hwell⟩

end Sample

end Namecoin
