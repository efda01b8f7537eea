import Namecoin.Mining.PriorityQueue
import Namecoin.Mining.TestPool
import Namecoin.Node.PoolApart

namespace Namecoin

open Act

section Visiting

variable {D : Type} {m : Doubles D} {e : NodeEnv} {s : MinerNode} {q q' : TxQueue D}
  {hash : Uint256} {seen : List Uint256}

structure Visiting (e : NodeEnv) (s : MinerNode) (seen : List Uint256) (q : TxQueue D) : Prop where
  node : q.miner.node = s.node
  vin : ∀ hash, hash ∉ seen → q.miner.vin hash = s.vin hash
  waiting : Waiting.Ok (s.plan e seen) ⟨q.mapPriority.map Prod.snd, [], []⟩
  linked : Enrolled (s.plan e seen) [] q.vOrphan q.mapDependers

theorem MinerNode.plan_append (e : NodeEnv) (s : MinerNode) (seen : List Uint256) (hash : Uint256) :
    s.plan e (seen ++ [hash]) =
      if s.queued e hash then (s.plan e seen).add hash else s.plan e seen := by
  unfold plan Waiting.Plan.add
  rw [List.filter_append]
  cases hqueued : s.queued e hash with
  | true =>
    rw [if_pos rfl]
    congr 1
    ext k
    simp [hqueued]
  | false => simp [hqueued]

theorem MinerNode.plan_queued (seen : List Uint256) (h : s.queued e hash = true) :
    s.plan e (seen ++ [hash]) = (s.plan e seen).add hash := by
  rw [plan_append, if_pos h]

theorem MinerNode.plan_unqueued (seen : List Uint256) (h : s.queued e hash = false) :
    s.plan e (seen ++ [hash]) = s.plan e seen := by
  rw [plan_append, h, if_neg Bool.false_ne_true]

theorem MinerNode.not_mem_plan (h : hash ∉ seen) : hash ∉ (s.plan e seen).jobs := by
  rw [plan, List.mem_toFinset, List.mem_filter]
  exact fun hin => h hin.1

theorem visiting_start (e : NodeEnv) (s : MinerNode) : Visiting e s [] (TxQueue.start s : TxQueue D) where
  node := rfl
  vin hash _ := rfl
  waiting := ⟨by simp [MinerNode.plan, TxQueue.start], List.nodup_nil⟩
  linked := ⟨List.nodup_nil, by simp [MinerNode.plan, TxQueue.start],
    (by simp [TxQueue.start]), by simp [TxQueue.start]⟩

theorem Visiting.unqueued (h : Visiting e s seen q) (hqueued : s.queued e hash = false) :
    Visiting e s (seen ++ [hash]) q := by
  have hplan := MinerNode.plan_unqueued seen hqueued
  refine ⟨h.node, fun k hk => h.vin k fun hin => hk (List.mem_append_left _ hin), ?_, ?_⟩
  · rw [hplan]
    exact h.waiting
  · rw [hplan]
    exact h.linked

theorem Visiting.vin_update (h : Visiting e s seen q) (vin : List CTxInCache) {k : Uint256}
    (hk : k ∉ seen ++ [hash]) : Function.update q.miner.vin hash vin k = s.vin k := by
  rw [List.mem_append, List.mem_singleton, not_or] at hk
  rw [Function.update_of_ne hk.2]
  exact h.vin k hk.1

theorem Visiting.caches (h : Visiting e s seen q) {vin : List CTxInCache}
    (hplan : s.plan e (seen ++ [hash]) = s.plan e seen) : Visiting e s (seen ++ [hash])
      { q with miner := { q.miner with vin := Function.update q.miner.vin hash vin } } := by
  refine ⟨h.node, fun k hk => h.vin_update vin hk, ?_, ?_⟩
  · rw [hplan]
    exact h.waiting
  · rw [hplan]
    exact h.linked

theorem Visiting.insert (h : Visiting e s seen q) (hnew : hash ∉ seen) {nSize : Nat} {r : VisitedTx D}
    (hdeps : r.setDependsOn = s.parents e.env hash)
    (hqueued : s.queued e hash = (!r.setDependsOn.isEmpty || r.dPriority.isSome)) :
    Visiting e s (seen ++ [hash]) (q.insert m hash nSize r) := by
  have hjob : hash ∉ (s.plan e seen).jobs := MinerNode.not_mem_plan hnew
  have hset : (s.plan e seen).deps hash = r.setDependsOn.toFinset := by
    rw [hdeps]
    rfl
  have hvin : ∀ k, k ∉ seen ++ [hash] → Function.update q.miner.vin hash r.vin k = s.vin k :=
    fun k hk => h.vin_update r.vin hk
  unfold TxQueue.insert
  dsimp only
  split
  · rename_i hnone
    have hempty : (s.plan e seen).deps hash = ∅ := by
      rw [hset, hnone]
      rfl
    split
    · rename_i hprio
      refine h.caches ?_
      have hno : s.queued e hash = false := by
        rw [hqueued, hnone, Option.map_eq_none_iff.mp hprio]
        rfl
      exact MinerNode.plan_unqueued seen hno
    · rename_i d hprio
      have hyes : s.queued e hash = true := by
        obtain ⟨d', hd, -⟩ := Option.map_eq_some_iff.mp hprio
        rw [hqueued, hnone, hd]
        rfl
      have hplan := MinerNode.plan_queued seen hyes
      refine ⟨h.node, hvin, ?_, ?_⟩
      · rw [hplan]
        refine h.waiting.add_ready hjob ?_ (insertPriority_hashes _ _)
        rw [Waiting.Plan.left, hempty]
        rfl
      · rw [hplan]
        exact h.linked.add_ready hempty
  · rename_i hsome
    have hyes : s.queued e hash = true := by
      rw [hqueued]
      simp [hsome]
    have hplan := MinerNode.plan_queued seen hyes
    refine ⟨h.node, hvin, ?_, ?_⟩
    · rw [hplan]
      refine h.waiting.add_waiting ?_
      rw [Waiting.Plan.left, hset]
      simpa using hsome
    · rw [hplan]
      exact h.linked.add_waiting hjob hsome hset

theorem Visiting.visit (h : Visiting e s seen q) (hnew : hash ∉ seen) (hrun : q.visit m e hash = .ok q') :
    Visiting e s (seen ++ [hash]) q' := by
  have hvisits : q.miner.visits e hash = s.visits e hash := by
    unfold MinerNode.visits
    rw [h.node]
  unfold TxQueue.visit at hrun
  rw [h.node] at hrun
  cases hpool : s.node.mapTransactions hash with
  | none =>
    rw [hpool] at hrun
    obtain rfl := Except.ok.inj hrun
    refine h.unqueued ?_
    simp [MinerNode.queued, MinerNode.visits, hpool]
  | some tx =>
    rw [hpool] at hrun
    dsimp only at hrun
    rw [hvisits] at hrun
    split at hrun
    · rename_i hno
      obtain rfl := Except.ok.inj hrun
      refine h.unqueued ?_
      simp [MinerNode.queued, hno]
    · rename_i hyes
      obtain ⟨r, hvisit, hrun⟩ := Except.bind_eq_ok.mp hrun
      obtain rfl := Except.ok.inj hrun
      have hcached : q.miner.cachedVin hash tx = s.cachedVin hash tx := by
        unfold MinerNode.cachedVin MinerNode.cacheAt
        rw [h.vin hash hnew]
      rw [hcached] at hvisit
      obtain ⟨hdeps, hprio⟩ := visitTx_ok hvisit
      have hparents : s.parents e.env hash = r.setDependsOn := by
        rw [hdeps, MinerNode.parents, hpool]
      refine h.insert hnew hparents.symm ?_
      rw [MinerNode.queued, hparents, hpool, Option.any_some, hprio]
      simp [hyes]

theorem Visiting.mem_seen (h : Visiting e s seen q) :
    (∀ x ∈ q.mapPriority, x.2 ∈ seen) ∧ ∀ o ∈ q.vOrphan, o.ptx ∈ seen := by
  have hjob : ∀ hash, hash ∈ (s.plan e seen).jobs → hash ∈ seen := fun hash hin =>
    by_contra fun hnot => MinerNode.not_mem_plan hnot hin
  constructor
  · intro x hx
    exact hjob x.2 ((h.waiting.listed x.2).mp (List.mem_map_of_mem hx)).1
  · intro o ho
    exact hjob o.ptx ((h.linked.listed o.ptx).mp (List.mem_map_of_mem ho)).1

-- The pass over the pool changes the caches of a transaction only when it visits it.
theorem Visiting.ranks_visit (h : Visiting e s seen q) (hnew : hash ∉ seen)
    (hranks : Ranks m e s q.miner.vin q.vOrphan q.mapPriority) (hrun : q.visit m e hash = .ok q') :
    Ranks m e s q'.miner.vin q'.vOrphan q'.mapPriority := by
  unfold TxQueue.visit at hrun
  rw [h.node] at hrun
  cases hpool : s.node.mapTransactions hash with
  | none =>
    rw [hpool] at hrun
    obtain rfl := Except.ok.inj hrun
    exact hranks
  | some tx =>
    rw [hpool] at hrun
    dsimp only at hrun
    split at hrun
    · obtain rfl := Except.ok.inj hrun
      exact hranks
    · obtain ⟨r, hvisit, hrun⟩ := Except.bind_eq_ok.mp hrun
      obtain rfl := Except.ok.inj hrun
      have hcached : q.miner.cachedVin hash tx = s.cachedVin hash tx := by
        unfold MinerNode.cachedVin MinerNode.cacheAt
        rw [h.vin hash hnew]
      rw [hcached] at hvisit
      obtain ⟨hqueue, horphans⟩ := h.mem_seen
      have hother : ∀ k ∈ seen, Function.update q.miner.vin hash r.vin k = q.miner.vin k := by
        intro k hk
        have hne : k ≠ hash := by
          rintro rfl
          exact hnew hk
        exact Function.update_of_ne hne _ _
      have hkept : Ranks m e s (Function.update q.miner.vin hash r.vin) q.vOrphan q.mapPriority :=
        hranks.congr (fun x hx => hother x.2 (hqueue x hx)) (fun o ho => hother o.ptx (horphans o ho))
      have hranked : ∀ d, d = (r.dPriority.map fun d => m.div d tx.getSerializeSize).getD m.zero →
          Ranked m e s hash d (Function.update q.miner.vin hash r.vin hash) :=
        fun d hd => ⟨tx, r, hpool, hvisit, hd, Function.update_self _ _ _⟩
      unfold TxQueue.insert
      dsimp only
      split
      · split
        · exact hkept
        · rename_i d hprio
          exact hkept.insert (hranked d (by rw [hprio]; rfl))
      · exact hkept.wait (hranked _ rfl)

theorem Visiting.ranks_visitAll {hashes : List Uint256} (h : Visiting e s seen q)
    (hnodup : (seen ++ hashes).Nodup) (hranks : Ranks m e s q.miner.vin q.vOrphan q.mapPriority)
    (hrun : q.visitAll m e hashes = .ok q') :
    Ranks m e s q'.miner.vin q'.vOrphan q'.mapPriority := by
  induction hashes generalizing seen q with
  | nil =>
    obtain rfl := Except.ok.inj hrun
    exact hranks
  | cons hash rest ih =>
    obtain ⟨q₁, hvisit, hrun⟩ := Except.bind_eq_ok.mp hrun
    have hnew : hash ∉ seen := by
      intro hin
      exact (List.nodup_append.mp hnodup).2.2 hash hin hash List.mem_cons_self rfl
    refine ih (h.visit hnew hvisit) ?_ (h.ranks_visit hnew hranks hvisit) hrun
    rw [List.append_assoc]
    exact hnodup

theorem ranks_start (e : NodeEnv) (s : MinerNode) :
    Ranks m e s (TxQueue.start s : TxQueue D).miner.vin (TxQueue.start s : TxQueue D).vOrphan
      (TxQueue.start s : TxQueue D).mapPriority :=
  ⟨(by simp [TxQueue.start]), by simp [TxQueue.start]⟩

theorem Visiting.visitAll {hashes : List Uint256} (h : Visiting e s seen q)
    (hnodup : (seen ++ hashes).Nodup) (hrun : q.visitAll m e hashes = .ok q') :
    Visiting e s (seen ++ hashes) q' := by
  induction hashes generalizing seen q with
  | nil =>
    obtain rfl := Except.ok.inj hrun
    rw [List.append_nil]
    exact h
  | cons hash rest ih =>
    obtain ⟨q₁, hvisit, hrun⟩ := Except.bind_eq_ok.mp hrun
    have hnew : hash ∉ seen := by
      intro hin
      exact (List.nodup_append.mp hnodup).2.2 hash hin hash List.mem_cons_self rfl
    have hnext := ih (h.visit hnew hvisit) (by
      rw [List.append_assoc]
      exact hnodup) hrun
    rwa [List.append_assoc] at hnext

end Visiting

namespace Assembly

section Filling

variable {D : Type} {m : Doubles D} {e : NodeEnv} {pindexPrev : CBlockIndex} {s : MinerNode}
  {hash : Uint256} {tx txNew : CTransaction} {txs : List CTransaction} {d : D} {a a' : Assembly D}

-- Why a transaction taken from the queue with a priority stays out of the block.
inductive Refuses (m : Doubles D) (e : NodeEnv) (pindexPrev : CBlockIndex) (dPriority : D)
    (hash : Uint256) (tx : CTransaction) (a : Assembly D) : Prop
  | full (h : a.fits e.env tx = false)
  | noInfo {n : Int} (h : getValueIn (a.miner.cachedVin hash tx) 0 = .ok n) (hneg : n < 0)
  | lowFee {nValueIn nValueOut : Int}
      (hin : getValueIn (a.miner.cachedVin hash tx) 0 = .ok nValueIn)
      (hout : tx.getValueOut = .ok nValueOut) (hfee : nValueIn - nValueOut < a.minFee m dPriority tx)
  | rejected {msg : String} {r : ConnState}
      (h : exec ((txCall e a.miner tx pindexPrev).connectInputs CDiskTxPos.memPool
        (a.minFee m dPriority tx)) (a.connState hash tx) = (.error (.reject msg), r))

theorem Refuses.unpopped {mapPriority : List (D × Uint256)}
    (h : ({ a with mapPriority := mapPriority } : Assembly D).Refuses m e pindexPrev d hash tx) :
    a.Refuses m e pindexPrev d hash tx := by
  cases h with
  | full h => exact .full h
  | noInfo h hneg => exact .noInfo h hneg
  | lowFee hin hout hfee => exact .lowFee hin hout hfee
  | rejected h => exact .rejected h

theorem connect_cases (h : a.connect m e pindexPrev hash tx (a.minFee m d tx) = .ok a') :
    (a.Refuses m e pindexPrev d hash tx ∧
        ∃ r, TxCall.FeesLeft (a.connState hash tx) r ∧ a' = a.withConn hash r) ∨
      ∃ u r, exec ((txCall e a.miner tx pindexPrev).connectInputs CDiskTxPos.memPool
          (a.minFee m d tx)) (a.connState hash tx) = (.ok u, r) ∧
        a' = (a.withConn hash r).add m e.env tx r.mapTestPool := by
  unfold connect at h
  dsimp only at h
  rcases hx : exec ((txCall e a.miner tx pindexPrev).connectInputs CDiskTxPos.memPool
    (a.minFee m d tx)) (a.connState hash tx) with ⟨r, t⟩
  rw [hx] at h
  cases r with
  | ok u =>
    obtain rfl := Except.ok.inj h
    exact .inr ⟨u, t, rfl, rfl⟩
  | error fault =>
    cases fault with
    | reject msg =>
      obtain rfl := Except.ok.inj h
      exact .inl ⟨.rejected hx, t, TxCall.connectInputs_feesLeft rfl hx, rfl⟩
    | assertion => cases h
    | exception msg => cases h
    | overflow => cases h
    | undefined => cases h

theorem tryTx_cases (h : a.tryTx m e pindexPrev d hash tx = .ok a') :
    (a.Refuses m e pindexPrev d hash tx ∧ (a' = a ∨
        ∃ r, TxCall.FeesLeft (a.connState hash tx) r ∧ a' = a.withConn hash r)) ∨
      ∃ nMinFee u r, a.fits e.env tx = true ∧
        exec ((txCall e a.miner tx pindexPrev).connectInputs CDiskTxPos.memPool nMinFee)
          (a.connState hash tx) = (.ok u, r) ∧
        a' = (a.withConn hash r).add m e.env tx r.mapTestPool := by
  unfold tryTx at h
  split at h
  · rename_i hfull
    obtain rfl := Except.ok.inj h
    exact .inl ⟨.full hfull, .inl rfl⟩
  · rename_i hfits
    obtain ⟨nValueIn, hin, h⟩ := Except.bind_eq_ok.mp h
    split at h
    · rename_i hneg
      obtain rfl := Except.ok.inj h
      exact .inl ⟨.noInfo hin hneg, .inl rfl⟩
    · obtain ⟨nValueOut, hout, h⟩ := Except.bind_eq_ok.mp h
      obtain ⟨nFee, hfee, h⟩ := Except.bind_eq_ok.mp h
      obtain ⟨rfl, -⟩ := add64_ok.mp hfee
      split at h
      · rename_i hlow
        obtain rfl := Except.ok.inj h
        exact .inl ⟨.lowFee hin hout hlow, .inl rfl⟩
      · rcases connect_cases h with ⟨hrefuses, hleft⟩ | ⟨u, r, hx, hadd⟩
        · exact .inl ⟨hrefuses, .inr hleft⟩
        · exact .inr ⟨_, u, r, by simpa using hfits, hx, hadd⟩

-- The fees of the transactions, as long as their total is in range.
def PaidBy (env : Env) (txs : List CTransaction) (nFees : Int) : Prop :=
  ∃ paid : List Int, List.Forall₂ (fun tx fee => ∃ prevs, Pays env tx prevs fee) txs paid ∧
    nFees = paid.sum

structure Filled (e : NodeEnv) (s : MinerNode) (txNew : CTransaction) (txs : List CTransaction)
    (a : Assembly D) : Prop where
  node : a.miner.node = s.node
  vtx : a.vtx = txNew :: txs
  ledger : TxsApplied e.env txs s.node.chain.dbset.tx
    (overlay a.mapTestPool s.node.chain.dbset.tx)
  size : a.nBlockSize = 1000 + (txs.map CTransaction.getSerializeSize).sum
  size_lt : a.nBlockSize < maxBlockSizeGen
  sigOps : a.nBlockSigOps = 100 + (txs.map CTransaction.getSigOpCount).sum
  sigOps_lt : a.nBlockSigOps < maxBlockSigops
  locks : checkDbLockLimit e.env a.vtx = true
  fees_nonneg : 0 ≤ a.nFees
  fees : moneyRange a.nFees = true → PaidBy e.env txs a.nFees

theorem Filled.withConn (h : Filled e s txNew txs a) {r : ConnState}
    (hleft : TxCall.FeesLeft (a.connState hash tx) r) :
    Filled e s txNew txs (a.withConn hash r) := by
  refine ⟨h.node, h.vtx, h.ledger, h.size, h.size_lt, h.sigOps, h.sigOps_lt, h.locks, ?_, ?_⟩
  · show 0 ≤ r.nFees
    have hnonneg := h.fees_nonneg
    rcases hleft with heq | ⟨hle, -⟩
    · rw [heq]
      exact hnonneg
    · exact hnonneg.trans hle
  · intro hrange
    change moneyRange r.nFees = true at hrange
    show PaidBy e.env txs r.nFees
    rcases hleft with heq | ⟨-, hout⟩
    · rw [heq] at hrange ⊢
      exact h.fees hrange
    · rw [hout] at hrange
      cases hrange

theorem Filled.add (h : Filled e s txNew txs a) (hpool : PoolApart e.env s.node)
    (htx : s.node.mapTransactions hash = some tx) (hnew : hash ∉ txHashes e.env txs)
    (hfits : a.fits e.env tx = true) {nMinFee : Int} {u : Unit} {r : ConnState}
    (hx : exec ((txCall e a.miner tx pindexPrev).connectInputs CDiskTxPos.memPool nMinFee)
      (a.connState hash tx) = (.ok u, r)) :
    Filled e s txNew (txs ++ [tx]) ((a.withConn hash r).add m e.env tx r.mapTestPool) := by
  have hname := hpool.named hash tx htx
  have hdb : (a.connState hash tx).dbset = s.node.chain.dbset := by
    rw [connState, h.node]
  have hover : (a.connState hash tx).overlay = overlay a.mapTestPool s.node.chain.dbset.tx := by
    rw [ConnState.overlay, hdb]
    rfl
  have hfresh : (a.connState hash tx).overlay (tx.getHash e.env) = none := by
    rw [hover]
    by_contra hne
    rcases (h.ledger.run.has_iff (tx.getHash e.env)).mp hne with hold | hin
    · exact hold (hname ▸ hpool.apart hash tx htx)
    · exact hnew (hname ▸ hin)
  obtain ⟨happlied, hsame, prevs, fee, hpays, hfees, hrange⟩ :=
    @TxCall.connectInputs_mined (txCall e a.miner tx pindexPrev) _ _ rfl rfl
      (hpool.loose hash tx htx) _ _ _ hfresh hx
  have hafter : r.overlay = overlay r.mapTestPool s.node.chain.dbset.tx := by
    rw [ConnState.overlay, hsame, hdb]
  rw [hover, hafter] at happlied
  rw [fits, Bool.and_eq_true, Bool.and_eq_true, decide_eq_true_eq, decide_eq_true_eq] at hfits
  have hfees' : r.nFees = a.nFees + fee := hfees
  have hnonneg := h.fees_nonneg
  have hfee := hpays.fee_nonneg
  refine ⟨h.node, ?_, h.ledger.append (.cons happlied (.nil _)), ?_, hfits.1.1, ?_, hfits.1.2,
    hfits.2, ?_, fun hr => ?_⟩
  · show a.vtx ++ [tx] = _
    rw [h.vtx]
    rfl
  · show a.nBlockSize + tx.getSerializeSize = _
    rw [h.size, List.map_append, List.sum_append, List.map_singleton, List.sum_singleton]
    omega
  · show a.nBlockSigOps + tx.getSigOpCount = _
    rw [h.sigOps, List.map_append, List.sum_append, List.map_singleton, List.sum_singleton]
    omega
  · show 0 ≤ r.nFees
    omega
  · change moneyRange r.nFees = true at hr
    show PaidBy e.env (txs ++ [tx]) r.nFees
    obtain ⟨-, hhigh⟩ := moneyRange_iff.mp hr
    obtain ⟨paid, hpaid, hsum⟩ := h.fees (moneyRange_iff.mpr ⟨hnonneg, by omega⟩)
    refine ⟨paid ++ [fee], List.rel_append hpaid (.cons ⟨prevs, hpays⟩ .nil), ?_⟩
    rw [List.sum_append, List.sum_singleton, ← hsum, hfees']

theorem Filled.queue (h : Filled e s txNew txs a) (mapPriority : List (D × Uint256)) :
    Filled e s txNew txs { a with mapPriority := mapPriority } :=
  ⟨h.node, h.vtx, h.ledger, h.size, h.size_lt, h.sigOps, h.sigOps_lt, h.locks, h.fees_nonneg, h.fees⟩

end Filling

section Collecting

variable {D : Type} {m : Doubles D} {e : NodeEnv} {pindexPrev : CBlockIndex} {s : MinerNode}
  {q : TxQueue D} {hash : Uint256} {tx txNew : CTransaction} {txs : List CTransaction}
  {a a' : Assembly D} {p : Waiting.Plan Uint256 Uint256} {tried : List Uint256}

def CollectStep (m : Doubles D) (e : NodeEnv) (pindexPrev : CBlockIndex) (a a' : Assembly D) : Prop :=
  ∃ first rest, a.mapPriority = first :: rest ∧
    ({ a with mapPriority := rest } : Assembly D).tryFirst m e pindexPrev first = .ok a'

-- The queue was taken down to a transaction that the block, as it then was, refuses.
structure RefusedAt (m : Doubles D) (e : NodeEnv) (pindexPrev : CBlockIndex) (s : MinerNode)
    (q : TxQueue D) (txNew : CTransaction) (pre : List CTransaction) (hash : Uint256)
    (tx : CTransaction) (d : D) (a : Assembly D) : Prop where
  reached : Relation.ReflTransGen (CollectStep m e pindexPrev) (start txNew q) a
  first : a.mapPriority.head? = some (m.neg d, hash)
  pooled : s.node.mapTransactions hash = some tx
  ranked : Ranked m e s hash d (a.miner.vin hash)
  filled : Filled e s txNew pre a
  refuses : a.Refuses m e pindexPrev (m.neg (m.neg d)) hash tx

-- A transaction that was tried is in the block or was refused against the block as it then was.
def Decided (m : Doubles D) (e : NodeEnv) (pindexPrev : CBlockIndex) (s : MinerNode) (q : TxQueue D)
    (txNew : CTransaction) (txs : List CTransaction) (hash : Uint256) : Prop :=
  hash ∈ txHashes e.env txs ∨ ∃ pre tx d a, pre <+: txs ∧
    RefusedAt m e pindexPrev s q txNew pre hash tx d a

structure Collecting (m : Doubles D) (e : NodeEnv) (pindexPrev : CBlockIndex) (s : MinerNode)
    (q : TxQueue D) (p : Waiting.Plan Uint256 Uint256) (txNew : CTransaction) (a : Assembly D)
    (tried : List Uint256) (txs : List CTransaction) : Prop where
  reached : Relation.ReflTransGen (CollectStep m e pindexPrev) (start txNew q) a
  vin : ∀ hash, hash ∉ tried → a.miner.vin hash = q.miner.vin hash
  ranks : Ranks m e s q.miner.vin a.vOrphan a.mapPriority
  filled : Filled e s txNew txs a
  waiting : Waiting.Ok p ⟨a.mapPriority.map Prod.snd, tried, (txHashes e.env txs).reverse⟩
  linked : Enrolled p (txHashes e.env txs).reverse a.vOrphan a.mapDependers
  pooled : ∀ tx ∈ txs, ∃ hash ∈ tried, s.node.mapTransactions hash = some tx
  decided : ∀ hash ∈ tried, Decided m e pindexPrev s q txNew txs hash

theorem txHashes_snoc (env : Env) (txs : List CTransaction) (tx : CTransaction) :
    txHashes env (txs ++ [tx]) = txHashes env txs ++ [tx.getHash env] := by
  rw [txHashes, txHashes, List.map_append, List.map_singleton]

theorem Decided.append (h : Decided m e pindexPrev s q txNew txs hash) (tx : CTransaction) :
    Decided m e pindexPrev s q txNew (txs ++ [tx]) hash := by
  rcases h with hin | ⟨pre, other, d, a, hpre, hrefused⟩
  · refine .inl ?_
    rw [txHashes_snoc]
    exact List.mem_append_left _ hin
  · exact .inr ⟨pre, other, d, a, hpre.trans (List.prefix_append _ _), hrefused⟩

theorem Collecting.first_untried (h : Collecting m e pindexPrev s q p txNew a tried txs)
    {first : D × Uint256} {rest : List (D × Uint256)} (hqueue : a.mapPriority = first :: rest) :
    first.2 ∉ tried := by
  have hnodup := h.waiting.nodup
  rw [hqueue, List.map_cons] at hnodup
  exact fun hin => (List.nodup_append.mp hnodup).2.2 _ hin _ List.mem_cons_self rfl

theorem Collecting.hash_new (h : Collecting m e pindexPrev s q p txNew a tried txs)
    (hpool : PoolApart e.env s.node) {first : D × Uint256} {rest : List (D × Uint256)}
    (hqueue : a.mapPriority = first :: rest) : first.2 ∉ txHashes e.env txs := by
  intro hin
  obtain ⟨tx, htx, hname⟩ := List.mem_map.mp hin
  obtain ⟨hash, htried, hget⟩ := h.pooled tx htx
  have hkey := hpool.named hash tx hget
  have hmem : first.2 ∈ tried := by
    rw [← hname, hkey]
    exact htried
  exact h.first_untried hqueue hmem

theorem Collecting.vin_next (h : Collecting m e pindexPrev s q p txNew a tried txs) {k : Uint256}
    (hvin : ∀ hash, hash ≠ k → a'.miner.vin hash = a.miner.vin hash) (hash : Uint256)
    (hnew : hash ∉ tried ++ [k]) : a'.miner.vin hash = q.miner.vin hash := by
  rw [List.mem_append, List.mem_singleton, not_or] at hnew
  exact (hvin hash hnew.2).trans (h.vin hash hnew.1)

theorem Collecting.refusedAt (h : Collecting m e pindexPrev s q p txNew a tried txs)
    {first : D × Uint256} {rest : List (D × Uint256)} (hqueue : a.mapPriority = first :: rest)
    (htx : s.node.mapTransactions first.2 = some tx)
    (hrefuses : ({ a with mapPriority := rest } : Assembly D).Refuses m e pindexPrev
      (m.neg first.1) first.2 tx) :
    ∃ d, RefusedAt m e pindexPrev s q txNew txs first.2 tx d a := by
  obtain ⟨d, hkey, hranked⟩ := h.ranks.queue first (by rw [hqueue]; exact List.mem_cons_self)
  have hrefuses := hrefuses.unpopped
  rw [hkey] at hrefuses
  rw [← h.vin first.2 (h.first_untried hqueue)] at hranked
  refine ⟨d, h.reached, ?_, htx, hranked, h.filled, hrefuses⟩
  rw [hqueue, ← hkey]
  rfl

theorem Collecting.refused (h : Collecting m e pindexPrev s q p txNew a tried txs)
    {first : D × Uint256} {rest : List (D × Uint256)} (hqueue : a.mapPriority = first :: rest)
    (htx : s.node.mapTransactions first.2 = some tx) (hstep : CollectStep m e pindexPrev a a')
    (hvin : ∀ hash, hash ≠ first.2 → a'.miner.vin hash = a.miner.vin hash)
    (hfilled : Filled e s txNew txs a') (hqueue' : a'.mapPriority = rest)
    (horphan : a'.vOrphan = a.vOrphan) (hdependers : a'.mapDependers = a.mapDependers)
    (hrefuses : ({ a with mapPriority := rest } : Assembly D).Refuses m e pindexPrev
      (m.neg first.1) first.2 tx) :
    Collecting m e pindexPrev s q p txNew a' (tried ++ [first.2]) txs := by
  obtain ⟨d, hrefused⟩ := h.refusedAt hqueue htx hrefuses
  have hranks := h.ranks
  have hwaiting := h.waiting
  rw [hqueue] at hranks
  rw [hqueue, List.map_cons] at hwaiting
  refine ⟨h.reached.tail hstep, h.vin_next hvin, ?_, hfilled, ?_, ?_, ?_, ?_⟩
  · rw [horphan, hqueue']
    exact ⟨fun x hx => hranks.queue x (List.mem_cons_of_mem _ hx), hranks.orphans⟩
  · rw [hqueue']
    exact hwaiting.refuse
  · rw [horphan, hdependers]
    exact h.linked
  · intro x hx
    obtain ⟨hash, htried, hget⟩ := h.pooled x hx
    exact ⟨hash, List.mem_append_left _ htried, hget⟩
  · intro hash hin
    rcases List.mem_append.mp hin with hold | hlast
    · exact h.decided hash hold
    · rw [List.mem_singleton] at hlast
      subst hlast
      exact .inr ⟨txs, tx, d, a, List.prefix_rfl, hrefused⟩

theorem Collecting.accepted (h : Collecting m e pindexPrev s q p txNew a tried txs)
    (hpool : PoolApart e.env s.node) {first : D × Uint256} {rest : List (D × Uint256)}
    (hqueue : a.mapPriority = first :: rest) (htx : s.node.mapTransactions first.2 = some tx)
    {r : ConnState} (hstep : CollectStep m e pindexPrev a
      ((({ a with mapPriority := rest } : Assembly D).withConn first.2 r).add m e.env tx
        r.mapTestPool))
    (hfilled : Filled e s txNew (txs ++ [tx])
      ((({ a with mapPriority := rest } : Assembly D).withConn first.2 r).add m e.env tx
        r.mapTestPool)) :
    Collecting m e pindexPrev s q p txNew
      ((({ a with mapPriority := rest } : Assembly D).withConn first.2 r).add m e.env tx
        r.mapTestPool) (tried ++ [first.2]) (txs ++ [tx]) := by
  have hname := hpool.named first.2 tx htx
  have hranks := h.ranks
  have hwaiting := h.waiting
  rw [hqueue] at hranks
  rw [hqueue, List.map_cons] at hwaiting
  have hrest : Ranks m e s q.miner.vin a.vOrphan rest :=
    ⟨fun x hx => hranks.queue x (List.mem_cons_of_mem _ hx), hranks.orphans⟩
  have hdone : (txHashes e.env (txs ++ [tx])).reverse =
      tx.getHash e.env :: (txHashes e.env txs).reverse := by
    rw [txHashes_snoc, List.reverse_append, List.reverse_singleton, List.singleton_append]
  obtain ⟨hlinked, released, hreleased, hperm⟩ :=
    @Enrolled.release D m p _ _ _ h.linked (tx.getHash e.env) rest
  refine ⟨h.reached.tail hstep,
    h.vin_next fun hash hne => Function.update_of_ne hne _ _, hrest.release, hfilled, ?_, ?_, ?_, ?_⟩
  · rw [hdone]
    exact hwaiting.accept hreleased hperm
  · rw [hdone]
    exact hlinked
  · intro x hx
    rcases List.mem_append.mp hx with hold | hlast
    · obtain ⟨hash, htried, hget⟩ := h.pooled x hold
      exact ⟨hash, List.mem_append_left _ htried, hget⟩
    · rw [List.mem_singleton] at hlast
      subst hlast
      exact ⟨first.2, List.mem_append_right _ (List.mem_singleton_self _), htx⟩
  · intro hash hin
    rcases List.mem_append.mp hin with hold | hlast
    · exact (h.decided hash hold).append tx
    · rw [List.mem_singleton] at hlast
      subst hlast
      refine .inl ?_
      rw [txHashes_snoc, hname]
      exact List.mem_append_right _ (List.mem_singleton_self _)

theorem Collecting.tryFirst (h : Collecting m e pindexPrev s q p txNew a tried txs)
    (hpool : PoolApart e.env s.node) {first : D × Uint256} {rest : List (D × Uint256)}
    (hqueue : a.mapPriority = first :: rest)
    (hrun : ({ a with mapPriority := rest } : Assembly D).tryFirst m e pindexPrev first = .ok a') :
    ∃ txs', Collecting m e pindexPrev s q p txNew a' (tried ++ [first.2]) txs' := by
  have hstep : CollectStep m e pindexPrev a a' := ⟨first, rest, hqueue, hrun⟩
  unfold Assembly.tryFirst at hrun
  dsimp only at hrun
  rw [h.filled.node] at hrun
  cases htx : s.node.mapTransactions first.2 with
  | none =>
    rw [htx] at hrun
    cases hrun
  | some tx =>
    rw [htx] at hrun
    rcases tryTx_cases hrun with ⟨hrefuses, rfl | ⟨r, hleft, rfl⟩⟩ | ⟨nMinFee, u, r, hfits, hx, rfl⟩
    · exact ⟨txs, h.refused hqueue htx hstep (fun _ _ => rfl) (h.filled.queue rest) rfl rfl rfl
        hrefuses⟩
    · exact ⟨txs, h.refused hqueue htx hstep (fun _ hne => Function.update_of_ne hne _ _)
        ((h.filled.queue rest).withConn hleft) rfl rfl rfl hrefuses⟩
    · exact ⟨txs ++ [tx], h.accepted hpool hqueue htx hstep
        ((h.filled.queue rest).add hpool htx (h.hash_new hpool hqueue) hfits hx)⟩

theorem Collecting.collect (h : Collecting m e pindexPrev s q p txNew a tried txs)
    (hpool : PoolApart e.env s.node) {fuel : Nat} (hfuel : p.jobs.card ≤ fuel + tried.length)
    (hrun : a.collect m e pindexPrev fuel = .ok a') :
    ∃ tried' txs', Collecting m e pindexPrev s q p txNew a' tried' txs' ∧ a'.mapPriority = [] := by
  induction fuel generalizing a tried txs with
  | zero =>
    obtain rfl := Except.ok.inj hrun
    refine ⟨tried, txs, h, ?_⟩
    have hle := h.waiting.tried_le
    rw [List.length_map] at hle
    exact List.length_eq_zero_iff.mp (by omega)
  | succ fuel ih =>
    unfold Assembly.collect at hrun
    cases hqueue : a.mapPriority with
    | nil =>
      rw [hqueue] at hrun
      obtain rfl := Except.ok.inj hrun
      exact ⟨tried, txs, h, hqueue⟩
    | cons first rest =>
      rw [hqueue] at hrun
      obtain ⟨a₁, hfirst, hrun⟩ := Except.bind_eq_ok.mp hrun
      obtain ⟨txs₁, hnext⟩ := h.tryFirst hpool hqueue hfirst
      refine ih hnext ?_ hrun
      rw [List.length_append, List.length_singleton]
      omega

end Collecting

end Assembly

end Namecoin
