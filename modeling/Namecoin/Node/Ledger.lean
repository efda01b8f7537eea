import Namecoin.Lib.CoinHistory
import Namecoin.Node.Headers
import Namecoin.Node.Spendable

namespace Namecoin

open Act

-- What ProcessBlock keeps when every AcceptBlock call in it meets the guard G.
structure GuardedKeeps (e : NodeEnv) (G : NodeState → CBlock → Prop) (I : NodeState → Prop) : Prop where
  park : ∀ b s, I s → I (s.addOrphan e.env b)
  erase : ∀ h s, I s → I (s.eraseOrphan h)
  drop : ∀ h s, I s → I (s.eraseOrphansByPrev h)
  accept : ∀ b s, G s b → I s → I (exec (acceptBlock e b) s).2

section Guarded

variable {e : NodeEnv} {G : NodeState → CBlock → Prop} {I : NodeState → Prop}

theorem GuardedKeeps.acceptOrphans (h : GuardedKeeps e G I) {bs : List CBlock} {s : NodeState}
    (hcalls : ∀ c ∈ orphanCalls e bs s, G c.1 c.2) (hs : I s) : I (acceptOrphans e bs s).2 := by
  induction bs generalizing s with
  | nil => exact hs
  | cons b rest ih =>
    rw [orphanCalls, List.forall_mem_cons] at hcalls
    have hstep := ih hcalls.2 (h.erase (b.getHash e.env) _ (h.accept b s hcalls.1 hs))
    rw [Namecoin.acceptOrphans]
    split <;> exact hstep

theorem GuardedKeeps.acceptDependents (h : GuardedKeeps e G I) (fuel : Nat)
    (vWorkQueue : List Uint256) {s : NodeState}
    (hcalls : ∀ c ∈ dependentCalls e fuel vWorkQueue s, G c.1 c.2) (hs : I s) :
    I (acceptDependents e fuel vWorkQueue s) := by
  induction fuel generalizing vWorkQueue s with
  | zero => exact hs
  | succ fuel ih =>
    cases vWorkQueue with
    | nil => exact hs
    | cons hashPrev rest =>
      rw [dependentCalls] at hcalls
      have hfirst := h.acceptOrphans (fun c hc => hcalls c (List.mem_append_left _ hc)) hs
      rw [Namecoin.acceptDependents]
      exact ih _ (fun c hc => hcalls c (List.mem_append_right _ hc)) (h.drop hashPrev _ hfirst)

theorem GuardedKeeps.processBlock (h : GuardedKeeps e G I) {b : CBlock} {s : NodeState}
    (hcalls : ∀ c ∈ processCalls e b s, G c.1 c.2) (hs : I s) : I (exec (processBlock e b) s).2 := by
  unfold Namecoin.processBlock
  rw [exec_get_bind]
  refine after_raiseIf hs (fun hidx => ?_)
  refine after_raiseIf hs (fun horphan => ?_)
  refine after_fromExcept hs (fun _ hcheck => ?_)
  split
  · exact h.park b s hs
  · next hprev =>
    rw [processCalls, if_neg (by simp [hidx, horphan, hcheck, hprev]), acceptCalls] at hcalls
    rw [exec_bind]
    have haccept := h.accept b s
    generalize exec (acceptBlock e b) s = r at haccept hcalls
    obtain ⟨r, s'⟩ := r
    cases r with
    | error fault => exact haccept (hcalls _ (List.mem_singleton.mpr rfl)) hs
    | ok u =>
      obtain ⟨hfirst, hrest⟩ := List.forall_mem_cons.mp hcalls
      exact h.acceptDependents _ _ hrest (haccept hfirst hs)

end Guarded

-- No block is connected that brings a transaction the index already has.
def CopyFree (e : NodeEnv) (s : NodeState) (b : CBlock) : Prop :=
  (exec (acceptBlock e b) s).1 = .ok () → ∀ pos, e.writeToDisk s b = some pos →
    s.bnBestChainWork < (s.newIndex e b pos).bnChainWork →
      NoCopies e (s.withIndex e b pos) b (s.newIndex e b pos)

structure LedgerOk (env : Env) (genesis : Uint256) (s : NodeState) (best : Uint256) : Prop where
  tree : TreeOk s.tree genesis best
  built : Built env s.mapBlockIndex s.disk best s.chain.dbset.tx

def LedgerKept (env : Env) (genesis : Uint256) (s : NodeState) : Prop := ∃ best, LedgerOk env genesis s best

section Kept

variable {e : NodeEnv} {genesis best : Uint256} {s s' : NodeState} {b : CBlock} {pindexNew : CBlockIndex}
  {pos : Nat × Nat}

theorem LedgerOk.congr {env : Env} (h : LedgerOk env genesis s best) (htree : s'.tree = s.tree)
    (hdisk : s'.disk = s.disk) (hindex : s'.chain.dbset.tx = s.chain.dbset.tx) :
    LedgerOk env genesis s' best := by
  have hmap : s'.mapBlockIndex = s.mapBlockIndex := congrArg TreeView.mapBlockIndex htree
  refine ⟨?_, ?_⟩
  · rw [htree]
    exact h.tree
  · rw [hmap, hdisk, hindex]
    exact h.built

theorem LedgerOk.setBestChain (h : LedgerOk e.env genesis s best)
    (hhash : b.getHash e.env = pindexNew.hashBlock)
    (hnew : s.mapBlockIndex pindexNew.hashBlock = some pindexNew)
    (hprev : pindexNew.pprev = some b.hashPrevBlock)
    (hstored : s.disk.readIndexed e.env pindexNew = some b)
    (hcopies : (exec (setBestChain e b pindexNew) s).1 = .ok () → NoCopies e s b pindexNew) :
    LedgerKept e.env genesis (exec (setBestChain e b pindexNew) s).2 := by
  rcases setBestChain_cases e b pindexNew s with ⟨fault, s', hx, -⟩ | ⟨s', hx, -⟩
  · have hsame := (setBestChain_failed hx).same
    rw [hx]
    exact ⟨best, h.congr hsame.tree hsame.disk hsame.index⟩
  · rw [hx] at hcopies ⊢
    obtain ⟨htree, hsame, hdisk⟩ := h.tree.adopted hhash hnew hprev hx
    have hreplays := setBestChain_replays h.tree h.built hnew hprev hstored (hcopies rfl) hx
    refine ⟨pindexNew.hashBlock, htree, hreplays.built.grow hsame.grows ?_⟩
    rw [hdisk]
    exact fun _ _ _ hread => hread

theorem LedgerOk.insert (h : LedgerOk e.env genesis s best) (happends : e.Appends)
    (hfiles : Files e s b pos) : LedgerOk e.env genesis (s.withIndex e b pos) best := by
  obtain ⟨hfresh, hprev, hpos⟩ := hfiles
  obtain ⟨pprev, hpprev⟩ := Option.isSome_iff_exists.mp hprev
  have hlink : (s.newIndex e b pos).pprev = some b.hashPrevBlock := by
    simp [NodeState.newIndex, newBlockIndex, NodeState.withBlock, hpprev]
  have hroot := @Rooted.insert s.mapBlockIndex genesis h.tree.rooted (s.newIndex e b pos) pprev
    b.hashPrevBlock hfresh hpprev hlink
    (by simp [NodeState.newIndex, newBlockIndex, NodeState.withBlock, hpprev])
    (by simp [NodeState.newIndex, newBlockIndex, NodeState.withBlock, hpprev])
  have hkeeps := writeToDisk_keeps (happends s b pos.1 pos.2 hpos) b
  exact ⟨h.tree.insert hfresh rfl hroot, h.built.grow (grows_insert hfresh) hkeeps⟩

theorem LedgerOk.acceptBlock (h : LedgerOk e.env genesis s best) (happends : e.Appends)
    (hfree : CopyFree e s b) : LedgerKept e.env genesis (exec (acceptBlock e b) s).2 := by
  rcases acceptBlock_cases e b s with ⟨fault, hx⟩ | ⟨pos, hfiles, hx⟩
  · rw [hx]
    exact ⟨best, h⟩
  · have hins := h.insert happends hfiles
    unfold CopyFree at hfree
    rw [hx] at hfree ⊢
    unfold doIf at hfree ⊢
    split
    · rename_i hmore
      rw [if_pos hmore] at hfree
      obtain ⟨pprev, hpprev⟩ := Option.isSome_iff_exists.mp hfiles.prev
      refine hins.setBestChain rfl (Function.update_self _ _ _) ?_ ?_ fun hok =>
        hfree hok pos hfiles.written hmore
      · simp [NodeState.newIndex, newBlockIndex, NodeState.withBlock, hpprev]
      · refine Option.filter_eq_some_iff.mpr ⟨?_, ?_⟩
        · show (s.disk.writeToDisk pos.1 pos.2 b).readBlock pos.1 pos.2 = some b
          simp [Disk.writeToDisk]
        · simp [NodeState.newIndex, newBlockIndex]
    · exact ⟨best, hins⟩

theorem ledgerKept_guarded (happends : e.Appends) (genesis : Uint256) :
    GuardedKeeps e (CopyFree e) (LedgerKept e.env genesis) where
  park b s hs := by
    obtain ⟨best, h⟩ := hs
    exact ⟨best, h.congr rfl rfl rfl⟩
  erase x s hs := by
    obtain ⟨best, h⟩ := hs
    exact ⟨best, h.congr rfl rfl rfl⟩
  drop x s hs := by
    obtain ⟨best, h⟩ := hs
    exact ⟨best, h.congr rfl rfl rfl⟩
  accept b s hfree hs := by
    obtain ⟨best, h⟩ := hs
    exact h.acceptBlock happends hfree

end Kept

inductive LedgerStep (env : Env) (s : NodeState) : NodeState → Prop
  | block (e : NodeEnv) (b : CBlock) (henv : e.env = env) (happends : e.Appends)
      (hfree : ∀ c ∈ processCalls e b s, CopyFree e c.1 c.2) :
      LedgerStep env s (exec (processBlock e b) s).2
  | tx (e : NodeEnv) (tx : CTransaction) (fCheckInputs fLimitFree fRateLimited : Bool)
      (henv : e.env = env) :
      LedgerStep env s (exec (acceptToMemoryPool e tx fCheckInputs fLimitFree fRateLimited) s).2

section Runs

variable {env : Env} {genesis : Uint256} {s0 s s' : NodeState}

theorem LedgerStep.kept (hstep : LedgerStep env s s') (h : LedgerKept env genesis s) :
    LedgerKept env genesis s' := by
  cases hstep with
  | block e b henv happends hfree =>
    subst henv
    exact (ledgerKept_guarded happends genesis).processBlock hfree h
  | tx e tx fCheckInputs fLimitFree fRateLimited henv =>
    obtain ⟨best, h⟩ := h
    have honly := acceptToMemoryPool_poolOnly e tx fCheckInputs fLimitFree fRateLimited s
    exact ⟨best, h.congr honly.tree honly.disk (congrArg DatabaseSet.tx honly.dbset)⟩

theorem ledgerKept_of_run (hstart : Started env genesis s0) (hplain : PlainGenesis env genesis s0)
    (run : Relation.ReflTransGen (LedgerStep env) s0 s) : LedgerKept env genesis s := by
  induction run with
  | refl =>
    have hok := hstart.inputsOk hplain
    exact ⟨genesis, hok.tree, hok.built⟩
  | tail _ hstep ih => exact hstep.kept ih

end Runs

-- The transactions of the main chain in their order, those of the genesis block left out.
def NodeState.mainTxs (env : Env) (s : NodeState) : List CTransaction :=
  (s.walk s.pindexBest).reverse.tail.flatMap fun p =>
    ((s.disk.readIndexed env p).map CBlock.vtx).getD []

section History

variable {env : Env} {genesis : Uint256} {s : NodeState} {t t' : TxMap} {txs : List CTransaction}

theorem Built.replay {x : Uint256} (h : Built env s.mapBlockIndex s.disk x t)
    (hroot : Rooted s.mapBlockIndex genesis) :
    TxsApplied env ((s.walk (some x)).reverse.tail.flatMap fun p =>
      ((s.disk.readIndexed env p).map CBlock.vtx).getD []) (fun _ => none) t := by
  induction h with
  | genesis hp hnone hread hplain =>
    rw [NodeState.walk, Option.bind_some, hp, Option.map_some, Option.getD_some, pprevWalk_cons hp, hnone]
    have hend : ∀ k, pprevWalk s.mapBlockIndex k none = [] := fun k => by cases k <;> rfl
    rw [hend]
    exact .nil _
  | @block x prev p b t t' hp hprev hread below applied ih =>
    have hne : s.walk (some prev) ≠ [] := by
      obtain ⟨q, hq⟩ := below.present
      rw [NodeState.walk, Option.bind_some, hq, Option.map_some, Option.getD_some, pprevWalk_cons hq]
      exact List.cons_ne_nil _ _
    have htail : (p :: s.walk (some prev)).reverse.tail = (s.walk (some prev)).reverse.tail ++ [p] := by
      rw [List.reverse_cons, List.tail_append_of_ne_nil (by simpa using hne)]
    rw [hroot.walk_cons hp hprev, htail, List.flatMap_append, List.flatMap_singleton, hread]
    exact ih.append applied

theorem TxApplied.flag_true {tx : CTransaction} (h : TxApplied env tx t t') {p : COutPoint}
    (hp : spentFlag t' p = some true) : spentFlag t p = some true ∨ p ∈ tx.spentPoints := by
  by_cases hown : p.hash = tx.getHash env
  · obtain ⟨pos, rfl⟩ := h.after
    rw [spentFlag, hown, Function.update_self, Option.bind_some, CTxIndex.make,
      List.getElem?_eq_some_iff] at hp
    obtain ⟨hlt, hget⟩ := hp
    rw [List.getElem_replicate] at hget
    cases hget
  · rw [h.flag_of_ne hown] at hp
    split at hp
    · rename_i hin
      exact .inr hin
    · exact .inl hp

theorem TxsApplied.flag_true (h : TxsApplied env txs t t') {p : COutPoint}
    (hp : spentFlag t' p = some true) :
    spentFlag t p = some true ∨ ∃ tx ∈ txs, p ∈ tx.spentPoints := by
  induction h with
  | nil t => exact .inl hp
  | @cons tx rest t t₁ t' head tail ih =>
    rcases ih hp with hmid | ⟨a, ha, hin⟩
    · rcases head.flag_true hmid with hold | hin
      · exact .inl hold
      · exact .inr ⟨tx, List.mem_cons_self, hin⟩
    · exact .inr ⟨a, List.mem_cons_of_mem _ ha, hin⟩

structure LedgerHistory (env : Env) (s : NodeState) : Prop where
  named : (txHashes env (s.mainTxs env)).Nodup
  inputs : ∀ tx ∈ s.mainTxs env, tx.spentPoints.Nodup
  made : ∀ pre tx post, s.mainTxs env = pre ++ tx :: post → ∀ p ∈ tx.spentPoints,
    ∃ a ∈ pre, a.getHash env = p.hash ∧ p.n < a.vout.length
  once : ∀ pre tx post, s.mainTxs env = pre ++ tx :: post → ∀ p ∈ tx.spentPoints,
    ∀ b ∈ pre ++ post, p ∉ b.spentPoints
  indexed : ∀ h, (s.chain.dbset.tx h).isSome ↔ h ∈ txHashes env (s.mainTxs env)
  unspent : ∀ p, spentFlag s.chain.dbset.tx p = some false ↔
    (∃ a ∈ s.mainTxs env, a.getHash env = p.hash ∧ p.n < a.vout.length) ∧
      ∀ tx ∈ s.mainTxs env, p ∉ tx.spentPoints
  spent : ∀ p, spentFlag s.chain.dbset.tx p = some true ↔ ∃ tx ∈ s.mainTxs env, p ∈ tx.spentPoints

theorem ledger_of_run {s0 : NodeState} (hstart : Started env genesis s0)
    (hplain : PlainGenesis env genesis s0) (run : Relation.ReflTransGen (LedgerStep env) s0 s) :
    LedgerHistory env s := by
  obtain ⟨best, hok⟩ := ledgerKept_of_run hstart hplain run
  have hisBest : s.pindexBest = some best := hok.tree.isBest
  have hreplay : TxsApplied env (s.mainTxs env) (fun _ => none) s.chain.dbset.tx := by
    rw [NodeState.mainTxs, hisBest]
    exact hok.built.replay hok.tree.rooted
  have hempty : ∀ k, ¬(coinIndex env fun _ => none).has k := fun k hk => hk rfl
  have hcausal := hreplay.run.causal hempty
  have hreflects := hreplay.run.reflects hempty
  refine ⟨hcausal.named, hcausal.nodup, hcausal.made, hcausal.once, fun h => ?_, hreflects.unspent,
    fun p => ⟨fun hp => ?_, fun hp => ?_⟩⟩
  · rw [Option.isSome_iff_ne_none]
    exact hreflects.has_iff h
  · rcases hreplay.flag_true hp with hnone | hin
    · cases hnone
    · exact hin
  · obtain ⟨tx, htx, hin⟩ := hp
    exact hreflects.spent tx htx p hin

def copyFreeBool (e : NodeEnv) (s : NodeState) (b : CBlock) : Bool :=
  (e.writeToDisk s b).all fun pos =>
    decide (txHashes e.env ((s.withIndex e b pos).vDelete e b (s.newIndex e b pos))).Nodup &&
      ((s.withIndex e b pos).vDelete e b (s.newIndex e b pos)).all fun tx =>
        (s.chain.dbset.tx (tx.getHash e.env)).isNone

theorem copyFree_of_bool {e : NodeEnv} {b : CBlock} (h : copyFreeBool e s b = true) :
    CopyFree e s b := by
  intro _ pos hpos _
  rw [copyFreeBool, hpos, Option.all_some, Bool.and_eq_true, decide_eq_true_eq, List.all_eq_true] at h
  exact ⟨h.1, fun tx htx => .inl (Option.isNone_iff_eq_none.mp (h.2 tx htx))⟩

theorem block_copyFree {e : NodeEnv} {b : CBlock}
    (h : ((processCalls e b s).all fun c => copyFreeBool e c.1 c.2) = true) :
    ∀ c ∈ processCalls e b s, CopyFree e c.1 c.2 := fun c hc =>
  copyFree_of_bool (List.all_eq_true.mp h c hc)

def blocksRun (bs : List CBlock) (s : NodeState) : NodeState :=
  bs.foldl (fun s b => (exec (processBlock appendEnv b) s).2) s

def freeRun (check : NodeState → Bool) : List CBlock → NodeState → Bool
  | [], s => check s
  | b :: rest, s => ((processCalls appendEnv b s).all fun c => copyFreeBool appendEnv c.1 c.2) &&
      freeRun check rest (exec (processBlock appendEnv b) s).2

theorem freeRun_run {check : NodeState → Bool} {bs : List CBlock} {s : NodeState}
    (h : freeRun check bs s = true) :
    Relation.ReflTransGen (LedgerStep sampleEnv) s (blocksRun bs s) ∧
      check (blocksRun bs s) = true := by
  induction bs generalizing s with
  | nil => exact ⟨.refl, h⟩
  | cons b rest ih =>
    rw [freeRun, Bool.and_eq_true] at h
    obtain ⟨hrun, hcheck⟩ := ih h.2
    exact ⟨.head (.block appendEnv b rfl appendEnv_appends (block_copyFree h.1)) hrun, hcheck⟩

-- A hundred blocks on block 1 its coinbase may be spent; block 2 comes in before block 1.
def maturedBlocks : List CBlock :=
  [coinbaseChain 2, coinbaseChain 1] ++ (List.range' 3 98).map coinbaseChain ++
    [linkedBlock ((coinbaseChain 100).getHash sampleEnv) 102 [sampleCoinbase 101, spendOne 2]]

def maturedNode : NodeState := blocksRun maturedBlocks zeroNode

theorem maturedNode_run :
    Relation.ReflTransGen (LedgerStep sampleEnv) zeroNode maturedNode ∧
      (maturedNode.mainTxs sampleEnv).getLast? = some (spendOne 2) := by
  have hchecks : freeRun (fun s =>
      decide ((s.mainTxs sampleEnv).getLast? = some (spendOne 2))) maturedBlocks zeroNode = true := by
    decide +kernel
  obtain ⟨hrun, hlast⟩ := freeRun_run hchecks
  exact ⟨hrun, of_decide_eq_true hlast⟩

theorem maturedNode_ledger : LedgerHistory sampleEnv maturedNode ∧
    spentFlag maturedNode.chain.dbset.tx onePoint = some true := by
  obtain ⟨hrun, hlast⟩ := maturedNode_run
  have hhistory := ledger_of_run zeroNode_started zeroNode_plain hrun
  have hspends : onePoint ∈ (spendOne 2).spentPoints := by decide +kernel
  exact ⟨hhistory, (hhistory.spent onePoint).mpr
    ⟨spendOne 2, List.mem_of_getLast? hlast, hspends⟩⟩

end History

end Namecoin
