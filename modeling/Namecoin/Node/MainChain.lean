import Namecoin.Node.Best

namespace Namecoin

open Act

theorem Rooted.insert {m : BlockMap} {genesis : Uint256} (h : Rooted m genesis)
    {pindexNew pprev : CBlockIndex} {prev : Uint256} (hfresh : m pindexNew.hashBlock = none)
    (hprev : m prev = some pprev) (hlink : pindexNew.pprev = some prev)
    (hheight : pindexNew.nHeight = pprev.nHeight + 1)
    (hwork : pindexNew.bnChainWork = pprev.bnChainWork + getBlockWork pindexNew.nBits) :
    Rooted (Function.update m pindexNew.hashBlock (some pindexNew)) genesis := by
  have hold : ∀ x p, m x = some p →
      Function.update m pindexNew.hashBlock (some pindexNew) x = some p := by
    intro x p hp
    rw [Function.update_of_ne _ _ _ , hp]
    rintro rfl
    rw [hfresh] at hp
    cases hp
  have hcases : ∀ x p, Function.update m pindexNew.hashBlock (some pindexNew) x = some p →
      (x = pindexNew.hashBlock ∧ p = pindexNew) ∨ m x = some p := by
    intro x p hp
    by_cases hx : x = pindexNew.hashBlock
    · subst hx
      rw [Function.update_self] at hp
      exact .inl ⟨rfl, (Option.some.inj hp).symm⟩
    · rw [Function.update_of_ne hx] at hp
      exact .inr hp
  refine ⟨?_, ?_, ?_, ?_⟩
  · intro x p hp
    rcases hcases x p hp with ⟨rfl, rfl⟩ | hp
    · rfl
    · exact h.keyed x p hp
  · obtain ⟨p, hp, hr⟩ := h.root
    exact ⟨p, hold _ _ hp, hr⟩
  · intro x p hp hx
    rcases hcases x p hp with ⟨rfl, rfl⟩ | hp
    · exact ⟨prev, pprev, hlink, hold _ _ hprev, hheight⟩
    · obtain ⟨q, pq, hq, hmq, hh⟩ := h.parent x p hp hx
      exact ⟨q, pq, hq, hold _ _ hmq, hh⟩
  · intro x p hp
    rcases hcases x p hp with ⟨rfl, rfl⟩ | hp
    · rw [hwork, hlink, Option.bind_some, hold _ _ hprev]
      rfl
    · rw [h.work x p hp]
      cases hq : p.pprev with
      | none => rfl
      | some q =>
        obtain ⟨-, pq, -, -, hmq, -⟩ := h.parent_some (by simp [parentOf, hp, hq] : parentOf m x = some q)
        rw [Option.bind_some, Option.bind_some, hmq, hold _ _ hmq]

theorem TreeOk.insert {t : TreeView} {genesis best : Uint256} (h : TreeOk t genesis best)
    {pindexNew : CBlockIndex} (hfresh : t.mapBlockIndex pindexNew.hashBlock = none)
    (hnext : pindexNew.pnext = none)
    (hroot : Rooted (Function.update t.mapBlockIndex pindexNew.hashBlock (some pindexNew)) genesis) :
    TreeOk { t with
      mapBlockIndex := Function.update t.mapBlockIndex pindexNew.hashBlock (some pindexNew) }
      genesis best := by
  have hne : ∀ x, (t.mapBlockIndex x).isSome → x ≠ pindexNew.hashBlock := by
    rintro x hx rfl
    rw [hfresh] at hx
    cases hx
  refine ⟨hroot, h.genesisBlock, h.isBest, ?_, ?_⟩
  · have hnexts : nextOf (Function.update t.mapBlockIndex pindexNew.hashBlock (some pindexNew)) =
        nextOf t.mapBlockIndex := by
      funext x
      by_cases hx : x = pindexNew.hashBlock
      · subst hx
        simp [nextOf, hfresh, hnext]
      · simp [nextOf, hx]
    show Forest.Threaded _ (nextOf _) best
    rw [hnexts]
    refine h.threaded.congr (fun x hx => ?_)
    have hx' := hne x (h.rooted.anc_some h.best_some hx)
    simp [parentOf, hx']
  · obtain ⟨p, hp, hg⟩ := h.globals
    refine ⟨p, ?_, hg⟩
    show Function.update t.mapBlockIndex pindexNew.hashBlock (some pindexNew) best = some p
    rw [Function.update_of_ne (hne best (by simp [hp])), hp]

def Advances (genesis : Uint256) (s s' : NodeState) : Prop :=
  ∀ best, TreeOk s.tree genesis best →
    (∃ best', TreeOk s'.tree genesis best') ∧ s.bnBestChainWork ≤ s'.bnBestChainWork

theorem advances_of_tree {s s' : NodeState} (h : s'.tree = s.tree) (genesis : Uint256) :
    Advances genesis s s' := by
  intro best hok
  have hwork : s'.bnBestChainWork = s.bnBestChainWork := congrArg TreeView.bnBestChainWork h
  exact ⟨⟨best, h.symm ▸ hok⟩, hwork.symm.le⟩

theorem Advances.refl (genesis : Uint256) (s : NodeState) : Advances genesis s s :=
  advances_of_tree rfl genesis

theorem Advances.trans {genesis : Uint256} {a b c : NodeState} (h : Advances genesis a b)
    (h' : Advances genesis b c) : Advances genesis a c := by
  intro best hok
  obtain ⟨⟨best', hok'⟩, hle⟩ := h best hok
  obtain ⟨hex, hle'⟩ := h' best' hok'
  exact ⟨hex, hle.trans hle'⟩

theorem TreeOk.insertNew {e : NodeEnv} {b : CBlock} {s : NodeState} {genesis best : Uint256}
    (hok : TreeOk s.tree genesis best) (hprev : (s.mapBlockIndex b.hashPrevBlock).isSome)
    (hnone : s.mapBlockIndex (b.getHash e.env) = none) (nFile nBlockPos : Nat) :
    (newBlockIndex e.env s b nFile nBlockPos).pprev = some b.hashPrevBlock ∧
      TreeOk (insertBlockIndex (newBlockIndex e.env s b nFile nBlockPos) s).tree genesis best := by
  obtain ⟨pprev, hpprev⟩ := Option.isSome_iff_exists.mp hprev
  have hlink : (newBlockIndex e.env s b nFile nBlockPos).pprev = some b.hashPrevBlock := by
    simp [newBlockIndex, hpprev]
  have hroot := @Rooted.insert s.mapBlockIndex genesis hok.rooted
    (newBlockIndex e.env s b nFile nBlockPos) pprev b.hashPrevBlock hnone hpprev hlink
    (by simp [newBlockIndex, hpprev]) (by simp [newBlockIndex, hpprev])
  exact ⟨hlink, hok.insert hnone rfl hroot⟩

theorem addToBlockIndex_advances {e : NodeEnv} {b : CBlock} {s : NodeState}
    (hprev : (s.mapBlockIndex b.hashPrevBlock).isSome) (nFile nBlockPos : Nat)
    (genesis : Uint256) :
    Advances genesis s (exec (addToBlockIndex e b nFile nBlockPos) s).2 := by
  unfold addToBlockIndex
  rw [exec_get_bind]
  refine after_raiseIf (Advances.refl genesis s) (fun hfresh => ?_)
  intro best hok
  have hnone : s.mapBlockIndex (b.getHash e.env) = none := by simpa using hfresh
  obtain ⟨hlink, hins⟩ := hok.insertNew hprev hnone nFile nBlockPos
  dsimp only
  rw [exec_modify_bind]
  unfold doIf
  split
  · next hmore =>
    rcases @TreeOk.setBestChain e b _ genesis best (newBlockIndex e.env s b nFile nBlockPos) hins
      rfl (Function.update_self _ _ _) hlink with ht | ⟨ht, hwork⟩
    · refine ⟨⟨best, ht ▸ hins⟩, ?_⟩
      exact (congrArg TreeView.bnBestChainWork ht).symm.le
    · exact ⟨⟨_, ht⟩, by rw [hwork]; exact hmore.le⟩
  · exact ⟨⟨best, hins⟩, le_refl _⟩

theorem acceptBlock_advances (e : NodeEnv) (b : CBlock) (s : NodeState) (genesis : Uint256) :
    Advances genesis s (exec (acceptBlock e b) s).2 := by
  have hself := Advances.refl genesis s
  unfold acceptBlock
  rw [exec_get_bind]
  refine after_raiseIf hself (fun _ => ?_)
  refine after_fromOption hself (fun pindexPrev hprev => ?_)
  refine after_fromExcept hself (fun _ _ => ?_)
  refine after_fromOption hself (fun pos _ => ?_)
  rw [exec_modify_bind]
  have hdisk : NodeState.tree { s with disk := s.disk.writeToDisk pos.1 pos.2 b } = s.tree := rfl
  exact (advances_of_tree hdisk genesis).trans
    (addToBlockIndex_advances (by simp [hprev]) pos.1 pos.2 genesis)

structure Carries (e : NodeEnv) (R : NodeState → NodeState → Prop) : Prop where
  refl : ∀ s, R s s
  trans : ∀ {a b c}, R a b → R b c → R a c
  park : ∀ b s, R s (s.addOrphan e.env b)
  erase : ∀ h s, R s (s.eraseOrphan h)
  drop : ∀ h s, R s (s.eraseOrphansByPrev h)
  accept : ∀ b s, R s (exec (acceptBlock e b) s).2

section Carries

variable {e : NodeEnv} {R : NodeState → NodeState → Prop}

theorem Carries.acceptOrphans (h : Carries e R) (bs : List CBlock) (s : NodeState) :
    R s (acceptOrphans e bs s).2 := by
  induction bs generalizing s with
  | nil => exact h.refl s
  | cons b rest ih =>
    have hstep := h.trans (h.trans (h.accept b s) (h.erase (b.getHash e.env) _)) (ih _)
    rw [Namecoin.acceptOrphans]
    split <;> exact hstep

theorem Carries.acceptDependents (h : Carries e R) (fuel : Nat) (vWorkQueue : List Uint256)
    (s : NodeState) : R s (acceptDependents e fuel vWorkQueue s) := by
  induction fuel generalizing vWorkQueue s with
  | zero => exact h.refl s
  | succ fuel ih =>
    cases vWorkQueue with
    | nil => exact h.refl s
    | cons hashPrev rest =>
      rw [Namecoin.acceptDependents]
      exact h.trans (h.trans (h.acceptOrphans _ s) (h.drop hashPrev _)) (ih _ _)

theorem Carries.processBlock (h : Carries e R) (b : CBlock) (s : NodeState) :
    R s (exec (processBlock e b) s).2 := by
  unfold Namecoin.processBlock
  rw [exec_get_bind]
  refine after_raiseIf (h.refl s) (fun _ => ?_)
  refine after_raiseIf (h.refl s) (fun _ => ?_)
  refine after_fromExcept (h.refl s) (fun _ _ => ?_)
  split
  · exact h.park b s
  · have haccept := h.accept b s
    refine exec_bind_after (P := R s) ?_ ?_
    · intro fault s' hx
      rw [hx] at haccept
      exact haccept
    · intro _ s' hx
      rw [hx] at haccept
      exact h.trans haccept (h.acceptDependents _ _ _)

end Carries

theorem advances_carries (e : NodeEnv) (genesis : Uint256) : Carries e (Advances genesis) where
  refl := Advances.refl genesis
  trans := Advances.trans
  park _ _ := advances_of_tree rfl genesis
  erase _ _ := advances_of_tree rfl genesis
  drop _ _ := advances_of_tree rfl genesis
  accept b s := acceptBlock_advances e b s genesis

inductive NodeStep (env : Env) (hashGenesisBlock : Uint256) (s : NodeState) : NodeState → Prop
  | block (e : NodeEnv) (b : CBlock) (henv : e.env = env)
      (hgenesis : e.hashGenesisBlock = hashGenesisBlock) :
      NodeStep env hashGenesisBlock s (exec (processBlock e b) s).2
  | tx (e : NodeEnv) (tx : CTransaction) (fCheckInputs fLimitFree fRateLimited : Bool)
      (henv : e.env = env) (hgenesis : e.hashGenesisBlock = hashGenesisBlock) :
      NodeStep env hashGenesisBlock s
        (exec (acceptToMemoryPool e tx fCheckInputs fLimitFree fRateLimited) s).2

theorem NodeStep.advances {env : Env} {hashGenesisBlock : Uint256} {s s' : NodeState}
    (h : NodeStep env hashGenesisBlock s s') (genesis : Uint256) : Advances genesis s s' := by
  cases h with
  | block e b _ _ => exact (advances_carries e genesis).processBlock b s
  | tx e tx fCheckInputs fLimitFree fRateLimited _ _ =>
    have hpool := acceptToMemoryPool_poolOnly e tx fCheckInputs fLimitFree fRateLimited s
    exact advances_of_tree hpool.tree genesis

def TreeView.initial : TreeView := ⟨fun _ => none, none, none, 0, -1, 0⟩

def NodeState.blank (wallet : CWallet) : NodeState where
  mapBlockIndex := fun _ => none
  pindexGenesisBlock := none
  pindexBest := none
  hashBestChain := 0
  nBestHeight := -1
  bnBestChainWork := 0
  bnBestInvalidWork := 0
  disk := Disk.empty
  chain := ⟨⟨fun _ => none, fun _ => none, fun _ => none, none⟩, fun _ => ∅, wallet⟩
  mapTransactions := fun _ => none
  mapNextTx := fun _ => none
  setNewHashes := ∅
  mapOrphanBlocks := fun _ => none
  mapOrphanBlocksByPrev := []

def loadBlockIndex (e : NodeEnv) (genesis : CBlock) : Act Fault NodeState Unit := do
  let s ← get
  raiseIf (genesis.getHash e.env ≠ e.hashGenesisBlock) .assertion
  let pos ← fromOption (.reject "LoadBlockIndex() : writing genesis block to disk failed")
    (e.writeToDisk s genesis)
  modify (fun s => { s with disk := s.disk.writeToDisk pos.1 pos.2 genesis })
  addToBlockIndex e genesis pos.1 pos.2

structure Started (env : Env) (hashGenesisBlock : Uint256) (s : NodeState) : Prop where
  loaded : ∃ e genesis wallet, e.env = env ∧ e.hashGenesisBlock = hashGenesisBlock ∧
    genesis.hashPrevBlock = 0 ∧ 0 < getBlockWork genesis.nBits ∧
    exec (loadBlockIndex e genesis) (NodeState.blank wallet) = (.ok (), s)

theorem genesis_treeOk {pindex : CBlockIndex} (hprev : pindex.pprev = none)
    (hnext : pindex.pnext = none) (hheight : pindex.nHeight = 0)
    (hwork : pindex.bnChainWork = getBlockWork pindex.nBits) :
    TreeOk (moveBest { TreeView.initial with pindexGenesisBlock := some pindex.hashBlock }
      (Function.update (fun _ => none) pindex.hashBlock (some pindex)) pindex)
      pindex.hashBlock pindex.hashBlock := by
  have hcases : ∀ x p, Function.update (fun _ => none) pindex.hashBlock (some pindex) x = some p →
      x = pindex.hashBlock ∧ p = pindex := by
    intro x p hp
    by_cases hx : x = pindex.hashBlock
    · subst hx
      rw [Function.update_self] at hp
      exact ⟨rfl, (Option.some.inj hp).symm⟩
    · rw [Function.update_of_ne hx] at hp
      cases hp
  have hparent : ∀ x, parentOf (Function.update (fun _ => none) pindex.hashBlock (some pindex)) x =
      none := by
    intro x
    by_cases hx : x = pindex.hashBlock
    · subst hx
      simp [parentOf, hprev]
    · simp [parentOf, hx]
  have hnexts : ∀ x, nextOf (Function.update (fun _ => none) pindex.hashBlock (some pindex)) x =
      none := by
    intro x
    by_cases hx : x = pindex.hashBlock
    · subst hx
      simp [nextOf, hnext]
    · simp [nextOf, hx]
  have hself : Function.update (fun _ => none) pindex.hashBlock (some pindex) pindex.hashBlock =
      some pindex := Function.update_self _ _ _
  refine ⟨⟨?_, ?_, ?_, ?_⟩, rfl, rfl, ?_, ?_⟩
  · intro x p hp
    obtain ⟨rfl, rfl⟩ := hcases x p hp
    rfl
  · exact ⟨pindex, hself, hprev, hheight⟩
  · intro x p hp hx
    exact absurd (hcases x p hp).1 hx
  · intro x p hp
    obtain ⟨rfl, rfl⟩ := hcases x p hp
    simp [hprev, hwork]
  · intro x q
    show nextOf (Function.update (fun _ => none) pindex.hashBlock (some pindex)) x = some q ↔
      _ ∧ parentOf (Function.update (fun _ => none) pindex.hashBlock (some pindex)) q = some x
    simp [hparent, hnexts]
  · exact ⟨pindex, hself, rfl, rfl, rfl⟩

theorem addToBlockIndex_genesis {e : NodeEnv} {genesis : CBlock} {s : NodeState}
    (hs : s.tree = TreeView.initial) (hhash : genesis.getHash e.env = e.hashGenesisBlock)
    (hwork : 0 < getBlockWork genesis.nBits) (nFile nBlockPos : Nat) :
    exec (addToBlockIndex e genesis nFile nBlockPos) s =
      (.ok (), ((insertBlockIndex (newBlockIndex e.env s genesis nFile nBlockPos) s).becomeGenesis
        (genesis.getHash e.env)).newBest (newBlockIndex e.env s genesis nFile nBlockPos)
          (genesis.getHash e.env)) := by
  have hmap : s.mapBlockIndex = fun _ => none := congrArg TreeView.mapBlockIndex hs
  have hgen : s.pindexGenesisBlock = none := congrArg TreeView.pindexGenesisBlock hs
  have hbest : s.bnBestChainWork = 0 := congrArg TreeView.bnBestChainWork hs
  have hmore : s.bnBestChainWork < (newBlockIndex e.env s genesis nFile nBlockPos).bnChainWork := by
    rw [hbest]
    simpa [newBlockIndex, hmap] using hwork
  unfold addToBlockIndex
  rw [exec_get_bind]
  simp only [raiseIf, hmap, Option.isSome_none, Bool.false_eq_true, if_false, pure_bind, doIf,
    if_pos hmore, exec_modify_bind]
  unfold setBestChain moveChain
  have hcond : (insertBlockIndex (newBlockIndex e.env s genesis nFile nBlockPos) s).pindexGenesisBlock =
      none ∧ genesis.getHash e.env = e.hashGenesisBlock := ⟨hgen, hhash⟩
  rw [exec_bind, exec_get_bind, if_pos hcond, exec_modify]
  rfl

theorem Started.added {env : Env} {hashGenesisBlock : Uint256} {s : NodeState}
    (h : Started env hashGenesisBlock s) :
    ∃ e genesis wallet, ∃ disk : Disk, ∃ nFile nBlockPos, e.env = env ∧
      e.hashGenesisBlock = hashGenesisBlock ∧ genesis.hashPrevBlock = 0 ∧
      0 < getBlockWork genesis.nBits ∧ genesis.getHash env = hashGenesisBlock ∧
      exec (addToBlockIndex e genesis nFile nBlockPos)
        { NodeState.blank wallet with disk := disk } = (.ok (), s) := by
  obtain ⟨e, genesis, wallet, rfl, rfl, hprev, hwork, hload⟩ := h.loaded
  simp only [loadBlockIndex, bind_ok, get_ok, raiseIf_ok, fromOption_ok, modify_ok] at hload
  obtain ⟨_, _, ⟨rfl, rfl⟩, -, _, ⟨hhash, rfl⟩, pos, _, ⟨-, rfl⟩, -, _, rfl, hadd⟩ := hload
  exact ⟨e, genesis, wallet, _, pos.1, pos.2, rfl, rfl, hprev, hwork, not_not.mp hhash, hadd⟩

theorem Started.treeOk {env : Env} {hashGenesisBlock : Uint256} {s : NodeState}
    (h : Started env hashGenesisBlock s) : TreeOk s.tree hashGenesisBlock hashGenesisBlock := by
  obtain ⟨e, genesis, wallet, disk, nFile, nBlockPos, rfl, rfl, -, hwork, hhash, hadd⟩ := h.added
  have hstate := @addToBlockIndex_genesis e genesis { NodeState.blank wallet with disk := disk } rfl
    hhash hwork nFile nBlockPos
  rw [hadd] at hstate
  cases hstate
  rw [← hhash]
  exact @genesis_treeOk (newBlockIndex e.env _ genesis nFile nBlockPos) rfl rfl rfl (zero_add _)

theorem treeOk_of_run {env : Env} {hashGenesisBlock : Uint256} {s0 s : NodeState}
    (hstart : Started env hashGenesisBlock s0)
    (run : Relation.ReflTransGen (NodeStep env hashGenesisBlock) s0 s) :
    ∃ best, TreeOk s.tree hashGenesisBlock best := by
  induction run with
  | refl => exact ⟨_, hstart.treeOk⟩
  | tail _ hstep ih =>
    obtain ⟨best, hok⟩ := ih
    exact (hstep.advances hashGenesisBlock best hok).1

structure BlockTree (s : NodeState) (pindexBest : CBlockIndex) : Prop where
  isBest : s.pindexBest = some pindexBest.hashBlock ∧
    s.mapBlockIndex pindexBest.hashBlock = some pindexBest
  follow : ∃ chain : List Uint256,
    (∀ fuel, chain.length ≤ fuel →
      Forest.forward (nextOf s.mapBlockIndex) fuel s.pindexGenesisBlock = chain) ∧
    (∀ h, h ∈ chain ↔ Forest.Anc (parentOf s.mapBlockIndex) h pindexBest.hashBlock) ∧
    chain.map (heightOf s.mapBlockIndex) = List.range (pindexBest.nHeight + 1) ∧
    chain.getLast? = some pindexBest.hashBlock
  main : ∀ h p, s.mapBlockIndex h = some p →
    (isInMainChain s p ↔ Forest.Anc (parentOf s.mapBlockIndex) h pindexBest.hashBlock)
  globals : s.hashBestChain = pindexBest.hashBlock ∧ s.nBestHeight = pindexBest.nHeight ∧
    s.bnBestChainWork = pindexBest.bnChainWork
  work : ∀ h p, s.mapBlockIndex h = some p →
    p.bnChainWork = ((p.pprev.bind s.mapBlockIndex).map CBlockIndex.bnChainWork).getD 0 +
      getBlockWork p.nBits

theorem TreeOk.main_iff {s : NodeState} {genesis best : Uint256} (h : TreeOk s.tree genesis best)
    {x : Uint256} {p : CBlockIndex} (hp : s.mapBlockIndex x = some p) :
    isInMainChain s p ↔ Forest.Anc (parentOf s.mapBlockIndex) x best := by
  have hbest : s.pindexBest = some best := h.isBest
  have hkey : p.hashBlock = x := h.rooted.keyed x p hp
  have hnext : nextOf s.mapBlockIndex x = p.pnext := by simp [nextOf, hp]
  have hthread : Forest.Threaded (parentOf s.mapBlockIndex) (nextOf s.mapBlockIndex) best :=
    h.threaded
  unfold isInMainChain
  rw [hbest, hkey, ← hnext]
  constructor
  · rintro (hn | he)
    · obtain ⟨q, hq⟩ := Option.ne_none_iff_exists'.mp hn
      obtain ⟨hqb, hpq⟩ := (hthread x q).mp hq
      exact hqb.up hpq
    · cases he
      exact .refl _
  · intro hx
    by_cases he : x = best
    · exact .inr (by rw [he])
    · obtain ⟨c, hc, hpc⟩ := hx.child he
      refine .inl ?_
      rw [(hthread x c).mpr ⟨hc, hpc⟩]
      simp

theorem TreeOk.blockTree {s : NodeState} {genesis best : Uint256} (h : TreeOk s.tree genesis best) :
    ∃ pindexBest, BlockTree s pindexBest := by
  obtain ⟨p, hp, hhash, hheight, hwork⟩ := h.globals
  have hp' : s.mapBlockIndex best = some p := hp
  have hkey : p.hashBlock = best := h.rooted.keyed best p hp
  have hroot : Rooted s.mapBlockIndex genesis := h.rooted
  have hgen : s.pindexGenesisBlock = some genesis := h.genesisBlock
  obtain ⟨chain, hwalk, hmem, hheights, hlast⟩ :=
    Forest.Threaded.forward_eq hroot.graded h.threaded (hroot.genesis_anc h.best_some)
  refine ⟨p, ⟨?_, ?_⟩, ⟨chain, ?_, ?_, ?_, ?_⟩, ?_, ?_, hroot.work⟩
  · rw [hkey]
    exact h.isBest
  · rw [hkey]
    exact hp
  · intro fuel hfuel
    rw [hgen]
    exact hwalk fuel hfuel
  · intro x
    rw [hmem, hkey]
    constructor
    · exact fun hx => hx.1
    · intro hx
      exact ⟨hx, Forest.Anc.of_root hroot.parentOf_genesis (hroot.genesis_anc h.best_some) hx⟩
  · rw [hroot.heightOf_genesis, Nat.sub_zero] at hheights
    rw [List.range_eq_range', ← show heightOf s.mapBlockIndex best = p.nHeight by simp [heightOf, hp']]
    exact hheights
  · rw [hkey]
    exact hlast
  · intro x q hq
    rw [hkey]
    exact h.main_iff hq
  · rw [hkey]
    exact ⟨hhash, hheight, hwork⟩

theorem block_tree {env : Env} {hashGenesisBlock : Uint256} {s0 s : NodeState}
    (hstart : Started env hashGenesisBlock s0)
    (run : Relation.ReflTransGen (NodeStep env hashGenesisBlock) s0 s) :
    (∃ pindexBest, BlockTree s pindexBest) ∧
      ∀ s', NodeStep env hashGenesisBlock s s' → s.bnBestChainWork ≤ s'.bnBestChainWork := by
  obtain ⟨best, hok⟩ := treeOk_of_run hstart run
  exact ⟨hok.blockTree, fun s' hstep => (hstep.advances hashGenesisBlock best hok).2⟩

def linkedBlock (hashPrevBlock : Uint256) (nTime : Nat) (vtx : List CTransaction) : CBlock :=
  let b : CBlock := ⟨⟨65537, hashPrevBlock, 0, nTime, 0x1d00ffff, 0⟩, vtx, none⟩
  { b with hashMerkleRoot := b.buildMerkleTree sampleEnv }

def zeroBlock : CBlock := linkedBlock 0 1 [sampleCoinbase 0]

def sampleNodeEnv : NodeEnv where
  env := sampleEnv
  hashGenesisBlock := zeroBlock.getHash sampleEnv
  nNow := 10000
  fCacheTxPrev := false
  writeToDisk _ b := some (1, 1000 * b.nTime)

def zeroNode : NodeState :=
  (exec (loadBlockIndex sampleNodeEnv zeroBlock) (NodeState.blank sampleWallet)).2

theorem zeroNode_started : Started sampleEnv sampleNodeEnv.hashGenesisBlock zeroNode where
  loaded := by
    have hok : (exec (loadBlockIndex sampleNodeEnv zeroBlock) (NodeState.blank sampleWallet)).1 = .ok () := by
      decide +kernel
    exact ⟨sampleNodeEnv, zeroBlock, sampleWallet, rfl, rfl, rfl, by decide +kernel, exec_eta hok⟩

def oneBlock : CBlock := linkedBlock (zeroBlock.getHash sampleEnv) 2 [sampleCoinbase 1]

theorem oneBlock_tree :
    (exec (processBlock sampleNodeEnv oneBlock) zeroNode).2.pindexBest =
        some (oneBlock.getHash sampleEnv) ∧
      (∃ pindexBest, BlockTree (exec (processBlock sampleNodeEnv oneBlock) zeroNode).2 pindexBest) ∧
      zeroNode.bnBestChainWork ≤
        (exec (processBlock sampleNodeEnv oneBlock) zeroNode).2.bnBestChainWork := by
  have hstep : NodeStep sampleEnv sampleNodeEnv.hashGenesisBlock zeroNode
      (exec (processBlock sampleNodeEnv oneBlock) zeroNode).2 := .block _ _ rfl rfl
  exact ⟨by decide +kernel, (block_tree zeroNode_started (.single hstep)).1,
    (block_tree zeroNode_started .refl).2 _ hstep⟩

end Namecoin
