import Namecoin.Node.Headers

namespace Namecoin

open Act

-- ConnectBlock has run CheckBlock on the block at its own height, at some clock.
def PassedAt (env : Env) (d : Disk) (p : CBlockIndex) : Prop :=
  ∃ b, ∃ nNow : Int, d.readIndexed env p = some b ∧ b.checkBlock env nNow p.nHeight = .ok ()

def Passed (env : Env) (m : BlockMap) (d : Disk) (best : Uint256) : Prop :=
  ∀ x p, Forest.Anc (parentOf m) x best → m x = some p → p.pprev.isSome → PassedAt env d p

structure ChainPassed (env : Env) (genesis : Uint256) (s : NodeState) (best : Uint256) : Prop where
  tree : TreeOk s.tree genesis best
  passed : Passed env s.mapBlockIndex s.disk best

def ChainKept (env : Env) (genesis : Uint256) (s : NodeState) : Prop :=
  ∃ best, ChainPassed env genesis s best

theorem PassedAt.forget {env : Env} {d d' : Disk} {p p' : CBlockIndex} (h : PassedAt env d p)
    (hforget : forgetNext p' = forgetNext p) (hkeeps : d.KeepsBlocks d') : PassedAt env d' p' := by
  obtain ⟨b, nNow, hread, hcheck⟩ := h
  have hheight : p'.nHeight = p.nHeight := forgetNext_read (fun _ => rfl) hforget
  refine ⟨b, nNow, ?_, ?_⟩
  · rw [(readIndexed_forget hforget).1]
    exact hkeeps.readIndexed hread
  · rw [hheight]
    exact hcheck

theorem SameTree.forget {m m' : BlockMap} (h : SameTree m m') {x : Uint256} {p p' : CBlockIndex}
    (hp : m x = some p) (hp' : m' x = some p') : forgetNext p' = forgetNext p := by
  have hx := h x
  rw [hp, hp', Option.map_some, Option.map_some] at hx
  exact Option.some.inj hx

theorem connectBlock_checked {c : BlockCall} {b : CBlock} {s s' : ChainState}
    (h : exec (c.connectBlock b) s = (.ok (), s')) :
    b.checkBlock c.env c.nNow c.pindex.pindex.nHeight = .ok () := by
  unfold BlockCall.connectBlock at h
  obtain ⟨u, s₁, hcheck, -⟩ := bind_ok.mp h
  exact (fromExcept_ok.mp hcheck).1

theorem connectBranch_checked {cs : List BlockCall} {s s' : ChainState} {r : List CTransaction}
    (h : exec (connectBranch cs) s = (.ok r, s')) :
    ∀ c ∈ cs, ∃ b, c.view.disk.readIndexed c.env c.pindex.pindex = some b ∧
      b.checkBlock c.env c.nNow c.pindex.pindex.nHeight = .ok () := by
  induction cs generalizing s r with
  | nil => exact fun c hc => absurd hc List.not_mem_nil
  | cons c rest ih =>
    simp only [connectBranch, bind_ok, fromOption_ok, pure_ok] at h
    obtain ⟨b, s1, ⟨hread, rfl⟩, _, s2, hconnect, vDelete, s3, hrest, -, rfl⟩ := h
    exact List.forall_mem_cons.mpr ⟨⟨b, hread, connectBlock_checked hconnect⟩, ih hrest⟩

section Best

variable {e : NodeEnv} {s s' : NodeState} {b : CBlock} {pindexNew pfork : CBlockIndex}
  {genesis best : Uint256} {c : ChainState}

theorem Passed.extended (h : Passed e.env s.mapBlockIndex s.disk best)
    (hnew : s.mapBlockIndex pindexNew.hashBlock = some pindexNew)
    (hprev : pindexNew.pprev = some best)
    (hstored : s.disk.readIndexed e.env pindexNew = some b)
    (hx : exec (extendChain (s.tipCall e pindexNew) b) s.chain = (.ok (), c)) :
    Passed e.env s.mapBlockIndex s.disk pindexNew.hashBlock := by
  intro x p hanc hp hlinked
  rcases hanc.cases_self with rfl | ⟨q, hparent, habove⟩
  · obtain rfl := Option.some.inj (hnew.symm.trans hp)
    simp only [extendChain, bind_ok] at hx
    obtain ⟨u, s₁, hconnect, -⟩ := hx
    exact ⟨b, _, hstored, connectBlock_checked hconnect⟩
  · rw [parentOf, hnew, Option.bind_some, hprev] at hparent
    obtain rfl := Option.some.inj hparent
    exact h x p habove hp hlinked

theorem Passed.switched (h : Passed e.env s.mapBlockIndex s.disk best)
    (hok : TreeOk s.tree genesis best)
    (hnew : s.mapBlockIndex pindexNew.hashBlock = some pindexNew)
    (hf : findFork (s.walk s.pindexBest) (s.longer pindexNew) = .ok pfork)
    {r : List CTransaction × List CTransaction}
    (hx : exec (s.switchCall e pindexNew pfork) s.chain = (.ok r, c)) :
    Passed e.env s.mapBlockIndex s.disk pindexNew.hashBlock := by
  have hroot : Rooted s.mapBlockIndex genesis := hok.rooted
  have hbest : s.pindexBest = some best := hok.isBest
  have hshort := hroot.walk_path hok.best_some
  have hlong := hroot.longer_path hnew
  obtain ⟨hin, hin'⟩ := findFork_ok hf
  rw [hbest] at hin
  have hfv : Forest.Anc (parentOf s.mapBlockIndex) pfork.hashBlock best :=
    Forest.anc_of_mem_path (hshort ▸ List.mem_map_of_mem hin)
  have hfw : Forest.Anc (parentOf s.mapBlockIndex) pfork.hashBlock pindexNew.hashBlock :=
    Forest.anc_of_mem_path (hlong ▸ hin')
  simp only [NodeState.switchCall, switchBranch, bind_ok] at hx
  obtain ⟨vResurrect, s₁, -, vDelete, s₂, hconnect, -⟩ := hx
  intro x p hanc hp hlinked
  by_cases hold : Forest.Anc (parentOf s.mapBlockIndex) x pfork.hashBlock
  · exact h x p (hfv.trans hold) hp hlinked
  · have hmem : x ∈ (upTo pfork (s.longer pindexNew)).map (fun b => b.pindex.hashBlock) := by
      rw [upTo_hashes, NodeState.longer, hlong]
      exact (Forest.mem_path_takeWhile hroot.graded (Nat.lt_succ_self _) hfw).mpr ⟨hanc, hold⟩
    obtain ⟨branch, hbranch, rfl⟩ := List.mem_map.mp hmem
    have hindex : s.mapBlockIndex branch.pindex.hashBlock = some branch.pindex := by
      rcases List.mem_cons.mp (upTo_mem hbranch) with heq | hwalk
      · rw [heq]
        exact hnew
      · exact hroot.mem_pprevWalk hwalk
    obtain rfl := Option.some.inj (hindex.symm.trans hp)
    obtain ⟨block, hread, hcheck⟩ := connectBranch_checked hconnect (s.blockCall e branch)
      (List.mem_map_of_mem (List.mem_reverse.mpr hbranch))
    exact ⟨block, _, hread, hcheck⟩

theorem ChainPassed.congr {env : Env} (h : ChainPassed env genesis s best)
    (htree : s'.tree = s.tree) (hdisk : s'.disk = s.disk) : ChainPassed env genesis s' best := by
  have hmap : s'.mapBlockIndex = s.mapBlockIndex := congrArg TreeView.mapBlockIndex htree
  refine ⟨htree ▸ h.tree, ?_⟩
  rw [hmap, hdisk]
  exact h.passed

theorem Passed.grow {env : Env} {m m' : BlockMap} {d d' : Disk} (h : Passed env m d best)
    (hroot : Rooted m genesis) (hbest : (m best).isSome) (hgrows : Grows m m')
    (hkeeps : d.KeepsBlocks d') : Passed env m' d' best := by
  intro x p' hanc hp' hlinked
  have hback := Grows.anc_back hroot hgrows hbest hanc
  obtain ⟨p, hp⟩ := Option.isSome_iff_exists.mp (hroot.anc_some hbest hback)
  obtain ⟨q, hq, hforget⟩ := hgrows x p hp
  obtain rfl := Option.some.inj (hq.symm.trans hp')
  have hprev : q.pprev = p.pprev := forgetNext_read (fun _ => rfl) hforget
  rw [hprev] at hlinked
  exact (h x p hback hp hlinked).forget hforget hkeeps

theorem ChainPassed.setBestChain (h : ChainPassed e.env genesis s best)
    (hhash : b.getHash e.env = pindexNew.hashBlock)
    (hnew : s.mapBlockIndex pindexNew.hashBlock = some pindexNew)
    (hprev : pindexNew.pprev = some b.hashPrevBlock)
    (hstored : s.disk.readIndexed e.env pindexNew = some b) :
    ChainKept e.env genesis (exec (setBestChain e b pindexNew) s).2 := by
  rcases setBestChain_cases e b pindexNew s with ⟨fault, s', hx, -⟩ | ⟨s', hx, -⟩
  · have hsame := (setBestChain_failed hx).same
    rw [hx]
    exact ⟨best, h.congr hsame.tree hsame.disk⟩
  · obtain ⟨htree, hsame, hdisk⟩ := h.tree.adopted hhash hnew hprev hx
    have hpassed : Passed e.env s.mapBlockIndex s.disk pindexNew.hashBlock := by
      simp only [Namecoin.setBestChain, bind_ok] at hx
      obtain ⟨u, s₁, hmove, -⟩ := hx
      have hmoved := moveChain_moved e b pindexNew s
      rw [hmove] at hmoved
      cases hmoved with
      | genesis hgen _ =>
        have hgen' : s.pindexGenesisBlock = some genesis := h.tree.genesisBlock
        rw [hgen] at hgen'
        cases hgen'
      | extended htip hx =>
        obtain ⟨-, -, hchain, -⟩ := h.tree.globals
        have hbest : s.hashBestChain = best := hchain
        exact h.passed.extended hnew (by rw [hprev, htip, hbest]) hstored hx
      | switched _ hf hx => exact h.passed.switched h.tree hnew hf hx
    rw [hx]
    refine ⟨pindexNew.hashBlock, htree, hpassed.grow h.tree.rooted (by simp [hnew]) hsame.grows ?_⟩
    rw [hdisk]
    exact fun _ _ _ hread => hread

end Best

section Runs

variable {e : NodeEnv} {env : Env} {s s' : NodeState} {b : CBlock} {genesis best : Uint256}
  {pos : Nat × Nat}

theorem ChainPassed.insert (h : ChainPassed e.env genesis s best) (happends : e.Appends)
    (hfiles : Files e s b pos) : ChainPassed e.env genesis (s.withIndex e b pos) best := by
  obtain ⟨hfresh, hprev, hpos⟩ := hfiles
  have hkeeps := writeToDisk_keeps (happends s b pos.1 pos.2 hpos) b
  exact ⟨(h.tree.insertNew hprev hfresh pos.1 pos.2).2,
    h.passed.grow h.tree.rooted h.tree.best_some (grows_insert hfresh) hkeeps⟩

theorem ChainPassed.acceptBlock (h : ChainPassed e.env genesis s best) (happends : e.Appends)
    (b : CBlock) : ChainKept e.env genesis (exec (acceptBlock e b) s).2 := by
  rcases acceptBlock_cases e b s with ⟨fault, hx⟩ | ⟨pos, hfiles, hx⟩
  · rw [hx]
    exact ⟨best, h⟩
  · have hins := h.insert happends hfiles
    rw [hx]
    unfold doIf
    split
    · obtain ⟨pprev, hpprev⟩ := Option.isSome_iff_exists.mp hfiles.prev
      refine hins.setBestChain rfl (Function.update_self _ _ _) ?_ ?_
      · simp [NodeState.newIndex, newBlockIndex, NodeState.withBlock, hpprev]
      · refine Option.filter_eq_some_iff.mpr ⟨?_, ?_⟩
        · show (s.disk.writeToDisk pos.1 pos.2 b).readBlock pos.1 pos.2 = some b
          simp [Disk.writeToDisk]
        · simp [NodeState.newIndex, newBlockIndex]
    · exact ⟨best, hins⟩

theorem chainKept_carries (happends : e.Appends) (genesis : Uint256) :
    Carries e (fun s s' => ChainKept e.env genesis s → ChainKept e.env genesis s') where
  refl _ h := h
  trans h h' hs := h' (h hs)
  park _ _ h := h.imp fun _ hs => hs.congr rfl rfl
  erase _ _ h := h.imp fun _ hs => hs.congr rfl rfl
  drop _ _ h := h.imp fun _ hs => hs.congr rfl rfl
  accept b _ := fun ⟨_, hs⟩ => hs.acceptBlock happends b

theorem Started.chainKept {hashGenesisBlock : Uint256} (h : Started env hashGenesisBlock s) :
    ChainKept env hashGenesisBlock s := by
  refine ⟨hashGenesisBlock, h.treeOk, fun x p hanc hp hlinked => ?_⟩
  obtain ⟨pg, hpg, hroot⟩ := h.treeOk.rooted.root
  have hx : x = hashGenesisBlock := h.keys (by simp [hp])
  rw [hx] at hp
  obtain rfl := Option.some.inj (hpg.symm.trans hp)
  simp [hroot] at hlinked

theorem AppendStep.chainKept {hashGenesisBlock : Uint256}
    (hstep : AppendStep env hashGenesisBlock s s') (h : ChainKept env hashGenesisBlock s) :
    ChainKept env hashGenesisBlock s' := by
  cases hstep with
  | block e b henv _ happends =>
    subst henv
    exact (chainKept_carries happends hashGenesisBlock).processBlock b s h
  | tx e tx fCheckInputs fLimitFree fRateLimited henv _ =>
    have hpool := acceptToMemoryPool_poolOnly e tx fCheckInputs fLimitFree fRateLimited s
    exact h.imp fun _ hs => hs.congr hpool.tree hpool.disk

theorem chainKept_of_run {hashGenesisBlock : Uint256} {s0 : NodeState}
    (hstart : Started env hashGenesisBlock s0)
    (run : Relation.ReflTransGen (AppendStep env hashGenesisBlock) s0 s) :
    ChainKept env hashGenesisBlock s := by
  induction run with
  | refl => exact hstart.chainKept
  | tail _ hstep ih => exact hstep.chainKept ih

end Runs

end Namecoin
