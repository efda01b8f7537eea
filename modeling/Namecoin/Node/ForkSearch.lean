import Namecoin.Node.Best
import Namecoin.Node.Reload

namespace Namecoin

open Act

namespace HeightTree

variable {m : BlockMap} {genesis : Uint256}

theorem heightOf_eq {x : Uint256} {p : CBlockIndex} (hp : m x = some p) :
    heightOf m x = p.nHeight := by
  rw [heightOf, hp]
  rfl

theorem lower (h : HeightTree m genesis) {fuel : Nat} {x : Uint256} {p : CBlockIndex}
    (hp : m x = some p) (hfuel : p.nHeight < fuel) (n : Nat) :
    ∃ k q, (pprevWalk m fuel (some x)).dropWhile (fun r => decide (n < r.nHeight)) =
        pprevWalk m (k + 1) (some q.hashBlock) ∧
      m q.hashBlock = some q ∧ q.nHeight ≤ n ∧ q.nHeight ≤ k ∧
      Forest.Anc (parentOf m) q.hashBlock x ∧
      ∀ y, Forest.Anc (parentOf m) y x → heightOf m y ≤ n →
        Forest.Anc (parentOf m) y q.hashBlock := by
  induction fuel generalizing x p with
  | zero => exact absurd hfuel (Nat.not_lt_zero _)
  | succ fuel ih =>
    have hkey := h.keyed x p hp
    rw [pprevWalk_cons hp]
    by_cases hlow : p.nHeight ≤ n
    · rw [List.dropWhile_cons_of_neg (by simpa using hlow)]
      refine ⟨fuel, p, ?_, ?_, hlow, Nat.le_of_lt_succ hfuel, ?_, ?_⟩
      · rw [hkey, pprevWalk_cons hp]
      · rw [hkey, hp]
      · rw [hkey]
        exact .refl _
      · intro y hy _
        rwa [hkey]
    · rw [List.dropWhile_cons_of_pos (by simpa using hlow)]
      have hx : x ≠ genesis := by
        rintro rfl
        obtain ⟨r, hr, -, hroot⟩ := h.root
        rw [hp] at hr
        cases hr
        omega
      obtain ⟨c, pc, hprev, hc, hheight⟩ := h.parent x p hp hx
      have hstep : parentOf m x = some c := by simp [parentOf, hp, hprev]
      obtain ⟨k, q, hdrop, hq, hqn, hqk, hanc, hall⟩ := ih hc (by omega)
      rw [hprev]
      refine ⟨k, q, hdrop, hq, hqn, hqk, Relation.ReflTransGen.head hstep hanc, ?_⟩
      intro y hy hyn
      rcases hy.cases_self with rfl | ⟨c', hc', hy⟩
      · rw [heightOf_eq hp] at hyn
        exact absurd hyn hlow
      · rw [hstep] at hc'
        cases hc'
        exact hall y hy hyn

theorem findFork_meet (h : HeightTree m genesis) {fa fb : Nat} {a b : Uint256}
    {p q : CBlockIndex} (hp : m a = some p) (hq : m b = some q) (hfa : p.nHeight < fa)
    (hfb : q.nHeight < fb) :
    ∃ pfork, findFork (pprevWalk m fa (some a)) (pprevWalk m fb (some b)) = .ok pfork ∧
      Forest.Meet (parentOf m) a b pfork.hashBlock := by
  induction fa generalizing a b p q fb with
  | zero => exact absurd hfa (Nat.not_lt_zero _)
  | succ fa ih =>
    have hkey := h.keyed a p hp
    obtain ⟨k, r, hdrop, hr, hrn, hrk, hrb, hall⟩ := h.lower hq hfb p.nHeight
    rw [pprevWalk_cons hp, findFork, hdrop, pprevWalk_cons hr]
    dsimp only
    by_cases heq : r.hashBlock = p.hashBlock
    · rw [if_pos heq]
      refine ⟨p, rfl, ?_⟩
      rw [heq] at hrb
      rw [hkey] at hrb ⊢
      exact hrb.meet
    · rw [if_neg heq, ← pprevWalk_cons hr]
      rw [hkey] at heq
      have hlow : ¬Forest.Anc (parentOf m) a r.hashBlock := by
        intro hanc
        have hle := hanc.height_le h.graded
        rw [heightOf_eq hp, heightOf_eq hr] at hle
        refine heq (hanc.eq_of_height h.graded ?_).symm
        rw [heightOf_eq hp, heightOf_eq hr]
        omega
      have ha : a ≠ genesis := by
        rintro rfl
        exact hlow (h.genesis_anc (by simp [hr]))
      obtain ⟨c, pc, hprev, hc, hheight⟩ := h.parent a p hp ha
      have hstep : parentOf m a = some c := by simp [parentOf, hp, hprev]
      rw [hprev]
      obtain ⟨pfork, hfound, hmeet⟩ := ih hc hr (by omega) (Nat.lt_succ_of_le hrk)
      refine ⟨pfork, hfound, (hmeet.ofParent hstep hlow).ofLower hrb ?_⟩
      intro x hxa hxb
      refine hall x hxb ?_
      rw [← heightOf_eq hp]
      exact hxa.height_le h.graded

end HeightTree

def switchTo (e : NodeEnv) (pindexNew pfork : CBlockIndex) : Act Fault NodeState Unit := do
  let s ← get
  let r ← runTxn pindexNew (s.switchCall e pindexNew pfork)
  modify (relink (s.vDisconnect pfork) (s.vConnect pindexNew pfork))
  modify (fun s => s.resurrect e r.1)
  modify (fun s => s.removeAll e.env r.2)

structure ForkPaths (s : NodeState) (best : Uint256) (pindexNew pfork : CBlockIndex) : Prop where
  found : findFork (s.walk s.pindexBest) (s.longer pindexNew) = .ok pfork
  runs : ∀ e, exec (reorganize e pindexNew) s = exec (switchTo e pindexNew pfork) s
  lowest : Forest.Meet (parentOf s.mapBlockIndex) best pindexNew.hashBlock pfork.hashBlock
  indexed : ∀ b ∈ s.vDisconnect pfork ++ s.vConnect pindexNew pfork,
    s.mapBlockIndex b.pindex.hashBlock = some b.pindex
  disconnects : Forest.Descends (parentOf s.mapBlockIndex) pfork.hashBlock best
    ((s.vDisconnect pfork).map fun b => b.pindex.hashBlock)
  connects : Forest.Descends (parentOf s.mapBlockIndex) pfork.hashBlock pindexNew.hashBlock
    ((s.vConnect pindexNew pfork).map fun b => b.pindex.hashBlock).reverse

theorem reorganize_switchTo {e : NodeEnv} {s : NodeState} {pindexNew pfork : CBlockIndex}
    (hf : findFork (s.walk s.pindexBest) (s.longer pindexNew) = .ok pfork) :
    exec (reorganize e pindexNew) s = exec (switchTo e pindexNew pfork) s := by
  unfold NodeState.longer at hf
  unfold reorganize switchTo
  rw [exec_get_bind, exec_get_bind]
  dsimp only
  rw [hf]
  rfl

theorem reorganize_paths {s : NodeState} {genesis best : Uint256} {pindexNew : CBlockIndex}
    (h : HeightTree s.mapBlockIndex genesis) (hbest : s.pindexBest = some best)
    (hin : (s.mapBlockIndex best).isSome)
    (hnew : s.mapBlockIndex pindexNew.hashBlock = some pindexNew) :
    ∃ pfork, ForkPaths s best pindexNew pfork := by
  obtain ⟨p, hp⟩ := Option.isSome_iff_exists.mp hin
  have hwalk : s.walk s.pindexBest =
      pprevWalk s.mapBlockIndex (heightOf s.mapBlockIndex best + 1) (some best) := by
    rw [hbest]
    rfl
  have hlonger := h.longer_eq hnew
  obtain ⟨pfork, hfound, hmeet⟩ := h.findFork_meet hp hnew
    (Nat.lt_succ_of_le (HeightTree.heightOf_eq hp).ge)
    (Nat.lt_succ_of_le (HeightTree.heightOf_eq hnew).ge)
  rw [← hwalk, ← hlonger] at hfound
  refine ⟨pfork, hfound, fun e => reorganize_switchTo hfound, hmeet, ?_, ?_, ?_⟩
  · intro b hb
    rcases List.mem_append.mp hb with hb | hb
    · exact h.mem_pprevWalk (upTo_mem hb)
    · rw [NodeState.vConnect, List.mem_reverse, hlonger] at hb
      exact h.mem_pprevWalk (upTo_mem hb)
  · rw [NodeState.vDisconnect, upTo_hashes, hbest, h.walk_path hin]
    exact hmeet.left.descends h.graded (Nat.lt_succ_self _)
  · rw [NodeState.vConnect, List.map_reverse, List.reverse_reverse, upTo_hashes,
      h.longer_path hnew]
    exact hmeet.right.descends h.graded (Nat.lt_succ_self _)

def forkedIndex (hashBlock : Uint256) (pprev : Option Uint256) (nHeight : Nat)
    (bnChainWork : Int) : CBlockIndex where
  hashBlock := hashBlock
  pprev := pprev
  pnext := none
  nFile := 1
  nBlockPos := 0
  nHeight := nHeight
  bnChainWork := bnChainWork
  nVersion := 1
  hashMerkleRoot := 0
  nTime := 0
  nBits := 0
  nNonce := 0

def forkedEntries : List CBlockIndex :=
  [forkedIndex 1 none 0 1, forkedIndex 2 (some 1) 1 2, forkedIndex 3 (some 2) 2 3,
    forkedIndex 4 (some 1) 1 9]

def forkedMap : BlockMap := fun h => forkedEntries.find? (fun p => decide (p.hashBlock = h))

theorem forkedMap_tree : HeightTree forkedMap 1 where
  keyed h p hp := by simpa using List.find?_some hp
  root := ⟨forkedIndex 1 none 0 1, by decide, rfl, rfl⟩
  parent h p hp hne := by
    have hkey : p.hashBlock = h := by simpa using List.find?_some hp
    have hall : ∀ p ∈ forkedEntries, p.hashBlock ≠ 1 →
        (p.pprev.bind forkedMap).map (fun pq => pq.nHeight + 1) = some p.nHeight := by
      decide +kernel
    obtain ⟨pq, hpq, hheight⟩ := Option.map_eq_some_iff.mp
      (hall p (List.mem_of_find?_eq_some hp) (hkey ▸ hne))
    obtain ⟨q, hq, hmap⟩ := Option.bind_eq_some_iff.mp hpq
    exact ⟨q, pq, hq, hmap, hheight.symm⟩

def forkedNode : NodeState :=
  { NodeState.blank sampleWallet with
    mapBlockIndex := forkedMap
    pindexBest := some 3 }

theorem reorganize_paths_shorter :
    ForkPaths forkedNode 3 (forkedIndex 4 (some 1) 1 9) (forkedIndex 1 none 0 1) := by
  obtain ⟨pfork, h⟩ := @reorganize_paths forkedNode 1 3 (forkedIndex 4 (some 1) 1 9)
    forkedMap_tree rfl (by decide) (by decide)
  have hfound : findFork (forkedNode.walk forkedNode.pindexBest)
      (forkedNode.longer (forkedIndex 4 (some 1) 1 9)) = .ok (forkedIndex 1 none 0 1) := by
    decide +kernel
  obtain rfl := Except.ok.inj (h.found.symm.trans hfound)
  exact h

end Namecoin
