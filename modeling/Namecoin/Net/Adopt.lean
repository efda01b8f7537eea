import Namecoin.Net.Dispatch

namespace Namecoin

open Act

-- The asking node holds the blocks up to height a, and the tip among its orphans when parked.
structure Held (env : Env) (chain : Nat → CBlock) (nTip a : Nat) (parked : Bool) (s : NodeState) :
    Prop where
  best : s.pindexBest = some ((chain a).getHash env)
  walk : (s.walk (some ((chain a).getHash env))).head?.map CBlockIndex.hashBlock =
    some ((chain a).getHash env)
  height : (s.walk (some ((chain a).getHash env))).length = a + 1
  index : ∀ h ≤ nTip, (s.mapBlockIndex ((chain h).getHash env)).isSome = decide (h ≤ a)
  orphans : ∀ h ≤ nTip, s.mapOrphanBlocks ((chain h).getHash env) =
    if parked && decide (h = nTip) then some (chain nTip) else none
  byPrev : s.mapOrphanBlocksByPrev =
    if parked then [((chain (nTip - 1)).getHash env, chain nTip)] else []

theorem Held.addOrphan {env : Env} {chain : Nat → CBlock} {nTip a : Nat} {s : NodeState}
    (h : Held env chain nTip a false s)
    (hapart : ∀ h ≤ nTip, (chain h).getHash env = (chain nTip).getHash env → h = nTip)
    (hlinked : (chain nTip).hashPrevBlock = (chain (nTip - 1)).getHash env) :
    Held env chain nTip a true (s.addOrphan env (chain nTip)) where
  best := h.best
  walk := h.walk
  height := h.height
  index := h.index
  orphans k hk := by
    rw [Bool.true_and]
    change Function.update s.mapOrphanBlocks _ (some (chain nTip)) _ = _
    by_cases htip : k = nTip
    · rw [htip, Function.update_self, decide_eq_true rfl, if_pos rfl]
    · rw [Function.update_of_ne fun heq => htip (hapart k hk heq), decide_eq_false htip]
      exact h.orphans k hk
  byPrev := by
    rw [NodeState.addOrphan, h.byPrev, hlinked]
    rfl

-- The blocks of the chain are good for the asking node, each on top of those before it.
structure Adopting (e : NodeEnv) (chain : Nat → CBlock) (nTip : Nat)
    (Holds : Nat → Bool → NodeState → Prop) : Prop where
  checked : ∀ h, 0 < h → h ≤ nTip → (chain h).checkBlock e.env e.nNow intMax = .ok ()
  next : ∀ a parked s, a < nTip → (parked = true → a + 1 < nTip) → Holds a parked s →
    (exec (acceptBlock e (chain (a + 1))) s).1 = .ok () ∧
      Holds (a + 1) parked (exec (acceptBlock e (chain (a + 1))) s).2
  join : ∀ s, 0 < nTip → Holds (nTip - 1) true s →
    (exec (acceptBlock e (chain nTip)) s).1 = .ok () ∧
      Holds nTip false (((exec (acceptBlock e (chain nTip)) s).2.eraseOrphan
        ((chain nTip).getHash e.env)).eraseOrphansByPrev ((chain (nTip - 1)).getHash e.env))
  park : ∀ a s, a + 1 < nTip → Holds a false s → Holds a true (s.addOrphan e.env (chain nTip))

section Dependents

variable {e : NodeEnv} {s : NodeState} {hash : Uint256}

theorem orphansOf_nil (h : ∀ o ∈ s.mapOrphanBlocksByPrev, o.1 ≠ hash) : s.orphansOf hash = [] := by
  rw [NodeState.orphansOf, List.map_eq_nil_iff, List.filter_eq_nil_iff]
  exact fun o ho => by simpa using h o ho

theorem eraseOrphansByPrev_self (h : ∀ o ∈ s.mapOrphanBlocksByPrev, o.1 ≠ hash) :
    s.eraseOrphansByPrev hash = s := by
  have hfilter : s.mapOrphanBlocksByPrev.filter (fun o => decide (o.1 ≠ hash)) =
      s.mapOrphanBlocksByPrev := List.filter_eq_self.mpr fun o ho => decide_eq_true (h o ho)
  rw [NodeState.eraseOrphansByPrev, hfilter]

theorem acceptDependents_self (h : ∀ o ∈ s.mapOrphanBlocksByPrev, o.1 ≠ hash) (fuel : Nat) :
    acceptDependents e (fuel + 1) [hash] s = s := by
  rw [acceptDependents, orphansOf_nil h]
  dsimp only [acceptOrphans]
  rw [eraseOrphansByPrev_self h]
  cases fuel <;> rfl

theorem dependentCalls_nil (h : ∀ o ∈ s.mapOrphanBlocksByPrev, o.1 ≠ hash) (fuel : Nat) :
    dependentCalls e (fuel + 1) [hash] s = [] := by
  rw [dependentCalls, orphansOf_nil h]
  dsimp only [acceptOrphans, orphanCalls]
  cases fuel <;> rfl

end Dependents

section Adopt

variable {e : NodeEnv} {chain : Nat → CBlock} {nTip a : Nat} {parked : Bool}
  {Holds : Nat → Bool → NodeState → Prop} {s : NodeState}

structure Adopted (e : NodeEnv) (chain : Nat → CBlock) (nTip a : Nat) (parked : Bool)
    (Holds : Nat → Bool → NodeState → Prop) (s s' : NodeState) : Prop where
  run : exec (processBlock e (chain (a + 1))) s = (.ok (), s')
  holds : if parked && decide (a + 1 + 1 = nTip) then Holds nTip false s' else Holds (a + 1) parked s'
  calls : ∀ call ∈ processCalls e (chain (a + 1)) s,
    call.2 = chain (a + 1) ∨ parked = true ∧ call.2 = chain nTip

theorem Adopting.adopt (h : Adopting e chain nTip Holds)
    (hheld : ∀ a parked s, Holds a parked s → Held e.env chain nTip a parked s)
    (hinjective : ∀ h ≤ nTip, ∀ k ≤ nTip, (chain h).getHash e.env = (chain k).getHash e.env → h = k)
    (hlinked : ∀ h < nTip, (chain (h + 1)).hashPrevBlock = (chain h).getHash e.env)
    (hbehind : a < nTip) (hparked : parked = true → a + 1 < nTip) (hs : Holds a parked s) :
    ∃ s', Adopted e chain nTip a parked Holds s s' := by
  have hold := hheld a parked s hs
  obtain ⟨hok, hnext⟩ := h.next a parked s hbehind hparked hs
  have hnew := hheld _ _ _ hnext
  have hindex : (s.mapBlockIndex ((chain (a + 1)).getHash e.env)).isSome = false := by
    rw [hold.index (a + 1) hbehind, decide_eq_false_iff_not]
    omega
  have horphan : (s.mapOrphanBlocks ((chain (a + 1)).getHash e.env)).isSome = false := by
    rw [hold.orphans (a + 1) hbehind, if_neg]
    · rfl
    · rw [Bool.and_eq_true, decide_eq_true_eq]
      rintro ⟨hp, heq⟩
      have hlow := hparked hp
      omega
  have hprev : (s.mapBlockIndex (chain (a + 1)).hashPrevBlock).isNone = false := by
    rw [hlinked a hbehind, ← Bool.not_eq_true', Option.not_isNone, hold.index a hbehind.le,
      decide_eq_true_eq]
  have hcheck := h.checked (a + 1) (Nat.succ_pos a) hbehind
  have haccept := exec_eta hok
  generalize (exec (acceptBlock e (chain (a + 1))) s).2 = s1 at hnext hnew haccept
  have hrun : exec (processBlock e (chain (a + 1))) s = (.ok (),
      acceptDependents e (s1.mapOrphanBlocksByPrev.length + 1) [(chain (a + 1)).getHash e.env] s1) := by
    unfold processBlock
    rw [exec_get_bind, exec_raiseIf_bind, if_neg (by rw [hindex]; decide), exec_raiseIf_bind,
      if_neg (by rw [horphan]; decide), hcheck, exec_bind_ok (fromExcept_ok.mpr ⟨rfl, rfl⟩), hprev,
      if_neg Bool.false_ne_true, exec_bind_ok haccept, exec_modify]
  have hcalls : processCalls e (chain (a + 1)) s = (s, chain (a + 1)) ::
      dependentCalls e (s1.mapOrphanBlocksByPrev.length + 1) [(chain (a + 1)).getHash e.env] s1 := by
    rw [processCalls, if_neg (by rw [hindex, horphan, hcheck, hprev]; simp), acceptCalls, haccept]
  by_cases hjoin : parked = true ∧ a + 1 + 1 = nTip
  · obtain ⟨rfl, hlast⟩ := hjoin
    have hlow : a + 1 = nTip - 1 := by omega
    rw [hlow] at hnext
    obtain ⟨hokTip, hdone⟩ := h.join s1 (by omega) hnext
    have hbyPrev : s1.mapOrphanBlocksByPrev =
        [((chain (a + 1)).getHash e.env, chain nTip)] := by
      rw [hnew.byPrev, if_pos rfl, hlow]
    have horphans : s1.orphansOf ((chain (a + 1)).getHash e.env) = [chain nTip] := by
      simp [NodeState.orphansOf, hbyPrev]
    rw [← hlow] at hdone
    have hjoined := exec_eta hokTip
    generalize (exec (acceptBlock e (chain nTip)) s1).2 = s2 at hdone hjoined
    have hnone : ∀ o ∈ ((s2.eraseOrphan ((chain nTip).getHash e.env)).eraseOrphansByPrev
        ((chain (a + 1)).getHash e.env)).mapOrphanBlocksByPrev, o.1 ≠ (chain nTip).getHash e.env := by
      rw [(hheld _ _ _ hdone).byPrev]
      exact fun o ho => absurd ho List.not_mem_nil
    have hdependents : acceptDependents e (s1.mapOrphanBlocksByPrev.length + 1)
        [(chain (a + 1)).getHash e.env] s1 =
        (s2.eraseOrphan ((chain nTip).getHash e.env)).eraseOrphansByPrev
          ((chain (a + 1)).getHash e.env) := by
      rw [acceptDependents, horphans, hbyPrev]
      simp only [acceptOrphans, hjoined, List.nil_append]
      exact acceptDependents_self hnone 0
    have hcallsTip : dependentCalls e (s1.mapOrphanBlocksByPrev.length + 1)
        [(chain (a + 1)).getHash e.env] s1 = [(s1, chain nTip)] := by
      rw [dependentCalls, horphans, hbyPrev]
      simp only [acceptOrphans, orphanCalls, hjoined, List.nil_append]
      exact congrArg (List.cons (s1, chain nTip)) (dependentCalls_nil hnone 0)
    refine ⟨_, hrun, ?_, fun call hmem => ?_⟩
    · rw [if_pos (by simp [hlast]), hdependents]
      exact hdone
    · rw [hcalls, hcallsTip, List.mem_cons, List.mem_singleton] at hmem
      rcases hmem with rfl | rfl
      · exact .inl rfl
      · exact .inr ⟨rfl, rfl⟩
  · have hnone : ∀ o ∈ s1.mapOrphanBlocksByPrev, o.1 ≠ (chain (a + 1)).getHash e.env := by
      rw [hnew.byPrev]
      intro o ho
      cases parked with
      | false => exact absurd ho List.not_mem_nil
      | true =>
        rw [if_pos rfl, List.mem_singleton] at ho
        rw [ho]
        intro heq
        have hlow := hparked rfl
        have hsame := hinjective (nTip - 1) (Nat.sub_le _ _) (a + 1) hbehind heq
        exact hjoin ⟨rfl, by omega⟩
    refine ⟨s1, ?_, ?_, fun call hmem => ?_⟩
    · rw [hrun, acceptDependents_self hnone]
    · rw [if_neg (by rw [Bool.and_eq_true, decide_eq_true_eq]; exact hjoin)]
      exact hnext
    · rw [hcalls, dependentCalls_nil hnone, List.mem_singleton] at hmem
      rw [hmem]
      exact .inl rfl

theorem Adopting.stores (h : Adopting e chain nTip Holds)
    (hheld : ∀ a parked s, Holds a parked s → Held e.env chain nTip a parked s)
    (hlinked : ∀ h < nTip, (chain (h + 1)).hashPrevBlock = (chain h).getHash e.env)
    (hfar : a + 1 < nTip) (hs : Holds a false s) :
    exec (processBlock e (chain nTip)) s = (.ok (), s.addOrphan e.env (chain nTip)) ∧
      processCalls e (chain nTip) s = [] ∧ (s.mapBlockIndex (chain nTip).hashPrevBlock).isNone = true := by
  have hold := hheld a false s hs
  have hindex : (s.mapBlockIndex ((chain nTip).getHash e.env)).isSome = false := by
    rw [hold.index nTip le_rfl, decide_eq_false_iff_not]
    omega
  have horphan : (s.mapOrphanBlocks ((chain nTip).getHash e.env)).isSome = false := by
    rw [hold.orphans nTip le_rfl]
    rfl
  have hprev : (s.mapBlockIndex (chain nTip).hashPrevBlock).isNone = true := by
    have hlink := hlinked (nTip - 1) (by omega)
    rw [Nat.sub_add_cancel (by omega)] at hlink
    rw [hlink, Option.isNone_iff_eq_none, ← Option.not_isSome_iff_eq_none,
      hold.index (nTip - 1) (Nat.sub_le _ _), decide_eq_true_eq]
    omega
  have hcheck := h.checked nTip (by omega) le_rfl
  refine ⟨?_, ?_, hprev⟩
  · unfold processBlock
    rw [exec_get_bind, exec_raiseIf_bind, if_neg (by rw [hindex]; decide), exec_raiseIf_bind,
      if_neg (by rw [horphan]; decide), hcheck, exec_bind_ok (fromExcept_ok.mpr ⟨rfl, rfl⟩), hprev,
      if_pos rfl, exec_modify]
  · rw [processCalls, if_pos (.inr (.inr (.inr hprev)))]

end Adopt

end Namecoin
