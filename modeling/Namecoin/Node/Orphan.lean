import Namecoin.Node.MainChain

namespace Namecoin

open Act

structure KeepsIndex (s s' : NodeState) : Prop where
  same : SameTree s.mapBlockIndex s'.mapBlockIndex
  orphans : s'.mapOrphanBlocks = s.mapOrphanBlocks
  byPrev : s'.mapOrphanBlocksByPrev = s.mapOrphanBlocksByPrev

theorem keepsIndex_refl (s : NodeState) : KeepsIndex s s := ⟨SameTree.refl _, rfl, rfl⟩

theorem KeepsIndex.trans {a b c : NodeState} (h : KeepsIndex a b) (h' : KeepsIndex b c) :
    KeepsIndex a c :=
  ⟨h.same.trans h'.same, h'.orphans.trans h.orphans, h'.byPrev.trans h.byPrev⟩

theorem PoolOnly.keepsIndex {s s' : NodeState} (h : PoolOnly s s') : KeepsIndex s s' := by
  have hmap : s'.withoutPool.mapBlockIndex = s.withoutPool.mapBlockIndex :=
    congrArg NodeState.mapBlockIndex h
  have horphans : s'.withoutPool.mapOrphanBlocks = s.withoutPool.mapOrphanBlocks :=
    congrArg NodeState.mapOrphanBlocks h
  have hprev : s'.withoutPool.mapOrphanBlocksByPrev = s.withoutPool.mapOrphanBlocksByPrev :=
    congrArg NodeState.mapOrphanBlocksByPrev h
  have hmap' : s'.mapBlockIndex = s.mapBlockIndex := hmap
  exact ⟨hmap' ▸ SameTree.refl _, horphans, hprev⟩

structure BestKeeps (R : NodeState → NodeState → Prop) : Prop where
  refl : ∀ s, R s s
  trans : ∀ {a b c}, R a b → R b c → R a c
  chain : ∀ s c, R s { s with chain := c }
  invalid : ∀ pindexNew s, R s (s.invalidChainFound pindexNew)
  next : ∀ pindex n s, R s (s.linkNext pindex n)
  pool : ∀ {s s'}, PoolOnly s s' → R s s'
  genesis : ∀ hash s, R s (s.becomeGenesis hash)
  best : ∀ pindexNew hash s, R s (s.newBest pindexNew hash)

section BestKeeps

variable {R : NodeState → NodeState → Prop}

theorem BestKeeps.runTxn (h : BestKeeps R) {α : Type} (pindexNew : CBlockIndex)
    (x : Act Fault ChainState α) : Keeps R (runTxn pindexNew x) := by
  intro s
  rcases hx : exec x s.chain with ⟨r, c⟩
  cases r with
  | error fault =>
    rw [runTxn_error hx]
    exact h.trans (h.chain s _) (h.invalid pindexNew _)
  | ok a =>
    rw [runTxn_ok hx]
    exact h.chain s c

theorem BestKeeps.linkAll (h : BestKeeps R) (n : Branch → Option Uint256) (l : List Branch)
    (s : NodeState) : R s (l.foldl (fun s b => s.linkNext b.pindex (n b)) s) := by
  induction l generalizing s with
  | nil => exact h.refl s
  | cons b rest ih => exact h.trans (h.next b.pindex (n b) s) (ih _)

theorem BestKeeps.relink (h : BestKeeps R) (vDisconnect vConnect : List Branch) (s : NodeState) :
    R s (relink vDisconnect vConnect s) :=
  h.trans (h.linkAll (fun _ => none) vDisconnect s)
    (h.linkAll (fun b => some b.pindex.hashBlock) vConnect _)

theorem BestKeeps.extendBest (h : BestKeeps R) (e : NodeEnv) (b : CBlock) (pindexNew : CBlockIndex) :
    Keeps R (extendBest e b pindexNew) := by
  refine keeps_bind (R := R) h.trans (keeps_get h.refl) (fun s => ?_)
  refine keeps_bind (R := R) h.trans (h.runTxn _ _) (fun _ => ?_)
  refine keeps_bind (R := R) h.trans (keeps_modify (h.next _ _)) (fun _ => ?_)
  exact keeps_modify (fun s => h.pool (removeAll_poolOnly _ _ s))

theorem BestKeeps.reorganize (h : BestKeeps R) (e : NodeEnv) (pindexNew : CBlockIndex) :
    Keeps R (reorganize e pindexNew) := by
  refine keeps_bind (R := R) h.trans (keeps_get h.refl) (fun s => ?_)
  dsimp only
  split
  · exact keeps_bind (R := R) h.trans (keeps_modify (h.invalid pindexNew))
      (fun _ => keeps_throw h.refl _)
  · refine keeps_bind (R := R) h.trans (h.runTxn _ _) (fun _ => ?_)
    refine keeps_bind (R := R) h.trans (keeps_modify (h.relink _ _)) (fun _ => ?_)
    refine keeps_bind (R := R) h.trans
      (keeps_modify (fun s => h.pool (resurrect_poolOnly _ _ s))) (fun _ => ?_)
    exact keeps_modify (fun s => h.pool (removeAll_poolOnly _ _ s))

theorem BestKeeps.moveChain (h : BestKeeps R) (e : NodeEnv) (b : CBlock) (pindexNew : CBlockIndex) :
    Keeps R (moveChain e b pindexNew) := by
  refine keeps_bind (R := R) h.trans (keeps_get h.refl) (fun s => ?_)
  split
  · exact keeps_modify (h.genesis _)
  · split
    · exact h.extendBest e b pindexNew
    · exact h.reorganize e pindexNew

theorem BestKeeps.setBestChain (h : BestKeeps R) (e : NodeEnv) (b : CBlock) (pindexNew : CBlockIndex) :
    Keeps R (setBestChain e b pindexNew) :=
  keeps_bind (R := R) h.trans (h.moveChain e b pindexNew) (fun _ => keeps_modify (h.best _ _))

end BestKeeps

theorem keepsIndex_bestKeeps : BestKeeps KeepsIndex where
  refl := keepsIndex_refl
  trans := KeepsIndex.trans
  chain _ _ := ⟨SameTree.refl _, rfl, rfl⟩
  invalid _ _ := ⟨SameTree.refl _, rfl, rfl⟩
  next _ _ _ := ⟨sameTree_setNext _ _ _, rfl, rfl⟩
  pool := PoolOnly.keepsIndex
  genesis _ _ := ⟨SameTree.refl _, rfl, rfl⟩
  best _ _ _ := ⟨SameTree.refl _, rfl, rfl⟩

theorem setBestChain_keepsIndex (e : NodeEnv) (b : CBlock) (pindexNew : CBlockIndex) :
    Keeps KeepsIndex (setBestChain e b pindexNew) := keepsIndex_bestKeeps.setBestChain e b pindexNew

structure Adds (hash hashPrevBlock : Uint256) (s s' : NodeState) : Prop where
  fresh : s.mapBlockIndex hash = none
  prev : (s.mapBlockIndex hashPrevBlock).isSome
  keys : ∀ h, (s'.mapBlockIndex h).isSome ↔ h = hash ∨ (s.mapBlockIndex h).isSome
  orphans : s'.mapOrphanBlocks = s.mapOrphanBlocks
  byPrev : s'.mapOrphanBlocksByPrev = s.mapOrphanBlocksByPrev

theorem SameTree.isSome_eq {m m' : BlockMap} (h : SameTree m m') (x : Uint256) :
    (m' x).isSome = (m x).isSome := by
  have hx := congrArg Option.isSome (h x)
  rwa [Option.isSome_map, Option.isSome_map] at hx

theorem addToBlockIndex_adds {e : NodeEnv} {b : CBlock} {s : NodeState}
    (hfresh : s.mapBlockIndex (b.getHash e.env) = none)
    (hprev : (s.mapBlockIndex b.hashPrevBlock).isSome) (nFile nBlockPos : Nat) :
    Adds (b.getHash e.env) b.hashPrevBlock s (exec (addToBlockIndex e b nFile nBlockPos) s).2 := by
  have hkeep : KeepsIndex (insertBlockIndex (newBlockIndex e.env s b nFile nBlockPos) s)
      (exec (addToBlockIndex e b nFile nBlockPos) s).2 := by
    unfold addToBlockIndex
    rw [exec_get_bind]
    simp only [raiseIf, hfresh, Option.isSome_none, Bool.false_eq_true, if_false, pure_bind,
      exec_modify_bind]
    exact keeps_doIf keepsIndex_refl _ (setBestChain_keepsIndex e b _) _
  refine ⟨hfresh, hprev, ?_, hkeep.orphans, hkeep.byPrev⟩
  intro h
  rw [hkeep.same.isSome_eq]
  by_cases hh : h = b.getHash e.env
  · subst hh
    simp [insertBlockIndex, newBlockIndex]
  · simp [insertBlockIndex, newBlockIndex, hh]

structure ConnectFails (e : NodeEnv) (s : NodeState) (b : CBlock) : Prop where
  fresh : s.mapBlockIndex (b.getHash e.env) = none
  fails : ∃ pindexPrev pos, s.mapBlockIndex b.hashPrevBlock = some pindexPrev ∧
    checkAccept e s b pindexPrev = .ok () ∧ e.writeToDisk s b = some pos ∧
    (exec (addToBlockIndex e b pos.1 pos.2)
      { s with disk := s.disk.writeToDisk pos.1 pos.2 b }).1 ≠ .ok ()

inductive AcceptEffect (e : NodeEnv) (b : CBlock) (s : NodeState) : Except Fault Unit × NodeState → Prop
  | refused (fault : Fault) : AcceptEffect e b s (.error fault, s)
  | accepted (s' : NodeState) (hadds : Adds (b.getHash e.env) b.hashPrevBlock s s') :
      AcceptEffect e b s (.ok (), s')
  | unconnected (fault : Fault) (s' : NodeState)
      (hadds : Adds (b.getHash e.env) b.hashPrevBlock s s') (hfails : ConnectFails e s b) :
      AcceptEffect e b s (.error fault, s')

theorem acceptBlock_effect (e : NodeEnv) (b : CBlock) (s : NodeState) :
    AcceptEffect e b s (exec (acceptBlock e b) s) := by
  unfold acceptBlock
  rw [exec_get_bind]
  by_cases hhave : (s.mapBlockIndex (b.getHash e.env)).isSome
  · rw [raiseIf, if_pos hhave]
    exact .refused _
  have hfresh : s.mapBlockIndex (b.getHash e.env) = none := by simpa using hhave
  rw [raiseIf, if_neg hhave, pure_bind]
  cases hprev : s.mapBlockIndex b.hashPrevBlock with
  | none => exact .refused _
  | some pindexPrev =>
    cases hcheck : checkAccept e s b pindexPrev with
    | error fault =>
      simp only [fromOption, pure_bind, hcheck]
      exact .refused _
    | ok _ =>
      cases hpos : e.writeToDisk s b with
      | none =>
        simp only [fromOption, pure_bind, hcheck]
        exact .refused _
      | some pos =>
        simp only [fromOption, fromExcept, pure_bind, hcheck, exec_modify_bind]
        have hadds := @addToBlockIndex_adds e b
          { s with disk := s.disk.writeToDisk pos.1 pos.2 b } hfresh (by simp [hprev]) pos.1 pos.2
        rcases hx : exec (addToBlockIndex e b pos.1 pos.2)
          { s with disk := s.disk.writeToDisk pos.1 pos.2 b } with ⟨r, s'⟩
        rw [hx] at hadds
        have hadds' : Adds (b.getHash e.env) b.hashPrevBlock s s' :=
          ⟨hfresh, by simp [hprev], hadds.keys, hadds.orphans, hadds.byPrev⟩
        cases r with
        | ok _ => exact .accepted s' hadds'
        | error fault =>
          refine .unconnected fault s' hadds' ⟨hfresh, pindexPrev, pos, hprev, hcheck, hpos, ?_⟩
          rw [hx]
          simp

theorem acceptBlock_orphans (e : NodeEnv) (b : CBlock) (s : NodeState) :
    (exec (acceptBlock e b) s).2.mapOrphanBlocks = s.mapOrphanBlocks ∧
      (exec (acceptBlock e b) s).2.mapOrphanBlocksByPrev = s.mapOrphanBlocksByPrev := by
  have heff := acceptBlock_effect e b s
  generalize exec (acceptBlock e b) s = r at heff
  cases heff with
  | refused fault => exact ⟨rfl, rfl⟩
  | accepted s' hadds => exact ⟨hadds.orphans, hadds.byPrev⟩
  | unconnected fault s' hadds hfails => exact ⟨hadds.orphans, hadds.byPrev⟩

def Strands (e : NodeEnv) (s : NodeState) (b : CBlock) : Prop :=
  ConnectFails e s b ∧ ∃ o, (b.getHash e.env, o) ∈ s.mapOrphanBlocksByPrev

def orphanCalls (e : NodeEnv) : List CBlock → NodeState → List (NodeState × CBlock)
  | [], _ => []
  | b :: rest, s =>
    (s, b) :: orphanCalls e rest ((exec (acceptBlock e b) s).2.eraseOrphan (b.getHash e.env))

def dependentCalls (e : NodeEnv) : Nat → List Uint256 → NodeState → List (NodeState × CBlock)
  | 0, _, _ => []
  | _, [], _ => []
  | fuel + 1, hashPrev :: vWorkQueue, s =>
    let r := acceptOrphans e (s.orphansOf hashPrev) s
    orphanCalls e (s.orphansOf hashPrev) s ++
      dependentCalls e fuel (vWorkQueue ++ r.1) (r.2.eraseOrphansByPrev hashPrev)

def acceptCalls (e : NodeEnv) (b : CBlock) (s : NodeState) : List (NodeState × CBlock) :=
  match exec (acceptBlock e b) s with
  | (.ok _, s') =>
    (s, b) :: dependentCalls e (s'.mapOrphanBlocksByPrev.length + 1) [b.getHash e.env] s'
  | (.error _, _) => [(s, b)]

def processCalls (e : NodeEnv) (b : CBlock) (s : NodeState) : List (NodeState × CBlock) :=
  if (s.mapBlockIndex (b.getHash e.env)).isSome ∨ (s.mapOrphanBlocks (b.getHash e.env)).isSome ∨
      b.checkBlock e.env e.nNow intMax ≠ .ok () ∨ (s.mapBlockIndex b.hashPrevBlock).isNone then []
  else acceptCalls e b s

@[simp] theorem NodeState.eraseOrphan_orphans (hash : Uint256) (s : NodeState) :
    (s.eraseOrphan hash).mapOrphanBlocks = Function.update s.mapOrphanBlocks hash none := rfl

structure Drained (e : NodeEnv) (bs : List CBlock) (s : NodeState) (r : List Uint256 × NodeState) :
    Prop where
  orphans : ∀ h, r.2.mapOrphanBlocks h =
    if h ∈ bs.map (CBlock.getHash e.env) then none else s.mapOrphanBlocks h
  byPrev : r.2.mapOrphanBlocksByPrev = s.mapOrphanBlocksByPrev
  queued : r.1.length ≤ bs.length
  keys : ∀ h, (r.2.mapBlockIndex h).isSome → (s.mapBlockIndex h).isSome ∨ h ∈ r.1 ∨
    ∀ o, (h, o) ∉ s.mapOrphanBlocksByPrev

theorem acceptOrphans_drained (e : NodeEnv) (bs : List CBlock) (s : NodeState)
    (hsafe : ∀ c ∈ orphanCalls e bs s, ¬Strands e c.1 c.2) :
    Drained e bs s (acceptOrphans e bs s) := by
  induction bs generalizing s with
  | nil => exact ⟨fun h => by simp [acceptOrphans], rfl, le_rfl, fun h hh => .inl hh⟩
  | cons b rest ih =>
    have heff := acceptBlock_effect e b s
    have hhere := hsafe (s, b) List.mem_cons_self
    have hih := ih ((exec (acceptBlock e b) s).2.eraseOrphan (b.getHash e.env))
      (fun c hc => hsafe c (List.mem_cons_of_mem _ hc))
    rw [acceptOrphans]
    generalize hr : exec (acceptBlock e b) s = r at heff hih ⊢
    have hcons (t : NodeState) (more : List Uint256 × NodeState)
        (hmore : Drained e rest (t.eraseOrphan (b.getHash e.env)) more)
        (ht : t.mapOrphanBlocks = s.mapOrphanBlocks) (h : Uint256) :
        more.2.mapOrphanBlocks h = if h ∈ (b :: rest).map (CBlock.getHash e.env) then none
          else s.mapOrphanBlocks h := by
      rw [hmore.orphans h, List.map_cons, NodeState.eraseOrphan_orphans, ht]
      by_cases hrest : h ∈ rest.map (CBlock.getHash e.env)
      · rw [if_pos hrest, if_pos (List.mem_cons_of_mem _ hrest)]
      · by_cases hb : h = b.getHash e.env
        · subst hb
          simp
        · rw [if_neg hrest, if_neg (by simpa [hb] using hrest), Function.update_of_ne hb]
    cases heff with
    | refused fault =>
      exact ⟨hcons s _ hih rfl, hih.byPrev, hih.queued.trans (Nat.le_succ _), hih.keys⟩
    | accepted s' hadds =>
      have horphans := hcons s' _ hih hadds.orphans
      refine ⟨horphans, hih.byPrev.trans hadds.byPrev,
        Nat.succ_le_succ hih.queued, ?_⟩
      intro h hh
      rcases hih.keys h hh with hk | hk | hk
      · rcases (hadds.keys h).mp hk with rfl | hk
        · exact .inr (.inl List.mem_cons_self)
        · exact .inl hk
      · exact .inr (.inl (List.mem_cons_of_mem _ hk))
      · exact .inr (.inr (hadds.byPrev ▸ hk))
    | unconnected fault s' hadds hfails =>
      refine ⟨hcons s' _ hih hadds.orphans, hih.byPrev.trans hadds.byPrev,
        hih.queued.trans (Nat.le_succ _), ?_⟩
      intro h hh
      rcases hih.keys h hh with hk | hk | hk
      · rcases (hadds.keys h).mp hk with rfl | hk
        · exact .inr (.inr (fun o ho => hhere ⟨hfails, o, ho⟩))
        · exact .inl hk
      · exact .inr (.inl hk)
      · exact .inr (.inr (hadds.byPrev ▸ hk))

structure OrphansOk (env : Env) (vWorkQueue : List Uint256) (s : NodeState) : Prop where
  keyed : ∀ h b, s.mapOrphanBlocks h = some b → b.getHash env = h
  byPrev : ∀ prev b, (prev, b) ∈ s.mapOrphanBlocksByPrev ↔
    s.mapOrphanBlocks (b.getHash env) = some b ∧ prev = b.hashPrevBlock
  once : s.mapOrphanBlocksByPrev.Nodup
  waiting : ∀ h b, s.mapOrphanBlocks h = some b → (s.mapBlockIndex b.hashPrevBlock).isSome →
    b.hashPrevBlock ∈ vWorkQueue

theorem NodeState.mem_orphansOf {s : NodeState} {hashPrev : Uint256} {b : CBlock} :
    b ∈ s.orphansOf hashPrev ↔ (hashPrev, b) ∈ s.mapOrphanBlocksByPrev := by
  simp only [NodeState.orphansOf, List.mem_map, List.mem_filter, decide_eq_true_eq]
  constructor
  · rintro ⟨⟨p, c⟩, ⟨hmem, rfl⟩, rfl⟩
    exact hmem
  · intro hmem
    exact ⟨(hashPrev, b), ⟨hmem, rfl⟩, rfl⟩

theorem NodeState.orphansOf_length (s : NodeState) (hashPrev : Uint256) :
    (s.orphansOf hashPrev).length + (s.eraseOrphansByPrev hashPrev).mapOrphanBlocksByPrev.length =
      s.mapOrphanBlocksByPrev.length := by
  simp only [NodeState.orphansOf, NodeState.eraseOrphansByPrev, List.length_map]
  induction s.mapOrphanBlocksByPrev with
  | nil => rfl
  | cons o rest ih =>
    by_cases ho : o.1 = hashPrev
    · rw [List.filter_cons_of_pos (by simpa using ho), List.filter_cons_of_neg (by simpa using ho),
        List.length_cons, List.length_cons]
      omega
    · rw [List.filter_cons_of_neg (by simpa using ho), List.filter_cons_of_pos (by simpa using ho),
        List.length_cons, List.length_cons]
      omega

theorem OrphansOk.hash_mem {env : Env} {q : List Uint256} {s : NodeState} (h : OrphansOk env q s)
    {b : CBlock} (hb : s.mapOrphanBlocks (b.getHash env) = some b) (hashPrev : Uint256) :
    b.getHash env ∈ (s.orphansOf hashPrev).map (CBlock.getHash env) ↔
      b.hashPrevBlock = hashPrev := by
  constructor
  · intro hmem
    obtain ⟨c, hc, heq⟩ := List.mem_map.mp hmem
    obtain ⟨hc', rfl⟩ := (h.byPrev _ _).mp (NodeState.mem_orphansOf.mp hc)
    rw [heq, hb] at hc'
    cases hc'
    rfl
  · rintro rfl
    exact List.mem_map_of_mem (NodeState.mem_orphansOf.mpr ((h.byPrev _ _).mpr ⟨hb, rfl⟩))

theorem OrphansOk.drain {e : NodeEnv} {hashPrev : Uint256} {q : List Uint256} {s : NodeState}
    (h : OrphansOk e.env (hashPrev :: q) s) {r : List Uint256 × NodeState}
    (hr : Drained e (s.orphansOf hashPrev) s r) :
    OrphansOk e.env (q ++ r.1) (r.2.eraseOrphansByPrev hashPrev) := by
  have hread : ∀ x b, r.2.mapOrphanBlocks x = some b → s.mapOrphanBlocks x = some b ∧
      b.hashPrevBlock ≠ hashPrev := by
    intro x b hx
    rw [hr.orphans x] at hx
    split at hx
    · cases hx
    · next hno =>
      have hk := h.keyed x b hx
      subst hk
      exact ⟨hx, fun heq => hno ((h.hash_mem hx hashPrev).mpr heq)⟩
  refine ⟨?_, ?_, ?_, ?_⟩
  · intro x b hx
    exact h.keyed x b (hread x b hx).1
  · intro prev b
    have hfilter : (prev, b) ∈ (r.2.eraseOrphansByPrev hashPrev).mapOrphanBlocksByPrev ↔
        (prev, b) ∈ s.mapOrphanBlocksByPrev ∧ prev ≠ hashPrev := by
      rw [NodeState.eraseOrphansByPrev, hr.byPrev, List.mem_filter]
      simp
    rw [hfilter, h.byPrev]
    constructor
    · rintro ⟨⟨hb, rfl⟩, hne⟩
      refine ⟨?_, rfl⟩
      show r.2.mapOrphanBlocks (b.getHash e.env) = some b
      rw [hr.orphans, if_neg (fun hmem => hne ((h.hash_mem hb hashPrev).mp hmem))]
      exact hb
    · rintro ⟨hb, rfl⟩
      obtain ⟨hb', hne⟩ := hread _ _ hb
      exact ⟨⟨hb', rfl⟩, hne⟩
  · show (r.2.eraseOrphansByPrev hashPrev).mapOrphanBlocksByPrev.Nodup
    rw [NodeState.eraseOrphansByPrev, hr.byPrev]
    exact h.once.filter _
  · intro x b hx hin
    obtain ⟨hx', hne⟩ := hread x b hx
    rcases hr.keys _ hin with hk | hk | hk
    · have hq := h.waiting x b hx' hk
      rcases List.mem_cons.mp hq with heq | hq
      · exact absurd heq hne
      · exact List.mem_append_left _ hq
    · exact List.mem_append_right _ hk
    · have hkey := h.keyed x b hx'
      subst hkey
      exact absurd ((h.byPrev _ _).mpr ⟨hx', rfl⟩) (hk b)

theorem acceptDependents_orphansOk {e : NodeEnv} {fuel : Nat} {q : List Uint256} {s : NodeState}
    (h : OrphansOk e.env q s) (hfuel : q.length + s.mapOrphanBlocksByPrev.length ≤ fuel)
    (hsafe : ∀ c ∈ dependentCalls e fuel q s, ¬Strands e c.1 c.2) :
    OrphansOk e.env [] (acceptDependents e fuel q s) := by
  induction fuel generalizing q s with
  | zero =>
    have hq : q = [] := List.length_eq_zero_iff.mp (by omega)
    subst hq
    exact h
  | succ fuel ih =>
    cases q with
    | nil => exact h
    | cons hashPrev q =>
      rw [acceptDependents]
      rw [dependentCalls] at hsafe
      have hdrained := acceptOrphans_drained e (s.orphansOf hashPrev) s
        (fun c hc => hsafe c (List.mem_append_left _ hc))
      refine ih (h.drain hdrained) ?_ (fun c hc => hsafe c (List.mem_append_right _ hc))
      have hlen := NodeState.orphansOf_length s hashPrev
      have hqueue := hdrained.queued
      have hsame : ((acceptOrphans e (s.orphansOf hashPrev) s).2.eraseOrphansByPrev
          hashPrev).mapOrphanBlocksByPrev =
          (s.eraseOrphansByPrev hashPrev).mapOrphanBlocksByPrev := by
        rw [NodeState.eraseOrphansByPrev, hdrained.byPrev]
        rfl
      rw [hsame]
      simp only [List.length_cons, List.length_append] at hfuel ⊢
      omega

theorem OrphansOk.congr {env : Env} {q : List Uint256} {s s' : NodeState} (h : OrphansOk env q s)
    (hk : KeepsIndex s s') : OrphansOk env q s' := by
  refine ⟨?_, ?_, ?_, ?_⟩
  · rw [hk.orphans]
    exact h.keyed
  · rw [hk.orphans, hk.byPrev]
    exact h.byPrev
  · rw [hk.byPrev]
    exact h.once
  · intro x b hx hin
    rw [hk.orphans] at hx
    rw [hk.same.isSome_eq] at hin
    exact h.waiting x b hx hin

theorem OrphansOk.adds {env : Env} {hash hashPrevBlock : Uint256} {s s' : NodeState}
    (h : OrphansOk env [] s) (hadds : Adds hash hashPrevBlock s s') : OrphansOk env [hash] s' := by
  refine ⟨?_, ?_, ?_, ?_⟩
  · rw [hadds.orphans]
    exact h.keyed
  · rw [hadds.orphans, hadds.byPrev]
    exact h.byPrev
  · rw [hadds.byPrev]
    exact h.once
  · intro x b hx hin
    rw [hadds.orphans] at hx
    rcases (hadds.keys _).mp hin with hk | hk
    · exact List.mem_singleton.mpr hk
    · cases h.waiting x b hx hk

theorem OrphansOk.none_waiting {env : Env} {hash : Uint256} {s : NodeState}
    (h : OrphansOk env [hash] s) (hno : ∀ o, (hash, o) ∉ s.mapOrphanBlocksByPrev) :
    OrphansOk env [] s := by
  refine ⟨h.keyed, h.byPrev, h.once, ?_⟩
  intro x b hx hin
  have hq := List.mem_singleton.mp (h.waiting x b hx hin)
  have hk := h.keyed x b hx
  subst hk
  exact absurd ((h.byPrev _ _).mpr ⟨hx, hq.symm⟩) (hno b)

theorem OrphansOk.addOrphan {env : Env} {s : NodeState} {b : CBlock} (h : OrphansOk env [] s)
    (hnew : s.mapOrphanBlocks (b.getHash env) = none)
    (hprev : s.mapBlockIndex b.hashPrevBlock = none) : OrphansOk env [] (s.addOrphan env b) := by
  have hread : ∀ x c, (s.addOrphan env b).mapOrphanBlocks x = some c ↔
      (x = b.getHash env ∧ c = b) ∨ s.mapOrphanBlocks x = some c := by
    intro x c
    by_cases hx : x = b.getHash env
    · subst hx
      simp [NodeState.addOrphan, hnew, eq_comm]
    · simp [NodeState.addOrphan, hx]
  refine ⟨?_, ?_, ?_, ?_⟩
  · intro x c hx
    rcases (hread x c).mp hx with ⟨rfl, rfl⟩ | hx
    · rfl
    · exact h.keyed x c hx
  · intro prev c
    rw [hread]
    simp only [NodeState.addOrphan, List.mem_append, List.mem_singleton, Prod.mk.injEq, h.byPrev]
    constructor
    · rintro (⟨hc, hp⟩ | ⟨rfl, rfl⟩)
      · exact ⟨.inr hc, hp⟩
      · exact ⟨.inl ⟨rfl, rfl⟩, rfl⟩
    · rintro ⟨⟨-, rfl⟩ | hc, rfl⟩
      · exact .inr ⟨rfl, rfl⟩
      · exact .inl ⟨hc, rfl⟩
  · refine List.Nodup.append h.once (List.nodup_singleton _) ?_
    intro o ho ho'
    rw [List.mem_singleton] at ho'
    subst ho'
    have hb := ((h.byPrev _ _).mp ho).1
    rw [hnew] at hb
    cases hb
  · intro x c hx hin
    rcases (hread x c).mp hx with ⟨-, rfl⟩ | hx
    · have hin' : (s.mapBlockIndex c.hashPrevBlock).isSome := hin
      rw [hprev] at hin'
      cases hin'
    · exact h.waiting x c hx hin

theorem OrphansOk.processBlock {e : NodeEnv} {b : CBlock} {s : NodeState}
    (h : OrphansOk e.env [] s) (hsafe : ∀ c ∈ processCalls e b s, ¬Strands e c.1 c.2) :
    OrphansOk e.env [] (exec (processBlock e b) s).2 := by
  unfold Namecoin.processBlock
  rw [exec_get_bind]
  refine after_raiseIf h (fun hidx => ?_)
  refine after_raiseIf h (fun horphan => ?_)
  refine after_fromExcept h (fun _ hcheck => ?_)
  split
  · next hprev =>
    exact h.addOrphan (by simpa using horphan) (by simpa using hprev)
  · next hprev =>
    rw [processCalls, if_neg (by simp [hidx, horphan, hcheck, hprev])] at hsafe
    unfold acceptCalls at hsafe
    have heff := acceptBlock_effect e b s
    rw [exec_bind]
    generalize exec (acceptBlock e b) s = r at heff hsafe
    cases heff with
    | refused fault => exact h
    | accepted s' hadds =>
      refine acceptDependents_orphansOk (h.adds hadds) ?_
        (fun c hc => hsafe c (List.mem_cons_of_mem _ hc))
      rw [List.length_singleton, Nat.add_comm]
    | unconnected fault s' hadds hfails =>
      refine (h.adds hadds).none_waiting ?_
      intro o ho
      rw [hadds.byPrev] at ho
      exact hsafe (s, b) List.mem_cons_self ⟨hfails, o, ho⟩

def twoBlock : CBlock := linkedBlock (oneBlock.getHash sampleEnv) 3 [sampleCoinbase 2]

def parkedNode : NodeState := (exec (processBlock sampleNodeEnv twoBlock) zeroNode).2

def greedyCoinbase : CTransaction :=
  ⟨1, [⟨COutPoint.null, leBytes 4 1, uintMax⟩], [⟨51 * coin, [UInt8.ofNat op1]⟩], 0⟩

def greedyBlock : CBlock := linkedBlock (zeroBlock.getHash sampleEnv) 2 [greedyCoinbase]

end Namecoin
