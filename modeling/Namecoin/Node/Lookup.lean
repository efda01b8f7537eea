import Namecoin.Node.Orphan

namespace Namecoin

open Act

def stepBack (m : BlockMap) (nHeight : Int) : Nat → Uint256 → Except Fault Uint256
  | 0, _ => .error .undefined
  | fuel + 1, h =>
    match m h with
    | none => .error .undefined
    | some pblockindex =>
      if nHeight < pblockindex.nHeight then
        match pblockindex.pprev with
        | none => .error .undefined
        | some pprev => stepBack m nHeight fuel pprev
      else .ok h

def stepForward (m : BlockMap) (nHeight : Int) : Nat → Uint256 → Except Fault Uint256
  | 0, _ => .error .undefined
  | fuel + 1, h =>
    match m h with
    | none => .error .undefined
    | some pblockindex =>
      if (pblockindex.nHeight : Int) < nHeight then
        match pblockindex.pnext with
        | none => .error .undefined
        | some pnext => stepForward m nHeight fuel pnext
      else .ok h

def closerStart (m : BlockMap) (nHeight : Int) (start : Uint256) (pblockindexFBBHLast : Option Uint256) :
    Uint256 :=
  match pblockindexFBBHLast with
  | none => start
  | some last =>
    if |nHeight - heightOf m last| < |nHeight - heightOf m start| then last else start

def walkTo (m : BlockMap) (nHeight : Int) (first : Uint256) : Except Fault Uint256 := do
  let back ← stepBack m nHeight (heightOf m first + 1) first
  stepForward m nHeight ((nHeight - heightOf m back).toNat + 1) back

def findBlockByHeight (s : NodeState) (pblockindexFBBHLast : Option Uint256) (nHeight : Int) :
    Except Fault Uint256 :=
  let start := if nHeight < s.nBestHeight.tdiv 2 then s.pindexGenesisBlock else s.pindexBest
  match start with
  | none => .error .undefined
  | some start =>
    walkTo s.mapBlockIndex nHeight
      (closerStart s.mapBlockIndex nHeight start pblockindexFBBHLast)

section Steps

variable {m : BlockMap} {genesis best : Uint256}

theorem stepBack_ok (h : Rooted m genesis) {n : Nat} {fuel : Nat} {x : Uint256}
    (hx : (m x).isSome) (hfuel : heightOf m x < fuel) :
    ∃ a, stepBack m n fuel x = .ok a ∧ Forest.Anc (parentOf m) a x ∧
      heightOf m a = min n (heightOf m x) := by
  induction fuel generalizing x with
  | zero => exact absurd hfuel (by omega)
  | succ fuel ih =>
    obtain ⟨p, hp⟩ := Option.isSome_iff_exists.mp hx
    have hheight : heightOf m x = p.nHeight := by simp [heightOf, hp]
    rw [stepBack, hp]
    by_cases hlt : n < p.nHeight
    · have hne : x ≠ genesis := by
        rintro rfl
        rw [h.heightOf_genesis] at hheight
        omega
      obtain ⟨q, pq, hprev, hq, hstep⟩ := h.parent x p hp hne
      have hqh : heightOf m q = pq.nHeight := by simp [heightOf, hq]
      have hxq : parentOf m x = some q := by simp [parentOf, hp, hprev]
      obtain ⟨a, ha, hanc, hah⟩ := ih (by simp [hq] : (m q).isSome) (by omega)
      refine ⟨a, ?_, Relation.ReflTransGen.head hxq hanc, by omega⟩
      simp only [Nat.cast_lt, if_pos hlt, hprev]
      exact ha
    · refine ⟨x, ?_, .refl _, by omega⟩
      simp only [Nat.cast_lt, if_neg hlt]

theorem stepForward_self {n : Nat} {fuel : Nat} {x : Uint256} (hx : (m x).isSome)
    (hn : n ≤ heightOf m x) : stepForward m n (fuel + 1) x = .ok x := by
  obtain ⟨p, hp⟩ := Option.isSome_iff_exists.mp hx
  have hheight : heightOf m x = p.nHeight := by simp [heightOf, hp]
  rw [stepForward, hp]
  simp only [Nat.cast_lt]
  rw [if_neg (by omega)]

theorem stepForward_ok (h : Rooted m genesis)
    (ht : Forest.Threaded (parentOf m) (nextOf m) best) (hbest : (m best).isSome) {n : Nat}
    (hn : n ≤ heightOf m best) {fuel : Nat} {x : Uint256} (hx : Forest.Anc (parentOf m) x best)
    (hfuel : n - heightOf m x < fuel) (hle : heightOf m x ≤ n) :
    ∃ a, stepForward m n fuel x = .ok a ∧ Forest.Anc (parentOf m) a best ∧ heightOf m a = n := by
  induction fuel generalizing x with
  | zero => exact absurd hfuel (by omega)
  | succ fuel ih =>
    have hsome := h.anc_some hbest hx
    obtain ⟨p, hp⟩ := Option.isSome_iff_exists.mp hsome
    have hheight : heightOf m x = p.nHeight := by simp [heightOf, hp]
    by_cases hlt : heightOf m x < n
    · have hne : x ≠ best := by
        rintro rfl
        omega
      obtain ⟨c, hc, hpc⟩ := hx.child hne
      have hnext := (ht x c).mpr ⟨hc, hpc⟩
      have hpn : p.pnext = some c := by simpa [nextOf, hp] using hnext
      have hcx := h.graded _ _ hpc
      obtain ⟨a, ha, hanc, hah⟩ := ih hc (by omega) (by omega)
      refine ⟨a, ?_, hanc, hah⟩
      rw [stepForward, hp]
      simp only [Nat.cast_lt, if_pos (hheight ▸ hlt), hpn]
      exact ha
    · exact ⟨x, stepForward_self hsome (by omega), hx, by omega⟩

theorem stepForward_off
    (ht : Forest.Threaded (parentOf m) (nextOf m) best) {n : Nat} {fuel : Nat} {x : Uint256}
    (hx : (m x).isSome) (hoff : ¬Forest.Anc (parentOf m) x best) (hlt : heightOf m x < n) :
    stepForward m n (fuel + 1) x = .error .undefined := by
  obtain ⟨p, hp⟩ := Option.isSome_iff_exists.mp hx
  have hheight : heightOf m x = p.nHeight := by simp [heightOf, hp]
  have hpn : p.pnext = none := by
    cases hq : p.pnext with
    | none => rfl
    | some q =>
      have hnext : nextOf m x = some q := by simp [nextOf, hp, hq]
      obtain ⟨hqb, hpq⟩ := (ht x q).mp hnext
      exact absurd (hqb.up hpq) hoff
  rw [stepForward, hp]
  simp only [Nat.cast_lt, if_pos (hheight ▸ hlt), hpn]

theorem walkTo_main (h : Rooted m genesis)
    (ht : Forest.Threaded (parentOf m) (nextOf m) best) (hbest : (m best).isSome) {n : Nat}
    (hn : n ≤ heightOf m best) {first : Uint256} (hfirst : Forest.Anc (parentOf m) first best) :
    ∃ a, walkTo m n first = .ok a ∧ Forest.Anc (parentOf m) a best ∧ heightOf m a = n := by
  obtain ⟨back, hback, hanc, hheight⟩ :=
    @stepBack_ok m genesis h n (heightOf m first + 1) first (h.anc_some hbest hfirst) (by omega)
  have hbackBest : Forest.Anc (parentOf m) back best := Relation.ReflTransGen.trans hfirst hanc
  obtain ⟨a, ha, hmain, hah⟩ := @stepForward_ok m genesis best h ht hbest n hn
    (((n : Int) - heightOf m back).toNat + 1) back hbackBest (by omega) (by omega)
  refine ⟨a, ?_, hmain, hah⟩
  rw [walkTo, hback]
  exact ha

theorem walkTo_off (h : Rooted m genesis)
    (ht : Forest.Threaded (parentOf m) (nextOf m) best) {n : Nat} {first : Uint256}
    (hfirst : (m first).isSome) (hoff : ¬Forest.Anc (parentOf m) first best) :
    (∃ a, walkTo m n first = .ok a ∧ Forest.Anc (parentOf m) a best ∧ heightOf m a = n) ↔
      ∃ a, Forest.Anc (parentOf m) a first ∧ Forest.Anc (parentOf m) a best ∧ heightOf m a = n := by
  obtain ⟨back, hback, hanc, hheight⟩ :=
    @stepBack_ok m genesis h n (heightOf m first + 1) first hfirst (by omega)
  have hwalk : walkTo m n first =
      stepForward m n (((n : Int) - heightOf m back).toNat + 1) back := by
    rw [walkTo, hback]
    rfl
  rw [hwalk]
  by_cases hle : n ≤ heightOf m first
  · rw [stepForward_self (h.anc_some hfirst hanc) (by omega)]
    constructor
    · rintro ⟨a, ha, hmain, hah⟩
      cases ha
      exact ⟨back, hanc, hmain, hah⟩
    · rintro ⟨a, hafirst, hmain, hah⟩
      have heq : a = back := by
        rcases hafirst.linear hanc with hl | hl
        · exact hl.eq_of_height h.graded (by omega)
        · exact (hl.eq_of_height h.graded (by omega)).symm
      subst heq
      exact ⟨a, rfl, hmain, hah⟩
  · have heq : back = first := hanc.eq_of_height h.graded (by omega)
    subst heq
    rw [stepForward_off ht hfirst hoff (by omega)]
    constructor
    · rintro ⟨a, ha, -⟩
      cases ha
    · rintro ⟨a, hafirst, -, hah⟩
      have := hafirst.height_le h.graded
      omega

end Steps

def MainAt (s : NodeState) (nHeight : Int) (h : Uint256) : Prop :=
  ∃ p, s.mapBlockIndex h = some p ∧ isInMainChain s p ∧ (p.nHeight : Int) = nHeight

def LastUsable (s : NodeState) (pblockindexFBBHLast : Option Uint256) (nHeight : Int) : Prop :=
  ∀ last start, pblockindexFBBHLast = some last →
    (if nHeight < s.nBestHeight.tdiv 2 then s.pindexGenesisBlock else s.pindexBest) = some start →
    |nHeight - heightOf s.mapBlockIndex last| < |nHeight - heightOf s.mapBlockIndex start| →
    ∃ h, Forest.Anc (parentOf s.mapBlockIndex) h last ∧
      (h = last ∨ (heightOf s.mapBlockIndex h : Int) = nHeight) ∧
      ∀ p, s.mapBlockIndex h = some p → isInMainChain s p

structure LookupOk (hashGenesisBlock : Uint256) (s : NodeState)
    (pblockindexFBBHLast : Option Uint256) : Prop where
  tree : ∃ best, TreeOk s.tree hashGenesisBlock best
  last : ∀ last, pblockindexFBBHLast = some last → (s.mapBlockIndex last).isSome

theorem TreeOk.mainAt_iff {s : NodeState} {genesis best : Uint256} (h : TreeOk s.tree genesis best)
    {n : Nat} {x : Uint256} :
    MainAt s n x ↔ Forest.Anc (parentOf s.mapBlockIndex) x best ∧ heightOf s.mapBlockIndex x = n := by
  constructor
  · rintro ⟨p, hp, hmain, hheight⟩
    refine ⟨(h.main_iff hp).mp hmain, ?_⟩
    simp only [heightOf, hp, Option.map_some, Option.getD_some]
    exact_mod_cast hheight
  · rintro ⟨hanc, hheight⟩
    have hsome : (s.mapBlockIndex x).isSome := h.rooted.anc_some h.best_some hanc
    obtain ⟨p, hp⟩ := Option.isSome_iff_exists.mp hsome
    refine ⟨p, hp, (h.main_iff hp).mpr hanc, ?_⟩
    simp only [heightOf, hp, Option.map_some, Option.getD_some] at hheight
    exact_mod_cast hheight

theorem TreeOk.mainAt_unique {s : NodeState} {genesis best : Uint256}
    (h : TreeOk s.tree genesis best) {n : Nat} (hn : n ≤ heightOf s.mapBlockIndex best) :
    ∃! x, MainAt s n x := by
  have hroot : Rooted s.mapBlockIndex genesis := h.rooted
  obtain ⟨a, -, hanc, hheight⟩ := walkTo_main hroot h.threaded h.best_some hn (.refl best)
  refine ⟨a, h.mainAt_iff.mpr ⟨hanc, hheight⟩, ?_⟩
  intro y hy
  obtain ⟨hyanc, hyheight⟩ := h.mainAt_iff.mp hy
  rcases hyanc.linear hanc with hl | hl
  · exact hl.eq_of_height hroot.graded (by omega)
  · exact (hl.eq_of_height hroot.graded (by omega)).symm

theorem TreeOk.start_main {s : NodeState} {genesis best : Uint256} (h : TreeOk s.tree genesis best)
    (nHeight : Int) :
    ∃ start, (if nHeight < s.nBestHeight.tdiv 2 then s.pindexGenesisBlock else s.pindexBest) =
      some start ∧ Forest.Anc (parentOf s.mapBlockIndex) start best := by
  have hgen : s.pindexGenesisBlock = some genesis := h.genesisBlock
  have hbest : s.pindexBest = some best := h.isBest
  have hroot : Rooted s.mapBlockIndex genesis := h.rooted
  split
  · exact ⟨genesis, hgen, hroot.genesis_anc h.best_some⟩
  · exact ⟨best, hbest, .refl _⟩

theorem LookupOk.find_iff {hashGenesisBlock : Uint256} {s : NodeState} {last : Option Uint256}
    (h : LookupOk hashGenesisBlock s last) {n : Nat} (hn : (n : Int) ≤ s.nBestHeight) :
    (∃! x, MainAt s n x) ∧
      ((∃ x, findBlockByHeight s last n = .ok x ∧ MainAt s n x) ↔ LastUsable s last n) := by
  obtain ⟨best, hok⟩ := h.tree
  have hroot : Rooted s.mapBlockIndex hashGenesisBlock := hok.rooted
  have hthread : Forest.Threaded (parentOf s.mapBlockIndex) (nextOf s.mapBlockIndex) best :=
    hok.threaded
  have hheight : n ≤ heightOf s.mapBlockIndex best := by
    obtain ⟨p, hp, -, hbest, -⟩ := hok.globals
    have hp' : s.mapBlockIndex best = some p := hp
    have hbest' : s.nBestHeight = p.nHeight := hbest
    simp only [heightOf, hp', Option.map_some, Option.getD_some]
    omega
  obtain ⟨start, hstart, hmain⟩ := hok.start_main n
  refine ⟨hok.mainAt_unique hheight, ?_⟩
  have hfind : findBlockByHeight s last n =
      walkTo s.mapBlockIndex n (closerStart s.mapBlockIndex n start last) := by
    simp only [findBlockByHeight, hstart]
  simp only [hfind, hok.mainAt_iff]
  have hfirst : Forest.Anc (parentOf s.mapBlockIndex) (closerStart s.mapBlockIndex n start last)
      best → ∃ x, walkTo s.mapBlockIndex n (closerStart s.mapBlockIndex n start last) = .ok x ∧
        Forest.Anc (parentOf s.mapBlockIndex) x best ∧ heightOf s.mapBlockIndex x = n :=
    walkTo_main hroot hthread hok.best_some hheight
  cases last with
  | none =>
    refine iff_of_true (hfirst hmain) ?_
    intro last _ hlast
    cases hlast
  | some q =>
    by_cases hcloser : |(n : Int) - heightOf s.mapBlockIndex q| <
        |(n : Int) - heightOf s.mapBlockIndex start|
    · have hq : closerStart s.mapBlockIndex n start (some q) = q := if_pos hcloser
      have hsome := h.last q rfl
      have husable : LastUsable s (some q) n ↔
          ∃ x, Forest.Anc (parentOf s.mapBlockIndex) x q ∧
            (x = q ∨ (heightOf s.mapBlockIndex x : Int) = n) ∧
            ∀ p, s.mapBlockIndex x = some p → isInMainChain s p := by
        constructor
        · intro hl
          exact hl q start rfl hstart hcloser
        · intro hx last start' hlast hstart' _
          cases hlast
          exact hx
      rw [hq] at hfirst ⊢
      rw [husable]
      by_cases hqmain : Forest.Anc (parentOf s.mapBlockIndex) q best
      · refine iff_of_true (hfirst hqmain) ⟨q, .refl _, .inl rfl, ?_⟩
        intro p hp
        exact (hok.main_iff hp).mpr hqmain
      · rw [walkTo_off hroot hthread hsome hqmain]
        constructor
        · rintro ⟨a, haq, hab, hah⟩
          refine ⟨a, haq, .inr (by exact_mod_cast hah), ?_⟩
          intro p hp
          exact (hok.main_iff hp).mpr hab
        · rintro ⟨a, haq, hcase, hab⟩
          obtain ⟨p, hp⟩ := Option.isSome_iff_exists.mp (hroot.anc_some hsome haq)
          have hab' := (hok.main_iff hp).mp (hab p hp)
          rcases hcase with rfl | hah
          · exact absurd hab' hqmain
          · exact ⟨a, haq, hab', by exact_mod_cast hah⟩
    · have hs : closerStart s.mapBlockIndex n start (some q) = start := if_neg hcloser
      rw [hs] at hfirst ⊢
      refine iff_of_true (hfirst hmain) ?_
      intro last start' hlast hstart' hc
      cases hlast
      rw [hstart] at hstart'
      cases hstart'
      exact absurd hc hcloser

def KeysGrow (s s' : NodeState) : Prop :=
  ∀ h, (s.mapBlockIndex h).isSome → (s'.mapBlockIndex h).isSome

theorem keysGrow_carries (e : NodeEnv) : Carries e KeysGrow where
  refl _ _ h := h
  trans h h' x hx := h' x (h x hx)
  park _ _ _ h := h
  erase _ _ _ h := h
  drop _ _ _ h := h
  accept b s := by
    have heff := acceptBlock_effect e b s
    generalize exec (acceptBlock e b) s = r at heff
    intro x hx
    cases heff with
    | refused fault => exact hx
    | accepted s' hadds => exact (hadds.keys x).mpr (.inr hx)
    | unconnected fault s' hadds hfails => exact (hadds.keys x).mpr (.inr hx)

theorem NodeStep.keysGrow {env : Env} {hashGenesisBlock : Uint256} {s s' : NodeState}
    (h : NodeStep env hashGenesisBlock s s') : KeysGrow s s' := by
  cases h with
  | block e b _ _ => exact (keysGrow_carries e).processBlock b s
  | tx e tx fCheckInputs fLimitFree fRateLimited _ _ =>
    have hpool := acceptToMemoryPool_poolOnly e tx fCheckInputs fLimitFree fRateLimited s
    intro x hx
    rw [hpool.keepsIndex.same.isSome_eq]
    exact hx

inductive LookupStep (env : Env) (hashGenesisBlock : Uint256) :
    NodeState × Option Uint256 → NodeState × Option Uint256 → Prop
  | node {s s' : NodeState} {last : Option Uint256} (h : NodeStep env hashGenesisBlock s s') :
      LookupStep env hashGenesisBlock (s, last) (s', last)
  | find {s : NodeState} {last : Option Uint256} (nHeight : Int) {h : Uint256}
      (hfind : findBlockByHeight s last nHeight = .ok h) :
      LookupStep env hashGenesisBlock (s, last) (s, some h)

theorem stepForward_some {m : BlockMap} {nHeight : Int} {fuel : Nat} {x a : Uint256}
    (h : stepForward m nHeight fuel x = .ok a) : (m a).isSome := by
  induction fuel generalizing x with
  | zero => cases h
  | succ fuel ih =>
    rw [stepForward] at h
    split at h
    · cases h
    · next p hp =>
      split at h
      · split at h
        · cases h
        · exact ih h
      · cases h
        simp [hp]

theorem findBlockByHeight_some {s : NodeState} {last : Option Uint256} {nHeight : Int} {x : Uint256}
    (h : findBlockByHeight s last nHeight = .ok x) : (s.mapBlockIndex x).isSome := by
  unfold findBlockByHeight at h
  dsimp only at h
  split at h
  · cases h
  · obtain ⟨back, -, hfwd⟩ := Except.bind_eq_ok.mp h
    exact stepForward_some hfwd

theorem lookupOk_of_run {env : Env} {hashGenesisBlock : Uint256} {s0 : NodeState}
    {t : NodeState × Option Uint256} (hstart : Started env hashGenesisBlock s0)
    (run : Relation.ReflTransGen (LookupStep env hashGenesisBlock) (s0, none) t) :
    LookupOk hashGenesisBlock t.1 t.2 := by
  induction run with
  | refl => exact ⟨⟨_, hstart.treeOk⟩, fun last hlast => by cases hlast⟩
  | tail _ hstep ih =>
    cases hstep with
    | node hnode =>
      obtain ⟨best, hok⟩ := ih.tree
      exact ⟨(hnode.advances hashGenesisBlock best hok).1,
        fun last hlast => hnode.keysGrow last (ih.last last hlast)⟩
    | find nHeight hfind =>
      refine ⟨ih.tree, fun last hlast => ?_⟩
      cases hlast
      exact findBlockByHeight_some hfind

theorem height_found_iff {env : Env} {hashGenesisBlock : Uint256} {s0 s : NodeState}
    {last : Option Uint256} (hstart : Started env hashGenesisBlock s0)
    (run : Relation.ReflTransGen (LookupStep env hashGenesisBlock) (s0, none) (s, last))
    {nHeight : Int} (h0 : 0 ≤ nHeight) (h1 : nHeight ≤ s.nBestHeight) :
    (∃! x, MainAt s nHeight x) ∧
      ((∃ x, findBlockByHeight s last nHeight = .ok x ∧ MainAt s nHeight x) ↔
        LastUsable s last nHeight) := by
  obtain ⟨n, rfl⟩ := Int.eq_ofNat_of_zero_le h0
  exact (lookupOk_of_run hstart run).find_iff h1

def oneNode : NodeState := (exec (processBlock sampleNodeEnv oneBlock) zeroNode).2

theorem oneNode_run (last : Option Uint256) :
    LookupStep sampleEnv sampleNodeEnv.hashGenesisBlock (zeroNode, last) (oneNode, last) :=
  .node (.block sampleNodeEnv oneBlock rfl rfl)

def rivalOne : CBlock := linkedBlock (zeroBlock.getHash sampleEnv) 4 [sampleCoinbase 3]

def rivalTwo : CBlock := linkedBlock (rivalOne.getHash sampleEnv) 5 [sampleCoinbase 4]

def rivalNode : NodeState :=
  (exec (processBlock sampleNodeEnv rivalTwo)
    (exec (processBlock sampleNodeEnv rivalOne) oneNode).2).2

theorem rivalNode_run : Relation.ReflTransGen
    (LookupStep sampleEnv sampleNodeEnv.hashGenesisBlock) (zeroNode, none)
    (rivalNode, some (oneBlock.getHash sampleEnv)) := by
  have hfind : LookupStep sampleEnv sampleNodeEnv.hashGenesisBlock (oneNode, none)
      (oneNode, some (oneBlock.getHash sampleEnv)) := .find 1 (by decide +kernel)
  exact (((Relation.ReflTransGen.single (oneNode_run none)).tail hfind).tail
    (.node (.block sampleNodeEnv rivalOne rfl rfl))).tail
    (.node (.block sampleNodeEnv rivalTwo rfl rfl))

-- The lookup of height 2 starts at the best block, since the stale pointer is farther from it;
-- the pointer it leaves leads the two lookups of height 1 that follow back onto the main chain.
theorem rivalNode_found :
    findBlockByHeight rivalNode (some (rivalOne.getHash sampleEnv)) 1 =
        .ok (rivalOne.getHash sampleEnv) ∧
      ∃ x, findBlockByHeight rivalNode (some (rivalOne.getHash sampleEnv)) 1 = .ok x ∧
        MainAt rivalNode 1 x := by
  have hbest : LookupStep sampleEnv sampleNodeEnv.hashGenesisBlock
      (rivalNode, some (oneBlock.getHash sampleEnv))
      (rivalNode, some (rivalTwo.getHash sampleEnv)) := .find 2 (by decide +kernel)
  have hone : LookupStep sampleEnv sampleNodeEnv.hashGenesisBlock
      (rivalNode, some (rivalTwo.getHash sampleEnv))
      (rivalNode, some (rivalOne.getHash sampleEnv)) := .find 1 (by decide +kernel)
  refine ⟨by decide +kernel, (height_found_iff zeroNode_started
    ((rivalNode_run.tail hbest).tail hone) (by decide) (by decide +kernel)).2.mpr ?_⟩
  have hmain : (rivalNode.mapBlockIndex (rivalOne.getHash sampleEnv)).map (fun p =>
      decide (p.pnext ≠ none ∨ rivalNode.pindexBest = some p.hashBlock)) = some true := by
    decide +kernel
  intro last start hlast _ _
  obtain rfl := Option.some.inj hlast
  refine ⟨_, .refl _, .inl rfl, fun p hp => ?_⟩
  rw [hp, Option.map_some, Option.some.injEq, decide_eq_true_eq] at hmain
  exact hmain

theorem stale_block_found :
    Relation.ReflTransGen (LookupStep sampleEnv sampleNodeEnv.hashGenesisBlock) (zeroNode, none)
        (rivalNode, some (oneBlock.getHash sampleEnv)) ∧
      1 ≤ rivalNode.nBestHeight ∧
      ¬∃ x, findBlockByHeight rivalNode (some (oneBlock.getHash sampleEnv)) 1 = .ok x ∧
        MainAt rivalNode 1 x := by
  refine ⟨rivalNode_run, by decide +kernel, ?_⟩
  rintro ⟨x, hx, p, hp, hmain, -⟩
  have hstale : findBlockByHeight rivalNode (some (oneBlock.getHash sampleEnv)) 1 =
      .ok (oneBlock.getHash sampleEnv) := by decide +kernel
  have hxe : oneBlock.getHash sampleEnv = x := Except.ok.inj (hstale.symm.trans hx)
  subst hxe
  have hoff : (rivalNode.mapBlockIndex (oneBlock.getHash sampleEnv)).map (fun p =>
      decide (p.pnext ≠ none ∨ rivalNode.pindexBest = some p.hashBlock)) = some false := by
    decide +kernel
  rw [hp, Option.map_some, Option.some.injEq, decide_eq_false_iff_not] at hoff
  exact hoff hmain

end Namecoin
