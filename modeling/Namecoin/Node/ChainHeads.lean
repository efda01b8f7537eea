import Namecoin.Node.Reload

namespace Namecoin

open Act

structure MapOrder (m : BlockMap) (entries : List (Uint256 × CBlockIndex)) : Prop where
  sorted : (entries.map Prod.fst).Pairwise (· < ·)
  mem : ∀ h p, (h, p) ∈ entries ↔ m h = some p

structure ChainHead where
  height : Nat
  hash : Uint256
  isBest : Bool
  branchLen : Nat
  branch : Option (List Uint256)
deriving DecidableEq

abbrev HeadMarks := Uint256 → Option Bool

def markHead (blockIsHead : HeadMarks) (h : Uint256) : HeadMarks :=
  Function.update blockIsHead h (some true)

def initialMarks (entries : List (Uint256 × CBlockIndex)) : HeadMarks :=
  (entries.map Prod.fst).foldl markHead fun _ => none

def markParent (m : BlockMap) (blockIsHead : HeadMarks) (pindex : CBlockIndex) :
    Except Fault HeadMarks :=
  match pindex.pprev with
  | none => .ok blockIsHead
  | some pprev =>
    match m pprev with
    | none => .error .undefined
    | some prev => do
      Except.raiseIf (blockIsHead prev.hashBlock).isNone .assertion
      pure (Function.update blockIsHead prev.hashBlock (some false))

def climbBranch (m : BlockMap) : Nat → CBlockIndex → Except Fault (List Uint256)
  | 0, _ => .error .undefined
  | fuel + 1, pcur =>
    match pcur.pprev with
    | none => .error .assertion
    | some pprev =>
      match m pprev with
      | none => .error .undefined
      | some pcur =>
        if pcur.pnext ≠ none then .ok [pcur.hashBlock]
        else (climbBranch m fuel pcur).map (pcur.hashBlock :: ·)

def headObject (s : NodeState) (hash : Uint256) : Except Fault ChainHead :=
  match s.mapBlockIndex hash with
  | none => .error .assertion
  | some block => do
    Except.raiseIf (hash ≠ block.hashBlock) .assertion
    if s.pindexBest = some hash then pure ⟨block.nHeight, block.hashBlock, true, 0, none⟩
    else do
      let branch ← climbBranch s.mapBlockIndex (block.nHeight + 1) block
      pure ⟨block.nHeight, block.hashBlock, false, branch.length, some branch⟩

def sortHeads (m : BlockMap) (heads : List Uint256) : List Uint256 :=
  heads.insertionSort fun a b => heightOf m b ≤ heightOf m a

def getchains (s : NodeState) (entries : List (Uint256 × CBlockIndex)) :
    Except Fault (List ChainHead) := do
  let blockIsHead ← entries.foldlM (fun blockIsHead i => markParent s.mapBlockIndex blockIsHead i.2)
    (initialMarks entries)
  let heads := (entries.map Prod.fst).filter fun h => decide (blockIsHead h = some true)
  (sortHeads s.mapBlockIndex heads).mapM (headObject s)

def IsHead (m : BlockMap) (h : Uint256) : Prop :=
  (m h).isSome ∧ ∀ x, parentOf m x ≠ some h

inductive BranchOf (s : NodeState) : Uint256 → List Uint256 → Prop
  | reach {h a : Uint256} {p : CBlockIndex} (prev : parentOf s.mapBlockIndex h = some a)
      (found : s.mapBlockIndex a = some p) (main : isInMainChain s p) : BranchOf s h [a]
  | climb {h a : Uint256} {p : CBlockIndex} {rest : List Uint256}
      (prev : parentOf s.mapBlockIndex h = some a) (found : s.mapBlockIndex a = some p)
      (off : ¬isInMainChain s p) (tail : BranchOf s a rest) : BranchOf s h (a :: rest)

structure ChainsReported (s : NodeState) (res : List ChainHead) : Prop where
  once : (res.map ChainHead.hash).Nodup
  heads : ∀ h, h ∈ res.map ChainHead.hash ↔ IsHead s.mapBlockIndex h
  branch : ∀ c ∈ res, s.pindexBest ≠ some c.hash →
    ∃ branch, c.branch = some branch ∧ c.branchLen = branch.length ∧ BranchOf s c.hash branch

def GetchainsRight (s : NodeState) (entries : List (Uint256 × CBlockIndex)) : Prop :=
  ∃ res, getchains s entries = .ok res ∧ ChainsReported s res

def BestIsHead (s : NodeState) : Prop :=
  ∀ best, s.pindexBest = some best → ∀ x, parentOf s.mapBlockIndex x ≠ some best

section Marks

variable {m : BlockMap} {genesis : Uint256}

theorem foldl_markHead (keys : List Uint256) (blockIsHead : HeadMarks) (h : Uint256) :
    keys.foldl markHead blockIsHead h = if h ∈ keys then some true else blockIsHead h := by
  induction keys generalizing blockIsHead with
  | nil => simp
  | cons k keys ih =>
    rw [List.foldl_cons, ih]
    by_cases hkeys : h ∈ keys
    · rw [if_pos hkeys, if_pos (List.mem_cons_of_mem _ hkeys)]
    · rw [if_neg hkeys, markHead]
      by_cases hk : h = k
      · subst hk
        rw [Function.update_self, if_pos List.mem_cons_self]
      · rw [Function.update_of_ne hk, if_neg (by simp [hk, hkeys])]

theorem markParent_ok (hroot : Rooted m genesis) {blockIsHead : HeadMarks} {h : Uint256}
    {p : CBlockIndex} (hp : m h = some p) (hkeys : ∀ x, (m x).isSome → (blockIsHead x).isSome) :
    markParent m blockIsHead p = .ok fun x =>
      if parentOf m h = some x then some false else blockIsHead x := by
  have hparent : parentOf m h = p.pprev := by simp [parentOf, hp]
  rw [markParent, hparent]
  cases hprev : p.pprev with
  | none => simp
  | some q =>
    obtain ⟨-, pq, -, -, hq, -⟩ := hroot.parent_some (hparent.trans hprev)
    have hmark : (blockIsHead q).isNone = false := by
      rw [Option.isNone_eq_false_iff]
      exact hkeys q (by simp [hq])
    dsimp only
    rw [hq]
    dsimp only
    rw [hroot.keyed q pq hq, Except.raiseIf, if_neg (by simp [hmark])]
    refine congrArg Except.ok ?_
    funext x
    by_cases hx : q = x
    · subst hx
      simp
    · rw [Function.update_of_ne (Ne.symm hx), if_neg (by simpa using hx)]

theorem markParents_ok (hroot : Rooted m genesis) {l : List (Uint256 × CBlockIndex)}
    {blockIsHead : HeadMarks} (hl : ∀ i ∈ l, m i.1 = some i.2)
    (hkeys : ∀ x, (m x).isSome → (blockIsHead x).isSome) :
    ∃ marks, l.foldlM (fun blockIsHead i => markParent m blockIsHead i.2) blockIsHead = .ok marks ∧
      ∀ x, marks x = if ∃ i ∈ l, parentOf m i.1 = some x then some false else blockIsHead x := by
  induction l generalizing blockIsHead with
  | nil => exact ⟨blockIsHead, rfl, fun x => by simp⟩
  | cons i l ih =>
    obtain ⟨hi, hrest⟩ := List.forall_mem_cons.mp hl
    rw [List.foldlM_cons, markParent_ok hroot hi hkeys]
    obtain ⟨marks, hfold, hmarks⟩ := @ih (fun x =>
      if parentOf m i.1 = some x then some false else blockIsHead x) hrest (by
        intro x hx
        split
        · rfl
        · exact hkeys x hx)
    refine ⟨marks, hfold, fun x => ?_⟩
    rw [hmarks x]
    by_cases hx : parentOf m i.1 = some x
    · simp [hx]
    · rw [if_neg hx]
      refine if_congr ?_ rfl rfl
      rw [List.exists_mem_cons_iff]
      exact (or_iff_right hx).symm

end Marks

section Climb

variable {s : NodeState} {genesis best : Uint256}

theorem TreeOk.pnext_none (h : TreeOk s.tree genesis best) {x : Uint256} {p : CBlockIndex}
    (hp : s.mapBlockIndex x = some p) :
    p.pnext = none ↔ ¬Forest.Anc (parentOf s.mapBlockIndex) x best ∨ x = best := by
  have hkey : p.hashBlock = x := h.rooted.keyed x p hp
  have hbest : s.pindexBest = some best := h.isBest
  have hmain := h.main_iff hp
  rw [isInMainChain, hbest, hkey, Option.some.injEq] at hmain
  constructor
  · intro hnone
    by_cases hanc : Forest.Anc (parentOf s.mapBlockIndex) x best
    · rcases hmain.mpr hanc with hnext | heq
      · exact absurd hnone hnext
      · exact .inr heq.symm
    · exact .inl hanc
  · rintro (hoff | rfl)
    · by_contra hnext
      exact hoff (hmain.mp (.inl hnext))
    · have htop : nextOf s.mapBlockIndex x = none :=
        Forest.Threaded.top h.rooted.graded h.threaded
      simpa [nextOf, hp] using htop

theorem TreeOk.parent_of_off (h : TreeOk s.tree genesis best) {x : Uint256} {p : CBlockIndex}
    (hp : s.mapBlockIndex x = some p) (hx : x ≠ genesis) :
    ∃ a pa, p.pprev = some a ∧ parentOf s.mapBlockIndex x = some a ∧
      s.mapBlockIndex a = some pa ∧ pa.hashBlock = a ∧ p.nHeight = pa.nHeight + 1 := by
  obtain ⟨a, pa, hprev, ha, hheight⟩ := h.rooted.parent x p hp hx
  have ha' : s.mapBlockIndex a = some pa := ha
  exact ⟨a, pa, hprev, by simp [parentOf, hp, hprev], ha', h.rooted.keyed a pa ha, hheight⟩

theorem TreeOk.climb_ok (h : TreeOk s.tree genesis best) {fuel : Nat} {x : Uint256}
    {p : CBlockIndex} (hp : s.mapBlockIndex x = some p) (hfuel : p.nHeight < fuel)
    (hoff : ¬Forest.Anc (parentOf s.mapBlockIndex) x best)
    (hbelow : ¬Forest.Anc (parentOf s.mapBlockIndex) best x) :
    ∃ branch, climbBranch s.mapBlockIndex fuel p = .ok branch ∧ BranchOf s x branch := by
  induction fuel generalizing x p with
  | zero => exact absurd hfuel (Nat.not_lt_zero _)
  | succ fuel ih =>
    have hgen : x ≠ genesis := by
      rintro rfl
      exact hoff (h.rooted.genesis_anc h.best_some)
    obtain ⟨a, pa, hprev, hparent, ha, hkey, hheight⟩ := h.parent_of_off hp hgen
    have habest : a ≠ best := by
      rintro rfl
      exact hbelow (Relation.ReflTransGen.single hparent)
    have hnext := h.pnext_none ha
    rw [climbBranch, hprev]
    dsimp only
    rw [ha]
    dsimp only
    by_cases hmain : Forest.Anc (parentOf s.mapBlockIndex) a best
    · have hsome : pa.pnext ≠ none := by
        rw [ne_eq, hnext]
        rintro (hn | hn)
        · exact hn hmain
        · exact habest hn
      rw [if_pos hsome, hkey]
      exact ⟨[a], rfl, .reach hparent ha ((h.main_iff ha).mpr hmain)⟩
    · rw [if_neg (not_not.mpr (hnext.mpr (.inl hmain))), hkey]
      have habelow : ¬Forest.Anc (parentOf s.mapBlockIndex) best a := fun hba =>
        hbelow (Relation.ReflTransGen.head hparent hba)
      obtain ⟨branch, hclimb, hbranch⟩ := ih ha (by omega) hmain habelow
      refine ⟨a :: branch, ?_, .climb hparent ha (fun hm => hmain ((h.main_iff ha).mp hm)) hbranch⟩
      rw [hclimb]
      rfl

theorem map_cons_ok {x : Except Fault (List Uint256)} {a : Uint256} {branch : List Uint256} :
    x.map (a :: ·) = .ok branch ↔ ∃ rest, x = .ok rest ∧ branch = a :: rest := by
  cases x with
  | error fault => simp [Except.map]
  | ok rest => simp [Except.map, eq_comm]

theorem climbBranch_ne_nil {m : BlockMap} {fuel : Nat} {p : CBlockIndex} :
    climbBranch m fuel p ≠ .ok [] := by
  intro h
  cases fuel with
  | zero => cases h
  | succ fuel =>
    rw [climbBranch] at h
    split at h
    · cases h
    · split at h
      · cases h
      · split at h
        · cases h
        · obtain ⟨rest, -, hrest⟩ := map_cons_ok.mp h
          cases hrest

theorem TreeOk.climb_past (h : TreeOk s.tree genesis best) {fuel : Nat} {x : Uint256}
    {p : CBlockIndex} (hp : s.mapBlockIndex x = some p) (hne : x ≠ best)
    (hbelow : Forest.Anc (parentOf s.mapBlockIndex) best x) {branch : List Uint256}
    (hclimb : climbBranch s.mapBlockIndex fuel p = .ok branch) : ¬BranchOf s x branch := by
  induction fuel generalizing x p branch with
  | zero => cases hclimb
  | succ fuel ih =>
    obtain heq | ⟨a, hparent, hbest⟩ := hbelow.cases_self
    · exact absurd heq.symm hne
    have hgen : x ≠ genesis := by
      rintro rfl
      have hroot : parentOf s.mapBlockIndex x = none := h.rooted.parentOf_genesis
      rw [hroot] at hparent
      cases hparent
    obtain ⟨a', pa, hprev, hparent', ha, hkey, -⟩ := h.parent_of_off hp hgen
    obtain rfl : a = a' := Option.some.inj (hparent.symm.trans hparent')
    -- Nothing from the best block up to here has a next pointer, so the walk goes on.
    have hnext : pa.pnext = none := by
      refine (h.pnext_none ha).mpr ?_
      by_cases hmain : Forest.Anc (parentOf s.mapBlockIndex) a best
      · have hle := hmain.height_le h.rooted.graded
        have hge := hbest.height_le h.rooted.graded
        exact .inr (hmain.eq_of_height h.rooted.graded (Nat.le_antisymm hle hge))
      · exact .inl hmain
    rw [climbBranch, hprev] at hclimb
    dsimp only at hclimb
    rw [ha] at hclimb
    dsimp only at hclimb
    rw [if_neg (not_not.mpr hnext), hkey] at hclimb
    obtain ⟨rest, hrest, rfl⟩ := map_cons_ok.mp hclimb
    intro hbranch
    cases hbranch with
    | reach prev found main => exact climbBranch_ne_nil hrest
    | climb prev found off tail =>
      by_cases hab : a = best
      · exact off ((h.main_iff found).mpr (hab ▸ .refl _))
      · exact ih ha hab hbest hrest tail

theorem exists_head_above {m : BlockMap} (hroot : Rooted m genesis)
    {entries : List (Uint256 × CBlockIndex)} (horder : MapOrder m entries) {x : Uint256}
    (hx : (m x).isSome) : ∃ h, IsHead m h ∧ Forest.Anc (parentOf m) x h := by
  let above : Set Uint256 := { h | (m h).isSome ∧ Forest.Anc (parentOf m) x h }
  have hfinite : above.Finite := by
    refine Set.Finite.subset (List.finite_toSet (entries.map Prod.fst)) ?_
    rintro h ⟨hsome, -⟩
    obtain ⟨p, hp⟩ := Option.isSome_iff_exists.mp hsome
    exact List.mem_map.mpr ⟨(h, p), (horder.mem h p).mpr hp, rfl⟩
  obtain ⟨h, ⟨hsome, hanc⟩, hmax⟩ :=
    Set.exists_max_image above (heightOf m) hfinite ⟨x, hx, .refl _⟩
  refine ⟨h, ⟨hsome, fun c hc => ?_⟩, hanc⟩
  obtain ⟨pc, -, hpc, -⟩ := hroot.parent_some hc
  have hle := hmax c ⟨by simp [hpc], Relation.ReflTransGen.head hc hanc⟩
  have hgrade := hroot.graded c h hc
  omega

end Climb

section Getchains

variable {s : NodeState} {genesis best : Uint256} {entries : List (Uint256 × CBlockIndex)}

theorem MapOrder.mem_keys {m : BlockMap} (horder : MapOrder m entries) (h : Uint256) :
    h ∈ entries.map Prod.fst ↔ (m h).isSome := by
  rw [List.mem_map]
  constructor
  · rintro ⟨⟨k, p⟩, hmem, rfl⟩
    rw [(horder.mem k p).mp hmem]
    rfl
  · intro hsome
    obtain ⟨p, hp⟩ := Option.isSome_iff_exists.mp hsome
    exact ⟨(h, p), (horder.mem h p).mpr hp, rfl⟩

def chainHeads (entries : List (Uint256 × CBlockIndex)) : List Uint256 :=
  (entries.map Prod.fst).filter fun h => decide (∀ i ∈ entries, i.2.pprev ≠ some h)

theorem MapOrder.mem_chainHeads {m : BlockMap} (horder : MapOrder m entries) (h : Uint256) :
    h ∈ chainHeads entries ↔ IsHead m h := by
  rw [chainHeads, List.mem_filter, horder.mem_keys, decide_eq_true_eq]
  refine and_congr_right fun _ => ?_
  constructor
  · intro hnone x hx
    obtain ⟨p, hp, hprev⟩ := Option.bind_eq_some_iff.mp hx
    exact hnone (x, p) ((horder.mem x p).mpr hp) hprev
  · rintro hnone ⟨x, p⟩ hmem hprev
    refine hnone x ?_
    rw [parentOf, (horder.mem x p).mp hmem]
    exact hprev

theorem getchains_eq (hroot : Rooted s.mapBlockIndex genesis)
    (horder : MapOrder s.mapBlockIndex entries) :
    getchains s entries =
      (sortHeads s.mapBlockIndex (chainHeads entries)).mapM (headObject s) := by
  have hkeys : ∀ x, (s.mapBlockIndex x).isSome → (initialMarks entries x).isSome := by
    intro x hx
    rw [initialMarks, foldl_markHead, if_pos ((horder.mem_keys x).mpr hx)]
    rfl
  have hentry : ∀ i ∈ entries, s.mapBlockIndex i.1 = some i.2 := fun i hi =>
    (horder.mem i.1 i.2).mp hi
  obtain ⟨marks, hfold, hmarks⟩ := markParents_ok hroot hentry hkeys
  have hheads : (entries.map Prod.fst).filter (fun h => decide (marks h = some true)) =
      chainHeads entries := by
    refine List.filter_congr fun x hx => decide_eq_decide.mpr ?_
    have hpar : (∃ i ∈ entries, parentOf s.mapBlockIndex i.1 = some x) ↔
        ∃ i ∈ entries, i.2.pprev = some x := by
      refine exists_congr fun i => and_congr_right fun hi => ?_
      rw [parentOf, hentry i hi]
      rfl
    rw [hmarks, initialMarks, foldl_markHead, if_pos hx, if_congr hpar rfl rfl]
    constructor
    · intro hmark i hi hprev
      rw [if_pos ⟨i, hi, hprev⟩] at hmark
      cases hmark
    · intro hnone
      rw [if_neg]
      rintro ⟨i, hi, hprev⟩
      exact hnone i hi hprev
  rw [getchains, hfold]
  show (sortHeads _ ((entries.map Prod.fst).filter fun h => decide (marks h = some true))).mapM _ = _
  rw [hheads]

theorem headObject_inv {h : Uint256} {c : ChainHead} (hc : headObject s h = .ok c) :
    c.hash = h ∧ ∀ p, s.mapBlockIndex h = some p → s.pindexBest ≠ some h →
      ∃ branch, climbBranch s.mapBlockIndex (p.nHeight + 1) p = .ok branch ∧
        c.branch = some branch ∧ c.branchLen = branch.length := by
  rw [headObject] at hc
  cases hp : s.mapBlockIndex h with
  | none =>
    rw [hp] at hc
    cases hc
  | some block =>
    rw [hp] at hc
    obtain ⟨_, hkey, hrest⟩ := Except.bind_eq_ok.mp hc
    have hkey : h = block.hashBlock := not_not.mp (Except.raiseIf_eq_ok.mp hkey)
    split at hrest
    · next hbest =>
      rw [← Except.pure_eq_ok.mp hrest]
      exact ⟨hkey.symm, fun p _ hne => absurd hbest hne⟩
    · next hbest =>
      obtain ⟨branch, hclimb, hrest⟩ := Except.bind_eq_ok.mp hrest
      rw [← Except.pure_eq_ok.mp hrest]
      refine ⟨hkey.symm, fun p hp' _ => ⟨branch, ?_, rfl, rfl⟩⟩
      cases hp'
      exact hclimb

theorem TreeOk.headObject_ok (h : TreeOk s.tree genesis best) (hunbuilt : BestIsHead s)
    {x : Uint256} (hx : IsHead s.mapBlockIndex x) : ∃ c, headObject s x = .ok c ∧
      (s.pindexBest ≠ some x → ∀ branch, c.branch = some branch → BranchOf s x branch) := by
  obtain ⟨p, hp⟩ := Option.isSome_iff_exists.mp hx.1
  have hbest : s.pindexBest = some best := h.isBest
  have hkey : p.hashBlock = x := h.rooted.keyed x p hp
  rw [headObject, hp]
  dsimp only
  rw [Except.raiseIf, if_neg (not_not.mpr hkey.symm), hkey]
  by_cases heq : s.pindexBest = some x
  · rw [if_pos heq]
    exact ⟨_, rfl, fun hne => absurd heq hne⟩
  · have hne : x ≠ best := by
      rintro rfl
      exact heq hbest
    have hoff : ¬Forest.Anc (parentOf s.mapBlockIndex) x best := by
      intro hanc
      obtain ⟨c, -, hc⟩ := hanc.child hne
      exact hx.2 c hc
    have hbelow : ¬Forest.Anc (parentOf s.mapBlockIndex) best x := by
      intro hanc
      obtain ⟨c, -, hc⟩ := hanc.child hne.symm
      exact hunbuilt best hbest c hc
    obtain ⟨branch, hclimb, hbranch⟩ := h.climb_ok hp (Nat.lt_succ_self _) hoff hbelow
    rw [if_neg heq, hclimb]
    refine ⟨_, rfl, fun _ branch' heq' => ?_⟩
    cases heq'
    exact hbranch

theorem map_hash_eq {heads : List Uint256} {res : List ChainHead}
    (h : List.Forall₂ (fun x c => headObject s x = .ok c) heads res) :
    res.map ChainHead.hash = heads := by
  induction h with
  | nil => rfl
  | cons hc _ ih => rw [List.map_cons, ih, (headObject_inv hc).1]

theorem headObject_of_mem {heads : List Uint256} {res : List ChainHead}
    (h : List.Forall₂ (fun x c => headObject s x = .ok c) heads res) :
    ∀ c ∈ res, headObject s c.hash = .ok c := by
  induction h with
  | nil => simp
  | cons hc _ ih =>
    refine List.forall_mem_cons.mpr ⟨?_, ih⟩
    rw [(headObject_inv hc).1]
    exact hc

theorem MapOrder.sortHeads_perm (m : BlockMap) (entries : List (Uint256 × CBlockIndex)) :
    (sortHeads m (chainHeads entries)).Perm (chainHeads entries) :=
  List.perm_insertionSort _ _

theorem MapOrder.chainHeads_nodup {m : BlockMap} (horder : MapOrder m entries) :
    (chainHeads entries).Nodup := by
  refine List.Nodup.filter _ (horder.sorted.imp fun hlt heq => ?_)
  rw [heq] at hlt
  exact absurd hlt (BitVec.lt_irrefl _)

theorem TreeOk.getchains_iff (h : TreeOk s.tree genesis best)
    (horder : MapOrder s.mapBlockIndex entries) : GetchainsRight s entries ↔ BestIsHead s := by
  have hperm := MapOrder.sortHeads_perm s.mapBlockIndex entries
  have hmem : ∀ x, x ∈ sortHeads s.mapBlockIndex (chainHeads entries) ↔
      IsHead s.mapBlockIndex x := fun x => hperm.mem_iff.trans (horder.mem_chainHeads x)
  have hbest : s.pindexBest = some best := h.isBest
  rw [GetchainsRight, getchains_eq h.rooted horder]
  constructor
  · rintro ⟨res, hres, hreport⟩ best' hbest' c hc
    obtain rfl : best = best' := Option.some.inj (hbest.symm.trans hbest')
    obtain ⟨pc, -, hpc, -⟩ := h.rooted.parent_some hc
    have hpresent : (s.mapBlockIndex c).isSome := Option.isSome_iff_exists.mpr ⟨pc, hpc⟩
    obtain ⟨x, hhead, hanc⟩ := exists_head_above h.rooted horder hpresent
    have hbelow : Forest.Anc (parentOf s.mapBlockIndex) best x := hanc.up hc
    have hne : x ≠ best := by
      rintro rfl
      exact hhead.2 c hc
    obtain ⟨o, ho, rfl⟩ := List.mem_map.mp ((hreport.heads x).mpr hhead)
    have hobject := headObject_of_mem (Except.mapM_eq_ok.mp hres) o ho
    have hoff : s.pindexBest ≠ some o.hash := by
      rw [hbest]
      exact fun heq => hne (Option.some.inj heq).symm
    obtain ⟨p, hp⟩ := Option.isSome_iff_exists.mp hhead.1
    obtain ⟨branch, hclimb, hset, -⟩ := (headObject_inv hobject).2 p hp hoff
    obtain ⟨branch', hset', -, hspec⟩ := hreport.branch o ho hoff
    obtain rfl : branch = branch' := Option.some.inj (hset.symm.trans hset')
    exact h.climb_past hp hne hbelow hclimb hspec
  · intro hunbuilt
    obtain ⟨res, hres⟩ := Except.exists_mapM (l := sortHeads s.mapBlockIndex (chainHeads entries))
      fun x hx => (h.headObject_ok hunbuilt ((hmem x).mp hx)).imp fun c hc => hc.1
    have hall := Except.mapM_eq_ok.mp hres
    have hhashes := map_hash_eq hall
    refine ⟨res, hres, ?_, ?_, ?_⟩
    · rw [hhashes]
      exact hperm.nodup_iff.mpr horder.chainHeads_nodup
    · intro x
      rw [hhashes]
      exact hmem x
    · intro c hc hoff
      have hobject := headObject_of_mem hall c hc
      have hhead : IsHead s.mapBlockIndex c.hash := by
        rw [← hmem, ← hhashes]
        exact List.mem_map_of_mem hc
      obtain ⟨p, hp⟩ := Option.isSome_iff_exists.mp hhead.1
      obtain ⟨branch, -, hset, hlen⟩ := (headObject_inv hobject).2 p hp hoff
      obtain ⟨c', hc', hspec⟩ := h.headObject_ok hunbuilt hhead
      obtain rfl : c = c' := Except.ok.inj (hobject.symm.trans hc')
      exact ⟨branch, hset, hlen, hspec hoff branch hset⟩

end Getchains

section Run

def FinitelyGrows (s s' : NodeState) : Prop :=
  { h | (s.mapBlockIndex h).isSome }.Finite → { h | (s'.mapBlockIndex h).isSome }.Finite

theorem Adds.finitelyGrows {hash hashPrevBlock : Uint256} {s s' : NodeState}
    (h : Adds hash hashPrevBlock s s') : FinitelyGrows s s' := by
  intro hfinite
  refine (hfinite.insert hash).subset fun x hx => ?_
  exact (h.keys x).mp hx

theorem finitelyGrows_carries (e : NodeEnv) : Carries e FinitelyGrows where
  refl _ h := h
  trans h h' hfinite := h' (h hfinite)
  park _ _ h := h
  erase _ _ h := h
  drop _ _ h := h
  accept b s := by
    have heff := acceptBlock_effect e b s
    generalize exec (acceptBlock e b) s = r at heff
    cases heff with
    | refused fault => exact fun hfinite => hfinite
    | accepted s' hadds => exact hadds.finitelyGrows
    | unconnected fault s' hadds hfails => exact hadds.finitelyGrows

theorem NodeStep.finitelyGrows {env : Env} {hashGenesisBlock : Uint256} {s s' : NodeState}
    (h : NodeStep env hashGenesisBlock s s') : FinitelyGrows s s' := by
  cases h with
  | block e b _ _ => exact (finitelyGrows_carries e).processBlock b s
  | tx e tx fCheckInputs fLimitFree fRateLimited _ _ =>
    have hpool := acceptToMemoryPool_poolOnly e tx fCheckInputs fLimitFree fRateLimited s
    refine fun hfinite => hfinite.subset fun x hx => ?_
    have hsame := hpool.keepsIndex.same.isSome_eq x
    show (s.mapBlockIndex x).isSome = true
    rw [← hsame]
    exact hx

def entriesOf (m : BlockMap) (keys : List Uint256) : List (Uint256 × CBlockIndex) :=
  keys.filterMap fun h => (m h).map fun p => (h, p)

theorem mapOrder_entriesOf {m : BlockMap} {keys : List Uint256} (hsorted : keys.Pairwise (· < ·))
    (hkeys : ∀ h, (m h).isSome → h ∈ keys) : MapOrder m (entriesOf m keys) := by
  have hfst : ∀ h i, ((m h).map fun p => (h, p)) = some i → i.1 = h ∧ m h = some i.2 := by
    intro h i hi
    obtain ⟨p, hp, rfl⟩ := Option.map_eq_some_iff.mp hi
    exact ⟨rfl, hp⟩
  refine ⟨?_, fun h p => ?_⟩
  · rw [entriesOf, List.pairwise_map, List.pairwise_filterMap]
    refine hsorted.imp fun hlt i hi j hj => ?_
    rw [(hfst _ i hi).1, (hfst _ j hj).1]
    exact hlt
  · rw [entriesOf, List.mem_filterMap]
    constructor
    · rintro ⟨k, -, hk⟩
      obtain ⟨rfl, hp⟩ := hfst k _ hk
      exact hp
    · intro hp
      exact ⟨h, hkeys h (by rw [hp]; rfl), by rw [hp]; rfl⟩

theorem exists_mapOrder {m : BlockMap} (hfinite : { h | (m h).isSome }.Finite) :
    ∃ entries, MapOrder m entries := by
  let order : List Nat := (hfinite.toFinset.image BitVec.toNat).sort (· ≤ ·)
  have hmem : ∀ n, n ∈ order ↔ ∃ h : Uint256, (m h).isSome ∧ h.toNat = n := by
    intro n
    simp [order]
  have hback : ∀ n ∈ order, (BitVec.ofNat 256 n).toNat = n := by
    intro n hn
    obtain ⟨h, -, rfl⟩ := (hmem n).mp hn
    rw [BitVec.toNat_ofNat, Nat.mod_eq_of_lt h.isLt]
  have hsorted : order.Pairwise (· < ·) :=
    (Finset.sortedLT_sort (hfinite.toFinset.image BitVec.toNat)).pairwise
  refine ⟨_, @mapOrder_entriesOf m (order.map (BitVec.ofNat 256)) ?_ fun h hh => ?_⟩
  · rw [List.pairwise_map]
    refine hsorted.imp_of_mem fun hn hk hlt => ?_
    rw [BitVec.lt_def, hback _ hn, hback _ hk]
    exact hlt
  · refine List.mem_map.mpr ⟨h.toNat, (hmem _).mpr ⟨h, hh, rfl⟩, ?_⟩
    rw [BitVec.ofNat_toNat, BitVec.setWidth_eq]

theorem finite_of_run {env : Env} {hashGenesisBlock : Uint256} {s0 s : NodeState}
    (hstart : Started env hashGenesisBlock s0)
    (run : Relation.ReflTransGen (NodeStep env hashGenesisBlock) s0 s) :
    { h | (s.mapBlockIndex h).isSome }.Finite := by
  induction run with
  | refl => exact (Set.finite_singleton hashGenesisBlock).subset fun x hx => hstart.keys hx
  | tail _ hstep ih => exact hstep.finitelyGrows ih

end Run

theorem getchains_right_iff {env : Env} {hashGenesisBlock : Uint256} {s0 s : NodeState}
    (hstart : Started env hashGenesisBlock s0)
    (run : Relation.ReflTransGen (NodeStep env hashGenesisBlock) s0 s) :
    (∃ entries, MapOrder s.mapBlockIndex entries) ∧
      ∀ entries, MapOrder s.mapBlockIndex entries → (GetchainsRight s entries ↔ BestIsHead s) := by
  obtain ⟨best, hok⟩ := treeOk_of_run hstart run
  exact ⟨exists_mapOrder (finite_of_run hstart run), fun entries horder => hok.getchains_iff horder⟩

theorem oneNode_chains :
    (∃ entries, MapOrder oneNode.mapBlockIndex entries) ∧
      ∀ entries, MapOrder oneNode.mapBlockIndex entries →
        (GetchainsRight oneNode entries ↔ BestIsHead oneNode) :=
  getchains_right_iff zeroNode_started (.single (.block sampleNodeEnv oneBlock rfl rfl))

def greedyNode : NodeState := (exec (processBlock sampleNodeEnv greedyBlock) zeroNode).2

def greedyKeys : List Uint256 := [zeroBlock.getHash sampleEnv, greedyBlock.getHash sampleEnv]

theorem greedyNode_order :
    MapOrder greedyNode.mapBlockIndex (entriesOf greedyNode.mapBlockIndex greedyKeys) := by
  have hsorted : greedyKeys.Pairwise (· < ·) := by decide +kernel
  refine mapOrder_entriesOf hsorted fun h hh => ?_
  rw [greedyNode] at hh
  have hkeys := @processBlock_keys sampleNodeEnv greedyBlock zeroNode zeroNode_started.byPrev_nil
    h hh
  rw [greedyKeys, List.mem_cons, List.mem_singleton]
  exact hkeys.imp_left zeroNode_started.keys

theorem getchains_asserts :
    Started sampleEnv sampleNodeEnv.hashGenesisBlock zeroNode ∧
      Relation.ReflTransGen (NodeStep sampleEnv sampleNodeEnv.hashGenesisBlock) zeroNode greedyNode ∧
      MapOrder greedyNode.mapBlockIndex (entriesOf greedyNode.mapBlockIndex greedyKeys) ∧
      getchains greedyNode (entriesOf greedyNode.mapBlockIndex greedyKeys) = .error .assertion ∧
      ¬GetchainsRight greedyNode (entriesOf greedyNode.mapBlockIndex greedyKeys) := by
  have hfault : getchains greedyNode (entriesOf greedyNode.mapBlockIndex greedyKeys) =
      .error .assertion := by decide +kernel
  refine ⟨zeroNode_started, .single (.block sampleNodeEnv greedyBlock rfl rfl), greedyNode_order,
    hfault, ?_⟩
  rintro ⟨res, hres, -⟩
  rw [hfault] at hres
  cases hres

end Namecoin
