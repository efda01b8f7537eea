import Namecoin.Node.Process
import Namecoin.Lib.Forest

namespace Namecoin

open Act

abbrev BlockMap := Uint256 → Option CBlockIndex

def parentOf (m : BlockMap) (h : Uint256) : Option Uint256 := (m h).bind CBlockIndex.pprev

def nextOf (m : BlockMap) (h : Uint256) : Option Uint256 := (m h).bind CBlockIndex.pnext

def heightOf (m : BlockMap) (h : Uint256) : Nat := ((m h).map CBlockIndex.nHeight).getD 0

def isInMainChain (s : NodeState) (pindex : CBlockIndex) : Prop :=
  pindex.pnext ≠ none ∨ s.pindexBest = some pindex.hashBlock

structure Rooted (m : BlockMap) (genesis : Uint256) : Prop where
  keyed : ∀ h p, m h = some p → p.hashBlock = h
  root : ∃ p, m genesis = some p ∧ p.pprev = none ∧ p.nHeight = 0
  parent : ∀ h p, m h = some p → h ≠ genesis →
    ∃ q pq, p.pprev = some q ∧ m q = some pq ∧ p.nHeight = pq.nHeight + 1
  work : ∀ h p, m h = some p → p.bnChainWork =
    ((p.pprev.bind m).map CBlockIndex.bnChainWork).getD 0 + getBlockWork p.nBits

structure HeightTree (m : BlockMap) (genesis : Uint256) : Prop where
  keyed : ∀ h p, m h = some p → p.hashBlock = h
  root : ∃ p, m genesis = some p ∧ p.pprev = none ∧ p.nHeight = 0
  parent : ∀ h p, m h = some p → h ≠ genesis →
    ∃ q pq, p.pprev = some q ∧ m q = some pq ∧ p.nHeight = pq.nHeight + 1

def forgetNext (p : CBlockIndex) : CBlockIndex := { p with pnext := none }

def SameTree (m m' : BlockMap) : Prop := ∀ h, (m' h).map forgetNext = (m h).map forgetNext

theorem SameTree.refl (m : BlockMap) : SameTree m m := fun _ => rfl

theorem SameTree.trans {m m' m'' : BlockMap} (h : SameTree m m') (h' : SameTree m' m'') :
    SameTree m m'' := fun x => (h' x).trans (h x)

theorem SameTree.symm {m m' : BlockMap} (h : SameTree m m') : SameTree m' m := fun x => (h x).symm

theorem SameTree.read {m m' : BlockMap} (h : SameTree m m') {α : Type} (f : CBlockIndex → α)
    (hf : ∀ p, f (forgetNext p) = f p) (x : Uint256) : (m' x).map f = (m x).map f := by
  have hcomp : f = f ∘ forgetNext := funext (fun p => (hf p).symm)
  rw [hcomp, ← Option.map_map, ← Option.map_map, h x]

theorem SameTree.lookup {m m' : BlockMap} (h : SameTree m m') {x : Uint256} {p' : CBlockIndex}
    (hp : m' x = some p') : ∃ p next, m x = some p ∧ p' = { p with pnext := next } := by
  have hx := h x
  rw [hp] at hx
  obtain ⟨p, hp, he⟩ := Option.map_eq_some_iff.mp hx.symm
  refine ⟨p, p'.pnext, hp, ?_⟩
  have hback : p' = { forgetNext p' with pnext := p'.pnext } := rfl
  rw [hback, ← he]
  rfl

theorem SameTree.present {m m' : BlockMap} (h : SameTree m m') {x : Uint256} {p : CBlockIndex}
    (hp : m x = some p) : ∃ p', m' x = some p' := by
  obtain ⟨p', -, hp', -⟩ := h.symm.lookup hp
  exact ⟨p', hp'⟩

theorem SameTree.parentOf_eq {m m' : BlockMap} (h : SameTree m m') :
    parentOf m' = parentOf m := by
  funext x
  have hx := h.read CBlockIndex.pprev (fun _ => rfl) x
  unfold parentOf
  cases hm : m x <;> cases hm' : m' x <;> simp_all

theorem SameTree.heightOf_eq {m m' : BlockMap} (h : SameTree m m') :
    heightOf m' = heightOf m := by
  funext x
  unfold heightOf
  rw [h.read CBlockIndex.nHeight (fun _ => rfl)]

theorem sameTree_setNext (h next : Option Uint256) (m : BlockMap) :
    SameTree m (setNext h next m) := by
  intro x
  cases h with
  | none => rfl
  | some q =>
    by_cases hx : x = q
    · subst hx
      cases hm : m x <;> simp [setNext, hm, forgetNext]
    · simp [setNext, hx]

theorem nextOf_setNext {m : BlockMap} {q : Uint256} (hq : (m q).isSome) (next : Option Uint256)
    (h : Uint256) : nextOf (setNext (some q) next m) h = if q = h then next else nextOf m h := by
  obtain ⟨p, hp⟩ := Option.isSome_iff_exists.mp hq
  by_cases hh : q = h
  · subst hh
    simp [nextOf, setNext, hp]
  · simp [nextOf, setNext, hh, Function.update_of_ne (fun he => hh he.symm)]

theorem pprevWalk_cons {m : BlockMap} {fuel : Nat} {x : Uint256} {p : CBlockIndex}
    (hp : m x = some p) : pprevWalk m (fuel + 1) (some x) = p :: pprevWalk m fuel p.pprev := by
  simp [pprevWalk, hp]

namespace HeightTree

variable {m : BlockMap} {genesis : Uint256}

theorem parent_some (h : HeightTree m genesis) {x q : Uint256} (hq : parentOf m x = some q) :
    ∃ p pq, m x = some p ∧ p.pprev = some q ∧ m q = some pq ∧ p.nHeight = pq.nHeight + 1 := by
  obtain ⟨p, hp, hprev⟩ := Option.bind_eq_some_iff.mp hq
  have hx : x ≠ genesis := by
    rintro rfl
    obtain ⟨r, hr, hr', -⟩ := h.root
    rw [hp] at hr
    cases hr
    rw [hprev] at hr'
    cases hr'
  obtain ⟨q', pq, hprev', hq', hheight⟩ := h.parent x p hp hx
  rw [hprev] at hprev'
  cases hprev'
  exact ⟨p, pq, hp, hprev, hq', hheight⟩

theorem graded (h : HeightTree m genesis) : Forest.Graded (parentOf m) (heightOf m) := by
  intro x q hq
  obtain ⟨p, pq, hp, -, hq', hheight⟩ := h.parent_some hq
  simp [heightOf, hp, hq', hheight]

theorem parentOf_genesis (h : HeightTree m genesis) : parentOf m genesis = none := by
  obtain ⟨p, hp, hprev, -⟩ := h.root
  simp [parentOf, hp, hprev]

theorem heightOf_genesis (h : HeightTree m genesis) : heightOf m genesis = 0 := by
  obtain ⟨p, hp, -, hheight⟩ := h.root
  simp [heightOf, hp, hheight]

theorem genesis_anc (h : HeightTree m genesis) {x : Uint256} (hx : (m x).isSome) :
    Forest.Anc (parentOf m) genesis x := by
  induction hn : heightOf m x generalizing x with
  | zero =>
    by_cases hg : x = genesis
    · subst hg
      exact .refl _
    · obtain ⟨p, hp⟩ := Option.isSome_iff_exists.mp hx
      obtain ⟨q, pq, -, -, hheight⟩ := h.parent x p hp hg
      simp [heightOf, hp, hheight] at hn
  | succ n ih =>
    have hg : x ≠ genesis := by
      rintro rfl
      rw [h.heightOf_genesis] at hn
      cases hn
    obtain ⟨p, hp⟩ := Option.isSome_iff_exists.mp hx
    obtain ⟨q, pq, hprev, hq, hheight⟩ := h.parent x p hp hg
    have hxq : parentOf m x = some q := by simp [parentOf, hp, hprev]
    have hqn : heightOf m q = n := by
      simp only [heightOf, hp, hq, hheight, Option.map_some, Option.getD_some] at hn ⊢
      omega
    exact Relation.ReflTransGen.head hxq (ih (by simp [hq]) hqn)

theorem anc_some (h : HeightTree m genesis) {a x : Uint256} (hx : (m x).isSome)
    (ha : Forest.Anc (parentOf m) a x) : (m a).isSome := by
  induction ha with
  | refl => exact hx
  | tail _ hp _ =>
    obtain ⟨-, pq, -, -, hq, -⟩ := h.parent_some hp
    simp [hq]

theorem mem_pprevWalk (h : HeightTree m genesis) {fuel : Nat} {x : Option Uint256} {p : CBlockIndex}
    (hp : p ∈ pprevWalk m fuel x) : m p.hashBlock = some p := by
  induction fuel generalizing x with
  | zero => cases hp
  | succ fuel ih =>
    rw [pprevWalk] at hp
    cases hx : x.bind m with
    | none =>
      rw [hx] at hp
      cases hp
    | some r =>
      rw [hx] at hp
      rcases List.mem_cons.mp hp with rfl | hp
      · obtain ⟨y, -, hy⟩ := Option.bind_eq_some_iff.mp hx
        rw [h.keyed y _ hy]
        exact hy
      · exact ih hp

theorem pprevWalk_path (h : HeightTree m genesis) (fuel : Nat) {x : Uint256} (hx : (m x).isSome) :
    (pprevWalk m fuel (some x)).map CBlockIndex.hashBlock = Forest.path (parentOf m) fuel x := by
  induction fuel generalizing x with
  | zero => rfl
  | succ fuel ih =>
    obtain ⟨p, hp⟩ := Option.isSome_iff_exists.mp hx
    have hparent : parentOf m x = p.pprev := by simp [parentOf, hp]
    rw [pprevWalk_cons hp, List.map_cons, h.keyed x p hp, Forest.path, hparent]
    congr 1
    cases hq : p.pprev with
    | none => cases fuel <;> rfl
    | some q =>
      obtain ⟨-, pq, -, -, hmq, -⟩ := h.parent_some (hparent.trans hq)
      exact ih (by simp [hmq])

end HeightTree

namespace Rooted

variable {m m' : BlockMap} {genesis : Uint256}

theorem congr (h : Rooted m genesis) (hs : SameTree m m') : Rooted m' genesis where
  keyed x p' hp' := by
    obtain ⟨p, next, hp, rfl⟩ := hs.lookup hp'
    exact h.keyed x p hp
  root := by
    obtain ⟨p, hp, hprev, hheight⟩ := h.root
    obtain ⟨p', hp'⟩ := hs.present hp
    obtain ⟨q, next, hq, rfl⟩ := hs.lookup hp'
    rw [hp] at hq
    cases hq
    exact ⟨_, hp', hprev, hheight⟩
  parent x p' hp' hx := by
    obtain ⟨p, next, hp, rfl⟩ := hs.lookup hp'
    obtain ⟨q, pq, hprev, hq, hheight⟩ := h.parent x p hp hx
    obtain ⟨pq', hq'⟩ := hs.present hq
    obtain ⟨r, next', hr, rfl⟩ := hs.lookup hq'
    rw [hq] at hr
    cases hr
    exact ⟨q, _, hprev, hq', hheight⟩
  work x p' hp' := by
    obtain ⟨p, next, hp, rfl⟩ := hs.lookup hp'
    have hw := h.work x p hp
    show p.bnChainWork = ((p.pprev.bind m').map CBlockIndex.bnChainWork).getD 0 + getBlockWork p.nBits
    rw [hw]
    cases p.pprev with
    | none => rfl
    | some q => simp only [Option.bind_some, hs.read CBlockIndex.bnChainWork (fun _ => rfl)]

theorem heightTree (h : Rooted m genesis) : HeightTree m genesis := ⟨h.keyed, h.root, h.parent⟩

theorem parent_some (h : Rooted m genesis) {x q : Uint256} (hq : parentOf m x = some q) :
    ∃ p pq, m x = some p ∧ p.pprev = some q ∧ m q = some pq ∧ p.nHeight = pq.nHeight + 1 :=
  h.heightTree.parent_some hq

theorem graded (h : Rooted m genesis) : Forest.Graded (parentOf m) (heightOf m) :=
  h.heightTree.graded

theorem parentOf_genesis (h : Rooted m genesis) : parentOf m genesis = none :=
  h.heightTree.parentOf_genesis

theorem heightOf_genesis (h : Rooted m genesis) : heightOf m genesis = 0 :=
  h.heightTree.heightOf_genesis

theorem genesis_anc (h : Rooted m genesis) {x : Uint256} (hx : (m x).isSome) :
    Forest.Anc (parentOf m) genesis x := h.heightTree.genesis_anc hx

theorem anc_some (h : Rooted m genesis) {a x : Uint256} (hx : (m x).isSome)
    (ha : Forest.Anc (parentOf m) a x) : (m a).isSome := h.heightTree.anc_some hx ha

theorem mem_pprevWalk (h : Rooted m genesis) {fuel : Nat} {x : Option Uint256} {p : CBlockIndex}
    (hp : p ∈ pprevWalk m fuel x) : m p.hashBlock = some p := h.heightTree.mem_pprevWalk hp

theorem pprevWalk_path (h : Rooted m genesis) (fuel : Nat) {x : Uint256} (hx : (m x).isSome) :
    (pprevWalk m fuel (some x)).map CBlockIndex.hashBlock = Forest.path (parentOf m) fuel x :=
  h.heightTree.pprevWalk_path fuel hx

end Rooted

end Namecoin
