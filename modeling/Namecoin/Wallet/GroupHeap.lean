import Namecoin.Data.Bytes
import Namecoin.Lib.Act
import Namecoin.Lib.Components
import Namecoin.Lib.OrderedMap

namespace Namecoin

open Std (ExtTreeMap ExtTreeSet)
open Components OrderedMap Relation

abbrev Grouping := ExtTreeSet StdString

def compareGroupings : Grouping → Grouping → Ordering := compareOn ExtTreeSet.toList

instance : Std.TransCmp compareGroupings :=
  inferInstanceAs (Std.TransCmp (compareOn (ExtTreeSet.toList : Grouping → List StdString)))

instance : Std.LawfulEqCmp compareGroupings where
  eq_of_compare h := ExtTreeSet.toList_inj.mp (Std.LawfulEqCmp.eq_of_compare h)

abbrev GroupingSet := ExtTreeSet Grouping compareGroupings

abbrev GroupHeap := ExtTreeMap Nat Grouping

structure Allocator where
  new : GroupHeap → Nat
  fresh : ∀ heap, new heap ∉ heap

structure UnionState where
  heap : GroupHeap
  uniqueGroupings : ExtTreeSet Nat
  setmap : ExtTreeMap StdString Nat

namespace UnionState

def empty : UnionState := ⟨∅, ∅, ∅⟩

def hitGroups (s : UnionState) (grouping : Grouping) : ExtTreeSet Nat :=
  insertSome (fun address => s.setmap[address]?) grouping.toList ∅

-- a hit that is not allocated would be a read through a deleted pointer
def absorbHit (merged : Nat) (s : UnionState) (hit : Nat) : Except Fault UnionState :=
  match s.heap[merged]?, s.heap[hit]? with
  | some group, some old =>
    .ok { s with
      heap := (s.heap.insert merged (insertSome some old.toList group)).erase hit
      uniqueGroupings := s.uniqueGroupings.erase hit }
  | _, _ => .error .undefined

def redirect (s : UnionState) (merged : Nat) : Except Fault UnionState :=
  match s.heap[merged]? with
  | none => .error .undefined
  | some elements =>
    .ok { s with setmap := elements.toList.foldl (fun m element => m.insert element merged) s.setmap }

def mergeGrouping (alloc : Allocator) (s : UnionState) (grouping : Grouping) :
    Except Fault UnionState := do
  let hits := s.hitGroups grouping
  let merged := alloc.new s.heap
  let s ← hits.toList.foldlM (absorbHit merged) { s with heap := s.heap.insert merged grouping }
  redirect { s with uniqueGroupings := s.uniqueGroupings.insert merged } merged

def collect (s : UnionState) : List Nat → GroupingSet → Except Fault GroupingSet
  | [], ret => .ok ret
  | uniqueGrouping :: rest, ret =>
    match s.heap[uniqueGrouping]? with
    | none => .error .undefined
    | some group => collect { s with heap := s.heap.erase uniqueGrouping } rest (ret.insert group)

end UnionState

namespace UnionState

def blocks (s : UnionState) : Set (Set StdString) :=
  {h | ∃ (p : Nat) (g : Grouping), s.heap[p]? = some g ∧ h = {a | a ∈ g}}

structure Sound (s : UnionState) : Prop where
  live : ∀ p, p ∈ s.uniqueGroupings ↔ p ∈ s.heap
  owner : ∀ (a : StdString) (p : Nat),
    s.setmap[a]? = some p ↔ ∃ g, s.heap[p]? = some g ∧ a ∈ g

theorem mem_insertAll {group old : Grouping} {a : StdString} :
    a ∈ insertSome some old.toList group ↔ a ∈ group ∨ a ∈ old := by
  rw [mem_insertSome]
  simp only [Option.some.injEq, exists_eq_right, ExtTreeSet.mem_toList]

theorem mem_hitGroups {s : UnionState} (hs : s.Sound) {grouping : Grouping} {p : Nat} :
    p ∈ s.hitGroups grouping ↔ ∃ g, s.heap[p]? = some g ∧ ∃ a ∈ grouping, a ∈ g := by
  rw [hitGroups, mem_insertSome]
  simp only [ExtTreeSet.not_mem_empty, false_or, hs.owner, ExtTreeSet.mem_toList]
  constructor
  · rintro ⟨a, ha, g, hg, hag⟩
    exact ⟨g, hg, a, ha, hag⟩
  · rintro ⟨g, hg, a, ha, hag⟩
    exact ⟨a, ha, g, hg, hag⟩

structure Absorbed (merged : Nat) (grouping : Grouping) (s : UnionState) (hs : List Nat)
    (s' : UnionState) : Prop where
  content : ∃ g, s'.heap[merged]? = some g ∧
    ∀ a, a ∈ g ↔ a ∈ grouping ∨ ∃ h ∈ hs, ∃ old, s.heap[h]? = some old ∧ a ∈ old
  gone : ∀ p ∈ hs, s'.heap[p]? = none
  kept : ∀ p, p ≠ merged → p ∉ hs → s'.heap[p]? = s.heap[p]?
  unique : ∀ p, p ∈ s'.uniqueGroupings ↔ p ∈ s.uniqueGroupings ∧ p ∉ hs
  setmap : s'.setmap = s.setmap

theorem heap_absorb {heap : GroupHeap} {merged h p : Nat} {g : Grouping} :
    ((heap.insert merged g).erase h)[p]? =
      if h = p then none else if merged = p then some g else heap[p]? := by
  simp only [ExtTreeMap.getElem?_erase, ExtTreeMap.getElem?_insert, Nat.compare_eq_eq]

theorem absorb_run {merged : Nat} {hs : List Nat} (hd : hs.Nodup) {s : UnionState}
    {grouping : Grouping} (hmerged : s.heap[merged]? = some grouping)
    (hlive : ∀ h ∈ hs, h ≠ merged ∧ ∃ old, s.heap[h]? = some old) :
    ∃ s', hs.foldlM (absorbHit merged) s = .ok s' ∧ Absorbed merged grouping s hs s' := by
  induction hs generalizing s grouping with
  | nil => exact ⟨s, rfl, ⟨⟨grouping, hmerged, by simp⟩, by simp, fun _ _ _ => rfl, by simp, rfl⟩⟩
  | cons h hs ih =>
    obtain ⟨⟨hne, old, hold⟩, hrest⟩ := List.forall_mem_cons.mp hlive
    obtain ⟨hout, hd⟩ := List.nodup_cons.mp hd
    have hstep : absorbHit merged s h = .ok { s with
        heap := (s.heap.insert merged (insertSome some old.toList grouping)).erase h
        uniqueGroupings := s.uniqueGroupings.erase h } := by
      rw [absorbHit, hmerged, hold]
    have hother : ∀ p, p ≠ merged → p ≠ h →
        ((s.heap.insert merged (insertSome some old.toList grouping)).erase h)[p]? =
          s.heap[p]? := by
      intro p hpm hph
      rw [heap_absorb, if_neg (Ne.symm hph), if_neg (Ne.symm hpm)]
    have hnext : ∀ h' ∈ hs, h' ≠ merged ∧ ∃ old',
        ((s.heap.insert merged (insertSome some old.toList grouping)).erase h)[h']? = some old' := by
      intro h' hh'
      obtain ⟨hne', old', hold'⟩ := hrest h' hh'
      have hneh : h' ≠ h := by
        rintro rfl
        exact hout hh'
      exact ⟨hne', old', by rw [hother h' hne' hneh, hold']⟩
    have hgroup : ((s.heap.insert merged (insertSome some old.toList grouping)).erase h)[merged]? =
        some (insertSome some old.toList grouping) := by
      rw [heap_absorb, if_neg hne, if_pos rfl]
    obtain ⟨s', hrun, habs⟩ := ih hd (s := { s with
      heap := (s.heap.insert merged (insertSome some old.toList grouping)).erase h
      uniqueGroupings := s.uniqueGroupings.erase h }) hgroup hnext
    refine ⟨s', ?_, ?_⟩
    · rw [List.foldlM_cons, hstep]
      exact hrun
    · obtain ⟨g, hg, hmem⟩ := habs.content
      refine ⟨⟨g, hg, ?_⟩, ?_, ?_, ?_, habs.setmap⟩
      · intro a
        rw [hmem, mem_insertAll]
        simp only [List.exists_mem_cons_iff, hold, Option.some.injEq, exists_eq_left', or_assoc]
        refine or_congr_right (or_congr_right (exists_congr fun h' => and_congr_right fun hh' => ?_))
        have hneh : h' ≠ h := by
          rintro rfl
          exact hout hh'
        rw [hother h' (hrest h' hh').1 hneh]
      · intro p hp
        rcases List.mem_cons.mp hp with rfl | hin
        · rw [habs.kept p hne hout, heap_absorb, if_pos rfl]
        · exact habs.gone p hin
      · intro p hpm hp
        rw [List.mem_cons, not_or] at hp
        rw [habs.kept p hpm hp.2, hother p hpm hp.1]
      · intro p
        rw [habs.unique, ExtTreeSet.mem_erase, ne_eq, Nat.compare_eq_eq, List.mem_cons]
        tauto

structure Merged (merged : Nat) (grouping : Grouping) (s s' : UnionState) : Prop where
  content : ∃ g, s'.heap[merged]? = some g ∧ ∀ a, a ∈ g ↔ a ∈ grouping ∨
    ∃ (h : Nat) (old : Grouping), s.heap[h]? = some old ∧ (∃ x ∈ grouping, x ∈ old) ∧ a ∈ old
  kept : ∀ (p : Nat) (old : Grouping), p ≠ merged → (s'.heap[p]? = some old ↔
    s.heap[p]? = some old ∧ ∀ x ∈ grouping, x ∉ old)

theorem mem_heap_iff {heap : GroupHeap} {p : Nat} : p ∈ heap ↔ ∃ g, heap[p]? = some g := by
  rw [ExtTreeMap.mem_iff_isSome_getElem?, Option.isSome_iff_exists]

theorem absorbed_merged {merged : Nat} {grouping : Grouping} {s s' : UnionState} (hs : s.Sound)
    (hnew : s.heap[merged]? = none)
    (h : Absorbed merged grouping { s with heap := s.heap.insert merged grouping }
      (s.hitGroups grouping).toList s') : Merged merged grouping s s' := by
  have hstart : ∀ p, p ≠ merged → (s.heap.insert merged grouping)[p]? = s.heap[p]? := by
    intro p hp
    rw [ExtTreeMap.getElem?_insert, if_neg (fun heq => hp (Nat.compare_eq_eq.mp heq).symm)]
  have hhit : ∀ p, p ∈ (s.hitGroups grouping).toList ↔
      ∃ g, s.heap[p]? = some g ∧ ∃ x ∈ grouping, x ∈ g := by
    intro p
    rw [ExtTreeSet.mem_toList, mem_hitGroups hs]
  constructor
  · obtain ⟨g, hg, hmem⟩ := h.content
    refine ⟨g, hg, fun a => (hmem a).trans (or_congr_right (exists_congr fun p => ?_))⟩
    rw [hhit]
    constructor
    · rintro ⟨⟨old, hold, hx⟩, old', hold', ha⟩
      have hp : p ≠ merged := by
        rintro rfl
        rw [hnew] at hold
        cases hold
      rw [hstart p hp, hold] at hold'
      cases hold'
      exact ⟨old, hold, hx, ha⟩
    · rintro ⟨old, hold, hx, ha⟩
      have hp : p ≠ merged := by
        rintro rfl
        rw [hnew] at hold
        cases hold
      exact ⟨⟨old, hold, hx⟩, old, by rw [hstart p hp, hold], ha⟩
  · intro p old hp
    rcases Classical.em (p ∈ (s.hitGroups grouping).toList) with hin | hout
    · rw [h.gone p hin]
      obtain ⟨g, hg, x, hx, hxg⟩ := (hhit p).mp hin
      refine ⟨nofun, ?_⟩
      rintro ⟨hold, hmiss⟩
      rw [hg] at hold
      cases hold
      exact absurd hxg (hmiss x hx)
    · rw [h.kept p hp hout, hstart p hp]
      refine ⟨fun hold => ⟨hold, fun x hx hxo => ?_⟩, And.left⟩
      exact hout ((hhit p).mpr ⟨old, hold, x, hx, hxo⟩)

theorem merged_owner {merged : Nat} {grouping : Grouping} {s s' : UnionState} (hs : s.Sound)
    (hnew : s.heap[merged]? = none) (h : Merged merged grouping s s') {g : Grouping}
    (hg : s'.heap[merged]? = some g) (a : StdString) (p : Nat) :
    (a ∈ g ∧ p = merged) ∨ (a ∉ g ∧ s.setmap[a]? = some p) ↔
      ∃ g', s'.heap[p]? = some g' ∧ a ∈ g' := by
  obtain ⟨g', hg', hmem⟩ := h.content
  rw [hg] at hg'
  cases hg'
  constructor
  · rintro (⟨ha, rfl⟩ | ⟨ha, hset⟩)
    · exact ⟨g, hg, ha⟩
    · obtain ⟨old, hold, haold⟩ := (hs.owner a p).mp hset
      have hp : p ≠ merged := by
        rintro rfl
        rw [hnew] at hold
        cases hold
      refine ⟨old, (h.kept p old hp).mpr ⟨hold, fun x hx hxo => ha ?_⟩, haold⟩
      exact (hmem a).mpr (.inr ⟨p, old, hold, ⟨x, hx, hxo⟩, haold⟩)
  · rintro ⟨g', hg', ha⟩
    rcases Classical.em (p = merged) with rfl | hp
    · rw [hg] at hg'
      cases hg'
      exact .inl ⟨ha, rfl⟩
    · obtain ⟨hold, hmiss⟩ := (h.kept p g' hp).mp hg'
      refine .inr ⟨fun hag => ?_, (hs.owner a p).mpr ⟨g', hold, ha⟩⟩
      rcases (hmem a).mp hag with hin | ⟨p', old, hold', ⟨x, hx, hxo⟩, haold⟩
      · exact hmiss a hin ha
      · -- each address has one owner, so the group that was hit is the one kept
        have hsame := ((hs.owner a p).mpr ⟨g', hold, ha⟩).symm.trans
          ((hs.owner a p').mpr ⟨old, hold', haold⟩)
        cases hsame
        rw [hold] at hold'
        cases hold'
        exact hmiss x hx hxo

theorem mergeGrouping_run (alloc : Allocator) {s : UnionState} (hs : s.Sound) (grouping : Grouping) :
    ∃ s', mergeGrouping alloc s grouping = .ok s' ∧ s'.Sound ∧
      Merged (alloc.new s.heap) grouping s s' := by
  have hnew : s.heap[alloc.new s.heap]? = none :=
    ExtTreeMap.getElem?_eq_none (alloc.fresh s.heap)
  have hd : (s.hitGroups grouping).toList.Nodup :=
    ExtTreeSet.distinct_toList.imp fun hne heq => hne (Nat.compare_eq_eq.mpr heq)
  have hlive : ∀ h ∈ (s.hitGroups grouping).toList, h ≠ alloc.new s.heap ∧
      ∃ old, (s.heap.insert (alloc.new s.heap) grouping)[h]? = some old := by
    intro h hh
    obtain ⟨g, hg, -⟩ := (mem_hitGroups hs).mp (ExtTreeSet.mem_toList.mp hh)
    have hne : h ≠ alloc.new s.heap := by
      rintro rfl
      rw [hnew] at hg
      cases hg
    refine ⟨hne, g, ?_⟩
    rw [ExtTreeMap.getElem?_insert, if_neg (fun heq => hne (Nat.compare_eq_eq.mp heq).symm), hg]
  obtain ⟨s', hrun, habs⟩ := @absorb_run (alloc.new s.heap) _ hd
    { s with heap := s.heap.insert (alloc.new s.heap) grouping } grouping
    ExtTreeMap.getElem?_insert_self hlive
  have hmerged := absorbed_merged hs hnew habs
  obtain ⟨g, hg, -⟩ := habs.content
  have hredirect : redirect { s' with
      uniqueGroupings := s'.uniqueGroupings.insert (alloc.new s.heap) } (alloc.new s.heap) =
        .ok ⟨s'.heap, s'.uniqueGroupings.insert (alloc.new s.heap),
          g.toList.foldl (fun m element => m.insert element (alloc.new s.heap)) s'.setmap⟩ := by
    rw [redirect, hg]
  refine ⟨_, Except.bind_eq_ok.mpr ⟨s', hrun, hredirect⟩, ⟨?_, ?_⟩, ⟨hmerged.content, hmerged.kept⟩⟩
  · intro p
    rw [ExtTreeSet.mem_insert, Nat.compare_eq_eq, habs.unique, hs.live]
    rcases Classical.em (p = alloc.new s.heap) with rfl | hp
    · simp only [true_or, true_iff]
      exact mem_heap_iff.mpr ⟨g, hg⟩
    · rcases Classical.em (p ∈ (s.hitGroups grouping).toList) with hin | hout
      · have hgone : p ∉ s'.heap := by
          rw [mem_heap_iff, habs.gone p hin]
          exact nofun
        simp only [hin, not_true_eq_false, and_false, hgone, Ne.symm hp, or_self]
      · rw [mem_heap_iff, mem_heap_iff, habs.kept p hp hout,
          ExtTreeMap.getElem?_insert, if_neg (fun heq => hp (Nat.compare_eq_eq.mp heq).symm)]
        simp only [Ne.symm hp, hout, not_false_eq_true, and_true, false_or]
  · intro a p
    rw [getElem?_insertEach, ExtTreeSet.mem_toList, habs.setmap]
    exact merged_owner hs hnew hmerged hg a p

theorem Merged.blocks_eq {merged : Nat} {grouping : Grouping} {s s' : UnionState}
    (hnew : s.heap[merged]? = none) (h : Merged merged grouping s s') :
    s'.blocks = Components.merge s.blocks {a | a ∈ grouping} := by
  obtain ⟨g, hg, hmem⟩ := h.content
  have habsorb : {a | a ∈ g} = absorb s.blocks {a | a ∈ grouping} := by
    ext a
    rw [Classes.mem_absorb]
    refine (hmem a).trans (or_congr_right ?_)
    constructor
    · rintro ⟨p, old, hold, hx, ha⟩
      exact ⟨_, ⟨p, old, hold, rfl⟩, hx, ha⟩
    · rintro ⟨_, ⟨p, old, hold, rfl⟩, hx, ha⟩
      exact ⟨p, old, hold, hx, ha⟩
  ext k
  constructor
  · rintro ⟨p, old, hold, rfl⟩
    rcases Classical.em (p = merged) with rfl | hp
    · rw [hg] at hold
      cases hold
      exact .inl habsorb
    · obtain ⟨hold', hmiss⟩ := (h.kept p old hp).mp hold
      refine .inr ⟨⟨p, old, hold', rfl⟩, ?_⟩
      rintro ⟨-, x, hx, hxo⟩
      exact hmiss x hx hxo
  · rintro (rfl | ⟨⟨p, old, hold, rfl⟩, hmiss⟩)
    · exact ⟨merged, g, hg, habsorb.symm⟩
    · have hp : p ≠ merged := by
        rintro rfl
        rw [hnew] at hold
        cases hold
      refine ⟨p, old, (h.kept p old hp).mpr ⟨hold, fun x hx hxo => hmiss ?_⟩, rfl⟩
      exact ⟨⟨p, old, hold, rfl⟩, x, hx, hxo⟩

def family (groupings : List Grouping) : Set (Set StdString) :=
  {h | ∃ g ∈ groupings, h = {a | a ∈ g}}

-- the groupings may come in any order
theorem mergeGroupings_run (alloc : Allocator) {groupings : List Grouping}
    (hne : ∀ g ∈ groupings, ∃ a, a ∈ g) {s : UnionState} (hs : s.Sound) {F : Set (Set StdString)}
    (hc : Classes F s.blocks) : ∃ s', groupings.foldlM (mergeGrouping alloc) s = .ok s' ∧
      s'.Sound ∧ Classes (F ∪ family groupings) s'.blocks := by
  induction groupings generalizing s F with
  | nil =>
    have hfamily : F ∪ family [] = F := by
      simp [family]
    exact ⟨s, rfl, hs, by rwa [hfamily]⟩
  | cons grouping groupings ih =>
    obtain ⟨hfirst, hrest⟩ := List.forall_mem_cons.mp hne
    obtain ⟨s₁, hrun, hs₁, hmerged⟩ := mergeGrouping_run alloc hs grouping
    have hblocks := hmerged.blocks_eq (ExtTreeMap.getElem?_eq_none (alloc.fresh s.heap))
    have hc₁ : Classes (insert {a | a ∈ grouping} F) s₁.blocks := by
      rw [hblocks]
      exact hc.merge hfirst
    obtain ⟨s', hrun', hs', hc'⟩ := ih hrest hs₁ hc₁
    refine ⟨s', ?_, hs', ?_⟩
    · rw [List.foldlM_cons, hrun]
      exact hrun'
    · have hfamily : F ∪ family (grouping :: groupings) =
          insert {a | a ∈ grouping} F ∪ family groupings := by
        ext h
        simp only [family, List.exists_mem_cons_iff, Set.mem_union, Set.mem_ofPred_eq,
          Set.mem_insert_iff]
        tauto
      rwa [hfamily]

theorem collect_run {ps : List Nat} (hd : ps.Nodup) {s : UnionState}
    (hlive : ∀ p ∈ ps, ∃ g, s.heap[p]? = some g) (ret : GroupingSet) :
    ∃ ret', s.collect ps ret = .ok ret' ∧
      ∀ g, g ∈ ret' ↔ g ∈ ret ∨ ∃ p ∈ ps, s.heap[p]? = some g := by
  induction ps generalizing s ret with
  | nil => exact ⟨ret, rfl, by simp⟩
  | cons p ps ih =>
    obtain ⟨⟨g, hg⟩, hrest⟩ := List.forall_mem_cons.mp hlive
    obtain ⟨hout, hd⟩ := List.nodup_cons.mp hd
    have hother : ∀ q ∈ ps, (s.heap.erase p)[q]? = s.heap[q]? := by
      intro q hq
      have hne : compare p q ≠ .eq := by
        intro heq
        rw [Nat.compare_eq_eq.mp heq] at hout
        exact hout hq
      rw [ExtTreeMap.getElem?_erase, if_neg hne]
    have hnext : ∀ q ∈ ps, ∃ g', (s.heap.erase p)[q]? = some g' := by
      intro q hq
      rw [hother q hq]
      exact hrest q hq
    obtain ⟨ret', hrun, hmem⟩ := ih hd (s := { s with heap := s.heap.erase p }) hnext (ret.insert g)
    refine ⟨ret', ?_, ?_⟩
    · rw [collect, hg]
      exact hrun
    · intro g'
      rw [hmem, ExtTreeSet.mem_insert, Std.LawfulEqCmp.compare_eq_iff_eq, List.exists_mem_cons_iff,
        hg, Option.some.injEq]
      have hsame : (∃ q ∈ ps, (s.heap.erase p)[q]? = some g') ↔
          ∃ q ∈ ps, s.heap[q]? = some g' := by
        refine exists_congr fun q => and_congr_right fun hq => ?_
        rw [hother q hq]
      rw [hsame]
      tauto

theorem Sound.empty : UnionState.empty.Sound where
  live := by simp [UnionState.empty]
  owner := by simp [UnionState.empty]

theorem blocks_empty : UnionState.empty.blocks = ∅ := by
  simp [blocks, UnionState.empty]

end UnionState

end Namecoin
