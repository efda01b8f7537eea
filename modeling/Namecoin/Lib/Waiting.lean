import Mathlib.Data.Finset.Card
import Mathlib.Data.List.Nodup

namespace Waiting

-- A job becomes ready once every key it waits for has been announced.
structure Plan (I K : Type) where
  jobs : Finset I
  deps : I → Finset K

structure Queue (I K : Type) where
  ready : List I
  tried : List I
  done : List K

variable {I K : Type} [DecidableEq K]

def Plan.left (p : Plan I K) (done : List K) (i : I) : Finset K :=
  (p.deps i).filter (fun k => k ∉ done)

structure Ok (p : Plan I K) (q : Queue I K) : Prop where
  listed : ∀ i, i ∈ q.tried ++ q.ready ↔ i ∈ p.jobs ∧ p.left q.done i = ∅
  nodup : (q.tried ++ q.ready).Nodup

structure Released (p : Plan I K) (k : K) (done : List K) (released : List I) : Prop where
  nodup : released.Nodup
  mem_iff : ∀ i, i ∈ released ↔ i ∈ p.jobs ∧ p.left done i ≠ ∅ ∧ p.left (k :: done) i = ∅

variable {p : Plan I K} {i : I} {k : K} {ready ready' tried released : List I} {done : List K}

theorem Plan.left_cons (p : Plan I K) (k : K) (done : List K) (i : I) :
    p.left (k :: done) i = (p.left done i).erase k := by
  ext x
  simp only [left, Finset.mem_filter, Finset.mem_erase, List.mem_cons, not_or]
  tauto

theorem Plan.left_empty_iff : p.left done i = ∅ ↔ ∀ k ∈ p.deps i, k ∈ done := by
  simp [left, Finset.filter_eq_empty_iff]

theorem Plan.left_cons_of_not_mem (h : k ∉ p.deps i) : p.left (k :: done) i = p.left done i := by
  rw [left_cons, Finset.erase_eq_of_notMem]
  exact fun hin => h (Finset.mem_filter.mp hin).1

theorem Ok.refuse (h : Ok p ⟨i :: ready, tried, done⟩) : Ok p ⟨ready, tried ++ [i], done⟩ where
  listed j := by
    rw [List.append_assoc, List.singleton_append]
    exact h.listed j
  nodup := by
    rw [List.append_assoc, List.singleton_append]
    exact h.nodup

theorem Ok.accept (h : Ok p ⟨i :: ready, tried, done⟩) (hreleased : Released p k done released)
    (hperm : ready'.Perm (ready ++ released)) : Ok p ⟨ready', tried ++ [i], k :: done⟩ := by
  have hall : ((tried ++ [i]) ++ ready').Perm ((tried ++ i :: ready) ++ released) := by
    have hmore := hperm.append_left (tried ++ [i])
    simpa only [List.append_assoc, List.cons_append, List.nil_append] using hmore
  have hmono : ∀ j, p.left done j = ∅ → p.left (k :: done) j = ∅ := by
    intro j hj
    rw [Plan.left_cons, hj, Finset.erase_empty]
  refine ⟨fun j => ?_, hall.nodup_iff.mpr (List.nodup_append.mpr ⟨h.nodup, hreleased.nodup, ?_⟩)⟩
  · rw [hall.mem_iff, List.mem_append, h.listed j, hreleased.mem_iff j]
    constructor
    · rintro (⟨hjob, hleft⟩ | ⟨hjob, -, hleft⟩)
      · exact ⟨hjob, hmono j hleft⟩
      · exact ⟨hjob, hleft⟩
    · rintro ⟨hjob, hleft⟩
      by_cases hbefore : p.left done j = ∅
      · exact .inl ⟨hjob, hbefore⟩
      · exact .inr ⟨hjob, hbefore, hleft⟩
  · rintro a ha b hb rfl
    exact ((hreleased.mem_iff a).mp hb).2.1 ((h.listed a).mp ha).2

section Grow

variable [DecidableEq I]

def Plan.add (p : Plan I K) (i : I) : Plan I K := { p with jobs := insert i p.jobs }

theorem Plan.left_add (p : Plan I K) (i : I) (done : List K) (j : I) :
    (p.add i).left done j = p.left done j := rfl

theorem Ok.add_waiting (h : Ok p ⟨ready, tried, done⟩) (hleft : p.left done i ≠ ∅) :
    Ok (p.add i) ⟨ready, tried, done⟩ := by
  refine ⟨fun j => ?_, h.nodup⟩
  rw [h.listed j, Plan.left_add, Plan.add, Finset.mem_insert]
  constructor
  · exact fun hj => ⟨.inr hj.1, hj.2⟩
  · rintro ⟨rfl | hj, hempty⟩
    · exact absurd hempty hleft
    · exact ⟨hj, hempty⟩

theorem Ok.add_ready (h : Ok p ⟨ready, tried, done⟩) (hnew : i ∉ p.jobs)
    (hleft : p.left done i = ∅) (hperm : ready'.Perm (ready ++ [i])) :
    Ok (p.add i) ⟨ready', tried, done⟩ := by
  have hall : (tried ++ ready').Perm ((tried ++ ready) ++ [i]) := by
    rw [List.append_assoc]
    exact hperm.append_left tried
  refine ⟨fun j => ?_, ?_⟩
  · rw [hall.mem_iff, List.mem_append, List.mem_singleton, h.listed j, Plan.left_add, Plan.add,
      Finset.mem_insert]
    constructor
    · rintro (⟨hj, hempty⟩ | rfl)
      · exact ⟨.inr hj, hempty⟩
      · exact ⟨.inl rfl, hleft⟩
    · rintro ⟨rfl | hj, hempty⟩
      · exact .inr rfl
      · exact .inl ⟨hj, hempty⟩
  · rw [hall.nodup_iff, List.nodup_append]
    refine ⟨h.nodup, List.nodup_singleton i, ?_⟩
    rintro a ha b hb rfl
    rw [List.mem_singleton] at hb
    subst hb
    exact hnew ((h.listed a).mp ha).1

end Grow

theorem Ok.tried_le [DecidableEq I] (h : Ok p ⟨ready, tried, done⟩) :
    tried.length + ready.length ≤ p.jobs.card := by
  rw [← List.length_append, ← List.toFinset_card_of_nodup h.nodup]
  refine Finset.card_le_card fun j hj => ?_
  exact ((h.listed j).mp (List.mem_toFinset.mp hj)).1

theorem Ok.finished (h : Ok p ⟨[], tried, done⟩) :
    tried.Nodup ∧ ∀ j, j ∈ tried ↔ j ∈ p.jobs ∧ ∀ k ∈ p.deps j, k ∈ done := by
  have hnodup := h.nodup
  have hlisted := h.listed
  simp only [List.append_nil] at hnodup hlisted
  refine ⟨hnodup, fun j => ?_⟩
  rw [hlisted j, Plan.left_empty_iff]

end Waiting
