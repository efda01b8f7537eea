import Mathlib.Data.List.Forall2
import Mathlib.Data.List.NodupEquivFin

namespace Namecoin

section Matching

variable {α β : Type} {R : α → β → Prop} {as : List α} {bs : List β} {a : α} {b : β}

theorem matching_length (h : List.SublistForall₂ R as bs) : as.length ≤ bs.length := by
  obtain ⟨l, hall, hsub⟩ := List.sublistForall₂_iff.mp h
  exact hall.length_eq.le.trans hsub.length_le

theorem matching_tail (h : List.SublistForall₂ R (a :: as) bs) : List.SublistForall₂ R as bs := by
  obtain ⟨l, hall, hsub⟩ := List.sublistForall₂_iff.mp h
  obtain ⟨b, l, -, hrest, rfl⟩ := List.forall₂_cons_left_iff.mp hall
  exact List.sublistForall₂_iff.mpr ⟨l, hrest, (List.sublist_cons_self b l).trans hsub⟩

-- The exchange: an assignment that passes over a fitting b can be moved onto it.
theorem matching_cons_of_rel (hab : R a b) :
    List.SublistForall₂ R (a :: as) (b :: bs) ↔ List.SublistForall₂ R as bs := by
  constructor
  · intro h
    cases h with
    | cons _ hrest => exact hrest
    | cons_right hrest => exact matching_tail hrest
  · exact .cons hab

theorem matching_cons_of_not_rel (hab : ¬R a b) :
    List.SublistForall₂ R (a :: as) (b :: bs) ↔ List.SublistForall₂ R (a :: as) bs := by
  constructor
  · intro h
    cases h with
    | cons hrel _ => exact absurd hrel hab
    | cons_right hrest => exact hrest
  · exact .cons_right

theorem matching_reverse :
    List.SublistForall₂ R as.reverse bs.reverse ↔ List.SublistForall₂ R as bs := by
  have hrev : ∀ {as : List α} {bs : List β}, List.SublistForall₂ R as bs →
      List.SublistForall₂ R as.reverse bs.reverse := by
    intro as bs h
    obtain ⟨l, hall, hsub⟩ := List.sublistForall₂_iff.mp h
    exact List.sublistForall₂_iff.mpr ⟨l.reverse, List.forall₂_reverse_iff.mpr hall, hsub.reverse⟩
  constructor
  · intro h
    have hback := hrev h
    rwa [List.reverse_reverse, List.reverse_reverse] at hback
  · exact hrev

theorem matching_iff_strictMono :
    List.SublistForall₂ R as bs ↔
      ∃ f : Fin as.length → Fin bs.length, StrictMono f ∧ ∀ i, R (as.get i) (bs.get (f i)) := by
  rw [List.sublistForall₂_iff]
  constructor
  · rintro ⟨l, hall, hsub⟩
    obtain ⟨f, hf⟩ := List.sublist_iff_exists_fin_orderEmbedding_get_eq.mp hsub
    refine ⟨fun i => f (i.cast hall.length_eq), fun i j hij => f.strictMono hij, fun i => ?_⟩
    rw [← hf (i.cast hall.length_eq)]
    exact hall.get i.isLt (hall.length_eq ▸ i.isLt)
  · rintro ⟨f, hmono, hrel⟩
    refine ⟨List.ofFn (fun i => bs.get (f i)), ?_, ?_⟩
    · rw [List.forall₂_iff_get]
      refine ⟨(List.length_ofFn).symm, fun i hi hi' => ?_⟩
      rw [List.get_ofFn]
      exact hrel ⟨i, hi⟩
    · rw [List.sublist_iff_exists_fin_orderEmbedding_get_eq]
      refine ⟨OrderEmbedding.ofStrictMono (fun i => f (i.cast List.length_ofFn))
        (fun i j hij => hmono hij), fun i => ?_⟩
      rw [List.get_ofFn]
      rfl

def greedyMatch (p : α → β → Bool) : List α → List β → Bool
  | [], _ => true
  | _ :: _, [] => false
  | a :: as, b :: bs => if p a b then greedyMatch p as bs else greedyMatch p (a :: as) bs

theorem greedyMatch_iff (p : α → β → Bool) (as : List α) (bs : List β) :
    greedyMatch p as bs = true ↔ List.SublistForall₂ (fun a b => p a b = true) as bs := by
  induction bs generalizing as with
  | nil =>
    cases as with
    | nil => exact iff_of_true rfl .nil
    | cons a as =>
      refine iff_of_false Bool.false_ne_true (fun h => ?_)
      exact absurd (matching_length h) (Nat.not_succ_le_zero _)
  | cons b bs ih =>
    cases as with
    | nil => exact iff_of_true rfl .nil
    | cons a as =>
      rw [greedyMatch]
      by_cases hab : p a b = true
      · rw [if_pos hab, ih]
        exact (matching_cons_of_rel (R := fun a b => p a b = true) hab).symm
      · rw [if_neg hab, ih]
        exact (matching_cons_of_not_rel (R := fun a b => p a b = true) hab).symm

theorem greedyMatch_of_length_lt (p : α → β → Bool) (h : bs.length < as.length) :
    greedyMatch p as bs = false := by
  rw [Bool.eq_false_iff]
  intro htrue
  exact absurd (matching_length ((greedyMatch_iff p as bs).mp htrue)) (by omega)

end Matching

end Namecoin
