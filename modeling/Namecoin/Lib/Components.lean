import Mathlib

namespace Components

open Relation

variable {α : Type*} {F P : Set (Set α)} {g h : Set α} {a b : α}

def Together (F : Set (Set α)) (a b : α) : Prop := ∃ g ∈ F, a ∈ g ∧ b ∈ g

def hits (P : Set (Set α)) (g : Set α) : Set (Set α) := {h | h ∈ P ∧ ∃ a ∈ g, a ∈ h}

def absorb (P : Set (Set α)) (g : Set α) : Set α := g ∪ ⋃₀ hits P g

def merge (P : Set (Set α)) (g : Set α) : Set (Set α) := insert (absorb P g) (P \ hits P g)

structure Classes (F P : Set (Set α)) : Prop where
  nonempty : ∀ h ∈ P, h.Nonempty
  disjoint : ∀ h ∈ P, ∀ k ∈ P, ∀ a ∈ h, a ∈ k → h = k
  covers : ∀ a, (∃ h ∈ P, a ∈ h) ↔ ∃ g ∈ F, a ∈ g
  linked : ∀ h ∈ P, ∀ a ∈ h, ∀ b ∈ h, ReflTransGen (Together F) a b
  closed : ∀ h ∈ P, ∀ a ∈ h, ∀ b, Together F a b → b ∈ h

theorem Together.mono (h : Together F a b) : Together (insert g F) a b := by
  obtain ⟨k, hk, hab⟩ := h
  exact ⟨k, Set.mem_insert_of_mem g hk, hab⟩

theorem linked_mono (h : ReflTransGen (Together F) a b) :
    ReflTransGen (Together (insert g F)) a b :=
  ReflTransGen.mono (fun _ _ => Together.mono) a b h

theorem Classes.empty : Classes (∅ : Set (Set α)) ∅ where
  nonempty := by simp
  disjoint := by simp
  covers := by simp
  linked := by simp
  closed := by simp

namespace Classes

theorem mem_iff (c : Classes F P) (hh : h ∈ P) (ha : a ∈ h) :
    b ∈ h ↔ ReflTransGen (Together F) a b := by
  constructor
  · intro hb
    exact c.linked h hh a ha b hb
  · intro hab
    induction hab with
    | refl => exact ha
    | tail _ hstep ih => exact c.closed h hh _ ih _ hstep

theorem same_iff (c : Classes F P) :
    (∃ h ∈ P, a ∈ h ∧ b ∈ h) ↔ (∃ g ∈ F, a ∈ g) ∧ ReflTransGen (Together F) a b := by
  rw [← c.covers]
  constructor
  · rintro ⟨h, hh, ha, hb⟩
    exact ⟨⟨h, hh, ha⟩, c.linked h hh a ha b hb⟩
  · rintro ⟨⟨h, hh, ha⟩, hab⟩
    exact ⟨h, hh, ha, (c.mem_iff hh ha).mpr hab⟩

theorem mem_absorb : a ∈ absorb P g ↔ a ∈ g ∨ ∃ h ∈ P, (∃ x ∈ g, x ∈ h) ∧ a ∈ h := by
  unfold absorb hits
  constructor
  · rintro (ha | ⟨h, ⟨hh, hx⟩, ha⟩)
    · exact .inl ha
    · exact .inr ⟨h, hh, hx, ha⟩
  · rintro (ha | ⟨h, hh, hx, ha⟩)
    · exact .inl ha
    · exact .inr ⟨h, ⟨hh, hx⟩, ha⟩

theorem absorb_linked (c : Classes F P) (ha : a ∈ absorb P g) :
    ∃ x ∈ g, ReflTransGen (Together F) a x ∧ ReflTransGen (Together F) x a := by
  rcases mem_absorb.mp ha with ha | ⟨h, hh, ⟨x, hx, hxh⟩, ha⟩
  · exact ⟨a, ha, .refl, .refl⟩
  · exact ⟨x, hx, c.linked h hh a ha x hxh, c.linked h hh x hxh a ha⟩

theorem merge (c : Classes F P) (hg : g.Nonempty) : Classes (insert g F) (merge P g) where
  nonempty := by
    rintro h (rfl | ⟨hh, -⟩)
    · exact hg.mono Set.subset_union_left
    · exact c.nonempty h hh
  disjoint := by
    have hapart : ∀ h ∈ P \ hits P g, ∀ a ∈ absorb P g, a ∉ h := by
      rintro h ⟨hh, hmiss⟩ a ha hah
      rcases mem_absorb.mp ha with ha | ⟨k, hk, hx, ha⟩
      · exact hmiss ⟨hh, a, ha, hah⟩
      · obtain rfl := c.disjoint k hk h hh a ha hah
        exact hmiss ⟨hh, hx⟩
    rintro h (rfl | hh) k (rfl | hk) a ha hak
    · rfl
    · exact absurd hak (hapart k hk a ha)
    · exact absurd ha (hapart h hh a hak)
    · exact c.disjoint h hh.1 k hk.1 a ha hak
  covers := by
    intro a
    constructor
    · rintro ⟨h, rfl | ⟨hh, -⟩, ha⟩
      · rcases mem_absorb.mp ha with ha | ⟨k, hk, -, ha⟩
        · exact ⟨g, Set.mem_insert g F, ha⟩
        · obtain ⟨g', hg', ha'⟩ := (c.covers a).mp ⟨k, hk, ha⟩
          exact ⟨g', Set.mem_insert_of_mem g hg', ha'⟩
      · obtain ⟨g', hg', ha'⟩ := (c.covers a).mp ⟨h, hh, ha⟩
        exact ⟨g', Set.mem_insert_of_mem g hg', ha'⟩
    · rintro ⟨g', rfl | hg', ha⟩
      · exact ⟨absorb P g', Set.mem_insert _ _, mem_absorb.mpr (.inl ha)⟩
      · obtain ⟨h, hh, ha'⟩ := (c.covers a).mpr ⟨g', hg', ha⟩
        rcases Classical.em (h ∈ hits P g) with hhit | hmiss
        · exact ⟨absorb P g, Set.mem_insert _ _, mem_absorb.mpr (.inr ⟨h, hh, hhit.2, ha'⟩)⟩
        · exact ⟨h, Set.mem_insert_of_mem _ ⟨hh, hmiss⟩, ha'⟩
  linked := by
    rintro h (rfl | ⟨hh, -⟩) a ha b hb
    · obtain ⟨x, hx, hax, -⟩ := c.absorb_linked ha
      obtain ⟨y, hy, -, hyb⟩ := c.absorb_linked hb
      have hxy : Together (insert g F) x y := ⟨g, Set.mem_insert g F, hx, hy⟩
      exact (linked_mono hax).trans (.head hxy (linked_mono hyb))
    · exact linked_mono (c.linked h hh a ha b hb)
  closed := by
    rintro h (rfl | ⟨hh, hmiss⟩) a ha b ⟨g', rfl | hg', hag, hbg⟩
    · exact mem_absorb.mpr (.inl hbg)
    · -- the class of a is one that g hits, whether a lies in g itself or in a class hit by g
      obtain ⟨k, hk, hx, hak⟩ : ∃ k ∈ P, (∃ x ∈ g, x ∈ k) ∧ a ∈ k := by
        rcases mem_absorb.mp ha with hag' | hin
        · obtain ⟨k, hk, hak⟩ := (c.covers a).mpr ⟨g', hg', hag⟩
          exact ⟨k, hk, ⟨a, hag', hak⟩, hak⟩
        · exact hin
      exact mem_absorb.mpr (.inr ⟨k, hk, hx, c.closed k hk a hak b ⟨g', hg', hag, hbg⟩⟩)
    · exact absurd ⟨hh, a, hag, ha⟩ hmiss
    · exact c.closed h hh a ha b ⟨g', hg', hag, hbg⟩

end Classes

theorem linked_or_eq {r s : α → α → Prop} (hrs : ∀ a b, r a b → s a b)
    (hsr : ∀ a b, s a b → r a b ∨ a = b) : ReflTransGen s a b ↔ ReflTransGen r a b := by
  constructor
  · intro h
    induction h with
    | refl => exact .refl
    | tail _ hstep ih =>
      rcases hsr _ _ hstep with hr | rfl
      · exact ih.tail hr
      · exact ih
  · exact ReflTransGen.mono hrs a b

end Components
