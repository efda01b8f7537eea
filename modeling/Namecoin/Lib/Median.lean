import Mathlib

namespace Median

variable {α : Type*} [LinearOrder α]

structure IsMedian (m : α) (l : List α) : Prop where
  mem : m ∈ l
  below : 2 * l.countP (fun a => decide (a < m)) < l.length
  above : 2 * l.countP (fun a => decide (m < a)) < l.length

variable {m b : α} {l l' : List α}

theorem IsMedian.perm (h : IsMedian m l) (hp : l.Perm l') : IsMedian m l' where
  mem := hp.mem_iff.mp h.mem
  below := by
    rw [← hp.countP_eq, ← hp.length_eq]
    exact h.below
  above := by
    rw [← hp.countP_eq, ← hp.length_eq]
    exact h.above

theorem countP_le_split (l : List α) (m : α) :
    l.countP (fun a => decide (a ≤ m)) + l.countP (fun a => decide (m < a)) = l.length := by
  have hsplit := List.length_eq_countP_add_countP (fun a => decide (a ≤ m)) (l := l)
  have hnot : l.countP (fun a => decide ¬decide (a ≤ m) = true) =
      l.countP (fun a => decide (m < a)) := by
    refine List.countP_congr fun a _ => ?_
    rw [decide_eq_true_eq, decide_eq_true_eq, decide_eq_true_eq, not_le]
  rw [← hnot]
  exact hsplit.symm

theorem IsMedian.eq_bottom_iff (h : IsMedian m l) (hb : ∀ a ∈ l, b ≤ a) :
    m = b ↔ l.length < 2 * l.count b := by
  have hcount : l.countP (fun a => decide (a ≤ b)) = l.count b := by
    rw [List.count]
    refine List.countP_congr fun a ha => ?_
    rw [decide_eq_true_eq, beq_iff_eq]
    exact ⟨fun hle => le_antisymm hle (hb a ha), fun heq => heq.le⟩
  constructor
  · rintro rfl
    have hsplit := countP_le_split l m
    have habove := h.above
    rw [hcount] at hsplit
    omega
  · intro hmany
    by_contra hne
    have hlt : b < m := lt_of_le_of_ne (hb m h.mem) (Ne.symm hne)
    have hless : l.countP (fun a => decide (a ≤ b)) ≤ l.countP (fun a => decide (a < m)) := by
      refine List.countP_mono_left fun a _ ha => ?_
      rw [decide_eq_true_eq] at ha ⊢
      exact ha.trans_lt hlt
    have hbelow := h.below
    omega

theorem isMedian_of_sorted (hs : l.Pairwise (· ≤ ·)) (hodd : l.length % 2 = 1)
    (hm : l[l.length / 2]? = some m) : IsMedian m l := by
  obtain ⟨hlt, hget⟩ := List.getElem?_eq_some_iff.mp hm
  have hsplit : l = l.take (l.length / 2) ++ m :: l.drop (l.length / 2 + 1) := by
    rw [← hget, List.cons_getElem_drop_succ, List.take_append_drop]
  have hpair := hs
  rw [hsplit, List.pairwise_append, List.pairwise_cons] at hpair
  obtain ⟨-, ⟨hafter, -⟩, hbefore⟩ := hpair
  have hbelow : (m :: l.drop (l.length / 2 + 1)).countP (fun a => decide (a < m)) = 0 := by
    rw [List.countP_eq_zero]
    intro a ha
    rw [decide_eq_true_eq, not_lt]
    rcases List.mem_cons.mp ha with rfl | hrest
    · exact le_rfl
    · exact hafter a hrest
  have habove : (l.take (l.length / 2)).countP (fun a => decide (m < a)) = 0 := by
    rw [List.countP_eq_zero]
    intro a ha
    rw [decide_eq_true_eq, not_lt]
    exact hbefore a ha m List.mem_cons_self
  have htake := List.countP_le_length (p := fun a => decide (a < m)) (l := l.take (l.length / 2))
  have hdrop := List.countP_le_length (p := fun a => decide (m < a))
    (l := l.drop (l.length / 2 + 1))
  rw [List.length_take] at htake
  rw [List.length_drop] at hdrop
  refine ⟨List.mem_of_getElem? hm, ?_, ?_⟩
  · rw [hsplit, List.countP_append, hbelow, ← hsplit]
    omega
  · rw [hsplit, List.countP_append, habove, List.countP_cons_of_neg (by simp), ← hsplit]
    omega

theorem isMedian_sort (hodd : l.length % 2 = 1)
    (hm : (l.insertionSort (· ≤ ·))[l.length / 2]? = some m) : IsMedian m l := by
  have hperm := List.perm_insertionSort (· ≤ ·) l
  refine IsMedian.perm (isMedian_of_sorted (List.pairwise_insertionSort (· ≤ ·) l) ?_ ?_) hperm
  · rwa [hperm.length_eq]
  · rwa [hperm.length_eq]

theorem countP_lt_sorted {k : Nat} (hm : (l.insertionSort (· ≤ ·))[k]? = some m) :
    l.countP (fun a => decide (a < m)) ≤ k := by
  have hpair := List.pairwise_insertionSort (· ≤ ·) l
  obtain ⟨hlt, hget⟩ := List.getElem?_eq_some_iff.mp hm
  rw [← List.take_append_drop k (l.insertionSort (· ≤ ·)), ← List.cons_getElem_drop_succ (h := hlt),
    hget, List.pairwise_append, List.pairwise_cons] at hpair
  have hafter : (m :: (l.insertionSort (· ≤ ·)).drop (k + 1)).countP (fun a => decide (a < m)) = 0 := by
    rw [List.countP_eq_zero]
    intro a ha
    rw [decide_eq_true_eq, not_lt]
    rcases List.mem_cons.mp ha with rfl | hrest
    · exact le_rfl
    · exact hpair.2.1.1 a hrest
  have hbefore := List.countP_le_length (p := fun a => decide (a < m))
    (l := (l.insertionSort (· ≤ ·)).take k)
  have htake := List.length_take_le k (l.insertionSort (· ≤ ·))
  rw [← (List.perm_insertionSort (· ≤ ·) l).countP_eq,
    ← List.take_append_drop k (l.insertionSort (· ≤ ·)), List.countP_append,
    ← List.cons_getElem_drop_succ (h := hlt), hget, hafter]
  omega

theorem le_sorted {k : Nat} (hb : (l.insertionSort (· ≤ ·))[k]? = some b)
    (hcount : l.countP (fun a => decide (a < m)) ≤ k) : m ≤ b := by
  by_contra hlt
  rw [not_le] at hlt
  have hpair := List.pairwise_insertionSort (· ≤ ·) l
  obtain ⟨hk, hget⟩ := List.getElem?_eq_some_iff.mp hb
  have hall : ∀ a ∈ (l.insertionSort (· ≤ ·)).take (k + 1), a < m := by
    intro a ha
    rw [List.take_add_one, hb, Option.toList_some, List.mem_append, List.mem_singleton] at ha
    rcases ha with hbefore | rfl
    · rw [← List.take_append_drop k (l.insertionSort (· ≤ ·)),
        ← List.cons_getElem_drop_succ (h := hk), hget, List.pairwise_append] at hpair
      exact (hpair.2.2 a hbefore b List.mem_cons_self).trans_lt hlt
    · exact hlt
  have hsub := (List.take_sublist (k + 1) (l.insertionSort (· ≤ ·))).countP_le
    (p := fun a => decide (a < m))
  rw [List.countP_eq_length.mpr (fun a ha => decide_eq_true (hall a ha)), List.length_take,
    (List.perm_insertionSort (· ≤ ·) l).countP_eq] at hsub
  omega

end Median
