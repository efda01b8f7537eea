import Mathlib

namespace OrderedMap

open Std (ExtTreeMap ExtTreeSet TreeMap)

section Scan

variable {α : Type}

theorem dropWhile_eq_filter {p : α → Bool} {l : List α}
    (h : l.Pairwise (fun x y => p y = true → p x = true)) :
    l.dropWhile p = l.filter (fun x => !p x) := by
  induction l with
  | nil => rfl
  | cons x l ih =>
    obtain ⟨hx, hl⟩ := List.pairwise_cons.mp h
    cases hp : p x with
    | true => simp [hp, ih hl]
    | false =>
      have hall : l.filter (fun y => !p y) = l := by
        apply List.filter_eq_self.mpr
        intro y hy
        cases hpy : p y with
        | true => exact absurd (hx y hy hpy) (by simp [hp])
        | false => rfl
      simp [hp, hall]

theorem takeWhile_eq_filter {p : α → Bool} {l : List α}
    (h : l.Pairwise (fun x y => p y = true → p x = true)) : l.takeWhile p = l.filter p := by
  induction l with
  | nil => rfl
  | cons x l ih =>
    obtain ⟨hx, hl⟩ := List.pairwise_cons.mp h
    cases hp : p x with
    | true => simp [hp, ih hl]
    | false =>
      have hnone : l.filter p = [] := by
        apply List.filter_eq_nil_iff.mpr
        intro y hy hpy
        exact absurd (hx y hy hpy) (by simp [hp])
      simp [hp, hnone]

theorem range_eq_filter {below inside : α → Bool} {l : List α}
    (hbelow : l.Pairwise (fun x y => below y = true → below x = true))
    (hinside : l.Pairwise (fun x y => inside y = true → below x = true ∨ inside x = true))
    (hdisjoint : ∀ x ∈ l, inside x = true → below x = false) :
    (l.dropWhile below).takeWhile inside = l.filter inside := by
  have hsub : (l.filter (fun x => !below x)).Pairwise
      (fun x y => inside y = true → inside x = true) := by
    apply (List.Pairwise.filter _ hinside).imp_of_mem
    intro x y hx _ hxy hy
    have hnot : below x = false := by simpa using (List.mem_filter.mp hx).2
    rcases hxy hy with hb | hi
    · exact absurd hb (by simp [hnot])
    · exact hi
  rw [dropWhile_eq_filter hbelow, takeWhile_eq_filter hsub, List.filter_filter]
  apply List.filter_congr
  intro x hx
  cases hi : inside x with
  | true => simp [hdisjoint x hx hi]
  | false => rfl

end Scan

section Lex

variable {α : Type} [Ord α] [Std.LawfulEqOrd α]

theorem compare_append_left (p a b : List α) : compare (p ++ a) (p ++ b) = compare a b := by
  induction p with
  | nil => rfl
  | cons x p ih =>
    have hself : compare x x = .eq := Std.ReflCmp.compare_self
    rw [List.cons_append, List.cons_append, List.compare_cons_cons, hself, ih]
    rfl

theorem isPrefix_of_between {p s t x : List α} (hlow : compare x (p ++ s) ≠ .lt)
    (hhigh : compare x (p ++ t) = .lt) : p <+: x := by
  induction p generalizing x with
  | nil => exact List.nil_prefix
  | cons c p ih =>
    cases x with
    | nil => exact absurd rfl hlow
    | cons d x =>
      simp only [List.cons_append, List.compare_cons_cons] at hlow hhigh
      cases hcmp : compare d c with
      | lt => exact absurd (by rw [hcmp]; rfl) hlow
      | gt =>
        rw [hcmp] at hhigh
        cases hhigh
      | eq =>
        rw [hcmp] at hlow hhigh
        obtain rfl := Std.LawfulEqCmp.compare_eq_iff_eq.mp hcmp
        obtain ⟨rest, hrest⟩ := ih hlow hhigh
        exact ⟨rest, by rw [← hrest, List.cons_append]⟩

end Lex

section Insert

variable {α K V : Type} {cmp : K → K → Ordering} [Std.TransCmp cmp] [Std.LawfulEqCmp cmp]
  {key : α → K} {value : α → V}

theorem getElem?_insertAll_of_ne {l : List α} {k : K} (h : ∀ a ∈ l, key a ≠ k)
    (m : TreeMap K V cmp) :
    (l.foldl (fun m a => m.insert (key a) (value a)) m)[k]? = m[k]? := by
  induction l generalizing m with
  | nil => rfl
  | cons a l ih =>
    obtain ⟨ha, hl⟩ := List.forall_mem_cons.mp h
    have hne : cmp (key a) k ≠ .eq := fun heq => ha (Std.LawfulEqCmp.compare_eq_iff_eq.mp heq)
    rw [List.foldl_cons, ih hl, TreeMap.getElem?_insert, if_neg hne]

theorem getElem?_insertAll_of_mem {l : List α} (hd : l.Pairwise (fun a b => key a ≠ key b))
    {a : α} (ha : a ∈ l) (m : TreeMap K V cmp) :
    (l.foldl (fun m a => m.insert (key a) (value a)) m)[key a]? = some (value a) := by
  induction l generalizing m with
  | nil => cases ha
  | cons b l ih =>
    obtain ⟨hb, hl⟩ := List.pairwise_cons.mp hd
    rw [List.foldl_cons]
    rcases List.mem_cons.mp ha with rfl | hin
    · have hne : ∀ c ∈ l, key c ≠ key a := fun c hc heq => hb c hc heq.symm
      rw [getElem?_insertAll_of_ne hne, TreeMap.getElem?_insert_self]
    · exact ih hl hin _

end Insert

section InsertSome

variable {α K V : Type} {cmp : K → K → Ordering} [Std.TransCmp cmp] [Std.LawfulEqCmp cmp]

def insertSome (f : α → Option K) (l : List α) (s : ExtTreeSet K cmp) : ExtTreeSet K cmp :=
  l.foldl (fun s x => match f x with | some k => s.insert k | none => s) s

theorem mem_insertSome {f : α → Option K} {l : List α} {s : ExtTreeSet K cmp} {k : K} :
    k ∈ insertSome f l s ↔ k ∈ s ∨ ∃ x ∈ l, f x = some k := by
  induction l generalizing s with
  | nil => simp [insertSome]
  | cons x l ih =>
    rw [insertSome, List.foldl_cons]
    refine ih.trans ?_
    cases hx : f x with
    | none => simp [hx]
    | some y =>
      simp only [ExtTreeSet.mem_insert, Std.LawfulEqCmp.compare_eq_iff_eq, List.mem_cons,
        exists_eq_or_imp, hx, Option.some.injEq]
      tauto

theorem getElem?_insertEach {l : List K} {v v' : V} {m : ExtTreeMap K V cmp} {k : K} :
    (l.foldl (fun m k => m.insert k v) m)[k]? = some v' ↔
      (k ∈ l ∧ v' = v) ∨ (k ∉ l ∧ m[k]? = some v') := by
  induction l generalizing m with
  | nil => simp
  | cons x l ih =>
    rw [List.foldl_cons, ih, ExtTreeMap.getElem?_insert, List.mem_cons]
    by_cases hx : x = k
    · subst hx
      rw [if_pos Std.ReflCmp.compare_self]
      simp only [Option.some.injEq, true_or, true_and, not_true_eq_false, false_and, or_false]
      constructor
      · rintro (⟨-, rfl⟩ | ⟨-, rfl⟩)
        · rfl
        · rfl
      · rintro rfl
        rcases Classical.em (x ∈ l) with hin | hout
        · exact .inl ⟨hin, rfl⟩
        · exact .inr ⟨hout, rfl⟩
    · have hkx : k ≠ x := fun heq => hx heq.symm
      rw [if_neg (fun heq => hx (Std.LawfulEqCmp.compare_eq_iff_eq.mp heq))]
      simp only [hkx, false_or]

end InsertSome

section Rebuild

variable {K V : Type} {cmp : K → K → Ordering} [Std.TransCmp cmp] [Std.LawfulEqCmp cmp]

def rebuild (l : List (K × V)) (m : ExtTreeMap K V cmp) : ExtTreeMap K V cmp :=
  l.foldl (fun m p => m.insertIfNew p.1 p.2) m

theorem getElem?_rebuild_of_ne {l : List (K × V)} {k : K} (h : ∀ p ∈ l, p.1 ≠ k)
    (m : ExtTreeMap K V cmp) : (rebuild l m)[k]? = m[k]? := by
  induction l generalizing m with
  | nil => rfl
  | cons p l ih =>
    obtain ⟨hp, hl⟩ := List.forall_mem_cons.mp h
    have hne : cmp p.1 k ≠ .eq := fun heq => hp (Std.LawfulEqCmp.compare_eq_iff_eq.mp heq)
    rw [rebuild, List.foldl_cons]
    refine (ih hl _).trans ?_
    rw [ExtTreeMap.getElem?_insertIfNew, if_neg (fun h => hne h.1)]

theorem getElem?_rebuild_of_mem {l : List (K × V)} (hd : l.Pairwise (fun a b => a.1 ≠ b.1))
    {p : K × V} (hp : p ∈ l) {m : ExtTreeMap K V cmp} (hm : p.1 ∉ m) :
    (rebuild l m)[p.1]? = some p.2 := by
  induction l generalizing m with
  | nil => cases hp
  | cons q l ih =>
    obtain ⟨hq, hl⟩ := List.pairwise_cons.mp hd
    rw [rebuild, List.foldl_cons]
    rcases List.mem_cons.mp hp with rfl | hin
    · have hne : ∀ r ∈ l, r.1 ≠ p.1 := fun r hr heq => hq r hr heq.symm
      refine (getElem?_rebuild_of_ne hne _).trans ?_
      rw [ExtTreeMap.getElem?_insertIfNew, if_pos ⟨Std.ReflCmp.compare_self, hm⟩]
    · refine ih hl hin ?_
      rw [ExtTreeMap.mem_insertIfNew]
      rintro (heq | hmem)
      · exact hq p hin (Std.LawfulEqCmp.compare_eq_iff_eq.mp heq)
      · exact hm hmem

theorem rebuild_toList (m : ExtTreeMap K V cmp) : rebuild m.toList ∅ = m := by
  have hd : m.toList.Pairwise (fun a b => a.1 ≠ b.1) := by
    apply (ExtTreeMap.distinct_keys_toList (t := m)).imp
    intro a b hne heq
    exact hne (Std.LawfulEqCmp.compare_eq_iff_eq.mpr heq)
  apply ExtTreeMap.ext_getElem?
  intro k
  cases hget : m[k]? with
  | some v =>
    exact getElem?_rebuild_of_mem hd (ExtTreeMap.mem_toList_iff_getElem?_eq_some.mpr hget)
      ExtTreeMap.not_mem_empty
  | none =>
    have hne : ∀ p ∈ m.toList, p.1 ≠ k := by
      rintro ⟨k', v⟩ hp rfl
      rw [ExtTreeMap.mem_toList_iff_getElem?_eq_some.mp hp] at hget
      cases hget
    rw [getElem?_rebuild_of_ne hne, ExtTreeMap.getElem?_empty]

end Rebuild

theorem sum_map_sub {α M : Type} [AddCommGroup M] (f g : α → M) (l : List α) :
    (l.map (fun a => f a - g a)).sum = (l.map f).sum - (l.map g).sum := by
  induction l with
  | nil => simp
  | cons a l ih =>
    simp only [List.map_cons, List.sum_cons, ih]
    abel

section Sum

variable {K V M : Type} [AddCommMonoid M] {f : V → M} {k : K} {v : V}

theorem sum_filter_hit [BEq K] [LawfulBEq K] {l : List (K × V)}
    (hd : l.Pairwise (fun a b => a.1 ≠ b.1)) (hm : (k, v) ∈ l) :
    (l.map (fun p => f p.2)).sum =
      f v + ((l.filter (fun p => ¬k == p.1)).map (fun p => f p.2)).sum := by
  induction l with
  | nil => cases hm
  | cons q l ih =>
    obtain ⟨hq, hl⟩ := List.pairwise_cons.mp hd
    rcases List.mem_cons.mp hm with rfl | hin
    · have hall : l.filter (fun p => ¬k == p.1) = l := by
        apply List.filter_eq_self.mpr
        intro p hp
        simpa using hq p hp
      rw [List.map_cons, List.sum_cons, List.filter_cons_of_neg (by simp), hall]
    · have hne : k ≠ q.1 := fun heq => hq _ hin heq.symm
      rw [List.map_cons, List.sum_cons, List.filter_cons_of_pos (by simpa using hne), List.map_cons,
        List.sum_cons, ih hl hin, add_left_comm]

theorem sum_lookup [DecidableEq K] {value : K → M} {l : List (K × M)} {ks : List K}
    (hd : (l.map Prod.fst).Nodup) (hks : ks.Nodup) (hval : ∀ p ∈ l, value p.1 = p.2)
    (hout : ∀ k, k ∉ l.map Prod.fst → value k = 0) :
    (ks.map value).sum = (l.map (fun p => if p.1 ∈ ks then p.2 else 0)).sum := by
  have hmap : l.map (fun p => if p.1 ∈ ks then p.2 else 0) =
      (l.map Prod.fst).map (fun k => if k ∈ ks then value k else 0) := by
    rw [List.map_map]
    apply List.map_congr_left
    intro p hp
    simp only [Function.comp, hval p hp]
  rw [hmap, ← List.sum_toFinset _ hd, ← List.sum_toFinset _ hks, ← Finset.sum_filter]
  symm
  apply Finset.sum_subset
  · intro k hk
    exact List.mem_toFinset.mpr (Finset.mem_filter.mp hk).2
  · intro k hk hnot
    apply hout
    intro hmem
    exact hnot (Finset.mem_filter.mpr ⟨List.mem_toFinset.mpr hmem, List.mem_toFinset.mp hk⟩)

variable {cmp : K → K → Ordering} [Std.TransCmp cmp] [Std.LawfulEqCmp cmp]

def mapSum (f : V → M) (m : TreeMap K V cmp) : M := (m.toList.map (fun p => f p.2)).sum

theorem distinct_keys (m : TreeMap K V cmp) : m.toList.Pairwise (fun a b => a.1 ≠ b.1) := by
  apply (TreeMap.distinct_keys_toList (t := m)).imp
  intro a b hne heq
  exact hne (Std.LawfulEqCmp.compare_eq_iff_eq.mpr heq)

theorem mapSum_insert [BEq K] [LawfulBEq K] (m : TreeMap K V cmp) :
    mapSum f (m.insert k v) + ((m[k]?).map f).getD 0 = mapSum f m + f v := by
  unfold mapSum
  rw [((TreeMap.toList_insert_perm (t := m)).map _).sum_eq, List.map_cons, List.sum_cons]
  cases hget : m[k]? with
  | none =>
    have hall : m.toList.filter (fun p => ¬k == p.1) = m.toList := by
      apply List.filter_eq_self.mpr
      intro p hp
      have hp' := TreeMap.mem_toList_iff_getElem?_eq_some.mp hp
      simp only [beq_iff_eq, decide_eq_true_eq]
      intro heq
      rw [← heq, hget] at hp'
      cases hp'
    rw [hall, Option.map_none, Option.getD_none, add_zero, add_comm]
  | some old =>
    have hm := TreeMap.mem_toList_iff_getElem?_eq_some.mpr hget
    rw [sum_filter_hit (distinct_keys m) hm, Option.map_some, Option.getD_some]
    abel

end Sum

end OrderedMap
