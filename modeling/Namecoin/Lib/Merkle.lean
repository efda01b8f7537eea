import Mathlib

namespace Merkle

variable {α : Type*} (node : α → α → α)

def orient (right : Bool) (other h : α) : α × α := if right then (other, h) else (h, other)

def climb (h : α) : List (Bool × α) → α
  | [] => h
  | (right, other) :: rest => climb (Function.uncurry node (orient right other h)) rest

def combined (h : α) : List (Bool × α) → List (α × α)
  | [] => []
  | (right, other) :: rest =>
    orient right other h :: combined (Function.uncurry node (orient right other h)) rest

theorem orient_leaf {right : Bool} {other other' h h' : α}
    (heq : orient right other h = orient right other' h') : h = h' := by
  cases right with
  | true => exact congrArg Prod.snd heq
  | false => exact congrArg Prod.fst heq

theorem climb_injOn {h h' : α} {p p' : List (Bool × α)} (hsides : p.map Prod.fst = p'.map Prod.fst)
    (hinj : Set.InjOn (Function.uncurry node) {x | x ∈ combined node h p ∨ x ∈ combined node h' p'})
    (heq : climb node h p = climb node h' p') : h = h' := by
  induction p generalizing h h' p' with
  | nil =>
    cases p' with
    | nil => exact heq
    | cons _ _ => simp at hsides
  | cons e p ih =>
    cases p' with
    | nil => simp at hsides
    | cons e' p' =>
      obtain ⟨right, other⟩ := e
      obtain ⟨right', other'⟩ := e'
      simp only [List.map_cons, List.cons.injEq] at hsides
      obtain ⟨rfl, hrest⟩ := hsides
      have habove : Function.uncurry node (orient right other h) =
          Function.uncurry node (orient right other' h') := by
        refine ih hrest (hinj.mono ?_) heq
        rintro x (hx | hx)
        · exact .inl (List.mem_cons_of_mem _ hx)
        · exact .inr (List.mem_cons_of_mem _ hx)
      exact orient_leaf (hinj (.inl List.mem_cons_self) (.inr List.mem_cons_self) habove)

def level : List α → List α
  | [] => []
  | [a] => [node a a]
  | a :: b :: rest => node a b :: level rest

def levels : Nat → List α → List (List α)
  | 0, l => [l]
  | fuel + 1, l => if l.length ≤ 1 then [l] else l :: levels fuel (level node l)

def sibling (i n : Nat) : Nat := min (i ^^^ 1) (n - 1)

def opening : List (List α) → Nat → List (Bool × α)
  | [], _ => []
  | l :: rest, i =>
    if l.length ≤ 1 then []
    else match l[sibling i l.length]? with
      | some other => (i % 2 == 1, other) :: opening rest (i / 2)
      | none => []

theorem level_length (l : List α) : (level node l).length = (l.length + 1) / 2 := by
  induction l using level.induct with
  | case1 => simp [level]
  | case2 a => simp [level]
  | case3 a b rest ih =>
    simp only [level, List.length_cons, ih]
    omega

theorem level_getElem (l : List α) (i : Nat) (hi : i < l.length) :
    (level node l)[i / 2]? =
      (l[2 * (i / 2)]?.bind fun a => l[min (2 * (i / 2) + 1) (l.length - 1)]?.map (node a)) := by
  induction l using level.induct generalizing i with
  | case1 => simp at hi
  | case2 a =>
    obtain rfl : i = 0 := by simpa using hi
    simp [level]
  | case3 a b rest ih =>
    by_cases hlow : i < 2
    · have hzero : i / 2 = 0 := by omega
      simp [hzero, level]
    · obtain ⟨k, rfl⟩ : ∃ k, i = k + 2 := ⟨i - 2, by omega⟩
      have hk : k < rest.length := by simp at hi; omega
      have hhalf : (k + 2) / 2 = k / 2 + 1 := by omega
      have hleft : 2 * (k / 2 + 1) = 2 * (k / 2) + 1 + 1 := by omega
      have hright : min (2 * (k / 2) + 1 + 1 + 1) ((a :: b :: rest).length - 1) =
          min (2 * (k / 2) + 1) (rest.length - 1) + 1 + 1 := by
        simp only [List.length_cons]
        omega
      rw [hhalf, hleft, hright]
      simpa only [level, List.getElem?_cons_succ] using ih k hk

theorem sibling_lt {i n : Nat} (hn : 0 < n) : sibling i n < n := by
  unfold sibling
  omega

theorem xor_one (i : Nat) : i ^^^ 1 = if i % 2 = 1 then i - 1 else i + 1 := by
  split
  · next h => exact Nat.xor_one_of_odd (Nat.odd_iff.mpr h)
  · next h => exact Nat.xor_one_of_even (Nat.even_iff.mpr (by omega))

theorem level_orient {l : List α} {i : Nat} {a other : α} (ha : l[i]? = some a)
    (hother : l[sibling i l.length]? = some other) :
    (level node l)[i / 2]? = some (Function.uncurry node (orient (i % 2 == 1) other a)) := by
  have hi : i < l.length := by
    obtain ⟨h, -⟩ := List.getElem?_eq_some_iff.mp ha
    exact h
  rw [level_getElem node l i hi]
  by_cases hodd : i % 2 = 1
  · have hself : min (2 * (i / 2) + 1) (l.length - 1) = i := by omega
    have hsib : sibling i l.length = 2 * (i / 2) := by
      rw [sibling, xor_one, if_pos hodd]
      omega
    rw [hsib] at hother
    simp [hself, hother, ha, hodd, orient, Function.uncurry]
  · have hself : 2 * (i / 2) = i := by omega
    have hsib : sibling i l.length = min (i + 1) (l.length - 1) := by
      rw [sibling, xor_one, if_neg hodd]
    rw [hsib] at hother
    simp [hself, hother, ha, hodd, orient, Function.uncurry]

theorem climb_single {l : List α} {i : Nat} {a : α} (hle : l.length ≤ 1)
    (ha : l[i]? = some a) : [l].flatten.getLast? = some (climb node a (opening [l] i)) := by
  obtain ⟨hi, -⟩ := List.getElem?_eq_some_iff.mp ha
  obtain ⟨b, rfl⟩ : ∃ b, l = [b] := List.length_eq_one_iff.mp (by omega)
  obtain rfl : i = 0 := by simpa using hi
  obtain rfl : b = a := by simpa using ha
  simp [opening, climb]

theorem climb_opening {fuel : Nat} {l : List α} {i : Nat} {a : α} (hfuel : l.length ≤ fuel + 1)
    (ha : l[i]? = some a) :
    (levels node fuel l).flatten.getLast? =
      some (climb node a (opening (levels node fuel l) i)) := by
  induction fuel generalizing l i a with
  | zero => exact climb_single node hfuel ha
  | succ fuel ih =>
    by_cases hle : l.length ≤ 1
    · simpa only [levels, if_pos hle] using climb_single node hle ha
    · have hother := List.getElem?_eq_getElem (sibling_lt (i := i) (by omega : 0 < l.length))
      have hlen := level_length node l
      have hrec := ih (by omega) (level_orient node ha hother)
      simp only [levels, if_neg hle, List.flatten_cons, List.getLast?_append, hrec, opening,
        hother, climb, Option.or]

theorem opening_length {fuel : Nat} {l : List α} {i : Nat} (hfuel : l.length ≤ fuel + 1) :
    (opening (levels node fuel l) i).length = Nat.clog 2 l.length := by
  induction fuel generalizing l i with
  | zero =>
    rw [Nat.clog_of_right_le_one hfuel]
    simp [levels, opening, hfuel]
  | succ fuel ih =>
    by_cases hle : l.length ≤ 1
    · rw [Nat.clog_of_right_le_one hle]
      simp [levels, opening, hle]
    · have hother := List.getElem?_eq_getElem (sibling_lt (i := i) (by omega : 0 < l.length))
      have hlen := level_length node l
      have hrec := ih (i := i / 2) (by omega : (level node l).length ≤ fuel + 1)
      have hclog : Nat.clog 2 l.length = Nat.clog 2 ((l.length + 1) / 2) + 1 :=
        Nat.clog_of_two_le (by decide) (by omega)
      simp only [levels, if_neg hle, opening, hother, List.length_cons]
      rw [hrec, hlen, hclog]

section Leaves

variable {node}

def paired : List α → List (α × α)
  | [] => []
  | [a] => [(a, a)]
  | a :: b :: rest => (a, b) :: paired rest

theorem level_paired (l : List α) : level node l = (paired l).map (Function.uncurry node) := by
  induction l using level.induct with
  | case1 => rfl
  | case2 a => rfl
  | case3 a b rest ih => rw [level, paired, List.map_cons, ih, Function.uncurry]

theorem mem_of_paired {l : List α} {p : α × α} (h : p ∈ paired l) : p.1 ∈ l ∧ p.2 ∈ l := by
  induction l using level.induct with
  | case1 => cases h
  | case2 a =>
    obtain rfl := List.mem_singleton.mp h
    simp
  | case3 a b rest ih =>
    rcases List.mem_cons.mp h with rfl | hrest
    · simp
    · obtain ⟨h1, h2⟩ := ih hrest
      simp [h1, h2]

theorem paired_nodup {l : List α} (h : l.Nodup) : (paired l).Nodup := by
  induction l using level.induct with
  | case1 => exact List.nodup_nil
  | case2 a => exact List.nodup_singleton _
  | case3 a b rest ih =>
    obtain ⟨ha, hrest⟩ := List.nodup_cons.mp h
    refine List.nodup_cons.mpr ⟨?_, ih (List.nodup_cons.mp hrest).2⟩
    intro hmem
    exact ha (List.mem_cons_of_mem b (mem_of_paired hmem).1)

theorem paired_inj {l l' : List α} (h : l.Nodup) (h' : l'.Nodup) (heq : paired l = paired l') :
    l = l' := by
  induction l using level.induct generalizing l' with
  | case1 =>
    rcases l' with _ | ⟨a', _ | ⟨b', rest'⟩⟩
    · rfl
    · cases heq
    · cases heq
  | case2 a =>
    rcases l' with _ | ⟨a', _ | ⟨b', rest'⟩⟩
    · cases heq
    · obtain ⟨hpair, -⟩ := List.cons.inj heq
      obtain ⟨rfl, -⟩ := Prod.mk.inj hpair
      rfl
    · obtain ⟨hpair, -⟩ := List.cons.inj heq
      obtain ⟨rfl, rfl⟩ := Prod.mk.inj hpair
      simp at h'
  | case3 a b rest ih =>
    rcases l' with _ | ⟨a', _ | ⟨b', rest'⟩⟩
    · cases heq
    · obtain ⟨hpair, -⟩ := List.cons.inj heq
      obtain ⟨rfl, rfl⟩ := Prod.mk.inj hpair
      simp at h
    · obtain ⟨hpair, hrest⟩ := List.cons.inj heq
      obtain ⟨rfl, rfl⟩ := Prod.mk.inj hpair
      have hl := (List.nodup_cons.mp (List.nodup_cons.mp h).2).2
      have hl' := (List.nodup_cons.mp (List.nodup_cons.mp h').2).2
      rw [ih hl hl' hrest]

variable (node)

def hashed : Nat → List α → List (α × α)
  | 0, _ => []
  | fuel + 1, l => if l.length ≤ 1 then [] else paired l ++ hashed fuel (level node l)

inductive Reaches : List α → List α → Prop
  | refl (l : List α) : Reaches l l
  | up {l m : List α} (hlong : 1 < l.length) (h : Reaches (level node l) m) : Reaches l m

variable {node}

theorem Reaches.trans {l m n : List α} (h : Reaches node l m) (h' : Reaches node m n) :
    Reaches node l n := by
  induction h with
  | refl l => exact h'
  | up hlong _ ih => exact .up hlong (ih h')

theorem Reaches.levels {fuel : Nat} {l : List α} (hne : l ≠ []) (hfuel : l.length ≤ fuel + 1) :
    ∃ r, (levels node fuel l).flatten.getLast? = some r ∧ Reaches node l [r] := by
  have hpos : 0 < l.length := List.length_pos_iff.mpr hne
  have hshort : l.length ≤ 1 → ∃ r, [l].flatten.getLast? = some r ∧ Reaches node l [r] := by
    intro hle
    obtain ⟨r, rfl⟩ := List.length_eq_one_iff.mp (by omega : l.length = 1)
    exact ⟨r, rfl, .refl _⟩
  induction fuel generalizing l with
  | zero => exact hshort hfuel
  | succ fuel ih =>
    by_cases hle : l.length ≤ 1
    · rw [Merkle.levels, if_pos hle]
      exact hshort hle
    · have hlen := level_length node l
      have hnext : level node l ≠ [] := List.length_pos_iff.mp (by omega)
      obtain ⟨r, hlast, hreach⟩ := ih hnext (by omega) (by omega) (by
        intro hone
        obtain ⟨r, hr⟩ := List.length_eq_one_iff.mp (by omega : (level node l).length = 1)
        exact ⟨r, by rw [hr]; rfl, hr ▸ .refl _⟩)
      refine ⟨r, ?_, .up (by omega) hreach⟩
      rw [Merkle.levels, if_neg hle, List.flatten_cons, List.getLast?_append, hlast]
      rfl

theorem Reaches.hashed {fuel : Nat} {l m : List α} {p : α × α} (h : Reaches node l m)
    (hfuel : l.length ≤ fuel + 1) (hlong : 1 < m.length) (hp : p ∈ paired m) :
    p ∈ hashed node fuel l := by
  induction h generalizing fuel with
  | refl l =>
    obtain ⟨fuel, rfl⟩ : ∃ f, fuel = f + 1 := ⟨fuel - 1, by omega⟩
    rw [Merkle.hashed, if_neg (by omega)]
    exact List.mem_append_left _ hp
  | @up l m hl h ih =>
    obtain ⟨fuel, rfl⟩ : ∃ f, fuel = f + 1 := ⟨fuel - 1, by omega⟩
    have hlen := level_length node l
    rw [Merkle.hashed, if_neg (by omega)]
    exact List.mem_append_right _ (ih (by omega) hlong hp)

theorem Reaches.last {l m : List α} (h : Reaches node l m) :
    l = m ∨ ∃ n, Reaches node l n ∧ 1 < n.length ∧ m = level node n := by
  induction h with
  | refl l => exact .inl rfl
  | @up l m hlong h ih =>
    rcases ih with rfl | ⟨n, hn, hlen, rfl⟩
    · exact .inr ⟨l, .refl l, hlong, rfl⟩
    · exact .inr ⟨n, .up hlong hn, hlen, rfl⟩

def Within (node : α → α → α) (S : Set (α × α)) (l : List α) : Prop :=
  ∀ m, Reaches node l m → 1 < m.length → ∀ p ∈ paired m, p ∈ S

theorem Within.level {S : Set (α × α)} {l : List α} (h : Within node S l) (hlong : 1 < l.length) :
    Within node S (level node l) := fun m hm => h m (.up hlong hm)

theorem map_injOn {β : Type*} {f : α → β} {S : Set α} (hinj : Set.InjOn f S) {l l' : List α}
    (hl : ∀ a ∈ l, a ∈ S) (hl' : ∀ a ∈ l', a ∈ S) (heq : l.map f = l'.map f) : l = l' := by
  induction l generalizing l' with
  | nil => exact (List.map_eq_nil_iff.mp heq.symm).symm
  | cons a l ih =>
    cases l' with
    | nil => cases heq
    | cons a' l' =>
      obtain ⟨hhead, htail⟩ := List.cons.inj heq
      rw [List.forall_mem_cons] at hl hl'
      rw [hinj hl.1 hl'.1 hhead, ih hl.2 hl'.2 htail]

section Injective

variable {S : Set (α × α)} (hinj : Set.InjOn (Function.uncurry node) S) {l l' m : List α}

include hinj

theorem level_nodup (h : l.Nodup) (hin : ∀ p ∈ paired l, p ∈ S) : (level node l).Nodup := by
  rw [level_paired]
  exact (List.nodup_map_iff_inj_on (paired_nodup h)).mpr
    (fun p hp q hq heq => hinj (hin p hp) (hin q hq) heq)

theorem level_inj (h : l.Nodup) (h' : l'.Nodup) (hin : ∀ p ∈ paired l, p ∈ S)
    (hin' : ∀ p ∈ paired l', p ∈ S) (heq : level node l = level node l') : l = l' := by
  rw [level_paired, level_paired] at heq
  exact paired_inj h h' (map_injOn hinj hin hin' heq)

theorem Reaches.nodup (h : Reaches node l m) (hl : l.Nodup) (hin : Within node S l) : m.Nodup := by
  induction h with
  | refl l => exact hl
  | @up l m hlong h ih =>
    exact ih (level_nodup hinj hl (hin l (.refl l) hlong)) (hin.level hlong)

theorem Reaches.down (h : Reaches node (level node l') (level node l)) (hl : l.Nodup)
    (hl' : l'.Nodup) (hin : Within node S l) (hin' : Within node S l') (hlong : 1 < l.length)
    (hlong' : 1 < l'.length) : Reaches node l' l := by
  rcases h.last with heq | ⟨m, hm, hlen, heq⟩
  · obtain rfl := level_inj hinj hl' hl (hin' l' (.refl l') hlong') (hin l (.refl l) hlong) heq
    exact .refl l'
  · have hup : Reaches node l' m := .up hlong' hm
    obtain rfl := level_inj hinj hl (hup.nodup hinj hl' hin') (hin l (.refl l) hlong)
      (hin' m hup hlen) heq
    exact hup

theorem Reaches.meet {r : α} (h : Reaches node l [r]) (h' : Reaches node l' [r]) (hl : l.Nodup)
    (hl' : l'.Nodup) (hin : Within node S l) (hin' : Within node S l') :
    Reaches node l' l ∨ Reaches node l l' := by
  generalize htop : [r] = top at h
  induction h generalizing l' with
  | refl l =>
    subst htop
    exact .inl h'
  | @up l top hlong h ih =>
    subst htop
    cases h' with
    | refl => exact .inr (.up hlong h)
    | up hlong' h' =>
      have hnext := level_nodup hinj hl (hin l (.refl l) hlong)
      have hnext' := level_nodup hinj hl' (hin' l' (.refl l') hlong')
      rcases ih h' hnext hnext' (hin.level hlong) (hin'.level hlong') rfl with hdown | hdown
      · exact .inl (hdown.down hinj hl hl' hin hin' hlong hlong')
      · exact .inr (hdown.down hinj hl' hl hin' hin hlong' hlong)

end Injective

theorem leaves_eq {fuel fuel' : Nat} {l l' : List α} (hne : l ≠ []) (hne' : l' ≠ [])
    (hfuel : l.length ≤ fuel + 1) (hfuel' : l'.length ≤ fuel' + 1) (hl : l.Nodup) (hl' : l'.Nodup)
    (hinj : Set.InjOn (Function.uncurry node)
      {p | p ∈ hashed node fuel l ∨ p ∈ hashed node fuel' l'})
    (hfree : ∀ a, a ∈ l ∨ a ∈ l' → ∀ p, p ∈ hashed node fuel l ∨ p ∈ hashed node fuel' l' →
      Function.uncurry node p ≠ a)
    (hroot : (levels node fuel l).flatten.getLast? = (levels node fuel' l').flatten.getLast?) :
    l = l' := by
  obtain ⟨r, hlast, hreach⟩ := @Reaches.levels α node fuel l hne hfuel
  obtain ⟨r', hlast', hreach'⟩ := @Reaches.levels α node fuel' l' hne' hfuel'
  rw [hlast, hlast', Option.some.injEq] at hroot
  subst hroot
  have hin : Within node {p | p ∈ hashed node fuel l ∨ p ∈ hashed node fuel' l'} l :=
    fun m hm hlong p hp => .inl (hm.hashed hfuel hlong hp)
  have hin' : Within node {p | p ∈ hashed node fuel l ∨ p ∈ hashed node fuel' l'} l' :=
    fun m hm hlong p hp => .inr (hm.hashed hfuel' hlong hp)
  -- a leaf list above another tree's leaves would hold a hash of a pair
  have hleaf : ∀ {m : List α}, 1 < m.length → ∃ p ∈ paired m,
      Function.uncurry node p ∈ level node m := by
    intro m hlong
    have hpair : paired m ≠ [] := by
      rcases m with _ | ⟨a, _ | ⟨b, rest⟩⟩
      · simp at hlong
      · simp [paired]
      · simp [paired]
    obtain ⟨p, hp⟩ := List.exists_mem_of_ne_nil _ hpair
    rw [level_paired]
    exact ⟨p, hp, List.mem_map_of_mem hp⟩
  rcases hreach.meet hinj hreach' hl hl' hin hin' with h | h
  · rcases h.last with heq | ⟨m, hm, hlong, rfl⟩
    · exact heq.symm
    · obtain ⟨p, hp, hmem⟩ := hleaf hlong
      exact absurd rfl (hfree _ (.inl hmem) p (hin' m hm hlong p hp))
  · rcases h.last with heq | ⟨m, hm, hlong, rfl⟩
    · exact heq
    · obtain ⟨p, hp, hmem⟩ := hleaf hlong
      exact absurd rfl (hfree _ (.inr hmem) p (hin m hm hlong p hp))

end Leaves

end Merkle
