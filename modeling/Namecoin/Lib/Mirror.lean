import Mathlib

namespace Mirror

variable {K T O N : Type}

section Spends

variable (outs : T → List O)

def Mirrors (pool : K → Option T) (next : O → Option (K × Nat)) : Prop :=
  ∀ o k i, next o = some (k, i) ↔ ∃ t, pool k = some t ∧ (outs t)[i]? = some o

def Harmless (pool : K → Option T) (k : K) (t : T) : Prop :=
  ∀ k' t', pool k' = some t' → (k' = k ∨ ∃ o ∈ outs t, o ∈ outs t') → k' = k ∧ t' = t

variable {outs} {pool : K → Option T} {next : O → Option (K × Nat)}

theorem mirrors_empty : Mirrors outs (fun _ : K => none) (fun _ => none) := by
  intro o k i
  simp

theorem Mirrors.unspent (h : Mirrors outs pool next) {o : O} (hfree : next o = none) {k : K} {t : T}
    (ht : pool k = some t) : o ∉ outs t := by
  intro ho
  obtain ⟨i, hi⟩ := List.getElem?_of_mem ho
  have hnext := (h o k i).mpr ⟨t, ht, hi⟩
  rw [hfree] at hnext
  cases hnext

theorem Mirrors.disjoint (h : Mirrors outs pool next) {k k' : K} {t t' : T} {o : O}
    (ht : pool k = some t) (ht' : pool k' = some t') (ho : o ∈ outs t) (ho' : o ∈ outs t') :
    k = k' := by
  obtain ⟨i, hi⟩ := List.getElem?_of_mem ho
  obtain ⟨j, hj⟩ := List.getElem?_of_mem ho'
  have hnext := (h o k i).mpr ⟨t, ht, hi⟩
  rw [(h o k' j).mpr ⟨t', ht', hj⟩] at hnext
  exact (Prod.mk.inj (Option.some.inj hnext)).1.symm

theorem Harmless.of_remove [DecidableEq K] {k k0 : K} {t : T} (h : Harmless outs pool k t) :
    Harmless outs (Function.update pool k0 none) k t := by
  intro k' t' ht' hclash
  rcases eq_or_ne k' k0 with rfl | hne
  · rw [Function.update_self] at ht'
    cases ht'
  · rw [Function.update_of_ne hne] at ht'
    exact h k' t' ht' hclash

variable [DecidableEq O]

def link (k : K) : List O → Nat → (O → Option (K × Nat)) → O → Option (K × Nat)
  | [], _, next => next
  | o :: rest, i, next => link k rest (i + 1) (Function.update next o (some (k, i)))

def unlink (os : List O) (next : O → Option (K × Nat)) : O → Option (K × Nat) :=
  os.foldl (fun next o => Function.update next o none) next

theorem link_of_not_mem {k : K} {os : List O} {i : Nat} {next : O → Option (K × Nat)} {o : O}
    (h : o ∉ os) : link k os i next o = next o := by
  induction os generalizing i next with
  | nil => rfl
  | cons a rest ih =>
    rw [List.mem_cons, not_or] at h
    rw [link, ih h.2, Function.update_of_ne h.1]

theorem link_of_get {k : K} {os : List O} (hnd : os.Nodup) {i j : Nat}
    {next : O → Option (K × Nat)} {o : O} (h : os[j]? = some o) :
    link k os i next o = some (k, i + j) := by
  induction os generalizing i j next with
  | nil => simp at h
  | cons a rest ih =>
    rw [List.nodup_cons] at hnd
    rw [link]
    cases j with
    | zero =>
      obtain rfl : a = o := by simpa using h
      rw [link_of_not_mem hnd.1]
      simp
    | succ j =>
      rw [ih hnd.2 (by simpa using h)]
      congr 2
      omega

theorem unlink_apply (os : List O) (next : O → Option (K × Nat)) (o : O) :
    unlink os next o = if o ∈ os then none else next o := by
  induction os generalizing next with
  | nil => rfl
  | cons a rest ih =>
    have hstep : unlink (a :: rest) next = unlink rest (Function.update next a none) := rfl
    rw [hstep, ih]
    rcases eq_or_ne o a with rfl | hne
    · simp
    · simp [hne]

variable [DecidableEq K]

theorem Mirrors.insert (h : Mirrors outs pool next) {k : K} {t : T} (hk : pool k = none)
    (hfree : ∀ o ∈ outs t, next o = none) (hnd : (outs t).Nodup) :
    Mirrors outs (Function.update pool k (some t)) (link k (outs t) 0 next) := by
  intro o k' i
  by_cases ho : o ∈ outs t
  · obtain ⟨j, hj⟩ := List.getElem?_of_mem ho
    rw [link_of_get hnd hj, Nat.zero_add]
    constructor
    · intro heq
      obtain ⟨rfl, rfl⟩ : k = k' ∧ j = i := by simpa using heq
      exact ⟨t, by simp, hj⟩
    · rintro ⟨t', ht', hi⟩
      rcases eq_or_ne k' k with rfl | hne
      · rw [Function.update_self] at ht'
        obtain rfl := Option.some.inj ht'
        have hlt : j < (outs t).length := (List.getElem?_eq_some_iff.mp hj).1
        rw [(List.getElem?_inj hlt hnd).mp (hj.trans hi.symm)]
      · rw [Function.update_of_ne hne] at ht'
        exact absurd (List.mem_of_getElem? hi) (h.unspent (hfree o ho) ht')
  · rw [link_of_not_mem ho, h o k' i]
    constructor
    · rintro ⟨t', ht', hi⟩
      have hne : k' ≠ k := by
        rintro rfl
        rw [hk] at ht'
        cases ht'
      exact ⟨t', by rw [Function.update_of_ne hne, ht'], hi⟩
    · rintro ⟨t', ht', hi⟩
      rcases eq_or_ne k' k with rfl | hne
      · rw [Function.update_self] at ht'
        obtain rfl := Option.some.inj ht'
        exact absurd (List.mem_of_getElem? hi) ho
      · rw [Function.update_of_ne hne] at ht'
        exact ⟨t', ht', hi⟩

theorem Mirrors.remove (h : Mirrors outs pool next) {k : K} {t : T}
    (hsafe : Harmless outs pool k t) :
    Mirrors outs (Function.update pool k none) (unlink (outs t) next) := by
  intro o k' i
  rw [unlink_apply]
  by_cases ho : o ∈ outs t
  · rw [if_pos ho]
    simp only [reduceCtorEq, false_iff]
    rintro ⟨t', ht', hi⟩
    rcases eq_or_ne k' k with rfl | hne
    · rw [Function.update_self] at ht'
      cases ht'
    · rw [Function.update_of_ne hne] at ht'
      exact hne (hsafe k' t' ht' (.inr ⟨o, ho, List.mem_of_getElem? hi⟩)).1
  · rw [if_neg ho, h o k' i]
    constructor
    · rintro ⟨t', ht', hi⟩
      have hne : k' ≠ k := by
        rintro rfl
        obtain ⟨-, rfl⟩ := hsafe k' t' ht' (.inl rfl)
        exact ho (List.mem_of_getElem? hi)
      exact ⟨t', by rw [Function.update_of_ne hne, ht'], hi⟩
    · rintro ⟨t', ht', hi⟩
      rcases eq_or_ne k' k with rfl | hne
      · rw [Function.update_self] at ht'
        cases ht'
      · rw [Function.update_of_ne hne] at ht'
        exact ⟨t', ht', hi⟩

end Spends

section Tags

variable (tag : T → Option N)

def Tracks (pool : K → Option T) (index : N → Finset K) : Prop :=
  ∀ n k, k ∈ index n ↔ ∃ t, pool k = some t ∧ tag t = some n

variable {tag} {pool : K → Option T} {index : N → Finset K}

theorem tracks_empty : Tracks tag (fun _ : K => none) (fun _ => ∅) := by
  intro n k
  simp

theorem Tracks.remove [DecidableEq K] {gone : Finset K} {pool' : K → Option T} {index' : N → Finset K}
    (h : Tracks tag pool index) (hpool : ∀ k, pool' k = if k ∈ gone then none else pool k)
    (hsub : ∀ n k, k ∈ index' n → k ∈ index n) (hlost : ∀ n k, k ∈ index n → k ∉ gone → k ∈ index' n)
    (hgone : ∀ n k t, k ∈ gone → pool k = some t → tag t = some n → k ∉ index' n) :
    Tracks tag pool' index' := by
  intro n k
  rw [hpool]
  by_cases hk : k ∈ gone
  · rw [if_pos hk]
    simp only [reduceCtorEq, false_and, exists_false, iff_false]
    intro hin
    obtain ⟨t, ht, htag⟩ := (h n k).mp (hsub n k hin)
    exact hgone n k t hk ht htag hin
  · rw [if_neg hk, ← h n k]
    exact ⟨hsub n k, fun hin => hlost n k hin hk⟩

variable [DecidableEq K] [DecidableEq N]

def file (k : K) (index : N → Finset K) : Option N → N → Finset K
  | none => index
  | some n => Function.update index n (insert k (index n))

def unfile (k : K) (index : N → Finset K) : Option N → N → Finset K
  | none => index
  | some n => Function.update index n ((index n).erase k)

theorem mem_file {k k' : K} {o : Option N} {n : N} :
    k' ∈ file k index o n ↔ (k' = k ∧ o = some n) ∨ k' ∈ index n := by
  cases o with
  | none => simp [file]
  | some a =>
    rcases eq_or_ne n a with rfl | hne
    · simp [file]
    · simp [file, hne, hne.symm]

theorem mem_unfile {k k' : K} {o : Option N} {n : N} :
    k' ∈ unfile k index o n ↔ ¬(k' = k ∧ o = some n) ∧ k' ∈ index n := by
  cases o with
  | none => simp [unfile]
  | some a =>
    rcases eq_or_ne n a with rfl | hne
    · simp [unfile]
    · simp [unfile, hne, hne.symm]

theorem Tracks.insert (h : Tracks tag pool index) {k : K} {t : T} (hk : pool k = none) :
    Tracks tag (Function.update pool k (some t)) (file k index (tag t)) := by
  intro n k'
  rw [mem_file, h n k']
  rcases eq_or_ne k' k with rfl | hne
  · simp [hk]
  · simp [hne]

end Tags

end Mirror
