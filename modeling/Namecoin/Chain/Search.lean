import Namecoin.Chain.Work

namespace Namecoin

theorem search_some {pat s : List UInt8} {pos k : Nat} (h : search pat s pos = some k) :
    ∃ pre post, s = pre ++ pat ++ post ∧ k = pos + pre.length := by
  induction s generalizing pos with
  | nil =>
    simp only [search] at h
    split at h
    · next hpat => exact ⟨[], [], by simp [hpat], by simpa using h.symm⟩
    · cases h
  | cons b s ih =>
    simp only [search] at h
    split at h
    · next hpre =>
      obtain ⟨post, hpost⟩ := List.isPrefixOf_iff_prefix.mp hpre
      exact ⟨[], post, by simpa using hpost.symm, by simpa using h.symm⟩
    · obtain ⟨pre, post, hs, hk⟩ := ih h
      refine ⟨b :: pre, post, by simp [hs], ?_⟩
      simp only [List.length_cons]
      omega

theorem search_start (pat post : List UInt8) (pos : Nat) :
    search pat (pat ++ post) pos = some pos := by
  cases pat with
  | nil => cases post <;> simp [search]
  | cons b pat => simp [search]

theorem search_of_contained {pat s : List UInt8} (h : pat <:+: s) (pos : Nat) :
    ∃ k, search pat s pos = some k := by
  obtain ⟨pre, post, rfl⟩ := h
  induction pre generalizing pos with
  | nil => exact ⟨pos, search_start pat post pos⟩
  | cons b pre ih =>
    simp only [List.cons_append, search]
    split
    · exact ⟨pos, rfl⟩
    · exact ih (pos + 1)

theorem search_none {pat s : List UInt8} {pos : Nat} (h : search pat s pos = none) (q : Nat) :
    ¬ pat <+: s.drop q := by
  intro hpre
  have hinfix : pat <:+: s := hpre.isInfix.trans (List.drop_suffix q s).isInfix
  obtain ⟨k, hk⟩ := search_of_contained hinfix pos
  cases h.symm.trans hk

theorem search_first {pat s : List UInt8} {pos k : Nat} (h : search pat s pos = some k) :
    ∀ q, q + pos < k → ¬ pat <+: s.drop q := by
  induction s generalizing pos with
  | nil =>
    intro q hq hpre
    simp only [search] at h
    split at h
    · cases h
      omega
    · cases h
  | cons b s ih =>
    intro q hq hpre
    simp only [search] at h
    split at h
    · cases h
      omega
    · next hnot =>
      cases q with
      | zero => exact hnot (List.isPrefixOf_iff_prefix.mpr hpre)
      | succ q => exact ih h q (by omega) hpre

end Namecoin
