import Mathlib

namespace Lexing

variable {β : Type*}

structure Lexer (β : Type*) where
  next : List β → Option (List β × List β)
  splits : ∀ {s t r}, next s = some (t, r) → s = t ++ r
  nonempty : ∀ {s t r}, next s = some (t, r) → t ≠ []
  stable : ∀ {t r} r', next (t ++ r) = some (t, r) → next (t ++ r') = some (t, r')

namespace Lexer

variable (L : Lexer β)

def IsToken (t : List β) : Prop := L.next t = some (t, [])

theorem next_length {s t r : List β} (h : L.next s = some (t, r)) : r.length < s.length := by
  have hpos := List.length_pos_of_ne_nil (L.nonempty h)
  rw [L.splits h, List.length_append]
  omega

def scan (s : List β) : List (List β) × List β :=
  match h : L.next s with
  | none => ([], s)
  | some (t, r) =>
    have : r.length < s.length := L.next_length h
    (t :: (scan r).1, (scan r).2)
termination_by s.length

def keep (p : List β → Bool) (s : List β) : List β :=
  ((L.scan s).1.filter p).flatten ++ (L.scan s).2

variable {L} {s t r : List β} {p q : List β → Bool}

theorem scan_none (h : L.next s = none) : L.scan s = ([], s) := by
  rw [scan]
  split
  · rfl
  · next t r hnext => cases hnext.symm.trans h

theorem scan_some (h : L.next s = some (t, r)) :
    L.scan s = (t :: (L.scan r).1, (L.scan r).2) := by
  rw [scan]
  split
  · next hnext => cases hnext.symm.trans h
  · next t' r' hnext =>
    cases hnext.symm.trans h
    rfl

theorem keep_none (h : L.next s = none) : L.keep p s = s := by
  rw [keep, scan_none h]
  rfl

theorem keep_some (h : L.next s = some (t, r)) :
    L.keep p s = (if p t then t else []) ++ L.keep p r := by
  rw [keep, scan_some h, List.filter_cons]
  split
  · rw [List.flatten_cons, List.append_assoc]
    rfl
  · rfl

theorem next_token (h : L.next s = some (t, r)) : L.IsToken t := by
  have hself := L.splits h
  rw [hself] at h
  have htoken := L.stable [] h
  rwa [List.append_nil] at htoken

theorem IsToken.next_append (ht : L.IsToken t) (r : List β) : L.next (t ++ r) = some (t, r) :=
  L.stable r (by rw [List.append_nil]; exact ht)

theorem IsToken.next_prefix (ht : L.IsToken t) (h : t <+: s) :
    L.next s = some (t, s.drop t.length) := by
  obtain ⟨r, rfl⟩ := h
  rw [List.drop_left]
  exact ht.next_append r

theorem scan_append {ts : List (List β)} (hts : ∀ t ∈ ts, L.IsToken t) (s : List β) :
    L.scan (ts.flatten ++ s) = (ts ++ (L.scan s).1, (L.scan s).2) := by
  induction ts with
  | nil => rfl
  | cons t ts ih =>
    obtain ⟨ht, hts⟩ := List.forall_mem_cons.mp hts
    rw [List.flatten_cons, List.append_assoc, scan_some (ht.next_append _), ih hts]
    rfl

theorem scan_tokens (s : List β) : (∀ t ∈ (L.scan s).1, L.IsToken t) ∧ L.next (L.scan s).2 = none := by
  induction hn : s.length using Nat.strong_induction_on generalizing s with
  | _ n ih =>
    cases hnext : L.next s with
    | none =>
      rw [scan_none hnext]
      exact ⟨by simp, hnext⟩
    | some a =>
      obtain ⟨t, r⟩ := a
      obtain ⟨hts, htail⟩ := ih r.length (hn ▸ L.next_length hnext) r rfl
      rw [scan_some hnext]
      exact ⟨List.forall_mem_cons.mpr ⟨next_token hnext, hts⟩, htail⟩

theorem scan_keep (p : List β → Bool) (s : List β) :
    L.scan (L.keep p s) = ((L.scan s).1.filter p, (L.scan s).2) := by
  obtain ⟨hts, htail⟩ := L.scan_tokens s
  rw [keep, scan_append (fun t ht => hts t (List.mem_of_mem_filter ht)), scan_none htail,
    List.append_nil]

theorem keep_keep (p q : List β → Bool) (s : List β) :
    L.keep p (L.keep q s) = L.keep (fun t => p t && q t) s := by
  rw [keep, scan_keep, List.filter_filter]
  rfl

theorem keep_idem (p : List β → Bool) (s : List β) : L.keep p (L.keep p s) = L.keep p s := by
  rw [keep_keep]
  simp only [Bool.and_self]

theorem keep_comm (p q : List β → Bool) (s : List β) :
    L.keep p (L.keep q s) = L.keep q (L.keep p s) := by
  rw [keep_keep, keep_keep]
  simp only [Bool.and_comm]

end Lexer

end Lexing
