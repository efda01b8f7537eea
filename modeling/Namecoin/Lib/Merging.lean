import Mathlib

namespace Merging

variable {σ α : Type}

def firstKept (kept : α → Bool) : α → List α → α
  | a, [] => a
  | a, b :: rest => if kept a then a else firstKept kept b rest

-- decode (encode a) may lose part of a: kept says of a that the next round still finds it good.
structure Reencoding (σ α : Type) where
  encode : α → σ
  decode : σ → α
  good : α → Bool
  kept : α → Bool
  Ok : α → Prop
  ok_decode : ∀ s, Ok (decode s)
  good_reread : ∀ a, Ok a → good (decode (encode a)) = kept a
  kept_reread : ∀ a, Ok a → kept a = true → kept (decode (encode a)) = true

namespace Reencoding

variable (r : Reencoding σ α)

def combine (s t : σ) : σ :=
  if r.good (r.decode s) then r.encode (r.decode s) else r.encode (r.decode t)

def Rereads (P : σ → Prop) : Prop :=
  ∀ a, r.Ok a → r.kept a = true → (P (r.encode (r.decode (r.encode a))) ↔ P (r.encode a))

variable {r} {P : σ → Prop}

theorem combine_kept {a : α} (ha : r.Ok a) (hkept : r.kept a = true) (t : σ) :
    r.combine (r.encode a) t = r.encode (r.decode (r.encode a)) := by
  rw [combine, r.good_reread a ha, hkept, if_pos rfl]

theorem combine_dropped {a : α} (ha : r.Ok a) (hkept : r.kept a = false) (t : σ) :
    r.combine (r.encode a) t = r.encode (r.decode t) := by
  rw [combine, r.good_reread a ha, hkept, if_neg Bool.false_ne_true]

theorem foldl_kept (hP : r.Rereads P) {a : α} (ha : r.Ok a) (hkept : r.kept a = true)
    (l : List σ) : P (l.foldl r.combine (r.encode a)) ↔ P (r.encode a) := by
  induction l generalizing a with
  | nil => exact Iff.rfl
  | cons t l ih =>
    rw [List.foldl_cons, combine_kept ha hkept]
    exact (ih (r.ok_decode _) (r.kept_reread a ha hkept)).trans (hP a ha hkept)

theorem foldl_firstKept (hP : r.Rereads P) {a : α} (ha : r.Ok a) (l : List σ) :
    P (l.foldl r.combine (r.encode a)) ↔ P (r.encode (firstKept r.kept a (l.map r.decode))) := by
  induction l generalizing a with
  | nil => exact Iff.rfl
  | cons t l ih =>
    rw [List.map_cons, firstKept]
    cases hkept : r.kept a with
    | true =>
      rw [if_pos rfl]
      exact foldl_kept hP ha hkept (t :: l)
    | false =>
      rw [if_neg Bool.false_ne_true, List.foldl_cons, combine_dropped ha hkept]
      exact ih (r.ok_decode t)

-- The first round reads a source that nothing has encoded yet.
theorem merge_firstKept (hP : r.Rereads P) {s t : σ} (hs : r.good (r.decode s) = r.kept (r.decode s))
    (l : List σ) :
    P ((t :: l).foldl r.combine s) ↔
      P (r.encode (firstKept r.kept (r.decode s) ((t :: l).map r.decode))) := by
  rw [List.foldl_cons, List.map_cons, firstKept, combine, hs]
  split
  · rename_i hkept
    exact foldl_kept hP (r.ok_decode s) hkept l
  · exact foldl_firstKept hP (r.ok_decode t) l

end Reencoding

end Merging
