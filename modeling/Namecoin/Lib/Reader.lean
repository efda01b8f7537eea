import Mathlib

namespace Reading

abbrev Reader (β α : Type) := StateT (List β) Option α

variable {β α γ : Type}

def Reads (p : Reader β α) (bytes : List β) (a : α) : Prop :=
  ∀ rest, p (bytes ++ rest) = some (a, rest)

def fail : Reader β α := fun _ => none

def raw (n : Nat) : Reader β (List β) := fun b =>
  if n ≤ b.length then some (b.take n, b.drop n) else none

def many (p : Reader β α) : Nat → Reader β (List α)
  | 0 => pure []
  | n + 1 => do
    let a ← p
    let as ← many p n
    pure (a :: as)

theorem Reads.pure (a : α) : Reads (Pure.pure a : Reader β α) [] a := fun _ => rfl

theorem Reads.bind {p : Reader β α} {q : α → Reader β γ} {b b' : List β} {a : α} {c : γ}
    (hp : Reads p b a) (hq : Reads (q a) b' c) : Reads (p >>= q) (b ++ b') c := by
  intro rest
  have hfirst := hp (b' ++ rest)
  change (p (b ++ b' ++ rest)).bind (fun x => q x.1 x.2) = some (c, rest)
  rw [List.append_assoc, hfirst]
  exact hq rest

theorem Reads.last {p : Reader β α} {q : α → Reader β γ} {b : List β} {a : α} {c : γ}
    (hp : Reads p b a) (hq : Reads (q a) [] c) : Reads (p >>= q) b c := by
  have hbind := hp.bind hq
  rwa [List.append_nil] at hbind

theorem Reads.map {p : Reader β α} {b : List β} {a : α} (f : α → γ) (hp : Reads p b a) :
    Reads (f <$> p) b (f a) := by
  rw [map_eq_pure_bind]
  exact hp.last (q := fun x => Pure.pure (f x)) (Reads.pure (f a))

theorem bind_some {p : Reader β α} {q : α → Reader β γ} {b : List β} {r : γ × List β} :
    (p >>= q) b = some r ↔ ∃ a rest, p b = some (a, rest) ∧ q a rest = some r := by
  change (p b).bind (fun x => q x.1 x.2) = some r ↔ _
  rw [Option.bind_eq_some_iff, Prod.exists]

theorem raw_some {n : Nat} {b bytes rest : List β} (h : raw n b = some (bytes, rest)) :
    bytes.length = n := by
  unfold raw at h
  split at h
  · rename_i hle
    obtain ⟨rfl, -⟩ := Prod.mk.inj (Option.some.inj h)
    exact List.length_take_of_le hle
  · cases h

theorem reads_raw (b : List β) : Reads (raw b.length) b b := by
  intro rest
  unfold raw
  rw [if_pos (by rw [List.length_append]; omega), List.take_left, List.drop_left]

theorem reads_many {p : Reader β α} {f : α → List β} {xs : List α}
    (h : ∀ x ∈ xs, Reads p (f x) x) : Reads (many p xs.length) (xs.flatMap f) xs := by
  induction xs with
  | nil => exact Reads.pure []
  | cons x xs ih =>
    have hrest := ih fun y hy => h y (List.mem_cons_of_mem _ hy)
    exact (h x List.mem_cons_self).bind (hrest.last (Reads.pure (x :: xs)))

end Reading
