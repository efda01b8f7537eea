import Namecoin.Lib.Reader

namespace Reading

variable {α β : Type}

def Separated (f : α → List β) (P : α → Prop) : Prop :=
  ∀ {a b : α} {r r' : List β}, P a → P b → f a ++ r = f b ++ r' → a = b ∧ r = r'

theorem Separated.of_reads {p : Reader β α} {f : α → List β} {P : α → Prop}
    (h : ∀ a, P a → Reads p (f a) a) : Separated f P := by
  intro a b r r' ha hb heq
  have hread := h a ha r
  rw [heq, h b hb r'] at hread
  cases hread
  exact ⟨rfl, rfl⟩

theorem Separated.flatMap {f : α → List β} {P : α → Prop} (hf : Separated f P) {as bs : List α}
    {r r' : List β} (ha : ∀ a ∈ as, P a) (hb : ∀ b ∈ bs, P b) (hlen : as.length = bs.length)
    (h : as.flatMap f ++ r = bs.flatMap f ++ r') : as = bs ∧ r = r' := by
  induction as generalizing bs with
  | nil =>
    obtain rfl := List.length_eq_zero_iff.mp hlen.symm
    exact ⟨rfl, h⟩
  | cons a as ih =>
    cases bs with
    | nil => cases hlen
    | cons b bs =>
      rw [List.flatMap_cons, List.flatMap_cons, List.append_assoc, List.append_assoc] at h
      obtain ⟨rfl, hrest⟩ := hf (ha a List.mem_cons_self) (hb b List.mem_cons_self) h
      obtain ⟨rfl, hr⟩ := ih (fun x hx => ha x (List.mem_cons_of_mem _ hx))
        (fun x hx => hb x (List.mem_cons_of_mem _ hx)) (Nat.succ.inj hlen) hrest
      exact ⟨rfl, hr⟩

theorem Separated.vector {f : α → List β} {P : α → Prop} (hf : Separated f P)
    {size : Nat → List β} {bound : Nat} (hsize : Separated size (fun n => n < bound))
    {as bs : List α} {r r' : List β} (ha : ∀ a ∈ as, P a) (hb : ∀ b ∈ bs, P b)
    (hla : as.length < bound) (hlb : bs.length < bound)
    (h : size as.length ++ (as.flatMap f ++ r) = size bs.length ++ (bs.flatMap f ++ r')) :
    as = bs ∧ r = r' := by
  obtain ⟨hlen, hrest⟩ := hsize hla hlb h
  exact hf.flatMap ha hb hlen hrest

end Reading
