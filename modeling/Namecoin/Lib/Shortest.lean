import Namecoin.Lib.Reader

namespace Reading

variable {β α γ : Type}

def Tight (shortest used : List β) : Prop :=
  shortest.length ≤ used.length ∧ (used.length = shortest.length → used = shortest)

theorem tight_refl (s : List β) : Tight s s := ⟨Nat.le_refl _, fun _ => rfl⟩

theorem tight_of_lt {s u : List β} (h : s.length < u.length) : Tight s u :=
  ⟨Nat.le_of_lt h, fun heq => absurd heq (Nat.ne_of_gt h)⟩

theorem Tight.append {s s' u u' : List β} (h : Tight s u) (h' : Tight s' u') :
    Tight (s ++ s') (u ++ u') := by
  obtain ⟨hle, heq⟩ := h
  obtain ⟨hle', heq'⟩ := h'
  constructor
  · rw [List.length_append, List.length_append]
    omega
  · intro hlen
    rw [List.length_append, List.length_append] at hlen
    rw [heq (by omega), heq' (by omega)]

def Uses (p : Reader β α) (R : α → List β → Prop) : Prop :=
  ∀ b a rest, p b = some (a, rest) → ∃ used, b = used ++ rest ∧ R a used

def Coded (p : Reader β α) (ser : α → List β) (P : α → Prop) : Prop :=
  Uses p fun a used => Tight (ser a) used ∧ P a

theorem uses_pure (a : α) : Uses (Pure.pure a : Reader β α) fun x used => x = a ∧ used = [] := by
  intro b x rest h
  cases h
  exact ⟨[], rfl, rfl, rfl⟩

theorem uses_raw (n : Nat) : Uses (raw n : Reader β (List β)) fun x used =>
    x = used ∧ used.length = n := by
  intro b x rest h
  have hlen := raw_some h
  unfold raw at h
  split at h
  · cases h
    exact ⟨b.take n, (List.take_append_drop n b).symm, rfl, hlen⟩
  · cases h

theorem Uses.bind {p : Reader β α} {q : α → Reader β γ} {R : α → List β → Prop}
    {S : α → γ → List β → Prop} (hp : Uses p R) (hq : ∀ a, Uses (q a) (S a)) :
    Uses (p >>= q) fun c used => ∃ a u u', used = u ++ u' ∧ R a u ∧ S a c u' := by
  intro b c rest h
  obtain ⟨a, mid, hfirst, hsecond⟩ := bind_some.mp h
  obtain ⟨u, rfl, hu⟩ := hp b a mid hfirst
  obtain ⟨u', rfl, hu'⟩ := hq a mid c rest hsecond
  exact ⟨u ++ u', (List.append_assoc _ _ _).symm, a, u, u', rfl, hu, hu'⟩

theorem Uses.mono {p : Reader β α} {R S : α → List β → Prop} (hp : Uses p R)
    (h : ∀ a used, R a used → S a used) : Uses p S := by
  intro b a rest hrun
  obtain ⟨used, hb, hused⟩ := hp b a rest hrun
  exact ⟨used, hb, h a used hused⟩

theorem coded_many {p : Reader β α} {ser : α → List β} {P : α → Prop} (hp : Coded p ser P)
    (n : Nat) : Uses (many p n) fun as used =>
      as.length = n ∧ Tight (as.flatMap ser) used ∧ ∀ a ∈ as, P a := by
  induction n with
  | zero =>
    refine (uses_pure []).mono ?_
    rintro as used ⟨rfl, rfl⟩
    exact ⟨rfl, tight_refl [], by simp⟩
  | succ n ih =>
    refine (hp.bind fun a => ih.bind fun as => uses_pure (a :: as)).mono ?_
    rintro as used ⟨a, u, u', rfl, ⟨htight, ha⟩, as', v, v', rfl, ⟨hlen, htight', hall⟩, rfl, rfl⟩
    rw [List.append_nil, List.flatMap_cons]
    exact ⟨congrArg Nat.succ hlen, htight.append htight', List.forall_mem_cons.mpr ⟨ha, hall⟩⟩

theorem Coded.take_iff {p : Reader β α} {ser : α → List β} {P : α → Prop} (hp : Coded p ser P)
    (hback : ∀ a, P a → Reads p (ser a) a) {b rest : List β} {a : α} (hread : p b = some (a, rest)) :
    (p (b.take (ser a).length)).map Prod.fst = some a ↔ ser a <+: b := by
  obtain ⟨used, rfl, ⟨hle, -⟩, ha⟩ := hp b a rest hread
  constructor
  · intro h
    obtain ⟨⟨x, rest'⟩, hagain, hx⟩ := Option.map_eq_some_iff.mp h
    dsimp only at hx
    subst hx
    obtain ⟨used', htake, ⟨hle', heq'⟩, -⟩ := hp _ _ _ hagain
    have hlen := congrArg List.length htake
    rw [List.length_take, List.length_append, List.length_append] at hlen
    have hsame := heq' (by omega)
    have hnil : rest' = [] := List.length_eq_zero_iff.mp (by omega)
    have hprefix := List.take_prefix (ser x).length (used ++ rest)
    rwa [htake, hsame, hnil, List.append_nil] at hprefix
  · rintro ⟨tail, htail⟩
    have htake : (used ++ rest).take (ser a).length = ser a := by rw [← htail, List.take_left]
    have hrun := hback a ha []
    rw [List.append_nil] at hrun
    rw [htake, hrun]
    rfl

end Reading
