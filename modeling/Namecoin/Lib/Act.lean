import Mathlib

abbrev Act (ε σ α : Type) := ExceptT ε (StateM σ) α

namespace Except

variable {ε α β : Type}

def raiseIf (c : Prop) [Decidable c] (e : ε) : Except ε Unit :=
  if c then .error e else .ok ()

def doIf (c : Prop) [Decidable c] (x : Except ε Unit) : Except ε Unit :=
  if c then x else .ok ()

theorem bind_eq_ok {x : Except ε α} {f : α → Except ε β} {b : β} :
    (x >>= f) = .ok b ↔ ∃ a, x = .ok a ∧ f a = .ok b := by
  cases x with
  | error e => simp [bind, Except.bind]
  | ok a => simp [bind, Except.bind]

theorem raiseIf_eq_ok {c : Prop} [Decidable c] {e : ε} {u : Unit} :
    raiseIf c e = .ok u ↔ ¬c := by
  unfold raiseIf
  split <;> simp_all

theorem doIf_eq_ok {c : Prop} [Decidable c] {x : Except ε Unit} {u : Unit} :
    doIf c x = .ok u ↔ (c → x = .ok u) := by
  unfold doIf
  split <;> simp_all

theorem pure_eq_ok {a b : α} : (pure a : Except ε α) = .ok b ↔ a = b := by
  simp [pure, Except.pure]

theorem mapM_eq_ok {f : α → Except ε β} {l : List α} {bs : List β} :
    l.mapM f = .ok bs ↔ List.Forall₂ (fun a b => f a = .ok b) l bs := by
  induction l generalizing bs with
  | nil =>
    rw [List.mapM_nil, pure_eq_ok]
    constructor
    · rintro rfl
      exact .nil
    · rintro ⟨⟩
      rfl
  | cons a l ih =>
    rw [List.mapM_cons, bind_eq_ok]
    constructor
    · rintro ⟨b, hb, hrest⟩
      obtain ⟨rest, hl, heq⟩ := bind_eq_ok.mp hrest
      rw [← pure_eq_ok.mp heq]
      exact .cons hb (ih.mp hl)
    · intro h
      obtain ⟨b, rest, hb, hl, rfl⟩ := List.forall₂_cons_left_iff.mp h
      exact ⟨b, hb, bind_eq_ok.mpr ⟨rest, ih.mpr hl, rfl⟩⟩

theorem mapM_map {f : α → Except ε β} {g : α → β} {l : List α} (h : ∀ a ∈ l, f a = .ok (g a)) :
    l.mapM f = .ok (l.map g) :=
  mapM_eq_ok.mpr (List.forall₂_map_right_iff.mpr (List.forall₂_same.mpr h))

theorem exists_mapM {f : α → Except ε β} {l : List α} (h : ∀ a ∈ l, ∃ b, f a = .ok b) :
    ∃ bs, l.mapM f = .ok bs := by
  induction l with
  | nil => exact ⟨[], rfl⟩
  | cons a l ih =>
    obtain ⟨⟨b, hb⟩, hl⟩ := List.forall_mem_cons.mp h
    obtain ⟨bs, hbs⟩ := ih hl
    exact ⟨b :: bs, mapM_eq_ok.mpr (.cons hb (mapM_eq_ok.mp hbs))⟩

def Avoids (e : ε) (x : Except ε α) : Prop := x ≠ .error e

section Avoids

variable {e : ε}

theorem avoids_ok (a : α) : Avoids e (.ok a) := by simp [Avoids]

theorem avoids_pure (a : α) : Avoids e (pure a : Except ε α) := avoids_ok a

theorem avoids_error {e' : ε} (h : e' ≠ e) : Avoids e (.error e' : Except ε α) := by
  simpa [Avoids] using h

theorem avoids_raiseIf {e' : ε} (h : e' ≠ e) (c : Prop) [Decidable c] :
    Avoids e (raiseIf c e') := by
  unfold raiseIf
  split
  · exact avoids_error h
  · exact avoids_ok ()

theorem avoids_doIf {c : Prop} [Decidable c] {x : Except ε Unit} (h : c → Avoids e x) :
    Avoids e (doIf c x) := by
  unfold doIf
  split
  · rename_i hc
    exact h hc
  · exact avoids_ok ()

theorem avoids_bind {x : Except ε α} {f : α → Except ε β} (hx : Avoids e x)
    (hf : ∀ a, x = .ok a → Avoids e (f a)) : Avoids e (x >>= f) := by
  cases x with
  | error e' => simpa [Avoids, bind, Except.bind] using hx
  | ok a => exact hf a rfl

theorem avoids_map {x : Except ε α} (f : α → β) (hx : Avoids e x) : Avoids e (x.map f) := by
  cases x with
  | error e' => simpa [Avoids, Except.map] using hx
  | ok a => exact avoids_ok _

end Avoids

end Except

namespace Act

variable {ε σ α β : Type}

def exec (x : Act ε σ α) (s : σ) : Except ε α × σ := StateT.run (ExceptT.run x) s

def raiseIf (c : Prop) [Decidable c] (e : ε) : Act ε σ Unit :=
  if c then throw e else pure ()

def doIf (c : Prop) [Decidable c] (x : Act ε σ Unit) : Act ε σ Unit :=
  if c then x else pure ()

def fromExcept : Except ε α → Act ε σ α
  | .ok a => pure a
  | .error e => throw e

def fromOption (e : ε) : Option α → Act ε σ α
  | some a => pure a
  | none => throw e

@[simp] theorem exec_pure (a : α) (s : σ) : exec (pure a : Act ε σ α) s = (.ok a, s) := rfl

@[simp] theorem exec_throw (e : ε) (s : σ) : exec (throw e : Act ε σ α) s = (.error e, s) := rfl

@[simp] theorem exec_get (s : σ) : exec (get : Act ε σ σ) s = (.ok s, s) := rfl

@[simp] theorem exec_modify (f : σ → σ) (s : σ) :
    exec (modify f : Act ε σ PUnit) s = (.ok ⟨⟩, f s) := rfl

theorem exec_bind (x : Act ε σ α) (f : α → Act ε σ β) (s : σ) :
    exec (x >>= f) s = match exec x s with
      | (.ok a, s') => exec (f a) s'
      | (.error e, s') => (.error e, s') := by
  unfold exec
  rcases h : StateT.run (ExceptT.run x) s with ⟨r, s'⟩
  cases r <;> simp [ExceptT.run_bind, h] <;> rfl

theorem bind_ok {x : Act ε σ α} {f : α → Act ε σ β} {s s'' : σ} {b : β} :
    exec (x >>= f) s = (.ok b, s'') ↔
      ∃ a s', exec x s = (.ok a, s') ∧ exec (f a) s' = (.ok b, s'') := by
  rw [exec_bind]
  rcases exec x s with ⟨r, s'⟩
  cases r with
  | error e => simp
  | ok a =>
    constructor
    · exact fun h => ⟨a, s', rfl, h⟩
    · rintro ⟨_, _, ⟨⟩, h⟩
      exact h

theorem exec_get_bind (f : σ → Act ε σ β) (s : σ) :
    exec (get >>= f) s = exec (f s) s := by
  rw [exec_bind, exec_get]

theorem exec_modify_bind (g : σ → σ) (f : PUnit → Act ε σ β) (s : σ) :
    exec (modify g >>= f) s = exec (f ⟨⟩) (g s) := by
  rw [exec_bind, exec_modify]

theorem exec_bind_ok {x : Act ε σ α} {f : α → Act ε σ β} {s s' : σ} {a : α}
    (h : exec x s = (.ok a, s')) : exec (x >>= f) s = exec (f a) s' := by
  rw [exec_bind, h]

theorem exec_bind_error {x : Act ε σ α} {f : α → Act ε σ β} {s s' : σ} {e : ε}
    (h : exec x s = (.error e, s')) : exec (x >>= f) s = (.error e, s') := by
  rw [exec_bind, h]

theorem exec_raiseIf_bind (c : Prop) [Decidable c] (e : ε) (f : Unit → Act ε σ β) (s : σ) :
    exec (raiseIf c e >>= f) s = if c then (.error e, s) else exec (f ()) s := by
  unfold raiseIf
  split <;> rfl

theorem exec_doIf_bind (c : Prop) [Decidable c] (x : Act ε σ Unit) (f : Unit → Act ε σ β) (s : σ) :
    exec (doIf c x >>= f) s = if c then exec (x >>= f) s else exec (f ()) s := by
  unfold doIf
  split <;> rfl

theorem exec_fromExcept_bind (x : Except ε α) (f : α → Act ε σ β) (s : σ) :
    (exec (fromExcept x >>= f) s).1 = x.bind fun a => (exec (f a) s).1 := by
  cases x <;> rfl

theorem exec_bind_after {P : σ → Prop} {x : Act ε σ α} {f : α → Act ε σ β} {s : σ}
    (herr : ∀ e s', exec x s = (.error e, s') → P s')
    (hok : ∀ a s', exec x s = (.ok a, s') → P (exec (f a) s').2) : P (exec (x >>= f) s).2 := by
  rw [exec_bind]
  rcases h : exec x s with ⟨r, s'⟩
  cases r with
  | error e => exact herr e s' h
  | ok a => exact hok a s' h

theorem after_raiseIf {P : σ → Prop} {c : Prop} [Decidable c] {e : ε} {f : Unit → Act ε σ β}
    {s : σ} (hs : P s) (hok : ¬c → P (exec (f ()) s).2) : P (exec (raiseIf c e >>= f) s).2 := by
  unfold raiseIf
  split
  · exact hs
  · rename_i hc
    exact hok hc

theorem after_fromExcept {P : σ → Prop} {x : Except ε α} {f : α → Act ε σ β} {s : σ} (hs : P s)
    (hok : ∀ a, x = .ok a → P (exec (f a) s).2) : P (exec (fromExcept x >>= f) s).2 := by
  cases x with
  | error e => exact hs
  | ok a => exact hok a rfl

theorem after_fromOption {P : σ → Prop} {e : ε} {x : Option α} {f : α → Act ε σ β} {s : σ}
    (hs : P s) (hok : ∀ a, x = some a → P (exec (f a) s).2) :
    P (exec (fromOption e x >>= f) s).2 := by
  cases x with
  | none => exact hs
  | some a => exact hok a rfl

theorem exec_eta {x : Act ε σ α} {s : σ} {a : α} (h : (exec x s).1 = .ok a) :
    exec x s = (.ok a, (exec x s).2) := Prod.ext h rfl

theorem raiseIf_ok {c : Prop} [Decidable c] {e : ε} {s s' : σ} {u : Unit} :
    exec (raiseIf c e) s = (.ok u, s') ↔ ¬c ∧ s = s' := by
  unfold raiseIf
  split <;> simp_all

theorem doIf_ok {c : Prop} [Decidable c] {x : Act ε σ Unit} {s s' : σ} {u : Unit} :
    exec (doIf c x) s = (.ok u, s') ↔
      (c ∧ exec x s = (.ok u, s')) ∨ (¬c ∧ s = s') := by
  unfold doIf
  split <;> simp_all

theorem fromExcept_ok {x : Except ε α} {s s' : σ} {a : α} :
    exec (fromExcept x) s = (.ok a, s') ↔ x = .ok a ∧ s = s' := by
  cases x <;> simp [fromExcept]

theorem fromOption_ok {e : ε} {x : Option α} {s s' : σ} {a : α} :
    exec (fromOption e x) s = (.ok a, s') ↔ x = some a ∧ s = s' := by
  cases x <;> simp [fromOption]

theorem pure_ok {a b : α} {s s' : σ} :
    exec (pure a : Act ε σ α) s = (.ok b, s') ↔ a = b ∧ s = s' := by simp

theorem get_ok {s s' t : σ} :
    exec (get : Act ε σ σ) s = (.ok t, s') ↔ s = t ∧ s = s' := by simp

theorem modify_ok {f : σ → σ} {s s' : σ} {u : PUnit} :
    exec (modify f : Act ε σ PUnit) s = (.ok u, s') ↔ f s = s' := by simp

def Avoids (e : ε) (x : Act ε σ α) (s : σ) : Prop := (exec x s).1 ≠ .error e

section Avoids

variable {e : ε} {s : σ}

theorem avoids_pure (a : α) : Avoids e (pure a : Act ε σ α) s := by simp [Avoids]

theorem avoids_get : Avoids e (get : Act ε σ σ) s := by simp [Avoids]

theorem avoids_modify (f : σ → σ) : Avoids e (modify f : Act ε σ PUnit) s := by simp [Avoids]

theorem avoids_throw {e' : ε} (h : e' ≠ e) : Avoids e (throw e' : Act ε σ α) s := by
  simpa [Avoids] using h

theorem avoids_raiseIf {e' : ε} (h : e' ≠ e) (c : Prop) [Decidable c] :
    Avoids e (raiseIf c e' : Act ε σ Unit) s := by
  unfold raiseIf
  split
  · exact avoids_throw h
  · exact avoids_pure ()

theorem avoids_doIf {c : Prop} [Decidable c] {x : Act ε σ Unit} (h : c → Avoids e x s) :
    Avoids e (doIf c x) s := by
  unfold doIf
  split
  · rename_i hc
    exact h hc
  · exact avoids_pure ()

theorem avoids_fromExcept {x : Except ε α} (h : Except.Avoids e x) :
    Avoids e (fromExcept x : Act ε σ α) s := by
  cases x with
  | error e' => simpa [Avoids, fromExcept, Except.Avoids] using h
  | ok a => exact avoids_pure a

theorem avoids_fromOption {e' : ε} (h : e' ≠ e) (x : Option α) :
    Avoids e (fromOption e' x : Act ε σ α) s := by
  cases x with
  | none => exact avoids_throw h
  | some a => exact avoids_pure a

theorem avoids_bind {x : Act ε σ α} {f : α → Act ε σ β} (hx : Avoids e x s)
    (hf : ∀ a s', exec x s = (.ok a, s') → Avoids e (f a) s') : Avoids e (x >>= f) s := by
  unfold Avoids at *
  rw [exec_bind]
  rcases hs : exec x s with ⟨r, s'⟩
  cases r with
  | error e' =>
    rw [hs] at hx
    simpa using hx
  | ok a => exact hf a s' hs

end Avoids

def Keeps (R : σ → σ → Prop) (x : Act ε σ α) : Prop :=
  ∀ s, R s (exec x s).2

section Keeps

variable {R : σ → σ → Prop}

theorem keeps_pure (hr : ∀ s, R s s) (a : α) : Keeps R (pure a : Act ε σ α) := hr

theorem keeps_throw (hr : ∀ s, R s s) (e : ε) : Keeps R (throw e : Act ε σ α) := hr

theorem keeps_get (hr : ∀ s, R s s) : Keeps R (get : Act ε σ σ) := hr

theorem keeps_modify {f : σ → σ} (hf : ∀ s, R s (f s)) :
    Keeps R (modify f : Act ε σ PUnit) := hf

theorem keeps_raiseIf (hr : ∀ s, R s s) (c : Prop) [Decidable c] (e : ε) :
    Keeps R (raiseIf c e : Act ε σ Unit) := by
  intro s
  unfold raiseIf
  split <;> exact hr s

theorem keeps_doIf (hr : ∀ s, R s s) (c : Prop) [Decidable c] {x : Act ε σ Unit}
    (hx : Keeps R x) : Keeps R (doIf c x) := by
  intro s
  unfold doIf
  split
  · exact hx s
  · exact hr s

theorem keeps_fromExcept (hr : ∀ s, R s s) (x : Except ε α) :
    Keeps R (fromExcept x : Act ε σ α) := by
  intro s
  cases x <;> exact hr s

theorem keeps_fromOption (hr : ∀ s, R s s) (e : ε) (x : Option α) :
    Keeps R (fromOption e x : Act ε σ α) := by
  intro s
  cases x <;> exact hr s

theorem keeps_bind (ht : ∀ {a b c}, R a b → R b c → R a c) {x : Act ε σ α} {f : α → Act ε σ β}
    (hx : Keeps R x) (hf : ∀ a, Keeps R (f a)) : Keeps R (x >>= f) := by
  intro s
  have h := hx s
  rw [exec_bind]
  rcases hs : exec x s with ⟨r, s'⟩
  rw [hs] at h
  cases r with
  | error e => exact h
  | ok a => exact ht h (hf a s')

theorem bind_tail (hr : ∀ s, R s s) {x : Act ε σ α} {f : α → Act ε σ β}
    (hf : ∀ a, Keeps R (f a)) (s : σ) : R (exec x s).2 (exec (x >>= f) s).2 := by
  rw [exec_bind]
  rcases exec x s with ⟨r, s'⟩
  cases r with
  | error e => exact hr s'
  | ok a => exact hf a s'

end Keeps

def Holds (P : σ → Prop) (Q : α → Prop) (x : Act ε σ α) : Prop :=
  ∀ s, P s → P (exec x s).2 ∧ ∀ a, (exec x s).1 = .ok a → Q a

section Holds

variable {P : σ → Prop}

theorem holds_of_keeps {x : Act ε σ α} (h : Keeps (fun s s' => P s → P s') x) :
    Holds P (fun _ => True) x := fun s hs => ⟨h s hs, fun _ _ => trivial⟩

theorem holds_get : Holds P P (get : Act ε σ σ) := by
  intro s hs
  refine ⟨hs, ?_⟩
  intro a ha
  cases ha
  exact hs

theorem holds_pure {Q : α → Prop} {a : α} (ha : Q a) : Holds P Q (pure a : Act ε σ α) := by
  intro s hs
  refine ⟨hs, ?_⟩
  intro b hb
  cases hb
  exact ha

theorem holds_raiseIf (c : Prop) [Decidable c] (e : ε) :
    Holds P (fun _ => ¬c) (raiseIf c e : Act ε σ Unit) := by
  intro s hs
  unfold raiseIf
  split
  · refine ⟨hs, ?_⟩
    intro b hb
    cases hb
  · next hc => exact ⟨hs, fun _ _ => hc⟩

theorem holds_fromExcept {Q : α → Prop} {x : Except ε α} (hx : ∀ a, x = .ok a → Q a) :
    Holds P Q (fromExcept x : Act ε σ α) := by
  intro s hs
  cases x with
  | error e =>
    refine ⟨hs, ?_⟩
    intro b hb
    cases hb
  | ok a =>
    refine ⟨hs, ?_⟩
    intro b hb
    cases hb
    exact hx a rfl

theorem holds_bind {Q : α → Prop} {Q' : β → Prop} {x : Act ε σ α} {f : α → Act ε σ β}
    (hx : Holds P Q x) (hf : ∀ a, Q a → Holds P Q' (f a)) : Holds P Q' (x >>= f) := by
  intro s hs
  obtain ⟨hstate, hvalue⟩ := hx s hs
  rw [exec_bind]
  rcases hr : exec x s with ⟨r, s'⟩
  rw [hr] at hstate hvalue
  cases r with
  | error e =>
    refine ⟨hstate, ?_⟩
    intro a ha
    cases ha
  | ok a => exact hf a (hvalue a rfl) s' hstate

end Holds

section Falls

variable {γ : Type} [PartialOrder γ] {f : σ → γ}

def Falls (f : σ → γ) (s s' : σ) : Prop := f s' ≤ f s

theorem falls_refl (s : σ) : Falls f s s := le_refl (f s)

theorem Falls.trans {a b c : σ} (h : Falls f a b) (h' : Falls f b c) : Falls f a c := le_trans h' h

theorem bind_stationary {x : Act ε σ α} {g : α → Act ε σ β} (hx : Keeps (Falls f) x)
    (hg : ∀ a, Keeps (Falls f) (g a)) (s : σ) :
    f (exec (x >>= g) s).2 = f s ↔
      f (exec x s).2 = f s ∧ ∀ a s', exec x s = (.ok a, s') → f (exec (g a) s').2 = f s := by
  have hfirst := hx s
  rw [exec_bind]
  rcases hs : exec x s with ⟨r, s'⟩
  rw [hs] at hfirst
  cases r with
  | error e => simp
  | ok a =>
    have hrest := hg a s'
    constructor
    · intro heq
      have hle : f s ≤ f s' := heq ▸ hrest
      refine ⟨le_antisymm hfirst hle, ?_⟩
      intro a' s'' h
      cases h
      exact heq
    · rintro ⟨-, h⟩
      exact h a s' rfl

end Falls

def Commutes (f : σ → σ) (x : Act ε σ α) : Prop :=
  ∀ s, exec x (f s) = ((exec x s).1, f (exec x s).2)

section Commutes

variable {f : σ → σ}

theorem commutes_pure (a : α) : Commutes f (pure a : Act ε σ α) := fun _ => rfl

theorem commutes_throw (e : ε) : Commutes f (throw e : Act ε σ α) := fun _ => rfl

theorem commutes_modify {g : σ → σ} (h : ∀ s, g (f s) = f (g s)) :
    Commutes f (modify g : Act ε σ PUnit) := by
  intro s
  rw [exec_modify, exec_modify, h]

theorem commutes_raiseIf (c : Prop) [Decidable c] (e : ε) :
    Commutes f (raiseIf c e : Act ε σ Unit) := by
  unfold raiseIf
  split
  · exact commutes_throw e
  · exact commutes_pure ()

theorem commutes_doIf (c : Prop) [Decidable c] {x : Act ε σ Unit} (h : Commutes f x) :
    Commutes f (doIf c x) := by
  unfold doIf
  split
  · exact h
  · exact commutes_pure ()

theorem commutes_fromExcept (x : Except ε α) : Commutes f (fromExcept x : Act ε σ α) := by
  cases x with
  | error e => exact commutes_throw e
  | ok a => exact commutes_pure a

theorem commutes_fromOption (e : ε) (x : Option α) : Commutes f (fromOption e x : Act ε σ α) := by
  cases x with
  | none => exact commutes_throw e
  | some a => exact commutes_pure a

theorem commutes_bind {x : Act ε σ α} {g : α → Act ε σ β} (hx : Commutes f x)
    (hg : ∀ a, Commutes f (g a)) : Commutes f (x >>= g) := by
  intro s
  have h := hx s
  rw [exec_bind, exec_bind, h]
  rcases exec x s with ⟨r, s'⟩
  cases r with
  | error e => rfl
  | ok a => exact hg a s'

theorem commutes_get_bind {g : σ → Act ε σ β} (heq : ∀ s, g (f s) = g s)
    (hg : ∀ s, Commutes f (g s)) : Commutes f (get >>= g) := by
  intro s
  rw [exec_get_bind, exec_get_bind, heq]
  exact hg s s

end Commutes

end Act
