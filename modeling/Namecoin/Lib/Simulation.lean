import Namecoin.Lib.Act

namespace Simulation

variable {σ α ι ω : Type*}

def trace (step : σ → ι → ω × σ) : σ → List ι → List (ω × σ)
  | _, [] => []
  | s, i :: is => step s i :: trace step (step s i).2 is

def Allowed (step : σ → ι → ω × σ) (ok : σ → ι → Prop) : σ → List ι → Prop
  | _, [] => True
  | s, i :: is => ok s i ∧ Allowed step ok (step s i).2 is

structure Simulates (step : σ → ι → ω × σ) (spec : α → ι → ω × α) (abs : σ → α)
    (inv : σ → Prop) (ok : σ → ι → Prop) : Prop where
  keeps : ∀ s i, inv s → ok s i → inv (step s i).2
  output : ∀ s i, inv s → ok s i → (step s i).1 = (spec (abs s) i).1
  state : ∀ s i, inv s → ok s i → abs (step s i).2 = (spec (abs s) i).2

variable {step : σ → ι → ω × σ} {spec : α → ι → ω × α} {abs : σ → α} {inv : σ → Prop}
  {ok : σ → ι → Prop} {s : σ} {is : List ι}

theorem Simulates.trace_eq (h : Simulates step spec abs inv ok) (hs : inv s)
    (hok : Allowed step ok s is) :
    (trace step s is).map (Prod.map id abs) = trace spec (abs s) is := by
  induction is generalizing s with
  | nil => rfl
  | cons i is ih =>
    obtain ⟨hi, his⟩ := hok
    have hstep : Prod.map id abs (step s i) = spec (abs s) i :=
      Prod.ext (h.output s i hs hi) (h.state s i hs hi)
    have hrest := ih (h.keeps s i hs hi) his
    rw [h.state s i hs hi] at hrest
    rw [trace, List.map_cons, hstep, hrest, trace]

end Simulation

namespace Act

-- Started in the image of the state, y answers as x does and ends in the image of its end.
def Imitates {ε σ τ α : Type} (f : σ → τ) (y : Act ε τ α) (x : Act ε σ α) (s : σ) : Prop :=
  exec y (f s) = ((exec x s).1, f (exec x s).2)

section Imitates

variable {ε σ τ α β : Type} {f : σ → τ} {s : σ}

theorem imitates_pure (a : α) : Imitates f (pure a : Act ε τ α) (pure a) s := rfl

theorem imitates_throw (e : ε) : Imitates f (throw e : Act ε τ α) (throw e) s := rfl

theorem imitates_modify {g : τ → τ} {h : σ → σ} (heq : g (f s) = f (h s)) :
    Imitates f (modify g : Act ε τ PUnit) (modify h) s := by
  rw [Imitates, exec_modify, exec_modify, heq]

theorem imitates_fromOption {e : ε} {x x' : Option α} (heq : x' = x) :
    Imitates f (fromOption e x' : Act ε τ α) (fromOption e x) s := by
  subst heq
  cases x' <;> rfl

theorem imitates_fromExcept (x : Except ε α) :
    Imitates f (fromExcept x : Act ε τ α) (fromExcept x) s := by
  cases x <;> rfl

theorem imitates_doIf {c c' : Prop} [Decidable c] [Decidable c'] {y : Act ε τ Unit}
    {x : Act ε σ Unit} (hc : c' ↔ c) (h : c → Imitates f y x s) :
    Imitates f (doIf c' y) (doIf c x) s := by
  by_cases hpos : c
  · rw [doIf, doIf, if_pos hpos, if_pos (hc.mpr hpos)]
    exact h hpos
  · rw [doIf, doIf, if_neg hpos, if_neg fun hpos' => hpos (hc.mp hpos')]
    exact imitates_pure ()

theorem imitates_bind {y : Act ε τ α} {x : Act ε σ α} {g' : α → Act ε τ β} {g : α → Act ε σ β}
    (hx : Imitates f y x s)
    (hg : ∀ a s', exec x s = (.ok a, s') → Imitates f (g' a) (g a) s') :
    Imitates f (y >>= g') (x >>= g) s := by
  rw [Imitates, exec_bind, exec_bind, hx]
  rcases hrun : exec x s with ⟨r, s'⟩
  cases r with
  | error e => rfl
  | ok a => exact hg a s' hrun

theorem imitates_get_bind {g' : τ → Act ε τ β} {g : σ → Act ε σ β}
    (hg : Imitates f (g' (f s)) (g s) s) : Imitates f (get >>= g') (get >>= g) s := by
  rw [Imitates, exec_get_bind, exec_get_bind]
  exact hg

end Imitates

end Act
