import Mathlib.Data.List.Nodup
import Mathlib.Data.Set.Basic
import Mathlib.Logic.Function.Basic

namespace Coins

structure Kind (K O T : Type) where
  owner : O → K
  name : T → K
  spends : T → List O
  makes : T → O → Prop

variable {K O T : Type} {g : Kind K O T}

structure Index (g : Kind K O T) where
  has : K → Prop
  flag : O → Option Bool
  known : ∀ o, flag o ≠ none → has (g.owner o)

structure Applies (tx : T) (i i' : Index g) : Prop where
  fresh : ¬i.has (g.name tx)
  nodup : (g.spends tx).Nodup
  unspent : ∀ o ∈ g.spends tx, i.flag o = some false
  has_iff : ∀ k, i'.has k ↔ i.has k ∨ k = g.name tx
  spent : ∀ o ∈ g.spends tx, i'.flag o = some true
  kept : ∀ o, g.owner o ≠ g.name tx → o ∉ g.spends tx → i'.flag o = i.flag o
  made : ∀ o, g.owner o = g.name tx → (i'.flag o = some false ↔ g.makes tx o)

inductive Run : List T → Index g → Index g → Prop
  | nil (i : Index g) : Run [] i i
  | cons {tx : T} {rest : List T} {i i₁ i' : Index g} (head : Applies tx i i₁)
      (tail : Run rest i₁ i') : Run (tx :: rest) i i'

section Run

variable {tx : T} {txs : List T} {i i' : Index g} {o : O}

theorem Applies.owner_ne (h : Applies tx i i') (ho : i.flag o ≠ none) :
    g.owner o ≠ g.name tx := by
  intro heq
  exact h.fresh (heq ▸ i.known o ho)

theorem Run.has_iff (h : Run txs i i') (k : K) : i'.has k ↔ i.has k ∨ k ∈ txs.map g.name := by
  induction h with
  | nil i => simp
  | cons head tail ih =>
    rw [ih, head.has_iff, List.map_cons, List.mem_cons, or_assoc]

theorem Run.fresh (h : Run txs i i') : ∀ tx ∈ txs, ¬i.has (g.name tx) := by
  induction h with
  | nil i => simp
  | cons head tail ih =>
    refine List.forall_mem_cons.mpr ⟨head.fresh, fun tx htx hhas => ?_⟩
    exact ih tx htx ((head.has_iff _).mpr (.inl hhas))

theorem Run.name_inj (h : Run txs i i') {a b : T} (ha : a ∈ txs) (hb : b ∈ txs)
    (heq : g.name a = g.name b) : a = b := by
  induction h with
  | nil i => cases ha
  | @cons first rest i i₁ i' head tail ih =>
    have hlater : ∀ c ∈ rest, g.name c ≠ g.name first := by
      intro c hc hname
      exact tail.fresh c hc ((head.has_iff _).mpr (.inr hname))
    rcases List.mem_cons.mp ha with hfirst | harest
    · rcases List.mem_cons.mp hb with hfirst' | hbrest
      · exact hfirst.trans hfirst'.symm
      · exact absurd (heq.symm.trans (congrArg g.name hfirst)) (hlater b hbrest)
    · rcases List.mem_cons.mp hb with hfirst' | hbrest
      · exact absurd (heq.trans (congrArg g.name hfirst')) (hlater a harest)
      · exact ih harest hbrest

theorem Run.flag_spent (h : Run txs i i') (ho : i.flag o = some true) :
    i'.flag o = some true ∧ ∀ tx ∈ txs, o ∉ g.spends tx := by
  induction h with
  | nil i => exact ⟨ho, by simp⟩
  | @cons first rest i i₁ i' head tail ih =>
    have hnot : o ∉ g.spends first := by
      intro hin
      have hfalse := head.unspent o hin
      rw [ho] at hfalse
      cases hfalse
    have hown := head.owner_ne (o := o) (by rw [ho]; exact Option.some_ne_none _)
    obtain ⟨hflag, hrest⟩ := ih ((head.kept o hown hnot).trans ho)
    exact ⟨hflag, List.forall_mem_cons.mpr ⟨hnot, hrest⟩⟩

theorem Run.spent (h : Run txs i i') (htx : tx ∈ txs) (ho : o ∈ g.spends tx) :
    i'.flag o = some true := by
  induction h with
  | nil i => cases htx
  | cons head tail ih =>
    rcases List.mem_cons.mp htx with rfl | htx
    · exact (tail.flag_spent (head.spent o ho)).1
    · exact ih htx

theorem Run.kept (h : Run txs i i') (hown : g.owner o ∉ txs.map g.name)
    (hout : ∀ tx ∈ txs, o ∉ g.spends tx) : i'.flag o = i.flag o := by
  induction h with
  | nil i => rfl
  | cons head tail ih =>
    rw [List.map_cons, List.mem_cons, not_or] at hown
    rw [ih hown.2 fun tx htx => hout tx (List.mem_cons_of_mem _ htx)]
    exact head.kept o hown.1 (hout _ List.mem_cons_self)

theorem Run.made (h : Run txs i i') (htx : tx ∈ txs) (hown : g.owner o = g.name tx)
    (hout : ∀ tx ∈ txs, o ∉ g.spends tx) : i'.flag o = some false ↔ g.makes tx o := by
  induction h with
  | nil i => cases htx
  | @cons first rest i i₁ i' head tail ih =>
    have hrest : ∀ tx ∈ rest, o ∉ g.spends tx :=
      fun tx htx => hout tx (List.mem_cons_of_mem _ htx)
    rcases List.mem_cons.mp htx with rfl | htx
    · have hlater : g.owner o ∉ rest.map g.name := by
        intro hin
        obtain ⟨a, ha, hname⟩ := List.mem_map.mp hin
        exact tail.fresh a ha ((head.has_iff _).mpr (.inr (hname.trans hown)))
      rw [tail.kept hlater hrest]
      exact head.made o hown
    · exact ih htx hrest

theorem Run.source (h : Run txs i i') (htx : tx ∈ txs) (ho : o ∈ g.spends tx) :
    i.flag o = some false ∨ ∃ a ∈ txs, g.name a = g.owner o ∧ g.makes a o := by
  induction h with
  | nil i => cases htx
  | @cons first rest i i₁ i' head tail ih =>
    rcases List.mem_cons.mp htx with rfl | htx
    · exact .inl (head.unspent o ho)
    · rcases ih htx with hflag | ⟨a, ha, hname, hmakes⟩
      · by_cases hown : g.owner o = g.name first
        · exact .inr ⟨first, List.mem_cons_self, hown.symm, (head.made o hown).mp hflag⟩
        · have hnot : o ∉ g.spends first := by
            intro hin
            rw [head.spent o hin] at hflag
            cases hflag
          exact .inl ((head.kept o hown hnot).symm.trans hflag)
      · exact .inr ⟨a, List.mem_cons_of_mem _ ha, hname, hmakes⟩

end Run

def Backed (i : Index g) (p : K → Option T) (o : O) : Prop :=
  i.flag o = some false ∨ ¬i.has (g.owner o) ∧ ∃ tx, p (g.owner o) = some tx ∧ g.makes tx o

def PoolOk (i : Index g) (p : K → Option T) : Prop :=
  ∀ k tx, p k = some tx → ∀ o ∈ g.spends tx, Backed i p o

section Pool

variable {i i' i₀ : Index g} {p p' : K → Option T} {o : O}

theorem Backed.mono (h : Backed i p o) (hmore : ∀ k tx, p k = some tx → p' k = some tx) :
    Backed i p' o := by
  rcases h with hflag | ⟨hnot, tx, hp, hmakes⟩
  · exact .inl hflag
  · exact .inr ⟨hnot, tx, hmore _ _ hp, hmakes⟩

theorem PoolOk.insert [DecidableEq K] {tx : T} (h : PoolOk i p) (hfree : p (g.name tx) = none)
    (hback : ∀ o ∈ g.spends tx, Backed i p o) :
    PoolOk i (Function.update p (g.name tx) (some tx)) := by
  have hmore : ∀ k a, p k = some a → Function.update p (g.name tx) (some tx) k = some a := by
    intro k a hk
    rw [Function.update_of_ne, hk]
    rintro rfl
    rw [hfree] at hk
    cases hk
  intro k a hk o ho
  rcases eq_or_ne k (g.name tx) with rfl | hne
  · rw [Function.update_self] at hk
    obtain rfl := Option.some.inj hk
    exact (hback o ho).mono hmore
  · rw [Function.update_of_ne hne] at hk
    exact (h k a hk o ho).mono hmore

structure Switch (i₀ : Index g) (old new : List T) (p p' : K → Option T) : Prop where
  named : ∀ k tx, p k = some tx → g.name tx = k
  removed : ∀ k tx, p' k = some tx → k ∉ new.map g.name
  origin : ∀ k tx, p' k = some tx → p k = some tx ∨ tx ∈ old
  keeps : ∀ k tx, p k = some tx → k ∉ new.map g.name → p' k = some tx
  same : ∀ a ∈ new, ∀ tx, tx ∈ old ∨ p (g.name a) = some tx → g.name tx = g.name a → tx = a
  unspent : ∀ k tx, p' k = some tx → ∀ o ∈ g.spends tx, ∀ a ∈ new, o ∉ g.spends a
  returned : ∀ k tx, p' k = some tx → ∀ o ∈ g.spends tx, g.owner o ∈ old.map g.name →
    g.owner o ∈ new.map g.name ∨ ∃ r ∈ old, g.name r = g.owner o ∧ p' (g.owner o) = some r

variable {old new : List T}

theorem Switch.backed_of_source (h : Switch i₀ old new p p') (hold : Run old i₀ i)
    (hnew : Run new i₀ i') {k : K} {tx : T} (hk : p' k = some tx) (ho : o ∈ g.spends tx)
    (hsource : i₀.flag o = some false ∨ ∃ a ∈ old, g.name a = g.owner o ∧ g.makes a o) :
    Backed i' p' o := by
  have hout : ∀ a ∈ new, o ∉ g.spends a := h.unspent k tx hk o ho
  rcases hsource with hflag | ⟨a, ha, hname, hmakes⟩
  · have hown : g.owner o ∉ new.map g.name := by
      intro hin
      obtain ⟨b, hb, hb'⟩ := List.mem_map.mp hin
      refine hnew.fresh b hb ?_
      rw [hb']
      exact i₀.known o (by rw [hflag]; exact Option.some_ne_none _)
    exact .inl ((hnew.kept hown hout).trans hflag)
  · by_cases hown : g.owner o ∈ new.map g.name
    · obtain ⟨b, hb, hb'⟩ := List.mem_map.mp hown
      obtain rfl := h.same b hb a (.inl ha) (hname.trans hb'.symm)
      exact .inl ((hnew.made hb hb'.symm hout).mpr hmakes)
    · rcases h.returned k tx hk o ho (List.mem_map.mpr ⟨a, ha, hname⟩) with hin | ⟨r, hr, hr', hp⟩
      · exact absurd hin hown
      · obtain rfl := hold.name_inj hr ha (hr'.trans hname.symm)
        refine .inr ⟨?_, r, hp, hmakes⟩
        rw [hnew.has_iff, not_or]
        refine ⟨?_, hown⟩
        rw [← hname]
        exact hold.fresh r hr

theorem PoolOk.switch (hp : PoolOk i p) (h : Switch i₀ old new p p') (hold : Run old i₀ i)
    (hnew : Run new i₀ i') : PoolOk i' p' := by
  intro k tx hk o ho
  rcases h.origin k tx hk with hbefore | hundone
  · rcases hp k tx hbefore o ho with hflag | ⟨hnot, txPrev, hprev, hmakes⟩
    · refine h.backed_of_source hold hnew hk ho ?_
      have hout : ∀ a ∈ old, o ∉ g.spends a := by
        intro a ha hin
        rw [hold.spent ha hin] at hflag
        cases hflag
      by_cases hown : g.owner o ∈ old.map g.name
      · obtain ⟨a, ha, hname⟩ := List.mem_map.mp hown
        exact .inr ⟨a, ha, hname, (hold.made ha hname.symm hout).mp hflag⟩
      · exact .inl ((hold.kept hown hout).symm.trans hflag)
    · rw [hold.has_iff, not_or] at hnot
      by_cases hown : g.owner o ∈ new.map g.name
      · obtain ⟨b, hb, hb'⟩ := List.mem_map.mp hown
        have hname := h.named _ _ hprev
        obtain rfl := h.same b hb txPrev (.inr (by rw [hb']; exact hprev)) (hname.trans hb'.symm)
        exact .inl ((hnew.made hb hb'.symm (h.unspent k tx hk o ho)).mpr hmakes)
      · refine .inr ⟨?_, txPrev, h.keeps _ _ hprev hown, hmakes⟩
        rw [hnew.has_iff, not_or]
        exact ⟨hnot.1, hown⟩
  · exact h.backed_of_source hold hnew hk ho (hold.source hundone ho)

end Pool

end Coins
