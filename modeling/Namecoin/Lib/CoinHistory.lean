import Namecoin.Lib.Coins

namespace Coins

variable {K O T : Type} {g : Kind K O T} {txs : List T} {i i' : Index g}

-- Every coin is spent at most once, and only after a transaction has made it.
structure Causal (g : Kind K O T) (txs : List T) : Prop where
  named : (txs.map g.name).Nodup
  nodup : ∀ tx ∈ txs, (g.spends tx).Nodup
  made : ∀ pre tx post, txs = pre ++ tx :: post → ∀ o ∈ g.spends tx,
    ∃ a ∈ pre, g.name a = g.owner o ∧ g.makes a o
  once : ∀ pre tx post, txs = pre ++ tx :: post → ∀ o ∈ g.spends tx,
    ∀ b ∈ pre ++ post, o ∉ g.spends b

structure Reflects (txs : List T) (i : Index g) : Prop where
  has_iff : ∀ k, i.has k ↔ k ∈ txs.map g.name
  unspent : ∀ o, i.flag o = some false ↔
    (∃ a ∈ txs, g.name a = g.owner o ∧ g.makes a o) ∧ ∀ tx ∈ txs, o ∉ g.spends tx
  spent : ∀ tx ∈ txs, ∀ o ∈ g.spends tx, i.flag o = some true

theorem Run.split {xs ys : List T} (h : Run (xs ++ ys) i i') : ∃ j, Run xs i j ∧ Run ys j i' := by
  induction xs generalizing i with
  | nil => exact ⟨i, .nil i, h⟩
  | cons x xs ih =>
    cases h with
    | cons head tail =>
      obtain ⟨j, hxs, hys⟩ := ih tail
      exact ⟨j, .cons head hxs, hys⟩

theorem Run.named (h : Run txs i i') : (txs.map g.name).Nodup := by
  induction h with
  | nil i => exact List.nodup_nil
  | @cons first rest i i₁ i' head tail ih =>
    rw [List.map_cons, List.nodup_cons]
    refine ⟨fun hin => ?_, ih⟩
    obtain ⟨a, ha, hname⟩ := List.mem_map.mp hin
    exact tail.fresh a ha ((head.has_iff _).mpr (.inr hname))

theorem Run.flag_source (h : Run txs i i') {o : O} (ho : i'.flag o = some false) :
    (i.flag o = some false ∨ ∃ a ∈ txs, g.name a = g.owner o ∧ g.makes a o) ∧
      ∀ tx ∈ txs, o ∉ g.spends tx := by
  have hout : ∀ tx ∈ txs, o ∉ g.spends tx := by
    intro tx htx hin
    rw [h.spent htx hin] at ho
    cases ho
  refine ⟨?_, hout⟩
  by_cases hown : g.owner o ∈ txs.map g.name
  · obtain ⟨a, ha, hname⟩ := List.mem_map.mp hown
    exact .inr ⟨a, ha, hname, (h.made ha hname.symm hout).mp ho⟩
  · exact .inl ((h.kept hown hout).symm.trans ho)

theorem flag_of_empty (hempty : ∀ k, ¬i.has k) (o : O) : i.flag o = none := by
  by_contra hne
  exact hempty _ (i.known o hne)

theorem Run.reflects (h : Run txs i i') (hempty : ∀ k, ¬i.has k) : Reflects txs i' where
  has_iff k := by
    rw [h.has_iff]
    exact or_iff_right (hempty k)
  unspent o := by
    constructor
    · intro ho
      obtain ⟨hsource, hout⟩ := h.flag_source ho
      rw [flag_of_empty hempty o] at hsource
      exact ⟨hsource.resolve_left (by simp), hout⟩
    · rintro ⟨⟨a, ha, hname, hmakes⟩, hout⟩
      exact (h.made ha hname.symm hout).mpr hmakes
  spent tx htx o ho := h.spent htx ho

theorem Run.causal (h : Run txs i i') (hempty : ∀ k, ¬i.has k) : Causal g txs := by
  have hat : ∀ pre tx post, txs = pre ++ tx :: post → ∃ j j₁, Run pre i j ∧ Applies tx j j₁ ∧
      Run post j₁ i' := by
    rintro pre tx post rfl
    obtain ⟨j, hpre, hrest⟩ := h.split
    cases hrest with
    | cons head tail => exact ⟨j, _, hpre, head, tail⟩
  refine ⟨h.named, fun tx htx => ?_, fun pre tx post heq o ho => ?_, fun pre tx post heq o ho b hb => ?_⟩
  · obtain ⟨pre, post, heq⟩ := List.append_of_mem htx
    obtain ⟨j, j₁, -, head, -⟩ := hat pre tx post heq
    exact head.nodup
  · obtain ⟨j, j₁, hpre, head, -⟩ := hat pre tx post heq
    have hsource := (hpre.flag_source (head.unspent o ho)).1
    rw [flag_of_empty hempty o] at hsource
    exact hsource.resolve_left (by simp)
  · obtain ⟨j, j₁, hpre, head, tail⟩ := hat pre tx post heq
    rcases List.mem_append.mp hb with hearlier | hlater
    · exact (hpre.flag_source (head.unspent o ho)).2 b hearlier
    · exact (tail.flag_spent (head.spent o ho)).2 b hlater

end Coins
