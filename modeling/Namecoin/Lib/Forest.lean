import Mathlib

namespace Forest

variable {V : Type} {parent next : V → Option V} {height : V → Nat}

def Anc (parent : V → Option V) (a v : V) : Prop :=
  Relation.ReflTransGen (fun x y => parent x = some y) v a

def Graded (parent : V → Option V) (height : V → Nat) : Prop :=
  ∀ x y, parent x = some y → height x = height y + 1

def Threaded (parent next : V → Option V) (v : V) : Prop :=
  ∀ h q, next h = some q ↔ Anc parent q v ∧ parent q = some h

def path (parent : V → Option V) : Nat → V → List V
  | 0, _ => []
  | fuel + 1, v => v :: ((parent v).map (path parent fuel)).getD []

def link [DecidableEq V] (parent : V → Option V) (c : V) (n : Option V) (next : V → Option V) :
    V → Option V :=
  match parent c with
  | none => next
  | some p => Function.update next p n

def unlinkAll [DecidableEq V] (parent : V → Option V) (ds : List V) (next : V → Option V) :
    V → Option V :=
  ds.foldl (fun m d => link parent d none m) next

def linkAll [DecidableEq V] (parent : V → Option V) (cs : List V) (next : V → Option V) :
    V → Option V :=
  cs.foldl (fun m c => link parent c (some c) m) next

def forward (next : V → Option V) : Nat → Option V → List V
  | 0, _ => []
  | _, none => []
  | fuel + 1, some h => h :: forward next fuel (next h)

theorem Anc.refl (v : V) : Anc parent v v := Relation.ReflTransGen.refl

theorem Anc.up {a b v : V} (h : Anc parent a v) (hb : parent a = some b) : Anc parent b v := h.tail hb

theorem Anc.cases_self {a v : V} (h : Anc parent a v) :
    a = v ∨ ∃ p, parent v = some p ∧ Anc parent a p := by
  rcases Relation.ReflTransGen.cases_head h with h | ⟨p, hp, h⟩
  · exact .inl h.symm
  · exact .inr ⟨p, hp, h⟩

theorem Anc.child {a v : V} (h : Anc parent a v) (hne : a ≠ v) :
    ∃ c, Anc parent c v ∧ parent c = some a := by
  rcases Relation.ReflTransGen.cases_tail h with h | ⟨c, hc, hp⟩
  · exact absurd h hne
  · exact ⟨c, hc, hp⟩

theorem Anc.height_le (hg : Graded parent height) {a v : V} (h : Anc parent a v) :
    height a ≤ height v := by
  induction h with
  | refl => exact le_rfl
  | tail _ hp ih =>
    have := hg _ _ hp
    omega

theorem Anc.linear {a b v : V} (ha : Anc parent a v) (hb : Anc parent b v) :
    Anc parent a b ∨ Anc parent b a := by
  have hu : Relator.RightUnique (fun x y : V => parent x = some y) := by
    intro x y z hy hz
    exact Option.some.inj (hy.symm.trans hz)
  exact (Relation.ReflTransGen.total_of_right_unique hu ha hb).symm

theorem Anc.eq_of_height (hg : Graded parent height) {a b : V} (h : Anc parent a b)
    (heq : height a = height b) : a = b := by
  rcases h.cases_self with h | ⟨p, hp, h⟩
  · exact h
  · have := h.height_le hg
    have := hg _ _ hp
    omega

theorem Anc.unique_child (hg : Graded parent height) {a b v h : V} (ha : Anc parent a v)
    (hb : Anc parent b v) (hpa : parent a = some h) (hpb : parent b = some h) : a = b := by
  have h1 := hg _ _ hpa
  have h2 := hg _ _ hpb
  rcases ha.linear hb with h | h
  · exact h.eq_of_height hg (by omega)
  · exact (h.eq_of_height hg (by omega)).symm

theorem Anc.of_root {a r v : V} (hr : parent r = none) (hrv : Anc parent r v)
    (ha : Anc parent a v) : Anc parent r a := by
  rcases hrv.linear ha with h | h
  · exact h
  · rcases h.cases_self with rfl | ⟨p, hp, -⟩
    · exact .refl _
    · rw [hr] at hp
      cases hp

theorem Anc.congr {parent' : V → Option V} {a v : V}
    (hp : ∀ x, Anc parent x v → parent' x = parent x) (ha : Anc parent a v) : Anc parent' a v := by
  induction ha with
  | refl => exact .refl _
  | tail hb hc ih => exact ih.up ((hp _ hb).trans hc)

theorem anc_congr {parent' : V → Option V} {a v : V}
    (hp : ∀ x, Anc parent x v → parent' x = parent x) :
    Anc parent' a v ↔ Anc parent a v := by
  constructor
  · intro h
    induction h with
    | refl => exact .refl _
    | tail _ hc ih => exact ih.up ((hp _ ih).symm.trans hc)
  · exact Anc.congr hp

theorem Threaded.congr {parent' : V → Option V} {v : V} (ht : Threaded parent next v)
    (hp : ∀ x, Anc parent x v → parent' x = parent x) : Threaded parent' next v := by
  intro h q
  rw [ht h q, anc_congr hp]
  constructor
  · rintro ⟨hq, hh⟩
    exact ⟨hq, (hp q hq).trans hh⟩
  · rintro ⟨hq, hh⟩
    exact ⟨hq, (hp q hq).symm.trans hh⟩

theorem Threaded.top (hg : Graded parent height) {v : V} (ht : Threaded parent next v) :
    next v = none := by
  cases hn : next v with
  | none => rfl
  | some q =>
    obtain ⟨hq, hp⟩ := (ht v q).mp hn
    have := hq.height_le hg
    have := hg _ _ hp
    omega

theorem Threaded.forward_eq (hg : Graded parent height) {v : V} (ht : Threaded parent next v)
    {a : V} (ha : Anc parent a v) :
    ∃ chain : List V, (∀ fuel, chain.length ≤ fuel → forward next fuel (some a) = chain) ∧
      (∀ h, h ∈ chain ↔ Anc parent h v ∧ Anc parent a h) ∧
      chain.map height = List.range' (height a) (height v - height a + 1) ∧
      chain.getLast? = some v := by
  induction hn : height v - height a generalizing a with
  | zero =>
    have hle := ha.height_le hg
    obtain rfl := ha.eq_of_height hg (by omega)
    refine ⟨[a], ?_, ?_, by simp, rfl⟩
    · intro fuel hfuel
      obtain ⟨k, rfl⟩ := Nat.exists_eq_add_of_le' hfuel
      simp only [List.length_singleton, forward, ht.top hg]
      cases k <;> rfl
    · intro h
      rw [List.mem_singleton]
      constructor
      · rintro rfl
        exact ⟨.refl _, .refl _⟩
      · rintro ⟨h1, h2⟩
        have := h1.height_le hg
        have := h2.height_le hg
        exact h1.eq_of_height hg (by omega)
  | succ n ih =>
    have hne : a ≠ v := by
      rintro rfl
      simp at hn
    obtain ⟨c, hc, hp⟩ := ha.child hne
    have hca := hg _ _ hp
    have hcv := hc.height_le hg
    obtain ⟨chain, hwalk, hmem, hheights, hlast⟩ := ih hc (by omega)
    refine ⟨a :: chain, ?_, ?_, ?_, ?_⟩
    · intro fuel hfuel
      obtain ⟨k, rfl⟩ := Nat.exists_eq_succ_of_ne_zero
        (by simp only [List.length_cons] at hfuel; omega : fuel ≠ 0)
      rw [forward, (ht a c).mpr ⟨hc, hp⟩, hwalk k (by simpa using hfuel)]
    · intro h
      rw [List.mem_cons, hmem]
      constructor
      · rintro (rfl | ⟨h1, h2⟩)
        · exact ⟨ha, .refl _⟩
        · exact ⟨h1, h2.up hp⟩
      · rintro ⟨h1, h2⟩
        by_cases heq : a = h
        · exact .inl heq.symm
        · obtain ⟨c', hc', hp'⟩ := h2.child heq
          obtain rfl := hc.unique_child hg (Relation.ReflTransGen.trans h1 hc') hp hp'
          exact .inr ⟨h1, hc'⟩
    · rw [List.map_cons, hheights, hca]
      rfl
    · cases chain with
      | nil => cases hlast
      | cons x rest => exact hlast

theorem mem_path_takeWhile [DecidableEq V] (hg : Graded parent height) {fuel : Nat} {f v x : V}
    (hfuel : height v < fuel) (hf : Anc parent f v) :
    x ∈ (path parent fuel v).takeWhile (fun y => decide (y ≠ f)) ↔
      Anc parent x v ∧ ¬Anc parent x f := by
  induction fuel generalizing v with
  | zero => exact absurd hfuel (by omega)
  | succ fuel ih =>
    by_cases hv : v = f
    · subst hv
      simp [path]
    · rcases hf.cases_self with h | ⟨p, hp, hfp⟩
      · exact absurd h.symm hv
      · have hpv := hg _ _ hp
        have hlow : ¬Anc parent v f := by
          intro h
          have := h.height_le hg
          have := hfp.height_le hg
          omega
        have hstep : path parent (fuel + 1) v = v :: path parent fuel p := by rw [path, hp]; rfl
        rw [hstep, List.takeWhile_cons_of_pos (by simpa using hv), List.mem_cons,
          ih (by omega) hfp]
        constructor
        · rintro (rfl | ⟨h1, h2⟩)
          · exact ⟨.refl _, hlow⟩
          · exact ⟨Relation.ReflTransGen.head hp h1, h2⟩
        · rintro ⟨h1, h2⟩
          rcases h1.cases_self with h | ⟨p', hp', h⟩
          · exact .inl h
          · rw [hp] at hp'
            cases hp'
            exact .inr ⟨h, h2⟩

theorem anc_of_mem_path {fuel : Nat} {v x : V} (hx : x ∈ path parent fuel v) : Anc parent x v := by
  induction fuel generalizing v with
  | zero => cases hx
  | succ fuel ih =>
    rw [path] at hx
    rcases List.mem_cons.mp hx with rfl | hx
    · exact .refl _
    · cases hp : parent v with
      | none =>
        rw [hp] at hx
        cases hx
      | some p =>
        rw [hp] at hx
        exact Relation.ReflTransGen.head hp (ih hx)

structure Meet (parent : V → Option V) (a b c : V) : Prop where
  left : Anc parent c a
  right : Anc parent c b
  greatest : ∀ x, Anc parent x a → Anc parent x b → Anc parent x c

theorem Anc.meet {a b : V} (h : Anc parent a b) : Meet parent a b a := ⟨.refl a, h, fun _ hx _ => hx⟩

theorem Meet.ofParent {a b c p : V} (h : Meet parent p b c) (hp : parent a = some p)
    (ha : ¬Anc parent a b) : Meet parent a b c := by
  refine ⟨Relation.ReflTransGen.head hp h.left, h.right, fun x hxa hxb => ?_⟩
  rcases hxa.cases_self with rfl | ⟨q, hq, hxq⟩
  · exact absurd hxb ha
  · rw [hp] at hq
    cases hq
    exact h.greatest x hxq hxb

theorem Meet.ofLower {a b b' c : V} (h : Meet parent a b' c) (hb : Anc parent b' b)
    (hall : ∀ x, Anc parent x a → Anc parent x b → Anc parent x b') : Meet parent a b c :=
  ⟨h.left, Relation.ReflTransGen.trans hb h.right,
    fun x hxa hxb => h.greatest x hxa (hall x hxa hxb)⟩

inductive Descends (parent : V → Option V) (f : V) : V → List V → Prop
  | stop : Descends parent f f []
  | down {v p : V} {rest : List V} (step : parent v = some p) (tail : Descends parent f p rest) :
      Descends parent f v (v :: rest)

theorem Anc.descends [DecidableEq V] (hg : Graded parent height) {fuel : Nat} {f v : V}
    (hfuel : height v < fuel) (hf : Anc parent f v) :
    Descends parent f v ((path parent fuel v).takeWhile (fun y => decide (y ≠ f))) := by
  induction fuel generalizing v with
  | zero => exact absurd hfuel (by omega)
  | succ fuel ih =>
    by_cases hv : v = f
    · subst hv
      rw [path, List.takeWhile_cons_of_neg (by simp)]
      exact .stop
    · rcases hf.cases_self with h | ⟨p, hp, hfp⟩
      · exact absurd h.symm hv
      · have hpv := hg _ _ hp
        have hstep : path parent (fuel + 1) v = v :: path parent fuel p := by rw [path, hp]; rfl
        rw [hstep, List.takeWhile_cons_of_pos (by simpa using hv)]
        exact .down hp (ih (by omega) hfp)

section Links

variable [DecidableEq V]

theorem link_apply (c : V) (n : Option V) (m : V → Option V) (h : V) :
    link parent c n m h = if parent c = some h then n else m h := by
  unfold link
  cases hp : parent c with
  | none => simp
  | some p =>
    by_cases hh : p = h
    · subst hh
      simp
    · simp [hh, Function.update_of_ne (fun he => hh he.symm)]

theorem unlinkAll_apply (ds : List V) (m : V → Option V) (h : V) :
    unlinkAll parent ds m h = if ∃ d ∈ ds, parent d = some h then none else m h := by
  induction ds generalizing m with
  | nil => simp [unlinkAll]
  | cons d ds ih =>
    have hstep : unlinkAll parent (d :: ds) m = unlinkAll parent ds (link parent d none m) := rfl
    rw [hstep, ih, link_apply]
    by_cases hd : parent d = some h
    · simp [hd]
    · simp [hd]

theorem linkAll_of_not_mem (cs : List V) (m : V → Option V) {h : V}
    (hcs : ∀ c ∈ cs, parent c ≠ some h) : linkAll parent cs m h = m h := by
  induction cs generalizing m with
  | nil => rfl
  | cons c cs ih =>
    have hstep : linkAll parent (c :: cs) m = linkAll parent cs (link parent c (some c) m) := rfl
    rw [hstep, ih _ (fun d hd => hcs d (List.mem_cons_of_mem _ hd)), link_apply,
      if_neg (hcs c List.mem_cons_self)]

theorem linkAll_of_mem (cs : List V) (m : V → Option V) {h c : V} (hc : c ∈ cs)
    (hp : parent c = some h) (huniq : ∀ d ∈ cs, parent d = some h → d = c) :
    linkAll parent cs m h = some c := by
  induction cs generalizing m with
  | nil => cases hc
  | cons d cs ih =>
    have hstep : linkAll parent (d :: cs) m = linkAll parent cs (link parent d (some d) m) := rfl
    rw [hstep]
    by_cases hrest : c ∈ cs
    · exact ih _ hrest (fun x hx => huniq x (List.mem_cons_of_mem _ hx))
    · have hdc : c = d := (List.mem_cons.mp hc).resolve_right hrest
      subst hdc
      rw [linkAll_of_not_mem, link_apply, if_pos hp]
      intro x hx hxp
      exact hrest (huniq x (List.mem_cons_of_mem _ hx) hxp ▸ hx)

theorem Threaded.relink (hg : Graded parent height) {v w f : V} (ht : Threaded parent next v)
    (hfv : Anc parent f v) (hfw : Anc parent f w) {ds cs : List V}
    (hds : ∀ d, d ∈ ds ↔ Anc parent d v ∧ ¬Anc parent d f)
    (hcs : ∀ c, c ∈ cs ↔ Anc parent c w ∧ ¬Anc parent c f) :
    Threaded parent (linkAll parent cs (unlinkAll parent ds next)) w := by
  intro h q
  by_cases hex : ∃ c ∈ cs, parent c = some h
  · obtain ⟨c, hc, hp⟩ := hex
    have hcw := ((hcs c).mp hc).1
    rw [linkAll_of_mem cs _ hc hp
      (fun d hd hdp => ((hcs d).mp hd).1.unique_child hg hcw hdp hp)]
    constructor
    · intro he
      cases he
      exact ⟨hcw, hp⟩
    · rintro ⟨hq, hqp⟩
      rw [hcw.unique_child hg hq hp hqp]
  · have hno : ∀ c ∈ cs, parent c ≠ some h := fun c hc hp => hex ⟨c, hc, hp⟩
    rw [linkAll_of_not_mem cs _ hno, unlinkAll_apply]
    constructor
    · intro hn
      split at hn
      · cases hn
      · next hnd =>
        obtain ⟨hq, hqp⟩ := (ht h q).mp hn
        have hqf : Anc parent q f := by
          by_contra hqf
          exact hnd ⟨q, (hds q).mpr ⟨hq, hqf⟩, hqp⟩
        exact ⟨Relation.ReflTransGen.trans hfw hqf, hqp⟩
    · rintro ⟨hq, hqp⟩
      have hqf : Anc parent q f := by
        by_contra hqf
        exact hno q ((hcs q).mpr ⟨hq, hqf⟩) hqp
      have hqv : Anc parent q v := Relation.ReflTransGen.trans hfv hqf
      have hnd : ¬∃ d ∈ ds, parent d = some h := by
        rintro ⟨d, hd, hdp⟩
        obtain ⟨hdv, hdf⟩ := (hds d).mp hd
        exact hdf (hdv.unique_child hg hqv hdp hqp ▸ hqf)
      rw [if_neg hnd]
      exact (ht h q).mpr ⟨hqv, hqp⟩

theorem Threaded.extend (hg : Graded parent height) {v w : V} (ht : Threaded parent next v)
    (hw : parent w = some v) : Threaded parent (link parent w (some w) next) w := by
  have hlow : ¬Anc parent w v := by
    intro h
    have := h.height_le hg
    have := hg _ _ hw
    omega
  have hvw : Anc parent v w := Relation.ReflTransGen.single hw
  refine @Threaded.relink V parent next height _ hg v w v ht (.refl _) hvw [] [w] ?_ ?_
  · intro d
    simp
  · intro c
    rw [List.mem_singleton]
    constructor
    · rintro rfl
      exact ⟨.refl _, hlow⟩
    · rintro ⟨hc, hcv⟩
      rcases hc.cases_self with h | ⟨p, hp, h⟩
      · exact h
      · rw [hw] at hp
        cases hp
        exact absurd h hcv

end Links

end Forest
