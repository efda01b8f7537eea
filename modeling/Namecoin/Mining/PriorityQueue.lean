import Namecoin.Mining.Assemble

namespace Namecoin

-- The parents a transaction waits for, as far as the loop over its inputs comes.
def dependsOn (env : Env) (s : NodeState) : List (CTxIn × CTxInCache) → List Uint256
  | [] => []
  | (txin, cache) :: rest =>
    if cache.fHasPrevInfo = false then []
    else if (visitInput env s cache).2 = none then txin.prevout.hash :: dependsOn env s rest
    else dependsOn env s rest

def hasPrevInfo (ins : List (CTxIn × CTxInCache)) : Bool := ins.all fun p => p.2.fHasPrevInfo

namespace MinerNode

def parents (env : Env) (s : MinerNode) (hash : Uint256) : List Uint256 :=
  match s.node.mapTransactions hash with
  | none => []
  | some tx => dependsOn env s.node (s.cachedVin hash tx)

def queued (e : NodeEnv) (s : MinerNode) (hash : Uint256) : Bool :=
  s.visits e hash && (!(s.parents e.env hash).isEmpty ||
    (s.node.mapTransactions hash).any fun tx => hasPrevInfo (s.cachedVin hash tx))

def plan (e : NodeEnv) (s : MinerNode) (hashes : List Uint256) : Waiting.Plan Uint256 Uint256 where
  jobs := (hashes.filter (s.queued e)).toFinset
  deps hash := (s.parents e.env hash).toFinset

end MinerNode

section Visit

variable {D : Type} {m : Doubles D} {env : Env} {s : NodeState}

theorem visitTx_ok {ins : List (CTxIn × CTxInCache)} {d : D} {r : VisitedTx D}
    (h : visitTx m env s ins d = .ok r) :
    r.setDependsOn = dependsOn env s ins ∧ r.dPriority.isSome = hasPrevInfo ins := by
  induction ins generalizing d r with
  | nil =>
    obtain rfl := Except.ok.inj h
    exact ⟨rfl, rfl⟩
  | cons first rest ih =>
    obtain ⟨txin, cache⟩ := first
    rw [visitTx] at h
    rw [dependsOn, hasPrevInfo, List.all_cons]
    split at h
    · rename_i hinfo
      obtain rfl := Except.ok.inj h
      rw [if_pos hinfo, hinfo]
      exact ⟨rfl, rfl⟩
    · rename_i hinfo
      have htrue : cache.fHasPrevInfo = true := by simpa using hinfo
      rw [if_neg hinfo, htrue, Bool.true_and]
      split at h
      · rename_i cache' hvisit
        obtain ⟨r', hrest, h⟩ := Except.bind_eq_ok.mp h
        obtain rfl := Except.ok.inj h
        obtain ⟨hdeps, hprio⟩ := ih hrest
        rw [hvisit, if_pos rfl]
        exact ⟨congrArg _ hdeps, hprio⟩
      · rename_i cache' nConf hvisit
        obtain ⟨-, -, h⟩ := Except.bind_eq_ok.mp h
        obtain ⟨r', hrest, h⟩ := Except.bind_eq_ok.mp h
        obtain rfl := Except.ok.inj h
        obtain ⟨hdeps, hprio⟩ := ih hrest
        rw [hvisit, if_neg (by simp)]
        exact ⟨hdeps, hprio⟩

end Visit

section Insert

variable {D : Type} {m : Doubles D}

theorem insertPriority_perm (x : D × Uint256) (l : List (D × Uint256)) :
    (insertPriority m x l).Perm (x :: l) := by
  induction l with
  | nil => exact .refl _
  | cons y rest ih =>
    rw [insertPriority]
    split
    · exact .refl _
    · exact (ih.cons y).trans (.swap x y rest)

theorem insertPriority_hashes (x : D × Uint256) (l : List (D × Uint256)) :
    ((insertPriority m x l).map Prod.snd).Perm (l.map Prod.snd ++ [x.2]) :=
  ((insertPriority_perm x l).map Prod.snd).trans (List.perm_append_singleton _ _).symm

theorem mem_pushDependers {porphan i : Nat} {hash : Uint256} {deps : List Uint256}
    {mapDependers : Uint256 → List Nat} :
    i ∈ pushDependers porphan mapDependers deps hash ↔
      i ∈ mapDependers hash ∨ i = porphan ∧ hash ∈ deps := by
  unfold pushDependers
  induction deps generalizing mapDependers with
  | nil => simp
  | cons first rest ih =>
    rw [List.foldl_cons, ih, List.mem_cons]
    by_cases hfirst : hash = first
    · subst hfirst
      simp only [Function.update_self, List.mem_append, List.mem_singleton, true_or, and_true]
      tauto
    · simp only [Function.update_of_ne hfirst, hfirst, false_or]

end Insert

section Release

variable {D : Type} {m : Doubles D}

def COrphan.drop (hash : Uint256) (o : COrphan D) : COrphan D :=
  { o with setDependsOn := o.setDependsOn.erase hash }

def dropAt (hash : Uint256) (l : List Nat) (vOrphan : List (COrphan D)) : List (COrphan D) :=
  vOrphan.mapIdx fun i o => if i ∈ l then o.drop hash else o

-- An orphan that waits for the hash alone.
def COrphan.waitsOnly (hash : Uint256) (o : COrphan D) : Prop :=
  o.setDependsOn ≠ ∅ ∧ o.setDependsOn.erase hash = ∅

theorem COrphan.drop_drop (hash : Uint256) (o : COrphan D) : (o.drop hash).drop hash = o.drop hash := by
  simp [drop]

theorem dropAt_getElem? {hash : Uint256} {l : List Nat} {vOrphan : List (COrphan D)} (i : Nat) :
    (dropAt hash l vOrphan)[i]? = vOrphan[i]?.map fun o => if i ∈ l then o.drop hash else o := by
  rw [dropAt, List.getElem?_mapIdx]

theorem dropAt_cons_set {hash : Uint256} {i : Nat} {l : List Nat} {vOrphan : List (COrphan D)}
    {o : COrphan D} (ho : vOrphan[i]? = some o) :
    dropAt hash l (vOrphan.set i (o.drop hash)) = dropAt hash (i :: l) vOrphan := by
  apply List.ext_getElem?
  intro j
  rw [dropAt_getElem?, dropAt_getElem?, List.getElem?_set]
  have hlt := (List.getElem?_eq_some_iff.mp ho).1
  by_cases hj : i = j
  · subst hj
    rw [if_pos rfl, if_pos hlt, ho]
    simp [COrphan.drop_drop]
  · have hj' : ¬j = i := fun h => hj h.symm
    simp [hj, hj']

theorem dropAt_cons_same {hash : Uint256} {i : Nat} {l : List Nat} {vOrphan : List (COrphan D)}
    (ho : ∀ o, vOrphan[i]? = some o → o.drop hash = o) :
    dropAt hash l vOrphan = dropAt hash (i :: l) vOrphan := by
  apply List.ext_getElem?
  intro j
  rw [dropAt_getElem?, dropAt_getElem?]
  cases hj : vOrphan[j]? with
  | none => rfl
  | some o =>
    by_cases hij : j = i
    · subst hij
      simp [ho o hj]
    · simp [hij]

structure FreedAt (hash : Uint256) (l : List Nat) (vOrphan : List (COrphan D)) (is : List Nat) :
    Prop where
  nodup : is.Nodup
  mem_iff : ∀ i, i ∈ is ↔ i ∈ l ∧ ∃ o, vOrphan[i]? = some o ∧ o.waitsOnly hash

def ptxAt (vOrphan : List (COrphan D)) (i : Nat) : Option Uint256 := vOrphan[i]?.map COrphan.ptx

theorem ptxAt_set {vOrphan : List (COrphan D)} {i : Nat} {o : COrphan D} (hash : Uint256)
    (ho : vOrphan[i]? = some o) : ptxAt (vOrphan.set i (o.drop hash)) = ptxAt vOrphan := by
  funext j
  have hlt := (List.getElem?_eq_some_iff.mp ho).1
  unfold ptxAt
  rw [List.getElem?_set]
  by_cases hj : i = j
  · subst hj
    rw [if_pos rfl, if_pos hlt, ho]
    rfl
  · rw [if_neg hj]

theorem FreedAt.skip {hash : Uint256} {i : Nat} {l is : List Nat} {vOrphan : List (COrphan D)}
    (h : FreedAt hash l vOrphan is) (ho : ∀ o, vOrphan[i]? = some o → ¬o.waitsOnly hash) :
    FreedAt hash (i :: l) vOrphan is where
  nodup := h.nodup
  mem_iff j := by
    rw [h.mem_iff, List.mem_cons]
    constructor
    · exact fun hj => ⟨.inr hj.1, hj.2⟩
    · rintro ⟨rfl | hj, o, hget, hwaits⟩
      · exact absurd hwaits (ho o hget)
      · exact ⟨hj, o, hget, hwaits⟩

theorem COrphan.drop_not_waits (hash : Uint256) (o : COrphan D) : ¬(o.drop hash).waitsOnly hash := by
  rintro ⟨hne, hempty⟩
  simp only [drop, Finset.erase_idem] at hne hempty
  exact hne hempty

theorem FreedAt.dropped {hash : Uint256} {i : Nat} {l is : List Nat} {vOrphan : List (COrphan D)}
    {o : COrphan D} (ho : vOrphan[i]? = some o)
    (h : FreedAt hash l (vOrphan.set i (o.drop hash)) is) (j : Nat) :
    j ∈ is ↔ j ∈ l ∧ i ≠ j ∧ ∃ a, vOrphan[j]? = some a ∧ a.waitsOnly hash := by
  have hlt := (List.getElem?_eq_some_iff.mp ho).1
  rw [h.mem_iff j, List.getElem?_set]
  by_cases hj : i = j
  · subst hj
    rw [if_pos rfl, if_pos hlt]
    constructor
    · rintro ⟨-, a, ha, hwaits⟩
      obtain rfl := Option.some.inj ha
      exact absurd hwaits (o.drop_not_waits hash)
    · exact fun h => absurd rfl h.2.1
  · rw [if_neg hj]
    tauto

theorem FreedAt.take {hash : Uint256} {i : Nat} {l is : List Nat} {vOrphan : List (COrphan D)}
    {o : COrphan D} (ho : vOrphan[i]? = some o) (hwaits : o.waitsOnly hash)
    (h : FreedAt hash l (vOrphan.set i (o.drop hash)) is) : FreedAt hash (i :: l) vOrphan (i :: is) := by
  have hmem := h.dropped ho
  constructor
  · exact List.nodup_cons.mpr ⟨fun hin => ((hmem i).mp hin).2.1 rfl, h.nodup⟩
  · intro j
    rw [List.mem_cons, List.mem_cons, hmem]
    constructor
    · rintro (rfl | ⟨hj, -, hex⟩)
      · exact ⟨.inl rfl, o, ho, hwaits⟩
      · exact ⟨.inr hj, hex⟩
    · rintro ⟨hj, hex⟩
      by_cases hij : i = j
      · exact .inl hij.symm
      · exact .inr ⟨hj.resolve_left fun h => hij h.symm, hij, hex⟩

theorem FreedAt.leave {hash : Uint256} {i : Nat} {l is : List Nat} {vOrphan : List (COrphan D)}
    {o : COrphan D} (ho : vOrphan[i]? = some o) (hwaits : ¬o.waitsOnly hash)
    (h : FreedAt hash l (vOrphan.set i (o.drop hash)) is) : FreedAt hash (i :: l) vOrphan is := by
  refine ⟨h.nodup, fun j => ?_⟩
  rw [h.dropped ho, List.mem_cons]
  constructor
  · exact fun hj => ⟨.inr hj.1, hj.2.2⟩
  · rintro ⟨hj, a, ha, hw⟩
    have hij : i ≠ j := by
      rintro rfl
      rw [ho] at ha
      obtain rfl := Option.some.inj ha
      exact hwaits hw
    exact ⟨hj.resolve_left fun h => hij h.symm, hij, a, ha, hw⟩

theorem release_spec (hash : Uint256) (l : List Nat) (vOrphan : List (COrphan D))
    (mapPriority : List (D × Uint256)) :
    (Assembly.release m hash l vOrphan mapPriority).1 = dropAt hash l vOrphan ∧
      ∃ is, FreedAt hash l vOrphan is ∧
        ((Assembly.release m hash l vOrphan mapPriority).2.map Prod.snd).Perm
          (mapPriority.map Prod.snd ++ is.filterMap (ptxAt vOrphan)) := by
  induction l generalizing vOrphan mapPriority with
  | nil =>
    refine ⟨?_, [], ⟨List.nodup_nil, by simp⟩, by simp [Assembly.release]⟩
    apply List.ext_getElem?
    intro j
    rw [dropAt_getElem?]
    simp [Assembly.release]
  | cons i rest ih =>
    rw [Assembly.release]
    cases ho : vOrphan[i]? with
    | none =>
      obtain ⟨hdrop, is, hfreed, hperm⟩ := ih vOrphan mapPriority
      refine ⟨hdrop.trans (dropAt_cons_same ?_), is, hfreed.skip ?_, hperm⟩
      · simp [ho]
      · simp [ho]
    | some o =>
      dsimp only
      split
      · rename_i hempty
        obtain ⟨hdrop, is, hfreed, hperm⟩ := ih vOrphan mapPriority
        refine ⟨hdrop.trans (dropAt_cons_same ?_), is, hfreed.skip ?_, hperm⟩
        · intro o' ho'
          obtain rfl := Option.some.inj (ho.symm.trans ho')
          rw [COrphan.drop, hempty, Finset.erase_empty, ← hempty]
        · intro o' ho' hwaits
          obtain rfl := Option.some.inj (ho.symm.trans ho')
          exact hwaits.1 hempty
      · rename_i hne
        have hset : vOrphan.set i { o with setDependsOn := o.setDependsOn.erase hash } =
            vOrphan.set i (o.drop hash) := rfl
        rw [hset]
        split
        · rename_i hlast
          obtain ⟨hdrop, is, hfreed, hperm⟩ := ih (vOrphan.set i (o.drop hash))
            (insertPriority m (m.neg o.dPriority, o.ptx) mapPriority)
          refine ⟨hdrop.trans (dropAt_cons_set ho), i :: is, hfreed.take ho ⟨hne, hlast⟩, ?_⟩
          rw [ptxAt_set hash ho] at hperm
          refine hperm.trans ?_
          have hptx : ptxAt vOrphan i = some o.ptx := by rw [ptxAt, ho]; rfl
          rw [List.filterMap_cons_some hptx]
          refine ((insertPriority_hashes _ mapPriority).append_right _).trans ?_
          rw [List.append_assoc, List.singleton_append]
        · rename_i hmore
          obtain ⟨hdrop, is, hfreed, hperm⟩ := ih (vOrphan.set i (o.drop hash)) mapPriority
          refine ⟨hdrop.trans (dropAt_cons_set ho), is, hfreed.leave ho fun hw => hmore hw.2, ?_⟩
          rw [ptxAt_set hash ho] at hperm
          exact hperm

theorem dropAt_ptx (hash : Uint256) (l : List Nat) (vOrphan : List (COrphan D)) :
    (dropAt hash l vOrphan).map COrphan.ptx = vOrphan.map COrphan.ptx := by
  apply List.ext_getElem?
  intro i
  rw [List.getElem?_map, List.getElem?_map, dropAt_getElem?, Option.map_map]
  congr 1
  funext o
  rw [Function.comp_apply]
  split <;> rfl

end Release

section Enrolled

variable {D : Type} {m : Doubles D} {p : Waiting.Plan Uint256 Uint256} {done : List Uint256}
  {vOrphan : List (COrphan D)} {mapDependers : Uint256 → List Nat}

-- vOrphan and mapDependers against the plan they were built for.
structure Enrolled (p : Waiting.Plan Uint256 Uint256) (done : List Uint256)
    (vOrphan : List (COrphan D)) (mapDependers : Uint256 → List Nat) : Prop where
  nodup : (vOrphan.map COrphan.ptx).Nodup
  listed : ∀ hash, hash ∈ vOrphan.map COrphan.ptx ↔ hash ∈ p.jobs ∧ p.deps hash ≠ ∅
  waits : ∀ o ∈ vOrphan, o.setDependsOn = p.left done o.ptx
  dependers : ∀ i hash, i ∈ mapDependers hash ↔ ∃ o, vOrphan[i]? = some o ∧ hash ∈ p.deps o.ptx

theorem Enrolled.ptxAt_inj (h : Enrolled p done vOrphan mapDependers) {i j : Nat} {hash : Uint256}
    (hi : ptxAt vOrphan i = some hash) (hj : ptxAt vOrphan j = some hash) : i = j := by
  unfold ptxAt at hi hj
  rw [← List.getElem?_map] at hi hj
  exact (List.getElem?_inj (List.getElem?_eq_some_iff.mp hi).1 h.nodup).mp (hi.trans hj.symm)

theorem Enrolled.waitsOnly_iff (h : Enrolled p done vOrphan mapDependers) {o : COrphan D}
    (ho : o ∈ vOrphan) (hash : Uint256) :
    o.waitsOnly hash ↔ p.left done o.ptx ≠ ∅ ∧ p.left (hash :: done) o.ptx = ∅ := by
  rw [COrphan.waitsOnly, h.waits o ho, Waiting.Plan.left_cons]

theorem Enrolled.released (h : Enrolled p done vOrphan mapDependers) {hash : Uint256} {is : List Nat}
    (hfreed : FreedAt hash (mapDependers hash) vOrphan is) :
    Waiting.Released p hash done (is.filterMap (ptxAt vOrphan)) := by
  constructor
  · exact hfreed.nodup.filterMap fun i j x hi hj => h.ptxAt_inj hi hj
  · intro x
    rw [List.mem_filterMap]
    constructor
    · rintro ⟨i, hi, hx⟩
      obtain ⟨-, o, ho, hwaits⟩ := (hfreed.mem_iff i).mp hi
      rw [ptxAt, ho] at hx
      obtain rfl := Option.some.inj hx
      have hmem := List.mem_of_getElem? ho
      exact ⟨((h.listed _).mp (List.mem_map_of_mem hmem)).1, (h.waitsOnly_iff hmem hash).mp hwaits⟩
    · rintro ⟨hjob, hleft, hlast⟩
      have hdeps : hash ∈ p.deps x := by
        by_contra hnot
        rw [Waiting.Plan.left_cons_of_not_mem hnot] at hlast
        exact hleft hlast
      have hin : x ∈ vOrphan.map COrphan.ptx :=
        (h.listed x).mpr ⟨hjob, Finset.ne_empty_of_mem hdeps⟩
      obtain ⟨i, hi⟩ := List.getElem?_of_mem hin
      rw [List.getElem?_map] at hi
      obtain ⟨o, ho, rfl⟩ := Option.map_eq_some_iff.mp hi
      refine ⟨i, (hfreed.mem_iff i).mpr ⟨(h.dependers i hash).mpr ⟨o, ho, hdeps⟩, o, ho, ?_⟩, hi⟩
      exact (h.waitsOnly_iff (List.mem_of_getElem? ho) hash).mpr ⟨hleft, hlast⟩

theorem Enrolled.drop (h : Enrolled p done vOrphan mapDependers) (hash : Uint256) :
    Enrolled p (hash :: done) (dropAt hash (mapDependers hash) vOrphan) mapDependers := by
  refine ⟨?_, ?_, ?_, ?_⟩
  · rw [dropAt_ptx]
    exact h.nodup
  · rw [dropAt_ptx]
    exact h.listed
  · intro o' ho'
    obtain ⟨i, hi⟩ := List.getElem?_of_mem ho'
    rw [dropAt_getElem?] at hi
    obtain ⟨o, ho, rfl⟩ := Option.map_eq_some_iff.mp hi
    have hwaits := h.waits o (List.mem_of_getElem? ho)
    split
    · rw [Waiting.Plan.left_cons]
      exact congrArg (fun l => l.erase hash) hwaits
    · rename_i hnot
      rw [Waiting.Plan.left_cons_of_not_mem]
      · exact hwaits
      · exact fun hdeps => hnot ((h.dependers i hash).mpr ⟨o, ho, hdeps⟩)
  · intro i k
    rw [h.dependers i k, dropAt_getElem?]
    constructor
    · rintro ⟨o, ho, hdeps⟩
      refine ⟨_, by rw [ho]; rfl, ?_⟩
      split
      · exact hdeps
      · exact hdeps
    · rintro ⟨o', ho', hdeps⟩
      obtain ⟨o, ho, rfl⟩ := Option.map_eq_some_iff.mp ho'
      refine ⟨o, ho, ?_⟩
      split at hdeps
      · exact hdeps
      · exact hdeps

theorem Enrolled.release (h : Enrolled p done vOrphan mapDependers) (hash : Uint256)
    (mapPriority : List (D × Uint256)) :
    Enrolled p (hash :: done)
        (Assembly.release m hash (mapDependers hash) vOrphan mapPriority).1 mapDependers ∧
      ∃ released, Waiting.Released p hash done released ∧
        ((Assembly.release m hash (mapDependers hash) vOrphan mapPriority).2.map Prod.snd).Perm
          (mapPriority.map Prod.snd ++ released) := by
  obtain ⟨hdrop, is, hfreed, hperm⟩ :=
    @release_spec D m hash (mapDependers hash) vOrphan mapPriority
  rw [hdrop]
  exact ⟨h.drop hash, _, h.released hfreed, hperm⟩

theorem Enrolled.add_ready (h : Enrolled p done vOrphan mapDependers) {hash : Uint256}
    (hdeps : p.deps hash = ∅) : Enrolled (p.add hash) done vOrphan mapDependers := by
  refine ⟨h.nodup, fun x => ?_, h.waits, h.dependers⟩
  rw [h.listed x, Waiting.Plan.add, Finset.mem_insert]
  constructor
  · exact fun hx => ⟨.inr hx.1, hx.2⟩
  · rintro ⟨rfl | hx, hne⟩
    · exact absurd hdeps hne
    · exact ⟨hx, hne⟩

theorem exists_getElem?_concat {A : Type} (l : List A) (a : A) (i : Nat) (P : A → Prop) :
    (∃ o, (l ++ [a])[i]? = some o ∧ P o) ↔
      (∃ o, l[i]? = some o ∧ P o) ∨ (i = l.length ∧ P a) := by
  rcases Nat.lt_trichotomy i l.length with hlt | rfl | hgt
  · rw [List.getElem?_append_left hlt]
    simp [hlt.ne]
  · simp
  · rw [List.getElem?_eq_none hgt.le, List.getElem?_eq_none (by simp; omega)]
    simp [hgt.ne']

theorem Enrolled.add_waiting (h : Enrolled p [] vOrphan mapDependers) {hash : Uint256}
    {deps : List Uint256} {d : D} (hnew : hash ∉ p.jobs) (hne : deps ≠ [])
    (hdeps : p.deps hash = deps.toFinset) :
    Enrolled (p.add hash) [] (vOrphan ++ [⟨hash, deps.toFinset, d⟩])
      (pushDependers vOrphan.length mapDependers deps) := by
  have hsome : p.deps hash ≠ ∅ := by
    rw [hdeps]
    simpa using hne
  constructor
  · rw [List.map_append, List.map_singleton, List.nodup_append]
    refine ⟨h.nodup, List.nodup_singleton _, ?_⟩
    rintro a ha b hb rfl
    rw [List.mem_singleton] at hb
    subst hb
    exact hnew ((h.listed _).mp ha).1
  · intro x
    rw [List.map_append, List.map_singleton, List.mem_append, List.mem_singleton, h.listed x,
      Waiting.Plan.add, Finset.mem_insert]
    constructor
    · rintro (⟨hx, hx'⟩ | rfl)
      · exact ⟨.inr hx, hx'⟩
      · exact ⟨.inl rfl, hsome⟩
    · rintro ⟨rfl | hx, hx'⟩
      · exact .inr rfl
      · exact .inl ⟨hx, hx'⟩
  · intro o ho
    rcases List.mem_append.mp ho with hold | hlast
    · exact h.waits o hold
    · rw [List.mem_singleton] at hlast
      subst hlast
      show deps.toFinset = (p.add hash).left [] hash
      rw [Waiting.Plan.left_add, Waiting.Plan.left, hdeps]
      simp
  · intro i k
    have hkey : k ∈ (p.add hash).deps hash ↔ k ∈ deps := by
      show k ∈ p.deps hash ↔ k ∈ deps
      rw [hdeps, List.mem_toFinset]
    rw [mem_pushDependers, h.dependers i k, exists_getElem?_concat, hkey]
    exact Iff.rfl

end Enrolled

section Ranks

variable {D : Type} {m : Doubles D} {e : NodeEnv} {s : MinerNode} {vin : Uint256 → List CTxInCache}
  {vOrphan : List (COrphan D)} {mapPriority : List (D × Uint256)}

-- The priority and the input caches that the pass over the pool leaves a transaction with.
def Ranked (m : Doubles D) (e : NodeEnv) (s : MinerNode) (hash : Uint256) (dPriority : D)
    (vin : List CTxInCache) : Prop :=
  ∃ tx r, s.node.mapTransactions hash = some tx ∧
    visitTx m e.env s.node (s.cachedVin hash tx) m.zero = .ok r ∧
      dPriority = (r.dPriority.map fun d => m.div d tx.getSerializeSize).getD m.zero ∧ vin = r.vin

structure Ranks (m : Doubles D) (e : NodeEnv) (s : MinerNode) (vin : Uint256 → List CTxInCache)
    (vOrphan : List (COrphan D)) (mapPriority : List (D × Uint256)) : Prop where
  queue : ∀ x ∈ mapPriority, ∃ d, x.1 = m.neg d ∧ Ranked m e s x.2 d (vin x.2)
  orphans : ∀ o ∈ vOrphan, Ranked m e s o.ptx o.dPriority (vin o.ptx)

theorem Ranks.insert (h : Ranks m e s vin vOrphan mapPriority) {hash : Uint256} {d : D}
    (hranked : Ranked m e s hash d (vin hash)) :
    Ranks m e s vin vOrphan (insertPriority m (m.neg d, hash) mapPriority) := by
  refine ⟨fun x hx => ?_, h.orphans⟩
  rcases List.mem_cons.mp ((insertPriority_perm _ _).mem_iff.mp hx) with rfl | hold
  · exact ⟨d, rfl, hranked⟩
  · exact h.queue x hold

theorem Ranks.wait (h : Ranks m e s vin vOrphan mapPriority) {o : COrphan D}
    (hranked : Ranked m e s o.ptx o.dPriority (vin o.ptx)) :
    Ranks m e s vin (vOrphan ++ [o]) mapPriority := by
  refine ⟨h.queue, fun o' ho' => ?_⟩
  rcases List.mem_append.mp ho' with hold | hlast
  · exact h.orphans o' hold
  · obtain rfl := List.mem_singleton.mp hlast
    exact hranked

theorem Ranks.set (h : Ranks m e s vin vOrphan mapPriority) {i : Nat} {o : COrphan D}
    (ho : vOrphan[i]? = some o) (hash : Uint256) :
    Ranks m e s vin (vOrphan.set i (o.drop hash)) mapPriority := by
  refine ⟨h.queue, fun o' ho' => ?_⟩
  rcases List.mem_or_eq_of_mem_set ho' with hold | rfl
  · exact h.orphans o' hold
  · exact h.orphans o (List.mem_of_getElem? ho)

theorem Ranks.release {hash : Uint256} {l : List Nat} (h : Ranks m e s vin vOrphan mapPriority) :
    Ranks m e s vin (Assembly.release m hash l vOrphan mapPriority).1
      (Assembly.release m hash l vOrphan mapPriority).2 := by
  induction l generalizing vOrphan mapPriority with
  | nil => exact h
  | cons i rest ih =>
    rw [Assembly.release]
    cases ho : vOrphan[i]? with
    | none => exact ih h
    | some o =>
      dsimp only
      split
      · exact ih h
      · have hset := h.set ho hash
        have hranked := h.orphans o (List.mem_of_getElem? ho)
        split
        · exact ih (hset.insert hranked)
        · exact ih hset

theorem Ranks.congr (h : Ranks m e s vin vOrphan mapPriority) {vin' : Uint256 → List CTxInCache}
    (hqueue : ∀ x ∈ mapPriority, vin' x.2 = vin x.2)
    (horphans : ∀ o ∈ vOrphan, vin' o.ptx = vin o.ptx) : Ranks m e s vin' vOrphan mapPriority := by
  constructor
  · intro x hx
    rw [hqueue x hx]
    exact h.queue x hx
  · intro o ho
    rw [horphans o ho]
    exact h.orphans o ho

end Ranks

end Namecoin
