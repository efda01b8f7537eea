import Namecoin.Chain.Spend

namespace Namecoin

def setAll (ps : List COutPoint) (v : Bool) (t : TxMap) : TxMap := fun hash =>
  (t hash).map (fun txindex => ⟨txindex.pos,
    txindex.isSpent.mapIdx (fun n b => if ⟨hash, n⟩ ∈ ps then v else b)⟩)

def spentFlag (t : TxMap) (p : COutPoint) : Option Bool :=
  (t p.hash).bind (fun txindex => txindex.isSpent[p.n]?)

def prevouts (vin : List CTxIn) : List COutPoint := vin.map CTxIn.prevout

theorem setAll_nil (v : Bool) (t : TxMap) : setAll [] v t = t := by
  funext hash
  have hmap (l : List Bool) : l.mapIdx (fun _ b => b) = l := by
    apply List.ext_getElem?
    intro n
    simp
  simp only [setAll, List.not_mem_nil, if_false, hmap]
  cases t hash <;> rfl

theorem setAll_cons {p : COutPoint} {ps : List COutPoint} {v : Bool} {t : TxMap}
    {txindex : CTxIndex} (h : t p.hash = some txindex) :
    setAll (p :: ps) v t =
      setAll ps v (Function.update t p.hash (some (txindex.setSpent p.n v))) := by
  funext hash
  by_cases hh : hash = p.hash
  · subst hh
    simp only [setAll, h, Function.update_self, Option.map_some, CTxIndex.setSpent,
      Option.some.injEq, CTxIndex.mk.injEq, true_and]
    apply List.ext_getElem?
    intro n
    rw [List.getElem?_mapIdx, List.getElem?_mapIdx, List.getElem?_set]
    by_cases hn : p.n = n
    · subst hn
      by_cases hlt : p.n < txindex.isSpent.length <;> simp [hlt]
    · have hne : (⟨p.hash, n⟩ : COutPoint) ≠ p := by
        intro e
        exact hn (congrArg COutPoint.n e).symm
      simp [hn, hne]
  · have hne (n : Nat) : (⟨hash, n⟩ : COutPoint) ≠ p := by
      intro e
      exact hh (congrArg COutPoint.hash e)
    simp [setAll, hh, hne]

theorem setAll_apply_none {ps : List COutPoint} {v : Bool} {t : TxMap} {hash : Uint256} :
    setAll ps v t hash = none ↔ t hash = none := by
  simp [setAll]

theorem spentFlag_setAll (ps : List COutPoint) (v : Bool) (t : TxMap) (p : COutPoint) :
    spentFlag (setAll ps v t) p = if p ∈ ps then (spentFlag t p).map (fun _ => v)
      else spentFlag t p := by
  unfold spentFlag setAll
  cases t p.hash with
  | none => simp
  | some txindex =>
    simp only [Option.map_some, Option.bind_some, List.getElem?_mapIdx]
    by_cases hp : p ∈ ps
    · simp [hp]
    · cases txindex.isSpent[p.n]? <;> simp [hp]

theorem setAll_undo {ps : List COutPoint} {t : TxMap}
    (h : ∀ p ∈ ps, spentFlag t p = some false) : setAll ps false (setAll ps true t) = t := by
  funext hash
  unfold setAll
  cases ht : t hash with
  | none => simp
  | some txindex =>
    simp only [Option.map_some, Option.some.injEq]
    obtain ⟨pos, isSpent⟩ := txindex
    simp only [CTxIndex.mk.injEq, true_and]
    apply List.ext_getElem?
    intro n
    rw [List.getElem?_mapIdx, List.getElem?_mapIdx]
    by_cases hp : (⟨hash, n⟩ : COutPoint) ∈ ps
    · have hflag := h _ hp
      simp only [spentFlag, ht, Option.bind_some] at hflag
      simp [hp, hflag]
    · cases isSpent[n]? <;> simp [hp]

theorem setAll_update {ps : List COutPoint} {v : Bool} {t : TxMap} {hash : Uint256}
    {txindex : CTxIndex} (h : ∀ p ∈ ps, p.hash ≠ hash) :
    setAll ps v (Function.update t hash (some txindex)) =
      Function.update (setAll ps v t) hash (some txindex) := by
  funext k
  by_cases hk : k = hash
  · subst hk
    have hnot (n : Nat) : (⟨k, n⟩ : COutPoint) ∉ ps := fun hm => h _ hm rfl
    have hid : txindex.isSpent.mapIdx (fun n b => if ⟨k, n⟩ ∈ ps then v else b) =
        txindex.isSpent := by
      apply List.ext_getElem?
      intro n
      simp [hnot]
    simp only [setAll, Function.update_self, Option.map_some, hid]
  · simp [setAll, hk]

theorem spentFlag_update_setSpent {t : TxMap} {p q : COutPoint} {txindex : CTxIndex} {v : Bool}
    (h : t p.hash = some txindex) (hne : q ≠ p) :
    spentFlag (Function.update t p.hash (some (txindex.setSpent p.n v))) q = spentFlag t q := by
  unfold spentFlag
  by_cases hh : q.hash = p.hash
  · have hn : p.n ≠ q.n := by
      intro e
      apply hne
      obtain ⟨qh, qn⟩ := q
      obtain ⟨ph, pn⟩ := p
      simp_all
    simp [hh, h, CTxIndex.setSpent, hn]
  · simp [hh]

theorem spentFlag_setSpent_self {t : TxMap} {p : COutPoint} {txindex : CTxIndex} {v w : Bool}
    (h : txindex.isSpent[p.n]? = some w) :
    spentFlag (Function.update t p.hash (some (txindex.setSpent p.n v))) p = some v := by
  obtain ⟨hlt, -⟩ := List.getElem?_eq_some_iff.mp h
  simp [spentFlag, CTxIndex.setSpent, hlt]

namespace SpendRun

variable {c : TxCall} {vin : List CTxIn} {t t' : TxMap} {n n' : Int}
  {rs : List (CTransaction × CTxIndex)}

theorem unspent (h : SpendRun c vin t n rs t' n') :
    (prevouts vin).Nodup ∧ ∀ p ∈ prevouts vin, spentFlag t p = some false := by
  induction h with
  | nil t n => exact ⟨List.nodup_nil, by simp [prevouts]⟩
  | @cons txin rest t t' n n' txPrev txindex rs step range tail ih =>
    obtain ⟨hnd, hall⟩ := ih
    have hself : spentFlag t txin.prevout = some false := by
      simp [spentFlag, step.found, step.unspent]
    have hnot : txin.prevout ∉ prevouts rest := by
      intro hm
      have hf := hall _ hm
      rw [spentFlag_setSpent_self step.unspent] at hf
      cases hf
    refine ⟨List.nodup_cons.mpr ⟨hnot, hnd⟩, ?_⟩
    intro p hp
    rcases List.mem_cons.mp hp with rfl | hp
    · exact hself
    · have hne : p ≠ txin.prevout := by
        rintro rfl
        exact hnot hp
      rw [← spentFlag_update_setSpent step.found hne]
      exact hall p hp

theorem eq_setAll (h : SpendRun c vin t n rs t' n') : t' = setAll (prevouts vin) true t := by
  induction h with
  | nil t n => exact (setAll_nil true t).symm
  | cons step range tail ih => rw [ih, prevouts, prevouts, List.map_cons, setAll_cons step.found]

theorem found (h : SpendRun c vin t n rs t' n') {txin : CTxIn} (hin : txin ∈ vin) :
    t txin.prevout.hash ≠ none := by
  have hflag := h.unspent.2 txin.prevout (List.mem_map_of_mem hin)
  intro hnone
  simp [spentFlag, hnone] at hflag

end SpendRun

theorem disconnectVin_eq {vin : List CTxIn} {db : DatabaseSet} (hnd : (prevouts vin).Nodup)
    (h : ∀ p ∈ prevouts vin, spentFlag db.tx p = some true) :
    disconnectVin vin db = .ok { db with tx := setAll (prevouts vin) false db.tx } := by
  induction vin generalizing db with
  | nil => simp [disconnectVin, prevouts, setAll_nil]
  | cons txin rest ih =>
    obtain ⟨hnot, hnd'⟩ := List.nodup_cons.mp hnd
    have hself := h txin.prevout (by simp [prevouts])
    obtain ⟨txindex, hfound, hflag⟩ := Option.bind_eq_some_iff.mp hself
    obtain ⟨hlt, -⟩ := List.getElem?_eq_some_iff.mp hflag
    have hlt' : ¬txindex.getOutputCount ≤ txin.prevout.n := by
      simpa [CTxIndex.getOutputCount] using hlt
    have hrest : ∀ p ∈ prevouts rest, spentFlag (Function.update db.tx txin.prevout.hash
        (some (txindex.setSpent txin.prevout.n false))) p = some true := by
      intro p hp
      rw [spentFlag_update_setSpent hfound (fun e => hnot (e ▸ hp))]
      exact h p (List.mem_cons_of_mem _ hp)
    simp only [disconnectVin, hfound, hlt', hflag, Option.some.injEq, Bool.true_eq_false, if_false]
    rw [ih hnd' hrest]
    simp only [prevouts, List.map_cons, DatabaseSet.writeTx, setAll_cons hfound]

end Namecoin
