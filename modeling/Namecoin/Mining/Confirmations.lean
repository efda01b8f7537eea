import Namecoin.Mining.Priority

namespace Namecoin

open Act

def Seen (env : Env) (s : NodeState) (bound : Int) (pos : CDiskTxPos) : Prop :=
  pos.isNull = true ∨ pos = CDiskTxPos.memPool ∨
    ∃ b p, s.disk.readBlock pos.nFile pos.nBlockPos = some b ∧
      s.mapBlockIndex (b.getHash env) = some p ∧ (p.nHeight : Int) ≤ bound

structure CacheBelow (env : Env) (s : NodeState) (bound : Int) (txin : CTxInCache) : Prop where
  prevHeight : txin.prevHeight ≤ bound
  prevPos : Seen env s bound txin.prevPos

section Seen

variable {env : Env} {genesis : Uint256} {s s' : NodeState} {bound bound' : Int} {pos : CDiskTxPos}

theorem Seen.mono (h : Seen env s bound pos) (hle : bound ≤ bound') : Seen env s bound' pos := by
  rcases h with hnull | hpool | ⟨b, p, hb, hp, hheight⟩
  · exact .inl hnull
  · exact .inr (.inl hpool)
  · exact .inr (.inr ⟨b, p, hb, hp, hheight.trans hle⟩)

theorem Seen.step (h : Seen env s bound pos) (hstep : IndexStep env genesis s s') :
    Seen env s' bound pos := by
  rcases h with hnull | hpool | ⟨b, p, hb, hp, hheight⟩
  · exact .inl hnull
  · exact .inr (.inl hpool)
  · obtain ⟨p', hp', hsame⟩ := hstep.grows _ p hp
    have hh : (forgetNext p').nHeight = (forgetNext p).nHeight :=
      congrArg CBlockIndex.nHeight hsame
    have hh' : p'.nHeight = p.nHeight := hh
    exact .inr (.inr ⟨b, p', hstep.keeps _ _ _ hb, hp', hh' ▸ hheight⟩)

theorem Seen.getHeight_le (h : Seen env s bound pos) (hbound : -1 ≤ bound) :
    getHeight env s pos ≤ bound := by
  unfold getHeight getContainingBlock
  by_cases hmem : pos.isNull = true ∨ pos = CDiskTxPos.memPool
  · rw [if_pos hmem]
    exact hbound
  · rw [if_neg hmem]
    rcases h with hnull | hpool | ⟨b, p, hb, hp, hheight⟩
    · exact absurd (.inl hnull) hmem
    · exact absurd (.inr hpool) hmem
    · simp only [hb, Option.bind_some, hp]
      exact hheight

theorem Indexed.seen (h : Indexed env genesis s) {hash : Uint256} {txindex : CTxIndex}
    (htx : s.chain.dbset.tx hash = some txindex) : Seen env s s.nBestHeight txindex.pos := by
  obtain ⟨best, hok, hplaced⟩ := h
  obtain ⟨x, hanc, p, b, hp, hread, hfile, hblock, -⟩ := hplaced hash txindex htx
  obtain ⟨hb, hhash⟩ := Option.filter_eq_some_iff.mp hread
  have hroot : Rooted s.mapBlockIndex genesis := hok.rooted
  have hkey : b.getHash env = x := (of_decide_eq_true hhash).trans (hroot.keyed x p hp)
  refine .inr (.inr ⟨b, p, ?_, by rw [hkey]; exact hp, ?_⟩)
  · rw [hfile, hblock]
    exact hb
  · obtain ⟨q, hq, -, hheight, -⟩ := hok.globals
    have hle := hanc.height_le hroot.graded
    have hq' : s.mapBlockIndex best = some q := hq
    have hheight' : s.nBestHeight = q.nHeight := hheight
    simp only [heightOf, hp, hq', Option.map_some, Option.getD_some] at hle
    rw [hheight']
    exact_mod_cast hle

theorem Indexed.height_nonneg (h : Indexed env genesis s) : 0 ≤ s.nBestHeight := by
  obtain ⟨best, hok, -⟩ := h
  obtain ⟨q, -, -, hheight, -⟩ := hok.globals
  have hheight' : s.nBestHeight = q.nHeight := hheight
  rw [hheight']
  exact Int.natCast_nonneg _

theorem CacheBelow.mono {txin : CTxInCache} (h : CacheBelow env s bound txin)
    (hle : bound ≤ bound') : CacheBelow env s bound' txin :=
  ⟨h.prevHeight.trans hle, h.prevPos.mono hle⟩

theorem CacheBelow.step {txin : CTxInCache} (h : CacheBelow env s bound txin)
    (hstep : IndexStep env genesis s s') : CacheBelow env s' bound txin :=
  ⟨h.prevHeight, h.prevPos.step hstep⟩

theorem cacheBelow_empty (hbound : -1 ≤ bound) : CacheBelow env s bound CTxInCache.empty :=
  ⟨hbound, .inl rfl⟩

theorem CacheBelow.assign {txin : CTxInCache} (h : CacheBelow env s bound txin)
    (hbound : -1 ≤ bound) (fCacheTxPrev : Bool) :
    CacheBelow env s bound (CTxInCache.assign fCacheTxPrev CTxInCache.empty txin) := by
  cases hinfo : txin.fHasPrevInfo with
  | true =>
    simp only [CTxInCache.assign, hinfo, if_true]
    exact ⟨h.prevHeight, h.prevPos⟩
  | false =>
    simp only [CTxInCache.assign, hinfo, Bool.false_eq_true, if_false]
    exact ⟨hbound, .inl rfl⟩

end Seen

section Visit

variable {env : Env} {s : NodeState} {bound : Int}

theorem CacheBelow.visitInput {txin : CTxInCache} (h : CacheBelow env s bound txin)
    (hbound : -1 ≤ bound) :
    CacheBelow env s bound (visitInput env s txin).1 ∧
      ∀ nConf ∈ (visitInput env s txin).2, 1 + s.nBestHeight - bound ≤ nConf := by
  have hheight := h.prevPos.getHeight_le hbound
  unfold Namecoin.visitInput
  split
  · refine ⟨h, ?_⟩
    intro nConf hmem
    obtain rfl : 1 + s.nBestHeight - txin.prevHeight = nConf := by simpa using hmem
    have := h.prevHeight
    omega
  · dsimp only
    constructor
    · split
      · exact ⟨hheight, h.prevPos⟩
      · exact h
    · intro nConf hmem
      split at hmem
      · cases hmem
      · obtain rfl : 1 + s.nBestHeight - getHeight env s txin.prevPos = nConf := by simpa using hmem
        omega

theorem visitInputs_below {vin : List CTxInCache} (h : ∀ txin ∈ vin, CacheBelow env s bound txin)
    (hbound : -1 ≤ bound) :
    (∀ txin ∈ (visitInputs env s vin).1, CacheBelow env s bound txin) ∧
      ∀ nConf ∈ (visitInputs env s vin).2, 1 + s.nBestHeight - bound ≤ nConf := by
  induction vin with
  | nil => exact ⟨h, fun nConf hmem => absurd hmem List.not_mem_nil⟩
  | cons txin rest ih =>
    rw [List.forall_mem_cons] at h
    obtain ⟨hcaches, hconfs⟩ := ih h.2
    obtain ⟨hfirst, hconf⟩ := h.1.visitInput hbound
    rw [visitInputs]
    split
    · exact ⟨List.forall_mem_cons.mpr h, fun nConf hmem => absurd hmem List.not_mem_nil⟩
    · refine ⟨List.forall_mem_cons.mpr ⟨hfirst, hcaches⟩, ?_⟩
      intro nConf hmem
      rcases List.mem_append.mp hmem with hmem | hmem
      · exact hconf nConf (by simpa using hmem)
      · exact hconfs nConf hmem

end Visit

structure ConnBelow (env : Env) (s : NodeState) (bound : Int) (t : ConnState) : Prop where
  testPool : ∀ h txindex, t.mapTestPool h = some txindex → Seen env s s.nBestHeight txindex.pos
  index : ∀ h txindex, t.dbset.tx h = some txindex → Seen env s s.nBestHeight txindex.pos
  caches : ∀ txin ∈ t.vin, CacheBelow env s bound txin

section Connect

variable {env : Env} {s : NodeState} {bound : Int} {c : TxCall}

def SameConn (t t' : ConnState) : Prop := t' = t

theorem sameConn_refl (t : ConnState) : SameConn t t := rfl

theorem SameConn.trans {a b c : ConnState} (h : SameConn a b) (h' : SameConn b c) : SameConn a c :=
  Eq.trans h' h

theorem holds_of_same {α : Type} {x : Act Fault ConnState α} (h : Keeps SameConn x) :
    Holds (ConnBelow env s bound) (fun _ => True) x := by
  refine holds_of_keeps (fun t ht => ?_)
  rw [show (exec x t).2 = t from h t]
  exact ht

theorem nameCall_same {n : NameCall} (hb : n.fBlock = false) (vTxPrev : List CTransaction) :
    Keeps SameConn (n.connectInputs vTxPrev) := by
  have hr : ∀ t : ConnState, SameConn t t := sameConn_refl
  refine keeps_bind (R := SameConn) SameConn.trans (keeps_fromOption hr _ _) (fun prev => ?_)
  split
  · exact keeps_bind (R := SameConn) SameConn.trans (keeps_raiseIf hr _ _) (fun _ => keeps_raiseIf hr _ _)
  · refine keeps_bind (R := SameConn) SameConn.trans (keeps_fromOption hr _ _) (fun d => ?_)
    refine keeps_bind (R := SameConn) SameConn.trans (keeps_get hr) (fun t => ?_)
    refine keeps_bind (R := SameConn) SameConn.trans (keeps_fromExcept hr _) (fun fBugWorkaround => keeps_doIf hr _ ?_)
    refine keeps_bind (R := SameConn) SameConn.trans (keeps_get hr) (fun t => ?_)
    refine keeps_bind (R := SameConn) SameConn.trans (keeps_fromExcept hr _) (fun vchName => ?_)
    refine keeps_bind (R := SameConn) SameConn.trans (keeps_fromExcept hr _) (fun bad => ?_)
    refine keeps_bind (R := SameConn) SameConn.trans (keeps_raiseIf hr _ _) (fun _ => ?_)
    simp only [doIf, hb, Bool.false_eq_true, false_and, if_false]
    exact keeps_bind (R := SameConn) SameConn.trans (keeps_pure hr _) (fun _ => keeps_pure hr _)

theorem putCache_below {i : Nat} {g : CTxInCache → CTxInCache}
    (hg : ∀ txin, CacheBelow env s bound txin → CacheBelow env s bound (g txin)) :
    Holds (ConnBelow env s bound) (fun _ => True) (TxCall.putCache i g) := by
  refine holds_of_keeps (keeps_modify (fun t ht => ⟨ht.testPool, ht.index, ?_⟩))
  intro txin hmem
  obtain ⟨j, hj⟩ := List.getElem?_of_mem hmem
  rw [List.getElem?_modify] at hj
  obtain ⟨old, hold, rfl⟩ := Option.map_eq_some_iff.mp hj
  have hbelow := ht.caches old (List.mem_of_getElem? hold)
  split
  · exact hg old hbelow
  · exact hbelow

theorem fetchPrev_below (hle : s.nBestHeight ≤ bound) {i : Nat} {prevout : COutPoint} {fFound : Bool} {txindex : CTxIndex}
    (hseen : Seen env s s.nBestHeight txindex.pos) :
    Holds (ConnBelow env s bound) (fun _ => True) (c.fetchPrev i prevout fFound txindex) := by
  refine holds_bind holds_get (fun t ht => ?_)
  dsimp only
  split
  · exact holds_bind (holds_raiseIf _ _) (fun _ _ => holds_pure trivial)
  · refine holds_bind (holds_fromExcept (Q := fun _ => True) (fun _ _ => trivial)) (fun _ _ => ?_)
    refine holds_bind (putCache_below (fun txin htxin => ?_)) (fun _ _ => holds_pure trivial)
    exact ⟨htxin.prevHeight, hseen.mono hle⟩

theorem verifySignature_below (i : Nat) (txin : CTxIn) (txPrev : CTransaction) :
    Holds (ConnBelow env s bound) (fun _ => True) (c.verifySignature i txin txPrev) := by
  refine holds_bind holds_get (fun t ht => ?_)
  dsimp only
  split
  · exact holds_of_same (keeps_throw sameConn_refl _)
  · refine holds_bind (holds_raiseIf _ _) (fun _ _ => ?_)
    refine holds_bind (holds_raiseIf _ _) (fun _ _ => ?_)
    exact putCache_below (fun txin htxin => ⟨htxin.prevHeight, htxin.prevPos⟩)

theorem ConnBelow.updatePool {t : ConnState} (ht : ConnBelow env s bound t) {h : Uint256}
    {txindex : CTxIndex} (hseen : Seen env s s.nBestHeight txindex.pos) :
    ConnBelow env s bound
      { t with mapTestPool := Function.update t.mapTestPool h (some txindex) } := by
  refine ⟨?_, ht.index, ht.caches⟩
  intro k x hx
  by_cases hk : k = h
  · subst hk
    simp only [Function.update_self] at hx
    obtain rfl := Option.some.inj hx
    exact hseen
  · simp only [Function.update_of_ne hk] at hx
    exact ht.testPool k x hx

theorem writeBack_below (hb : c.fBlock = false) {h : Uint256} {txindex : CTxIndex}
    (hseen : Seen env s s.nBestHeight txindex.pos) :
    Holds (ConnBelow env s bound) (fun _ => True) (c.writeBack h txindex) := by
  refine holds_of_keeps (keeps_modify (fun t ht => ?_))
  rw [hb]
  simp only [Bool.false_eq_true, if_false]
  split
  · exact ht.updatePool hseen
  · exact ht

theorem readTxIndex_seen {t : ConnState} (ht : ConnBelow env s bound t) (h : Uint256) (n : Nat) :
    Seen env s s.nBestHeight ((c.readTxIndex t h).getD (CTxIndex.make CDiskTxPos.null n)).pos := by
  cases hread : c.readTxIndex t h with
  | none => exact .inl rfl
  | some txindex =>
    unfold TxCall.readTxIndex at hread
    split at hread
    · exact ht.testPool h txindex hread
    · exact ht.index h txindex hread

theorem connectInput_below (hb : c.fBlock = false) (hle : s.nBestHeight ≤ bound) (i : Nat)
    (txin : CTxIn) (nValueIn : Int) :
    Holds (ConnBelow env s bound) (fun _ => True) (c.connectInput i txin nValueIn) := by
  refine holds_bind holds_get (fun t ht => ?_)
  have hseen := readTxIndex_seen (c := c) ht txin.prevout.hash (txin.prevout.n + 1)
  refine holds_bind (holds_raiseIf _ _) (fun _ _ => ?_)
  refine holds_bind (holds_raiseIf _ _) (fun _ _ => ?_)
  refine holds_bind (fetchPrev_below hle hseen) (fun txPrev _ => ?_)
  refine holds_bind (holds_raiseIf _ _) (fun _ _ => ?_)
  refine holds_bind (Q := fun _ => True) ?_ (fun _ _ => ?_)
  · unfold doIf
    split
    · exact verifySignature_below i txin txPrev
    · exact holds_pure trivial
  refine holds_bind (holds_raiseIf _ _) (fun _ _ => ?_)
  refine holds_bind (holds_raiseIf _ _) (fun _ _ => ?_)
  refine holds_bind (putCache_below (fun txin htxin => ⟨htxin.prevHeight, htxin.prevPos⟩))
    (fun _ _ => ?_)
  refine holds_bind (holds_fromExcept (Q := fun _ => True) (fun _ _ => trivial)) (fun _ _ => ?_)
  refine holds_bind (holds_raiseIf _ _) (fun _ _ => ?_)
  exact holds_bind (writeBack_below hb hseen) (fun _ _ => holds_pure trivial)

theorem connectVin_below (hb : c.fBlock = false) (hle : s.nBestHeight ≤ bound) (vin : List CTxIn)
    (i : Nat) (nValueIn : Int) :
    Holds (ConnBelow env s bound) (fun _ => True) (c.connectVin vin i nValueIn) := by
  induction vin generalizing i nValueIn with
  | nil => exact holds_pure trivial
  | cons txin rest ih =>
    refine holds_bind (connectInput_below hb hle i txin nValueIn) (fun r _ => ?_)
    exact holds_bind (ih _ _) (fun _ _ => holds_pure trivial)

theorem tallyFee_below (nValueIn nMinFee : Int) :
    Holds (ConnBelow env s bound) (fun _ => True) (c.tallyFee nValueIn nMinFee) := by
  refine holds_bind (holds_fromExcept (Q := fun _ => True) (fun _ _ => trivial)) (fun _ _ => ?_)
  refine holds_bind (holds_fromExcept (Q := fun _ => True) (fun _ _ => trivial)) (fun _ _ => ?_)
  refine holds_bind (holds_raiseIf _ _) (fun _ _ => ?_)
  refine holds_bind (holds_raiseIf _ _) (fun _ _ => ?_)
  refine holds_bind holds_get (fun t ht => ?_)
  refine holds_bind (holds_fromExcept (Q := fun _ => True) (fun _ _ => trivial)) (fun _ _ => ?_)
  refine holds_bind (Q := fun _ => True) ?_ (fun _ _ => ?_)
  · exact holds_of_keeps (keeps_modify (fun t ht => ⟨ht.testPool, ht.index, ht.caches⟩))
  · exact holds_of_same (keeps_raiseIf sameConn_refl _ _)

theorem addTxIndex_below (hb : c.fBlock = false) (pos : CDiskTxPos) :
    Holds (ConnBelow env s bound) (fun _ => True) (c.addTxIndex pos) := by
  refine holds_of_keeps (keeps_modify (fun t ht => ?_))
  rw [hb]
  simp only [Bool.false_eq_true, if_false]
  split
  · exact ht.updatePool (.inr (.inl rfl))
  · exact ht

theorem connectInputs_below (hb : c.fBlock = false) (hle : s.nBestHeight ≤ bound)
    (pos : CDiskTxPos) (nMinFee : Int) :
    Holds (ConnBelow env s bound) (fun _ => True) (c.connectInputs pos nMinFee) := by
  refine holds_bind (Q := fun _ => True) ?_ (fun _ _ => addTxIndex_below hb pos)
  unfold doIf
  split
  · refine holds_bind (connectVin_below hb hle _ _ _) (fun rs _ => ?_)
    refine holds_bind (holds_of_same (nameCall_same hb _)) (fun _ _ => ?_)
    exact tallyFee_below _ _
  · exact holds_pure trivial

end Connect

end Namecoin
