import Namecoin.Net.Peers

namespace Namecoin

-- Every way in which the request times and the queues of the connections change.
inductive AskEvent where
  | askFor (nTime : Int) (i : Nat) (inv : CInv)
  | received (inv : CInv)
  | sendMessages (nTime : Int) (i : Nat) (alreadyHave : CInv → Bool)

namespace NetNode

def queueAt (s : NetNode) (i : Nat) : List (Int × CInv) := ((s.vNodes[i]?).map CNode.mapAskFor).getD []

def streamAt (s : NetNode) (i : Nat) : List NetMessage := ((s.vNodes[i]?).map CNode.vSend).getD []

def askStep : AskEvent → NetNode → NetNode
  | .askFor nTime i inv, s => s.askFor nTime i inv
  | .received inv, s => { s with times := s.times.erase inv }
  | .sendMessages nTime i alreadyHave, s =>
    s.onNode i (CNode.sendGetdata (nTime * 1000000) alreadyHave)

def askRun (evs : List AskEvent) (s : NetNode) : NetNode := evs.foldl (fun s ev => askStep ev s) s

def isDue (nNow : Int) (entry : Int × CInv) : Bool := decide (entry.1 ≤ nNow)

end NetNode

namespace AskEvent

def asksAt (i : Nat) (s : NetNode) : AskEvent → List (Int × CInv)
  | askFor nTime j inv => if j = i then [(s.times.requestTime nTime inv, inv)] else []
  | received _ => []
  | sendMessages _ _ _ => []

def takesAt (i : Nat) (s : NetNode) : AskEvent → List (Int × CInv)
  | askFor _ _ _ => []
  | received _ => []
  | sendMessages nTime j _ =>
    if j = i then (s.queueAt i).takeWhile (NetNode.isDue (nTime * 1000000)) else []

def gather (f : NetNode → AskEvent → List (Int × CInv)) : List AskEvent → NetNode → List (Int × CInv)
  | [], _ => []
  | ev :: rest, s => f s ev ++ gather f rest (NetNode.askStep ev s)

end AskEvent

section Queue

theorem insertAsk_perm (entry : Int × CInv) (q : List (Int × CInv)) :
    (insertAsk entry q).Perm (entry :: q) := by
  induction q with
  | nil => exact List.Perm.refl _
  | cons first rest ih =>
    rw [insertAsk]
    split
    · exact (ih.cons first).trans (List.Perm.swap entry first rest)
    · exact List.Perm.refl _

theorem insertAsk_sorted {entry : Int × CInv} {q : List (Int × CInv)}
    (h : q.Pairwise fun a b => a.1 ≤ b.1) : (insertAsk entry q).Pairwise fun a b => a.1 ≤ b.1 := by
  induction q with
  | nil => exact List.pairwise_singleton _ _
  | cons first rest ih =>
    obtain ⟨hfirst, hrest⟩ := List.pairwise_cons.mp h
    rw [insertAsk]
    split
    · next hle =>
      refine List.pairwise_cons.mpr ⟨fun b hb => ?_, ih hrest⟩
      rcases List.mem_cons.mp ((insertAsk_perm entry rest).mem_iff.mp hb) with rfl | hb
      · exact hle
      · exact hfirst b hb
    · next hlt =>
      refine List.pairwise_cons.mpr ⟨fun b hb => ?_, h⟩
      have hnear : entry.1 ≤ first.1 := (not_le.mp hlt).le
      rcases List.mem_cons.mp hb with rfl | hb
      · exact hnear
      · exact hnear.trans (hfirst b hb)

theorem insertAsk_last {entry : Int × CInv} {q : List (Int × CInv)} (h : ∀ a ∈ q, a.1 ≤ entry.1) :
    insertAsk entry q = q ++ [entry] := by
  induction q with
  | nil => rfl
  | cons first rest ih =>
    obtain ⟨hfirst, hrest⟩ := List.forall_mem_cons.mp h
    rw [insertAsk, if_pos hfirst, ih hrest, List.cons_append]

theorem dueAsks_eq (nNow : Int) (alreadyHave : CInv → Bool) (q : List (Int × CInv))
    (st : List (List CInv) × List CInv) :
    dueAsks nNow alreadyHave q st =
      ((((q.takeWhile (NetNode.isDue nNow)).map Prod.snd).filter fun inv =>
        !alreadyHave inv).foldl (Batch.push 1000) st, q.dropWhile (NetNode.isDue nNow)) := by
  induction q generalizing st with
  | nil => rfl
  | cons first rest ih =>
    obtain ⟨nRequestTime, inv⟩ := first
    rw [dueAsks]
    split
    · next hdue =>
      have hd : NetNode.isDue nNow (nRequestTime, inv) = true := decide_eq_true hdue
      rw [ih, List.takeWhile_cons_of_pos hd, List.dropWhile_cons_of_pos hd, List.map_cons,
        List.filter_cons]
      cases alreadyHave inv <;> rfl
    · next hlater =>
      have hd : ¬NetNode.isDue nNow (nRequestTime, inv) = true :=
        fun h => hlater (of_decide_eq_true h)
      rw [List.takeWhile_cons_of_neg hd, List.dropWhile_cons_of_neg hd]
      rfl

end Queue

namespace AskTimes

def Fresh (nTime : Int) (inv : CInv) (a : AskTimes) : Prop :=
  a.mapAlreadyAskedFor inv + 2 * 60 * 1000000 ≤ a.tick nTime

variable {nTime nTime' : Int} {inv inv' : CInv} {a : AskTimes}

theorem tick_le (nTime : Int) (inv : CInv) (a : AskTimes) : a.tick nTime ≤ a.requestTime nTime inv :=
  le_max_right _ _

theorem Fresh.requestTime_eq (h : a.Fresh nTime inv) : a.requestTime nTime inv = a.tick nTime :=
  max_eq_right h

end AskTimes

namespace NetNode

variable {s : NetNode}

theorem onNode_get (s : NetNode) (i j : Nat) (f : CNode → CNode) :
    (s.onNode i f).vNodes[j]? = if i = j then (s.vNodes[j]?).map f else s.vNodes[j]? := by
  rw [onNode, List.getElem?_modify]
  split
  · rfl
  · cases s.vNodes[j]? <;> rfl

theorem askStep_length (ev : AskEvent) (s : NetNode) :
    (askStep ev s).vNodes.length = s.vNodes.length := by
  cases ev with
  | askFor nTime i inv => exact List.length_modify _ _ _
  | received inv => rfl
  | sendMessages nTime i alreadyHave => exact List.length_modify _ _ _

theorem askRun_append (evs evs' : List AskEvent) (s : NetNode) :
    askRun (evs ++ evs') s = askRun evs' (askRun evs s) := List.foldl_append

theorem askRun_length (evs : List AskEvent) (s : NetNode) :
    (askRun evs s).vNodes.length = s.vNodes.length := by
  induction evs generalizing s with
  | nil => rfl
  | cons ev rest ih => exact (ih (askStep ev s)).trans (askStep_length ev s)

theorem queueAt_askFor {i : Nat} (hi : i < s.vNodes.length) (nTime : Int) (j : Nat) (inv : CInv) :
    (s.askFor nTime j inv).queueAt i =
      if j = i then insertAsk (s.times.requestTime nTime inv, inv) (s.queueAt i) else s.queueAt i := by
  have hget : (s.askFor nTime j inv).vNodes[i]? = _ :=
    onNode_get s j i (CNode.askFor (s.times.requestTime nTime inv) inv)
  rw [queueAt, queueAt, hget, List.getElem?_eq_getElem hi]
  split <;> rfl

theorem queueAt_sent {i : Nat} (hi : i < s.vNodes.length) (nNow : Int) (j : Nat)
    (alreadyHave : CInv → Bool) :
    (s.onNode j (CNode.sendGetdata nNow alreadyHave)).queueAt i =
      if j = i then (s.queueAt i).dropWhile (isDue nNow) else s.queueAt i := by
  rw [queueAt, queueAt, onNode_get, List.getElem?_eq_getElem hi]
  split
  · change (dueAsks nNow alreadyHave _ _).2 = _
    rw [dueAsks_eq]
    rfl
  · rfl

theorem streamAt_sent {i : Nat} (hi : i < s.vNodes.length) (nNow : Int)
    (alreadyHave : CInv → Bool) :
    (s.onNode i (CNode.sendGetdata nNow alreadyHave)).streamAt i = s.streamAt i ++
      (Batch.batches 1000 ((((s.queueAt i).takeWhile (isDue nNow)).map Prod.snd).filter fun inv =>
        !alreadyHave inv)).map NetMessage.getdata := by
  rw [streamAt, streamAt, queueAt, onNode_get, List.getElem?_eq_getElem hi, if_pos rfl]
  change _ ++ (Batch.close (dueAsks nNow alreadyHave _ _).1).map NetMessage.getdata = _
  rw [dueAsks_eq]
  rfl

theorem askStep_kept {i : Nat} (hi : i < s.vNodes.length) (ev : AskEvent) :
    (s.queueAt i ++ ev.asksAt i s).Perm (ev.takesAt i s ++ (askStep ev s).queueAt i) := by
  cases ev with
  | askFor nTime j inv =>
    rw [askStep, queueAt_askFor hi, AskEvent.asksAt, AskEvent.takesAt, List.nil_append]
    split
    · exact List.perm_append_comm.trans (insertAsk_perm _ _).symm
    · rw [List.append_nil]
  | received inv =>
    change (s.queueAt i ++ []).Perm (s.queueAt i)
    rw [List.append_nil]
  | sendMessages nTime j alreadyHave =>
    rw [askStep, queueAt_sent hi, AskEvent.asksAt, AskEvent.takesAt, List.append_nil]
    split
    · rw [List.takeWhile_append_dropWhile]
    · exact List.Perm.refl _

theorem askRun_kept {i : Nat} (evs : List AskEvent) (hi : i < s.vNodes.length) :
    (s.queueAt i ++ AskEvent.gather (AskEvent.asksAt i) evs s).Perm
      (AskEvent.gather (AskEvent.takesAt i) evs s ++ (askRun evs s).queueAt i) := by
  induction evs generalizing s with
  | nil => exact List.perm_append_comm
  | cons ev rest ih =>
    have hrest := ih (s := askStep ev s) (by rwa [askStep_length])
    have hfirst := askStep_kept hi ev
    calc s.queueAt i ++ (ev.asksAt i s ++ AskEvent.gather (AskEvent.asksAt i) rest (askStep ev s))
        = s.queueAt i ++ ev.asksAt i s ++ AskEvent.gather (AskEvent.asksAt i) rest (askStep ev s) :=
          (List.append_assoc _ _ _).symm
      List.Perm _ (ev.takesAt i s ++ (askStep ev s).queueAt i ++
            AskEvent.gather (AskEvent.asksAt i) rest (askStep ev s)) := hfirst.append_right _
      _ = ev.takesAt i s ++ ((askStep ev s).queueAt i ++
            AskEvent.gather (AskEvent.asksAt i) rest (askStep ev s)) := List.append_assoc _ _ _
      List.Perm _ (ev.takesAt i s ++ (AskEvent.gather (AskEvent.takesAt i) rest (askStep ev s) ++
            (askRun (ev :: rest) s).queueAt i)) := hrest.append_left _
      _ = AskEvent.gather (AskEvent.takesAt i) (ev :: rest) s ++ (askRun (ev :: rest) s).queueAt i :=
          (List.append_assoc _ _ _).symm

theorem times_askFor (nTime : Int) (i : Nat) (inv : CInv) (s : NetNode) :
    (askStep (.askFor nTime i inv) s).times = s.times.asked nTime inv := rfl

def Sorted (s : NetNode) (i : Nat) : Prop := (s.queueAt i).Pairwise fun a b => a.1 ≤ b.1

theorem askStep_sorted {i : Nat} (hi : i < s.vNodes.length) (ev : AskEvent) (h : s.Sorted i) :
    (askStep ev s).Sorted i := by
  cases ev with
  | askFor nTime j inv =>
    rw [askStep, Sorted, queueAt_askFor hi]
    split
    · exact insertAsk_sorted h
    · exact h
  | received inv => exact h
  | sendMessages nTime j alreadyHave =>
    rw [askStep, Sorted, queueAt_sent hi]
    split
    · exact h.sublist (List.dropWhile_sublist _)
    · exact h

theorem askRun_sorted {i : Nat} (evs : List AskEvent) (hi : i < s.vNodes.length) (h : s.Sorted i) :
    (askRun evs s).Sorted i := by
  induction evs generalizing s with
  | nil => exact h
  | cons ev rest ih => exact ih (by rwa [askStep_length]) (askStep_sorted hi ev h)

-- what the request time of an inventory item keeps until the item arrives
theorem askStep_mapAlreadyAskedFor {inv : CInv} {ev : AskEvent} (h : ev ≠ .received inv) :
    s.times.mapAlreadyAskedFor inv ≤ (askStep ev s).times.mapAlreadyAskedFor inv := by
  cases ev with
  | askFor nTime i inv' =>
    rw [times_askFor, AskTimes.asked]
    dsimp only
    rw [Function.update_apply]
    split
    · next heq =>
      rw [heq]
      have hretry : s.times.mapAlreadyAskedFor inv' + 2 * 60 * 1000000 ≤
          s.times.requestTime nTime inv' := le_max_left _ _
      omega
    · exact le_rfl
  | received inv' =>
    have hne : inv ≠ inv' := fun heq => h (heq ▸ rfl)
    change _ ≤ Function.update s.times.mapAlreadyAskedFor inv' 0 inv
    rw [Function.update_of_ne hne]
  | sendMessages nTime i alreadyHave => exact le_rfl

theorem askStep_nLastTime (ev : AskEvent) (s : NetNode) :
    s.times.nLastTime ≤ (askStep ev s).times.nLastTime := by
  cases ev with
  | askFor nTime i inv => exact (Int.lt_succ _).le.trans (le_max_right _ _)
  | received inv => exact le_rfl
  | sendMessages nTime i alreadyHave => exact le_rfl

theorem askRun_mapAlreadyAskedFor {inv : CInv} {evs : List AskEvent} (h : .received inv ∉ evs) :
    s.times.mapAlreadyAskedFor inv ≤ (askRun evs s).times.mapAlreadyAskedFor inv := by
  induction evs generalizing s with
  | nil => exact le_rfl
  | cons ev rest ih =>
    obtain ⟨hev, hrest⟩ := not_or.mp (mt List.mem_cons.mpr h)
    exact (askStep_mapAlreadyAskedFor (Ne.symm hev)).trans (ih hrest)

theorem askRun_nLastTime (evs : List AskEvent) (s : NetNode) :
    s.times.nLastTime ≤ (askRun evs s).times.nLastTime := by
  induction evs generalizing s with
  | nil => exact le_rfl
  | cons ev rest ih => exact (askStep_nLastTime ev s).trans (ih (askStep ev s))

theorem askRun_snoc (before : List AskEvent) (ev : AskEvent) (after : List AskEvent) (s : NetNode) :
    askRun (before ++ ev :: after) s = askRun after (askStep ev (askRun before s)) :=
  askRun_append before (ev :: after) s

def Bounded (s : NetNode) (i : Nat) : Prop := ∀ entry ∈ s.queueAt i, entry.1 ≤ s.times.nLastTime

def FreshAsks (evs : List AskEvent) (s : NetNode) : Prop :=
  ∀ before nTime i inv after, evs = before ++ .askFor nTime i inv :: after →
    (askRun before s).times.Fresh nTime inv

theorem FreshAsks.head {nTime : Int} {i : Nat} {inv : CInv} {rest : List AskEvent}
    (h : FreshAsks (.askFor nTime i inv :: rest) s) : s.times.Fresh nTime inv := h [] nTime i inv rest rfl

theorem FreshAsks.tail {ev : AskEvent} {rest : List AskEvent} (h : FreshAsks (ev :: rest) s) :
    FreshAsks rest (askStep ev s) := by
  intro before nTime i inv after heq
  exact h (ev :: before) nTime i inv after (by rw [heq, List.cons_append])

theorem askStep_inOrder {i : Nat} (hi : i < s.vNodes.length) {ev : AskEvent} (hbound : s.Bounded i)
    (hfresh : ∀ nTime j inv, ev = .askFor nTime j inv → s.times.Fresh nTime inv) :
    s.queueAt i ++ ev.asksAt i s = ev.takesAt i s ++ (askStep ev s).queueAt i ∧
      (askStep ev s).Bounded i := by
  cases ev with
  | askFor nTime j inv =>
    have htime := (hfresh nTime j inv rfl).requestTime_eq
    have hlast : ∀ entry ∈ s.queueAt i, entry.1 ≤ s.times.tick nTime := fun entry hmem =>
      (hbound entry hmem).trans ((Int.lt_succ _).le.trans (le_max_right _ _))
    have hqueue : (askStep (.askFor nTime j inv) s).queueAt i =
        if j = i then s.queueAt i ++ [(s.times.tick nTime, inv)] else s.queueAt i := by
      rw [askStep, queueAt_askFor hi, htime, insertAsk_last hlast]
    rw [Bounded, hqueue, times_askFor, AskEvent.asksAt, AskEvent.takesAt, List.nil_append, htime]
    split
    · refine ⟨rfl, fun entry hmem => ?_⟩
      rcases List.mem_append.mp hmem with hold | hnew
      · exact hlast entry hold
      · rw [List.mem_singleton.mp hnew]
        exact le_rfl
    · exact ⟨List.append_nil _, hlast⟩
  | received inv => exact ⟨List.append_nil _, hbound⟩
  | sendMessages nTime j alreadyHave =>
    have hqueue : (askStep (.sendMessages nTime j alreadyHave) s).queueAt i = _ :=
      queueAt_sent hi (nTime * 1000000) j alreadyHave
    rw [Bounded, hqueue, AskEvent.asksAt, AskEvent.takesAt, List.append_nil]
    split
    · refine ⟨(List.takeWhile_append_dropWhile).symm, fun entry hmem => ?_⟩
      exact hbound entry ((List.dropWhile_sublist _).subset hmem)
    · exact ⟨rfl, hbound⟩

theorem askRun_inOrder {i : Nat} {evs : List AskEvent} (hi : i < s.vNodes.length)
    (hbound : s.Bounded i) (hfresh : FreshAsks evs s) :
    s.queueAt i ++ AskEvent.gather (AskEvent.asksAt i) evs s =
      AskEvent.gather (AskEvent.takesAt i) evs s ++ (askRun evs s).queueAt i := by
  induction evs generalizing s with
  | nil => exact List.append_nil _
  | cons ev rest ih =>
    have hhead : ∀ nTime j inv, ev = .askFor nTime j inv → s.times.Fresh nTime inv := by
      rintro nTime j inv rfl
      exact hfresh.head
    obtain ⟨hstep, hbound'⟩ := askStep_inOrder hi hbound hhead
    have hrest := ih (by rwa [askStep_length]) hbound' hfresh.tail
    change _ ++ (_ ++ _) = _ ++ _ ++ (askRun rest (askStep ev s)).queueAt i
    rw [← List.append_assoc, hstep, List.append_assoc, hrest, ← List.append_assoc]

-- what one pass of SendMessages sends of the queue at nNow
structure AsksSent (nNow : Int) (alreadyHave : CInv → Bool) (i : Nat) (s s' : NetNode) : Prop where
  messages : ∃ vGetData, Batch.Sized 1000 vGetData ∧
    vGetData.flatten = (((s.queueAt i).filter (isDue nNow)).map Prod.snd).filter
      (fun inv => !alreadyHave inv) ∧
    s'.streamAt i = s.streamAt i ++ vGetData.map NetMessage.getdata
  left : s'.queueAt i = (s.queueAt i).filter fun entry => !isDue nNow entry

theorem due_prefix {q : List (Int × CInv)} (h : q.Pairwise fun a b => a.1 ≤ b.1) (nNow : Int) :
    q.takeWhile (isDue nNow) = q.filter (isDue nNow) ∧
      q.dropWhile (isDue nNow) = q.filter fun entry => !isDue nNow entry := by
  induction q with
  | nil => exact ⟨rfl, rfl⟩
  | cons first rest ih =>
    obtain ⟨hfirst, hrest⟩ := List.pairwise_cons.mp h
    obtain ⟨htake, hdrop⟩ := ih hrest
    by_cases hdue : isDue nNow first = true
    · rw [List.takeWhile_cons_of_pos hdue, List.dropWhile_cons_of_pos hdue,
        List.filter_cons_of_pos hdue, List.filter_cons_of_neg (by rw [hdue]; decide), htake, hdrop]
      exact ⟨rfl, rfl⟩
    · have hlate : ∀ entry ∈ rest, ¬isDue nNow entry = true := by
        intro entry hmem hd
        exact hdue (decide_eq_true ((hfirst entry hmem).trans (of_decide_eq_true hd)))
      have hall : ∀ entry ∈ first :: rest, (!isDue nNow entry) = true := by
        refine List.forall_mem_cons.mpr ⟨?_, fun entry hmem => ?_⟩
        · rw [Bool.eq_false_iff.mpr hdue]
          rfl
        · rw [Bool.eq_false_iff.mpr (hlate entry hmem)]
          rfl
      rw [List.takeWhile_cons_of_neg hdue, List.dropWhile_cons_of_neg hdue,
        List.filter_cons_of_neg hdue, List.filter_eq_nil_iff.mpr hlate, List.filter_eq_self.mpr hall]
      exact ⟨rfl, rfl⟩

theorem sendGetdata_sent {i : Nat} (hi : i < s.vNodes.length) (hsorted : s.Sorted i) (nNow : Int)
    (alreadyHave : CInv → Bool) :
    AsksSent nNow alreadyHave i s (s.onNode i (CNode.sendGetdata nNow alreadyHave)) := by
  obtain ⟨htake, hdrop⟩ := due_prefix hsorted nNow
  refine ⟨⟨_, Batch.batches_sized (by decide) _, Batch.batches_flatten _ _, ?_⟩, ?_⟩
  · rw [streamAt_sent hi, htake]
  · rw [queueAt_sent hi, if_pos rfl, hdrop]

structure RequestsKept (evs : List AskEvent) (s : NetNode) : Prop where
  kept : ∀ i < s.vNodes.length, (s.queueAt i ++ AskEvent.gather (AskEvent.asksAt i) evs s).Perm
    (AskEvent.gather (AskEvent.takesAt i) evs s ++ (askRun evs s).queueAt i)
  inOrder : ∀ i < s.vNodes.length, s.Bounded i → FreshAsks evs s →
    s.queueAt i ++ AskEvent.gather (AskEvent.asksAt i) evs s =
      AskEvent.gather (AskEvent.takesAt i) evs s ++ (askRun evs s).queueAt i
  sent : ∀ before nTime i alreadyHave after, i < s.vNodes.length →
    evs = before ++ .sendMessages nTime i alreadyHave :: after →
    AsksSent (nTime * 1000000) alreadyHave i (askRun before s)
      (askRun (before ++ [.sendMessages nTime i alreadyHave]) s)
  spaced : ∀ before nTime i inv between nTime' j after,
    evs = before ++ .askFor nTime i inv :: (between ++ .askFor nTime' j inv :: after) →
    .received inv ∉ between →
    (askRun before s).times.requestTime nTime inv + 2 * 60 * 1000000 ≤
      (askRun (before ++ .askFor nTime i inv :: between) s).times.requestTime nTime' inv
  later : ∀ before nTime i inv between nTime' j inv' after,
    evs = before ++ .askFor nTime i inv :: (between ++ .askFor nTime' j inv' :: after) →
    (askRun before s).times.Fresh nTime inv →
    (askRun before s).times.requestTime nTime inv <
      (askRun (before ++ .askFor nTime i inv :: between) s).times.requestTime nTime' inv'

theorem requests_kept (evs : List AskEvent) (s : NetNode)
    (hsorted : ∀ i < s.vNodes.length, s.Sorted i) : RequestsKept evs s := by
  refine ⟨fun i hi => askRun_kept evs hi, fun i hi => askRun_inOrder hi, ?_, ?_, ?_⟩
  · intro before nTime i alreadyHave after hi _
    rw [askRun_append]
    refine sendGetdata_sent ?_ (askRun_sorted before hi (hsorted i hi)) (nTime * 1000000) alreadyHave
    rwa [askRun_length]
  · intro before nTime i inv between nTime' j after _ hnone
    rw [askRun_snoc]
    have hkept := askRun_mapAlreadyAskedFor (s := askStep (.askFor nTime i inv) (askRun before s)) hnone
    rw [times_askFor, AskTimes.asked] at hkept
    dsimp only at hkept
    rw [Function.update_self] at hkept
    exact (add_le_add_left hkept _).trans (le_max_left _ _)
  · intro before nTime i inv between nTime' j inv' after _ hfresh
    rw [askRun_snoc, hfresh.requestTime_eq]
    have hlast := askRun_nLastTime between (askStep (.askFor nTime i inv) (askRun before s))
    rw [times_askFor] at hlast
    refine lt_of_lt_of_le ?_ (AskTimes.tick_le nTime' inv' _)
    exact lt_of_lt_of_le (Int.lt_add_one_iff.mpr hlast) (le_max_right _ _)

def quietPeer : CNode := ⟨38000, [], 1, ∅, 0, none, 0, ∅, [], [], []⟩

def twoPeers : NetNode :=
  { relay := ⟨zeroNode, fun _ => none, [], fun _ => false⟩
    memory := RelayMemory.empty
    times := ⟨fun _ => 0, 0⟩
    mapAlerts := []
    vNodes := [quietPeer, quietPeer] }

def twoOffers : List AskEvent :=
  [.askFor 1400000000 0 (CInv.block 7), .askFor 1400000001 1 (CInv.block 7),
    .sendMessages 1400000002 0 fun _ => false, .sendMessages 1400000002 1 fun _ => false]

theorem twoOffers_kept : RequestsKept twoOffers twoPeers ∧
    (askRun twoOffers twoPeers).queueAt 0 = [] ∧
    (askRun twoOffers twoPeers).queueAt 1 = [(1400000119000000, CInv.block 7)] := by
  refine ⟨requests_kept twoOffers twoPeers fun i _ => ?_, by decide +kernel, by decide +kernel⟩
  have hempty : twoPeers.queueAt i = [] := by
    rcases i with _ | _ | i
    · rfl
    · rfl
    · rfl
  rw [Sorted, hempty]
  exact List.Pairwise.nil

end NetNode

end Namecoin
