import Namecoin.Net.Peers

namespace Namecoin

-- What touches the inventory lists of one connection.
inductive InvEvent where
  | addInventoryKnown (inv : CInv)
  | pushInventory (inv : CInv)
  | sendMessages (fSendTrickle : Bool) (fTrickleWait : CInv → Bool)

namespace CNode

def invStep : InvEvent → CNode → CNode × List (List CInv)
  | .addInventoryKnown inv, n => (n.addInventoryKnown inv, [])
  | .pushInventory inv, n => (n.pushInventory inv, [])
  | .sendMessages fSendTrickle fTrickleWait, n =>
    (n.sendInventory fSendTrickle fTrickleWait, n.inventoryMessages fSendTrickle fTrickleWait)

def invRun : List InvEvent → CNode → CNode × List (List CInv)
  | [], n => (n, [])
  | ev :: rest, n =>
    let first := invStep ev n
    let more := invRun rest first.1
    (more.1, first.2 ++ more.2)

def outbox (n : CNode) : Outbox CInv := ⟨n.setInventoryKnown, n.vInventoryToSend⟩

end CNode

namespace InvEvent

def waits (fSendTrickle : Bool) (fTrickleWait : CInv → Bool) (inv : CInv) : Bool :=
  decide (inv.type = msgTx ∧ fSendTrickle = false ∧ fTrickleWait inv = true)

def event : InvEvent → Outbox.Event CInv
  | addInventoryKnown inv => .hear inv
  | pushInventory inv => .offer inv
  | sendMessages fSendTrickle fTrickleWait => .send (waits fSendTrickle fTrickleWait)

def offered : List InvEvent → List CInv
  | [] => []
  | pushInventory inv :: rest => inv :: offered rest
  | addInventoryKnown _ :: rest => offered rest
  | sendMessages _ _ :: rest => offered rest

end InvEvent

section Loop

open InvEvent

variable {fSendTrickle : Bool} {fTrickleWait : CInv → Bool}

theorem visits_eq (queue : List CInv) (st : InvPass) :
    queue.foldl (InvPass.visit fSendTrickle fTrickleWait) st =
      ⟨st.setInventoryKnown ∪
          (Outbox.pick (waits fSendTrickle fTrickleWait) st.setInventoryKnown queue).1.toFinset,
        st.vInvWait ++
          (Outbox.pick (waits fSendTrickle fTrickleWait) st.setInventoryKnown queue).2,
        (Outbox.pick (waits fSendTrickle fTrickleWait) st.setInventoryKnown queue).1.foldl
          (Batch.push 1000) st.vInv⟩ := by
  induction queue generalizing st with
  | nil => simp [Outbox.pick]
  | cons inv queue ih =>
    rw [List.foldl_cons, ih, Outbox.pick, InvPass.visit]
    dsimp only
    split
    · rfl
    · split
      · next hwait =>
        have hwaits : waits fSendTrickle fTrickleWait inv = true := decide_eq_true hwait
        rw [if_pos hwaits]
        simp
      · next hsend =>
        have hgoes : ¬waits fSendTrickle fTrickleWait inv = true :=
          fun h => hsend (of_decide_eq_true h)
        rw [if_neg hgoes]
        simp [Finset.insert_union, Finset.union_insert]

theorem sendInventory_outbox (n : CNode) :
    (n.sendInventory fSendTrickle fTrickleWait).outbox =
      (Outbox.step (.send (waits fSendTrickle fTrickleWait)) n.outbox).1 := by
  rw [CNode.outbox, CNode.sendInventory, CNode.inventoryPass, visits_eq]
  simp [Outbox.step, CNode.outbox]

theorem inventoryMessages_flatten (n : CNode) :
    (n.inventoryMessages fSendTrickle fTrickleWait).flatten =
      (Outbox.step (.send (waits fSendTrickle fTrickleWait)) n.outbox).2 := by
  rw [CNode.inventoryMessages, CNode.inventoryPass, visits_eq]
  exact Batch.batches_flatten 1000 _

theorem inventoryMessages_sized (n : CNode) :
    Batch.Sized 1000 (n.inventoryMessages fSendTrickle fTrickleWait) := by
  rw [CNode.inventoryMessages, CNode.inventoryPass, visits_eq]
  exact Batch.batches_sized (by decide) _

end Loop

namespace CNode

theorem invStep_outbox (ev : InvEvent) (n : CNode) :
    (invStep ev n).1.outbox = (Outbox.step ev.event n.outbox).1 ∧
      (invStep ev n).2.flatten = (Outbox.step ev.event n.outbox).2 := by
  cases ev with
  | addInventoryKnown inv => exact ⟨rfl, rfl⟩
  | pushInventory inv =>
    refine ⟨?_, rfl⟩
    simp only [invStep, InvEvent.event, Outbox.step, pushInventory, outbox]
    split <;> rfl
  | sendMessages fSendTrickle fTrickleWait =>
    exact ⟨sendInventory_outbox n, inventoryMessages_flatten n⟩

theorem invRun_outbox (evs : List InvEvent) (n : CNode) :
    (invRun evs n).1.outbox = (Outbox.run (evs.map InvEvent.event) n.outbox).1 ∧
      (invRun evs n).2.flatten = (Outbox.run (evs.map InvEvent.event) n.outbox).2 := by
  induction evs generalizing n with
  | nil => exact ⟨rfl, rfl⟩
  | cons ev rest ih =>
    obtain ⟨hbox, htold⟩ := invStep_outbox ev n
    obtain ⟨hboxes, htolds⟩ := ih (invStep ev n).1
    rw [hbox] at hboxes htolds
    rw [invRun, List.map_cons, Outbox.run]
    dsimp only
    rw [List.flatten_append, htold, htolds]
    exact ⟨hboxes, rfl⟩

theorem invRun_sized (evs : List InvEvent) (n : CNode) : Batch.Sized 1000 (invRun evs n).2 := by
  induction evs generalizing n with
  | nil => exact fun m hm => absurd hm List.not_mem_nil
  | cons ev rest ih =>
    have hfirst : Batch.Sized 1000 (invStep ev n).2 := by
      cases ev with
      | addInventoryKnown inv => exact fun m hm => absurd hm List.not_mem_nil
      | pushInventory inv => exact fun m hm => absurd hm List.not_mem_nil
      | sendMessages fSendTrickle fTrickleWait => exact inventoryMessages_sized n
    exact hfirst.append (ih _)

theorem invRun_stream (evs : List InvEvent) (n : CNode) :
    (invRun evs n).1.vSend = n.vSend ++ (invRun evs n).2.map NetMessage.inv := by
  induction evs generalizing n with
  | nil => exact (List.append_nil _).symm
  | cons ev rest ih =>
    have hfirst : (invStep ev n).1.vSend = n.vSend ++ (invStep ev n).2.map NetMessage.inv := by
      cases ev with
      | addInventoryKnown inv => exact (List.append_nil _).symm
      | pushInventory inv =>
        simp only [invStep, pushInventory, List.map_nil, List.append_nil]
        split <;> rfl
      | sendMessages fSendTrickle fTrickleWait => rfl
    rw [invRun]
    dsimp only
    rw [ih, hfirst, List.map_append, List.append_assoc]

end CNode

structure AnnouncedOnce (evs : List InvEvent) (n n' : CNode) (log : List (List CInv)) : Prop where
  stream : n'.vSend = n.vSend ++ log.map NetMessage.inv
  sized : Batch.Sized 1000 log
  once : log.flatten.Nodup
  news : ∀ inv ∈ log.flatten, inv ∉ n.setInventoryKnown
  offered : ∀ inv ∈ log.flatten, inv ∈ n.vInventoryToSend ++ InvEvent.offered evs
  kept : ∀ inv ∈ n.vInventoryToSend ++ InvEvent.offered evs, inv ∈ n.setInventoryKnown ∨
    inv ∈ log.flatten ∨ .addInventoryKnown inv ∈ evs ∨ inv ∈ n'.vInventoryToSend
  blocksInOrder : ((log.flatten ++ n'.vInventoryToSend).filter fun inv => decide (inv.type ≠ msgTx)).Sublist
    ((n.vInventoryToSend ++ InvEvent.offered evs).filter fun inv => decide (inv.type ≠ msgTx))
  flushed : ∀ pre fSendTrickle fTrickleWait, evs = pre ++ [.sendMessages fSendTrickle fTrickleWait] →
    ∀ inv ∈ n'.vInventoryToSend,
      inv.type = msgTx ∧ fSendTrickle = false ∧ fTrickleWait inv = true

namespace CNode

theorem invRun_snoc (pre : List InvEvent) (ev : InvEvent) (n : CNode) :
    (invRun (pre ++ [ev]) n).1 = (invStep ev (invRun pre n).1).1 := by
  induction pre generalizing n with
  | nil => rfl
  | cons first rest ih => exact ih (invStep first n).1

theorem sendInventory_waits {fSendTrickle : Bool} {fTrickleWait : CInv → Bool} {n : CNode} :
    ∀ inv ∈ (n.sendInventory fSendTrickle fTrickleWait).vInventoryToSend,
      inv.type = msgTx ∧ fSendTrickle = false ∧ fTrickleWait inv = true := by
  intro inv hinv
  have hbox := congrArg Outbox.queue (@sendInventory_outbox fSendTrickle fTrickleWait n)
  have hqueue : (n.sendInventory fSendTrickle fTrickleWait).vInventoryToSend =
      (Outbox.pick (InvEvent.waits fSendTrickle fTrickleWait) n.setInventoryKnown
        n.vInventoryToSend).2 := hbox
  rw [hqueue] at hinv
  exact of_decide_eq_true (Outbox.pick_waits n.setInventoryKnown n.vInventoryToSend inv hinv)

theorem offers_event (evs : List InvEvent) :
    Outbox.offers (evs.map InvEvent.event) = InvEvent.offered evs := by
  induction evs with
  | nil => rfl
  | cons ev rest ih =>
    cases ev with
    | addInventoryKnown inv => exact ih
    | pushInventory inv => exact congrArg (List.cons inv) ih
    | sendMessages fSendTrickle fTrickleWait => exact ih

theorem hear_event {evs : List InvEvent} {inv : CInv}
    (h : .hear inv ∈ evs.map InvEvent.event) : .addInventoryKnown inv ∈ evs := by
  obtain ⟨ev, hmem, heq⟩ := List.mem_map.mp h
  cases ev with
  | addInventoryKnown inv' =>
    cases heq
    exact hmem
  | pushInventory inv' => cases heq
  | sendMessages fSendTrickle fTrickleWait => cases heq

theorem urgent_event {evs : List InvEvent} {waits : CInv → Bool}
    (h : .send waits ∈ evs.map InvEvent.event) (inv : CInv)
    (hurgent : decide (inv.type ≠ msgTx) = true) : waits inv = false := by
  obtain ⟨ev, -, heq⟩ := List.mem_map.mp h
  cases ev with
  | addInventoryKnown inv' => cases heq
  | pushInventory inv' => cases heq
  | sendMessages fSendTrickle fTrickleWait =>
    cases heq
    exact decide_eq_false fun hwait => of_decide_eq_true hurgent hwait.1

theorem announced_once (evs : List InvEvent) (n : CNode) :
    AnnouncedOnce evs n (invRun evs n).1 (invRun evs n).2 ∧
      ∀ pre inv post,
        inv ∉ (invRun post (invRun (pre ++ [.addInventoryKnown inv]) n).1).2.flatten := by
  have hnews : ∀ (evs : List InvEvent) (n : CNode), ∀ inv ∈ (invRun evs n).2.flatten,
      inv ∉ n.setInventoryKnown := by
    intro evs n
    rw [(invRun_outbox evs n).2]
    exact (Outbox.run_told (evs.map InvEvent.event) n.outbox).news
  refine ⟨?_, fun pre inv post hmem => ?_⟩
  · obtain ⟨hbox, htold⟩ := invRun_outbox evs n
    have hspec := Outbox.run_told (evs.map InvEvent.event) n.outbox
    have horder := Outbox.run_order (evs.map InvEvent.event) n.outbox fun waits hmem => urgent_event hmem
    rw [← hbox, ← htold, offers_event] at horder
    rw [← hbox, ← htold] at hspec
    obtain ⟨honce, hnew, hknown, hsource, hkept⟩ := hspec
    rw [offers_event] at hsource hkept
    refine ⟨invRun_stream evs n, invRun_sized evs n, honce, hnew, fun inv hinv => ?_, fun inv hinv => ?_, horder,
      ?_⟩
    · exact hsource inv (List.mem_append_left _ hinv)
    · rcases hkept inv hinv with hk | hq
      · rcases (hknown inv).mp hk with hold | htold | hheard
        · exact .inl hold
        · exact .inr (.inl htold)
        · exact .inr (.inr (.inl (hear_event hheard)))
      · exact .inr (.inr (.inr hq))
    · rintro pre fSendTrickle fTrickleWait rfl
      rw [invRun_snoc]
      exact sendInventory_waits
  · rw [invRun_snoc] at hmem
    exact hnews post _ inv hmem (Finset.mem_insert_self inv _)

end CNode

end Namecoin
