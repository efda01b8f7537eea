import Namecoin.Net.SyncPeers

namespace Namecoin

open Act

-- The asking node: what its state holds, and its only connection.
structure AskingNode (env : Env) (chain : Nat → CBlock) (nTip : Nat)
    (Holds : Nat → Bool → NodeState → Prop) (pre : List NetMessage) (s : NetNode) (d : Download) : Prop where
  holds : Holds d.nBest d.parked s.state
  peer : ∃ n, s.vNodes = [n] ∧ AskingPeer env chain nTip pre n s.times d

section Relay

variable {e : NodeEnv} {n : CNode}

theorem relayBlock_known {hash : Uint256} (h : CInv.block hash ∈ n.setInventoryKnown)
    (nLockinHeight nBestHeight : Int) : relayBlock nLockinHeight nBestHeight hash n = n := by
  have hpush : n.pushInventory (CInv.block hash) = n := if_pos h
  rw [relayBlock, hpush, ite_self]

theorem relayAccepted_known {call : NodeState × CBlock}
    (h : CInv.block (call.2.getHash e.env) ∈ n.setInventoryKnown) : relayAccepted e [n] call = [n] := by
  rw [relayAccepted]
  split
  · split
    · rw [List.map_singleton, relayBlock_known h]
    · rfl
  · rfl

theorem foldl_relayAccepted {calls : List (NodeState × CBlock)}
    (h : ∀ call ∈ calls, CInv.block (call.2.getHash e.env) ∈ n.setInventoryKnown) :
    calls.foldl (relayAccepted e) [n] = [n] := by
  induction calls with
  | nil => rfl
  | cons call calls ih =>
    obtain ⟨hfirst, hrest⟩ := List.forall_mem_cons.mp h
    rw [List.foldl_cons, relayAccepted_known hfirst, ih hrest]

end Relay

section Client

variable {c : NetEnv} {chain : Nat → CBlock} {nTip : Nat} {Holds : Nat → Bool → NodeState → Prop}
  {s : NetNode} {d : Download} {n : CNode} {pre : List NetMessage}

theorem AskingPeer.drop_inv {times : AskTimes} (h : AskingPeer c.node.env chain nTip pre n times d)
    {hs : List Nat} {rest : List Reply} (hreplies : d.replies = .inv hs :: rest) :
    AskingPeer c.node.env chain nTip pre n times { d with replies := rest } where
  offers := h.offers
  asks := h.asks
  inTime := h.inTime
  begins := h.begins
  known := h.known
  fresh inv hinv := by
    have hold := h.fresh inv hinv
    rw [Download.blocks, hreplies] at hold
    exact hold
  stream := h.stream

theorem AskingPeer.heard {times : AskTimes} (h : AskingPeer c.node.env chain nTip pre n times d)
    (inv : CInv) : AskingPeer c.node.env chain nTip pre (n.addInventoryKnown inv) times d :=
  ⟨h.offers, h.asks, h.inTime, h.begins, fun hp => Finset.mem_insert_of_mem (h.known hp), h.fresh,
    h.stream⟩

-- The block of the first reply arrives, whether it is adopted or kept aside.
theorem AskingPeer.drop_block {times : AskTimes} (h : AskingPeer c.node.env chain nTip pre n times d)
    {k nBest : Nat} {parked : Bool} {rest : List Reply} (hreplies : d.replies = .block k :: rest)
    (hparked : parked = true → d.parked = true ∨ k = nTip) :
    AskingPeer c.node.env chain nTip pre (n.addInventoryKnown (blockItem c.node.env chain k))
      (times.erase (blockItem c.node.env chain k))
      { d with
        nBest := nBest
        parked := parked
        replies := rest } where
  offers := h.offers
  asks := h.asks
  inTime := h.inTime
  begins := h.begins
  known hp := by
    rcases hparked hp with hold | rfl
    · exact Finset.mem_insert_of_mem (h.known hold)
    · exact Finset.mem_insert_self _ _
  fresh inv hinv := by
    by_cases heq : inv = blockItem c.node.env chain k
    · rw [heq] at hinv
      exact absurd (Function.update_self _ _ _) hinv
    · have hother : (times.erase (blockItem c.node.env chain k)).mapAlreadyAskedFor inv =
          times.mapAlreadyAskedFor inv := Function.update_of_ne heq _ _
      rw [hother] at hinv
      obtain ⟨j, hj, rfl⟩ := h.fresh inv hinv
      rw [Download.blocks, hreplies, List.flatMap_cons] at hj
      rcases List.mem_cons.mp hj with rfl | hj
      · exact absurd rfl heq
      · exact ⟨j, hj, rfl⟩
  stream := h.stream

theorem NetNode.askFill_erase (i : Nat) (b : CBlock) (inv : CInv) (s : NetNode) :
    { s.askFill c i b with times := (s.askFill c i b).times.erase inv } =
      { s with times := s.times.erase inv }.askFill c i b := by
  have hstate : { s with times := s.times.erase inv }.state = s.state := rfl
  rw [NetNode.askFill, NetNode.askFill, hstate]
  cases getOrphanRoot c.node.env s.state (s.state.mapOrphanBlocksByPrev.length + 1) b <;> rfl

-- The node has the block already, in its index or among its orphans.
theorem NetNode.hearInv_had {hash : Uint256} (hhave : s.alreadyHave (CInv.block hash) = true)
    (i : Nat) : s.hearInv c i (CInv.block hash) =
      ((s.state.mapOrphanBlocks hash).map fun b =>
        (s.onNode i (CNode.addInventoryKnown (CInv.block hash))).askFill c i b).getD
          (s.onNode i (CNode.addInventoryKnown (CInv.block hash))) := by
  have hold : ¬(s.onNode i (CNode.addInventoryKnown (CInv.block hash))).alreadyHave
      (CInv.block hash) = false := by
    rw [Bool.not_eq_false]
    exact hhave
  have htype : (CInv.block hash).type = msgBlock := rfl
  rw [NetNode.hearInv, if_neg hold, if_pos htype]
  have hstate : (s.onNode i (CNode.addInventoryKnown (CInv.block hash))).state.mapOrphanBlocks
      (CInv.block hash).hash = s.state.mapOrphanBlocks hash := rfl
  rw [hstate]
  cases s.state.mapOrphanBlocks hash <;> rfl

theorem AskingNode.read_inv (h : AskingNode c.node.env chain nTip Holds pre s d)
    (hheld : ∀ a parked s, Holds a parked s → Held c.node.env chain nTip a parked s)
    (hc : HashChain c.node.env chain nTip) (htime : 121 ≤ c.nTime) (hphase : d.Phase nTip)
    {hs : List Nat} {rest : List Reply} (hreplies : d.replies = .inv hs :: rest)
    (hshort : hs.length ≤ 50000) :
    AskingNode c.node.env chain nTip Holds pre
      (s.processMessage c 0 (.inv (hs.map (blockItem c.node.env chain))))
      (Download.read nTip (.inv hs) { d with replies := rest }) := by
  obtain ⟨n, hn, hpeer⟩ := h.peer
  have hdrop := hpeer.drop_inv hreplies
  have hstate := hheld _ _ _ h.holds
  have hway : ∀ k ∈ d.blocks ++ d.wants ++ d.asks, k ≤ nTip := fun k hk =>
    hphase.way_le (List.mem_append_left _ (List.mem_append_left _ hk))
  have hblocks : d.blocks = rest.flatMap Reply.blocks := by
    rw [Download.blocks, hreplies]
    rfl
  have hrun : s.processMessage c 0 (.inv (hs.map (blockItem c.node.env chain))) =
      (hs.map (blockItem c.node.env chain)).foldl (NetNode.hearInv c 0) s := by
    rw [NetNode.processMessage, NetNode.processInv, if_neg (by rw [List.length_map]; omega)]
  rw [hrun]
  cases hphase.read_cases hreplies with
  | fresh hs hnew hnodup hapart =>
    rw [hblocks] at hway hapart
    obtain ⟨n', times', hrun, hpeer'⟩ := hdrop.hearAll hn hstate htime hc hway
      (fun k hk => (hnew k hk).2) hnodup hapart
    rw [hrun, Download.read_fresh hnew]
    exact ⟨h.holds, n', rfl, hpeer'⟩
  | known hbest hparked =>
    have hhave : s.alreadyHave (blockItem c.node.env chain nTip) = true := by
      rw [hstate.alreadyHave le_rfl, Download.had, hbest, decide_eq_true le_rfl, Bool.true_or]
    have horphan : s.state.mapOrphanBlocks ((chain nTip).getHash c.node.env) = none := by
      rw [hstate.orphans nTip le_rfl, hparked]
      rfl
    have hstep : s.hearInv c 0 (blockItem c.node.env chain nTip) =
        s.onNode 0 (CNode.addInventoryKnown (blockItem c.node.env chain nTip)) := by
      rw [blockItem, NetNode.hearInv_had hhave, horphan]
      rfl
    rw [List.map_singleton, List.foldl_cons, List.foldl_nil, hstep, NetNode.onNode_single hn,
      Download.read_known hbest hparked]
    exact ⟨h.holds, _, rfl, hdrop.heard _⟩
  | reask hparked hfar hasked =>
    have hhave : s.alreadyHave (blockItem c.node.env chain nTip) = true := by
      rw [hstate.alreadyHave le_rfl, Download.had, hparked, Bool.true_and, decide_eq_true rfl,
        Bool.or_true]
    have horphan : s.state.mapOrphanBlocks ((chain nTip).getHash c.node.env) = some (chain nTip) := by
      rw [hstate.orphans nTip le_rfl, hparked, Bool.true_and, if_pos (decide_eq_true rfl)]
    have hstep : s.hearInv c 0 (blockItem c.node.env chain nTip) =
        (s.onNode 0 (CNode.addInventoryKnown (blockItem c.node.env chain nTip))).askFill c 0
          (chain nTip) := by
      rw [blockItem, NetNode.hearInv_had hhave, horphan]
      rfl
    rw [NetNode.onNode_single hn] at hstep
    obtain ⟨n', hrun, hpeer'⟩ := @AskingPeer.ask c chain nTip
      { s with vNodes := [n.addInventoryKnown (blockItem c.node.env chain nTip)] }
      { d with replies := rest } _ pre (hdrop.heard _) rfl hstate hc hfar hasked
    rw [List.map_singleton, List.foldl_cons, List.foldl_nil, hstep, hrun, Download.read_reask hparked]
    exact ⟨h.holds, n', rfl, hpeer'⟩

theorem AskingNode.read_block (h : AskingNode c.node.env chain nTip Holds pre s d)
    (hheld : ∀ a parked s, Holds a parked s → Held c.node.env chain nTip a parked s)
    (hadopting : Adopting c.node chain nTip Holds) (hc : HashChain c.node.env chain nTip)
    (hphase : d.Phase nTip) {k : Nat} {rest : List Reply} (hreplies : d.replies = .block k :: rest) :
    AskingNode c.node.env chain nTip Holds pre (s.processMessage c 0 (.block (chain k)))
      (Download.read nTip (.block k) { d with replies := rest }) := by
  obtain ⟨n, hn, hpeer⟩ := h.peer
  have hstate := hheld _ _ _ h.holds
  cases hphase.read_cases hreplies with
  | adopt hbehind hparked =>
    obtain ⟨s', hrun, hholds, hcalls⟩ := hadopting.adopt hheld hc.injective hc.linked hbehind hparked h.holds
    have hprev : (s.state.mapBlockIndex (chain (d.nBest + 1)).hashPrevBlock).isNone = false := by
      rw [hc.linked d.nBest hbehind, ← Bool.not_eq_true', Option.not_isNone, hstate.index _ hbehind.le,
        decide_eq_true_eq]
    have hknown : ∀ call ∈ processCalls c.node (chain (d.nBest + 1)) s.state,
        CInv.block (call.2.getHash c.node.env) ∈
          (n.addInventoryKnown (blockItem c.node.env chain (d.nBest + 1))).setInventoryKnown := by
      intro call hcall
      rcases hcalls call hcall with heq | ⟨hp, heq⟩
      · rw [heq]
        exact Finset.mem_insert_self _ _
      · rw [heq]
        exact Finset.mem_insert_of_mem (hpeer.known hp)
    have hstep : s.processMessage c 0 (.block (chain (d.nBest + 1))) =
        { s.withState s' with
          vNodes := [n.addInventoryKnown (blockItem c.node.env chain (d.nBest + 1))]
          times := s.times.erase (blockItem c.node.env chain (d.nBest + 1)) } := by
      rw [NetNode.processMessage, NetNode.processBlock, hrun, hprev, NetNode.onNode_single hn]
      dsimp only
      rw [if_neg Bool.false_ne_true]
      have hrelay := foldl_relayAccepted hknown
      rw [blockItem] at hrelay
      rw [hrelay]
      rfl
    rw [hstep, Download.read_adopt hparked]
    refine ⟨?_, _, rfl, hpeer.drop_block hreplies fun hp => ?_⟩
    · show Holds (if _ then _ else _) _ s'
      by_cases hjoin : (d.parked && decide (d.nBest + 1 + 1 = nTip)) = true
      · rw [if_pos hjoin] at hholds ⊢
        rw [Bool.and_eq_true] at hjoin
        rw [hjoin.1, hjoin.2]
        exact hholds
      · rw [if_neg hjoin] at hholds ⊢
        rw [Bool.and_eq_true, not_and_or] at hjoin
        have hkept : (d.parked && !decide (d.nBest + 1 + 1 = nTip)) = d.parked := by
          rcases hjoin with hp | hother
          · rw [Bool.not_eq_true] at hp
            rw [hp, Bool.false_and]
          · rw [Bool.not_eq_true] at hother
            rw [hother, Bool.not_false, Bool.and_true]
        rw [hkept]
        exact hholds
    · rw [Bool.and_eq_true] at hp
      exact .inl hp.1
  | park hparked hfar hasked =>
    have hholds : Holds d.nBest false s.state := hparked ▸ h.holds
    obtain ⟨hrun, hcalls, hprev⟩ := hadopting.stores hheld hc.linked hfar hholds
    have hnext := hadopting.park d.nBest s.state hfar hholds
    have hdrop := @AskingPeer.drop_block c chain nTip d n pre _ hpeer nTip d.nBest true rest hreplies
      fun _ => .inr rfl
    obtain ⟨n', hask, hpeer'⟩ := @AskingPeer.ask c chain nTip
      { s.withState (s.state.addOrphan c.node.env (chain nTip)) with
        vNodes := [n.addInventoryKnown (blockItem c.node.env chain nTip)]
        times := s.times.erase (blockItem c.node.env chain nTip) } _ _ pre hdrop rfl
      (hheld _ _ _ hnext) hc hfar hasked
    have hstep : s.processMessage c 0 (.block (chain nTip)) =
        { s.withState (s.state.addOrphan c.node.env (chain nTip)) with
          vNodes := [n.addInventoryKnown (blockItem c.node.env chain nTip)]
          times := s.times.erase (blockItem c.node.env chain nTip) }.askFill c 0 (chain nTip) := by
      rw [NetNode.processMessage, NetNode.processBlock, hrun, hprev, hcalls, NetNode.onNode_single hn]
      dsimp only
      rw [if_pos rfl]
      exact NetNode.askFill_erase 0 (chain nTip) _ _
    rw [hstep, hask, Download.read_park hparked hfar]
    exact ⟨hnext, n', rfl, hpeer'⟩

theorem sendInventory_nothing (h : n.vInventoryToSend = []) (fSendTrickle : Bool)
    (fTrickleWait : CInv → Bool) : n.sendInventory fSendTrickle fTrickleWait = n := by
  rw [CNode.sendInventory, CNode.inventoryPass, h]
  show { n with
    vInventoryToSend := []
    vSend := n.vSend ++ [] } = n
  rw [List.append_nil, ← h]

theorem sends_getdata (bs : List (List Nat)) :
    List.Forall₂ (Request.Sends c.node.env chain nTip) (bs.map .getdata)
      ((bs.map (List.map (blockItem c.node.env chain))).map .getdata) := by
  induction bs with
  | nil => exact .nil
  | cons b bs ih => exact .cons (.getdata b) ih

theorem AskingPeer.sendGetdata {times : AskTimes} (h : AskingPeer c.node.env chain nTip pre n times d)
    (nNow : Int) (alreadyHave : CInv → Bool)
    (hmissing : ∀ k ∈ d.asks, alreadyHave (blockItem c.node.env chain k) = false) :
    ∃ k bs, bs.flatten = d.asks.take k ∧ Batch.Sized 1000 bs ∧
      AskingPeer c.node.env chain nTip pre (n.sendGetdata nNow alreadyHave) times (d.fetch k bs) := by
  obtain ⟨k, htake, hdrop⟩ : ∃ k, n.mapAskFor.takeWhile (NetNode.isDue nNow) = n.mapAskFor.take k ∧
      n.mapAskFor.dropWhile (NetNode.isDue nNow) = n.mapAskFor.drop k :=
    ⟨_, List.takeWhile_eq_take_findIdx_not .., List.dropWhile_eq_drop_findIdx_not ..⟩
  have hfilter : ((n.mapAskFor.take k).map Prod.snd).filter (fun inv => !alreadyHave inv) =
      (d.asks.take k).map (blockItem c.node.env chain) := by
    rw [List.map_take, h.asks, ← List.map_take, List.filter_eq_self]
    intro inv hinv
    obtain ⟨j, hj, rfl⟩ := List.mem_map.mp hinv
    rw [hmissing j (List.mem_of_mem_take hj)]
    rfl
  have hdue : dueAsks nNow alreadyHave n.mapAskFor ([], []) =
      (((d.asks.take k).map (blockItem c.node.env chain)).foldl (Batch.push 1000) ([], []),
        n.mapAskFor.drop k) := by
    rw [dueAsks_eq, htake, hdrop, hfilter]
  have hmessages : Batch.close (dueAsks nNow alreadyHave n.mapAskFor ([], [])).1 =
      (Batch.batches 1000 (d.asks.take k)).map (List.map (blockItem c.node.env chain)) := by
    rw [hdue, ← Batch.batches_map, Batch.batches]
  refine ⟨k, Batch.batches 1000 (d.asks.take k), Batch.batches_flatten _ _,
    Batch.batches_sized (by decide) _, h.offers, ?_, ?_, h.begins, h.known, ?_, ?_⟩
  · show (dueAsks nNow alreadyHave n.mapAskFor ([], [])).2.map Prod.snd =
      (d.asks.drop k).map (blockItem c.node.env chain)
    rw [hdue, List.map_drop, h.asks, List.map_drop]
  · intro entry hentry
    have hentry : entry ∈ (dueAsks nNow alreadyHave n.mapAskFor ([], [])).2 := hentry
    rw [hdue] at hentry
    exact h.inTime entry (List.mem_of_mem_drop hentry)
  · intro inv hinv
    obtain ⟨j, hj, rfl⟩ := h.fresh inv hinv
    refine ⟨j, ?_, rfl⟩
    have hsplit : j ∈ d.asks ↔ j ∈ d.asks.take k ∨ j ∈ d.asks.drop k := by
      rw [← List.mem_append, List.take_append_drop]
    simp only [Download.blocks, Download.wants, Download.fetch, List.flatMap_append,
      Download.flatMap_getdata, Batch.batches_flatten, List.mem_append] at hj ⊢
    tauto
  · obtain ⟨ms, hstream, hsends⟩ := h.stream
    refine ⟨ms ++ ((Batch.batches 1000 (d.asks.take k)).map
      (List.map (blockItem c.node.env chain))).map .getdata, ?_, ?_⟩
    · show n.vSend ++ (Batch.close (dueAsks nNow alreadyHave n.mapAskFor ([], [])).1).map
        NetMessage.getdata = _
      rw [hmessages, hstream, List.append_assoc]
    · exact List.rel_append hsends (sends_getdata _)

theorem AskingNode.send (h : AskingNode c.node.env chain nTip Holds pre s d)
    (hheld : ∀ a parked s, Holds a parked s → Held c.node.env chain nTip a parked s)
    (hphase : d.Phase nTip) (nTime : Int) (fSendTrickle : Bool) (fTrickleWait : CInv → Bool) :
    ∃ k bs, bs.flatten = d.asks.take k ∧ Batch.Sized 1000 bs ∧
      AskingNode c.node.env chain nTip Holds pre (s.sendMessages nTime fSendTrickle fTrickleWait 0)
        (d.fetch k bs) := by
  obtain ⟨n, hn, hpeer⟩ := h.peer
  rw [NetNode.sendMessages, NetNode.onNode_single hn, CNode.sendMessages,
    sendInventory_nothing hpeer.offers]
  split
  · refine ⟨0, [], rfl, fun b hb => absurd hb List.not_mem_nil, h.holds, n, rfl, ?_⟩
    have hsame : d.fetch 0 [] = d := by
      rw [Download.fetch, List.map_nil, List.append_nil, List.drop_zero]
    rw [hsame]
    exact hpeer
  · have hmissing : ∀ k ∈ d.asks, s.alreadyHave (blockItem c.node.env chain k) = false := by
      intro k hk
      obtain ⟨hle, hnew⟩ := hphase.asks_new hk
      exact ((hheld _ _ _ h.holds).alreadyHave hle).trans hnew
    obtain ⟨k, bs, hall, hsized, hpeer'⟩ := hpeer.sendGetdata (nTime * 1000000) s.alreadyHave hmissing
    exact ⟨k, bs, hall, hsized, h.holds, _, rfl, hpeer'⟩

end Client

end Namecoin
