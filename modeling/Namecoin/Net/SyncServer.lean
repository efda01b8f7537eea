import Namecoin.Net.SyncPeers

namespace Namecoin

open Act

-- The serving node: its chain, and its only connection.
structure ServingNode (env : Env) (chain : Nat → CBlock) (nTip : Nat) (pre : List NetMessage)
    (s : NetNode) (d : Download) : Prop where
  chained : Chained env s.state chain nTip
  peer : ∃ n, s.vNodes = [n] ∧ ServingPeer env chain nTip pre n d

section Server

variable {env : Env} {chain : Nat → CBlock} {nTip : Nat} {s : NetNode} {d : Download} {n : CNode}
  {pre : List NetMessage}

theorem ServingLine.serveBlock (h : ServingLine env chain pre n d) (hc : HashChain env chain nTip)
    (hresume : ∀ k, d.resume = some k → k ≤ nTip) {k : Nat} (hk : k ≤ nTip) :
    ServingLine env chain pre
      (NetNode.serveBlock ((chain nTip).getHash env) (chain k) ((chain k).getHash env) n)
      (d.serve nTip k) := by
  have hasked : (chain k).getHash env = n.hashContinue ↔ d.resume = some k := by
    rw [h.resume]
    cases hr : d.resume with
    | none =>
      refine ⟨fun heq => absurd heq (hc.nonzero k hk), fun heq => ?_⟩
      cases heq
    | some j =>
      rw [Option.map_some, Option.getD_some, Option.some.injEq]
      constructor
      · exact fun heq => (hc.injective k hk j (hresume j hr) heq).symm
      · rintro rfl
        rfl
  by_cases hlast : d.resume = some k
  · rw [NetNode.serveBlock, if_pos (hasked.mpr hlast), Download.serve, if_pos hlast]
    refine ⟨h.queue, h.noAsks, rfl, ?_⟩
    show n.vSend ++ [_] ++ [_] = pre ++ (d.replies ++ [_, _]).map _
    rw [h.stream, List.map_append, List.append_assoc, List.append_assoc]
    rfl
  · rw [NetNode.serveBlock, if_neg (fun heq => hlast (hasked.mp heq)), Download.serve, if_neg hlast]
    refine ⟨h.queue, h.noAsks, h.resume, ?_⟩
    show n.vSend ++ [_] = pre ++ (d.replies ++ [_]).map _
    rw [h.stream, List.map_append, List.append_assoc]
    rfl

theorem ServingLine.serveAll {hs : List Nat} (hn : s.vNodes = [n]) (h : ServingLine env chain pre n d)
    (hchained : Chained env s.state chain nTip) (hc : HashChain env chain nTip)
    (hresume : ∀ k, d.resume = some k → k ≤ nTip) (hle : ∀ k ∈ hs, k ≤ nTip) :
    ∃ n', (hs.map (blockItem env chain)).foldl (NetNode.serveInv 0) s = { s with vNodes := [n'] } ∧
      n'.setInventoryKnown = n.setInventoryKnown ∧
      ServingLine env chain pre n' (hs.foldl (Download.serve nTip) d) := by
  induction hs generalizing s n d with
  | nil =>
    refine ⟨n, ?_, rfl, h⟩
    rw [← hn]
    rfl
  | cons k hs ih =>
    obtain ⟨hk, hle⟩ := List.forall_mem_cons.mp hle
    obtain ⟨p, hfound, hread⟩ := hchained.stored k hk
    have hstep : NetNode.serveInv 0 s (blockItem env chain k) = { s with
        vNodes := [NetNode.serveBlock ((chain nTip).getHash env) (chain k)
          ((chain k).getHash env) n] } := by
      have htype : (blockItem env chain k).type = msgBlock := rfl
      have hitem : s.state.mapBlockIndex (blockItem env chain k).hash = some p := hfound
      rw [NetNode.serveInv, if_pos htype, hitem]
      dsimp only
      rw [NetNode.onNode_single hn, hread, hchained.best]
      rfl
    have hkept : (NetNode.serveBlock ((chain nTip).getHash env) (chain k)
        ((chain k).getHash env) n).setInventoryKnown = n.setInventoryKnown := by
      rw [NetNode.serveBlock]
      split <;> rfl
    have hresume' : ∀ j, (d.serve nTip k).resume = some j → j ≤ nTip := by
      intro j hj
      rw [Download.serve] at hj
      split at hj
      · cases hj
      · exact hresume j hj
    obtain ⟨n', hrun, hknown, hline⟩ := @ih
      { s with vNodes := [NetNode.serveBlock ((chain nTip).getHash env) (chain k)
          ((chain k).getHash env) n] } _ _ rfl (h.serveBlock hc hresume hk) hchained hresume' hle
    refine ⟨n', ?_, hknown.trans hkept, hline⟩
    rw [List.map_cons, List.foldl_cons, hstep, hrun]

theorem ServingNode.getdata (h : ServingNode env chain nTip pre s d) (c : NetEnv)
    (hc : HashChain env chain nTip) (hphase : d.Phase nTip) {hs : List Nat}
    {rest : List Request} (hrequests : d.requests = .getdata hs :: rest) (hshort : hs.length ≤ 50000) :
    ServingNode env chain nTip pre (s.processMessage c 0 (.getdata (hs.map (blockItem env chain))))
      (hs.foldl (Download.serve nTip) { d with requests := rest }) := by
  obtain ⟨n, hn, hpeer⟩ := h.peer
  have hle : ∀ k ∈ hs, k ≤ nTip := by
    intro k hk
    refine hphase.way_le ?_
    rw [Download.way, Download.wants, hrequests, List.flatMap_cons]
    simp only [Request.wants, List.mem_append]
    tauto
  have hline : ServingLine env chain pre n { d with requests := rest } :=
    ⟨hpeer.queue, hpeer.noAsks, hpeer.resume, hpeer.stream⟩
  obtain ⟨n', hrun, hknown, hline'⟩ := hline.serveAll hn h.chained hc
    (fun k hk => hphase.resume_le hk) hle
  rw [NetNode.processMessage, NetNode.processGetdata, if_neg (by rw [List.length_map]; omega), hrun]
  refine ⟨h.chained, n', rfl, hline', fun k hk hmem => ?_⟩
  rw [hknown] at hmem
  exact (hpeer.known k hk hmem).serve hrequests

theorem ServingNode.getblocks (h : ServingNode env chain nTip pre s d) (c : NetEnv)
    (hc : HashChain env chain nTip) (hphase : d.Phase nTip) {nFrom : Nat} {stopAtTip : Bool}
    {rest : List Request} (hrequests : d.requests = .getblocks nFrom stopAtTip :: rest)
    (vHave : List Uint256) :
    ∃ n resume, Download.Offered nTip nFrom stopAtTip n resume ∧
      ServingNode env chain nTip pre
        (s.processMessage c 0 (.getblocks ((chain nFrom).getHash env :: vHave)
          (if stopAtTip then (chain nTip).getHash env else 0)))
        (Download.offer nFrom n resume { d with requests := rest }) := by
  obtain ⟨n, hn, hpeer⟩ := h.peer
  obtain ⟨k, resume, hoffered, hreply⟩ := h.chained.getblocks_eq hc.nonzero (hphase.asked_le hrequests)
    vHave stopAtTip c.nSendBufferSize
  have hnext := hphase.step (.getblocks d nFrom k stopAtTip resume rest hrequests hoffered)
  have hqueue := hnext.queueOk
  have hsettled : ∀ j ≤ nTip, blockItem env chain j ∈ n.setInventoryKnown →
      Download.Settled nTip (Download.offer nFrom k resume { d with requests := rest }) j :=
    fun j hj hmem => (hpeer.known j hj hmem).offer hrequests
  have hnew : ∀ hash ∈ (List.range' (nFrom + 1) k).map fun h => (chain h).getHash env,
      CInv.block hash ∉ n.setInventoryKnown := by
    intro hash hhash hmem
    obtain ⟨j, hj, rfl⟩ := List.mem_map.mp hhash
    obtain ⟨hle, hnot⟩ := hqueue.new j (List.mem_append_right _ hj)
    exact hnot (hsettled j hle hmem)
  refine ⟨k, resume, hoffered, ?_⟩
  rw [NetNode.processMessage, NetNode.processGetblocks, hreply]
  dsimp only
  rw [NetNode.onNode_single hn, NetNode.announce]
  dsimp only
  have hall : ∀ inv ∈ ((List.range' (nFrom + 1) k).map fun h => (chain h).getHash env).map CInv.block,
      decide (inv ∉ n.setInventoryKnown) = true := by
    intro inv hinv
    obtain ⟨hash, hhash, rfl⟩ := List.mem_map.mp hinv
    exact decide_eq_true (hnew hash hhash)
  rw [NetNode.foldl_pushInventory, List.filter_eq_self.mpr hall, List.map_map]
  refine ⟨h.chained, _, rfl, ⟨?_, hpeer.noAsks, ?_, hpeer.stream⟩, hsettled⟩
  · show n.vInventoryToSend ++ _ = (d.queue ++ List.range' (nFrom + 1) k).map (blockItem env chain)
    rw [hpeer.queue, List.map_append]
    rfl
  · show (resume.map fun h => (chain h).getHash env).getD n.hashContinue =
      ((resume.or d.resume).map fun h => (chain h).getHash env).getD 0
    rw [hpeer.resume]
    cases resume <;> rfl

theorem ServingNode.send (h : ServingNode env chain nTip pre s d) (hc : HashChain env chain nTip)
    (hphase : d.Phase nTip) (nTime : Int) (fSendTrickle : Bool) (fTrickleWait : CInv → Bool) :
    ServingNode env chain nTip pre (s.sendMessages nTime fSendTrickle fTrickleWait 0) d ∨
      ∃ bs, bs.flatten = d.queue ∧ Batch.Sized 1000 bs ∧
        ServingNode env chain nTip pre (s.sendMessages nTime fSendTrickle fTrickleWait 0) (d.flush bs) := by
  obtain ⟨n, hn, hpeer⟩ := h.peer
  rw [NetNode.sendMessages, NetNode.onNode_single hn, CNode.sendMessages]
  split
  · exact .inl ⟨h.chained, n, rfl, hpeer⟩
  · have hqueue := hphase.queueOk
    have hnodup : (d.queue.map (blockItem env chain)).Nodup := by
      refine (List.nodup_map_iff_inj_on hqueue.nodup).mpr fun j hj k hk heq => ?_
      exact hc.injective j (hqueue.new j hj).1 k (hqueue.new k hk).1 (congrArg CInv.hash heq)
    have hgoes : ∀ inv ∈ d.queue.map (blockItem env chain), inv ∉ n.setInventoryKnown ∧
        InvEvent.waits fSendTrickle fTrickleWait inv = false := by
      intro inv hinv
      obtain ⟨j, hj, rfl⟩ := List.mem_map.mp hinv
      obtain ⟨hle, hnot⟩ := hqueue.new j hj
      refine ⟨fun hmem => hnot (hpeer.known j hle hmem), decide_eq_false ?_⟩
      rintro ⟨htype, -⟩
      have hblock : msgBlock = msgTx := htype
      exact absurd hblock (by decide)
    have hpass : n.inventoryPass fSendTrickle fTrickleWait =
        ⟨n.setInventoryKnown ∪ (d.queue.map (blockItem env chain)).toFinset, [],
          (d.queue.map (blockItem env chain)).foldl (Batch.push 1000) ([], [])⟩ := by
      rw [CNode.inventoryPass, visits_eq, hpeer.queue, Outbox.pick_unheard hnodup hgoes]
      rfl
    have hmessages : Batch.close (n.inventoryPass fSendTrickle fTrickleWait).vInv =
        (Batch.batches 1000 d.queue).map (List.map (blockItem env chain)) := by
      rw [hpass, ← Batch.batches_map, Batch.batches]
    refine .inr ⟨Batch.batches 1000 d.queue, Batch.batches_flatten _ _,
      Batch.batches_sized (by decide) _, h.chained, _, rfl, ⟨?_, ?_, hpeer.resume, ?_⟩,
      fun k hk hmem => ?_⟩
    · show (n.inventoryPass fSendTrickle fTrickleWait).vInvWait = [].map _
      rw [hpass]
      rfl
    · show (dueAsks (nTime * 1000000) s.alreadyHave n.mapAskFor ([], [])).2 = []
      rw [hpeer.noAsks]
      rfl
    · show n.vSend ++ (Batch.close (n.inventoryPass fSendTrickle fTrickleWait).vInv).map
          NetMessage.inv ++ (Batch.close (dueAsks (nTime * 1000000) s.alreadyHave n.mapAskFor
            ([], [])).1).map NetMessage.getdata = _
      rw [hpeer.noAsks, hmessages, hpeer.stream]
      show _ ++ [] = pre ++ (d.replies ++ (Batch.batches 1000 d.queue).map Reply.inv).map _
      rw [List.append_nil, List.map_append, List.append_assoc, List.map_map, List.map_map]
      rfl
    · have hmem : blockItem env chain k ∈ (n.inventoryPass fSendTrickle fTrickleWait).setInventoryKnown :=
        hmem
      rw [hpass] at hmem
      refine Download.Settled.flush (Batch.batches_flatten _ _) ?_
      rcases Finset.mem_union.mp hmem with hold | hsent
      · exact .inl (hpeer.known k hk hold)
      · obtain ⟨j, hj, heq⟩ := List.mem_map.mp (List.mem_toFinset.mp hsent)
        have hsame := hc.injective j (hqueue.new j hj).1 k hk (congrArg CInv.hash heq)
        exact .inr (hsame ▸ hj)

end Server

end Namecoin
