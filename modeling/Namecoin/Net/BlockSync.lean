import Namecoin.Net.AlertFlood
import Namecoin.Net.SyncClient
import Namecoin.Net.SyncServer

namespace Namecoin

open Act Download

namespace PeerNet

-- Node false serves its chain to node true over their one connection.
structure Coupled (env : Env) (chain : Nat → CBlock) (nTip : Nat)
    (Holds : Nat → Bool → NodeState → Prop) (net : PeerNet Bool) (d : Download) : Prop where
  server : ∃ pre, pre.length = net.nRead false 0 ∧ ServingNode env chain nTip pre (net.node false) d
  client : ∃ pre, pre.length = net.nRead true 0 ∧
    AskingNode env chain nTip Holds pre (net.node true) d
  short : Short d
  phase : Phase nTip d

-- What an event may assume: the clock is past the first two minutes, and the node takes the chain.
structure SyncLive (env : Env) (chain : Nat → CBlock) (nTip : Nat)
    (Holds : Nat → Bool → NodeState → Prop) (ev : NetEvent Bool) : Prop where
  env_eq : ev.netEnv.node.env = env
  time : 121 ≤ ev.netEnv.nTime
  adopting : Adopting ev.netEnv.node chain nTip Holds
  inside : ∀ c v i m, ev ≠ .receive c v i m

section Streams

variable {env : Env} {chain : Nat → CBlock} {nTip : Nat} {Holds : Nat → Bool → NodeState → Prop}
  {net : PeerNet Bool} {d : Download} {pre : List NetMessage} {n : CNode}

theorem streamAt_single {s : NetNode} (h : s.vNodes = [n]) : s.streamAt 0 = n.vSend := by
  rw [NetNode.streamAt, h]
  rfl

theorem unread_server (hpre : pre.length = net.nRead false 0)
    (h : ServingNode env chain nTip pre (net.node false) d) :
    net.unread false 0 = d.replies.map (Reply.msg env chain) := by
  obtain ⟨n, hn, hpeer⟩ := h.peer
  rw [unread, streamAt_single hn, hpeer.stream, ← hpre, List.drop_left]

theorem unread_client (hpre : pre.length = net.nRead true 0)
    (h : AskingNode env chain nTip Holds pre (net.node true) d) :
    List.Forall₂ (Request.Sends env chain nTip) d.requests (net.unread true 0) := by
  obtain ⟨n, hn, hpeer⟩ := h.peer
  obtain ⟨ms, hstream, hsends⟩ := hpeer.stream
  rw [unread, streamAt_single hn, hstream, ← hpre, List.drop_left]
  exact hsends

theorem ServingNode.readOn {r : Reply} {rest : List Reply}
    (h : ServingNode env chain nTip pre (net.node false) d) (hcase : ReadCase nTip d r)
    (hreplies : d.replies = r :: rest) :
    ServingNode env chain nTip (pre ++ [r.msg env chain]) (net.node false)
      (read nTip r { d with replies := rest }) := by
  obtain ⟨n, hn, hpeer⟩ := h.peer
  have hread := @read_readOnly nTip r { d with replies := rest }
  refine ⟨h.chained, n, hn, ⟨?_, hpeer.noAsks, ?_, ?_⟩, fun k hk hmem => ?_⟩
  · rw [hread.queue]
    exact hpeer.queue
  · rw [hread.resume]
    exact hpeer.resume
  · rw [hread.replies, hpeer.stream, hreplies, List.map_cons, List.append_assoc]
    rfl
  · exact (hpeer.known k hk hmem).read hcase hreplies

theorem ServingNode.fetchOn {k : Nat} {bs : List (List Nat)}
    (h : ServingNode env chain nTip pre (net.node false) d) (hall : bs.flatten = d.asks.take k) :
    ServingNode env chain nTip pre (net.node false) (d.fetch k bs) := by
  obtain ⟨n, hn, hpeer⟩ := h.peer
  exact ⟨h.chained, n, hn, ⟨hpeer.queue, hpeer.noAsks, hpeer.resume, hpeer.stream⟩,
    fun j hj hmem => (hpeer.known j hj hmem).fetch hall⟩

theorem AskingNode.flushOn {bs : List (List Nat)}
    (h : AskingNode env chain nTip Holds pre (net.node true) d) :
    AskingNode env chain nTip Holds pre (net.node true) (d.flush bs) := by
  obtain ⟨n, hn, hpeer⟩ := h.peer
  have hblocks : (d.flush bs).blocks = d.blocks := by
    rw [blocks, flush, List.flatMap_append, (flatMap_inv bs).1, List.append_nil]
    rfl
  refine ⟨h.holds, n, hn, hpeer.offers, hpeer.asks, hpeer.inTime, hpeer.begins, hpeer.known, ?_,
    hpeer.stream⟩
  rw [hblocks]
  exact hpeer.fresh

theorem AskingNode.serveOn {hs : List Nat} {rest : List Request} {m : NetMessage}
    {ms : List NetMessage} (h : AskingNode env chain nTip Holds pre (net.node true) d)
    (hpre : pre.length = net.nRead true 0) (hrequests : d.requests = .getdata hs :: rest)
    (hunread : net.unread true 0 = m :: ms) :
    AskingNode env chain nTip Holds (pre ++ [m]) (net.node true)
      (hs.foldl (serve nTip) { d with requests := rest }) := by
  obtain ⟨n, hn, hpeer⟩ := h.peer
  have hsends := unread_client hpre h
  have hserved := @foldl_served nTip hs { d with requests := rest }
  obtain ⟨ms', hstream, -⟩ := hpeer.stream
  have hms : ms' = m :: ms := by
    rw [unread, streamAt_single hn, hstream, ← hpre, List.drop_left] at hunread
    exact hunread
  rw [hrequests, hunread] at hsends
  obtain ⟨-, hrest⟩ := List.forall₂_cons.mp hsends
  refine ⟨?_, n, hn, hpeer.offers, ?_, hpeer.inTime, ?_, ?_, fun inv hinv => ?_, ms, ?_, ?_⟩
  · rw [hserved.best, hserved.parked]
    exact h.holds
  · rw [hserved.asks]
    exact hpeer.asks
  · rw [hserved.asked]
    exact hpeer.begins
  · rw [hserved.parked]
    exact hpeer.known
  · obtain ⟨k, hk, rfl⟩ := hpeer.fresh inv hinv
    refine ⟨k, ?_, rfl⟩
    rw [wants, hrequests, List.flatMap_cons] at hk
    rw [hserved.blocks, wants, hserved.requests, hserved.asks]
    simp only [blocks, List.mem_append, Request.wants] at hk ⊢
    tauto
  · rw [hstream, hms, List.append_assoc]
    rfl
  · rw [hserved.requests]
    exact hrest

theorem AskingNode.offerOn {nFrom k : Nat} {resume : Option Nat} {nAt : Nat} {stopAtTip : Bool}
    {rest : List Request} {m : NetMessage} {ms : List NetMessage}
    (h : AskingNode env chain nTip Holds pre (net.node true) d)
    (hpre : pre.length = net.nRead true 0) (hrequests : d.requests = .getblocks nAt stopAtTip :: rest)
    (hunread : net.unread true 0 = m :: ms) :
    AskingNode env chain nTip Holds (pre ++ [m]) (net.node true)
      (offer nFrom k resume { d with requests := rest }) := by
  obtain ⟨n, hn, hpeer⟩ := h.peer
  have hsends := unread_client hpre h
  obtain ⟨ms', hstream, -⟩ := hpeer.stream
  have hms : ms' = m :: ms := by
    rw [unread, streamAt_single hn, hstream, ← hpre, List.drop_left] at hunread
    exact hunread
  rw [hrequests, hunread] at hsends
  obtain ⟨-, hrest⟩ := List.forall₂_cons.mp hsends
  refine ⟨h.holds, n, hn, hpeer.offers, hpeer.asks, hpeer.inTime, hpeer.begins, hpeer.known,
    fun inv hinv => ?_, ms, ?_, hrest⟩
  · obtain ⟨j, hj, rfl⟩ := hpeer.fresh inv hinv
    rw [wants, hrequests, List.flatMap_cons] at hj
    exact ⟨j, hj, rfl⟩
  · rw [hstream, hms, List.append_assoc]
    rfl

end Streams

section Step

variable {env : Env} {chain : Nat → CBlock} {nTip : Nat} {Holds : Nat → Bool → NodeState → Prop}
  {net : PeerNet Bool} {d : Download} {c : NetEnv}

theorem sized_short {bs : List (List Nat)} (h : Batch.Sized 1000 bs) : ∀ b ∈ bs, b.length ≤ 50000 :=
  fun b hb => (h b hb).2.trans (by decide)

theorem Coupled.deliver_reply (h : Coupled c.node.env chain nTip Holds net d)
    (hheld : ∀ a parked s, Holds a parked s → Held c.node.env chain nTip a parked s)
    (hc : HashChain c.node.env chain nTip) (htime : 121 ≤ c.nTime)
    (hadopting : Adopting c.node chain nTip Holds) :
    ∃ d', Coupled c.node.env chain nTip Holds (net.deliver c true 0 (false, 0)) d' ∧
      d.nBest ≤ d'.nBest := by
  obtain ⟨pre, hpre, hserver⟩ := h.server
  obtain ⟨pre', hpre', hclient⟩ := h.client
  have hunread := unread_server hpre hserver
  cases hreplies : d.replies with
  | nil =>
    rw [hreplies, List.map_nil] at hunread
    refine ⟨d, ?_, le_rfl⟩
    rw [deliver, hunread]
    exact h
  | cons r rest =>
    have hcase := h.phase.read_cases hreplies
    have hnext : Coupled c.node.env chain nTip Holds
        ((net.handle c true 0 (r.msg c.node.env chain)).countRead false 0)
        (read nTip r { d with replies := rest }) := by
      refine ⟨⟨pre ++ [r.msg c.node.env chain], ?_, ServingNode.readOn hserver hcase hreplies⟩,
        ⟨pre', hpre', ?_⟩, h.short.read hreplies, h.phase.step (.read d r rest hreplies)⟩
      · rw [List.length_append, hpre]
        rfl
      · cases r with
        | block k => exact hclient.read_block hheld hadopting hc h.phase hreplies
        | inv hs =>
          exact hclient.read_inv hheld hc htime h.phase hreplies
            (h.short.invs hs (hreplies ▸ List.mem_cons_self))
    refine ⟨_, ?_, read_best_le hcase rest⟩
    rw [hreplies, List.map_cons] at hunread
    rw [deliver, hunread]
    exact hnext

theorem Coupled.deliver_request (h : Coupled c.node.env chain nTip Holds net d)
    (hc : HashChain c.node.env chain nTip) :
    ∃ d', Coupled c.node.env chain nTip Holds (net.deliver c false 0 (true, 0)) d' ∧
      d.nBest ≤ d'.nBest := by
  obtain ⟨pre, hpre, hserver⟩ := h.server
  obtain ⟨pre', hpre', hclient⟩ := h.client
  have hsends := unread_client hpre' hclient
  cases hrequests : d.requests with
  | nil =>
    rw [hrequests, List.forall₂_nil_left_iff] at hsends
    refine ⟨d, ?_, le_rfl⟩
    rw [deliver, hsends]
    exact h
  | cons r rest =>
    rw [hrequests] at hsends
    obtain ⟨m, ms, hsend, -, hunread⟩ := List.forall₂_cons_left_iff.mp hsends
    have hread : (pre' ++ [m]).length = pre'.length + 1 := List.length_append
    cases hsend with
    | getdata hs =>
      have hshort := h.short.getdatas hs (hrequests ▸ List.mem_cons_self)
      have hclient' := AskingNode.serveOn hclient hpre' hrequests hunread
      refine ⟨hs.foldl (serve nTip) { d with requests := rest }, ?_, ?_⟩
      · rw [deliver, hunread]
        refine ⟨⟨pre, hpre, hserver.getdata c hc h.phase hrequests hshort⟩,
          ⟨pre' ++ [_], ?_, hclient'⟩,
          h.short.serve hrequests, h.phase.step (.getdata d hs rest hrequests)⟩
        rw [hread, hpre']
        rfl
      · exact Nat.le_of_eq (@foldl_served nTip hs { d with requests := rest }).best.symm
    | getblocks nFrom stopAtTip vHave =>
      obtain ⟨k, resume, hoffered, hserver'⟩ := hserver.getblocks c hc h.phase
        hrequests vHave
      have hclient' := @AskingNode.offerOn _ _ _ _ _ _ _ nFrom k resume _ _ _ _ _ hclient hpre' hrequests
        hunread
      refine ⟨offer nFrom k resume { d with requests := rest }, ?_, le_rfl⟩
      rw [deliver, hunread]
      refine ⟨⟨pre, hpre, hserver'⟩,
        ⟨pre' ++ [_], ?_, hclient'⟩,
        ⟨h.short.invs, fun hs hmem => h.short.getdatas hs (hrequests ▸ List.mem_cons_of_mem _ hmem)⟩,
        h.phase.step (.getblocks d nFrom k stopAtTip resume rest hrequests hoffered)⟩
      rw [hread, hpre']
      rfl

theorem Coupled.send_requests (h : Coupled c.node.env chain nTip Holds net d)
    (hheld : ∀ a parked s, Holds a parked s → Held c.node.env chain nTip a parked s)
    (nTime : Int) (fSendTrickle : Bool) (fTrickleWait : CInv → Bool) :
    ∃ d', Coupled c.node.env chain nTip Holds { net with
      node := Function.update net.node true
        ((net.node true).sendMessages nTime fSendTrickle fTrickleWait 0) } d' ∧ d.nBest ≤ d'.nBest := by
  obtain ⟨pre, hpre, hserver⟩ := h.server
  obtain ⟨pre', hpre', hclient⟩ := h.client
  obtain ⟨k, bs, hall, hsized, hclient'⟩ := hclient.send hheld h.phase nTime fSendTrickle fTrickleWait
  refine ⟨d.fetch k bs, ⟨⟨pre, hpre, ServingNode.fetchOn hserver hall⟩, ⟨pre', hpre', hclient'⟩,
    h.short.fetch (sized_short hsized), h.phase.step (.fetch d k bs hall fun b hb => (hsized b hb).1)⟩,
    le_rfl⟩

theorem Coupled.send_replies (h : Coupled c.node.env chain nTip Holds net d)
    (hc : HashChain c.node.env chain nTip) (nTime : Int) (fSendTrickle : Bool)
    (fTrickleWait : CInv → Bool) :
    ∃ d', Coupled c.node.env chain nTip Holds { net with
      node := Function.update net.node false
        ((net.node false).sendMessages nTime fSendTrickle fTrickleWait 0) } d' ∧ d.nBest ≤ d'.nBest := by
  obtain ⟨pre, hpre, hserver⟩ := h.server
  obtain ⟨pre', hpre', hclient⟩ := h.client
  rcases hserver.send hc h.phase nTime fSendTrickle fTrickleWait with hsame | ⟨bs, hall, hsized, hsent⟩
  · exact ⟨d, ⟨⟨pre, hpre, hsame⟩, ⟨pre', hpre', hclient⟩, h.short, h.phase⟩, le_rfl⟩
  · exact ⟨d.flush bs, ⟨⟨pre, hpre, hsent⟩, ⟨pre', hpre', AskingNode.flushOn hclient⟩,
      h.short.flush (sized_short hsized), h.phase.step (.flush d bs hall fun b hb => (hsized b hb).1)⟩,
      le_rfl⟩

theorem Coupled.onNode_far (h : Coupled env chain nTip Holds net d) (v : Bool) (i : Nat)
    (f : CNode → CNode) : (net.node v).onNode (i + 1) f = net.node v := by
  have hsingle : ∃ n, (net.node v).vNodes = [n] := by
    cases v with
    | false =>
      obtain ⟨pre, -, hserver⟩ := h.server
      obtain ⟨n, hn, -⟩ := hserver.peer
      exact ⟨n, hn⟩
    | true =>
      obtain ⟨pre, -, hclient⟩ := h.client
      obtain ⟨n, hn, -⟩ := hclient.peer
      exact ⟨n, hn⟩
  obtain ⟨n, hn⟩ := hsingle
  rw [NetNode.onNode, hn, List.modify_succ_cons, List.modify_nil, ← hn]

theorem Coupled.step (h : Coupled env chain nTip Holds net d)
    (hheld : ∀ a parked s, Holds a parked s → Held env chain nTip a parked s)
    (hc : HashChain env chain nTip) {ev : NetEvent Bool} (hev : SyncLive env chain nTip Holds ev) :
    ∃ d', Coupled env chain nTip Holds (PeerNet.step pairLinks ev net) d' ∧ d.nBest ≤ d'.nBest := by
  obtain ⟨henv, htime, hadopting, hinside⟩ := hev
  cases ev with
  | deliver c v i =>
    obtain rfl := henv
    cases i with
    | succ i => exact ⟨d, h, le_rfl⟩
    | zero =>
      cases v with
      | true => exact h.deliver_reply hheld hc htime hadopting
      | false => exact h.deliver_request hc
  | receive c v i m => exact absurd rfl (hinside c v i m)
  | sendMessages c v i fSendTrickle fTrickleWait =>
    obtain rfl := henv
    cases i with
    | succ i =>
      refine ⟨d, ?_, le_rfl⟩
      rw [PeerNet.step, NetNode.sendMessages, h.onNode_far, Function.update_eq_self]
      exact h
    | zero =>
      cases v with
      | true => exact h.send_requests hheld c.nTime fSendTrickle fTrickleWait
      | false => exact h.send_replies hc c.nTime fSendTrickle fTrickleWait

theorem Coupled.run (h : Coupled env chain nTip Holds net d)
    (hheld : ∀ a parked s, Holds a parked s → Held env chain nTip a parked s)
    (hc : HashChain env chain nTip) {evs : List (NetEvent Bool)}
    (hlive : ∀ ev ∈ evs, SyncLive env chain nTip Holds ev) :
    ∃ d', Coupled env chain nTip Holds (PeerNet.run pairLinks evs net) d' ∧ d.nBest ≤ d'.nBest := by
  induction evs generalizing net d with
  | nil => exact ⟨d, h, le_rfl⟩
  | cons ev evs ih =>
    obtain ⟨hev, hlive⟩ := List.forall_mem_cons.mp hlive
    obtain ⟨d1, hfirst, hle⟩ := h.step hheld hc hev
    obtain ⟨d2, hrest, hle'⟩ := ih hfirst hlive
    exact ⟨d2, hrest, hle.trans hle'⟩

end Step

-- A connection on which nothing has been said yet.
structure Fresh (n : CNode) (nRead : Nat) : Prop where
  offers : n.vInventoryToSend = []
  asks : n.mapAskFor = []
  known : n.setInventoryKnown = ∅
  resume : n.hashContinue = 0
  begins : n.pindexLastGetBlocksBegin = none
  read : n.vSend.length = nRead

structure Connected (Holds : Nat → Bool → NodeState → Prop) (a : Nat) (net : PeerNet Bool) : Prop where
  server : ∃ n, (net.node false).vNodes = [n] ∧ Fresh n (net.nRead false 0)
  client : ∃ n, (net.node true).vNodes = [n] ∧ Fresh n (net.nRead true 0)
  unasked : ∀ inv, (net.node true).times.mapAlreadyAskedFor inv = 0
  holds : Holds a false (net.node true).state

-- The version message makes the joining node ask for the blocks after its best one.
def join (c : NetEnv) (net : PeerNet Bool) : PeerNet Bool :=
  { net with
    node := Function.update net.node true
      ((net.node true).pushGetBlocks c 0 (net.node true).state.pindexBest 0) }

structure Silent (net : PeerNet Bool) : Prop where
  replies : net.unread false 0 = []
  requests : net.unread true 0 = []
  offers : ∀ n ∈ (net.node false).vNodes, n.vInventoryToSend = []
  asks : ∀ n ∈ (net.node true).vNodes, n.mapAskFor = []

section Download

variable {env : Env} {chain : Nat → CBlock} {nTip a : Nat} {Holds : Nat → Bool → NodeState → Prop}
  {net : PeerNet Bool} {d : Download} {c : NetEnv}

theorem Connected.coupled (h : Connected Holds a net) (ha : a ≤ nTip)
    (hheld : ∀ a parked s, Holds a parked s → Held c.node.env chain nTip a parked s)
    (hc : HashChain c.node.env chain nTip)
    (hchained : Chained c.node.env (net.node false).state chain nTip) :
    Coupled c.node.env chain nTip Holds (net.join c)
      ⟨a, false, a, [], [.getblocks a false], [], [], none⟩ := by
  obtain ⟨n, hn, hfresh⟩ := h.server
  obtain ⟨n', hn', hfresh'⟩ := h.client
  have hstate := hheld _ _ _ h.holds
  obtain ⟨vHave, hlocator⟩ := @CBlockLocator.set_head c chain nTip (net.node true)
    ⟨a, false, a, [], [], [], [], none⟩ hstate ha hc.short
  refine ⟨⟨n.vSend, hfresh.read, hchained, n, hn, ⟨?_, hfresh.asks, hfresh.resume, ?_⟩, ?_⟩,
    ⟨n'.vSend, hfresh'.read, h.holds, ?_⟩, ⟨?_, ?_⟩, .asking ⟨rfl, ⟨rfl, rfl, rfl, rfl⟩, ha, rfl, ?_⟩⟩
  · exact hfresh.offers
  · exact (List.append_nil _).symm
  · intro k hk hmem
    rw [hfresh.known] at hmem
    exact absurd hmem (Finset.notMem_empty _)
  · have hother : ¬((net.node true).state.pindexBest = n'.pindexLastGetBlocksBegin ∧
        (0 : Uint256) = n'.hashLastGetBlocksEnd) := by
      rw [hfresh'.begins, hstate.best]
      rintro ⟨hbegin, -⟩
      cases hbegin
    refine ⟨n'.pushGetBlocks (.ok ((chain a).getHash c.node.env :: vHave))
      (net.node true).state.pindexBest 0, ?_, ?_⟩
    · show ((net.node true).pushGetBlocks c 0 (net.node true).state.pindexBest 0).vNodes = _
      rw [NetNode.pushGetBlocks, NetNode.onNode_single hn', hlocator]
    · rw [CNode.pushGetBlocks, if_neg hother]
      refine ⟨hfresh'.offers, ?_, ?_, hstate.best, ?_, fun inv hinv => ?_,
        [.getblocks ((chain a).getHash c.node.env :: vHave) 0], rfl, ?_⟩
      · show n'.mapAskFor.map Prod.snd = []
        rw [hfresh'.asks, List.map_nil]
      · intro entry hentry
        have hentry : entry ∈ n'.mapAskFor := hentry
        rw [hfresh'.asks] at hentry
        exact absurd hentry List.not_mem_nil
      · exact fun hp => absurd hp Bool.false_ne_true
      · exact absurd (h.unasked inv) hinv
      · exact .cons (.getblocks a false vHave) .nil
  · exact fun hs hmem => absurd hmem List.not_mem_nil
  · intro hs hmem
    cases List.mem_singleton.mp hmem
  · exact fun hp => absurd hp Bool.false_ne_true

theorem Coupled.caught_up (h : Coupled env chain nTip Holds net d) (hsilent : Silent net) :
    d.nBest = nTip := by
  obtain ⟨pre, hpre, hserver⟩ := h.server
  obtain ⟨pre', hpre', hclient⟩ := h.client
  refine h.phase.caught_up ⟨?_, ?_, ?_, ?_⟩
  · have hunread := unread_server hpre hserver
    rw [hsilent.replies] at hunread
    exact List.map_eq_nil_iff.mp hunread.symm
  · have hsends := unread_client hpre' hclient
    rw [hsilent.requests, List.forall₂_nil_right_iff] at hsends
    exact hsends
  · obtain ⟨n, hn, hpeer⟩ := hclient.peer
    have hasks := hpeer.asks
    rw [hsilent.asks n (hn ▸ List.mem_cons_self), List.map_nil] at hasks
    exact List.map_eq_nil_iff.mp hasks.symm
  · obtain ⟨n, hn, hpeer⟩ := hserver.peer
    have hqueue := hpeer.queue
    rw [hsilent.offers n (hn ▸ List.mem_cons_self)] at hqueue
    exact List.map_eq_nil_iff.mp hqueue.symm

theorem run_take_succ (evs : List (NetEvent Bool)) (k : Nat) (net : PeerNet Bool) :
    run pairLinks (evs.take (k + 1)) net = run pairLinks (evs.take k) net ∨
      ∃ ev ∈ evs, run pairLinks (evs.take (k + 1)) net =
        PeerNet.step pairLinks ev (run pairLinks (evs.take k) net) := by
  rcases Nat.lt_or_ge k evs.length with hlt | hge
  · refine .inr ⟨evs[k], List.getElem_mem hlt, ?_⟩
    rw [List.take_succ_eq_append_getElem hlt, run, List.foldl_append]
    rfl
  · exact .inl (by rw [List.take_of_length_le hge, List.take_of_length_le (Nat.le_succ_of_le hge)])

-- What the joining node holds after k events; it has the whole chain when nothing is under way.
structure Downloaded (chain : Nat → CBlock) (nTip a : Nat) (Holds : Nat → Bool → NodeState → Prop)
    (env : Env) (evs : List (NetEvent Bool)) (net : PeerNet Bool) (nBest : Nat → Nat) : Prop where
  start : a ≤ nBest 0
  grows : Monotone nBest
  bound : ∀ k, nBest k ≤ nTip
  holds : ∀ k, ∃ parked, Holds (nBest k) parked ((run pairLinks (evs.take k) net).node true).state
  best : ∀ k, ((run pairLinks (evs.take k) net).node true).state.pindexBest =
    some ((chain (nBest k)).getHash env)
  complete : ∀ k, Silent (run pairLinks (evs.take k) net) → nBest k = nTip

theorem Coupled.downloaded (h : Coupled env chain nTip Holds net d)
    (hheld : ∀ a parked s, Holds a parked s → Held env chain nTip a parked s)
    (hc : HashChain env chain nTip) {evs : List (NetEvent Bool)}
    (hlive : ∀ ev ∈ evs, SyncLive env chain nTip Holds ev) :
    ∃ nBest, Downloaded chain nTip d.nBest Holds env evs net nBest := by
  have hall : ∀ k, ∃ d', Coupled env chain nTip Holds (PeerNet.run pairLinks (evs.take k) net) d' ∧
      d.nBest ≤ d'.nBest := fun k =>
    h.run hheld hc fun ev hev => hlive ev (List.mem_of_mem_take hev)
  choose ds hds hle using hall
  have hbest : ∀ k, ((PeerNet.run pairLinks (evs.take k) net).node true).state.pindexBest =
      some ((chain (ds k).nBest).getHash env) := by
    intro k
    obtain ⟨pre, -, hclient⟩ := (hds k).client
    exact (hheld _ _ _ hclient.holds).best
  have hsame : ∀ k d', Coupled env chain nTip Holds (PeerNet.run pairLinks (evs.take k) net) d' →
      d'.nBest = (ds k).nBest := by
    intro k d' hd'
    obtain ⟨pre, -, hclient⟩ := hd'.client
    have heq := (hheld _ _ _ hclient.holds).best.symm.trans (hbest k)
    exact hc.injective _ hd'.phase.best_le _ (hds k).phase.best_le (Option.some.inj heq)
  refine ⟨fun k => (ds k).nBest, hle 0, monotone_nat_of_le_succ fun k => ?_,
    fun k => (hds k).phase.best_le, fun k => ?_, hbest, fun k hsilent => (hds k).caught_up hsilent⟩
  · rcases run_take_succ evs k net with heq | ⟨ev, hev, heq⟩
    · have hnext := hds (k + 1)
      rw [heq] at hnext
      exact Nat.le_of_eq (hsame k _ hnext).symm
    · obtain ⟨d', hd', hgrows⟩ := (hds k).step hheld hc (hlive ev hev)
      rw [← heq] at hd'
      exact hgrows.trans (Nat.le_of_eq (hsame (k + 1) d' hd'))
  · obtain ⟨pre, -, hclient⟩ := (hds k).client
    exact ⟨_, hclient.holds⟩

theorem blocks_downloaded {genesis : Uint256} {s0 : NodeState} (hstart : Started c.node.env genesis s0)
    (hgrown : Relation.ReflTransGen (AppendStep c.node.env genesis) s0 (net.node false).state)
    (hbest : (net.node false).state.nBestHeight = nTip)
    (hnonzero : ∀ h ≤ nTip, ((net.node false).state.mainBlock h).getHash c.node.env ≠ 0)
    (hshort : nTip < 2 ^ 30)
    (hheld : ∀ a parked s, Holds a parked s →
      Held c.node.env (net.node false).state.mainBlock nTip a parked s)
    (ha : a ≤ nTip) (hjoin : Connected Holds a net) (evs : List (NetEvent Bool))
    (hlive : ∀ ev ∈ evs, SyncLive c.node.env (net.node false).state.mainBlock nTip Holds ev) :
    (net.node false).state.pindexBest =
        some (((net.node false).state.mainBlock nTip).getHash c.node.env) ∧
      ∃ nBest, Downloaded (net.node false).state.mainBlock nTip a Holds c.node.env evs (net.join c)
        nBest := by
  obtain ⟨nTip', hchained, htip⟩ := chained (RulesKept.run hstart hgrown)
  have hsame : nTip' = nTip := Int.ofNat_inj.mp (hchained.height.symm.trans hbest)
  rw [hsame] at hchained htip
  have hc : HashChain c.node.env (net.node false).state.mainBlock nTip :=
    ⟨hchained.injective, hchained.linked, hnonzero, hshort⟩
  exact ⟨htip, (hjoin.coupled ha hheld hc hchained).downloaded hheld hc hlive⟩

end Download

section Sample

def grownNode : Nat → NodeState
  | 0 => zeroNode
  | n + 1 => (exec (processBlock appendEnv (coinbaseChain (n + 1))) (grownNode n)).2

def syncChain : Nat → CBlock := (grownNode 3).mainBlock

def syncHash (n : Nat) : Uint256 := (syncChain n).getHash sampleEnv

-- With no room in the send buffer every batch of the serving node ends after one block.
def syncEnv : NetEnv := { alertNetEnv with node := appendEnv, nSendBufferSize := 0 }

def freshPeer : CNode := ⟨38000, [], 1, ∅, 0, none, 0, ∅, [], [], []⟩

def syncNode (s : NodeState) : NetNode :=
  { NetNode.twoPeers with
    relay := ⟨s, fun _ => none, [], fun _ => false⟩
    vNodes := [freshPeer] }

def syncNet : PeerNet Bool := ⟨fun v => syncNode (if v then zeroNode else grownNode 3), fun _ _ => 0⟩

def syncRound : List (NetEvent Bool) :=
  [.deliver syncEnv false 0, .sendMessages syncEnv false 0 false fun _ => false,
    .deliver syncEnv true 0, .sendMessages syncEnv true 0 false fun _ => false]

def syncRounds (n : Nat) : List (NetEvent Bool) := (List.replicate n syncRound).flatten

def adopt (n : Nat) (s : NodeState) : Except Fault Unit × NodeState :=
  exec (acceptBlock appendEnv (syncChain n)) s

def plainNode : Nat → NodeState
  | 0 => zeroNode
  | n + 1 => (adopt (n + 1) (plainNode n)).2

-- The tip came in at height nFrom, and n more blocks since.
def parkedNode (nFrom : Nat) : Nat → NodeState
  | 0 => (plainNode nFrom).addOrphan sampleEnv (syncChain 3)
  | n + 1 => (adopt (nFrom + n + 1) (parkedNode nFrom n)).2

def joinedNode (nFrom : Nat) : NodeState :=
  ((adopt 3 (parkedNode nFrom (2 - nFrom))).2.eraseOrphan (syncHash 3)).eraseOrphansByPrev
    (syncHash 2)

inductive SyncHolds : Nat → Bool → NodeState → Prop
  | plain {a : Nat} (h : a < 4) : SyncHolds a false (plainNode a)
  | parked {nFrom n : Nat} (hfrom : nFrom < 2) (h : nFrom + n < 3) :
      SyncHolds (nFrom + n) true (parkedNode nFrom n)
  | joined {nFrom : Nat} (hfrom : nFrom < 2) : SyncHolds 3 false (joinedNode nFrom)

def treeCheck (a : Nat) (s : NodeState) : Bool :=
  let walk := s.walk (some (syncHash a))
  decide (s.pindexBest = some (syncHash a)) &&
    decide (walk.head?.map CBlockIndex.hashBlock = some (syncHash a)) && decide (walk.length = a + 1) &&
    (List.range 4).all fun h => (s.mapBlockIndex (syncHash h)).isSome == decide (h ≤ a)

def emptyCheck (s : NodeState) : Bool :=
  s.mapOrphanBlocksByPrev.isEmpty && (List.range 4).all fun h => (s.mapOrphanBlocks (syncHash h)).isNone

theorem held_of_check {a : Nat} {parked : Bool} {s : NodeState} (h : treeCheck a s = true)
    (horphans : ∀ h ≤ 3, s.mapOrphanBlocks (syncHash h) =
      if parked && decide (h = 3) then some (syncChain 3) else none)
    (hbyPrev : s.mapOrphanBlocksByPrev = if parked then [(syncHash 2, syncChain 3)] else []) :
    Held sampleEnv syncChain 3 a parked s := by
  simp only [treeCheck, Bool.and_eq_true, decide_eq_true_eq, List.all_eq_true, List.mem_range,
    beq_iff_eq] at h
  obtain ⟨⟨⟨hbest, hwalk⟩, hheight⟩, hindex⟩ := h
  exact ⟨hbest, hwalk, hheight, fun h hh => hindex h (by omega), horphans, hbyPrev⟩

theorem held_unparked {a : Nat} {s : NodeState} (h : treeCheck a s = true)
    (hempty : emptyCheck s = true) : Held sampleEnv syncChain 3 a false s := by
  simp only [emptyCheck, Bool.and_eq_true, List.isEmpty_iff, List.all_eq_true, List.mem_range,
    Option.isNone_iff_eq_none] at hempty
  exact held_of_check h (fun h hh => hempty.2 h (by omega)) hempty.1

theorem syncHash_apart : ∀ h ≤ 3, syncHash h = syncHash 3 → h = 3 := by
  have hall : ∀ h < 4, syncHash h = syncHash 3 → h = 3 := by decide +kernel
  exact fun h hh => hall h (Nat.lt_succ_of_le hh)

theorem syncChain_linked : (syncChain 3).hashPrevBlock = syncHash 2 := by decide +kernel

theorem plainNode_held {a : Nat} (ha : a < 4) :
    Held sampleEnv syncChain 3 a false (plainNode a) := by
  have hall : ∀ a < 4, treeCheck a (plainNode a) = true ∧ emptyCheck (plainNode a) = true := by
    decide +kernel
  exact held_unparked (hall a ha).1 (hall a ha).2

theorem parkedNode_orphans (nFrom n : Nat) :
    (parkedNode nFrom n).mapOrphanBlocks = (parkedNode nFrom 0).mapOrphanBlocks ∧
      (parkedNode nFrom n).mapOrphanBlocksByPrev = (parkedNode nFrom 0).mapOrphanBlocksByPrev := by
  induction n with
  | zero => exact ⟨rfl, rfl⟩
  | succ n ih =>
    have hkeeps := acceptBlock_orphans appendEnv (syncChain (nFrom + n + 1)) (parkedNode nFrom n)
    exact ⟨hkeeps.1.trans ih.1, hkeeps.2.trans ih.2⟩

theorem parkedNode_held {nFrom n : Nat} (hfrom : nFrom < 2) (h : nFrom + n < 3) :
    Held sampleEnv syncChain 3 (nFrom + n) true (parkedNode nFrom n) := by
  have hall : ∀ nFrom < 2, ∀ n < 3, nFrom + n < 3 →
      treeCheck (nFrom + n) (parkedNode nFrom n) = true := by decide +kernel
  have hfirst : Held sampleEnv syncChain 3 nFrom true (parkedNode nFrom 0) :=
    (plainNode_held (show nFrom < 4 by omega)).addOrphan syncHash_apart syncChain_linked
  obtain ⟨horphans, hbyPrev⟩ := parkedNode_orphans nFrom n
  refine held_of_check (hall nFrom hfrom n (by omega) h) ?_ ?_
  · rw [horphans]
    exact hfirst.orphans
  · rw [hbyPrev]
    exact hfirst.byPrev

theorem SyncHolds.held {a : Nat} {parked : Bool} {s : NodeState} (h : SyncHolds a parked s) :
    Held sampleEnv syncChain 3 a parked s := by
  cases h with
  | plain h => exact plainNode_held h
  | parked hfrom h => exact parkedNode_held hfrom h
  | @joined nFrom hfrom =>
    have hall : ∀ nFrom < 2, treeCheck 3 (joinedNode nFrom) = true ∧
        emptyCheck (joinedNode nFrom) = true := by decide +kernel
    exact held_unparked (hall nFrom hfrom).1 (hall nFrom hfrom).2

theorem adopt_ok :
    (∀ a < 3, (adopt (a + 1) (plainNode a)).1 = .ok ()) ∧
      (∀ nFrom < 2, ∀ n < 3, nFrom + n < 3 →
        (adopt (nFrom + n + 1) (parkedNode nFrom n)).1 = .ok ()) := by
  decide +kernel

theorem syncHolds_adopting : Adopting appendEnv syncChain 3 SyncHolds where
  checked h hpos hle := by
    have hall : ∀ h < 4, 0 < h →
        (syncChain h).checkBlock appendEnv.env appendEnv.nNow intMax = .ok () := by decide +kernel
    exact hall h (by omega) hpos
  next a parked s ha hparked hholds := by
    cases hholds with
    | plain _ => exact ⟨adopt_ok.1 a ha, .plain (Nat.succ_lt_succ ha)⟩
    | @parked nFrom n hfrom h =>
      exact ⟨adopt_ok.2 nFrom hfrom n (by omega) h, .parked (n := n + 1) hfrom (hparked rfl)⟩
    | joined _ => exact absurd ha (by omega)
  join s _ hholds := by
    have hlast : ∀ a parked, SyncHolds a parked s → a = 2 → parked = true →
        (adopt 3 s).1 = .ok () ∧ SyncHolds 3 false
          (((adopt 3 s).2.eraseOrphan (syncHash 3)).eraseOrphansByPrev (syncHash 2)) := by
      intro a parked hholds ha hparked
      cases hholds with
      | plain _ => cases hparked
      | @parked nFrom n hfrom h =>
        obtain rfl : n = 2 - nFrom := by omega
        have hok := adopt_ok.2 nFrom hfrom _ (by omega) h
        rw [ha] at hok
        exact ⟨hok, .joined hfrom⟩
      | joined _ => cases hparked
    exact hlast _ _ hholds rfl rfl
  park a s hfar hholds := by
    have hlow : ∀ parked, SyncHolds a parked s → parked = false →
        SyncHolds a true (s.addOrphan sampleEnv (syncChain 3)) := by
      intro parked hholds hparked
      cases hholds with
      | plain _ => exact .parked (n := 0) (by omega) (by omega)
      | parked _ _ => cases hparked
      | joined _ => exact absurd hfar (by omega)
    exact hlow _ hholds rfl

theorem syncRounds_live (n : Nat) :
    ∀ ev ∈ syncRounds n, SyncLive sampleEnv syncChain 3 SyncHolds ev := by
  intro ev hev
  obtain ⟨round, hround, hev⟩ := List.mem_flatten.mp hev
  rw [List.eq_of_mem_replicate hround] at hev
  have hnet : ev.netEnv = syncEnv ∧ ∀ c v i m, ev ≠ .receive c v i m := by
    simp only [syncRound, List.mem_cons, List.not_mem_nil, or_false] at hev
    rcases hev with rfl | rfl | rfl | rfl
    all_goals exact ⟨rfl, fun c v i m heq => by cases heq⟩
  refine ⟨by rw [hnet.1]; rfl, by rw [hnet.1]; decide, ?_, hnet.2⟩
  rw [hnet.1]
  exact syncHolds_adopting

theorem grownNode_run (n : Nat) : Relation.ReflTransGen
    (AppendStep sampleEnv sampleNodeEnv.hashGenesisBlock) zeroNode (grownNode n) := by
  induction n with
  | zero => exact .refl
  | succ n ih => exact ih.tail (.block appendEnv (coinbaseChain (n + 1)) rfl rfl appendEnv_appends)

theorem syncNet_states :
    (syncNet.node false).state = grownNode 3 ∧ (syncNet.node true).state = zeroNode := by
  refine ⟨?_, ?_⟩
  · simp only [syncNet, syncNode, NetNode.state, Bool.false_eq_true, if_false]
  · simp only [syncNet, syncNode, NetNode.state, if_true]

-- After four rounds the tip has come in through hashContinue and waits as an orphan; after seven
-- the block between has come in too.
theorem syncNet_downloaded :
    (∃ nBest, Downloaded syncChain 3 0 SyncHolds sampleEnv (syncRounds 7) (syncNet.join syncEnv)
      nBest) ∧
      ((run pairLinks (syncRounds 4) (syncNet.join syncEnv)).node
        true).state.mapOrphanBlocksByPrev.length = 1 ∧
      ((run pairLinks (syncRounds 7) (syncNet.join syncEnv)).node true).state.pindexBest =
        some (syncHash 3) := by
  obtain ⟨hserver, hclient⟩ := syncNet_states
  have hfresh : Fresh freshPeer 0 := ⟨rfl, rfl, rfl, rfl, rfl, rfl⟩
  have hjoin : Connected SyncHolds 0 syncNet :=
    ⟨⟨freshPeer, rfl, hfresh⟩, ⟨freshPeer, rfl, hfresh⟩, fun _ => rfl, by
      rw [hclient]
      exact .plain (by decide)⟩
  have hrun := (@blocks_downloaded 3 0 SyncHolds syncNet syncEnv
    sampleNodeEnv.hashGenesisBlock zeroNode zeroNode_started (by rw [hserver]; exact grownNode_run 3)
    (by rw [hserver]; decide +kernel) (by rw [hserver]; decide +kernel) (by decide)
    (by rw [hserver]; exact fun a parked s hholds => hholds.held)
    (Nat.zero_le 3) hjoin (syncRounds 7) (by rw [hserver]; exact syncRounds_live 7)).2
  rw [hserver] at hrun
  refine ⟨hrun, ?_, ?_⟩
  · decide +kernel
  · decide +kernel

end Sample

end PeerNet

end Namecoin
