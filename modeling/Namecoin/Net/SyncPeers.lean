import Namecoin.Net.Adopt
import Namecoin.Net.Inventory
import Namecoin.Net.Requests
import Namecoin.Net.SyncChain

namespace Namecoin

open Act

section Messages

variable (env : Env) (chain : Nat → CBlock) (nTip : Nat)

def blockItem (h : Nat) : CInv := CInv.block ((chain h).getHash env)

def Reply.msg : Reply → NetMessage
  | block nHeight => .block (chain nHeight)
  | inv heights => .inv (heights.map (blockItem env chain))

inductive Request.Sends : Request → NetMessage → Prop
  | getblocks (nFrom : Nat) (stopAtTip : Bool) (vHave : List Uint256) :
      Sends (.getblocks nFrom stopAtTip) (.getblocks ((chain nFrom).getHash env :: vHave)
        (if stopAtTip then (chain nTip).getHash env else 0))
  | getdata (heights : List Nat) :
      Sends (.getdata heights) (.getdata (heights.map (blockItem env chain)))

-- The connection of the asking node, with what its other end has read already.
structure AskingPeer (pre : List NetMessage) (n : CNode) (times : AskTimes) (d : Download) : Prop where
  offers : n.vInventoryToSend = []
  asks : n.mapAskFor.map Prod.snd = d.asks.map (blockItem env chain)
  inTime : ∀ entry ∈ n.mapAskFor, entry.1 ≤ times.nLastTime
  begins : n.pindexLastGetBlocksBegin = some ((chain d.nAsked).getHash env)
  known : d.parked = true → blockItem env chain nTip ∈ n.setInventoryKnown
  fresh : ∀ inv, times.mapAlreadyAskedFor inv ≠ 0 →
    ∃ h ∈ d.blocks ++ d.wants ++ d.asks, inv = blockItem env chain h
  stream : ∃ ms, n.vSend = pre ++ ms ∧ List.Forall₂ (Request.Sends env chain nTip) d.requests ms

structure ServingLine (pre : List NetMessage) (n : CNode) (d : Download) : Prop where
  queue : n.vInventoryToSend = d.queue.map (blockItem env chain)
  noAsks : n.mapAskFor = []
  resume : n.hashContinue = (d.resume.map fun h => (chain h).getHash env).getD 0
  stream : n.vSend = pre ++ d.replies.map (Reply.msg env chain)

structure ServingPeer (pre : List NetMessage) (n : CNode) (d : Download) : Prop extends
    ServingLine env chain pre n d where
  known : ∀ h ≤ nTip, blockItem env chain h ∈ n.setInventoryKnown → Download.Settled nTip d h

end Messages

theorem NetNode.onNode_single {s : NetNode} {n : CNode} (h : s.vNodes = [n]) (f : CNode → CNode) :
    s.onNode 0 f = { s with vNodes := [f n] } := by
  rw [NetNode.onNode, h]
  rfl

-- The server's chain as far as heights go, shared by both ends.
structure HashChain (env : Env) (chain : Nat → CBlock) (nTip : Nat) : Prop where
  injective : ∀ h ≤ nTip, ∀ k ≤ nTip, (chain h).getHash env = (chain k).getHash env → h = k
  linked : ∀ h < nTip, (chain (h + 1)).hashPrevBlock = (chain h).getHash env
  nonzero : ∀ h ≤ nTip, (chain h).getHash env ≠ 0
  short : nTip < 2 ^ 30

section Client

variable {c : NetEnv} {chain : Nat → CBlock} {nTip : Nat} {Holds : Nat → Bool → NodeState → Prop}
  {s : NetNode} {d : Download} {n : CNode} {pre : List NetMessage}

theorem blockItem_injective (hc : HashChain c.node.env chain nTip) {h k : Nat} (hh : h ≤ nTip)
    (hk : k ≤ nTip) (heq : blockItem c.node.env chain h = blockItem c.node.env chain k) : h = k :=
  hc.injective h hh k hk (congrArg CInv.hash heq)

theorem alreadyHave_block (s : NetNode) (hash : Uint256) : s.alreadyHave (CInv.block hash) =
    ((s.state.mapBlockIndex hash).isSome || (s.state.mapOrphanBlocks hash).isSome) := rfl

theorem Held.alreadyHave {h : Nat} (hheld : Held c.node.env chain nTip d.nBest d.parked s.state)
    (hh : h ≤ nTip) : s.alreadyHave (blockItem c.node.env chain h) = d.had nTip h := by
  have horphan : (s.state.mapOrphanBlocks ((chain h).getHash c.node.env)).isSome =
      (d.parked && decide (h = nTip)) := by
    rw [hheld.orphans h hh]
    cases d.parked && decide (h = nTip) <;> rfl
  rw [blockItem, alreadyHave_block, hheld.index h hh, horphan, Download.had]

theorem AskTimes.requestTime_new {t : Int} {inv : CInv} {a : AskTimes}
    (hzero : a.mapAlreadyAskedFor inv = 0) (ht : 121 ≤ t) : a.requestTime t inv = a.tick t := by
  rw [AskTimes.requestTime, hzero, AskTimes.tick]
  exact max_eq_right (le_max_of_le_left (by omega))

theorem AskingPeer.hear (hpeer : AskingPeer c.node.env chain nTip pre n s.times d) (hn : s.vNodes = [n])
    (hheld : Held c.node.env chain nTip d.nBest d.parked s.state) (htime : 121 ≤ c.nTime) {h : Nat}
    (hc : HashChain c.node.env chain nTip) (hway : ∀ k ∈ d.blocks ++ d.wants ++ d.asks, k ≤ nTip)
    (hh : h ≤ nTip) (hnew : d.had nTip h = false) (hapart : h ∉ d.blocks ++ d.wants ++ d.asks) :
    ∃ n' times', s.hearInv c 0 (blockItem c.node.env chain h) =
        { s with
          vNodes := [n']
          times := times' } ∧
      AskingPeer c.node.env chain nTip pre n' times' { d with asks := d.asks ++ [h] } := by
  have hhave : (s.onNode 0 (CNode.addInventoryKnown (blockItem c.node.env chain h))).alreadyHave
      (blockItem c.node.env chain h) = false := (hheld.alreadyHave hh).trans hnew
  have hzero : s.times.mapAlreadyAskedFor (blockItem c.node.env chain h) = 0 := by
    by_contra hne
    obtain ⟨k, hk, heq⟩ := hpeer.fresh _ hne
    exact hapart (blockItem_injective hc hh (hway k hk) heq ▸ hk)
  have hrequest := AskTimes.requestTime_new hzero htime
  have hlate : ∀ entry ∈ n.mapAskFor,
      entry.1 ≤ s.times.requestTime c.nTime (blockItem c.node.env chain h) := by
    intro entry hentry
    have hold := hpeer.inTime entry hentry
    rw [hrequest, AskTimes.tick]
    exact le_max_of_le_right (by omega)
  have hlast : (s.times.asked c.nTime (blockItem c.node.env chain h)).nLastTime =
      s.times.requestTime c.nTime (blockItem c.node.env chain h) := hrequest.symm
  have hinsert : insertAsk (s.times.requestTime c.nTime (blockItem c.node.env chain h),
      blockItem c.node.env chain h) n.mapAskFor = n.mapAskFor ++
        [(s.times.requestTime c.nTime (blockItem c.node.env chain h), blockItem c.node.env chain h)] :=
    insertAsk_last hlate
  refine ⟨(n.addInventoryKnown (blockItem c.node.env chain h)).askFor
      (s.times.requestTime c.nTime (blockItem c.node.env chain h)) (blockItem c.node.env chain h),
    s.times.asked c.nTime (blockItem c.node.env chain h), ?_, ?_⟩
  · rw [NetNode.hearInv, if_pos hhave, NetNode.askFor, NetNode.onNode_single hn]
    rfl
  · refine ⟨hpeer.offers, ?_, ?_, hpeer.begins, fun hp => ?_, ?_, hpeer.stream⟩
    · show (insertAsk _ n.mapAskFor).map Prod.snd = (d.asks ++ [h]).map _
      rw [hinsert, List.map_append, List.map_append, hpeer.asks]
      rfl
    · intro entry hentry
      rw [hlast]
      have hentry : entry ∈ insertAsk (_, _) n.mapAskFor := hentry
      rw [hinsert, List.mem_append, List.mem_singleton] at hentry
      rcases hentry with hold | rfl
      · exact hlate entry hold
      · exact le_rfl
    · exact Finset.mem_insert_of_mem (hpeer.known hp)
    · intro inv hinv
      by_cases heq : inv = blockItem c.node.env chain h
      · exact ⟨h, List.mem_append_right _ (List.mem_append_right _ (List.mem_singleton.mpr rfl)), heq⟩
      · have hother : (s.times.asked c.nTime (blockItem c.node.env chain h)).mapAlreadyAskedFor inv =
            s.times.mapAlreadyAskedFor inv := Function.update_of_ne heq _ _
        rw [hother] at hinv
        obtain ⟨k, hk, hsame⟩ := hpeer.fresh inv hinv
        refine ⟨k, ?_, hsame⟩
        rcases List.mem_append.mp hk with hleft | hright
        · exact List.mem_append_left _ hleft
        · exact List.mem_append_right _ (List.mem_append_left _ hright)

theorem AskingPeer.hearAll {hs : List Nat} (hpeer : AskingPeer c.node.env chain nTip pre n s.times d)
    (hn : s.vNodes = [n]) (hheld : Held c.node.env chain nTip d.nBest d.parked s.state)
    (htime : 121 ≤ c.nTime) (hc : HashChain c.node.env chain nTip)
    (hway : ∀ k ∈ d.blocks ++ d.wants ++ d.asks, k ≤ nTip)
    (hnew : ∀ h ∈ hs, h ≤ nTip ∧ d.had nTip h = false) (hnodup : hs.Nodup)
    (hapart : ∀ h ∈ hs, h ∉ d.blocks ++ d.wants ++ d.asks) :
    ∃ n' times', (hs.map (blockItem c.node.env chain)).foldl (NetNode.hearInv c 0) s =
        { s with
          vNodes := [n']
          times := times' } ∧
      AskingPeer c.node.env chain nTip pre n' times' { d with asks := d.asks ++ hs } := by
  induction hs generalizing s d n with
  | nil =>
    refine ⟨n, s.times, ?_, ?_⟩
    · rw [← hn]
      rfl
    · rw [List.append_nil]
      exact hpeer
  | cons h hs ih =>
    obtain ⟨⟨hle, hhad⟩, hnew⟩ := List.forall_mem_cons.mp hnew
    obtain ⟨hfirst, hapart⟩ := List.forall_mem_cons.mp hapart
    obtain ⟨hnot, hnodup⟩ := List.nodup_cons.mp hnodup
    obtain ⟨n1, times1, hstep, hpeer1⟩ := hpeer.hear hn hheld htime hc hway hle hhad hfirst
    have hway1 : ∀ k ∈ d.blocks ++ d.wants ++ (d.asks ++ [h]), k ≤ nTip := by
      intro k hk
      rw [← List.append_assoc] at hk
      rcases List.mem_append.mp hk with hold | hlast
      · exact hway k hold
      · rw [List.mem_singleton.mp hlast]
        exact hle
    have hapart1 : ∀ k ∈ hs, k ∉ d.blocks ++ d.wants ++ (d.asks ++ [h]) := by
      intro k hk hmem
      rw [← List.append_assoc] at hmem
      rcases List.mem_append.mp hmem with hold | hlast
      · exact hapart k hk hold
      · exact hnot (List.mem_singleton.mp hlast ▸ hk)
    obtain ⟨n2, times2, hrest, hpeer2⟩ := @ih
      { s with
        vNodes := [n1]
        times := times1 } { d with asks := d.asks ++ [h] } n1 hpeer1 rfl hheld hway1 hnew hnodup hapart1
    refine ⟨n2, times2, ?_, ?_⟩
    · rw [List.map_cons, List.foldl_cons, hstep, hrest]
    · rw [List.append_assoc] at hpeer2
      exact hpeer2

theorem CBlockLocator.set_head (hheld : Held c.node.env chain nTip d.nBest d.parked s.state)
    (hbest : d.nBest ≤ nTip) (hshort : nTip < 2 ^ 30) :
    ∃ vHave, locatorAt c.node s.state s.state.pindexBest =
      .ok ((chain d.nBest).getHash c.node.env :: vHave) := by
  have hfirst := hheld.walk
  have hlen := hheld.height
  cases hwalk : s.state.walk (some ((chain d.nBest).getHash c.node.env)) with
  | nil =>
    rw [hwalk] at hlen
    cases hlen
  | cons p rest =>
  rw [hwalk, List.head?_cons, Option.map_some, Option.some.injEq] at hfirst
  rw [hwalk, List.length_cons] at hlen
  have hset : CBlockLocator.setFrom ((p :: rest).length + 1) (Doubling.step 10 0 : Nat) [] (p :: rest) =
      .ok ([] ++ locatorFrom (p :: rest).length (Doubling.step 10 0) 0 (p :: rest)) := by
    refine CBlockLocator.setFrom_eq (Nat.lt_succ_self _) le_rfl rfl fun _ => ?_
    rw [Doubling.back_zero, List.length_cons]
    omega
  rw [List.nil_append, List.length_cons, CBlockLocator.locatorFrom_cons, hfirst] at hset
  refine ⟨locatorFrom rest.length (Doubling.step 10 (0 + 1)) (0 + 1)
    ((p :: rest).drop (Doubling.step 10 0)) ++ [c.node.hashGenesisBlock], ?_⟩
  rw [hheld.best, locatorAt, CBlockLocator.set, hwalk, List.length_cons]
  change CBlockLocator.setFrom (rest.length + 1 + 1) (Doubling.step 10 0 : Nat) [] (p :: rest) >>= _ = _
  rw [hset]
  rfl

theorem AskingPeer.ask (hpeer : AskingPeer c.node.env chain nTip pre n s.times d) (hn : s.vNodes = [n])
    (hheld : Held c.node.env chain nTip d.nBest d.parked s.state) (hc : HashChain c.node.env chain nTip)
    (hfar : d.nBest + 1 < nTip) (hasked : d.nAsked < d.nBest) :
    ∃ n', s.askFill c 0 (chain nTip) = { s with vNodes := [n'] } ∧
      AskingPeer c.node.env chain nTip pre n' s.times d.ask := by
  have hroot : getOrphanRoot c.node.env s.state (s.state.mapOrphanBlocksByPrev.length + 1) (chain nTip) =
      some ((chain nTip).getHash c.node.env) := by
    have hlink := hc.linked (nTip - 1) (by omega)
    rw [Nat.sub_add_cancel (by omega)] at hlink
    rw [getOrphanRoot, hlink, hheld.orphans (nTip - 1) (Nat.sub_le _ _), if_neg]
    rw [Bool.and_eq_true, decide_eq_true_eq]
    rintro ⟨-, heq⟩
    omega
  obtain ⟨vHave, hlocator⟩ := CBlockLocator.set_head hheld (by omega) hc.short
  have hbegin : ¬(s.state.pindexBest = n.pindexLastGetBlocksBegin ∧
      (chain nTip).getHash c.node.env = n.hashLastGetBlocksEnd) := by
    rintro ⟨heq, -⟩
    rw [hheld.best, hpeer.begins, Option.some.injEq] at heq
    have hsame := hc.injective _ (by omega) _ (by omega) heq
    omega
  obtain ⟨ms, hstream, hsends⟩ := hpeer.stream
  refine ⟨{ n with
      pindexLastGetBlocksBegin := s.state.pindexBest
      hashLastGetBlocksEnd := (chain nTip).getHash c.node.env
      vSend := n.vSend ++ [.getblocks ((chain d.nBest).getHash c.node.env :: vHave)
        ((chain nTip).getHash c.node.env)] }, ?_, ?_⟩
  · rw [NetNode.askFill, hroot]
    dsimp only
    rw [NetNode.pushGetBlocks, NetNode.onNode_single hn, hlocator, CNode.pushGetBlocks, if_neg hbegin]
    rfl
  · refine ⟨hpeer.offers, hpeer.asks, hpeer.inTime, hheld.best, hpeer.known, ?_,
      ms ++ [.getblocks ((chain d.nBest).getHash c.node.env :: vHave) ((chain nTip).getHash c.node.env)],
      ?_, ?_⟩
    · intro inv hinv
      have hwants : d.ask.wants = d.wants := by
        rw [Download.wants, Download.ask, List.flatMap_append]
        exact List.append_nil _
      rw [hwants]
      exact hpeer.fresh inv hinv
    · show n.vSend ++ [_] = _
      rw [hstream, List.append_assoc]
    · exact List.rel_append hsends (.cons (.getblocks d.nBest true vHave) .nil)

end Client

end Namecoin
