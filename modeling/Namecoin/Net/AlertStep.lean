import Namecoin.Net.Requests
import Namecoin.Net.Dispatch

namespace Namecoin

open Act

def NetMessage.isAlert : NetMessage → Bool
  | .alert _ _ => true
  | .inv _ => false
  | .getdata _ => false
  | .getblocks _ _ => false
  | .block _ => false
  | .tx _ => false

-- A handler that has nothing to do with alerts.
structure OffAlert (n n' : CNode) : Prop where
  setKnown : n'.setKnown = n.setKnown
  pushed : ∃ ms, n'.vSend = n.vSend ++ ms ∧ ∀ m ∈ ms, m.isAlert = false

structure LeavesAlerts (s s' : NetNode) : Prop where
  mapAlerts : s'.mapAlerts = s.mapAlerts
  vNodes : List.Forall₂ OffAlert s.vNodes s'.vNodes

section Peer

variable {n n' n'' : CNode}

theorem OffAlert.of_same (hknown : n'.setKnown = n.setKnown) (hsend : n'.vSend = n.vSend) :
    OffAlert n n' :=
  ⟨hknown, [], by rw [hsend, List.append_nil], fun m hm => absurd hm List.not_mem_nil⟩

theorem OffAlert.refl (n : CNode) : OffAlert n n := of_same rfl rfl

theorem OffAlert.trans (h : OffAlert n n') (h' : OffAlert n' n'') : OffAlert n n'' := by
  obtain ⟨hknown, ms, hsend, hoff⟩ := h
  obtain ⟨hknown', ms', hsend', hoff'⟩ := h'
  refine ⟨hknown'.trans hknown, ms ++ ms', by rw [hsend', hsend, List.append_assoc], ?_⟩
  intro m hm
  rcases List.mem_append.mp hm with hm | hm
  · exact hoff m hm
  · exact hoff' m hm

theorem pushMessages_off {ms : List NetMessage} (h : ∀ m ∈ ms, m.isAlert = false) (n : CNode) :
    OffAlert n (n.pushMessages ms) := ⟨rfl, ms, rfl, h⟩

theorem pushMessage_off {m : NetMessage} (h : m.isAlert = false) (n : CNode) :
    OffAlert n (n.pushMessages [m]) := by
  refine pushMessages_off (fun m' hm => ?_) n
  rw [List.mem_singleton.mp hm]
  exact h

theorem addInventoryKnown_off (inv : CInv) (n : CNode) : OffAlert n (n.addInventoryKnown inv) :=
  OffAlert.of_same rfl rfl

theorem askFor_off (nRequestTime : Int) (inv : CInv) (n : CNode) :
    OffAlert n (n.askFor nRequestTime inv) := OffAlert.of_same rfl rfl

theorem pushInventory_off (inv : CInv) (n : CNode) : OffAlert n (n.pushInventory inv) := by
  rw [CNode.pushInventory]
  split
  · exact OffAlert.refl n
  · exact OffAlert.of_same rfl rfl

theorem pushGetBlocks_off (locator : Except Fault (List Uint256)) (pindexBegin : Option Uint256)
    (hashEnd : Uint256) (n : CNode) : OffAlert n (n.pushGetBlocks locator pindexBegin hashEnd) := by
  rw [CNode.pushGetBlocks]
  split
  · exact OffAlert.refl n
  · have hasked : OffAlert n { n with
        pindexLastGetBlocksBegin := pindexBegin
        hashLastGetBlocksEnd := hashEnd } := OffAlert.of_same rfl rfl
    cases locator with
    | ok vHave => exact hasked.trans (pushMessage_off rfl _)
    | error fault => exact hasked

theorem serveBlock_off (hashBestChain : Uint256) (b : CBlock) (hash : Uint256) (n : CNode) :
    OffAlert n (NetNode.serveBlock hashBestChain b hash n) := by
  have hsent : OffAlert n (n.pushMessages [.block b]) := pushMessage_off rfl n
  rw [NetNode.serveBlock]
  split
  · exact (hsent.trans (pushMessage_off rfl _)).trans (OffAlert.of_same rfl rfl)
  · exact hsent

theorem announce_off (r : BlocksReply) (n : CNode) : OffAlert n (NetNode.announce r n) := by
  have hoffered : ∀ (l : List Uint256) (n : CNode),
      OffAlert n (l.foldl (fun n hash => n.pushInventory (CInv.block hash)) n) := by
    intro l
    induction l with
    | nil => exact OffAlert.refl
    | cons hash rest ih => exact fun n => (pushInventory_off _ n).trans (ih _)
  exact (hoffered r.inventory n).trans (OffAlert.of_same rfl rfl)

theorem relayBlock_off (nLockinHeight nBestHeight : Int) (hash : Uint256) (n : CNode) :
    OffAlert n (relayBlock nLockinHeight nBestHeight hash n) := by
  rw [relayBlock]
  generalize (if n.nStartingHeight ≠ -1 then n.nStartingHeight - 2000 else nLockinHeight) = nAbove
  split
  · exact pushInventory_off _ n
  · exact OffAlert.refl n

theorem getdata_off {α : Type} (f : α → NetMessage) (hf : ∀ a, (f a).isAlert = false) (l : List α) :
    ∀ m ∈ l.map f, m.isAlert = false := by
  intro m hm
  obtain ⟨a, -, rfl⟩ := List.mem_map.mp hm
  exact hf a

theorem sendMessages_off (nTime : Int) (fSendTrickle : Bool) (fTrickleWait alreadyHave : CInv → Bool)
    (n : CNode) : OffAlert n (n.sendMessages nTime fSendTrickle fTrickleWait alreadyHave) := by
  rw [CNode.sendMessages]
  split
  · exact OffAlert.refl n
  · have hinv : OffAlert n (n.sendInventory fSendTrickle fTrickleWait) :=
      ⟨rfl, _, rfl, getdata_off NetMessage.inv (fun _ => rfl) _⟩
    exact hinv.trans ⟨rfl, _, rfl, getdata_off NetMessage.getdata (fun _ => rfl) _⟩

end Peer

section Handlers

variable {s s' s'' : NetNode} {c : NetEnv}

theorem forall₂_off (l : List CNode) : List.Forall₂ OffAlert l l :=
  List.forall₂_same.mpr fun n _ => OffAlert.refl n

theorem LeavesAlerts.of_same (halerts : s'.mapAlerts = s.mapAlerts) (hnodes : s'.vNodes = s.vNodes) :
    LeavesAlerts s s' := ⟨halerts, by rw [hnodes]; exact forall₂_off s.vNodes⟩

theorem LeavesAlerts.refl (s : NetNode) : LeavesAlerts s s := of_same rfl rfl

theorem forall₂_trans {l l' l'' : List CNode} (h : List.Forall₂ OffAlert l l')
    (h' : List.Forall₂ OffAlert l' l'') : List.Forall₂ OffAlert l l'' := by
  induction h generalizing l'' with
  | nil => exact h'
  | cons hn _ ih =>
    cases h' with
    | cons hn' hrest => exact .cons (hn.trans hn') (ih hrest)

theorem LeavesAlerts.trans (h : LeavesAlerts s s') (h' : LeavesAlerts s' s'') :
    LeavesAlerts s s'' :=
  ⟨h'.mapAlerts.trans h.mapAlerts, forall₂_trans h.vNodes h'.vNodes⟩

theorem LeavesAlerts.map {f : CNode → CNode} (hf : ∀ n, OffAlert n (f n)) (l : List CNode) :
    List.Forall₂ OffAlert l (l.map f) :=
  List.forall₂_map_right_iff.mpr (List.forall₂_same.mpr fun n _ => hf n)

theorem LeavesAlerts.modify {f : CNode → CNode} (hf : ∀ n, OffAlert n (f n)) (i : Nat)
    (l : List CNode) : List.Forall₂ OffAlert l (l.modify i f) := by
  induction l generalizing i with
  | nil => cases i <;> exact List.Forall₂.nil
  | cons n rest ih =>
    cases i with
    | zero => exact .cons (hf n) (forall₂_off rest)
    | succ i => exact .cons (OffAlert.refl n) (ih i)

theorem onNode_leaves (i : Nat) {f : CNode → CNode} (hf : ∀ n, OffAlert n (f n)) (s : NetNode) :
    LeavesAlerts s (s.onNode i f) := ⟨rfl, LeavesAlerts.modify hf i s.vNodes⟩

theorem foldl_leaves {α : Type} {f : NetNode → α → NetNode} (hf : ∀ s a, LeavesAlerts s (f s a))
    (l : List α) (s : NetNode) : LeavesAlerts s (l.foldl f s) := by
  induction l generalizing s with
  | nil => exact LeavesAlerts.refl s
  | cons a rest ih => exact (hf s a).trans (ih (f s a))

theorem askFill_leaves (c : NetEnv) (i : Nat) (b : CBlock) (s : NetNode) :
    LeavesAlerts s (s.askFill c i b) := by
  rw [NetNode.askFill]
  split
  · exact LeavesAlerts.refl s
  · exact onNode_leaves i (pushGetBlocks_off _ _ _) s

theorem askFor_leaves (nTime : Int) (i : Nat) (inv : CInv) (s : NetNode) :
    LeavesAlerts s (s.askFor nTime i inv) := by
  have hasked : LeavesAlerts s (s.onNode i (CNode.askFor (s.times.requestTime nTime inv) inv)) :=
    onNode_leaves i (askFor_off _ inv) s
  exact hasked.trans (LeavesAlerts.of_same rfl rfl)

theorem hearInv_leaves (c : NetEnv) (i : Nat) (s : NetNode) (inv : CInv) :
    LeavesAlerts s (s.hearInv c i inv) := by
  have hknown : LeavesAlerts s (s.onNode i (CNode.addInventoryKnown inv)) :=
    onNode_leaves i (addInventoryKnown_off _) s
  unfold NetNode.hearInv
  dsimp only
  split
  · exact hknown.trans (askFor_leaves c.nTime i inv _)
  · split
    · split
      · exact hknown
      · exact hknown.trans (askFill_leaves c i _ _)
    · exact hknown

theorem serveInv_leaves (i : Nat) (s : NetNode) (inv : CInv) : LeavesAlerts s (s.serveInv i inv) := by
  rw [NetNode.serveInv]
  split
  · split
    · exact LeavesAlerts.refl s
    · exact onNode_leaves i (serveBlock_off _ _ _) s
  · split
    · split
      · exact LeavesAlerts.refl s
      · exact onNode_leaves i (pushMessage_off rfl) s
    · exact LeavesAlerts.refl s

theorem relayAccepted_off (e : NodeEnv) (vNodes : List CNode) (call : NodeState × CBlock) :
    List.Forall₂ OffAlert vNodes (relayAccepted e vNodes call) := by
  rw [relayAccepted]
  split
  · split
    · exact LeavesAlerts.map (relayBlock_off _ _ _) vNodes
    · exact forall₂_off vNodes
  · exact forall₂_off vNodes

theorem relayCalls_off (e : NodeEnv) (calls : List (NodeState × CBlock)) (vNodes : List CNode) :
    List.Forall₂ OffAlert vNodes (calls.foldl (relayAccepted e) vNodes) := by
  induction calls generalizing vNodes with
  | nil => exact forall₂_off vNodes
  | cons call rest ih =>
    exact forall₂_trans (relayAccepted_off e vNodes call) (ih (relayAccepted e vNodes call))

theorem processBlock_leaves (c : NetEnv) (i : Nat) (b : CBlock) (s : NetNode) :
    LeavesAlerts s (s.processBlock c i b) := by
  have hknown : LeavesAlerts s
      (s.onNode i (CNode.addInventoryKnown (CInv.block (b.getHash c.node.env)))) :=
    onNode_leaves i (addInventoryKnown_off _) s
  have hrelayed : ∀ node calls, LeavesAlerts s
      { (s.onNode i (CNode.addInventoryKnown (CInv.block (b.getHash c.node.env)))).withState node with
        vNodes := List.foldl (relayAccepted c.node)
          (s.onNode i (CNode.addInventoryKnown (CInv.block (b.getHash c.node.env)))).vNodes calls } :=
    fun node calls => hknown.trans ⟨rfl, relayCalls_off c.node calls _⟩
  unfold NetNode.processBlock
  dsimp only
  split
  · exact hrelayed _ _
  · refine @LeavesAlerts.trans _ (ite _ _ _) _ ?_ (LeavesAlerts.of_same rfl rfl)
    split
    · exact (hrelayed _ _).trans (askFill_leaves c i b _)
    · exact hrelayed _ _

theorem relayMessage_leaves (c : NetEnv) (s : NetNode) (message : CInv × List UInt8) :
    LeavesAlerts s (s.relayMessage c message) :=
  ⟨rfl, LeavesAlerts.map (pushInventory_off _) s.vNodes⟩

theorem processTx_leaves (c : NetEnv) (i : Nat) (vRecv : List UInt8) (s : NetNode) :
    LeavesAlerts s (s.processTx c i vRecv) := by
  rw [NetNode.processTx]
  split
  · exact LeavesAlerts.refl s
  · refine LeavesAlerts.trans ?_ (foldl_leaves (relayMessage_leaves c) _ _)
    exact (onNode_leaves i (addInventoryKnown_off _) s).trans (LeavesAlerts.of_same rfl rfl)

theorem processMessage_leaves {m : NetMessage} (h : m.isAlert = false) (c : NetEnv) (i : Nat)
    (s : NetNode) : LeavesAlerts s (s.processMessage c i m) := by
  cases m with
  | inv vInv =>
    change LeavesAlerts s (s.processInv c i vInv)
    rw [NetNode.processInv]
    split
    · exact LeavesAlerts.refl s
    · exact foldl_leaves (hearInv_leaves c i) vInv s
  | getdata vInv =>
    change LeavesAlerts s (s.processGetdata i vInv)
    rw [NetNode.processGetdata]
    split
    · exact LeavesAlerts.refl s
    · exact foldl_leaves (serveInv_leaves i) vInv s
  | getblocks vHave hashStop =>
    change LeavesAlerts s (s.processGetblocks c i vHave hashStop)
    rw [NetNode.processGetblocks]
    split
    · exact onNode_leaves i (announce_off _) s
    · exact LeavesAlerts.refl s
  | block b => exact processBlock_leaves c i b s
  | tx vRecv => exact processTx_leaves c i vRecv s
  | alert vchMsg vchSig => cases h

theorem sendMessages_leaves (nTime : Int) (fSendTrickle : Bool) (fTrickleWait : CInv → Bool) (i : Nat)
    (s : NetNode) : LeavesAlerts s (s.sendMessages nTime fSendTrickle fTrickleWait i) :=
  onNode_leaves i (sendMessages_off _ _ _ _) s

end Handlers

-- Every node can tell that the alert is signed, and nothing else that is signed revokes it.
structure AlertLive (env : Env) (x : CAlert) (c : NetEnv) : Prop where
  env_eq : c.node.env = env
  signed : CAlert.checkSignature c x.vchMsg x.vchSig = some x
  inEffect : x.isInEffect c.node.nNow = true
  spreads : x.appliesToMe c.node.nNow = true ∨ (c.node.nNow : Int) < x.nRelayUntil
  alone : ∀ vchMsg vchSig a, CAlert.checkSignature c vchMsg vchSig = some a → a ≠ x →
    a.getHash env ≠ x.getHash env ∧ a.revokes x = false

def NetMessage.carries (x : CAlert) : NetMessage → Bool
  | .alert vchMsg vchSig => decide (vchMsg = x.vchMsg ∧ vchSig = x.vchSig)
  | .inv _ => false
  | .getdata _ => false
  | .getblocks _ _ => false
  | .block _ => false
  | .tx _ => false

namespace NetNode

variable (env : Env) (x : CAlert)

def knownAt (s : NetNode) (k : Nat) : Finset Uint256 := ((s.vNodes[k]?).map CNode.setKnown).getD ∅

def Holds (s : NetNode) : Prop := (x.getHash env, x) ∈ s.mapAlerts

def Knows (s : NetNode) (k : Nat) : Prop := x.getHash env ∈ s.knownAt k

def toldAt (s : NetNode) (k : Nat) : Nat := (s.streamAt k).countP (NetMessage.carries x)

def StoreOk (s : NetNode) : Prop := ∀ item ∈ s.mapAlerts,
  item = (x.getHash env, x) ∨ item.1 ≠ x.getHash env ∧ item.2.revokes x = false

-- What one step of a node does to the k-th connection, m being the message on the i-th.
inductive Tells (i k : Nat) (m : NetMessage) (s s' : NetNode) (ms : List NetMessage) : Prop where
  | silent (unsaid : ∀ m' ∈ ms, m'.carries x = false) (kept : s.Knows env x k → s'.Knows env x k)
      (heard : s'.Knows env x k → s.Knows env x k ∨ k = i ∧ m.carries x = true)
  | tells (one : ms.countP (NetMessage.carries x) = 1) (unknown : ¬s.Knows env x k)
      (known : s'.Knows env x k) (holds : s'.Holds env x)

structure AlertStep (i : Nat) (m : NetMessage) (s s' : NetNode) : Prop where
  store : s'.StoreOk env x
  length : s'.vNodes.length = s.vNodes.length
  holds : s.Holds env x → s'.Holds env x
  accepts : m.carries x = true → s'.Holds env x
  offers : s'.Holds env x → s.Holds env x ∨ ∀ k < s'.vNodes.length, s'.Knows env x k
  peers : ∀ k, ∃ ms, s'.streamAt k = s.streamAt k ++ ms ∧ Tells env x i k m s s' ms

end NetNode

inductive AlertOutcome (c : NetEnv) (vchMsg vchSig : VchType) (mapAlerts : List (Uint256 × CAlert)) :
    Option CAlert × List (Uint256 × CAlert) → Prop
  | refused (expired : ∀ a, CAlert.checkSignature c vchMsg vchSig = some a →
      a.isInEffect c.node.nNow = false) : AlertOutcome c vchMsg vchSig mapAlerts (none, mapAlerts)
  | cancelled (a : CAlert) (signed : CAlert.checkSignature c vchMsg vchSig = some a)
      (inEffect : a.isInEffect c.node.nNow = true)
      (cancels : ∃ item ∈ mapAlerts.filter (keepsAlert c.node.nNow a),
        item.2.cancels c.node.nNow a = true) :
      AlertOutcome c vchMsg vchSig mapAlerts (none, mapAlerts.filter (keepsAlert c.node.nNow a))
  | accepted (a : CAlert) (signed : CAlert.checkSignature c vchMsg vchSig = some a)
      (inEffect : a.isInEffect c.node.nNow = true)
      (free : ∀ item ∈ mapAlerts.filter (keepsAlert c.node.nNow a),
        item.2.cancels c.node.nNow a = false) :
      AlertOutcome c vchMsg vchSig mapAlerts (some a, insertAlert (a.getHash c.node.env) a
        (mapAlerts.filter (keepsAlert c.node.nNow a)))

section OneNode

variable {env : Env} {x : CAlert} {c : NetEnv} {s s' : NetNode} {i : Nat} {m : NetMessage}

theorem carries_of_off (h : m.isAlert = false) : m.carries x = false := by
  cases m with
  | alert vchMsg vchSig => cases h
  | inv vInv => rfl
  | getdata vInv => rfl
  | getblocks vHave hashStop => rfl
  | block b => rfl
  | tx vRecv => rfl

theorem mem_insertAlert {hash : Uint256} {a : CAlert} {l : List (Uint256 × CAlert)}
    {item : Uint256 × CAlert} (h : item ∈ insertAlert hash a l) : item = (hash, a) ∨ item ∈ l := by
  induction l with
  | nil => exact .inl (List.mem_singleton.mp h)
  | cons first rest ih =>
    rw [insertAlert] at h
    split at h
    · exact List.mem_cons.mp h
    · split at h
      · exact .inr h
      · rcases List.mem_cons.mp h with rfl | h
        · exact .inr List.mem_cons_self
        · exact (ih h).imp_right (List.mem_cons_of_mem first)

theorem subset_insertAlert (hash : Uint256) (a : CAlert) (l : List (Uint256 × CAlert)) :
    l ⊆ insertAlert hash a l := by
  induction l with
  | nil => exact List.nil_subset _
  | cons first rest ih =>
    rw [insertAlert]
    split
    · exact List.subset_cons_self _ _
    · split
      · exact List.Subset.refl _
      · exact List.cons_subset_cons first ih

theorem insertAlert_key (hash : Uint256) (a : CAlert) (l : List (Uint256 × CAlert)) :
    ∃ item ∈ insertAlert hash a l, item.1 = hash := by
  induction l with
  | nil => exact ⟨_, List.mem_singleton_self _, rfl⟩
  | cons first rest ih =>
    rw [insertAlert]
    split
    · exact ⟨_, List.mem_cons_self, rfl⟩
    · split
      · next heq => exact ⟨first, List.mem_cons_self, heq.symm⟩
      · obtain ⟨item, hmem, hkey⟩ := ih
        exact ⟨item, List.mem_cons_of_mem _ hmem, hkey⟩

theorem checkSignature_bytes {vchMsg vchSig : VchType} {a : CAlert}
    (h : CAlert.checkSignature c vchMsg vchSig = some a) : a.vchMsg = vchMsg ∧ a.vchSig = vchSig := by
  unfold CAlert.checkSignature at h
  dsimp only at h
  split at h
  · cases h
  · split at h
    · cases h
    · split at h
      · cases h
      · obtain ⟨r, -, rfl⟩ := Option.map_eq_some_iff.mp h
        exact ⟨rfl, rfl⟩

theorem checkSignature_verified {vchMsg vchSig : VchType} {a : CAlert}
    (h : CAlert.checkSignature c vchMsg vchSig = some a) :
    ∃ key, c.verify key (c.node.env.hash vchMsg) vchSig = true := by
  unfold CAlert.checkSignature at h
  dsimp only at h
  split at h
  · cases h
  · split at h
    · cases h
    · split at h
      · cases h
      · next hverified =>
        rw [Bool.and_eq_true, not_and_or, Bool.not_eq_true', Bool.not_eq_true', Bool.not_eq_false,
          Bool.not_eq_false] at hverified
        rcases hverified with hkey | hkey
        · exact ⟨_, hkey⟩
        · exact ⟨_, hkey⟩

theorem leaves_at (h : LeavesAlerts s s') (k : Nat) :
    s'.knownAt k = s.knownAt k ∧
      ∃ ms, s'.streamAt k = s.streamAt k ++ ms ∧ ∀ m ∈ ms, m.isAlert = false := by
  have hlen := h.vNodes.length_eq
  unfold NetNode.knownAt NetNode.streamAt
  rcases Nat.lt_or_ge k s.vNodes.length with hk | hk
  · have hk' : k < s'.vNodes.length := hlen ▸ hk
    have hpeer : OffAlert s.vNodes[k] s'.vNodes[k] := h.vNodes.get hk hk'
    obtain ⟨hknown, ms, hsend, hoff⟩ := hpeer
    rw [List.getElem?_eq_getElem hk, List.getElem?_eq_getElem hk']
    exact ⟨hknown, ms, hsend, hoff⟩
  · rw [List.getElem?_eq_none hk, List.getElem?_eq_none (hlen ▸ hk)]
    exact ⟨rfl, [], rfl, fun m hm => absurd hm List.not_mem_nil⟩

theorem LeavesAlerts.alertStep (h : LeavesAlerts s s') (hstore : s.StoreOk env x)
    (hm : m.carries x = true → s.Holds env x) : NetNode.AlertStep env x i m s s' := by
  have hholds : s'.Holds env x ↔ s.Holds env x := by rw [NetNode.Holds, NetNode.Holds, h.mapAlerts]
  refine ⟨?_, h.vNodes.length_eq.symm, hholds.mpr, fun hc => hholds.mpr (hm hc),
    fun hh => .inl (hholds.mp hh), fun k => ?_⟩
  · rw [NetNode.StoreOk, h.mapAlerts]
    exact hstore
  · obtain ⟨hknown, ms, hsend, hoff⟩ := leaves_at h k
    have hknows : s'.Knows env x k ↔ s.Knows env x k := by
      rw [NetNode.Knows, NetNode.Knows, hknown]
    exact ⟨ms, hsend, .silent (fun m' hm' => carries_of_off (hoff m' hm')) hknows.mpr
      fun hk => .inl (hknows.mp hk)⟩

theorem peer_at {f : CNode → CNode} {g : CNode → CNode} (stored : NetNode) (i k : Nat) :
    ((stored.onNode i f).onAll g).vNodes[k]? =
      (stored.vNodes[k]?).map fun n => g (if i = k then f n else n) := by
  rw [NetNode.onAll, NetNode.onNode, List.getElem?_map, List.getElem?_modify]
  cases stored.vNodes[k]? with
  | none => rfl
  | some n => split <;> rfl

theorem relayTo_other {a : CAlert} (hhash : a.getHash c.node.env ≠ x.getHash env)
    (hbytes : ¬(a.vchMsg = x.vchMsg ∧ a.vchSig = x.vchSig)) (n : CNode) :
    (x.getHash env ∈ (a.relayTo c n).setKnown ↔ x.getHash env ∈ n.setKnown) ∧
      ∃ ms, (a.relayTo c n).vSend = n.vSend ++ ms ∧ ∀ m ∈ ms, m.carries x = false := by
  have hinsert : x.getHash env ∈ insert (a.getHash c.node.env) n.setKnown ↔
      x.getHash env ∈ n.setKnown := by
    rw [Finset.mem_insert, or_iff_right (Ne.symm hhash)]
  unfold CAlert.relayTo
  dsimp only
  split
  · exact ⟨Iff.rfl, [], (List.append_nil _).symm, fun m hm => absurd hm List.not_mem_nil⟩
  · split
    · exact ⟨Iff.rfl, [], (List.append_nil _).symm, fun m hm => absurd hm List.not_mem_nil⟩
    · split
      · refine ⟨hinsert, _, rfl, fun m hm => ?_⟩
        rw [List.mem_singleton.mp hm]
        exact decide_eq_false hbytes
      · exact ⟨hinsert, [], (List.append_nil _).symm, fun m hm => absurd hm List.not_mem_nil⟩

theorem relayTo_same (h : AlertLive env x c) (n : CNode) :
    x.getHash env ∈ (x.relayTo c n).setKnown ∧
      (x.getHash env ∈ n.setKnown ∧ (x.relayTo c n).vSend = n.vSend ∨
        x.getHash env ∉ n.setKnown ∧
          (x.relayTo c n).vSend = n.vSend ++ [.alert x.vchMsg x.vchSig]) := by
  have hspread : (x.appliesTo c.node.nNow n.nVersion n.strSubVer || x.appliesToMe c.node.nNow ||
      decide ((c.node.nNow : Int) < x.nRelayUntil)) = true := by
    rcases h.spreads with hme | huntil
    · rw [hme, Bool.or_true, Bool.true_or]
    · rw [decide_eq_true huntil, Bool.or_true]
  rw [CAlert.relayTo, h.inEffect, h.env_eq, if_neg (by decide)]
  split
  · next hknown => exact ⟨hknown, .inl ⟨hknown, rfl⟩⟩
  · next hnew =>
    exact ⟨Finset.mem_insert_self _ _, .inr ⟨hnew, rfl⟩⟩

-- what is left of the store once another alert has been taken in
theorem kept_holds (h : AlertLive env x c) {a : CAlert} (hrevokes : a.revokes x = false)
    (hstore : s.StoreOk env x) :
    ((x.getHash env, x) ∈ s.mapAlerts.filter (keepsAlert c.node.nNow a) ↔ s.Holds env x) ∧
      ∀ item ∈ s.mapAlerts.filter (keepsAlert c.node.nNow a),
        item = (x.getHash env, x) ∨ item.1 ≠ x.getHash env ∧ item.2.revokes x = false := by
  refine ⟨?_, fun item hitem => hstore item (List.mem_of_mem_filter hitem)⟩
  rw [List.mem_filter, NetNode.Holds, keepsAlert, CAlert.cancels, hrevokes, Bool.and_false,
    h.inEffect]
  exact and_iff_left rfl

theorem silent_at (k : Nat) (hknown : s'.knownAt k = s.knownAt k)
    (hsend : s'.streamAt k = s.streamAt k) :
    ∃ ms, s'.streamAt k = s.streamAt k ++ ms ∧ NetNode.Tells env x i k m s s' ms := by
  have hknows : s'.Knows env x k ↔ s.Knows env x k := by rw [NetNode.Knows, NetNode.Knows, hknown]
  refine ⟨[], by rw [hsend, List.append_nil], .silent ?_ hknows.mpr fun hk => .inl (hknows.mp hk)⟩
  exact fun m hm => absurd hm List.not_mem_nil

theorem processAlert_cases (c : NetEnv) (vchMsg vchSig : VchType)
    (mapAlerts : List (Uint256 × CAlert)) :
    AlertOutcome c vchMsg vchSig mapAlerts (CAlert.processAlert c vchMsg vchSig mapAlerts) := by
  unfold CAlert.processAlert
  split
  · next hnone => exact .refused fun a ha => by cases hnone.symm.trans ha
  · next a hsigned =>
    split
    · next hexpired =>
      refine .refused fun b hb => ?_
      cases hsigned.symm.trans hb
      exact Bool.not_eq_true' _ |>.mp hexpired
    · next hin =>
      have hin : a.isInEffect c.node.nNow = true := by simpa using hin
      dsimp only
      split
      · next hcancel => exact .cancelled a hsigned hin (List.any_eq_true.mp hcancel)
      · next hfree =>
        refine .accepted a hsigned hin fun item hitem => ?_
        exact Bool.eq_false_iff.mpr fun hc => hfree (List.any_eq_true.mpr ⟨item, hitem, hc⟩)

theorem processAlert_none {vchMsg vchSig : VchType} {m' : List (Uint256 × CAlert)}
    (h : CAlert.processAlert c vchMsg vchSig s.mapAlerts = (none, m')) :
    s.processAlert c i vchMsg vchSig = s.withAlerts m' := by
  rw [NetNode.processAlert, h]

theorem processAlert_some {vchMsg vchSig : VchType} {a : CAlert} {m' : List (Uint256 × CAlert)}
    (h : CAlert.processAlert c vchMsg vchSig s.mapAlerts = (some a, m')) :
    s.processAlert c i vchMsg vchSig = ((s.withAlerts m').onNode i
      (CNode.addKnown (a.getHash c.node.env))).onAll (a.relayTo c) := by
  rw [NetNode.processAlert, h]

theorem silent_peer {g : CNode → CNode} {k : Nat}
    (hget : s'.vNodes[k]? = (s.vNodes[k]?).map g)
    (hg : ∀ n, (x.getHash env ∈ (g n).setKnown ↔ x.getHash env ∈ n.setKnown) ∧
      ∃ ms, (g n).vSend = n.vSend ++ ms ∧ ∀ m ∈ ms, m.carries x = false) :
    ∃ ms, s'.streamAt k = s.streamAt k ++ ms ∧ NetNode.Tells env x i k m s s' ms := by
  cases hk : s.vNodes[k]? with
  | none =>
    have hk' : s'.vNodes[k]? = none := by rw [hget, hk, Option.map_none]
    refine silent_at k ?_ ?_
    · rw [NetNode.knownAt, NetNode.knownAt, hk, hk']
    · rw [NetNode.streamAt, NetNode.streamAt, hk, hk']
  | some n =>
    have hk' : s'.vNodes[k]? = some (g n) := by rw [hget, hk, Option.map_some]
    obtain ⟨hknown, ms, hsend, hms⟩ := hg n
    have hknows : s'.Knows env x k ↔ s.Knows env x k := by
      rw [NetNode.Knows, NetNode.Knows, NetNode.knownAt, NetNode.knownAt, hk, hk']
      exact hknown
    refine ⟨ms, ?_, .silent hms hknows.mpr fun h => .inl (hknows.mp h)⟩
    rw [NetNode.streamAt, NetNode.streamAt, hk, hk']
    exact hsend

theorem processAlert_other (h : AlertLive env x c) {vchMsg vchSig : VchType}
    (hother : ¬(vchMsg = x.vchMsg ∧ vchSig = x.vchSig)) (hstore : s.StoreOk env x) :
    NetNode.AlertStep env x i (.alert vchMsg vchSig) s (s.processAlert c i vchMsg vchSig) := by
  have hsource : ∀ {a}, CAlert.checkSignature c vchMsg vchSig = some a →
      a.getHash env ≠ x.getHash env ∧ a.revokes x = false := by
    intro a ha
    refine h.alone vchMsg vchSig a ha ?_
    rintro rfl
    obtain ⟨hmsg, hsig⟩ := checkSignature_bytes ha
    exact hother ⟨hmsg.symm, hsig.symm⟩
  have hnot : ¬(NetMessage.alert vchMsg vchSig).carries x = true :=
    fun hc => hother (of_decide_eq_true hc)
  generalize hr : CAlert.processAlert c vchMsg vchSig s.mapAlerts = r
  have hcases := processAlert_cases c vchMsg vchSig s.mapAlerts
  rw [hr] at hcases
  cases hcases with
  | refused =>
    rw [processAlert_none hr]
    exact ⟨hstore, rfl, id, fun hc => absurd hc hnot, .inl, fun k => silent_at k rfl rfl⟩
  | cancelled a hsigned =>
    obtain ⟨hkept, hkeptOk⟩ := kept_holds h (hsource hsigned).2 hstore
    rw [processAlert_none hr]
    exact ⟨hkeptOk, rfl, hkept.mpr, fun hc => absurd hc hnot, fun hh => .inl (hkept.mp hh),
      fun k => silent_at k rfl rfl⟩
  | accepted a hsigned =>
    obtain ⟨hhash, hrevokes⟩ := hsource hsigned
    obtain ⟨hkept, hkeptOk⟩ := kept_holds h hrevokes hstore
    obtain ⟨hmsg, hsig⟩ := checkSignature_bytes hsigned
    rw [processAlert_some hr]
    refine ⟨fun item hitem => ?_, ?_, fun hh => ?_, fun hc => absurd hc hnot, fun hh => .inl ?_, fun k => ?_⟩
    · rcases mem_insertAlert hitem with rfl | hold
      · rw [h.env_eq]
        exact .inr ⟨hhash, hrevokes⟩
      · exact hkeptOk item hold
    · rw [NetNode.onAll, NetNode.onNode, List.length_map, List.length_modify]
      rfl
    · exact subset_insertAlert _ _ _ (hkept.mpr hh)
    · rcases mem_insertAlert hh with heq | hold
      · rw [h.env_eq] at heq
        exact absurd (congrArg Prod.fst heq).symm hhash
      · exact hkept.mp hold
    · refine silent_peer (peer_at _ i k) fun n => ?_
      have hheard : (x.getHash env ∈ (if i = k then n.addKnown (a.getHash c.node.env) else n).setKnown ↔
          x.getHash env ∈ n.setKnown) ∧
          (if i = k then n.addKnown (a.getHash c.node.env) else n).vSend = n.vSend := by
        rw [h.env_eq]
        split
        · exact ⟨by rw [CNode.addKnown, Finset.mem_insert, or_iff_right (Ne.symm hhash)], rfl⟩
        · exact ⟨Iff.rfl, rfl⟩
      obtain ⟨hknown, ms, hsend, hoff⟩ := @relayTo_other env x c a (h.env_eq ▸ hhash)
        (fun hb => hother ⟨hmsg ▸ hb.1, hsig ▸ hb.2⟩) (if i = k then n.addKnown (a.getHash c.node.env) else n)
      exact ⟨hknown.trans hheard.1, ms, hsend.trans (by rw [hheard.2]), hoff⟩

theorem told_peer (h : AlertLive env x c) {k : Nat}
    (hget : s'.vNodes[k]? = (s.vNodes[k]?).map fun n =>
      x.relayTo c (if i = k then n.addKnown (x.getHash c.node.env) else n))
    (hholds : s'.Holds env x) (hm : m.carries x = true) :
    (k < s'.vNodes.length → s'.Knows env x k) ∧
      ∃ ms, s'.streamAt k = s.streamAt k ++ ms ∧ NetNode.Tells env x i k m s s' ms := by
  cases hk : s.vNodes[k]? with
  | none =>
    have hk' : s'.vNodes[k]? = none := by rw [hget, hk, Option.map_none]
    refine ⟨fun hlt => absurd hlt (List.getElem?_eq_none_iff.mp hk').not_gt, silent_at k ?_ ?_⟩
    · rw [NetNode.knownAt, NetNode.knownAt, hk, hk']
    · rw [NetNode.streamAt, NetNode.streamAt, hk, hk']
  | some n =>
    generalize hheard : (if i = k then n.addKnown (x.getHash c.node.env) else n) = heard at hget
    have hk' : s'.vNodes[k]? = some (x.relayTo c heard) := by
      rw [hget, hk, Option.map_some, hheard]
    obtain ⟨hknown, htold⟩ := relayTo_same h heard
    have hknows' : s'.Knows env x k := by
      rw [NetNode.Knows, NetNode.knownAt, hk']
      exact hknown
    have hknows : s.Knows env x k ↔ x.getHash env ∈ n.setKnown := by
      rw [NetNode.Knows, NetNode.knownAt, hk]
      rfl
    have hsend : heard.vSend = n.vSend := by
      rw [← hheard]
      split <;> rfl
    refine ⟨fun _ => hknows', ?_⟩
    rw [NetNode.streamAt, NetNode.streamAt, hk, hk']
    rcases htold with ⟨hold, hquiet⟩ | ⟨hnew, hsaid⟩
    · refine ⟨[], by rw [List.append_nil]; exact hquiet.trans hsend, .silent ?_ (fun _ => hknows') ?_⟩
      · exact fun m hm => absurd hm List.not_mem_nil
      · intro _
        by_cases hik : i = k
        · exact .inr ⟨hik.symm, hm⟩
        · rw [if_neg hik] at hheard
          rw [← hheard] at hold
          exact .inl (hknows.mpr hold)
    · have hik : i ≠ k := by
        intro hik
        rw [if_pos hik] at hheard
        rw [← hheard, h.env_eq] at hnew
        exact hnew (Finset.mem_insert_self _ _)
      rw [if_neg hik] at hheard
      rw [← hheard] at hnew
      refine ⟨_, hsaid.trans (by rw [hsend]; rfl), .tells ?_ (fun hk => hnew (hknows.mp hk)) hknows' hholds⟩
      simp [NetMessage.carries]

theorem processAlert_same (h : AlertLive env x c) (hstore : s.StoreOk env x) :
    NetNode.AlertStep env x i (.alert x.vchMsg x.vchSig) s
      (s.processAlert c i x.vchMsg x.vchSig) := by
  generalize hr : CAlert.processAlert c x.vchMsg x.vchSig s.mapAlerts = r
  have hcases := processAlert_cases c x.vchMsg x.vchSig s.mapAlerts
  rw [hr] at hcases
  cases hcases with
  | refused expired =>
    have hno := expired x h.signed
    rw [h.inEffect] at hno
    cases hno
  | cancelled a hsigned _ hcancels =>
    obtain rfl := Option.some.inj (h.signed.symm.trans hsigned)
    obtain ⟨item, hitem, hcancel⟩ := hcancels
    obtain ⟨hmem, hkeeps⟩ := List.mem_filter.mp hitem
    rcases hstore item hmem with rfl | ⟨-, hrevokes⟩
    · rw [keepsAlert, hcancel] at hkeeps
      cases hkeeps
    · rw [CAlert.cancels, hrevokes, Bool.and_false] at hcancel
      cases hcancel
  | accepted a hsigned =>
    obtain rfl := Option.some.inj (h.signed.symm.trans hsigned)
    have hstore' : ∀ item ∈ insertAlert (x.getHash c.node.env) x
        (s.mapAlerts.filter (keepsAlert c.node.nNow x)),
        item = (x.getHash env, x) ∨ item.1 ≠ x.getHash env ∧ item.2.revokes x = false := by
      intro item hitem
      rw [h.env_eq] at hitem
      rcases mem_insertAlert hitem with rfl | hold
      · exact .inl rfl
      · exact hstore item (List.mem_of_mem_filter hold)
    have hholds : (x.getHash env, x) ∈ insertAlert (x.getHash c.node.env) x
        (s.mapAlerts.filter (keepsAlert c.node.nNow x)) := by
      obtain ⟨item, hitem, hkey⟩ := insertAlert_key (x.getHash c.node.env) x
        (s.mapAlerts.filter (keepsAlert c.node.nNow x))
      rcases hstore' item hitem with rfl | ⟨hother, -⟩
      · exact hitem
      · rw [h.env_eq] at hkey
        exact absurd hkey hother
    rw [processAlert_some hr]
    have hcarries : (NetMessage.alert x.vchMsg x.vchSig).carries x = true := decide_eq_true ⟨rfl, rfl⟩
    generalize insertAlert (x.getHash c.node.env) x (s.mapAlerts.filter (keepsAlert c.node.nNow x)) =
      stored at hstore' hholds ⊢
    have hpeer := fun k => told_peer (s := s) h (peer_at (f := CNode.addKnown (x.getHash c.node.env))
      (g := x.relayTo c) (s.withAlerts stored) i k) hholds hcarries
    refine ⟨hstore', ?_, fun _ => hholds, fun _ => hholds, fun _ => .inr fun k hk => (hpeer k).1 hk,
      fun k => (hpeer k).2⟩
    rw [NetNode.onAll, NetNode.onNode, List.length_map, List.length_modify]
    rfl

theorem processMessage_step (h : AlertLive env x c) (hstore : s.StoreOk env x) :
    NetNode.AlertStep env x i m s (s.processMessage c i m) := by
  cases hm : m.isAlert with
  | false =>
    refine (processMessage_leaves hm c i s).alertStep hstore fun hc => ?_
    rw [carries_of_off hm] at hc
    cases hc
  | true =>
    cases m with
    | alert vchMsg vchSig =>
      change NetNode.AlertStep env x i _ s (s.processAlert c i vchMsg vchSig)
      by_cases hsame : vchMsg = x.vchMsg ∧ vchSig = x.vchSig
      · obtain ⟨rfl, rfl⟩ := hsame
        exact processAlert_same h hstore
      · exact processAlert_other h hsame hstore
    | inv vInv => cases hm
    | getdata vInv => cases hm
    | getblocks vHave hashStop => cases hm
    | block b => cases hm
    | tx vRecv => cases hm

end OneNode

end Namecoin
