import Namecoin.Net.AlertFlood

namespace Namecoin

def strInvalidChain : StdString :=
  str "WARNING: Displayed transactions may not be correct!  You may need to upgrade, or other nodes may need to upgrade."

def longerInvalidChain (s : NodeState) : Bool :=
  match s.pindexBest.bind s.mapBlockIndex with
  | none => false
  | some pindexBest =>
    decide (s.bnBestChainWork + getBlockWork pindexBest.nBits * 6 < s.bnBestInvalidWork)

-- The priority and the status bar text before the alerts are looked at.
def baseWarning (strMiscWarning : StdString) (s : NodeState) : Int × StdString :=
  if longerInvalidChain s then (2000, strInvalidChain)
  else if strMiscWarning ≠ [] then (1000, strMiscWarning)
  else (0, [])

def showAlert (now : Int) (shown : Int × StdString) (item : Uint256 × CAlert) : Int × StdString :=
  if item.2.appliesToMe now && decide (shown.1 < item.2.nPriority) then
    (item.2.nPriority, item.2.strStatusBar)
  else shown

def getWarnings (fTestSafeMode : Bool) (strMiscWarning : StdString) (now : Int) (s : NetNode)
    (strFor : StdString) : Except Fault StdString :=
  if strFor = str "statusbar" then
    .ok (s.mapAlerts.foldl (showAlert now) (baseWarning strMiscWarning s.state)).2
  else if strFor = str "rpc" then
    .ok (if longerInvalidChain s.state then strInvalidChain
      else if fTestSafeMode then str "test" else [])
  else .error .assertion

structure SameKeys (c0 c : NetEnv) : Prop where
  env : c.node.env = c0.node.env
  setPubKey : c.setPubKey = c0.setPubKey
  verify : c.verify = c0.verify

structure AlertsOk (c0 : NetEnv) (mapAlerts : List (Uint256 × CAlert)) : Prop where
  sorted : mapAlerts.Pairwise fun a b => a.1 < b.1
  genuine : ∀ item ∈ mapAlerts, item.1 = item.2.getHash c0.node.env ∧
    CAlert.checkSignature c0 item.2.vchMsg item.2.vchSig = some item.2
  free : ∀ a ∈ mapAlerts, ∀ b ∈ mapAlerts, a.1 ≠ b.1 → a.2.revokes b.2 = false

structure ShowsTop (now : Int) (mapAlerts : List (Uint256 × CAlert)) (base shown : Int × StdString) :
    Prop where
  top : ∀ item ∈ mapAlerts, item.2.appliesToMe now = true → item.2.nPriority ≤ shown.1
  source : shown = base ∨ base.1 < shown.1 ∧ ∃ item ∈ mapAlerts, item.2.appliesToMe now = true ∧
    shown = (item.2.nPriority, item.2.strStatusBar)
  atLeast : base.1 ≤ shown.1

section Store

variable {c0 c : NetEnv} {mapAlerts : List (Uint256 × CAlert)} {now : Int}

theorem SameKeys.checkSignature_eq (h : SameKeys c0 c) (vchMsg vchSig : VchType) :
    CAlert.checkSignature c vchMsg vchSig = CAlert.checkSignature c0 vchMsg vchSig := by
  rw [CAlert.checkSignature, CAlert.checkSignature, h.env, h.setPubKey, h.verify]

theorem insertAlert_sorted {hash : Uint256} {a : CAlert}
    (h : mapAlerts.Pairwise fun a b => a.1 < b.1) :
    (insertAlert hash a mapAlerts).Pairwise fun a b => a.1 < b.1 := by
  induction mapAlerts with
  | nil => exact List.pairwise_singleton _ _
  | cons first rest ih =>
    obtain ⟨hfirst, hrest⟩ := List.pairwise_cons.mp h
    rw [insertAlert]
    split
    · next hlt =>
      refine List.pairwise_cons.mpr ⟨fun b hb => ?_, h⟩
      rcases List.mem_cons.mp hb with rfl | hb
      · exact hlt
      · exact BitVec.lt_trans hlt (hfirst b hb)
    · next hle =>
      split
      · exact h
      · next hne =>
        refine List.pairwise_cons.mpr ⟨fun b hb => ?_, ih hrest⟩
        rcases mem_insertAlert hb with rfl | hb
        · exact BitVec.lt_of_le_ne (BitVec.not_lt.mp hle) (Ne.symm hne)
        · exact hfirst b hb

theorem AlertsOk.filter (h : AlertsOk c0 mapAlerts) (p : Uint256 × CAlert → Bool) :
    AlertsOk c0 (mapAlerts.filter p) where
  sorted := h.sorted.filter p
  genuine item hitem := h.genuine item (List.mem_of_mem_filter hitem)
  free a ha b hb := h.free a (List.mem_of_mem_filter ha) b (List.mem_of_mem_filter hb)

theorem AlertsOk.insert {a : CAlert} (h : AlertsOk c0 mapAlerts)
    (hsigned : CAlert.checkSignature c0 a.vchMsg a.vchSig = some a)
    (hkept : ∀ item ∈ mapAlerts, a.revokes item.2 = false)
    (hfree : ∀ item ∈ mapAlerts, item.2.revokes a = false) :
    AlertsOk c0 (insertAlert (a.getHash c0.node.env) a mapAlerts) where
  sorted := insertAlert_sorted h.sorted
  genuine item hitem := by
    rcases mem_insertAlert hitem with rfl | hold
    · exact ⟨rfl, hsigned⟩
    · exact h.genuine item hold
  free x hx y hy hne := by
    rcases mem_insertAlert hx with rfl | hx
    · rcases mem_insertAlert hy with rfl | hy
      · exact absurd rfl hne
      · exact hkept y hy
    · rcases mem_insertAlert hy with rfl | hy
      · exact hfree x hx
      · exact h.free x hx y hy hne

theorem AlertsOk.processAlert (h : AlertsOk c0 mapAlerts) (hkeys : SameKeys c0 c)
    (vchMsg vchSig : VchType) : AlertsOk c0 (CAlert.processAlert c vchMsg vchSig mapAlerts).2 := by
  have hcases := processAlert_cases c vchMsg vchSig mapAlerts
  generalize CAlert.processAlert c vchMsg vchSig mapAlerts = r at hcases
  cases hcases with
  | refused => exact h
  | cancelled a => exact h.filter _
  | accepted a hsigned hin hfree =>
    obtain ⟨hmsg, hsig⟩ := checkSignature_bytes hsigned
    rw [← hmsg, ← hsig, hkeys.checkSignature_eq] at hsigned
    dsimp only
    rw [hkeys.env]
    refine (h.filter _).insert hsigned (fun item hitem => ?_) fun item hitem => ?_
    · have hkeeps := (List.mem_filter.mp hitem).2
      rw [keepsAlert, CAlert.cancels, hin, Bool.true_and, Bool.and_eq_true, Bool.not_eq_true'] at hkeeps
      exact hkeeps.1
    · have hkeeps := (List.mem_filter.mp hitem).2
      have hno := hfree item hitem
      rw [keepsAlert, Bool.and_eq_true] at hkeeps
      rw [CAlert.cancels, hkeeps.2, Bool.true_and] at hno
      exact hno

theorem processAlert_accepts (c : NetEnv) (vchMsg vchSig : VchType)
    (mapAlerts : List (Uint256 × CAlert)) (a : CAlert) :
    (CAlert.processAlert c vchMsg vchSig mapAlerts).1 = some a ↔
      CAlert.checkSignature c vchMsg vchSig = some a ∧ a.isInEffect c.node.nNow = true ∧
        ∀ item ∈ mapAlerts, item.2.isInEffect c.node.nNow = true → a.revokes item.2 = false →
          item.2.revokes a = false := by
  have hkept : ∀ {b : CAlert} {item}, b.isInEffect c.node.nNow = true →
      (item ∈ mapAlerts.filter (keepsAlert c.node.nNow b) ↔ item ∈ mapAlerts ∧
        item.2.isInEffect c.node.nNow = true ∧ b.revokes item.2 = false) := by
    intro b item hin
    rw [List.mem_filter, keepsAlert, CAlert.cancels, hin, Bool.true_and, Bool.and_eq_true,
      Bool.not_eq_true', and_comm (a := b.revokes item.2 = false)]
  have hcases := processAlert_cases c vchMsg vchSig mapAlerts
  generalize CAlert.processAlert c vchMsg vchSig mapAlerts = r at hcases
  cases hcases with
  | refused expired =>
    constructor
    · rintro ⟨⟩
    · rintro ⟨hsigned, hin, -⟩
      rw [expired a hsigned] at hin
      cases hin
  | cancelled b hsigned hin hcancels =>
    constructor
    · rintro ⟨⟩
    · rintro ⟨hsigned', -, hfree⟩
      cases hsigned.symm.trans hsigned'
      obtain ⟨item, hitem, hcancel⟩ := hcancels
      obtain ⟨hmem, hlive, hkeep⟩ := (hkept hin).mp hitem
      rw [CAlert.cancels, hfree item hmem hlive hkeep, Bool.and_false] at hcancel
      cases hcancel
  | accepted b hsigned hin hfree =>
    constructor
    · intro hsome
      cases hsome
      refine ⟨hsigned, hin, fun item hmem hlive hkeep => ?_⟩
      have hno := hfree item ((hkept hin).mpr ⟨hmem, hlive, hkeep⟩)
      rwa [CAlert.cancels, hlive, Bool.true_and] at hno
    · rintro ⟨hsigned', -, -⟩
      exact hsigned.symm.trans hsigned'

theorem showAlert_top (mapAlerts : List (Uint256 × CAlert)) (base : Int × StdString) :
    ShowsTop now mapAlerts base (mapAlerts.foldl (showAlert now) base) := by
  induction mapAlerts generalizing base with
  | nil => exact ⟨fun item hitem => absurd hitem List.not_mem_nil, .inl rfl, le_rfl⟩
  | cons first rest ih =>
    obtain ⟨htop, hsource, hatLeast⟩ := ih (showAlert now base first)
    have hmore : ∀ {item}, item ∈ rest → item ∈ first :: rest := List.mem_cons_of_mem first
    rw [List.foldl_cons]
    by_cases happlies : (first.2.appliesToMe now && decide (base.1 < first.2.nPriority)) = true
    · have hfirst : showAlert now base first = (first.2.nPriority, first.2.strStatusBar) :=
        if_pos happlies
      obtain ⟨hme, hhigher⟩ := Bool.and_eq_true_iff.mp happlies
      have hhigher : base.1 < first.2.nPriority := of_decide_eq_true hhigher
      rw [hfirst] at htop hsource hatLeast ⊢
      refine ⟨List.forall_mem_cons.mpr ⟨fun _ => hatLeast, htop⟩, ?_, hhigher.le.trans hatLeast⟩
      rcases hsource with heq | ⟨hlt, item, hitem, hmine, heq⟩
      · rw [heq]
        exact .inr ⟨hhigher, first, List.mem_cons_self, hme, rfl⟩
      · exact .inr ⟨hhigher.trans hlt, item, hmore hitem, hmine, heq⟩
    · have hfirst : showAlert now base first = base := if_neg happlies
      rw [hfirst] at htop hsource hatLeast ⊢
      refine ⟨List.forall_mem_cons.mpr ⟨fun hme => ?_, htop⟩, ?_, hatLeast⟩
      · rw [hme, Bool.true_and, decide_eq_true_iff, not_lt] at happlies
        exact happlies.trans hatLeast
      · rcases hsource with heq | ⟨hlt, item, hitem, hmine, heq⟩
        · exact .inl heq
        · exact .inr ⟨hlt, item, hmore hitem, hmine, heq⟩

end Store

namespace NetNode

def messageRun (evs : List (NetEnv × Nat × NetMessage)) (s : NetNode) : NetNode :=
  evs.foldl (fun s ev => s.processMessage ev.1 ev.2.1 ev.2.2) s

structure AlertsServed (c0 : NetEnv) (s : NetNode) : Prop where
  ok : AlertsOk c0 s.mapAlerts
  accepts : ∀ c, SameKeys c0 c → ∀ vchMsg vchSig a,
    (CAlert.processAlert c vchMsg vchSig s.mapAlerts).1 = some a ↔
      CAlert.checkSignature c0 vchMsg vchSig = some a ∧ a.isInEffect c.node.nNow = true ∧
        ∀ item ∈ s.mapAlerts, item.2.isInEffect c.node.nNow = true → a.revokes item.2 = false →
          item.2.revokes a = false
  shown : ∀ fTestSafeMode strMiscWarning now, ∃ shown,
    getWarnings fTestSafeMode strMiscWarning now s (str "statusbar") = .ok shown.2 ∧
      ShowsTop now s.mapAlerts (baseWarning strMiscWarning s.state) shown

theorem processMessage_alertsOk {c0 c : NetEnv} {s : NetNode} (h : AlertsOk c0 s.mapAlerts)
    (hkeys : SameKeys c0 c) (i : Nat) (m : NetMessage) :
    AlertsOk c0 (s.processMessage c i m).mapAlerts := by
  cases hm : m.isAlert with
  | false =>
    rw [(processMessage_leaves hm c i s).mapAlerts]
    exact h
  | true =>
    cases m with
    | alert vchMsg vchSig =>
      have hnext := h.processAlert hkeys vchMsg vchSig
      change AlertsOk c0 (s.processAlert c i vchMsg vchSig).mapAlerts
      rw [NetNode.processAlert]
      split
      · exact hnext
      · exact hnext
    | inv vInv => cases hm
    | getdata vInv => cases hm
    | getblocks vHave hashStop => cases hm
    | block b => cases hm
    | tx vRecv => cases hm

theorem alerts_served (c0 : NetEnv) (evs : List (NetEnv × Nat × NetMessage)) (s : NetNode)
    (hkeys : ∀ ev ∈ evs, SameKeys c0 ev.1) (hstart : AlertsOk c0 s.mapAlerts) :
    AlertsServed c0 (messageRun evs s) := by
  have hok : AlertsOk c0 (messageRun evs s).mapAlerts := by
    induction evs generalizing s with
    | nil => exact hstart
    | cons ev rest ih =>
      obtain ⟨hev, hrest⟩ := List.forall_mem_cons.mp hkeys
      exact ih _ hrest (processMessage_alertsOk hstart hev ev.2.1 ev.2.2)
  refine ⟨hok, fun c hc vchMsg vchSig a => ?_, fun fTestSafeMode strMiscWarning now => ?_⟩
  · rw [← hc.checkSignature_eq]
    exact processAlert_accepts c vchMsg vchSig _ a
  · exact ⟨_, if_pos rfl, showAlert_top _ _⟩

theorem sampleAlert_served :
    AlertsServed PeerNet.alertNetEnv (messageRun
      [(PeerNet.alertNetEnv, 0, .alert PeerNet.sampleUnsigned [0x30])] twoPeers) := by
  refine alerts_served PeerNet.alertNetEnv _ twoPeers ?_ ?_
  · exact List.forall_mem_singleton.mpr ⟨rfl, rfl, rfl⟩
  · exact ⟨List.Pairwise.nil, fun item hitem => absurd hitem List.not_mem_nil,
      fun a ha => absurd ha List.not_mem_nil⟩

end NetNode

end Namecoin
