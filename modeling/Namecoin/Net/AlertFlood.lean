import Namecoin.Net.AlertStep
import Namecoin.Net.Network

namespace Namecoin

namespace PeerNet

section Reading

variable {V : Type} {l : Links V} {env : Env} {x : CAlert} {net : PeerNet V}

structure Spread (l : Links V) (env : Env) (x : CAlert) (net : PeerNet V) : Prop where
  store : ∀ v, (net.node v).StoreOk env x
  wired : ∀ v i w j, l.peer v i = some (w, j) → i < (net.node v).vNodes.length
  read : ∀ v i, net.nRead v i ≤ ((net.node v).streamAt i).length
  once : ∀ v i, (net.node v).toldAt x i = 0 ∨
    (net.node v).toldAt x i = 1 ∧ (net.node v).Holds env x ∧ (net.node v).Knows env x i
  covered : ∀ v i w j, l.peer v i = some (w, j) → (net.node v).Knows env x i →
    (net.node w).Holds env x ∨ ∃ m ∈ net.unread v i, m.carries x = true
  offered : ∀ v, (net.node v).Holds env x → ∀ i < (net.node v).vNodes.length,
    (net.node v).Knows env x i

theorem Spread.toldHolds (h : Spread l env x net) {v : V} {i : Nat} {m : NetMessage}
    (hm : m ∈ net.unread v i) (hc : m.carries x = true) : (net.node v).Holds env x := by
  rcases h.once v i with hnone | ⟨-, hholds, -⟩
  · have hall := List.countP_eq_zero.mp hnone m (List.mem_of_mem_drop hm)
    exact absurd hc hall
  · exact hholds

theorem Spread.drop_append (h : Spread l env x net) {v : V} {k : Nat} (ms : List NetMessage) :
    ((net.node v).streamAt k ++ ms).drop (net.nRead v k) = net.unread v k ++ ms :=
  List.drop_append_of_le_length (h.read v k)

-- a network that has not heard of the alert
structure Unheard (l : Links V) (env : Env) (x : CAlert) (net : PeerNet V) : Prop where
  store : ∀ v, ∀ item ∈ (net.node v).mapAlerts,
    item.1 ≠ x.getHash env ∧ item.2.revokes x = false
  wired : ∀ v i w j, l.peer v i = some (w, j) → i < (net.node v).vNodes.length
  read : ∀ v i, net.nRead v i ≤ ((net.node v).streamAt i).length
  untold : ∀ v i, (net.node v).toldAt x i = 0
  unknown : ∀ v i, ¬(net.node v).Knows env x i

theorem Unheard.spread (h : Unheard l env x net) : Spread l env x net where
  store v item hitem := .inr (h.store v item hitem)
  wired := h.wired
  read := h.read
  once v i := .inl (h.untold v i)
  covered v i _ _ _ hknows := absurd hknows (h.unknown v i)
  offered v hholds := absurd rfl (h.store v _ hholds).1

def Linked (l : Links V) (v w : V) : Prop := ∃ i j, l.peer v i = some (w, j)

def Quiet (x : CAlert) (net : PeerNet V) : Prop :=
  ∀ v i, ∀ m ∈ net.unread v i, m.carries x = false

theorem Spread.linked (h : Spread l env x net) (hquiet : Quiet x net) {v w : V}
    (hpath : Relation.ReflTransGen (Linked l) v w) (hv : (net.node v).Holds env x) :
    (net.node w).Holds env x := by
  induction hpath with
  | refl => exact hv
  | tail _ hlink ih =>
    obtain ⟨i, j, hpeer⟩ := hlink
    have hknows := h.offered _ ih i (h.wired _ i _ j hpeer)
    rcases h.covered _ i _ j hpeer hknows with hholds | ⟨m, hm, hc⟩
    · exact hholds
    · rw [hquiet _ i m hm] at hc
      cases hc

end Reading

variable {V : Type} [DecidableEq V] {l : Links V} {env : Env} {x : CAlert} {net : PeerNet V}

theorem Spread.update (h : Spread l env x net) {v : V} {i : Nat} {m : NetMessage} {s' : NetNode}
    (hstep : NetNode.AlertStep env x i m (net.node v) s')
    (hsource : m.carries x = true → ∀ w j, l.peer v i = some (w, j) → (net.node w).Holds env x) :
    Spread l env x { net with node := Function.update net.node v s' } := by
  have hself : Function.update net.node v s' v = s' := Function.update_self v s' net.node
  have hother : ∀ u, u ≠ v → Function.update net.node v s' u = net.node u :=
    fun u hu => Function.update_of_ne hu s' net.node
  have hholds : ∀ w, (net.node w).Holds env x → (Function.update net.node v s' w).Holds env x := by
    intro w hw
    by_cases hwv : w = v
    · subst hwv
      rw [hself]
      exact hstep.holds hw
    · rwa [hother w hwv]
  refine ⟨fun u => ?_, fun u k w j hpeer => ?_, fun u k => ?_, fun u k => ?_,
    fun u k w j hpeer hknows => ?_, fun u hh k hk => ?_⟩
  all_goals dsimp only at *
  · by_cases hu : u = v
    · subst hu
      rw [hself]
      exact hstep.store
    · rw [hother u hu]
      exact h.store u
  · by_cases hu : u = v
    · subst hu
      rw [hself, hstep.length]
      exact h.wired u k w j hpeer
    · rw [hother u hu]
      exact h.wired u k w j hpeer
  · by_cases hu : u = v
    · subst hu
      obtain ⟨ms, hsend, -⟩ := hstep.peers k
      rw [hself, hsend, List.length_append]
      exact (h.read u k).trans (Nat.le_add_right _ _)
    · rw [hother u hu]
      exact h.read u k
  · by_cases hu : u = v
    · subst hu
      obtain ⟨ms, hsend, htells⟩ := hstep.peers k
      have hsum : s'.toldAt x k =
          (net.node u).toldAt x k + ms.countP (NetMessage.carries x) := by
        rw [NetNode.toldAt, NetNode.toldAt, hsend, List.countP_append]
      rw [hself, hsum]
      cases htells with
      | silent hunsaid hkept =>
        rw [List.countP_eq_zero.mpr fun m' hm' => by rw [hunsaid m' hm']; decide]
        rcases h.once u k with hnone | ⟨hone, hh, hk⟩
        · exact .inl hnone
        · exact .inr ⟨hone, hstep.holds hh, hkept hk⟩
      | tells hone hunknown hknown hh =>
        rcases h.once u k with hnone | ⟨-, -, hk⟩
        · exact .inr ⟨by rw [hnone, hone], hh, hknown⟩
        · exact absurd hk hunknown
    · rw [hother u hu]
      exact h.once u k
  · by_cases hu : u = v
    · subst hu
      rw [hself] at hknows
      obtain ⟨ms, hsend, htells⟩ := hstep.peers k
      have hunread : ∀ m' ∈ net.unread u k ++ ms,
          m' ∈ (s'.streamAt k).drop (net.nRead u k) := by
        rw [hsend, h.drop_append]
        exact fun m' hm' => hm'
      rw [unread]
      dsimp only
      rw [hself]
      cases htells with
      | silent hunsaid hkept hheard =>
        rcases hheard hknows with hold | ⟨rfl, hc⟩
        · rcases h.covered u k w j hpeer hold with hw | ⟨m', hm', hc⟩
          · exact .inl (hholds w hw)
          · exact .inr ⟨m', hunread m' (List.mem_append_left _ hm'), hc⟩
        · exact .inl (hholds w (hsource hc w j hpeer))
      | tells hone =>
        obtain ⟨m', hm', hc⟩ := List.countP_pos_iff.mp (hone ▸ Nat.one_pos)
        exact .inr ⟨m', hunread m' (List.mem_append_right _ hm'), hc⟩
    · rw [hother u hu] at hknows
      rw [unread]
      dsimp only
      rw [hother u hu]
      exact (h.covered u k w j hpeer hknows).imp_left (hholds w)
  · by_cases hu : u = v
    · subst hu
      rw [hself] at hh hk ⊢
      rcases hstep.offers hh with hold | hall
      · have hknows := h.offered u hold k (hstep.length ▸ hk)
        obtain ⟨ms, -, htells⟩ := hstep.peers k
        cases htells with
        | silent _ hkept => exact hkept hknows
        | tells _ hunknown => exact absurd hknows hunknown
      · exact hall k hk
    · rw [hother u hu] at hh hk ⊢
      exact h.offered u hh k hk

theorem Spread.countRead (h : Spread l env x net) {w : V} {j : Nat} {m : NetMessage}
    {rest : List NetMessage} (hread : net.unread w j = m :: rest)
    (hheard : m.carries x = true → ∀ v i, l.peer w j = some (v, i) → (net.node v).Holds env x) :
    Spread l env x (net.countRead w j) := by
  have hlt : net.nRead w j < ((net.node w).streamAt j).length := by
    by_contra hge
    rw [unread, List.drop_eq_nil_of_le (Nat.not_lt.mp hge)] at hread
    cases hread
  have hrest : ((net.node w).streamAt j).drop (net.nRead w j + 1) = rest := by
    rw [← List.drop_drop]
    exact congrArg (List.drop 1) hread
  have hcount : ∀ u k, (net.countRead w j).nRead u k =
      if u = w ∧ k = j then net.nRead w j + 1 else net.nRead u k := by
    intro u k
    change Function.update net.nRead w (Function.update (net.nRead w) j (net.nRead w j + 1)) u k = _
    by_cases hu : u = w
    · subst hu
      rw [Function.update_self]
      by_cases hk : k = j
      · subst hk
        rw [Function.update_self, if_pos ⟨rfl, rfl⟩]
      · rw [Function.update_of_ne hk, if_neg (fun hc => hk hc.2)]
    · rw [Function.update_of_ne hu, if_neg (fun hc => hu hc.1)]
  refine ⟨h.store, h.wired, fun u k => ?_, h.once, fun u k v i hpeer hknows => ?_, h.offered⟩
  · rw [hcount]
    split
    · next heq =>
      obtain ⟨rfl, rfl⟩ := heq
      exact hlt
    · exact h.read u k
  · rcases h.covered u k v i hpeer hknows with hholds | ⟨m', hm', hc⟩
    · exact .inl hholds
    · rw [unread, hcount]
      split
      · next heq =>
        obtain ⟨rfl, rfl⟩ := heq
        rw [hread] at hm'
        rcases List.mem_cons.mp hm' with rfl | hm'
        · exact .inl (hheard hc v i hpeer)
        · refine .inr ⟨m', ?_, hc⟩
          change m' ∈ ((net.node u).streamAt k).drop (net.nRead u k + 1)
          rwa [hrest]
      · exact .inr ⟨m', hm', hc⟩

theorem Spread.handle (h : Spread l env x net) {c : NetEnv} (hlive : AlertLive env x c) {v : V} {i : Nat}
    {m : NetMessage}
    (hsource : m.carries x = true → ∀ w j, l.peer v i = some (w, j) → (net.node w).Holds env x) :
    Spread l env x (net.handle c v i m) :=
  h.update (processMessage_step hlive (h.store v)) hsource

theorem Spread.handle_unread (h : Spread l env x net) {c : NetEnv} (hlive : AlertLive env x c) {v : V}
    {i : Nat} {m : NetMessage} (w : V) (j : Nat) :
    ∃ ms, (net.handle c v i m).unread w j = net.unread w j ++ ms := by
  have hstep : NetNode.AlertStep env x i m (net.node v) ((net.node v).processMessage c i m) :=
    processMessage_step hlive (h.store v)
  by_cases hw : w = v
  · subst hw
    obtain ⟨ms, hsend, -⟩ := hstep.peers j
    refine ⟨ms, ?_⟩
    change ((Function.update net.node w ((net.node w).processMessage c i m) w).streamAt j).drop
      (net.nRead w j) = _
    rw [Function.update_self, hsend, h.drop_append]
  · refine ⟨[], ?_⟩
    change ((Function.update net.node v ((net.node v).processMessage c i m) w).streamAt j).drop
      (net.nRead w j) = _
    rw [Function.update_of_ne hw, List.append_nil]
    rfl

theorem Spread.step (h : Spread l env x net) {ev : NetEvent V} (hlive : AlertLive env x ev.netEnv) :
    Spread l env x (step l ev net) := by
  cases ev with
  | deliver c v i =>
    rw [PeerNet.step]
    split
    · exact h
    · next other hpeer =>
      obtain ⟨w, j⟩ := other
      rw [PeerNet.deliver]
      split
      · exact h
      · next m rest hread =>
        have hhead : m ∈ net.unread w j := hread ▸ List.mem_cons_self
        have hback := l.symm v i w j hpeer
        have hsource : m.carries x = true → ∀ w' j', l.peer v i = some (w', j') →
            (net.node w').Holds env x := by
          intro hc w' j' hpeer'
          cases hpeer.symm.trans hpeer'
          exact h.toldHolds hhead hc
        have hstep : NetNode.AlertStep env x i m (net.node v) ((net.node v).processMessage c i m) :=
          processMessage_step hlive (h.store v)
        obtain ⟨ms, hunread⟩ := h.handle_unread hlive (v := v) (i := i) (m := m) w j
        rw [hread, List.cons_append] at hunread
        refine (h.handle hlive hsource).countRead hunread fun hc v' i' hpeer' => ?_
        cases hback.symm.trans hpeer'
        change (Function.update net.node v ((net.node v).processMessage c i m) v).Holds env x
        rw [Function.update_self]
        exact hstep.accepts hc
  | receive c v i m =>
    rw [PeerNet.step]
    split
    · next hout =>
      refine h.handle hlive fun _ w j hpeer => ?_
      rw [hpeer] at hout
      cases hout
    · exact h
  | sendMessages c v i fSendTrickle fTrickleWait =>
    have hno : (NetMessage.inv []).carries x = true → False := fun hc => by cases hc
    have hleaves := sendMessages_leaves c.nTime fSendTrickle fTrickleWait i (net.node v)
    exact h.update (i := i) (hleaves.alertStep (h.store v) fun hc => (hno hc).elim)
      fun hc => (hno hc).elim

theorem Spread.step_holds (h : Spread l env x net) {ev : NetEvent V} (hlive : AlertLive env x ev.netEnv)
    {v : V} (hv : (net.node v).Holds env x) : ((PeerNet.step l ev net).node v).Holds env x := by
  have hmove : ∀ {u i m} {s' : NetNode}, NetNode.AlertStep env x i m (net.node u) s' →
      (Function.update net.node u s' v).Holds env x := by
    intro u i m s' hstep
    by_cases hu : v = u
    · subst hu
      rw [Function.update_self]
      exact hstep.holds hv
    · rwa [Function.update_of_ne hu]
  cases ev with
  | deliver c u i =>
    rw [PeerNet.step]
    split
    · exact hv
    · rw [PeerNet.deliver]
      split
      · exact hv
      · exact hmove (processMessage_step hlive (h.store u))
  | receive c u i m =>
    rw [PeerNet.step]
    split
    · exact hmove (processMessage_step hlive (h.store u))
    · exact hv
  | sendMessages c u i fSendTrickle fTrickleWait =>
    have hno : (NetMessage.inv []).carries x = true → (net.node u).Holds env x := fun hc => by cases hc
    have hleaves := sendMessages_leaves c.nTime fSendTrickle fTrickleWait i (net.node u)
    exact hmove (hleaves.alertStep (i := i) (h.store u) hno)

theorem Spread.run (h : Spread l env x net) {evs : List (NetEvent V)}
    (hlive : ∀ ev ∈ evs, AlertLive env x ev.netEnv) : Spread l env x (run l evs net) := by
  induction evs generalizing net with
  | nil => exact h
  | cons ev rest ih =>
    obtain ⟨hev, hrest⟩ := List.forall_mem_cons.mp hlive
    exact ih (h.step hev) hrest

theorem Spread.run_holds (h : Spread l env x net) {evs : List (NetEvent V)}
    (hlive : ∀ ev ∈ evs, AlertLive env x ev.netEnv) {v : V} (hv : (net.node v).Holds env x) :
    ((PeerNet.run l evs net).node v).Holds env x := by
  induction evs generalizing net with
  | nil => exact hv
  | cons ev rest ih =>
    obtain ⟨hev, hrest⟩ := List.forall_mem_cons.mp hlive
    exact ih (h.step hev) hrest (h.step_holds hev hv)

theorem run_append (l : Links V) (before after : List (NetEvent V)) (net : PeerNet V) :
    run l (before ++ after) net = run l after (run l before net) := List.foldl_append

structure Flooded (l : Links V) (env : Env) (x : CAlert) (evs : List (NetEvent V)) (net : PeerNet V) :
    Prop where
  stays : ∀ before after v, evs = before ++ after → ((run l before net).node v).Holds env x →
    ((run l evs net).node v).Holds env x
  taken : ∀ before c v i after, evs = before ++ .receive c v i (.alert x.vchMsg x.vchSig) :: after →
    l.peer v i = none → ((run l evs net).node v).Holds env x
  reaches : Quiet x (run l evs net) → ∀ v w, Relation.ReflTransGen (Linked l) v w →
    ((run l evs net).node v).Holds env x → ((run l evs net).node w).Holds env x
  once : ∀ v i, ((run l evs net).node v).toldAt x i ≤ 1
  honest : ∀ v i, 0 < ((run l evs net).node v).toldAt x i → ((run l evs net).node v).Holds env x

theorem alert_flooded (l : Links V) (env : Env) (x : CAlert) (evs : List (NetEvent V)) (net : PeerNet V)
    (hlive : ∀ ev ∈ evs, AlertLive env x ev.netEnv) (hnew : Unheard l env x net) :
    Flooded l env x evs net := by
  have hspread := hnew.spread
  refine ⟨?_, ?_, fun hquiet v w hpath hv => (hspread.run hlive).linked hquiet hpath hv,
    fun v i => ?_, fun v i htold => ?_⟩
  · rintro before after v rfl hv
    obtain ⟨hbefore, hafter⟩ := List.forall_mem_append.mp hlive
    rw [run_append]
    exact (hspread.run hbefore).run_holds hafter hv
  · rintro before c v i after rfl hout
    obtain ⟨hbefore, hafter⟩ := List.forall_mem_append.mp hlive
    obtain ⟨hev, hrest⟩ := List.forall_mem_cons.mp hafter
    have hmid := hspread.run hbefore
    rw [run_append]
    change ((run l after (step l _ (run l before net))).node v).Holds env x
    refine (hmid.step hev).run_holds hrest ?_
    rw [step, hout, if_pos Option.isNone_none]
    change (Function.update (run l before net).node v _ v).Holds env x
    rw [Function.update_self]
    exact (processMessage_step hev (hmid.store v)).accepts (decide_eq_true ⟨rfl, rfl⟩)
  · rcases (hspread.run hlive).once v i with hnone | ⟨hone, -⟩
    · omega
    · omega
  · rcases (hspread.run hlive).once v i with hnone | ⟨-, hh, -⟩
    · omega
    · exact hh

def sampleUnsigned : List UInt8 :=
  serInt 4 1 ++ serInt 8 2000000000 ++ serInt 8 2000000000 ++ serInt 4 1010 ++ serInt 4 1009 ++
    serVector (serInt 4) [] ++ serInt 4 10000 ++ serInt 4 60000 ++ serVector serBytes [] ++
    serInt 4 100 ++ serBytes [] ++ serBytes [0x55, 0x70] ++ serBytes []

def sampleAlert : CAlert where
  nVersion := 1
  nRelayUntil := 2000000000
  nExpiration := 2000000000
  nID := 1010
  nCancel := 1009
  setCancel := ∅
  nMinVer := 10000
  nMaxVer := 60000
  setSubVer := ∅
  nPriority := 100
  strComment := []
  strStatusBar := [0x55, 0x70]
  strReserved := []
  vchMsg := sampleUnsigned
  vchSig := [0x30]

def alertEnv : Env :=
  { sampleEnv with hash := fun b => if b = sampleUnsigned then 1 else 2 }

def alertNetEnv : NetEnv where
  node := { sampleNodeEnv with env := alertEnv }
  setPubKey _ := true
  verify _ hash vchSig := decide (hash = 1 ∧ vchSig = [0x30])
  nTime := 1400000000
  nSendBufferSize := 10000000

def pairPeer (v : Bool) (i : Nat) : Option (Bool × Nat) := if i = 0 then some (!v, 0) else none

theorem pairPeer_symm (v : Bool) (i : Nat) (w : Bool) (j : Nat) (h : pairPeer v i = some (w, j)) :
    pairPeer w j = some (v, i) := by
  unfold pairPeer at h
  split at h
  · next hi =>
    cases h
    rw [hi, pairPeer, if_pos rfl, Bool.not_not]
  · cases h

def pairLinks : Links Bool := ⟨pairPeer, pairPeer_symm⟩

def quietNet : PeerNet Bool := ⟨fun _ => NetNode.twoPeers, fun _ _ => 0⟩

def alertEvents : List (NetEvent Bool) :=
  [.receive alertNetEnv false 1 (.alert sampleUnsigned [0x30]), .deliver alertNetEnv true 0,
    .deliver alertNetEnv false 0]

theorem sampleAlert_live : AlertLive alertEnv sampleAlert alertNetEnv where
  env_eq := rfl
  signed := by decide +kernel
  inEffect := by decide +kernel
  spreads := .inl (by decide +kernel)
  alone vchMsg vchSig a h hne := by
    obtain ⟨key, hkey⟩ := checkSignature_verified h
    obtain ⟨hhash, hsig⟩ := of_decide_eq_true hkey
    have hmsg : vchMsg = sampleUnsigned := by
      by_contra hother
      change (if vchMsg = sampleUnsigned then (1 : Uint256) else 2) = 1 at hhash
      rw [if_neg hother] at hhash
      exact absurd hhash (by decide)
    rw [hmsg, hsig, show CAlert.checkSignature alertNetEnv sampleUnsigned [0x30] = some sampleAlert by
      decide +kernel] at h
    exact absurd (Option.some.inj h).symm hne

theorem quietNet_unheard : Unheard pairLinks alertEnv sampleAlert quietNet where
  store v item hitem := absurd hitem List.not_mem_nil
  wired v i w j h := by
    rcases i with _ | i
    · exact Nat.zero_lt_two
    · cases h
  read v i := Nat.zero_le _
  untold v i := by
    rcases i with _ | _ | i
    · rfl
    · rfl
    · rfl
  unknown v i := by
    rcases i with _ | _ | i
    · exact Finset.notMem_empty _
    · exact Finset.notMem_empty _
    · exact Finset.notMem_empty _

theorem sampleAlert_flooded :
    Flooded pairLinks alertEnv sampleAlert alertEvents quietNet ∧
      ((run pairLinks alertEvents quietNet).node true).Holds alertEnv sampleAlert := by
  have hlive : ∀ ev ∈ alertEvents, AlertLive alertEnv sampleAlert ev.netEnv := by
    refine List.forall_mem_cons.mpr ⟨sampleAlert_live, List.forall_mem_cons.mpr ⟨sampleAlert_live, ?_⟩⟩
    exact List.forall_mem_singleton.mpr sampleAlert_live
  refine ⟨alert_flooded pairLinks alertEnv sampleAlert alertEvents quietNet hlive quietNet_unheard, ?_⟩
  change (sampleAlert.getHash alertEnv, sampleAlert) ∈ _
  decide +kernel

end PeerNet

end Namecoin
