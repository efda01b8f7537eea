import Namecoin.Net.DataStream
import Mathlib.Logic.Function.Basic

namespace Namecoin

structure CInv where
  type : Int
  hash : Uint256
deriving DecidableEq

structure RelayMemory where
  mapRelay : CInv → Option CDataStream
  vRelayExpiration : List (Int × CInv)

namespace RelayMemory

def empty : RelayMemory := ⟨fun _ => none, []⟩

def expire (now : Int) (mapRelay : CInv → Option CDataStream) :
    List (Int × CInv) → RelayMemory
  | [] => ⟨mapRelay, []⟩
  | front :: rest =>
    if front.1 < now then expire now (Function.update mapRelay front.2 none) rest
    else ⟨mapRelay, front :: rest⟩

def relayMessage (m : RelayMemory) (now : Int) (inv : CInv) (ss : CDataStream) : RelayMemory :=
  let kept := expire now m.mapRelay m.vRelayExpiration
  { mapRelay := Function.update kept.mapRelay inv (some ss)
    vRelayExpiration := kept.vRelayExpiration ++ [(now + 15 * 60, inv)] }

end RelayMemory

structure RelayCall where
  time : Int
  inv : CInv
  ss : CDataStream

def relayRun (calls : List RelayCall) : RelayMemory :=
  calls.foldl (fun m c => m.relayMessage c.time c.inv c.ss) RelayMemory.empty

def RelayCall.until (c : RelayCall) : Int := c.time + 15 * 60

def Fetchable (calls : List RelayCall) (now : Int) : Prop :=
  ∀ earlier c later, calls = earlier ++ c :: later → (∀ d ∈ later, d.inv ≠ c.inv) →
    now ≤ c.until → (relayRun calls).mapRelay c.inv = some c.ss

def StaysFetchable (calls : List RelayCall) : Prop :=
  ∀ made now, made <+: calls → (∀ d ∈ made, d.time ≤ now) → Fetchable made now

def QuietAfterExpiry (calls : List RelayCall) : Prop :=
  ∀ a x b y c z d, calls = a ++ x :: (b ++ y :: (c ++ z :: d)) → x.inv = y.inv →
    (∀ w ∈ c ++ [z], w.inv ≠ y.inv) → y.time ≤ x.until → x.until < z.time → y.until < z.time

namespace RelayMemory

section Expire

theorem expire_queue {now : Int} {q : List (Int × CInv)} (mapRelay : CInv → Option CDataStream)
    (ordered : q.Pairwise fun e f => e.1 ≤ f.1) :
    (expire now mapRelay q).vRelayExpiration = q.filter fun e => decide (now ≤ e.1) := by
  induction q generalizing mapRelay with
  | nil => rfl
  | cons e q ih =>
    obtain ⟨hle, htail⟩ := List.pairwise_cons.mp ordered
    rw [expire]
    split
    · next hdue =>
      rw [ih _ htail, List.filter_cons_of_neg (by rw [decide_eq_true_eq]; omega)]
    · next hdue =>
      have hkeep : ∀ f ∈ e :: q, decide (now ≤ f.1) = true := by
        intro f hf
        rw [decide_eq_true_eq]
        rcases List.mem_cons.mp hf with rfl | hf
        · omega
        · have := hle f hf
          omega
      rw [List.filter_eq_self.mpr hkeep]

theorem expire_map {now : Int} {q : List (Int × CInv)} {mapRelay : CInv → Option CDataStream}
    (ordered : q.Pairwise fun e f => e.1 ≤ f.1) (inv : CInv) (ss : CDataStream) :
    (expire now mapRelay q).mapRelay inv = some ss ↔
      mapRelay inv = some ss ∧ ∀ e ∈ q, e.2 = inv → now ≤ e.1 := by
  induction q generalizing mapRelay with
  | nil => simp [expire]
  | cons e q ih =>
    obtain ⟨hle, htail⟩ := List.pairwise_cons.mp ordered
    rw [expire, List.forall_mem_cons]
    split
    · next hdue =>
      rw [ih htail]
      constructor
      · rintro ⟨hmap, hrest⟩
        have hne : inv ≠ e.2 := by
          rintro rfl
          rw [Function.update_self] at hmap
          cases hmap
        rw [Function.update_of_ne hne] at hmap
        exact ⟨hmap, fun heq => absurd heq.symm hne, hrest⟩
      · rintro ⟨hmap, hfirst, hrest⟩
        have hne : inv ≠ e.2 := by
          rintro rfl
          have := hfirst rfl
          omega
        rw [Function.update_of_ne hne]
        exact ⟨hmap, hrest⟩
    · next hdue =>
      constructor
      · intro hmap
        refine ⟨hmap, fun _ => by omega, fun f hf _ => ?_⟩
        have := hle f hf
        omega
      · exact fun h => h.1

end Expire

end RelayMemory

section Run

theorem relayRun_snoc (calls : List RelayCall) (c : RelayCall) :
    relayRun (calls ++ [c]) = (relayRun calls).relayMessage c.time c.inv c.ss := by
  rw [relayRun, List.foldl_append]
  rfl

theorem snoc_ordered {calls : List RelayCall} {c : RelayCall}
    (h : (calls ++ [c]).Pairwise fun c d => c.time ≤ d.time) :
    calls.Pairwise (fun c d => c.time ≤ d.time) ∧ ∀ w ∈ calls, w.time ≤ c.time := by
  obtain ⟨hinit, -, hlast⟩ := List.pairwise_append.mp h
  exact ⟨hinit, fun w hw => hlast w hw c (List.mem_singleton_self c)⟩

structure QueueIs (calls : List RelayCall) (q : List (Int × CInv)) : Prop where
  ordered : q.Pairwise fun e f => e.1 ≤ f.1
  mem : ∀ e, e ∈ q ↔ ∃ x ∈ calls, e = (x.until, x.inv) ∧ ∀ w ∈ calls, w.time ≤ x.until

theorem QueueIs.relayed {calls : List RelayCall} {c : RelayCall} {q : List (Int × CInv)}
    (h : QueueIs calls q) (hlast : ∀ w ∈ calls, w.time ≤ c.time) :
    QueueIs (calls ++ [c]) ((q.filter fun e => decide (c.time ≤ e.1)) ++ [(c.until, c.inv)]) := by
  have hc : c.until = c.time + 15 * 60 := rfl
  constructor
  · refine List.pairwise_append.mpr ⟨h.ordered.filter _, List.pairwise_singleton _ _, ?_⟩
    intro e he f hf
    obtain ⟨x, hx, rfl, -⟩ := (h.mem e).mp (List.mem_of_mem_filter he)
    have hxc := hlast x hx
    have hx : x.until = x.time + 15 * 60 := rfl
    rw [List.mem_singleton.mp hf]
    show x.until ≤ c.until
    omega
  · intro e
    rw [List.mem_append, List.mem_filter, h.mem, List.mem_singleton, decide_eq_true_eq]
    constructor
    · rintro (⟨⟨x, hx, rfl, hw⟩, hdue⟩ | rfl)
      · refine ⟨x, List.mem_append_left _ hx, rfl, fun w hmem => ?_⟩
        rcases List.mem_append.mp hmem with hmem | hmem
        · exact hw w hmem
        · rw [List.mem_singleton.mp hmem]
          exact hdue
      · refine ⟨c, List.mem_append_right _ (List.mem_singleton_self c), rfl, fun w hmem => ?_⟩
        rcases List.mem_append.mp hmem with hmem | hmem
        · have := hlast w hmem
          omega
        · rw [List.mem_singleton.mp hmem]
          omega
    · rintro ⟨x, hx, rfl, hw⟩
      rcases List.mem_append.mp hx with hx | hx
      · exact Or.inl ⟨⟨x, hx, rfl, fun w hmem => hw w (List.mem_append_left _ hmem)⟩,
          hw c (List.mem_append_right _ (List.mem_singleton_self c))⟩
      · rw [List.mem_singleton.mp hx]
        exact Or.inr rfl

theorem relayRun_queue {calls : List RelayCall}
    (ordered : calls.Pairwise fun c d => c.time ≤ d.time) :
    QueueIs calls (relayRun calls).vRelayExpiration := by
  induction calls using List.reverseRecOn with
  | nil => exact ⟨List.Pairwise.nil, fun e => by simp [relayRun, RelayMemory.empty]⟩
  | append_singleton calls c ih =>
    obtain ⟨hinit, hlast⟩ := snoc_ordered ordered
    have hq := ih hinit
    rw [relayRun_snoc, RelayMemory.relayMessage, RelayMemory.expire_queue _ hq.ordered]
    exact hq.relayed hlast

theorem relayMessage_other {calls : List RelayCall} {z : RelayCall} {inv : CInv}
    (ordered : (calls ++ [z]).Pairwise fun c d => c.time ≤ d.time) (hne : z.inv ≠ inv)
    (ss : CDataStream) :
    (relayRun (calls ++ [z])).mapRelay inv = some ss ↔ (relayRun calls).mapRelay inv = some ss ∧
      ∀ x ∈ calls, x.inv = inv → (∀ w ∈ calls, w.time ≤ x.until) → z.time ≤ x.until := by
  have hq := relayRun_queue (snoc_ordered ordered).1
  rw [relayRun_snoc, RelayMemory.relayMessage]
  dsimp only
  rw [Function.update_of_ne hne.symm, RelayMemory.expire_map hq.ordered]
  refine and_congr_right fun _ => ?_
  constructor
  · intro h x hx hinv hw
    exact h (x.until, x.inv) ((hq.mem _).mpr ⟨x, hx, rfl, hw⟩) hinv
  · intro h e he hinv
    obtain ⟨x, hx, rfl, hw⟩ := (hq.mem e).mp he
    exact h x hx hinv hw

theorem relayRun_fetch {earlier later : List RelayCall} {c : RelayCall}
    (ordered : (earlier ++ c :: later).Pairwise fun c d => c.time ≤ d.time)
    (hlast : ∀ d ∈ later, d.inv ≠ c.inv) :
    (relayRun (earlier ++ c :: later)).mapRelay c.inv = some c.ss ↔
      ∀ x ∈ earlier ++ [c], x.inv = c.inv → c.time ≤ x.until →
        ∀ z ∈ later, z.time ≤ x.until := by
  have hbefore : ∀ w ∈ earlier, w.time ≤ c.time := fun w hw =>
    (List.pairwise_append.mp ordered).2.2 w hw c List.mem_cons_self
  induction later using List.reverseRecOn with
  | nil =>
    rw [relayRun_snoc, RelayMemory.relayMessage]
    dsimp only
    rw [Function.update_self]
    simp
  | append_singleton later z ih =>
    rw [← List.cons_append, ← List.append_assoc] at ordered ⊢
    have hz : z.inv ≠ c.inv := hlast z (List.mem_append_right _ (List.mem_singleton_self z))
    have hearly : ∀ d ∈ later, d.inv ≠ c.inv := fun d hd =>
      hlast d (List.mem_append_left _ hd)
    have hprev := ih (snoc_ordered ordered).1 hearly
    refine (relayMessage_other ordered hz c.ss).trans ⟨?_, fun h => ?_⟩
    · rintro ⟨hget, hpopped⟩ x hx hinv hlive w hw
      have hkept := hprev.mp hget
      rcases List.mem_append.mp hw with hw | hw
      · exact hkept x hx hinv hlive w hw
      rw [List.mem_singleton.mp hw]
      refine hpopped x ?_ hinv fun v hv => ?_
      · rw [List.append_cons]
        exact List.mem_append_left _ hx
      · rw [List.append_cons, List.mem_append, List.mem_append, List.mem_singleton] at hv
        rcases hv with (hv | rfl) | hv
        · exact Int.le_trans (hbefore v hv) hlive
        · exact hlive
        · exact hkept x hx hinv hlive v hv
    · refine ⟨hprev.mpr fun x hx hinv hlive w hw =>
        h x hx hinv hlive w (List.mem_append_left _ hw), ?_⟩
      intro x hx hinv hlive
      have hc : c.time ≤ x.until :=
        hlive c (List.mem_append_right _ List.mem_cons_self)
      rw [List.append_cons, List.mem_append] at hx
      rcases hx with hx | hx
      · exact h x hx hinv hc z (List.mem_append_right _ (List.mem_singleton_self z))
      · exact absurd hinv (hearly x hx)

end Run

theorem relay_fetchable_iff {calls : List RelayCall}
    (ordered : calls.Pairwise fun c d => c.time ≤ d.time) :
    StaysFetchable calls ↔ QuietAfterExpiry calls := by
  constructor
  · rintro h a x b y c z d rfl hinv hlast hlive hpast
    by_contra hsoon
    let made := (a ++ x :: b) ++ y :: (c ++ [z])
    have hsplit : a ++ x :: (b ++ y :: (c ++ z :: d)) = made ++ d := by simp [made]
    rw [hsplit] at h ordered
    have hmade := (List.pairwise_append.mp ordered).1
    have hz : ∀ w ∈ made, w.time ≤ z.time := by
      have hsnoc : made = (a ++ x :: (b ++ y :: c)) ++ [z] := by simp [made]
      rw [hsnoc] at hmade ⊢
      intro w hw
      rcases List.mem_append.mp hw with hw | hw
      · exact (snoc_ordered hmade).2 w hw
      · rw [List.mem_singleton.mp hw]
    have hget := h made z.time (List.prefix_append _ _) hz _ _ _ rfl hlast (Int.not_lt.mp hsoon)
    have hlate := (relayRun_fetch hmade hlast).mp hget x (by simp) hinv hlive z (by simp)
    omega
  · rintro h made now ⟨d, rfl⟩ hnow earlier c later rfl hlast hc
    have hmade := (List.pairwise_append.mp ordered).1
    refine (relayRun_fetch hmade hlast).mpr fun x hx hinv hlive z hz => ?_
    by_contra hlate
    have hsoon : z.time ≤ c.until :=
      Int.le_trans (hnow z (List.mem_append_right _ (List.mem_cons_of_mem _ hz))) hc
    rcases List.mem_append.mp hx with hx | hx
    · obtain ⟨a, b, rfl⟩ := List.append_of_mem hx
      obtain ⟨e, f, rfl⟩ := List.append_of_mem hz
      have hnone : ∀ w ∈ e ++ [z], w.inv ≠ c.inv := by
        intro w hw
        refine hlast w ?_
        rw [List.append_cons]
        exact List.mem_append_left _ hw
      have hquiet := h a x b c e z (f ++ d) (by simp) hinv hnone hlive (Int.not_le.mp hlate)
      omega
    · rw [List.mem_singleton.mp hx] at hlate
      exact hlate hsoon

def sampleInv (n : Nat) : CInv := ⟨1, BitVec.ofNat 256 n⟩

def quietRelay : List RelayCall :=
  [⟨0, sampleInv 1, .empty⟩, ⟨600, sampleInv 1, .empty⟩, ⟨700, sampleInv 2, .empty⟩,
    ⟨1600, sampleInv 3, .empty⟩]

-- The third call comes before the first entry runs out, the fourth after the second has.
theorem quietRelay_fetchable : StaysFetchable quietRelay := by
  refine (relay_fetchable_iff (by decide)).mpr ?_
  have htwice : quietRelay.Pairwise fun x y => x.inv = y.inv → x.until = 900 ∧ y.until = 1500 := by
    decide
  have hlate : ∀ z ∈ quietRelay, 900 < z.time → 1500 < z.time := by decide
  intro a x b y c z d hsplit hinv _ _ hpast
  rw [hsplit] at htwice hlate
  have hx := (List.pairwise_cons.mp (List.pairwise_append.mp htwice).2.1).1
  obtain ⟨hfirst, hsecond⟩ := hx y (by simp) hinv
  rw [hfirst] at hpast
  rw [hsecond]
  exact hlate z (by simp) hpast

theorem relay_forgets :
    ¬ ∀ calls : List RelayCall, (calls.Pairwise fun c d => c.time ≤ d.time) →
      StaysFetchable calls := by
  intro h
  have hget := h [⟨0, sampleInv 1, .empty⟩, ⟨600, sampleInv 1, .empty⟩, ⟨1000, sampleInv 2, .empty⟩]
    (by decide) _ 1000 (List.prefix_refl _) (by decide) [⟨0, sampleInv 1, .empty⟩] _ _ rfl
    (by decide) (by decide)
  have hgone : (relayRun [⟨0, sampleInv 1, .empty⟩, ⟨600, sampleInv 1, .empty⟩,
      ⟨1000, sampleInv 2, .empty⟩]).mapRelay (sampleInv 1) = none := by decide
  rw [hgone] at hget
  cases hget

end Namecoin
