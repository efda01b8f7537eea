import Namecoin.Net.Download

namespace Namecoin

namespace Download

section Reading

variable {nTip m : Nat} {d : Download}

-- What the asking node can be handed next, and what it makes of it.
inductive ReadCase (nTip : Nat) (d : Download) : Reply → Prop
  | fresh (hs : List Nat) (hnew : ∀ h ∈ hs, d.nBest < h ∧ h ≤ nTip ∧ d.had nTip h = false)
      (hnodup : hs.Nodup) (hapart : ∀ h ∈ hs, h ∉ d.blocks ++ d.wants ++ d.asks) : ReadCase nTip d (.inv hs)
  | adopt (hbehind : d.nBest < nTip) (hparked : d.parked = true → d.nBest + 1 < nTip) :
      ReadCase nTip d (.block (d.nBest + 1))
  | park (hparked : d.parked = false) (hfar : d.nBest + 1 < nTip) (hasked : d.nAsked < d.nBest) :
      ReadCase nTip d (.block nTip)
  | known (hbest : d.nBest = nTip) (hparked : d.parked = false) : ReadCase nTip d (.inv [nTip])
  | reask (hparked : d.parked = true) (hfar : d.nBest + 1 < nTip) (hasked : d.nAsked < d.nBest) :
      ReadCase nTip d (.inv [nTip])

theorem way_apart (hnodup : d.way.Nodup) {hs : List Nat} {rest : List Reply}
    (hreplies : d.replies = .inv hs :: rest) :
    hs.Nodup ∧ ∀ h ∈ hs, h ∉ d.blocks ++ d.wants ++ d.asks := by
  have hsplit : d.way = (d.blocks ++ d.wants ++ d.asks) ++ (hs ++ (rest.flatMap Reply.invs ++ d.queue)) := by
    rw [way, invs, hreplies, List.flatMap_cons]
    simp only [Reply.invs, List.append_assoc]
  rw [hsplit, List.nodup_append] at hnodup
  obtain ⟨-, hrest, hapart⟩ := hnodup
  refine ⟨(List.nodup_append.mp hrest).1, fun h hh hmem => ?_⟩
  exact hapart h hmem h (List.mem_append_left _ hh) rfl

theorem Fetching.nodup (h : Fetching nTip m d) : d.way.Nodup := by
  rw [h.way]
  exact List.nodup_range'

theorem Phase.read_cases (h : Phase nTip d) {r : Reply} {rest : List Reply}
    (hreplies : d.replies = r :: rest) : ReadCase nTip d r := by
  cases h with
  | asking h => cases h.rest.1.symm.trans hreplies
  | finished h => cases h.idle.1.symm.trans hreplies
  | fetching m h =>
    have hahead := h.ahead
    have hbound := h.bound
    cases r with
    | inv hs =>
      obtain ⟨hnodup, hapart⟩ := way_apart h.nodup hreplies
      refine .fresh hs (fun k hk => ?_) hnodup hapart
      have hway := mem_way_inv hreplies hk
      obtain ⟨hlow, hhigh⟩ := h.mem_way hway
      exact ⟨hlow, by omega, h.new hway⟩
    | block k =>
      have hway := way_block hreplies
      rw [h.way, show m - d.nBest = m - (d.nBest + 1) + 1 by omega, List.range'_succ,
        List.cons.injEq] at hway
      obtain ⟨rfl, -⟩ := hway
      refine .adopt (by omega) fun hp => ?_
      have hlow := h.parked hp
      omega
  | resuming m h =>
    have hbound := h.bound
    have hasked := h.asked
    have hfirst := h.replies
    rcases Nat.lt_or_ge d.nBest m with hmore | hend
    · rw [show m - d.nBest = m - (d.nBest + 1) + 1 by omega, List.range'_succ, List.map_cons,
        List.cons_append, hreplies, List.cons.injEq] at hfirst
      obtain ⟨rfl, -⟩ := hfirst
      exact .adopt (by omega) fun hp => (h.parked hp).2
    · rw [show m - d.nBest = 0 by omega, List.range'_zero, List.map_nil, List.nil_append, hreplies,
        List.cons.injEq] at hfirst
      obtain ⟨rfl, rfl⟩ := hfirst
      by_cases htip : d.nBest = nTip
      · refine .known htip ?_
        cases hp : d.parked with
        | false => rfl
        | true => exact absurd (h.parked hp).2 (by omega)
      · have hm : d.nBest = m := by
          rcases h.reached with hle | heq
          · omega
          · exact absurd heq htip
        rcases Bool.eq_false_or_eq_true d.parked with hp | hp
        · exact .reask hp (h.parked hp).2 (by omega)
        · refine .fresh [nTip] (fun k hk => ?_) (List.nodup_singleton _) fun k hk hmem => ?_
          · rw [List.mem_singleton.mp hk, had, hp, Bool.false_and, Bool.or_false,
              decide_eq_false_iff_not]
            omega
          · obtain ⟨hrequests, hasks, -, -⟩ := h.rest
            have hblocks : d.blocks = [] := by
              rw [blocks, hreplies]
              rfl
            rw [hblocks, wants, hrequests, hasks] at hmem
            cases hmem
  | leaping h =>
    have hbehind := h.behind
    cases r with
    | inv hs =>
      obtain ⟨hnodup, hapart⟩ := way_apart (by rw [h.way]; exact List.nodup_singleton _) hreplies
      refine .fresh hs (fun k hk => ?_) hnodup hapart
      have hway := mem_way_inv hreplies hk
      have hnew := h.new hway
      rw [h.way, List.mem_singleton] at hway
      exact ⟨by omega, by omega, hnew⟩
    | block k =>
      have hway := way_block hreplies
      rw [h.way, List.cons.injEq] at hway
      obtain ⟨rfl, -⟩ := hway
      rcases Nat.eq_or_lt_of_le (show d.nBest + 1 ≤ nTip from hbehind) with hnext | hfar
      · have hcase := @ReadCase.adopt nTip d hbehind fun hp => by
          rw [h.parked] at hp
          cases hp
        rwa [hnext] at hcase
      · exact .park h.parked hfar h.asked

-- What the asking node has been told of: held, kept aside, or on its way.
def Settled (nTip : Nat) (d : Download) (h : Nat) : Prop :=
  h ≤ d.nBest ∨ d.parked = true ∧ h = nTip ∨ h ∈ d.blocks ++ d.wants ++ d.asks ++ d.invs

theorem queue_unsettled (hnodup : d.way.Nodup) (hnew : ∀ k ∈ d.way, d.had nTip k = false) {h : Nat}
    (hh : h ∈ d.queue) : ¬Settled nTip d h := by
  have hhad := hnew h (List.mem_append_right _ hh)
  rw [had, Bool.or_eq_false_iff, decide_eq_false_iff_not] at hhad
  rintro (hle | ⟨hp, rfl⟩ | hmem)
  · exact hhad.1 hle
  · have hparked := hhad.2
    rw [hp, Bool.true_and, decide_eq_false_iff_not] at hparked
    exact hparked rfl
  · exact (List.nodup_append.mp hnodup).2.2 h hmem h hh rfl

structure QueueOk (nTip : Nat) (d : Download) : Prop where
  nodup : d.queue.Nodup
  new : ∀ h ∈ d.queue, h ≤ nTip ∧ ¬Settled nTip d h

theorem QueueOk.of_nil (h : d.queue = []) : QueueOk nTip d := by
  refine ⟨h ▸ List.nodup_nil, fun k hk => ?_⟩
  rw [h] at hk
  exact absurd hk List.not_mem_nil

theorem Phase.queueOk (h : Phase nTip d) : QueueOk nTip d := by
  cases h with
  | asking h => exact .of_nil h.rest.2.2.1
  | fetching m h =>
    refine ⟨(List.nodup_append.mp h.nodup).2.1, fun k hk => ⟨?_, ?_⟩⟩
    · have hhigh := (h.mem_way (List.mem_append_right _ hk)).2
      exact Nat.le_trans hhigh h.bound
    · exact queue_unsettled h.nodup (fun _ => h.new) hk
  | resuming m h => exact .of_nil h.rest.2.2.1
  | leaping h =>
    have hnodup : d.way.Nodup := by
      rw [h.way]
      exact List.nodup_singleton _
    refine ⟨(List.nodup_append.mp hnodup).2.1, fun k hk => ⟨?_, ?_⟩⟩
    · have hmem : k ∈ d.way := List.mem_append_right _ hk
      rw [h.way, List.mem_singleton] at hmem
      exact Nat.le_of_eq hmem
    · exact queue_unsettled hnodup (fun _ => h.new) hk
  | finished h => exact .of_nil h.idle.2.2.2

theorem Phase.asks_new (h : Phase nTip d) {k : Nat} (hk : k ∈ d.asks) :
    k ≤ nTip ∧ d.had nTip k = false := by
  have hway : k ∈ d.way :=
    List.mem_append_left _ (List.mem_append_left _ (List.mem_append_right _ hk))
  cases h with
  | asking h => exact absurd (h.rest.2.1 ▸ hk) List.not_mem_nil
  | fetching m h => exact ⟨Nat.le_trans (h.mem_way hway).2 h.bound, h.new hway⟩
  | resuming m h => exact absurd (h.rest.2.1 ▸ hk) List.not_mem_nil
  | leaping h =>
    have hnew := h.new hway
    rw [h.way, List.mem_singleton] at hway
    exact ⟨Nat.le_of_eq hway, hnew⟩
  | finished h => exact absurd (h.idle.2.2.1 ▸ hk) List.not_mem_nil

theorem Phase.way_le (h : Phase nTip d) {k : Nat} (hk : k ∈ d.way) : k ≤ nTip := by
  cases h with
  | asking h =>
    obtain ⟨hreplies, hasks, hqueue, -⟩ := h.rest
    simp [way, blocks, invs, wants, h.requests, hreplies, hasks, hqueue, Request.wants] at hk
  | fetching m h => exact Nat.le_trans (h.mem_way hk).2 h.bound
  | resuming m h =>
    obtain ⟨hrequests, hasks, hqueue, -⟩ := h.rest
    obtain ⟨hsent, hnone⟩ := flatMap_block (List.range' (d.nBest + 1) (m - d.nBest))
    have hblocks : d.blocks = List.range' (d.nBest + 1) (m - d.nBest) := by
      rw [blocks, h.replies, List.flatMap_append, hsent]
      exact List.append_nil _
    have hinvs : d.invs = [nTip] := by
      rw [invs, h.replies, List.flatMap_append, hnone]
      rfl
    rw [way, hblocks, hinvs, wants, hrequests, hasks, hqueue, List.flatMap_nil, List.append_nil,
      List.append_nil, List.append_nil, List.mem_append, List.mem_range'_1, List.mem_singleton] at hk
    have hbound := h.bound
    omega
  | leaping h =>
    rw [h.way, List.mem_singleton] at hk
    exact Nat.le_of_eq hk
  | finished h =>
    obtain ⟨hreplies, hrequests, hasks, hqueue⟩ := h.idle
    simp [way, blocks, invs, wants, hrequests, hreplies, hasks, hqueue] at hk

theorem Phase.resume_le (h : Phase nTip d) {k : Nat} (hk : d.resume = some k) : k ≤ nTip := by
  cases h with
  | asking h => cases h.rest.2.2.2.symm.trans hk
  | fetching m h =>
    rcases h.ending with ⟨hnone, -⟩ | ⟨hsome, -⟩
    · cases hnone.symm.trans hk
    · exact Option.some.inj (hsome.symm.trans hk) ▸ h.bound
  | resuming m h => cases h.rest.2.2.2.symm.trans hk
  | leaping h => cases h.resume.symm.trans hk
  | finished h => cases h.resume.symm.trans hk

theorem Phase.asked_le (h : Phase nTip d) {nFrom : Nat} {stopAtTip : Bool} {rest : List Request}
    (hrequests : d.requests = .getblocks nFrom stopAtTip :: rest) : nFrom ≤ nTip := by
  cases h with
  | asking h =>
    rw [h.requests, List.cons.injEq, Request.getblocks.injEq] at hrequests
    exact hrequests.1.1 ▸ h.bound
  | fetching m h => exact (h.plain.no_getblocks hrequests).elim
  | resuming m h => cases h.rest.1.symm.trans hrequests
  | leaping h => exact (h.plain.no_getblocks hrequests).elim
  | finished h => cases h.idle.2.1.symm.trans hrequests

theorem had_next (hparked : d.parked = true → d.nBest + 1 < nTip) : d.had nTip (d.nBest + 1) = false := by
  rw [had, Bool.or_eq_false_iff, Bool.and_eq_false_iff, decide_eq_false_iff_not,
    decide_eq_false_iff_not]
  refine ⟨by omega, ?_⟩
  cases hp : d.parked with
  | false => exact .inl rfl
  | true =>
    have hfar := hparked hp
    exact .inr (by omega)

theorem read_adopt (hparked : d.parked = true → d.nBest + 1 < nTip) (rest : List Reply) :
    read nTip (.block (d.nBest + 1)) { d with replies := rest } = { d with
      nBest := if d.parked && decide (d.nBest + 1 + 1 = nTip) then nTip else d.nBest + 1
      parked := d.parked && !decide (d.nBest + 1 + 1 = nTip)
      replies := rest } := by
  have hnew : had nTip (d.nBest + 1) { d with replies := rest } = false := had_next hparked
  rw [read, arrive, hnew, if_neg Bool.false_ne_true, if_pos rfl]
  cases hp : d.parked with
  | false => rfl
  | true =>
    by_cases hjoin : d.nBest + 1 + 1 = nTip
    · simp [hjoin]
    · simp [hjoin]

theorem read_park (hparked : d.parked = false) (hfar : d.nBest + 1 < nTip) (rest : List Reply) :
    read nTip (.block nTip) { d with replies := rest } = ask { d with
      parked := true
      replies := rest } := by
  have hnew : had nTip nTip { d with replies := rest } = false := by
    rw [had, hparked, Bool.false_and, Bool.or_false, decide_eq_false_iff_not]
    exact Nat.not_le.mpr (Nat.lt_of_succ_lt hfar)
  rw [read, arrive, hnew, if_neg Bool.false_ne_true, if_neg (by show ¬nTip = d.nBest + 1; omega)]

theorem read_known (hbest : d.nBest = nTip) (hparked : d.parked = false) (rest : List Reply) :
    read nTip (.inv [nTip]) { d with replies := rest } = { d with replies := rest } := by
  have hhad : had nTip nTip { d with replies := rest } = true := by
    rw [had, hbest, decide_eq_true (Nat.le_refl nTip), Bool.true_or]
  rw [read, List.foldl_cons, List.foldl_nil, hear, hhad, if_pos rfl, hparked, Bool.false_and,
    if_neg Bool.false_ne_true]

theorem read_reask (hparked : d.parked = true) (rest : List Reply) :
    read nTip (.inv [nTip]) { d with replies := rest } = ask { d with replies := rest } := by
  have hhad : had nTip nTip { d with replies := rest } = true := by
    rw [had, hparked, Bool.true_and, decide_eq_true rfl, Bool.or_true]
  rw [read, List.foldl_cons, List.foldl_nil, hear, hhad, if_pos rfl, hparked, Bool.true_and,
    if_pos (decide_eq_true rfl)]

theorem read_fresh {hs : List Nat} (hnew : ∀ h ∈ hs, d.nBest < h ∧ h ≤ nTip ∧ d.had nTip h = false)
    (rest : List Reply) : read nTip (.inv hs) { d with replies := rest } =
      { d with
        replies := rest
        asks := d.asks ++ hs } :=
  @foldl_hear nTip { d with replies := rest } hs fun h hh => (hnew h hh).2.2

theorem Settled.mono {d' : Download} {h : Nat} (hsettled : Settled nTip d h)
    (hbest : d.nBest ≤ d'.nBest) (hparked : d.parked = true → Settled nTip d' nTip)
    (hway : ∀ k ∈ d.blocks ++ d.wants ++ d.asks ++ d.invs, Settled nTip d' k) : Settled nTip d' h := by
  rcases hsettled with hle | ⟨hp, rfl⟩ | hmem
  · exact .inl (Nat.le_trans hle hbest)
  · exact hparked hp
  · exact hway h hmem

structure Served (hs : List Nat) (d d' : Download) : Prop where
  best : d'.nBest = d.nBest
  parked : d'.parked = d.parked
  asked : d'.nAsked = d.nAsked
  requests : d'.requests = d.requests
  asks : d'.asks = d.asks
  blocks : d'.blocks = d.blocks ++ hs
  invs : ∀ k ∈ d.invs, k ∈ d'.invs

theorem serve_served (h : Nat) (d : Download) : Served [h] d (d.serve nTip h) := by
  unfold Download.serve
  split
  · refine ⟨rfl, rfl, rfl, rfl, rfl, ?_, fun k hk => ?_⟩
    · exact List.flatMap_append
    · show k ∈ (d.replies ++ _).flatMap Reply.invs
      rw [List.flatMap_append]
      exact List.mem_append_left _ hk
  · refine ⟨rfl, rfl, rfl, rfl, rfl, ?_, fun k hk => ?_⟩
    · exact List.flatMap_append
    · show k ∈ (d.replies ++ _).flatMap Reply.invs
      rw [List.flatMap_append]
      exact List.mem_append_left _ hk

theorem foldl_served (hs : List Nat) (d : Download) : Served hs d (hs.foldl (serve nTip) d) := by
  induction hs generalizing d with
  | nil => exact ⟨rfl, rfl, rfl, rfl, rfl, (List.append_nil _).symm, fun k hk => hk⟩
  | cons h hs ih =>
    have hfirst := @serve_served nTip h d
    have hrest := ih (d.serve nTip h)
    refine ⟨hrest.best.trans hfirst.best, hrest.parked.trans hfirst.parked,
      hrest.asked.trans hfirst.asked, hrest.requests.trans hfirst.requests, hrest.asks.trans hfirst.asks, ?_,
      fun k hk => hrest.invs k (hfirst.invs k hk)⟩
    rw [List.foldl_cons, hrest.blocks, hfirst.blocks, List.append_assoc]
    rfl

theorem Settled.read {r : Reply} {rest : List Reply} (hcase : ReadCase nTip d r)
    (hreplies : d.replies = r :: rest) {h : Nat} (hsettled : Settled nTip d h) :
    Settled nTip (read nTip r { d with replies := rest }) h := by
  cases hcase with
  | fresh hs hnew hnodup hapart =>
    rw [read_fresh hnew]
    refine hsettled.mono (Nat.le_refl _) (fun hp => .inr (.inl ⟨hp, rfl⟩)) fun k hk => .inr (.inr ?_)
    simp only [blocks, invs, wants, hreplies, List.flatMap_cons, Reply.blocks, Reply.invs,
      List.mem_append, List.nil_append] at hk ⊢
    tauto
  | adopt hbehind hparked =>
    have hlate : d.nBest + 1 ≤
        if d.parked && decide (d.nBest + 1 + 1 = nTip) then nTip else d.nBest + 1 := by
      split
      · exact hbehind
      · exact Nat.le_refl _
    rw [read_adopt hparked]
    refine hsettled.mono (Nat.le_trans (Nat.le_succ _) hlate) (fun hp => ?_) fun k hk => ?_
    · by_cases hjoin : d.nBest + 1 + 1 = nTip
      · refine .inl ?_
        show nTip ≤ if d.parked && decide (d.nBest + 1 + 1 = nTip) then nTip else d.nBest + 1
        exact Nat.le_of_eq (if_pos (by simp [hp, hjoin])).symm
      · refine .inr (.inl ⟨?_, rfl⟩)
        show (d.parked && !decide (d.nBest + 1 + 1 = nTip)) = true
        rw [hp, decide_eq_false hjoin]
        rfl
    · rw [blocks, invs, hreplies, List.flatMap_cons, List.flatMap_cons] at hk
      simp only [Reply.blocks, Reply.invs, List.cons_append, List.nil_append, List.mem_cons] at hk
      rcases hk with rfl | hk
      · exact .inl hlate
      · exact .inr (.inr hk)
  | park hparked hfar hasked =>
    rw [read_park hparked hfar]
    refine hsettled.mono (Nat.le_refl _) (fun _ => .inr (.inl ⟨rfl, rfl⟩)) fun k hk => ?_
    rw [blocks, invs, hreplies, List.flatMap_cons, List.flatMap_cons] at hk
    simp only [Reply.blocks, Reply.invs, List.cons_append, List.nil_append, List.mem_cons] at hk
    rcases hk with rfl | hk
    · exact .inr (.inl ⟨rfl, rfl⟩)
    · refine .inr (.inr ?_)
      simp only [Download.ask, blocks, invs, wants, List.flatMap_append] at hk ⊢
      simpa [Request.wants] using hk
  | known hbest hparked =>
    rw [read_known hbest hparked]
    refine hsettled.mono (Nat.le_refl _) (fun hp => .inr (.inl ⟨hp, rfl⟩)) fun k hk => ?_
    simp only [blocks, invs, hreplies, List.flatMap_cons, Reply.blocks, Reply.invs,
      List.mem_append, List.nil_append, List.mem_singleton] at hk
    rcases hk with hk | rfl | hk
    · exact .inr (.inr (by simp only [blocks, invs, List.mem_append]; tauto))
    · exact .inl (Nat.le_of_eq hbest.symm)
    · exact .inr (.inr (by simp only [blocks, invs, List.mem_append]; tauto))
  | reask hparked hfar hasked =>
    rw [read_reask hparked]
    refine hsettled.mono (Nat.le_refl _) (fun hp => .inr (.inl ⟨hp, rfl⟩)) fun k hk => ?_
    simp only [blocks, invs, hreplies, List.flatMap_cons, Reply.blocks, Reply.invs,
      List.mem_append, List.nil_append, List.mem_singleton] at hk
    have hwants : (ask { d with replies := rest }).wants = d.wants := by
      simp [wants, Download.ask, Request.wants]
    rcases hk with hk | rfl | hk
    · exact .inr (.inr (by rw [hwants]; simp only [Download.ask, blocks, invs, List.mem_append]; tauto))
    · exact .inr (.inl ⟨hparked, rfl⟩)
    · exact .inr (.inr (by rw [hwants]; simp only [Download.ask, blocks, invs, List.mem_append]; tauto))

theorem Settled.serve {hs : List Nat} {rest : List Request} (hrequests : d.requests = .getdata hs :: rest)
    {h : Nat} (hsettled : Settled nTip d h) :
    Settled nTip (hs.foldl (serve nTip) { d with requests := rest }) h := by
  have hserved := @foldl_served nTip hs { d with requests := rest }
  refine hsettled.mono (Nat.le_of_eq hserved.best.symm)
    (fun hp => .inr (.inl ⟨hserved.parked.trans hp, rfl⟩)) fun k hk => .inr (.inr ?_)
  rw [wants, hrequests, List.flatMap_cons] at hk
  rw [hserved.blocks, wants, hserved.requests, hserved.asks]
  have hinvs := hserved.invs k
  simp only [blocks, invs, List.mem_append, Request.wants] at hk hinvs ⊢
  tauto

theorem Settled.offer {nFrom n nAt : Nat} {stopAtTip : Bool} {resume : Option Nat} {rest : List Request}
    (hrequests : d.requests = .getblocks nAt stopAtTip :: rest) {h : Nat} (hsettled : Settled nTip d h) :
    Settled nTip (offer nFrom n resume { d with requests := rest }) h := by
  refine hsettled.mono (Nat.le_refl _) (fun hp => .inr (.inl ⟨hp, rfl⟩)) fun k hk => .inr (.inr ?_)
  rw [wants, hrequests, List.flatMap_cons] at hk
  exact hk

theorem Settled.flush {bs : List (List Nat)} (hall : bs.flatten = d.queue) {h : Nat}
    (hsettled : Settled nTip d h ∨ h ∈ d.queue) : Settled nTip (d.flush bs) h := by
  obtain ⟨hblocks, hinvs⟩ := flatMap_inv bs
  have hmore : (d.flush bs).blocks = d.blocks ∧ (d.flush bs).invs = d.invs ++ d.queue := by
    simp only [blocks, invs, Download.flush, List.flatMap_append, hblocks, hinvs, hall,
      List.append_nil, and_self]
  rcases hsettled with hold | hqueue
  · refine hold.mono (Nat.le_refl _) (fun hp => .inr (.inl ⟨hp, rfl⟩)) fun k hk => .inr (.inr ?_)
    rw [hmore.1, hmore.2, ← List.append_assoc]
    exact List.mem_append_left _ hk
  · refine .inr (.inr ?_)
    rw [hmore.2]
    exact List.mem_append_right _ (List.mem_append_right _ hqueue)

theorem Settled.fetch {k : Nat} {bs : List (List Nat)} (hall : bs.flatten = d.asks.take k) {h : Nat}
    (hsettled : Settled nTip d h) : Settled nTip (d.fetch k bs) h := by
  refine hsettled.mono (Nat.le_refl _) (fun hp => .inr (.inl ⟨hp, rfl⟩)) fun j hj => .inr (.inr ?_)
  have hsplit : j ∈ d.asks ↔ j ∈ d.asks.take k ∨ j ∈ d.asks.drop k := by
    rw [← List.mem_append, List.take_append_drop]
  simp only [blocks, invs, wants, Download.fetch, List.flatMap_append, flatMap_getdata, hall,
    List.mem_append] at hj ⊢
  tauto

-- Reading changes nothing on the serving side.
structure ReadOnly (d d' : Download) : Prop where
  queue : d'.queue = d.queue
  resume : d'.resume = d.resume
  replies : d'.replies = d.replies
  requests : ∀ hs, .getdata hs ∈ d'.requests → .getdata hs ∈ d.requests

theorem ask_readOnly (d : Download) : ReadOnly d d.ask := by
  refine ⟨rfl, rfl, rfl, fun hs hmem => ?_⟩
  rcases List.mem_append.mp hmem with hold | hnew
  · exact hold
  · cases List.mem_singleton.mp hnew

theorem hear_readOnly (h : Nat) (d : Download) : ReadOnly d (d.hear nTip h) := by
  rw [hear]
  split
  · split
    · exact ask_readOnly d
    · exact ⟨rfl, rfl, rfl, fun hs hmem => hmem⟩
  · exact ⟨rfl, rfl, rfl, fun hs hmem => hmem⟩

theorem foldl_readOnly (hs : List Nat) (d : Download) : ReadOnly d (hs.foldl (hear nTip) d) := by
  induction hs generalizing d with
  | nil => exact ⟨rfl, rfl, rfl, fun hs hmem => hmem⟩
  | cons h hs ih =>
    have hfirst := @hear_readOnly nTip h d
    have hrest := ih (d.hear nTip h)
    exact ⟨hrest.queue.trans hfirst.queue, hrest.resume.trans hfirst.resume,
      hrest.replies.trans hfirst.replies, fun hs hmem => hfirst.requests hs (hrest.requests hs hmem)⟩

theorem read_readOnly (r : Reply) (d : Download) : ReadOnly d (read nTip r d) := by
  cases r with
  | inv hs => exact foldl_readOnly hs d
  | block h =>
    rw [Download.read, arrive]
    split
    · exact ⟨rfl, rfl, rfl, fun hs hmem => hmem⟩
    · split
      · split
        · exact ⟨rfl, rfl, rfl, fun hs hmem => hmem⟩
        · exact ⟨rfl, rfl, rfl, fun hs hmem => hmem⟩
      · have hasked := ask_readOnly { d with parked := true }
        exact ⟨hasked.queue, hasked.resume, hasked.replies, hasked.requests⟩

theorem read_best_le {r : Reply} (hcase : ReadCase nTip d r) (rest : List Reply) :
    d.nBest ≤ (read nTip r { d with replies := rest }).nBest := by
  cases hcase with
  | fresh hs hnew hnodup hapart =>
    exact Nat.le_of_eq (congrArg Download.nBest (read_fresh hnew rest)).symm
  | adopt hbehind hparked =>
    rw [read_adopt hparked]
    dsimp only
    split
    · exact Nat.le_of_lt hbehind
    · exact Nat.le_succ _
  | park hparked hfar hasked =>
    exact Nat.le_of_eq (congrArg Download.nBest (read_park hparked hfar rest)).symm
  | known hbest hparked =>
    exact Nat.le_of_eq (congrArg Download.nBest (read_known hbest hparked rest)).symm
  | reask hparked hfar hasked =>
    exact Nat.le_of_eq (congrArg Download.nBest (read_reask hparked rest)).symm

-- No message under way is too long to be handled.
structure Short (d : Download) : Prop where
  invs : ∀ hs, .inv hs ∈ d.replies → hs.length ≤ 50000
  getdatas : ∀ hs, .getdata hs ∈ d.requests → hs.length ≤ 50000

theorem Short.read (h : Short d) {r : Reply} {rest : List Reply} (hreplies : d.replies = r :: rest) :
    Short (read nTip r { d with replies := rest }) := by
  have hread := @read_readOnly nTip r { d with replies := rest }
  refine ⟨fun hs hmem => ?_, fun hs hmem => h.getdatas hs (hread.requests hs hmem)⟩
  rw [hread.replies] at hmem
  exact h.invs hs (hreplies ▸ List.mem_cons_of_mem _ hmem)

theorem Short.serve (h : Short d) {hs : List Nat} {rest : List Request}
    (hrequests : d.requests = .getdata hs :: rest) :
    Short (hs.foldl (serve nTip) { d with requests := rest }) := by
  have hserved := @foldl_served nTip hs { d with requests := rest }
  refine ⟨?_, fun hs' hmem => ?_⟩
  · have hstart : ∀ hs', .inv hs' ∈ { d with requests := rest }.replies → hs'.length ≤ 50000 := h.invs
    clear hserved hrequests
    revert hstart
    generalize { d with requests := rest } = d1
    intro hstart
    induction hs generalizing d1 with
    | nil => exact hstart
    | cons k hs ih =>
      refine ih (d1.serve nTip k) fun hs' hmem => ?_
      rw [Download.serve] at hmem
      split at hmem
      · rcases List.mem_append.mp hmem with hold | hnew
        · exact hstart hs' hold
        · rcases List.mem_cons.mp hnew with hblock | hinv
          · cases hblock
          · cases List.mem_singleton.mp hinv
            exact Nat.succ_le_succ (Nat.zero_le _)
      · rcases List.mem_append.mp hmem with hold | hnew
        · exact hstart hs' hold
        · cases List.mem_singleton.mp hnew
  · rw [hserved.requests] at hmem
    exact h.getdatas hs' (hrequests ▸ List.mem_cons_of_mem _ hmem)

theorem Short.flush (h : Short d) {bs : List (List Nat)} (hshort : ∀ b ∈ bs, b.length ≤ 50000) :
    Short (d.flush bs) := by
  refine ⟨fun hs hmem => ?_, h.getdatas⟩
  rcases List.mem_append.mp hmem with hold | hnew
  · exact h.invs hs hold
  · obtain ⟨b, hb, heq⟩ := List.mem_map.mp hnew
    cases heq
    exact hshort hs hb

theorem Short.fetch (h : Short d) {k : Nat} {bs : List (List Nat)}
    (hshort : ∀ b ∈ bs, b.length ≤ 50000) : Short (d.fetch k bs) := by
  refine ⟨h.invs, fun hs hmem => ?_⟩
  rcases List.mem_append.mp hmem with hold | hnew
  · exact h.getdatas hs hold
  · obtain ⟨b, hb, heq⟩ := List.mem_map.mp hnew
    cases heq
    exact hshort hs hb

end Reading

end Download

end Namecoin
