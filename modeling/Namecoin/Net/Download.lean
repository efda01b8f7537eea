import Mathlib.Data.List.Nodup
import Mathlib.Tactic.Cases

namespace Namecoin

-- What the serving node has sent, with blocks named by their heights.
inductive Reply where
  | block (nHeight : Nat)
  | inv (heights : List Nat)

inductive Request where
  | getblocks (nFrom : Nat) (stopAtTip : Bool)
  | getdata (heights : List Nat)

def Reply.blocks : Reply → List Nat
  | block nHeight => [nHeight]
  | inv _ => []

def Reply.invs : Reply → List Nat
  | block _ => []
  | inv heights => heights

def Request.wants : Request → List Nat
  | getblocks _ _ => []
  | getdata heights => heights

-- The asking node holds the blocks up to nBest, and keeps the tip aside when it came too early.
structure Download where
  nBest : Nat
  parked : Bool
  nAsked : Nat
  asks : List Nat
  requests : List Request
  replies : List Reply
  queue : List Nat
  resume : Option Nat

namespace Download

variable (nTip : Nat)

def had (h : Nat) (d : Download) : Bool := decide (h ≤ d.nBest) || d.parked && decide (h = nTip)

def ask (d : Download) : Download :=
  { d with
    requests := d.requests ++ [.getblocks d.nBest true]
    nAsked := d.nBest }

def hear (d : Download) (h : Nat) : Download :=
  if d.had nTip h then
    if d.parked && decide (h = nTip) then d.ask else d
  else { d with asks := d.asks ++ [h] }

def arrive (h : Nat) (d : Download) : Download :=
  if d.had nTip h then d
  else if h = d.nBest + 1 then
    if d.parked && decide (h + 1 = nTip) then
      { d with
        nBest := nTip
        parked := false }
    else { d with nBest := h }
  else ask { d with parked := true }

def read : Reply → Download → Download
  | .block h, d => d.arrive nTip h
  | .inv heights, d => heights.foldl (hear nTip) d

def serve (d : Download) (h : Nat) : Download :=
  if d.resume = some h then
    { d with
      replies := d.replies ++ [.block h, .inv [nTip]]
      resume := none }
  else { d with replies := d.replies ++ [.block h] }

def offer (nFrom n : Nat) (resume : Option Nat) (d : Download) : Download :=
  { d with
    queue := d.queue ++ List.range' (nFrom + 1) n
    resume := resume.or d.resume }

def flush (batches : List (List Nat)) (d : Download) : Download :=
  { d with
    replies := d.replies ++ batches.map .inv
    queue := [] }

def fetch (k : Nat) (batches : List (List Nat)) (d : Download) : Download :=
  { d with
    requests := d.requests ++ batches.map .getdata
    asks := d.asks.drop k }

-- the last height that a getblocks message asks for
def lastWanted (stopAtTip : Bool) : Nat := if stopAtTip then nTip - 1 else nTip

structure Offered (nFrom : Nat) (stopAtTip : Bool) (n : Nat) (resume : Option Nat) : Prop where
  within : n ≤ lastWanted nTip stopAtTip - nFrom
  full : resume = none ∧ n = lastWanted nTip stopAtTip - nFrom ∨ 0 < n ∧ resume = some (nFrom + n)

inductive Step : Download → Download → Prop
  | read (d : Download) (r : Reply) (rest : List Reply) (h : d.replies = r :: rest) :
      Step d (read nTip r { d with replies := rest })
  | getdata (d : Download) (heights : List Nat) (rest : List Request)
      (h : d.requests = .getdata heights :: rest) :
      Step d (heights.foldl (serve nTip) { d with requests := rest })
  | getblocks (d : Download) (nFrom n : Nat) (stopAtTip : Bool) (resume : Option Nat)
      (rest : List Request) (h : d.requests = .getblocks nFrom stopAtTip :: rest)
      (hoffered : Offered nTip nFrom stopAtTip n resume) :
      Step d (offer nFrom n resume { d with requests := rest })
  | flush (d : Download) (batches : List (List Nat)) (hall : batches.flatten = d.queue)
      (hsome : ∀ hs ∈ batches, hs ≠ []) : Step d (d.flush batches)
  | fetch (d : Download) (k : Nat) (batches : List (List Nat))
      (hall : batches.flatten = d.asks.take k) (hsome : ∀ hs ∈ batches, hs ≠ []) :
      Step d (d.fetch k batches)

section Way

variable {nTip : Nat} {d : Download}

def blocks (d : Download) : List Nat := d.replies.flatMap Reply.blocks

def invs (d : Download) : List Nat := d.replies.flatMap Reply.invs

def wants (d : Download) : List Nat := d.requests.flatMap Request.wants

-- Every height offered and not yet arrived, the one that arrives first at the front.
def way (d : Download) : List Nat := d.blocks ++ d.wants ++ d.asks ++ d.invs ++ d.queue

structure Plain (d : Download) : Prop where
  requests : ∀ r ∈ d.requests, ∃ hs, r = .getdata hs ∧ hs ≠ []
  replies : ∀ hs, .inv hs ∈ d.replies → hs ≠ []

theorem flatMap_inv (bs : List (List Nat)) :
    (bs.map Reply.inv).flatMap Reply.blocks = [] ∧ (bs.map Reply.inv).flatMap Reply.invs = bs.flatten := by
  induction bs with
  | nil => exact ⟨rfl, rfl⟩
  | cons b bs ih =>
    rw [List.map_cons, List.flatMap_cons, List.flatMap_cons, ih.1, ih.2]
    exact ⟨rfl, rfl⟩

theorem flatMap_block (hs : List Nat) :
    (hs.map Reply.block).flatMap Reply.blocks = hs ∧ (hs.map Reply.block).flatMap Reply.invs = [] := by
  induction hs with
  | nil => exact ⟨rfl, rfl⟩
  | cons h hs ih =>
    rw [List.map_cons, List.flatMap_cons, List.flatMap_cons, ih.1, ih.2]
    exact ⟨rfl, rfl⟩

theorem flatMap_getdata (bs : List (List Nat)) :
    (bs.map Request.getdata).flatMap Request.wants = bs.flatten := by
  induction bs with
  | nil => rfl
  | cons b bs ih =>
    rw [List.map_cons, List.flatMap_cons, ih]
    rfl

theorem way_flush {bs : List (List Nat)} (hall : bs.flatten = d.queue) : (d.flush bs).way = d.way := by
  obtain ⟨hblocks, hinvs⟩ := flatMap_inv bs
  simp only [way, blocks, invs, wants, flush, List.flatMap_append, hblocks, hinvs, hall,
    List.append_nil, List.append_assoc]

theorem way_fetch {k : Nat} {bs : List (List Nat)} (hall : bs.flatten = d.asks.take k) :
    (d.fetch k bs).way = d.way := by
  have hsplit : d.asks = d.asks.take k ++ d.asks.drop k := (List.take_append_drop k d.asks).symm
  simp only [way, blocks, invs, wants, fetch, List.flatMap_append, flatMap_getdata, hall,
    List.append_assoc]
  conv_rhs => rw [hsplit]
  simp only [List.append_assoc]

theorem Plain.flush (h : Plain d) {bs : List (List Nat)} (hsome : ∀ hs ∈ bs, hs ≠ []) :
    Plain (d.flush bs) where
  requests := h.requests
  replies hs hmem := by
    rcases List.mem_append.mp hmem with hold | hnew
    · exact h.replies hs hold
    · obtain ⟨hs', hmem', heq⟩ := List.mem_map.mp hnew
      cases heq
      exact hsome hs hmem'

theorem Plain.fetch (h : Plain d) {k : Nat} {bs : List (List Nat)} (hsome : ∀ hs ∈ bs, hs ≠ []) :
    Plain (d.fetch k bs) where
  requests r hr := by
    rcases List.mem_append.mp hr with hold | hnew
    · exact h.requests r hold
    · obtain ⟨hs, hmem, rfl⟩ := List.mem_map.mp hnew
      exact ⟨hs, rfl, hsome hs hmem⟩
  replies := h.replies

theorem foldl_hear {hs : List Nat} (hnew : ∀ h ∈ hs, d.had nTip h = false) :
    hs.foldl (hear nTip) d = { d with asks := d.asks ++ hs } := by
  induction hs generalizing d with
  | nil => rw [List.foldl_nil, List.append_nil]
  | cons h hs ih =>
    obtain ⟨hh, hrest⟩ := List.forall_mem_cons.mp hnew
    have hfirst : d.hear nTip h = { d with asks := d.asks ++ [h] } := by
      rw [hear, hh, if_neg Bool.false_ne_true]
    rw [List.foldl_cons, hfirst]
    refine (@ih { d with asks := d.asks ++ [h] } hrest).trans ?_
    rw [List.append_assoc]
    rfl

theorem foldl_serve {hs : List Nat} (hnone : ∀ h ∈ hs, d.resume ≠ some h) :
    hs.foldl (serve nTip) d = { d with replies := d.replies ++ hs.map .block } := by
  induction hs generalizing d with
  | nil => rw [List.foldl_nil, List.map_nil, List.append_nil]
  | cons h hs ih =>
    obtain ⟨hh, hrest⟩ := List.forall_mem_cons.mp hnone
    rw [List.foldl_cons, serve, if_neg hh]
    refine (@ih { d with replies := d.replies ++ [.block h] } hrest).trans ?_
    rw [List.append_assoc]
    rfl

end Way

-- The heights from the best block on to m are on their way.
structure Fetching (nTip m : Nat) (d : Download) : Prop where
  plain : Plain d
  way : d.way = List.range' (d.nBest + 1) (m - d.nBest)
  ahead : d.nBest < m
  bound : m ≤ nTip
  asked : d.nAsked ≤ d.nBest
  parked : d.parked = true → m < nTip
  ending : d.resume = none ∧ (m = nTip ∨ d.parked = true ∧ m + 1 = nTip) ∨
    d.resume = some m ∧ m ∉ d.blocks

-- The last block of a batch is sent, and the inventory of the tip behind it.
structure Resuming (nTip m : Nat) (d : Download) : Prop where
  replies : d.replies =
    (List.range' (d.nBest + 1) (m - d.nBest)).map .block ++ [.inv [nTip]]
  rest : d.requests = [] ∧ d.asks = [] ∧ d.queue = [] ∧ d.resume = none
  bound : m ≤ nTip
  reached : d.nBest ≤ m ∨ d.nBest = nTip
  asked : d.nAsked ≤ d.nBest ∧ d.nAsked < m
  parked : d.parked = true → m < nTip ∧ d.nBest + 1 < nTip

-- Only the tip is on its way.
structure Leaping (nTip : Nat) (d : Download) : Prop where
  plain : Plain d
  way : d.way = [nTip]
  behind : d.nBest < nTip
  asked : d.nAsked < d.nBest
  parked : d.parked = false
  resume : d.resume = none

structure Asking (nTip : Nat) (d : Download) : Prop where
  requests : d.requests = [.getblocks d.nBest d.parked]
  rest : d.replies = [] ∧ d.asks = [] ∧ d.queue = [] ∧ d.resume = none
  bound : d.nBest ≤ nTip
  asked : d.nAsked = d.nBest
  parked : d.parked = true → d.nBest + 1 < nTip

def Idle (d : Download) : Prop := d.replies = [] ∧ d.requests = [] ∧ d.asks = [] ∧ d.queue = []

structure Finished (nTip : Nat) (d : Download) : Prop where
  idle : Idle d
  best : d.nBest = nTip
  parked : d.parked = false
  resume : d.resume = none

inductive Phase (nTip : Nat) (d : Download) : Prop
  | asking (h : Asking nTip d)
  | fetching (m : Nat) (h : Fetching nTip m d)
  | resuming (m : Nat) (h : Resuming nTip m d)
  | leaping (h : Leaping nTip d)
  | finished (h : Finished nTip d)

section Phase

variable {nTip m : Nat} {d : Download}

theorem Plain.idle (h : Plain d) (hway : d.way = []) : Idle d := by
  simp only [Download.way, List.append_eq_nil_iff, blocks, invs, wants, List.flatMap_eq_nil_iff] at hway
  obtain ⟨⟨⟨⟨hblocks, hwants⟩, hasks⟩, hinvs⟩, hqueue⟩ := hway
  refine ⟨?_, ?_, hasks, hqueue⟩
  · refine List.eq_nil_iff_forall_not_mem.mpr fun r hr => ?_
    cases r with
    | block k => cases hblocks _ hr
    | inv hs => exact h.replies hs hr (hinvs _ hr)
  · refine List.eq_nil_iff_forall_not_mem.mpr fun r hr => ?_
    obtain ⟨hs, rfl, hne⟩ := h.requests r hr
    exact hne (hwants _ hr)

theorem Fetching.mem_way (h : Fetching nTip m d) {k : Nat} (hk : k ∈ d.way) :
    d.nBest < k ∧ k ≤ m := by
  rw [h.way, List.mem_range'_1] at hk
  have hahead := h.ahead
  omega

theorem Fetching.new (h : Fetching nTip m d) {k : Nat} (hk : k ∈ d.way) : d.had nTip k = false := by
  obtain ⟨hlow, hhigh⟩ := h.mem_way hk
  rw [had, Bool.or_eq_false_iff, Bool.and_eq_false_iff, decide_eq_false_iff_not,
    decide_eq_false_iff_not]
  refine ⟨by omega, ?_⟩
  cases hp : d.parked with
  | false => exact .inl rfl
  | true =>
    have hm := h.parked hp
    exact .inr (by omega)

theorem Fetching.flush (h : Fetching nTip m d) {bs : List (List Nat)}
    (hall : bs.flatten = d.queue) (hsome : ∀ hs ∈ bs, hs ≠ []) : Fetching nTip m (d.flush bs) where
  plain := h.plain.flush hsome
  way := (way_flush hall).trans h.way
  ahead := h.ahead
  bound := h.bound
  asked := h.asked
  parked := h.parked
  ending := by
    have hblocks : (d.flush bs).blocks = d.blocks := by
      simp only [blocks, Download.flush, List.flatMap_append, (flatMap_inv bs).1, List.append_nil]
    rw [hblocks]
    exact h.ending

theorem Fetching.fetch (h : Fetching nTip m d) {k : Nat} {bs : List (List Nat)}
    (hall : bs.flatten = d.asks.take k) (hsome : ∀ hs ∈ bs, hs ≠ []) :
    Fetching nTip m (d.fetch k bs) where
  plain := h.plain.fetch hsome
  way := (way_fetch hall).trans h.way
  ahead := h.ahead
  bound := h.bound
  asked := h.asked
  parked := h.parked
  ending := h.ending

theorem way_inv {hs : List Nat} {rest : List Reply} (h : d.replies = .inv hs :: rest) :
    { d with
      replies := rest
      asks := d.asks ++ hs }.way = d.way := by
  simp only [way, blocks, invs, wants, h, List.flatMap_cons, Reply.blocks, Reply.invs,
    List.nil_append, List.append_assoc]

theorem Plain.inv (h : Plain d) {hs : List Nat} {rest : List Reply}
    (hreplies : d.replies = .inv hs :: rest) (asks : List Nat) :
    Plain { d with
      replies := rest
      asks := asks } where
  requests := h.requests
  replies hs' hmem := h.replies hs' (hreplies ▸ List.mem_cons_of_mem _ hmem)

theorem mem_way_inv {hs : List Nat} {rest : List Reply} (h : d.replies = .inv hs :: rest) {k : Nat}
    (hk : k ∈ hs) : k ∈ d.way := by
  have hinvs : k ∈ d.invs := by
    rw [invs, h, List.flatMap_cons]
    exact List.mem_append_left _ hk
  exact List.mem_append_left _ (List.mem_append_right _ hinvs)

theorem Fetching.read_inv (h : Fetching nTip m d) {hs : List Nat} {rest : List Reply}
    (hreplies : d.replies = .inv hs :: rest) :
    Phase nTip (read nTip (.inv hs) { d with replies := rest }) := by
  have hnew : ∀ k ∈ hs, had nTip k { d with replies := rest } = false := fun k hk =>
    h.new (mem_way_inv hreplies hk)
  rw [read, foldl_hear hnew]
  have hblocks : d.blocks = { d with replies := rest }.blocks := by
    rw [blocks, hreplies]
    rfl
  refine .fetching m ⟨h.plain.inv hreplies _, (way_inv hreplies).trans h.way, h.ahead, h.bound,
    h.asked, h.parked, ?_⟩
  have hending := h.ending
  rw [hblocks] at hending
  exact hending

theorem way_block {k : Nat} {rest : List Reply} (h : d.replies = .block k :: rest) :
    d.way = k :: { d with replies := rest }.way := by
  simp only [way, blocks, invs, wants, h, List.flatMap_cons, Reply.blocks, Reply.invs,
    List.nil_append, List.append_assoc, List.cons_append]

theorem Plain.block (h : Plain d) {k : Nat} {rest : List Reply}
    (hreplies : d.replies = .block k :: rest) : Plain { d with replies := rest } where
  requests := h.requests
  replies hs hmem := h.replies hs (hreplies ▸ List.mem_cons_of_mem _ hmem)

theorem Fetching.read_block (h : Fetching nTip m d) {k : Nat} {rest : List Reply}
    (hreplies : d.replies = .block k :: rest) :
    Phase nTip (read nTip (.block k) { d with replies := rest }) := by
  have hahead := h.ahead
  have hbound := h.bound
  have hplain := h.plain.block hreplies
  have hway := way_block hreplies
  have hnew := h.new (hway ▸ List.mem_cons_self)
  rw [h.way, show m - d.nBest = m - (d.nBest + 1) + 1 by omega, List.range'_succ,
    List.cons.injEq] at hway
  obtain ⟨rfl, hrest⟩ := hway
  have hnew' : had nTip (d.nBest + 1) { d with replies := rest } = false := hnew
  have hblocks : d.nBest + 1 ∈ d.blocks := by
    rw [blocks, hreplies, List.flatMap_cons]
    exact List.mem_append_left _ (List.mem_singleton.mpr rfl)
  have hless : ∀ j, j ∉ d.blocks → j ∉ { d with replies := rest }.blocks := by
    intro j hj hmem
    rw [blocks, hreplies, List.flatMap_cons] at hj
    exact hj (List.mem_append_right _ hmem)
  have hfresh : d.resume = some (d.nBest + 1) → d.nBest + 1 ∉ d.blocks → False :=
    fun _ hno => hno hblocks
  rw [read, arrive, hnew', if_neg Bool.false_ne_true, if_pos rfl]
  have hlast : m = d.nBest + 1 → { d with replies := rest }.way = [] ∧ d.resume = none ∧
      (m = nTip ∨ d.parked = true ∧ m + 1 = nTip) := by
    intro hm
    refine ⟨by rw [← hrest, hm, Nat.sub_self, List.range'_zero], ?_⟩
    rcases h.ending with hend | ⟨-, hno⟩
    · exact hend
    · exact absurd (hm ▸ hblocks) hno
  split
  · rename_i hjoin
    rw [Bool.and_eq_true, decide_eq_true_eq] at hjoin
    have hm := h.parked hjoin.1
    obtain ⟨hempty, hresume, -⟩ := hlast (by omega)
    exact .finished ⟨hplain.idle hempty, rfl, rfl, hresume⟩
  · rename_i hjoin
    rw [Bool.and_eq_true, decide_eq_true_eq] at hjoin
    by_cases hm : m = d.nBest + 1
    · obtain ⟨hempty, hresume, hend⟩ := hlast hm
      have htip : m = nTip := hend.resolve_right fun hp => hjoin ⟨hp.1, hm ▸ hp.2⟩
      have hparked : d.parked = false := by
        cases hp : d.parked with
        | false => rfl
        | true => exact absurd (h.parked hp) (by omega)
      exact .finished ⟨hplain.idle hempty, hm ▸ htip, hparked, hresume⟩
    · refine .fetching m ⟨⟨hplain.requests, hplain.replies⟩, hrest.symm, ?_, hbound, ?_, h.parked, ?_⟩
      · show d.nBest + 1 < m
        omega
      · exact Nat.le_succ_of_le h.asked
      · exact h.ending.imp id fun hend => ⟨hend.1, hless m hend.2⟩

theorem way_serve {hs : List Nat} {rest : List Request} (h : d.requests = .getdata hs :: rest) :
    { d with
      requests := rest
      replies := d.replies ++ hs.map Reply.block }.way = d.way := by
  obtain ⟨hblocks, hinvs⟩ := flatMap_block hs
  simp only [way, blocks, invs, wants, h, List.flatMap_append, List.flatMap_cons, hblocks, hinvs,
    Request.wants, List.append_nil, List.append_assoc]

theorem Plain.serve (h : Plain d) {hs : List Nat} {rest : List Request}
    (hrequests : d.requests = .getdata hs :: rest) :
    Plain { d with
      requests := rest
      replies := d.replies ++ hs.map Reply.block } where
  requests r hr := h.requests r (hrequests ▸ List.mem_cons_of_mem _ hr)
  replies hs' hmem := by
    rcases List.mem_append.mp hmem with hold | hnew
    · exact h.replies hs' hold
    · obtain ⟨k, -, heq⟩ := List.mem_map.mp hnew
      cases heq

theorem range'_last {a n : Nat} {pre post : List Nat}
    (h : pre ++ (a + n) :: post = List.range' (a + 1) n) : post = [] := by
  have hsorted : (pre ++ (a + n) :: post).Pairwise (· < ·) := h ▸ List.pairwise_lt_range'
  refine List.eq_nil_iff_forall_not_mem.mpr fun k hk => ?_
  have hlow := List.rel_of_pairwise_cons (List.pairwise_append.mp hsorted).2.1 hk
  have hmem : k ∈ List.range' (a + 1) n :=
    h ▸ List.mem_append_right _ (List.mem_cons_of_mem _ hk)
  rw [List.mem_range'_1] at hmem
  omega

theorem replies_blocks {l : List Reply} (hsome : ∀ hs, .inv hs ∈ l → hs ≠ [])
    (hinvs : l.flatMap Reply.invs = []) : l = (l.flatMap Reply.blocks).map .block := by
  induction l with
  | nil => rfl
  | cons r rest ih =>
    rw [List.flatMap_cons, List.append_eq_nil_iff] at hinvs
    have htail := ih (fun hs hmem => hsome hs (List.mem_cons_of_mem _ hmem)) hinvs.2
    cases r with
    | block k =>
      rw [List.flatMap_cons, List.map_append, ← htail]
      rfl
    | inv hs => exact absurd hinvs.1 (hsome hs List.mem_cons_self)

theorem Fetching.serve (h : Fetching nTip m d) {hs : List Nat} {rest : List Request}
    (hrequests : d.requests = .getdata hs :: rest) :
    Phase nTip (hs.foldl (serve nTip) { d with requests := rest }) := by
  have hahead := h.ahead
  by_cases hlast : d.resume = some m ∧ m ∈ hs
  · obtain ⟨hresume, hmem⟩ := hlast
    obtain ⟨pre, post, rfl, hfirst⟩ := List.eq_append_cons_of_mem hmem
    have hway := h.way
    have hsplit : d.way = (d.blocks ++ pre) ++ m :: (post ++ rest.flatMap Request.wants ++ d.asks ++
        d.invs ++ d.queue) := by
      simp only [Download.way, wants, hrequests, List.flatMap_cons, Request.wants, List.append_assoc,
        List.cons_append]
    have hm : d.nBest + (m - d.nBest) = m := by omega
    have hempty := @range'_last d.nBest (m - d.nBest) (d.blocks ++ pre) _
      (by rw [hm, ← hsplit, hway])
    rw [hsplit, hempty] at hway
    simp only [List.append_eq_nil_iff, List.flatMap_eq_nil_iff] at hempty
    obtain ⟨⟨⟨⟨rfl, hwants⟩, hasks⟩, hinvs⟩, hqueue⟩ := hempty
    have hrest : rest = [] := by
      refine List.eq_nil_iff_forall_not_mem.mpr fun r hr => ?_
      obtain ⟨hs, rfl, hne⟩ := h.plain.requests r (hrequests ▸ List.mem_cons_of_mem _ hr)
      exact hne (hwants _ hr)
    have hpre : ∀ k ∈ pre, { d with requests := rest }.resume ≠ some k := by
      rintro k hk heq
      exact hfirst ((Option.some.inj (hresume.symm.trans heq)) ▸ hk)
    have hreplies := replies_blocks h.plain.replies hinvs
    rw [List.foldl_append, foldl_serve hpre, List.foldl_cons, List.foldl_nil, Download.serve,
      if_pos hresume]
    refine .resuming m ⟨?_, ⟨hrest, hasks, hqueue, rfl⟩, h.bound, .inl (Nat.le_of_lt hahead),
      ⟨h.asked, Nat.lt_of_le_of_lt h.asked hahead⟩, fun hp => ?_⟩
    · show d.replies ++ pre.map Reply.block ++ [.block m, .inv [nTip]] =
        (List.range' (d.nBest + 1) (m - d.nBest)).map .block ++ [.inv [nTip]]
      rw [hreplies, ← hway, List.map_append, List.map_append]
      simp [blocks]
    · have hlow := h.parked hp
      exact ⟨hlow, by show d.nBest + 1 < nTip; omega⟩
  · have hnone : ∀ k ∈ hs, { d with requests := rest }.resume ≠ some k := by
      intro k hk hresume
      have hresume : d.resume = some k := hresume
      rcases h.ending with ⟨hend, -⟩ | ⟨hend, -⟩
      · rw [hend] at hresume
        cases hresume
      · obtain rfl := Option.some.inj (hend.symm.trans hresume)
        exact hlast ⟨hend, hk⟩
    rw [foldl_serve hnone]
    refine .fetching m ⟨h.plain.serve hrequests, (way_serve hrequests).trans h.way,
      hahead, h.bound, h.asked, h.parked, ?_⟩
    refine h.ending.imp id fun hend => ⟨hend.1, fun hmem => ?_⟩
    rw [blocks, List.flatMap_append, (flatMap_block hs).1] at hmem
    rcases List.mem_append.mp hmem with hold | hnew
    · exact hend.2 hold
    · exact hlast ⟨hend.1, hnew⟩

theorem batches_nil {bs : List (List Nat)} (hall : bs.flatten = []) (hsome : ∀ hs ∈ bs, hs ≠ []) :
    bs = [] :=
  List.eq_nil_iff_forall_not_mem.mpr fun hs hmem =>
    hsome hs hmem (List.flatten_eq_nil_iff.mp hall hs hmem)

theorem Resuming.read (h : Resuming nTip m d) {r : Reply} {rest : List Reply}
    (hreplies : d.replies = r :: rest) : Phase nTip (read nTip r { d with replies := rest }) := by
  obtain ⟨hrequests, hasks, hqueue, hresume⟩ := h.rest
  have hbound := h.bound
  have hasked := h.asked
  rcases Nat.lt_or_ge d.nBest m with hmore | hend
  · have hfirst := h.replies
    rw [show m - d.nBest = m - (d.nBest + 1) + 1 by omega, List.range'_succ, List.map_cons,
      List.cons_append, hreplies, List.cons.injEq] at hfirst
    obtain ⟨rfl, hrest⟩ := hfirst
    have hnew : had nTip (d.nBest + 1) { d with replies := rest } = false := by
      rw [had, Bool.or_eq_false_iff, Bool.and_eq_false_iff, decide_eq_false_iff_not,
        decide_eq_false_iff_not]
      refine ⟨by show ¬d.nBest + 1 ≤ d.nBest; omega, ?_⟩
      show d.parked = false ∨ _
      cases hp : d.parked with
      | false => exact .inl rfl
      | true =>
        have hlow := h.parked hp
        exact .inr (by omega)
    rw [Download.read, arrive, hnew, if_neg Bool.false_ne_true, if_pos rfl]
    split
    · rename_i hjoin
      rw [Bool.and_eq_true, decide_eq_true_eq] at hjoin
      have hlow := h.parked hjoin.1
      refine .resuming m ⟨?_, ⟨hrequests, hasks, hqueue, hresume⟩, hbound, .inr rfl, ?_, fun hp => by cases hp⟩
      · have hm : m = d.nBest + 1 := by omega
        show rest = (List.range' (nTip + 1) (m - nTip)).map .block ++ _
        rw [hrest, hm, Nat.sub_self, show d.nBest + 1 - nTip = 0 by omega]
        rfl
      · exact ⟨by show d.nAsked ≤ nTip; omega, hasked.2⟩
    · rename_i hjoin
      rw [Bool.and_eq_true, decide_eq_true_eq] at hjoin
      refine .resuming m ⟨hrest, ⟨hrequests, hasks, hqueue, hresume⟩, hbound, .inl hmore, ?_, ?_⟩
      · exact ⟨Nat.le_succ_of_le hasked.1, hasked.2⟩
      · intro hp
        have hlow := h.parked hp
        refine ⟨hlow.1, ?_⟩
        show d.nBest + 1 + 1 < nTip
        have hne : d.nBest + 1 + 1 ≠ nTip := fun heq => hjoin ⟨hp, heq⟩
        omega
  · have hlast := h.replies
    rw [show m - d.nBest = 0 by omega, List.range'_zero, List.map_nil, List.nil_append, hreplies,
      List.cons.injEq] at hlast
    obtain ⟨rfl, rfl⟩ := hlast
    rw [Download.read, List.foldl_cons, List.foldl_nil, hear]
    by_cases htip : d.nBest = nTip
    · have hparked : d.parked = false := by
        cases hp : d.parked with
        | false => rfl
        | true => exact absurd (h.parked hp).2 (by omega)
      have hhad : had nTip nTip { d with replies := [] } = true := by
        rw [had, Bool.or_eq_true, decide_eq_true_eq]
        exact .inl (by show nTip ≤ d.nBest; omega)
      rw [hhad, if_pos rfl, if_neg (by simp [hparked])]
      exact .finished ⟨⟨rfl, hrequests, hasks, hqueue⟩, htip, hparked, hresume⟩
    · have hm : d.nBest = m := by
        rcases h.reached with hle | heq
        · omega
        · exact absurd heq htip
      rcases Bool.eq_false_or_eq_true d.parked with hp | hp
      · have hhad : had nTip nTip { d with replies := [] } = true := by
          rw [had, Bool.or_eq_true, Bool.and_eq_true]
          exact .inr ⟨hp, decide_eq_true rfl⟩
        rw [hhad, if_pos rfl, if_pos (by simp [hp])]
        refine .asking ⟨?_, ⟨rfl, hasks, hqueue, hresume⟩, ?_, rfl, fun _ => (h.parked hp).2⟩
        · show d.requests ++ [.getblocks d.nBest true] = [.getblocks d.nBest d.parked]
          rw [hrequests, hp]
          rfl
        · show d.nBest ≤ nTip
          omega
      · have hhad : had nTip nTip { d with replies := [] } = false := by
          rw [had, Bool.or_eq_false_iff, decide_eq_false_iff_not]
          refine ⟨by show ¬nTip ≤ d.nBest; omega, ?_⟩
          rw [Bool.and_eq_false_iff]
          exact .inl hp
        rw [hhad, if_neg Bool.false_ne_true]
        refine .leaping ⟨⟨fun r hr => ?_, fun hs hmem => absurd hmem List.not_mem_nil⟩, ?_, ?_, ?_,
          hp, hresume⟩
        · rw [hrequests] at hr
          exact absurd hr List.not_mem_nil
        · simp [way, blocks, invs, wants, hrequests, hasks, hqueue]
        · show d.nBest < nTip
          omega
        · show d.nAsked < d.nBest
          omega

theorem Resuming.flush (h : Resuming nTip m d) {bs : List (List Nat)}
    (hall : bs.flatten = d.queue) (hsome : ∀ hs ∈ bs, hs ≠ []) : Resuming nTip m (d.flush bs) := by
  obtain ⟨hrequests, hasks, hqueue, hresume⟩ := h.rest
  obtain rfl := batches_nil (hall.trans hqueue) hsome
  refine ⟨?_, ⟨hrequests, hasks, rfl, hresume⟩, h.bound, h.reached, h.asked, h.parked⟩
  exact (List.append_nil _).trans h.replies

theorem Resuming.fetch (h : Resuming nTip m d) {k : Nat} {bs : List (List Nat)}
    (hall : bs.flatten = d.asks.take k) (hsome : ∀ hs ∈ bs, hs ≠ []) :
    Resuming nTip m (d.fetch k bs) := by
  obtain ⟨hrequests, hasks, hqueue, hresume⟩ := h.rest
  rw [hasks, List.take_nil] at hall
  obtain rfl := batches_nil hall hsome
  refine ⟨h.replies, ⟨?_, ?_, hqueue, hresume⟩, h.bound, h.reached, h.asked, h.parked⟩
  · exact (List.append_nil _).trans hrequests
  · show d.asks.drop k = []
    rw [hasks, List.drop_nil]

theorem Leaping.flush (h : Leaping nTip d) {bs : List (List Nat)}
    (hall : bs.flatten = d.queue) (hsome : ∀ hs ∈ bs, hs ≠ []) : Leaping nTip (d.flush bs) :=
  ⟨h.plain.flush hsome, (way_flush hall).trans h.way, h.behind, h.asked, h.parked, h.resume⟩

theorem Leaping.fetch (h : Leaping nTip d) {k : Nat} {bs : List (List Nat)}
    (hall : bs.flatten = d.asks.take k) (hsome : ∀ hs ∈ bs, hs ≠ []) :
    Leaping nTip (d.fetch k bs) :=
  ⟨h.plain.fetch hsome, (way_fetch hall).trans h.way, h.behind, h.asked, h.parked, h.resume⟩

theorem Leaping.new (h : Leaping nTip d) {k : Nat} (hk : k ∈ d.way) : d.had nTip k = false := by
  rw [h.way, List.mem_singleton] at hk
  have hbehind := h.behind
  rw [had, h.parked, hk, Bool.false_and, Bool.or_false, decide_eq_false_iff_not]
  omega

theorem Leaping.serve (h : Leaping nTip d) {hs : List Nat} {rest : List Request}
    (hrequests : d.requests = .getdata hs :: rest) :
    Leaping nTip (hs.foldl (serve nTip) { d with requests := rest }) := by
  have hnone : ∀ k ∈ hs, { d with requests := rest }.resume ≠ some k := by
    intro k _ hresume
    cases h.resume.symm.trans hresume
  rw [foldl_serve hnone]
  exact ⟨h.plain.serve hrequests, (way_serve hrequests).trans h.way, h.behind, h.asked, h.parked,
    h.resume⟩

theorem Leaping.read (h : Leaping nTip d) {r : Reply} {rest : List Reply}
    (hreplies : d.replies = r :: rest) : Phase nTip (read nTip r { d with replies := rest }) := by
  have hbehind := h.behind
  cases r with
  | inv hs =>
    have hnew : ∀ k ∈ hs, had nTip k { d with replies := rest } = false := fun k hk =>
      h.new (mem_way_inv hreplies hk)
    rw [Download.read, foldl_hear hnew]
    exact .leaping ⟨h.plain.inv hreplies _, (way_inv hreplies).trans h.way, hbehind, h.asked,
      h.parked, h.resume⟩
  | block k =>
    have hplain := h.plain.block hreplies
    have hway := way_block hreplies
    have hnew := h.new (hway ▸ List.mem_cons_self)
    rw [h.way, List.cons.injEq] at hway
    obtain ⟨rfl, hrest⟩ := hway
    have hidle := hplain.idle hrest.symm
    have hnew' : had nTip nTip { d with replies := rest } = false := hnew
    rw [Download.read, arrive, hnew', if_neg Bool.false_ne_true]
    split
    · rename_i hnext
      rw [if_neg (by simp [h.parked])]
      exact .finished ⟨hidle, rfl, h.parked, h.resume⟩
    · rename_i hfar
      have hfar : nTip ≠ d.nBest + 1 := hfar
      obtain ⟨hnone, hrequests, hasks, hqueue⟩ := hidle
      refine .asking ⟨?_, ⟨hnone, hasks, hqueue, h.resume⟩, Nat.le_of_lt hbehind, rfl, fun _ => ?_⟩
      · show d.requests ++ [.getblocks d.nBest true] = [.getblocks d.nBest true]
        have hrequests : d.requests = [] := hrequests
        rw [hrequests]
        rfl
      · show d.nBest + 1 < nTip
        omega

theorem Asking.offer (h : Asking nTip d) {nFrom n : Nat} {stopAtTip : Bool} {resume : Option Nat}
    {rest : List Request} (hrequests : d.requests = .getblocks nFrom stopAtTip :: rest)
    (hoffered : Offered nTip nFrom stopAtTip n resume) :
    Phase nTip (offer nFrom n resume { d with requests := rest }) := by
  obtain ⟨hreplies, hasks, hqueue, hresume⟩ := h.rest
  have hbound := h.bound
  have hwithin := hoffered.within
  have hfull := hoffered.full
  rw [h.requests, List.cons.injEq, Request.getblocks.injEq] at hrequests
  obtain ⟨⟨rfl, rfl⟩, rfl⟩ := hrequests
  have hlast : d.parked = true → lastWanted nTip d.parked = nTip - 1 := fun hp => by
    rw [lastWanted, if_pos hp]
  have hwhole : d.parked = false → lastWanted nTip d.parked = nTip := fun hp => by
    rw [lastWanted, hp, if_neg Bool.false_ne_true]
  rcases Nat.eq_zero_or_pos n with rfl | hpos
  · obtain ⟨rfl, hnone⟩ : resume = none ∧ 0 = lastWanted nTip d.parked - d.nBest :=
      hfull.resolve_right fun hsome => absurd hsome.1 (Nat.lt_irrefl 0)
    have hparked : d.parked = false := by
      cases hp : d.parked with
      | false => rfl
      | true =>
        have hlow := h.parked hp
        rw [hlast hp] at hnone
        omega
    rw [hwhole hparked] at hnone
    refine .finished ⟨⟨hreplies, rfl, hasks, ?_⟩, ?_, hparked, hresume⟩
    · show d.queue ++ List.range' (d.nBest + 1) 0 = []
      rw [hqueue, List.range'_zero, List.append_nil]
    · show d.nBest = nTip
      omega
  · have hle : d.nBest + n ≤ lastWanted nTip d.parked := by omega
    have htop : lastWanted nTip d.parked ≤ nTip := by
      rw [lastWanted]
      split <;> omega
    have hway : (Download.offer d.nBest n resume { d with requests := [] }).way =
        List.range' (d.nBest + 1) (d.nBest + n - d.nBest) := by
      rw [Nat.add_sub_cancel_left]
      simp [way, blocks, invs, wants, Download.offer, hreplies, hasks, hqueue]
    refine .fetching (d.nBest + n) ⟨⟨fun r hr => absurd hr List.not_mem_nil, ?_⟩, hway,
      Nat.lt_add_of_pos_right hpos, Nat.le_trans hle htop, Nat.le_of_eq h.asked, fun hp => ?_, ?_⟩
    · intro hs hmem
      have hmem : Reply.inv hs ∈ d.replies := hmem
      rw [hreplies] at hmem
      exact absurd hmem List.not_mem_nil
    · have hp : d.parked = true := hp
      have hlow := h.parked hp
      rw [hlast hp] at hle
      omega
    · have hblocks : (Download.offer d.nBest n resume { d with requests := [] }).blocks = [] := by
        rw [blocks]
        show d.replies.flatMap Reply.blocks = []
        rw [hreplies]
        rfl
      rcases hfull with ⟨rfl, hall⟩ | ⟨-, rfl⟩
      · refine .inl ⟨hresume, ?_⟩
        show d.nBest + n = nTip ∨ d.parked = true ∧ d.nBest + n + 1 = nTip
        cases hp : d.parked with
        | false =>
          rw [hwhole hp] at hall
          exact .inl (by omega)
        | true =>
          have hlow := h.parked hp
          rw [hlast hp] at hall
          exact .inr ⟨rfl, by omega⟩
      · refine .inr ⟨rfl, ?_⟩
        rw [hblocks]
        exact List.not_mem_nil

theorem Asking.flush (h : Asking nTip d) {bs : List (List Nat)}
    (hall : bs.flatten = d.queue) (hsome : ∀ hs ∈ bs, hs ≠ []) : Asking nTip (d.flush bs) := by
  obtain ⟨hreplies, hasks, hqueue, hresume⟩ := h.rest
  obtain rfl := batches_nil (hall.trans hqueue) hsome
  exact ⟨h.requests, ⟨(List.append_nil _).trans hreplies, hasks, rfl, hresume⟩, h.bound, h.asked,
    h.parked⟩

theorem Asking.fetch (h : Asking nTip d) {k : Nat} {bs : List (List Nat)}
    (hall : bs.flatten = d.asks.take k) (hsome : ∀ hs ∈ bs, hs ≠ []) :
    Asking nTip (d.fetch k bs) := by
  obtain ⟨hreplies, hasks, hqueue, hresume⟩ := h.rest
  rw [hasks, List.take_nil] at hall
  obtain rfl := batches_nil hall hsome
  refine ⟨(List.append_nil _).trans h.requests, ⟨hreplies, ?_, hqueue, hresume⟩, h.bound, h.asked,
    h.parked⟩
  show d.asks.drop k = []
  rw [hasks, List.drop_nil]

theorem Finished.flush (h : Finished nTip d) {bs : List (List Nat)}
    (hall : bs.flatten = d.queue) (hsome : ∀ hs ∈ bs, hs ≠ []) : Finished nTip (d.flush bs) := by
  obtain ⟨hreplies, hrequests, hasks, hqueue⟩ := h.idle
  obtain rfl := batches_nil (hall.trans hqueue) hsome
  exact ⟨⟨(List.append_nil _).trans hreplies, hrequests, hasks, rfl⟩, h.best, h.parked, h.resume⟩

theorem Finished.fetch (h : Finished nTip d) {k : Nat} {bs : List (List Nat)}
    (hall : bs.flatten = d.asks.take k) (hsome : ∀ hs ∈ bs, hs ≠ []) :
    Finished nTip (d.fetch k bs) := by
  obtain ⟨hreplies, hrequests, hasks, hqueue⟩ := h.idle
  rw [hasks, List.take_nil] at hall
  obtain rfl := batches_nil hall hsome
  refine ⟨⟨hreplies, (List.append_nil _).trans hrequests, ?_, hqueue⟩, h.best, h.parked, h.resume⟩
  show d.asks.drop k = []
  rw [hasks, List.drop_nil]

theorem Plain.no_getblocks (h : Plain d) {nFrom : Nat} {stopAtTip : Bool} {rest : List Request}
    (hrequests : d.requests = .getblocks nFrom stopAtTip :: rest) : False := by
  obtain ⟨hs, heq, -⟩ := h.requests _ (hrequests ▸ List.mem_cons_self)
  cases heq

theorem Phase.step {d' : Download} (h : Phase nTip d) (hstep : Step nTip d d') : Phase nTip d' := by
  cases hstep with
  | read r rest hreplies =>
    cases h with
    | asking h => cases h.rest.1.symm.trans hreplies
    | fetching m h =>
      cases r with
      | block k => exact h.read_block hreplies
      | inv hs => exact h.read_inv hreplies
    | resuming m h => exact h.read hreplies
    | leaping h => exact h.read hreplies
    | finished h => cases h.idle.1.symm.trans hreplies
  | getdata hs rest hrequests =>
    cases h with
    | asking h => cases h.requests.symm.trans hrequests
    | fetching m h => exact h.serve hrequests
    | resuming m h => cases h.rest.1.symm.trans hrequests
    | leaping h => exact .leaping (h.serve hrequests)
    | finished h => cases h.idle.2.1.symm.trans hrequests
  | getblocks nFrom n stopAtTip resume rest hrequests hoffered =>
    cases h with
    | asking h => exact h.offer hrequests hoffered
    | fetching m h => exact (h.plain.no_getblocks hrequests).elim
    | resuming m h => cases h.rest.1.symm.trans hrequests
    | leaping h => exact (h.plain.no_getblocks hrequests).elim
    | finished h => cases h.idle.2.1.symm.trans hrequests
  | flush bs hall hsome =>
    cases h with
    | asking h => exact .asking (h.flush hall hsome)
    | fetching m h => exact .fetching m (h.flush hall hsome)
    | resuming m h => exact .resuming m (h.flush hall hsome)
    | leaping h => exact .leaping (h.flush hall hsome)
    | finished h => exact .finished (h.flush hall hsome)
  | fetch k bs hall hsome =>
    cases h with
    | asking h => exact .asking (h.fetch hall hsome)
    | fetching m h => exact .fetching m (h.fetch hall hsome)
    | resuming m h => exact .resuming m (h.fetch hall hsome)
    | leaping h => exact .leaping (h.fetch hall hsome)
    | finished h => exact .finished (h.fetch hall hsome)

theorem Phase.caught_up (h : Phase nTip d) (hidle : Idle d) : d.nBest = nTip := by
  obtain ⟨hreplies, hrequests, hasks, hqueue⟩ := hidle
  have hempty : d.way = [] := by
    rw [way, blocks, invs, wants, hreplies, hrequests, hasks, hqueue]
    rfl
  cases h with
  | asking h => cases h.requests.symm.trans hrequests
  | fetching m h =>
    have hahead := h.ahead
    have hlen := congrArg List.length (h.way.symm.trans hempty)
    rw [List.length_range', List.length_nil] at hlen
    omega
  | resuming m h =>
    have hlen := congrArg List.length (h.replies.symm.trans hreplies)
    rw [List.length_append, List.length_nil] at hlen
    cases hlen
  | leaping h => cases h.way.symm.trans hempty
  | finished h => exact h.best

theorem Phase.best_le (h : Phase nTip d) : d.nBest ≤ nTip := by
  cases h with
  | asking h => exact h.bound
  | fetching m h => exact Nat.le_trans (Nat.le_of_lt h.ahead) h.bound
  | resuming m h =>
    rcases h.reached with hle | heq
    · exact Nat.le_trans hle h.bound
    · exact Nat.le_of_eq heq
  | leaping h => exact Nat.le_of_lt h.behind
  | finished h => exact Nat.le_of_eq h.best

end Phase

end Download

end Namecoin
