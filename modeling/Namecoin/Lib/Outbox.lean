import Mathlib.Data.Finset.Basic
import Mathlib.Data.List.Nodup

namespace Namecoin

namespace Batch

variable {α : Type}

-- the messages already sent and the vector being filled
def push (n : Nat) (st : List (List α) × List α) (a : α) : List (List α) × List α :=
  if n ≤ (st.2 ++ [a]).length then (st.1 ++ [st.2 ++ [a]], []) else (st.1, st.2 ++ [a])

def close (st : List (List α) × List α) : List (List α) :=
  if st.2.isEmpty then st.1 else st.1 ++ [st.2]

def batches (n : Nat) (l : List α) : List (List α) := close (l.foldl (push n) ([], []))

def Sized (n : Nat) (ms : List (List α)) : Prop := ∀ m ∈ ms, m ≠ [] ∧ m.length ≤ n

theorem Sized.append {n : Nat} {ms ms' : List (List α)} (h : Sized n ms) (h' : Sized n ms') :
    Sized n (ms ++ ms') := by
  intro m hm
  rcases List.mem_append.mp hm with hm | hm
  · exact h m hm
  · exact h' m hm

theorem push_flatten (n : Nat) (st : List (List α) × List α) (a : α) :
    (push n st a).1.flatten ++ (push n st a).2 = st.1.flatten ++ st.2 ++ [a] := by
  unfold push
  split
  · simp
  · simp

theorem push_sized {n : Nat} (hn : 0 < n) {st : List (List α) × List α} (hsent : Sized n st.1)
    (hfill : st.2.length < n) (a : α) :
    Sized n (push n st a).1 ∧ (push n st a).2.length < n := by
  unfold push
  split
  · refine ⟨hsent.append ?_, hn⟩
    intro m hm
    rw [List.mem_singleton.mp hm]
    refine ⟨by simp, ?_⟩
    rw [List.length_append, List.length_singleton]
    exact hfill
  · rename_i hroom
    exact ⟨hsent, Nat.not_le.mp hroom⟩

theorem foldl_push_flatten (n : Nat) (l : List α) (st : List (List α) × List α) :
    (l.foldl (push n) st).1.flatten ++ (l.foldl (push n) st).2 = st.1.flatten ++ st.2 ++ l := by
  induction l generalizing st with
  | nil => rw [List.foldl_nil, List.append_nil]
  | cons a l ih => rw [List.foldl_cons, ih, push_flatten, List.append_assoc, List.singleton_append]

theorem foldl_push_sized {n : Nat} (hn : 0 < n) (l : List α) {st : List (List α) × List α}
    (hsent : Sized n st.1) (hfill : st.2.length < n) :
    Sized n (l.foldl (push n) st).1 ∧ (l.foldl (push n) st).2.length < n := by
  induction l generalizing st with
  | nil => exact ⟨hsent, hfill⟩
  | cons a l ih =>
    obtain ⟨hsent', hfill'⟩ := push_sized hn hsent hfill a
    exact ih hsent' hfill'

theorem close_flatten (st : List (List α) × List α) :
    (close st).flatten = st.1.flatten ++ st.2 := by
  unfold close
  split
  · next hempty => rw [List.isEmpty_iff.mp hempty, List.append_nil]
  · simp

theorem close_sized {n : Nat} {st : List (List α) × List α} (hsent : Sized n st.1)
    (hfill : st.2.length < n) : Sized n (close st) := by
  unfold close
  split
  · exact hsent
  · next hopen =>
    refine hsent.append ?_
    intro m hm
    rw [List.mem_singleton.mp hm]
    exact ⟨fun hnil => hopen (List.isEmpty_iff.mpr hnil), Nat.le_of_lt hfill⟩

theorem batches_flatten (n : Nat) (l : List α) : (batches n l).flatten = l := by
  rw [batches, close_flatten, foldl_push_flatten]
  rfl

theorem batches_sized {n : Nat} (hn : 0 < n) (l : List α) : Sized n (batches n l) := by
  have hstart : Sized n (α := α) [] := fun m hm => absurd hm List.not_mem_nil
  obtain ⟨hsent, hfill⟩ := @foldl_push_sized α n hn l ([], []) hstart hn
  exact close_sized hsent hfill

section Map

variable {β : Type}

theorem push_map (n : Nat) (f : α → β) (st : List (List α) × List α) (a : α) :
    push n (st.1.map (List.map f), st.2.map f) (f a) =
      ((push n st a).1.map (List.map f), (push n st a).2.map f) := by
  unfold push
  dsimp only
  rw [← List.map_singleton, ← List.map_append, List.length_map]
  split
  · refine Prod.ext ?_ rfl
    simp
  · rfl

theorem foldl_push_map (n : Nat) (f : α → β) (l : List α) (st : List (List α) × List α) :
    (l.map f).foldl (push n) (st.1.map (List.map f), st.2.map f) =
      ((l.foldl (push n) st).1.map (List.map f), (l.foldl (push n) st).2.map f) := by
  induction l generalizing st with
  | nil => rfl
  | cons a l ih => rw [List.map_cons, List.foldl_cons, List.foldl_cons, push_map, ih]

theorem batches_map (n : Nat) (f : α → β) (l : List α) :
    batches n (l.map f) = (batches n l).map (List.map f) := by
  have hfold : (l.map f).foldl (push n) ([], []) = _ := foldl_push_map n f l ([], [])
  rw [batches, hfold, batches, close, close, List.isEmpty_map]
  split
  · rfl
  · rw [List.map_append]
    rfl

end Map

end Batch

-- What the other side knows, and what waits to be told to it.
structure Outbox (α : Type) where
  known : Finset α
  queue : List α

namespace Outbox

inductive Event (α : Type) where
  | hear (a : α)
  | offer (a : α)
  | send (waits : α → Bool)

variable {α : Type}

def offers : List (Event α) → List α
  | [] => []
  | .offer a :: rest => a :: offers rest
  | .hear _ :: rest => offers rest
  | .send _ :: rest => offers rest

structure Told (evs : List (Event α)) (o o' : Outbox α) (told : List α) : Prop where
  once : told.Nodup
  news : ∀ a ∈ told, a ∉ o.known
  known : ∀ a, a ∈ o'.known ↔ a ∈ o.known ∨ a ∈ told ∨ .hear a ∈ evs
  source : ∀ a ∈ told ++ o'.queue, a ∈ o.queue ++ offers evs
  kept : ∀ a ∈ o.queue ++ offers evs, a ∈ o'.known ∨ a ∈ o'.queue

theorem offers_cons (ev : Event α) (rest : List (Event α)) :
    offers (ev :: rest) = offers [ev] ++ offers rest := by
  cases ev <;> rfl

theorem Told.trans {ev : Event α} {rest : List (Event α)} {o o' o'' : Outbox α}
    {told told' : List α} (h : Told [ev] o o' told) (h' : Told rest o' o'' told') :
    Told (ev :: rest) o o'' (told ++ told') := by
  have hkeeps : ∀ a ∈ o'.known, a ∈ o''.known := fun a ha => (h'.known a).mpr (.inl ha)
  refine ⟨List.nodup_append'.mpr ⟨h.once, h'.once, fun a ha ha' => ?_⟩, ?_, fun a => ?_, ?_, ?_⟩
  · exact h'.news a ha' ((h.known a).mpr (.inr (.inl ha)))
  · intro a ha hknown
    rcases List.mem_append.mp ha with ha | ha
    · exact h.news a ha hknown
    · exact h'.news a ha ((h.known a).mpr (.inl hknown))
  · have hhear : Event.hear a ∈ ev :: rest ↔ Event.hear a ∈ [ev] ∨ Event.hear a ∈ rest := by
      rw [← List.mem_append, List.singleton_append]
    rw [h'.known, h.known, List.mem_append, hhear]
    constructor
    · rintro ((hold | htold | hheard) | htold | hheard)
      · exact .inl hold
      · exact .inr (.inl (.inl htold))
      · exact .inr (.inr (.inl hheard))
      · exact .inr (.inl (.inr htold))
      · exact .inr (.inr (.inr hheard))
    · rintro (hold | (htold | htold) | hheard | hheard)
      · exact .inl (.inl hold)
      · exact .inl (.inr (.inl htold))
      · exact .inr (.inl htold)
      · exact .inl (.inr (.inr hheard))
      · exact .inr (.inr hheard)
  · intro a ha
    rw [offers_cons, ← List.append_assoc]
    rw [List.append_assoc] at ha
    rcases List.mem_append.mp ha with ha | ha
    · exact List.mem_append_left _ (h.source a (List.mem_append_left _ ha))
    · rcases List.mem_append.mp (h'.source a ha) with hq | hoffer
      · exact List.mem_append_left _ (h.source a (List.mem_append_right _ hq))
      · exact List.mem_append_right _ hoffer
  · intro a ha
    rw [offers_cons, ← List.append_assoc] at ha
    rcases List.mem_append.mp ha with ha | ha
    · rcases h.kept a ha with hknown | hq
      · exact .inl (hkeeps a hknown)
      · exact h'.kept a (List.mem_append_left _ hq)
    · exact h'.kept a (List.mem_append_right _ ha)

variable [DecidableEq α]

def pick (waits : α → Bool) : Finset α → List α → List α × List α
  | _, [] => ([], [])
  | known, a :: queue =>
    if a ∈ known then pick waits known queue
    else if waits a then
      let more := pick waits known queue
      (more.1, a :: more.2)
    else
      let more := pick waits (insert a known) queue
      (a :: more.1, more.2)

def step : Event α → Outbox α → Outbox α × List α
  | .hear a, o => ({ o with known := insert a o.known }, [])
  | .offer a, o => (if a ∈ o.known then o else { o with queue := o.queue ++ [a] }, [])
  | .send waits, o =>
    let picked := pick waits o.known o.queue
    (⟨o.known ∪ picked.1.toFinset, picked.2⟩, picked.1)

def run : List (Event α) → Outbox α → Outbox α × List α
  | [], o => (o, [])
  | ev :: rest, o =>
    let first := step ev o
    let more := run rest first.1
    (more.1, first.2 ++ more.2)

section Pick

variable {waits : α → Bool}

theorem pick_sublist (known : Finset α) (queue : List α) :
    (pick waits known queue).1.Sublist queue ∧ (pick waits known queue).2.Sublist queue := by
  induction queue generalizing known with
  | nil => exact ⟨List.Sublist.refl _, List.Sublist.refl _⟩
  | cons a queue ih =>
    rw [pick]
    split
    · exact ⟨(ih known).1.cons a, (ih known).2.cons a⟩
    · split
      · exact ⟨(ih known).1.cons a, (ih known).2.cons_cons a⟩
      · exact ⟨(ih (insert a known)).1.cons_cons a, (ih (insert a known)).2.cons a⟩

theorem pick_fresh (known : Finset α) (queue : List α) :
    (pick waits known queue).1.Nodup ∧ ∀ a ∈ (pick waits known queue).1, a ∉ known := by
  induction queue generalizing known with
  | nil => exact ⟨List.nodup_nil, fun a ha => absurd ha List.not_mem_nil⟩
  | cons a queue ih =>
    rw [pick]
    split
    · exact ih known
    · next hnew =>
      split
      · exact ih known
      · obtain ⟨hnodup, hfresh⟩ := ih (insert a known)
        refine ⟨List.nodup_cons.mpr ⟨fun ha => hfresh a ha (Finset.mem_insert_self a known), hnodup⟩,
          ?_⟩
        intro b hb hknown
        rcases List.mem_cons.mp hb with rfl | hb
        · exact hnew hknown
        · exact hfresh b hb (Finset.mem_insert_of_mem hknown)

theorem pick_waits (known : Finset α) (queue : List α) :
    ∀ a ∈ (pick waits known queue).2, waits a = true := by
  induction queue generalizing known with
  | nil => exact fun a ha => absurd ha List.not_mem_nil
  | cons a queue ih =>
    rw [pick]
    split
    · exact ih known
    · split
      · next hwait => exact List.forall_mem_cons.mpr ⟨hwait, ih known⟩
      · exact ih (insert a known)

theorem pick_all (known : Finset α) (queue : List α) :
    ∀ a ∈ queue, a ∈ known ∨ a ∈ (pick waits known queue).1 ∨ a ∈ (pick waits known queue).2 := by
  induction queue generalizing known with
  | nil => exact fun a ha => absurd ha List.not_mem_nil
  | cons a queue ih =>
    rw [pick, List.forall_mem_cons]
    split
    · next hknown => exact ⟨.inl hknown, ih known⟩
    · split
      · refine ⟨.inr (.inr List.mem_cons_self), fun b hb => ?_⟩
        exact (ih known b hb).imp_right (Or.imp_right (List.mem_cons_of_mem a))
      · refine ⟨.inr (.inl List.mem_cons_self), fun b hb => ?_⟩
        rcases ih (insert a known) b hb with hknown | htold | hwait
        · rcases Finset.mem_insert.mp hknown with rfl | hknown
          · exact .inr (.inl List.mem_cons_self)
          · exact .inl hknown
        · exact .inr (.inl (List.mem_cons_of_mem a htold))
        · exact .inr (.inr hwait)

theorem pick_unheard {known : Finset α} {queue : List α} (hnodup : queue.Nodup)
    (hnew : ∀ a ∈ queue, a ∉ known ∧ waits a = false) : pick waits known queue = (queue, []) := by
  induction queue generalizing known with
  | nil => rfl
  | cons a queue ih =>
    obtain ⟨hnot, hnodup⟩ := List.nodup_cons.mp hnodup
    obtain ⟨⟨hknown, hgoes⟩, hnew⟩ := List.forall_mem_cons.mp hnew
    have hrest : ∀ b ∈ queue, b ∉ insert a known ∧ waits b = false := by
      intro b hb
      refine ⟨fun hmem => ?_, (hnew b hb).2⟩
      rcases Finset.mem_insert.mp hmem with rfl | hold
      · exact hnot hb
      · exact (hnew b hb).1 hold
    rw [pick, if_neg hknown, hgoes, if_neg Bool.false_ne_true, ih hnodup hrest]

end Pick

theorem step_told (ev : Event α) (o : Outbox α) : Told [ev] o (step ev o).1 (step ev o).2 := by
  cases ev with
  | hear a =>
    refine ⟨List.nodup_nil, fun b hb => absurd hb List.not_mem_nil, fun b => ?_, fun b hb => ?_,
      fun b hb => .inr ?_⟩
    · simp [step, or_comm]
    · simpa [step, offers] using hb
    · simpa [step, offers] using hb
  | offer a =>
    refine ⟨List.nodup_nil, fun b hb => absurd hb List.not_mem_nil, fun b => ?_, fun b hb => ?_,
      fun b hb => ?_⟩
    · simp only [step]
      split <;> simp
    · simp only [step, List.nil_append] at hb
      split at hb
      · exact List.mem_append_left _ hb
      · simpa [offers] using hb
    · have hb' : b ∈ o.queue ∨ b = a := by simpa [offers] using hb
      simp only [step]
      split
      · next hknown =>
        rcases hb' with hb' | rfl
        · exact .inr hb'
        · exact .inl hknown
      · exact .inr (by simpa using hb')
  | send waits =>
    obtain ⟨hnodup, hfresh⟩ := @pick_fresh α _ waits o.known o.queue
    obtain ⟨htold, hwait⟩ := @pick_sublist α _ waits o.known o.queue
    refine ⟨hnodup, hfresh, fun b => ?_, fun b hb => ?_, fun b hb => ?_⟩
    · simp [step]
    · refine List.mem_append_left _ ?_
      rcases List.mem_append.mp hb with hb | hb
      · exact htold.subset hb
      · exact hwait.subset hb
    · have hb' : b ∈ o.queue := by simpa [offers] using hb
      rcases @pick_all α _ waits o.known o.queue b hb' with hknown | hb | hb
      · exact .inl (Finset.mem_union_left _ hknown)
      · exact .inl (Finset.mem_union_right _ (List.mem_toFinset.mpr hb))
      · exact .inr hb

theorem run_told (evs : List (Event α)) (o : Outbox α) : Told evs o (run evs o).1 (run evs o).2 := by
  induction evs generalizing o with
  | nil =>
    refine ⟨List.nodup_nil, fun a ha => absurd ha List.not_mem_nil, fun a => ?_, fun a ha => ?_,
      fun a ha => .inr ?_⟩
    · simp [run]
    · simpa [run, offers] using ha
    · simpa [run, offers] using ha
  | cons ev rest ih => exact (step_told ev o).trans (ih (step ev o).1)

-- what never waits is told in the order in which it was offered
theorem run_order {urgent : α → Bool} (evs : List (Event α)) (o : Outbox α)
    (hurgent : ∀ waits, .send waits ∈ evs → ∀ a, urgent a = true → waits a = false) :
    (((run evs o).2 ++ (run evs o).1.queue).filter urgent).Sublist
      ((o.queue ++ offers evs).filter urgent) := by
  induction evs generalizing o with
  | nil => simp [run, offers]
  | cons ev rest ih =>
    have hrest := ih (step ev o).1 fun waits hmem => hurgent waits (List.mem_cons_of_mem _ hmem)
    have hfirst : (((step ev o).2 ++ (step ev o).1.queue).filter urgent).Sublist
        ((o.queue ++ offers [ev]).filter urgent) := by
      cases ev with
      | hear a => simp [step, offers]
      | offer a =>
        simp only [step]
        split
        · simp [offers]
        · simp [offers]
      | send waits =>
        have hnone : (pick waits o.known o.queue).2.filter urgent = [] := by
          refine List.filter_eq_nil_iff.mpr fun a ha hu => ?_
          have hno := hurgent waits List.mem_cons_self a hu
          rw [pick_waits o.known o.queue a ha] at hno
          cases hno
        rw [step, List.filter_append, hnone, List.append_nil]
        have hsub := (@pick_sublist α _ waits o.known o.queue).1.filter urgent
        simpa [offers] using hsub
    rw [run, offers_cons]
    dsimp only
    rw [List.append_assoc, List.filter_append]
    refine ((List.Sublist.refl _).append hrest).trans ?_
    rw [List.filter_append, ← List.append_assoc, ← List.filter_append, ← List.append_assoc,
      @List.filter_append _ _ (o.queue ++ offers [ev])]
    exact hfirst.append (List.Sublist.refl _)

end Outbox

end Namecoin
