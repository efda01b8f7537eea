import Mathlib

namespace Framing

variable {β μ : Type*}

inductive Step (β μ : Type*) where
  | wait (rest : List β)
  | take (msg : Option μ) (rest : List β)

structure Framer (β μ : Type*) where
  next : List β → Step β μ
  shrinks : ∀ {b msg rest}, next b = .take msg rest → rest.length < b.length
  stable : ∀ {b msg rest} c, next b = .take msg rest → next (b ++ c) = .take msg (rest ++ c)
  resumes : ∀ {b rest} c, next b = .wait rest → next (b ++ c) = next (rest ++ c)

namespace Framer

variable (f : Framer β μ)

def run (b : List β) : List μ × List β :=
  match h : f.next b with
  | .wait rest => ([], rest)
  | .take msg rest =>
    have : rest.length < b.length := f.shrinks h
    (msg.toList ++ (run rest).1, (run rest).2)
termination_by b.length

def feed (b : List β) : List (List β) → List μ × List β
  | [] => ([], b)
  | c :: chunks =>
    ((f.run (b ++ c)).1 ++ (feed (f.run (b ++ c)).2 chunks).1,
      (feed (f.run (b ++ c)).2 chunks).2)

theorem run_wait {b rest : List β} (h : f.next b = .wait rest) : f.run b = ([], rest) := by
  rw [run]
  split
  · next rest' hnext => cases hnext.symm.trans h; rfl
  · next msg rest' hnext => cases hnext.symm.trans h

theorem run_take {b rest : List β} {msg : Option μ} (h : f.next b = .take msg rest) :
    f.run b = (msg.toList ++ (f.run rest).1, (f.run rest).2) := by
  rw [run]
  split
  · next rest' hnext => cases hnext.symm.trans h
  · next msg' rest' hnext => cases hnext.symm.trans h; rfl

theorem run_congr {b b' : List β} (h : f.next b = f.next b') : f.run b = f.run b' := by
  cases hnext : f.next b' with
  | wait rest => rw [f.run_wait (h.trans hnext), f.run_wait hnext]
  | take msg rest => rw [f.run_take (h.trans hnext), f.run_take hnext]

theorem run_append (b c : List β) :
    f.run (b ++ c) = ((f.run b).1 ++ (f.run ((f.run b).2 ++ c)).1,
      (f.run ((f.run b).2 ++ c)).2) := by
  induction hn : b.length using Nat.strong_induction_on generalizing b with
  | h n ih =>
    cases hnext : f.next b with
    | wait rest =>
      rw [f.run_wait hnext, f.run_congr (f.resumes c hnext)]
      simp
    | take msg rest =>
      have hlt : rest.length < n := hn ▸ f.shrinks hnext
      rw [f.run_take hnext, f.run_take (f.stable c hnext), ih rest.length hlt rest rfl]
      simp [List.append_assoc]

theorem run_settled (b : List β) : f.run (f.run b).2 = ([], (f.run b).2) := by
  have h := f.run_append b []
  rw [List.append_nil, List.append_nil] at h
  have hmsgs : (f.run (f.run b).2).1 = [] := by
    have h1 := congrArg Prod.fst h
    exact List.append_right_eq_self.mp h1.symm
  have hrest : (f.run (f.run b).2).2 = (f.run b).2 := (congrArg Prod.snd h).symm
  exact Prod.ext hmsgs hrest

theorem feed_eq_run {b : List β} (hb : f.run b = ([], b)) (chunks : List (List β)) :
    f.feed b chunks = f.run (b ++ chunks.flatten) := by
  induction chunks generalizing b with
  | nil => simp [feed, hb]
  | cons c chunks ih =>
    rw [feed, ih (f.run_settled (b ++ c)), List.flatten_cons, ← List.append_assoc,
      f.run_append (b ++ c) chunks.flatten]

end Framer

end Framing
