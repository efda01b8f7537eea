import Namecoin.Data.Text
import Namecoin.Lib.Median

namespace Namecoin

open Median

def abs64 (n : Int) : Int := if 0 ≤ n then n else toInt64 (-n)

structure TimeCall where
  ip : Nat
  nTime : Int
  nNow : Int
  deriving DecidableEq

structure TimeData where
  setKnown : Finset Nat
  vTimeOffsets : List Int
  nTimeOffset : Int
  fDone : Bool

namespace TimeData

def start : TimeData := ⟨∅, [], 0, false⟩

def nOffsetSample (c : TimeCall) : Int := toInt64 (c.nTime - c.nNow)

def retime (vTimeOffsets : List Int) (s : TimeData) : TimeData :=
  let nMedian := vTimeOffsets.getD (vTimeOffsets.length / 2) 0
  -- Only let other nodes change our time by so much
  if abs64 nMedian < 70 * 60 then
    { s with vTimeOffsets := vTimeOffsets, nTimeOffset := nMedian }
  else
    let fMatch := vTimeOffsets.any
      (fun nOffset => decide (nOffset ≠ 0) && decide (abs64 nOffset < 5 * 60))
    { s with vTimeOffsets := vTimeOffsets, nTimeOffset := 0, fDone := s.fDone || !fMatch }

def added (s : TimeData) (c : TimeCall) : TimeData :=
  { s with
    setKnown := insert c.ip s.setKnown
    vTimeOffsets := (if s.vTimeOffsets = [] then [0] else s.vTimeOffsets) ++ [nOffsetSample c] }

def addTimeData (s : TimeData) (c : TimeCall) : TimeData :=
  if c.ip ∈ s.setKnown then s
  else if 5 ≤ (s.added c).vTimeOffsets.length ∧ (s.added c).vTimeOffsets.length % 2 = 1 then
    (s.added c).retime ((s.added c).vTimeOffsets.insertionSort (· ≤ ·))
  else s.added c

def run (calls : List TimeCall) : TimeData := calls.foldl addTimeData start

def accept (l : List TimeCall) (c : TimeCall) : List TimeCall :=
  if c.ip ∈ l.map TimeCall.ip then l else l ++ [c]

def accepted (calls : List TimeCall) : List TimeCall := calls.foldl accept []

def samplesOf (l : List TimeCall) : List Int := if l = [] then [] else 0 :: l.map nOffsetSample

def samples (calls : List TimeCall) : List Int := samplesOf (accepted calls)

structure Recomputes (pre : List TimeCall) (c : TimeCall) : Prop where
  fresh : c.ip ∉ (accepted pre).map TimeCall.ip
  enough : 5 ≤ (samples (pre ++ [c])).length
  odd : (samples (pre ++ [c])).length % 2 = 1

structure Bounded (calls : List TimeCall) : Prop where
  range : ∀ pre, pre <+: calls → -70 * 60 < (run pre).nTimeOffset ∧ (run pre).nTimeOffset < 70 * 60
  median : ∀ pre c, pre ++ [c] <+: calls →
    (run (pre ++ [c])).nTimeOffset ≠ (run pre).nTimeOffset → (run (pre ++ [c])).nTimeOffset ≠ 0 →
      IsMedian (run (pre ++ [c])).nTimeOffset (samples (pre ++ [c]))

def FewLeast (calls : List TimeCall) : Prop :=
  ∀ pre c, pre ++ [c] <+: calls → Recomputes pre c →
    2 * (samples (pre ++ [c])).count (-2 ^ 63) < (samples (pre ++ [c])).length

section Arithmetic

variable {n : Int}

theorem abs64_least : abs64 (-2 ^ 63) = -2 ^ 63 := by decide

theorem abs64_lt {k : Int} (hk : 0 < k) (hlow : -2 ^ 63 < n) (hhigh : n < 2 ^ 63) :
    abs64 n < k ↔ -k < n ∧ n < k := by
  unfold abs64
  split
  · omega
  · rw [toInt64_of_range (by omega)]
    omega

theorem mem_samples_ge {calls : List TimeCall} : ∀ a ∈ samples calls, -2 ^ 63 ≤ a ∧ a < 2 ^ 63 := by
  intro a ha
  unfold samples samplesOf at ha
  split at ha
  · cases ha
  · rcases List.mem_cons.mp ha with rfl | hmem
    · decide
    · obtain ⟨c, -, rfl⟩ := List.mem_map.mp hmem
      exact toInt64_range _

end Arithmetic

section Run

variable {pre calls : List TimeCall} {c : TimeCall} {s : TimeData}

structure Collected (s : TimeData) (l : List TimeCall) : Prop where
  known : ∀ ip, ip ∈ s.setKnown ↔ ip ∈ l.map TimeCall.ip
  offsets : s.vTimeOffsets.Perm (samplesOf l)

theorem samplesOf_snoc (l : List TimeCall) (c : TimeCall) :
    samplesOf (l ++ [c]) = (if samplesOf l = [] then [0] else samplesOf l) ++ [nOffsetSample c] := by
  cases l with
  | nil => rfl
  | cons a rest => simp [samplesOf]

theorem retime_rest (v : List Int) (s : TimeData) :
    (retime v s).vTimeOffsets = v ∧ (retime v s).setKnown = s.setKnown := by
  unfold retime
  dsimp only
  split
  · exact ⟨rfl, rfl⟩
  · exact ⟨rfl, rfl⟩

theorem Collected.added {l : List TimeCall} (h : Collected s l) (c : TimeCall) :
    Collected (s.added c) (l ++ [c]) where
  known ip := by
    rw [TimeData.added, Finset.mem_insert, h.known, List.map_append, List.mem_append,
      List.map_singleton, List.mem_singleton]
    exact or_comm
  offsets := by
    have hnil : s.vTimeOffsets = [] ↔ samplesOf l = [] := by
      rw [← List.length_eq_zero_iff, ← List.length_eq_zero_iff, h.offsets.length_eq]
    rw [TimeData.added, samplesOf_snoc]
    refine List.Perm.append_right _ ?_
    by_cases hv : s.vTimeOffsets = []
    · rw [if_pos hv, if_pos (hnil.mp hv)]
    · rw [if_neg hv, if_neg (fun hl => hv (hnil.mpr hl))]
      exact h.offsets

theorem Collected.step {l : List TimeCall} (h : Collected s l) (c : TimeCall) :
    Collected (s.addTimeData c) (accept l c) := by
  unfold addTimeData accept
  by_cases hold : c.ip ∈ s.setKnown
  · rw [if_pos hold, if_pos ((h.known _).mp hold)]
    exact h
  · rw [if_neg hold, if_neg (fun hin => hold ((h.known _).mpr hin))]
    have hadded := h.added c
    split
    · obtain ⟨hoffsets, hknown⟩ := retime_rest
        ((s.added c).vTimeOffsets.insertionSort (· ≤ ·)) (s.added c)
      refine ⟨fun ip => by rw [hknown]; exact hadded.known ip, ?_⟩
      rw [hoffsets]
      exact (List.perm_insertionSort (· ≤ ·) _).trans hadded.offsets
    · exact hadded

theorem run_snoc (pre : List TimeCall) (c : TimeCall) : run (pre ++ [c]) = (run pre).addTimeData c := by
  rw [run, List.foldl_append]
  rfl

theorem accepted_snoc (pre : List TimeCall) (c : TimeCall) :
    accepted (pre ++ [c]) = accept (accepted pre) c := by
  rw [accepted, List.foldl_append]
  rfl

theorem run_collected (pre : List TimeCall) : Collected (run pre) (accepted pre) := by
  induction pre using List.reverseRecOn with
  | nil => exact ⟨fun ip => by simp [run, start, accepted], .refl _⟩
  | append_singleton pre c ih =>
    rw [run_snoc, accepted_snoc]
    exact ih.step c

theorem run_offset (pre : List TimeCall) (c : TimeCall) :
    (Recomputes pre c ∧ ∃ m, IsMedian m (samples (pre ++ [c])) ∧
      (run (pre ++ [c])).nTimeOffset = if abs64 m < 70 * 60 then m else 0) ∨
    (¬Recomputes pre c ∧ (run (pre ++ [c])).nTimeOffset = (run pre).nTimeOffset) := by
  have h := run_collected pre
  have hadded := h.added c
  rw [run_snoc]
  unfold addTimeData
  by_cases hold : c.ip ∈ (run pre).setKnown
  · rw [if_pos hold]
    exact .inr ⟨fun hr => hr.fresh ((h.known _).mp hold), rfl⟩
  · have hfresh : c.ip ∉ (accepted pre).map TimeCall.ip := fun hin => hold ((h.known _).mpr hin)
    have hsamples : samples (pre ++ [c]) = samplesOf (accepted pre ++ [c]) := by
      rw [samples, accepted_snoc, accept, if_neg hfresh]
    have hlength := hadded.offsets.length_eq
    rw [← hsamples] at hlength
    rw [if_neg hold]
    split
    · rename_i hmany
      rw [hlength] at hmany
      have hsorted := List.perm_insertionSort (· ≤ ·) ((run pre).added c).vTimeOffsets
      have hodd : ((run pre).added c).vTimeOffsets.length % 2 = 1 := by rw [hlength, hmany.2]
      have hlt : ((run pre).added c).vTimeOffsets.length / 2 <
          (((run pre).added c).vTimeOffsets.insertionSort (· ≤ ·)).length := by
        rw [hsorted.length_eq]
        omega
      have hmedian := (isMedian_sort hodd (List.getElem?_eq_getElem hlt)).perm hadded.offsets
      rw [← hsamples] at hmedian
      refine .inl ⟨⟨hfresh, hmany.1, hmany.2⟩, _, hmedian, ?_⟩
      unfold retime
      rw [hsorted.length_eq, List.getD_eq_getElem _ _ hlt]
      dsimp only
      split
      · rfl
      · rfl
    · rename_i hfew
      rw [hlength] at hfew
      exact .inr ⟨fun hr => hfew ⟨hr.enough, hr.odd⟩, rfl⟩

theorem median_least_iff {m : Int} (h : IsMedian m (samples calls)) :
    m = -2 ^ 63 ↔ (samples calls).length < 2 * (samples calls).count (-2 ^ 63) :=
  h.eq_bottom_iff fun a ha => (mem_samples_ge a ha).1

end Run

theorem bounded_iff (calls : List TimeCall) : Bounded calls ↔ FewLeast calls := by
  constructor
  · intro hbounded pre c hpre hrecomputes
    by_contra hmany
    rcases run_offset pre c with ⟨-, m, hmedian, hoffset⟩ | ⟨hnot, -⟩
    · have hodd := hrecomputes.odd
      have hleast : m = -2 ^ 63 := (median_least_iff hmedian).mpr (by omega)
      rw [hleast, abs64_least, if_pos (by decide)] at hoffset
      have hrange := hbounded.range _ hpre
      rw [hoffset] at hrange
      exact absurd hrange.1 (by decide)
    · exact hnot hrecomputes
  · intro hfew
    -- a median other than the least value is judged by its true absolute value
    have hguard : ∀ pre c, pre ++ [c] <+: calls → Recomputes pre c →
        ∀ m, IsMedian m (samples (pre ++ [c])) →
          (abs64 m < 70 * 60 ↔ -70 * 60 < m ∧ m < 70 * 60) := by
      intro pre c hpre hrecomputes m hmedian
      have hin := mem_samples_ge m hmedian.mem
      have hne : m ≠ -2 ^ 63 := by
        intro heq
        have hmany := (median_least_iff hmedian).mp heq
        have hless := hfew pre c hpre hrecomputes
        omega
      have habs := abs64_lt (n := m) (k := 70 * 60) (by decide) (by omega) hin.2
      rw [habs]
      omega
    refine ⟨fun pre => ?_, fun pre c hpre hchanged hne => ?_⟩
    · induction pre using List.reverseRecOn with
      | nil => exact fun _ => by decide
      | append_singleton pre c ih =>
        intro hpre
        rcases run_offset pre c with ⟨hrecomputes, m, hmedian, hoffset⟩ | ⟨-, hsame⟩
        · rw [hoffset]
          split
          · rename_i hnear
            exact (hguard pre c hpre hrecomputes m hmedian).mp hnear
          · decide
        · rw [hsame]
          exact ih ((List.prefix_append pre [c]).trans hpre)
    · rcases run_offset pre c with ⟨-, m, hmedian, hoffset⟩ | ⟨-, hsame⟩
      · rw [hoffset] at hne ⊢
        split
        · exact hmedian
        · rename_i hfar
          rw [if_neg hfar] at hne
          exact absurd rfl hne
      · exact absurd hsame hchanged

def farCalls : List TimeCall :=
  [⟨1, 1400000000 - 2 ^ 63, 1400000000⟩, ⟨2, 1400000000 - 2 ^ 63, 1400000000⟩,
    ⟨3, 1400000000 - 2 ^ 63, 1400000000⟩, ⟨4, 1400000000, 1400000000⟩]

theorem farCalls_unbounded : (∀ c ∈ farCalls, -2 ^ 63 ≤ c.nTime ∧ c.nTime < 2 ^ 63 ∧
      0 ≤ c.nNow ∧ c.nNow ≤ 2 ^ 32) ∧
    (run farCalls).nTimeOffset = -2 ^ 63 ∧ ¬Bounded farCalls := by
  have hoffset : (run farCalls).nTimeOffset = -2 ^ 63 := by decide +kernel
  refine ⟨by decide, hoffset, fun hbounded => ?_⟩
  have hrange := hbounded.range farCalls (List.prefix_refl _)
  rw [hoffset] at hrange
  exact absurd hrange.1 (by decide)

end TimeData

end Namecoin
