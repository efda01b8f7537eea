import Namecoin.Lib.Lexer
import Namecoin.Script.Eval

namespace Namecoin

open Lexing (Lexer)

def nextInstruction (s : CScript) : Option (CScript × CScript) :=
  (getOp s).map fun r => (s.take (s.length - r.2.2.length), r.2.2)

def IsInstruction (b : CScript) : Prop := ∃ opcode vch, getOp b = some (opcode, vch, [])

theorem pushSize_split {opcode nSize : Nat} {s s' : CScript}
    (h : pushSize opcode s = some (nSize, s')) :
    ∃ w, s = w ++ s' ∧ ∀ r, pushSize opcode (w ++ r) = some (nSize, r) := by
  unfold pushSize at h
  split at h
  · next hlow =>
    cases h
    refine ⟨[], rfl, fun r => ?_⟩
    rw [pushSize, if_pos hlow, List.nil_append]
  · next hhigh =>
    dsimp only at h
    generalize hwidth : (if opcode = opPushdata1 then 1 else
      if opcode = opPushdata2 then 2 else 4) = width at h
    split at h
    · cases h
    · next hlen =>
      cases h
      have htake : (s.take width).length = width := List.length_take_of_le (by omega)
      refine ⟨s.take width, (List.take_append_drop width s).symm, fun r => ?_⟩
      rw [pushSize, if_neg hhigh]
      dsimp only
      rw [hwidth, if_neg (by rw [List.length_append]; omega), List.take_left' htake,
        List.drop_left' htake]

theorem getOp_split {s rest : CScript} {opcode : Nat} {vch : VchType}
    (h : getOp s = some (opcode, vch, rest)) :
    ∃ i, i ≠ [] ∧ s = i ++ rest ∧ ∀ r, getOp (i ++ r) = some (opcode, vch, r) := by
  cases s with
  | nil => cases h
  | cons b s =>
    rw [getOp] at h
    split at h
    · next hlow =>
      split at h
      · cases h
      · next nSize s' hpush =>
        split at h
        · cases h
        · next hle =>
          cases h
          obtain ⟨w, hw, hstable⟩ := pushSize_split hpush
          have htake : (s'.take nSize).length = nSize := List.length_take_of_le (by omega)
          refine ⟨b :: (w ++ s'.take nSize), by simp, ?_, fun r => ?_⟩
          · rw [List.cons_append, List.append_assoc, List.take_append_drop, ← hw]
          · rw [List.cons_append, List.append_assoc, getOp, if_pos hlow, hstable]
            dsimp only
            rw [if_neg (by rw [List.length_append]; omega), List.take_left' htake,
              List.drop_left' htake]
    · next hhigh =>
      cases h
      refine ⟨[b], by simp, rfl, fun r => ?_⟩
      rw [List.singleton_append, getOp, if_neg hhigh]

theorem nextInstruction_some {s t r : CScript} :
    nextInstruction s = some (t, r) ↔
      s = t ++ r ∧ ∃ opcode vch, getOp s = some (opcode, vch, r) := by
  unfold nextInstruction
  rw [Option.map_eq_some_iff]
  constructor
  · rintro ⟨⟨opcode, vch, rest⟩, hop, heq⟩
    obtain ⟨rfl, rfl⟩ := Prod.mk.inj heq
    obtain ⟨i, -, rfl, -⟩ := getOp_split hop
    refine ⟨?_, opcode, vch, hop⟩
    simp
  · rintro ⟨rfl, opcode, vch, hop⟩
    refine ⟨(opcode, vch, r), hop, ?_⟩
    simp

def instructionLexer : Lexer UInt8 where
  next := nextInstruction
  splits h := (nextInstruction_some.mp h).1
  nonempty h := by
    obtain ⟨hs, opcode, vch, hop⟩ := nextInstruction_some.mp h
    obtain ⟨i, hne, hi, -⟩ := getOp_split hop
    rw [hs] at hi
    rwa [List.append_cancel_right hi]
  stable r' h := by
    obtain ⟨-, opcode, vch, hop⟩ := nextInstruction_some.mp h
    obtain ⟨i, -, hi, hstable⟩ := getOp_split hop
    rw [List.append_cancel_right hi]
    exact nextInstruction_some.mpr ⟨rfl, opcode, vch, hstable r'⟩

def instructions (s : CScript) : List CScript := (instructionLexer.scan s).1

def unparsed (s : CScript) : CScript := (instructionLexer.scan s).2

theorem IsInstruction.isToken {b : CScript} (h : IsInstruction b) :
    instructionLexer.IsToken b := by
  obtain ⟨opcode, vch, hop⟩ := h
  exact nextInstruction_some.mpr ⟨(List.append_nil b).symm, opcode, vch, hop⟩

-- the loops at pc, as the script from pc on and what they leave of it
inductive Deletes (b : CScript) : CScript → CScript → Prop
  | erase {s r : CScript} (found : b <+: s) (more : Deletes b (s.drop b.length) r) : Deletes b s r
  | next {s rest r : CScript} {opcode : Nat} {vch : VchType} (other : ¬b <+: s)
      (op : getOp s = some (opcode, vch, rest)) (more : Deletes b rest r) :
      Deletes b s (s.take (s.length - rest.length) ++ r)
  | stop {s : CScript} (other : ¬b <+: s) (op : getOp s = none) : Deletes b s s

section Loops

variable {b s r : CScript} {fuel : Nat}

theorem Deletes.of_stripAll (h : Deletes b (stripAll b fuel s) r) : Deletes b s r := by
  induction fuel generalizing s with
  | zero => exact h
  | succ fuel ih =>
    rw [stripAll] at h
    split at h
    · next hfound => exact .erase (List.isPrefixOf_iff_prefix.mp hfound) (ih h)
    · exact h

theorem stripAll_length_le (b : CScript) (fuel : Nat) (s : CScript) :
    (stripAll b fuel s).length ≤ s.length := by
  induction fuel generalizing s with
  | zero => exact le_rfl
  | succ fuel ih =>
    rw [stripAll]
    split
    · have hrest := ih (s.drop b.length)
      rw [List.length_drop] at hrest
      omega
    · exact le_rfl

theorem not_prefix_stripAll (hb : b ≠ []) (hfuel : s.length ≤ fuel) :
    ¬b <+: stripAll b fuel s := by
  have hpos := List.length_pos_of_ne_nil hb
  induction fuel generalizing s with
  | zero =>
    intro hfound
    have hle := hfound.length_le
    rw [stripAll] at hle
    omega
  | succ fuel ih =>
    rw [stripAll]
    split
    · refine ih ?_
      rw [List.length_drop]
      omega
    · next hother => exact fun hfound => hother (List.isPrefixOf_iff_prefix.mpr hfound)

theorem deleteFrom_deletes (hb : b ≠ []) (hfuel : s.length < fuel) :
    Deletes b s (deleteFrom b fuel s) := by
  induction fuel generalizing s with
  | zero => exact absurd hfuel (Nat.not_lt_zero _)
  | succ fuel ih =>
    have hother := not_prefix_stripAll (s := s) hb le_rfl
    have hle := stripAll_length_le b s.length s
    rw [deleteFrom]
    refine @Deletes.of_stripAll b s _ s.length ?_
    cases hop : getOp (stripAll b s.length s) with
    | none => exact .stop hother hop
    | some a =>
      obtain ⟨opcode, vch, rest⟩ := a
      obtain ⟨i, hne, hsplit, -⟩ := getOp_split hop
      have hpos := List.length_pos_of_ne_nil hne
      have hlen := congrArg List.length hsplit
      rw [List.length_append] at hlen
      exact .next hother hop (ih (by omega))

theorem Deletes.eq_keep (hb : IsInstruction b) (h : Deletes b s r) :
    r = instructionLexer.keep (fun t => decide (t ≠ b)) s := by
  induction h with
  | @erase s r hfound _ ih =>
    rw [ih, Lexer.keep_some (hb.isToken.next_prefix hfound)]
    simp
  | @next s rest r opcode vch hother hop _ ih =>
    obtain ⟨i, -, rfl, -⟩ := getOp_split hop
    have hnext : instructionLexer.next (i ++ rest) = some (i, rest) :=
      nextInstruction_some.mpr ⟨rfl, opcode, vch, hop⟩
    have hne : i ≠ b := by
      rintro rfl
      exact hother (List.prefix_append i rest)
    rw [Lexer.keep_some hnext, if_pos (decide_eq_true hne), ← ih]
    simp
  | @stop s _ hop =>
    rw [Lexer.keep_none]
    change nextInstruction s = none
    rw [nextInstruction, hop]
    rfl

end Loops

theorem findAndDelete_deletes {b : CScript} (hb : b ≠ []) (s : CScript) :
    Deletes b s (findAndDelete s b) := by
  rw [findAndDelete, if_neg (by simpa using hb)]
  exact deleteFrom_deletes hb (Nat.lt_succ_self _)

theorem IsInstruction.ne_nil {b : CScript} (h : IsInstruction b) : b ≠ [] := by
  rintro rfl
  obtain ⟨opcode, vch, hop⟩ := h
  cases hop

theorem findAndDelete_keep {b : CScript} (hb : IsInstruction b) (s : CScript) :
    findAndDelete s b = instructionLexer.keep (fun t => decide (t ≠ b)) s :=
  (findAndDelete_deletes hb.ne_nil s).eq_keep hb

theorem findAndDelete_exact {b b' : CScript} (hb : IsInstruction b) (hb' : IsInstruction b')
    (s : CScript) :
    Deletes b s (findAndDelete s b) ∧
    findAndDelete s b = ((instructions s).filter (fun t => decide (t ≠ b))).flatten ++ unparsed s ∧
    findAndDelete (findAndDelete s b) b = findAndDelete s b ∧
    findAndDelete (findAndDelete s b) b' = findAndDelete (findAndDelete s b') b := by
  refine ⟨findAndDelete_deletes hb.ne_nil s, findAndDelete_keep hb s, ?_, ?_⟩
  · rw [findAndDelete_keep hb, findAndDelete_keep hb, Lexer.keep_idem]
  · rw [findAndDelete_keep hb, findAndDelete_keep hb', findAndDelete_keep hb',
      findAndDelete_keep hb, Lexer.keep_comm]

def separators : CScript := [171, 171, 1, 171, 172, 171, 2, 171]

theorem findAndDelete_exact_separators :
    ((instructions separators).filter (fun t => decide (t ≠ [171]))).flatten ++
      unparsed separators = [1, 171, 172, 2, 171] ∧
    findAndDelete (findAndDelete separators [171]) [172] =
      findAndDelete (findAndDelete separators [172]) [171] := by
  obtain ⟨-, hkept, -, hcomm⟩ := @findAndDelete_exact [171] [172]
    ⟨171, [], rfl⟩ ⟨172, [], rfl⟩ separators
  exact ⟨hkept.symm.trans (by decide), hcomm⟩

end Namecoin
