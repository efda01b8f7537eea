import Namecoin.Lib.Act

namespace Checked

inductive Hazard where
  | outOfRange
  | wideShift
  | zeroDivisor
  deriving DecidableEq, Repr

variable {α : Type}

def item (l : List α) (i : Nat) : Except Hazard α :=
  match l[i]? with
  | some a => .ok a
  | none => .error .outOfRange

def advance (l : List α) (p n : Nat) : Except Hazard Nat :=
  if p + n ≤ l.length then .ok (p + n) else .error .outOfRange

def window (l : List α) (p n : Nat) : Except Hazard (List α) :=
  if p + n ≤ l.length then .ok ((l.drop p).take n) else .error .outOfRange

def shiftOne (n : Nat) : Except Hazard Int :=
  if n < 31 then .ok (2 ^ n) else .error .wideShift

def remainder (a b : Nat) : Except Hazard Nat :=
  if b = 0 then .error .zeroDivisor else .ok (a % b)

theorem advance_of_le {l : List α} {p n : Nat} (h : p + n ≤ l.length) :
    advance l p n = .ok (p + n) := if_pos h

theorem window_of_le {l : List α} {p n : Nat} (h : p + n ≤ l.length) :
    window l p n = .ok ((l.drop p).take n) := if_pos h

theorem shiftOne_of_lt {n : Nat} (h : n < 31) : shiftOne n = .ok (2 ^ n) := if_pos h

theorem remainder_of_pos {a b : Nat} (h : 0 < b) : remainder a b = .ok (a % b) :=
  if_neg (Nat.ne_of_gt h)

end Checked
