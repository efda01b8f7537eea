import Mathlib

namespace Rounds

open Relation

variable {S E : Type} (round : S → Except E (Bool × S)) (stuck : E)

def run : Nat → S → Except E S
  | 0, _ => .error stuck
  | fuel + 1, s => do
    let (again, s) ← round s
    if again then run fuel s else return s

variable {round} {stuck}

end Rounds
