import Mathlib

namespace Doubling

def step (t k : Nat) : Nat := if k ≤ t then 1 else 2 ^ (k - t)

def back (t k : Nat) : Nat := if k ≤ t then k else t - 1 + 2 ^ (k - t)

variable {t k j : Nat}

theorem back_zero (t : Nat) : back t 0 = 0 := if_pos (Nat.zero_le t)

theorem step_pos (t k : Nat) : 0 < step t k := by
  unfold step
  split
  · exact Nat.one_pos
  · exact Nat.two_pow_pos _

theorem step_succ (t k : Nat) :
    step t (k + 1) = if t < k + 1 then 2 * step t k else step t k := by
  unfold step
  split
  · rename_i hlow
    rw [if_neg (by omega), if_pos (by omega)]
  · rename_i hhigh
    rw [if_pos (by omega)]
    split
    · rename_i hedge
      obtain rfl : k = t := by omega
      simp
    · rename_i hover
      rw [Nat.sub_add_comm (by omega), Nat.pow_succ, Nat.mul_comm]

theorem back_succ (ht : 0 < t) (k : Nat) : back t (k + 1) = back t k + step t k := by
  unfold back step
  split
  · rename_i hlow
    rw [if_pos (by omega), if_pos (by omega)]
  · rename_i hhigh
    split
    · rename_i hedge
      obtain rfl : k = t := by omega
      rw [Nat.add_sub_cancel_left]
      omega
    · rename_i hover
      rw [Nat.sub_add_comm (by omega), Nat.pow_succ]
      omega

theorem back_strictMono (ht : 0 < t) : StrictMono (back t) := by
  refine strictMono_nat_of_lt_succ fun k => ?_
  rw [back_succ ht]
  exact Nat.lt_add_of_pos_right (step_pos t k)

theorem back_self (t : Nat) : back t t = t := if_pos le_rfl

theorem lt_back (ht : 0 < t) : t < back t k ↔ t < k := by
  have hlt := (back_strictMono ht).lt_iff_lt (a := t) (b := k)
  rwa [back_self] at hlt

end Doubling
