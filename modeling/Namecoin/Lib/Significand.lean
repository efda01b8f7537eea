import Mathlib.Data.Nat.Size
import Mathlib.Algebra.Order.Ring.Nat

namespace Significand

variable {w p n m : Nat}

def width (w n : Nat) : Nat := Nat.size n / w + 1

def unit (w p n : Nat) : Nat := 2 ^ (w * (width w n - p))

def roundDown (w p n : Nat) : Nat := n / unit w p n * unit w p n

theorem roundDown_le (w p n : Nat) : roundDown w p n ≤ n := Nat.div_mul_le_self n _

theorem roundDown_of_narrow (h : width w n ≤ p) : roundDown w p n = n := by
  rw [roundDown, unit, Nat.sub_eq_zero_of_le h, Nat.mul_zero, Nat.pow_zero, Nat.div_one,
    Nat.mul_one]

theorem width_mono (h : n ≤ m) : width w n ≤ width w m :=
  Nat.add_le_add_right (Nat.div_le_div_right (Nat.size_le_size h)) 1

theorem lt_of_width (hw : 0 < w) : n < 2 ^ (w * width w n - 1) := by
  rw [← Nat.size_le]
  have hlt : Nat.size n < w * (Nat.size n / w + 1) := Nat.lt_mul_div_succ _ hw
  rw [width]
  omega

theorem le_of_width (hw : 0 < w) (h : 2 ≤ width w n) : 2 ^ (w * (width w n - 1) - 1) ≤ n := by
  rw [← Nat.lt_size]
  have hle : w * (Nat.size n / w) ≤ Nat.size n := Nat.mul_div_le _ _
  rw [width] at h ⊢
  have hpos : 0 < w * (Nat.size n / w) := Nat.mul_pos hw (by omega)
  rw [Nat.add_sub_cancel]
  omega

-- The least number of a greater width is a multiple of that width's unit.
theorem roundDown_mono (hw : 0 < w) (hp : 2 ≤ p) (h : n ≤ m) :
    roundDown w p n ≤ roundDown w p m := by
  rcases (width_mono h : width w n ≤ width w m).eq_or_lt with hsame | hless
  · have hunit : unit w p n = unit w p m := by rw [unit, unit, hsame]
    rw [roundDown, roundDown, hunit]
    exact Nat.mul_le_mul_right _ (Nat.div_le_div_right h)
  · have hwide : 2 ≤ width w m := by
      have hone : 1 ≤ width w n := Nat.le_add_left 1 _
      omega
    have hbelow : n < 2 ^ (w * (width w m - 1) - 1) := by
      have hstep : w * width w n ≤ w * (width w m - 1) := Nat.mul_le_mul_left w (by omega)
      exact (lt_of_width hw).trans_le (Nat.pow_le_pow_right (by decide) (by omega))
    have hdvd : unit w p m ∣ 2 ^ (w * (width w m - 1) - 1) := by
      refine Nat.pow_dvd_pow 2 ?_
      have hstep : w * (width w m - p) ≤ w * (width w m - 2) := Nat.mul_le_mul_left w (by omega)
      have hsplit : w * (width w m - 1) = w * (width w m - 2) + w := by
        rw [← Nat.mul_succ]
        congr 1
        omega
      omega
    calc roundDown w p n ≤ n := roundDown_le w p n
      _ ≤ 2 ^ (w * (width w m - 1) - 1) := hbelow.le
      _ = 2 ^ (w * (width w m - 1) - 1) / unit w p m * unit w p m := (Nat.div_mul_cancel hdvd).symm
      _ ≤ roundDown w p m :=
        Nat.mul_le_mul_right _ (Nat.div_le_div_right (le_of_width hw hwide))

theorem digits_lt (hw : 0 < w) (h : p ≤ width w n) : n / unit w p n < 2 ^ (w * p - 1) := by
  rcases Nat.eq_zero_or_pos p with rfl | hp
  · rw [Nat.mul_zero]
    have hlt := lt_of_width (n := n) hw
    rw [unit, Nat.sub_zero, Nat.div_eq_of_lt]
    · exact Nat.two_pow_pos _
    · exact hlt.trans_le (Nat.pow_le_pow_right (by decide) (Nat.sub_le _ _))
  · rw [unit, Nat.div_lt_iff_lt_mul (Nat.two_pow_pos _), ← Nat.pow_add]
    have hwp : 0 < w * p := Nat.mul_pos hw hp
    have hsum : w * p + w * (width w n - p) = w * width w n := by
      rw [← Nat.mul_add]
      congr 1
      omega
    rw [show w * p - 1 + w * (width w n - p) = w * width w n - 1 by omega]
    exact lt_of_width hw

-- The least number of this width is a multiple of the unit, so rounding stops above it.
theorem width_roundDown (hw : 0 < w) (hp : 2 ≤ p) (n : Nat) :
    width w (roundDown w p n) = width w n := by
  refine (width_mono (roundDown_le w p n)).antisymm ?_
  by_cases hwide : width w n ≤ p
  · rw [roundDown_of_narrow hwide]
  · have hstep : w * (width w n - p) + w ≤ w * (width w n - 1) := by
      rw [← Nat.mul_succ]
      exact Nat.mul_le_mul_left w (by omega)
    have hdvd : unit w p n ∣ 2 ^ (w * (width w n - 1) - 1) := Nat.pow_dvd_pow 2 (by omega)
    have hle : 2 ^ (w * (width w n - 1) - 1) ≤ roundDown w p n := by
      rw [roundDown, ← Nat.div_mul_cancel hdvd]
      exact Nat.mul_le_mul_right _ (Nat.div_le_div_right (le_of_width hw (by omega)))
    have hsize : w * (width w n - 1) ≤ Nat.size (roundDown w p n) := by
      rw [← Nat.lt_size] at hle
      omega
    have hquot : width w n - 1 ≤ Nat.size (roundDown w p n) / w :=
      (Nat.le_div_iff_mul_le hw).mpr (by rwa [Nat.mul_comm])
    have hsum : width w (roundDown w p n) = Nat.size (roundDown w p n) / w + 1 := rfl
    omega

theorem roundDown_div_unit (w p n : Nat) : roundDown w p n / unit w p n = n / unit w p n :=
  Nat.mul_div_cancel _ (Nat.two_pow_pos _)

theorem roundDown_ne_zero (hw : 0 < w) (hp : 2 ≤ p) (hn : n ≠ 0) : roundDown w p n ≠ 0 := by
  intro hzero
  by_cases hwide : width w n ≤ p
  · rw [roundDown_of_narrow hwide] at hzero
    exact hn hzero
  · have hwidth := width_roundDown hw hp n
    have hone : width w 0 = 1 := by rw [width, Nat.size_zero, Nat.zero_div]
    rw [hzero, hone] at hwidth
    omega

end Significand
