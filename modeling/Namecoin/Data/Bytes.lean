import Namecoin.Data.Script

namespace Namecoin

@[simp]
theorem leBytes_length (k n : Nat) : (leBytes k n).length = k := by
  induction k generalizing n with
  | zero => rfl
  | succ k ih => simp [leBytes, ih]

theorem leNat_leBytes (k n : Nat) : leNat (leBytes k n) = n % 256 ^ k := by
  induction k generalizing n with
  | zero => simp [leBytes, leNat, Nat.mod_one]
  | succ k ih =>
    have hbyte : (UInt8.ofNat (n % 256)).toNat = n % 256 := by simp
    simp only [leBytes, leNat, hbyte, ih]
    rw [pow_succ', Nat.mod_mul]

theorem leNat_leBytes_of_lt {k n : Nat} (h : n < 256 ^ k) : leNat (leBytes k n) = n := by
  rw [leNat_leBytes, Nat.mod_eq_of_lt h]

theorem leNat_lt (l : List UInt8) : leNat l < 256 ^ l.length := by
  induction l with
  | nil => simp [leNat]
  | cons b l ih =>
    have hb := b.toNat_lt
    rw [leNat, List.length_cons, pow_succ]
    omega

theorem leNat_append (l m : List UInt8) : leNat (l ++ m) = leNat l + 256 ^ l.length * leNat m := by
  induction l with
  | nil => simp [leNat]
  | cons b l ih =>
    rw [List.cons_append, leNat, leNat, ih, List.length_cons, pow_succ]
    ring

theorem leNat_zeros (k : Nat) : leNat (List.replicate k 0) = 0 := by
  induction k with
  | zero => rfl
  | succ k ih => rw [List.replicate_succ, leNat, ih]; rfl

theorem leNat_take (k : Nat) (l : List UInt8) : leNat (l.take k) = leNat l % 256 ^ k := by
  by_cases hk : k ≤ l.length
  · have hlow := leNat_lt (l.take k)
    rw [List.length_take_of_le hk] at hlow
    have hsplit := leNat_append (l.take k) (l.drop k)
    rw [List.take_append_drop, List.length_take_of_le hk] at hsplit
    rw [hsplit, Nat.add_mul_mod_self_left, Nat.mod_eq_of_lt hlow]
  · have hle : l.length ≤ k := by omega
    have hpow : 256 ^ l.length ≤ 256 ^ k := Nat.pow_le_pow_right (by decide) hle
    rw [List.take_of_length_le hle, Nat.mod_eq_of_lt ((leNat_lt l).trans_le hpow)]

theorem leBytes_leNat {b : List UInt8} {k : Nat} (h : b.length = k) : leBytes k (leNat b) = b := by
  induction k generalizing b with
  | zero => rw [List.length_eq_zero_iff.mp h]; rfl
  | succ k ih =>
    cases b with
    | nil => cases h
    | cons x b =>
      have hx := x.toNat_lt
      have hmod : (x.toNat + 256 * leNat b) % 256 = x.toNat := by omega
      have hdiv : (x.toNat + 256 * leNat b) / 256 = leNat b := by omega
      rw [leNat, leBytes, hmod, hdiv, ih (Nat.succ.inj h), UInt8.ofNat_toNat]

@[simp]
theorem serHash_length (h : Uint256) : (serHash h).length = 32 := leBytes_length 32 _

theorem leNat_serHash (h : Uint256) : leNat (serHash h) = h.toNat :=
  leNat_leBytes_of_lt h.isLt

theorem serHash_injective : Function.Injective serHash := by
  intro a b hab
  apply BitVec.eq_of_toNat_eq
  rw [← leNat_serHash a, hab, leNat_serHash]

end Namecoin
