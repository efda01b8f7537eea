import Mathlib

namespace Total

instance finite_bitVec (w : Nat) : Finite (BitVec w) :=
  Finite.of_injective BitVec.toFin (fun _ _ h => BitVec.eq_of_toFin_eq h)

noncomputable instance fintype_bitVec (w : Nat) : Fintype (BitVec w) := Fintype.ofFinite _

variable {K V M : Type} [Fintype K] [AddCommGroup M]

def total (value : V → M) (m : K → Option V) : M := ∑ k, ((m k).map value).getD 0

theorem total_congr {value value' : V → M} {m : K → Option V}
    (h : ∀ k v, m k = some v → value v = value' v) : total value m = total value' m := by
  unfold total
  refine Finset.sum_congr rfl ?_
  intro k _
  cases hk : m k with
  | none => rfl
  | some v => simp [h k v hk]

section Update

variable [DecidableEq K]

theorem sum_update (f : K → M) (k : K) (v : M) :
    ∑ x, Function.update f k v x = ∑ x, f x - f k + v := by
  rw [Finset.sum_update_of_mem (Finset.mem_univ k),
    ← Finset.sum_sdiff (Finset.subset_univ {k}) (f := f), Finset.sum_singleton,
    add_sub_cancel_right, add_comm]

theorem total_update (value : V → M) (m : K → Option V) (k : K) (v : V) :
    total value (Function.update m k (some v)) =
      total value m - ((m k).map value).getD 0 + value v := by
  have h : (fun x => ((Function.update m k (some v) x).map value).getD 0) =
      Function.update (fun x => ((m x).map value).getD 0) k (value v) := by
    funext x
    by_cases hx : x = k
    · subst hx
      simp
    · simp [hx]
  unfold total
  rw [h, sum_update]

end Update

theorem sum_range_div {M : Type} [AddCommMonoid M] (f : Nat → M) (n : Nat) (hn : 0 < n) (k : Nat) :
    ∑ i ∈ Finset.range (k * n), f (i / n) = n • ∑ j ∈ Finset.range k, f j := by
  induction k with
  | zero => simp
  | succ k ih =>
    have hblock : ∑ i ∈ Finset.range n, f ((k * n + i) / n) = n • f k := by
      rw [← Finset.card_range n, ← Finset.sum_const, Finset.card_range]
      refine Finset.sum_congr rfl ?_
      intro i hi
      rw [Nat.mul_comm, Nat.mul_add_div hn, Nat.div_eq_of_lt (Finset.mem_range.mp hi),
        Nat.add_zero]
    rw [Nat.succ_mul, Finset.sum_range_add, ih, Finset.sum_range_succ, nsmul_add, hblock]

end Total
