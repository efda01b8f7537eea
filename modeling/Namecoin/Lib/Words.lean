import Mathlib.Data.Nat.Digits.Lemmas
import Mathlib.Tactic.Ring

namespace Words

variable {w : Nat} {l m : List (BitVec w)}

def value (l : List (BitVec w)) : Nat := Nat.ofDigits (2 ^ w) (l.map BitVec.toNat)

@[simp]
theorem value_nil : value ([] : List (BitVec w)) = 0 := rfl

theorem value_cons (x : BitVec w) (l : List (BitVec w)) :
    value (x :: l) = x.toNat + 2 ^ w * value l := by
  rw [value, value, List.map_cons, Nat.ofDigits_cons]

theorem modulus_succ (w n : Nat) : 2 ^ (w * (n + 1)) = 2 ^ w * 2 ^ (w * n) := by
  rw [Nat.mul_succ, Nat.pow_add, Nat.mul_comm]

theorem value_lt (l : List (BitVec w)) : value l < 2 ^ (w * l.length) := by
  induction l with
  | nil => exact Nat.two_pow_pos _
  | cons x l ih =>
    have hx := x.isLt
    have hle : 2 ^ w * (value l + 1) ≤ 2 ^ w * 2 ^ (w * l.length) := Nat.mul_le_mul_left _ ih
    rw [Nat.mul_succ] at hle
    rw [value_cons, List.length_cons, modulus_succ]
    omega

theorem value_zeros (w n : Nat) : value (List.replicate n (0 : BitVec w)) = 0 := by
  induction n with
  | zero => rfl
  | succ n ih => rw [List.replicate_succ, value_cons, ih]; simp

theorem value_cons_inj {x y : BitVec w} (h : value (x :: l) = value (y :: m)) :
    x = y ∧ value l = value m := by
  rw [value_cons, value_cons] at h
  have hlow := congrArg (· % 2 ^ w) h
  have hhigh := congrArg (· / 2 ^ w) h
  simp only [Nat.add_mul_mod_self_left, Nat.mod_eq_of_lt x.isLt, Nat.mod_eq_of_lt y.isLt] at hlow
  simp only [Nat.add_mul_div_left _ _ (Nat.two_pow_pos w), Nat.div_eq_of_lt x.isLt,
    Nat.div_eq_of_lt y.isLt, Nat.zero_add] at hhigh
  exact ⟨BitVec.eq_of_toNat_eq hlow, hhigh⟩

theorem eq_of_value_eq (hlen : l.length = m.length) (h : value l = value m) : l = m := by
  induction l generalizing m with
  | nil => exact (List.length_eq_zero_iff.mp hlen.symm).symm
  | cons x l ih =>
    cases m with
    | nil => cases hlen
    | cons y m =>
      obtain ⟨rfl, hrest⟩ := value_cons_inj h
      rw [ih (Nat.succ.inj hlen) hrest]

-- a sum reduced word by word: the low word stays, the carry goes into the rest
theorem low_word_mod {r : Nat} (hr : r < 2 ^ w) (t n : Nat) :
    (r + 2 ^ w * t) % 2 ^ (w * (n + 1)) = r + 2 ^ w * (t % 2 ^ (w * n)) := by
  rw [modulus_succ, Nat.mod_mul, Nat.add_mul_mod_self_left, Nat.mod_eq_of_lt hr,
    Nat.add_mul_div_left _ _ (Nat.two_pow_pos w), Nat.div_eq_of_lt hr, Nat.zero_add]

theorem value_complement (l : List (BitVec w)) :
    value (l.map fun x => ~~~x) + value l + 1 = 2 ^ (w * l.length) := by
  induction l with
  | nil => rfl
  | cons x l ih =>
    have hx := x.isLt
    have hword : (~~~x).toNat + x.toNat + 1 = 2 ^ w := by
      rw [BitVec.toNat_not]
      omega
    rw [List.map_cons, value_cons, value_cons, List.length_cons, modulus_succ, ← ih, ← hword]
    ring

theorem value_testBit (hw : 0 < w) (l : List (BitVec w)) (i : Nat) :
    (value l).testBit i = (l.getD (i / w) 0).getLsbD (i % w) := by
  induction l generalizing i with
  | nil => rw [value_nil, Nat.zero_testBit, List.getD_nil]; exact (BitVec.getLsbD_zero).symm
  | cons x l ih =>
    rw [value_cons, Nat.add_comm, Nat.testBit_two_pow_mul_add _ x.isLt]
    split
    · next hlow => rw [Nat.div_eq_of_lt hlow, Nat.mod_eq_of_lt hlow]; rfl
    · next hhigh =>
      have hle : w ≤ i := Nat.le_of_not_lt hhigh
      rw [ih, Nat.div_eq_sub_div hw hle, Nat.mod_eq_sub_mod hle]
      rfl

theorem testBit_value_of_ge {i : Nat} (h : w * l.length ≤ i) : (value l).testBit i = false :=
  Nat.testBit_lt_two_pow ((value_lt l).trans_le (Nat.pow_le_pow_right (by decide) h))

section Writes

variable {j b W : Nat} {pn : List (BitVec w)}

def orAt (pn : List (BitVec w)) (i : Nat) (x : BitVec w) : List (BitVec w) :=
  pn.modify i fun y => y ||| x

@[simp]
theorem orAt_length (pn : List (BitVec w)) (i : Nat) (x : BitVec w) :
    (orAt pn i x).length = pn.length := List.length_modify _ _ _

theorem orAt_bit {i : Nat} (hi : i < pn.length) (x : BitVec w) :
    ((orAt pn i x).getD j 0).getLsbD b = true ↔
      (pn.getD j 0).getLsbD b = true ∨ i = j ∧ x.getLsbD b = true := by
  rw [orAt, List.getD_eq_getElem?_getD, List.getD_eq_getElem?_getD, List.getElem?_modify]
  rcases eq_or_ne i j with rfl | hij
  · simp [List.getElem?_eq_getElem hi]
  · simp [hij]

theorem orAt_if_length {p : Prop} [Decidable p] (pn : List (BitVec w)) (i : Nat) (x : BitVec w) :
    (if p then orAt pn i x else pn).length = pn.length := by
  split
  · exact orAt_length pn i x
  · rfl

theorem orAt_if_bit {p : Prop} [Decidable p] {i : Nat} (hi : p → i < pn.length) (x : BitVec w) :
    ((if p then orAt pn i x else pn).getD j 0).getLsbD b = true ↔
      (pn.getD j 0).getLsbD b = true ∨ p ∧ i = j ∧ x.getLsbD b = true := by
  split
  · next hp => rw [orAt_bit (hi hp), and_iff_right hp]
  · next hp => rw [or_iff_left fun h => hp h.1]

-- What each step of a loop may set, gathered over the whole loop.
theorem foldl_bit {step : List (BitVec w) → Nat → List (BitVec w)} {C : Nat → Prop} {is : List Nat}
    (hlen : ∀ pn i, (step pn i).length = pn.length)
    (hstep : ∀ i ∈ is, ∀ pn, pn.length = W → (((step pn i).getD j 0).getLsbD b = true ↔
      (pn.getD j 0).getLsbD b = true ∨ C i)) (hpn : pn.length = W) :
    ((is.foldl step pn).getD j 0).getLsbD b = true ↔
      (pn.getD j 0).getLsbD b = true ∨ ∃ i ∈ is, C i := by
  induction is generalizing pn with
  | nil => simp
  | cons i is ih =>
    have hrest := ih (fun i hi => hstep i (List.mem_cons_of_mem _ hi)) ((hlen pn i).trans hpn)
    rw [List.foldl_cons, hrest, hstep i List.mem_cons_self pn hpn, or_assoc]
    simp

theorem zeros_bit (W j b : Nat) :
    ((List.replicate W (0 : BitVec w)).getD j 0).getLsbD b = false := by
  rw [List.getD_eq_getElem?_getD, List.getElem?_replicate]
  split <;> exact BitVec.getLsbD_zero

theorem foldl_zeros_bit {step : List (BitVec w) → Nat → List (BitVec w)} {C : Nat → Prop}
    {is : List Nat} (hlen : ∀ pn i, (step pn i).length = pn.length)
    (hstep : ∀ i ∈ is, ∀ pn, pn.length = W → (((step pn i).getD j 0).getLsbD b = true ↔
      (pn.getD j 0).getLsbD b = true ∨ C i)) :
    ((is.foldl step (List.replicate W 0)).getD j 0).getLsbD b = true ↔ ∃ i ∈ is, C i := by
  rw [foldl_bit hlen hstep List.length_replicate, zeros_bit, or_iff_right Bool.false_ne_true]

theorem foldl_length {step : List (BitVec w) → Nat → List (BitVec w)}
    (hlen : ∀ pn i, (step pn i).length = pn.length) (is : List Nat) :
    (is.foldl step pn).length = pn.length := by
  induction is generalizing pn with
  | nil => rfl
  | cons i is ih => rw [List.foldl_cons, ih, hlen]

end Writes

section Compare

def topDown (first : BitVec w → BitVec w → Bool) (same : Bool) : List (BitVec w × BitVec w) → Bool
  | [] => same
  | (x, y) :: rest =>
    if first x y then true else if first y x then false else topDown first same rest

theorem topDown_append (first : BitVec w → BitVec w → Bool) (same : Bool)
    (l m : List (BitVec w × BitVec w)) :
    topDown first same (l ++ m) = topDown first (topDown first same m) l := by
  induction l with
  | nil => rfl
  | cons p l ih =>
    obtain ⟨x, y⟩ := p
    rw [List.cons_append, topDown, topDown, ih]

theorem topDown_lt (same : Bool) (hlen : l.length = m.length) :
    topDown (fun x y => decide (x < y)) same (l.zip m).reverse =
      if value l = value m then same else decide (value l < value m) := by
  induction l generalizing m same with
  | nil =>
    rw [List.length_eq_zero_iff.mp hlen.symm]
    rfl
  | cons x l ih =>
    cases m with
    | nil => cases hlen
    | cons y m =>
      have hx := x.isLt
      have hy := y.isLt
      rw [List.zip_cons_cons, List.reverse_cons, topDown_append, ih _ (Nat.succ.inj hlen)]
      by_cases hrest : value l = value m
      · rw [if_pos hrest, topDown, value_cons, value_cons, hrest]
        simp only [BitVec.lt_def, decide_eq_true_eq, topDown, Nat.add_lt_add_iff_right,
          Nat.add_right_cancel_iff]
        split
        · next hlt => rw [if_neg hlt.ne, decide_eq_true hlt]
        · next hge =>
          split
          · next hgt => rw [if_neg hgt.ne', decide_eq_false hge]
          · rw [if_pos (by omega)]
      · have hne : value (x :: l) ≠ value (y :: m) := fun h => hrest (value_cons_inj h).2
        rw [if_neg hrest, if_neg hne, decide_eq_decide, value_cons, value_cons]
        rcases Nat.lt_or_gt_of_ne hrest with hlt | hgt
        · have hmul := Nat.mul_le_mul_left (2 ^ w) hlt
          rw [Nat.mul_succ] at hmul
          exact ⟨fun _ => by omega, fun _ => hlt⟩
        · have hmul := Nat.mul_le_mul_left (2 ^ w) hgt
          rw [Nat.mul_succ] at hmul
          exact ⟨fun h => by omega, fun h => by omega⟩

theorem topDown_swap (first : BitVec w → BitVec w → Bool) (same : Bool)
    (l : List (BitVec w × BitVec w)) :
    topDown (fun x y => first y x) same l = topDown first same (l.map Prod.swap) := by
  induction l with
  | nil => rfl
  | cons p l ih =>
    obtain ⟨x, y⟩ := p
    rw [List.map_cons, Prod.swap_prod_mk, topDown, topDown, ih]

theorem topDown_gt (same : Bool) (hlen : l.length = m.length) :
    topDown (fun x y => decide (y < x)) same (l.zip m).reverse =
      if value m = value l then same else decide (value m < value l) := by
  rw [topDown_swap (fun x y => decide (x < y)), List.map_reverse, List.zip_swap,
    topDown_lt same hlen.symm]

end Compare

end Words
