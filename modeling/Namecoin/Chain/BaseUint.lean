import Namecoin.Lib.Words
import Namecoin.Chain.Proxy

namespace Namecoin

open Words

@[ext]
structure BaseUint (bits : Nat) where
  pn : List (BitVec 32)
  width : pn.length = bits / 32

def incLoop : List (BitVec 32) → List (BitVec 32)
  | [] => []
  | x :: rest => if x + 1 = 0 then (x + 1) :: incLoop rest else (x + 1) :: rest

def decLoop : List (BitVec 32) → List (BitVec 32)
  | [] => []
  | x :: rest => if x - 1 = -1 then (x - 1) :: decLoop rest else (x - 1) :: rest

def addLoop : BitVec 64 → List (BitVec 32) → List (BitVec 32) → List (BitVec 32)
  | carry, x :: pn, y :: b =>
    let n := carry + x.setWidth 64 + y.setWidth 64
    (n &&& 0xffffffff).setWidth 32 :: addLoop (n >>> 32) pn b
  | _, _, _ => []

def shlStep (a : List (BitVec 32)) (k shift width : Nat) (pn : List (BitVec 32)) (i : Nat) :
    List (BitVec 32) :=
  let pn := if i + k + 1 < width ∧ shift ≠ 0
    then orAt pn (i + k + 1) (a.getD i 0 >>> (32 - shift)) else pn
  if i + k < width then orAt pn (i + k) (a.getD i 0 <<< shift) else pn

def shrStep (a : List (BitVec 32)) (k shift : Nat) (pn : List (BitVec 32)) (i : Nat) :
    List (BitVec 32) :=
  let pn := if k + 1 ≤ i ∧ shift ≠ 0
    then orAt pn (i - k - 1) (a.getD i 0 <<< (32 - shift)) else pn
  if k ≤ i then orAt pn (i - k) (a.getD i 0 >>> shift) else pn

def eqLoop : List (BitVec 32) → List (BitVec 32) → Bool
  | x :: a, y :: b => if x ≠ y then false else eqLoop a b
  | _, _ => true

def memBytes (pn : List (BitVec 32)) : List UInt8 := pn.flatMap fun x => leBytes 4 x.toNat

def memWords : Nat → List UInt8 → List (BitVec 32)
  | 0, _ => []
  | n + 1, p => BitVec.ofNat 32 (leNat (p.take 4)) :: memWords n (p.drop 4)

-- the table of the source, where every other character counts as zero
def hexValue (c : Char) : Nat :=
  if '0' ≤ c ∧ c ≤ '9' then c.toNat - '0'.toNat
  else if 'a' ≤ c ∧ c ≤ 'f' then c.toNat - 'a'.toNat + 10
  else if 'A' ≤ c ∧ c ≤ 'F' then c.toNat - 'A'.toNat + 10
  else 0

-- the digits from the last one back, two to a byte, until the digits or the bytes run out
def hexLoop : Nat → List Char → List UInt8
  | 0, _ => []
  | n + 1, [] => List.replicate (n + 1) 0
  | n + 1, [c] => UInt8.ofNat (hexValue c) :: List.replicate n 0
  | n + 1, c :: d :: rest =>
    (UInt8.ofNat (hexValue c) ||| UInt8.ofNat (hexValue d <<< 4)) :: hexLoop n rest

def skipPrefix : List Char → List Char
  | c :: d :: rest => if c = '0' ∧ d.toLower = 'x' then rest else c :: d :: rest
  | psz => psz

section Loops

variable (l m a b : List (BitVec 32)) (carry : BitVec 64)

@[simp]
theorem incLoop_length : (incLoop l).length = l.length := by
  induction l with
  | nil => rfl
  | cons x l ih =>
    rw [incLoop]
    split
    · rw [List.length_cons, List.length_cons, ih]
    · rfl

@[simp]
theorem decLoop_length : (decLoop l).length = l.length := by
  induction l with
  | nil => rfl
  | cons x l ih =>
    rw [decLoop]
    split
    · rw [List.length_cons, List.length_cons, ih]
    · rfl

theorem addLoop_length {l m : List (BitVec 32)} (h : l.length = m.length) (carry : BitVec 64) :
    (addLoop carry l m).length = l.length := by
  induction l generalizing m carry with
  | nil => rfl
  | cons x l ih =>
    cases m with
    | nil => cases h
    | cons y m => rw [addLoop, List.length_cons, List.length_cons, ih (Nat.succ.inj h)]

@[simp]
theorem shlStep_length (k shift width : Nat) (pn : List (BitVec 32)) (i : Nat) :
    (shlStep a k shift width pn i).length = pn.length := by
  rw [shlStep, orAt_if_length, orAt_if_length]

@[simp]
theorem shrStep_length (k shift : Nat) (pn : List (BitVec 32)) (i : Nat) :
    (shrStep a k shift pn i).length = pn.length := by
  rw [shrStep, orAt_if_length, orAt_if_length]

@[simp]
theorem memWords_length (n : Nat) (p : List UInt8) : (memWords n p).length = n := by
  induction n generalizing p with
  | zero => rfl
  | succ n ih => rw [memWords, List.length_cons, ih]

end Loops

namespace BaseUint

variable {bits : Nat}

def value (a : BaseUint bits) : Nat := Words.value a.pn

def complement (a : BaseUint bits) : BaseUint bits :=
  ⟨a.pn.map fun x => ~~~x, by rw [List.length_map, a.width]⟩

def increment (a : BaseUint bits) : BaseUint bits :=
  ⟨incLoop a.pn, by rw [incLoop_length, a.width]⟩

def decrement (a : BaseUint bits) : BaseUint bits :=
  ⟨decLoop a.pn, by rw [decLoop_length, a.width]⟩

def postIncrement (a : BaseUint bits) : BaseUint bits × BaseUint bits := (a, a.increment)

def postDecrement (a : BaseUint bits) : BaseUint bits × BaseUint bits := (a, a.decrement)

def neg (a : BaseUint bits) : BaseUint bits := a.complement.increment

def ofUint64 (b : BitVec 64) : BaseUint bits :=
  ⟨((List.replicate (bits / 32) 0).set 0 (b.setWidth 32)).set 1 ((b >>> 32).setWidth 32), by
    rw [List.length_set, List.length_set, List.length_replicate]⟩

def addAssign (a b : BaseUint bits) : BaseUint bits :=
  ⟨addLoop 0 a.pn b.pn, by rw [addLoop_length (a.width.trans b.width.symm), a.width]⟩

def subAssign (a b : BaseUint bits) : BaseUint bits := a.addAssign b.neg

def addAssign64 (a : BaseUint bits) (b64 : BitVec 64) : BaseUint bits := a.addAssign (ofUint64 b64)

def subAssign64 (a : BaseUint bits) (b64 : BitVec 64) : BaseUint bits :=
  a.addAssign (ofUint64 b64).neg

def shlAssign (a : BaseUint bits) (shift : BitVec 32) : BaseUint bits :=
  ⟨(List.range (bits / 32)).foldl
    (shlStep a.pn (shift.toNat / 32) (shift.toNat % 32) (bits / 32)) (List.replicate (bits / 32) 0),
    by rw [foldl_length (fun pn i => shlStep_length _ _ _ _ pn i), List.length_replicate]⟩

def shrAssign (a : BaseUint bits) (shift : BitVec 32) : BaseUint bits :=
  ⟨(List.range (bits / 32)).foldl
    (shrStep a.pn (shift.toNat / 32) (shift.toNat % 32)) (List.replicate (bits / 32) 0),
    by rw [foldl_length (fun pn i => shrStep_length _ _ _ pn i), List.length_replicate]⟩

def less (a b : BaseUint bits) : Bool :=
  topDown (fun x y => decide (x < y)) false (a.pn.zip b.pn).reverse

def lessEq (a b : BaseUint bits) : Bool :=
  topDown (fun x y => decide (x < y)) true (a.pn.zip b.pn).reverse

def greater (a b : BaseUint bits) : Bool :=
  topDown (fun x y => decide (y < x)) false (a.pn.zip b.pn).reverse

def greaterEq (a b : BaseUint bits) : Bool :=
  topDown (fun x y => decide (y < x)) true (a.pn.zip b.pn).reverse

def equal (a b : BaseUint bits) : Bool := eqLoop a.pn b.pn

def equal64 (a : BaseUint bits) (b : BitVec 64) : Bool :=
  if a.pn.getD 0 0 ≠ b.setWidth 32 then false
  else if a.pn.getD 1 0 ≠ (b >>> 32).setWidth 32 then false
  else (a.pn.drop 2).all fun x => x == 0

def notEqual (a b : BaseUint bits) : Bool := !a.equal b

def notEqual64 (a : BaseUint bits) (b : BitVec 64) : Bool := !a.equal64 b

def getHex (a : BaseUint bits) : List Char := (memBytes a.pn).reverse.flatMap hexByte

def setHex (psz : List Char) : BaseUint bits :=
  let psz := skipPrefix (psz.dropWhile isSpace)
  let digits := psz.takeWhile fun c => decide (hexValue c ≠ 0 ∨ c = '0')
  ⟨memWords (bits / 32) (hexLoop (4 * (bits / 32)) digits.reverse), memWords_length _ _⟩

end BaseUint

section Ripple

theorem value_incLoop (l : List (BitVec 32)) :
    value (incLoop l) = (value l + 1) % 2 ^ (32 * l.length) := by
  induction l with
  | nil => rfl
  | cons x l ih =>
    have hx := x.isLt
    have hone : (x + 1).toNat = (x.toNat + 1) % 2 ^ 32 := BitVec.toNat_add x 1
    rw [incLoop, List.length_cons]
    split
    · next hzero =>
      have hwrap : x.toNat + 1 = 2 ^ 32 := by
        rw [hzero] at hone
        change 0 = _ at hone
        omega
      have hsum : value (x :: l) + 1 = 0 + 2 ^ 32 * (value l + 1) := by
        rw [value_cons]
        omega
      rw [hsum, low_word_mod (by decide), value_cons, ih, hzero]
      rfl
    · next hword =>
      have hsmall : x.toNat + 1 < 2 ^ 32 := by
        by_contra hge
        exact hword (BitVec.eq_of_toNat_eq (by rw [hone]; change _ = 0; omega))
      have hsum : value (x :: l) + 1 = (x.toNat + 1) + 2 ^ 32 * value l := by
        rw [value_cons]
        omega
      rw [hsum, low_word_mod hsmall, value_cons, hone, Nat.mod_eq_of_lt hsmall,
        Nat.mod_eq_of_lt (value_lt l)]

theorem value_decLoop (l : List (BitVec 32)) :
    value (decLoop l) = (value l + (2 ^ (32 * l.length) - 1)) % 2 ^ (32 * l.length) := by
  induction l with
  | nil => rfl
  | cons x l ih =>
    have hx := x.isLt
    have hpos : 0 < 2 ^ (32 * l.length) := Nat.two_pow_pos _
    have hone : (x - 1).toNat = (2 ^ 32 - 1 + x.toNat) % 2 ^ 32 := BitVec.toNat_sub x 1
    have hmod : 2 ^ (32 * (l.length + 1)) = 2 ^ 32 * 2 ^ (32 * l.length) := modulus_succ 32 _
    have hall : (-1 : BitVec 32).toNat = 2 ^ 32 - 1 := rfl
    rw [decLoop, List.length_cons]
    split
    · next hborrow =>
      have hzero : x.toNat = 0 := by
        rw [hborrow, hall] at hone
        omega
      have hsum : value (x :: l) + (2 ^ (32 * (l.length + 1)) - 1) =
          (2 ^ 32 - 1) + 2 ^ 32 * (value l + (2 ^ (32 * l.length) - 1)) := by
        rw [value_cons]
        omega
      rw [hsum, low_word_mod (by decide), value_cons, ih, hborrow, hall]
    · next hword =>
      have hlarge : 1 ≤ x.toNat := by
        by_contra hlow
        exact hword (BitVec.eq_of_toNat_eq (by rw [hone, hall]; omega))
      have hlow : (x - 1).toNat = x.toNat - 1 := by omega
      have hsum : value (x :: l) + (2 ^ (32 * (l.length + 1)) - 1) =
          (x.toNat - 1) + 2 ^ 32 * (value l + 2 ^ (32 * l.length)) := by
        rw [value_cons]
        omega
      rw [hsum, low_word_mod (by omega), value_cons, hlow, Nat.add_mod_right,
        Nat.mod_eq_of_lt (value_lt l)]

theorem value_addLoop {a b : List (BitVec 32)} {carry : BitVec 64} (hlen : a.length = b.length)
    (hcarry : carry.toNat ≤ 1) :
    value (addLoop carry a b) = (carry.toNat + value a + value b) % 2 ^ (32 * a.length) := by
  induction a generalizing b carry with
  | nil =>
    rw [List.length_nil, Nat.mul_zero, Nat.pow_zero, Nat.mod_one]
    rfl
  | cons x a ih =>
    cases b with
    | nil => cases hlen
    | cons y b =>
      have hx := x.isLt
      have hy := y.isLt
      have hn : (carry + x.setWidth 64 + y.setWidth 64).toNat =
          carry.toNat + x.toNat + y.toNat := by
        rw [BitVec.toNat_add, BitVec.toNat_add, BitVec.toNat_setWidth_of_le (by decide),
          BitVec.toNat_setWidth_of_le (by decide)]
        omega
      rw [addLoop]
      generalize carry + x.setWidth 64 + y.setWidth 64 = n at hn ⊢
      have hword : ((n &&& 0xffffffff).setWidth 32).toNat = n.toNat % 2 ^ 32 := by
        rw [BitVec.toNat_setWidth, BitVec.toNat_and]
        exact (congrArg (· % 2 ^ 32) (Nat.and_two_pow_sub_one_eq_mod n.toNat 32)).trans
          (Nat.mod_mod _ _)
      have hnext : (n >>> 32).toNat = n.toNat / 2 ^ 32 := by
        rw [BitVec.toNat_ushiftRight, Nat.shiftRight_eq_div_pow]
      have hsum : carry.toNat + value (x :: a) + value (y :: b) =
          n.toNat % 2 ^ 32 + 2 ^ 32 * (n.toNat / 2 ^ 32 + value a + value b) := by
        rw [value_cons, value_cons, hn]
        omega
      rw [List.length_cons, hsum, low_word_mod (Nat.mod_lt _ (by decide)), value_cons, hword,
        ih (Nat.succ.inj hlen) (by rw [hnext]; omega), hnext]

end Ripple

theorem eqLoop_iff {a b : List (BitVec 32)} (hlen : a.length = b.length) :
    eqLoop a b = true ↔ a = b := by
  induction a generalizing b with
  | nil =>
    rw [List.length_eq_zero_iff.mp hlen.symm]
    exact iff_of_true rfl rfl
  | cons x a ih =>
    cases b with
    | nil => cases hlen
    | cons y b =>
      rw [eqLoop, List.cons.injEq, ← ih (Nat.succ.inj hlen)]
      split
      · next hne => exact ⟨fun h => absurd h Bool.false_ne_true, fun h => absurd h.1 hne⟩
      · next heq => exact (and_iff_right (not_not.mp heq)).symm

section Shifts

variable {a : List (BitVec 32)} {k s j b : Nat}

theorem shlStep_bit {pn : List (BitVec 32)} {i W : Nat} (hpn : pn.length = W) :
    ((shlStep a k s W pn i).getD j 0).getLsbD b = true ↔ (pn.getD j 0).getLsbD b = true ∨
      ((i + k + 1 < W ∧ s ≠ 0) ∧ i + k + 1 = j ∧ (a.getD i 0 >>> (32 - s)).getLsbD b = true ∨
        i + k < W ∧ i + k = j ∧ (a.getD i 0 <<< s).getLsbD b = true) := by
  rw [shlStep, orAt_if_bit (by rw [orAt_if_length]; omega), orAt_if_bit (by omega), or_assoc]

theorem shrStep_bit {pn : List (BitVec 32)} {i W : Nat} (hpn : pn.length = W) (hi : i < W) :
    ((shrStep a k s pn i).getD j 0).getLsbD b = true ↔ (pn.getD j 0).getLsbD b = true ∨
      ((k + 1 ≤ i ∧ s ≠ 0) ∧ i - k - 1 = j ∧ (a.getD i 0 <<< (32 - s)).getLsbD b = true ∨
        k ≤ i ∧ i - k = j ∧ (a.getD i 0 >>> s).getLsbD b = true) := by
  rw [shrStep, orAt_if_bit (by rw [orAt_if_length]; omega), orAt_if_bit (by omega), or_assoc]

theorem value_shl {W : Nat} (hs : s < 32) :
    value ((List.range W).foldl (shlStep a k s W) (List.replicate W 0)) =
      value a * 2 ^ (32 * k + s) % 2 ^ (32 * W) := by
  have hlen : ((List.range W).foldl (shlStep a k s W) (List.replicate W 0)).length = W := by
    rw [foldl_length fun pn i => shlStep_length a k s W pn i, List.length_replicate]
  refine Nat.eq_of_testBit_eq fun t => ?_
  rw [Nat.testBit_mod_two_pow, Nat.testBit_mul_two_pow]
  by_cases ht : t < 32 * W
  · rw [decide_eq_true ht, Bool.true_and, value_testBit (by decide), value_testBit (by decide),
      Bool.eq_iff_iff, foldl_zeros_bit (shlStep_length a k s W) fun i _ pn hpn => shlStep_bit hpn,
      Bool.and_eq_true, decide_eq_true_eq]
    constructor
    · rintro ⟨i, -, ⟨-, hij, hbit⟩ | ⟨-, hij, hbit⟩⟩
      · rw [BitVec.getLsbD_ushiftRight] at hbit
        have hlow := BitVec.lt_of_getLsbD hbit
        rw [show (t - (32 * k + s)) / 32 = i by omega,
          show (t - (32 * k + s)) % 32 = 32 - s + t % 32 by omega]
        exact ⟨by omega, hbit⟩
      · rw [BitVec.getLsbD_shiftLeft, Bool.and_eq_true, Bool.and_eq_true, Bool.not_eq_true',
          decide_eq_false_iff_not] at hbit
        rw [show (t - (32 * k + s)) / 32 = i by omega,
          show (t - (32 * k + s)) % 32 = t % 32 - s by omega]
        exact ⟨by omega, hbit.2⟩
    · rintro ⟨hle, hbit⟩
      refine ⟨(t - (32 * k + s)) / 32, List.mem_range.mpr (by omega), ?_⟩
      by_cases hlow : s ≤ t % 32
      · refine Or.inr ⟨by omega, by omega, ?_⟩
        rw [show (t - (32 * k + s)) % 32 = t % 32 - s by omega] at hbit
        rw [BitVec.getLsbD_shiftLeft, hbit, decide_eq_true (by omega), decide_eq_false (by omega)]
        rfl
      · refine Or.inl ⟨⟨by omega, by omega⟩, by omega, ?_⟩
        rwa [BitVec.getLsbD_ushiftRight, show 32 - s + t % 32 = (t - (32 * k + s)) % 32 by omega]
  · rw [decide_eq_false ht, Bool.false_and, testBit_value_of_ge (by rw [hlen]; omega)]

theorem value_shr {W : Nat} (hs : s < 32) (ha : a.length = W) :
    value ((List.range W).foldl (shrStep a k s) (List.replicate W 0)) =
      value a / 2 ^ (32 * k + s) := by
  refine Nat.eq_of_testBit_eq fun t => ?_
  rw [Nat.testBit_div_two_pow, value_testBit (by decide), value_testBit (by decide),
    Bool.eq_iff_iff, foldl_zeros_bit (shrStep_length a k s) fun i hi pn hpn =>
      shrStep_bit hpn (List.mem_range.mp hi)]
  constructor
  · rintro ⟨i, -, ⟨⟨hki, -⟩, hij, hbit⟩ | ⟨hki, hij, hbit⟩⟩
    · rw [BitVec.getLsbD_shiftLeft, Bool.and_eq_true, Bool.and_eq_true, Bool.not_eq_true',
        decide_eq_false_iff_not, decide_eq_true_eq] at hbit
      rw [show (t + (32 * k + s)) / 32 = i by omega,
        show (t + (32 * k + s)) % 32 = t % 32 - (32 - s) by omega]
      exact hbit.2
    · rw [BitVec.getLsbD_ushiftRight] at hbit
      have hlow := BitVec.lt_of_getLsbD hbit
      rwa [show (t + (32 * k + s)) / 32 = i by omega,
        show (t + (32 * k + s)) % 32 = s + t % 32 by omega]
  · intro hbit
    have hin : (t + (32 * k + s)) / 32 < W := by
      by_contra hout
      rw [List.getD_eq_default _ _ (by omega)] at hbit
      exact Bool.false_ne_true (BitVec.getLsbD_zero.symm.trans hbit)
    refine ⟨(t + (32 * k + s)) / 32, List.mem_range.mpr hin, ?_⟩
    by_cases hlow : s + t % 32 < 32
    · refine Or.inr ⟨by omega, by omega, ?_⟩
      rwa [BitVec.getLsbD_ushiftRight, show s + t % 32 = (t + (32 * k + s)) % 32 by omega]
    · refine Or.inl ⟨⟨by omega, by omega⟩, by omega, ?_⟩
      rw [show (t + (32 * k + s)) % 32 = t % 32 - (32 - s) by omega] at hbit
      rw [BitVec.getLsbD_shiftLeft, hbit, decide_eq_true (by omega), decide_eq_false (by omega)]
      rfl

end Shifts

section Memory

theorem memBytes_length (pn : List (BitVec 32)) : (memBytes pn).length = 4 * pn.length := by
  induction pn with
  | nil => rfl
  | cons x pn ih =>
    rw [memBytes, List.flatMap_cons, List.length_append, leBytes_length, List.length_cons]
    rw [memBytes] at ih
    omega

theorem memWords_memBytes (pn : List (BitVec 32)) : memWords pn.length (memBytes pn) = pn := by
  induction pn with
  | nil => rfl
  | cons x pn ih =>
    have hword : leNat (leBytes 4 x.toNat) = x.toNat := leNat_leBytes_of_lt x.isLt
    rw [memBytes, List.flatMap_cons, List.length_cons, memWords,
      List.take_left' (leBytes_length 4 _), List.drop_left' (leBytes_length 4 _), hword,
      BitVec.ofNat_toNat, BitVec.setWidth_eq]
    exact congrArg (x :: ·) ih

theorem leNat_memBytes (pn : List (BitVec 32)) : leNat (memBytes pn) = value pn := by
  induction pn with
  | nil => rfl
  | cons x pn ih =>
    have hword : leNat (leBytes 4 x.toNat) = x.toNat := leNat_leBytes_of_lt x.isLt
    rw [memBytes, List.flatMap_cons, leNat_append, leBytes_length, hword, value_cons, ← ih]
    rfl

theorem hexDigit_value {n : Nat} (hn : n < 16) :
    hexValue (hexDigit n) = n ∧ (hexValue (hexDigit n) ≠ 0 ∨ hexDigit n = '0') ∧
      isSpace (hexDigit n) = false ∧ (hexDigit n).toLower ≠ 'x' := by
  have hall : ∀ m < 16, hexValue (hexDigit m) = m ∧
      (hexValue (hexDigit m) ≠ 0 ∨ hexDigit m = '0') ∧ isSpace (hexDigit m) = false ∧
        (hexDigit m).toLower ≠ 'x' := by
    decide
  exact hall n hn

theorem nibbles_join (b : UInt8) :
    UInt8.ofNat (b.toNat % 16) ||| UInt8.ofNat ((b.toNat / 16) <<< 4) = b := by
  have hb := b.toNat_lt
  have hor : b.toNat % 16 ||| (b.toNat / 16) <<< 4 = b.toNat := by
    rw [Nat.shiftLeft_eq, Nat.lor_comm, Nat.mul_comm]
    exact (Nat.two_pow_add_eq_or_of_lt (i := 4) (Nat.mod_lt _ (by decide)) _).symm.trans
      (Nat.div_add_mod b.toNat 16)
  have hhigh : (b.toNat / 16) <<< 4 < 2 ^ 8 := by
    rw [Nat.shiftLeft_eq]
    omega
  rw [← UInt8.toNat_inj, UInt8.toNat_or, UInt8.toNat_ofNat', UInt8.toNat_ofNat',
    Nat.mod_eq_of_lt (a := b.toNat % 16) (by omega), Nat.mod_eq_of_lt hhigh, hor]

theorem hexLoop_hexBytes (bytes : List UInt8) :
    hexLoop bytes.length (bytes.flatMap fun b => (hexByte b).reverse) = bytes := by
  induction bytes with
  | nil => rfl
  | cons b bytes ih =>
    have hb := b.toNat_lt
    have hhigh := (hexDigit_value (by omega : b.toNat / 16 < 16)).1
    have hlow := (hexDigit_value (by omega : b.toNat % 16 < 16)).1
    have hdigits : (hexByte b).reverse = [hexDigit (b.toNat % 16), hexDigit (b.toNat / 16)] := rfl
    rw [List.flatMap_cons, List.length_cons, hdigits, List.cons_append, List.singleton_append,
      hexLoop, hhigh, hlow, nibbles_join, ih]

theorem mem_hexBytes {bytes : List UInt8} {c : Char} (h : c ∈ bytes.flatMap hexByte) :
    ∃ n < 16, c = hexDigit n := by
  obtain ⟨b, -, hc⟩ := List.mem_flatMap.mp h
  have hb := b.toNat_lt
  rcases List.mem_cons.mp hc with rfl | hc
  · exact ⟨_, by omega, rfl⟩
  · exact ⟨_, by omega, List.mem_singleton.mp hc⟩

theorem skipPrefix_hexBytes (bytes : List UInt8) :
    skipPrefix (bytes.flatMap hexByte) = bytes.flatMap hexByte := by
  cases bytes with
  | nil => rfl
  | cons b bytes =>
    have hb := b.toNat_lt
    have hnotx := (hexDigit_value (by omega : b.toNat % 16 < 16)).2.2.2
    rw [List.flatMap_cons, hexByte, List.cons_append, List.singleton_append, skipPrefix,
      if_neg fun h => hnotx h.2]

end Memory

namespace BaseUint

section Arithmetic

variable {bits : Nat}

theorem setHex_getHex (a : BaseUint bits) : setHex a.getHex = a := by
  have hdigits (c : Char) (hc : c ∈ a.getHex) :
      isSpace c = false ∧ (hexValue c ≠ 0 ∨ c = '0') := by
    obtain ⟨n, hn, rfl⟩ := mem_hexBytes hc
    exact ⟨(hexDigit_value hn).2.2.1, (hexDigit_value hn).2.1⟩
  have hspaces : a.getHex.dropWhile isSpace = a.getHex := by
    cases hpsz : a.getHex with
    | nil => rfl
    | cons c psz =>
      have hc := (hdigits c (by rw [hpsz]; exact List.mem_cons_self)).1
      rw [List.dropWhile_cons_of_neg (by rw [hc]; decide)]
  have hall : a.getHex.takeWhile (fun c => decide (hexValue c ≠ 0 ∨ c = '0')) = a.getHex :=
    List.takeWhile_eq_self_iff.mpr fun c hc => decide_eq_true (hdigits c hc).2
  have hrev : a.getHex.reverse = (memBytes a.pn).flatMap fun b => (hexByte b).reverse := by
    rw [getHex, List.reverse_flatMap, List.reverse_reverse]
    rfl
  have hbytes : 4 * (bits / 32) = (memBytes a.pn).length := by rw [memBytes_length, a.width]
  have hskip : skipPrefix a.getHex = a.getHex := skipPrefix_hexBytes _
  refine BaseUint.ext ?_
  rw [setHex]
  dsimp only
  rw [hspaces, hskip, hall, hrev, hbytes, hexLoop_hexBytes, ← a.width, memWords_memBytes]

theorem bits_eq (h32 : 32 ∣ bits) (a : BaseUint bits) : 32 * a.pn.length = bits := by
  rw [a.width, Nat.mul_div_cancel' h32]

theorem value_lt (h32 : 32 ∣ bits) (a : BaseUint bits) : a.value < 2 ^ bits := by
  have hlt := Words.value_lt a.pn
  rwa [bits_eq h32] at hlt

theorem value_inj {a b : BaseUint bits} (h : a.value = b.value) : a = b :=
  BaseUint.ext (eq_of_value_eq (a.width.trans b.width.symm) h)

theorem value_increment (h32 : 32 ∣ bits) (a : BaseUint bits) :
    a.increment.value = (a.value + 1) % 2 ^ bits := by
  have hloop := value_incLoop a.pn
  rwa [bits_eq h32] at hloop

theorem value_decrement (h32 : 32 ∣ bits) (a : BaseUint bits) :
    a.decrement.value = (a.value + (2 ^ bits - 1)) % 2 ^ bits := by
  have hloop := value_decLoop a.pn
  rwa [bits_eq h32] at hloop

theorem value_neg (h32 : 32 ∣ bits) (a : BaseUint bits) :
    a.neg.value = (2 ^ bits - a.value) % 2 ^ bits := by
  have hnot : a.complement.value + a.value + 1 = 2 ^ bits := by
    have hwords := value_complement a.pn
    rwa [bits_eq h32] at hwords
  rw [neg, value_increment h32]
  congr 1
  omega

theorem value_add (h32 : 32 ∣ bits) (a b : BaseUint bits) :
    (a.addAssign b).value = (a.value + b.value) % 2 ^ bits := by
  have hloop := @value_addLoop a.pn b.pn 0 (a.width.trans b.width.symm) (by decide)
  rw [bits_eq h32] at hloop
  refine hloop.trans ?_
  rw [show (0 : BitVec 64).toNat = 0 from rfl, Nat.zero_add]
  rfl

theorem value_sub (h32 : 32 ∣ bits) (a b : BaseUint bits) :
    (a.subAssign b).value = (a.value + (2 ^ bits - b.value)) % 2 ^ bits := by
  rw [subAssign, value_add h32, value_neg h32, Nat.add_mod_mod]

theorem ofUint64_pn (h64 : 64 ≤ bits) (b : BitVec 64) :
    (ofUint64 b : BaseUint bits).pn =
      b.setWidth 32 :: (b >>> 32).setWidth 32 :: List.replicate (bits / 32 - 2) 0 := by
  obtain ⟨n, hn⟩ := Nat.exists_eq_add_of_le' (show 2 ≤ bits / 32 by omega)
  change ((List.replicate (bits / 32) 0).set 0 _).set 1 _ = _
  rw [hn]
  rfl

theorem value_ofUint64 (h64 : 64 ≤ bits) (b : BitVec 64) :
    (ofUint64 b : BaseUint bits).value = b.toNat := by
  have hb := b.isLt
  rw [value, ofUint64_pn h64, value_cons, value_cons, value_zeros, BitVec.toNat_setWidth,
    BitVec.toNat_setWidth, BitVec.toNat_ushiftRight, Nat.shiftRight_eq_div_pow]
  omega

theorem value_shlAssign (h32 : 32 ∣ bits) (a : BaseUint bits) (shift : BitVec 32) :
    (a.shlAssign shift).value = a.value * 2 ^ shift.toNat % 2 ^ bits := by
  have hloop := @value_shl a.pn (shift.toNat / 32) (shift.toNat % 32) (bits / 32)
    (Nat.mod_lt _ (by decide))
  rwa [Nat.div_add_mod, Nat.mul_div_cancel' h32] at hloop

theorem value_shrAssign (a : BaseUint bits) (shift : BitVec 32) :
    (a.shrAssign shift).value = a.value / 2 ^ shift.toNat := by
  have hloop := @value_shr a.pn (shift.toNat / 32) (shift.toNat % 32) (bits / 32)
    (Nat.mod_lt _ (by decide)) a.width
  rwa [Nat.div_add_mod] at hloop

theorem less_eq (a b : BaseUint bits) : a.less b = decide (a.value < b.value) := by
  rw [less, topDown_lt false (a.width.trans b.width.symm)]
  split
  · next heq => exact (decide_eq_false heq.not_lt).symm
  · rfl

theorem lessEq_eq (a b : BaseUint bits) : a.lessEq b = decide (a.value ≤ b.value) := by
  rw [lessEq, topDown_lt true (a.width.trans b.width.symm)]
  split
  · next heq => exact (decide_eq_true heq.le).symm
  · next hne => exact decide_eq_decide.mpr (Nat.le_iff_lt_or_eq.trans (or_iff_left hne)).symm

theorem greater_eq (a b : BaseUint bits) : a.greater b = b.less a := by
  rw [less_eq, greater, topDown_gt false (a.width.trans b.width.symm)]
  split
  · next heq => exact (decide_eq_false heq.not_lt).symm
  · rfl

theorem greaterEq_eq (a b : BaseUint bits) : a.greaterEq b = b.lessEq a := by
  rw [lessEq_eq, greaterEq, topDown_gt true (a.width.trans b.width.symm)]
  split
  · next heq => exact (decide_eq_true heq.le).symm
  · next hne => exact decide_eq_decide.mpr (Nat.le_iff_lt_or_eq.trans (or_iff_left hne)).symm

theorem equal_eq (a b : BaseUint bits) : a.equal b = decide (a.value = b.value) := by
  rw [Bool.eq_iff_iff, decide_eq_true_eq, equal, eqLoop_iff (a.width.trans b.width.symm)]
  exact ⟨fun h => congrArg Words.value h, fun h => congrArg pn (value_inj h)⟩

theorem equal64_eq (h64 : 64 ≤ bits) (a : BaseUint bits) (b : BitVec 64) :
    a.equal64 b = a.equal (ofUint64 b) := by
  obtain ⟨x, y, rest, hpn⟩ : ∃ x y rest, a.pn = x :: y :: rest := by
    obtain ⟨x, pn, hx⟩ := List.exists_cons_of_length_pos (l := a.pn) (by rw [a.width]; omega)
    have hlen : pn.length + 1 = bits / 32 := by rw [← a.width, hx, List.length_cons]
    obtain ⟨y, rest, rfl⟩ := List.exists_cons_of_length_pos (l := pn) (by omega)
    exact ⟨x, y, rest, hx⟩
  have hrest : rest.length = bits / 32 - 2 := by
    rw [← a.width, hpn]
    rfl
  rw [Bool.eq_iff_iff, equal, eqLoop_iff (a.width.trans (ofUint64 b).width.symm), ofUint64_pn h64,
    equal64, hpn, List.cons.injEq, List.cons.injEq, ← hrest, List.eq_replicate_iff,
    and_iff_right rfl]
  change (if x ≠ b.setWidth 32 then false else if y ≠ (b >>> 32).setWidth 32 then false
    else rest.all fun x => x == 0) = true ↔ _
  by_cases hx : x = b.setWidth 32
  · by_cases hy : y = (b >>> 32).setWidth 32
    · rw [if_neg (not_not.mpr hx), if_neg (not_not.mpr hy), and_iff_right hx, and_iff_right hy]
      simp
    · rw [if_neg (not_not.mpr hx), if_pos hy]
      simp [hy]
  · rw [if_pos hx]
    simp [hx]

end Arithmetic

structure Modular (bits : Nat) : Prop where
  bounded : ∀ a : BaseUint bits, a.value < 2 ^ bits
  faithful : ∀ a b : BaseUint bits, a.value = b.value → a = b
  add : ∀ a b : BaseUint bits, (a.addAssign b).value = (a.value + b.value) % 2 ^ bits
  sub : ∀ a b : BaseUint bits, (a.subAssign b).value = (a.value - b.value : Int) % 2 ^ bits
  add64 : ∀ (a : BaseUint bits) (b64 : BitVec 64),
    (a.addAssign64 b64).value = (a.value + b64.toNat) % 2 ^ bits
  sub64 : ∀ (a : BaseUint bits) (b64 : BitVec 64),
    (a.subAssign64 b64).value = (a.value - b64.toNat : Int) % 2 ^ bits
  neg : ∀ a : BaseUint bits, a.neg.value = (-a.value : Int) % 2 ^ bits
  increment : ∀ a : BaseUint bits, a.increment.value = (a.value + 1) % 2 ^ bits
  decrement : ∀ a : BaseUint bits, a.decrement.value = (a.value - 1 : Int) % 2 ^ bits
  postIncrement : ∀ a : BaseUint bits,
    a.postIncrement.1 = a ∧ a.postIncrement.2.value = (a.value + 1) % 2 ^ bits
  postDecrement : ∀ a : BaseUint bits,
    a.postDecrement.1 = a ∧ a.postDecrement.2.value = (a.value - 1 : Int) % 2 ^ bits
  shl : ∀ (a : BaseUint bits) (shift : BitVec 32),
    (a.shlAssign shift).value = a.value * 2 ^ shift.toNat % 2 ^ bits
  shr : ∀ (a : BaseUint bits) (shift : BitVec 32),
    (a.shrAssign shift).value = a.value / 2 ^ shift.toNat
  less : ∀ a b : BaseUint bits, a.less b = decide (a.value < b.value)
  lessEq : ∀ a b : BaseUint bits, a.lessEq b = decide (a.value ≤ b.value)
  greater : ∀ a b : BaseUint bits, a.greater b = decide (b.value < a.value)
  greaterEq : ∀ a b : BaseUint bits, a.greaterEq b = decide (b.value ≤ a.value)
  equal : ∀ a b : BaseUint bits, a.equal b = decide (a.value = b.value)
  notEqual : ∀ a b : BaseUint bits, a.notEqual b = decide (a.value ≠ b.value)
  equal64 : ∀ (a : BaseUint bits) (b : BitVec 64), a.equal64 b = decide (a.value = b.toNat)
  notEqual64 : ∀ (a : BaseUint bits) (b : BitVec 64), a.notEqual64 b = decide (a.value ≠ b.toNat)
  hex : ∀ a : BaseUint bits, setHex a.getHex = a

section Results

variable {bits : Nat}

theorem int_sub {a b : Nat} (h : b ≤ 2 ^ bits) :
    ((a + (2 ^ bits - b)) % 2 ^ bits : Nat) = (a - b : Int) % 2 ^ bits := by
  have hcast : ((a + (2 ^ bits - b) : Nat) : Int) = (a - b : Int) + (2 ^ bits : Nat) := by omega
  rw [Int.natCast_mod, hcast, Int.add_emod_right, Int.natCast_pow]
  rfl

theorem int_decrement (h32 : 32 ∣ bits) (a : BaseUint bits) :
    a.decrement.value = (a.value - 1 : Int) % 2 ^ bits := by
  rw [value_decrement h32, int_sub Nat.one_le_two_pow]
  rfl

theorem base_uint_modular (h32 : 32 ∣ bits) (h64 : 64 ≤ bits) : Modular bits where
  bounded := value_lt h32
  faithful _ _ := value_inj
  add := value_add h32
  sub a b := by rw [value_sub h32, int_sub (value_lt h32 b).le]
  add64 a b64 := by rw [addAssign64, value_add h32, value_ofUint64 h64]
  sub64 a b64 := by
    have hsub := value_sub h32 a (ofUint64 b64)
    have hlt := value_lt h32 (ofUint64 b64)
    rw [value_ofUint64 h64] at hsub hlt
    rw [← int_sub hlt.le, ← hsub]
    rfl
  neg a := by
    have hsub := int_sub (a := 0) (value_lt h32 a).le
    rw [Nat.zero_add] at hsub
    rw [value_neg h32, hsub, Int.natCast_zero, Int.zero_sub]
  increment := value_increment h32
  decrement := int_decrement h32
  postIncrement a := ⟨rfl, value_increment h32 a⟩
  postDecrement a := ⟨rfl, int_decrement h32 a⟩
  shl := value_shlAssign h32
  shr := value_shrAssign
  less := less_eq
  lessEq := lessEq_eq
  greater a b := (greater_eq a b).trans (less_eq b a)
  greaterEq a b := (greaterEq_eq a b).trans (lessEq_eq b a)
  equal := equal_eq
  notEqual a b := by rw [BaseUint.notEqual, equal_eq, decide_not]
  equal64 a b := by rw [equal64_eq h64, equal_eq, value_ofUint64 h64]
  notEqual64 a b := by
    rw [BaseUint.notEqual64, equal64_eq h64, equal_eq, value_ofUint64 h64, decide_not]
  hex := setHex_getHex

theorem base_uint_modular_160 : Modular 160 := base_uint_modular (by decide) (by decide)

end Results

-- the hashes of the other modules are the 256-bit case
section Hashes

def toUint256 (a : BaseUint 256) : Uint256 := BitVec.ofNat 256 a.value

variable (a b : BaseUint 256)

theorem toNat_toUint256 : a.toUint256.toNat = a.value := by
  rw [toUint256, BitVec.toNat_ofNat, Nat.mod_eq_of_lt (value_lt (by decide) a)]

theorem serHash_toUint256 : serHash a.toUint256 = memBytes a.pn := by
  have hlen : (memBytes a.pn).length = 32 := by rw [memBytes_length, a.width]
  rw [serHash, toNat_toUint256, value, ← leNat_memBytes, leBytes_leNat hlen]

theorem getHex_toUint256 : Namecoin.getHex a.toUint256 = a.getHex := by
  rw [Namecoin.getHex, serHash_toUint256, getHex]

theorem toUint256_add : (a.addAssign b).toUint256 = a.toUint256 + b.toUint256 := by
  refine BitVec.eq_of_toNat_eq ?_
  rw [BitVec.toNat_add, toNat_toUint256, toNat_toUint256, toNat_toUint256, value_add (by decide)]

theorem toUint256_sub : (a.subAssign b).toUint256 = a.toUint256 - b.toUint256 := by
  refine BitVec.eq_of_toNat_eq ?_
  rw [BitVec.toNat_sub, toNat_toUint256, toNat_toUint256, toNat_toUint256, value_sub (by decide),
    Nat.add_comm]

theorem toUint256_shl (shift : BitVec 32) :
    (a.shlAssign shift).toUint256 = a.toUint256 <<< shift.toNat := by
  refine BitVec.eq_of_toNat_eq ?_
  rw [BitVec.toNat_shiftLeft, toNat_toUint256, toNat_toUint256, value_shlAssign (by decide),
    Nat.shiftLeft_eq]

theorem toUint256_shr (shift : BitVec 32) :
    (a.shrAssign shift).toUint256 = a.toUint256 >>> shift.toNat := by
  refine BitVec.eq_of_toNat_eq ?_
  rw [BitVec.toNat_ushiftRight, toNat_toUint256, toNat_toUint256, value_shrAssign,
    Nat.shiftRight_eq_div_pow]

theorem toUint256_less : a.less b = decide (a.toUint256 < b.toUint256) := by
  rw [less_eq, decide_eq_decide, BitVec.lt_def, toNat_toUint256, toNat_toUint256]

end Hashes

end BaseUint

end Namecoin
