import Namecoin.Data.Serial
import Namecoin.Lib.Numeral

namespace Namecoin

open Numeral (Alphabet)

def toInt64 (n : Int) : Int := n.bmod (2 ^ 64)

def isspace (c : UInt8) : Bool := c == 32 || decide (9 ≤ c ∧ c ≤ 13)

def isdigit (c : UInt8) : Bool := decide (48 ≤ c ∧ c ≤ 57)

def cStr (s : StdString) : StdString := s.takeWhile (fun c => c != 0)

theorem toInt64_range (n : Int) : -2 ^ 63 ≤ toInt64 n ∧ toInt64 n < 2 ^ 63 := by
  have hlow := Int.le_bmod (x := n) (m := 2 ^ 64) (by decide)
  have hhigh := Int.bmod_lt (x := n) (m := 2 ^ 64) (by decide)
  unfold toInt64
  omega

theorem toInt64_of_range {n : Int} (h : -2 ^ 63 ≤ n ∧ n < 2 ^ 63) : toInt64 n = n := by
  unfold toInt64
  rw [Int.bmod_eq_of_le (by omega) (by omega)]

theorem isdigit_iff (c : UInt8) : isdigit c = true ↔ 48 ≤ c.toNat ∧ c.toNat ≤ 57 := by
  rw [isdigit, decide_eq_true_eq, UInt8.le_iff_toNat_le, UInt8.le_iff_toNat_le]
  rfl

def decimal : Alphabet 10 UInt8 where
  digit d := UInt8.ofNat (48 + d)
  read c := if isdigit c then some (c.toNat - 48) else none
  read_digit d hd := by
    have hnat : (UInt8.ofNat (48 + d)).toNat = 48 + d := by
      rw [UInt8.toNat_ofNat', Nat.mod_eq_of_lt (by omega)]
    rw [if_pos ((isdigit_iff _).mpr (by omega)), hnat, Nat.add_sub_cancel_left]
  digit_read c d h := by
    obtain ⟨hc, hd⟩ := Option.ite_none_right_eq_some.mp h
    have hrange := (isdigit_iff c).mp hc
    have hd := Option.some.inj hd
    refine ⟨by omega, UInt8.toNat_inj.mp ?_⟩
    rw [UInt8.toNat_ofNat', Nat.mod_eq_of_lt (by omega)]
    omega

@[simp]
theorem decimal_isDigit (c : UInt8) : decimal.isDigit c = isdigit c := by
  unfold Alphabet.isDigit
  change (if isdigit c then some (c.toNat - 48) else none).isSome = isdigit c
  split <;> simp_all

theorem decimal_digitOf {c : UInt8} (h : isdigit c = true) : decimal.digitOf c = c.toNat - 48 := by
  unfold Alphabet.digitOf
  change (if isdigit c then some (c.toNat - 48) else none).getD 0 = _
  rw [if_pos h, Option.getD_some]

def decimalStr (n : Nat) : StdString :=
  decimal.print (if n = 0 then [0] else Numeral.digits 10 n)

def paddedStr (k n : Nat) : StdString := decimal.print (Numeral.padded 10 k n)

def leadingNumber (p : StdString) : Int := decimal.number (p.takeWhile isdigit)

def signedNumber : StdString → Int
  | 45 :: p => -leadingNumber p
  | 43 :: p => leadingNumber p
  | p => leadingNumber p

-- strtoll in base 10: white space, a sign, digits, and a result clamped to the range of its type
def atoi64 (s : StdString) : Int :=
  max (-2 ^ 63) (min (2 ^ 63 - 1) (signedNumber ((cStr s).dropWhile isspace)))

section Digits

variable {c : UInt8} {s : StdString}

theorem digit_not_space (h : isdigit c = true) : isspace c = false := by
  have hrange := (isdigit_iff c).mp h
  have h32 : c ≠ 32 := by
    rintro rfl
    exact absurd hrange.1 (by decide)
  simp only [isspace, Bool.or_eq_false_iff, beq_eq_false_iff_ne, ne_eq, decide_eq_false_iff_not,
    UInt8.le_iff_toNat_le]
  refine ⟨h32, fun h13 => ?_⟩
  have hlt : c.toNat ≤ 13 := h13.2
  omega

theorem digit_ne_zero (h : isdigit c = true) : c ≠ 0 := by
  rintro rfl
  exact absurd h (by decide)

theorem space_ne_zero (h : isspace c = true) : c ≠ 0 := by
  rintro rfl
  exact absurd h (by decide)

theorem decimalStr_plain (n : Nat) : decimalStr n = decimal.print (Numeral.plain 10 n) := rfl

theorem isdigit_decimalStr {n : Nat} (hc : c ∈ decimalStr n) : isdigit c = true := by
  rw [← decimal_isDigit]
  exact Alphabet.isDigit_print (fun d hd => Numeral.plain_lt (by decide) hd) hc

theorem number_decimalStr (n : Nat) : decimal.number (decimalStr n) = n := by
  rw [decimalStr_plain, Alphabet.number_print (fun d hd => Numeral.plain_lt (by decide) hd),
    Numeral.value_plain]

theorem isdigit_paddedStr {k n : Nat} (hc : c ∈ paddedStr k n) : isdigit c = true := by
  rw [← decimal_isDigit]
  exact Alphabet.isDigit_print (fun d hd => Numeral.padded_lt (by decide) hd) hc

theorem number_paddedStr (k n : Nat) : decimal.number (paddedStr k n) = n := by
  rw [paddedStr, Alphabet.number_print (fun d hd => Numeral.padded_lt (by decide) hd),
    Numeral.value_padded]

theorem length_paddedStr {k n : Nat} (h : n < 10 ^ k) : (paddedStr k n).length = k := by
  rw [paddedStr, Alphabet.print, List.length_map, Numeral.length_padded (by decide) h]

theorem length_decimalStr_le {k n : Nat} (h : n < 10 ^ k) (hk : 0 < k) :
    (decimalStr n).length ≤ k := by
  rw [decimalStr_plain, Alphabet.print, List.length_map]
  exact Numeral.length_plain_le (by decide) h hk

theorem cStr_of_no_nul (h : 0 ∉ s) : cStr s = s := by
  refine List.takeWhile_eq_self_iff.mpr fun c hc => ?_
  rw [bne_iff_ne]
  rintro rfl
  exact h hc

theorem atoi64_digits (hs : ∀ c ∈ s, isdigit c = true) (hlen : s.length ≤ 18) :
    atoi64 s = decimal.number s := by
  have hstr : cStr s = s := cStr_of_no_nul fun hc => digit_ne_zero (hs 0 hc) rfl
  have hdrop : s.dropWhile isspace = s := by
    cases s with
    | nil => rfl
    | cons c s => rw [List.dropWhile_cons_of_neg (by simp [digit_not_space (hs c (by simp))])]
  have hnumber : s.takeWhile isdigit = s := List.takeWhile_eq_self_iff.mpr hs
  have hlt := Alphabet.number_lt (A := decimal) (by decide)
    (fun c hc => (decimal_isDigit c).trans (hs c hc))
  have hpow : 10 ^ s.length ≤ 10 ^ 18 := Nat.pow_le_pow_right (by decide) hlen
  have hclamp : max (-2 ^ 63) (min (2 ^ 63 - 1) (decimal.number s : Int)) = decimal.number s := by
    omega
  have hsigned : signedNumber s = decimal.number s := by
    unfold signedNumber
    split
    · exact absurd (hs 45 (by simp)) (by decide)
    · exact absurd (hs 43 (by simp)) (by decide)
    · rw [leadingNumber, hnumber]
  rw [atoi64, hstr, hdrop, hsigned, hclamp]

end Digits

end Namecoin
