import Mathlib

namespace Numeral

variable {b n k : Nat} {l m : List Nat}

def value (b : Nat) (l : List Nat) : Nat := l.foldl (fun n d => n * b + d) 0

def digits (b n : Nat) : List Nat := (Nat.digits b n).reverse

def padded (b k n : Nat) : List Nat := List.replicate (k - (digits b n).length) 0 ++ digits b n

@[simp]
theorem value_nil (b : Nat) : value b [] = 0 := rfl

@[simp]
theorem digits_zero (b : Nat) : digits b 0 = [] := by
  rw [digits, Nat.digits_zero, List.reverse_nil]

theorem foldl_value (b n : Nat) (l : List Nat) :
    l.foldl (fun n d => n * b + d) n = n * b ^ l.length + value b l := by
  unfold value
  induction l generalizing n with
  | nil => simp
  | cons d l ih =>
    rw [List.foldl_cons, List.foldl_cons, ih, ih (0 * b + d), List.length_cons, pow_succ']
    ring

theorem value_cons (b d : Nat) (l : List Nat) :
    value b (d :: l) = d * b ^ l.length + value b l := by
  have hfold := foldl_value b (0 * b + d) l
  rw [value, List.foldl_cons, hfold, Nat.zero_mul, Nat.zero_add]

theorem value_append (b : Nat) (l m : List Nat) :
    value b (l ++ m) = value b l * b ^ m.length + value b m := by
  rw [value, List.foldl_append, foldl_value]
  rfl

@[simp]
theorem value_zeros (b k : Nat) : value b (List.replicate k 0) = 0 := by
  induction k with
  | zero => rfl
  | succ k ih => rw [List.replicate_succ, value_cons, ih, Nat.zero_mul]

theorem value_shift (b k : Nat) (l : List Nat) :
    value b (l ++ List.replicate k 0) = value b l * b ^ k := by
  rw [value_append, value_zeros, List.length_replicate, Nat.add_zero]

theorem value_eq_zero (hb : 0 < b) : value b l = 0 ↔ ∀ d ∈ l, d = 0 := by
  induction l with
  | nil => simp
  | cons d l ih =>
    have hpow : b ^ l.length ≠ 0 := (Nat.pow_pos hb).ne'
    rw [value_cons, Nat.add_eq_zero_iff, Nat.mul_eq_zero, or_iff_left hpow, ih,
      List.forall_mem_cons]

theorem value_eq_ofDigits (b : Nat) (l : List Nat) : value b l = Nat.ofDigits b l.reverse := by
  induction l with
  | nil => rfl
  | cons d l ih =>
    rw [value_cons, List.reverse_cons, Nat.ofDigits_append, Nat.ofDigits_singleton,
      List.length_reverse, ih]
    ring

theorem value_lt (hb : 1 < b) (hl : ∀ d ∈ l, d < b) : value b l < b ^ l.length := by
  rw [value_eq_ofDigits, ← List.length_reverse]
  exact Nat.ofDigits_lt_base_pow_length hb fun d hd => hl d (List.mem_reverse.mp hd)

@[simp]
theorem value_digits (b n : Nat) : value b (digits b n) = n := by
  rw [value_eq_ofDigits, digits, List.reverse_reverse, Nat.ofDigits_digits]

theorem digits_lt (hb : 1 < b) {d : Nat} (hd : d ∈ digits b n) : d < b :=
  Nat.digits_lt_base hb (List.mem_reverse.mp hd)

theorem length_digits_le (hb : 1 < b) (h : n < b ^ k) : (digits b n).length ≤ k := by
  rw [digits, List.length_reverse]
  exact (Nat.digits_length_le_iff hb n).mpr h

theorem digits_head {d : Nat} (hd : (digits b n).head? = some d) : d ≠ 0 := by
  by_cases hn : n = 0
  · rw [hn, digits_zero] at hd
    cases hd
  · rw [digits, List.head?_reverse, List.getLast?_eq_some_getLast
      (Nat.digits_ne_nil_iff_ne_zero.mpr hn)] at hd
    rw [← Option.some.inj hd]
    exact Nat.getLast_digit_ne_zero b hn

-- the digits with the single zero of the number zero
def plain (b n : Nat) : List Nat := if n = 0 then [0] else digits b n

theorem plain_lt (hb : 1 < b) {d : Nat} (hd : d ∈ plain b n) : d < b := by
  unfold plain at hd
  split at hd
  · rw [List.mem_singleton.mp hd]
    omega
  · exact digits_lt hb hd

theorem value_plain (b n : Nat) : value b (plain b n) = n := by
  unfold plain
  split
  · next hzero => rw [hzero, value_cons, value_nil, Nat.zero_mul]
  · exact value_digits b n

theorem length_plain_le (hb : 1 < b) (h : n < b ^ k) (hk : 0 < k) : (plain b n).length ≤ k := by
  unfold plain
  split
  · exact hk
  · exact length_digits_le hb h

theorem digits_value (hb : 1 < b) (hl : ∀ d ∈ l, d < b) (hlead : l.head? ≠ some 0) :
    digits b (value b l) = l := by
  rw [value_eq_ofDigits, digits, Nat.digits_ofDigits b hb l.reverse, List.reverse_reverse]
  · intro d hd
    exact hl d (List.mem_reverse.mp hd)
  · intro hne hzero
    rw [List.getLast_reverse] at hzero
    have hhead := List.head?_eq_some_head (List.reverse_ne_nil_iff.mp hne)
    exact hlead (hhead.trans (congrArg some hzero))

-- a string of digits is its leading zeros and the digits of its value
theorem zeros_digits (hb : 1 < b) (hl : ∀ d ∈ l, d < b) :
    l.takeWhile (fun d => d == 0) ++ digits b (value b l) = l := by
  induction l with
  | nil => simp
  | cons d l ih =>
    by_cases hd : d = 0
    · have htail := ih fun e he => hl e (List.mem_cons_of_mem d he)
      rw [List.takeWhile_cons_of_pos (by simpa using hd), value_cons, hd, Nat.zero_mul,
        Nat.zero_add, List.cons_append, htail]
    · have hlead : (d :: l).head? ≠ some 0 := fun h => hd (Option.some.inj h)
      rw [List.takeWhile_cons_of_neg (by simpa using hd), digits_value hb hl hlead,
        List.nil_append]

theorem takeWhile_zeros_digits (b k n : Nat) :
    (List.replicate k 0 ++ digits b n).takeWhile (fun d => d == 0) = List.replicate k 0 := by
  rw [List.takeWhile_append_of_pos]
  · cases hcase : digits b n with
    | nil => simp
    | cons d l =>
      have hd := digits_head (n := n) (by rw [hcase]; rfl)
      rw [List.takeWhile_cons_of_neg (by simpa using hd), List.append_nil]
  · intro d hd
    simp [List.eq_of_mem_replicate hd]

@[simp]
theorem value_padded (b k n : Nat) : value b (padded b k n) = n := by
  rw [padded, value_append, value_zeros, value_digits, Nat.zero_mul, Nat.zero_add]

theorem length_padded (hb : 1 < b) (h : n < b ^ k) : (padded b k n).length = k := by
  have hlen := length_digits_le hb h
  rw [padded, List.length_append, List.length_replicate]
  omega

theorem padded_lt (hb : 1 < b) {d : Nat} (hd : d ∈ padded b k n) : d < b := by
  rcases List.mem_append.mp hd with hzero | hdigit
  · rw [List.eq_of_mem_replicate hzero]
    omega
  · exact digits_lt hb hdigit

structure Alphabet (b : Nat) (α : Type*) where
  digit : Nat → α
  read : α → Option Nat
  read_digit : ∀ d < b, read (digit d) = some d
  digit_read : ∀ c d, read c = some d → d < b ∧ digit d = c

namespace Alphabet

variable {α : Type*} (A : Alphabet b α)

def isDigit (c : α) : Bool := (A.read c).isSome

def digitOf (c : α) : Nat := (A.read c).getD 0

def number (s : List α) : Nat := value b (s.map A.digitOf)

def print (l : List Nat) : List α := l.map A.digit

variable {A} {s t : List α} {c : α}

theorem read_eq (h : A.isDigit c = true) : A.read c = some (A.digitOf c) := by
  obtain ⟨d, hd⟩ := Option.isSome_iff_exists.mp h
  rw [digitOf, hd, Option.getD_some]

theorem digitOf_lt (h : A.isDigit c = true) : A.digitOf c < b := (A.digit_read c _ (read_eq h)).1

theorem digit_digitOf (h : A.isDigit c = true) : A.digit (A.digitOf c) = c :=
  (A.digit_read c _ (read_eq h)).2

theorem isDigit_digit {d : Nat} (h : d < b) : A.isDigit (A.digit d) = true := by
  rw [isDigit, A.read_digit d h, Option.isSome_some]

theorem digitOf_digit {d : Nat} (h : d < b) : A.digitOf (A.digit d) = d := by
  rw [digitOf, A.read_digit d h, Option.getD_some]

theorem isDigit_print (h : ∀ d ∈ l, d < b) (hc : c ∈ A.print l) : A.isDigit c = true := by
  obtain ⟨d, hd, rfl⟩ := List.mem_map.mp hc
  exact isDigit_digit (h d hd)

theorem digitsOf_print (h : ∀ d ∈ l, d < b) : (A.print l).map A.digitOf = l := by
  rw [print, List.map_map]
  refine (List.map_congr_left fun d hd => ?_).trans (List.map_id l)
  exact digitOf_digit (h d hd)

theorem print_digitsOf (h : ∀ c ∈ s, A.isDigit c = true) : A.print (s.map A.digitOf) = s := by
  rw [print, List.map_map]
  refine (List.map_congr_left fun c hc => ?_).trans (List.map_id s)
  exact digit_digitOf (h c hc)

@[simp]
theorem number_nil : A.number [] = 0 := rfl

theorem number_append (s t : List α) :
    A.number (s ++ t) = A.number s * b ^ t.length + A.number t := by
  rw [number, List.map_append, value_append, List.length_map]
  rfl

theorem number_cons (c : α) (s : List α) :
    A.number (c :: s) = A.digitOf c * b ^ s.length + A.number s := by
  rw [number, List.map_cons, value_cons, List.length_map]
  rfl

theorem number_print (h : ∀ d ∈ l, d < b) : A.number (A.print l) = value b l := by
  rw [number, digitsOf_print h]

theorem number_lt (hb : 1 < b) (h : ∀ c ∈ s, A.isDigit c = true) : A.number s < b ^ s.length := by
  have hlt := value_lt hb (l := s.map A.digitOf) (by
    intro d hd
    obtain ⟨c, hc, rfl⟩ := List.mem_map.mp hd
    exact digitOf_lt (h c hc))
  rwa [List.length_map] at hlt

theorem number_shift (hb : 0 < b) (s : List α) (k : Nat) :
    A.number (s ++ List.replicate k (A.digit 0)) = A.number s * b ^ k := by
  rw [number, List.map_append, List.map_replicate, digitOf_digit hb, value_shift]
  rfl

theorem digit_eq_zero [DecidableEq α] (hb : 0 < b) (h : A.isDigit c = true) :
    (c == A.digit 0) = (A.digitOf c == 0) := by
  rw [Bool.eq_iff_iff, beq_iff_eq, beq_iff_eq]
  constructor
  · rintro rfl
    exact digitOf_digit hb
  · intro hzero
    rw [← digit_digitOf h, hzero]

theorem zeros_map [DecidableEq α] (hb : 0 < b) (h : ∀ c ∈ s, A.isDigit c = true) :
    (s.takeWhile (fun c => c == A.digit 0)).length =
      ((s.map A.digitOf).takeWhile (fun d => d == 0)).length := by
  induction s with
  | nil => rfl
  | cons c s ih =>
    obtain ⟨hc, hs⟩ := List.forall_mem_cons.mp h
    rw [List.map_cons, List.takeWhile_cons, List.takeWhile_cons, digit_eq_zero hb hc]
    split
    · rw [List.length_cons, List.length_cons, ih hs]
    · rfl

section Convert

variable {β : Type*} [DecidableEq α] {b' : Nat} (A : Alphabet b α) (B : Alphabet b' β)

-- the number in the other base, behind as many zeros as the string begins with
def convert (s : List α) : List β :=
  (s.takeWhile (fun c => c == A.digit 0)).map (fun _ => B.digit 0) ++
    B.print (digits b' (A.number s))

variable {A B}

theorem convert_eq (hb : 0 < b) (h : ∀ c ∈ s, A.isDigit c = true) :
    convert A B s = B.print (List.replicate
      ((s.map A.digitOf).takeWhile (fun d => d == 0)).length 0 ++ digits b' (A.number s)) := by
  rw [convert, List.map_const', zeros_map hb h, print, print, List.map_append, List.map_replicate]

theorem convert_lt (hb' : 1 < b') {k n d : Nat} (hd : d ∈ List.replicate k 0 ++ digits b' n) :
    d < b' := by
  rcases List.mem_append.mp hd with hzero | hdigit
  · rw [List.eq_of_mem_replicate hzero]
    omega
  · exact digits_lt hb' hdigit

theorem isDigit_convert (hb : 0 < b) (hb' : 1 < b') (h : ∀ c ∈ s, A.isDigit c = true) {c : β}
    (hc : c ∈ convert A B s) : B.isDigit c = true := by
  rw [convert_eq hb h] at hc
  exact isDigit_print (fun d hd => convert_lt hb' hd) hc

theorem convert_convert [DecidableEq β] (hb : 1 < b) (hb' : 1 < b') (h : ∀ c ∈ s, A.isDigit c = true) :
    convert B A (convert A B s) = s := by
  have hdigit : ∀ d ∈ List.replicate ((s.map A.digitOf).takeWhile (fun d => d == 0)).length 0 ++
      digits b' (A.number s), d < b' := fun d hd => convert_lt hb' hd
  have hlt : ∀ d ∈ s.map A.digitOf, d < b := by
    intro d hd
    obtain ⟨c, hc, rfl⟩ := List.mem_map.mp hd
    exact digitOf_lt (h c hc)
  have hzeros : (s.map A.digitOf).takeWhile (fun d => d == 0) =
      List.replicate ((s.map A.digitOf).takeWhile (fun d => d == 0)).length 0 :=
    List.eq_replicate_of_mem fun d hd => by simpa using List.mem_takeWhile_imp hd
  have hsplit := zeros_digits hb hlt
  have hnumber : B.number (convert A B s) = A.number s := by
    rw [convert_eq (by omega) h, number_print hdigit, value_append, value_zeros, Nat.zero_mul,
      Nat.zero_add, value_digits]
  rw [convert_eq (by omega) (fun c hc => isDigit_convert (by omega) hb' h hc), hnumber,
    convert_eq (by omega) h, digitsOf_print hdigit, takeWhile_zeros_digits, List.length_replicate,
    ← hzeros]
  rw [number, hsplit, print_digitsOf h]

end Convert

end Alphabet

end Numeral
