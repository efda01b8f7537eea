import Namecoin.Data.Types
import Namecoin.Lib.Numeral

namespace Namecoin

open Numeral (Alphabet)

abbrev QString := List Char

def isQDigit (c : Char) : Bool := decide (48 ≤ c.toNat ∧ c.toNat ≤ 57)

theorem toNat_ofNat_digit {d : Nat} (hd : d < 10) : (Char.ofNat (48 + d)).toNat = 48 + d := by
  interval_cases d <;> rfl

def qDecimal : Alphabet 10 Char where
  digit d := Char.ofNat (48 + d)
  read c := if isQDigit c then some (c.toNat - 48) else none
  read_digit d hd := by
    have hnat := toNat_ofNat_digit hd
    have hdigit : isQDigit (Char.ofNat (48 + d)) = true := decide_eq_true (by omega)
    rw [if_pos hdigit, hnat, Nat.add_sub_cancel_left]
  digit_read c d h := by
    obtain ⟨hc, hd⟩ := Option.ite_none_right_eq_some.mp h
    have hrange := of_decide_eq_true hc
    have hd := Option.some.inj hd
    have hlt : d < 10 := by omega
    refine ⟨hlt, Char.toNat_inj.mp ?_⟩
    rw [toNat_ofNat_digit hlt]
    omega

-- what QString::toLongLong skips around a number
structure QSpace where
  isSpace : Char → Bool
  blank : isSpace ' ' = true
  digit : ∀ c, isQDigit c = true → isSpace c = false
  plus : isSpace '+' = false
  minus : isSpace '-' = false
  point : isSpace '.' = false

namespace BitcoinUnits

def btc : Int := 0
def mbtc : Int := 1
def ubtc : Int := 2

def valid (unit : Int) : Bool := unit == btc || unit == mbtc || unit == ubtc

def factor (unit : Int) : Nat :=
  if unit = btc then 100000000
  else if unit = mbtc then 100000
  else if unit = ubtc then 100
  else 100000000

def decimals (unit : Int) : Nat :=
  if unit = btc then 8 else if unit = mbtc then 5 else if unit = ubtc then 2 else 0

def qNumber (n : Nat) : QString := qDecimal.print (if n = 0 then [0] else Numeral.digits 10 n)

def rightJustified (s : QString) (width : Nat) (fill : Char) : QString :=
  List.replicate (width - s.length) fill ++ s

def leftJustified (s : QString) (width : Nat) (fill : Char) : QString :=
  s ++ List.replicate (width - s.length) fill

def chopRev : QString → QString
  | c :: d :: e :: rest => if c = '0' then chopRev (d :: e :: rest) else c :: d :: e :: rest
  | s => s

def format (unit n : Int) (fPlus : Bool) : QString :=
  if !valid unit then []
  else
    let nAbs := (if 0 < n then n else -n).toNat
    let quotientStr := qNumber (nAbs / factor unit)
    let remainderStr := rightJustified (qNumber (nAbs % factor unit)) (decimals unit) '0'
    -- the loop chops a last '0' while more than two characters are left
    let remainderStr := (chopRev remainderStr.reverse).reverse
    let quotientStr :=
      if n < 0 then '-' :: quotientStr
      else if fPlus && decide (0 < n) then '+' :: quotientStr else quotientStr
    quotientStr ++ ['.'] ++ remainderStr

def takeSign : QString → Int × QString
  | '-' :: s => (-1, s)
  | '+' :: s => (1, s)
  | s => (1, s)

def signedLongLong (p : Int × QString) : Option Int :=
  if p.2 ≠ [] ∧ p.2.all isQDigit then
    let n := p.1 * qDecimal.number p.2
    if -2 ^ 63 ≤ n ∧ n < 2 ^ 63 then some n else none
  else none

variable (q : QSpace)

def toLongLong (s : QString) : Option Int :=
  signedLongLong (takeSign ((s.dropWhile q.isSpace).rdropWhile q.isSpace))

def parse (unit : Int) (value : QString) : Option Int :=
  if !valid unit || value.isEmpty then none
  else
    let numDecimals := decimals unit
    let parts := value.splitOn '.'
    if 2 < parts.length then none
    else
      let whole := parts.getD 0 []
      let decimals := if 1 < parts.length then parts.getD 1 [] else []
      if numDecimals < decimals.length then none
      else
        let s := whole ++ leftJustified decimals numDecimals '0'
        if 18 < s.length then none else toLongLong q s

structure Amount where
  lead : QString
  sign : QString
  whole : QString
  point : QString
  frac : QString
  trail : QString

def signValue (s : QString) : Int := if s = ['-'] then -1 else 1

def Sign (s : QString) : Prop := s = [] ∨ s = ['+'] ∨ s = ['-']

namespace Amount

variable (a : Amount)

def text : QString := a.lead ++ a.sign ++ a.whole ++ a.point ++ a.frac ++ a.trail

def value : ℚ :=
  signValue a.sign * (qDecimal.number a.whole + qDecimal.number a.frac / 10 ^ a.frac.length)

structure Valid : Prop where
  lead : ∀ c ∈ a.lead, q.isSpace c = true
  sign : Sign a.sign
  whole : ∀ c ∈ a.whole, isQDigit c = true
  point : a.point = ['.'] ∨ a.point = [] ∧ a.frac = []
  frac : ∀ c ∈ a.frac, isQDigit c = true
  trail : ∀ c ∈ a.trail, q.isSpace c = true

end Amount

def Denotes (s : QString) (x : ℚ) : Prop := ∃ a : Amount, a.Valid q ∧ a.text = s ∧ a.value = x

def DigitsAfterPoint (s : QString) : Prop :=
  ∀ w d, s = w ++ '.' :: d → ∀ c ∈ d, isQDigit c = true

def AllZero (s : QString) : Prop := ∀ c ∈ s, isQDigit c = true → c = '0'

@[simp]
theorem qDecimal_isDigit (c : Char) : qDecimal.isDigit c = isQDigit c := by
  change (if isQDigit c then some (c.toNat - 48) else none).isSome = isQDigit c
  split <;> simp_all

theorem sign_not_digit {s : QString} {c : Char} (hs : Sign s) (hc : c ∈ s) :
    isQDigit c = false := by
  rcases hs with rfl | rfl | rfl
  · cases hc
  · rw [List.mem_singleton.mp hc]
    rfl
  · rw [List.mem_singleton.mp hc]
    rfl

structure Literal where
  lead : QString
  sign : QString
  digits : QString
  trail : QString

namespace Literal

variable (l : Literal)

def text : QString := l.lead ++ l.sign ++ l.digits ++ l.trail

def value : Int := signValue l.sign * qDecimal.number l.digits

structure Valid : Prop where
  lead : ∀ c ∈ l.lead, q.isSpace c = true
  sign : Sign l.sign
  digits : ∀ c ∈ l.digits, isQDigit c = true
  nonempty : l.digits ≠ []
  trail : ∀ c ∈ l.trail, q.isSpace c = true

end Literal

section Conversion

variable {q} {s : QString} {v : Int}

theorem takeSign_append {d : QString} (hs : Sign s) (hd : ∀ c ∈ d, isQDigit c = true) :
    takeSign (s ++ d) = (signValue s, d) := by
  rcases hs with rfl | rfl | rfl
  · rw [List.nil_append]
    unfold takeSign
    split
    · exact absurd (hd '-' (by simp)) (by decide)
    · exact absurd (hd '+' (by simp)) (by decide)
    · rfl
  · rfl
  · rfl

theorem takeSign_split (s : QString) :
    ∃ sign, Sign sign ∧ s = sign ++ (takeSign s).2 ∧ (takeSign s).1 = signValue sign := by
  unfold takeSign
  split
  · exact ⟨['-'], Or.inr (Or.inr rfl), rfl, rfl⟩
  · exact ⟨['+'], Or.inr (Or.inl rfl), rfl, rfl⟩
  · exact ⟨[], Or.inl rfl, rfl, rfl⟩

theorem trim_split (s : QString) :
    ∃ lead trail, s = lead ++ (s.dropWhile q.isSpace).rdropWhile q.isSpace ++ trail ∧
      (∀ c ∈ lead, q.isSpace c = true) ∧ ∀ c ∈ trail, q.isSpace c = true := by
  refine ⟨s.takeWhile q.isSpace, (s.dropWhile q.isSpace).rtakeWhile q.isSpace, ?_, ?_, ?_⟩
  · rw [List.append_assoc, List.rdropWhile, List.rtakeWhile, ← List.reverse_append,
      List.takeWhile_append_dropWhile, List.reverse_reverse, List.takeWhile_append_dropWhile]
  · exact fun c hc => List.mem_takeWhile_imp hc
  · exact fun c hc => List.mem_rtakeWhile_imp hc

theorem toLongLong_some (h : toLongLong q s = some v) :
    ∃ l : Literal, l.Valid q ∧ l.text = s ∧ l.value = v := by
  obtain ⟨lead, trail, htext, hlead, htrail⟩ := trim_split (q := q) s
  obtain ⟨sign, hsign, hbody, hvalue⟩ :=
    takeSign_split ((s.dropWhile q.isSpace).rdropWhile q.isSpace)
  rw [toLongLong, signedLongLong] at h
  split at h
  · next hdigits =>
    obtain ⟨-, hv⟩ := Option.ite_none_right_eq_some.mp h
    refine ⟨⟨lead, sign, _, trail⟩,
      ⟨hlead, hsign, List.all_eq_true.mp hdigits.2, hdigits.1, htrail⟩, ?_, ?_⟩
    · rw [Literal.text, List.append_assoc lead, ← hbody]
      exact htext.symm
    · rw [Literal.value, ← hvalue]
      exact Option.some.inj hv
  · cases h

theorem signValue_cases (s : QString) : signValue s = -1 ∨ signValue s = 1 := by
  unfold signValue
  split
  · exact Or.inl rfl
  · exact Or.inr rfl

theorem toLongLong_text {l : Literal} (hl : l.Valid q) (hlen : l.digits.length ≤ 18) :
    toLongLong q l.text = some l.value := by
  have hhead : ∃ c rest, l.sign ++ l.digits = c :: rest ∧ q.isSpace c = false := by
    rcases hl.sign with hsign | hsign | hsign
    · obtain ⟨c, rest, hdigits⟩ := List.exists_cons_of_ne_nil hl.nonempty
      exact ⟨c, rest, by rw [hsign, hdigits]; rfl, q.digit c (hl.digits c (by simp [hdigits]))⟩
    · exact ⟨'+', l.digits, by rw [hsign]; rfl, q.plus⟩
    · exact ⟨'-', l.digits, by rw [hsign]; rfl, q.minus⟩
  obtain ⟨c, rest, hbody, hc⟩ := hhead
  have hlast : ∃ d rest, (l.sign ++ l.digits).reverse = d :: rest ∧ q.isSpace d = false := by
    obtain ⟨rest, d, hdigits⟩ := List.eq_nil_or_concat l.digits |>.resolve_left hl.nonempty
    refine ⟨d, (l.sign ++ rest).reverse, ?_, q.digit d (hl.digits d (by simp [hdigits]))⟩
    rw [hdigits]
    simp
  obtain ⟨d, rest', hrev, hd⟩ := hlast
  have hdrop : l.text.dropWhile q.isSpace = l.sign ++ l.digits ++ l.trail := by
    rw [Literal.text, List.append_assoc l.lead, List.append_assoc l.lead,
      List.dropWhile_append_of_pos hl.lead, hbody]
    exact List.dropWhile_cons_of_neg (by simp [hc])
  have hrdrop : (l.sign ++ l.digits ++ l.trail).rdropWhile q.isSpace = l.sign ++ l.digits := by
    rw [List.rdropWhile, List.reverse_append, List.dropWhile_append_of_pos fun c hc =>
      hl.trail c (List.mem_reverse.mp hc), hrev, List.dropWhile_cons_of_neg (by simp [hd]), ← hrev,
      List.reverse_reverse]
  have hlt := Alphabet.number_lt (A := qDecimal) (by decide)
    (fun c hc => (qDecimal_isDigit c).trans (hl.digits c hc))
  have hpow : 10 ^ l.digits.length ≤ 10 ^ 18 := Nat.pow_le_pow_right (by decide) hlen
  have hrange : -2 ^ 63 ≤ signValue l.sign * (qDecimal.number l.digits : Int) ∧
      signValue l.sign * (qDecimal.number l.digits : Int) < 2 ^ 63 := by
    rcases signValue_cases l.sign with hsign | hsign <;> rw [hsign] <;> omega
  rw [toLongLong, hdrop, hrdrop, takeSign_append hl.sign hl.digits, signedLongLong,
    if_pos ⟨hl.nonempty, List.all_eq_true.mpr hl.digits⟩]
  exact if_pos hrange

end Conversion

section Parsing

variable {q} {unit v : Int} {s w d t x : QString}

theorem factor_eq (hunit : valid unit = true) : factor unit = 10 ^ decimals unit := by
  rw [valid, Bool.or_eq_true, Bool.or_eq_true, beq_iff_eq, beq_iff_eq, beq_iff_eq] at hunit
  rcases hunit with (rfl | rfl) | rfl <;> rfl

theorem decimals_range (hunit : valid unit = true) : 2 ≤ decimals unit ∧ decimals unit ≤ 8 := by
  rw [valid, Bool.or_eq_true, Bool.or_eq_true, beq_iff_eq, beq_iff_eq, beq_iff_eq] at hunit
  rcases hunit with (rfl | rfl) | rfl <;> decide

def Parts (s w d : QString) : Prop :=
  '.' ∉ w ∧ (s = w ∧ d = [] ∨ '.' ∉ d ∧ s = w ++ '.' :: d)

theorem parts_of_short (h : (s.splitOn '.').length ≤ 2) : ∃ w d, Parts s w d := by
  by_cases hs : '.' ∈ s
  · obtain ⟨w, d, rfl, hw⟩ := List.eq_append_cons_of_mem hs
    refine ⟨w, d, hw, Or.inr ⟨fun hd => ?_, rfl⟩⟩
    obtain ⟨w', d', rfl, hw'⟩ := List.eq_append_cons_of_mem hd
    rw [List.splitOn_append_cons_self_of_not_mem hw, List.splitOn_append_cons_self_of_not_mem hw']
      at h
    have hpos := List.length_pos_of_ne_nil (List.splitOn_ne_nil '.' d')
    simp only [List.length_cons] at h
    omega
  · exact ⟨s, [], hs, Or.inl ⟨rfl, rfl⟩⟩

theorem parse_parts (hunit : valid unit = true) (hs : s ≠ []) (h : Parts s w d) :
    parse q unit s =
      if decimals unit < d.length then none
      else if 18 < (w ++ leftJustified d (decimals unit) '0').length then none
      else toLongLong q (w ++ leftJustified d (decimals unit) '0') := by
  have hempty : s.isEmpty = false := by simpa using hs
  obtain ⟨hw, hsplit⟩ := h
  rcases hsplit with ⟨rfl, rfl⟩ | ⟨hd, rfl⟩
  · rw [parse, hunit, hempty, List.splitOn_eq_singleton hw]
    rfl
  · rw [parse, hunit, hempty, List.splitOn_append_cons_self_of_not_mem hw,
      List.splitOn_eq_singleton hd]
    rfl

theorem parse_some (h : parse q unit s = some v) :
    valid unit = true ∧ s ≠ [] ∧ ∃ w d, Parts s w d := by
  rw [parse] at h
  split at h
  · cases h
  · next hguard =>
    rw [Bool.or_eq_true, not_or, Bool.not_eq_true', Bool.not_eq_false, List.isEmpty_iff] at hguard
    refine ⟨hguard.1, hguard.2, ?_⟩
    refine parts_of_short (not_lt.mp fun hlong => ?_)
    change (if 2 < (s.splitOn '.').length then none else _) = some v at h
    rw [if_pos hlong] at h
    cases h

theorem parse_glued (h : parse q unit s = some v) (hparts : Parts s w d) :
    d.length ≤ decimals unit ∧ (w ++ leftJustified d (decimals unit) '0').length ≤ 18 ∧
      toLongLong q (w ++ leftJustified d (decimals unit) '0') = some v := by
  obtain ⟨hunit, hs, -⟩ := parse_some h
  rw [parse_parts hunit hs hparts] at h
  split at h
  · cases h
  · next hd =>
    split at h
    · cases h
    · next hlen => exact ⟨not_lt.mp hd, not_lt.mp hlen, h⟩

theorem digits_suffix {l : Literal} (hl : l.Valid q) (htext : l.text = w ++ t) (ht : t ≠ [])
    (hdigits : ∀ c ∈ t, isQDigit c = true) :
    ∃ w', w = l.lead ++ l.sign ++ w' ∧ l.digits = w' ++ t ∧ l.trail = [] := by
  have hnotspace (c : Char) (hc : c ∈ t) : c ∉ l.trail := by
    intro hmem
    have hspace := q.digit c (hdigits c hc)
    rw [hl.trail c hmem] at hspace
    cases hspace
  have hnotlead (c : Char) (hc : c ∈ t) : c ∉ l.lead ++ l.sign := by
    intro hmem
    rcases List.mem_append.mp hmem with hlead | hsign
    · have hspace := q.digit c (hdigits c hc)
      rw [hl.lead c hlead] at hspace
      cases hspace
    · have hnot := sign_not_digit hl.sign hsign
      rw [hdigits c hc] at hnot
      cases hnot
  have htrail : l.trail = [] ∧ l.lead ++ l.sign ++ l.digits = w ++ t := by
    rcases List.append_eq_append_iff.mp htext with ⟨c, -, hc⟩ | ⟨c, hpre, hc⟩
    · obtain ⟨e, t', rfl⟩ := List.exists_cons_of_ne_nil ht
      exact absurd (by rw [hc]; simp) (hnotspace e List.mem_cons_self)
    · have hnil : l.trail = [] := by
        refine List.eq_nil_iff_forall_not_mem.mpr fun e he => ?_
        exact hnotspace e (by rw [hc]; exact List.mem_append_right c he) he
      rw [hnil, List.append_nil] at hc
      exact ⟨hnil, by rw [hpre, hc]⟩
  obtain ⟨hnil, hbody⟩ := htrail
  rcases List.append_eq_append_iff.mp hbody with ⟨c, hw, hdig⟩ | ⟨c, hpre, hc⟩
  · exact ⟨c, hw, hdig, hnil⟩
  · have hcnil : c = [] := by
      refine List.eq_nil_iff_forall_not_mem.mpr fun e he => ?_
      refine hnotlead e (by rw [hc]; exact List.mem_append_left _ he) ?_
      rw [hpre]
      exact List.mem_append_right w he
    rw [hcnil, List.append_nil] at hpre
    rw [hcnil, List.nil_append] at hc
    exact ⟨[], by rw [hpre, List.append_nil], by rw [hc, List.nil_append], hnil⟩

theorem number_glued {k : Nat} (hd : d.length ≤ k) :
    (qDecimal.number (w ++ leftJustified d k '0') : ℚ) =
      (qDecimal.number w + qDecimal.number d / 10 ^ d.length) * 10 ^ k := by
  have hzero : '0' = qDecimal.digit 0 := rfl
  have hpow : (10 : ℚ) ^ k = 10 ^ d.length * 10 ^ (k - d.length) := by
    rw [← pow_add, Nat.add_sub_cancel' hd]
  rw [leftJustified, ← List.append_assoc, hzero, Alphabet.number_shift (by decide),
    Alphabet.number_append, hpow]
  push_cast
  field_simp

theorem mem_leftJustified {c : Char} {k : Nat} (hc : c ∈ leftJustified d k '0') :
    c ∈ d ∨ c = '0' :=
  (List.mem_append.mp hc).imp_right List.eq_of_mem_replicate

theorem number_zero (hs : ∀ c ∈ s, isQDigit c = true → c = '0')
    (hdigits : ∀ c ∈ s, isQDigit c = true) : qDecimal.number s = 0 := by
  refine (Numeral.value_eq_zero (by decide)).mpr fun n hn => ?_
  obtain ⟨c, hc, rfl⟩ := List.mem_map.mp hn
  rw [hs c hc (hdigits c hc)]
  rfl

theorem all_zero (hdigits : ∀ c ∈ s, isQDigit c = true) (h : qDecimal.number s = 0) :
    ∀ c ∈ s, c = '0' := by
  intro c hc
  have hzero := (Numeral.value_eq_zero (by decide)).mp h _ (List.mem_map_of_mem hc)
  have hdigit := Alphabet.digit_digitOf ((qDecimal_isDigit c).trans (hdigits c hc))
  rw [hzero] at hdigit
  exact hdigit.symm

end Parsing

section Exact

variable {q} {unit v n : Int} {s w d : QString} {a : Amount}

theorem digit_ne_point {c : Char} (hc : isQDigit c = true) : c ≠ '.' := by
  rintro rfl
  exact absurd hc (by decide)

theorem Amount.Valid.before_point (ha : a.Valid q) : '.' ∉ a.lead ++ a.sign ++ a.whole := by
  simp only [List.mem_append, not_or]
  refine ⟨⟨fun hc => ?_, fun hc => ?_⟩, fun hc => digit_ne_point (ha.whole _ hc) rfl⟩
  · exact absurd (ha.lead _ hc) (by rw [q.point]; decide)
  · rcases ha.sign with hsign | hsign | hsign <;> rw [hsign] at hc <;> simp at hc

theorem Amount.Valid.after_point (ha : a.Valid q) : '.' ∉ a.frac ++ a.trail := by
  simp only [List.mem_append, not_or]
  refine ⟨fun hc => digit_ne_point (ha.frac _ hc) rfl, fun hc => ?_⟩
  exact absurd (ha.trail _ hc) (by rw [q.point]; decide)

theorem Amount.Valid.digit_mem (ha : a.Valid q) {c : Char} (hc : c ∈ a.text)
    (hdigit : isQDigit c = true) : c ∈ a.whole ++ a.frac := by
  have hnotspace : q.isSpace c ≠ true := by
    rw [q.digit c hdigit]
    decide
  have hpoint : c ∉ a.point := by
    rcases ha.point with hpoint | ⟨hpoint, -⟩ <;> rw [hpoint]
    · exact fun h => digit_ne_point hdigit (List.mem_singleton.mp h)
    · simp
  have hsign : c ∉ a.sign := fun h => by
    rw [sign_not_digit ha.sign h] at hdigit
    cases hdigit
  simp only [Amount.text, List.mem_append] at hc
  rcases hc with ((((hc | hc) | hc) | hc) | hc) | hc
  · exact absurd (ha.lead c hc) hnotspace
  · exact absurd hc hsign
  · exact List.mem_append_left _ hc
  · exact absurd hc hpoint
  · exact List.mem_append_right _ hc
  · exact absurd (ha.trail c hc) hnotspace

theorem Amount.text_point (a : Amount) (hpoint : a.point = ['.']) :
    a.text = (a.lead ++ a.sign ++ a.whole) ++ '.' :: (a.frac ++ a.trail) := by
  simp [Amount.text, hpoint]

theorem exact_of_digits (h : parse q unit s = some v) (hdigits : DigitsAfterPoint s) :
    ∃ x, Denotes q s x ∧ (v : ℚ) = x * factor unit := by
  obtain ⟨hunit, -, w, d, hparts⟩ := parse_some h
  obtain ⟨hd, -, hvalue⟩ := parse_glued h hparts
  have hrange := decimals_range hunit
  obtain ⟨l, hl, htext, rfl⟩ := toLongLong_some hvalue
  have hafter : ∀ c ∈ d, isQDigit c = true := by
    rcases hparts.2 with ⟨-, rfl⟩ | ⟨-, hs⟩
    · simp
    · exact hdigits w d hs
  have htail : leftJustified d (decimals unit) '0' ≠ [] := by
    refine List.ne_nil_of_length_pos ?_
    rw [leftJustified, List.length_append, List.length_replicate]
    omega
  have hdigit (c : Char) (hc : c ∈ leftJustified d (decimals unit) '0') : isQDigit c = true := by
    rcases mem_leftJustified hc with hmem | rfl
    · exact hafter c hmem
    · rfl
  obtain ⟨w', hw, hlit, -⟩ := digits_suffix hl htext htail hdigit
  have hwhole (c : Char) (hc : c ∈ w') : isQDigit c = true :=
    hl.digits c (by rw [hlit]; exact List.mem_append_left _ hc)
  obtain ⟨point, hpoint, hs⟩ : ∃ point, (point = ['.'] ∨ point = [] ∧ d = []) ∧
      s = w ++ point ++ d := by
    rcases hparts.2 with ⟨rfl, rfl⟩ | ⟨-, rfl⟩
    · exact ⟨[], Or.inr ⟨rfl, rfl⟩, by simp⟩
    · exact ⟨['.'], Or.inl rfl, by simp⟩
  refine ⟨_, ⟨⟨l.lead, l.sign, w', point, d, []⟩, ?_, ?_, rfl⟩, ?_⟩
  · exact ⟨hl.lead, hl.sign, hwhole, hpoint, hafter, by simp⟩
  · rw [hs, hw, Amount.text, List.append_nil]
  · rw [Literal.value, hlit, factor_eq hunit, Amount.value, Int.cast_mul, Int.cast_natCast,
      number_glued hd, mul_assoc]
    push_cast
    rfl

theorem exact_of_zero (h : parse q unit s = some v) {x : ℚ} (hx : Denotes q s x)
    (hzero : AllZero s) : (v : ℚ) = x * factor unit := by
  obtain ⟨-, -, w, d, hparts⟩ := parse_some h
  obtain ⟨-, -, hvalue⟩ := parse_glued h hparts
  obtain ⟨l, hl, htext, rfl⟩ := toLongLong_some hvalue
  obtain ⟨a, ha, rfl, rfl⟩ := hx
  have hmem (c : Char) (hc : c ∈ w ++ d) : c ∈ a.text := by
    rcases hparts.2 with ⟨hs, rfl⟩ | ⟨-, hs⟩
    · rwa [hs, ← List.append_nil w]
    · rw [hs]
      exact (List.mem_append.mp hc).elim (List.mem_append_left _)
        fun hd => List.mem_append_right _ (List.mem_cons_of_mem _ hd)
  have hlit : qDecimal.number l.digits = 0 := by
    refine number_zero (fun c hc hdigit => ?_) hl.digits
    have hc : c ∈ w ++ leftJustified d (decimals unit) '0' := by
      rw [← htext, Literal.text]
      simp [hc]
    rcases List.mem_append.mp hc with hw | hd
    · exact hzero c (hmem c (List.mem_append_left _ hw)) hdigit
    · rcases mem_leftJustified hd with hd | hd
      · exact hzero c (hmem c (List.mem_append_right _ hd)) hdigit
      · exact hd
  have hwhole : qDecimal.number a.whole = 0 :=
    number_zero (fun c hc => hzero c (by simp [Amount.text, hc])) ha.whole
  have hfrac : qDecimal.number a.frac = 0 :=
    number_zero (fun c hc => hzero c (by simp [Amount.text, hc])) ha.frac
  rw [Literal.value, hlit, Amount.value, hwhole, hfrac]
  simp

theorem spaces_before {lead rest x trail : QString} (h : lead ++ rest = x ++ trail)
    (hlead : ∀ c ∈ lead, q.isSpace c = true) (hrest : ∀ c ∈ rest, q.isSpace c = false)
    (htrail : ∀ c ∈ trail, q.isSpace c = true) (hne : trail ≠ []) :
    ∀ c ∈ x, q.isSpace c = true := by
  rcases List.append_eq_append_iff.mp h with ⟨y, -, hy⟩ | ⟨y, hx, -⟩
  · obtain ⟨c, t, rfl⟩ := List.exists_cons_of_ne_nil hne
    have hc := hrest c (by rw [hy]; simp)
    rw [htrail c List.mem_cons_self] at hc
    cases hc
  · intro c hc
    exact hlead c (by rw [hx]; exact List.mem_append_left y hc)

theorem sign_not_space {c : Char} (hs : Sign s) (hc : c ∈ s) : q.isSpace c = false := by
  rcases hs with rfl | rfl | rfl
  · cases hc
  · rw [List.mem_singleton.mp hc, q.plus]
  · rw [List.mem_singleton.mp hc, q.minus]

theorem zero_of_padded (ha : a.Valid q) (htrail : a.trail ≠ [])
    (hk : (a.frac ++ a.trail).length < decimals unit)
    (h : toLongLong q (a.lead ++ a.sign ++ a.whole ++
      leftJustified (a.frac ++ a.trail) (decimals unit) '0') = some v) : AllZero a.text := by
  obtain ⟨l, hl, htext, -⟩ := toLongLong_some h
  have hzeros : List.replicate (decimals unit - (a.frac ++ a.trail).length) '0' ≠ [] := by
    refine List.ne_nil_of_length_pos ?_
    rw [List.length_replicate]
    omega
  rw [leftJustified, ← List.append_assoc] at htext
  obtain ⟨w, hw, hdigits, -⟩ := digits_suffix hl htext hzeros fun c hc => by
    rw [List.eq_of_mem_replicate hc]
    rfl
  rw [← List.append_assoc, List.append_assoc l.lead] at hw
  have hspace := spaces_before hw.symm hl.lead (fun c hc => ?_) ha.trail htrail
  · intro c hc hdigit
    have hmem := ha.digit_mem hc hdigit
    have hblank := hspace c (by
      simp only [List.mem_append] at hmem ⊢
      exact hmem.elim (fun hwhole => Or.inl (Or.inr hwhole)) Or.inr)
    rw [q.digit c hdigit] at hblank
    cases hblank
  · rcases List.mem_append.mp hc with hsign | hmem
    · exact sign_not_space hl.sign hsign
    · exact q.digit c (hl.digits c (by rw [hdigits]; exact List.mem_append_left _ hmem))

theorem zero_of_shifted (ha : a.Valid q) (hunit : valid unit = true) (htrail : a.trail ≠ [])
    (hk : (a.frac ++ a.trail).length = decimals unit) (hlen : a.whole.length + decimals unit ≤ 18)
    (h : toLongLong q (a.lead ++ a.sign ++ a.whole ++
      leftJustified (a.frac ++ a.trail) (decimals unit) '0') = some v)
    (heq : (v : ℚ) = a.value * factor unit) : AllZero a.text := by
  have hdigits : ∀ c ∈ a.whole ++ a.frac, isQDigit c = true := fun c hc =>
    (List.mem_append.mp hc).elim (ha.whole c) (ha.frac c)
  by_cases hempty : a.whole ++ a.frac = []
  · intro c hc hdigit
    have hmem := ha.digit_mem hc hdigit
    rw [hempty] at hmem
    cases hmem
  · have htext : a.lead ++ a.sign ++ a.whole ++
        leftJustified (a.frac ++ a.trail) (decimals unit) '0' =
        Literal.text ⟨a.lead, a.sign, a.whole ++ a.frac, a.trail⟩ := by
      rw [leftJustified, hk, Nat.sub_self]
      simp [Literal.text]
    have hfrac : a.frac.length + a.trail.length = decimals unit := by
      rw [← hk, List.length_append]
    rw [htext, toLongLong_text ⟨ha.lead, ha.sign, hdigits, hempty, ha.trail⟩
      (by rw [List.length_append]; omega), Option.some.injEq] at h
    have hscale : a.value * factor unit = v * 10 ^ a.trail.length := by
      rw [← h, Literal.value, Amount.value, factor_eq hunit, ← hfrac, Alphabet.number_append]
      push_cast
      rw [pow_add]
      field_simp
    have hpow : (1 : ℚ) < 10 ^ a.trail.length :=
      one_lt_pow₀ (by norm_num) (List.length_pos_of_ne_nil htrail).ne'
    have hv : (v : ℚ) = 0 := by
      rw [hscale] at heq
      by_contra hne
      have hone := mul_left_cancel₀ hne ((mul_one (v : ℚ)).trans heq)
      exact hpow.ne hone
    have hv : v = 0 := by exact_mod_cast hv
    have hnumber : qDecimal.number (a.whole ++ a.frac) = 0 := by
      rw [hv] at h
      change signValue a.sign * (qDecimal.number (a.whole ++ a.frac) : Int) = 0 at h
      rcases signValue_cases a.sign with hsign | hsign <;> rw [hsign] at h <;> omega
    exact fun c hc hdigit => all_zero hdigits hnumber c (ha.digit_mem hc hdigit)

theorem digits_after_point (hw : '.' ∉ w) (hd : ∀ c ∈ d, isQDigit c = true) :
    DigitsAfterPoint (w ++ '.' :: d) := by
  intro w' d' hs c hc
  rcases List.append_eq_append_iff.mp hs with ⟨y, -, hy⟩ | ⟨y, hpre, hy⟩
  · cases y with
    | nil => exact hd c ((List.cons.inj hy).2 ▸ hc)
    | cons e y =>
      have htail := (List.cons.inj hy).2
      exact absurd (hd '.' (by rw [htail]; simp)) (by decide)
  · cases y with
    | nil => exact hd c ((List.cons.inj hy).2 ▸ hc)
    | cons e y =>
      obtain ⟨rfl, -⟩ := List.cons.inj hy
      exact absurd (by rw [hpre]; simp) hw

theorem digits_or_zero (h : parse q unit s = some v) {x : ℚ} (hx : Denotes q s x)
    (heq : (v : ℚ) = x * factor unit) : DigitsAfterPoint s ∨ AllZero s := by
  obtain ⟨a, ha, rfl, rfl⟩ := hx
  obtain ⟨hunit, -, -⟩ := parse_some h
  rcases ha.point with hpoint | ⟨hpoint, hfrac⟩
  · have htext := a.text_point hpoint
    have hparts : Parts a.text (a.lead ++ a.sign ++ a.whole) (a.frac ++ a.trail) :=
      ⟨ha.before_point, Or.inr ⟨ha.after_point, htext⟩⟩
    obtain ⟨hd, hlen, hvalue⟩ := parse_glued h hparts
    by_cases htrail : a.trail = []
    · left
      rw [htext, htrail, List.append_nil]
      exact digits_after_point ha.before_point ha.frac
    · right
      rcases hd.lt_or_eq with hlt | hk
      · exact zero_of_padded ha htrail hlt hvalue
      · refine zero_of_shifted ha hunit htrail hk ?_ hvalue heq
        simp only [leftJustified, List.length_append, List.length_replicate] at hlen hk
        omega
  · left
    intro w d hs
    have hmem : '.' ∈ a.text := by
      rw [hs]
      simp
    have hnot := ha.before_point
    have hafter := ha.after_point
    simp only [Amount.text, hpoint, hfrac, List.append_nil, List.nil_append, List.mem_append,
      not_or] at hmem hnot hafter
    exact absurd hmem (by simp [hnot, hafter])

end Exact

section Formatting

variable {q} {unit n : Int} {fPlus : Bool}

theorem chopRev_zeros (s : QString) : ∃ k, s = List.replicate k '0' ++ chopRev s := by
  induction s using chopRev.induct with
  | case1 d e rest ih =>
    obtain ⟨k, hk⟩ := ih
    refine ⟨k + 1, ?_⟩
    rw [chopRev, if_pos rfl, List.replicate_succ, List.cons_append, ← hk]
  | case2 c d e rest h =>
    refine ⟨0, ?_⟩
    rw [chopRev, if_neg h]
    rfl
  | case3 s h =>
    refine ⟨0, ?_⟩
    rw [chopRev]
    · rfl
    · exact h

theorem leftJustified_chopped (s : QString) :
    leftJustified (chopRev s.reverse).reverse s.length '0' = s := by
  obtain ⟨k, hk⟩ := chopRev_zeros s.reverse
  have hrev := congrArg List.reverse hk
  rw [List.reverse_reverse, List.reverse_append, List.reverse_replicate] at hrev
  have hlen := congrArg List.length hrev
  rw [List.length_append, List.length_replicate] at hlen
  rw [leftJustified, hlen, Nat.add_sub_cancel_left]
  exact hrev.symm

theorem qNumber_plain (n : Nat) : qNumber n = qDecimal.print (Numeral.plain 10 n) := rfl

theorem isQDigit_qNumber {c : Char} {n : Nat} (hc : c ∈ qNumber n) : isQDigit c = true := by
  rw [← qDecimal_isDigit]
  exact Alphabet.isDigit_print (fun d hd => Numeral.plain_lt (by decide) hd) hc

theorem number_qNumber (n : Nat) : qDecimal.number (qNumber n) = n := by
  rw [qNumber_plain, Alphabet.number_print (fun d hd => Numeral.plain_lt (by decide) hd),
    Numeral.value_plain]

theorem length_qNumber {k n : Nat} (h : n < 10 ^ k) (hk : 0 < k) : (qNumber n).length ≤ k := by
  rw [qNumber_plain, Alphabet.print, List.length_map]
  exact Numeral.length_plain_le (by decide) h hk

theorem number_rightJustified (s : QString) (k : Nat) :
    qDecimal.number (rightJustified s k '0') = qDecimal.number s := by
  have hzero : '0' = qDecimal.digit 0 := rfl
  have hshift := Alphabet.number_shift (A := qDecimal) (by decide) [] (k - s.length)
  rw [List.nil_append, Alphabet.number_nil, Nat.zero_mul] at hshift
  rw [rightJustified, hzero, Alphabet.number_append, hshift, Nat.zero_mul, Nat.zero_add]

structure Rendered (unit n : Int) (s sign whole frac : QString) : Prop where
  text : s = sign ++ whole ++ '.' :: frac
  signed : Sign sign
  digits : ∀ c ∈ whole ++ leftJustified frac (decimals unit) '0', isQDigit c = true
  fits : frac.length ≤ decimals unit
  length : whole.length + decimals unit ≤ 16
  value : signValue sign * qDecimal.number (whole ++ leftJustified frac (decimals unit) '0') = n

theorem format_rendered (hunit : valid unit = true) (hlow : -maxMoney ≤ n) (hhigh : n ≤ maxMoney) :
    ∃ sign whole frac, Rendered unit n (format unit n fPlus) sign whole frac := by
  have hmax : maxMoney = 2100000000000000 := rfl
  have habs : (if 0 < n then n else -n).toNat = n.natAbs := by
    split <;> omega
  have hrange := decimals_range hunit
  have hfactor := factor_eq hunit
  have hmod : n.natAbs % factor unit < 10 ^ decimals unit := by
    rw [hfactor]
    exact Nat.mod_lt _ (Nat.pow_pos (by decide))
  have hdiv : n.natAbs / factor unit < 10 ^ (16 - decimals unit) := by
    rw [hfactor, Nat.div_lt_iff_lt_mul (Nat.pow_pos (by decide)), ← pow_add,
      Nat.sub_add_cancel (by omega)]
    omega
  have hwhole := length_qNumber hdiv (by omega)
  have hrest := length_qNumber hmod (by omega)
  have hjustified : (rightJustified (qNumber (n.natAbs % factor unit)) (decimals unit) '0').length =
      decimals unit := by
    rw [rightJustified, List.length_append, List.length_replicate]
    omega
  have hchop := leftJustified_chopped
    (rightJustified (qNumber (n.natAbs % factor unit)) (decimals unit) '0')
  rw [hjustified] at hchop
  have hlen := congrArg List.length hchop
  rw [leftJustified, List.length_append, List.length_replicate, hjustified] at hlen
  have hnumber : qDecimal.number (qNumber (n.natAbs / factor unit) ++
      rightJustified (qNumber (n.natAbs % factor unit)) (decimals unit) '0') = n.natAbs := by
    rw [Alphabet.number_append, hjustified, number_rightJustified, number_qNumber, number_qNumber,
      ← hfactor, Nat.div_add_mod']
  obtain ⟨sign, hsign, hvalue, htext⟩ : ∃ sign, Sign sign ∧ signValue sign * n.natAbs = n ∧
      (if n < 0 then '-' :: qNumber (n.natAbs / factor unit)
        else if fPlus && decide (0 < n) then '+' :: qNumber (n.natAbs / factor unit)
        else qNumber (n.natAbs / factor unit)) = sign ++ qNumber (n.natAbs / factor unit) := by
    split
    · refine ⟨['-'], Or.inr (Or.inr rfl), ?_, rfl⟩
      change -1 * (n.natAbs : Int) = n
      omega
    · split
      · refine ⟨['+'], Or.inr (Or.inl rfl), ?_, rfl⟩
        change 1 * (n.natAbs : Int) = n
        omega
      · refine ⟨[], Or.inl rfl, ?_, rfl⟩
        change 1 * (n.natAbs : Int) = n
        omega
  refine ⟨sign, qNumber (n.natAbs / factor unit), (chopRev (rightJustified
    (qNumber (n.natAbs % factor unit)) (decimals unit) '0').reverse).reverse, ?_, hsign, ?_, ?_, ?_,
    ?_⟩
  · rw [format, hunit, habs, ← htext]
    exact List.append_assoc _ ['.'] _
  · rw [hchop]
    intro c hc
    rcases List.mem_append.mp hc with hc | hc
    · exact isQDigit_qNumber hc
    · rcases List.mem_append.mp hc with hc | hc
      · rw [List.eq_of_mem_replicate hc]
        rfl
      · exact isQDigit_qNumber hc
  · omega
  · omega
  · rw [hchop, hnumber, hvalue]

theorem parse_format (hunit : valid unit = true) (hlow : -maxMoney ≤ n) (hhigh : n ≤ maxMoney) :
    parse q unit (format unit n fPlus) = some n := by
  obtain ⟨sign, whole, frac, htext, hsign, hdigits, hfrac, hlen, hvalue⟩ :=
    format_rendered hunit hlow hhigh
  have hrange := decimals_range hunit
  have hjustified : (leftJustified frac (decimals unit) '0').length = decimals unit := by
    rw [leftJustified, List.length_append, List.length_replicate]
    omega
  have hpoint (c : Char) (hc : c ∈ whole ++ leftJustified frac (decimals unit) '0') : c ≠ '.' :=
    digit_ne_point (hdigits c hc)
  have hparts : Parts (sign ++ whole ++ '.' :: frac) (sign ++ whole) frac := by
    refine ⟨fun hmem => ?_, Or.inr ⟨fun hmem => ?_, rfl⟩⟩
    · rcases List.mem_append.mp hmem with hmem | hmem
      · rcases hsign with rfl | rfl | rfl <;> simp at hmem
      · exact hpoint '.' (List.mem_append_left _ hmem) rfl
    · exact hpoint '.' (List.mem_append_right _ (List.mem_append_left _ hmem)) rfl
  have hlit : (Literal.mk [] sign (whole ++ leftJustified frac (decimals unit) '0') []).Valid q := by
    refine ⟨by simp, hsign, hdigits, List.ne_nil_of_length_pos ?_, by simp⟩
    rw [List.length_append]
    omega
  have hsignlen : sign.length ≤ 1 := by
    rcases hsign with rfl | rfl | rfl <;> simp
  have hbody : sign ++ whole ++ leftJustified frac (decimals unit) '0' =
      Literal.text ⟨[], sign, whole ++ leftJustified frac (decimals unit) '0', []⟩ := by
    simp [Literal.text]
  rw [htext, parse_parts hunit (by simp) hparts, if_neg (by omega), if_neg, hbody,
    toLongLong_text hlit]
  · exact congrArg some hvalue
  · rw [List.length_append]
    omega
  · rw [List.length_append, List.length_append]
    omega

end Formatting

theorem parse_exact (q : QSpace) (unit : Int) :
    (valid unit = true → ∀ n fPlus, -maxMoney ≤ n → n ≤ maxMoney →
      parse q unit (format unit n fPlus) = some n) ∧
    ∀ s v, parse q unit s = some v →
      ((∃ x, Denotes q s x ∧ (v : ℚ) = x * factor unit) ↔
        DigitsAfterPoint s ∨ (∃ x, Denotes q s x) ∧ AllZero s) := by
  refine ⟨fun hunit n fPlus hlow hhigh => parse_format hunit hlow hhigh, fun s v h => ⟨?_, ?_⟩⟩
  · rintro ⟨x, hx, heq⟩
    exact (digits_or_zero h hx heq).imp_right fun hzero => ⟨⟨x, hx⟩, hzero⟩
  · rintro (hdigits | ⟨⟨x, hx⟩, hzero⟩)
    · exact exact_of_digits h hdigits
    · exact ⟨x, hx, exact_of_zero h hx hzero⟩

def latinSpace : QSpace where
  isSpace c := c == ' ' || decide (9 ≤ c.toNat ∧ c.toNat ≤ 13) || decide (c.toNat = 0x85) ||
    decide (c.toNat = 0xa0)
  blank := rfl
  digit c hc := by
    have hrange := of_decide_eq_true hc
    have hblank : c ≠ ' ' := by
      rintro rfl
      exact absurd hrange.1 (by decide)
    simp only [Bool.or_eq_false_iff, beq_eq_false_iff_ne, ne_eq, decide_eq_false_iff_not]
    exact ⟨⟨⟨hblank, by omega⟩, by omega⟩, by omega⟩
  plus := rfl
  minus := rfl
  point := rfl

theorem parse_exact_mbtc :
    parse latinSpace mbtc (format mbtc (-150000) true) = some (-150000) ∧
      ∃ x, Denotes latinSpace " 1.5".toList x ∧ ((150000 : Int) : ℚ) = x * factor mbtc := by
  have hparse : parse latinSpace mbtc " 1.5".toList = some 150000 := by decide +kernel
  have hdigits : DigitsAfterPoint " 1.5".toList :=
    digits_after_point (w := [' ', '1']) (d := ['5']) (by decide) (List.forall_mem_singleton.mpr rfl)
  exact ⟨(parse_exact latinSpace mbtc).1 (by decide) _ _ (by decide) (by decide),
    ((parse_exact latinSpace mbtc).2 _ _ hparse).mpr (Or.inl hdigits)⟩

theorem trailing_space :
    parse latinSpace ubtc "1.5 ".toList = some 15 ∧ Denotes latinSpace "1.5 ".toList (3 / 2) ∧
      ¬∃ x, Denotes latinSpace "1.5 ".toList x ∧ ((15 : Int) : ℚ) = x * factor ubtc := by
  have hparse : parse latinSpace ubtc "1.5 ".toList = some 15 := by decide +kernel
  refine ⟨hparse, ?_, ?_⟩
  · refine ⟨⟨[], [], ['1'], ['.'], ['5'], [' ']⟩, ?_, by decide, ?_⟩
    · exact ⟨by simp, Or.inl rfl, List.forall_mem_singleton.mpr rfl, Or.inl rfl,
        List.forall_mem_singleton.mpr rfl, List.forall_mem_singleton.mpr rfl⟩
    · have hwhole : qDecimal.number ['1'] = 1 := by decide
      have hfrac : qDecimal.number ['5'] = 5 := by decide
      norm_num [Amount.value, hwhole, hfrac, signValue]
  · rintro ⟨x, hx, heq⟩
    rcases digits_or_zero hparse hx heq with hdigits | hzero
    · exact absurd (hdigits ['1'] ['5', ' '] (by decide) ' ' (by decide)) (by decide)
    · exact absurd (hzero '1' (by decide) (by decide)) (by decide)

end BitcoinUnits

end Namecoin
