import Namecoin.Data.Text

namespace Namecoin

namespace Money

open Numeral (Alphabet)

def trimRev : StdString → StdString
  | c :: d :: e :: rest =>
    if c = 48 ∧ isdigit e then trimRev (d :: e :: rest) else c :: d :: e :: rest
  | s => s

def formatMoney (n : Int) (fPlus : Bool) : StdString :=
  let nAbs := (if 0 < n then n else -n).toNat
  let quotient := nAbs / coin.toNat
  let remainder := nAbs % coin.toNat
  let s := decimalStr quotient ++ 46 :: paddedStr 8 remainder
  -- the loop removes a last '0' while the character two before it is a digit
  let s := (trimRev s.reverse).reverse
  if n < 0 then 45 :: s else if fPlus && decide (0 < n) then 43 :: s else s

def readUnits : StdString → Int → Int → Int × StdString
  | [], _, nUnits => (nUnits, [])
  | c :: p, nMult, nUnits =>
    if isdigit c ∧ 0 < nMult then readUnits p (nMult.tdiv 10) (nUnits + nMult * (c.toNat - 48))
    else (nUnits, c :: p)

def readWhole : StdString → StdString → Option (StdString × Int × StdString)
  | [], strWhole => some (strWhole, 0, [])
  | c :: p, strWhole =>
    if c = 46 then some (strWhole, readUnits p (cent * 10) 0)
    else if isspace c then some (strWhole, 0, c :: p)
    else if isdigit c then readWhole p (strWhole ++ [c])
    else none

def parseMoneyPsz (pszIn : StdString) : Option Int :=
  match readWhole (pszIn.dropWhile isspace) [] with
  | none => none
  | some (strWhole, nUnits, p) =>
    if p.all isspace then
      if 14 < strWhole.length then none
      else if nUnits < 0 ∨ coin < nUnits then none
      else some (toInt64 (atoi64 strWhole * coin + nUnits))
    else none

def parseMoney (s : StdString) : Option Int := parseMoneyPsz (cStr s)

structure Amount where
  lead : StdString
  whole : StdString
  point : StdString
  frac : StdString
  trail : StdString

namespace Amount

variable (a : Amount)

def text : StdString := a.lead ++ a.whole ++ a.point ++ a.frac ++ a.trail

def value : ℚ := decimal.number a.whole + decimal.number a.frac / 10 ^ a.frac.length

structure Valid : Prop where
  lead : ∀ c ∈ a.lead, isspace c = true
  whole : ∀ c ∈ a.whole, isdigit c = true
  point : a.point = [46] ∨ a.point = [] ∧ a.frac = []
  frac : ∀ c ∈ a.frac, isdigit c = true
  trail : ∀ c ∈ a.trail, isspace c = true
  decimals : a.frac.length ≤ 8

end Amount

def Denotes (s : StdString) (x : ℚ) : Prop := ∃ a : Amount, a.Valid ∧ a.text = s ∧ a.value = x

namespace Amount

variable (a : Amount)

def body : StdString := a.whole ++ a.point ++ a.frac ++ a.trail

def units : Int := decimal.number a.frac * 10 ^ (8 - a.frac.length)

variable {a}

theorem text_eq : a.text = a.lead ++ a.body := by
  simp only [text, body, List.append_assoc]

theorem units_nonneg : 0 ≤ a.units := by
  unfold units
  positivity

theorem units_nil (h : a.frac = []) : a.units = 0 := by
  rw [units, h, Alphabet.number_nil, Int.natCast_zero, Int.zero_mul]

theorem Valid.value_mul (ha : a.Valid) :
    a.value * coin = ((decimal.number a.whole * coin + a.units : Int) : ℚ) := by
  have hpow : (10 : ℚ) ^ 8 = 10 ^ a.frac.length * 10 ^ (8 - a.frac.length) := by
    rw [← pow_add, Nat.add_sub_cancel' ha.decimals]
  have hcoin : ((coin : Int) : ℚ) = 10 ^ 8 := by norm_num [coin]
  have hfrac : (decimal.number a.frac : ℚ) / 10 ^ a.frac.length * 10 ^ 8 =
      decimal.number a.frac * 10 ^ (8 - a.frac.length) := by
    rw [hpow]
    field_simp
  rw [value, add_mul, units]
  push_cast
  rw [hcoin, hfrac]

theorem Valid.no_nul (ha : a.Valid) : 0 ∉ a.text := by
  have hpoint : (0 : UInt8) ∉ a.point := by
    rcases ha.point with h | ⟨h, -⟩ <;> simp [h]
  simp only [text, List.mem_append, not_or]
  exact ⟨⟨⟨⟨fun h => space_ne_zero (ha.lead _ h) rfl, fun h => digit_ne_zero (ha.whole _ h) rfl⟩,
    hpoint⟩, fun h => digit_ne_zero (ha.frac _ h) rfl⟩, fun h => space_ne_zero (ha.trail _ h) rfl⟩

end Amount

section Reading

def nMultAt : Nat → Int
  | 0 => 0
  | k + 1 => 10 ^ k

theorem nMultAt_pos {k : Nat} : 0 < nMultAt k ↔ 0 < k := by
  cases k with
  | zero => simp [nMultAt]
  | succ k => simp [nMultAt]

theorem nMultAt_step (k : Nat) : (nMultAt (k + 1)).tdiv 10 = nMultAt k := by
  cases k with
  | zero => rfl
  | succ k =>
    rw [nMultAt, nMultAt, pow_succ]
    exact Int.mul_tdiv_cancel _ (by decide)

variable {k : Nat} {p r s frac : StdString} {u u' : Int}

theorem units_cons {c : UInt8} (hc : isdigit c = true) (hlen : frac.length ≤ k) :
    u + nMultAt (k + 1) * (c.toNat - 48) + decimal.number frac * 10 ^ (k - frac.length) =
      u + decimal.number (c :: frac) * 10 ^ (k + 1 - (c :: frac).length) := by
  have hrange := (isdigit_iff c).mp hc
  have hpow : (10 : Int) ^ k = 10 ^ frac.length * 10 ^ (k - frac.length) := by
    rw [← pow_add, Nat.add_sub_cancel' hlen]
  rw [Alphabet.number_cons, decimal_digitOf hc, List.length_cons, Nat.add_sub_add_right, nMultAt,
    hpow]
  push_cast [hrange.1]
  ring

theorem readUnits_some (h : readUnits p (nMultAt k) u = (u', r)) :
    ∃ frac, p = frac ++ r ∧ (∀ c ∈ frac, isdigit c = true) ∧ frac.length ≤ k ∧
      u' = u + decimal.number frac * 10 ^ (k - frac.length) := by
  induction p generalizing k u with
  | nil =>
    obtain ⟨rfl, rfl⟩ := Prod.mk.inj h
    exact ⟨[], rfl, by simp, Nat.zero_le k, by simp⟩
  | cons c p ih =>
    rw [readUnits] at h
    split at h
    · next hc =>
      obtain ⟨k, rfl⟩ := Nat.exists_eq_succ_of_ne_zero (nMultAt_pos.mp hc.2).ne'
      rw [Nat.succ_eq_add_one, nMultAt_step] at h
      obtain ⟨frac, rfl, hfrac, hlen, rfl⟩ := ih h
      refine ⟨c :: frac, rfl, List.forall_mem_cons.mpr ⟨hc.1, hfrac⟩, Nat.succ_le_succ hlen, ?_⟩
      exact units_cons hc.1 hlen
    · obtain ⟨rfl, rfl⟩ := Prod.mk.inj h
      exact ⟨[], rfl, by simp, Nat.zero_le k, by simp⟩

theorem readUnits_append (hfrac : ∀ c ∈ frac, isdigit c = true) (hlen : frac.length ≤ k)
    (hr : ∀ c ∈ r, isspace c = true) :
    readUnits (frac ++ r) (nMultAt k) u =
      (u + decimal.number frac * 10 ^ (k - frac.length), r) := by
  induction frac generalizing k u with
  | nil =>
    cases r with
    | nil => simp [readUnits]
    | cons c r =>
      have hc : isdigit c = false := by
        by_contra hdigit
        have hspace := digit_not_space (Bool.not_eq_false _ ▸ hdigit)
        rw [hr c (by simp)] at hspace
        cases hspace
      rw [List.nil_append, readUnits, if_neg (by simp [hc])]
      simp
  | cons c frac ih =>
    obtain ⟨hc, hfrac⟩ := List.forall_mem_cons.mp hfrac
    obtain ⟨k, rfl⟩ := Nat.exists_eq_succ_of_ne_zero (Nat.zero_lt_of_lt hlen).ne'
    rw [List.cons_append, readUnits, if_pos ⟨hc, nMultAt_pos.mpr (Nat.succ_pos k)⟩,
      Nat.succ_eq_add_one, nMultAt_step, ih hfrac (Nat.le_of_succ_le_succ hlen),
      units_cons hc (Nat.le_of_succ_le_succ hlen)]

theorem cent_eq : cent * 10 = nMultAt 8 := rfl

theorem readWhole_some {acc w : StdString} (h : readWhole p acc = some (w, u, r))
    (hr : ∀ c ∈ r, isspace c = true) :
    ∃ a : Amount, a.Valid ∧ a.lead = [] ∧ a.body = p ∧ w = acc ++ a.whole ∧ u = a.units := by
  induction p generalizing acc with
  | nil =>
    simp only [readWhole, Option.some.injEq, Prod.mk.injEq] at h
    obtain ⟨rfl, rfl, rfl⟩ := h
    refine ⟨⟨[], [], [], [], []⟩, ?_, rfl, rfl, (List.append_nil acc).symm,
      (Amount.units_nil rfl).symm⟩
    constructor <;> simp
  | cons c p ih =>
    rw [readWhole] at h
    split at h
    · next hdot =>
      obtain ⟨rfl, hunits⟩ := Prod.mk.inj (Option.some.inj h)
      rw [cent_eq] at hunits
      obtain ⟨frac, rfl, hfrac, hlen, rfl⟩ := readUnits_some hunits
      refine ⟨⟨[], [], [46], frac, r⟩, ⟨by simp, by simp, Or.inl rfl, hfrac, hr, hlen⟩, rfl, ?_,
        (List.append_nil acc).symm, ?_⟩
      · rw [hdot]
        rfl
      · rw [Amount.units, Int.zero_add]
    · split at h
      · obtain ⟨rfl, hrest⟩ := Prod.mk.inj (Option.some.inj h)
        obtain ⟨rfl, rfl⟩ := Prod.mk.inj hrest
        refine ⟨⟨[], [], [], [], c :: p⟩, ?_, rfl, rfl, (List.append_nil acc).symm,
          (Amount.units_nil rfl).symm⟩
        exact ⟨by simp, by simp, Or.inr ⟨rfl, rfl⟩, by simp, hr, Nat.zero_le 8⟩
      · split at h
        · next hc =>
          obtain ⟨a, ha, hlead, hbody, hw, hu⟩ := ih h
          refine ⟨{ a with whole := c :: a.whole }, ?_, hlead, ?_, ?_, hu⟩
          · exact ⟨ha.lead, List.forall_mem_cons.mpr ⟨hc, ha.whole⟩, ha.point, ha.frac, ha.trail,
              ha.decimals⟩
          · rw [← hbody]
            rfl
          · rw [hw, List.append_assoc, List.singleton_append]
        · cases h

theorem digit_ne_point {c : UInt8} (h : isdigit c = true) : c ≠ 46 := by
  rintro rfl
  exact absurd h (by decide)

theorem space_ne_point {c : UInt8} (h : isspace c = true) : c ≠ 46 := by
  rintro rfl
  exact absurd h (by decide)

theorem readWhole_digits (hs : ∀ c ∈ s, isdigit c = true) (p acc : StdString) :
    readWhole (s ++ p) acc = readWhole p (acc ++ s) := by
  induction s generalizing acc with
  | nil => rw [List.nil_append, List.append_nil]
  | cons c s ih =>
    obtain ⟨hc, hs⟩ := List.forall_mem_cons.mp hs
    rw [List.cons_append, readWhole, if_neg (digit_ne_point hc),
      if_neg (by simp [digit_not_space hc]), if_pos hc, ih hs, List.append_assoc,
      List.singleton_append]

theorem readWhole_body {a : Amount} (ha : a.Valid) (acc : StdString) :
    readWhole a.body acc = some (acc ++ a.whole, a.units, a.trail) := by
  rw [Amount.body, List.append_assoc, List.append_assoc, readWhole_digits ha.whole]
  rcases ha.point with hpoint | ⟨hpoint, hfrac⟩
  · rw [hpoint, List.singleton_append, readWhole, if_pos rfl, cent_eq,
      readUnits_append ha.frac ha.decimals ha.trail, Int.zero_add, Amount.units]
  · rw [hpoint, hfrac, List.nil_append, List.nil_append, Amount.units_nil hfrac]
    cases htrail : a.trail with
    | nil => rfl
    | cons c trail =>
      have hc := ha.trail c (by rw [htrail]; exact List.mem_cons_self)
      rw [readWhole, if_neg (space_ne_point hc), if_pos hc]

theorem dropWhile_spaces (hs : ∀ c ∈ s, isspace c = true) (p : StdString) :
    (s ++ p).dropWhile isspace = p.dropWhile isspace := by
  rw [List.dropWhile_append_of_pos hs]

theorem dropWhile_body {a : Amount} (ha : a.Valid) :
    a.body.dropWhile isspace = a.body ∨
      a.body = a.trail ∧ a.whole = [] ∧ a.units = 0 ∧ a.body.dropWhile isspace = [] := by
  cases hwhole : a.whole with
  | cons c whole =>
    left
    have hc := digit_not_space (ha.whole c (by rw [hwhole]; exact List.mem_cons_self))
    rw [Amount.body, hwhole]
    exact List.dropWhile_cons_of_neg (by simp [hc])
  | nil =>
    rcases ha.point with hpoint | ⟨hpoint, hfrac⟩
    · left
      rw [Amount.body, hwhole, hpoint]
      exact List.dropWhile_cons_of_neg (by decide)
    · right
      have hbody : a.body = a.trail := by
        rw [Amount.body, hwhole, hpoint, hfrac]
        rfl
      refine ⟨hbody, rfl, Amount.units_nil hfrac, ?_⟩
      rw [hbody]
      exact List.dropWhile_eq_nil_iff.mpr ha.trail

theorem readWhole_text {a : Amount} (ha : a.Valid) :
    ∃ r, (∀ c ∈ r, isspace c = true) ∧
      readWhole ((cStr a.text).dropWhile isspace) [] = some (a.whole, a.units, r) := by
  have hcStr : cStr a.text = a.text := cStr_of_no_nul ha.no_nul
  rw [hcStr, Amount.text_eq, dropWhile_spaces ha.lead]
  rcases dropWhile_body ha with hbody | ⟨-, hwhole, hunits, hbody⟩
  · refine ⟨a.trail, ha.trail, ?_⟩
    rw [hbody, readWhole_body ha, List.nil_append]
  · refine ⟨[], by simp, ?_⟩
    rw [hbody, hwhole, hunits]
    rfl

theorem denotes_unique {x y : ℚ} (hx : Denotes s x) (hy : Denotes s y) : x = y := by
  obtain ⟨a, ha, rfl, rfl⟩ := hx
  obtain ⟨b, hb, htext, rfl⟩ := hy
  obtain ⟨r, -, hread⟩ := readWhole_text ha
  obtain ⟨r', -, hread'⟩ := readWhole_text hb
  rw [htext, hread, Option.some.injEq, Prod.mk.injEq, Prod.mk.injEq] at hread'
  have hvalue := ha.value_mul
  rw [hread'.1, hread'.2.1, ← hb.value_mul] at hvalue
  exact mul_right_cancel₀ (by norm_num [coin]) hvalue

theorem parseMoney_text {a : Amount} (ha : a.Valid) (hlen : a.whole.length ≤ 14) :
    parseMoney a.text = some (toInt64 (decimal.number a.whole * coin + a.units)) := by
  obtain ⟨r, hr, hread⟩ := readWhole_text ha
  have hlt := Alphabet.number_lt (A := decimal) (by decide)
    (fun c hc => (decimal_isDigit c).trans (ha.frac c hc))
  have hdecimals := ha.decimals
  have hunits : 0 ≤ a.units ∧ a.units ≤ coin := by
    have hle : decimal.number a.frac * 10 ^ (8 - a.frac.length) ≤
        10 ^ a.frac.length * 10 ^ (8 - a.frac.length) := Nat.mul_le_mul_right _ hlt.le
    rw [← pow_add, Nat.add_sub_cancel' hdecimals] at hle
    refine ⟨Amount.units_nonneg, ?_⟩
    unfold Amount.units coin
    exact_mod_cast hle
  rw [parseMoney, parseMoneyPsz, hread]
  simp only [List.all_eq_true.mpr hr, if_true]
  rw [if_neg (by omega), if_neg (by omega), atoi64_digits ha.whole (by omega)]

theorem text_of_parseMoney {v : Int} (h : parseMoney s = some v) (hs : 0 ∉ s) :
    ∃ a : Amount, a.Valid ∧ a.text = s ∧ a.whole.length ≤ 14 := by
  have hcStr : cStr s = s := cStr_of_no_nul hs
  rw [parseMoney, parseMoneyPsz, hcStr] at h
  split at h
  · cases h
  · next w u r hread =>
    split at h
    · next hr =>
      split at h
      · cases h
      · next hlen =>
        obtain ⟨a, ha, hlead, hbody, hw, -⟩ := readWhole_some hread (List.all_eq_true.mp hr)
        refine ⟨{ a with lead := s.takeWhile isspace }, ?_, ?_, ?_⟩
        · exact ⟨fun c hc => List.mem_takeWhile_imp hc, ha.whole, ha.point, ha.frac, ha.trail,
            ha.decimals⟩
        · rw [Amount.text_eq]
          change s.takeWhile isspace ++ a.body = s
          rw [hbody, List.takeWhile_append_dropWhile]
        · rw [hw] at hlen
          exact not_lt.mp hlen
    · cases h

end Reading

theorem parseMoney_of_denotes {s : StdString} {x : ℚ} {v : Int} (hx : Denotes s x)
    (h : parseMoney s = some v) : (v : ℚ) = x * coin ↔ x * coin < 2 ^ 63 := by
  obtain ⟨a, ha, rfl, rfl⟩ := hx
  obtain ⟨b, hb, htext, hlen⟩ := text_of_parseMoney h ha.no_nul
  have hvalue := denotes_unique ⟨a, ha, rfl, rfl⟩ ⟨b, hb, htext, rfl⟩
  have hparse := parseMoney_text hb hlen
  rw [htext, h, Option.some.injEq] at hparse
  rw [hvalue, hb.value_mul]
  have hnonneg : 0 ≤ decimal.number b.whole * coin + b.units :=
    Int.add_nonneg (Int.mul_nonneg (Int.natCast_nonneg _) (by decide)) Amount.units_nonneg
  have hrange := toInt64_range (decimal.number b.whole * coin + b.units)
  have hbound : (((2 : Int) ^ 63 : Int) : ℚ) = 2 ^ 63 := by norm_num
  rw [← hbound, Int.cast_lt, Int.cast_inj]
  constructor
  · intro heq
    rw [← hparse, heq] at hrange
    exact hrange.2
  · intro hlt
    rw [hparse, toInt64_of_range ⟨by omega, hlt⟩]

section Formatting

variable {s whole frac t : StdString} {k : Nat}

theorem trimRev_zeros (s : StdString) : ∃ k, s = List.replicate k 48 ++ trimRev s := by
  induction s using trimRev.induct with
  | case1 c d e rest h ih =>
    obtain ⟨k, hk⟩ := ih
    refine ⟨k + 1, ?_⟩
    rw [trimRev, if_pos h, List.replicate_succ, List.cons_append, ← hk, h.1]
  | case2 c d e rest h =>
    refine ⟨0, ?_⟩
    rw [trimRev, if_neg h]
    rfl
  | case3 s h =>
    refine ⟨0, ?_⟩
    rw [trimRev]
    · rfl
    · exact h

theorem trimmed_zeros (s : StdString) :
    ∃ k, s = (trimRev s.reverse).reverse ++ List.replicate k 48 := by
  obtain ⟨k, hk⟩ := trimRev_zeros s.reverse
  refine ⟨k, ?_⟩
  have hrev := congrArg List.reverse hk
  rwa [List.reverse_reverse, List.reverse_append, List.reverse_replicate] at hrev

theorem split_point (h : whole ++ 46 :: frac = t ++ List.replicate k 48) :
    ∃ frac', t = whole ++ 46 :: frac' ∧ frac = frac' ++ List.replicate k 48 := by
  have hnot : (46 : UInt8) ∉ List.replicate k 48 := fun hmem =>
    absurd (List.eq_of_mem_replicate hmem) (by decide)
  rcases List.append_eq_append_iff.mp h with ⟨rest, ht, hrest⟩ | ⟨rest, -, hzeros⟩
  · cases rest with
    | nil => exact absurd (by rw [← List.nil_append (List.replicate k 48), ← hrest]; simp) hnot
    | cons c frac' =>
      obtain ⟨rfl, hfrac⟩ := List.cons.inj hrest
      exact ⟨frac', ht, hfrac⟩
  · exact absurd (by rw [hzeros]; simp) hnot

theorem formatMoney_amount {n : Int} (h0 : 0 ≤ n) :
    ∃ a : Amount, a.Valid ∧ a.text = formatMoney n false ∧
      a.whole = decimalStr (n.toNat / coin.toNat) ∧ a.units = n % coin := by
  have hcoin : coin.toNat = 10 ^ 8 := rfl
  have habs : (if 0 < n then n else -n).toNat = n.toNat := by
    split <;> omega
  have hlt : n.toNat % coin.toNat < 10 ^ 8 := Nat.mod_lt _ (by decide)
  have hlen := length_paddedStr hlt
  obtain ⟨k, hk⟩ := trimmed_zeros
    (decimalStr (n.toNat / coin.toNat) ++ 46 :: paddedStr 8 (n.toNat % coin.toNat))
  obtain ⟨frac, htext, hfrac⟩ := split_point hk
  have hnumber := number_paddedStr 8 (n.toNat % coin.toNat)
  have hzero : (48 : UInt8) = decimal.digit 0 := rfl
  rw [hfrac, List.length_append, List.length_replicate] at hlen
  rw [hfrac, hzero, Alphabet.number_shift (by decide)] at hnumber
  refine ⟨⟨[], decimalStr (n.toNat / coin.toNat), [46], frac, []⟩, ⟨by simp, fun c hc => isdigit_decimalStr hc,
    Or.inl rfl, ?_, by simp, ?_⟩, ?_, rfl, ?_⟩
  · intro c hc
    refine isdigit_paddedStr (k := 8) (n := n.toNat % coin.toNat) ?_
    rw [hfrac]
    exact List.mem_append_left _ hc
  · change frac.length ≤ 8
    omega
  · rw [formatMoney, habs, if_neg (not_lt.mpr h0), htext]
    simp only [Amount.text, List.nil_append, List.append_nil, List.append_assoc,
      List.singleton_append, Bool.false_and]
    rfl
  · have hk : 8 - frac.length = k := by omega
    have hmod : ((n.toNat % coin.toNat : Nat) : Int) = n % coin := by
      rw [Int.natCast_mod, Int.toNat_of_nonneg h0]
      rfl
    rw [Amount.units]
    change (decimal.number frac : Int) * 10 ^ (8 - frac.length) = n % coin
    rw [hk, ← hmod, ← hnumber]
    push_cast
    rfl

theorem parseMoney_formatMoney {n : Int} (h0 : 0 ≤ n) (hmax : n ≤ maxMoney) :
    parseMoney (formatMoney n false) = some n := by
  obtain ⟨a, ha, htext, hwhole, hunits⟩ := formatMoney_amount h0
  have hmax : n ≤ 2100000000000000 := hmax
  have hcoin : coin.toNat = 100000000 := rfl
  have hquot : n.toNat / coin.toNat < 10 ^ 8 := by
    rw [hcoin]
    omega
  have hlen := length_decimalStr_le hquot (by decide)
  have hdiv : ((n.toNat / coin.toNat : Nat) : Int) = n / coin := by
    rw [Int.natCast_div, Int.toNat_of_nonneg h0]
    rfl
  rw [← htext, parseMoney_text ha (by rw [hwhole]; omega), hwhole, number_decimalStr, hunits, hdiv,
    Int.mul_comm, Int.mul_ediv_add_emod, toInt64_of_range (by omega)]

end Formatting

theorem parseMoney_exact (s : StdString) :
    (∀ v, parseMoney s = some v →
      ((∃ x, Denotes s x ∧ (v : ℚ) = x * coin) ↔ 0 ∉ s ∧ ∀ x, Denotes s x → x * coin < 2 ^ 63)) ∧
    ∀ n, 0 ≤ n → n ≤ maxMoney → parseMoney (formatMoney n false) = some n := by
  refine ⟨fun v h => ⟨?_, ?_⟩, fun n h0 hmax => parseMoney_formatMoney h0 hmax⟩
  · rintro ⟨x, hx, heq⟩
    have hlt := (parseMoney_of_denotes hx h).mp heq
    refine ⟨?_, fun y hy => denotes_unique hx hy ▸ hlt⟩
    obtain ⟨a, ha, rfl, -⟩ := hx
    exact ha.no_nul
  · rintro ⟨hnul, hlt⟩
    obtain ⟨a, ha, htext, -⟩ := text_of_parseMoney h hnul
    have hx : Denotes s a.value := ⟨a, ha, htext, rfl⟩
    exact ⟨a.value, hx, (parseMoney_of_denotes hx h).mpr (hlt a.value hx)⟩

theorem parseMoney_exact_half :
    (∃ x, Denotes (str " 1.5 ") x ∧ ((150000000 : Int) : ℚ) = x * coin) ∧
      parseMoney (formatMoney 150000000 false) = some 150000000 := by
  have hdenotes : Denotes (str " 1.5 ") (3 / 2) := by
    refine ⟨⟨[32], [49], [46], [53], [32]⟩, ?_, by decide, ?_⟩
    · exact ⟨by decide +kernel, by decide +kernel, Or.inl rfl, by decide +kernel,
        by decide +kernel, by decide⟩
    · have hwhole : decimal.number [49] = 1 := by decide
      have hfrac : decimal.number [53] = 5 := by decide
      norm_num [Amount.value, hwhole, hfrac]
  have hlt (x : ℚ) (hx : Denotes (str " 1.5 ") x) : x * coin < 2 ^ 63 := by
    rw [denotes_unique hx hdenotes]
    norm_num [coin]
  have hparse : parseMoney (str " 1.5 ") = some 150000000 := by decide +kernel
  obtain ⟨hexact, hround⟩ := parseMoney_exact (str " 1.5 ")
  exact ⟨(hexact _ hparse).mpr ⟨by decide, hlt⟩, hround 150000000 (by decide) (by decide)⟩

theorem fourteen_nines :
    parseMoney (str "99999999999999") = some 1864712049323024128 ∧
      Denotes (str "99999999999999") 99999999999999 ∧
      ¬∃ x, Denotes (str "99999999999999") x ∧ ((1864712049323024128 : Int) : ℚ) = x * coin := by
  have hnumber : decimal.number (str "99999999999999") = 99999999999999 := by decide +kernel
  have hdenotes : Denotes (str "99999999999999") 99999999999999 := by
    refine ⟨⟨[], str "99999999999999", [], [], []⟩, ?_, by decide +kernel, ?_⟩
    · exact ⟨by simp, by decide +kernel, Or.inr ⟨rfl, rfl⟩, by simp, by simp, Nat.zero_le 8⟩
    · rw [Amount.value, hnumber, Alphabet.number_nil]
      norm_num
  refine ⟨by decide +kernel, hdenotes, ?_⟩
  rintro ⟨x, hx, heq⟩
  rw [denotes_unique hx hdenotes] at heq
  norm_num [coin] at heq

end Money

end Namecoin
