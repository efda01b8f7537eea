import Namecoin.Data.Serial
import Namecoin.Lib.Numeral

namespace Namecoin

open Numeral (Alphabet)

namespace Base64

def pbase64 : StdString :=
  str "ABCDEFGHIJKLMNOPQRSTUVWXYZabcdefghijklmnopqrstuvwxyz0123456789+/"

def decode64Table : List Int :=
  [-1, -1, -1, -1, -1, -1, -1, -1, -1, -1, -1, -1, -1, -1, -1, -1, -1, -1, -1, -1,
    -1, -1, -1, -1, -1, -1, -1, -1, -1, -1, -1, -1, -1, -1, -1, -1, -1, -1, -1, -1,
    -1, -1, -1, 62, -1, -1, -1, 63, 52, 53, 54, 55, 56, 57, 58, 59, 60, 61, -1, -1,
    -1, -1, -1, -1, -1, 0, 1, 2, 3, 4, 5, 6, 7, 8, 9, 10, 11, 12, 13, 14,
    15, 16, 17, 18, 19, 20, 21, 22, 23, 24, 25, -1, -1, -1, -1, -1, -1, 26, 27, 28,
    29, 30, 31, 32, 33, 34, 35, 36, 37, 38, 39, 40, 41, 42, 43, 44, 45, 46, 47, 48,
    49, 50, 51, -1, -1, -1, -1, -1, -1, -1, -1, -1, -1, -1, -1, -1, -1, -1, -1, -1,
    -1, -1, -1, -1, -1, -1, -1, -1, -1, -1, -1, -1, -1, -1, -1, -1, -1, -1, -1, -1,
    -1, -1, -1, -1, -1, -1, -1, -1, -1, -1, -1, -1, -1, -1, -1, -1, -1, -1, -1, -1,
    -1, -1, -1, -1, -1, -1, -1, -1, -1, -1, -1, -1, -1, -1, -1, -1, -1, -1, -1, -1,
    -1, -1, -1, -1, -1, -1, -1, -1, -1, -1, -1, -1, -1, -1, -1, -1, -1, -1, -1, -1,
    -1, -1, -1, -1, -1, -1, -1, -1, -1, -1, -1, -1, -1, -1, -1, -1, -1, -1, -1, -1,
    -1, -1, -1, -1, -1, -1, -1, -1, -1, -1, -1, -1, -1, -1, -1, -1]

def char (n : Nat) : UInt8 := pbase64.getD n 0

def decode64 (c : UInt8) : Int := decode64Table.getD c.toNat (-1)

-- mode counts the bytes of the current group of three, left holds their bits not written yet
def encodeLoop : Fin 3 → Nat → List UInt8 → StdString
  | mode, left, [] => if mode = 0 then [] else char left :: 61 :: if mode = 1 then [61] else []
  | 0, _, enc :: pch => char (enc.toNat >>> 2) :: encodeLoop 1 ((enc.toNat &&& 3) <<< 4) pch
  | 1, left, enc :: pch =>
    char (left ||| enc.toNat >>> 4) :: encodeLoop 2 ((enc.toNat &&& 15) <<< 2) pch
  | 2, left, enc :: pch =>
    char (left ||| enc.toNat >>> 6) :: char (enc.toNat &&& 63) :: encodeLoop 0 left pch

def encodeBase64 (pch : List UInt8) : StdString := encodeLoop 0 0 pch

structure Decoded where
  vchRet : List UInt8
  mode : Fin 4
  left : Nat
  p : StdString
  deriving DecidableEq

def Decoded.pushFront (n : Nat) (r : Decoded) : Decoded :=
  { r with vchRet := UInt8.ofNat n :: r.vchRet }

def decodeLoop : Fin 4 → Nat → StdString → Decoded
  | mode, left, [] => ⟨[], mode, left, []⟩
  | mode, left, c :: p =>
    if decode64 c = -1 then ⟨[], mode, left, c :: p⟩
    else
      let dec := (decode64 c).toNat
      match mode with
      | 0 => decodeLoop 1 dec p
      | 1 => (decodeLoop 2 (dec &&& 15) p).pushFront (left <<< 2 ||| dec >>> 4)
      | 2 => (decodeLoop 3 (dec &&& 3) p).pushFront (left <<< 4 ||| dec >>> 2)
      | 3 => (decodeLoop 0 left p).pushFront (left <<< 6 ||| dec)

-- the bytes of p from its length on are the terminator and never read further
def Decoded.invalid (r : Decoded) : Bool :=
  match r.mode with
  | 0 => false
  | 1 => true
  | 2 => decide (r.left ≠ 0) || r.p.getD 0 0 != 61 || r.p.getD 1 0 != 61 ||
      decide (decode64 (r.p.getD 2 0) ≠ -1)
  | 3 => decide (r.left ≠ 0) || r.p.getD 0 0 != 61 || decide (decode64 (r.p.getD 1 0) ≠ -1)

def decodeBase64 (p : StdString) : List UInt8 × Bool :=
  let r := decodeLoop 0 0 p
  (r.vchRet, r.invalid)

def chars : Alphabet 64 UInt8 where
  digit := char
  read c := if decode64 c = -1 then none else some (decode64 c).toNat
  read_digit := by decide +kernel
  digit_read c d h := by
    have hall : ∀ n < 256, decode64 (UInt8.ofNat n) ≠ -1 →
        (decode64 (UInt8.ofNat n)).toNat < 64 ∧
          char (decode64 (UInt8.ofNat n)).toNat = UInt8.ofNat n := by
      decide +kernel
    obtain ⟨hc, hd⟩ := Option.ite_none_left_eq_some.mp h
    have hthis := hall c.toNat c.toNat_lt
    rw [UInt8.ofNat_toNat] at hthis
    obtain rfl := Option.some.inj hd
    exact hthis hc

theorem decode64_char {d : Nat} (hd : d < 64) :
    decode64 (char d) ≠ -1 ∧ (decode64 (char d)).toNat = d := by
  obtain ⟨hne, heq⟩ := Option.ite_none_left_eq_some.mp (chars.read_digit d hd)
  exact ⟨hne, Option.some.inj heq⟩

theorem char_decode64 {c : UInt8} (hc : decode64 c ≠ -1) :
    (decode64 c).toNat < 64 ∧ char (decode64 c).toNat = c :=
  chars.digit_read c _ (if_neg hc)

section Groups

variable {a b c d left l l' : Nat} {x : List UInt8} {p : StdString}

theorem or_eq_add {k : Nat} (h : b < 2 ^ k) : a * 2 ^ k ||| b = a * 2 ^ k + b := by
  rw [Nat.mul_comm, Nat.two_pow_add_eq_or_of_lt h]

theorem low_bits (n : Nat) : n &&& 3 = n % 4 ∧ n &&& 15 = n % 16 ∧ n &&& 63 = n % 64 :=
  ⟨Nat.and_two_pow_sub_one_eq_mod n 2, Nat.and_two_pow_sub_one_eq_mod n 4,
    Nat.and_two_pow_sub_one_eq_mod n 6⟩

theorem high_bits (n : Nat) : n >>> 2 = n / 4 ∧ n >>> 4 = n / 16 ∧ n >>> 6 = n / 64 :=
  ⟨Nat.shiftRight_eq_div_pow n 2, Nat.shiftRight_eq_div_pow n 4, Nat.shiftRight_eq_div_pow n 6⟩

theorem toNat_byte (h : a < 256) : (UInt8.ofNat a).toNat = a := by
  rw [UInt8.toNat_ofNat', Nat.mod_eq_of_lt h]

theorem encode_first (enc : UInt8) :
    encodeLoop 0 l (enc :: x) =
      char (enc.toNat / 4) :: encodeLoop 1 (enc.toNat % 4 * 16) x := by
  rw [encodeLoop, (high_bits _).1, (low_bits _).1, Nat.shiftLeft_eq]

theorem encode_second (enc : UInt8) :
    encodeLoop 1 (a * 16) (enc :: x) =
      char (a * 16 + enc.toNat / 16) :: encodeLoop 2 (enc.toNat % 16 * 4) x := by
  have henc := enc.toNat_lt
  have hjoin : a * 16 ||| enc.toNat / 16 = a * 16 + enc.toNat / 16 :=
    or_eq_add (k := 4) (by omega)
  rw [encodeLoop, (high_bits _).2.1, (low_bits _).2.1, Nat.shiftLeft_eq, hjoin]

theorem encode_third (enc : UInt8) :
    encodeLoop 2 (a * 4) (enc :: x) =
      char (a * 4 + enc.toNat / 64) :: char (enc.toNat % 64) :: encodeLoop 0 (a * 4) x := by
  have henc := enc.toNat_lt
  have hjoin : a * 4 ||| enc.toNat / 64 = a * 4 + enc.toNat / 64 :=
    or_eq_add (k := 2) (by omega)
  rw [encodeLoop, (high_bits _).2.2, (low_bits _).2.2, hjoin]

theorem decode_first (hd : d < 64) : decodeLoop 0 left (char d :: p) = decodeLoop 1 d p := by
  obtain ⟨hne, hval⟩ := decode64_char hd
  rw [decodeLoop, if_neg hne, hval]

theorem decode_second (hd : d < 64) :
    decodeLoop 1 left (char d :: p) =
      (decodeLoop 2 (d % 16) p).pushFront (left * 4 + d / 16) := by
  obtain ⟨hne, hval⟩ := decode64_char hd
  have hjoin : left * 4 ||| d / 16 = left * 4 + d / 16 := or_eq_add (k := 2) (by omega)
  rw [decodeLoop, if_neg hne, hval]
  dsimp only
  rw [Nat.shiftLeft_eq, (high_bits d).2.1, (low_bits d).2.1, hjoin]

theorem decode_third (hd : d < 64) :
    decodeLoop 2 left (char d :: p) =
      (decodeLoop 3 (d % 4) p).pushFront (left * 16 + d / 4) := by
  obtain ⟨hne, hval⟩ := decode64_char hd
  have hjoin : left * 16 ||| d / 4 = left * 16 + d / 4 := or_eq_add (k := 4) (by omega)
  rw [decodeLoop, if_neg hne, hval]
  dsimp only
  rw [Nat.shiftLeft_eq, (high_bits d).1, (low_bits d).1, hjoin]

theorem decode_fourth (hd : d < 64) :
    decodeLoop 3 left (char d :: p) = (decodeLoop 0 left p).pushFront (left * 64 + d) := by
  obtain ⟨hne, hval⟩ := decode64_char hd
  have hjoin : left * 64 ||| d = left * 64 + d := or_eq_add (k := 6) hd
  rw [decodeLoop, if_neg hne, hval]
  dsimp only
  rw [Nat.shiftLeft_eq, hjoin]

@[simp]
theorem pushFront_invalid (n : Nat) (r : Decoded) : (r.pushFront n).invalid = r.invalid := rfl

@[simp]
theorem pushFront_vchRet (n : Nat) (r : Decoded) :
    (r.pushFront n).vchRet = UInt8.ofNat n :: r.vchRet := rfl

theorem decode_stop {mode : Fin 4} (h : decode64 (p.getD 0 0) = -1) :
    decodeLoop mode left p = ⟨[], mode, left, p⟩ := by
  cases p with
  | nil => rw [decodeLoop]
  | cons c p =>
    rw [List.getD_cons_zero] at h
    rw [decodeLoop, if_pos h]

theorem stop_or_char (p : StdString) :
    decode64 (p.getD 0 0) = -1 ∨ ∃ d < 64, ∃ p', p = char d :: p' := by
  cases p with
  | nil => exact Or.inl (by decide +kernel)
  | cons c p =>
    by_cases hc : decode64 c = -1
    · exact Or.inl hc
    · obtain ⟨hlt, hchar⟩ := char_decode64 hc
      exact Or.inr ⟨_, hlt, p, by rw [hchar]⟩

theorem valid_two {v : List UInt8} : (Decoded.mk v 2 left p).invalid = false ↔
    left = 0 ∧ p.getD 0 0 = 61 ∧ p.getD 1 0 = 61 ∧ decode64 (p.getD 2 0) = -1 := by
  simp [Decoded.invalid, and_assoc]

theorem valid_three {v : List UInt8} : (Decoded.mk v 3 left p).invalid = false ↔
    left = 0 ∧ p.getD 0 0 = 61 ∧ decode64 (p.getD 1 0) = -1 := by
  simp [Decoded.invalid, and_assoc]

theorem decode_encode (l l' : Nat) (x : List UInt8) :
    (decodeLoop 0 l (encodeLoop 0 l' x)).vchRet = x ∧
      (decodeLoop 0 l (encodeLoop 0 l' x)).invalid = false := by
  have hpad : decode64 61 = -1 := by decide +kernel
  have hend : decode64 0 = -1 := by decide +kernel
  have hbyte (n : Nat) (e : UInt8) (h : n = e.toNat) : UInt8.ofNat n = e := by
    rw [h, UInt8.ofNat_toNat]
  induction hn : x.length using Nat.strong_induction_on generalizing x l l' with
  | _ n ih =>
    rcases x with _ | ⟨a, _ | ⟨b, _ | ⟨c, x⟩⟩⟩
    · exact ⟨rfl, rfl⟩
    · have ha := a.toNat_lt
      have htext : encodeLoop 0 l' [a] = [char (a.toNat / 4), char (a.toNat % 4 * 16), 61, 61] := by
        rw [encode_first]
        rfl
      rw [htext, decode_first (by omega), decode_second (by omega),
        decode_stop (p := [61, 61]) hpad, pushFront_vchRet, pushFront_invalid, valid_two]
      exact ⟨congrArg (· :: []) (hbyte _ a (by omega)), by omega, rfl, rfl, hend⟩
    · have ha := a.toNat_lt
      have hb := b.toNat_lt
      have htext : encodeLoop 0 l' [a, b] = [char (a.toNat / 4),
          char (a.toNat % 4 * 16 + b.toNat / 16), char (b.toNat % 16 * 4), 61] := by
        rw [encode_first, encode_second]
        rfl
      rw [htext, decode_first (by omega), decode_second (by omega), decode_third (by omega),
        decode_stop (p := [61]) hpad, pushFront_vchRet, pushFront_vchRet, pushFront_invalid, pushFront_invalid,
        valid_three, hbyte _ a (by omega), hbyte _ b (by omega)]
      exact ⟨rfl, by omega, rfl, hend⟩
    · have ha := a.toNat_lt
      have hb := b.toNat_lt
      have hc := c.toNat_lt
      have hlt : x.length < n := by
        simp only [List.length_cons] at hn
        omega
      obtain ⟨hret, hvalid⟩ := ih x.length hlt ((b.toNat % 16 * 4 + c.toNat / 64) % 4)
        (b.toNat % 16 * 4) x rfl
      rw [encode_first, encode_second, encode_third, decode_first (by omega),
        decode_second (by omega), decode_third (by omega), decode_fourth (by omega)]
      simp only [pushFront_vchRet, pushFront_invalid]
      rw [hret, hbyte _ a (by omega), hbyte _ b (by omega), hbyte _ c (by omega)]
      exact ⟨rfl, hvalid⟩

theorem cons_of_getD {e : UInt8} (he : e ≠ 0) (h : p.getD 0 0 = e) : ∃ p', p = e :: p' := by
  cases p with
  | nil => exact absurd h.symm he
  | cons c p => exact ⟨p, by rw [← h, List.getD_cons_zero]⟩

theorem encode_prefix (l l' : Nat) (p : StdString) (h : (decodeLoop 0 l p).invalid = false) :
    encodeLoop 0 l' (decodeLoop 0 l p).vchRet <+: p := by
  induction hn : p.length using Nat.strong_induction_on generalizing p l l' with
  | _ n ih =>
    rcases stop_or_char p with hstop | ⟨d0, h0, p, rfl⟩
    · rw [decode_stop hstop]
      exact List.nil_prefix
    rw [decode_first h0] at h ⊢
    rcases stop_or_char p with hstop | ⟨d1, h1, p, rfl⟩
    · rw [decode_stop hstop] at h
      cases h
    rw [decode_second h1] at h ⊢
    rw [pushFront_invalid] at h
    have hbyte0 : (UInt8.ofNat (d0 * 4 + d1 / 16)).toNat = d0 * 4 + d1 / 16 := toNat_byte (by omega)
    have hchar0 : (d0 * 4 + d1 / 16) / 4 = d0 := by omega
    rcases stop_or_char p with hstop | ⟨d2, h2, p, rfl⟩
    · rw [decode_stop hstop] at h ⊢
      obtain ⟨hleft, hpad, hpad', -⟩ := valid_two.mp h
      obtain ⟨p, rfl⟩ := cons_of_getD (by decide) hpad
      obtain ⟨p, rfl⟩ := cons_of_getD (by decide) hpad'
      have hchar1 : (d0 * 4 + d1 / 16) % 4 * 16 = d1 := by omega
      rw [pushFront_vchRet, encode_first, hbyte0, hchar0, hchar1]
      exact ⟨p, rfl⟩
    rw [decode_third h2] at h ⊢
    rw [pushFront_invalid] at h
    have hbyte1 : (UInt8.ofNat (d1 % 16 * 16 + d2 / 4)).toNat = d1 % 16 * 16 + d2 / 4 :=
      toNat_byte (by omega)
    have hchar1 : (d0 * 4 + d1 / 16) % 4 * 16 + (d1 % 16 * 16 + d2 / 4) / 16 = d1 := by omega
    rcases stop_or_char p with hstop | ⟨d3, h3, p, rfl⟩
    · rw [decode_stop hstop] at h ⊢
      obtain ⟨hleft, hpad, -⟩ := valid_three.mp h
      obtain ⟨p, rfl⟩ := cons_of_getD (by decide) hpad
      have hchar2 : (d1 % 16 * 16 + d2 / 4) % 16 * 4 = d2 := by omega
      rw [pushFront_vchRet, pushFront_vchRet, encode_first, encode_second, hbyte0, hbyte1, hchar0,
        hchar1, hchar2]
      exact ⟨p, rfl⟩
    rw [decode_fourth h3] at h ⊢
    rw [pushFront_invalid] at h
    have hbyte2 : (UInt8.ofNat (d2 % 4 * 64 + d3)).toNat = d2 % 4 * 64 + d3 := toNat_byte (by omega)
    have hchar2 : (d1 % 16 * 16 + d2 / 4) % 16 * 4 + (d2 % 4 * 64 + d3) / 64 = d2 := by omega
    have hchar3 : (d2 % 4 * 64 + d3) % 64 = d3 := by omega
    have hlt : p.length < n := by
      simp only [List.length_cons] at hn
      omega
    obtain ⟨t, ht⟩ := ih p.length hlt (d2 % 4) ((d1 % 16 * 16 + d2 / 4) % 16 * 4) p h rfl
    refine ⟨t, ?_⟩
    simp only [pushFront_vchRet]
    rw [encode_first, encode_second, encode_third, hbyte0, hbyte1, hbyte2, hchar0, hchar1, hchar2,
      hchar3]
    simp only [List.cons_append, ht]

end Groups

theorem base64_exact :
    (∀ x : List UInt8, decodeBase64 (encodeBase64 x) = (x, false)) ∧
    ∀ s : StdString, (decodeBase64 s).2 = false → encodeBase64 (decodeBase64 s).1 <+: s := by
  refine ⟨fun x => ?_, fun s h => encode_prefix 0 0 s h⟩
  obtain ⟨hret, hvalid⟩ := decode_encode 0 0 x
  exact Prod.ext hret hvalid

theorem base64_exact_padded : encodeBase64 [65, 66] <+: str "QUI= rest" := by
  have hdecode : decodeBase64 (str "QUI= rest") = ([65, 66], false) := by decide +kernel
  have hprefix := base64_exact.2 (str "QUI= rest") (congrArg Prod.snd hdecode)
  rwa [hdecode] at hprefix

end Base64

end Namecoin
