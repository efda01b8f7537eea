import Namecoin.Data.BigNum
import Namecoin.Script.Eval
import Namecoin.Wallet.Accounts

namespace Namecoin

open Numeral (Alphabet)

namespace Base58

def digitsLoop (bn : Nat) : StdString :=
  if bn = 0 then [] else pszBase58.getD (bn % 58) 0 :: digitsLoop (bn / 58)
termination_by bn
decreasing_by omega

def encode (vch : List UInt8) : StdString :=
  let vchTmp := vch.reverse ++ [0]
  let bn := bigNumOf vchTmp
  let s := digitsLoop bn.toNat
  let s := s ++ (vch.takeWhile (fun b => b == 0)).map (fun _ => pszBase58.getD 0 0)
  s.reverse

def trimSignByte (vchTmp : VchType) : VchType :=
  if 2 ≤ vchTmp.length ∧ vchTmp.getLastD 0 = 0 ∧ 128 ≤ vchTmp.dropLast.getLastD 0 then
    vchTmp.dropLast
  else vchTmp

def decode (s : StdString) : Option (List UInt8) :=
  let psz := (cStr s).dropWhile isspace
  (base58Value psz 0).map (fun bn : Nat =>
    let vchTmp := trimSignByte (CBigNum.getvch bn)
    (psz.takeWhile (fun c => c == pszBase58.getD 0 0)).map (fun _ => 0) ++ vchTmp.reverse)

def bytes : Alphabet 256 UInt8 where
  digit := UInt8.ofNat
  read c := some c.toNat
  read_digit d hd := by rw [UInt8.toNat_ofNat', Nat.mod_eq_of_lt hd]
  digit_read c d h := by
    obtain rfl := Option.some.inj h
    exact ⟨c.toNat_lt, UInt8.ofNat_toNat⟩

theorem pszBase58_length : pszBase58.length = 58 := by decide +kernel

def chars : Alphabet 58 UInt8 where
  digit d := pszBase58.getD d 0
  read c := pszBase58.idxOf? c
  read_digit := by decide +kernel
  digit_read c d h := by
    obtain ⟨hlt, hget, -⟩ := List.idxOf?_eq_some_iff.mp h
    exact ⟨pszBase58_length ▸ hlt, (List.getD_eq_getElem _ 0 hlt).trans hget⟩

def IsBase58 (c : UInt8) : Prop := chars.isDigit c = true

structure Surrounded (s body : StdString) : Prop where
  split : ∃ lead trail, s = lead ++ body ++ trail ∧ (∀ c ∈ lead, isspace c = true) ∧
    ∀ c ∈ trail, isspace c = true
  body : ∀ c ∈ body, IsBase58 c

theorem base58_not_space {c : UInt8} (h : IsBase58 c) : isspace c = false := by
  have hall : ∀ c ∈ pszBase58, isspace c = false := by decide +kernel
  obtain ⟨d, hd⟩ := Option.isSome_iff_exists.mp h
  obtain ⟨hlt, hget, -⟩ := List.idxOf?_eq_some_iff.mp hd
  exact hall c (hget ▸ List.getElem_mem hlt)

theorem base58_ne_zero {c : UInt8} (h : IsBase58 c) : c ≠ 0 := by
  rintro rfl
  exact absurd h (by unfold IsBase58; decide +kernel)

section Numbers

variable {vch body : List UInt8} {bn : Nat}

theorem number_bytes (vch : List UInt8) : bytes.number vch = bigEndian vch := by
  have hdigit (c : UInt8) : bytes.digitOf c = c.toNat := rfl
  rw [Alphabet.number, Numeral.value, bigEndian, List.foldl_map]
  rfl

theorem leNat_reverse (vch : List UInt8) : leNat vch.reverse = bigEndian vch := by
  induction vch using List.reverseRecOn with
  | nil => rfl
  | append_singleton vch b ih =>
    have hlast : bigEndian (vch ++ [b]) = bigEndian vch * 256 + b.toNat := by
      rw [bigEndian, List.foldl_append]
      rfl
    rw [List.reverse_append, List.reverse_singleton, List.singleton_append, leNat, ih, hlast]
    ring

theorem bigNumOf_positive (vch : List UInt8) : bigNumOf (vch.reverse ++ [0]) = bigEndian vch := by
  rw [bigNumOf, List.getLast?_concat]
  change (if 128 ≤ (0 : UInt8).toNat then _ else (leNat (vch.reverse ++ [0]) : Int)) = _
  rw [if_neg (by decide), leNat_append, leNat_reverse]
  rfl

theorem digitsLoop_eq (bn : Nat) : digitsLoop bn = (Nat.digits 58 bn).map chars.digit := by
  induction bn using Nat.strong_induction_on with
  | _ bn ih =>
    rw [digitsLoop]
    split
    · next hzero =>
      rw [hzero, Nat.digits_zero]
      rfl
    · next hne =>
      rw [ih (bn / 58) (by omega), Nat.digits_def' (by decide) (Nat.pos_of_ne_zero hne),
        List.map_cons]
      rfl

theorem encode_eq_convert (vch : List UInt8) : encode vch = Alphabet.convert bytes chars vch := by
  have hzero : bytes.digit 0 = 0 := rfl
  rw [encode, bigNumOf_positive, Int.toNat_natCast, digitsLoop_eq, List.reverse_append,
    ← List.map_reverse, ← List.map_reverse, List.map_const', List.length_reverse, Alphabet.convert,
    number_bytes, hzero, List.map_const']
  rfl

theorem encode_eq (vch : List UInt8) : encode vch = encodeBase58 vch := by
  rw [encode, bigNumOf_positive, Int.toNat_natCast, digitsLoop_eq]
  rfl

-- the sign byte that getvch adds is the one that the decoder trims
theorem trim_getvch (bn : Nat) :
    trimSignByte (CBigNum.getvch bn) = (Nat.digits 256 bn).map UInt8.ofNat := by
  have hlast (d : Nat) (hd : d ∈ Nat.digits 256 bn) : (UInt8.ofNat d).toNat = d := by
    rw [UInt8.toNat_ofNat', Nat.mod_eq_of_lt (Nat.digits_lt_base (by decide) hd)]
  rw [CBigNum.getvch_natCast]
  dsimp only
  split
  · next htop =>
    rw [trimSignByte, if_pos, List.dropLast_concat]
    rw [List.dropLast_concat]
    refine ⟨?_, by simp, htop⟩
    cases hdigits : Nat.digits 256 bn with
    | nil =>
      rw [hdigits] at htop
      exact absurd htop (by decide)
    | cons d l => simp
  · rw [trimSignByte, if_neg]
    rintro ⟨hlen, hzero, -⟩
    have hbn : bn ≠ 0 := by
      rintro rfl
      rw [Nat.digits_zero] at hlen
      exact absurd hlen (by decide)
    have hne : Nat.digits 256 bn ≠ [] := Nat.digits_ne_nil_iff_ne_zero.mpr hbn
    have htop := Nat.getLast_digit_ne_zero 256 hbn
    rw [List.getLastD_eq_getLast?, List.getLast?_map, List.getLast?_eq_some_getLast hne] at hzero
    refine htop ?_
    rw [← hlast _ (List.getLast_mem hne)]
    exact congrArg UInt8.toNat hzero

theorem base58Value_digits (hb : ∀ c ∈ body, IsBase58 c) (rest : StdString) (bn : Nat) :
    base58Value (body ++ rest) bn = base58Value rest
      (bn * 58 ^ body.length + chars.number body) := by
  induction body generalizing bn with
  | nil => simp
  | cons c body ih =>
    obtain ⟨hc, hbody⟩ := List.forall_mem_cons.mp hb
    have hread : pszBase58.idxOf? c = some (chars.digitOf c) := Alphabet.read_eq hc
    rw [List.cons_append, base58Value, hread]
    change base58Value (body ++ rest) (bn * 58 + chars.digitOf c) = _
    rw [ih hbody, Alphabet.number_cons, List.length_cons, pow_succ]
    ring_nf

theorem base58Value_spaces {trail : StdString} (ht : ∀ c ∈ trail, isspace c = true) (bn : Nat) :
    base58Value trail bn = some bn := by
  cases trail with
  | nil => rfl
  | cons c trail =>
    have hnone : pszBase58.idxOf? c = none := by
      by_contra hsome
      have hspace := base58_not_space (c := c) (Option.isSome_iff_ne_none.mpr hsome)
      rw [ht c List.mem_cons_self] at hspace
      cases hspace
    rw [base58Value, hnone]
    exact if_pos (List.dropWhile_eq_nil_iff.mpr ht)

theorem base58Value_some {p : StdString} {v : Nat} (h : base58Value p bn = some v) :
    ∃ body trail, p = body ++ trail ∧ (∀ c ∈ body, IsBase58 c) ∧ ∀ c ∈ trail, isspace c = true := by
  induction p generalizing bn with
  | nil => exact ⟨[], [], rfl, by simp, by simp⟩
  | cons c p ih =>
    rw [base58Value] at h
    split at h
    · obtain ⟨hspace, -⟩ := Option.ite_none_right_eq_some.mp h
      exact ⟨[], c :: p, rfl, by simp, List.dropWhile_eq_nil_iff.mp hspace⟩
    · next d hread =>
      obtain ⟨body, trail, rfl, hbody, htrail⟩ := ih h
      have hc : IsBase58 c := Option.isSome_iff_exists.mpr ⟨d, hread⟩
      exact ⟨c :: body, trail, rfl, List.forall_mem_cons.mpr ⟨hc, hbody⟩, htrail⟩

end Numbers

section Strings

variable {s body : StdString} {v vch : List UInt8}

theorem decode_eq (s : StdString) : decode s = decodeBase58 s := by
  rw [decode, decodeBase58]
  refine congrArg (fun f => Option.map f _) (funext fun bn => ?_)
  rw [trim_getvch, List.map_reverse]
  rfl

theorem isDigit_bytes (vch : List UInt8) : ∀ b ∈ vch, bytes.isDigit b = true := fun _ _ => rfl

theorem base58_encode (vch : List UInt8) : ∀ c ∈ encode vch, IsBase58 c := by
  intro c hc
  rw [encode_eq_convert] at hc
  exact Alphabet.isDigit_convert (by decide) (by decide) (isDigit_bytes vch) hc

theorem Surrounded.no_nul (h : Surrounded s body) : 0 ∉ s := by
  obtain ⟨lead, trail, rfl, hlead, htrail⟩ := h.split
  simp only [List.mem_append, not_or]
  exact ⟨⟨fun hc => space_ne_zero (hlead _ hc) rfl, fun hc => base58_ne_zero (h.body _ hc) rfl⟩,
    fun hc => space_ne_zero (htrail _ hc) rfl⟩

theorem zeros_before {trail : StdString} (ht : ∀ c ∈ trail, isspace c = true) :
    (body ++ trail).takeWhile (fun c => c == pszBase58.getD 0 0) =
      body.takeWhile (fun c => c == pszBase58.getD 0 0) := by
  have hnone : trail.takeWhile (fun c => c == pszBase58.getD 0 0) = [] := by
    cases trail with
    | nil => rfl
    | cons c trail =>
      refine List.takeWhile_cons_of_neg ?_
      rw [beq_iff_eq]
      rintro rfl
      have hspace := ht _ List.mem_cons_self
      exact absurd hspace (by decide +kernel)
  rw [List.takeWhile_append, hnone, List.append_nil]
  split
  · next hlen => exact ((List.takeWhile_prefix _).eq_of_length hlen).symm
  · rfl

theorem decode_surrounded (h : Surrounded (cStr s) body) :
    decode s = some (Alphabet.convert chars bytes body) := by
  obtain ⟨lead, trail, hsplit, hlead, htrail⟩ := h.split
  obtain ⟨rest, hrest, hpsz⟩ : ∃ rest, (∀ c ∈ rest, isspace c = true) ∧
      (cStr s).dropWhile isspace = body ++ rest := by
    rw [hsplit, List.append_assoc, List.dropWhile_append_of_pos hlead]
    cases hbody : body with
    | nil => exact ⟨[], by simp, List.dropWhile_eq_nil_iff.mpr htrail⟩
    | cons c body' =>
      have hc := base58_not_space (h.body c (by rw [hbody]; exact List.mem_cons_self))
      exact ⟨trail, htrail, List.dropWhile_cons_of_neg (by simp [hc])⟩
  have hvalue : base58Value (body ++ rest) 0 = some (chars.number body) := by
    rw [base58Value_digits h.body, base58Value_spaces hrest, Nat.zero_mul, Nat.zero_add]
  rw [decode, hpsz, hvalue, Option.map_some, trim_getvch, zeros_before hrest]
  refine congrArg some ?_
  rw [Alphabet.convert, Alphabet.print, Numeral.digits, List.map_reverse]
  rfl

theorem surrounded_of_decode (h : decode s = some v) : ∃ body, Surrounded (cStr s) body := by
  obtain ⟨bn, hvalue, -⟩ := Option.map_eq_some_iff.mp h
  obtain ⟨body, trail, hpsz, hbody, htrail⟩ := base58Value_some hvalue
  refine ⟨body, ⟨(cStr s).takeWhile isspace, trail, ?_, fun c hc => List.mem_takeWhile_imp hc,
    htrail⟩, hbody⟩
  rw [List.append_assoc, ← hpsz, List.takeWhile_append_dropWhile]

theorem encode_convert (hb : ∀ c ∈ body, IsBase58 c) :
    encode (Alphabet.convert chars bytes body) = body := by
  rw [encode_eq_convert]
  exact Alphabet.convert_convert (by decide) (by decide) hb

theorem decode_encode (vch : List UInt8) : decode (encode vch) = some vch := by
  have hbody := base58_encode vch
  have hstr : cStr (encode vch) = encode vch :=
    cStr_of_no_nul fun hc => base58_ne_zero (hbody _ hc) rfl
  have hsurrounded : Surrounded (cStr (encode vch)) (encode vch) :=
    ⟨⟨[], [], by rw [hstr]; simp, by simp, by simp⟩, hbody⟩
  rw [decode_surrounded hsurrounded, encode_eq_convert]
  exact congrArg some (Alphabet.convert_convert (by decide) (by decide) (isDigit_bytes vch))

def Exact (s : StdString) : Prop :=
  (∀ body, Surrounded s body → ∃ b, decode s = some b ∧ encode b = body) ∧
    ((¬∃ body, Surrounded s body) → decode s = none)

theorem exact_iff (s : StdString) :
    Exact s ↔ 0 ∉ s ∨ ¬∃ body, Surrounded (cStr s) body := by
  constructor
  · rintro ⟨-, hrejects⟩
    by_cases hs : 0 ∈ s
    · right
      rintro ⟨body, hbody⟩
      have hnone := hrejects fun ⟨body', hbody'⟩ => hbody'.no_nul hs
      rw [decode_surrounded hbody] at hnone
      cases hnone
    · exact Or.inl hs
  · intro hcond
    have hplain (body : StdString) (h : Surrounded s body) : Surrounded (cStr s) body := by
      rwa [cStr_of_no_nul h.no_nul]
    refine ⟨fun body h => ?_, fun h => ?_⟩
    · exact ⟨_, decode_surrounded (hplain body h), encode_convert h.body⟩
    · cases hdecode : decode s with
      | none => rfl
      | some v =>
        have hsome := surrounded_of_decode hdecode
        rcases hcond with hs | hnone
        · rw [cStr_of_no_nul hs] at hsome
          exact absurd hsome h
        · exact absurd hsome hnone

end Strings

section Data

variable (env : Env)

structure CBase58Data where
  nVersion : UInt8
  vchData : List UInt8

namespace CBase58Data

def toStr (d : CBase58Data) : StdString := encodeBase58Check env (d.nVersion :: d.vchData)

def setString (s : StdString) : Bool × CBase58Data :=
  match decodeBase58Check env s with
  | none => (false, ⟨0, []⟩)
  | some [] => (false, ⟨0, []⟩)
  | some (nVersion :: vchData) => (true, ⟨nVersion, vchData⟩)

end CBase58Data

namespace CBitcoinSecret

def setSecret (vchSecret : List UInt8) (fCompressed : Bool) : CBase58Data :=
  ⟨if env.fTestNet then 239 else 128, vchSecret ++ if fCompressed then [1] else []⟩

def getSecret (d : CBase58Data) : List UInt8 × Bool :=
  (d.vchData.take 32, d.vchData.length == 33)

def isValid (d : CBase58Data) : Bool :=
  if d.nVersion = 128 ∨ d.nVersion = 239 then
    (decide (d.nVersion = 239) == env.fTestNet) &&
      (d.vchData.length == 32 || (d.vchData.length == 33 && d.vchData.getD 32 0 == 1))
  else false

def setString (s : StdString) : Bool × CBase58Data :=
  let r := CBase58Data.setString env s
  if r.1 then
    let d := if r.2.nVersion = 180 then { r.2 with nVersion := 128 } else r.2
    (isValid env d, d)
  else (false, r.2)

end CBitcoinSecret

theorem decode_encode_check (vch : List UInt8) :
    decodeBase58Check env (encodeBase58Check env vch) = some vch := by
  have hlen : ((serHash (env.hash vch)).take 4).length = 4 := by
    rw [List.length_take, serHash_length]
    rfl
  have hcut : (vch ++ (serHash (env.hash vch)).take 4).length - 4 = vch.length := by
    rw [List.length_append, hlen, Nat.add_sub_cancel]
  rw [decodeBase58Check, encodeBase58Check, ← encode_eq, ← decode_eq, decode_encode]
  change (if (vch ++ (serHash (env.hash vch)).take 4).length < 4 then none else _) = _
  rw [if_neg (by rw [List.length_append, hlen]; omega), hcut, List.take_left, List.drop_left,
    if_pos rfl]

theorem address_hash (h : Uint160) : addressToHash160 env (hash160ToAddress env h) = some h := by
  rw [addressToHash160, hash160ToAddress, decode_encode_check]
  change (if h.val.length = 20 ∧ getAddressVersion env = getAddressVersion env then
    some (uint160 h.val) else none) = some h
  rw [if_pos ⟨h.property, rfl⟩, uint160, dif_pos h.property]

theorem setString_toStr (d : CBase58Data) : CBase58Data.setString env (d.toStr env) = (true, d) := by
  rw [CBase58Data.setString, CBase58Data.toStr, decode_encode_check]

theorem setSecret_valid {vchSecret : List UInt8} (hlen : vchSecret.length = 32)
    (fCompressed : Bool) :
    CBitcoinSecret.isValid env (CBitcoinSecret.setSecret env vchSecret fCompressed) = true := by
  have hversion : decide ((CBitcoinSecret.setSecret env vchSecret fCompressed).nVersion = 239) =
      env.fTestNet := by
    unfold CBitcoinSecret.setSecret
    cases env.fTestNet <;> rfl
  have hknown : (CBitcoinSecret.setSecret env vchSecret fCompressed).nVersion = 128 ∨
      (CBitcoinSecret.setSecret env vchSecret fCompressed).nVersion = 239 := by
    unfold CBitcoinSecret.setSecret
    cases env.fTestNet
    · exact Or.inl rfl
    · exact Or.inr rfl
  rw [CBitcoinSecret.isValid, if_pos hknown, hversion]
  cases fCompressed with
  | false => simp [CBitcoinSecret.setSecret, hlen]
  | true => simp [CBitcoinSecret.setSecret, hlen, List.getD_eq_getElem?_getD]

theorem setSecret_version (vchSecret : List UInt8) (fCompressed : Bool) :
    (CBitcoinSecret.setSecret env vchSecret fCompressed).nVersion ≠ 180 := by
  change (if env.fTestNet then (239 : UInt8) else 128) ≠ 180
  cases env.fTestNet <;> decide

theorem secret_restored {vchSecret : List UInt8} (hlen : vchSecret.length = 32)
    (fCompressed : Bool) :
    CBitcoinSecret.setString env ((CBitcoinSecret.setSecret env vchSecret fCompressed).toStr env) =
      (true, CBitcoinSecret.setSecret env vchSecret fCompressed) := by
  rw [CBitcoinSecret.setString, setString_toStr]
  simp only [if_true, if_neg (setSecret_version env vchSecret fCompressed),
    setSecret_valid env hlen fCompressed]

theorem getSecret_setSecret {vchSecret : List UInt8} (hlen : vchSecret.length = 32)
    (fCompressed : Bool) :
    CBitcoinSecret.getSecret (CBitcoinSecret.setSecret env vchSecret fCompressed) =
      (vchSecret, fCompressed) := by
  have htake : (vchSecret ++ if fCompressed then [1] else []).take 32 = vchSecret := by
    rw [← hlen, List.take_left]
  refine Prod.ext htake ?_
  cases fCompressed with
  | false => simp [CBitcoinSecret.getSecret, CBitcoinSecret.setSecret, hlen]
  | true => simp [CBitcoinSecret.getSecret, CBitcoinSecret.setSecret, hlen]

theorem base58_bijective :
    (∀ vch, decode (encode vch) = some vch) ∧
    (∀ vch, decodeBase58Check env (encodeBase58Check env vch) = some vch) ∧
    (∀ s, Exact s ↔ 0 ∉ s ∨ ¬∃ body, Surrounded (cStr s) body) ∧
    (∀ h, addressToHash160 env (hash160ToAddress env h) = some h) ∧
    ∀ vchSecret fCompressed, vchSecret.length = 32 →
      let secret := CBitcoinSecret.setSecret env vchSecret fCompressed
      CBitcoinSecret.setString env (secret.toStr env) = (true, secret) ∧
        CBitcoinSecret.getSecret secret = (vchSecret, fCompressed) :=
  ⟨decode_encode, decode_encode_check env, exact_iff, address_hash env,
    fun _ fCompressed hlen => ⟨secret_restored env hlen fCompressed,
      getSecret_setSecret env hlen fCompressed⟩⟩

theorem base58_bijective_sample :
    decode (encode [0, 0, 255]) = some [0, 0, 255] ∧
      CBitcoinSecret.getSecret
        (CBitcoinSecret.setSecret sampleEnv (List.replicate 32 7) true) =
          (List.replicate 32 7, true) :=
  ⟨(base58_bijective sampleEnv).1 [0, 0, 255],
    ((base58_bijective sampleEnv).2.2.2.2 (List.replicate 32 7) true List.length_replicate).2⟩

theorem nul_accepted :
    decode [49, 0, 33] = some [0] ∧ (¬∃ body, Surrounded [49, 0, 33] body) ∧ ¬Exact [49, 0, 33] := by
  have hdecode : decode [49, 0, 33] = some [0] := by decide +kernel
  have hnot : ¬∃ body, Surrounded [49, 0, 33] body := by
    rintro ⟨body, hbody⟩
    exact hbody.no_nul (by simp)
  refine ⟨hdecode, hnot, fun hexact => ?_⟩
  have hnone := hexact.2 hnot
  rw [hdecode] at hnone
  cases hnone

end Data

end Base58

end Namecoin
