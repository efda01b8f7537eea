import Namecoin.Data.Bytes

namespace Namecoin

-- OpenSSL's MPI format: four bytes of length, then the magnitude, both from the highest byte
-- down, the sign in the top bit
def sizeHeader (n : Nat) : List UInt8 := (leBytes 4 n).reverse

def bnBn2bin (n : Nat) : List UInt8 := (leBytes ((Nat.size n + 7) / 8) n).reverse

def mpiBody (bn : Int) : List UInt8 :=
  let bits := Nat.size bn.natAbs
  let body := (if 0 < bits ∧ bits % 8 = 0 then [0] else []) ++ bnBn2bin bn.natAbs
  if bn < 0 then body.modifyHead (fun b => b ||| 0x80) else body

def bnBn2mpi (bn : Int) : List UInt8 := sizeHeader (mpiBody bn).length ++ mpiBody bn

def mpiValue : List UInt8 → Int
  | [] => 0
  | top :: rest =>
    if 128 ≤ top.toNat then -(leNat ((top - 128) :: rest).reverse : Int)
    else leNat (top :: rest).reverse

def bnMpi2bn (d : List UInt8) : Option Int :=
  if d.length < 4 ∨ leNat (d.take 4).reverse ≠ d.length - 4 then none else some (mpiValue (d.drop 4))

namespace CBigNum

-- the copying loop of the three setters, from the highest byte on
def copyBytes (fNegative : Bool) : Bool → List UInt8 → List UInt8
  | _, [] => []
  | false, c :: rest => c :: copyBytes fNegative false rest
  | true, c :: rest =>
    if c = 0 then copyBytes fNegative true rest
    else if c &&& 0x80 ≠ 0 then
      (if fNegative then 0x80 else 0) :: c :: copyBytes fNegative false rest
    else (if fNegative then c ||| 0x80 else c) :: copyBytes fNegative false rest

def setmpi (bn : Int) (body : List UInt8) : Int :=
  (bnMpi2bn (sizeHeader body.length ++ body)).getD bn

def topBytes (shift : BitVec 64 → BitVec 64) : Nat → BitVec 64 → List UInt8
  | 0, _ => []
  | i + 1, n => UInt8.ofNat (shift n &&& 0xff).toNat :: topBytes shift i (n <<< 8)

def setint64 (bn : Int) (n : BitVec 64) : Int :=
  let fNegative := n.slt 0
  let n := if fNegative then -n else n
  setmpi bn (copyBytes fNegative true (topBytes (fun n => n.sshiftRight 56) 8 n))

def setuint64 (bn : Int) (n : BitVec 64) : Int :=
  setmpi bn (copyBytes false true (topBytes (fun n => n >>> 56) 8 n))

def setuint256 (bn : Int) (n : Uint256) : Int :=
  setmpi bn (copyBytes false true (serHash n).reverse)

def getuint256 (bn : Int) : Uint256 :=
  let vch := bnBn2mpi bn
  if vch.length < 4 then 0
  else
    let vch := if 4 < vch.length then vch.modify 4 (fun b => b &&& 0x7f) else vch
    BitVec.ofNat 256 (leNat ((vch.drop 4).reverse.take 32))

def setvch (bn : Int) (vch : VchType) : Int := setmpi bn vch.reverse

def getvch (bn : Int) : VchType :=
  if (bnBn2mpi bn).length < 4 then [] else ((bnBn2mpi bn).drop 4).reverse

def setCompact (bn : Int) (nCompact : BitVec 32) : Int :=
  let nSize := (nCompact >>> 24).toNat
  let vch := (List.replicate (4 + nSize) (0 : UInt8)).set 3 (UInt8.ofNat nSize)
  let vch := if 1 ≤ nSize then vch.set 4 (UInt8.ofNat ((nCompact >>> 16) &&& 0xff).toNat) else vch
  let vch := if 2 ≤ nSize then vch.set 5 (UInt8.ofNat ((nCompact >>> 8) &&& 0xff).toNat) else vch
  let vch := if 3 ≤ nSize then vch.set 6 (UInt8.ofNat (nCompact &&& 0xff).toNat) else vch
  (bnMpi2bn vch).getD bn

def getCompact (bn : Int) : BitVec 32 :=
  let vch := bnBn2mpi bn
  let nSize := vch.length - 4
  let byte (i : Nat) : BitVec 32 := BitVec.ofNat 32 (vch.getD i 0).toNat
  let nCompact := BitVec.ofNat 32 nSize <<< 24
  let nCompact := if 1 ≤ nSize then nCompact ||| byte 4 <<< 16 else nCompact
  let nCompact := if 2 ≤ nSize then nCompact ||| byte 5 <<< 8 else nCompact
  if 3 ≤ nSize then nCompact ||| byte 6 else nCompact

end CBigNum

section Format

variable {body : List UInt8} {bn : Int} {n k : Nat}

theorem sizeHeader_length (n : Nat) : (sizeHeader n).length = 4 := by
  rw [sizeHeader, List.length_reverse, leBytes_length]

theorem mpi2bn_header (h : body.length < 2 ^ 32) :
    bnMpi2bn (sizeHeader body.length ++ body) = some (mpiValue body) := by
  have hhead := sizeHeader_length body.length
  have hsize : leNat (sizeHeader body.length).reverse = body.length := by
    rw [sizeHeader, List.reverse_reverse]
    exact leNat_leBytes_of_lt h
  rw [bnMpi2bn, List.take_left' hhead, List.drop_left' hhead, hsize, List.length_append, hhead,
    if_neg]
  omega

theorem setmpi_eq (h : body.length < 2 ^ 32) : CBigNum.setmpi bn body = mpiValue body := by
  rw [CBigNum.setmpi, mpi2bn_header h, Option.getD_some]

theorem leNat_reverse_cons (b : UInt8) (l : List UInt8) :
    leNat (b :: l).reverse = leNat l.reverse + 256 ^ l.length * b.toNat := by
  rw [List.reverse_cons, leNat_append, List.length_reverse, leNat, leNat, Nat.mul_zero, Nat.add_zero]

theorem or_sign {b : UInt8} (h : b.toNat < 128) : (b ||| 0x80).toNat = b.toNat + 128 := by
  have hor : b.toNat ||| 128 = 128 * 1 + b.toNat := by
    rw [Nat.lor_comm]
    exact (Nat.two_pow_add_eq_or_of_lt (i := 7) h 1).symm
  rw [UInt8.toNat_or]
  exact hor.trans (by omega)

theorem or_sign_sub {b : UInt8} (h : b.toNat < 128) : (b ||| 0x80) - 128 = b := by
  have hsign := or_sign h
  have hle : (128 : UInt8) ≤ b ||| 0x80 := by
    rw [UInt8.le_iff_toNat_le, hsign]
    exact Nat.le_add_left 128 _
  rw [← UInt8.toNat_inj, UInt8.toNat_sub_of_le _ _ hle, hsign]
  exact Nat.add_sub_cancel _ 128

theorem mpiValue_low {b : UInt8} (h : b.toNat < 128) (l : List UInt8) :
    mpiValue (b :: l) = leNat (b :: l).reverse := by
  rw [mpiValue, if_neg (by omega)]

theorem mpiValue_sign {b : UInt8} (h : b.toNat < 128) (l : List UInt8) :
    mpiValue ((b ||| 0x80) :: l) = -(leNat (b :: l).reverse : Int) := by
  rw [mpiValue, if_pos (by rw [or_sign h]; omega), or_sign_sub h]

theorem top_lt {b : UInt8} {l : List UInt8} (h : leNat (b :: l).reverse < 128 * 256 ^ l.length) :
    b.toNat < 128 := by
  rw [leNat_reverse_cons, Nat.mul_comm 128] at h
  exact Nat.lt_of_mul_lt_mul_left (lt_of_le_of_lt (Nat.le_add_left _ _) h)

theorem leNat_bn2bin (n : Nat) : leNat (bnBn2bin n).reverse = n := by
  have hpow : 256 ^ ((Nat.size n + 7) / 8) = 2 ^ (8 * ((Nat.size n + 7) / 8)) := by
    rw [Nat.pow_mul]
  rw [bnBn2bin, List.reverse_reverse]
  refine leNat_leBytes_of_lt ?_
  rw [hpow]
  exact (Nat.lt_size_self n).trans_le (Nat.pow_le_pow_right (by decide) (by omega))

theorem bn2bin_length (n : Nat) : (bnBn2bin n).length = (Nat.size n + 7) / 8 := by
  rw [bnBn2bin, List.length_reverse, leBytes_length]

-- the byte in front keeps the top bit of the magnitude clear
theorem body_magnitude {n : Nat} (hn : n ≠ 0) :
    ∃ b l, (if 0 < Nat.size n ∧ Nat.size n % 8 = 0 then [0] else []) ++ bnBn2bin n = b :: l ∧
      b.toNat < 128 ∧ leNat (b :: l).reverse = n := by
  have hsize : 0 < Nat.size n := Nat.size_pos.mpr (Nat.pos_of_ne_zero hn)
  have hmag := leNat_bn2bin n
  split
  · refine ⟨0, bnBn2bin n, rfl, by decide, ?_⟩
    rw [leNat_reverse_cons, hmag]
    exact Nat.add_zero n
  · next hext =>
    have hlen := bn2bin_length n
    obtain ⟨b, l, hbody⟩ := List.exists_cons_of_length_pos
      (show 0 < (bnBn2bin n).length by omega)
    rw [hbody] at hmag hlen
    rw [List.length_cons] at hlen
    refine ⟨b, l, hbody, @top_lt b l ?_, hmag⟩
    have hpow : 128 * 256 ^ l.length = 2 ^ (7 + 8 * l.length) := by
      rw [Nat.pow_add, Nat.pow_mul]
    rw [hmag, hpow]
    exact (Nat.lt_size_self n).trans_le (Nat.pow_le_pow_right (by decide) (by omega))

theorem mpiBody_magnitude (hbn : bn ≠ 0) :
    ∃ b l, b.toNat < 128 ∧ leNat (b :: l).reverse = bn.natAbs ∧
      mpiBody bn = if bn < 0 then (b ||| 0x80) :: l else b :: l := by
  obtain ⟨b, l, hbody, hb, hmag⟩ := body_magnitude (Int.natAbs_ne_zero.mpr hbn)
  refine ⟨b, l, hb, hmag, ?_⟩
  rw [mpiBody, hbody]
  rfl

theorem mpiValue_mpiBody (bn : Int) : mpiValue (mpiBody bn) = bn := by
  rcases eq_or_ne bn 0 with rfl | hbn
  · rfl
  obtain ⟨b, l, hb, hmag, hbody⟩ := mpiBody_magnitude hbn
  rw [hbody]
  split
  · rw [mpiValue_sign hb, hmag]
    omega
  · rw [mpiValue_low hb, hmag]
    omega

theorem mpiBody_length_le (bn : Int) : (mpiBody bn).length ≤ Nat.size bn.natAbs / 8 + 1 := by
  have hlen : ((if 0 < Nat.size bn.natAbs ∧ Nat.size bn.natAbs % 8 = 0 then [0] else []) ++
      bnBn2bin bn.natAbs).length ≤ Nat.size bn.natAbs / 8 + 1 := by
    rw [List.length_append, bn2bin_length]
    split
    · rw [List.length_singleton]
      omega
    · rw [List.length_nil]
      omega
  rw [mpiBody]
  split
  · rwa [List.length_modifyHead]
  · exact hlen

theorem drop_bn2mpi (bn : Int) : (bnBn2mpi bn).drop 4 = mpiBody bn :=
  List.drop_left' (sizeHeader_length _)

theorem length_bn2mpi (bn : Int) : (bnBn2mpi bn).length = 4 + (mpiBody bn).length := by
  rw [bnBn2mpi, List.length_append, sizeHeader_length]

theorem leBytes_add (k j n : Nat) :
    leBytes (k + j) n = leBytes k n ++ leBytes j (n / 256 ^ k) := by
  induction k generalizing n with
  | zero => simp [leBytes]
  | succ k ih =>
    rw [Nat.succ_add, leBytes, leBytes, ih, List.cons_append, Nat.div_div_eq_div_mul, pow_succ']

theorem leBytes_zero (k : Nat) : leBytes k 0 = List.replicate k 0 := by
  induction k with
  | zero => rfl
  | succ k ih => rw [leBytes, Nat.zero_div, ih]; rfl

-- the last byte of the shortest representation is not zero
theorem shortest_last (hn : n ≠ 0) :
    ∃ l top, leBytes ((Nat.size n + 7) / 8) n = l ++ [top] ∧ top ≠ 0 ∧
      n = leNat l + 256 ^ l.length * top.toNat ∧ l.length + 1 = (Nat.size n + 7) / 8 := by
  have hsize : 0 < Nat.size n := Nat.size_pos.mpr (Nat.pos_of_ne_zero hn)
  obtain ⟨m, hm⟩ := Nat.exists_eq_add_of_le' (show 1 ≤ (Nat.size n + 7) / 8 by omega)
  have hpow (j : Nat) : 256 ^ j = 2 ^ (8 * j) := by rw [Nat.pow_mul]
  have hlow : 256 ^ m ≤ n := by
    rw [hpow]
    exact Nat.lt_size.mp (by omega)
  have hhigh : n < 256 ^ (m + 1) := by
    rw [hpow]
    exact Nat.size_le.mp (by omega)
  have htop : n / 256 ^ m < 256 := by
    rw [Nat.div_lt_iff_lt_mul (Nat.pow_pos (by decide)), ← pow_succ']
    exact hhigh
  have hbyte : (UInt8.ofNat (n / 256 ^ m % 256)).toNat = n / 256 ^ m := by
    rw [UInt8.toNat_ofNat', Nat.mod_mod, Nat.mod_eq_of_lt htop]
  refine ⟨leBytes m n, UInt8.ofNat (n / 256 ^ m % 256), by rw [hm, leBytes_add]; rfl, ?_, ?_, ?_⟩
  · intro hzero
    have hdiv := Nat.div_pos hlow (Nat.pow_pos (by decide))
    rw [hzero] at hbyte
    exact hdiv.ne hbyte
  · rw [hbyte, leNat_leBytes, leBytes_length, Nat.mod_add_div]
  · rw [leBytes_length, hm]

-- the magnitude fills its top byte exactly when the sign needs a byte of its own
theorem full_byte_iff {l : List UInt8} {top : UInt8}
    (hmag : n = leNat l + 256 ^ l.length * top.toNat) (hlen : l.length + 1 = (Nat.size n + 7) / 8) :
    (0 < Nat.size n ∧ Nat.size n % 8 = 0) ↔ 128 ≤ top.toNat := by
  have hpow : 128 * 256 ^ l.length = 2 ^ (7 + 8 * l.length) := by rw [Nat.pow_add, Nat.pow_mul]
  constructor
  · intro hsize
    by_contra hlow
    have hle : Nat.size n ≤ 7 + 8 * l.length := by
      rw [Nat.size_le, ← hpow]
      have hrest := leNat_lt l
      have htop : 256 ^ l.length * (top.toNat + 1) ≤ 256 ^ l.length * 128 :=
        Nat.mul_le_mul_left _ (by omega)
      rw [Nat.mul_succ] at htop
      omega
    omega
  · intro htop
    have hlt : 7 + 8 * l.length < Nat.size n := by
      rw [Nat.lt_size, ← hpow]
      have hle : 256 ^ l.length * 128 ≤ 256 ^ l.length * top.toNat := Nat.mul_le_mul_left _ htop
      omega
    omega

theorem leNat_digits {l : List Nat} (hl : ∀ d ∈ l, d < 256) :
    leNat (l.map UInt8.ofNat) = Nat.ofDigits 256 l := by
  induction l with
  | nil => rfl
  | cons d l ih =>
    obtain ⟨hd, hrest⟩ := List.forall_mem_cons.mp hl
    rw [List.map_cons, leNat, ih hrest, Nat.ofDigits_cons, UInt8.toNat_ofNat', Nat.mod_eq_of_lt hd]

theorem shortest_digits (n : Nat) :
    leBytes ((Nat.size n + 7) / 8) n = (Nat.digits 256 n).map UInt8.ofNat := by
  have hlen : (Nat.size n + 7) / 8 = (Nat.digits 256 n).length := by
    refine eq_of_forall_ge_iff fun k => ?_
    rw [Nat.digits_length_le_iff (by decide), show 256 ^ k = 2 ^ (8 * k) from (Nat.pow_mul 2 8 k).symm,
      ← Nat.size_le]
    omega
  have hvalue : leNat ((Nat.digits 256 n).map UInt8.ofNat) = n := by
    rw [leNat_digits fun d hd => Nat.digits_lt_base (by decide) hd, Nat.ofDigits_digits]
  have hbytes := @leBytes_leNat ((Nat.digits 256 n).map UInt8.ofNat) _ (List.length_map _)
  rw [hvalue, ← hlen] at hbytes
  exact hbytes

end Format

namespace CBigNum

section Setters

variable {bn : Int} {n : BitVec 64} {l : List UInt8} {fNegative : Bool}

def signed (fNegative : Bool) (n : Nat) : Int := if fNegative then -(n : Int) else n

theorem copyBytes_rest (fNegative : Bool) (l : List UInt8) : copyBytes fNegative false l = l := by
  induction l with
  | nil => rfl
  | cons c l ih => rw [copyBytes, ih]

theorem top_bit (c : UInt8) : c &&& 0x80 ≠ 0 ↔ 128 ≤ c.toNat := by
  have hall : ∀ n < 256, (UInt8.ofNat n &&& 0x80 ≠ 0 ↔ 128 ≤ n) := by decide +kernel
  have hc := hall c.toNat c.toNat_lt
  rwa [UInt8.ofNat_toNat] at hc

theorem mpiValue_copyBytes (fNegative : Bool) (l : List UInt8) :
    mpiValue (copyBytes fNegative true l) = signed fNegative (leNat l.reverse) := by
  induction l with
  | nil => cases fNegative <;> rfl
  | cons c l ih =>
    rw [copyBytes]
    split
    · next hzero => rw [ih, hzero, leNat_reverse_cons]; rfl
    · split
      · next htop =>
        rw [copyBytes_rest]
        have hzero : leNat (0 :: c :: l).reverse = leNat (c :: l).reverse := leNat_reverse_cons 0 _
        cases fNegative with
        | true =>
          rw [if_pos rfl, signed, if_pos rfl, ← hzero]
          exact mpiValue_sign (b := 0) (by decide) _
        | false =>
          rw [if_neg Bool.false_ne_true, signed, if_neg Bool.false_ne_true, ← hzero]
          exact mpiValue_low (by decide) _
      · next htop =>
        have hlow : c.toNat < 128 := not_le.mp fun h => htop ((top_bit c).mpr h)
        rw [copyBytes_rest]
        cases fNegative with
        | true => exact mpiValue_sign hlow l
        | false => exact mpiValue_low hlow l

theorem copyBytes_length (l : List UInt8) :
    (copyBytes fNegative true l).length ≤ l.length + 1 := by
  induction l with
  | nil => exact Nat.zero_le _
  | cons c l ih =>
    rw [copyBytes]
    split
    · exact ih.trans (Nat.le_succ _)
    · split
      · rw [copyBytes_rest]
        rfl
      · rw [copyBytes_rest]
        exact Nat.le_succ _

theorem setmpi_copyBytes (hl : l.length < 2 ^ 31) :
    setmpi bn (copyBytes fNegative true l) = signed fNegative (leNat l.reverse) := by
  have hlen := @copyBytes_length fNegative l
  rw [setmpi_eq (by omega), mpiValue_copyBytes]

theorem topBytes_length (shift : BitVec 64 → BitVec 64) (k : Nat) (n : BitVec 64) :
    (topBytes shift k n).length = k := by
  induction k generalizing n with
  | zero => rfl
  | succ k ih => rw [topBytes, List.length_cons, ih]

theorem leNat_topBytes {shift : BitVec 64 → BitVec 64}
    (hshift : ∀ n, (shift n &&& 0xff).toNat = n.toNat / 2 ^ 56) {k m : Nat} (hk : 8 * k + m = 64)
    (n : BitVec 64) : leNat (topBytes shift k n).reverse = n.toNat / 2 ^ m := by
  induction k generalizing m n with
  | zero =>
    obtain rfl : m = 64 := by omega
    exact (Nat.div_eq_of_lt n.isLt).symm
  | succ k ih =>
    have hn := n.isLt
    have hbyte : (UInt8.ofNat (shift n &&& 0xff).toNat).toNat = n.toNat / 2 ^ 56 := by
      rw [hshift, UInt8.toNat_ofNat', Nat.mod_eq_of_lt (by omega)]
    have hrest := ih (m := m + 8) (by omega) (n <<< 8)
    have hpow : (256 : Nat) ^ k = 2 ^ (56 - m) := by
      rw [show 56 - m = 8 * k by omega, Nat.pow_mul]
    have hsplit : n.toNat = 2 ^ m * (2 ^ (56 - m) * (n.toNat / 2 ^ 56)) + n.toNat % 2 ^ 56 := by
      rw [← Nat.mul_assoc, ← Nat.pow_add, show m + (56 - m) = 56 by omega, Nat.div_add_mod]
    have hlow : (n <<< 8).toNat = 256 * (n.toNat % 2 ^ 56) := by
      rw [BitVec.toNat_shiftLeft, Nat.shiftLeft_eq]
      omega
    have hdiv : 256 * (n.toNat % 2 ^ 56) / 2 ^ (m + 8) = n.toNat % 2 ^ 56 / 2 ^ m := by
      rw [Nat.pow_add, Nat.mul_comm (2 ^ m)]
      exact Nat.mul_div_mul_left _ _ (by decide)
    rw [topBytes, leNat_reverse_cons, topBytes_length, hbyte, hrest, hlow, hdiv, hpow]
    conv_rhs => rw [hsplit]
    rw [Nat.mul_add_div (Nat.two_pow_pos m), Nat.add_comm]

theorem ushift_byte (n : BitVec 64) : (n >>> 56 &&& 0xff).toNat = n.toNat / 2 ^ 56 := by
  have hn := n.isLt
  rw [BitVec.toNat_and, BitVec.toNat_ushiftRight, Nat.shiftRight_eq_div_pow]
  exact (Nat.and_two_pow_sub_one_eq_mod _ 8).trans (Nat.mod_eq_of_lt (by omega))

theorem sshift_byte (n : BitVec 64) : (n.sshiftRight 56 &&& 0xff).toNat = n.toNat / 2 ^ 56 := by
  have hsame : n.sshiftRight 56 &&& 0xff#64 = n >>> 56 &&& 0xff#64 := by
    apply BitVec.eq_of_getLsbD_eq
    intro i hi
    have hmask : (0xff#64).getLsbD i = decide (i < 8) := by
      rw [BitVec.getLsbD_ofNat, decide_eq_true hi, Bool.true_and]
      exact Nat.testBit_two_pow_sub_one 8 i
    rw [BitVec.getLsbD_and, BitVec.getLsbD_and, hmask]
    by_cases hlow : i < 8
    · rw [BitVec.getLsbD_sshiftRight, BitVec.getLsbD_ushiftRight, if_pos (by omega),
        decide_eq_false (by omega), Bool.not_false, Bool.true_and]
    · rw [decide_eq_false hlow, Bool.and_false, Bool.and_false]
  exact (congrArg BitVec.toNat hsame).trans (ushift_byte n)

theorem setuint64_eq (bn : Int) (n : BitVec 64) : setuint64 bn n = n.toNat := by
  rw [setuint64, setmpi_copyBytes (by rw [topBytes_length]; decide),
    leNat_topBytes ushift_byte (m := 0) rfl, Nat.pow_zero, Nat.div_one]
  rfl

theorem setint64_eq (bn : Int) (n : BitVec 64) : setint64 bn n = n.toInt := by
  have hn := n.isLt
  rw [setint64, setmpi_copyBytes (by rw [topBytes_length]; decide),
    leNat_topBytes sshift_byte (m := 0) rfl, Nat.pow_zero, Nat.div_one, BitVec.toInt_eq_toNat_cond]
  have hsign : n.slt 0 = decide (2 ^ 63 ≤ n.toNat) := by
    exact BitVec.slt_zero_eq_msb.trans (BitVec.msb_eq_decide n)
  rw [hsign, signed]
  by_cases hneg : 2 ^ 63 ≤ n.toNat
  · rw [decide_eq_true hneg, if_pos rfl, if_pos rfl, if_neg (by omega), BitVec.toNat_neg]
    omega
  · rw [decide_eq_false hneg, if_neg Bool.false_ne_true, if_neg Bool.false_ne_true,
      if_pos (by omega)]

theorem setuint256_eq (bn : Int) (n : Uint256) : setuint256 bn n = n.toNat := by
  rw [setuint256, setmpi_copyBytes (by rw [List.length_reverse, serHash_length]; decide),
    List.reverse_reverse, leNat_serHash]
  rfl

theorem setvch_getvch (h : Nat.size bn.natAbs < 2 ^ 32) (bn' : Int) :
    setvch bn' (getvch bn) = bn := by
  have hlen := mpiBody_length_le bn
  rw [getvch, if_neg (by rw [length_bn2mpi]; omega), drop_bn2mpi, setvch, List.reverse_reverse,
    setmpi_eq (by omega), mpiValue_mpiBody]

theorem getvch_natCast (n : Nat) :
    getvch n = let vch := (Nat.digits 256 n).map UInt8.ofNat
      if 128 ≤ vch.getLastD 0 then vch ++ [0] else vch := by
  rw [getvch, if_neg (by rw [length_bn2mpi]; omega), drop_bn2mpi, mpiBody, Int.natAbs_natCast,
    if_neg (by omega), List.reverse_append, bnBn2bin, List.reverse_reverse, ← shortest_digits]
  rcases eq_or_ne n 0 with rfl | hn
  · rfl
  obtain ⟨l, top, hlast, -, hmag, hlen⟩ := shortest_last hn
  dsimp only
  rw [hlast, List.getLastD_concat]
  by_cases hfull : 128 ≤ top
  · rw [if_pos ((full_byte_iff hmag hlen).mpr hfull), if_pos hfull, List.reverse_singleton]
  · rw [if_neg (fun h => hfull ((full_byte_iff hmag hlen).mp h)), if_neg hfull, List.reverse_nil,
      List.append_nil]

theorem clear_sign {b : UInt8} (h : b.toNat < 128) : b &&& 0x7f = b := by
  have hall : ∀ n < 128, UInt8.ofNat n &&& 0x7f = UInt8.ofNat n := by decide +kernel
  have hb := hall b.toNat h
  rwa [UInt8.ofNat_toNat] at hb

theorem drop_modify_header (n : Nat) (f : UInt8 → UInt8) (body : List UInt8) :
    ((sizeHeader n ++ body).modify 4 f).drop 4 = body.modifyHead f := by
  obtain ⟨a, b, c, d, hhead⟩ : ∃ a b c d, sizeHeader n = [a, b, c, d] := ⟨_, _, _, _, rfl⟩
  rw [hhead]
  rfl

theorem getuint256_eq (n : Uint256) : getuint256 n.toNat = n := by
  rw [getuint256]
  dsimp only
  rw [if_neg (by rw [length_bn2mpi]; omega), length_bn2mpi]
  rcases Nat.eq_zero_or_pos n.toNat with hzero | hpos
  · rw [hzero]
    refine BitVec.eq_of_toNat_eq ?_
    rw [hzero]
    rfl
  · obtain ⟨b, l, hb, hmag, hbody⟩ := mpiBody_magnitude (Int.natCast_pos.mpr hpos).ne'
    rw [if_neg (by omega)] at hbody
    rw [hbody, List.length_cons, if_pos (by omega), bnBn2mpi, hbody, drop_modify_header,
      List.modifyHead_cons, clear_sign hb, leNat_take, hmag]
    refine BitVec.eq_of_toNat_eq ?_
    rw [BitVec.toNat_ofNat, Int.natAbs_natCast]
    omega

end Setters

end CBigNum

end Namecoin
