import Namecoin.Script.Numbers
import Namecoin.Script.Limits
import Namecoin.Node.Retarget

namespace Namecoin

open Significand CBigNum

section Words

variable {x : BitVec 32} {q k nSize : Nat}

theorem or_byte (b : UInt8) (hx : x.toNat = q * 2 ^ (8 * (k + 1))) (hk : 8 * (k + 1) ≤ 32) :
    (x ||| BitVec.ofNat 32 b.toNat <<< (8 * k)).toNat = (q * 256 + b.toNat) * 2 ^ (8 * k) := by
  have hb := b.toNat_lt
  have hpow : 2 ^ (8 * (k + 1)) = 256 * 2 ^ (8 * k) := by
    rw [Nat.mul_succ, Nat.pow_add, Nat.mul_comm]
  have hword : 2 ^ (8 * (k + 1)) ≤ 2 ^ 32 := Nat.pow_le_pow_right (by decide) hk
  have hlow : b.toNat * 2 ^ (8 * k) < 2 ^ (8 * (k + 1)) := by
    rw [hpow]
    exact Nat.mul_lt_mul_of_pos_right hb (Nat.two_pow_pos _)
  have hbyte : (BitVec.ofNat 32 b.toNat <<< (8 * k)).toNat = b.toNat * 2 ^ (8 * k) := by
    rw [BitVec.toNat_shiftLeft, BitVec.toNat_ofNat, Nat.shiftLeft_eq,
      Nat.mod_eq_of_lt (a := b.toNat) (by omega), Nat.mod_eq_of_lt (hlow.trans_le hword)]
  rw [BitVec.toNat_or, hx, hbyte, Nat.mul_comm q, ← Nat.two_pow_add_eq_or_of_lt hlow, hpow]
  ring

theorem byte_of_word (n : BitVec 32) (k : Nat) :
    (UInt8.ofNat ((n >>> k) &&& 0xff).toNat).toNat = n.toNat / 2 ^ k % 256 := by
  have hmask : ((n >>> k) &&& 0xff).toNat = n.toNat / 2 ^ k % 256 := by
    rw [BitVec.toNat_and, BitVec.toNat_ushiftRight, Nat.shiftRight_eq_div_pow]
    exact Nat.and_two_pow_sub_one_eq_mod _ 8
  rw [hmask, UInt8.toNat_ofNat', Nat.mod_mod]

theorem sizeHeader_small (h : nSize < 256) : sizeHeader nSize = [0, 0, 0, UInt8.ofNat nSize] := by
  rw [sizeHeader, leBytes, leBytes, leBytes, leBytes, leBytes, Nat.div_eq_of_lt h,
    Nat.mod_eq_of_lt h]
  rfl

end Words

-- the three bytes of the word are the highest of the magnitude
def compactBody (nSize : Nat) (a b c : UInt8) : List UInt8 :=
  ([a, b, c] ++ List.replicate (nSize - 3) 0).take nSize

theorem setCompact_body (bn : Int) (n : BitVec 32) :
    CBigNum.setCompact bn n = mpiValue (compactBody (n.toNat / 2 ^ 24)
      (UInt8.ofNat ((n >>> 16) &&& 0xff).toNat) (UInt8.ofNat ((n >>> 8) &&& 0xff).toNat)
      (UInt8.ofNat (n &&& 0xff).toNat)) := by
  have hn := n.isLt
  have hsize : (n >>> 24).toNat = n.toNat / 2 ^ 24 := by
    rw [BitVec.toNat_ushiftRight, Nat.shiftRight_eq_div_pow]
  have hlt : n.toNat / 2 ^ 24 < 256 := by omega
  generalize n.toNat / 2 ^ 24 = nSize at hsize hlt
  generalize ha : UInt8.ofNat ((n >>> 16) &&& 0xff).toNat = a
  generalize hb : UInt8.ofNat ((n >>> 8) &&& 0xff).toNat = b
  generalize hc : UInt8.ofNat (n &&& 0xff).toNat = c
  rw [CBigNum.setCompact, hsize, ha, hb, hc]
  have hbody : (compactBody nSize a b c).length = nSize := by
    rw [compactBody, List.length_take_of_le]
    rw [List.length_append, List.length_replicate]
    simp only [List.length_cons, List.length_nil]
    omega
  have hmpi := @mpi2bn_header (compactBody nSize a b c) (by rw [hbody]; omega)
  rw [hbody, sizeHeader_small hlt] at hmpi
  obtain rfl | rfl | rfl | ⟨m, rfl⟩ : nSize = 0 ∨ nSize = 1 ∨ nSize = 2 ∨ ∃ m, nSize = m + 3 := by
    by_cases h : 3 ≤ nSize
    · exact Or.inr (Or.inr (Or.inr ⟨nSize - 3, by omega⟩))
    · omega
  · exact congrArg (Option.getD · bn) hmpi
  · exact congrArg (Option.getD · bn) hmpi
  · exact congrArg (Option.getD · bn) hmpi
  · have hvch : compactBody (m + 3) a b c = a :: b :: c :: List.replicate m 0 := by
      rw [compactBody, List.take_of_length_le]
      · rfl
      · simp
    rw [hvch] at hmpi ⊢
    rw [if_pos (by omega), if_pos (by omega), if_pos (by omega), Nat.add_comm m 3,
      ← Nat.add_assoc, List.replicate_add]
    rw [Nat.add_comm m 3] at hmpi
    exact congrArg (Option.getD · bn) hmpi

theorem leNat_compactBody (nSize : Nat) (a b c : UInt8) :
    leNat (compactBody nSize a b c).reverse =
      if nSize ≤ 3 then (a.toNat * 2 ^ 16 + b.toNat * 2 ^ 8 + c.toNat) / 256 ^ (3 - nSize)
      else (a.toNat * 2 ^ 16 + b.toNat * 2 ^ 8 + c.toNat) * 256 ^ (nSize - 3) := by
  have ha := a.toNat_lt
  have hb := b.toNat_lt
  have hc := c.toNat_lt
  rcases Nat.lt_or_ge 3 nSize with hmore | hfew
  · have hvch : compactBody nSize a b c = a :: b :: c :: List.replicate (nSize - 3) 0 := by
      rw [compactBody, List.take_of_length_le]
      · rfl
      · simp
        omega
    rw [if_neg (by omega), hvch, leNat_reverse_cons, leNat_reverse_cons, leNat_reverse_cons,
      List.reverse_replicate, leNat_zeros]
    simp only [List.length_cons, List.length_replicate]
    ring
  · rw [if_pos hfew]
    have hcases : nSize = 0 ∨ nSize = 1 ∨ nSize = 2 ∨ nSize = 3 := by omega
    rcases hcases with rfl | rfl | rfl | rfl <;>
    · simp only [compactBody, List.cons_append, List.take_succ_cons, List.take_zero,
        List.reverse_cons, List.reverse_nil, List.nil_append, leNat]
      omega

theorem compactBody_cons {nSize : Nat} (h : 1 ≤ nSize) (b c : UInt8) :
    ∃ l, ∀ a', compactBody nSize a' b c = a' :: l := by
  obtain ⟨m, rfl⟩ := Nat.exists_eq_add_of_le' h
  exact ⟨([b, c] ++ List.replicate (m + 1 - 3) 0).take m, fun a' => rfl⟩

theorem setCompact_eq (bn : Int) (n : BitVec 32) :
    CBigNum.setCompact bn n = setCompact n.toNat := by
  have hn := n.isLt
  have ha := byte_of_word n 16
  have hb := byte_of_word n 8
  have hc : (UInt8.ofNat (n &&& 0xff).toNat).toNat = n.toNat % 256 := by
    have hzero := byte_of_word n 0
    rwa [BitVec.ushiftRight_zero, Nat.pow_zero, Nat.div_one] at hzero
  rw [setCompact_body, setCompact]
  generalize UInt8.ofNat ((n >>> 16) &&& 0xff).toNat = a at ha ⊢
  generalize UInt8.ofNat ((n >>> 8) &&& 0xff).toNat = b at hb ⊢
  generalize UInt8.ofNat (n &&& 0xff).toNat = c at hc ⊢
  rcases Nat.eq_zero_or_pos (n.toNat / 2 ^ 24) with hzero | hpos
  · have hmant : n.toNat % 2 ^ 24 % 2 ^ 23 / 256 ^ (3 - 0) = 0 :=
      Nat.div_eq_of_lt (by omega)
    rw [hzero, if_pos (Nat.zero_le 3), hmant]
    split <;> rfl
  obtain ⟨l, hl⟩ := compactBody_cons hpos b c
  have hvalue (a' : UInt8) (hmant : a'.toNat = a.toNat % 128) :
      leNat (a' :: l).reverse = if n.toNat / 2 ^ 24 ≤ 3
        then n.toNat % 2 ^ 24 % 2 ^ 23 / 256 ^ (3 - n.toNat / 2 ^ 24)
        else n.toNat % 2 ^ 24 % 2 ^ 23 * 256 ^ (n.toNat / 2 ^ 24 - 3) := by
    have hsum : a'.toNat * 2 ^ 16 + b.toNat * 2 ^ 8 + c.toNat = n.toNat % 2 ^ 24 % 2 ^ 23 := by
      omega
    rw [← hl, leNat_compactBody, hsum]
  rw [hl, mpiValue]
  by_cases hsign : 128 ≤ a.toNat
  · have hlow : (a - 128).toNat = a.toNat % 128 := by
      have hle : (128 : UInt8) ≤ a := UInt8.le_iff_toNat_le.mpr hsign
      have hlt := a.toNat_lt
      rw [UInt8.toNat_sub_of_le _ _ hle]
      change a.toNat - 128 = a.toNat % 128
      omega
    rw [if_pos hsign, if_pos (by omega), hvalue _ hlow]
  · rw [if_neg hsign, if_neg (by omega), hvalue _ (Nat.mod_eq_of_lt (by omega)).symm]

theorem mpiBody_length {n : Nat} (hn : n ≠ 0) : (mpiBody n).length = width 8 n := by
  have hsize : 0 < Nat.size n := Nat.size_pos.mpr (Nat.pos_of_ne_zero hn)
  have hneg : ¬(n : Int) < 0 := by omega
  rw [mpiBody, Int.natAbs_natCast, if_neg hneg, List.length_append, bn2bin_length, width]
  split
  · rw [List.length_singleton]
    omega
  · rw [List.length_nil]
    omega

theorem getCompact_eq {x : Int} (hx : 0 ≤ x) (hfit : (mpiBody x).length < 256) :
    (CBigNum.getCompact x).toNat = getCompact x := by
  obtain ⟨n, rfl⟩ := Int.eq_ofNat_of_zero_le hx
  rcases eq_or_ne n 0 with rfl | hn
  · rfl
  obtain ⟨b, l, hb, hmag, hbody⟩ := mpiBody_magnitude (Int.natCast_ne_zero.mpr hn)
  have hneg : ¬(n : Int) < 0 := by omega
  have hlen := mpiBody_length hn
  rw [if_neg hneg] at hbody
  have hmpi : bnBn2mpi n = 0 :: 0 :: 0 :: UInt8.ofNat (mpiBody n).length :: mpiBody n := by
    rw [bnBn2mpi, sizeHeader_small hfit]
    rfl
  have hsize : (BitVec.ofNat 32 (width 8 n) <<< 24).toNat = width 8 n * 2 ^ 24 := by
    rw [BitVec.toNat_shiftLeft, BitVec.toNat_ofNat, Nat.shiftLeft_eq]
    omega
  rw [Int.natAbs_natCast] at hmag
  rw [getCompact_pos hn, CBigNum.getCompact, length_bn2mpi, hlen, Nat.add_sub_cancel_left, hmpi]
  rw [hbody] at hlen ⊢
  have hone := or_byte (k := 2) b hsize (by decide)
  cases l with
  | nil =>
    rw [List.length_singleton] at hlen
    rw [← hlen] at hone ⊢
    refine hone.trans ?_
    rw [if_neg (by decide), ← hmag]
    simp only [List.reverse_singleton, leNat]
    omega
  | cons b' l =>
    have htwo := or_byte (k := 1) b' hone (by decide)
    cases l with
    | nil =>
      rw [List.length_cons, List.length_singleton] at hlen
      rw [← hlen] at htwo ⊢
      refine htwo.trans ?_
      rw [if_neg (by decide), ← hmag]
      simp only [List.reverse_cons, List.reverse_nil, List.nil_append, List.cons_append, leNat]
      omega
    | cons b'' l =>
      have hthree := or_byte (k := 0) b'' htwo (by decide)
      rw [Nat.mul_zero, BitVec.shiftLeft_zero] at hthree
      have hwide : 3 ≤ width 8 n := by
        rw [← hlen]
        exact Nat.le_add_left 3 _
      have hrest := leNat_lt l.reverse
      rw [List.length_reverse] at hrest
      rw [leNat_reverse_cons, leNat_reverse_cons, leNat_reverse_cons] at hmag
      simp only [List.length_cons] at hmag hlen
      have htop : n / 256 ^ (width 8 n - 3) = b.toNat * 2 ^ 16 + b'.toNat * 2 ^ 8 + b''.toNat := by
        have hmul : n = 256 ^ l.length * (b.toNat * 2 ^ 16 + b'.toNat * 2 ^ 8 + b''.toNat) +
            leNat l.reverse := by
          rw [← hmag]
          ring
        have hdigits : width 8 n - 3 = l.length := by omega
        rw [hdigits, hmul, Nat.mul_add_div (Nat.pow_pos (by decide)), Nat.div_eq_of_lt hrest,
          Nat.add_zero]
      rw [if_pos hwide, if_pos (by omega), if_pos (by omega), if_pos hwide, htop]
      refine hthree.trans ?_
      ring

theorem getCompact_mono {n m : Nat} (h : n ≤ m) :
    getCompact (n : Int) ≤ getCompact (m : Int) := by
  rcases eq_or_ne n 0 with rfl | hn
  · exact Nat.zero_le _
  rw [getCompact_pos hn, getCompact_pos (by omega)]
  rcases (width_mono h : width 8 n ≤ width 8 m).eq_or_lt with hsame | hless
  · rw [hsame]
    refine Nat.add_le_add_left ?_ _
    split
    · exact Nat.div_le_div_right h
    · exact Nat.mul_le_mul_right _ h
  · have hlt := mantissa_lt n
    omega

theorem getCompact_roundDown (n : Nat) :
    getCompact (roundDown 8 3 n : Nat) = getCompact (n : Int) := by
  rcases eq_or_ne n 0 with rfl | hn
  · rfl
  have hwidth := width_roundDown (w := 8) (p := 3) (by decide) (by decide) n
  have hunit := roundDown_div_unit 8 3 n
  rw [unit_eq] at hunit
  rw [getCompact_pos hn, getCompact_pos (roundDown_ne_zero (by decide) (by decide) hn), hwidth]
  split
  · rw [hunit]
  · rw [roundDown_of_narrow (by omega)]

def FitsCompact (x : Int) : Prop := (bnBn2mpi x).length - 4 ≤ 0xff

theorem FitsCompact.toNat_eq {x : Int} (h : FitsCompact x) (hx : 0 ≤ x) :
    (CBigNum.getCompact x).toNat = getCompact x := by
  rw [FitsCompact, length_bn2mpi] at h
  exact getCompact_eq hx (by omega)

theorem FitsCompact.of_le {n m : Nat} (h : FitsCompact m) (hle : n ≤ m) : FitsCompact n := by
  have hlen (k : Nat) : (mpiBody k).length ≤ width 8 k := mpiBody_length_le k
  rw [FitsCompact, length_bn2mpi, Nat.add_sub_cancel_left] at h ⊢
  rcases eq_or_ne n 0 with rfl | hn
  · exact Nat.zero_le _
  · have hwidth : width 8 n ≤ width 8 m := width_mono hle
    rw [mpiBody_length (by omega)] at h
    exact (hlen n).trans (hwidth.trans h)

theorem fitsCompact_natCast {n : Nat} (h : n < 2 ^ 256) : FitsCompact n := by
  have hsize : Nat.size (n : Int).natAbs ≤ 256 := Nat.size_le.mpr h
  have hlen := mpiBody_length_le n
  rw [FitsCompact, length_bn2mpi]
  omega

section Chain

variable {env : Env} {pindexLast : CBlockIndex}

theorem setCompact_ofNat (bn : Int) {nBits : Nat} (h : nBits < 2 ^ 32) :
    CBigNum.setCompact bn (BitVec.ofNat 32 nBits) = setCompact nBits := by
  rw [setCompact_eq, BitVec.toNat_ofNat, Nat.mod_eq_of_lt h]

-- the retarget in the arithmetic form is the one that CBigNum computes byte by byte
theorem retarget_words (bn : Int) (hbits : pindexLast.nBits < 2 ^ 32)
    (hpos : 0 < setCompact pindexLast.nBits) (pindexFirst : CBlockIndex) :
    retarget env pindexLast pindexFirst =
      (CBigNum.getCompact (retargetTo env
        (CBigNum.setCompact bn (BitVec.ofNat 32 pindexLast.nBits))
        ((pindexLast.nTime : Int) - pindexFirst.nTime))).toNat := by
  have hle : ∀ a, retargetTo env (setCompact pindexLast.nBits) a ≤ bnProofOfWorkLimit env :=
    fun a => min_le_right _ _
  have hlimit : bnProofOfWorkLimit env < 2 ^ 256 := by
    unfold bnProofOfWorkLimit
    split <;> decide
  rw [retarget_eq, setCompact_ofNat bn hbits]
  have hnonneg : 0 ≤ retargetTo env (setCompact pindexLast.nBits)
      ((pindexLast.nTime : Int) - pindexFirst.nTime) := retargetTo_nonneg hpos _
  obtain ⟨n, hn⟩ := Int.eq_ofNat_of_zero_le hnonneg
  have hbound := hle ((pindexLast.nTime : Int) - pindexFirst.nTime)
  rw [hn] at hbound ⊢
  exact ((fitsCompact_natCast (by omega)).toNat_eq (Int.natCast_nonneg n)).symm

end Chain

theorem numbers_survive (c : EvalCall) (bn : Int) :
    (∀ n : BitVec 64, ∃ vch, c.evalScript [] (pushInt64 n) = some [vch] ∧ setvch 0 vch = n.toInt) ∧
    (∀ n : BitVec 64, setvch bn (CBigNum.getvch (setuint64 bn n)) = n.toNat ∧
      getuint256 (setuint64 bn n) = n.setWidth 256) ∧
    (∀ n : Uint256, setvch bn (CBigNum.getvch (setuint256 bn n)) = n.toNat ∧
      getuint256 (setuint256 bn n) = n) ∧
    ∀ x y : Int, 0 ≤ x → x ≤ y → FitsCompact y →
      CBigNum.setCompact bn (CBigNum.getCompact y) ≤ y ∧
      CBigNum.getCompact x ≤ CBigNum.getCompact y ∧
      CBigNum.getCompact (CBigNum.setCompact bn (CBigNum.getCompact y)) =
        CBigNum.getCompact y := by
  refine ⟨evalScript_pushInt64 c, ?_, ?_, ?_⟩
  · intro n
    have hsize : Nat.size n.toNat ≤ 64 := Nat.size_le.mpr n.isLt
    have hback := getuint256_eq (n.setWidth 256)
    rw [BitVec.toNat_setWidth_of_le (by decide)] at hback
    rw [setuint64_eq]
    exact ⟨setvch_getvch (by rw [Int.natAbs_natCast]; omega) bn, hback⟩
  · intro n
    have hsize : Nat.size n.toNat ≤ 256 := Nat.size_le.mpr n.isLt
    rw [setuint256_eq]
    exact ⟨setvch_getvch (by rw [Int.natAbs_natCast]; omega) bn, getuint256_eq n⟩
  · intro x y hx hle hfit
    obtain ⟨n, rfl⟩ := Int.eq_ofNat_of_zero_le hx
    obtain ⟨m, rfl⟩ := Int.eq_ofNat_of_zero_le (hx.trans hle)
    have hnm : n ≤ m := Int.ofNat_le.mp hle
    have hy := hfit.toNat_eq (Int.natCast_nonneg m)
    have hround : CBigNum.setCompact bn (CBigNum.getCompact m) = (roundDown 8 3 m : Nat) := by
      rw [setCompact_eq, hy, setCompact_getCompact]
    rw [hround]
    refine ⟨Int.ofNat_le.mpr (roundDown_le 8 3 m), ?_, ?_⟩
    · rw [BitVec.le_def, hy, (hfit.of_le hnm).toNat_eq hx]
      exact getCompact_mono hnm
    · refine BitVec.eq_of_toNat_eq ?_
      rw [hy, (hfit.of_le (roundDown_le 8 3 m)).toNat_eq (Int.natCast_nonneg _),
        getCompact_roundDown]

theorem numbers_survive_limit :
    CBigNum.setCompact 0 (CBigNum.getCompact (2 ^ 224 - 1)) ≤ 2 ^ 224 - 1 ∧
      CBigNum.getCompact 0 ≤ CBigNum.getCompact (2 ^ 224 - 1) ∧
      CBigNum.getCompact (CBigNum.setCompact 0 (CBigNum.getCompact (2 ^ 224 - 1))) =
        CBigNum.getCompact (2 ^ 224 - 1) := by
  refine (numbers_survive EvalCall.plainCall 0).2.2.2 0 (2 ^ 224 - 1) (by decide) (by decide) ?_
  exact fitsCompact_natCast (n := 2 ^ 224 - 1) (by decide)

end Namecoin
