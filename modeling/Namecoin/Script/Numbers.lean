import Namecoin.Data.BigNum
import Namecoin.Script.StackLeft

namespace Namecoin

open CBigNum

def pushInt64 (n : BitVec 64) : CScript :=
  if n.toInt = -1 ∨ (1 ≤ n.toInt ∧ n.toInt ≤ 16) then
    [UInt8.ofNat (n + BitVec.ofNat 64 (op1 - 1)).toNat]
  else pushData (CBigNum.getvch (setint64 0 n))

section Representation

variable {bn : Int} {vch : VchType} {n k : Nat}

theorem setvch_bigNumOf (h : vch.length < 2 ^ 32) (bn : Int) : setvch bn vch = bigNumOf vch := by
  rw [setvch, setmpi_eq (by rwa [List.length_reverse])]
  induction vch using List.reverseRecOn with
  | nil => rfl
  | append_singleton l top _ =>
    rw [List.reverse_append, List.reverse_singleton, List.singleton_append, mpiValue, bigNumOf,
      List.getLast?_concat, List.dropLast_concat, List.reverse_cons, List.reverse_reverse,
      List.reverse_cons, List.reverse_reverse]

theorem rdropWhile_leBytes (h : n < 256 ^ k) :
    (leBytes k n).rdropWhile (fun b => b == 0) = leBytes ((Nat.size n + 7) / 8) n := by
  have hpow (j : Nat) : 256 ^ j = 2 ^ (8 * j) := by rw [Nat.pow_mul]
  have hsize : Nat.size n ≤ 8 * k := Nat.size_le.mpr (hpow k ▸ h)
  obtain ⟨r, rfl⟩ := Nat.exists_eq_add_of_le (show (Nat.size n + 7) / 8 ≤ k by omega)
  have hlt : n < 256 ^ ((Nat.size n + 7) / 8) := by
    rw [hpow]
    exact Nat.size_le.mp (by omega)
  have hzeros : (leBytes ((Nat.size n + 7) / 8) n ++ List.replicate r 0).rdropWhile
      (fun b => b == 0) = (leBytes ((Nat.size n + 7) / 8) n).rdropWhile (fun b => b == 0) := by
    rw [List.rdropWhile, List.reverse_append, List.reverse_replicate,
      List.dropWhile_append_of_pos fun b hb => by simp [List.eq_of_mem_replicate hb]]
    rfl
  rw [leBytes_add, Nat.div_eq_of_lt hlt, leBytes_zero, hzeros]
  rcases eq_or_ne n 0 with rfl | hn
  · rfl
  · obtain ⟨l, top, hlast, htop, -⟩ := shortest_last hn
    rw [hlast, List.rdropWhile_concat_neg _ _ _ (by simpa using htop)]

theorem getvch_bigNumVch (h : bn.natAbs < 2 ^ 64) : CBigNum.getvch bn = bigNumVch bn := by
  have hdrop : (leBytes 8 bn.natAbs).rdropWhile (fun b => b == 0) =
      leBytes ((Nat.size bn.natAbs + 7) / 8) bn.natAbs := rdropWhile_leBytes h
  rw [CBigNum.getvch, if_neg (by rw [length_bn2mpi]; omega), drop_bn2mpi, bigNumVch, hdrop]
  rcases eq_or_ne bn 0 with rfl | hbn
  · rfl
  obtain ⟨l, top, hlast, -, hmag, hlen⟩ := shortest_last (Int.natAbs_ne_zero.mpr hbn)
  have hbin : bnBn2bin bn.natAbs = top :: l.reverse := by
    rw [bnBn2bin, hlast, List.reverse_append]
    rfl
  have hext := full_byte_iff hmag hlen
  rw [hlast, List.getLast?_concat]
  dsimp only
  rw [mpiBody, hbin]
  by_cases htop : 128 ≤ top.toNat
  · rw [if_pos (hext.mpr htop), if_pos htop]
    split
    · simp
    · simp
  · have hsum : top ||| 0x80 = top + 128 := by
      rw [← UInt8.toNat_inj, or_sign (by omega), UInt8.toNat_add]
      have hmod : (top.toNat + 128) % 256 = top.toNat + 128 := Nat.mod_eq_of_lt (by omega)
      exact hmod.symm
    rw [if_neg (fun hpos => htop (hext.mp hpos)), if_neg htop]
    split
    · rw [List.nil_append, List.modifyHead_cons, hsum, List.dropLast_concat]
      simp
    · simp

end Representation

theorem bigNum_getvch_length (bn : Int) :
    (CBigNum.getvch bn).length ≤ Nat.size bn.natAbs / 8 + 1 := by
  rw [CBigNum.getvch, if_neg (by rw [length_bn2mpi]; omega), drop_bn2mpi, List.length_reverse]
  exact mpiBody_length_le bn

theorem evalScript_num {c : EvalCall} {b : UInt8} {bn : Int} (hlow : opPushdata4 < b.toNat)
    (hhigh : b.toNat ≤ op16) (hop : opcodeOf b.toNat = some (.num bn)) :
    c.evalScript [] [b] = some [bigNumVch bn] := by
  have hget : getOp [b] = some (b.toNat, [], []) := by
    rw [getOp, if_neg (by omega)]
  have hdisabled : b.toNat ∉ disabledOps := by
    have : op16 = 96 := rfl
    simp only [disabledOps, List.mem_cons, List.not_mem_nil, or_false]
    omega
  have hinstr := @EvalCall.evalInstr_op c [] 0 [b] b.toNat (.num bn) []
    ⟨[bigNumVch bn], [], [], 0, [b]⟩ hlow (by decide) hdisabled hop
    (by rw [if_neg (by omega)]; rfl) (by simp)
  have hrun := EvalCall.run_step (c := c) (s := ⟨[], [], [], 0, [b]⟩) hget
  rw [hinstr, Option.bind_some, EvalCall.run_nil] at hrun
  rw [EvalCall.evalScript, if_neg (by simp), EvalCall.evalFrom]
  change (c.run [b] ⟨[], [], [], 0, [b]⟩).bind _ = _
  rw [hrun]
  rfl

theorem evalScript_pushInt64 (c : EvalCall) (n : BitVec 64) :
    ∃ vch, c.evalScript [] (pushInt64 n) = some [vch] ∧ setvch 0 vch = n.toInt := by
  have hn := n.isLt
  have htoInt := n.toInt_eq_toNat_cond
  have habs : n.toInt.natAbs < 2 ^ 64 := by
    split at htoInt <;> omega
  have hsize : Nat.size n.toInt.natAbs ≤ 64 := Nat.size_le.mpr habs
  have hvalue : setvch 0 (CBigNum.getvch n.toInt) = n.toInt := setvch_getvch (by omega) 0
  rw [pushInt64]
  split
  · next hsmall =>
    have hopcode : ((n + BitVec.ofNat 64 (op1 - 1)).toNat : Int) = n.toInt + 80 := by
      have hadd : (n + BitVec.ofNat 64 (op1 - 1)).toNat = (n.toNat + 80) % 2 ^ 64 :=
        BitVec.toNat_add n _
      rw [hadd]
      split at htoInt <;> omega
    have hbyte : (UInt8.ofNat (n + BitVec.ofNat 64 (op1 - 1)).toNat).toNat =
        (n + BitVec.ofNat 64 (op1 - 1)).toNat := by
      rw [UInt8.toNat_ofNat', Nat.mod_eq_of_lt (by omega)]
    have hrange : opPushdata4 = 78 ∧ op1 = 81 ∧ op16 = 96 := ⟨rfl, rfl, rfl⟩
    refine ⟨bigNumVch n.toInt, evalScript_num (by omega) (by omega) ?_, ?_⟩
    · rw [hbyte, opcodeOf, if_pos (by omega), hopcode]
      exact congrArg (fun bn => some (Opcode.num bn)) (Int.add_sub_cancel n.toInt 80)
    · rw [← getvch_bigNumVch habs, hvalue]
  · rw [setint64_eq]
    have hlen := bigNum_getvch_length n.toInt
    have hrun := @EvalCall.evalScript_pushes c [CBigNum.getvch n.toInt] (by
      intro vch hvch
      rw [List.mem_singleton.mp hvch]
      omega)
    rw [List.flatMap_singleton, if_pos] at hrun
    · exact ⟨_, hrun, hvalue⟩
    · have hshort : opPushdata1 = 76 := rfl
      rw [pushData, if_pos (by omega), List.length_cons]
      exact ⟨by omega, by rw [List.length_singleton]; decide⟩

end Namecoin
