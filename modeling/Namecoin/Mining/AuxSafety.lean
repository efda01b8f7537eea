import Namecoin.Lib.Checked
import Namecoin.Chain.Merged
import Namecoin.Data.RoundTrip

namespace Namecoin

open Checked

section Steps

def readIntAt (script : CScript) (pc : Nat) : Except Hazard Int :=
  (window script pc 4).map fun b => toSigned 4 (leNat b)

def headerSteps (script : CScript) (pc : Nat) : Except Hazard Bool :=
  match search pchMergedMiningHeader script 0 with
  | some pcHead => do
    let next ← advance script pcHead 1
    if search pchMergedMiningHeader (script.drop next) 0 ≠ none then pure false
    else
      let after ← advance script pcHead pchMergedMiningHeader.length
      pure (decide (after = pc))
  | none => pure (decide (pc ≤ 20))

def auxRand (nNonce : Int) (nChainID : Int) : Nat :=
  let rand : Nat := ((nNonce % 2 ^ 32).toNat * 1103515245 + 12345) % 2 ^ 32
  let rand : Nat := (((rand : Int) + nChainID) % 2 ^ 32).toNat
  (rand * 1103515245 + 12345) % 2 ^ 32

def slotSteps (script : CScript) (pc nBranch : Nat) (nChainIndex nChainID : Int) :
    Except Hazard Bool :=
  if script.length - pc < 8 then pure false
  else do
    let nSize ← readIntAt script pc
    let branches ← shiftOne nBranch
    if nSize ≠ branches then pure false
    else
      let nNonce ← readIntAt script (pc + 4)
      let slot ← remainder (auxRand nNonce nChainID) (nSize % 2 ^ 32).toNat
      pure (decide ((nChainIndex % 2 ^ 32).toNat = slot))

def scriptSteps (script : CScript) (root : List UInt8) (nBranch : Nat)
    (nChainIndex nChainID : Int) : Except Hazard Bool :=
  match search root script 0 with
  | none => pure false
  | some pc => do
    let placed ← headerSteps script pc
    if placed = false then pure false
    else
      let pc ← advance script pc root.length
      slotSteps script pc nBranch nChainIndex nChainID

def CAuxPow.checkSteps (env : Env) (a : CAuxPow) (hashAuxBlock : Uint256) (nChainID : Int) :
    Except Hazard Bool :=
  if a.merkleTx.nIndex ≠ 0 then pure false
  else if env.fTestNet = false ∧ a.parent.getChainID = nChainID then pure false
  else if 30 < a.vChainMerkleBranch.length then pure false
  else if checkMerkleBranch env (a.merkleTx.tx.getHash env) a.merkleTx.vMerkleBranch
      a.merkleTx.nIndex ≠ a.parent.hashMerkleRoot then pure false
  else do
    let txin ← item a.merkleTx.tx.vin 0
    scriptSteps txin.scriptSig (serHash (a.chainRoot env hashAuxBlock)).reverse
      a.vChainMerkleBranch.length a.nChainIndex nChainID

end Steps

section Safe

theorem search_bound {pat s : List UInt8} {k : Nat} (h : search pat s 0 = some k) :
    k + pat.length ≤ s.length := by
  obtain ⟨pre, post, hs, hk⟩ := search_some h
  have hlen := congrArg List.length hs
  simp only [List.length_append] at hlen
  omega

theorem headerSteps_eq (script : CScript) (pc : Nat) :
    headerSteps script pc = .ok (headerPlaced script pc) := by
  unfold headerSteps headerPlaced
  cases hhead : search pchMergedMiningHeader script 0 with
  | none => rfl
  | some pcHead =>
    have hbound := search_bound hhead
    have hheader : pchMergedMiningHeader.length = 4 := rfl
    dsimp only
    rw [advance_of_le (by omega), advance_of_le hbound]
    cases hnext : search pchMergedMiningHeader (script.drop (pcHead + 1)) 0 with
    | none => simp [bind, Except.bind, pure, Except.pure, hnext, beq_eq_decide]
    | some k => simp [bind, Except.bind, pure, Except.pure, hnext]

theorem toSigned_toNat {n : Nat} (h : n < 2 ^ 32) : (toSigned 4 n % 2 ^ 32).toNat = n := by
  unfold toSigned
  split
  · omega
  · norm_num
    omega

theorem leNat_take_lt (b : List UInt8) : leNat (b.take 4) < 2 ^ 32 := by
  rw [leNat_take]
  exact Nat.mod_lt _ (by decide)

theorem auxRand_mod (n : Nat) (nChainID : Int) (nSize : Nat) (h : n < 2 ^ 32) :
    auxRand (toSigned 4 n) nChainID % nSize = auxSlot n nChainID nSize := by
  simp only [auxRand, auxSlot, toSigned_toNat h]

theorem toSigned_eq_pow {n k : Nat} (hn : n < 2 ^ 32) (hk : k ≤ 30) :
    toSigned 4 n = 2 ^ k ↔ n = 2 ^ k := by
  have hpow : (2 : Nat) ^ k ≤ 2 ^ 30 := Nat.pow_le_pow_right (by decide) hk
  have hcast : (2 : Int) ^ k = ((2 ^ k : Nat) : Int) := by norm_num
  rw [hcast]
  generalize 2 ^ k = m at hpow
  unfold toSigned
  split
  · omega
  · norm_num
    omega

theorem slotSteps_eq {script : CScript} {pc nBranch : Nat} (nChainIndex nChainID : Int)
    (hpc : pc ≤ script.length) (hbranch : nBranch ≤ 30) :
    slotSteps script pc nBranch nChainIndex nChainID =
      .ok (decide (8 ≤ (script.drop pc).length) && leNat ((script.drop pc).take 4) == 2 ^ nBranch &&
        (nChainIndex % 2 ^ 32).toNat ==
          auxSlot (leNat (((script.drop pc).drop 4).take 4)) nChainID (2 ^ nBranch)) := by
  unfold slotSteps
  split
  · next hshort =>
    have hnot : ¬8 ≤ (script.drop pc).length := by
      rw [List.length_drop]
      omega
    simp only [hnot, decide_false, Bool.false_and]
    rfl
  · next hlong =>
    have hle : 8 ≤ (script.drop pc).length := by
      rw [List.length_drop]
      omega
    have hsizeLt := leNat_take_lt (script.drop pc)
    have hnonceLt := leNat_take_lt ((script.drop pc).drop 4)
    have hpos : 0 < 2 ^ nBranch := Nat.two_pow_pos nBranch
    have hnonce : readIntAt script (pc + 4) =
        .ok (toSigned 4 (leNat (((script.drop pc).drop 4).take 4))) := by
      rw [readIntAt, window_of_le (by omega), List.drop_drop]
      rfl
    have hsize : readIntAt script pc = .ok (toSigned 4 (leNat ((script.drop pc).take 4))) := by
      rw [readIntAt, window_of_le (by omega)]
      rfl
    rw [hsize, hnonce, shiftOne_of_lt (by omega)]
    simp only [hle, decide_true, Bool.true_and]
    change (if toSigned 4 (leNat ((script.drop pc).take 4)) ≠ 2 ^ nBranch then pure false
      else remainder _ _ >>= fun slot => pure (decide ((nChainIndex % 2 ^ 32).toNat = slot))) = _
    by_cases hmatch : leNat ((script.drop pc).take 4) = 2 ^ nBranch
    · rw [if_neg (not_not.mpr ((toSigned_eq_pow hsizeLt hbranch).mpr hmatch)),
        toSigned_toNat hsizeLt, hmatch, remainder_of_pos hpos, auxRand_mod _ _ _ hnonceLt]
      simp [bind, Except.bind, pure, Except.pure, beq_eq_decide]
    · rw [if_pos (fun h => hmatch ((toSigned_eq_pow hsizeLt hbranch).mp h))]
      simp [hmatch, pure, Except.pure]

theorem scriptSteps_eq (script : CScript) (root : List UInt8) {nBranch : Nat}
    (nChainIndex nChainID : Int) (hbranch : nBranch ≤ 30) :
    scriptSteps script root nBranch nChainIndex nChainID =
      .ok (checkAuxScript script root nBranch nChainIndex nChainID) := by
  unfold scriptSteps checkAuxScript
  cases hroot : search root script 0 with
  | none => rfl
  | some pc =>
    have hbound := search_bound hroot
    have hplaced := headerSteps_eq script pc
    have hslot := slotSteps_eq nChainIndex nChainID hbound hbranch
    dsimp only
    rw [hplaced, advance_of_le hbound]
    change (if headerPlaced script pc = false then pure false
      else slotSteps script (pc + root.length) nBranch nChainIndex nChainID) = _
    rw [hslot]
    change _ = Except.ok (headerPlaced script pc && _ && _ && _)
    cases headerPlaced script pc with
    | false => rfl
    | true => simp

end Safe

section Check

variable {env : Env} {a : CAuxPow} {hashAuxBlock : Uint256} {nChainID : Int}

structure CAuxPow.ReadsCoinbase (env : Env) (a : CAuxPow) (nChainID : Int) : Prop where
  generate : a.merkleTx.nIndex = 0
  foreign : env.fTestNet = true ∨ a.parent.getChainID ≠ nChainID
  branch : a.vChainMerkleBranch.length ≤ 30
  rooted : checkMerkleBranch env (a.merkleTx.tx.getHash env) a.merkleTx.vMerkleBranch
    a.merkleTx.nIndex = a.parent.hashMerkleRoot

theorem CAuxPow.checkSteps_early (h : ¬a.ReadsCoinbase env nChainID) :
    a.checkSteps env hashAuxBlock nChainID = .ok false := by
  unfold CAuxPow.checkSteps
  split
  · rfl
  · next hindex =>
    split
    · rfl
    · next hchain =>
      split
      · rfl
      · next hbranch =>
        split
        · rfl
        · next hroot =>
          refine absurd ⟨not_not.mp hindex, ?_, Nat.le_of_not_lt hbranch, not_not.mp hroot⟩ h
          by_contra hno
          rw [not_or, Bool.not_eq_true, not_not] at hno
          exact hchain hno

theorem CAuxPow.checkSteps_late (h : a.ReadsCoinbase env nChainID) :
    a.checkSteps env hashAuxBlock nChainID = (item a.merkleTx.tx.vin 0).bind fun txin =>
      scriptSteps txin.scriptSig (serHash (a.chainRoot env hashAuxBlock)).reverse
        a.vChainMerkleBranch.length a.nChainIndex nChainID := by
  have hchain : ¬(env.fTestNet = false ∧ a.parent.getChainID = nChainID) := by
    rintro ⟨hnet, hid⟩
    rcases h.foreign with htest | hother
    · rw [hnet] at htest
      cases htest
    · exact hother hid
  rw [CAuxPow.checkSteps, if_neg (not_not.mpr h.generate), if_neg hchain,
    if_neg (Nat.not_lt.mpr h.branch), if_neg (not_not.mpr h.rooted)]
  rfl

theorem CAuxPow.check_eq (env : Env) (a : CAuxPow) (hashAuxBlock : Uint256) (nChainID : Int) :
    a.check env hashAuxBlock nChainID = true ↔ a.ReadsCoinbase env nChainID ∧
      ∃ txin rest, a.merkleTx.tx.vin = txin :: rest ∧
        checkAuxScript txin.scriptSig (serHash (a.chainRoot env hashAuxBlock)).reverse
          a.vChainMerkleBranch.length a.nChainIndex nChainID = true := by
  obtain ⟨m, branch, nChainIndex, parent, vtx, auxpow⟩ := a
  simp only [CAuxPow.check, Bool.and_eq_true, Bool.or_eq_true, beq_iff_eq, bne_iff_ne,
    decide_eq_true_eq]
  constructor
  · rintro ⟨⟨⟨⟨hindex, hchain⟩, hbranch⟩, hroot⟩, hscript⟩
    refine ⟨⟨hindex, hchain, hbranch, hroot⟩, ?_⟩
    cases hvin : m.tx.vin with
    | nil =>
      rw [hvin] at hscript
      cases hscript
    | cons txin rest =>
      rw [hvin] at hscript
      exact ⟨txin, rest, hvin, hscript⟩
  · rintro ⟨⟨hindex, hchain, hbranch, hroot⟩, txin, rest, hvin, hscript⟩
    refine ⟨⟨⟨⟨hindex, hchain⟩, hbranch⟩, hroot⟩, ?_⟩
    simp only [CAuxPow.merkleTx] at hvin
    rw [hvin]
    exact hscript

theorem CAuxPow.checkSteps_safe (h : a.merkleTx.tx.vin ≠ [] ∨ ¬a.ReadsCoinbase env nChainID) :
    a.checkSteps env hashAuxBlock nChainID = .ok (a.check env hashAuxBlock nChainID) := by
  have hcheck := CAuxPow.check_eq env a hashAuxBlock nChainID
  by_cases hreads : a.ReadsCoinbase env nChainID
  · obtain ⟨txin, rest, hvin⟩ :=
      List.exists_cons_of_ne_nil (h.resolve_right (not_not.mpr hreads))
    have hitem : item a.merkleTx.tx.vin 0 = .ok txin := by
      rw [hvin]
      rfl
    rw [CAuxPow.checkSteps_late hreads, hitem]
    change scriptSteps _ _ _ _ _ = _
    rw [scriptSteps_eq _ _ _ _ hreads.branch]
    refine congrArg Except.ok (Bool.eq_iff_iff.mpr ?_)
    rw [hcheck]
    constructor
    · exact fun hscript => ⟨hreads, txin, rest, hvin, hscript⟩
    · rintro ⟨-, txin', rest', hvin', hscript⟩
      obtain ⟨rfl, -⟩ := List.cons.inj (hvin.symm.trans hvin')
      exact hscript
  · have hfalse : a.check env hashAuxBlock nChainID = false := by
      rw [← Bool.not_eq_true, hcheck]
      exact fun hyes => hreads hyes.1
    rw [CAuxPow.checkSteps_early hreads, hfalse]

theorem CAuxPow.checkSteps_faults (hvin : a.merkleTx.tx.vin = [])
    (h : a.ReadsCoinbase env nChainID) :
    a.checkSteps env hashAuxBlock nChainID = .error .outOfRange := by
  rw [CAuxPow.checkSteps_late h, hvin]
  rfl

theorem auxpow_check_safe_iff (env : Env) (a : CAuxPow) (hashAuxBlock : Uint256)
    (nChainID : Int) :
    (∃ b, a.checkSteps env hashAuxBlock nChainID = .ok b) ↔
      a.merkleTx.tx.vin ≠ [] ∨ ¬a.ReadsCoinbase env nChainID := by
  constructor
  · rintro ⟨b, hb⟩
    by_contra hno
    rw [not_or, not_not, not_not] at hno
    cases (CAuxPow.checkSteps_faults hno.1 hno.2).symm.trans hb
  · exact fun h => ⟨_, CAuxPow.checkSteps_safe h⟩

def hollowTx : CTransaction := ⟨1, [], [], 0⟩

def hollowProof : CAuxPow :=
  .mk ⟨hollowTx, 0, [], 0⟩ [] 0 ⟨1, 0, hollowTx.getHash sampleEnv, 1, 0x1d00ffff, 0⟩ [] none

theorem hollowProof_fits : hollowProof.Fits :=
  ⟨⟨⟨by decide, by decide, by simp [hollowTx], by decide, by simp [hollowTx], by decide⟩,
    by decide, by decide⟩, by decide, by decide, ⟨by decide, by decide, by decide, by decide⟩,
    ⟨by decide, by simp⟩, rfl⟩

theorem auxpow_check_unsafe :
    CAuxPow.unserialize serNetwork (hollowProof.serialize serNetwork) = some (hollowProof, []) ∧
      hollowProof.checkSteps sampleEnv 7 getOurChainID = .error .outOfRange := by
  constructor
  · have hread := hollowProof.reads serNetwork _ hollowProof_fits (Nat.lt_add_one _) []
    rw [List.append_nil] at hread
    rw [CAuxPow.unserialize, hread]
    rfl
  · have hroot : checkMerkleBranch sampleEnv (hollowTx.getHash sampleEnv) [] 0 =
        hollowTx.getHash sampleEnv := by simp [checkMerkleBranch, foldBranch]
    exact CAuxPow.checkSteps_faults rfl ⟨rfl, .inr (by decide), by decide, hroot⟩

end Check

end Namecoin
