import Namecoin.Chain.Merged

namespace Namecoin

theorem doStrictChecks_max (env : Env) : doStrictChecks env intMax = true := by
  cases h : env.fTestNet <;> simp [doStrictChecks, h, intMax]

theorem auxPowStart_le_strict {env : Env} {nHeight : Nat} (h : doStrictChecks env nHeight = true) :
    getAuxPowStartBlock env ≤ nHeight := by
  unfold doStrictChecks at h
  unfold getAuxPowStartBlock
  split at h
  · next htest => simp [htest]
  · next htest =>
    rw [if_neg htest]
    have hle := of_decide_eq_true h
    omega

def CBlock.nestedAuxPow (b : CBlock) : Prop :=
  ∃ a, b.auxpow = some a ∧ hasAuxPowVersion a.parent.nVersion = true

def CBlock.StrictlyFit (env : Env) (b : CBlock) : Prop :=
  checkDbLockLimit env b.vtx = true ∧ ¬b.nestedAuxPow

theorem CBlock.checkProofOfWork_max {env : Env} {b : CBlock} {nHeight : Nat}
    (h : b.checkProofOfWork env nHeight = true) :
    b.checkProofOfWork env intMax = true ↔ ¬b.nestedAuxPow := by
  have hstart : getAuxPowStartBlock env ≤ intMax := auxPowStart_le_strict (doStrictChecks_max env)
  unfold CBlock.checkProofOfWork at h ⊢
  unfold CBlock.nestedAuxPow
  simp only [hstart, if_true, doStrictChecks_max, beq_self_eq_true, Bool.or_true, Bool.true_or,
    Bool.true_and]
  cases hb : b.auxpow with
  | none =>
    simp only [hb, Option.isNone_none, Bool.true_and] at h ⊢
    have hpow : Namecoin.checkProofOfWork env (b.toCBlockHeader.getHash env) b.nBits = true := by
      split at h
      · exact (Bool.and_eq_true _ _ ▸ h).2
      · exact h
    rw [hpow]
    refine iff_of_true rfl ?_
    rintro ⟨a, ha, -⟩
    cases ha
  | some a =>
    simp only [hb, Option.isNone_some, Bool.false_and] at h ⊢
    have hrest : a.check env (b.toCBlockHeader.getHash env) b.toCBlockHeader.getChainID = true ∧
        Namecoin.checkProofOfWork env (a.parent.getHash env) b.nBits = true := by
      split at h
      · simp only [Bool.and_eq_true] at h
        exact ⟨h.2.1.2, h.2.2⟩
      · cases h
    rw [hrest.1, hrest.2]
    simp

theorem CBlock.strictlyFit_of_strict {env : Env} {b : CBlock} {nNow : Int} {nHeight : Nat}
    (h : b.checkBlock env nNow nHeight = .ok ()) (hstrict : doStrictChecks env nHeight = true) :
    b.StrictlyFit env := by
  simp only [checkBlock, Except.bind_eq_ok, Except.raiseIf_eq_ok] at h
  obtain ⟨-, -, -, hlock, -, hpow, -⟩ := h
  refine ⟨?_, ?_⟩
  · by_contra hno
    exact hlock ⟨hstrict, hno⟩
  · rintro ⟨a, ha, hnested⟩
    have hpow' := not_not.mp hpow
    unfold CBlock.checkProofOfWork at hpow'
    simp only [auxPowStart_le_strict hstrict, if_true, ha, hstrict, hnested, Bool.and_self,
      Bool.not_true, Bool.false_and, Bool.and_false] at hpow'
    cases hpow'

theorem CBlock.checkBlock_max {env : Env} {b : CBlock} {nNow : Int} {nHeight : Nat}
    (h : b.checkBlock env nNow nHeight = .ok ()) :
    b.checkBlock env nNow intMax = .ok () ↔ b.StrictlyFit env := by
  simp only [checkBlock, Except.bind_eq_ok, Except.raiseIf_eq_ok] at h ⊢
  obtain ⟨u, hsize, v, -, w, hpow, hrest⟩ := h
  have hmax := checkProofOfWork_max (not_not.mp hpow)
  constructor
  · rintro ⟨-, -, -, hlock, -, hpow', -⟩
    refine ⟨?_, hmax.mp (not_not.mp hpow')⟩
    by_contra hno
    exact hlock ⟨doStrictChecks_max env, hno⟩
  · rintro ⟨hlock, hplain⟩
    exact ⟨u, hsize, v, fun hbad => hbad.2 hlock, w, not_not.mpr (hmax.mpr hplain), hrest⟩

theorem precheck_passes_iff {env : Env} {b : CBlock} {nNow : Int} {nHeight : Nat}
    (h : b.checkBlock env nNow nHeight = .ok ()) :
    b.checkBlock env nNow intMax = .ok () ↔
      doStrictChecks env nHeight = true ∨ b.StrictlyFit env := by
  rw [CBlock.checkBlock_max h]
  constructor
  · exact .inr
  · rintro (hstrict | hfit)
    · exact CBlock.strictlyFit_of_strict h hstrict
    · exact hfit

theorem precheck_passes_sample :
    (sampleBlock 1 [sampleCoinbase 1]).checkBlock sampleEnv 10000 20000 = .ok () ∧
      (sampleBlock 1 [sampleCoinbase 1]).checkBlock sampleEnv 10000 intMax = .ok () := by
  have hcheck : (sampleBlock 1 [sampleCoinbase 1]).checkBlock sampleEnv 10000 20000 = .ok () := by
    decide +kernel
  refine ⟨hcheck, (precheck_passes_iff hcheck).mpr (.inr ⟨by decide +kernel, ?_⟩)⟩
  rintro ⟨a, ha, -⟩
  cases ha

def nestedHeader : CBlock :=
  let b := sampleBlock 1 [sampleCoinbase 1]
  { b with nVersion := 65793 }

def nestedCoinbase : CTransaction :=
  let root := checkMerkleBranch sampleEnv (nestedHeader.toCBlockHeader.getHash sampleEnv) [5]
    mergedIndex
  let aux := (serHash root).reverse ++ leBytes 4 2 ++ leBytes 4 0
  ⟨1, [⟨COutPoint.null, pchMergedMiningHeader ++ aux, uintMax⟩], [⟨coin, []⟩], 0⟩

def nestedBlock : CBlock :=
  { nestedHeader with auxpow := some (.mk ⟨nestedCoinbase, 0, [], 0⟩ [5] mergedIndex
      ⟨257, 0, nestedCoinbase.getHash sampleEnv, 1, 0x1d00ffff, 0⟩ [] (some (mergedWork 0))) }

theorem precheck_rejects_nested :
    nestedBlock.checkBlock sampleEnv 10000 20000 = .ok () ∧
      nestedBlock.checkBlock sampleEnv 10000 intMax ≠ .ok () := by
  refine ⟨by decide +kernel, by decide +kernel⟩

end Namecoin
