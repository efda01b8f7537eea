import Namecoin.Lib.Merkle
import Namecoin.Data.Bytes
import Namecoin.Chain.Search
import Namecoin.Chain.Run

namespace Namecoin

def branchPath : List Uint256 → Int → List (Bool × Uint256)
  | [], _ => []
  | otherside :: rest, nIndex =>
    (decide (nIndex % 2 = 1), otherside) :: branchPath rest (nIndex / 2)

def branchInputs (env : Env) (hash : Uint256) (branch : List Uint256) (nIndex : Int) :
    List (List UInt8) :=
  (Merkle.combined (hashPair env) hash (branchPath branch nIndex)).map
    fun p => serHash p.1 ++ serHash p.2

theorem foldBranch_eq_climb (env : Env) (hash : Uint256) (branch : List Uint256) (nIndex : Int) :
    foldBranch env hash branch nIndex =
      Merkle.climb (hashPair env) hash (branchPath branch nIndex) := by
  induction branch generalizing hash nIndex with
  | nil => rfl
  | cons otherside rest ih =>
    by_cases hodd : nIndex % 2 = 1
    · simp [foldBranch, branchPath, Merkle.climb, Merkle.orient, hodd, ih, Function.uncurry]
    · simp [foldBranch, branchPath, Merkle.climb, Merkle.orient, hodd, ih, Function.uncurry]

theorem ediv_two_emod {i i' : Int} {n : Nat} (h : i % 2 ^ (n + 1) = i' % 2 ^ (n + 1)) :
    i % 2 = i' % 2 ∧ i / 2 % 2 ^ n = i' / 2 % 2 ^ n := by
  have hlow : i % 2 = i' % 2 := by
    rw [← Int.emod_emod_of_dvd i (dvd_pow_self 2 (Nat.succ_ne_zero n)), h,
      Int.emod_emod_of_dvd i' (dvd_pow_self 2 (Nat.succ_ne_zero n))]
  refine ⟨hlow, ?_⟩
  obtain ⟨c, hc⟩ := Int.ModEq.dvd h
  have hhalf : i' / 2 - i / 2 = 2 ^ n * c := by
    rw [pow_succ', mul_assoc] at hc
    omega
  exact Int.modEq_iff_dvd.mpr ⟨c, hhalf⟩

theorem branchPath_sides {b b' : List Uint256} {i i' : Int} (hlen : b.length = b'.length)
    (hmod : i % 2 ^ b.length = i' % 2 ^ b.length) :
    (branchPath b i).map Prod.fst = (branchPath b' i').map Prod.fst := by
  induction b generalizing b' i i' with
  | nil =>
    obtain rfl : b' = [] := List.length_eq_zero_iff.mp hlen.symm
    rfl
  | cons o b ih =>
    cases b' with
    | nil => cases hlen
    | cons o' b' =>
      obtain ⟨hlow, hhigh⟩ := ediv_two_emod hmod
      simp only [branchPath, List.map_cons, hlow]
      rw [ih (Nat.succ.inj hlen) hhigh]

theorem serPair_injective :
    Function.Injective fun p : Uint256 × Uint256 => serHash p.1 ++ serHash p.2 := by
  rintro ⟨a, b⟩ ⟨c, d⟩ h
  obtain ⟨hleft, hright⟩ := List.append_inj h (by simp)
  exact Prod.ext (serHash_injective hleft) (serHash_injective hright)

theorem foldBranch_injOn {env : Env} {h h' : Uint256} {b b' : List Uint256} {i i' : Int}
    (hlen : b.length = b'.length) (hmod : i % 2 ^ b.length = i' % 2 ^ b.length)
    (hinj : Set.InjOn env.hash {x | x ∈ branchInputs env h b i ∨ x ∈ branchInputs env h' b' i'})
    (heq : foldBranch env h b i = foldBranch env h' b' i') : h = h' := by
  rw [foldBranch_eq_climb, foldBranch_eq_climb] at heq
  refine Merkle.climb_injOn (hashPair env) (branchPath_sides hlen hmod) ?_ heq
  intro p hp q hq hpq
  have hin : ∀ r, (r ∈ Merkle.combined (hashPair env) h (branchPath b i) ∨
      r ∈ Merkle.combined (hashPair env) h' (branchPath b' i')) →
      serHash r.1 ++ serHash r.2 ∈
        {x | x ∈ branchInputs env h b i ∨ x ∈ branchInputs env h' b' i'} := by
    rintro r (hr | hr)
    · exact .inl (List.mem_map_of_mem hr)
    · exact .inr (List.mem_map_of_mem hr)
  exact serPair_injective (hinj (hin p hp) (hin q hq) hpq)

theorem auxSlot_lt {nNonce : Nat} {nChainID : Int} {nSize : Nat} (h : 0 < nSize) :
    auxSlot nNonce nChainID nSize < nSize := Nat.mod_lt _ h

def headerPlaced (script : CScript) (pc : Nat) : Bool :=
  match search pchMergedMiningHeader script 0 with
  | some pcHead =>
    (search pchMergedMiningHeader (script.drop (pcHead + 1)) 0).isNone &&
      pcHead + pchMergedMiningHeader.length == pc
  | none => decide (pc ≤ 20)

structure AuxPlaced (script : CScript) (root : List UInt8) (nBranch : Nat) (nChainIndex : Int)
    (nChainID : Int) (pc : Nat) : Prop where
  root_found : search root script 0 = some pc
  long_enough : 8 ≤ (script.drop (pc + root.length)).length
  size_eq : leNat ((script.drop (pc + root.length)).take 4) = 2 ^ nBranch
  index_eq : (nChainIndex % 2 ^ 32).toNat =
    auxSlot (leNat (((script.drop (pc + root.length)).drop 4).take 4)) nChainID (2 ^ nBranch)

theorem checkAuxScript_iff {script : CScript} {root : List UInt8} {nBranch : Nat}
    {nChainIndex nChainID : Int} :
    checkAuxScript script root nBranch nChainIndex nChainID = true ↔
      ∃ pc, AuxPlaced script root nBranch nChainIndex nChainID pc ∧
        headerPlaced script pc = true := by
  unfold checkAuxScript
  split
  · next hnone =>
    constructor
    · intro h
      cases h
    · rintro ⟨pc, hplaced, -⟩
      cases hnone.symm.trans hplaced.root_found
  · next pc hroot =>
    simp only [Bool.and_eq_true, beq_iff_eq, decide_eq_true_eq]
    constructor
    · rintro ⟨⟨⟨hhead, hlong⟩, hsize⟩, hindex⟩
      exact ⟨pc, ⟨hroot, hlong, hsize, hindex⟩, hhead⟩
    · rintro ⟨pc', ⟨hroot', hlong, hsize, hindex⟩, hhead⟩
      obtain rfl : pc = pc' := Option.some.inj (hroot.symm.trans hroot')
      exact ⟨⟨⟨hhead, hlong⟩, hsize⟩, hindex⟩

theorem checkAuxScript_placed {script : CScript} {root : List UInt8} {nBranch pcHead : Nat}
    {nChainIndex nChainID : Int} (hhead : search pchMergedMiningHeader script 0 = some pcHead)
    (h : checkAuxScript script root nBranch nChainIndex nChainID = true) :
    ∃ tail, script.drop (pcHead + 4) = root ++ tail ∧ leNat (tail.take 4) = 2 ^ nBranch ∧
      (nChainIndex % 2 ^ 32).toNat =
        auxSlot (leNat ((tail.drop 4).take 4)) nChainID (2 ^ nBranch) := by
  obtain ⟨pc, ⟨hroot, -, hsize, hindex⟩, hplaced⟩ := checkAuxScript_iff.mp h
  simp only [headerPlaced, hhead, Bool.and_eq_true, beq_iff_eq] at hplaced
  obtain ⟨pre, post, hscript, hpos⟩ := search_some hroot
  have htail : script.drop (pc + root.length) = post := by
    have hskip : pc + root.length = (pre ++ root).length := by simp [hpos]
    rw [hskip, hscript, List.drop_left]
  rw [htail] at hsize hindex
  refine ⟨post, ?_, hsize, hindex⟩
  have hpre : pcHead + 4 = pre.length := by
    have hheader : pchMergedMiningHeader.length = 4 := rfl
    omega
  rw [hpre, hscript, List.append_assoc, List.drop_left]

def CAuxPow.merkleTx : CAuxPow → CMerkleTx
  | .mk m _ _ _ _ _ => m

def CAuxPow.vChainMerkleBranch : CAuxPow → List Uint256
  | .mk _ branch _ _ _ _ => branch

def CAuxPow.nChainIndex : CAuxPow → Int
  | .mk _ _ nChainIndex _ _ _ => nChainIndex

def CAuxPow.chainRoot (env : Env) (a : CAuxPow) (hashAuxBlock : Uint256) : Uint256 :=
  checkMerkleBranch env hashAuxBlock a.vChainMerkleBranch a.nChainIndex

def CAuxPow.chainInputs (env : Env) (a : CAuxPow) (hashAuxBlock : Uint256) : List (List UInt8) :=
  branchInputs env hashAuxBlock a.vChainMerkleBranch a.nChainIndex

theorem CAuxPow.check_script {env : Env} {a : CAuxPow} {hashAuxBlock : Uint256} {nChainID : Int}
    {txin : CTxIn} {rest : List CTxIn} (hvin : a.merkleTx.tx.vin = txin :: rest)
    (h : a.check env hashAuxBlock nChainID = true) :
    a.vChainMerkleBranch.length ≤ 30 ∧
      checkAuxScript txin.scriptSig (serHash (a.chainRoot env hashAuxBlock)).reverse
        a.vChainMerkleBranch.length a.nChainIndex nChainID = true := by
  obtain ⟨m, branch, nChainIndex, parent, vtx, auxpow⟩ := a
  simp only [CAuxPow.merkleTx] at hvin
  simp only [CAuxPow.check, hvin, Bool.and_eq_true, decide_eq_true_eq] at h
  exact ⟨h.1.1.2, h.2⟩

theorem ne_neg_one_of_slot {i : Int} {nNonce : Nat} {nChainID : Int} {n : Nat} (hn : n ≤ 30)
    (h : (i % 2 ^ 32).toNat = auxSlot nNonce nChainID (2 ^ n)) : i ≠ -1 := by
  have hpow : 2 ^ n ≤ 2 ^ 30 := Nat.pow_le_pow_right (by decide) hn
  have hlt : auxSlot nNonce nChainID (2 ^ n) < 2 ^ n := auxSlot_lt (Nat.two_pow_pos n)
  rintro rfl
  have hval : ((-1 : Int) % 2 ^ 32).toNat = 2 ^ 32 - 1 := by decide
  omega

theorem aux_work_counts_once {env : Env} {nChainID : Int} {a a' : CAuxPow} {h h' : Uint256}
    {txin : CTxIn} {rest : List CTxIn} (hcoinbase : a.merkleTx.tx = a'.merkleTx.tx)
    (hvin : a.merkleTx.tx.vin = txin :: rest)
    (hheader : pchMergedMiningHeader <:+: txin.scriptSig)
    (hinj : Set.InjOn env.hash {x | x ∈ a.chainInputs env h ∨ x ∈ a'.chainInputs env h'})
    (hcheck : a.check env h nChainID = true) (hcheck' : a'.check env h' nChainID = true) :
    h = h' := by
  obtain ⟨pcHead, hhead⟩ := search_of_contained hheader 0
  obtain ⟨hle, hscript⟩ := CAuxPow.check_script hvin hcheck
  obtain ⟨hle', hscript'⟩ := CAuxPow.check_script (hcoinbase ▸ hvin) hcheck'
  obtain ⟨tail, hdrop, hsize, hindex⟩ := checkAuxScript_placed hhead hscript
  obtain ⟨tail', hdrop', hsize', hindex'⟩ := checkAuxScript_placed hhead hscript'
  obtain ⟨hroot, rfl⟩ := List.append_inj (hdrop.symm.trans hdrop') (by simp)
  have hlen : a.vChainMerkleBranch.length = a'.vChainMerkleBranch.length :=
    Nat.pow_right_injective (le_refl 2) (hsize.symm.trans hsize')
  rw [← hlen] at hindex'
  have hslot : a.nChainIndex % 2 ^ 32 = a'.nChainIndex % 2 ^ 32 := by
    have heq := hindex.trans hindex'.symm
    omega
  have hmod : a.nChainIndex % 2 ^ a.vChainMerkleBranch.length =
      a'.nChainIndex % 2 ^ a.vChainMerkleBranch.length := by
    have hdvd : (2 : Int) ^ a.vChainMerkleBranch.length ∣ 2 ^ 32 := pow_dvd_pow 2 (by omega)
    rw [← Int.emod_emod_of_dvd _ hdvd, hslot, Int.emod_emod_of_dvd _ hdvd]
  have hfold : foldBranch env h a.vChainMerkleBranch a.nChainIndex =
      foldBranch env h' a'.vChainMerkleBranch a'.nChainIndex := by
    have hchain := serHash_injective (List.reverse_injective hroot)
    rwa [CAuxPow.chainRoot, CAuxPow.chainRoot, checkMerkleBranch, checkMerkleBranch,
      if_neg (ne_neg_one_of_slot hle hindex), if_neg (ne_neg_one_of_slot hle hindex')] at hchain
  exact foldBranch_injOn hlen hmod hinj hfold

def mergedIndex : Int := auxSlot 0 getOurChainID 2

def mergedCoinbase : CTransaction :=
  let root := checkMerkleBranch sampleEnv 7 [5] mergedIndex
  let aux := (serHash root).reverse ++ leBytes 4 2 ++ leBytes 4 0
  ⟨1, [⟨COutPoint.null, pchMergedMiningHeader ++ aux, uintMax⟩], [⟨coin, []⟩], 0⟩

def mergedWork (nNonce : Nat) : CAuxPow :=
  .mk ⟨mergedCoinbase, 0, [], 0⟩ [5] mergedIndex
    ⟨1, 0, mergedCoinbase.getHash sampleEnv, 1, 0x1d00ffff, nNonce⟩ [] none

theorem mergedWork_chainInputs (nNonce : Nat) :
    (mergedWork nNonce).chainInputs sampleEnv 7 = [serHash 5 ++ serHash 7] := by
  have hone : branchInputs sampleEnv 7 [5] mergedIndex = [serHash 5 ++ serHash 7] := by
    decide +kernel
  exact hone

theorem mergedWork_counts_once :
    (mergedWork 0).check sampleEnv 7 getOurChainID = true ∧
      (mergedWork 1).check sampleEnv 7 getOurChainID = true ∧ (7 : Uint256) = 7 := by
  have hcheck : (mergedWork 0).check sampleEnv 7 getOurChainID = true := by decide +kernel
  have hcheck' : (mergedWork 1).check sampleEnv 7 getOurChainID = true := by decide +kernel
  refine ⟨hcheck, hcheck', @aux_work_counts_once _ _ (mergedWork 0) (mergedWork 1) _ _ _ _
    rfl rfl ⟨[], _, rfl⟩ ?_ hcheck hcheck'⟩
  rw [mergedWork_chainInputs, mergedWork_chainInputs]
  rintro x (hx | hx) y (hy | hy) _
  all_goals rw [List.mem_singleton.mp hx, List.mem_singleton.mp hy]

end Namecoin
