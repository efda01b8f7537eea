import Namecoin.Lib.Significand
import Namecoin.Chain.Run
import Namecoin.Node.Tree

namespace Namecoin

open Significand

theorem unit_eq (n : Nat) : unit 8 3 n = 256 ^ (width 8 n - 3) := by
  rw [unit, Nat.pow_mul]

theorem setCompact_word {nSize mant : Nat} (hmant : mant < 2 ^ 23) :
    setCompact (nSize * 2 ^ 24 + mant) =
      (if nSize ≤ 3 then mant / 256 ^ (3 - nSize) else mant * 256 ^ (nSize - 3) : Nat) := by
  have hsize : (nSize * 2 ^ 24 + mant) / 2 ^ 24 = nSize := by omega
  have hword : (nSize * 2 ^ 24 + mant) % 2 ^ 24 = mant := by omega
  have hsign : ¬2 ^ 23 ≤ mant := by omega
  rw [setCompact, hsize, hword, if_neg hsign, Nat.mod_eq_of_lt hmant]

theorem getCompact_pos {n : Nat} (hpos : n ≠ 0) :
    getCompact (n : Int) = width 8 n * 2 ^ 24 +
      if 3 ≤ width 8 n then n / 256 ^ (width 8 n - 3) else n * 256 ^ (3 - width 8 n) := by
  have hsign : ¬(n : Int) < 0 := by omega
  unfold getCompact
  rw [Int.natAbs_natCast, if_neg hsign]
  exact (if_neg hpos).trans (Nat.add_zero _)

theorem mantissa_lt (n : Nat) :
    (if 3 ≤ width 8 n then n / 256 ^ (width 8 n - 3) else n * 256 ^ (3 - width 8 n)) < 2 ^ 23 := by
  have hlt := lt_of_width (w := 8) (n := n) (by decide)
  split
  · next hwide =>
    have hdigits := digits_lt (w := 8) (n := n) (by decide) hwide
    rwa [unit_eq] at hdigits
  · have hone : 1 ≤ width 8 n := Nat.le_add_left 1 _
    rcases (by omega : width 8 n = 1 ∨ width 8 n = 2) with hw | hw
    · rw [hw] at hlt ⊢
      omega
    · rw [hw] at hlt ⊢
      omega

theorem setCompact_getCompact (n : Nat) :
    setCompact (getCompact (n : Int)) = (roundDown 8 3 n : Nat) := by
  rcases eq_or_ne n 0 with rfl | hpos
  · rfl
  rw [getCompact_pos hpos, setCompact_word (mantissa_lt n)]
  by_cases hwide : 3 ≤ width 8 n
  · rw [if_pos hwide, roundDown, unit_eq]
    rcases hwide.eq_or_lt with hthree | hmore
    · rw [← hthree]
      simp
    · rw [if_neg (by omega)]
  · rw [if_neg hwide, if_pos (by omega), Nat.mul_div_cancel _ (Nat.pow_pos (by decide)),
      roundDown_of_narrow (by omega)]

theorem setCompact_getCompact_mono {n m : Int} (hn : 0 ≤ n) (h : n ≤ m) :
    setCompact (getCompact n) ≤ setCompact (getCompact m) := by
  obtain ⟨a, rfl⟩ := Int.eq_ofNat_of_zero_le hn
  obtain ⟨b, rfl⟩ := Int.eq_ofNat_of_zero_le (hn.trans h)
  rw [setCompact_getCompact, setCompact_getCompact]
  exact Int.ofNat_le.mpr (roundDown_mono (by decide) (by decide) (Int.ofNat_le.mp h))

theorem setCompact_getCompact_le {n : Int} (hn : 0 ≤ n) : setCompact (getCompact n) ≤ n := by
  obtain ⟨a, rfl⟩ := Int.eq_ofNat_of_zero_le hn
  rw [setCompact_getCompact]
  exact Int.ofNat_le.mpr (roundDown_le 8 3 a)

def limitTimespan (nActualTimespan : Int) : Int :=
  min (max nActualTimespan (nTargetTimespan / 4)) (nTargetTimespan * 4)

def retargetTo (env : Env) (bnTarget nActualTimespan : Int) : Int :=
  min ((bnTarget * limitTimespan nActualTimespan).tdiv nTargetTimespan) (bnProofOfWorkLimit env)

theorem retarget_eq (env : Env) (pindexLast pindexFirst : CBlockIndex) :
    retarget env pindexLast pindexFirst = getCompact (retargetTo env (setCompact pindexLast.nBits)
      ((pindexLast.nTime : Int) - pindexFirst.nTime)) := rfl

theorem limitTimespan_mono {a b : Int} (h : a ≤ b) : limitTimespan a ≤ limitTimespan b :=
  min_le_min_right _ (max_le_max_right _ h)

theorem limitTimespan_bounds (a : Int) :
    nTargetTimespan / 4 ≤ limitTimespan a ∧ limitTimespan a ≤ nTargetTimespan * 4 :=
  ⟨le_min (le_max_right _ _) (by decide), min_le_right _ _⟩

section Retarget

variable {env : Env} {bnTarget a b : Int}

theorem bnProofOfWorkLimit_nonneg (env : Env) : 0 ≤ bnProofOfWorkLimit env := by
  unfold bnProofOfWorkLimit
  split <;> decide

theorem scaled_eq (hpos : 0 < bnTarget) (a : Int) :
    (bnTarget * limitTimespan a).tdiv nTargetTimespan =
      bnTarget * limitTimespan a / nTargetTimespan := by
  have hspan : 0 ≤ limitTimespan a := le_trans (by decide) (limitTimespan_bounds a).1
  exact Int.tdiv_eq_ediv_of_nonneg (Int.mul_nonneg hpos.le hspan)

theorem retargetTo_mono (hpos : 0 < bnTarget) (h : a ≤ b) :
    retargetTo env bnTarget a ≤ retargetTo env bnTarget b := by
  rw [retargetTo, retargetTo, scaled_eq hpos, scaled_eq hpos]
  refine min_le_min_right _ (Int.ediv_le_ediv (by decide) ?_)
  exact Int.mul_le_mul_of_nonneg_left (limitTimespan_mono h) hpos.le

theorem retargetTo_ge (hpos : 0 < bnTarget) (a : Int) :
    min (bnTarget / 4) (bnProofOfWorkLimit env) ≤ retargetTo env bnTarget a := by
  rw [retargetTo, scaled_eq hpos]
  refine min_le_min_right _ ?_
  have hle : bnTarget * (nTargetTimespan / 4) ≤ bnTarget * limitTimespan a :=
    Int.mul_le_mul_of_nonneg_left (limitTimespan_bounds a).1 hpos.le
  have hdiv := Int.ediv_le_ediv (c := nTargetTimespan) (by decide) hle
  have hquarter : bnTarget * (nTargetTimespan / 4) / nTargetTimespan = bnTarget / 4 := by
    simp only [nTargetTimespan]
    omega
  rwa [hquarter] at hdiv

theorem retargetTo_le (hpos : 0 < bnTarget) (a : Int) : retargetTo env bnTarget a ≤ 4 * bnTarget := by
  rw [retargetTo, scaled_eq hpos]
  refine (min_le_left _ _).trans ?_
  have hle : bnTarget * limitTimespan a ≤ bnTarget * (nTargetTimespan * 4) :=
    Int.mul_le_mul_of_nonneg_left (limitTimespan_bounds a).2 hpos.le
  have hdiv := Int.ediv_le_ediv (c := nTargetTimespan) (by decide) hle
  have hfour : bnTarget * (nTargetTimespan * 4) / nTargetTimespan = 4 * bnTarget := by
    simp only [nTargetTimespan]
    omega
  rwa [hfour] at hdiv

theorem retargetTo_nonneg (hpos : 0 < bnTarget) (a : Int) : 0 ≤ retargetTo env bnTarget a := by
  refine le_trans (le_min ?_ (bnProofOfWorkLimit_nonneg env)) (retargetTo_ge hpos a)
  omega

end Retarget

def FromGenesis (walk : List CBlockIndex) : Prop :=
  ∀ i pindex, walk[i]? = some pindex → pindex.nHeight + i + 1 = walk.length

theorem FromGenesis.cons {p : CBlockIndex} {walk : List CBlockIndex} (h : FromGenesis walk)
    (hheight : p.nHeight = walk.length) : FromGenesis (p :: walk) := by
  intro i pindex hi
  rw [List.length_cons]
  cases i with
  | zero =>
    obtain rfl : p = pindex := Option.some.inj hi
    omega
  | succ i =>
    have hrest := h i pindex hi
    omega

theorem Rooted.fromGenesis {m : BlockMap} {genesis : Uint256} (h : Rooted m genesis)
    {x : Uint256} (hx : (m x).isSome) :
    FromGenesis (pprevWalk m (heightOf m x + 1) (some x)) ∧
      (pprevWalk m (heightOf m x + 1) (some x)).length = heightOf m x + 1 := by
  induction hn : heightOf m x generalizing x with
  | zero =>
    obtain ⟨p, hp⟩ := Option.isSome_iff_exists.mp hx
    have hheight : p.nHeight = 0 := by simpa [heightOf, hp] using hn
    have hwalk : pprevWalk m (0 + 1) (some x) = [p] := by simp [pprevWalk, hp]
    rw [hwalk]
    exact ⟨FromGenesis.cons (by simp [FromGenesis]) hheight, rfl⟩
  | succ n ih =>
    obtain ⟨p, hp⟩ := Option.isSome_iff_exists.mp hx
    have hheight : p.nHeight = n + 1 := by simpa [heightOf, hp] using hn
    have hother : x ≠ genesis := by
      rintro rfl
      rw [h.heightOf_genesis] at hn
      cases hn
    obtain ⟨q, pq, hprev, hq, hnext⟩ := h.parent x p hp hother
    have hqn : heightOf m q = n := by
      simp only [heightOf, hq, Option.map_some, Option.getD_some]
      omega
    obtain ⟨hrest, hlen⟩ := ih (by simp [hq]) hqn
    rw [pprevWalk_cons hp, hprev, List.length_cons, hlen]
    exact ⟨hrest.cons (hheight.trans hlen.symm), rfl⟩

def nBlocksBack (env : Env) (pindexLast : CBlockIndex) : Nat :=
  if getFullRetargetStartBlock env ≤ pindexLast.nHeight ∧ nInterval < pindexLast.nHeight + 1
  then nInterval else nInterval - 1

structure Retargets (env : Env) (walk : List CBlockIndex) (pindexLast : CBlockIndex) : Prop where
  chain : FromGenesis walk
  last : walk.head? = some pindexLast
  due : (pindexLast.nHeight + 1) % nInterval = 0
  positive : 0 < setCompact pindexLast.nBits
  limited : setCompact pindexLast.nBits ≤ bnProofOfWorkLimit env

section Chain

variable {env : Env} {walk : List CBlockIndex} {pindexLast : CBlockIndex}

theorem Retargets.first (h : Retargets env walk pindexLast) :
    ∃ pindexFirst, walk[nBlocksBack env pindexLast]? = some pindexFirst := by
  have hlen := h.chain 0 pindexLast (by rw [← h.last, List.head?_eq_getElem?])
  have hdue := h.due
  have hinside : nBlocksBack env pindexLast < walk.length := by
    unfold nBlocksBack nInterval at *
    split <;> omega
  exact ⟨walk[nBlocksBack env pindexLast], List.getElem?_eq_getElem hinside⟩

theorem Retargets.next (h : Retargets env walk pindexLast) {pindexFirst : CBlockIndex}
    (hfirst : walk[nBlocksBack env pindexLast]? = some pindexFirst) (pblock : CBlockHeader) :
    getNextWorkRequired env walk pblock = .ok (retarget env pindexLast pindexFirst) := by
  have hlast := h.last
  unfold getNextWorkRequired
  cases walk with
  | nil => cases hlast
  | cons p rest =>
    obtain rfl : p = pindexLast := Option.some.inj hlast
    dsimp only
    rw [if_neg (not_not.mpr h.due)]
    unfold nBlocksBack at hfirst
    rw [hfirst]

theorem retarget_bounded (h : Retargets env walk pindexLast) (pblock : CBlockHeader) :
    ∃ pindexFirst nBits, walk[nBlocksBack env pindexLast]? = some pindexFirst ∧
      getNextWorkRequired env walk pblock = .ok nBits ∧
      setCompact nBits ≤ bnProofOfWorkLimit env ∧
      setCompact nBits ≤ 4 * setCompact pindexLast.nBits ∧
      setCompact (getCompact (min (setCompact pindexLast.nBits / 4) (bnProofOfWorkLimit env))) ≤
        setCompact nBits ∧
      ∀ walk' pblock' pindexLast' pindexFirst' nBits', Retargets env walk' pindexLast' →
        pindexLast'.nBits = pindexLast.nBits →
        walk'[nBlocksBack env pindexLast']? = some pindexFirst' →
        getNextWorkRequired env walk' pblock' = .ok nBits' →
        (pindexLast.nTime : Int) - pindexFirst.nTime ≤ pindexLast'.nTime - pindexFirst'.nTime →
          setCompact nBits ≤ setCompact nBits' := by
  obtain ⟨pindexFirst, hfirst⟩ := h.first
  have hpos := h.positive
  refine ⟨pindexFirst, _, hfirst, h.next hfirst pblock, ?_⟩
  rw [retarget_eq]
  have hnonneg := @retargetTo_nonneg env _ hpos
    ((pindexLast.nTime : Int) - pindexFirst.nTime)
  have hround := setCompact_getCompact_le hnonneg
  refine ⟨hround.trans (min_le_right _ _), hround.trans (retargetTo_le hpos _), ?_, ?_⟩
  · refine setCompact_getCompact_mono ?_ (retargetTo_ge hpos _)
    exact le_min (by omega) (bnProofOfWorkLimit_nonneg env)
  · intro walk' pblock' pindexLast' pindexFirst' nBits' h' hbits hfirst' hnext' hspan
    obtain rfl := Except.ok.inj ((h'.next hfirst' pblock').symm.trans hnext')
    rw [retarget_eq, hbits]
    exact setCompact_getCompact_mono hnonneg (retargetTo_mono hpos hspan)

end Chain

def spacedIndex (nSpacing nHeight : Nat) : CBlockIndex where
  hashBlock := nHeight
  pprev := if nHeight = 0 then none else some (nHeight - 1 : Nat)
  pnext := none
  nFile := 1
  nBlockPos := nHeight
  nHeight := nHeight
  bnChainWork := 0
  nVersion := 1
  hashMerkleRoot := 0
  nTime := nSpacing * nHeight
  nBits := 0x1c00ffff
  nNonce := 0

def spacedWalk (nSpacing n : Nat) : List CBlockIndex :=
  ((List.range n).map (spacedIndex nSpacing)).reverse

theorem spacedWalk_succ (nSpacing n : Nat) :
    spacedWalk nSpacing (n + 1) = spacedIndex nSpacing n :: spacedWalk nSpacing n := by
  simp [spacedWalk, List.range_succ]

theorem spacedWalk_fromGenesis (nSpacing n : Nat) : FromGenesis (spacedWalk nSpacing n) := by
  induction n with
  | zero => simp [FromGenesis, spacedWalk]
  | succ n ih =>
    rw [spacedWalk_succ]
    exact ih.cons (by simp [spacedWalk, spacedIndex])

theorem spacedWalk_retargets (nSpacing : Nat) :
    Retargets sampleEnv (spacedWalk nSpacing 4032) (spacedIndex nSpacing 4031) where
  chain := spacedWalk_fromGenesis nSpacing 4032
  last := by rw [spacedWalk_succ, List.head?_cons]
  due := show (4031 + 1) % 2016 = 0 by decide
  positive := show 0 < setCompact 0x1c00ffff by decide
  limited := show setCompact 0x1c00ffff ≤ bnProofOfWorkLimit sampleEnv by decide

theorem fastChain_retargets :
    ∃ nBits, getNextWorkRequired sampleEnv (spacedWalk 150 4032) ⟨1, 0, 0, 0, 0, 0⟩ = .ok nBits ∧
      setCompact (getCompact (setCompact 0x1c00ffff / 4)) ≤ setCompact nBits := by
  obtain ⟨pindexFirst, nBits, -, hnext, -, -, hge, -⟩ :=
    retarget_bounded (spacedWalk_retargets 150) ⟨1, 0, 0, 0, 0, 0⟩
  refine ⟨nBits, hnext, ?_⟩
  have hquarter : min (setCompact (spacedIndex 150 4031).nBits / 4) (bnProofOfWorkLimit sampleEnv) =
      setCompact 0x1c00ffff / 4 := by decide
  rwa [hquarter] at hge

end Namecoin
