import Namecoin.Node.Retarget

namespace Namecoin

def nProofOfWorkLimit (env : Env) : Nat := getCompact (bnProofOfWorkLimit env)

def lastBoundary (pindexLast : CBlockIndex) : Nat := pindexLast.nHeight / nInterval * nInterval

def AllMinimum (nLimit : Nat) (walk : List CBlockIndex) (pindexLast : CBlockIndex) : Prop :=
  ∀ pindex ∈ walk, lastBoundary pindexLast ≤ pindex.nHeight → pindex.nBits = nLimit

structure LastNormal (nLimit : Nat) (walk : List CBlockIndex) (pindexLast pindex : CBlockIndex) :
    Prop where
  mem : pindex ∈ walk
  since : lastBoundary pindexLast ≤ pindex.nHeight
  normal : pindex.nBits ≠ nLimit
  latest : ∀ q ∈ walk, pindex.nHeight < q.nHeight → q.nBits = nLimit

structure TestNetRule (env : Env) (walk : List CBlockIndex) (pindexLast : CBlockIndex)
    (pblock : CBlockHeader) (nBits : Nat) : Prop where
  minimum : nBits = nProofOfWorkLimit env →
    pindexLast.nTime + 1200 < pblock.nTime ∨ AllMinimum (nProofOfWorkLimit env) walk pindexLast
  normal : nBits ≠ nProofOfWorkLimit env →
    ∃ pindex, LastNormal (nProofOfWorkLimit env) walk pindexLast pindex ∧ nBits = pindex.nBits

structure TestNetCandidate (env : Env) (walk : List CBlockIndex) (pindexLast : CBlockIndex)
    (pblock : CBlockHeader) : Prop where
  testNet : env.fTestNet = true
  chain : FromGenesis walk
  last : walk.head? = some pindexLast
  between : (pindexLast.nHeight + 1) % nInterval ≠ 0
  special : 1394838000 < pblock.nTime
  lastTime : pindexLast.nTime < 2 ^ 32
  blockTime : pblock.nTime < 2 ^ 32

section Chain

variable {env : Env} {walk : List CBlockIndex} {pindexLast pindex q : CBlockIndex} {nLimit : Nat}
  {pblock : CBlockHeader}

theorem FromGenesis.tail (h : FromGenesis (pindex :: walk)) : FromGenesis walk := by
  intro i p hi
  have hnext := h (i + 1) p hi
  rw [List.length_cons] at hnext
  omega

theorem FromGenesis.head_height (h : FromGenesis (pindex :: walk)) :
    pindex.nHeight = walk.length := by
  have hhead := h 0 pindex rfl
  rw [List.length_cons] at hhead
  omega

theorem FromGenesis.mem_height (h : FromGenesis walk) (hmem : q ∈ walk) :
    q.nHeight < walk.length := by
  obtain ⟨i, hi⟩ := List.mem_iff_getElem?.mp hmem
  have hheight := h i q hi
  omega

theorem lastBoundary_le (pindexLast : CBlockIndex) : lastBoundary pindexLast ≤ pindexLast.nHeight :=
  Nat.div_mul_le_self _ _

theorem lastBoundary_boundary (h : pindexLast.nHeight % nInterval = 0) :
    lastBoundary pindexLast = pindexLast.nHeight := Nat.div_mul_cancel (Nat.dvd_of_mod_eq_zero h)

theorem lastBoundary_prev (h : pindexLast.nHeight % nInterval ≠ 0)
    (hprev : pindex.nHeight + 1 = pindexLast.nHeight) :
    lastBoundary pindex = lastBoundary pindexLast := by
  unfold lastBoundary nInterval at *
  omega

theorem allMinimum_boundary (h : FromGenesis (pindexLast :: walk))
    (hboundary : lastBoundary pindexLast = pindexLast.nHeight) (hbits : pindexLast.nBits = nLimit) :
    AllMinimum nLimit (pindexLast :: walk) pindexLast := by
  intro p hmem hsince
  rcases List.mem_cons.mp hmem with rfl | hrest
  · exact hbits
  · have hheight := h.head_height
    have hbelow := h.tail.mem_height hrest
    omega

theorem lastNormal_head (h : FromGenesis (pindexLast :: walk)) (hbits : pindexLast.nBits ≠ nLimit) :
    LastNormal nLimit (pindexLast :: walk) pindexLast pindexLast where
  mem := List.mem_cons_self
  since := lastBoundary_le pindexLast
  normal := hbits
  latest := by
    intro p hmem habove
    have hheight := h.head_height
    have htop := h.mem_height hmem
    rw [List.length_cons] at htop
    omega

theorem lastNormalBits_cases (nLimit : Nat) (h : FromGenesis walk) (hlast : walk.head? = some pindexLast) :
    (AllMinimum nLimit walk pindexLast ∧ lastNormalBits nLimit walk = nLimit) ∨
      ∃ p, LastNormal nLimit walk pindexLast p ∧ lastNormalBits nLimit walk = p.nBits := by
  induction walk generalizing pindexLast with
  | nil => cases hlast
  | cons p rest ih =>
    obtain rfl : p = pindexLast := Option.some.inj hlast
    cases rest with
    | nil =>
      have hheight : p.nHeight = 0 := h.head_height
      rcases eq_or_ne p.nBits nLimit with hbits | hbits
      · refine .inl ⟨allMinimum_boundary h (lastBoundary_boundary ?_) hbits, hbits⟩
        rw [hheight]
        rfl
      · exact .inr ⟨p, lastNormal_head h hbits, rfl⟩
    | cons q rest =>
      have hstep : lastNormalBits nLimit (p :: q :: rest) =
          if p.nHeight % nInterval ≠ 0 ∧ p.nBits = nLimit then lastNormalBits nLimit (q :: rest)
          else p.nBits := rfl
      rw [hstep]
      split
      · rename_i hspecial
        have hp := h.head_height
        have hq := h.tail.head_height
        rw [List.length_cons] at hp
        have hsame : lastBoundary q = lastBoundary p := lastBoundary_prev hspecial.1 (by omega)
        rcases ih h.tail rfl with ⟨hall, hbits⟩ | ⟨x, hx, hbits⟩
        · refine .inl ⟨fun y hy hsince => ?_, hbits⟩
          rcases List.mem_cons.mp hy with rfl | hrest
          · exact hspecial.2
          · exact hall y hrest (by rwa [hsame])
        · refine .inr ⟨x, ⟨List.mem_cons_of_mem _ hx.mem, ?_, hx.normal, fun y hy habove => ?_⟩, hbits⟩
          · rw [← hsame]
            exact hx.since
          · rcases List.mem_cons.mp hy with rfl | hrest
            · exact hspecial.2
            · exact hx.latest y hrest habove
      · rename_i hstop
        rcases eq_or_ne p.nBits nLimit with hbits | hbits
        · have hboundary : p.nHeight % nInterval = 0 := by
            by_contra hne
            exact hstop ⟨hne, hbits⟩
          exact .inl ⟨allMinimum_boundary h (lastBoundary_boundary hboundary) hbits, hbits⟩
        · exact .inr ⟨p, lastNormal_head h hbits, rfl⟩

theorem TestNetCandidate.next (h : TestNetCandidate env walk pindexLast pblock) :
    getNextWorkRequired env walk pblock = .ok
      (if pblock.nTime < pindexLast.nTime ∨ pindexLast.nTime + 1200 < pblock.nTime then
        nProofOfWorkLimit env
      else lastNormalBits (nProofOfWorkLimit env) walk) := by
  have hlast := h.last
  cases walk with
  | nil => cases hlast
  | cons p rest =>
    obtain rfl : p = pindexLast := Option.some.inj hlast
    have hl := h.lastTime
    have hb := h.blockTime
    have hs := h.special
    -- the subtraction of two unsigned times wraps below zero
    have hwrap : nTargetSpacing * 2 < ((pblock.nTime : Int) - p.nTime) % 2 ^ 32 ↔
        pblock.nTime < p.nTime ∨ p.nTime + 1200 < pblock.nTime := by
      unfold nTargetSpacing
      omega
    rw [getNextWorkRequired]
    dsimp only
    rw [if_pos h.between, if_pos ⟨h.testNet, hs⟩]
    split
    · rename_i hlong
      rw [if_pos (hwrap.mp hlong)]
      rfl
    · rename_i hshort
      rw [if_neg (fun hlong => hshort (hwrap.mpr hlong))]
      rfl

theorem testNetRule_iff (env : Env) (walk : List CBlockIndex) (pindexLast : CBlockIndex)
    (pblock : CBlockHeader) (h : TestNetCandidate env walk pindexLast pblock) :
    ∃ nBits, getNextWorkRequired env walk pblock = .ok nBits ∧
      (TestNetRule env walk pindexLast pblock nBits ↔
        pindexLast.nTime ≤ pblock.nTime ∨
          AllMinimum (nProofOfWorkLimit env) walk pindexLast) := by
  refine ⟨_, h.next, ?_⟩
  split
  · rename_i hlong
    constructor
    · intro hrule
      rcases hrule.minimum rfl with hlate | hall
      · exact .inl (by omega)
      · exact .inr hall
    · intro hwhen
      refine ⟨fun _ => ?_, fun hne => absurd rfl hne⟩
      rcases hwhen with hforward | hall
      · exact .inl (by omega)
      · exact .inr hall
  · rename_i hshort
    have hforward : pindexLast.nTime ≤ pblock.nTime := by omega
    refine iff_of_true ?_ (.inl hforward)
    rcases lastNormalBits_cases (nProofOfWorkLimit env) h.chain h.last with
      ⟨hall, hbits⟩ | ⟨x, hx, hbits⟩
    · exact ⟨fun _ => .inr hall, fun hne => absurd hbits hne⟩
    · refine ⟨fun hlimit => ?_, fun _ => ⟨x, hx, hbits⟩⟩
      rw [hbits] at hlimit
      exact absurd hlimit hx.normal

end Chain

def testChainEnv : Env := { sampleEnv with fTestNet := true }

def testChainIndex (nHeight nTime : Nat) : CBlockIndex :=
  { spacedIndex 1 nHeight with nTime := nTime, nBits := 0x1d07fff8 }

def testChain : List CBlockIndex :=
  [testChainIndex 2 1394838200, testChainIndex 1 1394838100, testChainIndex 0 1296688602]

def testChainBlock (nTime : Nat) : CBlockHeader := ⟨1, 2, 0, nTime, 0, 0⟩

theorem testChain_fromGenesis : FromGenesis testChain := by
  have hnone : FromGenesis [] := by simp [FromGenesis]
  exact ((hnone.cons rfl).cons rfl).cons rfl

theorem testChain_candidate {nTime : Nat} (hspecial : 1394838000 < nTime) (hfits : nTime < 2 ^ 32) :
    TestNetCandidate testChainEnv testChain (testChainIndex 2 1394838200) (testChainBlock nTime) where
  testNet := rfl
  chain := testChain_fromGenesis
  last := rfl
  between := by decide
  special := hspecial
  lastTime := by decide
  blockTime := hfits

theorem testNetRule_forward :
    ∃ nBits, getNextWorkRequired testChainEnv testChain (testChainBlock 1394838300) = .ok nBits ∧
      TestNetRule testChainEnv testChain (testChainIndex 2 1394838200)
        (testChainBlock 1394838300) nBits := by
  obtain ⟨nBits, hnext, hrule⟩ := testNetRule_iff testChainEnv testChain _
    (testChainBlock 1394838300) (testChain_candidate (by decide) (by decide))
  exact ⟨nBits, hnext, hrule.mpr (.inl (by decide))⟩

theorem testNetRule_backward :
    getMedianTimePast testChain < (testChainBlock 1394838150).nTime ∧
    ∃ nBits, getNextWorkRequired testChainEnv testChain (testChainBlock 1394838150) = .ok nBits ∧
      TestNetCandidate testChainEnv testChain (testChainIndex 2 1394838200)
        (testChainBlock 1394838150) ∧
      ¬TestNetRule testChainEnv testChain (testChainIndex 2 1394838200)
        (testChainBlock 1394838150) nBits := by
  refine ⟨by decide +kernel, nProofOfWorkLimit testChainEnv, by decide +kernel,
    testChain_candidate (by decide) (by decide), fun hrule => ?_⟩
  rcases hrule.minimum rfl with hlate | hall
  · exact absurd hlate (by decide)
  · have hbits := hall (testChainIndex 2 1394838200) List.mem_cons_self (by decide)
    exact absurd hbits (by decide +kernel)

end Namecoin
