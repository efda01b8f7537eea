import Namecoin.Mining.Handout

namespace Namecoin

open Act Reading

section Search

def occurrences (pat s : List UInt8) : List Nat :=
  (List.range s.length).filter (fun p => pat.isPrefixOf (s.drop p))

def startsEarly (root : List UInt8) (d : Nat) : Bool :=
  root.isPrefixOf (pchMergedMiningHeader.drop (4 - d) ++ root)

theorem mem_occurrences {pat s : List UInt8} {p : Nat} (hpat : pat ≠ []) :
    p ∈ occurrences pat s ↔ pat <+: s.drop p := by
  simp only [occurrences, List.mem_filter, List.mem_range, List.isPrefixOf_iff_prefix,
    and_iff_right_iff_imp]
  intro h
  have hlen := h.length_le
  have hpos : 0 < pat.length := List.length_pos_iff.mpr hpat
  rw [List.length_drop] at hlen
  omega

theorem occurrence_unique {pat s : List UInt8} {p q : Nat} (hpat : pat ≠ [])
    (h : (occurrences pat s).length = 1) (hp : pat <+: s.drop p) (hq : pat <+: s.drop q) : p = q := by
  obtain ⟨x, hx⟩ := List.length_eq_one_iff.mp h
  have hp' := (mem_occurrences hpat).mpr hp
  have hq' := (mem_occurrences hpat).mpr hq
  rw [hx, List.mem_singleton] at hp' hq'
  rw [hp', hq']

theorem search_eq {pat s : List UInt8} {p : Nat} (hp : pat <+: s.drop p)
    (hfirst : ∀ q < p, ¬pat <+: s.drop q) : search pat s 0 = some p := by
  obtain ⟨k, hk⟩ := search_of_contained (hp.isInfix.trans (List.drop_suffix p s).isInfix) 0
  obtain ⟨pre, post, hs, hpos⟩ := search_some hk
  have hat : pat <+: s.drop k := by
    rw [hs, hpos, zero_add, List.append_assoc, List.drop_left]
    exact List.prefix_append _ _
  rcases Nat.lt_trichotomy k p with hlt | rfl | hgt
  · exact absurd hat (hfirst k hlt)
  · exact hk
  · exact absurd hp (search_first hk p (by omega))

theorem headerPlaced_once {pre rest : List UInt8}
    (h : (occurrences pchMergedMiningHeader (pre ++ (pchMergedMiningHeader ++ rest))).length = 1) :
    headerPlaced (pre ++ (pchMergedMiningHeader ++ rest)) (pre.length + 4) = true := by
  have hne : pchMergedMiningHeader ≠ [] := by decide
  have hat : pchMergedMiningHeader <+: (pre ++ (pchMergedMiningHeader ++ rest)).drop pre.length := by
    rw [List.drop_left]
    exact List.prefix_append _ _
  have hsearch : search pchMergedMiningHeader (pre ++ (pchMergedMiningHeader ++ rest)) 0 =
      some pre.length := by
    apply search_eq hat
    intro q hq hqat
    have := occurrence_unique hne h hqat hat
    omega
  have hnone : search pchMergedMiningHeader
      ((pre ++ (pchMergedMiningHeader ++ rest)).drop (pre.length + 1)) 0 = none := by
    cases hagain : search pchMergedMiningHeader
        ((pre ++ (pchMergedMiningHeader ++ rest)).drop (pre.length + 1)) 0 with
    | none => rfl
    | some k =>
      obtain ⟨pre', post, hs, hpos⟩ := search_some hagain
      have hkat : pchMergedMiningHeader <+:
          (pre ++ (pchMergedMiningHeader ++ rest)).drop (pre.length + 1 + pre'.length) := by
        rw [← List.drop_drop, hs, List.append_assoc, List.drop_left]
        exact List.prefix_append _ _
      have := occurrence_unique hne h hkat hat
      omega
  simp only [headerPlaced, hsearch, hnone]
  simp [pchMergedMiningHeader]

theorem root_not_before {pre root tail : List UInt8} (hpre : pre.length ≤ 28)
    (hroot : root.length = 32)
    (honce : (occurrences pchMergedMiningHeader
      (pre ++ (pchMergedMiningHeader ++ (root ++ tail)))).length = 1)
    (hclear : ∀ d, 1 ≤ d → d ≤ 3 → startsEarly root d = false) {q : Nat} (hq : q < pre.length + 4) :
    ¬root <+: (pre ++ (pchMergedMiningHeader ++ (root ++ tail))).drop q := by
  intro hat
  have hheader : pchMergedMiningHeader.length = 4 := rfl
  have hne : pchMergedMiningHeader ≠ [] := by decide
  obtain ⟨post, hpost⟩ := hat
  rcases Nat.lt_or_ge pre.length q with hin | hout
  · let d := pre.length + 4 - q
    have hdrop : (pre ++ (pchMergedMiningHeader ++ (root ++ tail))).drop q =
        pchMergedMiningHeader.drop (4 - d) ++ root ++ tail := by
      have hsplit : q = pre.length + (4 - d) := by omega
      rw [hsplit, ← List.drop_drop, List.drop_left, List.drop_append_of_le_length (by omega),
        List.append_assoc]
    have hearly := hclear d (by omega) (by omega)
    rw [hdrop] at hpost
    have hprefix : root <+: pchMergedMiningHeader.drop (4 - d) ++ root :=
      List.prefix_of_prefix_length_le ⟨post, hpost⟩ (List.prefix_append _ _) (by
        rw [List.length_append]
        omega)
    rw [startsEarly, List.isPrefixOf_iff_prefix.mpr hprefix] at hearly
    cases hearly
  · have hmagic : pchMergedMiningHeader <+: root.drop (pre.length - q) := by
      have hrest : root.drop (pre.length - q) ++ post =
          pchMergedMiningHeader ++ (root ++ tail) := by
        have hskip := congrArg (List.drop (pre.length - q)) hpost
        rw [List.drop_append_of_le_length (by omega), List.drop_drop] at hskip
        rw [hskip, show q + (pre.length - q) = pre.length by omega, List.drop_left]
      apply List.prefix_of_prefix_length_le ⟨root ++ tail, hrest.symm⟩ (List.prefix_append _ post)
      rw [List.length_drop]
      omega
    have hfirst : pchMergedMiningHeader <+:
        (pre ++ (pchMergedMiningHeader ++ (root ++ tail))).drop pre.length := by
      rw [List.drop_left]
      exact List.prefix_append _ _
    have hsecond : pchMergedMiningHeader <+:
        (pre ++ (pchMergedMiningHeader ++ (root ++ tail))).drop
          (pre.length + (4 + (pre.length - q))) := by
      rw [← List.drop_drop, List.drop_left, ← List.drop_drop, List.drop_left' hheader,
        List.drop_append_of_le_length (by omega)]
      exact hmagic.trans (List.prefix_append _ _)
    have := occurrence_unique hne honce hfirst hsecond
    omega

end Search

section Script

theorem pushUint64_length (n : Nat) : (pushUint64 n).length ≤ 10 := by
  have hvch := bigNumVch_length n
  unfold pushUint64
  split
  · simp
  · rw [pushData, if_pos (by have : opPushdata1 = 76 := rfl; omega), List.length_cons]
    omega

theorem makeCoinbaseWithAux_split (nBits nExtraNonce : Nat) {vchAux : VchType}
    (hlen : vchAux.length = 40) :
    ∃ pre, pre.length ≤ 28 ∧
      makeCoinbaseWithAux nBits nExtraNonce vchAux = pre ++ (pchMergedMiningHeader ++ vchAux) := by
  have hheader : pchMergedMiningHeader.length = 4 := rfl
  have hbits := pushUint64_length nBits
  have hnonce := pushUint64_length nExtraNonce
  refine ⟨pushUint64 nBits ++ (pushUint64 nExtraNonce ++ [UInt8.ofNat op2, 44]), ?_, ?_⟩
  · simp only [List.length_append, List.length_cons, List.length_nil]
    omega
  · have hpush : pushData (pchMergedMiningHeader ++ vchAux) = 44 :: (pchMergedMiningHeader ++ vchAux) := by
      have hsize : (pchMergedMiningHeader ++ vchAux).length = 44 := by
        rw [List.length_append]
        omega
      rw [pushData, hsize]
      rfl
    simp only [makeCoinbaseWithAux, hpush, List.append_assoc, List.cons_append, List.nil_append]

def auxCommitment (root : Uint256) (nBranch nNonce : Nat) : VchType :=
  (serHash root).reverse ++ (leBytes 4 (2 ^ nBranch) ++ leBytes 4 nNonce)

theorem auxCommitment_length (root : Uint256) (nBranch nNonce : Nat) :
    (auxCommitment root nBranch nNonce).length = 40 := by
  simp [auxCommitment]

theorem checkAuxScript_make {nBits nExtraNonce nBranch nNonce : Nat} {root : Uint256}
    {nChainID : Int} (hbranch : nBranch ≤ 30) (hnonce : nNonce < 2 ^ 32)
    (honce : (occurrences pchMergedMiningHeader (makeCoinbaseWithAux nBits nExtraNonce
      (auxCommitment root nBranch nNonce))).length = 1)
    (hclear : ∀ d, 1 ≤ d → d ≤ 3 → startsEarly (serHash root).reverse d = false) :
    checkAuxScript (makeCoinbaseWithAux nBits nExtraNonce (auxCommitment root nBranch nNonce))
      (serHash root).reverse nBranch (auxSlot nNonce nChainID (2 ^ nBranch)) nChainID = true := by
  have hroot : (serHash root).reverse.length = 32 := by simp
  obtain ⟨pre, hpre, hscript⟩ := makeCoinbaseWithAux_split nBits nExtraNonce
    (auxCommitment_length root nBranch nNonce)
  rw [hscript] at honce ⊢
  have hplaced := headerPlaced_once honce
  rw [auxCommitment] at honce
  have hfirst : search (serHash root).reverse (pre ++ (pchMergedMiningHeader ++
      ((serHash root).reverse ++ (leBytes 4 (2 ^ nBranch) ++ leBytes 4 nNonce)))) 0 =
        some (pre.length + 4) := by
    refine search_eq ?_ (fun q hq => root_not_before hpre hroot honce hclear hq)
    have hheader : pchMergedMiningHeader.length = 4 := rfl
    rw [← List.drop_drop, List.drop_left, List.drop_left' hheader]
    exact List.prefix_append _ _
  refine checkAuxScript_iff.mpr ⟨pre.length + 4, ?_, hplaced⟩
  have htail := @auxTail_placed (serHash root).reverse nBranch nNonce nChainID hbranch hnonce
    (pre ++ pchMergedMiningHeader) []
  simp only [List.append_nil, List.append_assoc, List.length_append] at htail
  exact htail hfirst

end Script

section Proof

variable {env : Env} {t : BlockTemplate} {scriptSig : CScript} {nTime nNonce : Nat}

theorem setMerkleBranch_coinbase (t : BlockTemplate) (scriptSig : CScript) (nTime nNonce : Nat) :
    CWallet.setMerkleBranch env (t.coinbase scriptSig) (t.block env scriptSig nTime nNonce) =
      ⟨t.coinbase scriptSig, (t.block env scriptSig nTime nNonce).toCBlockHeader.getHash env,
        (t.block env scriptSig nTime nNonce).getMerkleBranch env 0, 0⟩ := by
  have hfind : (t.block env scriptSig nTime nNonce).vtx.findIdx?
      (fun tx => decide (tx = t.coinbase scriptSig)) = some 0 := by
    simp [BlockTemplate.block, List.findIdx?_cons]
  rw [CWallet.setMerkleBranch, hfind]
  rfl

theorem coinbase_under_root (t : BlockTemplate) (scriptSig : CScript) (nTime nNonce : Nat) :
    checkMerkleBranch env ((t.coinbase scriptSig).getHash env)
        ((t.block env scriptSig nTime nNonce).getMerkleBranch env 0) 0 =
      (t.block env scriptSig nTime nNonce).hashMerkleRoot := by
  have hleaf : (txHashes env (t.block env scriptSig nTime nNonce).vtx)[0]? =
      some ((t.coinbase scriptSig).getHash env) := rfl
  have hbranch := CBlock.getMerkleBranch_eq env (t.block env scriptSig nTime nNonce) 0
  have hlen : (txHashes env (t.block env scriptSig nTime nNonce).vtx).length =
      (t.block env scriptSig nTime nNonce).vtx.length := List.length_map _
  rw [← hlen] at hbranch
  have hroot := merkleBranch_root hleaf hbranch
  have hbuilt : (t.block env scriptSig nTime nNonce).hashMerkleRoot =
      (t.block env scriptSig nTime nNonce).buildMerkleTree env := rfl
  rw [hbuilt, CBlock.buildMerkleTree_eq, hroot, Option.getD_some]
  rfl

theorem merkleBranchOf_length (levels : List (List Uint256)) (nIndex : Nat) :
    (merkleBranchOf levels nIndex).length ≤ levels.length := by
  induction levels generalizing nIndex with
  | nil => exact Nat.le_refl 0
  | cons l rest ih =>
    rw [merkleBranchOf]
    split
    · simp
    · rw [List.length_cons, List.length_cons]
      exact Nat.succ_le_succ (ih (nIndex / 2))

theorem merkleLevels_length (env : Env) (fuel : Nat) (l : List Uint256) :
    (merkleLevels env fuel l).length ≤ fuel + 1 := by
  induction fuel generalizing l with
  | zero => exact Nat.le_refl 1
  | succ fuel ih =>
    rw [merkleLevels]
    split
    · simp
    · rw [List.length_cons]
      exact Nat.succ_le_succ (ih (nextLevel env l))

theorem coinbase_fits (t : BlockTemplate) (hscript : scriptSig.length ≤ maxSize) :
    (t.coinbase scriptSig).Fits := by
  have hmax : 1 ≤ maxSize := by decide
  have hversion : IntFits 32 1 := by decide
  have hzero : UIntFits 32 0 := by decide
  have htop : UIntFits 32 uintMax := by decide
  refine ⟨hversion, hmax, ?_, hmax, ?_, hzero⟩
  · rintro txin hin
    obtain rfl := List.mem_singleton.mp hin
    exact ⟨htop, hscript, htop⟩
  · rintro txout hout
    obtain rfl := List.mem_singleton.mp hout
    exact ⟨t.nValue_fits, t.scriptPubKey_le⟩

def provedBy (env : Env) (t : BlockTemplate) (scriptSig : CScript) (nTime nNonce : Nat)
    (vtx : List CTransaction) (vChainMerkleBranch : List Uint256) (nChainIndex : Int) : CAuxPow :=
  .mk ⟨t.coinbase scriptSig, (t.block env scriptSig nTime nNonce).toCBlockHeader.getHash env,
    (t.block env scriptSig nTime nNonce).getMerkleBranch env 0, 0⟩ vChainMerkleBranch nChainIndex
    (t.block env scriptSig nTime nNonce).toCBlockHeader vtx none

theorem auxPowOf_block (t : BlockTemplate) (scriptSig : CScript) (nTime nNonce : Nat)
    (vChainMerkleBranch : List Uint256) (nChainIndex : Int) :
    auxPowOf env (t.block env scriptSig nTime nNonce) vChainMerkleBranch nChainIndex =
      some (provedBy env t scriptSig nTime nNonce (t.block env scriptSig nTime nNonce).vtx
        vChainMerkleBranch nChainIndex) := by
  rw [provedBy, ← setMerkleBranch_coinbase]
  rfl

theorem provedBy_fits {vChainMerkleBranch : List Uint256} {nChainIndex : Int}
    (hscript : scriptSig.length ≤ maxSize) (hbranch : vChainMerkleBranch.length ≤ 30)
    (hindex : IntFits 32 nChainIndex) (htime : UIntFits 32 nTime) (hnonce : UIntFits 32 nNonce) :
    (provedBy env t scriptSig nTime nNonce [] vChainMerkleBranch nChainIndex).Fits := by
  have hmax : maxSize = 0x02000000 := rfl
  have hrest := t.rest_lt
  have hlen : ((t.block env scriptSig nTime nNonce).getMerkleBranch env 0).length ≤ maxSize := by
    have hfirst := merkleBranchOf_length ((t.block env scriptSig nTime nNonce).levels env) 0
    have hsecond := merkleLevels_length env (t.block env scriptSig nTime nNonce).vtx.length
      (txHashes env (t.block env scriptSig nTime nNonce).vtx)
    have hvtx : (t.block env scriptSig nTime nNonce).vtx.length = t.rest.length + 1 := rfl
    rw [CBlock.getMerkleBranch]
    rw [CBlock.levels] at hfirst ⊢
    omega
  have hzero : IntFits 32 0 := by decide
  have hversion : IntFits 32 blockVersionDefault := by decide
  have hplain : hasAuxPowVersion blockVersionDefault = false := by decide
  simp only [provedBy, CAuxPow.Fits, AuxPowFits]
  refine ⟨⟨coinbase_fits t hscript, hlen, hzero⟩, by omega, hindex, ?_, ?_, hplain⟩
  · exact ⟨hversion, htime, t.nBits_lt, hnonce⟩
  · exact ⟨Nat.zero_le _, fun tx htx => absurd htx List.not_mem_nil⟩

theorem parseAuxPow_hex {a : CAuxPow} (h : a.Fits) : parseAuxPow a.hex = some (a.reduced, []) := by
  have hread := CAuxPow.reads a (serGetHash ||| serBlockHeaderOnly)
    ((a.serialize (serGetHash ||| serBlockHeaderOnly)).length + 1) h (Nat.lt_succ_self _) []
  rw [List.append_nil] at hread
  rw [parseAuxPow, CAuxPow.hex, parseHex_flatMap, CAuxPow.unserialize]
  exact hread

theorem provedBy_hex (vtx : List CTransaction) (vChainMerkleBranch : List Uint256)
    (nChainIndex : Int) :
    (provedBy env t scriptSig nTime nNonce vtx vChainMerkleBranch nChainIndex).hex =
      (provedBy env t scriptSig nTime nNonce [] vChainMerkleBranch nChainIndex).hex := by
  simp only [CAuxPow.hex, provedBy, CAuxPow.serialize, serBlock_parent]

theorem provedBy_check {hashAuxBlock : Uint256} {vChainMerkleBranch : List Uint256}
    {nChainIndex nChainID : Int} (hbranch : vChainMerkleBranch.length ≤ 30)
    (hchain : env.fTestNet = true ∨ nChainID ≠ getOurChainID)
    (hscript : checkAuxScript scriptSig
      (serHash (checkMerkleBranch env hashAuxBlock vChainMerkleBranch nChainIndex)).reverse
      vChainMerkleBranch.length nChainIndex nChainID = true) :
    (provedBy env t scriptSig nTime nNonce [] vChainMerkleBranch nChainIndex).check env hashAuxBlock
      nChainID = true := by
  have hparent : (t.block env scriptSig nTime nNonce).toCBlockHeader.getChainID = getOurChainID := by
    have hdefault : blockVersionDefault.tdiv blockVersionChainStart = getOurChainID := by decide
    exact hdefault
  have hid : (env.fTestNet || getOurChainID != nChainID) = true := by
    rcases hchain with htest | hother
    · rw [htest, Bool.true_or]
    · simp [Ne.symm hother]
  have hroot := @coinbase_under_root env t scriptSig nTime nNonce
  have hroot' : checkMerkleBranch env ((t.coinbase scriptSig).getHash env)
      ((t.block env scriptSig nTime nNonce).getMerkleBranch env 0) 0 =
      (t.block env scriptSig nTime nNonce).toCBlockHeader.hashMerkleRoot := hroot
  simp only [provedBy, CAuxPow.check, hparent, hid, hroot', beq_self_eq_true, hbranch,
    decide_true, Bool.and_self, Bool.true_and]
  exact hscript

end Proof

namespace AuxWork

structure Requested (env : Env) (w : AuxWork) (b : CBlock) (hashAuxBlock : Uint256)
    (vChainMerkleBranch : List Uint256) (nNonce : Nat) (nChainID : Int) : Prop where
  nonce : nNonce < 2 ^ 32
  aux : w.vchAux = auxCommitment (checkMerkleBranch env hashAuxBlock vChainMerkleBranch
    (auxSlot nNonce nChainID (2 ^ vChainMerkleBranch.length))) vChainMerkleBranch.length nNonce
  once : (occurrences pchMergedMiningHeader b.coinbaseScript).length = 1

structure Checkable (env : Env) (hashAuxBlock : Uint256) (vChainMerkleBranch : List Uint256)
    (nNonce : Nat) (nChainID : Int) : Prop where
  short : vChainMerkleBranch.length ≤ 30
  chainID : env.fTestNet = true ∨ nChainID ≠ getOurChainID
  clear : ∀ d, 1 ≤ d → d ≤ 3 → startsEarly (serHash (checkMerkleBranch env hashAuxBlock
    vChainMerkleBranch (auxSlot nNonce nChainID (2 ^ vChainMerkleBranch.length)))).reverse d = false

def Proves (env : Env) (b : CBlock) (hashAuxBlock : Uint256) (vChainMerkleBranch : List Uint256)
    (nNonce : Nat) (nChainID : Int) : Prop :=
  ∃ pow pow', auxPowOf env b vChainMerkleBranch
      (auxSlot nNonce nChainID (2 ^ vChainMerkleBranch.length)) = some pow ∧
    parseAuxPow pow.hex = some (pow', []) ∧ pow'.check env hashAuxBlock nChainID = true

structure Rebuilt (w : AuxWork) (b : CBlock) : Prop where
  nVersion : b.nVersion = w.header.nVersion
  hashPrevBlock : b.hashPrevBlock = w.header.hashPrevBlock
  hashMerkleRoot : b.hashMerkleRoot = w.header.hashMerkleRoot
  nBits : b.nBits = w.header.nBits

end AuxWork

theorem readUInt_lt {k n : Nat} {s rest : List UInt8} (h : readUInt k s = some (n, rest)) :
    n < 256 ^ k := by
  obtain ⟨b, s', hraw, hpure⟩ := bind_some.mp h
  obtain ⟨rfl, -⟩ := Prod.mk.inj (Option.some.inj hpure)
  rw [← raw_some hraw]
  exact leNat_lt b

theorem CBlockHeader.unserialize_fits {s rest : List UInt8} {b : CBlockHeader}
    (h : CBlockHeader.unserialize s = some (b, rest)) :
    UIntFits 32 b.nTime ∧ UIntFits 32 b.nNonce := by
  simp only [CBlockHeader.unserialize, bind_some] at h
  obtain ⟨_, _, -, _, _, -, _, _, -, nTime, _, htime, _, _, -, nNonce, _, hnonce, hpure⟩ := h
  obtain ⟨rfl, -⟩ := Prod.mk.inj (Option.some.inj hpure)
  exact ⟨readUInt_lt htime, readUInt_lt hnonce⟩

theorem proves_of_checkable {env : Env} {t : BlockTemplate} {w : AuxWork} {n nTime nNonce' : Nat}
    {hashAuxBlock : Uint256} {vChainMerkleBranch : List Uint256} {nNonce : Nat} {nChainID : Int}
    (htime : UIntFits 32 nTime) (hnonce : UIntFits 32 nNonce')
    (hrequest : w.Requested env (t.block env (t.aux n w.vchAux) nTime nNonce') hashAuxBlock
      vChainMerkleBranch nNonce nChainID)
    (hcheck : AuxWork.Checkable env hashAuxBlock vChainMerkleBranch nNonce nChainID) :
    AuxWork.Proves env (t.block env (t.aux n w.vchAux) nTime nNonce') hashAuxBlock
      vChainMerkleBranch nNonce nChainID := by
  obtain ⟨hlow, haux, honce⟩ := hrequest
  obtain ⟨hshort, hchain, hclear⟩ := hcheck
  have hslot : auxSlot nNonce nChainID (2 ^ vChainMerkleBranch.length) <
      2 ^ vChainMerkleBranch.length := auxSlot_lt (Nat.two_pow_pos _)
  have hpow : 2 ^ vChainMerkleBranch.length ≤ 2 ^ 30 := Nat.pow_le_pow_right (by decide) hshort
  have hindex : IntFits 32 (auxSlot nNonce nChainID (2 ^ vChainMerkleBranch.length)) := by
    constructor <;> omega
  have hscript : (t.aux n w.vchAux).length ≤ maxSize := by
    have hlen : w.vchAux.length = 40 := by rw [haux, auxCommitment_length]
    obtain ⟨pre, hpre, hsplit⟩ := makeCoinbaseWithAux_split t.nBits n hlen
    have hmax : maxSize = 0x02000000 := rfl
    have hheader : pchMergedMiningHeader.length = 4 := rfl
    rw [BlockTemplate.aux, hsplit]
    simp only [List.length_append]
    omega
  refine ⟨_, (provedBy env t (t.aux n w.vchAux) nTime nNonce' [] vChainMerkleBranch
    (auxSlot nNonce nChainID (2 ^ vChainMerkleBranch.length))),
    auxPowOf_block t (t.aux n w.vchAux) nTime nNonce' _ _, ?_, ?_⟩
  · rw [provedBy_hex, parseAuxPow_hex (provedBy_fits hscript hshort hindex htime hnonce)]
    rfl
  · refine provedBy_check hshort hchain ?_
    have hown : (t.block env (t.aux n w.vchAux) nTime nNonce').coinbaseScript =
        makeCoinbaseWithAux t.nBits n w.vchAux := rfl
    rw [hown, haux] at honce
    rw [BlockTemplate.aux, haux]
    exact checkAuxScript_make hshort hlow honce hclear

namespace MinerRun

structure Submission where
  call : MinerCall
  ready : call.checkReady = .ok ()
  vchData : List UInt8
  length : vchData.length = 128
  pdata : CBlockHeader
  pchPadding : List UInt8
  parsed : CBlockHeader.unserialize (byteReverse vchData) = some (pdata, pchPadding)

def Issued (r : MinerRun) (q : Submission) : Prop :=
  ∃ w ∈ r.works, w.header.hashMerkleRoot = q.pdata.hashMerkleRoot

theorem Issued.latest {r : MinerRun} {q : Submission} (h : r.Issued q) :
    ∃ w, r.latest q.pdata.hashMerkleRoot = some w := by
  obtain ⟨w, hw, hroot⟩ := h
  refine Option.isSome_iff_exists.mp (List.find?_isSome.mpr ⟨w, hw, ?_⟩)
  exact decide_eq_true hroot

theorem submitwork_latest {env : Env} {r : MinerRun} {q : Submission} {w : AuxWork}
    (hr : Ok env r) (hw : r.latest q.pdata.hashMerkleRoot = some w) :
    ∃ (t : BlockTemplate) (n : Nat) (m : AuxMiner),
      exec (AuxMiner.submitwork env q.call q.vchData) r.miner = (.ok (some
        (t.block env (t.aux n w.vchAux) q.pdata.nTime q.pdata.nNonce, w.vchAux)), m) ∧
      w.Rebuilt (t.block env (t.aux n w.vchAux) q.pdata.nTime q.pdata.nNonce) := by
  have hroot : w.header.hashMerkleRoot = q.pdata.hashMerkleRoot := by
    simpa using List.find?_some (show List.find? _ r.works = some w from hw)
  obtain ⟨i, n, t, hentry⟩ := hr.entries _ w hw
  have hmapped := hentry.mapped
  rw [hroot] at hmapped
  have hrebuilt : w.Rebuilt (t.block env (t.aux n w.vchAux) q.pdata.nTime q.pdata.nNonce) :=
    ⟨hentry.nVersion.symm, hentry.hashPrevBlock.symm, hentry.root, hentry.nBits.symm⟩
  refine ⟨t, n, r.miner.setBlock i
    (t.block env (t.aux n w.vchAux) q.pdata.nTime q.pdata.nNonce), ?_, hrebuilt⟩
  unfold AuxMiner.submitwork
  rw [q.ready, exec_bind_ok (show exec (fromExcept (.ok ())) r.miner = (.ok (), r.miner) from rfl),
    exec_raiseIf_bind, if_neg (not_not.mpr q.length), q.parsed]
  exact reconstruct_spec hmapped hentry.held

theorem issued_work_proves (env : Env) (events : List MinerEvent)
    (hsound : AllSound env MinerRun.start events) (q : Submission)
    (hissued : (run env events).Issued q) :
    ∃ w b m, (run env events).latest q.pdata.hashMerkleRoot = some w ∧
      exec (AuxMiner.submitwork env q.call q.vchData) (run env events).miner =
        (.ok (some (b, w.vchAux)), m) ∧
      w.Rebuilt b ∧
      ∀ (hashAuxBlock : Uint256) (vChainMerkleBranch : List Uint256) (nNonce : Nat) (nChainID : Int),
        w.Requested env b hashAuxBlock vChainMerkleBranch nNonce nChainID →
        AuxWork.Checkable env hashAuxBlock vChainMerkleBranch nNonce nChainID →
        AuxWork.Proves env b hashAuxBlock vChainMerkleBranch nNonce nChainID := by
  obtain ⟨w, hw⟩ := hissued.latest
  obtain ⟨t, n, m, hsubmit, hrebuilt⟩ := submitwork_latest ((Ok.start env).runFrom hsound) hw
  refine ⟨w, _, m, hw, hsubmit, hrebuilt, ?_⟩
  intro hashAuxBlock vChainMerkleBranch nNonce nChainID hrequest hcheck
  obtain ⟨htime, hnonce⟩ := CBlockHeader.unserialize_fits q.parsed
  exact proves_of_checkable htime hnonce hrequest hcheck

end MinerRun

def mergedCall : MinerCall where
  connected := true
  initialDownload := false
  pindexBest := ⟨sampleIndex 0 0 (sampleBlock 1 [sampleCoinbase 0]), []⟩
  nTransactionsUpdated := 0
  nTime := 100
  nAdjustedTime := 100
  reserved := .ok [2, 3]
  reserved_le := by
    rintro vchPubKey ⟨⟩
    decide
  vtx := []
  vtx_lt := by decide
  nFees := 0

def mergedAux (nChainID : Int) : VchType :=
  auxCommitment (checkMerkleBranch sampleEnv 7 [5] (auxSlot 0 nChainID 2)) 1 0

theorem hexByte_length (bytes : List UInt8) : (bytes.flatMap hexByte).length = 2 * bytes.length := by
  induction bytes with
  | nil => rfl
  | cons b bytes ih =>
    rw [List.flatMap_cons, List.length_append, ih, List.length_cons]
    have htwo : (hexByte b).length = 2 := rfl
    omega

def mergedRequest (nChainID : Int) : AuxRequest where
  call := mergedCall
  aux := (mergedAux nChainID).flatMap hexByte
  fits := by
    rw [hexByte_length, mergedAux, auxCommitment_length]
    decide

-- The key pool of a locked wallet has run out.
def emptyPoolRequest : AuxRequest where
  call :=
    { mergedCall with
      reserved := .error (.exception "ReserveKeyFromKeyPool() : pool is empty")
      reserved_le := by
        rintro vchPubKey ⟨⟩ }
  aux := ['0', '0']
  fits := by decide

def mergedEvents (nChainID : Int) : List MinerEvent :=
  [.getwork (mergedRequest nChainID), .getwork emptyPoolRequest, .getwork (mergedRequest 3)]

def mergedRun (nChainID : Int) : MinerRun := MinerRun.run sampleEnv (mergedEvents nChainID)

theorem mergedRun_sound :
    MinerRun.AllSound sampleEnv MinerRun.start (mergedEvents 2) := by
  refine ⟨fun _ => .inl ?_, fun _ => .inl ?_, fun _ => .inl ?_, trivial⟩ <;> decide +kernel

def mergedHeader (nChainID : Int) : CBlockHeader :=
  (((mergedRun nChainID).works.getLast?).map AuxWork.header).getD ⟨0, 0, 0, 0, 0, 0⟩

def mergedData (nChainID : Int) : List UInt8 :=
  byteReverse (formatHashBlocks (mergedHeader nChainID))

theorem mergedData_parsed : ∀ nChainID ∈ [(1 : Int), 2],
    (mergedData nChainID).length = 128 ∧
      CBlockHeader.unserialize (byteReverse (mergedData nChainID)) =
        some (mergedHeader nChainID, 0x80 :: (List.replicate 43 0 ++ [0, 0, 2, 0x80])) := by
  decide +kernel

def mergedSubmission (nChainID : Int) (h : nChainID ∈ [(1 : Int), 2]) : MinerRun.Submission where
  call := mergedCall
  ready := rfl
  vchData := mergedData nChainID
  length := (mergedData_parsed nChainID h).1
  pdata := mergedHeader nChainID
  pchPadding := 0x80 :: (List.replicate 43 0 ++ [0, 0, 2, 0x80])
  parsed := (mergedData_parsed nChainID h).2

theorem mergedRun_issued (nChainID : Int) (h : nChainID ∈ [(1 : Int), 2]) :
    (mergedRun nChainID).Issued (mergedSubmission nChainID h) := by
  have hall : ∀ nChainID ∈ [(1 : Int), 2], ((mergedRun nChainID).works.any fun w =>
      decide (w.header.hashMerkleRoot = (mergedHeader nChainID).hashMerkleRoot)) = true := by
    decide +kernel
  obtain ⟨w, hw, hroot⟩ := List.any_eq_true.mp (hall nChainID h)
  exact ⟨w, hw, of_decide_eq_true hroot⟩

def mergedChecks (nChainID : Int) (w : AuxWork) (b : CBlock) : Bool :=
  decide (w.vchAux = mergedAux nChainID) &&
    decide ((occurrences pchMergedMiningHeader b.coinbaseScript).length = 1) &&
    (auxPowOf sampleEnv b [5] (auxSlot 0 nChainID 2)).all (fun pow =>
      (parseAuxPow pow.hex).all (fun r => r.1.check sampleEnv 7 nChainID == decide (nChainID ≠ 1)))

theorem mergedRun_checks (nChainID : Int) (h : nChainID ∈ [(1 : Int), 2]) {w : AuxWork} {b : CBlock}
    {m : AuxMiner}
    (hw : (mergedRun nChainID).latest (mergedHeader nChainID).hashMerkleRoot = some w)
    (hb : exec (AuxMiner.submitwork sampleEnv mergedCall (mergedData nChainID))
      (mergedRun nChainID).miner = (.ok (some (b, w.vchAux)), m)) :
    mergedChecks nChainID w b = true := by
  have hall : ∀ nChainID ∈ [(1 : Int), 2],
      ((mergedRun nChainID).latest (mergedHeader nChainID).hashMerkleRoot).all (fun w =>
        ((exec (AuxMiner.submitwork sampleEnv mergedCall (mergedData nChainID))
          (mergedRun nChainID).miner).1.toOption.bind id).any (fun r =>
            mergedChecks nChainID w r.1)) = true := by
    decide +kernel
  have hone := hall nChainID h
  rw [hw, hb] at hone
  exact hone

theorem merged_work_proves :
    ∃ w b m, (mergedRun 2).latest (mergedHeader 2).hashMerkleRoot = some w ∧
      exec (AuxMiner.submitwork sampleEnv mergedCall (mergedData 2)) (mergedRun 2).miner =
        (.ok (some (b, w.vchAux)), m) ∧
      w.Rebuilt b ∧ AuxWork.Proves sampleEnv b 7 [5] 0 2 := by
  obtain ⟨w, b, m, hw, hb, hrebuilt, hproves⟩ := MinerRun.issued_work_proves sampleEnv
    (mergedEvents 2) mergedRun_sound (mergedSubmission 2 (by decide)) (mergedRun_issued 2 (by decide))
  have hchecks := mergedRun_checks 2 (by decide) hw hb
  simp only [mergedChecks, Bool.and_eq_true, decide_eq_true_eq] at hchecks
  refine ⟨w, b, m, hw, hb, hrebuilt, hproves 7 [5] 0 2 ?_ ?_⟩
  · exact ⟨by decide, hchecks.1.1, hchecks.1.2⟩
  · refine ⟨by decide, .inr (by decide), ?_⟩
    decide +kernel

theorem own_chain_refused :
    ¬∀ (env : Env) (events : List MinerEvent) (q : MinerRun.Submission),
      (MinerRun.run env events).Issued q →
      ∃ w b m, (MinerRun.run env events).latest q.pdata.hashMerkleRoot = some w ∧
        exec (AuxMiner.submitwork env q.call q.vchData) (MinerRun.run env events).miner =
          (.ok (some (b, w.vchAux)), m) ∧
        w.Rebuilt b ∧
        ∀ (hashAuxBlock : Uint256) (vChainMerkleBranch : List Uint256) (nNonce : Nat)
          (nChainID : Int), w.Requested env b hashAuxBlock vChainMerkleBranch nNonce nChainID →
          AuxWork.Proves env b hashAuxBlock vChainMerkleBranch nNonce nChainID := by
  intro hall
  obtain ⟨w, b, m, hw, hb, -, hproves⟩ := hall sampleEnv (mergedEvents 1)
    (mergedSubmission 1 (by decide)) (mergedRun_issued 1 (by decide))
  have hchecks := mergedRun_checks 1 (by decide) hw hb
  simp only [mergedChecks, Bool.and_eq_true, decide_eq_true_eq] at hchecks
  obtain ⟨⟨haux, honce⟩, hrefused⟩ := hchecks
  obtain ⟨pow, pow', hpow, hparse, hcheck⟩ := hproves 7 [5] 0 1 ⟨by decide, haux, honce⟩
  have hpow' : auxPowOf sampleEnv b [5] (auxSlot 0 1 2) = some pow := hpow
  rw [hpow', Option.all_some, hparse, Option.all_some, hcheck] at hrefused
  cases hrefused

end Namecoin
