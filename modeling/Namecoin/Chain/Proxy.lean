import Namecoin.Chain.Merged

namespace Namecoin

def pushRow (env : Env) (j nSize : Nat) : Nat → Nat → List Uint256 → List Uint256
  | 0, _, vTree => vTree
  | fuel + 1, i, vTree =>
    if i < nSize then
      let i2 := min (i + 1) (nSize - 1)
      pushRow env j nSize fuel (i + 2)
        (vTree ++ [hashPair env (vTree.getD (j + i) 0) (vTree.getD (j + i2) 0)])
    else vTree

def pushRows (env : Env) : Nat → Nat → Nat → List Uint256 → List Uint256
  | 0, _, _, vTree => vTree
  | fuel + 1, nSize, j, vTree =>
    if 1 < nSize then
      pushRows env fuel ((nSize + 1) / 2) (j + nSize) (pushRow env j nSize nSize 0 vTree)
    else vTree

def buildmerkletree (env : Env) (params : List Uint256) : List Uint256 :=
  pushRows env params.length params.length 0 params

namespace Listener

def branchFrom (merkleTree : List Uint256) : Nat → Nat → Nat → Nat → Option (List Uint256)
  | 0, _, _, _ => some []
  | fuel + 1, step, i1, j =>
    if 1 < step then do
      let other ← merkleTree[min (i1 ^^^ 1) (step - 1) + j]?
      let branch ← branchFrom merkleTree fuel ((step + 1) / 2) (i1 / 2) (j + step)
      some (other :: branch)
    else some []

def merkleBranch (merkleSize chainIndex : Nat) (merkleTree : List Uint256) :
    Option (List Uint256) :=
  branchFrom merkleTree merkleSize merkleSize chainIndex 0

def calcMerkleIndex (merkleSize : Nat) (chainId : Int) : Int :=
  let rand : Int := 0
  let rand : Int := (rand * 1103515245 + 12345) % 2 ^ 32
  let rand : Int := rand + chainId
  let rand : Int := (rand * 1103515245 + 12345) % 2 ^ 32
  rand % merkleSize

end Listener

def hexDigit (n : Nat) : Char := "0123456789abcdef".toList.getD n '0'

def hexByte (b : UInt8) : List Char := [hexDigit (b.toNat / 16), hexDigit (b.toNat % 16)]

def getHex (hash : Uint256) : List Char := (serHash hash).reverse.flatMap hexByte

def Listener.aux (merkleRoot : List Char) (merkleSize : Nat) : List Char :=
  merkleRoot ++ ((Nat.toDigits 16 merkleSize).leftpad 2 '0' ++ "000000".toList) ++
    "00000000".toList

def phexdigit (c : Char) : Option Nat :=
  if '0' ≤ c ∧ c ≤ '9' then some (c.toNat - '0'.toNat)
  else if 'a' ≤ c ∧ c ≤ 'f' then some (c.toNat - 'a'.toNat + 10)
  else if 'A' ≤ c ∧ c ≤ 'F' then some (c.toNat - 'A'.toNat + 10)
  else none

def isSpace (c : Char) : Bool := c == ' ' || decide (9 ≤ c.toNat ∧ c.toNat ≤ 13)

def parseHex : List Char → List UInt8
  | [] => []
  | [_] => []
  | c :: d :: s =>
    if isSpace c then parseHex (d :: s)
    else match phexdigit c, phexdigit d with
      | some n, some m => UInt8.ofNat (n * 16 + m) :: parseHex s
      | _, _ => []

theorem nextLevel_eq (env : Env) (l : List Uint256) :
    nextLevel env l = Merkle.level (hashPair env) l := by
  induction l using nextLevel.induct with
  | case1 => simp [nextLevel, Merkle.level]
  | case2 a => simp [nextLevel, Merkle.level]
  | case3 a b rest ih => simp [nextLevel, Merkle.level, ih]

theorem merkleLevels_eq (env : Env) (fuel : Nat) (l : List Uint256) :
    merkleLevels env fuel l = Merkle.levels (hashPair env) fuel l := by
  induction fuel generalizing l with
  | zero => rfl
  | succ fuel ih => simp only [merkleLevels, Merkle.levels, nextLevel_eq, ih]

theorem pushRow_eq (env : Env) (pre l : List Uint256) {fuel i : Nat} (out : List Uint256)
    (hfuel : l.length ≤ i + fuel) :
    pushRow env pre.length l.length fuel i (pre ++ l ++ out) =
      pre ++ l ++ out ++ Merkle.level (hashPair env) (l.drop i) := by
  induction fuel generalizing i out with
  | zero =>
    rw [List.drop_eq_nil_of_le (by omega)]
    simp [pushRow, Merkle.level]
  | succ fuel ih =>
    by_cases hi : i < l.length
    · have hread : ∀ k < l.length, (pre ++ l ++ out).getD (pre.length + k) 0 = l.getD k 0 := by
        intro k hk
        simp [List.getD_eq_getElem?_getD, List.append_assoc, List.getElem?_append_right,
          List.getElem?_append_left hk]
      simp only [pushRow, if_pos hi]
      rw [hread i hi, hread _ (by omega), List.append_assoc (pre ++ l) out, ih _ (by omega),
        ← List.append_assoc (pre ++ l) out, List.append_assoc (pre ++ l ++ out)]
      congr 1
      rw [List.drop_eq_getElem_cons hi]
      by_cases hnext : i + 1 < l.length
      · rw [List.drop_eq_getElem_cons hnext]
        have hmin : min (i + 1) (l.length - 1) = i + 1 := by omega
        simp [Merkle.level, hmin, List.getD_eq_getElem?_getD, hi, hnext]
      · have hmin : min (i + 1) (l.length - 1) = i := by omega
        rw [List.drop_eq_nil_of_le (by omega), List.drop_eq_nil_of_le (by omega)]
        simp [Merkle.level, hmin, List.getD_eq_getElem?_getD, hi]
    · simp [pushRow, if_neg hi, List.drop_eq_nil_of_le (by omega : l.length ≤ i), Merkle.level]

theorem pushRows_eq (env : Env) (pre l : List Uint256) (fuel : Nat) :
    pushRows env fuel l.length pre.length (pre ++ l) =
      pre ++ (Merkle.levels (hashPair env) fuel l).flatten := by
  induction fuel generalizing pre l with
  | zero => simp [pushRows, Merkle.levels]
  | succ fuel ih =>
    by_cases hl : 1 < l.length
    · have hrow := pushRow_eq env pre l [] (by omega : l.length ≤ 0 + l.length)
      rw [List.append_nil, List.drop_zero] at hrow
      have hrec := ih (pre ++ l) (Merkle.level (hashPair env) l)
      rw [Merkle.level_length, List.length_append] at hrec
      simp only [pushRows, if_pos hl, hrow, hrec, Merkle.levels,
        if_neg (by omega : ¬ l.length ≤ 1), List.flatten_cons]
      rw [List.append_assoc]
    · simp [pushRows, if_neg hl, Merkle.levels, if_pos (by omega : l.length ≤ 1)]

theorem buildmerkletree_eq (env : Env) (params : List Uint256) :
    buildmerkletree env params = (merkleLevels env params.length params).flatten := by
  rw [merkleLevels_eq]
  exact pushRows_eq env [] params params.length

theorem branchFrom_eq (env : Env) (pre l : List Uint256) (fuel i : Nat)
    (hfuel : l.length ≤ fuel + 1) :
    Listener.branchFrom (pre ++ (Merkle.levels (hashPair env) fuel l).flatten) fuel l.length i
        pre.length =
      some ((Merkle.opening (Merkle.levels (hashPair env) fuel l) i).map Prod.snd) := by
  induction fuel generalizing pre l i with
  | zero =>
    rw [Nat.zero_add] at hfuel
    simp [Listener.branchFrom, Merkle.levels, Merkle.opening, if_pos hfuel]
  | succ fuel ih =>
    by_cases hl : 1 < l.length
    · have hsib := Merkle.sibling_lt (i := i) (by omega : 0 < l.length)
      have hother := List.getElem?_eq_getElem hsib
      have hlen := Merkle.level_length (hashPair env) l
      have hrec := ih (pre ++ l) (Merkle.level (hashPair env) l) (i / 2) (by omega)
      rw [hlen, List.length_append, List.append_assoc] at hrec
      have hread : (pre ++ (l ++ (Merkle.levels (hashPair env) fuel
          (Merkle.level (hashPair env) l)).flatten))[Merkle.sibling i l.length + pre.length]? =
            l[Merkle.sibling i l.length]? := by
        rw [Nat.add_comm, List.getElem?_append_right (by omega), Nat.add_sub_cancel_left,
          List.getElem?_append_left hsib]
      simp only [Merkle.levels, if_neg (by omega : ¬ l.length ≤ 1), Listener.branchFrom, if_pos hl,
        List.flatten_cons, Merkle.opening, hother]
      rw [← Merkle.sibling, hread, hother]
      simp [hrec]
    · simp [Listener.branchFrom, if_neg hl, Merkle.levels, Merkle.opening,
        if_pos (by omega : l.length ≤ 1)]

theorem branchPath_opening (levels : List (List Uint256)) (i : Nat) :
    branchPath ((Merkle.opening levels i).map Prod.snd) i = Merkle.opening levels i := by
  induction levels generalizing i with
  | nil => rfl
  | cons l rest ih =>
    simp only [Merkle.opening]
    split
    · rfl
    · split
      · have hhalf : ((i : Int) / 2) = ((i / 2 : Nat) : Int) := by omega
        have hside : decide ((i : Int) % 2 = 1) = (i % 2 == 1) := by
          rw [Bool.eq_iff_iff, decide_eq_true_eq, beq_iff_eq]
          omega
        simp only [List.map_cons, branchPath, hhalf, ih, hside]
      · rfl

theorem calcMerkleIndex_eq (merkleSize : Nat) (chainId : Int) :
    Listener.calcMerkleIndex merkleSize chainId = auxSlot 0 chainId merkleSize := by
  have hwrap : ((12345 + chainId) * 1103515245 + 12345) % 2 ^ 32 =
      ((((((12345 : Nat) : Int) + chainId) % 2 ^ 32).toNat * 1103515245 + 12345) % 2 ^ 32 : Nat) := by
    omega
  have hnat : (0 * 1103515245 + 12345) % 2 ^ 32 = 12345 := by decide
  have hint : ((0 : Int) * 1103515245 + 12345) % 2 ^ 32 = 12345 := by decide
  simp only [Listener.calcMerkleIndex, auxSlot, hnat, hint, hwrap, Int.natCast_mod]

theorem hexDigit_digit {n : Nat} (hn : n < 16) :
    phexdigit (hexDigit n) = some n ∧ isSpace (hexDigit n) = false := by
  have hall : ∀ m < 16, phexdigit (hexDigit m) = some m ∧ isSpace (hexDigit m) = false := by
    decide
  exact hall n hn

theorem parseHex_flatMap (bytes : List UInt8) : parseHex (bytes.flatMap hexByte) = bytes := by
  induction bytes with
  | nil => rfl
  | cons b bytes ih =>
    have hb := b.toNat_lt
    obtain ⟨hhigh, hspace⟩ := hexDigit_digit (by omega : b.toNat / 16 < 16)
    obtain ⟨hlow, -⟩ := hexDigit_digit (by omega : b.toNat % 16 < 16)
    have hjoin : UInt8.ofNat (b.toNat / 16 * 16 + b.toNat % 16) = b := by
      rw [Nat.div_add_mod']
      exact UInt8.ofNat_toNat
    simp [hexByte, parseHex, hhigh, hlow, hspace, ih, hjoin]

def auxBytes (root : Uint256) (merkleSize : Nat) : List UInt8 :=
  (serHash root).reverse ++ leBytes 4 merkleSize ++ leBytes 4 0

theorem parseHex_aux (root : Uint256) {k : Nat} (hk : k ≤ 7) :
    parseHex (Listener.aux (getHex root) (2 ^ k)) = auxBytes root (2 ^ k) := by
  have hformat : ∀ k ≤ 7, (Nat.toDigits 16 (2 ^ k)).leftpad 2 '0' ++ "000000".toList =
      (leBytes 4 (2 ^ k)).flatMap hexByte := by
    decide
  have hnonce : "00000000".toList = (leBytes 4 0).flatMap hexByte := by decide
  rw [Listener.aux, hformat k hk, hnonce, getHex, ← List.flatMap_append, ← List.flatMap_append]
  exact parseHex_flatMap _

theorem merkleBranchOf_eq (env : Env) (fuel i : Nat) (l : List Uint256) :
    merkleBranchOf (Merkle.levels (hashPair env) fuel l) i =
      (Merkle.opening (Merkle.levels (hashPair env) fuel l) i).map Prod.snd := by
  have hrow : ∀ (l : List Uint256) (rest : List (List Uint256)) (i : Nat),
      merkleBranchOf rest (i / 2) = (Merkle.opening rest (i / 2)).map Prod.snd →
      merkleBranchOf (l :: rest) i = (Merkle.opening (l :: rest) i).map Prod.snd := by
    intro l rest i hrest
    by_cases hle : l.length ≤ 1
    · simp [merkleBranchOf, Merkle.opening, hle]
    · have hsib := Merkle.sibling_lt (i := i) (by omega : 0 < l.length)
      have hother := List.getElem?_eq_getElem hsib
      simp only [merkleBranchOf, Merkle.opening, if_neg hle, hother, List.map_cons, hrest]
      rw [← Merkle.sibling, List.getD_eq_getElem?_getD, hother, Option.getD_some]
  induction fuel generalizing l i with
  | zero => exact hrow l [] i rfl
  | succ fuel ih =>
    simp only [Merkle.levels]
    split
    · exact hrow l [] i rfl
    · exact hrow l _ i (ih (i / 2) _)

theorem merkleBranch_eq (env : Env) (leaves : List Uint256) (i : Nat) :
    Listener.merkleBranch leaves.length i (buildmerkletree env leaves) =
      some (merkleBranchOf (merkleLevels env leaves.length leaves) i) := by
  rw [buildmerkletree_eq, merkleLevels_eq, merkleBranchOf_eq]
  exact branchFrom_eq env [] leaves leaves.length i (by omega)

theorem CBlock.buildMerkleTree_eq (env : Env) (b : CBlock) :
    b.buildMerkleTree env = (buildmerkletree env (txHashes env b.vtx)).getLast?.getD 0 := by
  rw [buildmerkletree_eq, txHashes, List.length_map]
  rfl

theorem CBlock.getMerkleBranch_eq (env : Env) (b : CBlock) (nIndex : Nat) :
    Listener.merkleBranch b.vtx.length nIndex (buildmerkletree env (txHashes env b.vtx)) =
      some (b.getMerkleBranch env nIndex) := by
  have hlen : (txHashes env b.vtx).length = b.vtx.length := List.length_map _
  rw [← hlen, merkleBranch_eq, hlen]
  rfl

theorem merkleBranch_root {env : Env} {leaves branch : List Uint256} {slot : Nat} {leaf : Uint256}
    (hleaf : leaves[slot]? = some leaf)
    (hbranch : Listener.merkleBranch leaves.length slot (buildmerkletree env leaves) =
      some branch) :
    (buildmerkletree env leaves).getLast? = some (checkMerkleBranch env leaf branch slot) := by
  rw [merkleBranch_eq, merkleLevels_eq, merkleBranchOf_eq, Option.some.injEq] at hbranch
  subst hbranch
  rw [checkMerkleBranch, if_neg (by omega), foldBranch_eq_climb, branchPath_opening,
    buildmerkletree_eq, merkleLevels_eq]
  exact Merkle.climb_opening (hashPair env) (Nat.le_succ _) hleaf

theorem auxTail_placed {root : List UInt8} {k nNonce : Nat} {chainId : Int} (hk : k ≤ 30)
    (hnonce : nNonce < 2 ^ 32) {pre post : List UInt8}
    (hfound : search root (pre ++ (root ++ (leBytes 4 (2 ^ k) ++ (leBytes 4 nNonce ++ post)))) 0 =
      some pre.length) :
    AuxPlaced (pre ++ (root ++ (leBytes 4 (2 ^ k) ++ (leBytes 4 nNonce ++ post)))) root k
      (auxSlot nNonce chainId (2 ^ k)) chainId pre.length := by
  have htail : (pre ++ (root ++ (leBytes 4 (2 ^ k) ++ (leBytes 4 nNonce ++ post)))).drop
      (pre.length + root.length) = leBytes 4 (2 ^ k) ++ (leBytes 4 nNonce ++ post) := by
    rw [← List.length_append, ← List.append_assoc pre, List.drop_left]
  have hpow : 2 ^ k ≤ 2 ^ 30 := Nat.pow_le_pow_right (by decide) hk
  have hsize : (leBytes 4 (2 ^ k) ++ (leBytes 4 nNonce ++ post)).take 4 = leBytes 4 (2 ^ k) :=
    List.take_left' (leBytes_length 4 _)
  have hlast : ((leBytes 4 (2 ^ k) ++ (leBytes 4 nNonce ++ post)).drop 4).take 4 =
      leBytes 4 nNonce := by
    rw [List.drop_left' (leBytes_length 4 _), List.take_left' (leBytes_length 4 _)]
  have hlt : auxSlot nNonce chainId (2 ^ k) < 2 ^ k := auxSlot_lt (Nat.two_pow_pos k)
  refine ⟨hfound, ?_, ?_, ?_⟩
  · rw [htail]
    simp
    omega
  · rw [htail, hsize, leNat_leBytes_of_lt (by omega)]
  · rw [htail, hlast, leNat_leBytes_of_lt hnonce]
    omega

theorem auxBytes_placed {root : Uint256} {k slot : Nat} {chainId : Int} (hk : k ≤ 7)
    (hslot : Listener.calcMerkleIndex (2 ^ k) chainId = slot) {pre post : List UInt8}
    (hfound : search (serHash root).reverse (pre ++ auxBytes root (2 ^ k) ++ post) 0 =
      some pre.length) :
    AuxPlaced (pre ++ auxBytes root (2 ^ k) ++ post) (serHash root).reverse k slot chainId
      pre.length := by
  rw [calcMerkleIndex_eq] at hslot
  have hsame : slot = auxSlot 0 chainId (2 ^ k) := by omega
  simp only [auxBytes, List.append_assoc] at hfound ⊢
  rw [hsame]
  exact auxTail_placed (by omega) (by decide) hfound

theorem proxy_agrees {env : Env} {merkleSize k : Nat} {leaves : List Uint256}
    (hsize : merkleSize = 2 ^ k) (hmax : merkleSize ≤ 128) (hleaves : leaves.length = merkleSize) :
    (∀ chainId : Int,
      Listener.calcMerkleIndex merkleSize chainId = auxSlot 0 chainId merkleSize) ∧
    ∃ root, (buildmerkletree env leaves).getLast? = some root ∧
      ∀ slot leaf, leaves[slot]? = some leaf →
        ∃ branch, Listener.merkleBranch merkleSize slot (buildmerkletree env leaves) =
            some branch ∧
          branch.length = k ∧ checkMerkleBranch env leaf branch slot = root ∧
          ∀ chainId, Listener.calcMerkleIndex merkleSize chainId = slot →
            let vchAux := parseHex (Listener.aux (getHex root) merkleSize)
            let vchRootHash := (serHash (checkMerkleBranch env leaf branch slot)).reverse
            AuxPlaced vchAux vchRootHash branch.length slot chainId 0 ∧
            ∀ pre post, search vchRootHash (pre ++ vchAux ++ post) 0 = some pre.length →
              AuxPlaced (pre ++ vchAux ++ post) vchRootHash branch.length slot chainId
                pre.length := by
  subst hsize
  have hk : k ≤ 7 := (Nat.pow_le_pow_iff_right (by decide)).mp (hmax : 2 ^ k ≤ 2 ^ 7)
  refine ⟨calcMerkleIndex_eq (2 ^ k), ?_⟩
  have hpos : 0 < leaves.length := by
    rw [hleaves]
    exact Nat.two_pow_pos k
  obtain ⟨root, hlast⟩ : ∃ root, (buildmerkletree env leaves).getLast? = some root :=
    ⟨_, merkleBranch_root (List.getElem?_eq_getElem hpos) (merkleBranch_eq env leaves 0)⟩
  refine ⟨root, hlast, fun slot leaf hleaf => ?_⟩
  have hbranch := merkleBranch_eq env leaves slot
  have hlen : (merkleBranchOf (merkleLevels env leaves.length leaves) slot).length = k := by
    rw [merkleLevels_eq, merkleBranchOf_eq, List.length_map]
    rw [Merkle.opening_length _ (Nat.le_succ _), hleaves, Nat.clog_pow 2 k (by decide)]
  have hroot : checkMerkleBranch env leaf
      (merkleBranchOf (merkleLevels env leaves.length leaves) slot) slot = root :=
    Option.some.inj ((merkleBranch_root hleaf hbranch).symm.trans hlast)
  refine ⟨_, by rw [← hleaves]; exact hbranch, hlen, hroot, fun chainId hslot => ?_⟩
  rw [hroot, hlen, parseHex_aux root hk]
  refine ⟨?_, fun pre post => auxBytes_placed hk hslot⟩
  have hstart := @auxBytes_placed root k slot chainId hk hslot [] []
  rw [List.nil_append, List.append_nil] at hstart
  refine hstart ?_
  rw [auxBytes, List.append_assoc]
  exact search_start _ _ 0

theorem proxy_agrees_four :
    Listener.calcMerkleIndex 4 getOurChainID = 3 ∧
      ∃ root branch, (buildmerkletree sampleEnv [7, 5, 3, 1]).getLast? = some root ∧
        Listener.merkleBranch 4 3 (buildmerkletree sampleEnv [7, 5, 3, 1]) = some branch ∧
        AuxPlaced (parseHex (Listener.aux (getHex root) 4))
          (serHash (checkMerkleBranch sampleEnv 1 branch 3)).reverse branch.length 3
          getOurChainID 0 := by
  obtain ⟨-, root, hlast, hslots⟩ := @proxy_agrees sampleEnv 4 2 [7, 5, 3, 1] rfl (by decide) rfl
  obtain ⟨branch, hbranch, -, -, haux⟩ := hslots 3 1 rfl
  have hslot : Listener.calcMerkleIndex 4 getOurChainID = 3 := by decide
  exact ⟨hslot, root, branch, hlast, hbranch, (haux getOurChainID hslot).1⟩

end Namecoin
