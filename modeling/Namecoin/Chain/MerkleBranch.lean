import Namecoin.Chain.Proxy
import Namecoin.Chain.Run

namespace Namecoin

-- none where a read lies outside the tree
def branchOfTree (vMerkleTree : List Uint256) : Nat → Nat → Nat → Nat → Option (List Uint256)
  | 0, _, _, _ => some []
  | fuel + 1, nSize, nIndex, j =>
    if 1 < nSize then do
      let i := min (nIndex ^^^ 1) (nSize - 1)
      let otherside ← vMerkleTree[j + i]?
      let vMerkleBranch ← branchOfTree vMerkleTree fuel ((nSize + 1) / 2) (nIndex / 2) (j + nSize)
      some (otherside :: vMerkleBranch)
    else some []

namespace CBlock

variable (env : Env) (b : CBlock)

-- BuildMerkleTree pushes the rows as the proxy's buildmerkletree does
def builtTree : List Uint256 := buildmerkletree env (txHashes env b.vtx)

def builtRoot : Uint256 := (b.builtTree env).getLast?.getD 0

def readMerkleBranch (vMerkleTree : List Uint256) (nIndex : Nat) : Option (List Uint256) :=
  let vMerkleTree := if vMerkleTree = [] then b.builtTree env else vMerkleTree
  branchOfTree vMerkleTree b.vtx.length b.vtx.length nIndex 0

end CBlock

section Layout

variable {env : Env} {b : CBlock}

theorem branchOfTree_eq (vMerkleTree : List Uint256) (fuel nSize nIndex j : Nat) :
    branchOfTree vMerkleTree fuel nSize nIndex j =
      Listener.branchFrom vMerkleTree fuel nSize nIndex j := by
  induction fuel generalizing nSize nIndex j with
  | zero => rfl
  | succ fuel ih =>
    rw [branchOfTree, Listener.branchFrom]
    simp only [ih, Nat.add_comm j]

theorem readMerkleBranch_eq {vMerkleTree : List Uint256} (nIndex : Nat)
    (h : vMerkleTree = [] ∨ vMerkleTree = b.builtTree env) :
    b.readMerkleBranch env vMerkleTree nIndex = some (b.getMerkleBranch env nIndex) := by
  have htree : (if vMerkleTree = [] then b.builtTree env else vMerkleTree) = b.builtTree env := by
    split
    · rfl
    · next hne => exact h.resolve_left hne
  rw [CBlock.readMerkleBranch, htree, branchOfTree_eq]
  exact CBlock.getMerkleBranch_eq env b nIndex

theorem getMerkleBranch_length (env : Env) (b : CBlock) (nIndex : Nat) :
    (b.getMerkleBranch env nIndex).length = Nat.clog 2 b.vtx.length := by
  have hlen : (txHashes env b.vtx).length = b.vtx.length := List.length_map _
  rw [CBlock.getMerkleBranch, CBlock.levels, merkleLevels_eq, merkleBranchOf_eq, List.length_map,
    Merkle.opening_length _ (by omega), hlen]

theorem builtRoot_eq (env : Env) (b : CBlock) : b.builtRoot env = b.buildMerkleTree env :=
  (CBlock.buildMerkleTree_eq env b).symm

theorem branch_verifies (env : Env) (b : CBlock) (nIndex : Nat) (hi : nIndex < b.vtx.length)
    (vMerkleTree : List Uint256) (hcached : vMerkleTree = [] ∨ vMerkleTree = b.builtTree env) :
    ∃ vMerkleBranch, b.readMerkleBranch env vMerkleTree nIndex = some vMerkleBranch ∧
      checkMerkleBranch env ((b.vtx[nIndex]).getHash env) vMerkleBranch nIndex = b.builtRoot env ∧
      vMerkleBranch.length = Nat.clog 2 b.vtx.length := by
  have hlen : (txHashes env b.vtx).length = b.vtx.length := List.length_map _
  have hleaf : (txHashes env b.vtx)[nIndex]? = some ((b.vtx[nIndex]).getHash env) := by
    rw [txHashes, List.getElem?_map, List.getElem?_eq_getElem hi, Option.map_some]
  have hbranch := CBlock.getMerkleBranch_eq env b nIndex
  rw [← hlen] at hbranch
  have hroot := merkleBranch_root hleaf hbranch
  refine ⟨_, readMerkleBranch_eq nIndex hcached, ?_, getMerkleBranch_length env b nIndex⟩
  rw [CBlock.builtRoot, CBlock.builtTree, hroot, Option.getD_some]

theorem branch_verifies_three :
    ∃ vMerkleBranch,
      (sampleBlock 1 [sampleCoinbase 0, sampleCoinbase 1, sampleCoinbase 2]).readMerkleBranch
        sampleEnv [] 2 = some vMerkleBranch ∧
      checkMerkleBranch sampleEnv ((sampleCoinbase 2).getHash sampleEnv) vMerkleBranch 2 =
        (sampleBlock 1 [sampleCoinbase 0, sampleCoinbase 1, sampleCoinbase 2]).builtRoot sampleEnv ∧
      vMerkleBranch.length = Nat.clog 2 3 :=
  branch_verifies sampleEnv (sampleBlock 1 [sampleCoinbase 0, sampleCoinbase 1, sampleCoinbase 2]) 2
    (by decide) [] (Or.inl rfl)

end Layout

end Namecoin
