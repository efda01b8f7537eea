import Namecoin.Chain.Proxy
import Namecoin.Chain.Run

namespace Namecoin

def CBlock.hashedPairs (env : Env) (b : CBlock) : List (Uint256 × Uint256) :=
  Merkle.hashed (hashPair env) b.vtx.length (txHashes env b.vtx)

theorem root_determines_txids {env : Env} {b b' : CBlock} (hne : b.vtx ≠ []) (hne' : b'.vtx ≠ [])
    (hdistinct : (txHashes env b.vtx).Nodup) (hdistinct' : (txHashes env b'.vtx).Nodup)
    (hinj : Set.InjOn (Function.uncurry (hashPair env))
      {p | p ∈ b.hashedPairs env ∨ p ∈ b'.hashedPairs env})
    (hfree : ∀ txid, txid ∈ txHashes env b.vtx ∨ txid ∈ txHashes env b'.vtx →
      ∀ p, p ∈ b.hashedPairs env ∨ p ∈ b'.hashedPairs env →
        Function.uncurry (hashPair env) p ≠ txid)
    (hroot : b.buildMerkleTree env = b'.buildMerkleTree env) :
    txHashes env b.vtx = txHashes env b'.vtx := by
  have hlen : (txHashes env b.vtx).length = b.vtx.length := List.length_map _
  have hlen' : (txHashes env b'.vtx).length = b'.vtx.length := List.length_map _
  have hne1 : txHashes env b.vtx ≠ [] := by simpa [txHashes] using hne
  have hne1' : txHashes env b'.vtx ≠ [] := by simpa [txHashes] using hne'
  obtain ⟨r, hlast, -⟩ := @Merkle.Reaches.levels _ (hashPair env) b.vtx.length _ hne1 (by omega)
  obtain ⟨r', hlast', -⟩ := @Merkle.Reaches.levels _ (hashPair env) b'.vtx.length _ hne1' (by omega)
  refine Merkle.leaves_eq hne1 hne1' (by omega) (by omega) hdistinct hdistinct' hinj hfree ?_
  rw [CBlock.buildMerkleTree, CBlock.buildMerkleTree, CBlock.levels, CBlock.levels, merkleLevels_eq,
    merkleLevels_eq, hlast, hlast', Option.getD_some, Option.getD_some] at hroot
  rw [hlast, hlast', hroot]

def threeTxBlock (nTime : Nat) : CBlock :=
  sampleBlock nTime [sampleCoinbase 0, sampleCoinbase 1, sampleCoinbase 2]

theorem threeTxBlock_vtx (nTime : Nat) :
    (threeTxBlock nTime).vtx = [sampleCoinbase 0, sampleCoinbase 1, sampleCoinbase 2] := rfl

theorem threeTxBlock_nodes : ∃ a b c x y z : Uint256,
    (∀ nTime, txHashes sampleEnv (threeTxBlock nTime).vtx = [a, b, c]) ∧
      hashPair sampleEnv a b = x ∧ hashPair sampleEnv c c = y ∧ hashPair sampleEnv x y = z ∧
      [a, b, c, x, y, z].Nodup := by
  have htxids : ∀ nTime, txHashes sampleEnv (threeTxBlock nTime).vtx =
      [756111768599563492460658460305006966179364515424658594461293,
        756111872958276191620780191959277010703332326583984910175342,
        756111977316988890780901923613547055227300137743311225889391] := by
    intro nTime
    rw [threeTxBlock_vtx]
    decide +kernel
  refine ⟨_, _, _, 871478576898964768770568990287223117220564453630890824353567,
    490523993088507604995524612067887848657084087558298005470430,
    192837607945544023786177843612227824265640492900529306333806, htxids, ?_, ?_, ?_, ?_⟩
  all_goals decide +kernel

-- Three leaves make an odd level, so the second pair repeats its hash.
theorem threeTxBlock_txids :
    txHashes sampleEnv (threeTxBlock 1).vtx = txHashes sampleEnv (threeTxBlock 2).vtx := by
  obtain ⟨a, b, c, x, y, z, htxids, hx, hy, hz, hdistinct⟩ := threeTxBlock_nodes
  have hpairs : ∀ nTime, (threeTxBlock nTime).hashedPairs sampleEnv =
      [(a, b), (c, c), (x, y)] := by
    intro nTime
    rw [CBlock.hashedPairs, htxids, threeTxBlock_vtx, ← hx, ← hy]
    rfl
  have hnodes : [(a, b), (c, c), (x, y)].map (Function.uncurry (hashPair sampleEnv)) =
      [x, y, z] := by
    simp [Function.uncurry, hx, hy, hz]
  obtain ⟨hleaves, hinner, hapart⟩ := List.nodup_append'.mp
    (show ([a, b, c] ++ [x, y, z]).Nodup from hdistinct)
  have hroot : (threeTxBlock 1).buildMerkleTree sampleEnv =
      (threeTxBlock 2).buildMerkleTree sampleEnv := by
    rw [CBlock.buildMerkleTree, CBlock.buildMerkleTree, CBlock.levels, CBlock.levels,
      threeTxBlock_vtx, threeTxBlock_vtx]
  apply root_determines_txids
  · rw [threeTxBlock_vtx]
    exact List.cons_ne_nil _ _
  · rw [threeTxBlock_vtx]
    exact List.cons_ne_nil _ _
  · rwa [htxids]
  · rwa [htxids]
  · simp only [hpairs, or_self]
    rw [← hnodes] at hinner
    exact fun p hp q hq => List.inj_on_of_nodup_map hinner hp hq
  · simp only [hpairs, htxids, or_self]
    intro txid htxid p hp heq
    refine hapart htxid ?_
    rw [← heq, ← hnodes]
    exact List.mem_map_of_mem hp
  · exact hroot

end Namecoin
