import Namecoin.Net.Dispatch
import Namecoin.Net.DownloadStep
import Namecoin.Node.Headers

namespace Namecoin

namespace NodeState

def mainIndex (s : NodeState) (nHeight : Nat) : Option CBlockIndex :=
  (s.walk s.pindexBest).reverse[nHeight]?

def mainBlock (s : NodeState) (nHeight : Nat) : CBlock :=
  ((s.mainIndex nHeight).map (NetNode.blockAt s)).getD CBlock.null

end NodeState

-- The main chain of the serving node by heights, as it answers getblocks and getdata.
structure Chained (env : Env) (s : NodeState) (chain : Nat → CBlock) (nTip : Nat) : Prop where
  stored : ∀ h ≤ nTip, ∃ p, s.mapBlockIndex ((chain h).getHash env) = some p ∧
    NetNode.blockAt s p = chain h
  main : ∀ h ≤ nTip, CBlockLocator.inMainChain s ((chain h).getHash env) = true
  best : s.hashBestChain = (chain nTip).getHash env
  height : s.nBestHeight = nTip
  injective : ∀ h ≤ nTip, ∀ k ≤ nTip, (chain h).getHash env = (chain k).getHash env → h = k
  linked : ∀ h < nTip, (chain (h + 1)).hashPrevBlock = (chain h).getHash env
  after : ∀ a ≤ nTip, ∃ l : List CBlockIndex,
    PnextChain s.mapBlockIndex (nextOf s.mapBlockIndex ((chain a).getHash env)) l ∧
      l.map CBlockIndex.hashBlock =
        (List.range' (a + 1) (nTip - a)).map fun h => (chain h).getHash env

section Chain

variable {env : Env} {s : NodeState} {genesis best : Uint256}

theorem TreeOk.same_height (hok : TreeOk s.tree genesis best) {a b : Uint256}
    (ha : Forest.Anc (parentOf s.mapBlockIndex) a best)
    (hb : Forest.Anc (parentOf s.mapBlockIndex) b best)
    (hheight : heightOf s.mapBlockIndex a = heightOf s.mapBlockIndex b) : a = b := by
  have hgraded : Forest.Graded (parentOf s.mapBlockIndex) (heightOf s.mapBlockIndex) :=
    hok.rooted.graded
  rcases ha.linear hb with hdown | hdown
  · exact hdown.eq_of_height hgraded hheight
  · exact (hdown.eq_of_height hgraded hheight.symm).symm

structure OnMain (s : NodeState) (best : Uint256) (h : Nat) (p : CBlockIndex) : Prop where
  found : s.mapBlockIndex p.hashBlock = some p
  height : p.nHeight = h
  anc : Forest.Anc (parentOf s.mapBlockIndex) p.hashBlock best

theorem OnMain.heightOf_eq {h : Nat} {p : CBlockIndex} (hp : OnMain s best h p) :
    heightOf s.mapBlockIndex p.hashBlock = h := by
  rw [heightOf, hp.found, Option.map_some, Option.getD_some, hp.height]

theorem TreeOk.onMain_unique (hok : TreeOk s.tree genesis best) {h : Nat} {p q : CBlockIndex}
    (hp : OnMain s best h p) (hq : OnMain s best h q) : p = q := by
  have hhash := hok.same_height hp.anc hq.anc (hp.heightOf_eq.trans hq.heightOf_eq.symm)
  exact Option.some.inj (hp.found.symm.trans (hhash ▸ hq.found))

theorem TreeOk.mainIndex_get (hok : TreeOk s.tree genesis best) {h : Nat}
    (hle : h ≤ heightOf s.mapBlockIndex best) :
    ∃ p, s.mainIndex h = some p ∧ OnMain s best h p := by
  obtain ⟨pbest, hpbest, -⟩ := hok.globals
  have hp : s.mapBlockIndex best = some pbest := hpbest
  have hbest : s.pindexBest = some best := hok.isBest
  have hheight : heightOf s.mapBlockIndex best = pbest.nHeight := by simp [heightOf, hp]
  have hlen : (s.walk (some best)).length = heightOf s.mapBlockIndex best + 1 :=
    (Rooted.fromGenesis hok.rooted hok.best_some).2
  have hlt : heightOf s.mapBlockIndex best - h < (s.walk (some best)).length := by omega
  have hget := List.getElem?_eq_getElem hlt
  obtain ⟨hq, hmq, hanc⟩ := CBlockLocator.walk_getElem hok.rooted hp hget
  refine ⟨_, ?_, ⟨hmq, by omega, hanc⟩⟩
  rw [NodeState.mainIndex, hbest, List.getElem?_reverse (by omega), hlen,
    show heightOf s.mapBlockIndex best + 1 - 1 - h = heightOf s.mapBlockIndex best - h by omega, hget]

theorem RulesKept.mainBlock_eq (h : RulesKept env genesis s) {p : CBlockIndex} {k : Nat}
    (hp : s.mainIndex k = some p) (hon : OnMain s best k p) :
    NetNode.blockAt s p = s.mainBlock k ∧ (s.mainBlock k).getHash env = p.hashBlock ∧
      ∀ q, p.pprev = some q → (s.mainBlock k).hashPrevBlock = q := by
  obtain ⟨b, hb⟩ := h.headers _ p hon.found
  have hread : NetNode.blockAt s p = b := by rw [NetNode.blockAt, hb.stored, Option.getD_some]
  have hmain : s.mainBlock k = b := by
    rw [NodeState.mainBlock, hp, Option.map_some, Option.getD_some, hread]
  rw [hmain]
  exact ⟨hread, hb.hash, fun q hq => (hb.linked q hq).1⟩

theorem TreeOk.following_onMain (hok : TreeOk s.tree genesis best) {x : Uint256}
    {l : List CBlockIndex} (hl : Following s x l) {i : Nat} {q : CBlockIndex} (hq : l[i]? = some q) :
    OnMain s best (heightOf s.mapBlockIndex x + 1 + i) q := by
  obtain ⟨hfound, hmain, -⟩ := (hl.mem q).mp (List.mem_of_getElem? hq)
  refine ⟨hfound, ?_, (hok.main_iff hfound).mp hmain⟩
  have hheight := congrArg (fun hs => hs[i]?) hl.heights
  have hlt := (List.getElem?_eq_some_iff.mp hq).1
  rw [List.getElem?_map, hq, Option.map_some, List.getElem?_range' hlt, Nat.one_mul] at hheight
  exact Option.some.inj hheight

theorem chained (h : RulesKept env genesis s) :
    ∃ nTip, Chained env s s.mainBlock nTip ∧
      s.pindexBest = some ((s.mainBlock nTip).getHash env) := by
  obtain ⟨best, hok⟩ := h.tree
  have hroot : Rooted s.mapBlockIndex genesis := hok.rooted
  have hisBest : s.pindexBest = some best := hok.isBest
  obtain ⟨pbest, hpbest, hchain, hheight, -⟩ := hok.globals
  have hp : s.mapBlockIndex best = some pbest := hpbest
  have hat : ∀ k ≤ heightOf s.mapBlockIndex best, ∃ p, s.mainIndex k = some p ∧
      OnMain s best k p ∧ (s.mainBlock k).getHash env = p.hashBlock := by
    intro k hk
    obtain ⟨p, hget, hon⟩ := hok.mainIndex_get hk
    exact ⟨p, hget, hon, (h.mainBlock_eq hget hon).2.1⟩
  have hbest : (s.mainBlock (heightOf s.mapBlockIndex best)).getHash env = best := by
    obtain ⟨p, -, hon, hhash⟩ := hat _ le_rfl
    rw [hhash]
    exact hok.same_height hon.anc (Forest.Anc.refl best) hon.heightOf_eq
  refine ⟨heightOf s.mapBlockIndex best, ⟨?_, ?_, ?_, ?_, ?_, ?_, ?_⟩, by rw [hisBest, hbest]⟩
  · intro k hk
    obtain ⟨p, hget, hon⟩ := hok.mainIndex_get hk
    obtain ⟨hread, hhash, -⟩ := h.mainBlock_eq hget hon
    exact ⟨p, by rw [hhash, hon.found], hread⟩
  · intro k hk
    obtain ⟨p, -, hon, hhash⟩ := hat k hk
    rw [hhash]
    exact inMainChain_iff.mpr ⟨p, hon.found, (hok.main_iff hon.found).mpr hon.anc⟩
  · rw [hbest]
    exact hchain
  · have hbestHeight : s.nBestHeight = pbest.nHeight := hheight
    rw [hbestHeight]
    simp [heightOf, hp]
  · intro j hj k hk heq
    obtain ⟨p, -, hon, hhash⟩ := hat j hj
    obtain ⟨q, -, hon', hhash'⟩ := hat k hk
    rw [hhash, hhash'] at heq
    rw [← hon.heightOf_eq, ← hon'.heightOf_eq, heq]
  · intro k hk
    obtain ⟨q, -, hon', hhash'⟩ := hat k (Nat.le_of_lt hk)
    obtain ⟨p, hget, hon⟩ := hok.mainIndex_get (show k + 1 ≤ _ from hk)
    have hne : p.hashBlock ≠ genesis := by
      intro heq
      have hzero := hok.rooted.heightOf_genesis
      have hsucc := hon.heightOf_eq
      rw [heq] at hsucc
      have hzero : heightOf s.mapBlockIndex genesis = 0 := hzero
      omega
    obtain ⟨x, px, hx, hmx, hup⟩ := hroot.parent _ p hon.found hne
    have hparent : parentOf s.mapBlockIndex p.hashBlock = some x := by
      rw [parentOf, hon.found]
      exact hx
    rw [(h.mainBlock_eq hget hon).2.2 x hx, hhash']
    refine hok.same_height (hon.anc.up hparent) hon'.anc ?_
    rw [hon'.heightOf_eq, heightOf, hmx, Option.map_some, Option.getD_some]
    have hself := hon.height
    omega
  · intro a ha
    obtain ⟨p, -, hon, hhash⟩ := hat a ha
    rw [hhash]
    obtain ⟨l, hlinks, hfollowing, hlen⟩ := hok.following hon.anc
    rw [hon.heightOf_eq] at hlen
    refine ⟨l, hlinks, List.ext_getElem? fun i => ?_⟩
    rw [List.getElem?_map, List.getElem?_map]
    cases hi : l[i]? with
    | none =>
      rw [List.getElem?_eq_none_iff] at hi
      rw [List.getElem?_eq_none (by rw [List.length_range']; omega)]
      rfl
    | some q =>
      have hlt := (List.getElem?_eq_some_iff.mp hi).1
      have hq := hok.following_onMain hfollowing hi
      rw [hon.heightOf_eq] at hq
      obtain ⟨r, -, hon', hhash'⟩ := hat (a + 1 + i) (by omega)
      rw [List.getElem?_range' (by omega), Nat.one_mul, Option.map_some, Option.map_some, hhash',
        hok.onMain_unique hq hon']

end Chain

section Serve

variable {env : Env} {s : NodeState} {hashStop : Uint256} {nLimit : Int} {x : Option Uint256}
  {l : List CBlockIndex}

theorem pushBlocks_batch {nHalf nBytes fuel : Nat} (hchain : PnextChain s.mapBlockIndex x l)
    (hfuel : l.length < fuel) :
    ∃ n r, n ≤ (beforeStop hashStop l).length ∧
      pushBlocks s hashStop nHalf fuel x nLimit nBytes =
        .ok ⟨((beforeStop hashStop l).map CBlockIndex.hashBlock).take n, r⟩ ∧
      (r = none ∧ n = (beforeStop hashStop l).length ∨
        0 < n ∧ r = ((beforeStop hashStop l).map CBlockIndex.hashBlock)[n - 1]?) := by
  induction l generalizing x fuel nLimit nBytes with
  | nil =>
    obtain ⟨fuel, rfl⟩ : ∃ k, fuel = k + 1 := ⟨fuel - 1, by omega⟩
    have hnull : x.bind s.mapBlockIndex = none := hchain
    exact ⟨0, none, le_rfl, by rw [pushBlocks, hnull]; rfl, .inl ⟨rfl, rfl⟩⟩
  | cons pindex rest ih =>
    obtain ⟨fuel, rfl⟩ : ∃ k, fuel = k + 1 := ⟨fuel - 1, by omega⟩
    obtain ⟨hpindex, hrest⟩ := hchain
    rw [pushBlocks, hpindex]
    dsimp only
    split
    · rename_i hstop
      have hnone : beforeStop hashStop (pindex :: rest) = [] :=
        List.takeWhile_cons_of_neg (by simp [hstop])
      rw [hnone]
      exact ⟨0, none, le_rfl, rfl, .inl ⟨rfl, rfl⟩⟩
    · rename_i hother
      have hmore : beforeStop hashStop (pindex :: rest) = pindex :: beforeStop hashStop rest :=
        List.takeWhile_cons_of_pos (by simp [hother])
      rw [hmore]
      split
      · exact ⟨1, some pindex.hashBlock, Nat.succ_le_succ (Nat.zero_le _), by simp,
          .inr ⟨Nat.one_pos, rfl⟩⟩
      · obtain ⟨n, r, hle, hrun, hend⟩ := @ih (nLimit - 1) pindex.pnext
          ((nBytes + blockSize s pindex) % 2 ^ 32) fuel hrest (Nat.lt_of_succ_lt_succ hfuel)
        refine ⟨n + 1, r, Nat.succ_le_succ hle, by rw [hrun]; rfl, ?_⟩
        rcases hend with ⟨hnone, hall⟩ | ⟨hpos, hlast⟩
        · exact .inl ⟨hnone, congrArg (· + 1) hall⟩
        · refine .inr ⟨Nat.succ_pos n, ?_⟩
          rw [hlast, List.map_cons, Nat.add_sub_cancel]
          obtain ⟨k, rfl⟩ : ∃ k, n = k + 1 := ⟨n - 1, by omega⟩
          rfl

variable {chain : Nat → CBlock} {nTip a : Nat}

theorem Chained.wanted (hc : Chained env s chain nTip) (hzero : ∀ h ≤ nTip, (chain h).getHash env ≠ 0)
    (ha : a ≤ nTip) (stopAtTip : Bool) {l : List CBlockIndex}
    (hl : l.map CBlockIndex.hashBlock =
      (List.range' (a + 1) (nTip - a)).map fun h => (chain h).getHash env) :
    (beforeStop (if stopAtTip then (chain nTip).getHash env else 0) l).map CBlockIndex.hashBlock =
      (List.range' (a + 1) (Download.lastWanted nTip stopAtTip - a)).map
        fun h => (chain h).getHash env := by
  have hcomp : (fun pindex : CBlockIndex => decide (pindex.hashBlock ≠
      if stopAtTip then (chain nTip).getHash env else 0)) =
      (fun hash => decide (hash ≠ if stopAtTip then (chain nTip).getHash env else 0)) ∘
        CBlockIndex.hashBlock := rfl
  rw [beforeStop, hcomp, ← List.takeWhile_map, hl, List.takeWhile_map]
  congr 1
  cases stopAtTip with
  | false =>
    refine List.takeWhile_eq_self_iff.mpr fun h hmem => ?_
    rw [List.mem_range'_1] at hmem
    rw [Function.comp_apply, if_neg Bool.false_ne_true, decide_eq_true_eq]
    exact hzero h (by omega)
  | true =>
    rw [if_pos rfl, Download.lastWanted, if_pos rfl]
    rcases Nat.eq_or_lt_of_le ha with rfl | hlt
    · rw [Nat.sub_self, show a - 1 - a = 0 by omega]
      rfl
    · have hsplit : List.range' (a + 1) (nTip - a) = List.range' (a + 1) (nTip - 1 - a) ++ [nTip] := by
        rw [show nTip - a = nTip - 1 - a + 1 by omega, List.range'_1_concat,
          show a + 1 + (nTip - 1 - a) = nTip by omega]
      have hbefore : ∀ h ∈ List.range' (a + 1) (nTip - 1 - a),
          ((fun hash => decide (hash ≠ (chain nTip).getHash env)) ∘
            fun h => (chain h).getHash env) h = true := by
        intro h hmem
        rw [List.mem_range'_1] at hmem
        rw [Function.comp_apply, decide_eq_true_eq]
        intro heq
        have hsame := hc.injective h (by omega) nTip le_rfl heq
        omega
      rw [hsplit, List.takeWhile_append_of_pos hbefore, List.takeWhile_cons_of_neg (by simp),
        List.append_nil]

theorem Chained.getblocks_eq (hc : Chained env s chain nTip)
    (hzero : ∀ h ≤ nTip, (chain h).getHash env ≠ 0) (ha : a ≤ nTip) (vHave : List Uint256)
    (stopAtTip : Bool) (nSendBuffer : Nat) :
    ∃ n resume, Download.Offered nTip a stopAtTip n resume ∧
      getblocks s nSendBuffer (s.nBestHeight.toNat + 1) ((chain a).getHash env :: vHave)
        (if stopAtTip then (chain nTip).getHash env else 0) =
      .ok ⟨(List.range' (a + 1) n).map fun h => (chain h).getHash env,
        resume.map fun h => (chain h).getHash env⟩ := by
  obtain ⟨l, hlinks, hl⟩ := hc.after a ha
  have hmain := hc.main a ha
  have hindex : locatorIndex s ((chain a).getHash env :: vHave) = some ((chain a).getHash env) := by
    rw [locatorIndex_find, List.find?_cons, hmain]
    rfl
  have hdistance : CBlockLocator.getDistanceBack s ((chain a).getHash env :: vHave) = .ok 0 := by
    rw [CBlockLocator.getDistanceBack_eq, CBlockLocator.missed_known hmain, if_pos (Nat.zero_le _)]
    rfl
  have hlen := congrArg List.length hl
  rw [List.length_map, List.length_map, List.length_range'] at hlen
  have hheight := hc.height
  obtain ⟨n, r, hle, hrun, hend⟩ := @pushBlocks_batch s
    (if stopAtTip then (chain nTip).getHash env else 0) (500 + 0) _ l (nSendBuffer / 2) 0
    (s.nBestHeight.toNat + 1) hlinks (by omega)
  have hwanted := hc.wanted hzero ha stopAtTip hl
  have hcount := congrArg List.length hwanted
  rw [List.length_map, List.length_map, List.length_range'] at hcount
  rw [Namecoin.getblocks_eq hindex hdistance (by decide), hrun, hwanted]
  have hle : n ≤ Download.lastWanted nTip stopAtTip - a := hcount ▸ hle
  rw [← List.map_take, List.take_range'_of_length_ge hle]
  rcases hend with ⟨rfl, hall⟩ | ⟨hpos, rfl⟩
  · exact ⟨n, none, ⟨hle, .inl ⟨rfl, hall.trans hcount⟩⟩, rfl⟩
  · refine ⟨n, some (a + n), ⟨hle, .inr ⟨hpos, rfl⟩⟩, ?_⟩
    rw [hwanted, List.getElem?_map, List.getElem?_range' (by omega), Option.map_some,
      show a + 1 + 1 * (n - 1) = a + n by omega]
    rfl

end Serve

end Namecoin
