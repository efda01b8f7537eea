import Namecoin.Lib.Doubling
import Namecoin.Node.Retarget
import Namecoin.Wallet.NetFee
import Namecoin.Wallet.SinceBlock

namespace Namecoin

open Act

namespace CBlockLocator

def doubleIf (p : Prop) [Decidable p] (nStep : Int) : Except Fault Int :=
  if p then toInt (nStep * 2) else .ok nStep

def setFrom : Nat → Int → List Uint256 → List CBlockIndex → Except Fault (List Uint256)
  | 0, _, _, _ => .error .undefined
  | _ + 1, _, vHave, [] => .ok vHave
  | fuel + 1, nStep, vHave, pindex :: pprev => do
    let vHave := vHave ++ [pindex.hashBlock]
    let walk := (pindex :: pprev).drop nStep.toNat
    let nStep ← doubleIf (10 < vHave.length) nStep
    setFrom fuel nStep vHave walk

def set (e : NodeEnv) (s : NodeState) (fuel : Nat) (hashBlock : Uint256) :
    Except Fault (List Uint256) := do
  let vHave ← setFrom fuel 1 [] (s.walk (some hashBlock))
  return vHave ++ [e.hashGenesisBlock]

def inMainChain (s : NodeState) (hash : Uint256) : Bool :=
  ((s.mapBlockIndex hash).map (fun pindex => pindex.isInMainChain s)).getD false

def distanceFrom (s : NodeState) : List Uint256 → Int → Int → Except Fault Int
  | [], nDistance, _ => .ok nDistance
  | hash :: vHave, nDistance, nStep =>
    if inMainChain s hash then .ok nDistance
    else do
      let nDistance ← toInt (nDistance + nStep)
      let nStep ← doubleIf (10 < nDistance) nStep
      distanceFrom s vHave nDistance nStep

def getDistanceBack (s : NodeState) (vHave : List Uint256) : Except Fault Int :=
  distanceFrom s vHave 0 1

def missed (s : NodeState) (vHave : List Uint256) : Nat :=
  (vHave.takeWhile (fun hash => !inMainChain s hash)).length

section Distance

variable {s : NodeState} {vHave : List Uint256} {hash : Uint256} {i k : Nat}

theorem missed_known (h : inMainChain s hash = true) : missed s (hash :: vHave) = 0 := by
  rw [missed, List.takeWhile_cons_of_neg (by rw [h]; decide)]
  rfl

theorem missed_unknown (h : inMainChain s hash = false) :
    missed s (hash :: vHave) = missed s vHave + 1 := by
  rw [missed, List.takeWhile_cons_of_pos (by rw [h]; decide)]
  rfl

theorem toInt_back (hi : i ≤ 40) : toInt (Doubling.back 10 i : Nat) = .ok (Doubling.back 10 i : Nat) := by
  have hle := (Doubling.back_strictMono (t := 10) (by decide)).monotone hi
  have htop : Doubling.back 10 40 = 9 + 2 ^ 30 := by decide
  refine toInt_ok ⟨by omega, ?_⟩
  omega

theorem step_le (hi : i ≤ 40) : Doubling.step 10 i ≤ 2 ^ 30 := by
  rw [Doubling.step]
  split
  · decide
  · exact Nat.pow_le_pow_right (by decide) (by omega)

theorem toInt_back_over : toInt (Doubling.back 10 41 : Nat) = .error .overflow := by decide

theorem doubleIf_step {p : Prop} [Decidable p] (hi : i + 1 ≤ 40) (hp : p ↔ 10 < i + 1) :
    doubleIf p (Doubling.step 10 i : Nat) = .ok ((Doubling.step 10 (i + 1) : Nat) : Int) := by
  have hnext := Doubling.step_succ 10 i
  have hbound := step_le hi
  rw [doubleIf]
  split
  · rename_i hfar
    rw [if_pos (hp.mp hfar)] at hnext
    rw [toInt_ok ⟨by omega, by omega⟩]
    congr 1
    omega
  · rename_i hnear
    rw [if_neg (fun hlong => hnear (hp.mpr hlong))] at hnext
    rw [hnext]

theorem distanceFrom_eq (hi : i ≤ 40) :
    distanceFrom s vHave (Doubling.back 10 i : Nat) (Doubling.step 10 i : Nat) =
      if i + missed s vHave ≤ 40 then .ok (Doubling.back 10 (i + missed s vHave) : Nat)
      else .error .overflow := by
  induction vHave generalizing i with
  | nil => exact (if_pos hi).symm
  | cons hash vHave ih =>
    rw [distanceFrom]
    cases hmain : inMainChain s hash with
    | true =>
      rw [missed_known hmain, Nat.add_zero, if_pos hi]
      rfl
    | false =>
      have hsum : ((Doubling.back 10 i : Nat) : Int) + (Doubling.step 10 i : Nat) =
          (Doubling.back 10 (i + 1) : Nat) := by
        rw [Doubling.back_succ (by decide)]
        omega
      rw [missed_unknown hmain, hsum, if_neg Bool.false_ne_true]
      rcases Nat.lt_or_ge i 40 with hlow | htop
      · have hfar : (10 : Int) < (Doubling.back 10 (i + 1) : Nat) ↔ 10 < i + 1 := by
          rw [← Doubling.lt_back (t := 10) (by decide)]
          omega
        have hrest := ih (i := i + 1) hlow
        rw [Nat.add_assoc, Nat.add_comm 1] at hrest
        rw [toInt_back (by omega), ← hrest]
        change doubleIf (10 < ((Doubling.back 10 (i + 1) : Nat) : Int)) _ >>= _ = _
        rw [doubleIf_step hlow hfar]
        rfl
      · obtain rfl : i = 40 := by omega
        rw [toInt_back_over, if_neg (by omega)]
        rfl

theorem getDistanceBack_eq (s : NodeState) (vHave : List Uint256) :
    getDistanceBack s vHave =
      if missed s vHave ≤ 40 then .ok (Doubling.back 10 (missed s vHave) : Nat)
      else .error .overflow := by
  have heq := @distanceFrom_eq s vHave 0 (by decide)
  rwa [Nat.zero_add] at heq

end Distance

section Sender

variable {e : NodeEnv} {s r : NodeState} {genesis x : Uint256} {i k : Nat}

theorem index_lt (h : Doubling.back 10 i < 2 ^ 30) : i + 1 ≤ 40 := by
  by_contra hmore
  have hle := (Doubling.back_strictMono (t := 10) (by decide)).monotone
    (show 40 ≤ i by omega)
  have htop : Doubling.back 10 40 = 9 + 2 ^ 30 := by decide
  omega

theorem locatorFrom_cons (fuel : Nat) (pindex : CBlockIndex) (pprev : List CBlockIndex) :
    locatorFrom (fuel + 1) (Doubling.step 10 i) i (pindex :: pprev) = pindex.hashBlock ::
      locatorFrom fuel (Doubling.step 10 (i + 1)) (i + 1)
        ((pindex :: pprev).drop (Doubling.step 10 i)) := by
  rw [locatorFrom, Doubling.step_succ]

theorem setFrom_eq {fuel fuel' : Nat} {vHave : List Uint256} {walk : List CBlockIndex}
    (hfuel : walk.length < fuel) (hfuel' : walk.length ≤ fuel') (hhave : vHave.length = i)
    (hlow : 0 < walk.length → walk.length + Doubling.back 10 i ≤ 2 ^ 30) :
    setFrom fuel (Doubling.step 10 i : Nat) vHave walk =
      .ok (vHave ++ locatorFrom fuel' (Doubling.step 10 i) i walk) := by
  induction fuel generalizing fuel' vHave walk i with
  | zero => omega
  | succ fuel ih =>
    cases walk with
    | nil =>
      have hnone : locatorFrom fuel' (Doubling.step 10 i) i [] = [] := by cases fuel' <;> rfl
      rw [setFrom, hnone, List.append_nil]
    | cons pindex pprev =>
      obtain ⟨fuel', rfl⟩ : ∃ n, fuel' = n + 1 := by
        rw [List.length_cons] at hfuel'
        exact ⟨fuel' - 1, by omega⟩
      have hpos := Doubling.step_pos 10 i
      have hnext := Doubling.back_succ (t := 10) (by decide) i
      have hlen := List.length_drop (i := Doubling.step 10 i) (l := pindex :: pprev)
      rw [List.length_cons] at hfuel hfuel' hlow hlen
      have hlength : (vHave ++ [pindex.hashBlock]).length = i + 1 := by
        rw [List.length_append, hhave]
        rfl
      have hdouble : doubleIf (10 < (vHave ++ [pindex.hashBlock]).length)
          (Doubling.step 10 i : Nat) = .ok ((Doubling.step 10 (i + 1) : Nat) : Int) := by
        have hroom := hlow (Nat.succ_pos _)
        refine doubleIf_step (index_lt (by omega)) ?_
        rw [hlength]
      rw [setFrom, hdouble, locatorFrom_cons, Int.toNat_natCast,
        List.append_cons vHave _ (locatorFrom _ _ _ _)]
      change setFrom fuel (Doubling.step 10 (i + 1) : Nat) (vHave ++ [pindex.hashBlock])
        ((pindex :: pprev).drop (Doubling.step 10 i)) = _
      refine ih (by omega) (by omega) hlength fun hmore => ?_
      have hroom := hlow (Nat.succ_pos _)
      omega

theorem locatorFrom_getElem {fuel : Nat} {walk : List CBlockIndex} (hfuel : walk.length ≤ fuel) :
    (locatorFrom fuel (Doubling.step 10 i) i walk)[k]? =
      (walk[Doubling.back 10 (i + k) - Doubling.back 10 i]?).map CBlockIndex.hashBlock := by
  induction fuel generalizing walk i k with
  | zero =>
    obtain rfl : walk = [] := List.eq_nil_of_length_eq_zero (by omega)
    rfl
  | succ fuel ih =>
    cases walk with
    | nil => rfl
    | cons pindex pprev =>
      rw [locatorFrom_cons]
      cases k with
      | zero => simp
      | succ k =>
        have hpos := Doubling.step_pos 10 i
        have hnext := Doubling.back_succ (t := 10) (by decide) i
        have hmono := (Doubling.back_strictMono (t := 10) (by decide)).monotone
          (show i + 1 ≤ i + 1 + k by omega)
        have hlen := List.length_drop (i := Doubling.step 10 i) (l := pindex :: pprev)
        rw [List.length_cons] at hfuel hlen
        rw [List.getElem?_cons_succ, ih (by omega), List.getElem?_drop,
          show i + (k + 1) = i + 1 + k by omega]
        congr 2
        omega

theorem locator_getElem (s : NodeState) (x : Uint256) (k : Nat) :
    (locatorFrom (s.walk (some x)).length 1 0 (s.walk (some x)))[k]? =
      ((s.walk (some x))[Doubling.back 10 k]?).map CBlockIndex.hashBlock := by
  have heq := locatorFrom_getElem (i := 0) (k := k) (le_refl (s.walk (some x)).length)
  rwa [Nat.zero_add, Doubling.back_zero, Nat.sub_zero] at heq

theorem missed_front {front : List Uint256} {hash : Uint256} (last : Uint256)
    (hk : front[k]? = some hash)
    (hknown : inMainChain r hash = true)
    (hearlier : ∀ j < k, ∀ h, front[j]? = some h → inMainChain r h = false) :
    missed r (front ++ [last]) = k ∧ locatorIndex r (front ++ [last]) = some hash := by
  induction front generalizing k with
  | nil => cases hk
  | cons h rest ih =>
    rw [List.cons_append, locatorIndex]
    cases k with
    | zero =>
      cases hk
      refine ⟨missed_known hknown, ?_⟩
      rw [inMainChain] at hknown
      cases hmap : r.mapBlockIndex hash with
      | none =>
        rw [hmap] at hknown
        cases hknown
      | some pindex =>
        rw [hmap, Option.map_some, Option.getD_some] at hknown
        exact if_pos hknown
    | succ k =>
      have hfirst := hearlier 0 (Nat.succ_pos k) h rfl
      obtain ⟨hmissed, hindex⟩ := ih hk fun j hj => hearlier (j + 1) (Nat.succ_lt_succ hj)
      refine ⟨by rw [missed_unknown hfirst, hmissed], ?_⟩
      rw [inMainChain] at hfirst
      cases hmap : r.mapBlockIndex h with
      | none => exact hindex
      | some pindex =>
        rw [hmap, Option.map_some, Option.getD_some] at hfirst
        dsimp only
        rw [if_neg (by rw [hfirst]; decide)]
        exact hindex

theorem walk_getElem (h : Rooted s.mapBlockIndex genesis) {p q : CBlockIndex} {d : Nat}
    (hp : s.mapBlockIndex x = some p) (hq : (s.walk (some x))[d]? = some q) :
    q.nHeight + d = p.nHeight ∧ s.mapBlockIndex q.hashBlock = some q ∧
      Forest.Anc (parentOf s.mapBlockIndex) q.hashBlock x := by
  have hsome : (s.mapBlockIndex x).isSome := by
    rw [hp]
    rfl
  have hheight : heightOf s.mapBlockIndex x = p.nHeight := by simp [heightOf, hp]
  obtain ⟨hchain, hlen⟩ := Rooted.fromGenesis h hsome
  have hmem := List.mem_of_getElem? hq
  have hanc := Rooted.anc_of_mem_walk h hsome (List.mem_map_of_mem hmem)
  have hat := hchain d q hq
  rw [hlen, hheight] at hat
  exact ⟨by omega, h.mem_pprevWalk hmem, hanc⟩

end Sender

theorem locator_retraced {env : Env} {hashGenesisBlock : Uint256} {s0 s : NodeState}
    (hstart : Started env hashGenesisBlock s0)
    (run : Relation.ReflTransGen (NodeStep env hashGenesisBlock) s0 s) {e : NodeEnv}
    (hgenesis : e.hashGenesisBlock = hashGenesisBlock) {x : Uint256} {p : CBlockIndex}
    (hp : s.mapBlockIndex x = some p) (hheight : p.nHeight < 2 ^ 30) :
    ∃ front : List Uint256,
      (∀ fuel, p.nHeight + 1 < fuel → set e s fuel x = .ok (front ++ [hashGenesisBlock])) ∧
      (∀ hash ∈ front, (s.mapBlockIndex hash).isSome ∧
        Forest.Anc (parentOf s.mapBlockIndex) hash x) ∧
      (front.map (heightOf s.mapBlockIndex)).Pairwise (fun a b => b < a) ∧
      ∀ (r : NodeState) (k : Nat) (hash : Uint256), front[k]? = some hash →
        inMainChain r hash = true →
        (∀ j < k, ∀ h, front[j]? = some h → inMainChain r h = false) →
        getDistanceBack r (front ++ [hashGenesisBlock]) =
          .ok (p.nHeight - heightOf s.mapBlockIndex hash) ∧
        locatorIndex r (front ++ [hashGenesisBlock]) = some hash := by
  obtain ⟨best, hok⟩ := treeOk_of_run hstart run
  have hroot : Rooted s.mapBlockIndex hashGenesisBlock := hok.rooted
  have hsome : (s.mapBlockIndex x).isSome := by
    rw [hp]
    rfl
  have hlen : (s.walk (some x)).length = p.nHeight + 1 := by
    have hlength := (Rooted.fromGenesis hroot hsome).2
    exact hlength.trans (by simp [heightOf, hp])
  have hat : ∀ k hash, (locatorFrom (s.walk (some x)).length 1 0 (s.walk (some x)))[k]? =
      some hash → heightOf s.mapBlockIndex hash + Doubling.back 10 k = p.nHeight ∧
        (s.mapBlockIndex hash).isSome ∧ Forest.Anc (parentOf s.mapBlockIndex) hash x := by
    intro k hash hk
    rw [locator_getElem] at hk
    obtain ⟨q, hq, rfl⟩ := Option.map_eq_some_iff.mp hk
    obtain ⟨hqh, hmq, hanc⟩ := walk_getElem hroot hp hq
    exact ⟨by simpa [heightOf, hmq] using hqh, by simp [hmq], hanc⟩
  refine ⟨locatorFrom (s.walk (some x)).length 1 0 (s.walk (some x)), ?_, ?_, ?_, ?_⟩
  · intro fuel hfuel
    have hset : setFrom fuel 1 [] (s.walk (some x)) =
        .ok ([] ++ locatorFrom (s.walk (some x)).length 1 0 (s.walk (some x))) := by
      refine setFrom_eq (i := 0) (by omega) le_rfl rfl fun _ => ?_
      rw [Doubling.back_zero]
      omega
    rw [set, hset, hgenesis]
    rfl
  · intro hash hmem
    obtain ⟨k, hk⟩ := List.mem_iff_getElem?.mp hmem
    exact (hat k hash hk).2
  · rw [List.pairwise_iff_getElem]
    intro j k hj hk hlt
    rw [List.length_map] at hj hk
    have hjh := (hat j _ (List.getElem?_eq_getElem hj)).1
    have hkh := (hat k _ (List.getElem?_eq_getElem hk)).1
    have hback := Doubling.back_strictMono (t := 10) (by decide) hlt
    rw [List.getElem_map, List.getElem_map]
    omega
  · intro r k hash hk hknown hearlier
    obtain ⟨hdist, -⟩ := hat k hash hk
    obtain ⟨hmissed, hindex⟩ := missed_front hashGenesisBlock hk hknown hearlier
    refine ⟨?_, hindex⟩
    have hlow : k ≤ 40 := Nat.le_of_succ_le (index_lt (by omega))
    rw [getDistanceBack_eq, hmissed, if_pos hlow]
    congr 1
    omega

end CBlockLocator

def nonzeroChain : Nat → CBlock
  | 0 => nonzeroGenesis
  | n + 1 => nonzeroBlock ((nonzeroChain n).getHash nonzeroEnv) (n + 2)

def climbedNode : Nat → NodeState
  | 0 => nonzeroNode
  | n + 1 => (exec (processBlock nonzeroNodeEnv (nonzeroChain (n + 1))) (climbedNode n)).2

theorem climbedNode_run (n : Nat) : Relation.ReflTransGen
    (NodeStep nonzeroEnv nonzeroNodeEnv.hashGenesisBlock) nonzeroNode (climbedNode n) := by
  induction n with
  | zero => exact .refl
  | succ n ih => exact ih.tail (.block nonzeroNodeEnv (nonzeroChain (n + 1)) rfl rfl)

def chainHash (n : Nat) : Uint256 := (nonzeroChain n).getHash nonzeroEnv

-- Twelve single steps back from block 20, then steps of two and four.
def climbedHeights : List Nat := [20, 19, 18, 17, 16, 15, 14, 13, 12, 11, 10, 9, 7, 3]

def climbedFront : List Uint256 := climbedHeights.map chainHash

theorem climbedNode_retraced :
    CBlockLocator.set nonzeroNodeEnv (climbedNode 20) 22 (chainHash 20) =
      .ok (climbedFront ++ [nonzeroNodeEnv.hashGenesisBlock]) ∧
    CBlockLocator.getDistanceBack (climbedNode 5)
      (climbedFront ++ [nonzeroNodeEnv.hashGenesisBlock]) = .ok 17 ∧
    locatorIndex (climbedNode 5) (climbedFront ++ [nonzeroNodeEnv.hashGenesisBlock]) =
      some (chainHash 3) := by
  have hmap : ((climbedNode 20).mapBlockIndex (chainHash 20)).map CBlockIndex.nHeight = some 20 := by
    decide +kernel
  obtain ⟨p, hp, hheight⟩ := Option.map_eq_some_iff.mp hmap
  have hlow : p.nHeight < 2 ^ 30 := by omega
  obtain ⟨front, hset, -, -, hback⟩ := CBlockLocator.locator_retraced nonzeroNode_started
    (climbedNode_run 20) (e := nonzeroNodeEnv) rfl hp hlow
  have hrun : CBlockLocator.set nonzeroNodeEnv (climbedNode 20) 22 (chainHash 20) =
      .ok (climbedFront ++ [nonzeroNodeEnv.hashGenesisBlock]) := by
    decide +kernel
  obtain rfl := List.append_cancel_right (Except.ok.inj ((hset 22 (by omega)).symm.trans hrun))
  have hknown : CBlockLocator.inMainChain (climbedNode 5) (chainHash 3) = true := by decide +kernel
  have hunknown : ∀ n ∈ [20, 19, 18, 17, 16, 15, 14, 13, 12, 11, 10, 9, 7],
      CBlockLocator.inMainChain (climbedNode 5) (chainHash n) = false := by
    decide +kernel
  have hearlier : ∀ j < 13, ∀ hash, climbedFront[j]? = some hash →
      CBlockLocator.inMainChain (climbedNode 5) hash = false := by
    intro j hj hash hget
    rw [climbedFront, List.getElem?_map] at hget
    obtain ⟨n, hn, rfl⟩ := Option.map_eq_some_iff.mp hget
    rw [← List.getElem?_take_of_lt hj] at hn
    exact hunknown n (List.mem_of_getElem? hn)
  obtain ⟨hdistance, hindex⟩ := hback (climbedNode 5) 13 (chainHash 3) rfl hknown hearlier
  have hroot : heightOf (climbedNode 20).mapBlockIndex (chainHash 3) = 3 := by decide +kernel
  rw [hroot, hheight] at hdistance
  exact ⟨hrun, hdistance, hindex⟩

end Namecoin
