import Namecoin.Chain.Overflow
import Namecoin.Wallet.Arrival
import Namecoin.Wallet.NameCoins

namespace Namecoin

open Std (TreeMap)

section Shuffle

variable {α : Type}

theorem swapAt_perm (l : List α) (i j : Nat) : (swapAt l i j).Perm l := by
  rw [swapAt]
  cases hi : l[i]? with
  | none => exact List.Perm.refl l
  | some a =>
    cases hj : l[j]? with
    | none => exact List.Perm.refl l
    | some b =>
      obtain ⟨hilt, rfl⟩ := List.getElem?_eq_some_iff.mp hi
      obtain ⟨hjlt, rfl⟩ := List.getElem?_eq_some_iff.mp hj
      exact List.set_set_perm hilt hjlt

theorem randomShuffle_perm (getRandInt : Nat → Nat) (l : List α) :
    (randomShuffle getRandInt l).Perm l := by
  have hfold : ∀ (is : List Nat) (l' : List α),
      (is.foldl (fun l i => swapAt l i (getRandInt i % (i + 1))) l').Perm l' := by
    intro is
    induction is with
    | nil => exact List.Perm.refl
    | cons i is ih => exact fun l' => (ih _).trans (swapAt_perm l' i _)
  exact hfold _ l

end Shuffle

def worth (l : List (Int × Coin)) : Int := (l.map Prod.fst).sum

theorem worth_perm {l l' : List (Int × Coin)} (h : l.Perm l') : worth l = worth l' :=
  (h.map Prod.fst).sum_eq

theorem worth_le {l l' : List (Int × Coin)} (h : l.Subperm l') (hpos : ∀ c ∈ l', 0 ≤ c.1) :
    worth l ≤ worth l' := by
  obtain ⟨l₁, hperm, hsub⟩ := h
  rw [← worth_perm hperm]
  apply (hsub.map Prod.fst).sum_le_sum
  intro n hn
  obtain ⟨c, hc, rfl⟩ := List.mem_map.mp hn
  exact hpos c hc

section Included

variable {vValue : List (Int × Coin)}

theorem included_cons (v : Int × Coin) (b : Bool) (bits : List Bool) :
    included (v :: vValue) (b :: bits) = (if b then [v] else []) ++ included vValue bits := by
  cases b <;> simp [included]

theorem included_sublist (vValue : List (Int × Coin)) (bits : List Bool) :
    (included vValue bits).Sublist vValue := by
  induction vValue generalizing bits with
  | nil => simp [included]
  | cons v vValue ih =>
    cases bits with
    | nil => simp [included]
    | cons b bits =>
      rw [included_cons]
      cases b with
      | false => exact (ih bits).cons v
      | true => exact (ih bits).cons_cons v

theorem worth_included_none (vValue : List (Int × Coin)) :
    worth (included vValue (List.replicate vValue.length false)) = 0 := by
  induction vValue with
  | nil => rfl
  | cons v vValue ih =>
    rw [List.length_cons, List.replicate_succ, included_cons]
    exact ih

theorem included_all (vValue : List (Int × Coin)) :
    included vValue (List.replicate vValue.length true) = vValue := by
  induction vValue with
  | nil => rfl
  | cons v vValue ih =>
    rw [List.length_cons, List.replicate_succ, included_cons, ih]
    rfl

theorem worth_included_set {bits : List Bool} {i : Nat} {v : Int × Coin}
    (hlen : bits.length = vValue.length) (hv : vValue[i]? = some v)
    (hnot : bits.getD i false = false) :
    worth (included vValue (bits.set i true)) = worth (included vValue bits) + v.1 := by
  induction vValue generalizing bits i with
  | nil => cases hv
  | cons u vValue ih =>
    cases bits with
    | nil => cases hlen
    | cons b bits =>
      have hrest : bits.length = vValue.length := Nat.succ_inj.mp hlen
      cases i with
      | zero =>
        cases hv
        cases b with
        | true => cases hnot
        | false =>
          rw [List.set_cons_zero, included_cons, included_cons]
          simp only [worth, if_true, Bool.false_eq_true, if_false, List.nil_append,
            List.cons_append, List.map_cons, List.sum_cons]
          omega
      | succ i =>
        have hstep := ih hrest hv hnot
        rw [List.set_cons_succ, included_cons, included_cons]
        simp only [worth, List.map_append, List.sum_append] at hstep ⊢
        omega

end Included

namespace Approx

variable {nTargetValue : Int} {vValue : List (Int × Coin)} {a : Approx}

structure Best (nTargetValue : Int) (vValue : List (Int × Coin)) (a : Approx) : Prop where
  size : a.vfBest.length = vValue.length
  sum : a.nBest = worth (included vValue a.vfBest)
  reached : nTargetValue ≤ a.nBest

structure Sums (nTargetValue : Int) (vValue : List (Int × Coin)) (a : Approx) : Prop
    extends a.Best nTargetValue vValue where
  sizeIncluded : a.vfIncluded.length = vValue.length
  total : a.nTotal = worth (included vValue a.vfIncluded)

theorem set_back {bits : List Bool} {i : Nat} (hnot : bits.getD i false = false) :
    (bits.set i true).set i false = bits := by
  rw [List.set_set]
  apply List.ext_getElem?
  intro j
  rw [List.getElem?_set]
  split
  · rename_i h
    subst h
    rw [List.getD_eq_getElem?_getD] at hnot
    split
    · rename_i hlt
      rw [List.getElem?_eq_getElem hlt] at hnot ⊢
      exact congrArg some hnot.symm
    · rename_i hge
      exact (List.getElem?_eq_none (not_lt.mp hge)).symm
  · rfl

theorem Sums.tryCoin {pick : Bool} {i : Nat} {v : Int × Coin} (h : a.Sums nTargetValue vValue)
    (hv : vValue[i]? = some v) (hpick : pick = true → a.vfIncluded.getD i false = false) :
    (a.tryCoin nTargetValue pick i v.1).Sums nTargetValue vValue ∧
      ∀ j, i ≠ j → (a.tryCoin nTargetValue pick i v.1).vfIncluded.getD j false =
        a.vfIncluded.getD j false := by
  cases pick with
  | false => exact ⟨h, fun _ _ => rfl⟩
  | true =>
    have hnot := hpick rfl
    have hsum := worth_included_set h.sizeIncluded hv hnot
    rw [← h.total] at hsum
    have hsize : (a.vfIncluded.set i true).length = vValue.length := by
      rw [List.length_set, h.sizeIncluded]
    rw [Approx.tryCoin, if_pos rfl]
    dsimp only
    split
    · rename_i hreached
      have htotal : a.nTotal + v.1 - v.1 = a.nTotal := by omega
      rw [set_back hnot, htotal]
      split
      · exact ⟨⟨⟨hsize, hsum.symm, hreached⟩, h.sizeIncluded, h.total⟩, fun _ _ => rfl⟩
      · exact ⟨⟨⟨h.size, h.sum, h.reached⟩, h.sizeIncluded, h.total⟩, fun _ _ => rfl⟩
    · refine ⟨⟨⟨h.size, h.sum, h.reached⟩, hsize, hsum.symm⟩, fun j hj => ?_⟩
      rw [List.getD_eq_getElem?_getD, List.getD_eq_getElem?_getD, List.getElem?_set_ne hj]

theorem Sums.pass {pick : Nat → Bool → Bool} {rest : List (Int × Coin)} :
    ∀ {i : Nat} {a : Approx}, a.Sums nTargetValue vValue → rest = vValue.drop i →
      (∀ j, i ≤ j → pick j (a.vfIncluded.getD j false) = true →
        a.vfIncluded.getD j false = false) →
      (Approx.pass nTargetValue pick rest i a).Sums nTargetValue vValue := by
  induction rest with
  | nil => exact fun h _ _ => h
  | cons v rest ih =>
    intro i a h hrest hpick
    have hv : vValue[i]? = some v := by rw [← List.head?_drop, ← hrest, List.head?_cons]
    obtain ⟨hsums, hframe⟩ := h.tryCoin hv (hpick i (le_refl i))
    refine ih hsums (by rw [← List.tail_drop, ← hrest, List.tail_cons]) ?_
    intro j hj hpicked
    rw [hframe j (by omega)] at hpicked ⊢
    exact hpick j (by omega) hpicked

theorem Best.rep {rand : Nat → Bool} (h : a.Best nTargetValue vValue) :
    (Approx.rep nTargetValue vValue rand a).Best nTargetValue vValue := by
  have hnone : ∀ j, (List.replicate vValue.length false).getD j false = false := by
    intro j
    rw [List.getD_eq_getElem?_getD, List.getElem?_replicate]
    split <;> rfl
  have hfirst : Sums nTargetValue vValue (Approx.pass nTargetValue (fun i _ => rand i) vValue 0
      ⟨0, List.replicate vValue.length false, false, a.nBest, a.vfBest⟩) := by
    refine Sums.pass ⟨⟨h.size, h.sum, h.reached⟩, List.length_replicate, ?_⟩ List.drop_zero.symm ?_
    · exact (worth_included_none vValue).symm
    · exact fun j _ _ => hnone j
  rw [Approx.rep]
  split
  · exact hfirst.toBest
  · refine (hfirst.pass List.drop_zero.symm ?_).toBest
    intro j _ hpicked
    simpa using hpicked

theorem Best.reps {rand : Nat → Nat → Bool} {n : Nat} (h : a.Best nTargetValue vValue) :
    (Approx.reps nTargetValue vValue rand n a).Best nTargetValue vValue := by
  induction n generalizing a with
  | zero => exact h
  | succ n ih =>
    rw [Approx.reps]
    split
    · exact h
    · exact ih h.rep

end Approx

namespace CoinScan

variable {nTargetValue : Int} {L : List (Int × Coin)} {r : CoinScan}

def putAll (nTargetValue : Int) (l : List (Int × Coin)) (r : CoinScan) : CoinScan :=
  l.foldl (fun r c => if r.exact.isSome then r else r.put nTargetValue c.1 c.2) r

structure Holds (nTargetValue : Int) (L : List (Int × Coin)) (r : CoinScan) : Prop where
  exact : ∀ c, r.exact = some c → c ∈ L ∧ c.1 = nTargetValue
  lower : r.exact = none → r.vValue = L.filter (fun c => decide (c.1 < nTargetValue + cent))
  total : r.nTotalLower = worth r.vValue
  larger : ∀ coin, r.lowestLarger.2 = some coin →
    (r.lowestLarger.1, coin) ∈ L ∧ nTargetValue + cent ≤ r.lowestLarger.1
  noneLarger : r.exact = none → r.lowestLarger.2 = none →
    r.lowestLarger.1 = int64Max ∧ ∀ c ∈ L, c.1 < int64Max → c.1 < nTargetValue + cent

theorem holds_start : CoinScan.start.Holds nTargetValue [] where
  exact := nofun
  lower _ := rfl
  total := rfl
  larger := nofun
  noneLarger _ _ := ⟨rfl, by simp⟩

theorem Holds.put {c : Int × Coin} (h : r.Holds nTargetValue L) (hnone : r.exact = none) :
    (r.put nTargetValue c.1 c.2).Holds nTargetValue (L ++ [c]) := by
  have hlast : c ∈ L ++ [c] := List.mem_append_right _ (List.mem_singleton_self c)
  have hold : ∀ {c'}, c' ∈ L → c' ∈ L ++ [c] := List.mem_append_left _
  rw [CoinScan.put]
  split
  · rename_i heq
    refine ⟨?_, nofun, h.total, fun coin hcoin => ?_, nofun⟩
    · intro c' hc'
      cases hc'
      exact ⟨hlast, heq⟩
    · exact ⟨hold (h.larger coin hcoin).1, (h.larger coin hcoin).2⟩
  · split
    · rename_i hlow
      refine ⟨fun c' hc' => ?_, fun _ => ?_, ?_, fun coin hcoin => ?_, fun _ hnoneL => ?_⟩
      · exact absurd (hnone.symm.trans hc') nofun
      · rw [List.filter_append, ← h.lower hnone, List.filter_singleton, decide_eq_true hlow]
        rfl
      · simp only [worth, List.map_append, List.sum_append, List.map_singleton, List.sum_singleton]
        rw [h.total, worth]
      · exact ⟨hold (h.larger coin hcoin).1, (h.larger coin hcoin).2⟩
      · obtain ⟨hmax, hall⟩ := h.noneLarger hnone hnoneL
        refine ⟨hmax, fun c' hc' hlt => ?_⟩
        rcases List.mem_append.mp hc' with hc' | hc'
        · exact hall c' hc' hlt
        · rwa [List.mem_singleton.mp hc']
    · rename_i hlow
      have hfilter : (L ++ [c]).filter (fun c => decide (c.1 < nTargetValue + cent)) =
          L.filter (fun c => decide (c.1 < nTargetValue + cent)) := by
        rw [List.filter_append, List.filter_singleton, decide_eq_false hlow]
        exact List.append_nil _
      split
      · refine ⟨fun c' hc' => ?_, fun _ => ?_, h.total, fun coin hcoin => ?_, nofun⟩
        · exact absurd (hnone.symm.trans hc') nofun
        · rw [hfilter]
          exact h.lower hnone
        · cases hcoin
          exact ⟨hlast, not_lt.mp hlow⟩
      · rename_i hmore
        refine ⟨fun c' hc' => ?_, fun _ => ?_, h.total, fun coin hcoin => ?_, fun _ hnoneL => ?_⟩
        · exact absurd (hnone.symm.trans hc') nofun
        · rw [hfilter]
          exact h.lower hnone
        · exact ⟨hold (h.larger coin hcoin).1, (h.larger coin hcoin).2⟩
        · obtain ⟨hmax, hall⟩ := h.noneLarger hnone hnoneL
          refine ⟨hmax, fun c' hc' hlt => ?_⟩
          rcases List.mem_append.mp hc' with hc' | hc'
          · exact hall c' hc' hlt
          · rw [List.mem_singleton.mp hc'] at hlt
            exact absurd hlt (by rwa [← hmax])

theorem Holds.grow {l : List (Int × Coin)} {c : Int × Coin} (h : r.Holds nTargetValue L)
    (hfound : r.exact = some c) : r.Holds nTargetValue (L ++ l) where
  exact c' hc' := ⟨List.mem_append_left _ (h.exact c' hc').1, (h.exact c' hc').2⟩
  lower hnone := absurd (hnone.symm.trans hfound) nofun
  total := h.total
  larger coin hcoin := ⟨List.mem_append_left _ (h.larger coin hcoin).1, (h.larger coin hcoin).2⟩
  noneLarger hnone := absurd (hnone.symm.trans hfound) nofun

theorem putAll_exact {l : List (Int × Coin)} (h : r.exact.isSome) :
    putAll nTargetValue l r = r := by
  induction l with
  | nil => rfl
  | cons c l ih =>
    rw [putAll, List.foldl_cons, if_pos h]
    exact ih

theorem putAll_cons {c : Int × Coin} {l : List (Int × Coin)} (h : r.exact = none) :
    putAll nTargetValue (c :: l) r = putAll nTargetValue l (r.put nTargetValue c.1 c.2) := by
  rw [putAll, List.foldl_cons, h]
  rfl

theorem Holds.putAll {l : List (Int × Coin)} (h : r.Holds nTargetValue L) :
    (putAll nTargetValue l r).Holds nTargetValue (L ++ l) := by
  induction l generalizing L r with
  | nil => rwa [List.append_nil]
  | cons c l ih =>
    cases hexact : r.exact with
    | some found =>
      rw [putAll_exact (by rw [hexact]; rfl)]
      exact h.grow hexact
    | none =>
      have hrest := ih (h.put (c := c) hexact)
      rw [List.append_assoc] at hrest
      rw [putAll_cons hexact]
      exact hrest

structure Chosen (nTargetValue : Int) (L l : List (Int × Coin)) : Prop where
  coins : l.Subperm L
  reached : nTargetValue ≤ worth l

theorem Chosen.perm {L' l : List (Int × Coin)} (h : Chosen nTargetValue L l) (hperm : L.Perm L') :
    Chosen nTargetValue L' l where
  coins := h.coins.trans hperm.subperm
  reached := h.reached

theorem Holds.chosen_exact {c : Int × Coin} (h : r.Holds nTargetValue L)
    (hfound : r.exact = some c) : Chosen nTargetValue L [c] ∧ worth [c] = nTargetValue := by
  obtain ⟨hin, hvalue⟩ := h.exact c hfound
  have hworth : worth [c] = nTargetValue := by
    rw [worth, List.map_singleton, List.sum_singleton, hvalue]
  exact ⟨⟨List.singleton_subperm_iff.mpr hin, hworth.ge⟩, hworth⟩

theorem Holds.largerCoin {l : List (Int × Coin)} (h : r.Holds nTargetValue L)
    (hl : r.largerCoin = some l) :
    l.Subperm L ∧ worth l = r.lowestLarger.1 ∧ nTargetValue + cent ≤ worth l := by
  obtain ⟨coin, hcoin, rfl⟩ := Option.map_eq_some_iff.mp hl
  obtain ⟨hin, hlow⟩ := h.larger coin hcoin
  have hworth : worth [(r.lowestLarger.1, coin)] = r.lowestLarger.1 := by
    rw [worth, List.map_singleton, List.sum_singleton]
  exact ⟨List.singleton_subperm_iff.mpr hin, hworth, by rwa [hworth]⟩

theorem Holds.closest {nGoal : Int} (ch : Choices) (nCall : Nat) (h : r.Holds nTargetValue L)
    (hnone : r.exact = none) (hgoal : nGoal ≤ nTargetValue + cent) (hlower : nGoal ≤ r.nTotalLower) :
    (r.closest nGoal ch nCall).Subperm L ∧ nGoal ≤ worth (r.closest nGoal ch nCall) := by
  have hsort : (r.vValue.mergeSort (descending ch.addr)).Perm r.vValue := List.mergeSort_perm _ _
  have hbest : (r.approximate nGoal ch nCall).2.Best nGoal (r.approximate nGoal ch nCall).1 := by
    refine Approx.Best.reps ⟨List.length_replicate, ?_, hlower⟩
    exact h.total.trans ((worth_perm hsort).symm.trans (congrArg worth (included_all _).symm))
  have hincluded : (included (r.approximate nGoal ch nCall).1
      (r.approximate nGoal ch nCall).2.vfBest).Subperm L := by
    have hlow : r.vValue.Subperm L := by
      rw [h.lower hnone]
      exact List.filter_sublist.subperm
    exact (included_sublist _ _).subperm.trans (hsort.subperm.trans hlow)
  have hreached := hbest.reached
  rw [hbest.sum] at hreached
  unfold CoinScan.closest
  dsimp only
  split
  · rename_i coins hcoins
    obtain ⟨hsub, -, hlarge⟩ := h.largerCoin hcoins
    split
    · exact ⟨hsub, by omega⟩
    · exact ⟨hincluded, hreached⟩
  · exact ⟨hincluded, hreached⟩

theorem Holds.lower_all (h : r.Holds nTargetValue L) (hnone : r.exact = none)
    (hlarger : r.largerCoin = none) (hmax : ∀ c ∈ L, c.1 < int64Max) :
    r.nTotalLower = worth L := by
  have hall : ∀ c ∈ L, c.1 < nTargetValue + cent :=
    fun c hc => (h.noneLarger hnone (Option.map_eq_none_iff.mp hlarger)).2 c hc (hmax c hc)
  rw [h.total, h.lower hnone, List.filter_eq_self.mpr fun c hc => decide_eq_true (hall c hc)]

theorem Holds.chosen {ch : Choices} {nCall : Nat} {l : List (Int × Coin)}
    (h : r.Holds nTargetValue L) (hnone : r.exact = none)
    (hl : r.choose nTargetValue ch nCall = some l) :
    Chosen nTargetValue L l ∧ (worth l = nTargetValue ∨ nTargetValue + cent ≤ worth l ∨
      (r.largerCoin = none ∧ r.nTotalLower < nTargetValue + cent)) := by
  have hcent : (0 : Int) < cent := by decide
  have hlow : r.vValue.Subperm L := by
    rw [h.lower hnone]
    exact List.filter_sublist.subperm
  unfold CoinScan.choose at hl
  split at hl
  · rename_i hsame
    cases hl
    rw [h.total] at hsame
    exact ⟨⟨hlow, by omega⟩, by omega⟩
  · split at hl
    · obtain ⟨hsub, -, hlarge⟩ := h.largerCoin hl
      exact ⟨⟨hsub, by omega⟩, .inr (.inl hlarge)⟩
    · rename_i hneeded
      split at hl
      · rename_i hmore
        cases hl
        obtain ⟨hsub, hreached⟩ := h.closest ch nCall hnone (le_refl _) hmore
        exact ⟨⟨hsub, by omega⟩, .inr (.inl hreached)⟩
      · rename_i hless
        cases hl
        rw [CoinScan.needed] at hneeded
        cases hlarger : r.largerCoin with
        | some coins =>
          rw [hlarger, Option.isSome_some, if_pos rfl] at hneeded
          omega
        | none =>
          rw [hlarger, Option.isSome_none, if_neg Bool.false_ne_true] at hneeded
          obtain ⟨hsub, hreached⟩ := h.closest ch nCall hnone
            (by omega : nTargetValue ≤ nTargetValue + cent) (by omega)
          exact ⟨⟨hsub, hreached⟩, .inr (.inr ⟨rfl, by omega⟩)⟩

theorem Holds.change {ch : Choices} {nCall : Nat} {l : List (Int × Coin)}
    (h : r.Holds nTargetValue L) (hnone : r.exact = none) (hmax : ∀ c ∈ L, c.1 < int64Max)
    (hl : r.choose nTargetValue ch nCall = some l) (hmore : nTargetValue + cent ≤ worth L) :
    worth l = nTargetValue ∨ nTargetValue + cent ≤ worth l := by
  rcases (h.chosen hnone hl).2 with hsame | hlarge | ⟨hlarger, hless⟩
  · exact .inl hsame
  · exact .inr hlarge
  · rw [h.lower_all hnone hlarger hmax] at hless
    exact absurd hmore (by omega)

theorem Holds.short {ch : Choices} {nCall : Nat} (h : r.Holds nTargetValue L)
    (hnone : r.exact = none) (hmax : ∀ c ∈ L, c.1 < int64Max)
    (hl : r.choose nTargetValue ch nCall = none) : worth L < nTargetValue := by
  unfold CoinScan.choose at hl
  split at hl
  · cases hl
  · split at hl
    · rename_i hneeded
      rw [CoinScan.needed, hl, Option.isSome_none, if_neg Bool.false_ne_true] at hneeded
      rw [← h.lower_all hnone hl hmax]
      omega
    · split at hl <;> cases hl

end CoinScan

namespace Wallet

variable {env : Env} (w : Wallet env) (e : NodeEnv) (s : NodeState) (fuel : Nat)

def selectable (wtx : WalletTx) (p : CTxOut × Nat) : Bool :=
  !wtx.spentAt p.2 && w.keys.isSpendable env p.1.scriptPubKey &&
    !decide (p.1.nValue ≤ 0 ∨ p.1.nValue < w.nMinimumInputValue)

def selectableCoins (pcoin : Uint256 × WalletTx) : List (Int × Coin) :=
  (pcoin.2.merkle.tx.vout.zipIdx.filter (w.selectable pcoin.2)).map
    (fun p => (p.1.nValue, (pcoin.1, p.2)))

def eligibleOuts (nConfMine nConfTheirs : Int) (pcoin : Uint256 × WalletTx) : List (Int × Coin) :=
  match w.eligible e s fuel nConfMine nConfTheirs pcoin.2 with
  | .ok true => w.selectableCoins pcoin
  | _ => []

def eligibleCoins (nConfMine nConfTheirs : Int) : List (Int × Coin) :=
  w.mapWallet.toList.flatMap (w.eligibleOuts e s fuel nConfMine nConfTheirs)

def coinValue (coin : Coin) : Int :=
  (((w.mapWallet[coin.1]?).bind (fun wtx => wtx.merkle.tx.vout[coin.2]?)).map CTxOut.nValue).getD 0

structure Picks (nTargetValue nConfMine nConfTheirs : Int) (setCoins : List Coin)
    (nValueRet : Int) : Prop where
  distinct : setCoins.Nodup
  eligible : ∀ coin ∈ setCoins,
    (w.coinValue coin, coin) ∈ w.eligibleCoins e s fuel nConfMine nConfTheirs
  sum : nValueRet = (setCoins.map w.coinValue).sum
  reached : nTargetValue ≤ nValueRet

-- What CheckTransaction leaves of the amounts of a transaction.
def MoneyKept (w : Wallet env) : Prop :=
  ∀ (hash : Uint256) (wtx : WalletTx), w.mapWallet[hash]? = some wtx →
    ∀ txout ∈ wtx.merkle.tx.vout, moneyRange txout.nValue = true

section Scan

variable {w e s fuel} {nTargetValue nConfMine nConfTheirs : Int} {r r' : CoinScan} {hash : Uint256}
  {wtx : WalletTx}

theorem scanOuts_ok {vout : List CTxOut} {i : Nat}
    (hlen : i + vout.length ≤ wtx.merkle.tx.vout.length) :
    w.scanOuts nTargetValue hash wtx vout i r =
      .ok (CoinScan.putAll nTargetValue (((vout.zipIdx i).filter (w.selectable wtx)).map
        (fun p => (p.1.nValue, (hash, p.2)))) r) := by
  induction vout generalizing i r with
  | nil => rfl
  | cons txout rest ih =>
    rw [List.length_cons] at hlen
    have hrest : i + 1 + rest.length ≤ wtx.merkle.tx.vout.length := by omega
    cases hexact : r.exact with
    | some found =>
      have hsome : r.exact.isSome := by
        rw [hexact]
        rfl
      rw [scanOuts, if_pos hsome, CoinScan.putAll_exact hsome]
      rfl
    | none =>
      have hspent : wtx.isSpent i = .ok (wtx.spentAt i) := by
        rw [CWalletTx.isSpent, if_neg (by omega)]
        rfl
      rw [scanOuts, hexact, if_neg (by simp), hspent]
      dsimp only [bind, Except.bind]
      have hselectable : w.selectable wtx (txout, i) = !(wtx.spentAt i ||
          !w.keys.isSpendable env txout.scriptPubKey ||
          decide (txout.nValue ≤ 0 ∨ txout.nValue < w.nMinimumInputValue)) := by
        simp only [selectable, Bool.not_or, Bool.not_not]
      rw [List.zipIdx_cons, List.filter_cons, hselectable]
      split
      · rename_i hskip
        rw [ih hrest, hskip]
        rfl
      · rename_i hkeep
        rw [Bool.not_eq_true] at hkeep
        rw [ih hrest, hkeep, Bool.not_false, if_pos rfl, List.map_cons, CoinScan.putAll_cons hexact]

theorem scanTxs_ok {vCoins : List (Uint256 × WalletTx)}
    (h : w.scanTxs e s fuel nTargetValue nConfMine nConfTheirs vCoins r = .ok r') :
    r' = CoinScan.putAll nTargetValue
      (vCoins.flatMap (w.eligibleOuts e s fuel nConfMine nConfTheirs)) r := by
  induction vCoins generalizing r with
  | nil =>
    cases h
    rfl
  | cons pcoin rest ih =>
    rw [scanTxs] at h
    split at h
    · rename_i hexact
      cases h
      exact (CoinScan.putAll_exact hexact).symm
    · obtain ⟨ok, hok, h⟩ := Except.bind_eq_ok.mp h
      rw [List.flatMap_cons, CoinScan.putAll, List.foldl_append]
      cases ok with
      | false =>
        have hnone : w.eligibleOuts e s fuel nConfMine nConfTheirs pcoin = [] := by
          rw [eligibleOuts, hok]
        rw [hnone]
        exact ih h
      | true =>
        have houts : w.eligibleOuts e s fuel nConfMine nConfTheirs pcoin =
            w.selectableCoins pcoin := by
          rw [eligibleOuts, hok]
        rw [if_pos rfl, scanOuts_ok (by omega)] at h
        rw [houts]
        exact ih h

end Scan

section Eligible

variable {w e s fuel} {nTargetValue nConfMine nConfTheirs : Int} {c : Int × Coin}

theorem mem_selectableCoins {pcoin : Uint256 × WalletTx} (h : c ∈ w.selectableCoins pcoin) :
    c.2.1 = pcoin.1 ∧ ∃ txout, pcoin.2.merkle.tx.vout[c.2.2]? = some txout ∧ c.1 = txout.nValue ∧
      0 < txout.nValue := by
  obtain ⟨⟨txout, i⟩, hp, rfl⟩ := List.mem_map.mp h
  obtain ⟨hin, hselectable⟩ := List.mem_filter.mp hp
  have hpos : 0 < txout.nValue := by
    simp only [selectable, Bool.and_eq_true, Bool.not_eq_true', decide_eq_false_iff_not,
      not_or] at hselectable
    omega
  exact ⟨rfl, txout, List.mem_zipIdx_iff_getElem?.mp hin, rfl, hpos⟩

theorem eligibleOuts_sublist (pcoin : Uint256 × WalletTx) :
    (w.eligibleOuts e s fuel nConfMine nConfTheirs pcoin).Sublist (w.selectableCoins pcoin) := by
  unfold eligibleOuts
  split
  · exact List.Sublist.refl _
  · exact List.nil_sublist _

theorem mem_eligibleCoins (h : c ∈ w.eligibleCoins e s fuel nConfMine nConfTheirs) :
    0 < c.1 ∧ w.coinValue c.2 = c.1 := by
  obtain ⟨⟨hash, wtx⟩, hpair, hc⟩ := List.mem_flatMap.mp h
  obtain ⟨hhash, txout, hout, hvalue, hpos⟩ :=
    mem_selectableCoins ((eligibleOuts_sublist _).subset hc)
  have hget := TreeMap.mem_toList_iff_getElem?_eq_some.mp hpair
  refine ⟨by omega, ?_⟩
  rw [coinValue, hhash, hget, Option.bind_some, hout, Option.map_some, Option.getD_some, hvalue]

theorem selectableCoins_nodup (pcoin : Uint256 × WalletTx) :
    ((w.selectableCoins pcoin).map Prod.snd).Nodup := by
  have hindex : (pcoin.2.merkle.tx.vout.zipIdx.map Prod.snd).Nodup := by
    rw [List.zipIdx_map_snd]
    exact List.nodup_range'
  have hfilter := (List.filter_sublist (p := w.selectable pcoin.2)
    (l := pcoin.2.merkle.tx.vout.zipIdx)).map Prod.snd
  rw [selectableCoins, List.map_map]
  have hcomp : (Prod.snd ∘ fun p : CTxOut × Nat => (p.1.nValue, ((pcoin.1, p.2) : Coin))) =
      (fun n => (pcoin.1, n)) ∘ Prod.snd := rfl
  rw [hcomp, ← List.map_map]
  exact (hindex.sublist hfilter).map fun i j hij => congrArg Prod.snd hij

theorem eligibleCoins_nodup :
    ((w.eligibleCoins e s fuel nConfMine nConfTheirs).map Prod.snd).Nodup := by
  have hkeys : w.mapWallet.toList.Pairwise (fun p q => p.1 ≠ q.1) :=
    TreeMap.distinct_keys_toList.imp fun hne heq =>
      hne (Std.LawfulEqCmp.compare_eq_iff_eq.mpr heq)
  rw [eligibleCoins, List.map_flatMap, List.nodup_flatMap]
  refine ⟨fun pcoin _ => ?_, hkeys.imp fun {p q} hne => ?_⟩
  · exact (selectableCoins_nodup pcoin).sublist ((eligibleOuts_sublist pcoin).map Prod.snd)
  · intro coin hp hq
    obtain ⟨c, hc, rfl⟩ := List.mem_map.mp hp
    obtain ⟨c', hc', hsame⟩ := List.mem_map.mp hq
    have h₁ := (mem_selectableCoins ((eligibleOuts_sublist _).subset hc)).1
    have h₂ := (mem_selectableCoins ((eligibleOuts_sublist _).subset hc')).1
    rw [hsame] at h₂
    exact hne (h₁.symm.trans h₂)

theorem picks_of_chosen {l : List (Int × Coin)}
    (h : CoinScan.Chosen nTargetValue (w.eligibleCoins e s fuel nConfMine nConfTheirs) l) :
    w.Picks e s fuel nTargetValue nConfMine nConfTheirs (setInsertAll l).1 (setInsertAll l).2 := by
  have hmem : ∀ c ∈ l, c ∈ w.eligibleCoins e s fuel nConfMine nConfTheirs := h.coins.subset
  have hnodup : (l.map Prod.snd).Nodup := by
    obtain ⟨l', hperm, hsub⟩ := h.coins
    exact (hperm.map Prod.snd).nodup_iff.mp (eligibleCoins_nodup.sublist (hsub.map Prod.snd))
  have hset : (setInsertAll l).1 = l.map Prod.snd := hnodup.dedup
  refine ⟨?_, ?_, ?_, h.reached⟩
  · rw [hset]
    exact hnodup
  · rw [hset]
    intro coin hcoin
    obtain ⟨c, hc, rfl⟩ := List.mem_map.mp hcoin
    rw [(mem_eligibleCoins (hmem c hc)).2]
    exact hmem c hc
  · rw [hset, List.map_map]
    exact congrArg List.sum (List.map_congr_left fun c hc => (mem_eligibleCoins (hmem c hc)).2.symm)

structure Scanned (w : Wallet env) (e : NodeEnv) (s : NodeState) (fuel : Nat)
    (nTargetValue nConfMine nConfTheirs : Int) (scan : CoinScan) (L : List (Int × Coin)) : Prop where
  holds : scan.Holds nTargetValue L
  perm : L.Perm (w.eligibleCoins e s fuel nConfMine nConfTheirs)

theorem selectCoinsMinConf_scanned {ch : Choices} {nCall : Nat} {r : Option (List Coin × Int)}
    (h : w.selectCoinsMinConf e s fuel nTargetValue nConfMine nConfTheirs ch nCall = .ok r) :
    ∃ scan L, w.Scanned e s fuel nTargetValue nConfMine nConfTheirs scan L ∧
      r = match scan.exact with
        | some coin => some (setInsertAll [coin])
        | none => (scan.choose nTargetValue ch nCall).map setInsertAll := by
  have hperm := randomShuffle_perm (ch.shuffle nCall) w.mapWallet.toList
  obtain ⟨scan, hscan, h⟩ := Except.bind_eq_ok.mp h
  refine ⟨scan, _, ⟨?_, hperm.flatMap_right (w.eligibleOuts e s fuel nConfMine nConfTheirs)⟩, ?_⟩
  · rw [scanTxs_ok hscan]
    exact CoinScan.holds_start.putAll
  · cases hexact : scan.exact with
    | some coin =>
      rw [hexact] at h
      cases h
      rfl
    | none =>
      rw [hexact] at h
      cases h
      rfl

theorem selectCoinsMinConf_picks {ch : Choices} {nCall : Nat} {setCoins : List Coin}
    {nValueRet : Int}
    (h : w.selectCoinsMinConf e s fuel nTargetValue nConfMine nConfTheirs ch nCall =
      .ok (some (setCoins, nValueRet))) :
    w.Picks e s fuel nTargetValue nConfMine nConfTheirs setCoins nValueRet := by
  obtain ⟨scan, L, hscanned, hr⟩ := selectCoinsMinConf_scanned h
  cases hexact : scan.exact with
  | some coin =>
    rw [hexact] at hr
    cases hr
    exact picks_of_chosen ((hscanned.holds.chosen_exact hexact).1.perm hscanned.perm)
  | none =>
    rw [hexact] at hr
    obtain ⟨l, hchoose, hset⟩ := Option.map_eq_some_iff.mp hr.symm
    cases hset
    exact picks_of_chosen ((hscanned.holds.chosen hexact hchoose).1.perm hscanned.perm)

end Eligible

end Wallet

end Namecoin
