import Namecoin.Wallet.CacheRun
import Namecoin.Name.Records

namespace Namecoin

open Std (TreeMap)

namespace OrderedSet

variable {α β γ : Type} [Ord α] [Std.TransOrd α] [Std.LawfulEqOrd α]

theorem size_le_of_subset {m : TreeMap α β} {m' : TreeMap α γ} (h : ∀ k, k ∈ m → k ∈ m') :
    m.size ≤ m'.size := by
  rw [← TreeMap.length_keys (t := m), ← TreeMap.length_keys (t := m')]
  apply List.Subperm.length_le
  apply List.subperm_of_subset TreeMap.nodup_keys
  intro k hk
  exact TreeMap.mem_keys.mpr (h k (TreeMap.mem_keys.mp hk))

end OrderedSet

theorem isConflictedTx_total (env : Env) (v : View) (db : DatabaseSet) (tx : CTransaction) :
    ∃ conflicted, isConflictedTx env v db tx = .ok conflicted := by
  unfold isConflictedTx
  split
  · exact ⟨false, rfl⟩
  · split
    · exact ⟨false, rfl⟩
    · rename_i d hd
      split
      · obtain ⟨vchName, hname⟩ := decodeNameTx_name hd
        rw [vchAt_ok.mpr hname]
        exact ⟨_, rfl⟩
      · exact ⟨false, rfl⟩

namespace Wallet

variable {env : Env} {w : Wallet env} {e : NodeEnv} {s : NodeState} {hash : Uint256}
  {wtx : WalletTx}

def ConflictedTx (e : NodeEnv) (s : NodeState) (env : Env) (wtx : WalletTx) : Prop :=
  wtx.getDepthInMainChain e s < 1 ∧
    isConflictedTx env (s.view e) s.chain.dbset wtx.merkle.tx = .ok true

structure RemovalClosed (e : NodeEnv) (s : NodeState) (w : Wallet env) (R : Set Uint256) : Prop where
  conflicted : ∀ hash wtx, w.mapWallet[hash]? = some wtx → ConflictedTx e s env wtx → hash ∈ R
  spends : ∀ hash wtx, w.mapWallet[hash]? = some wtx → ∀ txin ∈ wtx.merkle.tx.vin,
    txin.prevout.hash ∈ R → hash ∈ R

def cleanAdd (e : NodeEnv) (s : NodeState) (env : Env) (mapRemove : TreeMap Uint256 CTransaction)
    (wtx : WalletTx) : Except Fault (TreeMap Uint256 CTransaction) := do
  if wtx.getDepthInMainChain e s < 1 then
    let conflicted ← isConflictedTx env (s.view e) s.chain.dbset wtx.merkle.tx
    if conflicted then return mapRemove.insert (wtx.merkle.tx.getHash env) wtx.merkle.tx
  return mapRemove

def Copies (w : Wallet env) (m : TreeMap Uint256 CTransaction) : Prop :=
  ∀ k tx, m[k]? = some tx → w.txOf k = some tx

theorem mem_txs_iff : wtx ∈ w.txs ↔ w.mapWallet[wtx.merkle.tx.getHash env]? = some wtx := by
  constructor
  · intro hmem
    obtain ⟨⟨k, wtx'⟩, hpair, rfl⟩ := List.mem_map.mp hmem
    have hget := TreeMap.mem_toList_iff_getElem?_eq_some.mp hpair
    rwa [w.keyed k _ hget]
  · exact mem_txs

namespace Copies

variable {m : TreeMap Uint256 CTransaction}

theorem empty (w : Wallet env) : w.Copies ∅ := by
  intro k tx hget
  rw [TreeMap.getElem?_emptyc] at hget
  cases hget

theorem insert (h : w.Copies m) (hin : wtx ∈ w.txs) :
    w.Copies (m.insert (wtx.merkle.tx.getHash env) wtx.merkle.tx) := by
  intro k tx hget
  rw [TreeMap.getElem?_insert] at hget
  split at hget
  · rename_i heq
    cases hget
    rw [← Std.LawfulEqCmp.compare_eq_iff_eq.mp heq]
    exact txOf_of_get (mem_txs_iff.mp hin)
  · exact h k tx hget

theorem visit (h : w.Copies m) (hin : wtx ∈ w.txs) : w.Copies (cleanVisit env m wtx) := by
  unfold cleanVisit
  split
  · exact h.insert hin
  · exact h

theorem foldl_visit {l : List WalletTx} (h : w.Copies m) (hl : ∀ wtx ∈ l, wtx ∈ w.txs) :
    w.Copies (l.foldl (cleanVisit env) m) := by
  induction l generalizing m with
  | nil => exact h
  | cons wtx rest ih =>
    exact ih (h.visit (hl wtx List.mem_cons_self))
      (fun wtx' hin => hl wtx' (List.mem_cons_of_mem _ hin))

theorem held (h : w.Copies m) : ∀ k ∈ m, k ∈ w.mapWallet := by
  intro k hk
  obtain ⟨tx, htx⟩ := Option.isSome_iff_exists.mp (TreeMap.mem_iff_isSome_getElem?.mp hk)
  obtain ⟨wtx, hget, -⟩ := Option.map_eq_some_iff.mp (h k tx htx)
  exact TreeMap.mem_iff_isSome_getElem?.mpr (by simp [hget])

end Copies

section Start

theorem cleanAdd_ok {m : TreeMap Uint256 CTransaction} (hm : w.Copies m) (hin : wtx ∈ w.txs) :
    ∃ m', cleanAdd e s env m wtx = .ok m' ∧ w.Copies m' ∧ ∀ k, k ∈ m' ↔
      k ∈ m ∨ (ConflictedTx e s env wtx ∧ wtx.merkle.tx.getHash env = k) := by
  obtain ⟨conflicted, hconf⟩ := isConflictedTx_total env (s.view e) s.chain.dbset wtx.merkle.tx
  unfold cleanAdd ConflictedTx
  rw [hconf]
  rcases lt_or_ge (wtx.getDepthInMainChain e s) 1 with hdepth | hdepth
  · rw [if_pos hdepth]
    cases conflicted with
    | true =>
      refine ⟨_, rfl, hm.insert hin, fun k => ?_⟩
      rw [TreeMap.mem_insert, Std.LawfulEqCmp.compare_eq_iff_eq]
      simp [hdepth, or_comm]
    | false => exact ⟨_, rfl, hm, fun k => by simp⟩
  · rw [if_neg (by omega)]
    refine ⟨_, rfl, hm, fun k => ?_⟩
    have hnot : ¬wtx.getDepthInMainChain e s < 1 := by omega
    simp [hnot]

theorem foldlM_cleanAdd {l : List WalletTx} {m : TreeMap Uint256 CTransaction} (hm : w.Copies m)
    (hl : ∀ wtx ∈ l, wtx ∈ w.txs) :
    ∃ m', l.foldlM (cleanAdd e s env) m = .ok m' ∧ w.Copies m' ∧ ∀ k, k ∈ m' ↔
      k ∈ m ∨ ∃ wtx ∈ l, ConflictedTx e s env wtx ∧ wtx.merkle.tx.getHash env = k := by
  induction l generalizing m with
  | nil => exact ⟨m, rfl, hm, fun k => by simp⟩
  | cons wtx rest ih =>
    obtain ⟨m1, hm1, hcopies1, hmem1⟩ := cleanAdd_ok hm (hl wtx List.mem_cons_self)
    obtain ⟨m2, hm2, hcopies2, hmem2⟩ := ih hcopies1
      (fun wtx' hin => hl wtx' (List.mem_cons_of_mem _ hin))
    refine ⟨m2, ?_, hcopies2, fun k => ?_⟩
    · rw [List.foldlM_cons]
      exact Except.bind_eq_ok.mpr ⟨m1, hm1, hm2⟩
    · rw [hmem2, hmem1, List.exists_mem_cons_iff, or_assoc]

theorem cleanStart_ok (w : Wallet env) :
    ∃ m, w.cleanStart e s = .ok m ∧ w.Copies m ∧ ∀ k, k ∈ m ↔
      ∃ wtx, w.mapWallet[k]? = some wtx ∧ ConflictedTx e s env wtx := by
  obtain ⟨m, hm, hcopies, hmem⟩ :=
    @foldlM_cleanAdd env w e s w.txs ∅ (Copies.empty w) (fun _ hin => hin)
  refine ⟨m, hm, hcopies, fun k => ?_⟩
  rw [hmem]
  constructor
  · rintro (hnone | ⟨wtx, hin, hconf, rfl⟩)
    · exact absurd hnone TreeMap.not_mem_emptyc
    · exact ⟨wtx, mem_txs_iff.mp hin, hconf⟩
  · rintro ⟨wtx, hget, hconf⟩
    exact .inr ⟨wtx, mem_txs hget, hconf, w.keyed k wtx hget⟩

end Start

section Close

theorem mem_cleanVisit {m : TreeMap Uint256 CTransaction} {k : Uint256}
    (h : k ∈ cleanVisit env m wtx) : k ∈ m ∨ (wtx.merkle.tx.getHash env = k ∧
      ∃ txin ∈ wtx.merkle.tx.vin, txin.prevout.hash ∈ m) := by
  unfold cleanVisit at h
  split at h
  · rename_i hcond
    simp only [Bool.and_eq_true, List.any_eq_true, TreeMap.contains_iff_mem] at hcond
    rw [TreeMap.mem_insert, Std.LawfulEqCmp.compare_eq_iff_eq] at h
    exact h.elim (fun heq => .inr ⟨heq, hcond.1⟩) .inl
  · exact .inl h

theorem mem_cleanVisit_of_mem {m : TreeMap Uint256 CTransaction} {k : Uint256} (h : k ∈ m) :
    k ∈ cleanVisit env m wtx := by
  unfold cleanVisit
  split
  · exact TreeMap.mem_insert.mpr (.inr h)
  · exact h

theorem mem_foldl_cleanVisit_of_mem {l : List WalletTx} {m : TreeMap Uint256 CTransaction}
    {k : Uint256} (h : k ∈ m) : k ∈ l.foldl (cleanVisit env) m := by
  induction l generalizing m with
  | nil => exact h
  | cons wtx rest ih => exact ih (mem_cleanVisit_of_mem h)

theorem foldl_cleanVisit_within {R : Set Uint256} (hR : RemovalClosed e s w R)
    {l : List WalletTx} (hl : ∀ wtx ∈ l, wtx ∈ w.txs) {m : TreeMap Uint256 CTransaction}
    (hm : ∀ k ∈ m, k ∈ R) : ∀ k ∈ l.foldl (cleanVisit env) m, k ∈ R := by
  induction l generalizing m with
  | nil => exact hm
  | cons wtx rest ih =>
    refine ih (fun wtx' hin => hl wtx' (List.mem_cons_of_mem _ hin)) ?_
    intro k hk
    rcases mem_cleanVisit hk with hold | ⟨rfl, txin, hin, hprev⟩
    · exact hm k hold
    · exact hR.spends _ wtx (mem_txs_iff.mp (hl wtx List.mem_cons_self)) txin hin (hm _ hprev)

theorem cleanClose_ok {fuel : Nat} {m : TreeMap Uint256 CTransaction} (hm : w.Copies m)
    (hfuel : w.mapWallet.size < m.size + fuel) :
    ∃ m', w.cleanClose fuel m = .ok m' ∧ w.Copies m' ∧ ∀ k ∈ m, k ∈ m' := by
  induction fuel generalizing m with
  | zero =>
    have hsize := OrderedSet.size_le_of_subset hm.held
    omega
  | succ fuel ih =>
    have hgrown := hm.foldl_visit (fun _ h => h)
    have hkeep : ∀ k ∈ m, k ∈ w.txs.foldl (cleanVisit env) m :=
      fun k hk => mem_foldl_cleanVisit_of_mem hk
    rw [cleanClose]
    split
    · exact ⟨_, rfl, hgrown, hkeep⟩
    · rename_i hsize
      have hle := (@foldl_cleanVisit env w.txs m).1
      obtain ⟨m', hclose, hcopies, hsub⟩ := ih hgrown (by omega)
      exact ⟨m', hclose, hcopies, fun k hk => hsub k (hkeep k hk)⟩

theorem cleanClose_within {R : Set Uint256} (hR : RemovalClosed e s w R) {fuel : Nat}
    {m m' : TreeMap Uint256 CTransaction} (hm : ∀ k ∈ m, k ∈ R)
    (h : w.cleanClose fuel m = .ok m') : ∀ k ∈ m', k ∈ R := by
  induction fuel generalizing m with
  | zero => cases h
  | succ fuel ih =>
    have hgrown := foldl_cleanVisit_within hR (fun _ hin => hin) hm
    rw [cleanClose] at h
    split at h
    · cases h
      exact hgrown
    · exact ih hgrown h

theorem clean_least (w : Wallet env) : ∃ m0 m, w.cleanStart e s = .ok m0 ∧
    w.cleanClose (w.mapWallet.size + 1) m0 = .ok m ∧ w.Copies m ∧
    IsLeast {R | RemovalClosed e s w R} {k | k ∈ m} := by
  obtain ⟨m0, hstart, hcopies0, hmem⟩ := @cleanStart_ok env e s w
  have hfuel : w.mapWallet.size < m0.size + (w.mapWallet.size + 1) := by omega
  obtain ⟨m, hclose, hcopies, hsub⟩ := cleanClose_ok hcopies0 hfuel
  refine ⟨m0, m, hstart, hclose, hcopies, ⟨?_, ?_⟩, ?_⟩
  · intro hash wtx hget hconf
    exact hsub hash ((hmem hash).mpr ⟨wtx, hget, hconf⟩)
  · intro hash wtx hget txin htxin hprev
    have hself := cleanClose_closed hclose wtx (mem_txs hget) ⟨txin, htxin, hprev⟩
    rwa [w.keyed hash wtx hget] at hself
  · intro R hR k hk
    refine cleanClose_within hR ?_ hclose k hk
    intro k' hk'
    obtain ⟨wtx, hget, hconf⟩ := (hmem k').mp hk'
    exact hR.conflicted k' wtx hget hconf

end Close

section Remove

theorem holds_iff_txOf (w : Wallet env) (hash : Uint256) :
    w.Holds hash ↔ (w.txOf hash).isSome = true := by
  rw [Holds, txOf, Option.isSome_map]

def removedBy (w w' : Wallet env) : Set Uint256 := {hash | w.Holds hash ∧ ¬w'.Holds hash}

theorem removedBy_removeAll {m : TreeMap Uint256 CTransaction} (hcopies : w.Copies m) :
    w.removedBy (removeAll m.toList w) = {k | k ∈ m} := by
  ext k
  have hkeys : k ∈ m.toList.map Prod.fst ↔ k ∈ m := by
    rw [TreeMap.map_fst_toList_eq_keys, TreeMap.mem_keys]
  rw [removedBy, Set.mem_ofPred_eq, Set.mem_ofPred_eq, holds_iff_txOf, holds_iff_txOf, removeAll_txOf]
  split
  · rename_i hin
    have hmem := hkeys.mp hin
    have hw : (w.txOf k).isSome = true := by
      rw [← holds_iff_txOf]
      exact TreeMap.mem_iff_isSome_getElem?.mp (hcopies.held k hmem)
    simp [hmem, hw]
  · rename_i hout
    simp only [mt hkeys.mpr hout, iff_false]
    exact fun h => h.2 h.1

theorem kept_txOf {m : TreeMap Uint256 CTransaction}
    (hget : (removeAll m.toList w).mapWallet[hash]? = some wtx) :
    hash ∉ m ∧ w.txOf hash = some wtx.merkle.tx := by
  have htx := txOf_of_get hget
  rw [removeAll_txOf] at htx
  split at htx
  · cases htx
  · rename_i hout
    rw [TreeMap.map_fst_toList_eq_keys, TreeMap.mem_keys] at hout
    exact ⟨hout, htx⟩

theorem nameClean_removes (env : Env) (e : NodeEnv) (s : NodeState) (w : Wallet env) :
    ∃ w', w.nameClean e s = .ok w' ∧
      IsLeast {R | RemovalClosed e s w R} (w.removedBy w') ∧
      ∀ hash wtx, w'.mapWallet[hash]? = some wtx → w.txOf hash = some wtx.merkle.tx ∧
        ∀ txin ∈ wtx.merkle.tx.vin, txin.prevout.hash ∉ w.removedBy w' := by
  obtain ⟨m0, m, hstart, hclose, hcopies, hleast⟩ := @clean_least env e s w
  refine ⟨removeAll m.toList w, ?_, ?_, ?_⟩
  · exact Except.bind_eq_ok.mpr ⟨m0, hstart, Except.bind_eq_ok.mpr ⟨m, hclose, rfl⟩⟩
  · rw [removedBy_removeAll hcopies]
    exact hleast
  · intro hash wtx hget
    obtain ⟨hkept, htx⟩ := kept_txOf hget
    refine ⟨htx, fun txin hin hprev => hkept ?_⟩
    rw [removedBy_removeAll hcopies] at hprev
    obtain ⟨old, hold, hsame⟩ := Option.map_eq_some_iff.mp htx
    rw [← hsame] at hin
    exact hleast.1.spends hash old hold txin hin hprev

end Remove

end Wallet

end Namecoin
