import Namecoin.Wallet.Caches
import Namecoin.Wallet.NameCoins

namespace Namecoin

open Std (TreeMap)

namespace Wallet

section Steps

variable {env : Env} {w w' : Wallet env} {wtx wtx' : WalletTx} {e : NodeEnv} {s : NodeState}
  {P : Uint256 → Prop} {hash : Uint256}

section Clean

theorem cleanVisit_size (m : TreeMap Uint256 CTransaction) (wtx : WalletTx) :
    m.size ≤ (cleanVisit env m wtx).size ∧ ((cleanVisit env m wtx).size = m.size →
      cleanVisit env m wtx = m ∧ ((∃ txin ∈ wtx.merkle.tx.vin, txin.prevout.hash ∈ m) →
        wtx.merkle.tx.getHash env ∈ m)) := by
  unfold cleanVisit
  split
  · rename_i hcond
    simp only [Bool.and_eq_true, Bool.not_eq_true'] at hcond
    rw [TreeMap.size_insert, if_neg (by simp [hcond.2])]
    refine ⟨Nat.le_succ _, ?_⟩
    intro heq
    omega
  · rename_i hcond
    refine ⟨Nat.le_refl _, fun _ => ⟨rfl, ?_⟩⟩
    rintro ⟨txin, hin, hmem⟩
    by_contra hnew
    apply hcond
    simp only [Bool.and_eq_true, List.any_eq_true, Bool.not_eq_true']
    refine ⟨⟨txin, hin, TreeMap.contains_iff_mem.mpr hmem⟩, ?_⟩
    rw [← Bool.not_eq_true, TreeMap.contains_iff_mem]
    exact hnew

theorem foldl_cleanVisit (l : List WalletTx) (m : TreeMap Uint256 CTransaction) :
    m.size ≤ (l.foldl (cleanVisit env) m).size ∧
      ((l.foldl (cleanVisit env) m).size = m.size → l.foldl (cleanVisit env) m = m ∧
        ∀ wtx ∈ l, (∃ txin ∈ wtx.merkle.tx.vin, txin.prevout.hash ∈ m) →
          wtx.merkle.tx.getHash env ∈ m) := by
  induction l generalizing m with
  | nil => exact ⟨Nat.le_refl _, fun _ => ⟨rfl, fun _ hmem => absurd hmem List.not_mem_nil⟩⟩
  | cons wtx rest ih =>
    obtain ⟨hle, hsame⟩ := @cleanVisit_size env m wtx
    obtain ⟨hle', hsame'⟩ := ih (cleanVisit env m wtx)
    rw [List.foldl_cons]
    refine ⟨hle.trans hle', ?_⟩
    intro heq
    obtain ⟨hstay, hfirst⟩ := hsame (by omega)
    rw [hstay] at hsame' heq ⊢
    obtain ⟨hfold, hrest⟩ := hsame' heq
    exact ⟨hfold, List.forall_mem_cons.mpr ⟨hfirst, hrest⟩⟩

def Closed (w : Wallet env) (m : TreeMap Uint256 CTransaction) : Prop :=
  ∀ wtx ∈ w.txs, (∃ txin ∈ wtx.merkle.tx.vin, txin.prevout.hash ∈ m) →
    wtx.merkle.tx.getHash env ∈ m

theorem cleanClose_closed {fuel : Nat} {m m' : TreeMap Uint256 CTransaction}
    (h : w.cleanClose fuel m = .ok m') : w.Closed m' := by
  induction fuel generalizing m with
  | zero => cases h
  | succ fuel ih =>
    rw [cleanClose] at h
    split at h
    · rename_i hsize
      cases h
      obtain ⟨hstay, hclosed⟩ := (foldl_cleanVisit w.txs m).2 hsize
      rw [hstay]
      exact hclosed
    · exact ih h

def SpendsWithin (P : Uint256 → Prop) (w : Wallet env) : Prop :=
  ∀ (k : Uint256) (wtx : WalletTx), w.mapWallet[k]? = some wtx → P k →
    ∀ txin ∈ wtx.merkle.tx.vin, P txin.prevout.hash

theorem CoherentOn.erase_unused (h : CoherentOn P w) (hfree : SpendsWithin P w) (hP : ¬P hash) :
    CoherentOn P (w.eraseFromWallet hash) := by
  intro k wtx hk hPk
  simp only [eraseFromWallet, TreeMap.getElem?_erase, Std.LawfulEqCmp.compare_eq_iff_eq] at hk
  split at hk
  · cases hk
  · have hsame : ∀ txin ∈ wtx.merkle.tx.vin,
        (w.eraseFromWallet hash).txOf txin.prevout.hash = w.txOf txin.prevout.hash := by
      intro txin hin
      rw [txOf_erase, if_neg]
      rintro rfl
      exact hP (hfree k wtx hk hPk txin hin)
    refine (h k wtx hk hPk).transfer rfl ?_ ?_
    · intro _ txin hin
      rw [getDebit_eq, getDebit_eq, hsame txin hin]
      rfl
    · intro _ txin hin
      rw [getDebitInclName_eq, getDebitInclName_eq, hsame txin hin]
      rfl

theorem SpendsWithin.rewrites (h : SpendsWithin P w) (hr : Rewrites w w') :
    SpendsWithin P w' := by
  intro k wtx' hk hP
  obtain ⟨wtx, hget, ht⟩ := hr.touched k wtx' hk
  rw [ht.tx]
  exact h k wtx hget hP

theorem SpendsWithin.erase (h : SpendsWithin P w) (hash : Uint256) :
    SpendsWithin P (w.eraseFromWallet hash) := by
  intro k wtx hk hP
  simp only [eraseFromWallet, TreeMap.getElem?_erase] at hk
  split at hk
  · cases hk
  · exact h k wtx hk hP

def removeAll (l : List (Uint256 × CTransaction)) (w : Wallet env) : Wallet env :=
  l.foldl (fun w p => w.removeTx p.1 p.2) w

theorem removeTx_txOf (hash k : Uint256) (tx : CTransaction) (w : Wallet env) :
    (w.removeTx hash tx).txOf k = if hash = k then none else w.txOf k := by
  rw [removeTx, txOf_erase, (unspendInputs_rewrites tx.vin w).alike.tx]

theorem removeAll_txOf (l : List (Uint256 × CTransaction)) (w : Wallet env) (k : Uint256) :
    (removeAll l w).txOf k = if k ∈ l.map Prod.fst then none else w.txOf k := by
  induction l generalizing w with
  | nil => rfl
  | cons p rest ih =>
    rw [removeAll, List.foldl_cons]
    refine (ih (w.removeTx p.1 p.2)).trans ?_
    rw [removeTx_txOf, List.map_cons]
    by_cases hrest : k ∈ rest.map Prod.fst
    · rw [if_pos hrest, if_pos (List.mem_cons_of_mem _ hrest)]
    · rw [if_neg hrest]
      by_cases heq : p.1 = k
      · rw [if_pos heq, if_pos (heq ▸ List.mem_cons_self)]
      · rw [if_neg heq, if_neg (by simp [hrest, Ne.symm heq])]

theorem removeAll_coherent {l : List (Uint256 × CTransaction)} (h : CoherentOn P w)
    (hfree : SpendsWithin P w) (hl : ∀ p ∈ l, ¬P p.1) : CoherentOn P (removeAll l w) := by
  induction l generalizing w with
  | nil => exact h
  | cons p rest ih =>
    have hunspent := unspendInputs_rewrites p.2.vin w
    have hfree' := hfree.rewrites hunspent
    exact ih ((hunspent.coherent P h).erase_unused hfree' (hl p List.mem_cons_self))
      (hfree'.erase p.1) (fun q hq => hl q (List.mem_cons_of_mem _ hq))

theorem AllCoherent.nameClean (h : w.AllCoherent) (hclean : nameClean e s w = .ok w') :
    w'.AllCoherent := by
  obtain ⟨m0, -, hclean⟩ := Except.bind_eq_ok.mp hclean
  obtain ⟨m, hm, hclean⟩ := Except.bind_eq_ok.mp hclean
  cases hclean
  have hclosed := cleanClose_closed hm
  have hkeys : ∀ k, k ∈ m.toList.map Prod.fst ↔ k ∈ m := by
    intro k
    rw [TreeMap.map_fst_toList_eq_keys, TreeMap.mem_keys]
  have hfree : SpendsWithin (fun k => k ∉ m) w := by
    intro k wtx hk hP txin hin hmem
    have hself := hclosed wtx (mem_txs hk) ⟨txin, hin, hmem⟩
    rw [w.keyed k wtx hk] at hself
    exact hP hself
  have hl : ∀ p ∈ m.toList, ¬p.1 ∉ m :=
    fun p hp hnot => hnot ((hkeys p.1).mp (List.mem_map_of_mem hp))
  have hcoherent := removeAll_coherent (fun k wtx hk _ => h k wtx hk trivial) hfree hl
  intro k wtx hk _
  have htx := txOf_of_get hk
  refine hcoherent k wtx hk (fun hmem => ?_)
  rw [← removeAll, removeAll_txOf, if_pos ((hkeys k).mpr hmem)] at htx
  cases htx

end Clean

section Scan

def Undebited (w : Wallet env) : Prop :=
  ∀ (hash : Uint256) (wtx : WalletTx), w.mapWallet[hash]? = some wtx →
    wtx.nDebitCached = none ∧ wtx.nDebitInclNameCached = none

theorem Undebited.idle (h : w.Undebited) (hash : Uint256) (tx : CTransaction) : w.Idle hash tx := by
  intro k wtx hk _ txin _ _
  obtain ⟨hplain, hown⟩ := h k wtx hk
  rw [hplain, hown]
  exact ⟨fun hs => absurd hs (by simp), fun hs => absurd hs (by simp)⟩

theorem Undebited.rewrites (h : w.Undebited) (hr : Rewrites w w') : w'.Undebited := by
  intro hash wtx' hget
  obtain ⟨wtx, hold, ht⟩ := hr.touched hash wtx' hget
  obtain ⟨hplain, hown⟩ := h hash wtx hold
  refine ⟨?_, ?_⟩
  · rw [← Option.not_isSome_iff_eq_none]
    intro hs
    simpa [hplain] using ht.debit hs
  · rw [← Option.not_isSome_iff_eq_none]
    intro hs
    simpa [hown] using ht.debitInclName hs

variable {tx : CTransaction} {pblock : Option CBlock} {fUpdate added : Bool}

theorem arrived_tx (env : Env) (tx : CTransaction) (pblock : Option CBlock) :
    (WalletTx.arrived env tx pblock).merkle.tx = tx := by
  cases pblock with
  | none => rfl
  | some block =>
    simp only [WalletTx.arrived, Option.map_some, Option.getD_some, CWallet.setMerkleBranch]
    split <;> rfl

theorem coherent_arrived (w : Wallet env) (tx : CTransaction) (pblock : Option CBlock) :
    w.Coherent (WalletTx.arrived env tx pblock) := by
  refine ⟨?_, ?_, ?_, ?_⟩ <;> (intro n hn; cases hn)

def ArriveSafe (w : Wallet env) (tx : CTransaction) : Prop :=
  w.txOf (tx.getHash env) = none → w.toCWallet.involvesMe env tx = .ok true →
    w.Idle (tx.getHash env) tx

theorem addToWalletIfInvolvingMe_cases
    (h : addToWalletIfInvolvingMe e s tx pblock fUpdate w = .ok (added, w')) :
    Rewrites w w' ∨ (w.toCWallet.involvesMe env tx = .ok true ∧
      addToWallet e s (WalletTx.arrived env tx pblock) w = .ok w') := by
  unfold addToWalletIfInvolvingMe at h
  split at h
  · cases h
    exact .inl (.refl _)
  · obtain ⟨involved, hinvolved, h⟩ := Except.bind_eq_ok.mp h
    cases involved with
    | true =>
      obtain ⟨w1, hw1, heq⟩ := map_eq_ok h
      cases heq
      exact .inr ⟨hinvolved, hw1⟩
    | false =>
      obtain ⟨w1, hw1, heq⟩ := map_eq_ok h
      cases heq
      exact .inl (walletUpdateSpent_rewrites hw1)

theorem AllCoherent.arrive (h : w.AllCoherent) (hsafe : w.ArriveSafe tx)
    (hadd : addToWalletIfInvolvingMe e s tx pblock fUpdate w = .ok (added, w')) :
    w'.AllCoherent := by
  rcases addToWalletIfInvolvingMe_cases hadd with hr | ⟨hinvolved, hadd⟩
  · exact hr.coherent _ h
  · refine h.addToWallet ?_ hadd
    rw [arrived_tx]
    intro hnew
    refine ⟨?_, coherent_arrived _ _ _⟩
    rw [arrived_tx]
    exact hsafe hnew hinvolved

theorem Undebited.putTx {wtxIn : WalletTx} (h : w.Undebited)
    (hin : wtxIn.nDebitCached = none ∧ wtxIn.nDebitInclNameCached = none) :
    (w.putTx wtxIn).Undebited := by
  intro k wtx hk
  rw [getElem?_putTx] at hk
  split at hk
  · cases hk
    exact hin
  · exact h k wtx hk

theorem Undebited.addToWallet {wtxIn : WalletTx} (h : w.Undebited)
    (hin : wtxIn.nDebitCached = none ∧ wtxIn.nDebitInclNameCached = none)
    (hadd : Wallet.addToWallet e s wtxIn w = .ok w') : w'.Undebited := by
  unfold Wallet.addToWallet at hadd
  dsimp only at hadd
  refine Undebited.rewrites ?_ (walletUpdateSpent_rewrites hadd)
  cases hold : w.mapWallet[wtxIn.merkle.tx.getHash env]? with
  | none => exact h.putTx hin
  | some old => exact h.rewrites (rewrites_putTx hold (merge_touched old wtxIn) (·.merge wtxIn))

theorem Undebited.arrive (h : w.Undebited)
    (hadd : addToWalletIfInvolvingMe e s tx pblock fUpdate w = .ok (added, w')) :
    w'.Undebited := by
  rcases addToWalletIfInvolvingMe_cases hadd with hr | ⟨-, hadd⟩
  · exact h.rewrites hr
  · exact h.addToWallet ⟨rfl, rfl⟩ hadd

def ScanSafe (e : NodeEnv) (s : NodeState) (fUpdate : Bool) :
    List (CTransaction × CBlock) → Wallet env → Prop
  | [], _ => True
  | (tx, block) :: rest, w => w.ArriveSafe tx ∧
    ∀ added w', addToWalletIfInvolvingMe e s tx (some block) fUpdate w = .ok (added, w') →
      ScanSafe e s fUpdate rest w'

variable {vtx : List (CTransaction × CBlock)} {ret fuel : Nat}

theorem AllCoherent.scan (h : w.AllCoherent) (hsafe : ScanSafe e s fUpdate vtx w)
    (hscan : scanForWalletTransactions e s fUpdate vtx w = .ok (ret, w')) : w'.AllCoherent := by
  induction vtx generalizing w ret with
  | nil =>
    cases hscan
    exact h
  | cons p rest ih =>
    obtain ⟨tx, block⟩ := p
    obtain ⟨⟨added, w1⟩, hw1, hscan⟩ := Except.bind_eq_ok.mp hscan
    obtain ⟨⟨ret', w2⟩, hw2, hscan⟩ := Except.bind_eq_ok.mp hscan
    cases hscan
    exact ih (h.arrive hsafe.1 hw1) (hsafe.2 added w1 hw1) hw2

theorem Undebited.scan (h : w.Undebited)
    (hscan : scanForWalletTransactions e s fUpdate vtx w = .ok (ret, w')) : w'.Undebited := by
  induction vtx generalizing w ret with
  | nil =>
    cases hscan
    exact h
  | cons p rest ih =>
    obtain ⟨tx, block⟩ := p
    obtain ⟨⟨added, w1⟩, hw1, hscan⟩ := Except.bind_eq_ok.mp hscan
    obtain ⟨⟨ret', w2⟩, hw2, hscan⟩ := Except.bind_eq_ok.mp hscan
    cases hscan
    exact ih (h.arrive hw1) hw2

theorem Undebited.scanSafe (h : w.Undebited) : ScanSafe e s fUpdate vtx w := by
  induction vtx generalizing w with
  | nil => trivial
  | cons p rest ih => exact ⟨fun _ _ => h.idle _ _, fun _ _ hadd => ih (h.arrive hadd)⟩

theorem foldlM_markSpent_tx {l : List Nat} (h : l.foldlM WalletTx.markSpent wtx = .ok wtx') :
    wtx'.merkle.tx = wtx.merkle.tx := by
  induction l generalizing wtx with
  | nil =>
    cases h
    rfl
  | cons n rest ih =>
    rw [List.foldlM_cons] at h
    obtain ⟨marked, hmarked, h⟩ := Except.bind_eq_ok.mp h
    rw [ih h, (markSpent_touched hmarked).tx]

theorem markElsewhere_rewrites {fUpdated : Bool}
    (htx : w.txOf (wtx.merkle.tx.getHash env) = some wtx.merkle.tx)
    (h : markElsewhere e s wtx w = .ok (fUpdated, w')) : Rewrites w w' := by
  obtain ⟨cur, hcur, hsame⟩ := Option.map_eq_some_iff.mp htx
  unfold markElsewhere at h
  split at h
  · cases h
    exact .refl _
  · split at h
    · cases h
      exact .refl _
    · split at h
      · cases h
        exact .refl _
      · obtain ⟨marked, hmarked, h⟩ := Except.bind_eq_ok.mp h
        obtain ⟨filled, hfilled, h⟩ := Except.bind_eq_ok.mp h
        cases h
        refine rewrites_putTx hcur ⟨?_, ?_, ?_⟩ (fun _ => coherent_markDirty w filled)
        · rw [hsame, ← foldlM_markSpent_tx hmarked]
          exact (fillCredit_touched hfilled).tx
        · intro hs
          cases hs
        · intro hs
          cases hs

theorem reacceptTx_rewrites {fUpdated : Bool}
    (htx : w.txOf (wtx.merkle.tx.getHash env) = some wtx.merkle.tx)
    (h : reacceptTx e s wtx w = .ok (fUpdated, w')) : Rewrites w w' := by
  unfold reacceptTx at h
  split at h
  · obtain ⟨spent, -, h⟩ := Except.bind_eq_ok.mp h
    cases spent with
    | true =>
      cases h
      exact .refl _
    | false => exact markElsewhere_rewrites htx h
  · exact markElsewhere_rewrites htx h

theorem reacceptPass_rewrites {l : List WalletTx} {hasMissingTx : Bool}
    (htx : ∀ wtx ∈ l, w.txOf (wtx.merkle.tx.getHash env) = some wtx.merkle.tx)
    (h : reacceptPass e s l w = .ok (hasMissingTx, w')) : Rewrites w w' := by
  induction l generalizing w hasMissingTx with
  | nil =>
    cases h
    exact .refl _
  | cons wtx rest ih =>
    obtain ⟨⟨fUpdated, w1⟩, hw1, h⟩ := Except.bind_eq_ok.mp h
    obtain ⟨⟨missing, w2⟩, hw2, h⟩ := Except.bind_eq_ok.mp h
    cases h
    have hfirst := reacceptTx_rewrites (htx wtx List.mem_cons_self) hw1
    refine hfirst.trans (ih ?_ hw2)
    intro wtx' hmem
    rw [hfirst.alike.tx]
    exact htx wtx' (List.mem_cons_of_mem _ hmem)

theorem txs_txOf (w : Wallet env) : ∀ wtx ∈ w.txs,
    w.txOf (wtx.merkle.tx.getHash env) = some wtx.merkle.tx := by
  intro wtx hmem
  obtain ⟨⟨k, wtx'⟩, hp, rfl⟩ := List.mem_map.mp hmem
  have hget := TreeMap.mem_toList_iff_getElem?_eq_some.mp hp
  rw [w.keyed k wtx' hget]
  exact txOf_of_get hget

def ReacceptSafe (e : NodeEnv) (s : NodeState) (vtx : List (CTransaction × CBlock)) :
    Nat → Wallet env → Prop
  | 0, _ => True
  | fuel + 1, w => ∀ w1, reacceptPass e s w.txs w = .ok (true, w1) →
    ScanSafe e s false vtx w1 ∧
      ∀ ret w2, scanForWalletTransactions e s false vtx w1 = .ok (ret, w2) →
        ReacceptSafe e s vtx fuel w2

theorem AllCoherent.reaccept (h : w.AllCoherent) (hsafe : ReacceptSafe e s vtx fuel w)
    (hreaccept : reacceptWalletTransactions e s vtx fuel w = .ok w') : w'.AllCoherent := by
  induction fuel generalizing w with
  | zero => cases hreaccept
  | succ fuel ih =>
    obtain ⟨⟨missing, w1⟩, hpass, hreaccept⟩ := Except.bind_eq_ok.mp hreaccept
    have h1 := (reacceptPass_rewrites w.txs_txOf hpass).coherent _ h
    cases missing with
    | false =>
      cases hreaccept
      exact h1
    | true =>
      obtain ⟨hscanSafe, hnext⟩ := hsafe w1 hpass
      obtain ⟨⟨ret, w2⟩, hscan, hreaccept⟩ := Except.bind_eq_ok.mp hreaccept
      have h2 := AllCoherent.scan h1 hscanSafe hscan
      dsimp only at hreaccept
      split at hreaccept
      · exact ih h2 (hnext ret w2 hscan) hreaccept
      · cases hreaccept
        exact h2

theorem Undebited.reacceptSafe (h : w.Undebited) : ReacceptSafe e s vtx fuel w := by
  induction fuel generalizing w with
  | zero => trivial
  | succ fuel ih =>
    intro w1 hpass
    have h1 := h.rewrites (reacceptPass_rewrites w.txs_txOf hpass)
    exact ⟨h1.scanSafe, fun _ _ hscan => ih (h1.scan hscan)⟩

theorem withKeys_undebited (ks : CKeyStore) (strAddress strLabel : StdString) (w : Wallet env) :
    (w.withKeys ks strAddress strLabel).Undebited ∧
      (w.withKeys ks strAddress strLabel).AllCoherent := by
  have hdirty : ∀ (k : Uint256) (wtx : WalletTx),
      (w.withKeys ks strAddress strLabel).mapWallet[k]? = some wtx →
        ∃ old : WalletTx, wtx = old.markDirty := by
    intro k wtx hk
    simp only [withKeys, Wallet.markDirty, TreeMap.getElem?_map] at hk
    obtain ⟨old, -, rfl⟩ := Option.map_eq_some_iff.mp hk
    exact ⟨old, rfl⟩
  constructor
  · intro k wtx hk
    obtain ⟨old, rfl⟩ := hdirty k wtx hk
    exact ⟨rfl, rfl⟩
  · intro k wtx hk _
    obtain ⟨old, rfl⟩ := hdirty k wtx hk
    exact coherent_markDirty _ old

theorem AllCoherent.rescan {fRescan : Bool} (h : w.AllCoherent) (hfree : w.Undebited)
    (hscan : rescan e s fRescan vtx fuel w = .ok w') : w'.AllCoherent := by
  unfold Wallet.rescan at hscan
  split at hscan
  · obtain ⟨⟨ret, w1⟩, hw1, hreaccept⟩ := Except.bind_eq_ok.mp hscan
    exact (h.scan hfree.scanSafe hw1).reaccept (hfree.scan hw1).reacceptSafe hreaccept
  · cases hscan
    exact h

theorem importprivkey_coherent {evp : Evp} {key : CKey} {strLabel : StdString} {fRescan : Bool}
    (h : importprivkey e s evp key strLabel fRescan vtx fuel w = .ok w') : w'.AllCoherent := by
  unfold importprivkey at h
  dsimp only at h
  split at h
  · cases h
  · split at h
    · cases h
    · obtain ⟨hfree, hall⟩ := withKeys_undebited (w.keys.addKey env evp key).2
        (pubKeyToAddress env key.vchPubKey) strLabel w
      exact hall.rescan hfree h

theorem importaddress_coherent {strAddress strLabel : StdString} {fRescan : Bool}
    (h : importaddress e s strAddress strLabel fRescan vtx fuel w = .ok w') : w'.AllCoherent := by
  unfold importaddress at h
  split at h
  · cases h
  · rename_i hash160 _
    obtain ⟨hfree, hall⟩ := withKeys_undebited (w.keys.addAddress hash160) strAddress strLabel w
    exact hall.rescan hfree h

end Scan

end Steps

end Wallet

inductive CacheKind where
  | debit
  | debitInclName
  | credit
  | availableCredit

inductive WalletOp where
  | read (kind : CacheKind) (hash : Uint256)
  | addToWallet (wtxIn : WalletTx)
  | commitTransaction (wtxNew : WalletTx)
  | deletetransaction (hash : Uint256)
  | nameClean
  | reacceptWalletTransactions (vtx : List (CTransaction × CBlock)) (fuel : Nat)
  | importprivkey (evp : Evp) (key : CKey) (strLabel : StdString) (fRescan : Bool)
      (vtx : List (CTransaction × CBlock)) (fuel : Nat)
  | importaddress (strAddress strLabel : StdString) (fRescan : Bool)
      (vtx : List (CTransaction × CBlock)) (fuel : Nat)
  | syncWithWallets (tx : CTransaction) (pblock : Option CBlock) (fUpdate : Bool)

namespace Wallet

variable {env : Env}

def readCache (e : NodeEnv) (s : NodeState) (kind : CacheKind) (hash : Uint256) (w : Wallet env) :
    Except Fault (Wallet env) :=
  match w.mapWallet[hash]? with
  | none => .ok w
  | some wtx =>
    (match kind with
      | .debit => w.fillDebit wtx
      | .debitInclName => w.fillDebitInclName wtx
      | .credit => w.fillCredit e s wtx
      | .availableCredit => w.fillAvailableCredit e s wtx).map w.putTx

def step (e : NodeEnv) (s : NodeState) (w : Wallet env) : WalletOp → Except Fault (Wallet env)
  | .read kind hash => w.readCache e s kind hash
  | .addToWallet wtxIn => w.addToWallet e s wtxIn
  | .commitTransaction wtxNew => w.commitToWallet e s wtxNew
  | .deletetransaction hash => w.deletetransaction s hash
  | .nameClean => w.nameClean e s
  | .reacceptWalletTransactions vtx fuel => w.reacceptWalletTransactions e s vtx fuel
  | .importprivkey evp key strLabel fRescan vtx fuel =>
    w.importprivkey e s evp key strLabel fRescan vtx fuel
  | .importaddress strAddress strLabel fRescan vtx fuel =>
    w.importaddress e s strAddress strLabel fRescan vtx fuel
  | .syncWithWallets tx pblock fUpdate =>
    (w.addToWalletIfInvolvingMe e s tx pblock fUpdate).map Prod.snd

def CacheSafe (e : NodeEnv) (s : NodeState) (w : Wallet env) : WalletOp → Prop
  | .addToWallet wtxIn | .commitTransaction wtxIn =>
    w.txOf (wtxIn.merkle.tx.getHash env) = none → w.AddSafe wtxIn
  | .deletetransaction hash =>
    ∀ wtx, w.mapWallet[hash]? = some wtx → w.Idle hash wtx.merkle.tx
  | .reacceptWalletTransactions vtx fuel => ReacceptSafe e s vtx fuel w
  | .syncWithWallets tx _ _ => w.ArriveSafe tx
  | _ => True

inductive OpRun (G : NodeEnv → NodeState → Wallet env → WalletOp → Prop) (w0 : Wallet env) :
    Wallet env → Prop
  | start : OpRun G w0 w0
  | next {w w' : Wallet env} {e : NodeEnv} {s : NodeState} {op : WalletOp} (run : OpRun G w0 w)
      (guard : G e s w op) (step : w.step e s op = .ok w') : OpRun G w0 w'

variable {w w' : Wallet env} {e : NodeEnv} {s : NodeState}

theorem AllCoherent.readCache {kind : CacheKind} {hash : Uint256} (h : w.AllCoherent)
    (hread : readCache e s kind hash w = .ok w') : w'.AllCoherent := by
  unfold Wallet.readCache at hread
  split at hread
  · cases hread
    exact h
  · rename_i wtx hget
    obtain ⟨filled, hfilled, rfl⟩ := map_eq_ok hread
    have hc := h hash wtx hget trivial
    cases kind with
    | debit => exact h.putTx hget (fillDebit_tx hfilled) (hc.fillDebit hfilled)
    | debitInclName => exact h.putTx hget (fillDebitInclName_tx hfilled) (hc.fillDebitInclName hfilled)
    | credit => exact h.putTx hget (fillCredit_touched hfilled).tx (hc.fillCredit hfilled)
    | availableCredit =>
      exact h.putTx hget (fillAvailableCredit_tx hfilled) (hc.fillAvailableCredit hfilled)

theorem AllCoherent.step {op : WalletOp} (h : w.AllCoherent) (hsafe : CacheSafe e s w op)
    (hstep : w.step e s op = .ok w') : w'.AllCoherent := by
  cases op with
  | read kind hash => exact h.readCache hstep
  | addToWallet wtxIn => exact h.addToWallet hsafe hstep
  | commitTransaction wtxNew => exact h.commitToWallet hsafe hstep
  | deletetransaction hash => exact h.deletetransaction hsafe hstep
  | nameClean => exact h.nameClean hstep
  | reacceptWalletTransactions vtx fuel => exact h.reaccept hsafe hstep
  | importprivkey evp key strLabel fRescan vtx fuel => exact importprivkey_coherent hstep
  | importaddress strAddress strLabel fRescan vtx fuel => exact importaddress_coherent hstep
  | syncWithWallets tx pblock fUpdate =>
    obtain ⟨⟨added, w1⟩, hadd, rfl⟩ := map_eq_ok hstep
    exact h.arrive hsafe hadd

theorem caches_coherent {w0 : Wallet env}
    (h0 : ∀ (hash : Uint256) (wtx : WalletTx), w0.mapWallet[hash]? = some wtx → w0.Coherent wtx)
    (hrun : OpRun CacheSafe w0 w) :
    ∀ (hash : Uint256) (wtx : WalletTx), w.mapWallet[hash]? = some wtx → w.Coherent wtx := by
  have hall : w.AllCoherent := by
    induction hrun with
    | start => exact fun hash wtx hget _ => h0 hash wtx hget
    | next _ guard step ih => exact ih.step guard step
  exact fun hash wtx hget => hall hash wtx hget trivial

end Wallet

def lateParent : WalletTx :=
  WalletTx.ofTx ⟨1, [⟨⟨5, 0⟩, [], uintMax⟩], [⟨5 * coin, payToPubkey walletPubKey⟩], 0⟩

def lateParentHash : Uint256 := lateParent.merkle.tx.getHash sampleEnv

def earlyChild : WalletTx :=
  WalletTx.ofTx ⟨1, [⟨⟨lateParentHash, 0⟩, [], uintMax⟩], [⟨coin, payToPubkey walletPubKey⟩], 0⟩

def earlyChildHash : Uint256 := earlyChild.merkle.tx.getHash sampleEnv

def runOps (ops : List WalletOp) (w : Wallet sampleEnv) : Except Fault (Wallet sampleEnv) :=
  ops.foldlM (Wallet.step sampleNodeEnv zeroNode) w

theorem opRun_of_ops {ops : List WalletOp} {w0 w w' : Wallet sampleEnv}
    (hrun : Wallet.OpRun (fun _ _ _ _ => True) w0 w) (h : runOps ops w = .ok w') :
    Wallet.OpRun (fun _ _ _ _ => True) w0 w' := by
  induction ops generalizing w with
  | nil =>
    cases h
    exact hrun
  | cons op rest ih =>
    rw [runOps, List.foldlM_cons] at h
    obtain ⟨w1, hw1, h⟩ := Except.bind_eq_ok.mp h
    exact ih (.next hrun trivial hw1) h

def debitReads (w : Wallet sampleEnv) : Option (Option Int × Option Int) :=
  (w.mapWallet[earlyChildHash]?).map (fun wtx =>
    (wtx.nDebitCached, (w.debitOf wtx.merkle.tx).toOption))

def lateOps : List WalletOp :=
  [.addToWallet earlyChild, .read .debit earlyChildHash, .addToWallet lateParent]

theorem late_parent_stale :
    ¬ ∀ (w0 w : Wallet sampleEnv),
      (∀ (hash : Uint256) (wtx : WalletTx), w0.mapWallet[hash]? = some wtx → w0.Coherent wtx) →
      Wallet.OpRun (fun _ _ _ _ => True) w0 w →
      ∀ (hash : Uint256) (wtx : WalletTx), w.mapWallet[hash]? = some wtx → w.Coherent wtx := by
  intro hall
  obtain ⟨w, hw, hreads⟩ := exists_of_reads (x := runOps lateOps blankWallet) (f := debitReads)
    (b := some (some 0, some (5 * coin))) (by decide +kernel)
  obtain ⟨wtx, hget, hpair⟩ := Option.map_eq_some_iff.mp hreads
  obtain ⟨hcached, hdebit⟩ := Prod.mk.inj hpair
  have hempty : ∀ (hash : Uint256) (wtx : WalletTx),
      blankWallet.mapWallet[hash]? = some wtx → blankWallet.Coherent wtx := by
    intro hash wtx h
    simp [blankWallet] at h
  have hcoherent := hall _ _ hempty (opRun_of_ops .start hw) _ wtx hget
  rw [hcoherent.debit 0 hcached] at hdebit
  cases hdebit

theorem addSafe_of_undebited {env : Env} {w : Wallet env} {tx : CTransaction} (h : w.Undebited) :
    w.AddSafe (WalletTx.ofTx tx) := by
  refine ⟨h.idle _ _, ?_⟩
  refine ⟨?_, ?_, ?_, ?_⟩ <;> (intro n hn; cases hn)

def orderedOps : List WalletOp :=
  [.addToWallet lateParent, .addToWallet earlyChild, .read .debit earlyChildHash]

theorem parent_first_coherent : ∃ w : Wallet sampleEnv,
    Wallet.OpRun Wallet.CacheSafe blankWallet w ∧
      debitReads w = some (some (5 * coin), some (5 * coin)) ∧
      ∀ (hash : Uint256) (wtx : WalletTx), w.mapWallet[hash]? = some wtx → w.Coherent wtx := by
  obtain ⟨w, hw, hreads⟩ := exists_of_reads (x := runOps orderedOps blankWallet) (f := debitReads)
    (b := some (some (5 * coin), some (5 * coin))) (by decide +kernel)
  obtain ⟨w1, hw1, h⟩ := Except.bind_eq_ok.mp hw
  obtain ⟨w2, hw2, h⟩ := Except.bind_eq_ok.mp h
  obtain ⟨w3, hw3, h⟩ := Except.bind_eq_ok.mp h
  cases h
  have hempty : ∀ (hash : Uint256) (wtx : WalletTx), blankWallet.mapWallet[hash]? ≠ some wtx := by
    intro hash wtx h
    simp [blankWallet] at h
  have hfree : blankWallet.Undebited := fun hash wtx h => absurd h (hempty hash wtx)
  have hfree1 : w1.Undebited := hfree.addToWallet ⟨rfl, rfl⟩ hw1
  have hsafe : Wallet.CacheSafe sampleNodeEnv zeroNode blankWallet (.addToWallet lateParent) :=
    fun _ => addSafe_of_undebited hfree
  have hsafe1 : Wallet.CacheSafe sampleNodeEnv zeroNode w1 (.addToWallet earlyChild) :=
    fun _ => addSafe_of_undebited hfree1
  have hsafe2 : Wallet.CacheSafe sampleNodeEnv zeroNode w2 (.read .debit earlyChildHash) := trivial
  have hrun : Wallet.OpRun Wallet.CacheSafe blankWallet w :=
    .next (.next (.next .start hsafe hw1) hsafe1 hw2) hsafe2 hw3
  exact ⟨w, hrun, hreads,
    Wallet.caches_coherent (fun hash wtx h => absurd h (hempty hash wtx)) hrun⟩

end Namecoin
