import Namecoin.Wallet.Arrival
import Namecoin.Wallet.Cleaning

namespace Namecoin

open Std (TreeMap)

namespace CWallet

def FlagsExact (w : CWallet) : Prop :=
  ∀ o, (w.outAt o).isSome → (w.spentAt o = true ↔ w.Spends o)

def SpentBy (w : CWallet) (R : Set Uint256) (o : COutPoint) : Prop :=
  ∃ hash ∈ R, ∃ tx, w.txAt hash = some tx ∧ ∃ txin ∈ tx.vin, txin.prevout = o

def RemovalSafe (w : CWallet) (R : Set Uint256) : Prop :=
  ∀ o, o.hash ∉ R → (w.outAt o).isSome → w.SpentBy R o → (w.Owns o ↔ ¬w.SpentBy Rᶜ o)

structure Removed (w w' : CWallet) (R : Set Uint256) (cleared : COutPoint → Prop) : Prop where
  script : w'.isMineScript = w.isMineScript
  tx : ∀ hash, hash ∉ R → w'.txAt hash = w.txAt hash
  gone : ∀ hash ∈ R, w'.txAt hash = none
  spent : ∀ o, (w'.outAt o).isSome →
    (w'.spentAt o = true ↔ w.spentAt o = true ∧ ¬(w.Owns o ∧ cleared o))

namespace Removed

variable {w w' w'' : CWallet} {R R' : Set Uint256} {cleared cleared' : COutPoint → Prop}

theorem outAt (h : Removed w w' R cleared) {o : COutPoint} (ho : (w'.outAt o).isSome) :
    o.hash ∉ R ∧ w'.outAt o = w.outAt o := by
  by_cases hin : o.hash ∈ R
  · rw [CWallet.outAt, h.gone o.hash hin] at ho
    cases ho
  · exact ⟨hin, by rw [CWallet.outAt, CWallet.outAt, h.tx o.hash hin]⟩

theorem owns (h : Removed w w' R cleared) {o : COutPoint} (ho : (w'.outAt o).isSome) :
    w'.Owns o ↔ w.Owns o := by
  unfold Owns isMineTxOut
  rw [(h.outAt ho).2, h.script]

theorem refl (w : CWallet) : Removed w w ∅ (fun _ => False) where
  script := rfl
  tx _ _ := rfl
  gone _ hin := absurd hin (Set.notMem_empty _)
  spent o _ := by simp

theorem trans (h : Removed w w' R cleared) (h' : Removed w' w'' R' cleared') :
    Removed w w'' (R ∪ R') (fun o => cleared o ∨ cleared' o) where
  script := h'.script.trans h.script
  tx hash hout := by
    rw [Set.mem_union, not_or] at hout
    exact (h'.tx hash hout.2).trans (h.tx hash hout.1)
  gone hash hin := by
    by_cases hlater : hash ∈ R'
    · exact h'.gone hash hlater
    · rw [h'.tx hash hlater]
      exact h.gone hash (hin.resolve_right hlater)
  spent o ho := by
    have hmid : (w'.outAt o).isSome := by rwa [← (h'.outAt ho).2]
    rw [h'.spent o ho, h.spent o hmid, h.owns hmid]
    tauto

theorem spends (h : Removed w w' R cleared) (o : COutPoint) : w'.Spends o ↔ w.SpentBy Rᶜ o := by
  constructor
  · rintro ⟨hash, tx, htx, hin⟩
    by_cases hmem : hash ∈ R
    · rw [h.gone hash hmem] at htx
      cases htx
    · exact ⟨hash, hmem, tx, by rwa [← h.tx hash hmem], hin⟩
  · rintro ⟨hash, hmem, tx, htx, hin⟩
    exact ⟨hash, tx, by rwa [h.tx hash hmem], hin⟩

theorem congr (h : Removed w w' R cleared) (hR : R' = R)
    (hcleared : ∀ o, w.Owns o → (cleared' o ↔ cleared o)) :
    Removed w w' R' cleared' where
  script := h.script
  tx := by
    rw [hR]
    exact h.tx
  gone := by
    rw [hR]
    exact h.gone
  spent o ho := by
    rw [h.spent o ho]
    have hiff := hcleared o
    tauto

theorem flagsExact_iff (h : Removed w w' R (w.SpentBy R)) (hexact : w.FlagsExact) :
    w'.FlagsExact ↔ w.RemovalSafe R := by
  have hsplit : ∀ o, w.Spends o ↔ w.SpentBy Rᶜ o ∨ w.SpentBy R o := by
    intro o
    constructor
    · rintro ⟨hash, tx, htx, hin⟩
      by_cases hmem : hash ∈ R
      · exact .inr ⟨hash, hmem, tx, htx, hin⟩
      · exact .inl ⟨hash, hmem, tx, htx, hin⟩
    · rintro (⟨hash, -, tx, htx, hin⟩ | ⟨hash, -, tx, htx, hin⟩) <;> exact ⟨hash, tx, htx, hin⟩
  constructor
  · intro hflags o hkept ho hspent
    have ho' : (w'.outAt o).isSome := by rwa [CWallet.outAt, h.tx o.hash hkept]
    have hflag := hflags o ho'
    rw [h.spent o ho', hexact o ho, h.spends o, hsplit o] at hflag
    tauto
  · intro hsafe o ho'
    obtain ⟨hkept, hsame⟩ := h.outAt ho'
    have ho : (w.outAt o).isSome := by rwa [← hsame]
    have hcase := hsafe o hkept ho
    rw [h.spent o ho', hexact o ho, h.spends o, hsplit o]
    tauto

end Removed

end CWallet

theorem WalletTx.markUnspent_spentAt {wtx : WalletTx} {nOut n : Nat}
    (hn : n < wtx.merkle.tx.vout.length) :
    (wtx.markUnspent nOut).spentAt n = (wtx.spentAt n && decide (n ≠ nOut)) := by
  have hpadded := Wallet.padded_spentAt wtx hn
  unfold WalletTx.markUnspent
  dsimp only
  split
  · rename_i hset
    show ((List.set _ nOut false)[n]?).getD false = _
    rw [List.getElem?_set]
    split
    · rename_i heq
      subst heq
      split <;> simp
    · rename_i hne
      rw [hpadded, decide_eq_true (Ne.symm hne), Bool.and_true]
  · rename_i hclear
    refine hpadded.trans ?_
    by_cases heq : n = nOut
    · subst heq
      rw [hpadded, Bool.not_eq_true] at hclear
      rw [hclear, Bool.false_and]
    · rw [decide_eq_true heq, Bool.and_true]

namespace Wallet

variable {env : Env} {w w' : Wallet env} {e : NodeEnv} {s : NodeState} {hash : Uint256}

theorem txAt_toCWallet (w : Wallet env) (hash : Uint256) : w.toCWallet.txAt hash = w.txOf hash := by
  rw [CWallet.txAt, txOf]
  show ((w.mapWallet[hash]?).map WalletTx.toCWalletTx).map _ = _
  rw [Option.map_map]
  rfl

theorem spentAt_of_get {wtx : WalletTx} {n : Nat} (h : w.mapWallet[hash]? = some wtx) :
    w.toCWallet.spentAt ⟨hash, n⟩ = wtx.spentAt n := by
  have hget : w.toCWallet.mapWallet hash = some wtx.toCWalletTx := by
    show (w.mapWallet[hash]?).map WalletTx.toCWalletTx = _
    rw [h, Option.map_some]
  simp only [CWallet.spentAt, hget]

theorem isMineIn_iff {txin : CTxIn} : w.isMineIn txin = true ↔ w.toCWallet.Owns txin.prevout := by
  unfold isMineIn CWallet.Owns CWallet.outAt
  rw [txAt_toCWallet, txOf]
  cases hget : w.mapWallet[txin.prevout.hash]? with
  | none => simp
  | some prev =>
    cases hout : prev.merkle.tx.vout[txin.prevout.n]? with
    | none => simp [hout]
    | some txout => simp [hout]

theorem markUnspent_removed {wtx : WalletTx} {nOut : Nat} (hget : w.mapWallet[hash]? = some wtx)
    (hown : w.toCWallet.Owns ⟨hash, nOut⟩) :
    CWallet.Removed w.toCWallet (w.putTx (wtx.markUnspent nOut)).toCWallet ∅
      (fun o => o = ⟨hash, nOut⟩) := by
  have htouched := markUnspent_touched wtx nOut
  have hkey : (wtx.markUnspent nOut).merkle.tx.getHash env = hash := by
    rw [htouched.tx]
    exact w.keyed hash wtx hget
  have hsame : w.txOf ((wtx.markUnspent nOut).merkle.tx.getHash env) =
      some (wtx.markUnspent nOut).merkle.tx := by
    rw [hkey, htouched.tx]
    exact txOf_of_get hget
  have halike := putTx_alike hsame
  refine ⟨rfl, ?_, fun k hk => absurd hk (Set.notMem_empty _), ?_⟩
  · intro k _
    rw [txAt_toCWallet, txAt_toCWallet, halike.tx]
  · rintro ⟨k, n⟩ ho
    have hput := getElem?_putTx w (wtx.markUnspent nOut) k
    rw [hkey] at hput
    by_cases hk : hash = k
    · subst hk
      rw [if_pos rfl] at hput
      rw [CWallet.outAt, txAt_toCWallet, txOf_of_get hput, Option.bind_some, htouched.tx] at ho
      have hn : n < wtx.merkle.tx.vout.length := by simpa using ho
      rw [spentAt_of_get hput, spentAt_of_get hget, WalletTx.markUnspent_spentAt hn,
        Bool.and_eq_true, decide_eq_true_eq]
      constructor
      · rintro ⟨hspent, hne⟩
        exact ⟨hspent, fun h => hne (congrArg COutPoint.n h.2)⟩
      · rintro ⟨hspent, hnot⟩
        refine ⟨hspent, ?_⟩
        rintro rfl
        exact hnot ⟨hown, rfl⟩
    · rw [if_neg hk] at hput
      have hflag : (w.putTx (wtx.markUnspent nOut)).toCWallet.spentAt ⟨k, n⟩ =
          w.toCWallet.spentAt ⟨k, n⟩ := by
        have hmap : (w.putTx (wtx.markUnspent nOut)).toCWallet.mapWallet k =
            w.toCWallet.mapWallet k := congrArg (Option.map WalletTx.toCWalletTx) hput
        simp only [CWallet.spentAt, hmap]
      rw [hflag]
      constructor
      · intro hspent
        exact ⟨hspent, fun h => hk (congrArg COutPoint.hash h.2).symm⟩
      · exact And.left

theorem unspendInputs_removed (vin : List CTxIn) (w : Wallet env) :
    CWallet.Removed w.toCWallet (unspendInputs vin w).toCWallet ∅
      (fun o => ∃ txin ∈ vin, txin.prevout = o) := by
  induction vin generalizing w with
  | nil => exact (CWallet.Removed.refl _).congr rfl (fun o _ => by simp)
  | cons txin rest ih =>
    rw [unspendInputs]
    split
    · rename_i hmine
      have hown := isMineIn_iff.mp hmine
      split
      · rename_i hnone
        rw [isMineIn, hnone] at hmine
        cases hmine
      · rename_i prev hget
        refine ((markUnspent_removed hget hown).trans (ih _)).congr (by simp) (fun o _ => ?_)
        rw [List.exists_mem_cons_iff, eq_comm]
    · rename_i hmine
      refine (ih w).congr rfl (fun o hown => ?_)
      rw [List.exists_mem_cons_iff]
      refine or_iff_right ?_
      rintro rfl
      exact hmine (isMineIn_iff.mpr hown)

theorem erase_removed (hash : Uint256) (w : Wallet env) :
    CWallet.Removed w.toCWallet (w.eraseFromWallet hash).toCWallet {hash} (fun _ => False) := by
  have hmap : ∀ k, k ≠ hash → (w.eraseFromWallet hash).toCWallet.mapWallet k =
      w.toCWallet.mapWallet k := by
    intro k hk
    show ((w.mapWallet.erase hash)[k]?).map _ = (w.mapWallet[k]?).map _
    rw [TreeMap.getElem?_erase, if_neg (mt Std.LawfulEqCmp.compare_eq_iff_eq.mp (Ne.symm hk))]
  have hgone : (w.eraseFromWallet hash).toCWallet.txAt hash = none := by
    rw [txAt_toCWallet, txOf_erase, if_pos rfl]
  refine ⟨rfl, ?_, ?_, ?_⟩
  · intro k hk
    rw [CWallet.txAt, CWallet.txAt, hmap k hk]
  · rintro k rfl
    exact hgone
  · intro o ho
    have hne : o.hash ≠ hash := by
      intro heq
      rw [CWallet.outAt, heq, hgone] at ho
      cases ho
    simp only [CWallet.spentAt, hmap o.hash hne, and_false, not_false_iff, and_true]

theorem removeTx_removed (hash : Uint256) (tx : CTransaction) (w : Wallet env) :
    CWallet.Removed w.toCWallet (w.removeTx hash tx).toCWallet {hash}
      (fun o => ∃ txin ∈ tx.vin, txin.prevout = o) :=
  ((unspendInputs_removed tx.vin w).trans (erase_removed hash _)).congr (by simp) (by simp)

theorem removeAll_removed (l : List (Uint256 × CTransaction)) (w : Wallet env) :
    CWallet.Removed w.toCWallet (removeAll l w).toCWallet {k | k ∈ l.map Prod.fst}
      (fun o => ∃ p ∈ l, ∃ txin ∈ p.2.vin, txin.prevout = o) := by
  induction l generalizing w with
  | nil => exact (CWallet.Removed.refl _).congr (by simp) (fun o _ => by simp)
  | cons p rest ih =>
    refine ((removeTx_removed p.1 p.2 w).trans (ih _)).congr ?_ ?_
    · ext k
      simp
    · intro o _
      rw [List.exists_mem_cons_iff]

theorem removeAll_spentBy {l : List (Uint256 × CTransaction)}
    (hl : ∀ p ∈ l, w.txOf p.1 = some p.2) :
    CWallet.Removed w.toCWallet (removeAll l w).toCWallet {k | k ∈ l.map Prod.fst}
      (w.toCWallet.SpentBy {k | k ∈ l.map Prod.fst}) := by
  refine (removeAll_removed l w).congr rfl (fun o _ => ?_)
  constructor
  · rintro ⟨k, hk, tx, htx, hin⟩
    obtain ⟨p, hp, rfl⟩ := List.mem_map.mp hk
    rw [txAt_toCWallet, hl p hp] at htx
    cases htx
    exact ⟨p, hp, hin⟩
  · rintro ⟨p, hp, hin⟩
    exact ⟨p.1, List.mem_map_of_mem hp, p.2, by rw [txAt_toCWallet, hl p hp], hin⟩

theorem deletetransaction_flags (hexact : w.toCWallet.FlagsExact)
    (h : deletetransaction s hash w = .ok w') :
    w'.toCWallet.FlagsExact ↔ w.toCWallet.RemovalSafe {hash} := by
  unfold deletetransaction at h
  split at h
  · cases h
  · rename_i wtx hget
    split at h
    · cases h
    · cases h
      have hl : ∀ p ∈ [(hash, wtx.merkle.tx)], w.txOf p.1 = some p.2 := by
        intro p hp
        rw [List.mem_singleton.mp hp]
        exact txOf_of_get hget
      have hremoved := removeAll_spentBy hl
      rw [w.keyed hash wtx hget]
      simp only [List.map_cons, List.map_nil, List.mem_singleton] at hremoved
      exact hremoved.flagsExact_iff hexact

def cleaned (e : NodeEnv) (s : NodeState) (w : Wallet env) : Set Uint256 :=
  ⋂₀ {R | RemovalClosed e s w R}

theorem nameClean_flags (hexact : w.toCWallet.FlagsExact) (h : nameClean e s w = .ok w') :
    w'.toCWallet.FlagsExact ↔ w.toCWallet.RemovalSafe (w.cleaned e s) := by
  obtain ⟨m0, m, hstart, hclose, hcopies, hleast⟩ := @clean_least env e s w
  have hrun : nameClean e s w = .ok (removeAll m.toList w) :=
    Except.bind_eq_ok.mpr ⟨m0, hstart, Except.bind_eq_ok.mpr ⟨m, hclose, rfl⟩⟩
  have hset : w.cleaned e s = {k | k ∈ m.toList.map Prod.fst} := by
    rw [TreeMap.map_fst_toList_eq_keys]
    simp only [TreeMap.mem_keys]
    exact hleast.csInf_eq
  rw [hrun] at h
  cases h
  rw [hset]
  refine (removeAll_spentBy (fun p hp => ?_)).flagsExact_iff hexact
  exact hcopies p.1 p.2 (TreeMap.mem_toList_iff_getElem?_eq_some.mp hp)

theorem flags_survive_iff (env : Env) (e : NodeEnv) (s : NodeState) (w : Wallet env)
    (hexact : w.toCWallet.FlagsExact) :
    (∀ hash w', deletetransaction s hash w = .ok w' →
      (w'.toCWallet.FlagsExact ↔ w.toCWallet.RemovalSafe {hash})) ∧
    ∀ w', nameClean e s w = .ok w' →
      (w'.toCWallet.FlagsExact ↔ w.toCWallet.RemovalSafe (w.cleaned e s)) :=
  ⟨fun _ _ => deletetransaction_flags hexact, fun _ => nameClean_flags hexact⟩

def flagsExactCheck (w : Wallet env) : Bool :=
  w.txs.all (fun wtx => (List.range wtx.merkle.tx.vout.length).all (fun n =>
    wtx.spentAt n == w.txs.any (fun spender => spender.merkle.tx.vin.any (fun txin =>
      decide (txin.prevout = ⟨wtx.merkle.tx.getHash env, n⟩)))))

theorem spends_iff_txs {o : COutPoint} : w.toCWallet.Spends o ↔
    ∃ wtx ∈ w.txs, ∃ txin ∈ wtx.merkle.tx.vin, txin.prevout = o := by
  constructor
  · rintro ⟨k, tx, htx, hin⟩
    rw [txAt_toCWallet] at htx
    obtain ⟨wtx, hget, rfl⟩ := Option.map_eq_some_iff.mp htx
    exact ⟨wtx, mem_txs hget, hin⟩
  · rintro ⟨wtx, hmem, hin⟩
    refine ⟨wtx.merkle.tx.getHash env, wtx.merkle.tx, ?_, hin⟩
    rw [txAt_toCWallet]
    exact txOf_of_get (mem_txs_iff.mp hmem)

theorem flagsExactCheck_iff : w.flagsExactCheck = true ↔ w.toCWallet.FlagsExact := by
  have hspends : ∀ (wtx : WalletTx) (n : Nat),
      w.txs.any (fun spender => spender.merkle.tx.vin.any (fun txin =>
        decide (txin.prevout = ⟨wtx.merkle.tx.getHash env, n⟩))) = true ↔
      w.toCWallet.Spends ⟨wtx.merkle.tx.getHash env, n⟩ := by
    intro wtx n
    simp only [List.any_eq_true, decide_eq_true_eq, spends_iff_txs]
  have hbeq : ∀ a b : Bool, (a == b) = true ↔ (a = true ↔ b = true) := by decide
  simp only [flagsExactCheck, List.all_eq_true, List.mem_range, hbeq, hspends]
  constructor
  · rintro h ⟨k, n⟩ ho
    rw [CWallet.outAt, txAt_toCWallet] at ho
    obtain ⟨txout, hout⟩ := Option.isSome_iff_exists.mp ho
    obtain ⟨tx, htx, hn⟩ := Option.bind_eq_some_iff.mp hout
    obtain ⟨wtx, hget, rfl⟩ := Option.map_eq_some_iff.mp htx
    have hlt := (List.getElem?_eq_some_iff.mp hn).1
    have hcase := h wtx (mem_txs hget) n hlt
    rw [w.keyed k wtx hget] at hcase
    rw [spentAt_of_get hget]
    exact hcase
  · intro h wtx hmem n hn
    have hget := mem_txs_iff.mp hmem
    rw [← spentAt_of_get hget]
    refine h _ ?_
    rw [CWallet.outAt, txAt_toCWallet, txOf_of_get hget, Option.bind_some]
    simpa using hn

instance : Decidable w.toCWallet.FlagsExact := decidable_of_iff _ flagsExactCheck_iff

end Wallet

def heldName : WalletTx := { nameTx with vfSpent := [true] }

def nameTransfer : WalletTx :=
  WalletTx.ofTx ⟨namecoinTxVersion, [⟨⟨nameTx.merkle.tx.getHash sampleEnv, 0⟩, [], uintMax⟩],
    [⟨cent, nameNewScript⟩], 0⟩

def transferWallet : Wallet sampleEnv := (blankWallet.putTx heldName).putTx nameTransfer

def transferDeleted : Except Fault (Wallet sampleEnv) :=
  transferWallet.deletetransaction zeroNode (nameTransfer.merkle.tx.getHash sampleEnv)

theorem name_coin_stays_spent :
    ¬ ∀ (env : Env) (s : NodeState) (w w' : Wallet env) (hash : Uint256),
      w.toCWallet.FlagsExact → w.deletetransaction s hash = .ok w' →
        w'.toCWallet.FlagsExact := by
  intro hall
  obtain ⟨w', hdelete, hflags⟩ := exists_of_reads (x := transferDeleted)
    (f := Wallet.flagsExactCheck) (b := false) (by decide +kernel)
  have hexact : transferWallet.toCWallet.FlagsExact := by decide +kernel
  have hcheck := Wallet.flagsExactCheck_iff.mpr (hall sampleEnv zeroNode _ w' _ hexact hdelete)
  rw [hflags] at hcheck
  cases hcheck

theorem transferWallet_flags : ∃ w', transferDeleted = .ok w' ∧
    (w'.toCWallet.FlagsExact ↔
      transferWallet.toCWallet.RemovalSafe {nameTransfer.merkle.tx.getHash sampleEnv}) := by
  obtain ⟨w', hdelete, -⟩ := exists_of_reads (x := transferDeleted)
    (f := Wallet.flagsExactCheck) (b := false) (by decide +kernel)
  have hexact : transferWallet.toCWallet.FlagsExact := by decide +kernel
  exact ⟨w', hdelete,
    (Wallet.flags_survive_iff sampleEnv sampleNodeEnv zeroNode transferWallet hexact).1 _ w' hdelete⟩

end Namecoin
