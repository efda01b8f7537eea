import Namecoin.Wallet.Arrival
import Namecoin.Wallet.Upkeep

namespace Namecoin

open Std (TreeMap)

namespace Wallet

variable {env : Env}

section Amounts

variable (w : Wallet env)

def txOf (hash : Uint256) : Option CTransaction :=
  (w.mapWallet[hash]?).map (fun wtx => wtx.merkle.tx)

def debitOf (tx : CTransaction) : Except Fault Int :=
  sumInRange "CWallet::GetDebit() : value out of range"
    (fun txin => .ok (w.toCWallet.getDebit txin)) tx.vin 0

def debitInclNameOf (tx : CTransaction) : Except Fault Int := w.toCWallet.debitFrom tx.vin 0

def availableOf (wtx : WalletTx) : Except Fault Int :=
  sumInRange "CWalletTx::GetAvailableCredit() : value out of range" w.toCWallet.getCredit
    (unspentOuts wtx) 0

structure Coherent (wtx : WalletTx) : Prop where
  debit : ∀ n, wtx.nDebitCached = some n → w.debitOf wtx.merkle.tx = .ok n
  debitInclName : ∀ n, wtx.nDebitInclNameCached = some n → w.debitInclNameOf wtx.merkle.tx = .ok n
  credit : ∀ n, wtx.nCreditCached = some n → w.getCreditTx wtx.merkle.tx = .ok n
  availableCredit : ∀ n, wtx.nAvailableCreditCached = some n → w.availableOf wtx = .ok n

def plainDebit (tx : CTransaction) (n : Nat) : Int :=
  ((tx.vout[n]?).map (fun txout =>
    if w.toCWallet.isMineTxOut txout then txout.nValue else 0)).getD 0

def ownDebit (tx : CTransaction) (n : Nat) : Int :=
  ((tx.vout[n]?).map (fun txout =>
    if w.toCWallet.isMineTxOut txout || w.toCWallet.hookIsMine tx txout then txout.nValue
    else 0)).getD 0

end Amounts

section Transfer

variable {w w' : Wallet env} {wtx : WalletTx}

theorem sumInRange_congr {α : Type} {msg : String} {f g : α → Except Fault Int} {l : List α}
    (h : ∀ a ∈ l, f a = g a) (n : Int) : sumInRange msg f l n = sumInRange msg g l n := by
  induction l generalizing n with
  | nil => rfl
  | cons a rest ih =>
    simp only [sumInRange, h a List.mem_cons_self]
    simp only [ih (fun b hb => h b (List.mem_cons_of_mem _ hb))]

theorem debitFrom_congr {c c' : CWallet} {vin : List CTxIn}
    (h : ∀ txin ∈ vin, c'.getDebitInclName txin = c.getDebitInclName txin) (n : Int) :
    c'.debitFrom vin n = c.debitFrom vin n := by
  induction vin generalizing n with
  | nil => rfl
  | cons txin rest ih =>
    simp only [CWallet.debitFrom, h txin List.mem_cons_self]
    simp only [ih (fun b hb => h b (List.mem_cons_of_mem _ hb))]

theorem getDebit_eq (w : Wallet env) (txin : CTxIn) : w.toCWallet.getDebit txin =
    ((w.txOf txin.prevout.hash).map (fun tx => w.plainDebit tx txin.prevout.n)).getD 0 := by
  unfold CWallet.getDebit txOf toCWallet plainDebit
  dsimp only
  cases w.mapWallet[txin.prevout.hash]? with
  | none => rfl
  | some prev =>
    simp only [Option.map_some, Option.getD_some]
    cases prev.merkle.tx.vout[txin.prevout.n]? <;> rfl

theorem getDebitInclName_eq (w : Wallet env) (txin : CTxIn) : w.toCWallet.getDebitInclName txin =
    ((w.txOf txin.prevout.hash).map (fun tx => w.ownDebit tx txin.prevout.n)).getD 0 := by
  unfold CWallet.getDebitInclName txOf toCWallet ownDebit
  dsimp only
  cases w.mapWallet[txin.prevout.hash]? with
  | none => rfl
  | some prev =>
    simp only [Option.map_some, Option.getD_some]
    cases prev.merkle.tx.vout[txin.prevout.n]? <;> rfl

theorem plainDebit_keys (h : w'.keys = w.keys) : w'.plainDebit = w.plainDebit := by
  unfold plainDebit toCWallet CWallet.isMineTxOut
  rw [h]

theorem ownDebit_keys (h : w'.keys = w.keys) : w'.ownDebit = w.ownDebit := by
  unfold ownDebit toCWallet CWallet.isMineTxOut CWallet.hookIsMine
  rw [h]

theorem getCredit_keys (h : w'.keys = w.keys) :
    w'.toCWallet.getCredit = w.toCWallet.getCredit := by
  funext txout
  unfold CWallet.getCredit toCWallet CWallet.isMineTxOut
  rw [h]

theorem Coherent.transfer (hc : w.Coherent wtx) (hkeys : w'.keys = w.keys)
    (hdebit : wtx.nDebitCached.isSome → ∀ txin ∈ wtx.merkle.tx.vin,
      w'.toCWallet.getDebit txin = w.toCWallet.getDebit txin)
    (hincl : wtx.nDebitInclNameCached.isSome → ∀ txin ∈ wtx.merkle.tx.vin,
      w'.toCWallet.getDebitInclName txin = w.toCWallet.getDebitInclName txin) :
    w'.Coherent wtx where
  debit := by
    intro n hn
    rw [← hc.debit n hn]
    have hsame := hdebit (by simp [hn])
    exact sumInRange_congr (fun txin hin => congrArg Except.ok (hsame txin hin)) 0
  debitInclName := by
    intro n hn
    rw [← hc.debitInclName n hn]
    exact debitFrom_congr (hincl (by simp [hn])) 0
  credit := by
    intro n hn
    rw [← hc.credit n hn, getCreditTx, getCreditTx, getCredit_keys hkeys]
  availableCredit := by
    intro n hn
    rw [← hc.availableCredit n hn, availableOf, availableOf, getCredit_keys hkeys]

structure Alike (w w' : Wallet env) : Prop where
  keys : w'.keys = w.keys
  tx : ∀ hash, w'.txOf hash = w.txOf hash

theorem Alike.refl (w : Wallet env) : Alike w w := ⟨rfl, fun _ => rfl⟩

theorem Alike.trans {w'' : Wallet env} (h : Alike w w') (h' : Alike w' w'') : Alike w w'' :=
  ⟨h'.keys.trans h.keys, fun hash => (h'.tx hash).trans (h.tx hash)⟩

theorem Alike.getDebit (h : Alike w w') (txin : CTxIn) :
    w'.toCWallet.getDebit txin = w.toCWallet.getDebit txin := by
  rw [getDebit_eq, getDebit_eq, h.tx, plainDebit_keys h.keys]

theorem Alike.getDebitInclName (h : Alike w w') (txin : CTxIn) :
    w'.toCWallet.getDebitInclName txin = w.toCWallet.getDebitInclName txin := by
  rw [getDebitInclName_eq, getDebitInclName_eq, h.tx, ownDebit_keys h.keys]

theorem Alike.coherent (h : Alike w w') (hc : w.Coherent wtx) : w'.Coherent wtx :=
  hc.transfer h.keys (fun _ txin _ => h.getDebit txin) (fun _ txin _ => h.getDebitInclName txin)

end Transfer

section Entry

variable {w : Wallet env} {wtx wtx' : WalletTx} {e : NodeEnv} {s : NodeState}

theorem map_eq_ok {α β : Type} {x : Except Fault α} {f : α → β} {b : β} (h : x.map f = .ok b) :
    ∃ a, x = .ok a ∧ f a = b := by
  cases x with
  | error fault => cases h
  | ok a => exact ⟨a, rfl, Except.ok.inj h⟩

theorem Coherent.fillDebit (hc : w.Coherent wtx) (h : w.fillDebit wtx = .ok wtx') :
    w.Coherent wtx' := by
  unfold Wallet.fillDebit at h
  split at h
  · cases h
    exact hc
  · rename_i hvin
    obtain ⟨nDebit, hn, rfl⟩ := map_eq_ok h
    refine ⟨?_, hc.debitInclName, hc.credit, hc.availableCredit⟩
    intro n hcached
    cases hcached
    unfold getDebit at hn
    rw [if_neg hvin] at hn
    split at hn
    · rename_i old hold
      cases hn
      exact hc.debit _ hold
    · exact hn

theorem Coherent.fillDebitInclName (hc : w.Coherent wtx) (h : w.fillDebitInclName wtx = .ok wtx') :
    w.Coherent wtx' := by
  unfold Wallet.fillDebitInclName at h
  split at h
  · cases h
    exact hc
  · rename_i hvin
    obtain ⟨nDebit, hn, rfl⟩ := map_eq_ok h
    refine ⟨hc.debit, ?_, hc.credit, hc.availableCredit⟩
    intro n hcached
    cases hcached
    unfold getDebitInclName at hn
    rw [if_neg hvin] at hn
    split at hn
    · rename_i old hold
      cases hn
      exact hc.debitInclName _ hold
    · exact hn

theorem Coherent.fillCredit (hc : w.Coherent wtx) (h : w.fillCredit e s wtx = .ok wtx') :
    w.Coherent wtx' := by
  unfold Wallet.fillCredit at h
  split at h
  · cases h
    exact hc
  · rename_i hmature
    obtain ⟨nCredit, hn, rfl⟩ := map_eq_ok h
    refine ⟨hc.debit, hc.debitInclName, ?_, hc.availableCredit⟩
    intro n hcached
    cases hcached
    unfold getCredit at hn
    rw [if_neg hmature] at hn
    split at hn
    · rename_i old hold
      cases hn
      exact hc.credit _ hold
    · exact hn

theorem Coherent.fillAvailableCredit (hc : w.Coherent wtx)
    (h : w.fillAvailableCredit e s wtx = .ok wtx') : w.Coherent wtx' := by
  unfold Wallet.fillAvailableCredit at h
  split at h
  · cases h
    exact hc
  · rename_i hmature
    obtain ⟨nCredit, hn, rfl⟩ := map_eq_ok h
    refine ⟨hc.debit, hc.debitInclName, hc.credit, ?_⟩
    intro n hcached
    cases hcached
    unfold getAvailableCredit at hn
    rw [if_neg hmature] at hn
    split at hn
    · rename_i old hold
      cases hn
      exact hc.availableCredit _ hold
    · exact hn

structure Touched (wtx wtx' : WalletTx) : Prop where
  tx : wtx'.merkle.tx = wtx.merkle.tx
  debit : wtx'.nDebitCached.isSome → wtx.nDebitCached.isSome
  debitInclName : wtx'.nDebitInclNameCached.isSome → wtx.nDebitInclNameCached.isSome

theorem Touched.trans {wtx'' : WalletTx} (h : Touched wtx wtx') (h' : Touched wtx' wtx'') :
    Touched wtx wtx'' :=
  ⟨h'.tx.trans h.tx, fun hs => h.debit (h'.debit hs),
    fun hs => h.debitInclName (h'.debitInclName hs)⟩

theorem fillDebit_tx (h : w.fillDebit wtx = .ok wtx') : wtx'.merkle.tx = wtx.merkle.tx := by
  unfold Wallet.fillDebit at h
  split at h
  · cases h
    rfl
  · obtain ⟨nDebit, -, rfl⟩ := map_eq_ok h
    rfl

theorem fillDebitInclName_tx (h : w.fillDebitInclName wtx = .ok wtx') :
    wtx'.merkle.tx = wtx.merkle.tx := by
  unfold Wallet.fillDebitInclName at h
  split at h
  · cases h
    rfl
  · obtain ⟨nDebit, -, rfl⟩ := map_eq_ok h
    rfl

theorem fillAvailableCredit_tx (h : w.fillAvailableCredit e s wtx = .ok wtx') :
    wtx'.merkle.tx = wtx.merkle.tx := by
  unfold Wallet.fillAvailableCredit at h
  split at h
  · cases h
    rfl
  · obtain ⟨nCredit, -, rfl⟩ := map_eq_ok h
    rfl

theorem fillCredit_touched (h : w.fillCredit e s wtx = .ok wtx') : Touched wtx wtx' := by
  unfold Wallet.fillCredit at h
  split at h
  · cases h
    exact ⟨rfl, id, id⟩
  · obtain ⟨nCredit, -, rfl⟩ := map_eq_ok h
    exact ⟨rfl, id, id⟩

theorem unspentOuts_congr (htx : wtx'.merkle.tx = wtx.merkle.tx)
    (h : ∀ n < wtx.merkle.tx.vout.length, wtx'.spentAt n = wtx.spentAt n) :
    unspentOuts wtx' = unspentOuts wtx := by
  unfold unspentOuts
  rw [htx]
  congr 1
  refine List.filter_congr ?_
  intro p hp
  have hflag := h p.2 (List.snd_lt_of_mem_zipIdx hp)
  unfold CWalletTx.spentAt at hflag
  rw [hflag]

theorem Coherent.respent (hc : w.Coherent wtx) {vfSpent : List Bool}
    (h : ∀ n < wtx.merkle.tx.vout.length, (vfSpent[n]?).getD false = wtx.spentAt n) :
    w.Coherent { wtx with vfSpent := vfSpent } where
  debit := hc.debit
  debitInclName := hc.debitInclName
  credit := hc.credit
  availableCredit := by
    intro n hn
    rw [← hc.availableCredit n hn, availableOf, availableOf]
    have hsame : unspentOuts { wtx with vfSpent := vfSpent } = unspentOuts wtx :=
      unspentOuts_congr rfl h
    rw [hsame]

theorem Coherent.setSpent (hc : w.Coherent wtx) (vfSpent : List Bool) :
    w.Coherent (wtx.setSpent vfSpent) where
  debit := hc.debit
  debitInclName := hc.debitInclName
  credit := hc.credit
  availableCredit := by
    intro n hn
    cases hn

theorem padded_spentAt (wtx : WalletTx) {n : Nat} (hn : n < wtx.merkle.tx.vout.length) :
    ((((wtx.vfSpent ++ List.replicate wtx.merkle.tx.vout.length false).take
      wtx.merkle.tx.vout.length))[n]?).getD false = wtx.spentAt n := by
  rw [CWalletTx.padded_get hn]
  rfl

theorem markSpent_touched {nOut : Nat} (h : wtx.markSpent nOut = .ok wtx') : Touched wtx wtx' := by
  unfold WalletTx.markSpent at h
  dsimp only at h
  split at h
  · cases h
  · split at h
    · cases h
      exact ⟨rfl, id, id⟩
    · cases h
      exact ⟨rfl, id, id⟩

theorem Coherent.markSpent (hc : w.Coherent wtx) {nOut : Nat} (h : wtx.markSpent nOut = .ok wtx') :
    w.Coherent wtx' := by
  unfold WalletTx.markSpent at h
  dsimp only at h
  split at h
  · cases h
  · split at h
    · cases h
      exact hc.respent (fun n hn => padded_spentAt wtx hn)
    · cases h
      exact hc.setSpent _

theorem markUnspent_touched (wtx : WalletTx) (nOut : Nat) : Touched wtx (wtx.markUnspent nOut) := by
  unfold WalletTx.markUnspent
  dsimp only
  split
  · exact ⟨rfl, id, id⟩
  · exact ⟨rfl, id, id⟩

theorem Coherent.markUnspent (hc : w.Coherent wtx) (nOut : Nat) :
    w.Coherent (wtx.markUnspent nOut) := by
  unfold WalletTx.markUnspent
  dsimp only
  split
  · exact hc.setSpent _
  · exact hc.respent (fun n hn => padded_spentAt wtx hn)

theorem merge_touched (wtx wtxIn : WalletTx) : Touched wtx (wtx.merge wtxIn) :=
  ⟨merge_tx wtx wtxIn, id, id⟩

theorem Coherent.merge (hc : w.Coherent wtx) (wtxIn : WalletTx) : w.Coherent (wtx.merge wtxIn) := by
  have htx := merge_tx wtx wtxIn
  refine ⟨?_, ?_, ?_, ?_⟩
  · rw [htx]
    exact hc.debit
  · rw [htx]
    exact hc.debitInclName
  · rw [htx]
    exact hc.credit
  · intro n hn
    have hflags : (wtx.merge wtxIn).vfSpent = wtx.vfSpent := by
      by_contra hne
      have hnone : (wtx.merge wtxIn).nAvailableCreditCached = none := if_neg hne
      rw [hn] at hnone
      cases hnone
    have hcached : wtx.nAvailableCreditCached = some n := by
      rw [← hn]
      exact (if_pos hflags).symm
    have hsame : unspentOuts (wtx.merge wtxIn) = unspentOuts wtx := by
      refine unspentOuts_congr htx ?_
      intro k _
      unfold CWalletTx.spentAt
      rw [hflags]
    rw [← hc.availableCredit n hcached, availableOf, availableOf, hsame]

theorem coherent_markDirty (w : Wallet env) (wtx : WalletTx) : w.Coherent wtx.markDirty := by
  refine ⟨?_, ?_, ?_, ?_⟩ <;> (intro n hn; cases hn)

end Entry

def CoherentOn (P : Uint256 → Prop) (w : Wallet env) : Prop :=
  ∀ hash wtx, w.mapWallet[hash]? = some wtx → P hash → w.Coherent wtx

def AllCoherent (w : Wallet env) : Prop := CoherentOn (fun _ => True) w

section Steps

variable {w w' : Wallet env} {wtx wtx' : WalletTx} {e : NodeEnv} {s : NodeState}
  {P : Uint256 → Prop} {hash : Uint256}

theorem txOf_of_get (h : w.mapWallet[hash]? = some wtx) : w.txOf hash = some wtx.merkle.tx := by
  rw [txOf, h]
  rfl

theorem getElem?_putTx (w : Wallet env) (wtx : WalletTx) (hash : Uint256) :
    (w.putTx wtx).mapWallet[hash]? =
      if wtx.merkle.tx.getHash env = hash then some wtx else w.mapWallet[hash]? := by
  simp only [putTx, TreeMap.getElem?_insert, Std.LawfulEqCmp.compare_eq_iff_eq]

theorem txOf_putTx (w : Wallet env) (wtx : WalletTx) (hash : Uint256) :
    (w.putTx wtx).txOf hash =
      if wtx.merkle.tx.getHash env = hash then some wtx.merkle.tx else w.txOf hash := by
  unfold txOf
  rw [getElem?_putTx]
  split <;> rfl

theorem putTx_alike (h : w.txOf (wtx.merkle.tx.getHash env) = some wtx.merkle.tx) :
    Alike w (w.putTx wtx) := by
  refine ⟨rfl, ?_⟩
  intro hash
  rw [txOf_putTx]
  split
  · rename_i heq
    rw [← heq, h]
  · rfl

theorem AllCoherent.putTx (h : w.AllCoherent) (hget : w.mapWallet[hash]? = some wtx)
    (htx : wtx'.merkle.tx = wtx.merkle.tx) (hc : w.Coherent wtx') : (w.putTx wtx').AllCoherent := by
  have halike : Alike w (w.putTx wtx') := by
    apply putTx_alike
    rw [htx, w.keyed hash wtx hget]
    exact txOf_of_get hget
  intro k wtx'' hk _
  refine halike.coherent ?_
  rw [getElem?_putTx] at hk
  split at hk
  · cases hk
    exact hc
  · exact h k wtx'' hk trivial

structure Rewrites (w w' : Wallet env) : Prop where
  alike : Alike w w'
  touched : ∀ (hash : Uint256) (wtx' : WalletTx), w'.mapWallet[hash]? = some wtx' →
    ∃ wtx, w.mapWallet[hash]? = some wtx ∧ Touched wtx wtx'
  coherent : ∀ P, CoherentOn P w → CoherentOn P w'

theorem Rewrites.refl (w : Wallet env) : Rewrites w w :=
  ⟨.refl w, fun _ wtx h => ⟨wtx, h, rfl, id, id⟩, fun _ h => h⟩

theorem Rewrites.trans {w'' : Wallet env} (h : Rewrites w w') (h' : Rewrites w' w'') :
    Rewrites w w'' where
  alike := h.alike.trans h'.alike
  touched := by
    intro hash wtx'' hget
    obtain ⟨wtx', hget', ht'⟩ := h'.touched hash wtx'' hget
    obtain ⟨wtx, hget, ht⟩ := h.touched hash wtx' hget'
    exact ⟨wtx, hget, ht.trans ht'⟩
  coherent P hc := h'.coherent P (h.coherent P hc)

theorem rewrites_putTx (hget : w.mapWallet[hash]? = some wtx) (ht : Touched wtx wtx')
    (hc : w.Coherent wtx → w.Coherent wtx') : Rewrites w (w.putTx wtx') := by
  have hkey : wtx'.merkle.tx.getHash env = hash := by
    rw [ht.tx]
    exact w.keyed hash wtx hget
  have halike : Alike w (w.putTx wtx') := by
    apply putTx_alike
    rw [hkey, ht.tx]
    exact txOf_of_get hget
  refine ⟨halike, ?_, ?_⟩
  · intro k wtx'' hk
    rw [getElem?_putTx, hkey] at hk
    split at hk
    · rename_i heq
      cases hk
      exact ⟨wtx, heq ▸ hget, ht⟩
    · exact ⟨wtx'', hk, rfl, id, id⟩
  · intro P h k wtx'' hk hP
    refine halike.coherent ?_
    rw [getElem?_putTx, hkey] at hk
    split at hk
    · rename_i heq
      cases hk
      exact hc (h hash wtx hget (heq ▸ hP))
    · exact h k wtx'' hk hP

theorem walletUpdateSpent_rewrites {vin : List CTxIn}
    (h : walletUpdateSpent e s vin w = .ok w') : Rewrites w w' := by
  induction vin generalizing w with
  | nil =>
    cases h
    exact .refl _
  | cons txin rest ih =>
    rw [walletUpdateSpent] at h
    split at h
    · exact ih h
    · rename_i wtx hget
      obtain ⟨spent, -, h⟩ := Except.bind_eq_ok.mp h
      dsimp only at h
      split at h
      · obtain ⟨filled, hfilled, h⟩ := Except.bind_eq_ok.mp h
        obtain ⟨marked, hmarked, h⟩ := Except.bind_eq_ok.mp h
        have hput : Rewrites w (w.putTx marked) := by
          refine rewrites_putTx hget ((fillCredit_touched hfilled).trans
            (markSpent_touched hmarked)) ?_
          intro hc
          exact (hc.fillCredit hfilled).markSpent hmarked
        exact hput.trans (ih h)
      · exact ih h

theorem markInputs_rewrites {vin : List CTxIn} (h : markInputs vin w = .ok w') :
    Rewrites w w' := by
  induction vin generalizing w with
  | nil =>
    cases h
    exact .refl _
  | cons txin rest ih =>
    rw [markInputs] at h
    split at h
    · cases h
    · rename_i coin hget
      obtain ⟨marked, hmarked, h⟩ := Except.bind_eq_ok.mp h
      exact (rewrites_putTx hget (markSpent_touched hmarked) (·.markSpent hmarked)).trans (ih h)

theorem unspendInputs_rewrites (vin : List CTxIn) (w : Wallet env) :
    Rewrites w (unspendInputs vin w) := by
  induction vin generalizing w with
  | nil => exact .refl w
  | cons txin rest ih =>
    rw [unspendInputs]
    split
    · split
      · exact ih w
      · rename_i prev hget
        exact (rewrites_putTx hget (markUnspent_touched prev _) (·.markUnspent _)).trans (ih _)
    · exact ih w

def Idle (w : Wallet env) (hash : Uint256) (tx : CTransaction) : Prop :=
  ∀ (k : Uint256) (wtx : WalletTx), w.mapWallet[k]? = some wtx → k ≠ hash →
    ∀ txin ∈ wtx.merkle.tx.vin, txin.prevout.hash = hash →
      (wtx.nDebitCached.isSome → w.plainDebit tx txin.prevout.n = 0) ∧
      (wtx.nDebitInclNameCached.isSome → w.ownDebit tx txin.prevout.n = 0)

theorem Coherent.changeTx (hc : w.Coherent wtx) (hkeys : w'.keys = w.keys) {tx : CTransaction}
    (hidle : ∀ txin ∈ wtx.merkle.tx.vin, txin.prevout.hash = hash →
      (wtx.nDebitCached.isSome → w.plainDebit tx txin.prevout.n = 0) ∧
      (wtx.nDebitInclNameCached.isSome → w.ownDebit tx txin.prevout.n = 0))
    (hother : ∀ k, k ≠ hash → w'.txOf k = w.txOf k)
    (hfrom : w.txOf hash = none ∨ w.txOf hash = some tx)
    (hto : w'.txOf hash = none ∨ w'.txOf hash = some tx) : w'.Coherent wtx := by
  refine hc.transfer hkeys ?_ ?_
  · intro hset txin hin
    rw [getDebit_eq, getDebit_eq, plainDebit_keys hkeys]
    by_cases heq : txin.prevout.hash = hash
    · have hzero := (hidle txin hin heq).1 hset
      rw [heq]
      rcases hfrom with hf | hf <;> rcases hto with ht | ht <;> simp [hf, ht, hzero]
    · rw [hother _ heq]
  · intro hset txin hin
    rw [getDebitInclName_eq, getDebitInclName_eq, ownDebit_keys hkeys]
    by_cases heq : txin.prevout.hash = hash
    · have hzero := (hidle txin hin heq).2 hset
      rw [heq]
      rcases hfrom with hf | hf <;> rcases hto with ht | ht <;> simp [hf, ht, hzero]
    · rw [hother _ heq]

structure AddSafe (w : Wallet env) (wtxIn : WalletTx) : Prop where
  idle : w.Idle (wtxIn.merkle.tx.getHash env) wtxIn.merkle.tx
  own : (w.putTx wtxIn).Coherent wtxIn

theorem AllCoherent.insert (h : w.AllCoherent) {wtxIn : WalletTx}
    (hnew : w.txOf (wtxIn.merkle.tx.getHash env) = none) (hsafe : w.AddSafe wtxIn) :
    (w.putTx wtxIn).AllCoherent := by
  intro k wtx hk _
  rw [getElem?_putTx] at hk
  split at hk
  · cases hk
    exact hsafe.own
  · rename_i hne
    have hidle := hsafe.idle k wtx hk (fun heq => hne heq.symm)
    refine (h k wtx hk trivial).changeTx rfl hidle ?_ (.inl hnew) (.inr ?_)
    · intro j hj
      rw [txOf_putTx, if_neg (fun heq => hj heq.symm)]
    · rw [txOf_putTx, if_pos rfl]

theorem coherent_timed {wtxIn : WalletTx} {nTime : Nat}
    (h : (w.putTx wtxIn).Coherent wtxIn) :
    (w.putTx { wtxIn with nTimeReceived := nTime }).Coherent { wtxIn with nTimeReceived := nTime } := by
  have halike : Alike (w.putTx wtxIn) (w.putTx { wtxIn with nTimeReceived := nTime }) := by
    refine ⟨rfl, ?_⟩
    intro k
    rw [txOf_putTx, txOf_putTx]
  have hmoved := halike.coherent h
  exact ⟨hmoved.debit, hmoved.debitInclName, hmoved.credit, hmoved.availableCredit⟩

theorem AllCoherent.addToWallet {wtxIn : WalletTx} (h : w.AllCoherent)
    (hsafe : w.txOf (wtxIn.merkle.tx.getHash env) = none → w.AddSafe wtxIn)
    (hadd : addToWallet e s wtxIn w = .ok w') : w'.AllCoherent := by
  unfold Wallet.addToWallet at hadd
  dsimp only at hadd
  refine (walletUpdateSpent_rewrites hadd).coherent _ ?_
  cases hold : w.mapWallet[wtxIn.merkle.tx.getHash env]? with
  | none =>
    have hnew : w.txOf (wtxIn.merkle.tx.getHash env) = none := by
      rw [txOf, hold]
      rfl
    exact AllCoherent.insert h hnew ⟨(hsafe hnew).idle, coherent_timed (hsafe hnew).own⟩
  | some old =>
    exact (rewrites_putTx hold (merge_touched old wtxIn) (·.merge wtxIn)).coherent _ h

theorem AllCoherent.commitToWallet {wtxNew : WalletTx} (h : w.AllCoherent)
    (hsafe : w.txOf (wtxNew.merkle.tx.getHash env) = none → w.AddSafe wtxNew)
    (hadd : commitToWallet e s wtxNew w = .ok w') : w'.AllCoherent := by
  obtain ⟨w1, hw1, hmarks⟩ := Except.bind_eq_ok.mp hadd
  exact (markInputs_rewrites hmarks).coherent _ (h.addToWallet hsafe hw1)

theorem txOf_erase (hash k : Uint256) (w : Wallet env) :
    (w.eraseFromWallet hash).txOf k = if hash = k then none else w.txOf k := by
  simp only [txOf, eraseFromWallet, TreeMap.getElem?_erase, Std.LawfulEqCmp.compare_eq_iff_eq]
  split <;> rfl

theorem CoherentOn.erase {tx : CTransaction} (h : CoherentOn P w) (htx : w.txOf hash = some tx)
    (hidle : ∀ (k : Uint256) (wtx : WalletTx), w.mapWallet[k]? = some wtx → P k → k ≠ hash →
      ∀ txin ∈ wtx.merkle.tx.vin, txin.prevout.hash = hash →
        (wtx.nDebitCached.isSome → w.plainDebit tx txin.prevout.n = 0) ∧
        (wtx.nDebitInclNameCached.isSome → w.ownDebit tx txin.prevout.n = 0)) :
    CoherentOn P (w.eraseFromWallet hash) := by
  intro k wtx hk hP
  simp only [eraseFromWallet, TreeMap.getElem?_erase, Std.LawfulEqCmp.compare_eq_iff_eq] at hk
  split at hk
  · cases hk
  · rename_i hne
    refine (h k wtx hk hP).changeTx rfl (hidle k wtx hk hP (fun heq => hne heq.symm)) ?_ (.inr htx)
      (.inl ?_)
    · intro j hj
      rw [txOf_erase, if_neg (fun heq => hj heq.symm)]
    · rw [txOf_erase, if_pos rfl]

theorem Rewrites.idle (h : Rewrites w w') {tx : CTransaction} (hidle : w.Idle hash tx) :
    w'.Idle hash tx := by
  intro k wtx' hk hne txin hin heq
  obtain ⟨wtx, hget, ht⟩ := h.touched k wtx' hk
  rw [ht.tx] at hin
  obtain ⟨hplain, hown⟩ := hidle k wtx hget hne txin hin heq
  rw [plainDebit_keys h.alike.keys, ownDebit_keys h.alike.keys]
  exact ⟨fun hs => hplain (ht.debit hs), fun hs => hown (ht.debitInclName hs)⟩

theorem AllCoherent.removeTx {tx : CTransaction} (h : w.AllCoherent) (htx : w.txOf hash = some tx)
    (hidle : w.Idle hash tx) : (w.removeTx hash tx).AllCoherent := by
  have hunspent := unspendInputs_rewrites tx.vin w
  have hidle' := hunspent.idle hidle
  refine CoherentOn.erase (hunspent.coherent _ h) ((hunspent.alike.tx hash).trans htx) ?_
  intro k wtx hk _ hne
  exact hidle' k wtx hk hne

theorem AllCoherent.deletetransaction (h : w.AllCoherent)
    (hsafe : ∀ wtx, w.mapWallet[hash]? = some wtx → w.Idle hash wtx.merkle.tx)
    (hdelete : deletetransaction s hash w = .ok w') : w'.AllCoherent := by
  unfold Wallet.deletetransaction at hdelete
  split at hdelete
  · cases hdelete
  · rename_i wtx hget
    split at hdelete
    · cases hdelete
    · cases hdelete
      rw [w.keyed hash wtx hget]
      exact h.removeTx (txOf_of_get hget) (hsafe wtx hget)

end Steps

end Wallet

end Namecoin
