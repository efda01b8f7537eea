import Namecoin.Chain.Wallet

namespace Namecoin

def CWalletTx.spentCount (wtx : CWalletTx) : Nat :=
  (wtx.vfSpent.take wtx.merkle.tx.vout.length).count true

def CWalletTx.placedAt (wtx : CWalletTx) (m : CMerkleTx) : CWalletTx :=
  { wtx with merkle :=
      ⟨wtx.merkle.tx, if m.hashBlock ≠ 0 then m.hashBlock else wtx.merkle.hashBlock,
        m.vMerkleBranch, m.nIndex⟩ }

theorem CWalletTx.spentCount_markSpent {wtx : CWalletTx} {n : Nat}
    (hn : n < wtx.merkle.tx.vout.length) (hfree : wtx.vfSpent.getD n false = false) :
    (wtx.markSpent n).spentCount = wtx.spentCount + 1 := by
  have hlen : ((wtx.vfSpent ++ List.replicate wtx.merkle.tx.vout.length false).take
      wtx.merkle.tx.vout.length).length = wtx.merkle.tx.vout.length := by simp
  have hbound : n < ((wtx.vfSpent ++ List.replicate wtx.merkle.tx.vout.length false).take
      wtx.merkle.tx.vout.length).length := by
    rw [hlen]
    exact hn
  have hbit : ((wtx.vfSpent ++ List.replicate wtx.merkle.tx.vout.length false).take
      wtx.merkle.tx.vout.length)[n] = false := by
    rw [List.getElem_take, List.getElem_append]
    split
    · next hin => rwa [List.getD_eq_getElem _ _ hin] at hfree
    · exact List.getElem_replicate _
  have hcount : ((wtx.vfSpent ++ List.replicate wtx.merkle.tx.vout.length false).take
      wtx.merkle.tx.vout.length).count true = wtx.spentCount := by
    rw [spentCount, List.take_append, List.count_append, List.take_replicate]
    simp [List.count_replicate]
  simp only [markSpent, spentCount] at hcount ⊢
  rw [List.take_of_length_le (by rw [List.length_set, hlen]), List.count_set hbound,
    hbit, hcount]
  rfl

namespace CWallet

def SpendsUnmarked (w : CWallet) (txin : CTxIn) : Prop :=
  ∃ wtx txout, w.mapWallet txin.prevout.hash = some wtx ∧
    wtx.merkle.tx.vout[txin.prevout.n]? = some txout ∧ w.isMineTxOut txout = true ∧
    wtx.vfSpent.getD txin.prevout.n false = false

def recorded (env : Env) (w : CWallet) (tx : CTransaction) : CTransaction :=
  ((w.mapWallet (tx.getHash env)).map (fun wtx => wtx.merkle.tx)).getD tx

structure Quiet (env : Env) (w : CWallet) (tx : CTransaction) : Prop where
  known : w.isMine env tx = true ∨ w.isFromMe tx = .ok true →
    (w.mapWallet (tx.getHash env)).isSome
  marked : ∀ txin ∈ (w.recorded env tx).vin, ¬w.SpendsUnmarked txin

def weight (w : CWallet) (hash : Uint256) : Nat :=
  ((w.mapWallet hash).map (fun wtx => wtx.spentCount + 1)).getD 0

theorem weight_putTx {w : CWallet} {hash : Uint256} {wtx : CWalletTx}
    (h : w.weight hash < wtx.spentCount + 1) : w.weight < (w.putTx hash wtx).weight := by
  refine lt_of_le_of_ne (fun x => ?_) (fun heq => ?_)
  · by_cases hx : x = hash
    · subst hx
      simpa [weight, putTx] using h.le
    · simp [weight, putTx, Function.update_of_ne hx]
  · have hat := congrFun heq hash
    rw [hat] at h
    simp [weight, putTx] at h

theorem walletUpdateSpent_cases {w w' : CWallet} {vin : List CTxIn}
    (h : w.walletUpdateSpent vin = .ok w') :
    (w' = w ∧ ∀ txin ∈ vin, ¬w.SpendsUnmarked txin) ∨
      (w.weight < w'.weight ∧ ∃ txin ∈ vin, w.SpendsUnmarked txin) := by
  induction vin generalizing w with
  | nil =>
    cases h
    exact .inl ⟨rfl, by simp⟩
  | cons txin rest ih =>
    have hskip : ¬w.SpendsUnmarked txin → w.walletUpdateSpent rest = .ok w' →
        (w' = w ∧ ∀ txin' ∈ txin :: rest, ¬w.SpendsUnmarked txin') ∨
          (w.weight < w'.weight ∧ ∃ txin' ∈ txin :: rest, w.SpendsUnmarked txin') := by
      intro hfree hrest
      rcases ih hrest with ⟨hsame, hall⟩ | ⟨hlt, t, ht, hspends⟩
      · exact .inl ⟨hsame, List.forall_mem_cons.mpr ⟨hfree, hall⟩⟩
      · exact .inr ⟨hlt, t, List.mem_cons_of_mem _ ht, hspends⟩
    rw [walletUpdateSpent] at h
    split at h
    · next hnone =>
      refine hskip ?_ h
      rintro ⟨wtx, txout, hwtx, -⟩
      rw [hnone] at hwtx
      cases hwtx
    · next wtx hwtx =>
      obtain ⟨spent, hspent, h⟩ := Except.bind_eq_ok.mp h
      unfold CWalletTx.isSpent at hspent
      split at hspent
      · cases hspent
      · next hlt =>
        have hn : txin.prevout.n < wtx.merkle.tx.vout.length := not_le.mp hlt
        obtain rfl := Except.ok.inj hspent
        rw [← List.getD_eq_getElem?_getD, List.getElem?_eq_getElem hn] at h
        dsimp only at h
        split at h
        · next hmark =>
          simp only [Option.map_some, Option.getD_some, Bool.and_eq_true, Bool.not_eq_true'] at hmark
          have hup : w.weight <
              (w.putTx txin.prevout.hash (wtx.markSpent txin.prevout.n)).weight := by
            refine weight_putTx ?_
            rw [CWalletTx.spentCount_markSpent hn hmark.1]
            simp [weight, hwtx]
          have hspends : w.SpendsUnmarked txin :=
            ⟨wtx, _, hwtx, List.getElem?_eq_getElem hn, hmark.2, hmark.1⟩
          refine .inr ⟨?_, txin, List.mem_cons_self, hspends⟩
          rcases ih h with ⟨rfl, -⟩ | ⟨hmore, -⟩
          · exact hup
          · exact hup.trans hmore
        · next hmark =>
          refine hskip ?_ h
          rintro ⟨wtx', txout, hwtx', hout, hmine, hfree⟩
          rw [hwtx] at hwtx'
          obtain rfl := Option.some.inj hwtx'
          rw [List.getElem?_eq_getElem hn] at hout
          obtain rfl := Option.some.inj hout
          have hfree' : wtx.vfSpent[txin.prevout.n]?.getD false = false := by
            rw [← List.getD_eq_getElem?_getD, hfree]
          exact hmark (by simp [hmine, hfree'])

theorem mergeTx_fresh (old : CWalletTx) {m : CMerkleTx} (hindex : m.nIndex ≠ -1) :
    mergeTx old ⟨m, 0, false, []⟩ = old.placedAt m := by
  have hbits : List.zipWith (· || ·) old.vfSpent (List.replicate old.vfSpent.length false) =
      old.vfSpent := by
    refine List.ext_getElem (by simp) (fun i _ _ => ?_)
    simp
  simp only [mergeTx, CWalletTx.updateSpent, CWalletTx.placedAt, List.nil_append, if_pos hindex,
    hbits, Bool.or_false]

theorem setMerkleBranch_nIndex {env : Env} {tx : CTransaction} {block : CBlock}
    (htx : tx ∈ block.vtx) : (setMerkleBranch env tx block).nIndex ≠ -1 := by
  unfold setMerkleBranch
  split
  · exact fun h => Int.noConfusion h
  · next hnone =>
    have hmiss := List.findIdx?_eq_none_iff.mp hnone tx htx
    simp at hmiss

def placed (env : Env) (w : CWallet) (p : CBlock × CTransaction) : CWallet :=
  match w.mapWallet (p.2.getHash env) with
  | none => w
  | some wtx => w.putTx (p.2.getHash env) (wtx.placedAt (setMerkleBranch env p.2 p.1))

structure SameCoins (w w' : CWallet) : Prop where
  isMineScript : w'.isMineScript = w.isMineScript
  isMyName : w'.isMyName = w.isMyName
  nMinimumInputValue : w'.nMinimumInputValue = w.nMinimumInputValue
  entry : ∀ hash, (w'.mapWallet hash).map (fun wtx => (wtx.merkle.tx, wtx.vfSpent)) =
    (w.mapWallet hash).map (fun wtx => (wtx.merkle.tx, wtx.vfSpent))

theorem sameCoins_placed (env : Env) (w : CWallet) (p : CBlock × CTransaction) :
    SameCoins w (w.placed env p) := by
  unfold placed
  split
  · exact ⟨rfl, rfl, rfl, fun _ => rfl⟩
  · next wtx hwtx =>
    refine ⟨rfl, rfl, rfl, fun hash => ?_⟩
    by_cases hx : hash = p.2.getHash env
    · subst hx
      simp [putTx, hwtx, CWalletTx.placedAt]
    · simp [putTx, Function.update_of_ne hx]

namespace SameCoins

variable {env : Env} {w w' : CWallet}

theorem cases (h : SameCoins w w') (hash : Uint256) :
    (w.mapWallet hash = none ∧ w'.mapWallet hash = none) ∨
      ∃ wtx wtx', w.mapWallet hash = some wtx ∧ w'.mapWallet hash = some wtx' ∧
        wtx'.merkle.tx = wtx.merkle.tx ∧ wtx'.vfSpent = wtx.vfSpent := by
  have he := h.entry hash
  cases hw : w.mapWallet hash with
  | none =>
    rw [hw] at he
    exact .inl ⟨rfl, Option.map_eq_none_iff.mp he⟩
  | some wtx =>
    rw [hw] at he
    obtain ⟨wtx', hw', hpair⟩ := Option.map_eq_some_iff.mp he
    obtain ⟨htx, hbits⟩ := Prod.mk.inj hpair
    exact .inr ⟨wtx, wtx', rfl, hw', htx, hbits⟩

theorem trans {w'' : CWallet} (h : SameCoins w w') (h' : SameCoins w' w'') : SameCoins w w'' :=
  ⟨h'.isMineScript.trans h.isMineScript, h'.isMyName.trans h.isMyName,
    h'.nMinimumInputValue.trans h.nMinimumInputValue, fun hash => (h'.entry hash).trans (h.entry hash)⟩

theorem isMineTxOut (h : SameCoins w w') : w'.isMineTxOut = w.isMineTxOut := by
  funext txout
  rw [CWallet.isMineTxOut, CWallet.isMineTxOut, h.isMineScript]

theorem weight (h : SameCoins w w') : w'.weight = w.weight := by
  funext hash
  rcases h.cases hash with ⟨hw, hw'⟩ | ⟨wtx, wtx', hw, hw', htx, hbits⟩
  · simp [CWallet.weight, hw, hw']
  · simp [CWallet.weight, CWalletTx.spentCount, hw, hw', htx, hbits]

theorem spendsUnmarked (h : SameCoins w w') (txin : CTxIn) :
    w'.SpendsUnmarked txin ↔ w.SpendsUnmarked txin := by
  rcases h.cases txin.prevout.hash with ⟨hw, hw'⟩ | ⟨wtx, wtx', hw, hw', htx, hbits⟩
  · simp [SpendsUnmarked, hw, hw']
  · simp [SpendsUnmarked, hw, hw', htx, hbits, h.isMineTxOut]

theorem recorded (h : SameCoins w w') (tx : CTransaction) :
    w'.recorded env tx = w.recorded env tx := by
  rcases h.cases (tx.getHash env) with ⟨hw, hw'⟩ | ⟨wtx, wtx', hw, hw', htx, hbits⟩
  · simp [CWallet.recorded, hw, hw']
  · simp [CWallet.recorded, hw, hw', htx]

theorem isMine (h : SameCoins w w') (tx : CTransaction) : w'.isMine env tx = w.isMine env tx := by
  simp only [CWallet.isMine, hookIsMineTx, h.isMineTxOut, h.nMinimumInputValue, h.isMyName]

theorem getDebitInclName (h : SameCoins w w') (txin : CTxIn) :
    w'.getDebitInclName txin = w.getDebitInclName txin := by
  rcases h.cases txin.prevout.hash with ⟨hw, hw'⟩ | ⟨wtx, wtx', hw, hw', htx, hbits⟩
  · simp only [CWallet.getDebitInclName, hw, hw']
  · simp only [CWallet.getDebitInclName, hw, hw', htx, h.isMineTxOut, hookIsMine, h.isMyName]
    rfl

theorem isFromMe (h : SameCoins w w') (tx : CTransaction) : w'.isFromMe tx = w.isFromMe tx := by
  have hdebit : ∀ vin nDebit, w'.debitFrom vin nDebit = w.debitFrom vin nDebit := by
    intro vin
    induction vin with
    | nil => exact fun _ => rfl
    | cons txin rest ih =>
      intro nDebit
      simp only [debitFrom, h.getDebitInclName, ih]
  rw [CWallet.isFromMe, CWallet.isFromMe, hdebit]

theorem quiet (h : SameCoins w w') (tx : CTransaction) : Quiet env w' tx ↔ Quiet env w tx := by
  have hknown : (w'.mapWallet (tx.getHash env)).isSome = (w.mapWallet (tx.getHash env)).isSome := by
    rcases h.cases (tx.getHash env) with ⟨hw, hw'⟩ | ⟨wtx, wtx', hw, hw', -⟩ <;> simp [hw, hw']
  constructor
  · rintro ⟨hk, hm⟩
    rw [h.isMine, h.isFromMe, hknown] at hk
    rw [h.recorded] at hm
    exact ⟨hk, fun txin hin => (h.spendsUnmarked txin).not.mp (hm txin hin)⟩
  · rintro ⟨hk, hm⟩
    rw [← h.isMine, ← h.isFromMe, ← hknown] at hk
    rw [← h.recorded] at hm
    exact ⟨hk, fun txin hin => (h.spendsUnmarked txin).not.mpr (hm txin hin)⟩

end SameCoins

theorem addToWallet_cases {env : Env} {w w' : CWallet} {nNow : Nat} {tx : CTransaction}
    {block : CBlock} (htx : tx ∈ block.vtx)
    (h : w.addToWallet env nNow ⟨setMerkleBranch env tx block, 0, false, []⟩ = .ok w') :
    (w' = w.placed env (block, tx) ∧ (w.mapWallet (tx.getHash env)).isSome ∧
        ∀ txin ∈ (w.recorded env tx).vin, ¬w.SpendsUnmarked txin) ∨
      (w.weight < w'.weight ∧ ((w.mapWallet (tx.getHash env)).isSome →
        ∃ txin ∈ (w.recorded env tx).vin, w.SpendsUnmarked txin)) := by
  have hsame := sameCoins_placed env w (block, tx)
  have htxm : (setMerkleBranch env tx block).tx = tx := by
    unfold setMerkleBranch
    split <;> rfl
  unfold addToWallet at h
  simp only [htxm] at h
  cases hw : w.mapWallet (tx.getHash env) with
  | none =>
    rw [hw] at h
    refine .inr ⟨?_, fun hs => by cases hs⟩
    have hup := @weight_putTx w (tx.getHash env)
      ⟨setMerkleBranch env tx block, nNow, false, []⟩ (by simp [weight, hw])
    rcases walletUpdateSpent_cases h with ⟨rfl, -⟩ | ⟨hmore, -⟩
    · exact hup
    · exact hup.trans hmore
  | some old =>
    rw [hw] at h
    have hput : w.putTx (tx.getHash env) (mergeTx old ⟨setMerkleBranch env tx block, 0, false, []⟩) =
        w.placed env (block, tx) := by
      rw [mergeTx_fresh old (setMerkleBranch_nIndex htx), placed, hw]
    have hvin : (mergeTx old ⟨setMerkleBranch env tx block, 0, false, []⟩).merkle.tx.vin =
        (w.recorded env tx).vin := by
      rw [mergeTx_fresh old (setMerkleBranch_nIndex htx), recorded, hw]
      rfl
    dsimp only at h
    rw [hput, hvin] at h
    rcases walletUpdateSpent_cases h with ⟨rfl, hall⟩ | ⟨hmore, txin, hin, hspends⟩
    · exact .inl ⟨rfl, rfl, fun txin hin => (hsame.spendsUnmarked txin).not.mp (hall txin hin)⟩
    · rw [hsame.weight] at hmore
      exact .inr ⟨hmore, fun _ => ⟨txin, hin, (hsame.spendsUnmarked txin).mp hspends⟩⟩

theorem arrive_cases {env : Env} {w w' : CWallet} {nNow : Nat} {tx : CTransaction} {block : CBlock}
    (htx : tx ∈ block.vtx) (h : w.addToWalletIfInvolvingMe env nNow tx block = .ok w') :
    (w' = w.placed env (block, tx) ∧ Quiet env w tx) ∨ (w.weight < w'.weight ∧ ¬Quiet env w tx) := by
  obtain ⟨mine, hmine, h⟩ := Except.bind_eq_ok.mp h
  unfold involvesMe at hmine
  unfold involve at h
  split at hmine
  · next hin =>
    obtain rfl := Except.ok.inj hmine
    rw [if_pos rfl] at h
    rcases addToWallet_cases htx h with ⟨hw', hsome, hall⟩ | ⟨hmore, hspends⟩
    · exact .inl ⟨hw', fun _ => hsome, hall⟩
    · refine .inr ⟨hmore, fun hq => ?_⟩
      have hsome : (w.mapWallet (tx.getHash env)).isSome := by
        rcases Bool.or_eq_true_iff.mp hin with hsome | hm
        · exact hsome
        · exact hq.known (.inl hm)
      obtain ⟨txin, hin, hsp⟩ := hspends hsome
      exact hq.marked txin hin hsp
  · next hout =>
    have hnone : w.mapWallet (tx.getHash env) = none := by
      cases hw : w.mapWallet (tx.getHash env) with
      | none => rfl
      | some wtx => simp [hw] at hout
    have hnot : w.isMine env tx = false := by
      simpa [hnone] using hout
    have hrec : w.recorded env tx = tx := by rw [recorded, hnone]; rfl
    cases mine with
    | true =>
      rw [if_pos rfl] at h
      rcases addToWallet_cases htx h with ⟨-, hsome, -⟩ | ⟨hmore, -⟩
      · rw [hnone] at hsome
        cases hsome
      · refine .inr ⟨hmore, fun hq => ?_⟩
        have hsome := hq.known (.inr hmine)
        rw [hnone] at hsome
        cases hsome
    | false =>
      rw [if_neg (by simp)] at h
      have hplaced : w.placed env (block, tx) = w := by rw [placed, hnone]
      rcases walletUpdateSpent_cases h with ⟨hw', hall⟩ | ⟨hmore, txin, hin, hspends⟩
      · refine .inl ⟨hw'.trans hplaced.symm, ?_, hrec.symm ▸ hall⟩
        rintro (hm | hm)
        · rw [hnot] at hm
          cases hm
        · rw [hmine] at hm
          cases hm
      · exact .inr ⟨hmore, fun hq => hq.marked txin (hrec.symm ▸ hin) hspends⟩

def syncPlaces (env : Env) (nNow : Nat) :
    List (CBlock × CTransaction) → CWallet → Except Fault CWallet
  | [], w => .ok w
  | p :: rest, w => do
    let w ← w.addToWalletIfInvolvingMe env nNow p.2 p.1
    syncPlaces env nNow rest w

def syncBlocks (env : Env) (nNow : Nat) : List CBlock → CWallet → Except Fault CWallet
  | [], w => .ok w
  | b :: rest, w => do
    let w ← w.syncWithWallets env nNow b b.vtx
    syncBlocks env nNow rest w

def places (bs : List CBlock) : List (CBlock × CTransaction) :=
  bs.flatMap (fun b => b.vtx.map (fun tx => (b, tx)))

def placesOf (env : Env) (hash : Uint256) (bs : List CBlock) : List CMerkleTx :=
  ((places bs).filter (fun p => decide (p.2.getHash env = hash))).map
    (fun p => setMerkleBranch env p.2 p.1)

structure SettledIn (env : Env) (w : CWallet) (bs : List CBlock) : Prop where
  known : ∀ b ∈ bs, ∀ tx ∈ b.vtx, w.isMine env tx = true ∨ w.isFromMe tx = .ok true →
    (w.mapWallet (tx.getHash env)).isSome
  marked : ∀ b ∈ bs, ∀ tx ∈ b.vtx, ∀ txin ∈ (w.recorded env tx).vin, ¬w.SpendsUnmarked txin
  branch : ∀ hash wtx, w.mapWallet hash = some wtx →
    ∀ m, (placesOf env hash bs).getLast? = some m →
      wtx.merkle.vMerkleBranch = m.vMerkleBranch ∧ wtx.merkle.nIndex = m.nIndex
  block : ∀ hash wtx, w.mapWallet hash = some wtx →
    ∀ m, ((placesOf env hash bs).filter (fun m => decide (m.hashBlock ≠ 0))).getLast? = some m →
      wtx.merkle.hashBlock = m.hashBlock

theorem syncPlaces_append {env : Env} {nNow : Nat} (ps qs : List (CBlock × CTransaction))
    (w : CWallet) : syncPlaces env nNow (ps ++ qs) w =
      (syncPlaces env nNow ps w >>= syncPlaces env nNow qs) := by
  induction ps generalizing w with
  | nil => rfl
  | cons p rest ih =>
    simp only [List.cons_append, syncPlaces, bind_assoc, ih]

theorem syncWithWallets_places (env : Env) (nNow : Nat) (b : CBlock) (txs : List CTransaction)
    (w : CWallet) : w.syncWithWallets env nNow b txs =
      syncPlaces env nNow (txs.map (fun tx => (b, tx))) w := by
  induction txs generalizing w with
  | nil => rfl
  | cons tx rest ih => simp only [syncWithWallets, List.map_cons, syncPlaces, ih]

theorem syncBlocks_places (env : Env) (nNow : Nat) (bs : List CBlock) (w : CWallet) :
    syncBlocks env nNow bs w = syncPlaces env nNow (places bs) w := by
  induction bs generalizing w with
  | nil => rfl
  | cons b rest ih =>
    simp only [syncBlocks, places, List.flatMap_cons, syncPlaces_append, syncWithWallets_places, ih]

theorem mem_places {bs : List CBlock} {p : CBlock × CTransaction} :
    p ∈ places bs ↔ p.1 ∈ bs ∧ p.2 ∈ p.1.vtx := by
  simp only [places, List.mem_flatMap, List.mem_map]
  constructor
  · rintro ⟨b, hb, tx, htx, rfl⟩
    exact ⟨hb, htx⟩
  · rintro ⟨hb, htx⟩
    exact ⟨p.1, hb, p.2, htx, rfl⟩

theorem sameCoins_foldl {env : Env} (ps : List (CBlock × CTransaction)) (w : CWallet) :
    SameCoins w (ps.foldl (placed env) w) := by
  induction ps generalizing w with
  | nil => exact ⟨rfl, rfl, rfl, fun _ => rfl⟩
  | cons p rest ih => exact (sameCoins_placed env w p).trans (ih _)

theorem syncPlaces_cases {env : Env} {nNow : Nat} {ps : List (CBlock × CTransaction)}
    (hps : ∀ p ∈ ps, p.2 ∈ p.1.vtx) {w w' : CWallet} (h : syncPlaces env nNow ps w = .ok w') :
    (w' = ps.foldl (placed env) w ∧ ∀ p ∈ ps, Quiet env w p.2) ∨
      (w.weight < w'.weight ∧ ∃ p ∈ ps, ¬Quiet env w p.2) := by
  induction ps generalizing w with
  | nil =>
    cases h
    exact .inl ⟨rfl, by simp⟩
  | cons p rest ih =>
    obtain ⟨w1, h1, h⟩ := Except.bind_eq_ok.mp h
    have hmore := ih (fun q hq => hps q (List.mem_cons_of_mem _ hq)) h
    rcases arrive_cases (hps p List.mem_cons_self) h1 with ⟨rfl, hquiet⟩ | ⟨hup, hloud⟩
    · have hsame := sameCoins_placed env w p
      rcases hmore with ⟨rfl, hall⟩ | ⟨hlt, q, hq, hloud⟩
      · refine .inl ⟨rfl, List.forall_mem_cons.mpr ⟨hquiet, fun q hq => ?_⟩⟩
        exact (hsame.quiet q.2).mp (hall q hq)
      · rw [hsame.weight] at hlt
        exact .inr ⟨hlt, q, List.mem_cons_of_mem _ hq, fun hq' => hloud ((hsame.quiet q.2).mpr hq')⟩
    · refine .inr ⟨?_, p, List.mem_cons_self, hloud⟩
      rcases hmore with ⟨rfl, -⟩ | ⟨hlt, -⟩
      · exact hup.trans_eq (sameCoins_foldl rest w1).weight.symm
      · exact hup.trans hlt

theorem placed_mapWallet (env : Env) (w : CWallet) (p : CBlock × CTransaction) (hash : Uint256) :
    (w.placed env p).mapWallet hash =
      if p.2.getHash env = hash then
        (w.mapWallet hash).map (fun wtx => wtx.placedAt (setMerkleBranch env p.2 p.1))
      else w.mapWallet hash := by
  unfold placed
  split
  · next hnone =>
    split
    · next heq => rw [← heq, hnone, Option.map_none]
    · rfl
  · next wtx hwtx =>
    split
    · next heq =>
      rw [← heq, hwtx]
      exact Function.update_self _ _ _
    · next hne => exact Function.update_of_ne (Ne.symm hne) _ _

theorem foldl_placed_mapWallet (env : Env) (bs : List (CBlock × CTransaction)) (w : CWallet)
    (hash : Uint256) : (bs.foldl (placed env) w).mapWallet hash =
      (w.mapWallet hash).map (fun wtx => (((bs.filter (fun p => decide (p.2.getHash env = hash))).map
        (fun p => setMerkleBranch env p.2 p.1)).foldl CWalletTx.placedAt wtx)) := by
  induction bs generalizing w with
  | nil => simp
  | cons p rest ih =>
    rw [List.foldl_cons, ih, placed_mapWallet]
    by_cases hp : p.2.getHash env = hash
    · rw [if_pos hp, Option.map_map, List.filter_cons_of_pos (by simpa using hp)]
      rfl
    · rw [if_neg hp, List.filter_cons_of_neg (by simpa using hp)]

theorem foldl_placedAt (ms : List CMerkleTx) (wtx : CWalletTx) :
    ms.foldl CWalletTx.placedAt wtx = { wtx with merkle :=
      ⟨wtx.merkle.tx,
        (((ms.filter (fun m => decide (m.hashBlock ≠ 0))).getLast?).map CMerkleTx.hashBlock).getD
          wtx.merkle.hashBlock,
        (ms.getLast?.map CMerkleTx.vMerkleBranch).getD wtx.merkle.vMerkleBranch,
        (ms.getLast?.map CMerkleTx.nIndex).getD wtx.merkle.nIndex⟩ } := by
  induction ms using List.reverseRecOn with
  | nil => rfl
  | append_singleton ms m ih =>
    rw [List.foldl_append, ih, List.filter_append]
    by_cases hm : m.hashBlock = 0
    · rw [List.filter_cons_of_neg (by simpa using hm)]
      simp [CWalletTx.placedAt, hm]
    · rw [List.filter_cons_of_pos (by simpa using hm), List.filter_nil]
      rw [List.getLast?_concat, List.getLast?_concat]
      simp only [List.foldl_cons, List.foldl_nil, CWalletTx.placedAt, if_pos hm, Option.map_some,
        Option.getD_some]

theorem foldl_placedAt_eq_iff (ms : List CMerkleTx) (wtx : CWalletTx) :
    ms.foldl CWalletTx.placedAt wtx = wtx ↔
      (∀ m, ms.getLast? = some m →
        wtx.merkle.vMerkleBranch = m.vMerkleBranch ∧ wtx.merkle.nIndex = m.nIndex) ∧
      ∀ m, (ms.filter (fun m => decide (m.hashBlock ≠ 0))).getLast? = some m →
        wtx.merkle.hashBlock = m.hashBlock := by
  rw [foldl_placedAt]
  obtain ⟨⟨tx, hashBlock, vMerkleBranch, nIndex⟩, nTimeReceived, fFromMe, vfSpent⟩ := wtx
  simp only [CWalletTx.mk.injEq, CMerkleTx.mk.injEq, true_and, and_true]
  cases ms.getLast? <;> cases (ms.filter (fun m => decide (m.hashBlock ≠ 0))).getLast? <;>
    simp [eq_comm, and_comm]

theorem syncBlocks_mapWallet {env : Env} {nNow : Nat} {bs : List CBlock} {w w' : CWallet}
    (h : syncBlocks env nNow bs w = .ok w') :
    w'.mapWallet = w.mapWallet ↔ SettledIn env w bs := by
  rw [syncBlocks_places] at h
  have hplaced : ((places bs).foldl (placed env) w).mapWallet = w.mapWallet ↔
      ∀ hash wtx, w.mapWallet hash = some wtx →
        (placesOf env hash bs).foldl CWalletTx.placedAt wtx = wtx := by
    constructor
    · intro heq hash wtx hwtx
      have hat := congrFun heq hash
      rw [foldl_placed_mapWallet, hwtx] at hat
      exact Option.some.inj hat
    · intro hall
      funext hash
      rw [foldl_placed_mapWallet]
      cases hwtx : w.mapWallet hash with
      | none => rfl
      | some wtx => exact congrArg some (hall hash wtx hwtx)
  rcases syncPlaces_cases (fun p hp => (mem_places.mp hp).2) h with ⟨rfl, hquiet⟩ | ⟨hlt, p, hp, hloud⟩
  · rw [hplaced]
    constructor
    · intro hall
      refine ⟨fun b hb tx htx => (hquiet (b, tx) (mem_places.mpr ⟨hb, htx⟩)).known,
        fun b hb tx htx => (hquiet (b, tx) (mem_places.mpr ⟨hb, htx⟩)).marked,
        fun hash wtx hwtx => ((foldl_placedAt_eq_iff _ _).mp (hall hash wtx hwtx)).1,
        fun hash wtx hwtx => ((foldl_placedAt_eq_iff _ _).mp (hall hash wtx hwtx)).2⟩
    · intro hs hash wtx hwtx
      exact (foldl_placedAt_eq_iff _ _).mpr ⟨hs.branch hash wtx hwtx, hs.block hash wtx hwtx⟩
  · constructor
    · intro heq
      have hsame : w'.weight = w.weight := by
        funext hash
        rw [weight, weight, heq]
      exact absurd hsame hlt.ne'
    · intro hs
      obtain ⟨hb, htx⟩ := mem_places.mp hp
      exact absurd ⟨hs.known _ hb _ htx, hs.marked _ hb _ htx⟩ hloud

end CWallet

end Namecoin
