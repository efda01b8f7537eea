import Namecoin.Chain.Run

namespace Namecoin

def CWalletTx.spentAt (wtx : CWalletTx) (n : Nat) : Bool := (wtx.vfSpent[n]?).getD false

namespace CWallet

def txAt (w : CWallet) (hash : Uint256) : Option CTransaction :=
  (w.mapWallet hash).map (fun wtx => wtx.merkle.tx)

def outAt (w : CWallet) (o : COutPoint) : Option CTxOut :=
  (w.txAt o.hash).bind (fun tx => tx.vout[o.n]?)

def spentAt (w : CWallet) (o : COutPoint) : Bool :=
  match w.mapWallet o.hash with
  | none => false
  | some wtx => wtx.spentAt o.n

def Owns (w : CWallet) (o : COutPoint) : Prop :=
  ∃ txout, w.outAt o = some txout ∧ w.isMineTxOut txout = true

def Spends (w : CWallet) (o : COutPoint) : Prop :=
  ∃ hash tx, w.txAt hash = some tx ∧ ∃ txin ∈ tx.vin, txin.prevout = o

def Tracked (w : CWallet) : Prop := ∀ o, w.Owns o → w.Spends o → w.spentAt o = true

structure Marked (w w' : CWallet) (vin : List CTxIn) : Prop where
  script : w'.isMineScript = w.isMineScript
  tx : ∀ hash, w'.txAt hash = w.txAt hash
  spent : ∀ o, (w.outAt o).isSome →
    (w'.spentAt o = true ↔ w.spentAt o = true ∨ (w.Owns o ∧ ∃ txin ∈ vin, txin.prevout = o))

namespace Marked

variable {w w' w'' : CWallet} {vin vin' : List CTxIn}

theorem outAt (h : Marked w w' vin) (o : COutPoint) : w'.outAt o = w.outAt o := by
  rw [CWallet.outAt, CWallet.outAt, h.tx]

theorem owns (h : Marked w w' vin) (o : COutPoint) : w'.Owns o ↔ w.Owns o := by
  unfold Owns isMineTxOut
  rw [h.outAt, h.script]

theorem spends (h : Marked w w' vin) (o : COutPoint) : w'.Spends o ↔ w.Spends o := by
  unfold Spends
  simp only [h.tx]

theorem trans (h : Marked w w' vin) (h' : Marked w' w'' vin') : Marked w w'' (vin ++ vin') where
  script := h'.script.trans h.script
  tx hash := (h'.tx hash).trans (h.tx hash)
  spent := by
    intro o ho
    have hmid : (w'.outAt o).isSome := by rwa [h.outAt]
    rw [h'.spent o hmid, h.spent o ho, h.owns o]
    constructor
    · rintro ((hs | ⟨hown, txin, hin, heq⟩) | ⟨hown, txin, hin, heq⟩)
      · exact .inl hs
      · exact .inr ⟨hown, txin, List.mem_append_left _ hin, heq⟩
      · exact .inr ⟨hown, txin, List.mem_append_right _ hin, heq⟩
    · rintro (hs | ⟨hown, txin, hin, heq⟩)
      · exact .inl (.inl hs)
      · rcases List.mem_append.mp hin with hin | hin
        · exact .inl (.inr ⟨hown, txin, hin, heq⟩)
        · exact .inr ⟨hown, txin, hin, heq⟩

end Marked

end CWallet

namespace CWalletTx

theorem padded_get {flags : List Bool} {len n : Nat} (hn : n < len) :
    ((flags ++ List.replicate len false).take len)[n]? = some ((flags[n]?).getD false) := by
  rw [List.getElem?_take_of_lt hn]
  rcases Nat.lt_or_ge n flags.length with hlt | hge
  · rw [List.getElem?_append_left hlt, List.getElem?_eq_getElem hlt]
    rfl
  · rw [List.getElem?_append_right hge, List.getElem?_replicate_of_lt (by omega),
      List.getElem?_eq_none hge]
    rfl

theorem markSpent_spentAt {wtx : CWalletTx} {nOut n : Nat} (hn : n < wtx.merkle.tx.vout.length) :
    (wtx.markSpent nOut).spentAt n = (wtx.spentAt n || decide (n = nOut)) := by
  unfold markSpent spentAt
  dsimp only
  rw [List.getElem?_set]
  split
  · rename_i heq
    subst heq
    rw [if_pos (by simp only [List.length_take, List.length_append, List.length_replicate]; omega)]
    simp
  · rename_i hne
    rw [padded_get hn, Option.getD_some, decide_eq_false (fun h => hne h.symm), Bool.or_false]

theorem updateSpent_spentAt (wtx : CWalletTx) (vfNewSpent : List Bool) (n : Nat) :
    (wtx.updateSpent vfNewSpent).spentAt n =
      (wtx.spentAt n || (decide (n < wtx.vfSpent.length) && (vfNewSpent[n]?).getD false)) := by
  unfold updateSpent spentAt
  dsimp only
  rw [List.getElem?_zipWith]
  rcases Nat.lt_or_ge n wtx.vfSpent.length with hlt | hge
  · have hpad : (vfNewSpent ++ List.replicate wtx.vfSpent.length false)[n]? =
        some ((vfNewSpent[n]?).getD false) := by
      rcases Nat.lt_or_ge n vfNewSpent.length with hnew | hold
      · rw [List.getElem?_append_left hnew, List.getElem?_eq_getElem hnew]
        rfl
      · rw [List.getElem?_append_right hold, List.getElem?_replicate_of_lt (by omega),
          List.getElem?_eq_none hold]
        rfl
    rw [List.getElem?_eq_getElem hlt, hpad]
    simp [hlt]
  · rw [List.getElem?_eq_none hge]
    simp [Nat.not_lt.mpr hge]

end CWalletTx

namespace CWallet

section Update

variable {w w' : CWallet} {hash : Uint256} {wtx : CWalletTx}

theorem putTx_self : (w.putTx hash wtx).mapWallet hash = some wtx := by
  simp [putTx]

end Update

structure Arrives (env : Env) (w : CWallet) (wtxIn : CWalletTx) : Prop where
  fresh : w.txAt (wtxIn.merkle.tx.getHash env) = none → ∀ n txout,
    wtxIn.merkle.tx.vout[n]? = some txout → w.isMineTxOut txout = true →
    w.Spends ⟨wtxIn.merkle.tx.getHash env, n⟩ → wtxIn.spentAt n = true
  merged : ∀ old, w.mapWallet (wtxIn.merkle.tx.getHash env) = some old →
    ∀ n < wtxIn.merkle.tx.vout.length, wtxIn.spentAt n = true → n < old.vfSpent.length

def Known (w0 : CWallet) (l : List CWalletTx) (tx : CTransaction) : Prop :=
  (∃ hash, w0.txAt hash = some tx) ∨ ∃ x ∈ l, x.merkle.tx = tx

structure ArrivalStep (env : Env) (w : CWallet) (wtxIn : CWalletTx) (w' : CWallet) : Prop where
  script : w'.isMineScript = w.isMineScript
  tx : w'.txAt = Function.update w.txAt (wtxIn.merkle.tx.getHash env) (some wtxIn.merkle.tx)
  spent : ∀ o, (w'.outAt o).isSome → (w'.spentAt o = true ↔
    w.spentAt o = true ∨
      (o.hash = wtxIn.merkle.tx.getHash env ∧ wtxIn.spentAt o.n = true) ∨
      (w'.Owns o ∧ ∃ txin ∈ wtxIn.merkle.tx.vin, txin.prevout = o))

theorem merge_spentAt {env : Env} {w : CWallet} {wtxIn old : CWalletTx}
    (h : w.Arrives env wtxIn) (hold : w.mapWallet (wtxIn.merkle.tx.getHash env) = some old) {n : Nat}
    (hn : n < wtxIn.merkle.tx.vout.length) :
    (mergeTx old wtxIn).spentAt n = (old.spentAt n || wtxIn.spentAt n) := by
  unfold mergeTx
  dsimp only
  rw [CWalletTx.updateSpent_spentAt]
  dsimp only
  have hlen := h.merged old hold n hn
  unfold CWalletTx.spentAt at hlen ⊢
  cases hin : (wtxIn.vfSpent[n]?).getD false with
  | false => simp
  | true => simp [hlen hin]

namespace ArrivalStep

variable {env : Env} {w w' : CWallet} {wtxIn : CWalletTx}

theorem txAt_self (h : ArrivalStep env w wtxIn w') :
    w'.txAt (wtxIn.merkle.tx.getHash env) = some wtxIn.merkle.tx := by
  rw [h.tx, Function.update_self]

theorem txAt_ne (h : ArrivalStep env w wtxIn w') {hash : Uint256}
    (hne : hash ≠ wtxIn.merkle.tx.getHash env) : w'.txAt hash = w.txAt hash := by
  rw [h.tx, Function.update_of_ne hne]

theorem spends (h : ArrivalStep env w wtxIn w')
    (hsame : ∀ tx, w.txAt (wtxIn.merkle.tx.getHash env) = some tx → tx = wtxIn.merkle.tx)
    (o : COutPoint) :
    w'.Spends o ↔ w.Spends o ∨ ∃ txin ∈ wtxIn.merkle.tx.vin, txin.prevout = o := by
  constructor
  · rintro ⟨hash, tx, htx, hin⟩
    rcases eq_or_ne hash (wtxIn.merkle.tx.getHash env) with rfl | hne
    · rw [h.txAt_self] at htx
      cases htx
      exact .inr hin
    · exact .inl ⟨hash, tx, by rw [← h.txAt_ne hne]; exact htx, hin⟩
  · rintro (⟨hash, tx, htx, hin⟩ | hin)
    · rcases eq_or_ne hash (wtxIn.merkle.tx.getHash env) with rfl | hne
      · rw [hsame tx htx] at hin
        exact ⟨_, _, h.txAt_self, hin⟩
      · exact ⟨hash, tx, by rw [h.txAt_ne hne]; exact htx, hin⟩
    · exact ⟨_, _, h.txAt_self, hin⟩

theorem tracked (h : ArrivalStep env w wtxIn w') (harrives : w.Arrives env wtxIn)
    (hsame : ∀ tx, w.txAt (wtxIn.merkle.tx.getHash env) = some tx → tx = wtxIn.merkle.tx)
    (hw : w.Tracked) : w'.Tracked := by
  intro o hown hspends
  obtain ⟨txout, hout, hmine⟩ := hown
  have hmine' : w.isMineTxOut txout = true := by
    unfold isMineTxOut at hmine ⊢
    rwa [← h.script]
  refine (h.spent o (by simp [hout])).mpr ?_
  rcases (h.spends hsame o).mp hspends with hold | hnew
  · rcases eq_or_ne o.hash (wtxIn.merkle.tx.getHash env) with heq | hne
    · have hget : wtxIn.merkle.tx.vout[o.n]? = some txout := by
        rw [outAt, heq, h.txAt_self] at hout
        exact hout
      have ho : o = ⟨wtxIn.merkle.tx.getHash env, o.n⟩ := by rw [← heq]
      cases htx : w.txAt (wtxIn.merkle.tx.getHash env) with
      | none =>
        rw [ho] at hold
        exact .inr (.inl ⟨heq, harrives.fresh htx o.n txout hget hmine' hold⟩)
      | some tx =>
        refine .inl (hw o ⟨txout, ?_, hmine'⟩ hold)
        rw [outAt, heq, htx, hsame tx htx]
        exact hget
    · refine .inl (hw o ⟨txout, ?_, hmine'⟩ hold)
      rw [outAt, ← h.txAt_ne hne]
      exact hout
  · exact .inr (.inr ⟨⟨txout, hout, hmine⟩, hnew⟩)

end ArrivalStep

structure ArrivalsOk (env : Env) (w0 : CWallet) (l : List CWalletTx) (w : CWallet) : Prop where
  script : w.isMineScript = w0.isMineScript
  keyed : ∀ hash tx, w.txAt hash = some tx → tx.getHash env = hash
  tx : ∀ hash tx, w.txAt hash = some tx ↔
    w0.txAt hash = some tx ∨ ∃ x ∈ l, x.merkle.tx = tx ∧ tx.getHash env = hash
  tracked : w.Tracked
  spent : ∀ o, w.Owns o → (w.spentAt o = true ↔ w0.spentAt o = true ∨
    (∃ x ∈ l, o.hash = x.merkle.tx.getHash env ∧ x.spentAt o.n = true) ∨ w.Spends o)

namespace ArrivalsOk

variable {env : Env} {w0 w w' : CWallet} {l : List CWalletTx} {wtxIn : CWalletTx}

theorem start (hkeys : ∀ hash tx, w0.txAt hash = some tx → tx.getHash env = hash)
    (htracked : w0.Tracked) : ArrivalsOk env w0 [] w0 where
  script := rfl
  keyed := hkeys
  tx := by simp
  tracked := htracked
  spent := by
    intro o hown
    constructor
    · exact .inl
    · rintro (hs | ⟨x, hx, -⟩ | hspends)
      · exact hs
      · cases hx
      · exact htracked o hown hspends

theorem same (h : ArrivalsOk env w0 l w)
    (hinj : Set.InjOn (CTransaction.getHash env) {tx | Known w0 (l ++ [wtxIn]) tx}) :
    ∀ tx, w.txAt (wtxIn.merkle.tx.getHash env) = some tx → tx = wtxIn.merkle.tx := by
  intro tx htx
  refine hinj ?_ (.inr ⟨wtxIn, by simp, rfl⟩) (h.keyed _ tx htx)
  rcases (h.tx _ tx).mp htx with h0 | ⟨x, hx, hxt, -⟩
  · exact .inl ⟨_, h0⟩
  · exact .inr ⟨x, List.mem_append_left _ hx, hxt⟩

theorem txAt_of_spent {o : COutPoint} (h : w.spentAt o = true) : (w.txAt o.hash).isSome := by
  cases hw : w.mapWallet o.hash with
  | none => simp [CWallet.spentAt, hw] at h
  | some wtx => simp [txAt, hw]

theorem owns_before (hstep : ArrivalStep env w wtxIn w') {o : COutPoint} (hown : w'.Owns o)
    (htx : w.txAt o.hash = w'.txAt o.hash) : w.Owns o := by
  obtain ⟨txout, hout, hmine⟩ := hown
  refine ⟨txout, ?_, ?_⟩
  · rw [outAt, htx]
    exact hout
  · unfold isMineTxOut at hmine ⊢
    rwa [← hstep.script]

theorem add (h : ArrivalsOk env w0 l w) (harrives : w.Arrives env wtxIn)
    (hsame : ∀ tx, w.txAt (wtxIn.merkle.tx.getHash env) = some tx → tx = wtxIn.merkle.tx)
    (hstep : ArrivalStep env w wtxIn w') : ArrivalsOk env w0 (l ++ [wtxIn]) w' where
  script := hstep.script.trans h.script
  keyed := by
    intro hash tx htx
    rcases eq_or_ne hash (wtxIn.merkle.tx.getHash env) with rfl | hne
    · rw [hstep.txAt_self] at htx
      cases htx
      rfl
    · rw [hstep.txAt_ne hne] at htx
      exact h.keyed hash tx htx
  tx := by
    intro hash tx
    simp only [List.mem_append, List.mem_singleton, or_and_right, exists_or, exists_eq_left]
    rw [← or_assoc, ← h.tx]
    rcases eq_or_ne hash (wtxIn.merkle.tx.getHash env) with rfl | hne
    · rw [hstep.txAt_self]
      constructor
      · intro htx
        cases htx
        exact .inr ⟨rfl, rfl⟩
      · rintro (htx | ⟨rfl, -⟩)
        · rw [hsame tx htx]
        · rfl
    · rw [hstep.txAt_ne hne]
      constructor
      · exact .inl
      · rintro (htx | ⟨rfl, hhash⟩)
        · exact htx
        · exact absurd hhash.symm hne
  tracked := hstep.tracked harrives hsame h.tracked
  spent := by
    intro o hown
    have hsome : (w'.outAt o).isSome := by
      obtain ⟨txout, hout, -⟩ := hown
      simp [hout]
    have hpresent : (w.txAt o.hash).isSome → w.Owns o := by
      intro hp
      obtain ⟨tx, htx⟩ := Option.isSome_iff_exists.mp hp
      refine owns_before hstep hown ?_
      rcases eq_or_ne o.hash (wtxIn.merkle.tx.getHash env) with heq | hne
      · rw [heq] at htx ⊢
        rw [hstep.txAt_self, htx, hsame tx htx]
      · rw [hstep.txAt_ne hne]
    have hlate : w'.Spends o → _ :=
      fun hspends => (hstep.spent o hsome).mp (hstep.tracked harrives hsame h.tracked o hown hspends)
    rw [hstep.spent o hsome]
    constructor
    · rintro (hs | ⟨heq, hin⟩ | ⟨-, hin⟩)
      · rcases (h.spent o (hpresent (txAt_of_spent hs))).mp hs with h0 | ⟨x, hx, hxs⟩ | hspends
        · exact .inl h0
        · exact .inr (.inl ⟨x, List.mem_append_left _ hx, hxs⟩)
        · exact .inr (.inr ((hstep.spends hsame o).mpr (.inl hspends)))
      · exact .inr (.inl ⟨wtxIn, by simp, heq, hin⟩)
      · exact .inr (.inr ((hstep.spends hsame o).mpr (.inr hin)))
    · rintro (h0 | ⟨x, hx, heq, hin⟩ | hspends)
      · obtain ⟨tx, htx⟩ := Option.isSome_iff_exists.mp (txAt_of_spent h0)
        have hkept : w.txAt o.hash = some tx := (h.tx _ tx).mpr (.inl htx)
        exact .inl ((h.spent o (hpresent (by simp [hkept]))).mpr (.inl h0))
      · rcases List.mem_append.mp hx with hx | hx
        · have hkept : w.txAt o.hash = some x.merkle.tx :=
            (h.tx _ _).mpr (.inr ⟨x, hx, rfl, heq.symm⟩)
          exact .inl ((h.spent o (hpresent (by simp [hkept]))).mpr (.inr (.inl ⟨x, hx, heq, hin⟩)))
        · rw [List.mem_singleton.mp hx] at heq hin
          exact .inr (.inl ⟨heq, hin⟩)
      · exact hlate hspends

end ArrivalsOk

end CWallet

def arrivalWallet : CWallet := ⟨fun _ => true, fun _ => false, 0, fun _ => none⟩

def arrival (tx : CTransaction) : CWalletTx := ⟨⟨tx, 0, [], -1⟩, 0, false, []⟩

def deliver (l : List CTransaction) : Except Fault CWallet :=
  l.foldlM (fun w tx => w.addToWallet sampleEnv 0 (arrival tx)) arrivalWallet

end Namecoin
