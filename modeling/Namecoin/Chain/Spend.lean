import Namecoin.Chain.Connect

namespace Namecoin

open Act

abbrev TxMap := Uint256 → Option CTxIndex

def prevValue (txPrev : CTransaction) (n : Nat) : Int :=
  ((txPrev.vout[n]?).map CTxOut.nValue).getD 0

structure SpendStep (c : TxCall) (t : TxMap) (txin : CTxIn) (txPrev : CTransaction)
    (txindex : CTxIndex) : Prop where
  found : t txin.prevout.hash = some txindex
  read : c.readPrev txin.prevout true txindex = .ok txPrev
  inVout : txin.prevout.n < txPrev.vout.length
  mature : ¬(txPrev.isCoinBase = true ∧ c.immature txindex.pos = true)
  unspent : txindex.isSpent[txin.prevout.n]? = some false
  range : moneyRange (prevValue txPrev txin.prevout.n) = true

inductive SpendRun (c : TxCall) :
    List CTxIn → TxMap → Int → List (CTransaction × CTxIndex) → TxMap → Int → Prop
  | nil (t : TxMap) (n : Int) : SpendRun c [] t n [] t n
  | cons {txin : CTxIn} {rest : List CTxIn} {t t' : TxMap} {n n' : Int} {txPrev : CTransaction}
      {txindex : CTxIndex} {rs : List (CTransaction × CTxIndex)}
      (step : SpendStep c t txin txPrev txindex)
      (range : moneyRange (n + prevValue txPrev txin.prevout.n) = true)
      (tail : SpendRun c rest
        (Function.update t txin.prevout.hash (some (txindex.setSpent txin.prevout.n true)))
        (n + prevValue txPrev txin.prevout.n) rs t' n') :
      SpendRun c (txin :: rest) t n
        ((txPrev, txindex.setSpent txin.prevout.n true) :: rs) t' n'

def freshFrom (i : Nat) (s : ConnState) : Prop :=
  ∀ j, i ≤ j → (s.vin.getD j CTxInCache.empty).txPrev = none

structure SameBut (s s' : ConnState) : Prop where
  name : s'.dbset.name = s.dbset.name
  blockindex : s'.dbset.blockindex = s.dbset.blockindex
  hashBestChain : s'.dbset.hashBestChain = s.dbset.hashBestChain
  testPool : s'.mapTestPool = s.mapTestPool
  pending : s'.mapNamePending = s.mapNamePending
  fees : s'.nFees = s.nFees

theorem SameBut.refl (s : ConnState) : SameBut s s := ⟨rfl, rfl, rfl, rfl, rfl, rfl⟩

theorem SameBut.trans {a b d : ConnState} (h : SameBut a b) (h' : SameBut b d) : SameBut a d :=
  ⟨h'.name.trans h.name, h'.blockindex.trans h.blockindex,
    h'.hashBestChain.trans h.hashBestChain, h'.testPool.trans h.testPool,
    h'.pending.trans h.pending, h'.fees.trans h.fees⟩

theorem getD_modify_of_ne {α : Type} (l : List α) (f : α → α) (d : α) {i j : Nat} (h : i ≠ j) :
    (l.modify i f).getD j d = l.getD j d := by
  simp [List.getD_eq_getElem?_getD, h]

namespace TxCall

section Keeps

variable {R : ConnState → ConnState → Prop} {c : TxCall} {i : Nat} (hr : ∀ s, R s s)
  (ht : ∀ {a b d}, R a b → R b d → R a d)

include hr ht

theorem fetchPrev_keeps (hput : ∀ f, Keeps R (putCache i f)) (prevout : COutPoint) (fFound : Bool)
    (txindex : CTxIndex) : Keeps R (c.fetchPrev i prevout fFound txindex) := by
  refine keeps_bind @ht (keeps_get hr) (fun s => ?_)
  dsimp only
  split
  · exact keeps_bind @ht (keeps_raiseIf hr _ _) (fun _ => keeps_pure hr _)
  · refine keeps_bind @ht (keeps_fromExcept hr _) (fun txPrev => ?_)
    exact keeps_bind @ht (hput _) (fun _ => keeps_pure hr _)

theorem verifySignature_keeps (hput : ∀ f, Keeps R (putCache i f)) (txin : CTxIn)
    (txPrev : CTransaction) : Keeps R (c.verifySignature i txin txPrev) := by
  refine keeps_bind @ht (keeps_get hr) (fun s => ?_)
  dsimp only
  split
  · exact keeps_throw hr _
  · refine keeps_bind @ht (keeps_raiseIf hr _ _) (fun _ => ?_)
    exact keeps_bind @ht (keeps_raiseIf hr _ _) (fun _ => hput _)

-- An input that is connected writes its own cache and the index entry it spends.
theorem connectInput_keeps (hput : ∀ f, Keeps R (putCache i f))
    (hwrite : ∀ h txindex, Keeps R (c.writeBack h txindex)) (txin : CTxIn) (nValueIn : Int) :
    Keeps R (c.connectInput i txin nValueIn) := by
  refine keeps_bind @ht (keeps_get hr) (fun s => ?_)
  refine keeps_bind @ht (keeps_raiseIf hr _ _) (fun _ => ?_)
  refine keeps_bind @ht (keeps_raiseIf hr _ _) (fun _ => ?_)
  refine keeps_bind @ht (fetchPrev_keeps hr @ht hput _ _ _) (fun txPrev => ?_)
  refine keeps_bind @ht (keeps_raiseIf hr _ _) (fun _ => ?_)
  refine keeps_bind @ht (keeps_doIf hr _ (verifySignature_keeps hr @ht hput _ _)) (fun _ => ?_)
  refine keeps_bind @ht (keeps_raiseIf hr _ _) (fun _ => ?_)
  refine keeps_bind @ht (keeps_raiseIf hr _ _) (fun _ => ?_)
  refine keeps_bind @ht (hput _) (fun _ => ?_)
  refine keeps_bind @ht (keeps_fromExcept hr _) (fun nValueIn => ?_)
  refine keeps_bind @ht (keeps_raiseIf hr _ _) (fun _ => ?_)
  exact keeps_bind @ht (hwrite _ _) (fun _ => keeps_pure hr _)

theorem connectVin_keeps (hput : ∀ i f, Keeps R (putCache i f))
    (hwrite : ∀ h txindex, Keeps R (c.writeBack h txindex)) (vin : List CTxIn) (i : Nat)
    (nValueIn : Int) : Keeps R (c.connectVin vin i nValueIn) := by
  induction vin generalizing i nValueIn with
  | nil => exact keeps_pure hr _
  | cons txin rest ih =>
    refine keeps_bind @ht (connectInput_keeps hr ht (hput i) hwrite _ _) (fun r => ?_)
    exact keeps_bind @ht (ih _ _) (fun rs => keeps_pure hr _)

theorem tallyFee_keeps (hfees : ∀ s nFees, R s { s with nFees := nFees }) (nValueIn nMinFee : Int) :
    Keeps R (c.tallyFee nValueIn nMinFee) := by
  refine keeps_bind @ht (keeps_fromExcept hr _) (fun nValueOut => ?_)
  refine keeps_bind @ht (keeps_fromExcept hr _) (fun nTxFee => ?_)
  refine keeps_bind @ht (keeps_raiseIf hr _ _) (fun _ => ?_)
  refine keeps_bind @ht (keeps_raiseIf hr _ _) (fun _ => ?_)
  refine keeps_bind @ht (keeps_get hr) (fun s => ?_)
  refine keeps_bind @ht (keeps_fromExcept hr _) (fun nFees => ?_)
  exact keeps_bind @ht (keeps_modify fun s => hfees s nFees) (fun _ => keeps_raiseIf hr _ _)

end Keeps

theorem readPrev_ok {c : TxCall} {prevout : COutPoint} {fFound : Bool} {txindex : CTxIndex}
    {txPrev : CTransaction} :
    c.readPrev prevout fFound txindex = .ok txPrev ↔
      (fFound = true → txindex.pos = CDiskTxPos.memPool) ∧
          c.view.mapTransactions prevout.hash = some txPrev ∨
        (fFound = true ∧ txindex.pos ≠ CDiskTxPos.memPool) ∧
          c.view.disk.readFromDisk txindex.pos = some txPrev := by
  have hpool : (!fFound || decide (txindex.pos = CDiskTxPos.memPool)) = true ↔
      (fFound = true → txindex.pos = CDiskTxPos.memPool) := by
    cases fFound <;> simp
  unfold readPrev
  split
  · next h =>
    have himp := hpool.mp h
    rw [and_iff_right himp, or_iff_left fun hdisk => hdisk.1.2 (himp hdisk.1.1)]
    cases c.view.mapTransactions prevout.hash <;> simp
  · next h =>
    have hdisk := Classical.not_imp.mp (mt hpool.mpr h)
    rw [or_iff_right fun hp => h (hpool.mpr hp.1), and_iff_right hdisk]
    cases c.view.disk.readFromDisk txindex.pos <;> simp

theorem readPrev_refuses {c : TxCall} {prevout : COutPoint} {fFound : Bool} {txindex : CTxIndex}
    {fault : Fault} (h : c.readPrev prevout fFound txindex = .error fault) :
    ∃ msg, fault = .reject msg := by
  unfold readPrev at h
  split at h
  · split at h
    · cases h
      exact ⟨_, rfl⟩
    · cases h
  · split at h
    · cases h
      exact ⟨_, rfl⟩
    · cases h

theorem fetchPrev_ok {c : TxCall} {i : Nat} {prevout : COutPoint} {fFound : Bool}
    {txindex : CTxIndex} {s s' : ConnState} {txPrev : CTransaction}
    (hcache : (s.vin.getD i CTxInCache.empty).txPrev = none)
    (h : exec (c.fetchPrev i prevout fFound txindex) s = (.ok txPrev, s')) :
    c.readPrev prevout fFound txindex = .ok txPrev ∧
      ∃ f, s' = { s with vin := s.vin.modify i f } := by
  simp only [fetchPrev, bind_ok, get_ok] at h
  obtain ⟨t, s1, ⟨rfl, rfl⟩, h⟩ := h
  rw [hcache] at h
  simp only [bind_ok, fromExcept_ok, putCache, modify_ok, pure_ok] at h
  obtain ⟨a, s2, ⟨hr, rfl⟩, -, s3, rfl, rfl, rfl⟩ := h
  exact ⟨hr, _, rfl⟩

theorem verifySignature_ok {c : TxCall} {i : Nat} {txin : CTxIn} {txPrev : CTransaction}
    {s s' : ConnState} {u : Unit}
    (h : exec (c.verifySignature i txin txPrev) s = (.ok u, s')) :
    ∃ f, s' = { s with vin := s.vin.modify i f } := by
  simp only [verifySignature, bind_ok, get_ok] at h
  obtain ⟨t, s1, ⟨rfl, rfl⟩, h⟩ := h
  cases hv : txPrev.vout[txin.prevout.n]? with
  | none => simp [hv] at h
  | some txout =>
    simp only [hv, bind_ok, raiseIf_ok, putCache, modify_ok] at h
    obtain ⟨-, s2, ⟨-, rfl⟩, -, s3, ⟨-, rfl⟩, rfl⟩ := h
    exact ⟨_, rfl⟩

theorem connectInput_ok {c : TxCall} (hb : c.fBlock = true) (hm : c.fMiner = false) {i : Nat}
    {txin : CTxIn} {nIn nOut : Int} {s s' : ConnState} {txPrev : CTransaction}
    {txindex' : CTxIndex} (hfresh : freshFrom i s)
    (h : exec (c.connectInput i txin nIn) s = (.ok (txPrev, txindex', nOut), s')) :
    ∃ txindex, SpendStep c s.dbset.tx txin txPrev txindex ∧
      nOut = nIn + prevValue txPrev txin.prevout.n ∧ moneyRange nOut = true ∧
      txindex' = txindex.setSpent txin.prevout.n true ∧
      s'.dbset.tx = Function.update s.dbset.tx txin.prevout.hash (some txindex') ∧
      SameBut s s' ∧ freshFrom (i + 1) s' := by
  simp only [connectInput, bind_ok, get_ok, raiseIf_ok, fromExcept_ok, pure_ok, putCache,
    modify_ok, doIf_ok, writeBack] at h
  obtain ⟨t, s1, ⟨rfl, rfl⟩, -, s2, ⟨hfound, rfl⟩, -, s3, ⟨hcount, rfl⟩, tp, s4, hfetch,
    -, s5, ⟨hvout, rfl⟩, u, s6, hsig, -, s7, ⟨hmature, rfl⟩, -, s8, ⟨hspent, rfl⟩, -, s9, rfl,
    n, s10, ⟨hadd, rfl⟩, -, s11, ⟨hrange, rfl⟩, -, s12, rfl, hr, rfl⟩ := h
  have hread0 : c.readTxIndex s txin.prevout.hash = s.dbset.tx txin.prevout.hash := by
    simp [readTxIndex, hm]
  rw [hread0] at hfound hcount hfetch hmature hspent hr
  simp only [hb, if_true, hread0]
  cases ht : s.dbset.tx txin.prevout.hash with
  | none => simp [ht, hb] at hfound
  | some txindex =>
    simp only [ht, Option.getD_some, Option.isSome_some] at hcount hfetch hmature hspent hr ⊢
    obtain ⟨hread, f, rfl⟩ := fetchPrev_ok (hfresh i le_rfl) hfetch
    have hs6 : ∃ g, s6 = { s with vin := (s.vin.modify i f).modify i g } := by
      rcases hsig with ⟨-, hsig⟩ | ⟨-, rfl⟩
      · obtain ⟨g, rfl⟩ := verifySignature_ok hsig
        exact ⟨g, rfl⟩
      · exact ⟨id, by simp [List.modify_id]⟩
    obtain ⟨g, rfl⟩ := hs6
    obtain ⟨rfl, h2⟩ := Prod.mk.inj hr
    obtain ⟨rfl, rfl⟩ := Prod.mk.inj h2
    obtain ⟨rfl, -⟩ := add64_ok.mp hadd
    have hin : txin.prevout.n < txindex.isSpent.length := by
      simpa [CTxIndex.getOutputCount] using hcount
    have hrng : moneyRange (prevValue tp txin.prevout.n) = true ∧
        moneyRange (nIn + prevValue tp txin.prevout.n) = true := not_not.mp hrange
    refine ⟨txindex, ⟨ht, hread, by omega, hmature, ?_, hrng.1⟩, rfl, hrng.2, rfl, rfl,
      ⟨rfl, rfl, rfl, rfl, rfl, rfl⟩, ?_⟩
    · rw [List.getElem?_eq_getElem hin] at hspent ⊢
      simpa using hspent
    · intro j hj
      have hne : i ≠ j := by omega
      show (List.getD (((s.vin.modify i f).modify i g).modify i _) j _).txPrev = none
      rw [getD_modify_of_ne _ _ _ hne, getD_modify_of_ne _ _ _ hne, getD_modify_of_ne _ _ _ hne]
      exact hfresh j (by omega)

theorem connectVin_ok {c : TxCall} (hb : c.fBlock = true) (hm : c.fMiner = false)
    {vin : List CTxIn} {i : Nat} {nIn : Int} {s s' : ConnState}
    {rs : List (CTransaction × CTxIndex) × Int} (hfresh : freshFrom i s)
    (h : exec (c.connectVin vin i nIn) s = (.ok rs, s')) :
    SpendRun c vin s.dbset.tx nIn rs.1 s'.dbset.tx rs.2 ∧ SameBut s s' := by
  induction vin generalizing i nIn s rs with
  | nil =>
    simp only [connectVin, pure_ok] at h
    obtain ⟨rfl, rfl⟩ := h
    exact ⟨.nil _ _, .refl s⟩
  | cons txin rest ih =>
    simp only [connectVin, bind_ok, pure_ok] at h
    obtain ⟨⟨txPrev, txindex', n⟩, s1, h1, rs', s2, h2, rfl, rfl⟩ := h
    obtain ⟨txindex, hstep, rfl, hrange, rfl, htx, hsame, hfresh'⟩ :=
      connectInput_ok hb hm hfresh h1
    obtain ⟨hrun, hsame'⟩ := ih hfresh' h2
    rw [htx] at hrun
    exact ⟨.cons hstep hrange hrun, hsame.trans hsame'⟩

end TxCall

end Namecoin
