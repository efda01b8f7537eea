import Namecoin.Mining.Confirmations
import Namecoin.Node.PoolRules
import Namecoin.Node.Replay

namespace Namecoin

open Act

-- The index a miner sees: the test pool in front of the transaction index.
def overlay (mapTestPool t : TxMap) : TxMap := fun hash => (mapTestPool hash).or (t hash)

def ConnState.overlay (s : ConnState) : TxMap := Namecoin.overlay s.mapTestPool s.dbset.tx

theorem overlay_update (mapTestPool t : TxMap) (hash : Uint256) (txindex : CTxIndex) :
    overlay (Function.update mapTestPool hash (some txindex)) t =
      Function.update (overlay mapTestPool t) hash (some txindex) := by
  funext k
  by_cases hk : k = hash
  · subst hk
    simp [overlay]
  · simp [overlay, hk]

theorem overlay_empty (t : TxMap) : overlay (fun _ => none) t = t := by
  funext k
  simp [overlay]

structure Takes (env : Env) (t : TxMap) (txin : CTxIn) (txPrev : CTransaction) (txindex : CTxIndex) :
    Prop where
  found : t txin.prevout.hash = some txindex
  unspent : txindex.isSpent[txin.prevout.n]? = some false
  named : txPrev.getHash env = txin.prevout.hash
  inVout : txin.prevout.n < txPrev.vout.length

inductive TakeRun (env : Env) :
    List CTxIn → TxMap → Int → List CTransaction → TxMap → Int → Prop
  | nil (t : TxMap) (n : Int) : TakeRun env [] t n [] t n
  | cons {txin : CTxIn} {rest : List CTxIn} {t t' : TxMap} {n n' : Int} {txPrev : CTransaction}
      {txindex : CTxIndex} {prevs : List CTransaction} (takes : Takes env t txin txPrev txindex)
      (tail : TakeRun env rest
        (Function.update t txin.prevout.hash (some (txindex.setSpent txin.prevout.n true)))
        (n + prevValue txPrev txin.prevout.n) prevs t' n') :
      TakeRun env (txin :: rest) t n (txPrev :: prevs) t' n'

def valueIn (vin : List CTxIn) (prevs : List CTransaction) : Int :=
  (List.zipWith (fun txin txPrev => prevValue txPrev txin.prevout.n) vin prevs).sum

-- The fee, each input counted with an output of a transaction of the right hash.
structure Pays (env : Env) (tx : CTransaction) (prevs : List CTransaction) (fee : Int) : Prop where
  prev : List.Forall₂ (fun txin txPrev => txPrev.getHash env = txin.prevout.hash ∧
    txin.prevout.n < txPrev.vout.length) tx.vin prevs
  fee_eq : fee = valueIn tx.vin prevs - (tx.vout.map CTxOut.nValue).sum
  fee_nonneg : 0 ≤ fee

namespace TakeRun

variable {env : Env} {vin : List CTxIn} {t t' : TxMap} {n n' : Int} {prevs : List CTransaction}

theorem unspent (h : TakeRun env vin t n prevs t' n') :
    (prevouts vin).Nodup ∧ ∀ p ∈ prevouts vin, spentFlag t p = some false := by
  induction h with
  | nil t n => exact ⟨List.nodup_nil, by simp [prevouts]⟩
  | @cons txin rest t t' n n' txPrev txindex prevs takes tail ih =>
    obtain ⟨hnd, hall⟩ := ih
    have hself : spentFlag t txin.prevout = some false := by
      simp [spentFlag, takes.found, takes.unspent]
    have hnot : txin.prevout ∉ prevouts rest := by
      intro hm
      have hf := hall _ hm
      rw [spentFlag_setSpent_self takes.unspent] at hf
      cases hf
    refine ⟨List.nodup_cons.mpr ⟨hnot, hnd⟩, ?_⟩
    intro p hp
    rcases List.mem_cons.mp hp with rfl | hp
    · exact hself
    · have hne : p ≠ txin.prevout := by
        rintro rfl
        exact hnot hp
      rw [← spentFlag_update_setSpent takes.found hne]
      exact hall p hp

theorem eq_setAll (h : TakeRun env vin t n prevs t' n') : t' = setAll (prevouts vin) true t := by
  induction h with
  | nil t n => exact (setAll_nil true t).symm
  | cons takes tail ih => rw [ih, prevouts, prevouts, List.map_cons, setAll_cons takes.found]

theorem prev (h : TakeRun env vin t n prevs t' n') :
    List.Forall₂ (fun txin txPrev => txPrev.getHash env = txin.prevout.hash ∧
      txin.prevout.n < txPrev.vout.length) vin prevs := by
  induction h with
  | nil t n => exact .nil
  | cons takes tail ih => exact .cons ⟨takes.named, takes.inVout⟩ ih

theorem value (h : TakeRun env vin t n prevs t' n') : n' = n + valueIn vin prevs := by
  induction h with
  | nil t n => simp [valueIn]
  | cons takes tail ih =>
    rw [ih, valueIn, valueIn, List.zipWith_cons_cons, List.sum_cons]
    omega

end TakeRun

theorem valueOutFrom_eq {vout : List CTxOut} {n m : Int} (h : valueOutFrom vout n = .ok m) :
    m = n + (vout.map CTxOut.nValue).sum := by
  induction vout generalizing n with
  | nil =>
    obtain rfl := Except.ok.inj h
    simp
  | cons txout rest ih =>
    simp only [valueOutFrom, Except.bind_eq_ok, Except.raiseIf_eq_ok] at h
    obtain ⟨n', hadd, -, -, hrest⟩ := h
    obtain ⟨rfl, -⟩ := add64_ok.mp hadd
    rw [ih hrest, List.map_cons, List.sum_cons]
    omega

namespace TxCall

section Mined

variable {c : TxCall} {s s' : ConnState}

-- What a miner's connection leaves alone.
structure MinerSame (s s' : ConnState) : Prop where
  dbset : s'.dbset = s.dbset
  pending : s'.mapNamePending = s.mapNamePending
  fees : s'.nFees = s.nFees

theorem MinerSame.refl (s : ConnState) : MinerSame s s := ⟨rfl, rfl, rfl⟩

theorem MinerSame.trans {a b d : ConnState} (h : MinerSame a b) (h' : MinerSame b d) :
    MinerSame a d :=
  ⟨h'.dbset.trans h.dbset, h'.pending.trans h.pending, h'.fees.trans h.fees⟩

theorem fetchPrev_caches {i : Nat} {prevout : COutPoint} {fFound : Bool} {txindex : CTxIndex}
    {txPrev : CTransaction} (h : exec (c.fetchPrev i prevout fFound txindex) s = (.ok txPrev, s')) :
    ∃ v, s' = s.withCaches v := by
  simp only [fetchPrev, bind_ok, get_ok] at h
  obtain ⟨t, s1, ⟨rfl, rfl⟩, h⟩ := h
  split at h
  · simp only [bind_ok, raiseIf_ok, pure_ok] at h
    obtain ⟨-, s2, ⟨-, rfl⟩, -, rfl⟩ := h
    exact ⟨s.vin, rfl⟩
  · simp only [bind_ok, fromExcept_ok, putCache, modify_ok, pure_ok] at h
    obtain ⟨a, s2, ⟨-, rfl⟩, -, s3, rfl, -, rfl⟩ := h
    exact ⟨_, rfl⟩

theorem verifySignature_named {i : Nat} {txin : CTxIn} {txPrev : CTransaction} {u : Unit}
    (h : exec (c.verifySignature i txin txPrev) s = (.ok u, s')) :
    txPrev.getHash c.env = txin.prevout.hash ∧ ∃ v, s' = s.withCaches v := by
  simp only [verifySignature, bind_ok, get_ok] at h
  obtain ⟨t, s1, ⟨rfl, rfl⟩, h⟩ := h
  cases hv : txPrev.vout[txin.prevout.n]? with
  | none => simp [hv] at h
  | some txout =>
    simp only [hv, bind_ok, raiseIf_ok, putCache, modify_ok] at h
    obtain ⟨-, s2, ⟨hnamed, rfl⟩, -, s3, ⟨-, rfl⟩, rfl⟩ := h
    exact ⟨(not_not.mp hnamed).symm, _, rfl⟩

theorem readTxIndex_mined (hm : c.fMiner = true) (hash : Uint256) :
    c.readTxIndex s hash = s.overlay hash := by
  unfold readTxIndex ConnState.overlay Namecoin.overlay
  cases hpool : s.mapTestPool hash <;> simp [hm]

theorem connectInput_mined (hb : c.fBlock = false) (hm : c.fMiner = true) {i : Nat} {txin : CTxIn}
    {nIn nOut : Int} {txPrev : CTransaction} {txindex' : CTxIndex}
    (h : exec (c.connectInput i txin nIn) s = (.ok (txPrev, txindex', nOut), s')) :
    ∃ txindex, Takes c.env s.overlay txin txPrev txindex ∧
      nOut = nIn + prevValue txPrev txin.prevout.n ∧
      s'.overlay = Function.update s.overlay txin.prevout.hash
        (some (txindex.setSpent txin.prevout.n true)) ∧ MinerSame s s' := by
  simp only [connectInput, bind_ok, get_ok, raiseIf_ok, fromExcept_ok, pure_ok, putCache,
    modify_ok, doIf_ok, writeBack, readTxIndex_mined hm] at h
  obtain ⟨t, s1, ⟨rfl, rfl⟩, -, s2, ⟨hfound, rfl⟩, -, s3, ⟨hcount, rfl⟩, tp, s4, hfetch,
    -, s5, ⟨hvout, rfl⟩, u, s6, hsig, -, s7, ⟨-, rfl⟩, -, s8, ⟨hspent, rfl⟩, -, s9, rfl,
    n, s10, ⟨hadd, rfl⟩, -, s11, ⟨-, rfl⟩, -, s12, rfl, hr, rfl⟩ := h
  cases ht : s.overlay txin.prevout.hash with
  | none => simp [ht, hm] at hfound
  | some txindex =>
    simp only [ht, Option.getD_some, Option.isSome_some] at hcount hfetch hspent hr ⊢
    obtain ⟨v, rfl⟩ := fetchPrev_caches hfetch
    rcases hsig with ⟨-, hsig⟩ | ⟨hno, -⟩
    · obtain ⟨hnamed, w, rfl⟩ := verifySignature_named hsig
      obtain ⟨rfl, h2⟩ := Prod.mk.inj hr
      obtain ⟨-, rfl⟩ := Prod.mk.inj h2
      obtain ⟨rfl, -⟩ := add64_ok.mp hadd
      have hin : txin.prevout.n < txindex.isSpent.length := by
        simpa [CTxIndex.getOutputCount] using hcount
      refine ⟨txindex, ⟨ht, ?_, hnamed, Nat.not_le.mp hvout⟩, rfl, ?_, ?_⟩
      · rw [List.getElem?_eq_getElem hin] at hspent ⊢
        simpa using hspent
      · rw [hb, hm]
        exact overlay_update _ _ _ _
      · rw [hb, hm]
        exact ⟨rfl, rfl, rfl⟩
    · simp [hb] at hno

theorem connectVin_mined (hb : c.fBlock = false) (hm : c.fMiner = true) {vin : List CTxIn} {i : Nat}
    {nIn : Int} {rs : List (CTransaction × CTxIndex) × Int}
    (h : exec (c.connectVin vin i nIn) s = (.ok rs, s')) :
    TakeRun c.env vin s.overlay nIn (rs.1.map Prod.fst) s'.overlay rs.2 ∧ MinerSame s s' := by
  induction vin generalizing i nIn s rs with
  | nil =>
    simp only [connectVin, pure_ok] at h
    obtain ⟨rfl, rfl⟩ := h
    exact ⟨.nil _ _, .refl s⟩
  | cons txin rest ih =>
    simp only [connectVin, bind_ok, pure_ok] at h
    obtain ⟨⟨txPrev, txindex', n⟩, s1, h1, rs', s2, h2, rfl, rfl⟩ := h
    obtain ⟨txindex, htakes, rfl, hoverlay, hsame⟩ := connectInput_mined hb hm h1
    obtain ⟨hrun, hsame'⟩ := ih h2
    rw [hoverlay] at hrun
    exact ⟨.cons htakes hrun, hsame.trans hsame'⟩

-- Connecting a transaction for a block template spends in the overlay as a block would in the index.
theorem connectInputs_mined (hb : c.fBlock = false) (hm : c.fMiner = true)
    (hcb : c.tx.isCoinBase = false) {pos : CDiskTxPos} {nMinFee : Int} {u : Unit}
    (fresh : s.overlay (c.tx.getHash c.env) = none)
    (h : exec (c.connectInputs pos nMinFee) s = (.ok u, s')) :
    TxApplied c.env c.tx s.overlay s'.overlay ∧ s'.dbset = s.dbset ∧
      ∃ prevs fee, Pays c.env c.tx prevs fee ∧ s'.nFees = s.nFees + fee ∧
        moneyRange s'.nFees = true := by
  simp only [connectInputs, bind_ok, doIf_ok, addTxIndex, modify_ok, hcb, spendInputs] at h
  obtain ⟨u1, s1, ⟨-, ⟨rs, nIn⟩, s2, hvin, u2, s3, hname, hfee⟩ | ⟨hno, -⟩, rfl⟩ := h
  · obtain ⟨hrun, hsame⟩ := connectVin_mined hb hm hvin
    have hstill : s3 = s2 := by
      have hkeep := nameCall_same (n := c.nameCall pos (rs.map Prod.snd)) hb (rs.map Prod.fst) s2
      rw [hname] at hkeep
      exact hkeep
    subst hstill
    obtain ⟨nOut, hout, hge, hrange, rfl⟩ := tallyFee_ok hfee
    have hpoints := CTransaction.spentPoints_of_not hcb
    have houtEq := valueOutFrom_eq hout
    have hinEq := hrun.value
    simp only [hb, hm, Bool.false_eq_true, if_false, if_true]
    refine ⟨⟨fresh, hpoints ▸ hrun.unspent.1, hpoints ▸ hrun.unspent.2, CDiskTxPos.memPool, ?_⟩,
      hsame.dbset, rs.map Prod.fst, nIn - nOut, ⟨hrun.prev, ?_, hge⟩, ?_, hrange⟩
    · rw [hpoints, ← hrun.eq_setAll]
      exact overlay_update _ _ _ _
    · dsimp only at hinEq
      omega
    · rw [hsame.fees]
  · exact absurd hno (by simp)

end Mined

section Fees

variable {c : TxCall} {s s' : ConnState}

def SameFees (s s' : ConnState) : Prop := s'.nFees = s.nFees

theorem sameFees_refl (s : ConnState) : SameFees s s := rfl

theorem SameFees.trans {a b d : ConnState} (h : SameFees a b) (h' : SameFees b d) : SameFees a d :=
  Eq.trans h' h

theorem writeBack_sameFees (h : Uint256) (txindex : CTxIndex) :
    Keeps SameFees (c.writeBack h txindex) := by
  refine keeps_modify (fun s => ?_)
  rw [SameFees]
  split
  · rfl
  · split <;> rfl

theorem connectVin_sameFees (vin : List CTxIn) (i : Nat) (nValueIn : Int) :
    Keeps SameFees (c.connectVin vin i nValueIn) :=
  connectVin_keeps sameFees_refl @SameFees.trans (fun _ _ _ => rfl) writeBack_sameFees vin i nValueIn

-- A refused transaction counts its fee only where the total has left the range.
def FeesLeft (s s' : ConnState) : Prop :=
  s'.nFees = s.nFees ∨ s.nFees ≤ s'.nFees ∧ moneyRange s'.nFees = false

theorem bind_err {α β : Type} {x : Act Fault ConnState α} {f : α → Act Fault ConnState β}
    {fault : Fault} (h : exec (x >>= f) s = (.error fault, s')) :
    exec x s = (.error fault, s') ∨
      ∃ a s₁, exec x s = (.ok a, s₁) ∧ exec (f a) s₁ = (.error fault, s') := by
  rw [exec_bind] at h
  rcases hx : exec x s with ⟨r, s₁⟩
  rw [hx] at h
  cases r with
  | error e =>
    obtain ⟨he, rfl⟩ := Prod.mk.inj h
    obtain rfl := Except.error.inj he
    exact .inl rfl
  | ok a => exact .inr ⟨a, s₁, rfl, h⟩

theorem tallyFee_feesLeft {nValueIn nMinFee : Int} {fault : Fault}
    (h : exec (c.tallyFee nValueIn nMinFee) s = (.error fault, s')) : FeesLeft s s' := by
  have hr : ∀ s : ConnState, SameFees s s := sameFees_refl
  have hsame : ∀ {α : Type} {x : Act Fault ConnState α} {t t' : ConnState} {r : Except Fault α},
      Keeps SameFees x → exec x t = (r, t') → t'.nFees = t.nFees := by
    intro α x t t' r hk hx
    have hkeep := hk t
    rw [hx] at hkeep
    exact hkeep
  unfold tallyFee at h
  rcases bind_err h with h | ⟨nValueOut, s₁, h₁, h⟩
  · exact .inl (hsame (keeps_fromExcept hr _) h)
  obtain ⟨hout, rfl⟩ := fromExcept_ok.mp h₁
  rcases bind_err h with h | ⟨nTxFee, s₂, h₂, h⟩
  · exact .inl (hsame (keeps_fromExcept hr _) h)
  obtain ⟨hfee, rfl⟩ := fromExcept_ok.mp h₂
  rcases bind_err h with h | ⟨u₃, s₃, h₃, h⟩
  · exact .inl (hsame (keeps_raiseIf hr _ _) h)
  obtain ⟨hneg, rfl⟩ := raiseIf_ok.mp h₃
  rcases bind_err h with h | ⟨u₄, s₄, h₄, h⟩
  · exact .inl (hsame (keeps_raiseIf hr _ _) h)
  obtain ⟨-, rfl⟩ := raiseIf_ok.mp h₄
  rw [exec_get_bind] at h
  rcases bind_err h with h | ⟨nFees, s₅, h₅, h⟩
  · exact .inl (hsame (keeps_fromExcept hr _) h)
  obtain ⟨hfees, rfl⟩ := fromExcept_ok.mp h₅
  obtain ⟨rfl, -⟩ := add64_ok.mp hfees
  rw [exec_modify_bind] at h
  rw [raiseIf] at h
  split at h
  · rename_i hrange
    rw [exec_throw] at h
    obtain ⟨-, rfl⟩ := Prod.mk.inj h
    refine .inr ⟨?_, by simpa using hrange⟩
    show _ ≤ _ + nTxFee
    omega
  · cases h

theorem spendInputs_feesLeft (hb : c.fBlock = false) {pos : CDiskTxPos} {nMinFee : Int}
    {fault : Fault} (h : exec (c.spendInputs pos nMinFee) s = (.error fault, s')) :
    FeesLeft s s' := by
  unfold spendInputs at h
  have hvin := @connectVin_sameFees c c.tx.vin 0 0 s
  rcases bind_err h with h | ⟨rs, s₁, h₁, h⟩
  · rw [h] at hvin
    exact .inl hvin
  · rw [h₁] at hvin
    have hvin' : s₁.nFees = s.nFees := hvin
    -- the hook of a transaction outside a block leaves the state as it was
    have hstill := nameCall_same (n := c.nameCall pos (rs.1.map Prod.snd)) hb (rs.1.map Prod.fst) s₁
    rcases bind_err h with h | ⟨u, s₂, h₂, h⟩
    · rw [h] at hstill
      have hsame : s' = s₁ := hstill
      rw [hsame]
      exact .inl hvin'
    · rw [h₂] at hstill
      have hsame : s₂ = s₁ := hstill
      have hleft := tallyFee_feesLeft h
      rw [hsame] at hleft
      unfold FeesLeft at hleft ⊢
      rw [hvin'] at hleft
      exact hleft

theorem connectInputs_feesLeft (hb : c.fBlock = false) {pos : CDiskTxPos} {nMinFee : Int}
    {fault : Fault} (h : exec (c.connectInputs pos nMinFee) s = (.error fault, s')) :
    FeesLeft s s' := by
  unfold connectInputs at h
  rcases bind_err h with h | ⟨u₁, s₁, h₁, h⟩
  · unfold doIf at h
    split at h
    · exact spendInputs_feesLeft hb h
    · cases h
  · cases h

end Fees

end TxCall

end Namecoin
