import Namecoin.Chain.Value

namespace Namecoin

open Act

abbrev NoOverflow {α : Type} (x : Except Fault α) : Prop := x.Avoids .overflow

abbrev NoOverflowAt {σ α : Type} (x : Act Fault σ α) (s : σ) : Prop := x.Avoids .overflow s

theorem moneyRange_iff {n : Int} : moneyRange n = true ↔ 0 ≤ n ∧ n ≤ maxMoney := by
  simp [moneyRange]

theorem maxMoney_eq : maxMoney = 2100000000000000 := by decide

theorem add64_avoids {a b : Int} (h : -2 ^ 63 ≤ a + b ∧ a + b < 2 ^ 63) : NoOverflow (add64 a b) := by
  unfold add64
  rw [if_pos h]
  exact Except.avoids_ok _

theorem add64_avoids_money {a b : Int} (ha : moneyRange a = true) (hb : moneyRange b = true) :
    NoOverflow (add64 a b) := by
  have hm := maxMoney_eq
  obtain ⟨ha0, ha1⟩ := moneyRange_iff.mp ha
  obtain ⟨hb0, hb1⟩ := moneyRange_iff.mp hb
  exact add64_avoids (by omega)

theorem vchAt_avoids (vvch : List VchType) (i : Nat) : NoOverflow (vchAt vvch i) := by
  unfold vchAt
  split
  · exact Except.avoids_ok _
  · exact Except.avoids_error (by simp)

theorem checkOutputs_avoids {vout : List CTxOut} {n : Int} (hn : moneyRange n = true) :
    NoOverflow (checkOutputs vout n) := by
  induction vout generalizing n with
  | nil => exact Except.avoids_ok _
  | cons o vout ih =>
    refine Except.avoids_bind (Except.avoids_raiseIf (by simp) _) (fun _ h1 => ?_)
    refine Except.avoids_bind (Except.avoids_raiseIf (by simp) _) (fun _ h2 => ?_)
    rw [Except.raiseIf_eq_ok] at h1 h2
    have ho : moneyRange o.nValue = true := moneyRange_iff.mpr ⟨by omega, by omega⟩
    refine Except.avoids_bind (add64_avoids_money hn ho) (fun m _ => ?_)
    refine Except.avoids_bind (Except.avoids_raiseIf (by simp) _) (fun _ h3 => ?_)
    rw [Except.raiseIf_eq_ok, not_not] at h3
    exact ih h3

theorem checkOutputs_ok {vout : List CTxOut} {n : Int} {u : Unit} (hn : moneyRange n = true)
    (h : checkOutputs vout n = .ok u) :
    (∀ out ∈ vout, moneyRange out.nValue = true) ∧ moneyRange (n + valueOf vout) = true := by
  induction vout generalizing n with
  | nil => exact ⟨by simp, by simpa [valueOf] using hn⟩
  | cons o vout ih =>
    simp only [checkOutputs, Except.bind_eq_ok, Except.raiseIf_eq_ok] at h
    obtain ⟨-, h1, -, h2, m, hm, -, h3, hrest⟩ := h
    obtain ⟨rfl, -⟩ := add64_ok.mp hm
    obtain ⟨hall, hsum⟩ := ih (not_not.mp h3) hrest
    refine ⟨?_, ?_⟩
    · intro out hout
      rcases List.mem_cons.mp hout with rfl | hout
      · exact moneyRange_iff.mpr ⟨by omega, by omega⟩
      · exact hall out hout
    · simpa [valueOf, Int.add_assoc] using hsum

theorem moneyRange_zero : moneyRange 0 = true := by decide

theorem checkTransaction_ok {env : Env} {tx : CTransaction} {u : Unit}
    (h : tx.checkTransaction env = .ok u) :
    (∀ out ∈ tx.vout, moneyRange out.nValue = true) ∧ moneyRange (valueOf tx.vout) = true := by
  simp only [CTransaction.checkTransaction, Except.bind_eq_ok] at h
  obtain ⟨-, -, -, -, u1, hout, -⟩ := h
  have hok := checkOutputs_ok moneyRange_zero hout
  rwa [Int.zero_add] at hok

theorem checkNameRules_avoids (env : Env) (tx : CTransaction) (nHeight : Nat) :
    NoOverflow (checkNameRules env tx nHeight) := by
  unfold checkNameRules
  split
  · exact Except.avoids_ok _
  · refine Except.avoids_bind (vchAt_avoids _ _) (fun _ _ => ?_)
    split
    · exact Except.avoids_ok _
    · split
      · exact Except.avoids_ok _
      · split
        · exact Except.avoids_bind (vchAt_avoids _ _)
            (fun _ _ => Except.avoids_map _ (vchAt_avoids _ _))
        · split
          · exact Except.avoids_map _ (vchAt_avoids _ _)
          · exact Except.avoids_ok _

theorem checkTransaction_avoids (env : Env) (tx : CTransaction) :
    NoOverflow (tx.checkTransaction env) := by
  refine Except.avoids_bind (Except.avoids_raiseIf (by simp) _) (fun _ _ => ?_)
  refine Except.avoids_bind (Except.avoids_raiseIf (by simp) _) (fun _ _ => ?_)
  refine Except.avoids_bind (checkOutputs_avoids moneyRange_zero) (fun _ _ => ?_)
  refine Except.avoids_bind ?_ (fun _ _ => ?_)
  · unfold CTransaction.checkInputs
    split <;> exact Except.avoids_raiseIf (by simp) _
  refine Except.avoids_bind ?_ (fun _ _ => Except.avoids_raiseIf (by simp) _)
  unfold hookCheckTransaction
  split
  · exact Except.avoids_ok _
  · exact Except.avoids_bind (checkNameRules_avoids _ _ _)
      (fun _ _ => Except.avoids_map _ (checkNameRules_avoids _ _ _))

theorem checkTransactions_avoids (env : Env) (txs : List CTransaction) :
    NoOverflow (checkTransactions env txs) := by
  induction txs with
  | nil => exact Except.avoids_ok _
  | cons tx rest ih => exact Except.avoids_bind (checkTransaction_avoids env tx) (fun _ _ => ih)

theorem checkBlock_avoids (env : Env) (nNow : Int) (b : CBlock) (nHeight : Nat) :
    NoOverflow (b.checkBlock env nNow nHeight) := by
  refine Except.avoids_bind (Except.avoids_raiseIf (by simp) _) (fun _ _ => ?_)
  refine Except.avoids_bind (Except.avoids_raiseIf (by simp) _) (fun _ _ => ?_)
  refine Except.avoids_bind (Except.avoids_raiseIf (by simp) _) (fun _ _ => ?_)
  refine Except.avoids_bind (Except.avoids_raiseIf (by simp) _) (fun _ _ => ?_)
  refine Except.avoids_bind (Except.avoids_raiseIf (by simp) _) (fun _ _ => ?_)
  refine Except.avoids_bind (Except.avoids_raiseIf (by simp) _) (fun _ _ => ?_)
  refine Except.avoids_bind (checkTransactions_avoids env b.vtx) (fun _ _ => ?_)
  refine Except.avoids_bind (Except.avoids_raiseIf (by simp) _) (fun _ _ => ?_)
  refine Except.avoids_bind (Except.avoids_raiseIf (by simp) _) (fun _ _ => ?_)
  exact Except.avoids_raiseIf (by simp) _

theorem valueOutFrom_avoids {vout : List CTxOut} {n : Int} (hn : moneyRange n = true)
    (h : ∀ out ∈ vout, moneyRange out.nValue = true) : NoOverflow (valueOutFrom vout n) := by
  induction vout generalizing n with
  | nil => exact Except.avoids_ok _
  | cons o vout ih =>
    refine Except.avoids_bind (add64_avoids_money hn (h o List.mem_cons_self)) (fun m _ => ?_)
    refine Except.avoids_bind (Except.avoids_raiseIf (by simp) _) (fun _ h2 => ?_)
    rw [Except.raiseIf_eq_ok, not_not] at h2
    exact ih h2.2 (fun out hout => h out (List.mem_cons_of_mem _ hout))

theorem sum64_avoids {l : List Int} {n : Int} (hn : 0 ≤ n) (hl : ∀ v ∈ l, 0 ≤ v)
    (hsum : n + l.sum ≤ maxMoney) : NoOverflow (sum64 l n) := by
  have hm := maxMoney_eq
  induction l generalizing n with
  | nil => exact Except.avoids_ok _
  | cons v rest ih =>
    have hv := hl v List.mem_cons_self
    have hrest : 0 ≤ rest.sum := List.sum_nonneg (fun x hx => hl x (List.mem_cons_of_mem _ hx))
    rw [List.sum_cons] at hsum
    have hadd : add64 n v = .ok (n + v) := add64_ok.mpr ⟨rfl, by omega, by omega⟩
    rw [sum64, hadd]
    exact ih (by omega) (fun x hx => hl x (List.mem_cons_of_mem _ hx)) (by omega)

theorem getNameNetFee_avoids {env : Env} {tx : CTransaction} {u : Unit}
    (h : tx.checkTransaction env = .ok u) : NoOverflow (getNameNetFee tx) := by
  obtain ⟨hall, hsum⟩ := checkTransaction_ok h
  have hnn : ∀ out ∈ tx.vout, 0 ≤ out.nValue := fun out hout => (moneyRange_iff.mp (hall out hout)).1
  refine sum64_avoids le_rfl ?_ ?_
  · intro v hv
    obtain ⟨out, hout, rfl⟩ := List.mem_map.mp hv
    exact hnn out (List.mem_of_mem_filter hout)
  · have hle : ((tx.vout.filter (fun out =>
        decide (out.scriptPubKey = [UInt8.ofNat opReturn]))).map CTxOut.nValue).sum ≤
        valueOf tx.vout := by
      refine List.Sublist.sum_le_sum (List.filter_sublist.map _) ?_
      intro v hv
      obtain ⟨out, hout, rfl⟩ := List.mem_map.mp hv
      exact hnn out hout
    have := (moneyRange_iff.mp hsum).2
    omega

namespace NameCall

variable {c : NameCall}

theorem inputIndex_avoids (prev : NameScan) : NoOverflow (c.inputIndex prev) := by
  unfold inputIndex
  split
  · exact Except.avoids_error (by simp)
  · split
    · exact Except.avoids_error (by simp)
    · exact Except.avoids_ok _

theorem checkNew_avoids (vchName : VchType) (prev : NameScan) :
    NoOverflow (checkNew vchName prev) := by
  refine Except.avoids_bind (Except.avoids_raiseIf (by simp) _) (fun _ _ => ?_)
  exact Except.avoids_bind (Except.avoids_raiseIf (by simp) _) (fun _ _ => Except.avoids_pure _)

theorem checkFirstupdate_avoids {env : Env} {u : Unit} (hok : c.tx.checkTransaction env = .ok u)
    (s : ConnState) (vchName : VchType) (d : NameTx) (prev : NameScan) :
    NoOverflow (c.checkFirstupdate s vchName d prev) := by
  refine Except.avoids_bind (getNameNetFee_avoids hok) (fun _ _ => ?_)
  refine Except.avoids_bind (Except.avoids_raiseIf (by simp) _) (fun _ _ => ?_)
  refine Except.avoids_bind (Except.avoids_raiseIf (by simp) _) (fun _ _ => ?_)
  refine Except.avoids_bind (vchAt_avoids _ _) (fun _ _ => ?_)
  refine Except.avoids_bind (Except.avoids_raiseIf (by simp) _) (fun _ _ => ?_)
  refine Except.avoids_bind (vchAt_avoids _ _) (fun _ _ => ?_)
  refine Except.avoids_bind (Except.avoids_raiseIf (by simp) _) (fun _ _ => ?_)
  refine Except.avoids_bind (vchAt_avoids _ _) (fun _ _ => ?_)
  refine Except.avoids_bind (Except.avoids_raiseIf (by simp) _) (fun _ _ => ?_)
  refine Except.avoids_bind (Except.avoids_raiseIf (by simp) _) (fun _ _ => ?_)
  refine Except.avoids_bind (inputIndex_avoids _) (fun _ _ => ?_)
  refine Except.avoids_bind (Except.avoids_raiseIf (by simp) _) (fun _ _ => ?_)
  refine Except.avoids_bind (Except.avoids_doIf (fun _ => ?_)) (fun _ _ => Except.avoids_pure _)
  refine Except.avoids_bind (Except.avoids_raiseIf (by simp) _) (fun _ _ => ?_)
  exact Except.avoids_raiseIf (by simp) _

theorem checkUpdate_avoids (vchName : VchType) (d : NameTx) (prev : NameScan) :
    NoOverflow (c.checkUpdate vchName d prev) := by
  refine Except.avoids_bind (Except.avoids_raiseIf (by simp) _) (fun _ _ => ?_)
  refine Except.avoids_bind (vchAt_avoids _ _) (fun _ _ => ?_)
  refine Except.avoids_bind (Except.avoids_raiseIf (by simp) _) (fun _ _ => ?_)
  refine Except.avoids_bind (vchAt_avoids _ _) (fun _ _ => ?_)
  refine Except.avoids_bind (Except.avoids_raiseIf (by simp) _) (fun _ _ => ?_)
  refine Except.avoids_bind (inputIndex_avoids _) (fun _ _ => ?_)
  exact Except.avoids_bind (Except.avoids_raiseIf (by simp) _) (fun _ _ => Except.avoids_pure _)

theorem checkNameOp_avoids {env : Env} {u : Unit} (hok : c.tx.checkTransaction env = .ok u)
    (s : ConnState) (d : NameTx) (prev : NameScan) : NoOverflow (c.checkNameOp s d prev) := by
  refine Except.avoids_bind (Except.avoids_raiseIf (by simp) _) (fun _ _ => ?_)
  refine Except.avoids_bind (vchAt_avoids _ _) (fun _ _ => ?_)
  refine Except.avoids_bind (Except.avoids_raiseIf (by simp) _) (fun _ _ => ?_)
  refine Except.avoids_bind ?_ (fun _ _ => ?_)
  · unfold checkSwitch
    split
    · exact checkNew_avoids _ _
    · split
      · exact checkFirstupdate_avoids hok s _ d prev
      · split
        · exact checkUpdate_avoids _ _ _
        · exact Except.avoids_error (by simp)
  · exact Except.avoids_bind (Except.avoids_raiseIf (by simp) _) (fun _ _ => Except.avoids_pure _)

theorem badPrevPos_avoids (vtxPos : List CNameIndex) (d : NameTx) (prev : NameScan) :
    NoOverflow (c.badPrevPos vtxPos d prev) := by
  unfold badPrevPos
  split
  · exact Except.avoids_map _ (inputIndex_avoids _)
  · exact Except.avoids_ok _

theorem getValueOfTxPos_avoids (env : Env) (v : View) (pos : CDiskTxPos) :
    NoOverflow (getValueOfTxPos env v pos) := by
  unfold getValueOfTxPos
  split
  · exact Except.avoids_ok _
  · unfold getValueOfNameTx
    split
    · exact Except.avoids_ok _
    · split
      · exact Except.avoids_map _ (vchAt_avoids _ _)
      · split
        · exact Except.avoids_map _ (vchAt_avoids _ _)
        · exact Except.avoids_ok _

theorem writeHistory_avoids (vchName : VchType) (d : NameTx) (prev : NameScan) (s : ConnState) :
    NoOverflowAt (c.writeHistory vchName d prev) s := by
  refine avoids_bind avoids_get (fun _ _ _ => ?_)
  refine avoids_bind (avoids_fromExcept (badPrevPos_avoids _ _ _)) (fun bad _ _ => ?_)
  cases bad with
  | true => exact avoids_raiseIf (by simp) _
  | false =>
    exact avoids_bind (avoids_fromExcept (getValueOfTxPos_avoids _ _ _))
      (fun _ _ _ => avoids_modify _)

theorem connectInputs_avoids {env : Env} {u : Unit} (hok : c.tx.checkTransaction env = .ok u)
    (vTxPrev : List CTransaction) (s : ConnState) : NoOverflowAt (c.connectInputs vTxPrev) s := by
  refine avoids_bind (avoids_fromOption (by simp) _) (fun prev _ _ => ?_)
  split
  · exact avoids_bind (avoids_raiseIf (by simp) _) (fun _ _ _ => avoids_raiseIf (by simp) _)
  · refine avoids_bind (avoids_fromOption (by simp) _) (fun d _ _ => ?_)
    refine avoids_bind avoids_get (fun _ _ _ => ?_)
    refine avoids_bind (avoids_fromExcept (checkNameOp_avoids hok _ _ _)) (fun _ _ _ => ?_)
    refine avoids_doIf (fun _ => ?_)
    refine avoids_bind avoids_get (fun _ _ _ => ?_)
    refine avoids_bind (avoids_fromExcept (vchAt_avoids _ _)) (fun _ _ _ => ?_)
    refine avoids_bind (avoids_fromExcept (badPrevPos_avoids _ _ _)) (fun _ _ _ => ?_)
    refine avoids_bind (avoids_raiseIf (by simp) _) (fun _ _ _ => ?_)
    refine avoids_bind (avoids_doIf (fun _ => writeHistory_avoids _ _ _ _)) (fun _ _ _ => ?_)
    exact avoids_doIf (fun _ => avoids_modify _)

end NameCall

theorem prevValue_range {env : Env} {tx : CTransaction} {u : Unit}
    (h : tx.checkTransaction env = .ok u) (n : Nat) : moneyRange (prevValue tx n) = true := by
  unfold prevValue
  cases hv : tx.vout[n]? with
  | none => exact moneyRange_zero
  | some out => exact (checkTransaction_ok h).1 out (List.mem_of_getElem? hv)

namespace TxCall

variable {c : TxCall} {env : Env} {s : ConnState}

theorem fetchPrev_avoids (i : Nat) (prevout : COutPoint) (fFound : Bool) (txindex : CTxIndex) :
    NoOverflowAt (c.fetchPrev i prevout fFound txindex) s := by
  refine avoids_bind avoids_get (fun _ _ _ => ?_)
  dsimp only
  split
  · exact avoids_bind (avoids_raiseIf (by simp) _) (fun _ _ _ => avoids_pure _)
  · refine avoids_bind (avoids_fromExcept ?_) (fun _ _ _ => ?_)
    · intro hfault
      obtain ⟨msg, hmsg⟩ := readPrev_refuses hfault
      cases hmsg
    · exact avoids_bind (avoids_modify _) (fun _ _ _ => avoids_pure _)

theorem verifySignature_avoids (i : Nat) (txin : CTxIn) (txPrev : CTransaction) :
    NoOverflowAt (c.verifySignature i txin txPrev) s := by
  refine avoids_bind avoids_get (fun _ _ _ => ?_)
  split
  · exact avoids_throw (by simp)
  · refine avoids_bind (avoids_raiseIf (by simp) _) (fun _ _ _ => ?_)
    exact avoids_bind (avoids_raiseIf (by simp) _) (fun _ _ _ => avoids_modify _)

theorem connectInput_avoids (hb : c.fBlock = true) (hm : c.fMiner = false) {i : Nat} {txin : CTxIn}
    {nIn : Int} (hfresh : freshFrom i s) (hok : IndexOk env c.view.disk s.dbset.tx)
    (hn : moneyRange nIn = true) : NoOverflowAt (c.connectInput i txin nIn) s := by
  refine avoids_bind avoids_get (fun s0 s1 hget => ?_)
  obtain ⟨rfl, rfl⟩ := get_ok.mp hget
  refine avoids_bind (avoids_raiseIf (by simp) _) (fun _ s2 h2 => ?_)
  obtain ⟨hfound, rfl⟩ := raiseIf_ok.mp h2
  refine avoids_bind (avoids_raiseIf (by simp) _) (fun _ s3 hcount => ?_)
  obtain ⟨-, rfl⟩ := raiseIf_ok.mp hcount
  refine avoids_bind (fetchPrev_avoids _ _ _ _) (fun txPrev s4 hfetch => ?_)
  have hread := (fetchPrev_ok (hfresh i le_rfl) hfetch).1
  have hindex : c.readTxIndex s txin.prevout.hash = s.dbset.tx txin.prevout.hash := by
    simp [readTxIndex, hm]
  have hrange : moneyRange (prevValue txPrev txin.prevout.n) = true := by
    cases ht : s.dbset.tx txin.prevout.hash with
    | none => simp [hindex, ht, hb] at hfound
    | some txindex =>
      obtain ⟨tx, hentry⟩ := hok _ _ ht
      simp only [hindex, ht, Option.isSome_some, Option.getD_some, readPrev, Bool.not_true,
        hentry.onDisk, decide_false, Bool.or_self, Bool.false_eq_true, if_false, hentry.read,
        Except.ok.injEq] at hread
      rw [← hread]
      exact prevValue_range hentry.checked _
  refine avoids_bind (avoids_raiseIf (by simp) _) (fun _ _ _ => ?_)
  refine avoids_bind (avoids_doIf (fun _ => verifySignature_avoids _ _ _)) (fun _ _ _ => ?_)
  refine avoids_bind (avoids_raiseIf (by simp) _) (fun _ _ _ => ?_)
  refine avoids_bind (avoids_raiseIf (by simp) _) (fun _ _ _ => ?_)
  refine avoids_bind (avoids_modify _) (fun _ _ _ => ?_)
  refine avoids_bind (avoids_fromExcept (add64_avoids_money hn hrange)) (fun _ _ _ => ?_)
  refine avoids_bind (avoids_raiseIf (by simp) _) (fun _ _ _ => ?_)
  exact avoids_bind (avoids_modify _) (fun _ _ _ => avoids_pure _)

theorem connectVin_avoids (hb : c.fBlock = true) (hm : c.fMiner = false) {vin : List CTxIn}
    {i : Nat} {nIn : Int} (hfresh : freshFrom i s) (hok : IndexOk env c.view.disk s.dbset.tx)
    (hn : moneyRange nIn = true) : NoOverflowAt (c.connectVin vin i nIn) s := by
  induction vin generalizing i nIn s with
  | nil => exact avoids_pure _
  | cons txin rest ih =>
    refine avoids_bind (connectInput_avoids hb hm hfresh hok hn) (fun r s1 h1 => ?_)
    obtain ⟨txPrev, txindex', n⟩ := r
    obtain ⟨txindex, hstep, rfl, hrange, rfl, htx, -, hfresh'⟩ := connectInput_ok hb hm hfresh h1
    have hok' : IndexOk env c.view.disk s1.dbset.tx := by
      rw [htx]
      exact hok.setSpent hstep.found _ _
    exact avoids_bind (ih hfresh' hok' hrange) (fun _ _ _ => avoids_pure _)

theorem tallyFee_avoids {nIn nMinFee : Int} {u : Unit} (hn : moneyRange nIn = true)
    (hfees : moneyRange s.nFees = true) (hchecked : c.tx.checkTransaction env = .ok u) :
    NoOverflowAt (c.tallyFee nIn nMinFee) s := by
  obtain ⟨hall, hsum⟩ := checkTransaction_ok hchecked
  have hm := maxMoney_eq
  have hn' := moneyRange_iff.mp hn
  have hsum' := moneyRange_iff.mp hsum
  refine avoids_bind (avoids_fromExcept (valueOutFrom_avoids moneyRange_zero hall))
    (fun nOut s1 h1 => ?_)
  obtain ⟨hout, rfl⟩ := fromExcept_ok.mp h1
  obtain rfl := getValueOut_ok hout
  refine avoids_bind (avoids_fromExcept (add64_avoids (by omega))) (fun fee s2 h2 => ?_)
  obtain ⟨hfee, rfl⟩ := fromExcept_ok.mp h2
  obtain ⟨rfl, -⟩ := add64_ok.mp hfee
  refine avoids_bind (avoids_raiseIf (by simp) _) (fun _ s3 h3 => ?_)
  obtain ⟨hneg, rfl⟩ := raiseIf_ok.mp h3
  refine avoids_bind (avoids_raiseIf (by simp) _) (fun _ s4 h4 => ?_)
  obtain ⟨-, rfl⟩ := raiseIf_ok.mp h4
  refine avoids_bind avoids_get (fun s0 s5 h5 => ?_)
  obtain ⟨rfl, rfl⟩ := get_ok.mp h5
  have hfee' : moneyRange (nIn + -valueOf c.tx.vout) = true :=
    moneyRange_iff.mpr ⟨by omega, by omega⟩
  refine avoids_bind (avoids_fromExcept (add64_avoids_money hfees hfee')) (fun _ _ _ => ?_)
  exact avoids_bind (avoids_modify _) (fun _ _ _ => avoids_raiseIf (by simp) _)

theorem spendRun_range {vin : List CTxIn} {t t' : TxMap} {n n' : Int}
    {rs : List (CTransaction × CTxIndex)} (h : SpendRun c vin t n rs t' n')
    (hn : moneyRange n = true) : moneyRange n' = true := by
  induction h with
  | nil t n => exact hn
  | cons step range tail ih => exact ih range

theorem connectInputs_avoids {pos : CDiskTxPos} {nMinFee : Int} {u : Unit} (hb : c.fBlock = true)
    (hm : c.fMiner = false) (hfresh : freshFrom 0 s) (hok : IndexOk env c.view.disk s.dbset.tx)
    (hfees : moneyRange s.nFees = true) (hchecked : c.tx.checkTransaction env = .ok u) :
    NoOverflowAt (c.connectInputs pos nMinFee) s := by
  refine avoids_bind (avoids_doIf (fun _ => ?_)) (fun _ _ _ => avoids_modify _)
  refine avoids_bind (connectVin_avoids hb hm hfresh hok moneyRange_zero) (fun rs s1 h1 => ?_)
  obtain ⟨hrun, hsame⟩ := connectVin_ok hb hm hfresh h1
  refine avoids_bind (NameCall.connectInputs_avoids hchecked _ _) (fun _ s2 h2 => ?_)
  obtain ⟨prev, e, -, -, rfl⟩ := NameCall.connectInputs_ok (by simpa [nameCall] using hb)
    (by simpa [nameCall] using hm) h2
  refine tallyFee_avoids (spendRun_range hrun moneyRange_zero) ?_ hchecked
  simpa [NameCall.effectOn, hsame.fees] using hfees

end TxCall

namespace BlockCall

theorem connectTx_avoids {c : BlockCall} {tx : CTransaction} {nTxPos : Nat} {s : ConnState}
    {u : Unit} (hok : IndexOk c.env c.view.disk s.dbset.tx) (hfees : moneyRange s.nFees = true)
    (hchecked : tx.checkTransaction c.env = .ok u) : NoOverflowAt (c.connectTx tx nTxPos) s := by
  refine avoids_bind (avoids_modify _) (fun _ s1 h1 => ?_)
  obtain rfl := modify_ok.mp h1
  have hfresh : freshFrom 0 { s with vin := tx.vin.map (fun _ => CTxInCache.empty) } := by
    intro j _
    by_cases hj : j < tx.vin.length <;> simp [hj, CTxInCache.empty]
  exact TxCall.connectInputs_avoids (c := c.txCall tx) rfl rfl hfresh hok hfees hchecked

theorem connectTxs_avoids {c : BlockCall} {txs : List CTransaction} {nTxPos : Nat} {s : ConnState}
    (hok : IndexOk c.env c.view.disk s.dbset.tx) (hfees : moneyRange s.nFees = true)
    (hstore : Storable c txs nTxPos) : NoOverflowAt (c.connectTxs txs nTxPos) s := by
  induction txs generalizing nTxPos s with
  | nil => exact avoids_pure _
  | cons tx rest ih =>
    refine avoids_bind (connectTx_avoids hok hfees (hstore.checked tx List.mem_cons_self))
      (fun _ s1 h1 => ?_)
    obtain ⟨t, e, fee, hspend, hafter⟩ := connectTx_ok h1
    have hok1 : IndexOk c.env c.view.disk s1.dbset.tx := by
      rw [show s1.dbset = s1.ledger.db from rfl, hafter]
      exact hspend.after_indexOk hstore hok
    have hfees1 : moneyRange s1.nFees = true := by
      rw [show s1.nFees = s1.ledger.fees from rfl, hafter, TxCall.after_fees]
      cases hspend with
      | coinbase cb => simpa [ConnState.ledger] using hfees
      | spend cb run scan name value fee range => exact range
    exact ih hok1 hfees1 hstore.tail

end BlockCall

def WalletOk (w : CWallet) : Prop :=
  ∀ hash wtx, w.mapWallet hash = some wtx →
    ∀ out ∈ wtx.merkle.tx.vout, moneyRange out.nValue = true

namespace CWallet

variable {w w' : CWallet} {env : Env}

theorem putTx_ok (h : WalletOk w) {hash : Uint256} {wtx : CWalletTx}
    (hwtx : ∀ out ∈ wtx.merkle.tx.vout, moneyRange out.nValue = true) :
    WalletOk (w.putTx hash wtx) := by
  intro k x hk
  by_cases hkh : k = hash
  · subst hkh
    obtain rfl : wtx = x := by simpa [putTx] using hk
    exact hwtx
  · exact h k x (by simpa [putTx, hkh] using hk)

theorem walletUpdateSpent_spec (h : WalletOk w) (vin : List CTxIn) :
    NoOverflow (w.walletUpdateSpent vin) ∧
      ∀ w', w.walletUpdateSpent vin = .ok w' → WalletOk w' := by
  induction vin generalizing w with
  | nil =>
    refine ⟨Except.avoids_ok _, ?_⟩
    intro w' hw
    obtain rfl := Except.ok.inj hw
    exact h
  | cons txin rest ih =>
    rw [walletUpdateSpent]
    cases hm : w.mapWallet txin.prevout.hash with
    | none => exact ih h
    | some wtx =>
      have hput : WalletOk (w.putTx txin.prevout.hash (wtx.markSpent txin.prevout.n)) :=
        putTx_ok h (show ∀ out ∈ wtx.merkle.tx.vout, moneyRange out.nValue = true from h _ _ hm)
      have hspent : NoOverflow (wtx.isSpent txin.prevout.n) := by
        unfold CWalletTx.isSpent
        split
        · exact Except.avoids_error (by simp)
        · exact Except.avoids_ok _
      constructor
      · refine Except.avoids_bind hspent (fun spent _ => ?_)
        dsimp only
        split
        · exact (ih hput).1
        · exact (ih h).1
      · intro w' hw
        obtain ⟨spent, -, hw⟩ := Except.bind_eq_ok.mp hw
        dsimp only at hw
        split at hw
        · exact (ih hput).2 w' hw
        · exact (ih h).2 w' hw

theorem getDebitInclName_range (h : WalletOk w) (txin : CTxIn) :
    moneyRange (w.getDebitInclName txin) = true := by
  unfold getDebitInclName
  split
  · exact moneyRange_zero
  · rename_i prev hprev
    split
    · exact moneyRange_zero
    · rename_i out hout
      split
      · exact h _ _ hprev out (List.mem_of_getElem? hout)
      · exact moneyRange_zero

theorem debitFrom_avoids (h : WalletOk w) {vin : List CTxIn} {n : Int}
    (hn : moneyRange n = true) : NoOverflow (w.debitFrom vin n) := by
  induction vin generalizing n with
  | nil => exact Except.avoids_ok _
  | cons txin rest ih =>
    refine Except.avoids_bind (add64_avoids_money hn (getDebitInclName_range h txin)) (fun m _ => ?_)
    refine Except.avoids_bind (Except.avoids_raiseIf (by simp) _) (fun _ h2 => ?_)
    rw [Except.raiseIf_eq_ok, not_not] at h2
    exact ih h2

theorem mergeTx_tx (wtx wtxIn : CWalletTx) : (mergeTx wtx wtxIn).merkle.tx = wtx.merkle.tx := by
  simp only [mergeTx, CWalletTx.updateSpent]
  split <;> rfl

theorem addToWallet_spec (h : WalletOk w) (env : Env) (nNow : Nat) {wtxIn : CWalletTx}
    (hwtx : ∀ out ∈ wtxIn.merkle.tx.vout, moneyRange out.nValue = true) :
    NoOverflow (w.addToWallet env nNow wtxIn) ∧
      ∀ w', w.addToWallet env nNow wtxIn = .ok w' → WalletOk w' := by
  unfold addToWallet
  dsimp only
  refine walletUpdateSpent_spec (putTx_ok h ?_) _
  split
  · exact hwtx
  · rename_i old hold
    rw [mergeTx_tx]
    exact h _ _ hold

theorem setMerkleBranch_tx (tx : CTransaction) (block : CBlock) :
    (setMerkleBranch env tx block).tx = tx := by
  unfold setMerkleBranch
  split <;> rfl

theorem addToWalletIfInvolvingMe_spec (h : WalletOk w) (env : Env) (nNow : Nat)
    {tx : CTransaction} (block : CBlock) (htx : ∀ out ∈ tx.vout, moneyRange out.nValue = true) :
    NoOverflow (w.addToWalletIfInvolvingMe env nNow tx block) ∧
      ∀ w', w.addToWalletIfInvolvingMe env nNow tx block = .ok w' → WalletOk w' := by
  have hin : ∀ out ∈ (CWalletTx.mk (setMerkleBranch env tx block) 0 false []).merkle.tx.vout,
      moneyRange out.nValue = true := by
    rw [setMerkleBranch_tx]
    exact htx
  have hadd := addToWallet_spec h env nNow hin
  have hupd := walletUpdateSpent_spec h tx.vin
  have hboth (mine : Bool) : NoOverflow (w.involve env nNow tx block mine) ∧
      ∀ w', w.involve env nNow tx block mine = .ok w' → WalletOk w' := by
    unfold involve
    split
    · exact hadd
    · exact hupd
  unfold addToWalletIfInvolvingMe
  constructor
  · refine Except.avoids_bind ?_ (fun mine _ => (hboth mine).1)
    unfold involvesMe
    split
    · exact Except.avoids_ok _
    · exact Except.avoids_map _ (debitFrom_avoids h moneyRange_zero)
  · intro w' hw
    obtain ⟨mine, -, hw⟩ := Except.bind_eq_ok.mp hw
    exact (hboth mine).2 w' hw

theorem syncWithWallets_spec {nNow : Nat} {block : CBlock} {txs : List CTransaction}
    (h : WalletOk w) (htxs : ∀ tx ∈ txs, tx.checkTransaction env = .ok ()) :
    NoOverflow (syncWithWallets env nNow block txs w) ∧
      ∀ w', syncWithWallets env nNow block txs w = .ok w' → WalletOk w' := by
  induction txs generalizing w with
  | nil =>
    refine ⟨Except.avoids_ok _, ?_⟩
    intro w' hw
    obtain rfl := Except.ok.inj hw
    exact h
  | cons tx rest ih =>
    have hone := addToWalletIfInvolvingMe_spec h env nNow block
      (checkTransaction_ok (htxs tx List.mem_cons_self)).1
    have hrest (w1 : CWallet) (hw1 : WalletOk w1) :=
      ih hw1 (fun t ht => htxs t (List.mem_cons_of_mem _ ht))
    constructor
    · exact Except.avoids_bind hone.1 (fun w1 h1 => (hrest w1 (hone.2 w1 h1)).1)
    · intro w' hw
      obtain ⟨w1, h1, h2⟩ := Except.bind_eq_ok.mp hw
      exact (hrest w1 (hone.2 w1 h1)).2 w' h2

end CWallet

end Namecoin
