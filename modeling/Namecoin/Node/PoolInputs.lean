import Namecoin.Node.TxRelay

namespace Namecoin

open Act

def ConnState.withPending (m : VchType → Finset Uint256) (s : ConnState) : ConnState :=
  { s with mapNamePending := m }

section Pending

variable {m : VchType → Finset Uint256}

theorem NameCall.checkNameOp_pending {c : NameCall} (hm : c.fMiner = false) (s : ConnState)
    (d : NameTx) (prev : NameScan) :
    c.checkNameOp (s.withPending m) d prev = c.checkNameOp s d prev := by
  have hfirst : ∀ vchName, c.checkFirstupdate (s.withPending m) vchName d prev =
      c.checkFirstupdate s vchName d prev := by
    intro vchName
    simp only [checkFirstupdate, hm, Except.doIf, Bool.false_eq_true, if_false]
    rfl
  simp only [checkNameOp, checkSwitch, hfirst]

theorem NameCall.applyNameOp_commutes {c : NameCall} {f : ConnState → ConnState}
    (hb : c.fBlock = false) (hf : ∀ s, (f s).dbset = s.dbset) (d : NameTx) (prev : NameScan) :
    Commutes f (c.applyNameOp d prev) := by
  refine commutes_get_bind (fun s => by rw [hf]) (fun s => ?_)
  refine commutes_bind (commutes_fromExcept _) (fun vchName => ?_)
  refine commutes_bind (commutes_fromExcept _) (fun bad => ?_)
  refine commutes_bind (commutes_raiseIf _ _) (fun _ => ?_)
  simp only [doIf, hb, Bool.false_eq_true, false_and, if_false]
  exact commutes_bind (commutes_pure _) (fun _ => commutes_pure _)

theorem NameCall.connectInputs_commutes {c : NameCall} {f : ConnState → ConnState}
    (hb : c.fBlock = false) (hf : ∀ s, (f s).dbset = s.dbset)
    (hcheck : ∀ s d prev, c.checkNameOp (f s) d prev = c.checkNameOp s d prev)
    (vTxPrev : List CTransaction) : Commutes f (c.connectInputs vTxPrev) := by
  refine commutes_bind (commutes_fromOption _ _) (fun prev => ?_)
  split
  · exact commutes_bind (commutes_raiseIf _ _) (fun _ => commutes_raiseIf _ _)
  · refine commutes_bind (commutes_fromOption _ _) (fun d => ?_)
    refine commutes_get_bind (fun s => by rw [hcheck]) (fun s => ?_)
    exact commutes_bind (commutes_fromExcept _)
      (fun _ => commutes_doIf _ (applyNameOp_commutes hb hf d prev))

theorem NameCall.connectInputs_pending {c : NameCall} (hb : c.fBlock = false)
    (hm : c.fMiner = false) (vTxPrev : List CTransaction) :
    Commutes (ConnState.withPending m) (c.connectInputs vTxPrev) :=
  connectInputs_commutes (f := ConnState.withPending m) hb (fun _ => rfl)
    (checkNameOp_pending hm) vTxPrev

namespace TxCall

theorem putCache_commutes (i : Nat) (g : CTxInCache → CTxInCache) :
    Commutes (ConnState.withPending m) (putCache i g) := commutes_modify (fun _ => rfl)

theorem fetchPrev_commutes (c : TxCall) (i : Nat) (prevout : COutPoint) (fFound : Bool)
    (txindex : CTxIndex) :
    Commutes (ConnState.withPending m) (c.fetchPrev i prevout fFound txindex) := by
  refine commutes_get_bind (fun s => rfl) (fun s => ?_)
  dsimp only
  split
  · exact commutes_bind (commutes_raiseIf _ _) (fun _ => commutes_pure _)
  · refine commutes_bind (commutes_fromExcept _) (fun txPrev => ?_)
    exact commutes_bind (putCache_commutes i _) (fun _ => commutes_pure _)

theorem verifySignature_commutes (c : TxCall) (i : Nat) (txin : CTxIn) (txPrev : CTransaction) :
    Commutes (ConnState.withPending m) (c.verifySignature i txin txPrev) := by
  refine commutes_get_bind (fun s => rfl) (fun s => ?_)
  dsimp only
  split
  · exact commutes_throw _
  · refine commutes_bind (commutes_raiseIf _ _) (fun _ => ?_)
    exact commutes_bind (commutes_raiseIf _ _) (fun _ => putCache_commutes i _)

theorem writeBack_commutes (c : TxCall) (h : Uint256) (txindex : CTxIndex) :
    Commutes (ConnState.withPending m) (c.writeBack h txindex) := by
  refine commutes_modify (fun s => ?_)
  cases c.fBlock <;> cases c.fMiner <;> rfl

theorem connectInput_commutes (c : TxCall) (i : Nat) (txin : CTxIn) (nValueIn : Int) :
    Commutes (ConnState.withPending m) (c.connectInput i txin nValueIn) := by
  refine commutes_get_bind (fun s => rfl) (fun s => ?_)
  refine commutes_bind (commutes_raiseIf _ _) (fun _ => ?_)
  refine commutes_bind (commutes_raiseIf _ _) (fun _ => ?_)
  refine commutes_bind (fetchPrev_commutes c _ _ _ _) (fun txPrev => ?_)
  refine commutes_bind (commutes_raiseIf _ _) (fun _ => ?_)
  refine commutes_bind (commutes_doIf _ (verifySignature_commutes c _ _ _)) (fun _ => ?_)
  refine commutes_bind (commutes_raiseIf _ _) (fun _ => ?_)
  refine commutes_bind (commutes_raiseIf _ _) (fun _ => ?_)
  refine commutes_bind (putCache_commutes _ _) (fun _ => ?_)
  refine commutes_bind (commutes_fromExcept _) (fun nValueIn => ?_)
  refine commutes_bind (commutes_raiseIf _ _) (fun _ => ?_)
  exact commutes_bind (writeBack_commutes c _ _) (fun _ => commutes_pure _)

theorem connectVin_commutes (c : TxCall) (vin : List CTxIn) (i : Nat) (nValueIn : Int) :
    Commutes (ConnState.withPending m) (c.connectVin vin i nValueIn) := by
  induction vin generalizing i nValueIn with
  | nil => exact commutes_pure _
  | cons txin rest ih =>
    refine commutes_bind (connectInput_commutes c i txin nValueIn) (fun r => ?_)
    exact commutes_bind (ih _ _) (fun _ => commutes_pure _)

theorem tallyFee_commutes (c : TxCall) (nValueIn nMinFee : Int) :
    Commutes (ConnState.withPending m) (c.tallyFee nValueIn nMinFee) := by
  refine commutes_bind (commutes_fromExcept _) (fun nValueOut => ?_)
  refine commutes_bind (commutes_fromExcept _) (fun nTxFee => ?_)
  refine commutes_bind (commutes_raiseIf _ _) (fun _ => ?_)
  refine commutes_bind (commutes_raiseIf _ _) (fun _ => ?_)
  refine commutes_get_bind (fun s => rfl) (fun s => ?_)
  refine commutes_bind (commutes_fromExcept _) (fun nFees => ?_)
  exact commutes_bind (commutes_modify (fun _ => rfl)) (fun _ => commutes_raiseIf _ _)

theorem addTxIndex_commutes (c : TxCall) (pos : CDiskTxPos) :
    Commutes (ConnState.withPending m) (c.addTxIndex pos) := by
  refine commutes_modify (fun s => ?_)
  cases c.fBlock <;> cases c.fMiner <;> rfl

theorem connectInputs_commutes {c : TxCall} (hb : c.fBlock = false) (hm : c.fMiner = false)
    (pos : CDiskTxPos) (nMinFee : Int) :
    Commutes (ConnState.withPending m) (c.connectInputs pos nMinFee) := by
  refine commutes_bind (commutes_doIf _ ?_) (fun _ => addTxIndex_commutes c pos)
  refine commutes_bind (connectVin_commutes c _ _ _) (fun rs => ?_)
  refine commutes_bind (NameCall.connectInputs_pending hb hm _) (fun _ => ?_)
  exact tallyFee_commutes c _ _

end TxCall

end Pending

def TxCall.withPool (c : TxCall) (m : Uint256 → Option CTransaction) : TxCall :=
  { c with view := { c.view with mapTransactions := m } }

def InPool (t : TxMap) (h : Uint256) : Prop :=
  ∀ txindex, t h = some txindex → txindex.pos = CDiskTxPos.memPool

namespace TxCall

section Pool

variable {c : TxCall} {m : Uint256 → Option CTransaction} {s : ConnState}

theorem readPrev_congr {prevout : COutPoint} {fFound : Bool} {txindex : CTxIndex}
    (h : (fFound = true → txindex.pos = CDiskTxPos.memPool) →
      m prevout.hash = c.view.mapTransactions prevout.hash) :
    (c.withPool m).readPrev prevout fFound txindex = c.readPrev prevout fFound txindex := by
  unfold readPrev
  split
  · next hpool =>
    have hm : m prevout.hash = c.view.mapTransactions prevout.hash := by
      refine h (fun hf => ?_)
      simpa [hf] using hpool
    rw [← hm]
    rfl
  · rfl

theorem fetchPrev_congr {i : Nat} {prevout : COutPoint} {fFound : Bool} {txindex : CTxIndex}
    (h : (fFound = true → txindex.pos = CDiskTxPos.memPool) →
      m prevout.hash = c.view.mapTransactions prevout.hash) :
    (c.withPool m).fetchPrev i prevout fFound txindex = c.fetchPrev i prevout fFound txindex := by
  unfold fetchPrev
  rw [readPrev_congr h]
  rfl

theorem readTxIndex_pool (hm : c.fMiner = false) (s : ConnState) (h : Uint256) :
    c.readTxIndex s h = s.dbset.tx h := by
  simp [readTxIndex, hm]

theorem inPool_of_read {t : TxMap} {h : Uint256} {txindex : CTxIndex}
    (hpos : (t h).isSome = true → ((t h).getD txindex).pos = CDiskTxPos.memPool) : InPool t h := by
  intro x hx
  rw [hx] at hpos
  exact hpos rfl

theorem connectInput_congr (hm : c.fMiner = false) {i : Nat} {txin : CTxIn} {nValueIn : Int}
    (h : InPool s.dbset.tx txin.prevout.hash →
      m txin.prevout.hash = c.view.mapTransactions txin.prevout.hash) :
    exec ((c.withPool m).connectInput i txin nValueIn) s =
      exec (c.connectInput i txin nValueIn) s := by
  unfold connectInput
  rw [exec_get_bind, exec_get_bind]
  have hfetch := @fetchPrev_congr c m i txin.prevout
    (c.readTxIndex s txin.prevout.hash).isSome ((c.readTxIndex s txin.prevout.hash).getD
      (CTxIndex.make CDiskTxPos.null (txin.prevout.n + 1)))
    (fun hpos => h (inPool_of_read (by rwa [readTxIndex_pool hm] at hpos)))
  dsimp only
  rw [show (c.withPool m).readTxIndex s txin.prevout.hash = c.readTxIndex s txin.prevout.hash
    from rfl, hfetch]
  rfl

structure OnlyInput (i : Nat) (s s' : ConnState) : Prop where
  dbset : s'.dbset = s.dbset
  others : ∀ j, j ≠ i → s'.vin.getD j CTxInCache.empty = s.vin.getD j CTxInCache.empty

theorem onlyInput_refl (i : Nat) (s : ConnState) : OnlyInput i s s := ⟨rfl, fun _ _ => rfl⟩

theorem OnlyInput.trans {i : Nat} {a b d : ConnState} (h : OnlyInput i a b)
    (h' : OnlyInput i b d) : OnlyInput i a d :=
  ⟨h'.dbset.trans h.dbset, fun j hj => (h'.others j hj).trans (h.others j hj)⟩

theorem putCache_onlyInput (i : Nat) (g : CTxInCache → CTxInCache) :
    Keeps (OnlyInput i) (putCache i g) := by
  refine keeps_modify (fun s => ⟨rfl, ?_⟩)
  intro j hj
  simp [List.getD_eq_getElem?_getD, Ne.symm hj]

theorem writeBack_idle (hb : c.fBlock = false) (hm : c.fMiner = false)
    {R : ConnState → ConnState → Prop} (hr : ∀ s, R s s) (h : Uint256) (txindex : CTxIndex) :
    Keeps R (c.writeBack h txindex) := by
  refine keeps_modify (fun s => ?_)
  simp only [hb, hm, Bool.false_eq_true, if_false]
  exact hr s

theorem connectInput_onlyInput (hb : c.fBlock = false) (hm : c.fMiner = false) (i : Nat)
    (txin : CTxIn) (nValueIn : Int) : Keeps (OnlyInput i) (c.connectInput i txin nValueIn) :=
  connectInput_keeps (onlyInput_refl i) (@OnlyInput.trans i) (putCache_onlyInput i)
    (writeBack_idle hb hm (onlyInput_refl i)) txin nValueIn

theorem connectInput_onlyInput_ok (hb : c.fBlock = false) (hm : c.fMiner = false) {i : Nat}
    {txin : CTxIn} {nValueIn : Int} {r : CTransaction × CTxIndex × Int} {s' : ConnState}
    (h : exec (c.connectInput i txin nValueIn) s = (.ok r, s')) : OnlyInput i s s' := by
  have hkeep := connectInput_onlyInput hb hm i txin nValueIn s
  rwa [h] at hkeep

theorem connectVin_congr (hb : c.fBlock = false) (hm : c.fMiner = false) {vin : List CTxIn}
    {i : Nat} {nValueIn : Int} (h : ∀ txin ∈ vin, InPool s.dbset.tx txin.prevout.hash →
      m txin.prevout.hash = c.view.mapTransactions txin.prevout.hash) :
    exec ((c.withPool m).connectVin vin i nValueIn) s = exec (c.connectVin vin i nValueIn) s := by
  induction vin generalizing s i nValueIn with
  | nil => rfl
  | cons txin rest ih =>
    rw [connectVin, connectVin, exec_bind, exec_bind,
      connectInput_congr hm (h txin List.mem_cons_self)]
    rcases hr : exec (c.connectInput i txin nValueIn) s with ⟨r, s'⟩
    cases r with
    | error fault => rfl
    | ok r =>
      have hdb := (connectInput_onlyInput_ok hb hm hr).dbset
      have hrest := @ih s' (i + 1) r.2.2
        (fun x hx => by rw [hdb]; exact h x (List.mem_cons_of_mem _ hx))
      dsimp only
      rw [exec_bind, exec_bind, hrest]

theorem connectInput_missing (hb : c.fBlock = false) (hm : c.fMiner = false) {i : Nat}
    {txin : CTxIn} {nValueIn : Int}
    (hfresh : (s.vin.getD i CTxInCache.empty).txPrev = none)
    (hpool : InPool s.dbset.tx txin.prevout.hash)
    (hmissing : c.view.mapTransactions txin.prevout.hash = none) :
    ∃ msg, (exec (c.connectInput i txin nValueIn) s).1 = .error (.reject msg) := by
  unfold connectInput
  rw [exec_get_bind]
  simp only [raiseIf, hb, hm, Bool.or_self, Bool.false_eq_true, and_false, if_false, pure_bind,
    readTxIndex_pool hm]
  split
  · exact ⟨_, rfl⟩
  · have hread : c.readPrev txin.prevout (s.dbset.tx txin.prevout.hash).isSome
        ((s.dbset.tx txin.prevout.hash).getD
          (CTxIndex.make CDiskTxPos.null (txin.prevout.n + 1))) =
        .error (.reject "ConnectInputs() : mapTransactions prev not found") := by
      unfold readPrev
      rw [if_pos, hmissing]
      cases htx : s.dbset.tx txin.prevout.hash with
      | none => rfl
      | some txindex => simp [hpool txindex htx]
    have hfetch : exec (c.fetchPrev i txin.prevout (s.dbset.tx txin.prevout.hash).isSome
        ((s.dbset.tx txin.prevout.hash).getD
          (CTxIndex.make CDiskTxPos.null (txin.prevout.n + 1)))) s =
        (.error (.reject "ConnectInputs() : mapTransactions prev not found"), s) := by
      unfold fetchPrev
      rw [exec_get_bind]
      simp only [hfresh]
      rw [hread]
      rfl
    rw [pure_bind, exec_bind_error hfetch]
    exact ⟨_, rfl⟩

theorem connectVin_missing (hb : c.fBlock = false) (hm : c.fMiner = false) {vin : List CTxIn}
    {i : Nat} {nValueIn : Int} {r : List (CTransaction × CTxIndex) × Int} {s' : ConnState}
    (hok : exec (c.connectVin vin i nValueIn) s = (.ok r, s'))
    (hfresh : ∀ j, i ≤ j → (s.vin.getD j CTxInCache.empty).txPrev = none)
    (hsub : ∀ h, m h = none ∨ m h = c.view.mapTransactions h)
    (hmissing : ∃ txin ∈ vin, InPool s.dbset.tx txin.prevout.hash ∧ m txin.prevout.hash = none) :
    ∃ msg, (exec ((c.withPool m).connectVin vin i nValueIn) s).1 = .error (.reject msg) := by
  induction vin generalizing s s' i nValueIn r with
  | nil =>
    obtain ⟨txin, hin, -⟩ := hmissing
    cases hin
  | cons txin rest ih =>
    rw [connectVin, bind_ok] at hok
    obtain ⟨r1, s1, hfirst, hok⟩ := hok
    rw [bind_ok] at hok
    obtain ⟨rs, s2, hrest, -⟩ := hok
    rw [connectVin]
    by_cases hhead : InPool s.dbset.tx txin.prevout.hash ∧ m txin.prevout.hash = none
    · obtain ⟨msg, herr⟩ := @connectInput_missing (c.withPool m) s hb hm i txin nValueIn
        (hfresh i (le_refl i)) hhead.1 hhead.2
      refine ⟨msg, ?_⟩
      rw [exec_bind]
      rcases hx : exec ((c.withPool m).connectInput i txin nValueIn) s with ⟨x, t⟩
      rw [hx] at herr
      obtain rfl : x = .error (.reject msg) := herr
      rfl
    · -- the head is read as before, so the missing input is behind it
      have hsame := @connectInput_congr c m s hm i txin nValueIn
        (fun hpool => (hsub _).resolve_left (fun hnone => hhead ⟨hpool, hnone⟩))
      have honly := connectInput_onlyInput_ok hb hm hfirst
      rw [exec_bind_ok (hsame.trans hfirst)]
      have hlater : ∃ msg, (exec ((c.withPool m).connectVin rest (i + 1) r1.2.2) s1).1 =
          .error (.reject msg) := by
        refine ih hrest ?_ ?_
        · intro j hj
          rw [honly.others j (by omega)]
          exact hfresh j (by omega)
        · obtain ⟨x, hx, hpool, hnone⟩ := hmissing
          rcases List.mem_cons.mp hx with rfl | hx
          · exact absurd ⟨hpool, hnone⟩ hhead
          · exact ⟨x, hx, by rw [honly.dbset]; exact hpool, hnone⟩
      obtain ⟨msg, herr⟩ := hlater
      refine ⟨msg, ?_⟩
      rw [exec_bind]
      rcases hx : exec ((c.withPool m).connectVin rest (i + 1) r1.2.2) s1 with ⟨x, t⟩
      rw [hx] at herr
      obtain rfl : x = .error (.reject msg) := herr
      rfl

theorem connectInputs_congr (hb : c.fBlock = false) (hm : c.fMiner = false) {pos : CDiskTxPos}
    {nMinFee : Int} (h : ∀ txin ∈ c.tx.vin, InPool s.dbset.tx txin.prevout.hash →
      m txin.prevout.hash = c.view.mapTransactions txin.prevout.hash) :
    exec ((c.withPool m).connectInputs pos nMinFee) s = exec (c.connectInputs pos nMinFee) s := by
  have hspend : exec ((c.withPool m).spendInputs pos nMinFee) s =
      exec (c.spendInputs pos nMinFee) s := by
    have hvin := @connectVin_congr c m s hb hm c.tx.vin 0 0 h
    unfold spendInputs
    rw [exec_bind, exec_bind]
    rw [show (c.withPool m).tx.vin = c.tx.vin from rfl, hvin]
    rcases exec (c.connectVin c.tx.vin 0 0) s with ⟨r, s'⟩
    cases r with
    | error fault => rfl
    | ok rs => rfl
  unfold connectInputs
  have hdo : exec (doIf (c.tx.isCoinBase = false) ((c.withPool m).spendInputs pos nMinFee)) s =
      exec (doIf (c.tx.isCoinBase = false) (c.spendInputs pos nMinFee)) s := by
    unfold doIf
    split
    · exact hspend
    · rfl
  rw [exec_bind, exec_bind]
  rw [show (c.withPool m).tx.isCoinBase = c.tx.isCoinBase from rfl, hdo]
  rfl

theorem connectInputs_missing (hb : c.fBlock = false) (hm : c.fMiner = false) {pos : CDiskTxPos}
    {nMinFee : Int} (hcb : c.tx.isCoinBase = false)
    (hok : (exec (c.connectInputs pos nMinFee) s).1 = .ok ())
    (hfresh : ∀ j, (s.vin.getD j CTxInCache.empty).txPrev = none)
    (hsub : ∀ h, m h = none ∨ m h = c.view.mapTransactions h)
    (hmissing : ∃ txin ∈ c.tx.vin, InPool s.dbset.tx txin.prevout.hash ∧
      m txin.prevout.hash = none) :
    ∃ msg, (exec ((c.withPool m).connectInputs pos nMinFee) s).1 = .error (.reject msg) := by
  have hrun := exec_eta hok
  unfold connectInputs at hrun
  rw [bind_ok] at hrun
  obtain ⟨_, s1, hspend, -⟩ := hrun
  rw [doIf, if_pos hcb, spendInputs, bind_ok] at hspend
  obtain ⟨rs, s2, hvin, -⟩ := hspend
  obtain ⟨msg, herr⟩ := connectVin_missing hb hm hvin (fun j _ => hfresh j) hsub hmissing
  refine ⟨msg, ?_⟩
  unfold connectInputs
  rw [show (c.withPool m).tx.isCoinBase = c.tx.isCoinBase from rfl, doIf, if_pos hcb, spendInputs,
    exec_bind, exec_bind]
  rcases hx : exec ((c.withPool m).connectVin (c.withPool m).tx.vin 0 0) s with ⟨x, t⟩
  have hx' : (exec ((c.withPool m).connectVin c.tx.vin 0 0) s).1 = x := congrArg Prod.fst hx
  rw [herr] at hx'
  subst hx'
  rfl

end Pool

end TxCall

end Namecoin
