import Namecoin.Name.Takeover

namespace Namecoin

def getTxOfName (v : View) (db : DatabaseSet) (vchName : VchType) : Option CTransaction :=
  match (db.readNameOrEmpty vchName).getLast? with
  | none => none
  | some txPos =>
    if txPos.nHeight + getExpirationDepth v.pindexBestHeight < v.pindexBestHeight then none
    else v.disk.readFromDisk txPos.txPos

def takenAt (db : DatabaseSet) (vchName : VchType) (nHeight : Nat) : Bool :=
  decide (0 ≤ getNameHeight db vchName ∧
    (nHeight : Int) - getNameHeight db vchName < getExpirationDepth nHeight)

def isConflictedTx (env : Env) (v : View) (db : DatabaseSet) (tx : CTransaction) :
    Except Fault Bool :=
  if tx.nVersion ≠ namecoinTxVersion then .ok false
  else
    match decodeNameTx env tx v.pindexBestHeight with
    | none => .ok false
    | some d =>
      if d.op = opNameFirstupdate then
        (vchAt d.vvch 0).map (fun vchName => takenAt db vchName v.pindexBestHeight)
      else .ok false

def LiveHead (db : DatabaseSet) (vchName : VchType) (nHeight : Nat) : Prop :=
  ∃ head, (db.readNameOrEmpty vchName).getLast? = some head ∧
    (nHeight : Int) - head.nHeight < getExpirationDepth nHeight

structure OffBoundary (v : View) (db : DatabaseSet) (vchName : VchType) : Prop where
  readable : ∀ head, (db.readNameOrEmpty vchName).getLast? = some head →
    (v.pindexBestHeight : Int) - head.nHeight < getExpirationDepth v.pindexBestHeight →
    (v.disk.readFromDisk head.txPos).isSome
  boundary : ∀ head, (db.readNameOrEmpty vchName).getLast? = some head →
    (v.pindexBestHeight : Int) - head.nHeight = getExpirationDepth v.pindexBestHeight →
    v.disk.readFromDisk head.txPos = none

structure ActiveAgrees (v : View) (db : DatabaseSet) (vchName : VchType) : Prop where
  wallet : (getTxOfName v db vchName).isSome ↔ LiveHead db vchName v.pindexBestHeight
  hook : ∀ (c : NameCall) (s : ConnState) (d : NameTx) (prev : NameScan) (bug : Bool),
    c.nHeight = v.pindexBestHeight → s.dbset = db →
    c.checkFirstupdate s vchName d prev = .ok bug → ¬LiveHead db vchName v.pindexBestHeight
  pending : ∀ (env : Env) (tx : CTransaction) (d : NameTx), tx.nVersion = namecoinTxVersion →
    decodeNameTx env tx v.pindexBestHeight = some d → d.op = opNameFirstupdate →
    d.vvch[0]? = some vchName →
    (isConflictedTx env v db tx = .ok true ↔ LiveHead db vchName v.pindexBestHeight)

theorem takenAt_iff {db : DatabaseSet} {vchName : VchType} {nHeight : Nat} :
    takenAt db vchName nHeight = true ↔ LiveHead db vchName nHeight := by
  unfold takenAt LiveHead getNameHeight
  cases (db.readNameOrEmpty vchName).getLast? with
  | none => simp
  | some head => simp

theorem checkFirstupdate_free {c : NameCall} {s : ConnState} {vchName : VchType} {d : NameTx}
    {prev : NameScan} {bug : Bool} (h : c.checkFirstupdate s vchName d prev = .ok bug) :
    ¬LiveHead s.dbset vchName c.nHeight := by
  simp only [NameCall.checkFirstupdate, Except.bind_eq_ok, Except.raiseIf_eq_ok] at h
  obtain ⟨nNetFee, -, -, -, -, -, vchRand, -, -, -, vchValue, -, -, -, vchHash, -, -, -, -, hfree,
    -⟩ := h
  rw [← takenAt_iff]
  simpa only [takenAt, decide_eq_true_eq] using hfree

theorem isConflictedTx_iff {env : Env} {v : View} {db : DatabaseSet} {tx : CTransaction} {d : NameTx}
    {vchName : VchType} (hversion : tx.nVersion = namecoinTxVersion)
    (hd : decodeNameTx env tx v.pindexBestHeight = some d) (hop : d.op = opNameFirstupdate)
    (hname : d.vvch[0]? = some vchName) :
    isConflictedTx env v db tx = .ok true ↔ LiveHead db vchName v.pindexBestHeight := by
  have hv : vchAt d.vvch 0 = .ok vchName := vchAt_ok.mpr hname
  rw [isConflictedTx, if_neg (not_not.mpr hversion), hd]
  simp only [if_pos hop, hv, Except.map, Except.ok.injEq]
  exact takenAt_iff

theorem getTxOfName_agrees_iff {v : View} {db : DatabaseSet} {vchName : VchType} :
    ((getTxOfName v db vchName).isSome ↔ LiveHead db vchName v.pindexBestHeight) ↔
      OffBoundary v db vchName := by
  unfold getTxOfName LiveHead
  cases hlast : (db.readNameOrEmpty vchName).getLast? with
  | none =>
    simp only [Option.isSome_none, Bool.false_eq_true, reduceCtorEq, false_and, exists_false,
      true_iff]
    exact ⟨by simp [hlast], by simp [hlast]⟩
  | some head =>
    dsimp only
    constructor
    · intro h
      refine ⟨?_, ?_⟩
      · intro head' hhead hlive
        obtain rfl : head = head' := Option.some.inj (hlast.symm.trans hhead)
        have hsome := h.mpr ⟨head, rfl, hlive⟩
        rwa [if_neg (by omega)] at hsome
      · intro head' hhead hedge
        obtain rfl : head = head' := Option.some.inj (hlast.symm.trans hhead)
        rw [if_neg (by omega)] at h
        by_contra hread
        obtain ⟨e, he, hlt⟩ := h.mp (Option.isSome_iff_ne_none.mpr hread)
        obtain rfl : head = e := Option.some.inj he
        omega
    · intro h
      constructor
      · intro hsome
        split at hsome
        · cases hsome
        · rename_i hle
          refine ⟨head, rfl, ?_⟩
          by_contra hge
          have hnone := h.boundary head hlast (by omega)
          rw [hnone] at hsome
          cases hsome
      · rintro ⟨e, he, hlt⟩
        obtain rfl : head = e := Option.some.inj he
        rw [if_neg (by omega)]
        exact h.readable head hlast hlt

theorem active_agrees_iff (v : View) (db : DatabaseSet) (vchName : VchType) :
    ActiveAgrees v db vchName ↔ OffBoundary v db vchName := by
  constructor
  · intro h
    exact getTxOfName_agrees_iff.mp h.wallet
  · intro h
    refine ⟨getTxOfName_agrees_iff.mpr h, ?_, ?_⟩
    · intro c s d prev bug hc hs hok
      rw [← hc, ← hs]
      exact checkFirstupdate_free hok
    · intro env tx d hversion hd hop hname
      exact isConflictedTx_iff hversion hd hop hname

def expiringView : View where
  disk := renewalStart.disk
  mapTransactions := fun _ => none
  nBestHeight := 186000
  pindexBestHeight := 186000
  fCacheTxPrev := false

theorem expired_name_active :
    (getTxOfName expiringView renewalStart.state.dbset [65]).isSome = true ∧
      takenAt renewalStart.state.dbset [65] 186000 = false ∧
      ¬ActiveAgrees expiringView renewalStart.state.dbset [65] := by
  have hactive : (getTxOfName expiringView renewalStart.state.dbset [65]).isSome = true := by
    decide +kernel
  have hfree : takenAt renewalStart.state.dbset [65] 186000 = false := by decide +kernel
  refine ⟨hactive, hfree, ?_⟩
  intro h
  have hlive : takenAt renewalStart.state.dbset [65] 186000 = true :=
    takenAt_iff.mpr (h.wallet.mp hactive)
  rw [hfree] at hlive
  cases hlive

end Namecoin
