import Namecoin.Lib.Mirror
import Namecoin.Chain.Run

namespace Namecoin

open Act

abbrev Pending := VchType → Finset Uint256

def SamePending (s s' : ConnState) : Prop := s'.mapNamePending = s.mapNamePending

theorem samePending_refl (s : ConnState) : SamePending s s := rfl

theorem SamePending.trans {a b c : ConnState} (h : SamePending a b) (h' : SamePending b c) :
    SamePending a c := Eq.trans h' h

theorem SamePending.eq {s s' : ConnState} (h : SamePending s s') :
    s'.mapNamePending = s.mapNamePending := h

theorem unfile_le (hash : Uint256) (m : Pending) (o : Option VchType) :
    Mirror.unfile hash m o ≤ m := by
  intro vchName k hk
  exact (Mirror.mem_unfile.mp hk).2

theorem unfile_eq_self {hash : Uint256} {m : Pending} {vchName : VchType} :
    Mirror.unfile hash m (some vchName) = m ↔ hash ∉ m vchName := by
  constructor
  · intro heq hin
    rw [← heq, Mirror.mem_unfile] at hin
    exact hin.1 ⟨rfl, rfl⟩
  · intro hout
    funext name
    ext k
    rw [Mirror.mem_unfile]
    constructor
    · exact fun h => h.2
    · intro hk
      refine ⟨?_, hk⟩
      rintro ⟨rfl, hname⟩
      obtain rfl := Option.some.inj hname
      exact hout hk

namespace TxCall

variable (c : TxCall)

theorem writeBack_samePending (h : Uint256) (txindex : CTxIndex) :
    Keeps SamePending (c.writeBack h txindex) := by
  intro s
  rw [writeBack, exec_modify, SamePending]
  split
  · rfl
  · split <;> rfl

theorem connectVin_samePending (vin : List CTxIn) (i : Nat) (nValueIn : Int) :
    Keeps SamePending (c.connectVin vin i nValueIn) :=
  connectVin_keeps samePending_refl @SamePending.trans (fun _ _ _ => rfl) c.writeBack_samePending
    vin i nValueIn

theorem tallyFee_samePending (nValueIn nMinFee : Int) :
    Keeps SamePending (c.tallyFee nValueIn nMinFee) :=
  tallyFee_keeps samePending_refl @SamePending.trans (fun _ _ => rfl) nValueIn nMinFee

theorem addTxIndex_samePending (posThisTx : CDiskTxPos) :
    Keeps SamePending (c.addTxIndex posThisTx) := by
  intro s
  rw [addTxIndex, exec_modify, SamePending]
  dsimp only
  split
  · rfl
  · split <;> rfl

end TxCall

namespace NameCall

structure Clears (c : NameCall) (vTxPrev : List CTransaction) (s : ConnState)
    (vchName : VchType) : Prop where
  version : c.tx.nVersion = namecoinTxVersion
  reached : ∃ prev d s', scanNameScripts c.strictScan (prevScripts c.tx vTxPrev) 0
      NameScan.start = some prev ∧
    decodeNameTx c.env c.tx c.nHeight = some d ∧ d.op ≠ opNameNew ∧ d.vvch[0]? = some vchName ∧
    c.checkNameOp s d prev = .ok false ∧ exec (c.writeHistory vchName d prev) s = (.ok (), s')

theorem writeHistory_samePending (c : NameCall) (vchName : VchType) (d : NameTx)
    (prev : NameScan) : Keeps SamePending (c.writeHistory vchName d prev) := by
  refine keeps_bind (R := SamePending) SamePending.trans (keeps_get samePending_refl) (fun s => ?_)
  refine keeps_bind (R := SamePending) SamePending.trans (keeps_fromExcept samePending_refl _)
    (fun bad => ?_)
  split
  · exact keeps_raiseIf samePending_refl _ _
  · refine keeps_bind (R := SamePending) SamePending.trans (keeps_fromExcept samePending_refl _)
      (fun vchValue => ?_)
    exact keeps_modify (fun _ => rfl)

theorem checkNameOp_update {c : NameCall} {s : ConnState} {d : NameTx} {prev : NameScan}
    {bug : Bool} (hb : c.fBlock = true) (h : c.checkNameOp s d prev = .ok bug)
    (hne : d.op ≠ opNameNew) : d.op = opNameFirstupdate ∨ d.op = opNameUpdate := by
  obtain ⟨vchName, -, hop⟩ := checkNameOp_ok hb h
  cases hop with
  | new hnew ok => exact absurd hnew hne
  | firstupdate hfirst ok => exact .inl hfirst
  | update hupdate ok => exact .inr hupdate

variable {c : NameCall} {vTxPrev : List CTransaction} {s : ConnState} {vchName : VchType}

theorem Clears.pending (hb : c.fBlock = true) (h : c.Clears vTxPrev s vchName) :
    (exec (c.connectInputs vTxPrev) s).2.mapNamePending =
      Mirror.unfile (c.tx.getHash c.env) s.mapNamePending (some vchName) := by
  obtain ⟨prev, d, s1, hscan, hd, hne, hname, hcheck, hwrite⟩ := h.reached
  have hop := checkNameOp_update hb hcheck hne
  have hsame : s1.mapNamePending = s.mapNamePending := by
    have hkeep := c.writeHistory_samePending vchName d prev s
    rw [hwrite] at hkeep
    exact hkeep
  obtain ⟨bad, hbad⟩ : ∃ bad, c.badPrevPos (s.dbset.readNameOrEmpty vchName) d prev = .ok bad := by
    simp only [writeHistory, bind_ok, get_ok, fromExcept_ok] at hwrite
    obtain ⟨t, s2, ⟨rfl, rfl⟩, bad, s3, ⟨hbad, -⟩, -⟩ := hwrite
    exact ⟨bad, hbad⟩
  have happly : exec (c.applyNameOp d prev) s = (.ok (), { s1 with
      mapNamePending := Mirror.unfile (c.tx.getHash c.env) s1.mapNamePending (some vchName) }) := by
    simp only [applyNameOp, bind_ok, get_ok, fromExcept_ok, vchAt_ok, raiseIf_ok, doIf_ok, hb,
      true_and]
    exact ⟨s, s, ⟨rfl, rfl⟩, vchName, s, ⟨hname, rfl⟩, bad, s, ⟨hbad, rfl⟩, (), s,
      ⟨by simp, rfl⟩, (), s1, .inl ⟨hop, hwrite⟩, .inl ⟨hne, rfl⟩⟩
  have hrun : exec (c.connectInputs vTxPrev) s = (.ok (), { s1 with
      mapNamePending := Mirror.unfile (c.tx.getHash c.env) s1.mapNamePending (some vchName) }) := by
    unfold connectInputs
    rw [exec_bind_ok (fromOption_ok.mpr ⟨hscan, rfl⟩), if_neg (not_not.mpr h.version),
      exec_bind_ok (fromOption_ok.mpr ⟨hd, rfl⟩), exec_get_bind,
      exec_bind_ok (fromExcept_ok.mpr ⟨hcheck, rfl⟩), doIf, if_pos rfl]
    exact happly
  rw [hrun, hsame]

def Cleared (c : NameCall) (vTxPrev : List CTransaction) (s s' : ConnState) : Prop :=
  s'.mapNamePending = s.mapNamePending ∨ ∃ vchName, c.Clears vTxPrev s vchName ∧
    s'.mapNamePending = Mirror.unfile (c.tx.getHash c.env) s.mapNamePending (some vchName)

theorem connectInputs_cleared (c : NameCall) (vTxPrev : List CTransaction) (s : ConnState) :
    c.Cleared vTxPrev s (exec (c.connectInputs vTxPrev) s).2 := by
  have hstay : c.Cleared vTxPrev s s := .inl rfl
  unfold connectInputs
  refine after_fromOption hstay (fun prev hscan => ?_)
  split
  · refine after_raiseIf hstay (fun _ => ?_)
    exact .inl (keeps_raiseIf samePending_refl _ _ s)
  · next hv =>
    refine after_fromOption hstay (fun d hd => ?_)
    rw [exec_get_bind]
    refine after_fromExcept hstay (fun bug hcheck => ?_)
    cases bug with
    | true => exact hstay
    | false =>
      rw [doIf, if_pos rfl]
      unfold applyNameOp
      rw [exec_get_bind]
      refine after_fromExcept hstay (fun vchName hname => ?_)
      refine after_fromExcept hstay (fun bad _ => ?_)
      refine after_raiseIf hstay (fun _ => ?_)
      have hwrite := c.writeHistory_samePending vchName d prev s
      by_cases hop : c.fBlock = true ∧ (d.op = opNameFirstupdate ∨ d.op = opNameUpdate)
      · rw [doIf, if_pos hop]
        refine exec_bind_after (fun fault s1 h1 => ?_) (fun u s1 h1 => ?_)
        · rw [h1] at hwrite
          exact .inl hwrite
        · rw [h1] at hwrite
          have hne : d.op ≠ opNameNew := by
            rcases hop.2 with hop | hop <;> rw [hop] <;> decide
          rw [doIf, if_pos ⟨hop.1, hne⟩]
          refine .inr ⟨vchName, ⟨not_not.mp hv, prev, d, s1, hscan, hd, hne, vchAt_ok.mp hname,
            hcheck, h1⟩, ?_⟩
          have hsame : s1.mapNamePending = s.mapNamePending := hwrite
          rw [← hsame]
          rfl
      · rw [doIf, if_neg hop, exec_bind_ok (exec_pure () s)]
        have herase : ¬(c.fBlock = true ∧ d.op ≠ opNameNew) := by
          rintro ⟨hb, hne⟩
          exact hop ⟨hb, checkNameOp_update hb hcheck hne⟩
        rw [doIf, if_neg herase]
        exact hstay

end NameCall

namespace BlockCall

structure Clears (c : BlockCall) (tx : CTransaction) (nTxPos : Nat) (s : ConnState)
    (vchName : VchType) : Prop where
  spends : tx.isCoinBase = false
  reached : ∃ rs s', exec ((c.txCall tx).connectVin tx.vin 0 0)
      { s with vin := tx.vin.map (fun _ => CTxInCache.empty) } = (.ok rs, s') ∧
    ((c.txCall tx).nameCall (c.posOf nTxPos) (rs.1.map Prod.snd)).Clears (rs.1.map Prod.fst) s'
      vchName

variable {c : BlockCall} {tx : CTransaction} {nTxPos : Nat} {s : ConnState}

theorem connectTx_eq (c : BlockCall) (tx : CTransaction) (nTxPos : Nat) (s : ConnState) :
    exec (c.connectTx tx nTxPos) s = exec ((c.txCall tx).connectInputs (c.posOf nTxPos) 0)
      { s with vin := tx.vin.map (fun _ => CTxInCache.empty) } := exec_modify_bind _ _ _

theorem Clears.pending {vchName : VchType} (h : c.Clears tx nTxPos s vchName) :
    (exec (c.connectTx tx nTxPos) s).2.mapNamePending =
      Mirror.unfile (tx.getHash c.env) s.mapNamePending (some vchName) := by
  obtain ⟨rs, s1, hvin, hclears⟩ := h.reached
  have hsame : s1.mapNamePending = s.mapNamePending := by
    have hkeep := (c.txCall tx).connectVin_samePending tx.vin 0 0
      { s with vin := tx.vin.map (fun _ => CTxInCache.empty) }
    rw [hvin] at hkeep
    exact hkeep
  have hhook := hclears.pending rfl
  rw [hsame] at hhook
  have hcb : (c.txCall tx).tx.isCoinBase = false := h.spends
  have hspend : (exec ((c.txCall tx).spendInputs (c.posOf nTxPos) 0)
      { s with vin := tx.vin.map (fun _ => CTxInCache.empty) }).2.mapNamePending =
      Mirror.unfile (tx.getHash c.env) s.mapNamePending (some vchName) := by
    unfold TxCall.spendInputs
    have hvin' : exec ((c.txCall tx).connectVin (c.txCall tx).tx.vin 0 0)
      { s with vin := tx.vin.map (fun _ => CTxInCache.empty) } = (.ok rs, s1) := hvin
    rw [exec_bind_ok hvin']
    refine Eq.trans ?_ hhook
    exact SamePending.eq (bind_tail samePending_refl
      (fun _ => (c.txCall tx).tallyFee_samePending rs.2 0) s1)
  rw [connectTx_eq]
  unfold TxCall.connectInputs
  rw [doIf, if_pos hcb]
  refine Eq.trans ?_ hspend
  exact SamePending.eq (bind_tail samePending_refl
    (fun _ => (c.txCall tx).addTxIndex_samePending (c.posOf nTxPos)) _)

def Cleared (c : BlockCall) (tx : CTransaction) (nTxPos : Nat) (s s' : ConnState) : Prop :=
  s'.mapNamePending = s.mapNamePending ∨ ∃ vchName, c.Clears tx nTxPos s vchName ∧
    s'.mapNamePending = Mirror.unfile (tx.getHash c.env) s.mapNamePending (some vchName)

theorem Cleared.samePending {s1 s2 : ConnState} (h : c.Cleared tx nTxPos s s1)
    (h' : SamePending s1 s2) : c.Cleared tx nTxPos s s2 := by
  have heq : s2.mapNamePending = s1.mapNamePending := h'
  unfold Cleared
  rw [heq]
  exact h

theorem connectTx_cleared (c : BlockCall) (tx : CTransaction) (nTxPos : Nat) (s : ConnState) :
    c.Cleared tx nTxPos s (exec (c.connectTx tx nTxPos) s).2 := by
  have hspend : tx.isCoinBase = false → c.Cleared tx nTxPos s
      (exec ((c.txCall tx).spendInputs (c.posOf nTxPos) 0)
        { s with vin := tx.vin.map (fun _ => CTxInCache.empty) }).2 := by
    intro hcb
    have hvin := (c.txCall tx).connectVin_samePending tx.vin 0 0
      { s with vin := tx.vin.map (fun _ => CTxInCache.empty) }
    unfold TxCall.spendInputs
    refine exec_bind_after (fun fault s1 h1 => ?_) (fun rs s1 h1 => ?_)
    · have h1' : exec ((c.txCall tx).connectVin tx.vin 0 0)
        { s with vin := tx.vin.map (fun _ => CTxInCache.empty) } = (.error fault, s1) := h1
      rw [h1'] at hvin
      exact .inl hvin
    · have h1' : exec ((c.txCall tx).connectVin tx.vin 0 0)
        { s with vin := tx.vin.map (fun _ => CTxInCache.empty) } = (.ok rs, s1) := h1
      rw [h1'] at hvin
      have hsame : s1.mapNamePending = s.mapNamePending := hvin
      have hhook : c.Cleared tx nTxPos s (exec (((c.txCall tx).nameCall (c.posOf nTxPos)
          (rs.1.map Prod.snd)).connectInputs (rs.1.map Prod.fst)) s1).2 := by
        rcases NameCall.connectInputs_cleared _ _ s1 with heq | ⟨vchName, hclears, heq⟩
        · exact .inl (heq.trans hsame)
        · rw [hsame] at heq
          exact .inr ⟨vchName, ⟨hcb, rs, s1, h1', hclears⟩, heq⟩
      exact hhook.samePending
        (bind_tail samePending_refl (fun _ => (c.txCall tx).tallyFee_samePending rs.2 0) s1)
  rw [connectTx_eq]
  unfold TxCall.connectInputs
  by_cases hcb : (c.txCall tx).tx.isCoinBase = false
  · rw [doIf, if_pos hcb]
    exact (hspend hcb).samePending (bind_tail samePending_refl
      (fun _ => (c.txCall tx).addTxIndex_samePending (c.posOf nTxPos)) _)
  · rw [doIf, if_neg hcb, exec_bind_ok (exec_pure () _)]
    exact .inl ((c.txCall tx).addTxIndex_samePending (c.posOf nTxPos) _)

theorem connectTx_le (c : BlockCall) (tx : CTransaction) (nTxPos : Nat) :
    Keeps (Falls ConnState.mapNamePending) (c.connectTx tx nTxPos) := by
  intro s
  rcases connectTx_cleared c tx nTxPos s with heq | ⟨vchName, -, heq⟩
  · exact le_of_eq heq
  · rw [Falls, heq]
    exact unfile_le _ _ _

theorem connectTx_stationary (c : BlockCall) (tx : CTransaction) (nTxPos : Nat) (s : ConnState) :
    (exec (c.connectTx tx nTxPos) s).2.mapNamePending = s.mapNamePending ↔
      ∀ vchName, c.Clears tx nTxPos s vchName → tx.getHash c.env ∉ s.mapNamePending vchName := by
  constructor
  · intro heq vchName hclears
    rw [hclears.pending, unfile_eq_self] at heq
    exact heq
  · intro h
    rcases connectTx_cleared c tx nTxPos s with heq | ⟨vchName, hclears, heq⟩
    · exact heq
    · rw [heq, unfile_eq_self]
      exact h vchName hclears

theorem connectTxs_le (c : BlockCall) (txs : List CTransaction) (nTxPos : Nat) :
    Keeps (Falls ConnState.mapNamePending) (c.connectTxs txs nTxPos) := by
  induction txs generalizing nTxPos with
  | nil => exact keeps_pure falls_refl ()
  | cons tx rest ih => exact keeps_bind Falls.trans (c.connectTx_le tx nTxPos) (fun _ => ih _)

theorem connectTxs_stationary (c : BlockCall) (txs : List CTransaction) (nTxPos : Nat)
    (s : ConnState) :
    (exec (c.connectTxs txs nTxPos) s).2.mapNamePending = s.mapNamePending ↔
      c.Along (fun tx nTxPos s1 => ∀ vchName, c.Clears tx nTxPos s1 vchName →
        tx.getHash c.env ∉ s.mapNamePending vchName) txs nTxPos s := by
  generalize hm : s.mapNamePending = m
  induction txs generalizing nTxPos s with
  | nil => exact iff_of_true hm trivial
  | cons tx rest ih =>
    subst hm
    have hsplit := bind_stationary (c.connectTx_le tx nTxPos)
      (fun _ => c.connectTxs_le rest (nTxPos + tx.getSerializeSize)) s
    rw [connectTxs, hsplit, Along, connectTx_stationary]
    refine and_congr_right (fun hfirst => ?_)
    have hkept := (connectTx_stationary c tx nTxPos s).mpr hfirst
    constructor
    · intro h s1 h1
      rw [h1] at hkept
      exact (ih _ s1 hkept).mp (h () s1 h1)
    · intro h u s1 h1
      rw [h1] at hkept
      exact (ih _ s1 hkept).mpr (h s1 h1)

end BlockCall

end Namecoin
