import Namecoin.Node.SpendMap
import Namecoin.Wallet.Prepared

namespace Namecoin

open Std (TreeMap)

structure Registration where
  vchName : VchType
  hex : Uint256
  rand : Nat

structure Registration.Claims (r : Registration) (env : Env) (tx : CTransaction) : Prop where
  spends : ∃ txin ∈ tx.vin, txin.prevout.hash = r.hex
  reveals : ∃ txout ∈ tx.vout, ∃ vchValue vchPubKey,
    txout.scriptPubKey = firstUpdateScriptPubKey env r.rand r.vchName vchValue vchPubKey

structure WalletModel.Prepared {e : NodeEnv} (m : WalletModel e) (r : Registration) : Prop where
  entry : ∃ prep, m.mapMyNameFirstUpdate[r.vchName]? = some prep ∧ prep.rand = r.rand ∧
    r.Claims e.env prep.wtx.merkle.tx
  record : ∃ rec, m.walletdb[r.vchName]? = some rec ∧ rec.hex = r.hex ∧ rec.rand = r.rand

structure NameSession (e : NodeEnv) where
  model : WalletModel e
  registered : List Registration
  accepted : List CTransaction

inductive NameEvent (e : NodeEnv) where
  | nameNew (inp : NameNewInput)
  | nameFirstUpdatePrepare (vchName vchValue : VchType) (inp : FirstUpdateInput)
  | sendPendingNameFirstUpdates (fRateLimited : VchType → Bool)
  | chain (s : NodeState) (w : Wallet e.env)

namespace NameSession

variable {e : NodeEnv} (g : GuiEnv e)

def Released (l : NameSession e) (r : Registration) : Prop := ∃ tx ∈ l.accepted, r.Claims e.env tx

def step (l : NameSession e) : NameEvent e → Except Fault (NameSession e)
  | .nameNew inp => do
    let (ret, m) ← l.model.nameNew g inp
    if ret.ok then return ⟨m, ⟨ret.vchName, ret.hex, ret.rand⟩ :: l.registered, l.accepted⟩
    return ⟨m, l.registered, l.accepted⟩
  | .nameFirstUpdatePrepare vchName vchValue inp => do
    let (_, m) ← l.model.nameFirstUpdatePrepare g vchName vchValue inp
    return ⟨m, l.registered, l.accepted⟩
  | .sendPendingNameFirstUpdates fRateLimited => do
    let (log, m) ← l.model.sendPendingNameFirstUpdates fRateLimited
    return ⟨m, l.registered, (log.filter (fun x => x.fAccepted)).map (fun x => x.tx) ++ l.accepted⟩
  | .chain s w =>
    .ok { l with
      model := { l.model with
        node := s
        wallet := w } }

def Happens (l : NameSession e) : NameEvent e → Prop
  | .chain _ w => l.model.wallet.Keeps w
  | _ => True

inductive Run (l0 : NameSession e) : List (NameEvent e) → NameSession e → Prop
  | start : Run l0 [] l0
  | next {events : List (NameEvent e)} {l l' : NameSession e} {event : NameEvent e}
      (run : Run l0 events l) (happens : l.Happens event) (step : l.step g event = .ok l') :
      Run l0 (events ++ [event]) l'

end NameSession

namespace WalletModel

variable {e : NodeEnv}

def SendsAccepted (due : VchType → Prop) (fRateLimited : VchType → Bool) :
    List (VchType × PreparedNameFirstUpdate) → WalletModel e → Prop
  | [], _ => True
  | (vchName, prep) :: rest, m =>
    match (m.mapMyNames[vchName]?).bind (fun hash => m.wallet.mapWallet[hash]?) with
    | none => SendsAccepted due fRateLimited rest (m.eraseFirstUpdate vchName)
    | some wtxIn =>
      if wtxIn.getDepthInMainChain e m.node < minFirstupdateDepth then
        SendsAccepted due fRateLimited rest m
      else
        (due vchName →
          (Act.exec (acceptToMemoryPool e prep.wtx.merkle.tx true true (fRateLimited vchName))
            m.node).1 = .ok ()) ∧
        ∀ fAccepted w s,
          m.wallet.commitTransaction e (fRateLimited vchName) prep.wtx m.node =
            .ok (fAccepted, w, s) →
          SendsAccepted due fRateLimited rest
            ({ m with
              wallet := w
              node := s }.eraseFirstUpdate vchName)

end WalletModel

namespace NameSession

variable {e : NodeEnv} (g : GuiEnv e)

def Waiting (l : NameSession e) (vchName : VchType) : Prop :=
  ∃ r ∈ l.registered, r.vchName = vchName ∧ ¬l.Released r

def Safe (l : NameSession e) : NameEvent e → Prop
  | .nameNew inp => ¬l.Waiting inp.vchName
  | .sendPendingNameFirstUpdates fRateLimited =>
    WalletModel.SendsAccepted l.Waiting fRateLimited l.model.mapMyNameFirstUpdate.toList l.model
  | _ => True

inductive SafeRun (l0 : NameSession e) : List (NameEvent e) → NameSession e → Prop
  | start : SafeRun l0 [] l0
  | next {events : List (NameEvent e)} {l l' : NameSession e} {event : NameEvent e}
      (run : SafeRun l0 events l) (happens : l.Happens event) (safe : l.Safe event)
      (step : l.step g event = .ok l') : SafeRun l0 (events ++ [event]) l'

end NameSession

section Created

variable {env : Env} {c : SendEnv} {ks : CKeyStore} {tx tx' : CTransaction}

theorem signSignature_vout {fromPubKey : CScript} {nIn nHashType : Nat}
    (h : signSignature env c ks fromPubKey tx nIn nHashType = some tx') : tx'.vout = tx.vout := by
  unfold signSignature at h
  dsimp only at h
  split at h
  · cases h
    rfl
  · cases h

theorem signInputs_vout {coins : List Input} {nIn : Nat}
    (h : signInputs env c ks coins nIn tx = .ok (some tx')) : tx'.vout = tx.vout := by
  induction coins generalizing nIn tx with
  | nil =>
    cases h
    rfl
  | cons coin rest ih =>
    simp only [signInputs] at h
    split at h
    · cases h
    · split at h
      · cases h
      · rename_i txSigned hsign
        rw [ih h]
        exact signSignature_vout hsign

variable {w : Wallet env} {e : NodeEnv} {s : NodeState} {vecSend : List (CScript × Int)}
  {ch : Choices} {wtxNew : CTransaction}

theorem mem_insertIdx {α : Type} {l : List α} {a b : α} (n : Nat) (h : a ∈ l) :
    a ∈ l.insertIdx n b := by
  rcases Nat.lt_or_ge l.length n with hlt | hle
  · rwa [List.insertIdx_of_length_lt hlt]
  · exact (List.mem_insertIdx hle).mpr (.inr h)

theorem fillVout_pays {nChange : Int} {vout : List CTxOut} (h : w.fillVout vecSend ch nChange = .ok vout)
    {p : CScript × Int} (hp : p ∈ vecSend) : CTxOut.mk p.2 p.1 ∈ vout := by
  have hmap : CTxOut.mk p.2 p.1 ∈ vecSend.map (fun s => CTxOut.mk s.2 s.1) :=
    List.mem_map.mpr ⟨p, hp, rfl⟩
  unfold Wallet.fillVout at h
  dsimp only at h
  split at h
  · cases h
    exact hmap
  · obtain ⟨vchPubKey, -, h⟩ := Except.bind_eq_ok.mp h
    obtain ⟨-, -, h⟩ := Except.bind_eq_ok.mp h
    cases h
    exact mem_insertIdx _ hmap

theorem assemble_vout {nMaxBytes : Nat} {nFeeRet nTotalValue nValueIn : Int} {vecCoins : List Input}
    (h : w.assemble e s c vecSend wtxNew ch nMaxBytes nFeeRet nTotalValue nValueIn vecCoins =
      .ok (.done tx)) : w.fillVout vecSend ch (nValueIn - nTotalValue) = .ok tx.vout := by
  obtain ⟨vout, hvout, hsigned⟩ := Wallet.assemble_done h
  rw [signInputs_vout hsigned]
  exact hvout

theorem createTransactionWithInputTx_vout {wtxIn : WalletTx} {nTxOut fuel : Nat}
    {chs : Nat → Choices}
    (h : w.createTransactionWithInputTx e s fuel c vecSend wtxIn nTxOut wtxNew chs =
      .ok (some tx)) : ∃ ch nChange, w.fillVout vecSend ch nChange = .ok tx.vout := by
  obtain ⟨k, nValue, nFeeRet, hround⟩ := Wallet.createTransactionWithInputTx_round h
  obtain ⟨txout, setCoins, nValueIn, -, -, hdone⟩ := Wallet.createRoundWithInputTx_done hround
  exact ⟨_, _, assemble_vout hdone⟩

theorem createTransactionWithInputTx_pays {wtxIn : WalletTx} {nTxOut fuel : Nat}
    {chs : Nat → Choices}
    (h : w.createTransactionWithInputTx e s fuel c vecSend wtxIn nTxOut wtxNew chs =
      .ok (some tx)) {p : CScript × Int} (hp : p ∈ vecSend) : CTxOut.mk p.2 p.1 ∈ tx.vout := by
  obtain ⟨ch, nChange, hvout⟩ := createTransactionWithInputTx_vout h
  exact fillVout_pays hvout hp

end Created

namespace WalletModel

variable {e : NodeEnv} {g : GuiEnv e} {m m' : WalletModel e} {vchName vchValue : VchType}
  {wtxIn wtx : WalletTx} {rand : Nat} {inp : FirstUpdateInput} {nFee : Int}

theorem createFirstUpdate_claims
    (h : m.createFirstUpdate g vchName wtxIn rand vchValue inp = .ok (.ok (wtx, nFee))) :
    Registration.Claims ⟨vchName, wtxIn.merkle.tx.getHash e.env, rand⟩ e.env wtx.merkle.tx := by
  obtain ⟨nTxOut, -, h⟩ := Except.bind_eq_ok.mp h
  obtain ⟨nFeeRequired, -, h⟩ := Except.bind_eq_ok.mp h
  obtain ⟨created, hcreated, h⟩ := Except.bind_eq_ok.mp h
  cases created with
  | none =>
    obtain ⟨nBalance, -, h⟩ := Except.bind_eq_ok.mp h
    cases h
  | some tx =>
    obtain ⟨setCoins, rest, hprev, -⟩ := Wallet.createTransactionWithInputTx_prevouts hcreated
    have hpays := createTransactionWithInputTx_pays hcreated List.mem_cons_self
    have hfirst : Input.outPoint e.env (wtxIn, nTxOut) ∈ tx.vin.map CTxIn.prevout := by
      have hmem : Input.outPoint e.env (wtxIn, nTxOut) ∈ tx.prevouts := by
        rw [hprev]
        exact List.mem_cons_self
      exact hmem
    obtain ⟨txin, hin, hpoint⟩ := List.mem_map.mp hfirst
    have hclaims : Registration.Claims ⟨vchName, wtxIn.merkle.tx.getHash e.env, rand⟩ e.env tx :=
      ⟨⟨txin, hin, congrArg COutPoint.hash hpoint⟩, _, hpays, vchValue, inp.vchPubKey, rfl⟩
    dsimp only at h
    split at h
    · cases h
      exact hclaims
    · cases h
    · cases h

theorem nameFirstUpdateCreateTx_claims
    (h : m.nameFirstUpdateCreateTx g vchName wtxIn rand vchValue inp = .ok (.ok (wtx, nFee))) :
    Registration.Claims ⟨vchName, wtxIn.merkle.tx.getHash e.env, rand⟩ e.env wtx.merkle.tx := by
  unfold nameFirstUpdateCreateTx at h
  split at h
  · cases h
  · split at h
    · cases h
    · obtain ⟨scan, -, h⟩ := Except.bind_eq_ok.mp h
      split at h
      · cases h
      · cases h
      · split at h
        · cases h
        · exact createFirstUpdate_claims h

theorem nameNewPass_claims {inp : NameNewInput} {pass : Nat} {nPrevFee : Int} {prep : WalletTx}
    (h : m.nameNewPass g inp pass nPrevFee = .ok (.ok (wtx, prep, nFee))) :
    Registration.Claims ⟨inp.vchName, wtx.merkle.tx.getHash e.env, inp.rand⟩ e.env
      prep.merkle.tx := by
  obtain ⟨sent, -, h⟩ := Except.bind_eq_ok.mp h
  cases sent with
  | error strError => cases h
  | ok tx =>
    obtain ⟨created, hcreated, h⟩ := Except.bind_eq_ok.mp h
    cases created with
    | error strError => cases h
    | ok r =>
      cases h
      exact nameFirstUpdateCreateTx_claims hcreated

theorem nameNewDraft_claims {inp : NameNewInput} {prep : WalletTx}
    (h : m.nameNewDraft g inp = .ok (.ok (wtx, prep))) :
    Registration.Claims ⟨inp.vchName, wtx.merkle.tx.getHash e.env, inp.rand⟩ e.env
      prep.merkle.tx := by
  obtain ⟨first, hfirst, h⟩ := Except.bind_eq_ok.mp h
  cases first with
  | error strError => cases h
  | ok r =>
    obtain ⟨wtx1, prep1, nFee1⟩ := r
    dsimp only at h
    split at h
    · cases h
      exact nameNewPass_claims hfirst
    · obtain ⟨second, hsecond, h⟩ := Except.bind_eq_ok.mp h
      cases second with
      | error strError => cases h
      | ok r =>
        cases h
        exact nameNewPass_claims hsecond

structure Kept (m : WalletModel e) (accepted : List CTransaction) (r : Registration) : Prop where
  holds : m.wallet.Holds r.hex
  waits : (∃ tx ∈ accepted, r.Claims e.env tx) ∨
    (m.Prepared r ∧ m.mapMyNames[r.vchName]? = some r.hex)

variable {accepted : List CTransaction} {r : Registration}

theorem Prepared.eraseFirstUpdate (h : m.Prepared r) (hne : r.vchName ≠ vchName) :
    (m.eraseFirstUpdate vchName).Prepared r := by
  have hcmp : compare vchName r.vchName ≠ .eq :=
    fun heq => hne (Std.LawfulEqCmp.compare_eq_iff_eq.mp heq).symm
  obtain ⟨⟨prep, hprep, hclaims⟩, record, hrecord, hfields⟩ := h
  refine ⟨⟨prep, ?_, hclaims⟩, record, ?_, hfields⟩
  · simp only [WalletModel.eraseFirstUpdate, TreeMap.getElem?_erase, if_neg hcmp, hprep]
  · simp only [WalletModel.eraseFirstUpdate, TreeMap.getElem?_erase, if_neg hcmp, hrecord]

theorem Kept.eraseFirstUpdate (h : m.Kept accepted r)
    (hown : r.vchName = vchName → ∃ tx ∈ accepted, r.Claims e.env tx) :
    (m.eraseFirstUpdate vchName).Kept accepted r := by
  refine ⟨h.holds, ?_⟩
  rcases h.waits with hreleased | ⟨hprep, hname⟩
  · exact .inl hreleased
  · by_cases heq : r.vchName = vchName
    · exact .inl (hown heq)
    · exact .inr ⟨hprep.eraseFirstUpdate heq, hname⟩

theorem Kept.eraseUnsent (h : m.Kept accepted r)
    (hgone : ∀ hash, m.mapMyNames[vchName]? = some hash → m.wallet.mapWallet[hash]? = none) :
    (m.eraseFirstUpdate vchName).Kept accepted r := by
  refine h.eraseFirstUpdate ?_
  rintro rfl
  rcases h.waits with hreleased | ⟨-, hname⟩
  · exact hreleased
  · have hholds := h.holds
    unfold Wallet.Holds at hholds
    rw [hgone r.hex hname] at hholds
    cases hholds

theorem Kept.change (h : m.Kept accepted r) {w : Wallet e.env} {s : NodeState}
    (hkeeps : m.wallet.Keeps w) :
    ({ m with
      wallet := w
      node := s } : WalletModel e).Kept accepted r :=
  ⟨hkeeps _ h.holds, h.waits.imp_right (fun hp => ⟨⟨hp.1.entry, hp.1.record⟩, hp.2⟩)⟩

theorem Kept.grow (h : m.Kept accepted r) {accepted' : List CTransaction}
    (hsub : accepted ⊆ accepted') : m.Kept accepted' r := by
  refine ⟨h.holds, h.waits.imp_left ?_⟩
  rintro ⟨tx, hmem, hclaims⟩
  exact ⟨tx, hsub hmem, hclaims⟩

def Listed (m : WalletModel e) (l : List (VchType × PreparedNameFirstUpdate)) : Prop :=
  ∀ p ∈ l, m.mapMyNameFirstUpdate[p.1]? = some p.2

theorem Listed.eraseFirstUpdate {prep : PreparedNameFirstUpdate}
    {rest : List (VchType × PreparedNameFirstUpdate)} (h : m.Listed ((vchName, prep) :: rest))
    (hnodup : (((vchName, prep) :: rest).map Prod.fst).Nodup) :
    (m.eraseFirstUpdate vchName).Listed rest := by
  intro p hp
  have hne : compare vchName p.1 ≠ .eq := by
    intro heq
    rw [Std.LawfulEqCmp.compare_eq_iff_eq.mp heq] at hnodup
    exact (List.nodup_cons.mp hnodup).1 (List.mem_map.mpr ⟨p, hp, rfl⟩)
  simp only [WalletModel.eraseFirstUpdate, TreeMap.getElem?_erase, if_neg hne]
  exact h p (List.mem_cons_of_mem _ hp)

def acceptedIn (log : List Sent) : List CTransaction :=
  (log.filter (fun x => x.fAccepted)).map (fun x => x.tx)

theorem acceptedIn_cons (x : Sent) (log : List Sent) :
    acceptedIn (x :: log) = acceptedIn [x] ++ acceptedIn log := by
  rw [acceptedIn, acceptedIn, acceptedIn, ← List.map_append, ← List.filter_append]
  rfl

section Send

variable {due : VchType → Prop} {fRateLimited : VchType → Bool} {registered : List Registration}
  {log : List Sent}

theorem Kept.sent (h : m.Kept accepted r) {x : Sent} {prep : PreparedNameFirstUpdate}
    {w : Wallet e.env} {s : NodeState} (hthis : m.mapMyNameFirstUpdate[x.vchName]? = some prep)
    (htx : x.tx = prep.wtx.merkle.tx) (hkeeps : m.wallet.Keeps w)
    (haccept : r.vchName = x.vchName → (∃ tx ∈ accepted, r.Claims e.env tx) ∨ x.fAccepted = true) :
    (({ m with
      wallet := w
      node := s } : WalletModel e).eraseFirstUpdate x.vchName).Kept
      (acceptedIn [x] ++ accepted) r := by
  have hgrown : m.Kept (acceptedIn [x] ++ accepted) r := h.grow (List.subset_append_right _ _)
  refine (hgrown.change hkeeps).eraseFirstUpdate ?_
  intro heq
  have hold : (∃ tx ∈ accepted, r.Claims e.env tx) →
      ∃ tx ∈ acceptedIn [x] ++ accepted, r.Claims e.env tx := by
    rintro ⟨tx, hmem, hclaims⟩
    exact ⟨tx, List.mem_append_right _ hmem, hclaims⟩
  rcases haccept heq with hreleased | hok
  · exact hold hreleased
  · rcases h.waits with hreleased | ⟨hprep, -⟩
    · exact hold hreleased
    · obtain ⟨prep', hprep', -, hclaims⟩ := hprep.entry
      rw [heq, hthis] at hprep'
      cases hprep'
      refine ⟨x.tx, ?_, by rwa [htx]⟩
      simp [acceptedIn, hok]

theorem sendPending_kept {l : List (VchType × PreparedNameFirstUpdate)}
    (hdue : ∀ r ∈ registered, (∃ tx ∈ accepted, r.Claims e.env tx) ∨ due r.vchName)
    (hlisted : m.Listed l) (hnodup : (l.map Prod.fst).Nodup)
    (hsends : SendsAccepted due fRateLimited l m) (hkept : ∀ r ∈ registered, m.Kept accepted r)
    (h : sendPending fRateLimited l m = .ok (log, m')) :
    ∀ r ∈ registered, m'.Kept (acceptedIn log ++ accepted) r := by
  induction l generalizing m accepted log with
  | nil =>
    cases h
    exact hkept
  | cons p rest ih =>
    obtain ⟨vchName, prep⟩ := p
    have hrest := (List.nodup_cons.mp hnodup).2
    have herased := hlisted.eraseFirstUpdate hnodup
    unfold sendPending at h
    unfold SendsAccepted at hsends
    cases hname : m.mapMyNames[vchName]? with
    | none =>
      simp only [hname, Option.bind_none] at h hsends
      refine ih hdue herased hrest hsends (fun r hr => (hkept r hr).eraseUnsent ?_) h
      intro hash hhash
      rw [hname] at hhash
      cases hhash
    | some wtxInHash =>
      simp only [hname, Option.bind_some] at h hsends
      cases htx : m.wallet.mapWallet[wtxInHash]? with
      | none =>
        simp only [htx] at h hsends
        refine ih hdue herased hrest hsends (fun r hr => (hkept r hr).eraseUnsent ?_) h
        intro hash hhash
        rw [hname] at hhash
        cases hhash
        exact htx
      | some wtxIn =>
        simp only [htx] at h hsends
        split at h
        · rename_i hdepth
          rw [if_pos hdepth] at hsends
          exact ih hdue (fun q hq => hlisted q (List.mem_cons_of_mem _ hq)) hrest hsends hkept h
        · rename_i hdepth
          rw [if_neg hdepth] at hsends
          obtain ⟨⟨fAccepted, w, s⟩, hcommit, h⟩ := Except.bind_eq_ok.mp h
          obtain ⟨⟨log', m1⟩, hloop, h⟩ := Except.bind_eq_ok.mp h
          cases h
          obtain ⟨hkeeps, -⟩ := Wallet.commitTransaction_keeps hcommit
          let x : Sent :=
            ⟨vchName, prep.rand, wtxInHash, prep.vchData, prep.wtx.merkle.tx, fAccepted⟩
          have hround : ∀ r ∈ registered, (({ m with
              wallet := w
              node := s } : WalletModel e).eraseFirstUpdate vchName).Kept
              (acceptedIn [x] ++ accepted) r := by
            intro r hr
            refine (hkept r hr).sent (x := x) (hlisted _ List.mem_cons_self) rfl hkeeps ?_
            intro heq
            refine (hdue r hr).imp_right ?_
            intro hdue'
            rw [heq] at hdue'
            exact Wallet.commitTransaction_accepted hcommit (hsends.1 hdue')
          have hdue' : ∀ r ∈ registered,
              (∃ tx ∈ acceptedIn [x] ++ accepted, r.Claims e.env tx) ∨ due r.vchName := by
            intro r hr
            refine (hdue r hr).imp_left ?_
            rintro ⟨tx, hmem, hclaims⟩
            exact ⟨tx, List.mem_append_right _ hmem, hclaims⟩
          have hlater := ih hdue' (m := ({ m with
              wallet := w
              node := s } : WalletModel e).eraseFirstUpdate vchName) herased hrest
            (hsends.2 _ _ _ hcommit) hround hloop
          intro r hr
          refine (hlater r hr).grow ?_
          rw [acceptedIn_cons x log', List.append_assoc]
          intro tx hmem
          simp only [List.mem_append] at hmem ⊢
          tauto

end Send

theorem Prepared.insert (h : m.Prepared r) (hne : r.vchName ≠ vchName)
    {prep : PreparedNameFirstUpdate} {record : FirstUpdateRecord}
    (hmap : m'.mapMyNameFirstUpdate = m.mapMyNameFirstUpdate.insert vchName prep)
    (hdb : m'.walletdb = m.walletdb.insert vchName record) : m'.Prepared r := by
  have hcmp : compare vchName r.vchName ≠ .eq :=
    fun heq => hne (Std.LawfulEqCmp.compare_eq_iff_eq.mp heq).symm
  obtain ⟨⟨prep', hprep, hclaims⟩, record', hrecord, hfields⟩ := h
  refine ⟨⟨prep', ?_, hclaims⟩, record', ?_, hfields⟩
  · rw [hmap, TreeMap.getElem?_insert, if_neg hcmp, hprep]
  · rw [hdb, TreeMap.getElem?_insert, if_neg hcmp, hrecord]

theorem prepared_of_insert {prep : PreparedNameFirstUpdate} {record : FirstUpdateRecord}
    (hmap : m'.mapMyNameFirstUpdate = m.mapMyNameFirstUpdate.insert r.vchName prep)
    (hdb : m'.walletdb = m.walletdb.insert r.vchName record) (hrand : prep.rand = r.rand)
    (hclaims : r.Claims e.env prep.wtx.merkle.tx) (hrecord : record.hex = r.hex)
    (hrecordRand : record.rand = r.rand) : m'.Prepared r := by
  refine ⟨⟨prep, ?_, hrand, hclaims⟩, record, ?_, hrecord, hrecordRand⟩
  · rw [hmap, TreeMap.getElem?_insert_self]
  · rw [hdb, TreeMap.getElem?_insert_self]

structure Untouched (m m' : WalletModel e) : Prop where
  keeps : m.wallet.Keeps m'.wallet
  names : m'.mapMyNames = m.mapMyNames
  entries : m'.mapMyNameFirstUpdate = m.mapMyNameFirstUpdate
  records : m'.walletdb = m.walletdb

theorem Kept.untouched (h : m.Kept accepted r) (hsame : m.Untouched m') : m'.Kept accepted r := by
  refine ⟨hsame.keeps _ h.holds, h.waits.imp_right ?_⟩
  rintro ⟨hprep, hname⟩
  refine ⟨⟨?_, ?_⟩, ?_⟩
  · rw [hsame.entries]
    exact hprep.entry
  · rw [hsame.records]
    exact hprep.record
  · rw [hsame.names]
    exact hname

structure Registers (m : WalletModel e) (inp : NameNewInput) (ret : NameNewReturn)
    (m' : WalletModel e) : Prop where
  keeps : m.wallet.Keeps m'.wallet
  holds : m'.wallet.Holds ret.hex
  name : ret.vchName = inp.vchName
  rand : ret.rand = inp.rand
  names : m'.mapMyNames = m.mapMyNames.insert inp.vchName ret.hex
  entries : ∃ prepTx, Registration.Claims ⟨inp.vchName, ret.hex, inp.rand⟩ e.env prepTx.merkle.tx ∧
    m'.mapMyNameFirstUpdate = m.mapMyNameFirstUpdate.insert inp.vchName ⟨inp.rand, [], prepTx⟩
  records : ∃ written,
    m'.walletdb = m.walletdb.insert inp.vchName ⟨ret.hex, inp.rand, [], written⟩

theorem nameNew_cases {inp : NameNewInput} {ret : NameNewReturn}
    (h : m.nameNew g inp = .ok (ret, m')) :
    (ret.ok = false ∧ m.Untouched m') ∨ (ret.ok = true ∧ m.Registers inp ret m') := by
  obtain ⟨draft, hdraft, h⟩ := Except.bind_eq_ok.mp h
  cases draft with
  | error strError =>
    cases h
    exact .inl ⟨rfl, fun _ hw => hw, rfl, rfl, rfl⟩
  | ok r =>
    obtain ⟨wtx, prepTx⟩ := r
    obtain ⟨⟨fOk, w, s⟩, hcommit, h⟩ := Except.bind_eq_ok.mp h
    obtain ⟨hkeeps, hholds⟩ := Wallet.commitTransaction_keeps hcommit
    have hclaims := nameNewDraft_claims hdraft
    cases fOk with
    | false =>
      cases h
      exact .inl ⟨rfl, hkeeps, rfl, rfl, rfl⟩
    | true =>
      cases h
      exact .inr ⟨rfl, hkeeps, hholds, rfl, rfl, rfl, ⟨prepTx, hclaims, rfl⟩, _, rfl⟩

theorem Registers.kept {inp : NameNewInput} {ret : NameNewReturn} (hreg : m.Registers inp ret m')
    (h : m.Kept accepted r)
    (hfree : r.vchName = inp.vchName → ∃ tx ∈ accepted, r.Claims e.env tx) : m'.Kept accepted r := by
  refine ⟨hreg.keeps _ h.holds, ?_⟩
  rcases h.waits with hreleased | ⟨hprep, hname⟩
  · exact .inl hreleased
  · by_cases heq : r.vchName = inp.vchName
    · exact .inl (hfree heq)
    · obtain ⟨prepTx, -, hentries⟩ := hreg.entries
      obtain ⟨written, hrecords⟩ := hreg.records
      have hcmp : compare inp.vchName r.vchName ≠ .eq :=
        fun h => heq (Std.LawfulEqCmp.compare_eq_iff_eq.mp h).symm
      refine .inr ⟨hprep.insert heq hentries hrecords, ?_⟩
      rw [hreg.names, TreeMap.getElem?_insert, if_neg hcmp, hname]

theorem Registers.kept_new {inp : NameNewInput} {ret : NameNewReturn}
    (hreg : m.Registers inp ret m') : m'.Kept accepted ⟨ret.vchName, ret.hex, ret.rand⟩ := by
  obtain ⟨prepTx, hclaims, hentries⟩ := hreg.entries
  obtain ⟨written, hrecords⟩ := hreg.records
  rw [hreg.name, hreg.rand]
  refine ⟨hreg.holds, .inr ⟨prepared_of_insert hentries hrecords rfl hclaims rfl rfl, ?_⟩⟩
  rw [hreg.names, TreeMap.getElem?_insert_self]

theorem nameFirstUpdatePrepare_kept {msg : String}
    (h : m.nameFirstUpdatePrepare g vchName vchValue inp = .ok (msg, m'))
    (hkept : m.Kept accepted r) : m'.Kept accepted r := by
  unfold nameFirstUpdatePrepare at h
  split at h
  · cases h
    exact hkept
  · cases h
    exact hkept
  · rename_i wtxInHash prep hname hentry
    split at h
    · cases h
      exact hkept
    · rename_i wtxIn hwtxIn
      obtain ⟨created, hcreated, h⟩ := Except.bind_eq_ok.mp h
      cases created with
      | error strError =>
        cases h
        exact hkept
      | ok p =>
        obtain ⟨wtx, nFee⟩ := p
        cases h
        have hclaims := nameFirstUpdateCreateTx_claims hcreated
        rw [m.wallet.keyed _ _ hwtxIn] at hclaims
        refine ⟨hkept.holds, hkept.waits.imp_right ?_⟩
        rintro ⟨hprep, hown⟩
        refine ⟨?_, hown⟩
        by_cases heq : r.vchName = vchName
        · subst heq
          obtain ⟨prep', hprep', hrand, -⟩ := hprep.entry
          rw [hentry] at hprep'
          cases hprep'
          rw [hname] at hown
          cases hown
          have hsame : (⟨r.vchName, r.hex, prep.rand⟩ : Registration) = r := by
            rw [hrand]
          rw [hsame] at hclaims
          exact prepared_of_insert (m := m) rfl rfl hrand hclaims rfl hrand
        · exact hprep.insert heq rfl rfl

end WalletModel

namespace NameSession

variable {e : NodeEnv} {g : GuiEnv e} {l l' l0 : NameSession e}

def Ok (l : NameSession e) : Prop := ∀ r ∈ l.registered, l.model.Kept l.accepted r

theorem Ok.step {event : NameEvent e} (hok : l.Ok) (hhappens : l.Happens event)
    (hsafe : l.Safe event) (h : l.step g event = .ok l') : l'.Ok := by
  cases event with
  | nameNew inp =>
    obtain ⟨⟨ret, m'⟩, hnew, h⟩ := Except.bind_eq_ok.mp h
    rcases WalletModel.nameNew_cases hnew with ⟨hret, hsame⟩ | ⟨hret, hreg⟩
    · simp only [hret, Bool.false_eq_true, if_false] at h
      cases h
      exact fun r hr => (hok r hr).untouched hsame
    · simp only [hret, if_true] at h
      cases h
      intro r hr
      rcases List.mem_cons.mp hr with rfl | hr
      · exact hreg.kept_new
      · refine hreg.kept (hok r hr) ?_
        intro heq
        by_contra hwaiting
        exact hsafe ⟨r, hr, heq, hwaiting⟩
  | nameFirstUpdatePrepare vchName vchValue inp =>
    obtain ⟨⟨msg, m'⟩, hprepare, h⟩ := Except.bind_eq_ok.mp h
    cases h
    exact fun r hr => WalletModel.nameFirstUpdatePrepare_kept hprepare (hok r hr)
  | sendPendingNameFirstUpdates fRateLimited =>
    obtain ⟨⟨log, m'⟩, hsend, h⟩ := Except.bind_eq_ok.mp h
    cases h
    refine WalletModel.sendPending_kept ?_ ?_ ?_ hsafe hok hsend
    · intro r hr
      by_cases hreleased : l.Released r
      · exact .inl hreleased
      · exact .inr ⟨r, hr, rfl, hreleased⟩
    · intro p hp
      exact TreeMap.mem_toList_iff_getElem?_eq_some.mp hp
    · rw [TreeMap.map_fst_toList_eq_keys]
      exact TreeMap.nodup_keys
  | chain s w =>
    cases h
    exact fun r hr => (hok r hr).change hhappens

theorem SafeRun.ok (h0 : l0.registered = []) {events : List (NameEvent e)}
    (hrun : SafeRun g l0 events l) : l.Ok := by
  induction hrun with
  | start =>
    intro r hr
    rw [h0] at hr
    cases hr
  | next _ happens safe step ih => exact ih.step happens safe step

theorem registrations_kept (h0 : l0.registered = []) {events : List (NameEvent e)}
    (hrun : SafeRun g l0 events l) :
    ∀ r ∈ l.registered, l.model.wallet.Holds r.hex ∧ (l.Released r ∨ l.model.Prepared r) := by
  intro r hr
  have hkept := hrun.ok h0 r hr
  exact ⟨hkept.holds, hkept.waits.imp_right And.left⟩

end NameSession

def richTx : WalletTx := minedTx 0 ⟨200 * coin, payToPubkey walletPubKey⟩

def richBlock : CBlock := sampleBlock 0 [sampleCoinbase 9, richTx.merkle.tx]

def richNode : NodeState :=
  { zeroNode with
    disk := zeroNode.disk.writeToDisk 1 50000 richBlock
    chain := { zeroNode.chain with
      dbset := zeroNode.chain.dbset.writeTx (richTx.merkle.tx.getHash sampleEnv)
        (some (CTxIndex.make (samplePos 50000 richBlock 1) 1)) } }

def sampleGui : GuiEnv sampleNodeEnv where
  send := sampleSend
  fuel := 8
  supporting _ _ _ := []

def richSession : NameSession sampleNodeEnv where
  model :=
    { node := richNode
      wallet := blankWallet.putTx richTx
      mapMyNames := ∅
      mapMyNameHashes := fun _ => none
      mapMyNameFirstUpdate := ∅
      walletdb := ∅ }
  registered := []
  accepted := []

def siteName : VchType := str "d/site"

def newInput : NameNewInput where
  vchName := siteName
  rand := 77
  vchPubKey := walletPubKey
  threadSafeAskFee _ := true
  choices _ _ := sampleChoices
  firstUpdate _ := ⟨walletPubKey, fun _ => sampleChoices⟩
  fRateLimited := false

def twelfthIndex : CBlockIndex :=
  { sampleIndex 70000 12 zeroBlock with
    hashBlock := 12
    pprev := some (zeroBlock.getHash sampleEnv) }

def confirmBlock (tx : CTransaction) : CBlock := sampleBlock 0 [sampleCoinbase 8, tx]

def confirmedNode (tx : CTransaction) (s : NodeState) : NodeState :=
  { s with
    mapBlockIndex := Function.update (Function.update s.mapBlockIndex 12 (some twelfthIndex))
      (zeroBlock.getHash sampleEnv)
      ((s.mapBlockIndex (zeroBlock.getHash sampleEnv)).map (fun pindex =>
        { pindex with pnext := some 12 }))
    pindexBest := some 12
    nBestHeight := 12
    disk := s.disk.writeToDisk 1 60000 (confirmBlock tx)
    mapTransactions := fun _ => none
    mapNextTx := fun _ => none
    chain := { s.chain with
      dbset := s.chain.dbset.writeTx (tx.getHash sampleEnv)
        (some (CTxIndex.make (samplePos 60000 (confirmBlock tx) 1) tx.vout.length)) } }

def takenNode (s : NodeState) : NodeState :=
  { s with
    chain := { s.chain with
      dbset := s.chain.dbset.writeName siteName [⟨samplePos 50000 richBlock 1, 5, []⟩] } }

def deepWalletTx (wtx : WalletTx) : WalletTx :=
  { wtx with
    merkle := { wtx.merkle with
      hashBlock := zeroBlock.getHash sampleEnv
      nIndex := 1 }
    fMerkleVerified := true }

def confirmEvent (taken : Bool) (l : NameSession sampleNodeEnv) : NameEvent sampleNodeEnv :=
  match (l.registered.head?).bind (fun r => l.model.wallet.mapWallet[r.hex]?) with
  | none => .chain l.model.node l.model.wallet
  | some wtx =>
    let s := confirmedNode wtx.merkle.tx l.model.node
    .chain (if taken then takenNode s else s) (l.model.wallet.putTx (deepWalletTx wtx))

theorem confirmEvent_happens (taken : Bool) (l : NameSession sampleNodeEnv) :
    l.Happens (confirmEvent taken l) := by
  unfold confirmEvent
  split
  · exact fun _ h => h
  · exact Wallet.putTx_keeps _ _

def newSession : Except Fault (NameSession sampleNodeEnv) :=
  richSession.step sampleGui (.nameNew newInput)

def confirmedSession (taken : Bool) : Except Fault (NameSession sampleNodeEnv) := do
  let l ← newSession
  l.step sampleGui (confirmEvent taken l)

def sendEvent : NameEvent sampleNodeEnv := .sendPendingNameFirstUpdates (fun _ => false)

def sentSession (taken : Bool) : Except Fault (NameSession sampleNodeEnv) := do
  let l ← confirmedSession taken
  l.step sampleGui sendEvent

def sessionReads (l : NameSession sampleNodeEnv) : Bool × Nat × Bool :=
  (l.registered.all (fun r => decide (r.vchName = siteName) &&
    (l.model.wallet.mapWallet[r.hex]?).isSome) && decide (l.registered.length = 1),
    l.accepted.length, l.model.mapMyNameFirstUpdate.contains siteName)

theorem lost_registration :
    ¬ ∀ (l0 l : NameSession sampleNodeEnv) (events : List (NameEvent sampleNodeEnv)),
      l0.registered = [] → NameSession.Run sampleGui l0 events l →
      ∀ r ∈ l.registered, l.model.wallet.Holds r.hex → l.Released r ∨ l.model.Prepared r := by
  intro hall
  obtain ⟨l, hl, hreads⟩ := exists_of_reads (x := sentSession true) (f := sessionReads)
    (b := (true, 0, false)) (by decide +kernel)
  obtain ⟨l2, hl2, hsend⟩ := Except.bind_eq_ok.mp hl
  obtain ⟨l1, hl1, hchain⟩ := Except.bind_eq_ok.mp hl2
  have hrun : NameSession.Run sampleGui richSession
      ([] ++ [.nameNew newInput] ++ [confirmEvent true l1] ++ [sendEvent]) l :=
    .next (.next (.next .start trivial hl1) (confirmEvent_happens true l1) hchain) trivial hsend
  simp only [sessionReads, Prod.mk.injEq, Bool.and_eq_true, List.all_eq_true,
    decide_eq_true_eq] at hreads
  obtain ⟨⟨hregs, hone⟩, hnone, hgone⟩ := hreads
  obtain ⟨r, hr⟩ := List.length_eq_one_iff.mp hone
  obtain ⟨hname, hholds⟩ := hregs r (by simp [hr])
  rcases hall _ _ _ rfl hrun r (by simp [hr]) hholds with ⟨tx, hmem, -⟩ | hprep
  · rw [List.length_eq_zero_iff.mp hnone] at hmem
    cases hmem
  · obtain ⟨prep, hentry, -⟩ := hprep.entry
    rw [TreeMap.contains_eq_isSome_getElem?, ← hname, hentry] at hgone
    cases hgone

theorem sendsAccepted_single {e : NodeEnv} {due : VchType → Prop} {fRateLimited : VchType → Bool}
    {vchName : VchType} {prep : PreparedNameFirstUpdate} {m : WalletModel e}
    (h : (Act.exec (acceptToMemoryPool e prep.wtx.merkle.tx true true (fRateLimited vchName))
      m.node).1 = .ok ()) :
    WalletModel.SendsAccepted due fRateLimited [(vchName, prep)] m := by
  unfold WalletModel.SendsAccepted
  split
  · trivial
  · split
    · trivial
    · exact ⟨fun _ => h, fun _ _ _ _ => trivial⟩

def acceptsDue (l : NameSession sampleNodeEnv) : Bool :=
  ((l.model.mapMyNameFirstUpdate[siteName]?).map (fun prep => decide
    ((Act.exec (acceptToMemoryPool sampleNodeEnv prep.wtx.merkle.tx true true false)
      l.model.node).1 = .ok ()))).getD false

theorem confirmEvent_entries {taken : Bool} {l l' : NameSession sampleNodeEnv}
    (h : l.step sampleGui (confirmEvent taken l) = .ok l') :
    l'.model.mapMyNameFirstUpdate = l.model.mapMyNameFirstUpdate := by
  unfold confirmEvent at h
  split at h
  · cases h
    rfl
  · cases h
    rfl

theorem newSession_entries {l : NameSession sampleNodeEnv} (h : newSession = .ok l) :
    l.model.mapMyNameFirstUpdate = ∅ ∨ ∃ prep,
      l.model.mapMyNameFirstUpdate = (∅ : TreeMap VchType PreparedNameFirstUpdate).insert siteName prep := by
  obtain ⟨⟨ret, m'⟩, hnew, h⟩ := Except.bind_eq_ok.mp h
  rcases WalletModel.nameNew_cases hnew with ⟨hret, hsame⟩ | ⟨hret, hreg⟩
  · simp only [hret, Bool.false_eq_true, if_false] at h
    cases h
    exact .inl hsame.entries
  · simp only [hret, if_true] at h
    cases h
    obtain ⟨prepTx, -, hentries⟩ := hreg.entries
    exact .inr ⟨_, hentries⟩

theorem sendEvent_safe {l : NameSession sampleNodeEnv} (hdue : acceptsDue l = true)
    (hentries : l.model.mapMyNameFirstUpdate = ∅ ∨ ∃ prep, l.model.mapMyNameFirstUpdate =
      (∅ : TreeMap VchType PreparedNameFirstUpdate).insert siteName prep) : l.Safe sendEvent := by
  show WalletModel.SendsAccepted _ _ l.model.mapMyNameFirstUpdate.toList l.model
  rcases hentries with hnone | ⟨prep, hone⟩
  · rw [hnone]
    trivial
  · rw [hone]
    have hsingle : WalletModel.SendsAccepted l.Waiting (fun _ => false) [(siteName, prep)]
        l.model := by
      apply sendsAccepted_single
      simpa only [acceptsDue, hone, TreeMap.getElem?_insert_self, Option.map_some,
        Option.getD_some, decide_eq_true_eq] using hdue
    exact hsingle

theorem sent_registration : ∃ (l : NameSession sampleNodeEnv) (events : List (NameEvent sampleNodeEnv)),
    NameSession.SafeRun sampleGui richSession events l ∧ l.registered.length = 1 ∧
      l.accepted.length = 1 ∧
      ∀ r ∈ l.registered, l.model.wallet.Holds r.hex ∧ (l.Released r ∨ l.model.Prepared r) := by
  obtain ⟨l, hl, hreads⟩ := exists_of_reads (x := sentSession false) (f := sessionReads)
    (b := (true, 1, false)) (by decide +kernel)
  obtain ⟨l2, hl2, hsend⟩ := Except.bind_eq_ok.mp hl
  have hdue : acceptsDue l2 = true := by
    obtain ⟨l2', hl2', hdue⟩ := exists_of_reads (x := confirmedSession false) (f := acceptsDue)
      (b := true) (by decide +kernel)
    rw [hl2] at hl2'
    cases hl2'
    exact hdue
  obtain ⟨l1, hl1, hchain⟩ := Except.bind_eq_ok.mp hl2
  have hentries := newSession_entries hl1
  rw [← confirmEvent_entries hchain] at hentries
  have hfree : richSession.Safe (.nameNew newInput) := by
    rintro ⟨r, hr, -⟩
    cases hr
  have hrun : NameSession.SafeRun sampleGui richSession
      ([] ++ [.nameNew newInput] ++ [confirmEvent false l1] ++ [sendEvent]) l :=
    .next (.next (.next .start trivial hfree hl1) (confirmEvent_happens false l1)
      (by unfold confirmEvent; split <;> trivial) hchain) trivial (sendEvent_safe hdue hentries) hsend
  simp only [sessionReads, Prod.mk.injEq, Bool.and_eq_true, decide_eq_true_eq] at hreads
  exact ⟨l, _, hrun, hreads.1.2, hreads.2.1, NameSession.registrations_kept rfl hrun⟩

end Namecoin
