import Namecoin.Name.Scan
import Namecoin.Name.Hooks

namespace Namecoin

open Act

inductive NameEffect where
  | keep
  | skip (vchName : VchType)
  | append (vchName : VchType) (entry : CNameIndex)

namespace NameEffect

def onNames (db : DatabaseSet) : NameEffect → DatabaseSet
  | keep => db
  | skip _ => db
  | append vchName entry => db.writeName vchName (db.readNameOrEmpty vchName ++ [entry])

def onPending (m : VchType → Finset Uint256) (hash : Uint256) :
    NameEffect → VchType → Finset Uint256
  | keep => m
  | skip vchName => Function.update m vchName ((m vchName).erase hash)
  | append vchName _ => Function.update m vchName ((m vchName).erase hash)

theorem onNames_tx (db : DatabaseSet) (e : NameEffect) : (e.onNames db).tx = db.tx := by
  cases e <;> rfl

theorem onNames_blockindex (db : DatabaseSet) (e : NameEffect) :
    (e.onNames db).blockindex = db.blockindex := by
  cases e <;> rfl

theorem onNames_hashBestChain (db : DatabaseSet) (e : NameEffect) :
    (e.onNames db).hashBestChain = db.hashBestChain := by
  cases e <;> rfl

end NameEffect

theorem readNameOrEmpty_writeName_self (db : DatabaseSet) (name : VchType)
    (vtxPos : List CNameIndex) : (db.writeName name vtxPos).readNameOrEmpty name = vtxPos := by
  simp [DatabaseSet.readNameOrEmpty, DatabaseSet.writeName]

theorem readNameOrEmpty_writeName_ne (db : DatabaseSet) {name name' : VchType} (h : name' ≠ name)
    (vtxPos : List CNameIndex) :
    (db.writeName name vtxPos).readNameOrEmpty name' = db.readNameOrEmpty name' := by
  simp [DatabaseSet.readNameOrEmpty, DatabaseSet.writeName, h]

namespace NameCall

structure NewOk (vchName : VchType) (prev : NameScan) (bug : Bool) : Prop where
  unnamed : prev.found = none
  length : vchName.length = 20
  honest : bug = false

structure FirstupdateOk (c : NameCall) (db : DatabaseSet) (vchName : VchType) (d : NameTx)
    (prev : NameScan) (bug : Bool) : Prop where
  prevOp : prev.op = opNameNew
  input : ∃ nInput txindex, prev.found = some nInput ∧ c.vTxindex[nInput]? = some txindex ∧
    ¬(0 ≤ c.depthOf txindex minFirstupdateDepth ∧
      c.depthOf txindex minFirstupdateDepth < minFirstupdateDepth)
  commit : ∃ vchRand vchHash, d.vvch[1]? = some vchRand ∧ prev.vvch[0]? = some vchHash ∧
    bug = decide (uint160 vchHash ≠ c.env.hash160 (vchRand ++ vchName))
  honest : postLibcoinFork c.env c.nHeight = true → bug = false
  free : ¬(0 ≤ getNameHeight db vchName ∧
    (c.nHeight : Int) - getNameHeight db vchName < getExpirationDepth c.nHeight)

structure UpdateOk (c : NameCall) (vchName : VchType) (prev : NameScan) (bug : Bool) : Prop where
  prevOp : prev.op = opNameFirstupdate ∨ prev.op = opNameUpdate
  input : ∃ nInput txindex, prev.found = some nInput ∧ c.vTxindex[nInput]? = some txindex ∧
    0 ≤ c.depthOf txindex (getExpirationDepth c.nHeight)
  name : ∃ vchPrevName, prev.vvch[0]? = some vchPrevName ∧ bug = decide (vchPrevName ≠ vchName)
  honest : postLibcoinFork c.env c.nHeight = true → bug = false

inductive OpOk (c : NameCall) (db : DatabaseSet) (vchName : VchType) (d : NameTx)
    (prev : NameScan) (bug : Bool) : Prop
  | new (op : d.op = opNameNew) (ok : NewOk vchName prev bug)
  | firstupdate (op : d.op = opNameFirstupdate) (ok : FirstupdateOk c db vchName d prev bug)
  | update (op : d.op = opNameUpdate) (ok : UpdateOk c vchName prev bug)

structure NameTxOk (c : NameCall) (db : DatabaseSet) (prev : NameScan) (d : NameTx)
    (vchName : VchType) (bug : Bool) : Prop where
  version : c.tx.nVersion = namecoinTxVersion
  decoded : decodeNameTx c.env c.tx c.nHeight = some d
  name : d.vvch[0]? = some vchName
  op : OpOk c db vchName d prev bug

inductive NameStep (c : NameCall) (db : DatabaseSet) (prev : NameScan) : NameEffect → Prop
  | plain (version : c.tx.nVersion ≠ namecoinTxVersion) (unnamed : prev.found = none) :
      NameStep c db prev .keep
  | bug {d : NameTx} {vchName : VchType} (ok : NameTxOk c db prev d vchName true) :
      NameStep c db prev .keep
  | new {d : NameTx} {vchName : VchType} (op : d.op = opNameNew)
      (ok : NameTxOk c db prev d vchName false) : NameStep c db prev .keep
  | skip {d : NameTx} {vchName : VchType} (op : d.op = opNameUpdate)
      (ok : NameTxOk c db prev d vchName false)
      (bad : c.badPrevPos (db.readNameOrEmpty vchName) d prev = .ok true)
      (early : postLibcoinFork c.env c.nHeight = false) : NameStep c db prev (.skip vchName)
  | append {d : NameTx} {vchName : VchType} {value : Option VchType}
      (op : d.op = opNameFirstupdate ∨ d.op = opNameUpdate)
      (ok : NameTxOk c db prev d vchName false)
      (good : c.badPrevPos (db.readNameOrEmpty vchName) d prev = .ok false)
      (read : getValueOfTxPos c.env c.view c.txPos = .ok value) :
      NameStep c db prev (.append vchName ⟨c.txPos, c.nHeight, value.getD []⟩)

theorem inputIndex_ok {c : NameCall} {prev : NameScan} {txindex : CTxIndex} :
    c.inputIndex prev = .ok txindex ↔
      ∃ nInput, prev.found = some nInput ∧ c.vTxindex[nInput]? = some txindex := by
  unfold inputIndex
  cases prev.found with
  | none => simp
  | some nInput => cases h : c.vTxindex[nInput]? <;> simp [h]

theorem checkNew_ok {vchName : VchType} {prev : NameScan} {bug : Bool}
    (h : checkNew vchName prev = .ok bug) : NewOk vchName prev bug := by
  simp only [checkNew, Except.bind_eq_ok, Except.raiseIf_eq_ok, Except.pure_eq_ok] at h
  obtain ⟨-, hfound, -, hlen, rfl⟩ := h
  exact ⟨by simpa using hfound, by simpa using hlen, rfl⟩

theorem checkFirstupdate_ok {c : NameCall} {s : ConnState} {vchName : VchType} {d : NameTx}
    {prev : NameScan} {bug : Bool} (hb : c.fBlock = true)
    (h : c.checkFirstupdate s vchName d prev = .ok bug) :
    FirstupdateOk c s.dbset vchName d prev bug := by
  simp only [checkFirstupdate, Except.bind_eq_ok, Except.raiseIf_eq_ok, Except.doIf_eq_ok,
    Except.pure_eq_ok, vchAt_ok, inputIndex_ok] at h
  obtain ⟨nNetFee, -, -, -, -, hprev, vchRand, hrand, -, -, vchValue, -, -, -, vchHash, hhash, -,
    hbug, -, hfree, txindex, ⟨nInput, hin, hidx⟩, -, hdeep, -, -, rfl⟩ := h
  rw [not_or] at hprev
  refine ⟨not_not.mp hprev.2, ⟨nInput, txindex, hin, hidx, ?_⟩, ⟨vchRand, vchHash, hrand, hhash,
    rfl⟩, ?_, hfree⟩
  · intro hd
    exact hdeep ⟨by simp [hb], hd⟩
  · intro hf
    by_contra hne
    exact hbug ⟨by simpa using hne, hf⟩

theorem checkUpdate_ok {c : NameCall} {vchName : VchType} {d : NameTx} {prev : NameScan}
    {bug : Bool} (hb : c.fBlock = true) (h : c.checkUpdate vchName d prev = .ok bug) :
    UpdateOk c vchName prev bug := by
  simp only [checkUpdate, Except.bind_eq_ok, Except.raiseIf_eq_ok, Except.pure_eq_ok, vchAt_ok,
    inputIndex_ok] at h
  obtain ⟨-, hprev, vchValue, -, -, -, vchPrevName, hname, -, hbug, txindex, ⟨nInput, hin, hidx⟩,
    -, hdeep, rfl⟩ := h
  rw [not_or] at hprev
  refine ⟨by tauto, ⟨nInput, txindex, hin, hidx, ?_⟩, ⟨vchPrevName, hname, rfl⟩, ?_⟩
  · by_contra hd
    exact hdeep ⟨by simp [hb], by omega⟩
  · intro hf
    by_contra hne
    exact hbug ⟨by simpa using hne, hf⟩

theorem checkNameOp_ok {c : NameCall} {s : ConnState} {d : NameTx} {prev : NameScan} {bug : Bool}
    (hb : c.fBlock = true) (h : c.checkNameOp s d prev = .ok bug) :
    ∃ vchName, d.vvch[0]? = some vchName ∧ OpOk c s.dbset vchName d prev bug := by
  simp only [checkNameOp, Except.bind_eq_ok, Except.raiseIf_eq_ok, Except.pure_eq_ok,
    vchAt_ok] at h
  obtain ⟨-, -, vchName, hname, -, -, bug', hop, -, -, rfl⟩ := h
  refine ⟨vchName, hname, ?_⟩
  unfold checkSwitch at hop
  split at hop
  · rename_i h1
    exact .new h1 (checkNew_ok hop)
  · split at hop
    · rename_i h2
      exact .firstupdate h2 (checkFirstupdate_ok hb hop)
    · split at hop
      · rename_i h3
        exact .update h3 (checkUpdate_ok hb hop)
      · cases hop

theorem erasePending_ok {c : NameCall} {vchName : VchType} {s s' : ConnState} {u : Unit}
    (h : exec (c.erasePending vchName) s = (.ok u, s')) :
    s' = { s with
      mapNamePending := Function.update s.mapNamePending vchName
        ((s.mapNamePending vchName).erase (c.tx.getHash c.env)) } := by
  simp only [erasePending, modify_ok] at h
  exact h.symm

def effectOn (c : NameCall) (e : NameEffect) (s : ConnState) : ConnState :=
  { s with dbset := e.onNames s.dbset,
           mapNamePending := e.onPending s.mapNamePending (c.tx.getHash c.env) }

theorem applyNameOp_ok {c : NameCall} {s s' : ConnState} {d : NameTx} {prev : NameScan}
    {vchName : VchType} {u : Unit} (hb : c.fBlock = true)
    (ok : NameTxOk c s.dbset prev d vchName false)
    (h : exec (c.applyNameOp d prev) s = (.ok u, s')) :
    ∃ e, NameStep c s.dbset prev e ∧ s' = c.effectOn e s := by
  simp only [applyNameOp, bind_ok, get_ok, fromExcept_ok, vchAt_ok, raiseIf_ok, doIf_ok, hb,
    true_and] at h
  obtain ⟨t, s1, ⟨rfl, rfl⟩, name, s2, ⟨hname, rfl⟩, bad, s3, ⟨hbad, rfl⟩, -, s4, ⟨-, rfl⟩, w, s5,
    hwrite, herase⟩ := h
  obtain rfl : name = vchName := Option.some.inj (hname.symm.trans ok.name)
  rcases hwrite with ⟨hop, hwrite⟩ | ⟨hop, rfl⟩
  · have hne : d.op ≠ opNameNew := by
      rcases hop with hop | hop <;> rw [hop] <;> decide
    rcases herase with ⟨-, herase⟩ | ⟨hn, -⟩
    swap
    · exact absurd hne hn
    obtain rfl := erasePending_ok herase
    simp only [writeHistory, bind_ok, get_ok, fromExcept_ok] at hwrite
    obtain ⟨t, s6, ⟨rfl, rfl⟩, bad', s7, ⟨hbad', rfl⟩, hwrite⟩ := hwrite
    obtain rfl : bad' = bad := Except.ok.inj (hbad'.symm.trans hbad)
    cases bad' with
    | true =>
      simp only [if_true, raiseIf_ok] at hwrite
      obtain ⟨hfork, rfl⟩ := hwrite
      refine ⟨.skip name, .skip ?_ ok hbad (by simpa using hfork), rfl⟩
      rcases hop with hop | hop
      · simp [badPrevPos, hop, opNameFirstupdate, opNameUpdate] at hbad
      · exact hop
    | false =>
      simp only [Bool.false_eq_true, if_false, bind_ok, fromExcept_ok, modify_ok] at hwrite
      obtain ⟨value, s8, ⟨hvalue, rfl⟩, rfl⟩ := hwrite
      exact ⟨.append name ⟨c.txPos, c.nHeight, value.getD []⟩, .append hop ok hbad hvalue, rfl⟩
  · have hnew : d.op = opNameNew := by
      rcases ok.op with ⟨h1, -⟩ | ⟨h1, -⟩ | ⟨h1, -⟩
      · exact h1
      · exact absurd (.inl h1) hop
      · exact absurd (.inr h1) hop
    rcases herase with ⟨hn, -⟩ | ⟨-, rfl⟩
    · exact absurd hnew hn
    · exact ⟨.keep, .new hnew ok, rfl⟩

theorem connectInputs_ok {c : NameCall} {vTxPrev : List CTransaction} {s s' : ConnState}
    {u : Unit} (hb : c.fBlock = true) (hm : c.fMiner = false)
    (h : exec (c.connectInputs vTxPrev) s = (.ok u, s')) :
    ∃ prev e, scanNameScripts (postLibcoinFork c.env c.nHeight) (prevScripts c.tx vTxPrev) 0
        NameScan.start = some prev ∧
      NameStep c s.dbset prev e ∧ s' = c.effectOn e s := by
  have hstrict : c.strictScan = postLibcoinFork c.env c.nHeight := by simp [strictScan, hb, hm]
  simp only [connectInputs, bind_ok, fromOption_ok] at h
  obtain ⟨prev, s1, ⟨hprev, rfl⟩, h⟩ := h
  rw [hstrict] at hprev
  split at h
  · rename_i hv
    simp only [bind_ok, raiseIf_ok] at h
    obtain ⟨-, s2, ⟨-, rfl⟩, hfound, rfl⟩ := h
    exact ⟨prev, .keep, hprev, .plain hv (by simpa using hfound), rfl⟩
  · rename_i hv
    simp only [bind_ok, fromOption_ok, get_ok, fromExcept_ok, doIf_ok] at h
    obtain ⟨d, s2, ⟨hd, rfl⟩, t, s3, ⟨rfl, rfl⟩, bug, s4, ⟨hop, rfl⟩, happly⟩ := h
    obtain ⟨vchName, hname, ok⟩ := checkNameOp_ok hb hop
    rcases happly with ⟨rfl, happly⟩ | ⟨hbug, rfl⟩
    · obtain ⟨e, hstep, rfl⟩ := applyNameOp_ok hb ⟨not_not.mp hv, hd, hname, ok⟩ happly
      exact ⟨prev, e, hprev, hstep, rfl⟩
    · obtain rfl : bug = true := by simpa using hbug
      exact ⟨prev, .keep, hprev, .bug ⟨not_not.mp hv, hd, hname, ok⟩, rfl⟩

end NameCall

end Namecoin
