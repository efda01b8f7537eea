import Namecoin.Name.Coherent

namespace Namecoin

open Act

structure NameInput where
  txin : CTxIn
  txPrev : CTransaction
  txindex : CTxIndex
  deriving DecidableEq, Repr

def NameInput.script (i : NameInput) : CScript :=
  ((i.txPrev.vout[i.txin.prevout.n]?).map CTxOut.scriptPubKey).getD []

structure SameVerdict (r r' : Except Fault Unit × ConnState) : Prop where
  accepted : r.1 = .ok () ↔ r'.1 = .ok ()
  names : r.1 = .ok () → r.2.dbset = r'.2.dbset

def prevOpFits (op prevOp : Nat) : Bool :=
  if op = opNameFirstupdate then decide (prevOp = opNameNew)
  else if op = opNameUpdate then
    decide (prevOp = opNameFirstupdate) || decide (prevOp = opNameUpdate)
  else true

def wantedOp (op : Nat) : Nat := if op = opNameFirstupdate then opNameNew else opNameUpdate

namespace NameCall

def withInputs (c : NameCall) (inputs : List NameInput) : NameCall :=
  { c with
    tx := { c.tx with vin := inputs.map NameInput.txin }
    vTxindex := inputs.map NameInput.txindex }

def verdict (c : NameCall) (inputs : List NameInput) (s : ConnState) :
    Except Fault Unit × ConnState :=
  exec ((c.withInputs inputs).connectInputs (inputs.map NameInput.txPrev)) s

def nameTail (c : NameCall) (prev : NameScan) : Act Fault ConnState Unit := do
  let d ← fromOption (.reject "ConnectInputsHook() : could not decode a namecoin tx")
    (decodeNameTx c.env c.tx c.nHeight)
  let s ← get
  let fBugWorkaround ← fromExcept (c.checkNameOp s d prev)
  doIf (fBugWorkaround = false) (c.applyNameOp d prev)

def OthersPass (c : NameCall) (inputs : List NameInput) (s : ConnState) (d : NameTx) : Prop :=
  ∃ prev, scanNameScripts true (inputs.map NameInput.script) 0 NameScan.start = some prev ∧
    (exec ((c.withInputs inputs).nameTail { prev with op := wantedOp d.op }) s).1 = .ok ()

structure OrderFree (c : NameCall) (inputs : List NameInput) (s : ConnState) : Prop where
  fits : ∀ d, decodeNameTx c.env c.tx c.nHeight = some d → c.OthersPass inputs s d →
    ∀ i ∈ inputs, ∀ j ∈ inputs, ∀ p q, smallInt i.script = some p → smallInt j.script = some q →
      prevOpFits d.op p = prevOpFits d.op q

end NameCall

theorem SameVerdict.refl (r : Except Fault Unit × ConnState) : SameVerdict r r :=
  ⟨Iff.rfl, fun _ => rfl⟩

theorem sameVerdict_rejected {r r' : Except Fault Unit × ConnState} (h : r.1 ≠ .ok ())
    (h' : r'.1 ≠ .ok ()) : SameVerdict r r' :=
  ⟨⟨fun hok => absurd hok h, fun hok => absurd hok h'⟩, fun hok => absurd hok h⟩

theorem sameVerdict_bind {α : Type} {x : Act Fault ConnState α} {f g : α → Act Fault ConnState Unit}
    {s : ConnState}
    (h : ∀ a s', exec x s = (.ok a, s') → SameVerdict (exec (f a) s') (exec (g a) s')) :
    SameVerdict (exec (x >>= f) s) (exec (x >>= g) s) := by
  rw [exec_bind, exec_bind]
  rcases hx : exec x s with ⟨r, s'⟩
  cases r with
  | error e => exact SameVerdict.refl _
  | ok a => exact h a s' hx

theorem sameVerdict_doIf {p : Prop} [Decidable p] {x y : Act Fault ConnState Unit} {s : ConnState}
    (h : SameVerdict (exec x s) (exec y s)) :
    SameVerdict (exec (doIf p x) s) (exec (doIf p y) s) := by
  unfold doIf
  split
  · exact h
  · exact SameVerdict.refl _

theorem raiseIf_congr {p q : Prop} [Decidable p] [Decidable q] (e : Fault) (h : p ↔ q) :
    Except.raiseIf p e = Except.raiseIf q e := by
  unfold Except.raiseIf
  simp only [h]

section Scan

variable {inputs inputs' : List NameInput}

theorem prevScripts_withInputs (c : NameCall) (inputs : List NameInput) :
    prevScripts (c.withInputs inputs).tx (inputs.map NameInput.txPrev) =
      inputs.map NameInput.script := by
  unfold prevScripts NameCall.withInputs
  rw [List.zipWith_map, List.zipWith_self]
  rfl

theorem lastOp_mem {scripts : List CScript} {p : Nat} (h : lastOp scripts = some p) :
    ∃ script ∈ scripts, smallInt script = some p :=
  List.mem_filterMap.mp (List.mem_of_getLast? h)

theorem lastOp_perm {scripts scripts' : List CScript} (h : scripts.Perm scripts') :
    lastOp scripts = none ↔ lastOp scripts' = none := by
  unfold lastOp
  rw [List.getLast?_eq_none_iff, List.getLast?_eq_none_iff]
  have hperm := h.filterMap smallInt
  constructor
  · intro hnil
    rw [hnil] at hperm
    exact hperm.symm.eq_nil
  · intro hnil
    rw [hnil] at hperm
    exact hperm.eq_nil

theorem OnlyName.pairwise {k op : Nat} {vvch : List VchType}
    (h : OnlyName (inputs.map NameInput.script) k op vvch) :
    inputs.Pairwise (fun i j => decodedName i.script = none ∨ decodedName j.script = none) := by
  rw [List.pairwise_iff_getElem]
  intro m n hm hn hlt
  have hnone : ∀ j (hj : j < inputs.length), j ≠ k → decodedName inputs[j].script = none := by
    intro j hj hne
    exact h.unique j _ (by rw [List.getElem?_map, List.getElem?_eq_getElem hj]; rfl) hne
  rcases eq_or_ne m k with rfl | hne
  · exact .inr (hnone n hn (by omega))
  · exact .inl (hnone m hm hne)

theorem OnlyName.of_pairwise {k : Nat} {i : NameInput} {op : Nat} {vvch : List VchType}
    (h : inputs.Pairwise (fun i j => decodedName i.script = none ∨ decodedName j.script = none))
    (hk : inputs[k]? = some i) (hd : decodedName i.script = some (op, vvch)) :
    OnlyName (inputs.map NameInput.script) k op vvch := by
  obtain ⟨hlt, hi⟩ := List.getElem?_eq_some_iff.mp hk
  refine ⟨by simp [hk, hd], ?_⟩
  intro j script hj hne
  rw [List.getElem?_map] at hj
  obtain ⟨x, hx, rfl⟩ := Option.map_eq_some_iff.mp hj
  obtain ⟨hjlt, rfl⟩ := List.getElem?_eq_some_iff.mp hx
  rw [List.pairwise_iff_getElem] at h
  rcases Nat.lt_or_gt_of_ne hne with hlt' | hlt'
  · rcases h j k hjlt hlt hlt' with hnone | hnone
    · exact hnone
    · rw [hi, hd] at hnone
      cases hnone
  · rcases h k j hlt hjlt hlt' with hnone | hnone
    · rw [hi, hd] at hnone
      cases hnone
    · exact hnone

structure ScanAgrees (inputs inputs' : List NameInput) (prev prev' : NameScan) : Prop where
  vvch : prev.vvch = prev'.vvch
  found : prev.found.isNone = prev'.found.isNone
  input : prev.found.bind (fun k => inputs[k]?) = prev'.found.bind (fun k => inputs'[k]?)

theorem scan_perm {prev : NameScan} (hperm : inputs.Perm inputs')
    (h : scanNameScripts true (inputs.map NameInput.script) 0 NameScan.start = some prev) :
    ∃ prev', scanNameScripts true (inputs'.map NameInput.script) 0 NameScan.start = some prev' ∧
      ScanAgrees inputs inputs' prev prev' := by
  rcases scanNameScripts_strict_none rfl h with ⟨hfound, hnone⟩ | ⟨k, op, hfound, honly⟩
  · have hnone' : ∀ script ∈ inputs'.map NameInput.script, decodedName script = none :=
      fun script hscript => hnone script ((hperm.map NameInput.script).mem_iff.mpr hscript)
    obtain ⟨r, hr, hrfound, hrvvch⟩ := scanNameScripts_none_left (i := 0) (r := NameScan.start) hnone
    obtain ⟨r', hr', hrfound', hrvvch'⟩ :=
      scanNameScripts_none_left (i := 0) (r := NameScan.start) hnone'
    obtain rfl : r = prev := Option.some.inj (hr.symm.trans h)
    refine ⟨r', hr', hrvvch.trans hrvvch'.symm, by rw [hrfound, hrfound'], ?_⟩
    rw [hrfound, hrfound']
    rfl
  · have hk := honly.at_k
    rw [List.getElem?_map, Option.bind_map] at hk
    obtain ⟨i, hi, hd⟩ := Option.bind_eq_some_iff.mp hk
    obtain ⟨k', hk'⟩ := List.mem_iff_getElem?.mp (hperm.mem_iff.mp (List.mem_of_getElem? hi))
    have hpair := (hperm.pairwise_iff (fun {a b} hab => hab.symm)).mp honly.pairwise
    have honly' := OnlyName.of_pairwise hpair hk' hd
    obtain ⟨r', hr', hrfound', hrvvch'⟩ := scanNameScripts_only (i := 0) (r := NameScan.start) honly' rfl
    refine ⟨r', hr', hrvvch'.symm, by rw [hfound, hrfound']; rfl, ?_⟩
    rw [hfound, hrfound']
    simp only [Nat.zero_add, Option.bind_some, hi, hk']

end Scan

namespace NameCall

variable {c : NameCall} {inputs inputs' : List NameInput} {prev prev' : NameScan} {d : NameTx}
  {s : ConnState}

theorem inputIndex_withInputs : (c.withInputs inputs).inputIndex prev =
    match prev.found.bind (fun k => inputs[k]?) with
    | none => .error .undefined
    | some i => .ok i.txindex := by
  unfold inputIndex
  cases prev.found with
  | none => rfl
  | some k =>
    simp only [withInputs, List.getElem?_map, Option.bind_some]
    cases inputs[k]? <;> rfl

theorem inputIndex_agrees (h : ScanAgrees inputs inputs' prev prev') :
    (c.withInputs inputs).inputIndex prev = (c.withInputs inputs').inputIndex prev' := by
  rw [inputIndex_withInputs, inputIndex_withInputs, h.input]

theorem checkFirstupdate_agrees {vchName : VchType} (h : ScanAgrees inputs inputs' prev prev')
    (hop : d.op = opNameFirstupdate) (hfits : prevOpFits d.op prev.op = prevOpFits d.op prev'.op) :
    (c.withInputs inputs).checkFirstupdate s vchName d prev =
      (c.withInputs inputs').checkFirstupdate s vchName d prev' := by
  have hprev : (prev.found.isNone ∨ prev.op ≠ opNameNew) ↔
      (prev'.found.isNone ∨ prev'.op ≠ opNameNew) := by
    simp only [prevOpFits, if_pos hop, decide_eq_decide] at hfits
    rw [h.found, ne_eq, ne_eq, hfits]
  unfold checkFirstupdate
  rw [raiseIf_congr _ hprev, h.vvch, inputIndex_agrees h]
  rfl

theorem checkUpdate_agrees {vchName : VchType} (h : ScanAgrees inputs inputs' prev prev')
    (hop : d.op = opNameUpdate) (hfits : prevOpFits d.op prev.op = prevOpFits d.op prev'.op) :
    (c.withInputs inputs).checkUpdate vchName d prev =
      (c.withInputs inputs').checkUpdate vchName d prev' := by
  have hprev : (prev.found.isNone ∨ (prev.op ≠ opNameFirstupdate ∧ prev.op ≠ opNameUpdate)) ↔
      (prev'.found.isNone ∨ (prev'.op ≠ opNameFirstupdate ∧ prev'.op ≠ opNameUpdate)) := by
    have hne : d.op ≠ opNameFirstupdate := by
      rw [hop]
      decide
    simp only [prevOpFits, if_neg hne, if_pos hop, ← Bool.decide_or, decide_eq_decide] at hfits
    rw [h.found, ← not_or, ← not_or, hfits]
  unfold checkUpdate
  rw [raiseIf_congr _ hprev, h.vvch, inputIndex_agrees h]
  rfl

theorem checkNew_agrees {vchName : VchType} (h : ScanAgrees inputs inputs' prev prev') :
    checkNew vchName prev = checkNew vchName prev' := by
  have hsome : prev.found.isSome = prev'.found.isSome := by
    rw [← Option.not_isNone, ← Option.not_isNone, h.found]
  unfold checkNew
  rw [hsome]

theorem checkNameOp_agrees (h : ScanAgrees inputs inputs' prev prev')
    (hfits : prevOpFits d.op prev.op = prevOpFits d.op prev'.op) :
    (c.withInputs inputs).checkNameOp s d prev = (c.withInputs inputs').checkNameOp s d prev' := by
  have hswitch : ∀ vchName, (c.withInputs inputs).checkSwitch s vchName d prev =
      (c.withInputs inputs').checkSwitch s vchName d prev' := by
    intro vchName
    unfold checkSwitch
    split
    · exact checkNew_agrees h
    · split
      · rename_i hop
        exact checkFirstupdate_agrees h hop hfits
      · split
        · rename_i hop
          exact checkUpdate_agrees h hop hfits
        · rfl
  unfold checkNameOp
  simp only [hswitch]
  rfl

theorem badPrevPos_agrees (h : ScanAgrees inputs inputs' prev prev') (vtxPos : List CNameIndex) :
    (c.withInputs inputs).badPrevPos vtxPos d prev =
      (c.withInputs inputs').badPrevPos vtxPos d prev' := by
  unfold badPrevPos
  rw [inputIndex_agrees h]

theorem writeHistory_agrees (h : ScanAgrees inputs inputs' prev prev') (vchName : VchType) :
    (c.withInputs inputs).writeHistory vchName d prev =
      (c.withInputs inputs').writeHistory vchName d prev' := by
  unfold writeHistory
  simp only [badPrevPos_agrees h]
  rfl

theorem applyNameOp_agrees (h : ScanAgrees inputs inputs' prev prev') :
    SameVerdict (exec ((c.withInputs inputs).applyNameOp d prev) s)
      (exec ((c.withInputs inputs').applyNameOp d prev') s) := by
  unfold applyNameOp
  simp only [badPrevPos_agrees h, writeHistory_agrees h]
  apply sameVerdict_bind
  intro s1 _ _
  apply sameVerdict_bind
  intro vchName _ _
  apply sameVerdict_bind
  intro bad _ _
  apply sameVerdict_bind
  intro _ _ _
  apply sameVerdict_bind
  intro _ s' _
  apply sameVerdict_doIf
  exact ⟨Iff.rfl, fun _ => rfl⟩

theorem nameTail_agrees (h : ScanAgrees inputs inputs' prev prev')
    (hfits : ∀ d, decodeNameTx c.env c.tx c.nHeight = some d →
      prevOpFits d.op prev.op = prevOpFits d.op prev'.op) :
    SameVerdict (exec ((c.withInputs inputs).nameTail prev) s)
      (exec ((c.withInputs inputs').nameTail prev') s) := by
  unfold nameTail
  apply sameVerdict_bind
  intro d s1 hd
  obtain ⟨hdecode, -⟩ := fromOption_ok.mp hd
  apply sameVerdict_bind
  intro s2 _ _
  rw [checkNameOp_agrees h (hfits d hdecode)]
  apply sameVerdict_bind
  intro bug s' _
  exact sameVerdict_doIf (applyNameOp_agrees h)

theorem connectInputs_tail (hversion : c.tx.nVersion = namecoinTxVersion)
    (hstrict : c.strictScan = true) (vTxPrev : List CTransaction) :
    c.connectInputs vTxPrev =
      (fromOption (.reject "ConnectInputHook() : multiple previous name transactions")
        (scanNameScripts true (prevScripts c.tx vTxPrev) 0 NameScan.start) >>= c.nameTail) := by
  unfold connectInputs
  rw [hstrict]
  simp only [hversion, ne_eq, not_true_eq_false, if_false]
  rfl

theorem checkNameOp_fits {bug : Bool} (h : c.checkNameOp s d prev = .ok bug) :
    prevOpFits d.op prev.op = true := by
  simp only [checkNameOp, Except.bind_eq_ok] at h
  obtain ⟨-, -, vchName, -, -, -, bug', hswitch, -⟩ := h
  unfold checkSwitch at hswitch
  unfold prevOpFits
  split at hswitch
  · rename_i hop
    rw [hop]
    rfl
  · split at hswitch
    · rename_i hop
      simp only [checkFirstupdate, Except.bind_eq_ok, Except.raiseIf_eq_ok, not_or, not_not] at hswitch
      obtain ⟨nNetFee, -, -, -, -, ⟨-, hprev⟩, -⟩ := hswitch
      rw [if_pos hop]
      exact decide_eq_true hprev
    · split at hswitch
      · rename_i hfirst hop
        simp only [checkUpdate, Except.bind_eq_ok, Except.raiseIf_eq_ok] at hswitch
        obtain ⟨-, hprev, -⟩ := hswitch
        rw [if_neg hfirst, if_pos hop, ← Bool.decide_or]
        simp only [not_or, not_and_or, not_not] at hprev
        exact decide_eq_true hprev.2
      · cases hswitch

theorem prevOpFits_wanted (op : Nat) : prevOpFits op (wantedOp op) = true := by
  unfold prevOpFits wantedOp
  split
  · rfl
  · split <;> rfl

theorem nameTail_ok (h : (exec (c.nameTail prev) s).1 = .ok ()) :
    ∃ d, decodeNameTx c.env c.tx c.nHeight = some d ∧ prevOpFits d.op prev.op = true := by
  have hexec := exec_eta h
  unfold nameTail at hexec
  obtain ⟨d, s1, hd, hexec⟩ := bind_ok.mp hexec
  obtain ⟨hdecode, -⟩ := fromOption_ok.mp hd
  obtain ⟨s2, s3, -, hexec⟩ := bind_ok.mp hexec
  obtain ⟨bug, s4, hcheck, -⟩ := bind_ok.mp hexec
  obtain ⟨hok, -⟩ := fromExcept_ok.mp hcheck
  exact ⟨d, hdecode, checkNameOp_fits hok⟩

theorem verdict_scan {prev : NameScan} (hversion : c.tx.nVersion = namecoinTxVersion)
    (hstrict : c.strictScan = true)
    (hscan : scanNameScripts true (inputs.map NameInput.script) 0 NameScan.start = some prev) :
    c.verdict inputs s = exec ((c.withInputs inputs).nameTail prev) s := by
  have hv : (c.withInputs inputs).tx.nVersion = namecoinTxVersion := hversion
  have hs : (c.withInputs inputs).strictScan = true := hstrict
  rw [verdict, connectInputs_tail hv hs, prevScripts_withInputs, hscan]
  rfl

theorem verdict_multiple (hversion : c.tx.nVersion = namecoinTxVersion)
    (hstrict : c.strictScan = true)
    (hscan : scanNameScripts true (inputs.map NameInput.script) 0 NameScan.start = none) :
    (c.verdict inputs s).1 ≠ .ok () := by
  have hv : (c.withInputs inputs).tx.nVersion = namecoinTxVersion := hversion
  have hs : (c.withInputs inputs).strictScan = true := hstrict
  rw [verdict, connectInputs_tail hv hs, prevScripts_withInputs, hscan]
  simp [fromOption]

theorem othersPass_perm (hperm : inputs.Perm inputs') (h : c.OthersPass inputs s d) :
    c.OthersPass inputs' s d := by
  obtain ⟨prev, hscan, hok⟩ := h
  obtain ⟨prev', hscan', hagree⟩ := scan_perm hperm hscan
  have hagree' : ScanAgrees inputs inputs' { prev with op := wantedOp d.op }
    { prev' with op := wantedOp d.op } := ⟨hagree.vvch, hagree.found, hagree.input⟩
  exact ⟨prev', hscan', (nameTail_agrees hagree' (fun _ _ => rfl)).accepted.mp hok⟩

theorem accepted_of_others (hversion : c.tx.nVersion = namecoinTxVersion)
    (hstrict : c.strictScan = true) (hd : decodeNameTx c.env c.tx c.nHeight = some d)
    (hothers : c.OthersPass inputs s d) : (c.verdict inputs s).1 = .ok () ↔
      prevOpFits d.op (leftoverOp (inputs.map NameInput.script) 0) = true := by
  obtain ⟨prev, hscan, hok⟩ := hothers
  have hop : prev.op = leftoverOp (inputs.map NameInput.script) 0 := scanNameScripts_op hscan
  have hagree : ScanAgrees inputs inputs { prev with op := wantedOp d.op } prev := ⟨rfl, rfl, rfl⟩
  rw [verdict_scan hversion hstrict hscan, ← hop]
  constructor
  · intro h
    obtain ⟨d', hd', hfits⟩ := nameTail_ok h
    obtain rfl : d = d' := Option.some.inj (hd.symm.trans hd')
    exact hfits
  · intro hfits
    refine (nameTail_agrees hagree ?_).accepted.mp hok
    intro d' hd'
    obtain rfl : d = d' := Option.some.inj (hd.symm.trans hd')
    rw [hfits]
    exact prevOpFits_wanted d.op

theorem others_of_accepted (hversion : c.tx.nVersion = namecoinTxVersion)
    (hstrict : c.strictScan = true) (h : (c.verdict inputs s).1 = .ok ()) :
    ∃ d, decodeNameTx c.env c.tx c.nHeight = some d ∧ c.OthersPass inputs s d := by
  cases hscan : scanNameScripts true (inputs.map NameInput.script) 0 NameScan.start with
  | none => exact absurd h (verdict_multiple hversion hstrict hscan)
  | some prev =>
    rw [verdict_scan hversion hstrict hscan] at h
    obtain ⟨d, hd, hfits⟩ := nameTail_ok h
    have hagree : ScanAgrees inputs inputs prev { prev with op := wantedOp d.op } := ⟨rfl, rfl, rfl⟩
    refine ⟨d, hd, prev, hscan, (nameTail_agrees hagree ?_).accepted.mp h⟩
    intro d' hd'
    obtain rfl : d = d' := Option.some.inj (hd.symm.trans hd')
    rw [prevOpFits_wanted]
    exact hfits

theorem OrderFree.leftover (h : c.OrderFree inputs s) (hperm : inputs.Perm inputs')
    (hd : decodeNameTx c.env c.tx c.nHeight = some d) (hothers : c.OthersPass inputs s d) :
    prevOpFits d.op (leftoverOp (inputs.map NameInput.script) 0) =
      prevOpFits d.op (leftoverOp (inputs'.map NameInput.script) 0) := by
  have hnone := lastOp_perm (hperm.map NameInput.script)
  rw [leftoverOp_eq, leftoverOp_eq]
  cases hp : lastOp (inputs.map NameInput.script) with
  | none => rw [hnone.mp hp]
  | some p =>
    cases hq : lastOp (inputs'.map NameInput.script) with
    | none =>
      rw [hnone.mpr hq] at hp
      cases hp
    | some q =>
      obtain ⟨_, hmem, hint⟩ := lastOp_mem hp
      obtain ⟨i, hi, rfl⟩ := List.mem_map.mp hmem
      obtain ⟨_, hmem', hint'⟩ := lastOp_mem hq
      obtain ⟨j, hj, rfl⟩ := List.mem_map.mp hmem'
      exact h.fits d hd hothers i hi j (hperm.mem_iff.mpr hj) p q hint hint'

theorem leftoverOp_last {i : NameInput} {p : Nat} (hp : smallInt i.script = some p) :
    leftoverOp ((inputs ++ [i]).map NameInput.script) 0 = p := by
  rw [leftoverOp_eq, lastOp, List.map_append, List.filterMap_append]
  simp [hp]

theorem accepted_with_last (hversion : c.tx.nVersion = namecoinTxVersion)
    (hstrict : c.strictScan = true)
    (h : ∀ inputs', inputs.Perm inputs' → SameVerdict (c.verdict inputs s) (c.verdict inputs' s))
    (hd : decodeNameTx c.env c.tx c.nHeight = some d) (hothers : c.OthersPass inputs s d)
    {i : NameInput} {p : Nat} (hi : i ∈ inputs) (hp : smallInt i.script = some p) :
    (c.verdict inputs s).1 = .ok () ↔ prevOpFits d.op p = true := by
  have hperm : inputs.Perm (inputs.erase i ++ [i]) :=
    (List.perm_cons_erase hi).trans (List.perm_append_singleton i _).symm
  rw [(h _ hperm).accepted, accepted_of_others hversion hstrict hd (othersPass_perm hperm hothers),
    leftoverOp_last hp]

theorem input_order_free_iff (hversion : c.tx.nVersion = namecoinTxVersion)
    (hstrict : c.strictScan = true) :
    (∀ inputs', inputs.Perm inputs' → SameVerdict (c.verdict inputs s) (c.verdict inputs' s)) ↔
      c.OrderFree inputs s := by
  constructor
  · intro h
    refine ⟨?_⟩
    intro d hd hothers i hi j hj p q hp hq
    rw [Bool.eq_iff_iff, ← accepted_with_last hversion hstrict h hd hothers hi hp,
      ← accepted_with_last hversion hstrict h hd hothers hj hq]
  · intro h inputs' hperm
    cases hscan : scanNameScripts true (inputs.map NameInput.script) 0 NameScan.start with
    | none =>
      have hscan' : scanNameScripts true (inputs'.map NameInput.script) 0 NameScan.start = none := by
        cases hs : scanNameScripts true (inputs'.map NameInput.script) 0 NameScan.start with
        | none => rfl
        | some prev' =>
          obtain ⟨prev, hprev, -⟩ := scan_perm hperm.symm hs
          rw [hscan] at hprev
          cases hprev
      exact sameVerdict_rejected (verdict_multiple hversion hstrict hscan)
        (verdict_multiple hversion hstrict hscan')
    | some prev =>
      obtain ⟨prev', hscan', hagree⟩ := scan_perm hperm hscan
      by_cases hothers : ∃ d, decodeNameTx c.env c.tx c.nHeight = some d ∧ c.OthersPass inputs s d
      · obtain ⟨d, hd, hothers⟩ := hothers
        rw [verdict_scan hversion hstrict hscan, verdict_scan hversion hstrict hscan']
        apply nameTail_agrees hagree
        intro d' hd'
        obtain rfl : d = d' := Option.some.inj (hd.symm.trans hd')
        rw [scanNameScripts_op hscan, scanNameScripts_op hscan']
        exact h.leftover hperm hd hothers
      · have hno : (c.verdict inputs s).1 ≠ .ok () :=
          fun hok => hothers (others_of_accepted hversion hstrict hok)
        have hno' : (c.verdict inputs' s).1 ≠ .ok () := by
          intro hok
          obtain ⟨d, hd, hpass⟩ := others_of_accepted hversion hstrict hok
          exact hothers ⟨d, hd, othersPass_perm hperm.symm hpass⟩
        exact sameVerdict_rejected hno hno'

end NameCall

def renewalInput : NameInput :=
  ⟨⟨⟨renewalHead.getHash sampleEnv, 0⟩, [], uintMax⟩, renewalHead,
    CTxIndex.make (samplePos 8 renewalOldBlock 1) 1⟩

def coinInput (scriptPubKey : CScript) : NameInput :=
  ⟨⟨⟨2, 0⟩, [], uintMax⟩, sampleTx 1 [(3, 0)] [(cent, scriptPubKey)],
    CTxIndex.make (samplePos 8 renewalOldBlock 1) 1⟩

def renewalCall : NameCall :=
  ((sampleCall renewalStart 2000 renewalBlock).txCall renewalTx).nameCall
    (samplePos 2000 renewalBlock 1) []

theorem renewal_order_free : renewalCall.tx.nVersion = namecoinTxVersion ∧
    renewalCall.strictScan = true ∧
    (renewalCall.verdict [renewalInput, coinInput [118]]
      (BlockCall.startState renewalStart.state)).1 = .ok () ∧
    ∀ inputs', [renewalInput, coinInput [118]].Perm inputs' →
      SameVerdict
        (renewalCall.verdict [renewalInput, coinInput [118]] (BlockCall.startState renewalStart.state))
        (renewalCall.verdict inputs' (BlockCall.startState renewalStart.state)) := by
  refine ⟨by decide, by decide +kernel, by decide +kernel,
    (NameCall.input_order_free_iff (by decide) (by decide +kernel)).mpr ⟨?_⟩⟩
  have hone : ∀ i ∈ [renewalInput, coinInput [118]], ∀ p, smallInt i.script = some p → p = 2 := by
    intro i hi p hp
    simp only [List.mem_cons, List.not_mem_nil, or_false] at hi
    rcases hi with rfl | rfl
    · have hint : smallInt renewalInput.script = some 2 := by decide +kernel
      exact Option.some.inj (hp.symm.trans hint)
    · have hint : smallInt (coinInput [118]).script = none := by decide +kernel
      rw [hint] at hp
      cases hp
  intro d _ _ i hi j hj p q hp hq
  rw [hone i hi p hp, hone j hj q hq]

theorem stray_input_order : renewalCall.tx.nVersion = namecoinTxVersion ∧
    renewalCall.strictScan = true ∧
    (renewalCall.verdict [coinInput [81], renewalInput]
      (BlockCall.startState renewalStart.state)).1 = .ok () ∧
    (renewalCall.verdict [renewalInput, coinInput [81]]
      (BlockCall.startState renewalStart.state)).1 =
        .error (.reject "name_update tx without previous update tx") ∧
    ¬∀ inputs', [coinInput [81], renewalInput].Perm inputs' →
      SameVerdict
        (renewalCall.verdict [coinInput [81], renewalInput] (BlockCall.startState renewalStart.state))
        (renewalCall.verdict inputs' (BlockCall.startState renewalStart.state)) := by
  have hfirst : (renewalCall.verdict [coinInput [81], renewalInput]
    (BlockCall.startState renewalStart.state)).1 = .ok () := by decide +kernel
  have hsecond : (renewalCall.verdict [renewalInput, coinInput [81]]
      (BlockCall.startState renewalStart.state)).1 =
        .error (.reject "name_update tx without previous update tx") := by decide +kernel
  refine ⟨by decide, by decide +kernel, hfirst, hsecond, ?_⟩
  intro h
  have hok := (h _ (List.Perm.swap renewalInput (coinInput [81]) [])).accepted.mp hfirst
  rw [hsecond] at hok
  cases hok

end Namecoin
