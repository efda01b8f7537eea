import Namecoin.Name.Reconstruct

namespace Namecoin

open Act

def lastOp (scripts : List CScript) : Option Nat := (scripts.filterMap smallInt).getLast?

def OwnOpLast (tx : CTransaction) : Prop :=
  ∀ (k op : Nat) (vvch : List VchType), OnlyName tx.outScripts k op vvch →
    lastOp tx.outScripts = some op

abbrev InRange {α : Type} (x : Except Fault α) : Prop := x.Avoids .undefined

abbrev InRangeAt {σ α : Type} (x : Act Fault σ α) (s : σ) : Prop := x.Avoids .undefined s

structure OwnTxCall (env : Env) (tx : CTransaction) (nHeight : Nat) (c : NameCall) : Prop where
  env_eq : c.env = env
  tx_eq : c.tx = tx
  height_eq : c.nHeight = nHeight
  indices : c.vTxindex.length = tx.vin.length
  stored : ∀ tx', c.view.disk.readFromDisk c.txPos = some tx' → tx' = tx
  best : postLibcoinFork env c.view.pindexBestHeight = true

structure CoherentDecode (env : Env) (tx : CTransaction) (nHeight : Nat) : Prop where
  own : ∀ d, decodeNameTx env tx nHeight = some d → OnlyName tx.outScripts d.nOut d.op d.vvch
  count : ∀ d, decodeNameTx env tx nHeight = some d → argCount d.op d.vvch = true
  rules : InRange (checkNameRules env tx nHeight)
  hook : ∀ (c : NameCall) (vTxPrev : List CTransaction) (s : ConnState),
    OwnTxCall env tx nHeight c → InRangeAt (c.connectInputs vTxPrev) s
  value : InRange (getValueOfNameTx env tx nHeight)
  rebuild : ∀ (d : Disk) (db : DatabaseSet), InRange (reconstructTx env d nHeight tx db)

theorem leftoverOp_eq (scripts : List CScript) (op : Nat) :
    leftoverOp scripts op = (lastOp scripts).getD op := by
  induction scripts generalizing op with
  | nil => rfl
  | cons script rest ih =>
    have hstep : leftoverOp (script :: rest) op = leftoverOp rest ((smallInt script).getD op) := rfl
    rw [hstep, ih, lastOp, lastOp, List.filterMap_cons]
    cases smallInt script with
    | none => rfl
    | some n =>
      rw [List.getLast?_cons]
      cases (List.filterMap smallInt rest).getLast? <;> rfl

theorem decode_not_ok {script : CScript} (op : Nat) (h : decodedName script = none) :
    (decodeNameScript script op []).ok = false := by
  by_contra hne
  rw [decodedName_of_ok (by simpa using hne)] at h
  cases h

theorem decode_ok {script : CScript} {op : Nat} {vvch : List VchType} (op0 : Nat)
    (h : decodedName script = some (op, vvch)) :
    (decodeNameScript script op0 []).ok = true ∧ (decodeNameScript script op0 []).vvch = vvch := by
  cases hok : (decodeNameScript script op0 []).ok with
  | false =>
    rw [decodedName_of_not_ok hok] at h
    cases h
  | true =>
    rw [decodedName_of_ok hok] at h
    exact ⟨rfl, (Prod.mk.inj (Option.some.inj h)).2⟩

theorem scanNameScripts_none_left {scripts : List CScript} {i : Nat} {r : NameScan}
    (h : ∀ script ∈ scripts, decodedName script = none) :
    ∃ r', scanNameScripts true scripts i r = some r' ∧ r'.found = r.found ∧ r'.vvch = r.vvch := by
  induction scripts generalizing i r with
  | nil => exact ⟨r, rfl, rfl, rfl⟩
  | cons script rest ih =>
    have hok := decode_not_ok r.op (h script (List.mem_cons_self ..))
    obtain ⟨r', hscan, hfound, hvvch⟩ := ih (i := i + 1)
      (r := ⟨r.found, (decodeNameScript script r.op []).op, r.vvch⟩)
      (fun x hx => h x (List.mem_cons_of_mem _ hx))
    refine ⟨r', ?_, hfound, hvvch⟩
    simpa only [scanNameScripts, if_true, hok, Bool.false_eq_true, if_false] using hscan

theorem scanNameScripts_only {scripts : List CScript} {i k op : Nat} {vvch : List VchType}
    {r : NameScan} (h : OnlyName scripts k op vvch) (hr : r.found = none) :
    ∃ r', scanNameScripts true scripts i r = some r' ∧ r'.found = some (i + k) ∧ r'.vvch = vvch := by
  induction scripts generalizing i k r with
  | nil =>
    have hk := h.at_k
    simp at hk
  | cons script rest ih =>
    cases k with
    | zero =>
      have hd : decodedName script = some (op, vvch) := by simpa using h.at_k
      have hrest : ∀ x ∈ rest, decodedName x = none := by
        intro x hx
        obtain ⟨j, hj⟩ := List.mem_iff_getElem?.mp hx
        exact h.unique (j + 1) x (by simpa using hj) (by omega)
      obtain ⟨hok, hv⟩ := decode_ok r.op hd
      obtain ⟨r', hscan, hfound, hvvch⟩ := scanNameScripts_none_left (i := i + 1)
        (r := ⟨some i, (decodeNameScript script r.op []).op,
          (decodeNameScript script r.op []).vvch⟩) hrest
      refine ⟨r', ?_, by simpa using hfound, hvvch.trans hv⟩
      simpa only [scanNameScripts, if_true, hok, hr] using hscan
    | succ k =>
      have hd : decodedName script = none := h.unique 0 script rfl (by omega)
      have hok := decode_not_ok r.op hd
      have honly : OnlyName rest k op vvch := by
        refine ⟨by simpa using h.at_k, ?_⟩
        intro j x hj hne
        exact h.unique (j + 1) x (by simpa using hj) (by omega)
      obtain ⟨r', hscan, hfound, hvvch⟩ := ih (i := i + 1)
        (r := ⟨r.found, (decodeNameScript script r.op []).op, r.vvch⟩) honly hr
      refine ⟨r', ?_, ?_, hvvch⟩
      · simpa only [scanNameScripts, if_true, hok, Bool.false_eq_true, if_false] using hscan
      · rw [hfound]
        congr 1
        omega

theorem decodeNameTx_only {env : Env} {tx : CTransaction} {nHeight k op : Nat}
    {vvch : List VchType} (hf : postLibcoinFork env nHeight = true)
    (h : OnlyName tx.outScripts k op vvch) :
    decodeNameTx env tx nHeight = some ⟨leftoverOp tx.outScripts 0, k, vvch⟩ := by
  obtain ⟨r, hscan, hfound, hvvch⟩ := scanNameScripts_only (i := 0) (r := NameScan.start) h rfl
  unfold decodeNameTx
  rw [hf, hscan]
  simp only [hfound, Nat.zero_add, Option.map_some, hvvch, scanNameScripts_op hscan]
  rfl

theorem OnlyName.argCount {scripts : List CScript} {k op : Nat} {vvch : List VchType}
    (h : OnlyName scripts k op vvch) : argCount op vvch = true := by
  obtain ⟨script, -, hd⟩ := Option.bind_eq_some_iff.mp h.at_k
  exact decodedName_argCount hd

theorem OnlyName.lastOp_some {scripts : List CScript} {k op : Nat} {vvch : List VchType}
    (h : OnlyName scripts k op vvch) : ∃ op', lastOp scripts = some op' := by
  obtain ⟨script, hk, hd⟩ := Option.bind_eq_some_iff.mp h.at_k
  have hmem : op ∈ scripts.filterMap smallInt :=
    List.mem_filterMap.mpr ⟨script, List.mem_of_getElem? hk, decodedName_op hd⟩
  exact Option.isSome_iff_exists.mp (List.getLast?_isSome.mpr (List.ne_nil_of_mem hmem))

theorem decode_own {env : Env} {tx : CTransaction} {nHeight : Nat} {d : NameTx}
    (hf : postLibcoinFork env nHeight = true) (hlast : OwnOpLast tx)
    (h : decodeNameTx env tx nHeight = some d) : OnlyName tx.outScripts d.nOut d.op d.vvch := by
  obtain ⟨hop, op, honly⟩ := decodeNameTx_strict hf h
  rw [leftoverOp_eq, hlast _ _ _ honly] at hop
  obtain rfl : d.op = op := hop
  exact honly

theorem ownOpLast_of_decode {env : Env} {tx : CTransaction} {nHeight : Nat}
    (hf : postLibcoinFork env nHeight = true)
    (h : ∀ d, decodeNameTx env tx nHeight = some d → OnlyName tx.outScripts d.nOut d.op d.vvch) :
    OwnOpLast tx := by
  intro k op vvch honly
  have hk := (h _ (decodeNameTx_only hf honly)).at_k
  rw [honly.at_k] at hk
  obtain ⟨op', hop'⟩ := honly.lastOp_some
  have hleft : leftoverOp tx.outScripts 0 = op' := by
    rw [leftoverOp_eq, hop']
    rfl
  have hown : op = leftoverOp tx.outScripts 0 := (Prod.mk.inj (Option.some.inj hk)).1
  rw [hop', ← hleft, ← hown]

theorem vchAt_inRange {vvch : List VchType} {i : Nat} (h : i < vvch.length) :
    InRange (vchAt vvch i) := by
  unfold vchAt
  rw [List.getElem?_eq_getElem h]
  exact Except.avoids_ok _

section Args

variable {op : Nat} {vvch : List VchType}

theorem vchAt_head (h : argCount op vvch = true) : InRange (vchAt vvch 0) :=
  vchAt_inRange (List.length_pos_iff.mpr (argCount_ne_nil h))

theorem vchAt_firstupdate (h : argCount op vvch = true) (hop : op = opNameFirstupdate) {i : Nat}
    (hi : i < 3) : InRange (vchAt vvch i) := by
  subst hop
  exact vchAt_inRange (by rw [argCount_firstupdate h]; exact hi)

theorem vchAt_update (h : argCount op vvch = true) (hop : op = opNameUpdate) {i : Nat}
    (hi : i < 2) : InRange (vchAt vvch i) := by
  subst hop
  exact vchAt_inRange (by rw [argCount_update h]; exact hi)

end Args

theorem checkNameRules_inRange {env : Env} {tx : CTransaction} {nHeight : Nat}
    (h : ∀ d, decodeNameTx env tx nHeight = some d → argCount d.op d.vvch = true) :
    InRange (checkNameRules env tx nHeight) := by
  unfold checkNameRules
  cases hd : decodeNameTx env tx nHeight with
  | none => exact Except.avoids_ok _
  | some d =>
    have hargs := h d hd
    apply Except.avoids_bind (vchAt_head hargs)
    intro vchName _
    split
    · exact Except.avoids_ok _
    · split
      · exact Except.avoids_ok _
      · split
        · rename_i hop
          apply Except.avoids_bind (vchAt_firstupdate hargs hop (by decide))
          intro vchRand _
          exact Except.avoids_map _ (vchAt_firstupdate hargs hop (by decide))
        · split
          · rename_i hop
            exact Except.avoids_map _ (vchAt_update hargs hop (by decide))
          · exact Except.avoids_ok _

theorem getValueOfNameTx_inRange {env : Env} {tx : CTransaction} {nHeight : Nat}
    (h : ∀ d, decodeNameTx env tx nHeight = some d → argCount d.op d.vvch = true) :
    InRange (getValueOfNameTx env tx nHeight) := by
  unfold getValueOfNameTx
  cases hd : decodeNameTx env tx nHeight with
  | none => exact Except.avoids_ok _
  | some d =>
    have hargs := h d hd
    dsimp only
    split
    · rename_i hop
      exact Except.avoids_map _ (vchAt_firstupdate hargs hop (by decide))
    · split
      · rename_i hop
        exact Except.avoids_map _ (vchAt_update hargs hop (by decide))
      · exact Except.avoids_ok _

theorem recordTx_inRange {env : Env} {nHeight : Nat} {d : NameTx} {vchName : VchType}
    {txPos prevTxPos : CDiskTxPos} {db : DatabaseSet} (hargs : argCount d.op d.vvch = true)
    (hnew : d.op ≠ opNameNew) : InRange (recordTx env nHeight d vchName txPos prevTxPos db) := by
  unfold recordTx
  dsimp only
  split
  · exact Except.avoids_ok _
  · apply Except.avoids_bind
    · rcases argCount_op hargs with hop | hop | hop
      · exact absurd hop hnew
      · rw [if_pos hop]
        exact vchAt_firstupdate hargs hop (by decide)
      · rw [if_neg (by rw [hop]; decide)]
        exact vchAt_update hargs hop (by decide)
    · intro vchValue _
      exact Except.avoids_pure _

theorem reconstructTx_inRange {env : Env} {tx : CTransaction} {nHeight : Nat}
    (hf : postLibcoinFork env nHeight = true)
    (h : ∀ d, decodeNameTx env tx nHeight = some d → argCount d.op d.vvch = true) (disk : Disk)
    (db : DatabaseSet) : InRange (reconstructTx env disk nHeight tx db) := by
  unfold reconstructTx
  split
  · exact Except.avoids_ok _
  · cases hd : decodeNameTx env tx nHeight with
    | none => exact Except.avoids_ok _
    | some d =>
      have hargs := h d hd
      dsimp only
      split
      · exact Except.avoids_ok _
      · rename_i hnew
        apply Except.avoids_bind (vchAt_head hargs)
        intro vchName _
        split
        · exact Except.avoids_ok _
        · apply Except.avoids_bind
          · rw [workaroundPrev, hf]
            exact Except.avoids_ok _
          · intro accepted _
            cases accepted with
            | none => exact Except.avoids_ok _
            | some prevTxPos => exact recordTx_inRange hargs hnew

theorem sum64_inRange (l : List Int) (n : Int) : InRange (sum64 l n) := by
  induction l generalizing n with
  | nil => exact Except.avoids_ok _
  | cons v rest ih =>
    rw [sum64]
    unfold add64
    split
    · rename_i e he
      split at he
      · cases he
      · cases he
        exact Except.avoids_error (by simp)
    · exact ih _

namespace NameCall

variable {c : NameCall}

theorem inputIndex_inRange {prev : NameScan} {k : Nat} (hfound : prev.found = some k)
    (hk : k < c.vTxindex.length) : InRange (c.inputIndex prev) := by
  unfold inputIndex
  rw [hfound]
  dsimp only
  rw [List.getElem?_eq_getElem hk]
  exact Except.avoids_ok _

theorem checkNew_inRange (vchName : VchType) (prev : NameScan) : InRange (checkNew vchName prev) := by
  unfold checkNew
  apply Except.avoids_bind (Except.avoids_raiseIf (by simp) _)
  intro _ _
  apply Except.avoids_bind (Except.avoids_raiseIf (by simp) _)
  intro _ _
  exact Except.avoids_pure _

structure PrevInRange (c : NameCall) (prev : NameScan) : Prop where
  input : ∀ k, prev.found = some k → k < c.vTxindex.length
  args : prev.found.isSome → InRange (vchAt prev.vvch 0)

theorem PrevInRange.inputIndex {prev : NameScan} (h : c.PrevInRange prev)
    (hfound : prev.found.isSome) : InRange (c.inputIndex prev) := by
  obtain ⟨k, hk⟩ := Option.isSome_iff_exists.mp hfound
  exact inputIndex_inRange hk (h.input k hk)

theorem checkMiner_inRange (s : ConnState) (vchName : VchType) (txindex : CTxIndex) :
    InRange (c.checkMiner s vchName txindex) := by
  unfold checkMiner
  apply Except.avoids_bind (Except.avoids_raiseIf (by simp) _)
  intro _ _
  exact Except.avoids_raiseIf (by simp) _

theorem checkFirstupdate_inRange {s : ConnState} {vchName : VchType} {d : NameTx} {prev : NameScan}
    (hprev : c.PrevInRange prev) (hargs : argCount d.op d.vvch = true)
    (hop : d.op = opNameFirstupdate) : InRange (c.checkFirstupdate s vchName d prev) := by
  unfold checkFirstupdate
  apply Except.avoids_bind (sum64_inRange _ _)
  intro nNetFee _
  apply Except.avoids_bind (Except.avoids_raiseIf (by simp) _)
  intro _ _
  apply Except.avoids_bind (Except.avoids_raiseIf (by simp) _)
  intro _ hfound
  rw [Except.raiseIf_eq_ok, not_or, Option.isNone_iff_eq_none] at hfound
  have hsome : prev.found.isSome := Option.isSome_iff_ne_none.mpr hfound.1
  apply Except.avoids_bind (vchAt_firstupdate hargs hop (by decide))
  intro vchRand _
  apply Except.avoids_bind (Except.avoids_raiseIf (by simp) _)
  intro _ _
  apply Except.avoids_bind (vchAt_firstupdate hargs hop (by decide))
  intro vchValue _
  apply Except.avoids_bind (Except.avoids_raiseIf (by simp) _)
  intro _ _
  apply Except.avoids_bind (hprev.args hsome)
  intro vchHash _
  apply Except.avoids_bind (Except.avoids_raiseIf (by simp) _)
  intro _ _
  apply Except.avoids_bind (Except.avoids_raiseIf (by simp) _)
  intro _ _
  apply Except.avoids_bind (hprev.inputIndex hsome)
  intro txindex _
  apply Except.avoids_bind (Except.avoids_raiseIf (by simp) _)
  intro _ _
  apply Except.avoids_bind (Except.avoids_doIf (fun _ => checkMiner_inRange s vchName txindex))
  intro _ _
  exact Except.avoids_pure _

theorem checkUpdate_inRange {vchName : VchType} {d : NameTx} {prev : NameScan}
    (hprev : c.PrevInRange prev) (hargs : argCount d.op d.vvch = true)
    (hop : d.op = opNameUpdate) : InRange (c.checkUpdate vchName d prev) := by
  unfold checkUpdate
  apply Except.avoids_bind (Except.avoids_raiseIf (by simp) _)
  intro _ hfound
  rw [Except.raiseIf_eq_ok, not_or, Option.isNone_iff_eq_none] at hfound
  have hsome : prev.found.isSome := Option.isSome_iff_ne_none.mpr hfound.1
  apply Except.avoids_bind (vchAt_update hargs hop (by decide))
  intro vchValue _
  apply Except.avoids_bind (Except.avoids_raiseIf (by simp) _)
  intro _ _
  apply Except.avoids_bind (hprev.args hsome)
  intro vchPrevName _
  apply Except.avoids_bind (Except.avoids_raiseIf (by simp) _)
  intro _ _
  apply Except.avoids_bind (hprev.inputIndex hsome)
  intro txindex _
  apply Except.avoids_bind (Except.avoids_raiseIf (by simp) _)
  intro _ _
  exact Except.avoids_pure _

theorem checkNameOp_inRange {s : ConnState} {d : NameTx} {prev : NameScan}
    (hprev : c.PrevInRange prev) (hargs : argCount d.op d.vvch = true) :
    InRange (c.checkNameOp s d prev) := by
  unfold checkNameOp
  apply Except.avoids_bind (Except.avoids_raiseIf (by simp) _)
  intro _ _
  apply Except.avoids_bind (vchAt_head hargs)
  intro vchName _
  apply Except.avoids_bind (Except.avoids_raiseIf (by simp) _)
  intro _ _
  apply Except.avoids_bind
  · unfold checkSwitch
    split
    · exact checkNew_inRange vchName prev
    · split
      · rename_i hop
        exact checkFirstupdate_inRange hprev hargs hop
      · split
        · rename_i hop
          exact checkUpdate_inRange hprev hargs hop
        · exact Except.avoids_error (by simp)
  · intro fBugWorkaround _
    apply Except.avoids_bind (Except.avoids_raiseIf (by simp) _)
    intro _ _
    exact Except.avoids_pure _

theorem checkNameOp_found {s : ConnState} {d : NameTx} {prev : NameScan} {bug : Bool}
    (h : c.checkNameOp s d prev = .ok bug) (hop : d.op = opNameUpdate) : prev.found.isSome := by
  simp only [checkNameOp, Except.bind_eq_ok] at h
  obtain ⟨-, -, vchName, -, -, -, bug', hswitch, -⟩ := h
  rw [checkSwitch, if_neg (by rw [hop]; decide), if_neg (by rw [hop]; decide), if_pos hop] at hswitch
  simp only [checkUpdate, Except.bind_eq_ok, Except.raiseIf_eq_ok, not_or,
    Option.isNone_iff_eq_none] at hswitch
  obtain ⟨-, ⟨hne, -⟩, -⟩ := hswitch
  exact Option.isSome_iff_ne_none.mpr hne

theorem badPrevPos_inRange {vtxPos : List CNameIndex} {d : NameTx} {prev : NameScan}
    (hprev : c.PrevInRange prev) (hfound : d.op = opNameUpdate → prev.found.isSome) :
    InRange (c.badPrevPos vtxPos d prev) := by
  unfold badPrevPos
  split
  · rename_i hop
    exact Except.avoids_map _ (hprev.inputIndex (hfound hop))
  · exact Except.avoids_ok _

theorem writeHistory_inRange {vchName : VchType} {d : NameTx} {prev : NameScan} {s : ConnState}
    (hprev : c.PrevInRange prev) (hfound : d.op = opNameUpdate → prev.found.isSome)
    (hvalue : InRange (getValueOfTxPos c.env c.view c.txPos)) :
    InRangeAt (c.writeHistory vchName d prev) s := by
  unfold writeHistory
  apply avoids_bind avoids_get
  intro s' _ _
  apply avoids_bind (avoids_fromExcept (badPrevPos_inRange hprev hfound))
  intro bad _ _
  split
  · exact avoids_raiseIf (by simp) _
  · apply avoids_bind (avoids_fromExcept hvalue)
    intro vchValue _ _
    exact avoids_modify _

theorem applyNameOp_inRange {d : NameTx} {prev : NameScan} {s : ConnState}
    (hprev : c.PrevInRange prev) (hargs : argCount d.op d.vvch = true)
    (hfound : d.op = opNameUpdate → prev.found.isSome)
    (hvalue : InRange (getValueOfTxPos c.env c.view c.txPos)) :
    InRangeAt (c.applyNameOp d prev) s := by
  unfold applyNameOp
  apply avoids_bind avoids_get
  intro s' _ _
  apply avoids_bind (avoids_fromExcept (vchAt_head hargs))
  intro vchName _ _
  apply avoids_bind (avoids_fromExcept (badPrevPos_inRange hprev hfound))
  intro bad _ _
  apply avoids_bind (avoids_raiseIf (by simp) _)
  intro _ _ _
  apply avoids_bind (avoids_doIf (fun _ => writeHistory_inRange hprev hfound hvalue))
  intro _ _ _
  exact avoids_doIf (fun _ => avoids_modify _)

theorem scan_inRange {vTxPrev : List CTransaction} {prev : NameScan}
    (hlen : c.vTxindex.length = c.tx.vin.length)
    (scan : scanNameScripts true (prevScripts c.tx vTxPrev) 0 NameScan.start = some prev) :
    c.PrevInRange prev := by
  constructor
  · intro k hk
    obtain ⟨op, honly⟩ := scan_found scan hk
    obtain ⟨script, hscript, -⟩ := Option.bind_eq_some_iff.mp honly.at_k
    obtain ⟨hlt, -⟩ := List.getElem?_eq_some_iff.mp hscript
    rw [prevScripts, List.length_zipWith] at hlt
    omega
  · intro hsome
    obtain ⟨k, hk⟩ := Option.isSome_iff_exists.mp hsome
    obtain ⟨op, honly⟩ := scan_found scan hk
    exact vchAt_head honly.argCount

theorem connectInputs_inRange {vTxPrev : List CTransaction} {s : ConnState}
    (hstrict : c.strictScan = true) (hlen : c.vTxindex.length = c.tx.vin.length)
    (hargs : ∀ d, decodeNameTx c.env c.tx c.nHeight = some d → argCount d.op d.vvch = true)
    (hvalue : InRange (getValueOfTxPos c.env c.view c.txPos)) :
    InRangeAt (c.connectInputs vTxPrev) s := by
  unfold connectInputs
  apply avoids_bind (avoids_fromOption (by simp) _)
  intro prev s1 hscan
  obtain ⟨scan, -⟩ := fromOption_ok.mp hscan
  rw [hstrict] at scan
  have hprev := scan_inRange hlen scan
  split
  · apply avoids_bind (avoids_raiseIf (by simp) _)
    intro _ _ _
    exact avoids_raiseIf (by simp) _
  · apply avoids_bind (avoids_fromOption (by simp) _)
    intro d s2 hd
    obtain ⟨hdecode, -⟩ := fromOption_ok.mp hd
    apply avoids_bind avoids_get
    intro s3 _ _
    apply avoids_bind (avoids_fromExcept (checkNameOp_inRange hprev (hargs d hdecode)))
    intro bug s4 hcheck
    obtain ⟨hok, -⟩ := fromExcept_ok.mp hcheck
    exact avoids_doIf (fun _ => applyNameOp_inRange hprev (hargs d hdecode)
      (checkNameOp_found hok) hvalue)

end NameCall

theorem decode_coherent_iff {env : Env} {tx : CTransaction} {nHeight : Nat}
    (hf : postLibcoinFork env nHeight = true) : CoherentDecode env tx nHeight ↔ OwnOpLast tx := by
  constructor
  · intro h
    exact ownOpLast_of_decode hf h.own
  · intro hlast
    have hcount : ∀ n, postLibcoinFork env n = true → ∀ d, decodeNameTx env tx n = some d →
        argCount d.op d.vvch = true := fun n hn d hd => (decode_own hn hlast hd).argCount
    refine ⟨fun d hd => decode_own hf hlast hd, hcount nHeight hf,
      checkNameRules_inRange (hcount nHeight hf), ?_, getValueOfNameTx_inRange (hcount nHeight hf),
      reconstructTx_inRange hf (hcount nHeight hf)⟩
    intro c vTxPrev s hc
    apply NameCall.connectInputs_inRange
    · simp [NameCall.strictScan, hc.env_eq, hc.height_eq, hf]
    · rw [hc.indices, hc.tx_eq]
    · rw [hc.env_eq, hc.tx_eq, hc.height_eq]
      exact hcount nHeight hf
    · unfold getValueOfTxPos
      cases hread : c.view.disk.readFromDisk c.txPos with
      | none => exact Except.avoids_ok _
      | some tx' =>
        rw [hc.stored tx' hread, hc.env_eq]
        exact getValueOfNameTx_inRange (hcount _ hc.best)

theorem renewal_ownOpLast : OwnOpLast renewalTx := by
  intro k op vvch honly
  obtain ⟨script, hk, hd⟩ := Option.bind_eq_some_iff.mp honly.at_k
  have hmem : script ∈ renewalTx.outScripts := List.mem_of_getElem? hk
  have hscript : script = [83, 1, 65, 1, 90, 109] := by
    simpa [renewalTx, sampleTx, CTransaction.outScripts] using hmem
  have hlast : lastOp renewalTx.outScripts = smallInt script := by
    rw [hscript]
    decide
  rw [hlast, decodedName_op hd]

theorem renewal_coherent : postLibcoinFork sampleEnv 150001 = true ∧
    decodeNameTx sampleEnv renewalTx 150001 = some ⟨opNameUpdate, 0, [[65], [90]]⟩ ∧
    CoherentDecode sampleEnv renewalTx 150001 :=
  ⟨by decide, by decide +kernel, (decode_coherent_iff (by decide)).mpr renewal_ownOpLast⟩

def straySmallInt : CTransaction :=
  sampleTx namecoinTxVersion [(1, 0)] [(cent, [83, 1, 65, 1, 90, 109]), (0, [82])]

theorem straySmallInt_incoherent : postLibcoinFork sampleEnv 150001 = true ∧
    decodeNameTx sampleEnv straySmallInt 150001 = some ⟨opNameFirstupdate, 0, [[65], [90]]⟩ ∧
    (straySmallInt.outScripts[0]?).bind decodedName = some (opNameUpdate, [[65], [90]]) ∧
    getValueOfNameTx sampleEnv straySmallInt 150001 = .error .undefined ∧
    ¬CoherentDecode sampleEnv straySmallInt 150001 := by
  have hdecode : decodeNameTx sampleEnv straySmallInt 150001 =
    some ⟨opNameFirstupdate, 0, [[65], [90]]⟩ := by decide +kernel
  refine ⟨by decide, hdecode, by decide +kernel, by decide +kernel, ?_⟩
  intro h
  have hcount := h.count _ hdecode
  revert hcount
  decide

end Namecoin
