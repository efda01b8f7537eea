import Namecoin.Chain.Flags
import Namecoin.Chain.Run

namespace Namecoin

open Act

def NameTx.writes (d : NameTx) : Prop := d.op = opNameFirstupdate ∨ d.op = opNameUpdate

instance (d : NameTx) : Decidable d.writes := inferInstanceAs (Decidable (_ ∨ _))

inductive SpendMatches (c : TxCall) (db : DatabaseSet) (prev : NameScan) (d : NameTx)
    (vchName : VchType) : Prop
  | firstupdate {vchRand vchHash : VchType} (op : d.op = opNameFirstupdate)
      (rand : d.vvch[1]? = some vchRand) (hash : prev.vvch[0]? = some vchHash)
      (commits : uint160 vchHash = c.env.hash160 (vchRand ++ vchName))
  | update {nInput : Nat} {txin : CTxIn} {txindex : CTxIndex} (op : d.op = opNameUpdate)
      (name : prev.vvch[0]? = some vchName) (found : prev.found = some nInput)
      (input : c.tx.vin[nInput]? = some txin) (index : db.tx txin.prevout.hash = some txindex)
      (head : checkNameTxPos (db.readNameOrEmpty vchName) txindex.pos = true)

structure Recorded (c : TxCall) (db : DatabaseSet) (vchName : VchType) (prev : NameScan)
    (d : NameTx) : Prop where
  spends : c.tx.isCoinBase = false
  version : c.tx.nVersion = namecoinTxVersion
  scan : scanNameScripts (postLibcoinFork c.env c.pindexBlock.pindex.nHeight)
    (c.spentScripts db.tx) 0 NameScan.start = some prev
  decoded : decodeNameTx c.env c.tx c.pindexBlock.pindex.nHeight = some d
  name : d.vvch[0]? = some vchName
  matched : SpendMatches c db prev d vchName

def Records (c : TxCall) (db : DatabaseSet) (vchName : VchType) : Prop :=
  ∃ prev d, Recorded c db vchName prev d

theorem SpendMatches.writes {c : TxCall} {db : DatabaseSet} {prev : NameScan} {d : NameTx}
    {vchName : VchType} (h : SpendMatches c db prev d vchName) : d.writes := by
  cases h with
  | firstupdate op rand hash commits => exact .inl op
  | update op name found input index head => exact .inr op

section Effect

variable {c : TxCall} {pos : CDiskTxPos} {l : Ledger} {t : TxMap} {e : NameEffect} {fee : Int}
  {vchName : VchType}

theorem badPrevPos_update {rs : List (CTransaction × CTxIndex)} {n : Int} {prev : NameScan}
    {d : NameTx} {bad : Bool} {txin : CTxIn} {txindex : CTxIndex} {nInput : Nat}
    (run : SpendRun c c.tx.vin l.db.tx 0 rs t n) (op : d.op = opNameUpdate)
    (hfound : prev.found = some nInput) (hin : c.tx.vin[nInput]? = some txin)
    (hindex : l.db.tx txin.prevout.hash = some txindex)
    (h : (c.nameCall pos (rs.map Prod.snd)).badPrevPos (l.db.readNameOrEmpty vchName) d prev =
      .ok bad) : checkNameTxPos (l.db.readNameOrEmpty vchName) txindex.pos = !bad := by
  have hlen : nInput < rs.length := by
    rw [run.length_eq]
    exact (List.getElem?_eq_some_iff.mp hin).choose
  obtain ⟨txin', txindex0, hin', hindex', hpos, -⟩ := run.input (List.getElem?_eq_getElem hlen)
  obtain rfl : txin = txin' := Option.some.inj (hin.symm.trans hin')
  obtain rfl : txindex = txindex0 := Option.some.inj (hindex.symm.trans hindex')
  have hidx : (c.nameCall pos (rs.map Prod.snd)).inputIndex prev = .ok rs[nInput].2 :=
    NameCall.inputIndex_ok.mpr ⟨nInput, hfound, by simp [TxCall.nameCall, hlen]⟩
  simp only [NameCall.badPrevPos, op, if_true, hidx, Except.map, Except.ok.injEq] at h
  rw [hpos, ← h, Bool.not_not]
  rfl

theorem TxSpends.records_iff (h : TxSpends c pos l t e fee) :
    Records c l.db vchName ↔ ∃ entry, e = .append vchName entry := by
  constructor
  · rintro ⟨prev', d', hrec⟩
    cases h with
    | coinbase cb => exact absurd hrec.spends (by simp [cb])
    | @spend rs t nIn nOut prev e cb run scan name value fee range =>
      have hscan := hrec.scan
      rw [← prevScripts_eq run, scan] at hscan
      obtain rfl := Option.some.inj hscan
      cases name with
      | plain version unnamed => exact absurd hrec.version version
      | @bug d name ok =>
        obtain rfl : d = d' := Option.some.inj (ok.decoded.symm.trans hrec.decoded)
        obtain rfl : name = vchName := Option.some.inj (ok.name.symm.trans hrec.name)
        exfalso
        rcases ok.op with ⟨-, hok⟩ | ⟨h1, hok⟩ | ⟨h1, hok⟩
        · exact absurd hok.honest (by decide)
        · obtain ⟨rand, hash, hrand, hhash, hbug⟩ := hok.commit
          cases hrec.matched with
          | firstupdate op rand' hash' commits =>
            obtain rfl := Option.some.inj (hrand.symm.trans rand')
            obtain rfl := Option.some.inj (hhash.symm.trans hash')
            exact of_decide_eq_true hbug.symm commits
          | update op => exact absurd (h1.symm.trans op) (by decide)
        · obtain ⟨pname, hpname, hbug⟩ := hok.name
          cases hrec.matched with
          | firstupdate op => exact absurd (h1.symm.trans op) (by decide)
          | update op name found input index head =>
            exact of_decide_eq_true hbug.symm (Option.some.inj (hpname.symm.trans name))
      | @new d name op ok =>
        obtain rfl : d = d' := Option.some.inj (ok.decoded.symm.trans hrec.decoded)
        have hw := hrec.matched.writes
        rw [NameTx.writes, op] at hw
        exact absurd hw (by decide)
      | @skip d name op ok bad early =>
        obtain rfl : d = d' := Option.some.inj (ok.decoded.symm.trans hrec.decoded)
        obtain rfl : name = vchName := Option.some.inj (ok.name.symm.trans hrec.name)
        exfalso
        cases hrec.matched with
        | firstupdate op' => exact absurd (op.symm.trans op') (by decide)
        | update op' name found input index head =>
          rw [badPrevPos_update run op found input index bad] at head
          cases head
      | @append d name value op ok good read =>
        obtain rfl : d = d' := Option.some.inj (ok.decoded.symm.trans hrec.decoded)
        obtain rfl : name = vchName := Option.some.inj (ok.name.symm.trans hrec.name)
        exact ⟨_, rfl⟩
  · rintro ⟨entry, rfl⟩
    cases h with
    | @spend rs t nIn nOut prev e cb run scan name value fee range =>
      rw [prevScripts_eq run] at scan
      cases name with
      | @append d name value op ok good read =>
        refine ⟨prev, d, cb, ok.version, scan, ok.decoded, ok.name, ?_⟩
        rcases ok.op with ⟨h1, -⟩ | ⟨h1, hok⟩ | ⟨h1, hok⟩
        · rw [h1] at op
          exact absurd op (by decide)
        · obtain ⟨rand, hash, hrand, hhash, hbug⟩ := hok.commit
          exact .firstupdate h1 hrand hhash (not_not.mp (of_decide_eq_false hbug.symm))
        · obtain ⟨pname, hpname, hbug⟩ := hok.name
          obtain rfl : pname = vchName := not_not.mp (of_decide_eq_false hbug.symm)
          obtain ⟨nInput, txindex, hfound, hidx, -⟩ := hok.input
          obtain ⟨⟨txPrev, x⟩, hrs, rfl⟩ : ∃ r, rs[nInput]? = some r ∧ r.2 = txindex := by
            simpa [TxCall.nameCall] using hidx
          obtain ⟨txin, txindex0, hin, hindex, -, -⟩ := run.input hrs
          exact .update h1 hpname hfound hin hindex
            (badPrevPos_update run h1 hfound hin hindex good)

theorem TxSpends.append_entry {entry : CNameIndex}
    (h : TxSpends c pos l t (.append vchName entry) fee) :
    entry.txPos = pos ∧ ∃ d, decodeNameTx c.env c.tx c.pindexBlock.pindex.nHeight = some d ∧
      d.writes ∧ d.vvch[0]? = some vchName ∧ c.tx.nVersion = namecoinTxVersion := by
  cases h with
  | spend cb run scan name value fee range =>
    cases name with
    | append op ok good read => exact ⟨rfl, _, ok.decoded, op, ok.name, ok.version⟩

end Effect

theorem readArgs_ne_nil {fuel : Nat} {script : CScript} {vvch : List VchType} (h : vvch ≠ []) :
    (readArgs fuel script vvch).2 ≠ [] := by
  induction fuel generalizing script vvch with
  | zero => exact h
  | succ fuel ih =>
    unfold readArgs
    split
    · exact h
    · split
      · exact h
      · split
        · exact ih (by simp)
        · exact h

theorem decodeNameScript_ne_nil {script : CScript} {op : Nat} {vvch : List VchType}
    (h : vvch ≠ []) : (decodeNameScript script op vvch).vvch ≠ [] := by
  unfold decodeNameScript
  split
  · exact h
  · split
    · exact h
    · exact readArgs_ne_nil h

theorem scanNameScripts_ne_nil {strict : Bool} {scripts : List CScript} {i : Nat}
    {r r' : NameScan} (hr : r.found ≠ none → r.vvch ≠ [])
    (h : scanNameScripts strict scripts i r = some r') : r'.found ≠ none → r'.vvch ≠ [] := by
  induction scripts generalizing i r with
  | nil =>
    obtain rfl : r = r' := by simpa [scanNameScripts] using h
    exact hr
  | cons script rest ih =>
    have hargs := @decodeNameScript_args script r.op (if strict then [] else r.vvch)
    have hmore := @decodeNameScript_ne_nil script r.op (if strict then [] else r.vvch)
    rw [scanNameScripts] at h
    generalize decodeNameScript script r.op (if strict then [] else r.vvch) = d at h hargs hmore
    by_cases hok : d.ok = true
    · rw [if_pos hok] at h
      cases hf : r.found with
      | some k => simp [hf] at h
      | none =>
        rw [hf] at h
        exact ih (fun _ => argCount_ne_nil (hargs hok)) h
    · rw [if_neg hok] at h
      refine ih (fun hf => ?_) h
      cases strict with
      | true => exact hr hf
      | false => exact hmore (hr hf)

theorem decodeNameTx_name {env : Env} {tx : CTransaction} {nHeight : Nat} {d : NameTx}
    (h : decodeNameTx env tx nHeight = some d) : ∃ vchName, d.vvch[0]? = some vchName := by
  unfold decodeNameTx at h
  split at h
  · cases h
  · rename_i r hr
    obtain ⟨nOut, hfound, rfl⟩ := Option.map_eq_some_iff.mp h
    have hne := scanNameScripts_ne_nil (fun hf => absurd rfl hf) hr (by simp [hfound])
    cases hv : r.vvch with
    | nil => exact absurd hv hne
    | cons v rest => exact ⟨v, rfl⟩

end Namecoin
