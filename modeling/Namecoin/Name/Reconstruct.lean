import Namecoin.Chain.Supply
import Namecoin.Chain.Undo

namespace Namecoin

open Act

structure PrevName where
  prevTxPos : Option CDiskTxPos
  op : Nat
  vvch : List VchType

def prevNameTx (d : Disk) (t : TxMap) : List CTxIn → PrevName → Except Fault (Option PrevName)
  | [], r => .ok (some r)
  | txin :: rest, r =>
    match t txin.prevout.hash with
    | none => prevNameTx d t rest r
    | some txindex =>
      match d.readFromDisk txindex.pos with
      | none => prevNameTx d t rest r
      | some txPrev =>
        match txPrev.vout[txin.prevout.n]? with
        | none => .error .undefined
        | some out =>
          let dec := decodeNameScript out.scriptPubKey r.op r.vvch
          if dec.ok then
            if r.prevTxPos.isSome then .ok none
            else prevNameTx d t rest ⟨some txindex.pos, dec.op, dec.vvch⟩
          else prevNameTx d t rest ⟨r.prevTxPos, dec.op, dec.vvch⟩

def workaroundAccepts (env : Env) (prev : PrevName) (n : NameTx) : Except Fault Bool :=
  if n.op = opNameFirstupdate then do
    let vchHash ← vchAt prev.vvch 0
    let vchName ← vchAt n.vvch 0
    let vchRand ← vchAt n.vvch 1
    pure (decide (uint160 vchHash = env.hash160 (vchRand ++ vchName)))
  else if n.op = opNameUpdate then do
    let vchPrevName ← vchAt prev.vvch 0
    let vchName ← vchAt n.vvch 0
    pure (decide (vchPrevName = vchName))
  else .ok true

def nameBugWorkaround (env : Env) (d : Disk) (t : TxMap) (tx : CTransaction) :
    Except Fault (Option CDiskTxPos) := do
  let prev ← prevNameTx d t tx.vin ⟨none, 0, []⟩
  match prev with
  | none => .ok none
  | some prev =>
    match prev.prevTxPos, decodeNameTx env tx 0 with
    | some prevTxPos, some n => do
      let accepted ← workaroundAccepts env prev n
      pure (if accepted then some prevTxPos else none)
    | _, _ => .ok none

def readDiskTx (d : Disk) (t : TxMap) (hash : Uint256) : Option (CTransaction × CTxIndex) :=
  (t hash).bind (fun txindex => (d.readFromDisk txindex.pos).map (fun tx => (tx, txindex)))

def workaroundPrev (env : Env) (d : Disk) (nHeight : Nat) (t : TxMap) (tx : CTransaction) :
    Except Fault (Option CDiskTxPos) :=
  if postLibcoinFork env nHeight then .ok (some CDiskTxPos.null) else nameBugWorkaround env d t tx

def recordTx (env : Env) (nHeight : Nat) (n : NameTx) (vchName : VchType) (txPos : CDiskTxPos)
    (prevTxPos : CDiskTxPos) (db : DatabaseSet) : Except Fault DatabaseSet :=
  let vtxPos := db.readNameOrEmpty vchName
  if n.op = opNameUpdate ∧ postLibcoinFork env nHeight = false ∧
      checkNameTxPos vtxPos prevTxPos = false then .ok db
  else do
    let vchValue ← vchAt n.vvch (if n.op = opNameFirstupdate then 2 else 1)
    pure (db.writeName vchName (vtxPos ++ [⟨txPos, nHeight, vchValue⟩]))

def reconstructTx (env : Env) (d : Disk) (nHeight : Nat) (tx : CTransaction) (db : DatabaseSet) :
    Except Fault DatabaseSet :=
  if tx.nVersion ≠ namecoinTxVersion then .ok db
  else
    match decodeNameTx env tx nHeight with
    | none => .ok db
    | some n =>
      if n.op = opNameNew then .ok db
      else do
        let vchName ← vchAt n.vvch 0
        match readDiskTx d db.tx (tx.getHash env) with
        | none => .ok db
        | some (tx, txindex) => do
          let accepted ← workaroundPrev env d nHeight db.tx tx
          match accepted with
          | none => .ok db
          | some prevTxPos => recordTx env nHeight n vchName txindex.pos prevTxPos db

def reconstructTxs (env : Env) (d : Disk) (nHeight : Nat) :
    List CTransaction → DatabaseSet → Except Fault DatabaseSet
  | [], db => .ok db
  | tx :: rest, db => do
    let db ← reconstructTx env d nHeight tx db
    reconstructTxs env d nHeight rest db

def Disk.blockTxs (d : Disk) (pindex : CBlockIndex) : List CTransaction :=
  ((d.readBlock pindex.nFile pindex.nBlockPos).map CBlock.vtx).getD []

def reconstructNameIndex (env : Env) (d : Disk) :
    List CBlockIndex → DatabaseSet → Except Fault DatabaseSet
  | [], db => .ok db
  | pindex :: pnext, db => do
    let db ← reconstructTxs env d pindex.nHeight (d.blockTxs pindex) db
    reconstructNameIndex env d pnext db

def DatabaseSet.eraseNames (db : DatabaseSet) : DatabaseSet := { db with name := fun _ => none }

structure Ahead (d0 : Disk) (t0 : TxMap) (d : Disk) (t : TxMap) : Prop where
  disk : d0.Extends d
  pos : ∀ hash txindex, t0 hash = some txindex → (t hash).map CTxIndex.pos = some txindex.pos
  zero : t 0 = none

def NameScan.toPrev (posAt : Nat → Option CDiskTxPos) (r : NameScan) : PrevName :=
  ⟨r.found.bind posAt, r.op, r.vvch⟩

theorem prevNameTx_eq {d : Disk} {t : TxMap} {script : CTxIn → CScript}
    {posAt : Nat → Option CDiskTxPos} {vin : List CTxIn} {i : Nat} {r : NameScan}
    (hin : ∀ k txin, vin[k]? = some txin → ∃ txindex txPrev out,
      t txin.prevout.hash = some txindex ∧ d.readFromDisk txindex.pos = some txPrev ∧
      txPrev.vout[txin.prevout.n]? = some out ∧ out.scriptPubKey = script txin ∧
      posAt (i + k) = some txindex.pos)
    (hr : ∀ k, r.found = some k → (posAt k).isSome) :
    prevNameTx d t vin (r.toPrev posAt) =
      .ok ((scanNameScripts false (vin.map script) i r).map (NameScan.toPrev posAt)) := by
  induction vin generalizing i r with
  | nil => rfl
  | cons txin rest ih =>
    obtain ⟨txindex, txPrev, out, ht, hread, hout, hscript, hpos⟩ := hin 0 txin rfl
    have hrest : ∀ k txin', rest[k]? = some txin' → ∃ txindex txPrev out,
        t txin'.prevout.hash = some txindex ∧ d.readFromDisk txindex.pos = some txPrev ∧
        txPrev.vout[txin'.prevout.n]? = some out ∧ out.scriptPubKey = script txin' ∧
        posAt (i + 1 + k) = some txindex.pos := by
      intro k txin' hk
      obtain ⟨x, y, z, h1, h2, h3, h4, h5⟩ := hin (k + 1) txin' hk
      exact ⟨x, y, z, h1, h2, h3, h4, by rw [← h5]; congr 1; omega⟩
    simp only [prevNameTx, ht, hread, hout, hscript, List.map_cons, scanNameScripts,
      Bool.false_eq_true, if_false, NameScan.toPrev]
    by_cases hok : (decodeNameScript (script txin) r.op r.vvch).ok = true
    · simp only [hok, if_true]
      cases hf : r.found with
      | some k =>
        obtain ⟨p, hp⟩ := Option.isSome_iff_exists.mp (hr k hf)
        simp [hp]
      | none =>
        have hnext := @ih (i + 1) ⟨some i, (decodeNameScript (script txin) r.op r.vvch).op,
          (decodeNameScript (script txin) r.op r.vvch).vvch⟩ hrest
          (fun k hk => by obtain rfl := Option.some.inj hk; simpa using congrArg Option.isSome hpos)
        simp only [NameScan.toPrev, Option.bind_some] at hnext
        rw [show posAt i = some txindex.pos from hpos] at hnext
        simpa using hnext
    · simp only [hok, Bool.false_eq_true, if_false]
      exact @ih (i + 1) ⟨r.found, (decodeNameScript (script txin) r.op r.vvch).op,
          (decodeNameScript (script txin) r.op r.vvch).vvch⟩ hrest hr

def inputPos (tx : CTransaction) (t : TxMap) (k : Nat) : Option CDiskTxPos :=
  (tx.vin[k]?).bind (fun txin => (t txin.prevout.hash).map CTxIndex.pos)

section Tx

variable {c : BlockCall} {tx : CTransaction} {rest : List CTransaction} {nTxPos : Nat} {l : Ledger}
  {t : TxMap} {e : NameEffect} {fee : Int} {d : Disk} {db : DatabaseSet}

theorem SpendRun.prevName {rs : List (CTransaction × CTxIndex)} {nIn : Int} {prev : NameScan}
    (run : SpendRun (c.txCall tx) tx.vin l.db.tx 0 rs t nIn)
    (hok : IndexOk c.env c.view.disk l.db.tx) (ahead : Ahead c.view.disk l.db.tx d db.tx)
    (scan : scanNameScripts false ((c.txCall tx).spentScripts l.db.tx) 0 NameScan.start =
      some prev) :
    prevNameTx d db.tx tx.vin ⟨none, 0, []⟩ = .ok (some (prev.toPrev (inputPos tx l.db.tx))) := by
  have hscan := @prevNameTx_eq d db.tx ((c.txCall tx).spentScript l.db.tx) (inputPos tx l.db.tx)
    tx.vin 0 NameScan.start ?_ (fun k hk => by cases hk)
  · have heq : NameScan.start.toPrev (inputPos tx l.db.tx) = ⟨none, 0, []⟩ := rfl
    rw [heq] at hscan
    rw [hscan, show tx.vin.map ((c.txCall tx).spentScript l.db.tx) =
      (c.txCall tx).spentScripts l.db.tx from rfl, scan]
    rfl
  · intro k txin hk
    have hlen : k < rs.length := by
      rw [run.length_eq]
      exact (List.getElem?_eq_some_iff.mp hk).choose
    obtain ⟨txin', txindex, hin, hindex, -, hread⟩ := run.input (List.getElem?_eq_getElem hlen)
    obtain rfl : txin = txin' := Option.some.inj (hk.symm.trans hin)
    obtain ⟨txPrev, hentry⟩ := hok _ _ hindex
    have hprev : (c.txCall tx).readPrev txin.prevout true txindex = .ok txPrev :=
      readPrev_onDisk hentry.onDisk hentry.read
    obtain ⟨txindex', ht, hpos⟩ := Option.map_eq_some_iff.mp (ahead.pos _ _ hindex)
    have hflag := run.unspent.2 txin.prevout (List.mem_map_of_mem (List.mem_of_getElem? hk))
    simp only [spentFlag, hindex, Option.bind_some] at hflag
    have hvout : txin.prevout.n < txPrev.vout.length := by
      rw [← hentry.outputs]
      exact (List.getElem?_eq_some_iff.mp hflag).choose
    refine ⟨txindex', txPrev, _, ht, ?_, List.getElem?_eq_getElem hvout, ?_, ?_⟩
    · rw [hpos]
      exact readFromDisk_extends ahead.disk hentry.read
    · simp [TxCall.spentScript, hindex, hprev, hvout]
    · simp [inputPos, hk, hindex, hpos]

theorem decodeNameTx_early {env : Env} {nHeight : Nat}
    (early : postLibcoinFork env nHeight = false) : decodeNameTx env tx 0 = decodeNameTx env tx nHeight := by
  have hzero : postLibcoinFork env 0 = false := by
    unfold postLibcoinFork bugWorkaroundBlock
    split <;> rfl
  simp [decodeNameTx, early, hzero]

theorem nameBugWorkaround_eq {env : Env} {td : TxMap} {prev : PrevName} {n : NameTx}
    {prevTxPos : CDiskTxPos} {accepted : Bool} {nHeight : Nat}
    (early : postLibcoinFork env nHeight = false)
    (hprev : prevNameTx d td tx.vin ⟨none, 0, []⟩ = .ok (some prev))
    (hpos : prev.prevTxPos = some prevTxPos) (hdec : decodeNameTx env tx nHeight = some n)
    (h : workaroundAccepts env prev n = .ok accepted) :
    nameBugWorkaround env d td tx = .ok (if accepted then some prevTxPos else none) := by
  simp only [nameBugWorkaround, Except.bind_eq_ok]
  refine ⟨some prev, hprev, ?_⟩
  simp only [hpos, decodeNameTx_early early, hdec, Except.bind_eq_ok]
  exact ⟨accepted, h, rfl⟩

theorem Storable.readDiskTx (hstore : Storable c (tx :: rest) nTxPos) {td : TxMap}
    (hd : c.view.disk.Extends d)
    (hown : (td (tx.getHash c.env)).map CTxIndex.pos = some (c.posOf nTxPos)) :
    ∃ txindex, readDiskTx d td (tx.getHash c.env) = some (tx, txindex) ∧
      txindex.pos = c.posOf nTxPos := by
  obtain ⟨txindex, htd, hpos⟩ := Option.map_eq_some_iff.mp hown
  refine ⟨txindex, ?_, hpos⟩
  simp [Namecoin.readDiskTx, htd, hpos, readFromDisk_extends hd hstore.read]

theorem reconstructTx_coinbase {nHeight : Nat} {env : Env} (hcb : tx.isCoinBase = true)
    (hzero : db.tx 0 = none)
    (hnew : tx.nVersion = namecoinTxVersion → postLibcoinFork env nHeight = true →
      ∀ n, decodeNameTx env tx nHeight = some n → n.op = opNameNew)
    (hread : ∀ tx' txindex, readDiskTx d db.tx (tx.getHash env) = some (tx', txindex) → tx' = tx) :
    reconstructTx env d nHeight tx db = .ok db := by
  obtain ⟨txin, hvin, hnull⟩ := isCoinBase_vin hcb
  unfold reconstructTx
  split
  · rfl
  · rename_i hv
    split
    · rfl
    · rename_i n hn
      split
      · rfl
      · rename_i hop
        obtain ⟨vchName, hname⟩ := decodeNameTx_name hn
        rw [Except.bind_eq_ok]
        refine ⟨vchName, vchAt_ok.mpr hname, ?_⟩
        split
        · rfl
        · rename_i tx' txindex hdisk
          obtain rfl := hread _ _ hdisk
          have hfork : postLibcoinFork env nHeight = false := by
            by_contra hf
            exact hop (hnew (not_not.mp hv) (by simpa using hf) n hn)
          have hprev : nameBugWorkaround env d db.tx tx' = .ok none := by
            rw [nameBugWorkaround, Except.bind_eq_ok]
            refine ⟨some ⟨none, 0, []⟩, ?_, rfl⟩
            simp only [prevNameTx, hvin, hnull, COutPoint.null]
            rw [hzero]
          rw [Except.bind_eq_ok]
          exact ⟨none, by simp [workaroundPrev, hfork, hprev], rfl⟩

theorem reconstructTx_named {env : Env} {nHeight : Nat} {n : NameTx} {vchName : VchType}
    {txindex : CTxIndex} {accepted : Option CDiskTxPos}
    (version : tx.nVersion = namecoinTxVersion) (hdec : decodeNameTx env tx nHeight = some n)
    (hop : n.op ≠ opNameNew) (hname : n.vvch[0]? = some vchName)
    (hdisk : readDiskTx d db.tx (tx.getHash env) = some (tx, txindex))
    (hprev : workaroundPrev env d nHeight db.tx tx = .ok accepted) :
    reconstructTx env d nHeight tx db = accepted.elim (.ok db) (fun prevTxPos =>
      recordTx env nHeight n vchName txindex.pos prevTxPos db) := by
  simp only [reconstructTx, version, ne_eq, not_true_eq_false, if_false, hdec, hop,
    vchAt_ok.mpr hname, hdisk, hprev]
  cases accepted <;> rfl

theorem NameCall.NameTxOk.honest {nc : NameCall} {prev : NameScan} {n : NameTx}
    {vchName : VchType} {bug : Bool} (ok : NameCall.NameTxOk nc db prev n vchName bug)
    (fork : postLibcoinFork nc.env nc.nHeight = true) : bug = false := by
  rcases ok.op with ⟨-, hok⟩ | ⟨-, hok⟩ | ⟨-, hok⟩
  · exact hok.honest
  · exact hok.honest fork
  · exact hok.honest fork

theorem workaround_of_op {rs : List (CTransaction × CTxIndex)} {nIn : Int} {prev : NameScan}
    {n : NameTx} {vchName : VchType} {bug : Bool} {db' : DatabaseSet}
    (early : postLibcoinFork c.env c.pindex.pindex.nHeight = false)
    (run : SpendRun (c.txCall tx) tx.vin l.db.tx 0 rs t nIn)
    (hok : IndexOk c.env c.view.disk l.db.tx) (ahead : Ahead c.view.disk l.db.tx d db.tx)
    (scan : scanNameScripts false ((c.txCall tx).spentScripts l.db.tx) 0 NameScan.start =
      some prev)
    (ok : NameCall.NameTxOk ((c.txCall tx).nameCall (c.posOf nTxPos) (rs.map Prod.snd)) db' prev n
      vchName bug)
    (hop : n.op ≠ opNameNew) :
    ∃ k txin txindex, prev.found = some k ∧ tx.vin[k]? = some txin ∧
      l.db.tx txin.prevout.hash = some txindex ∧
      nameBugWorkaround c.env d db.tx tx = .ok (if bug then none else some txindex.pos) := by
  have hin (k : Nat) (x : CTxIndex)
      (hk : ((c.txCall tx).nameCall (c.posOf nTxPos) (rs.map Prod.snd)).vTxindex[k]? = some x) :
      ∃ txin txindex, tx.vin[k]? = some txin ∧ l.db.tx txin.prevout.hash = some txindex := by
    obtain ⟨⟨txPrev, y⟩, hrs, -⟩ : ∃ r, rs[k]? = some r ∧ r.2 = x := by
      simpa [TxCall.nameCall] using hk
    obtain ⟨txin, txindex, hin, hindex, -, -⟩ := run.input hrs
    exact ⟨txin, txindex, hin, hindex⟩
  have hprev := run.prevName hok ahead scan
  have hpos (k : Nat) (txin : CTxIn) (txindex : CTxIndex) (hfound : prev.found = some k)
      (hk : tx.vin[k]? = some txin) (hindex : l.db.tx txin.prevout.hash = some txindex) :
      (prev.toPrev (inputPos tx l.db.tx)).prevTxPos = some txindex.pos := by
    simp [NameScan.toPrev, hfound, inputPos, hk, hindex]
  rcases ok.op with ⟨h1, -⟩ | ⟨h1, hfirst⟩ | ⟨h1, hupdate⟩
  · exact absurd h1 hop
  · obtain ⟨k, x, hfound, hx, -⟩ := hfirst.input
    obtain ⟨txin, txindex, hk, hindex⟩ := hin k x hx
    obtain ⟨vchRand, vchHash, hrand, hhash, hbug⟩ := hfirst.commit
    refine ⟨k, txin, txindex, hfound, hk, hindex, ?_⟩
    have haccept : workaroundAccepts c.env (prev.toPrev (inputPos tx l.db.tx)) n = .ok (!bug) := by
      simp only [workaroundAccepts, h1, if_true, Except.bind_eq_ok, vchAt_ok]
      refine ⟨vchHash, hhash, vchName, ok.name, vchRand, hrand, ?_⟩
      rw [hbug]
      simp only [decide_not, Bool.not_not]
      rfl
    rw [nameBugWorkaround_eq early hprev (hpos k txin txindex hfound hk hindex) ok.decoded haccept]
    cases bug <;> rfl
  · obtain ⟨k, x, hfound, hx, -⟩ := hupdate.input
    obtain ⟨txin, txindex, hk, hindex⟩ := hin k x hx
    obtain ⟨vchPrevName, hprevName, hbug⟩ := hupdate.name
    refine ⟨k, txin, txindex, hfound, hk, hindex, ?_⟩
    have hne : n.op ≠ opNameFirstupdate := by
      rw [h1]
      decide
    have haccept : workaroundAccepts c.env (prev.toPrev (inputPos tx l.db.tx)) n = .ok (!bug) := by
      rw [workaroundAccepts, if_neg hne, if_pos h1]
      simp only [Except.bind_eq_ok, vchAt_ok]
      refine ⟨vchPrevName, hprevName, vchName, ok.name, ?_⟩
      rw [hbug]
      simp only [decide_not, Bool.not_not]
      rfl
    rw [nameBugWorkaround_eq early hprev (hpos k txin txindex hfound hk hindex) ok.decoded haccept]
    cases bug <;> rfl

theorem value_of_writes {env : Env} {nHeight : Nat} {n : NameTx} {value : Option VchType}
    (hdec : decodeNameTx env tx nHeight = some n) (hw : n.writes)
    (h : getValueOfNameTx env tx nHeight = .ok value) :
    vchAt n.vvch (if n.op = opNameFirstupdate then 2 else 1) = .ok (value.getD []) := by
  have hmap {x : Except Fault VchType} (hx : x.map some = .ok value) : x = .ok (value.getD []) := by
    cases x with
    | error fault => cases hx
    | ok vch =>
      obtain rfl := Except.ok.inj hx
      rfl
  simp only [getValueOfNameTx, hdec] at h
  rcases hw with h1 | h1
  · rw [if_pos h1] at h ⊢
    exact hmap h
  · have hne : n.op ≠ opNameFirstupdate := by
      rw [h1]
      decide
    rw [if_neg hne, if_pos h1] at h
    rw [if_neg hne]
    exact hmap h

theorem recordTx_write {env : Env} {nHeight : Nat} {n : NameTx} {vchName vchValue : VchType}
    {txPos prevTxPos : CDiskTxPos}
    (hgood : n.op = opNameUpdate → postLibcoinFork env nHeight = false →
      checkNameTxPos (db.readNameOrEmpty vchName) prevTxPos = true)
    (hvalue : vchAt n.vvch (if n.op = opNameFirstupdate then 2 else 1) = .ok vchValue) :
    recordTx env nHeight n vchName txPos prevTxPos db =
      .ok (db.writeName vchName (db.readNameOrEmpty vchName ++ [⟨txPos, nHeight, vchValue⟩])) := by
  rw [recordTx, if_neg, hvalue]
  · rfl
  · rintro ⟨h1, h2, h3⟩
    rw [hgood h1 h2] at h3
    cases h3

structure SameNames (db db' : DatabaseSet) (l : DatabaseSet) : Prop where
  tx : db'.tx = db.tx
  read : ∀ vchName, db'.readNameOrEmpty vchName = l.readNameOrEmpty vchName

theorem SameNames.of_keep {db' : DatabaseSet} (h : ∀ v, db.readNameOrEmpty v = l.db.readNameOrEmpty v)
    (he : ∀ v entry, e ≠ .append v entry)
    (hdb' : db' = ((c.txCall tx).after (c.posOf nTxPos) l t e fee).db) : SameNames db db db' := by
  subst hdb'
  refine ⟨rfl, ?_⟩
  intro v
  rcases after_read (c.txCall tx) (c.posOf nTxPos) l t e fee v with ⟨entry, rfl, -⟩ | ⟨-, hafter⟩
  · exact absurd rfl (he v entry)
  · rw [hafter, h v]

theorem SameNames.of_append {v : VchType} {entry : CNameIndex}
    (h : ∀ v, db.readNameOrEmpty v = l.db.readNameOrEmpty v) :
    SameNames db (db.writeName v (db.readNameOrEmpty v ++ [entry]))
      ((c.txCall tx).after (c.posOf nTxPos) l t (.append v entry) fee).db := by
  refine ⟨rfl, ?_⟩
  intro v'
  rcases after_read (c.txCall tx) (c.posOf nTxPos) l t (.append v entry) fee v' with
    ⟨entry', he, hafter⟩ | ⟨hne, hafter⟩
  · injection he with h1 h2
    subst h1
    subst h2
    rw [readNameOrEmpty_writeName_self, hafter, h v]
  · have hv : v' ≠ v := by
      rintro rfl
      exact hne entry rfl
    rw [readNameOrEmpty_writeName_ne _ hv, hafter, h v']

theorem TxSpends.reconstructs (hs : TxSpends (c.txCall tx) (c.posOf nTxPos) l t e fee)
    (hstore : Storable c (tx :: rest) nTxPos) (hok : IndexOk c.env c.view.disk l.db.tx)
    (ahead : Ahead c.view.disk l.db.tx d db.tx)
    (hown : (db.tx (tx.getHash c.env)).map CTxIndex.pos = some (c.posOf nTxPos))
    (hcoinbase : tx.isCoinBase = true → tx.nVersion = namecoinTxVersion →
      postLibcoinFork c.env c.pindex.pindex.nHeight = true →
      ∀ n, decodeNameTx c.env tx c.pindex.pindex.nHeight = some n → n.op = opNameNew)
    (hvalue : ∀ v, Records (c.txCall tx) l.db v →
      getValueOfNameTx c.env tx c.view.pindexBestHeight =
        getValueOfNameTx c.env tx c.pindex.pindex.nHeight)
    (hread : ∀ v, db.readNameOrEmpty v = l.db.readNameOrEmpty v) :
    ∃ db', reconstructTx c.env d c.pindex.pindex.nHeight tx db = .ok db' ∧
      SameNames db db' ((c.txCall tx).after (c.posOf nTxPos) l t e fee).db := by
  have hrecords (v : VchType) : Records (c.txCall tx) l.db v ↔ ∃ entry, e = .append v entry :=
    hs.records_iff
  obtain ⟨txindex, hdisk, hpos⟩ := hstore.readDiskTx ahead.disk hown
  cases hs with
  | coinbase cb =>
    refine ⟨db, reconstructTx_coinbase cb ahead.zero (hcoinbase cb) ?_,
      .of_keep hread (by simp) rfl⟩
    intro tx' x hx
    rw [hdisk] at hx
    exact (Prod.mk.inj (Option.some.inj hx)).1.symm
  | @spend rs t nIn nOut prev e cb run scan name value fee range =>
    rw [prevScripts_eq run] at scan
    cases name with
    | plain version unnamed =>
      refine ⟨db, ?_, .of_keep hread (by simp) rfl⟩
      have hversion : tx.nVersion ≠ namecoinTxVersion := version
      rw [reconstructTx, if_pos hversion]
    | @bug n vchName ok =>
      refine ⟨db, ?_, .of_keep hread (by simp) rfl⟩
      have early : postLibcoinFork c.env c.pindex.pindex.nHeight = false := by
        by_contra hfork
        have hfork' : postLibcoinFork c.env c.pindex.pindex.nHeight = true := by simpa using hfork
        exact absurd (ok.honest hfork') (by decide)
      have hop : n.op ≠ opNameNew := by
        intro hnew
        rcases ok.op with ⟨-, hok⟩ | ⟨h1, -⟩ | ⟨h1, -⟩
        · exact absurd hok.honest (by decide)
        · exact absurd (h1.symm.trans hnew) (by decide)
        · exact absurd (h1.symm.trans hnew) (by decide)
      rw [show postLibcoinFork (c.txCall tx).env (c.txCall tx).pindexBlock.pindex.nHeight = false
        from early] at scan
      obtain ⟨k, txin, x, -, -, -, hwork⟩ := workaround_of_op early run hok ahead scan ok hop
      have hprev : workaroundPrev c.env d c.pindex.pindex.nHeight db.tx tx = .ok none := by
        simp [workaroundPrev, early, hwork]
      exact reconstructTx_named ok.version ok.decoded hop ok.name hdisk hprev
    | @new n vchName op ok =>
      refine ⟨db, ?_, .of_keep hread (by simp) rfl⟩
      have hversion : tx.nVersion = namecoinTxVersion := ok.version
      have hdec : decodeNameTx c.env tx c.pindex.pindex.nHeight = some n := ok.decoded
      simp [reconstructTx, hversion, hdec, op]
    | @skip n vchName op ok bad early =>
      refine ⟨db, ?_, .of_keep hread (by simp) rfl⟩
      have hearly : postLibcoinFork c.env c.pindex.pindex.nHeight = false := early
      have hop : n.op ≠ opNameNew := by
        rw [op]
        decide
      rw [show postLibcoinFork (c.txCall tx).env (c.txCall tx).pindexBlock.pindex.nHeight = false
        from early] at scan
      obtain ⟨k, txin, x, hfound, hk, hindex, hwork⟩ :=
        workaround_of_op early run hok ahead scan ok hop
      have hprev : workaroundPrev c.env d c.pindex.pindex.nHeight db.tx tx = .ok (some x.pos) := by
        simp [workaroundPrev, hearly, hwork]
      refine (reconstructTx_named ok.version ok.decoded hop ok.name hdisk hprev).trans ?_
      have hcheck := badPrevPos_update run op hfound hk hindex bad
      rw [Option.elim, recordTx, if_pos]
      exact ⟨op, early, by rw [hread]; exact hcheck⟩
    | @append n vchName value op ok good read =>
      have hop : n.op ≠ opNameNew := by
        rcases op with h1 | h1 <;> rw [h1] <;> decide
      have hval : vchAt n.vvch (if n.op = opNameFirstupdate then 2 else 1) =
          .ok (value.getD []) := by
        refine value_of_writes ok.decoded op ?_
        have hget := hvalue vchName ((hrecords vchName).mpr ⟨_, rfl⟩)
        have hpos : getValueOfTxPos c.env c.view (c.posOf nTxPos) = .ok value := read
        rw [getValueOfTxPos, hstore.read] at hpos
        exact hget.symm.trans hpos
      have haccept : ∃ p, workaroundPrev c.env d c.pindex.pindex.nHeight db.tx tx = .ok (some p) ∧
          (n.op = opNameUpdate → postLibcoinFork c.env c.pindex.pindex.nHeight = false →
            checkNameTxPos (db.readNameOrEmpty vchName) p = true) := by
        cases hfork : postLibcoinFork c.env c.pindex.pindex.nHeight with
        | true => exact ⟨CDiskTxPos.null, by simp [workaroundPrev, hfork], by simp⟩
        | false =>
          rw [show postLibcoinFork (c.txCall tx).env (c.txCall tx).pindexBlock.pindex.nHeight =
            false from hfork] at scan
          obtain ⟨k, txin, x, hfound, hk, hindex, hwork⟩ :=
            workaround_of_op hfork run hok ahead scan ok hop
          refine ⟨x.pos, by simp [workaroundPrev, hfork, hwork], ?_⟩
          intro hupdate _
          rw [hread]
          exact badPrevPos_update run hupdate hfound hk hindex good
      obtain ⟨p, hprev, hgood⟩ := haccept
      refine ⟨_, ?_, .of_append hread⟩
      refine (reconstructTx_named ok.version ok.decoded hop ok.name hdisk hprev).trans ?_
      rw [Option.elim, hpos]
      exact recordTx_write hgood hval

end Tx

end Namecoin
