import Namecoin.Chain.UndoTx
import Namecoin.Name.Takeover

namespace Namecoin

open Act

structure Behind (c : BlockCall) (nTxPos : Nat) (dbEnd db dbStart : DatabaseSet) : Prop where
  tx : db.tx = dbStart.tx
  present : ∀ vchName, (db.name vchName).isSome = (dbEnd.name vchName).isSome
  dropped : ∀ vchName, ∃ extra,
    dbStart.readNameOrEmpty vchName = db.readNameOrEmpty vchName ++ extra ∧
      ∀ entry ∈ extra, ∃ p, nTxPos ≤ p ∧ entry.txPos = c.posOf p

theorem popAt_split (pos : CDiskTxPos) (vtxPos : List CNameIndex) :
    ∃ extra, vtxPos = popAt pos vtxPos ++ extra ∧ ∀ entry ∈ extra, entry.txPos = pos := by
  unfold popAt
  split
  · rename_i h
    obtain ⟨last, hlast, hpos⟩ := Option.map_eq_some_iff.mp h
    obtain ⟨ys, rfl⟩ := List.getLast?_eq_some_iff.mp hlast
    exact ⟨[last], by simp, by simpa using hpos⟩
  · exact ⟨[], by simp, by simp⟩

theorem popAt_append (pos : CDiskTxPos) (vtxPos : List CNameIndex) {entry : CNameIndex}
    (h : entry.txPos = pos) : popAt pos (vtxPos ++ [entry]) = vtxPos := by
  simp [popAt, h]

theorem popAt_eq_self_iff {pos : CDiskTxPos} {vtxPos : List CNameIndex} :
    popAt pos vtxPos = vtxPos ↔ ∀ last ∈ vtxPos.getLast?, last.txPos ≠ pos := by
  unfold popAt
  constructor
  · intro h last hlast hpos
    obtain ⟨ys, rfl⟩ := List.getLast?_eq_some_iff.mp hlast
    simp [hpos] at h
  · intro h
    rw [if_neg]
    intro hp
    obtain ⟨last, hlast, hpos⟩ := Option.map_eq_some_iff.mp hp
    exact h last hlast hpos

theorem undoNames_read {pos : CDiskTxPos} {db db' : DatabaseSet} {target : Option VchType}
    (h : undoNames pos db target = some db') (vchName : VchType) :
    db'.readNameOrEmpty vchName = (if target = some vchName then
      popAt pos (db.readNameOrEmpty vchName) else db.readNameOrEmpty vchName) ∧
      (db'.name vchName).isSome = (db.name vchName).isSome := by
  cases target with
  | none =>
    obtain rfl := Option.some.inj h
    simp
  | some v =>
    obtain ⟨vtxPos, hv, rfl⟩ := Option.map_eq_some_iff.mp h
    by_cases hn : vchName = v
    · subst hn
      rw [readNameOrEmpty_writeName_self, if_pos rfl]
      simp [DatabaseSet.readNameOrEmpty, DatabaseSet.writeName, hv]
    · rw [readNameOrEmpty_writeName_ne _ hn, if_neg (by simpa using Ne.symm hn)]
      simp [DatabaseSet.writeName, hn]

theorem after_read (c : TxCall) (pos : CDiskTxPos) (l : Ledger) (t : TxMap) (e : NameEffect)
    (fee : Int) (vchName : VchType) :
    (∃ entry, e = .append vchName entry ∧ (c.after pos l t e fee).db.readNameOrEmpty vchName =
      l.db.readNameOrEmpty vchName ++ [entry]) ∨
    ((∀ entry, e ≠ .append vchName entry) ∧ (c.after pos l t e fee).db.readNameOrEmpty vchName =
      l.db.readNameOrEmpty vchName) := by
  have hread : (c.after pos l t e fee).db.readNameOrEmpty vchName =
      (e.onNames l.db).readNameOrEmpty vchName := by
    simp [DatabaseSet.readNameOrEmpty]
  rw [hread]
  cases e with
  | keep => exact .inr ⟨by simp, rfl⟩
  | skip v => exact .inr ⟨by simp, rfl⟩
  | append v entry =>
    by_cases hv : vchName = v
    · subst hv
      exact .inl ⟨entry, rfl, readNameOrEmpty_writeName_self _ _ _⟩
    · refine .inr ⟨?_, readNameOrEmpty_writeName_ne _ hv _⟩
      intro entry' heq
      injection heq with h1
      exact hv h1.symm

theorem posOf_injective (c : BlockCall) {p q : Nat} (h : c.posOf p = c.posOf q) : p = q :=
  congrArg CDiskTxPos.nTxPos h

theorem Behind.read_of_append {c : BlockCall} {tx : CTransaction} {nTxPos : Nat} {l : Ledger}
    {t : TxMap} {fee : Int} {vchName : VchType} {entry : CNameIndex} {dbEnd db1 : DatabaseSet}
    (hs : TxSpends (c.txCall tx) (c.posOf nTxPos) l t (.append vchName entry) fee)
    (h : Behind c (nTxPos + tx.getSerializeSize) dbEnd db1
      ((c.txCall tx).after (c.posOf nTxPos) l t (.append vchName entry) fee).db) :
    db1.readNameOrEmpty vchName = l.db.readNameOrEmpty vchName ++ [entry] := by
  obtain ⟨extra, heq, hextra⟩ := h.dropped vchName
  rcases after_read (c.txCall tx) (c.posOf nTxPos) l t (.append vchName entry) fee vchName with
    ⟨entry', he, hafter⟩ | ⟨hne, -⟩
  · injection he with _ he
    subst he
    rw [hafter] at heq
    rcases List.eq_nil_or_concat extra with rfl | ⟨ys, last, rfl⟩
    · rw [heq, List.append_nil]
    · exfalso
      obtain rfl : entry = last := by
        have hl := congrArg List.getLast? heq
        simpa using hl
      obtain ⟨p, hp, hpos⟩ := hextra entry (by simp)
      have := posOf_injective c (hs.append_entry.1.symm.trans hpos)
      have := size_pos tx
      omega
  · exact absurd rfl (hne entry)

theorem Behind.step {c : BlockCall} {tx : CTransaction} {nTxPos : Nat} {l : Ledger} {t : TxMap}
    {e : NameEffect} {fee : Int} {dbEnd db1 db2 : DatabaseSet} {target : Option VchType}
    (hs : TxSpends (c.txCall tx) (c.posOf nTxPos) l t e fee)
    (htarget : undoTarget c.env tx c.pindex.pindex.nHeight = some target)
    (h : Behind c (nTxPos + tx.getSerializeSize) dbEnd db1
      ((c.txCall tx).after (c.posOf nTxPos) l t e fee).db)
    (hundo : undoNames (c.posOf nTxPos) db1 target = some db2) :
    Behind c nTxPos dbEnd (db2.withTx l.db.tx) l.db := by
  refine ⟨rfl, ?_, ?_⟩
  · intro v
    exact (undoNames_read hundo v).2.trans (h.present v)
  · intro v
    obtain ⟨extra, heq, hextra⟩ := h.dropped v
    have hread := (undoNames_read hundo v).1
    have hpos := size_pos tx
    rw [withTx_readNameOrEmpty, hread]
    have hextra' : ∀ entry ∈ extra, ∃ p, nTxPos ≤ p ∧ entry.txPos = c.posOf p := by
      intro entry hentry
      obtain ⟨p, hp, hp'⟩ := hextra entry hentry
      exact ⟨p, by omega, hp'⟩
    rcases after_read (c.txCall tx) (c.posOf nTxPos) l t e fee v with ⟨entry, rfl, hafter⟩ | ⟨hne, hafter⟩
    · have hentry := hs.append_entry.1
      have htv : target = some v := Option.some.inj (htarget.symm.trans hs.undoTarget_eq)
      rw [if_pos htv, h.read_of_append hs, popAt_append _ _ hentry]
      exact ⟨[], by simp, by simp⟩
    · rw [hafter] at heq
      split
      · obtain ⟨more, hmore, hmorepos⟩ := popAt_split (c.posOf nTxPos) (db1.readNameOrEmpty v)
        refine ⟨more ++ extra, ?_, ?_⟩
        · rw [← List.append_assoc, ← hmore, heq]
        · intro entry hentry
          rcases List.mem_append.mp hentry with hm | hm
          · exact ⟨nTxPos, le_rfl, hmorepos entry hm⟩
          · exact hextra' entry hm
      · exact ⟨extra, heq, hextra'⟩

theorem disconnectTxs_cons {c : BlockCall} {tx : CTransaction} {rest : List CTransaction}
    {db db2 : DatabaseSet} (h : c.disconnectTxs (tx :: rest) db = .ok db2) :
    ∃ db1, c.disconnectTxs rest db = .ok db1 ∧
      tx.disconnectInputs c.env c.pindex.pindex db1 = .ok db2 := by
  simpa only [BlockCall.disconnectTxs, Except.bind_eq_ok] using h

def UndoGood (c : BlockCall) (present : VchType → Prop) (tx : CTransaction) (nTxPos : Nat)
    (db : DatabaseSet) : Prop :=
  ∃ target, undoTarget c.env tx c.pindex.pindex.nHeight = some target ∧
    ∀ vchName, target = some vchName → Records (c.txCall tx) db vchName ∨
      (present vchName ∧
        ∀ last ∈ (db.readNameOrEmpty vchName).getLast?, last.txPos ≠ c.posOf nTxPos)

section Block

variable {c : BlockCall} {txs : List CTransaction} {nTxPos : Nat} {s s' : ConnState}
  {dbEnd db : DatabaseSet}

theorem disconnectTxs_behind (fresh : FreshTxs c.env txs s.dbset.tx)
    (h : exec (c.connectTxs txs nTxPos) s = (.ok (), s')) (htx : dbEnd.tx = s'.dbset.tx)
    (hname : ∀ vchName, dbEnd.readNameOrEmpty vchName = s'.dbset.readNameOrEmpty vchName)
    (hdb : c.disconnectTxs txs dbEnd = .ok db) : Behind c nTxPos dbEnd db s.dbset := by
  induction txs generalizing nTxPos s db with
  | nil =>
    simp only [BlockCall.connectTxs, pure_ok] at h
    obtain ⟨-, rfl⟩ := h
    obtain rfl : dbEnd = db := Except.ok.inj hdb
    exact ⟨htx, fun v => rfl, fun v => ⟨[], by simp [hname v], by simp⟩⟩
  | cons tx rest ih =>
    obtain ⟨s1, t, e, fee, h1, h2, hspend, hdb1, hfresh1⟩ := BlockCall.connectTxs_first fresh h
    obtain ⟨db1, hd1, hd2⟩ := disconnectTxs_cons hdb
    have hb := ih hfresh1 h2 hd1
    rw [hdb1] at hb
    have heq := hspend.disconnectInputs_eq (fresh.absent tx List.mem_cons_self) hb.tx
    rw [toOption_eq_some.mpr hd2] at heq
    obtain ⟨db2, hdb2, rfl⟩ := Option.map_eq_some_iff.mp heq.symm
    obtain ⟨target, htarget, hundo⟩ := Option.bind_eq_some_iff.mp hdb2
    exact Behind.step hspend htarget hb hundo

theorem connectTxs_present (h : exec (c.connectTxs txs nTxPos) s = (.ok (), s'))
    (vchName : VchType) :
    (s'.dbset.name vchName).isSome ↔ (s.dbset.name vchName).isSome ∨
      ∃ pre tx post s1, txs = pre ++ tx :: post ∧
        exec (c.connectTxs pre nTxPos) s = (.ok (), s1) ∧
        Records (c.txCall tx) s1.dbset vchName := by
  induction txs generalizing nTxPos s with
  | nil =>
    simp only [BlockCall.connectTxs, pure_ok] at h
    obtain ⟨-, rfl⟩ := h
    simp
  | cons tx rest ih =>
    simp only [BlockCall.connectTxs, bind_ok] at h
    obtain ⟨u, s1, h1, h2⟩ := h
    obtain ⟨t, e, fee, hspend, hafter⟩ := BlockCall.connectTx_ok h1
    have hname : s1.dbset.name = (e.onNames s.dbset).name := by
      have hdb := congrArg (fun l => l.db.name) hafter
      simpa [ConnState.ledger] using hdb
    have hhead : (s1.dbset.name vchName).isSome ↔
        (s.dbset.name vchName).isSome ∨ Records (c.txCall tx) s.dbset vchName := by
      rw [show s.dbset = s.ledger.db from rfl, hspend.records_iff, hname]
      cases e with
      | keep => simp [NameEffect.onNames, ConnState.ledger]
      | skip v => simp [NameEffect.onNames, ConnState.ledger]
      | append v entry =>
        by_cases hv : vchName = v
        · subst hv
          simp [NameEffect.onNames, DatabaseSet.writeName]
        · simp [NameEffect.onNames, DatabaseSet.writeName, hv, Ne.symm hv, ConnState.ledger]
    rw [ih h2, hhead]
    constructor
    · rintro ((hs | hr) | ⟨pre, tx', post, s2, rfl, h3, hr⟩)
      · exact .inl hs
      · exact .inr ⟨[], tx, rest, s, rfl, rfl, hr⟩
      · exact .inr ⟨tx :: pre, tx', post, s2, rfl, bind_ok.mpr ⟨u, s1, h1, h3⟩, hr⟩
    · rintro (hs | ⟨pre, tx', post, s2, hsplit, h3, hr⟩)
      · exact .inl (.inl hs)
      · cases pre with
        | nil =>
          obtain ⟨rfl, rfl⟩ := List.cons.inj hsplit
          obtain ⟨-, rfl⟩ := pure_ok.mp h3
          exact .inl (.inr hr)
        | cons a pre =>
          obtain ⟨rfl, rfl⟩ := List.cons.inj hsplit
          simp only [BlockCall.connectTxs, bind_ok] at h3
          obtain ⟨u', s3, h4, h5⟩ := h3
          obtain rfl : s1 = s3 := (Prod.mk.inj (h1.symm.trans h4)).2
          exact .inr ⟨pre, tx', post, s2, rfl, h5, hr⟩

theorem undo_of_read {tx : CTransaction} {l : Ledger} {t : TxMap} {e : NameEffect} {fee : Int}
    {db1 db2 : DatabaseSet} {target : Option VchType}
    (hs : TxSpends (c.txCall tx) (c.posOf nTxPos) l t e fee)
    (htarget : undoTarget c.env tx c.pindex.pindex.nHeight = some target)
    (h : Behind c (nTxPos + tx.getSerializeSize) dbEnd db1
      ((c.txCall tx).after (c.posOf nTxPos) l t e fee).db)
    (hundo : undoNames (c.posOf nTxPos) db1 target = some db2)
    (hread : ∀ vchName, db2.readNameOrEmpty vchName = l.db.readNameOrEmpty vchName) :
    (∀ vchName, db1.readNameOrEmpty vchName =
      ((c.txCall tx).after (c.posOf nTxPos) l t e fee).db.readNameOrEmpty vchName) ∧
      UndoGood c (fun v => (dbEnd.name v).isSome) tx nTxPos l.db := by
  have hsame : ∀ v, (∀ entry, e ≠ .append v entry) →
      db1.readNameOrEmpty v = l.db.readNameOrEmpty v := by
    intro v hne
    rcases after_read (c.txCall tx) (c.posOf nTxPos) l t e fee v with ⟨entry, rfl, -⟩ | ⟨-, hafter⟩
    · exact absurd rfl (hne entry)
    obtain ⟨extra, heq, -⟩ := h.dropped v
    obtain ⟨more, hmore, -⟩ := popAt_split (c.posOf nTxPos) (db1.readNameOrEmpty v)
    have hdb2 := (undoNames_read hundo v).1
    rw [hread v, ← hafter, heq] at hdb2
    have hnil : extra = [] := by
      have hlen := congrArg List.length hdb2
      have hlen' := congrArg List.length hmore
      rw [List.length_append] at hlen hlen'
      split at hlen <;> exact List.eq_nil_of_length_eq_zero (by omega)
    rw [← hafter, heq, hnil, List.append_nil]
  refine ⟨?_, target, htarget, ?_⟩
  · intro v
    rcases after_read (c.txCall tx) (c.posOf nTxPos) l t e fee v with ⟨entry, rfl, hafter⟩ | ⟨hne, hafter⟩
    · rw [h.read_of_append hs, hafter]
    · rw [hsame v hne, hafter]
  · rintro v rfl
    by_cases hrec : ∃ entry, e = .append v entry
    · exact .inl (hs.records_iff.mpr hrec)
    · right
      have hdb1 := hsame v (fun entry he => hrec ⟨entry, he⟩)
      constructor
      · obtain ⟨vtxPos, hv, -⟩ := Option.map_eq_some_iff.mp hundo
        rw [← h.present v, hv]
        rfl
      · have hdb2 := (undoNames_read hundo v).1
        rw [hread v, if_pos rfl, hdb1] at hdb2
        exact popAt_eq_self_iff.mp hdb2.symm

theorem undo_of_good {tx : CTransaction} {l : Ledger} {t : TxMap} {e : NameEffect} {fee : Int}
    {db1 : DatabaseSet} (hs : TxSpends (c.txCall tx) (c.posOf nTxPos) l t e fee)
    (h : Behind c (nTxPos + tx.getSerializeSize) dbEnd db1
      ((c.txCall tx).after (c.posOf nTxPos) l t e fee).db)
    (hpresent : ∀ vchName, (((c.txCall tx).after (c.posOf nTxPos) l t e fee).db.name
      vchName).isSome → (dbEnd.name vchName).isSome)
    (hread : ∀ vchName, db1.readNameOrEmpty vchName =
      ((c.txCall tx).after (c.posOf nTxPos) l t e fee).db.readNameOrEmpty vchName)
    (hgood : UndoGood c (fun v => (dbEnd.name v).isSome) tx nTxPos l.db) :
    ∃ target db2, undoTarget c.env tx c.pindex.pindex.nHeight = some target ∧
      undoNames (c.posOf nTxPos) db1 target = some db2 ∧
      ∀ vchName, db2.readNameOrEmpty vchName = l.db.readNameOrEmpty vchName := by
  obtain ⟨target, htarget, hgood⟩ := hgood
  have hsome : ∃ db2, undoNames (c.posOf nTxPos) db1 target = some db2 := by
    cases target with
    | none => exact ⟨db1, rfl⟩
    | some v =>
      have hv : (db1.name v).isSome := by
        rw [h.present v]
        rcases hgood v rfl with hrec | ⟨hp, -⟩
        · obtain ⟨entry, rfl⟩ := hs.records_iff.mp hrec
          refine hpresent v ?_
          simp [NameEffect.onNames, DatabaseSet.writeName]
        · exact hp
      obtain ⟨vtxPos, hv⟩ := Option.isSome_iff_exists.mp hv
      exact ⟨_, by rw [undoNames, hv, Option.map_some]⟩
  obtain ⟨db2, hundo⟩ := hsome
  refine ⟨target, db2, htarget, hundo, ?_⟩
  intro v
  rw [(undoNames_read hundo v).1, hread v]
  rcases after_read (c.txCall tx) (c.posOf nTxPos) l t e fee v with ⟨entry, rfl, hafter⟩ | ⟨hne, hafter⟩
  · have htv : target = some v := Option.some.inj (htarget.symm.trans hs.undoTarget_eq)
    rw [if_pos htv, hafter, popAt_append _ _ hs.append_entry.1]
  · rw [hafter]
    split
    · rename_i htv
      rcases hgood v htv with hrec | ⟨-, hlast⟩
      · obtain ⟨entry, he⟩ := hs.records_iff.mp hrec
        exact absurd he (hne entry)
      · exact popAt_eq_self_iff.mpr hlast
    · rfl

theorem disconnectTxs_undo_iff (fresh : FreshTxs c.env txs s.dbset.tx)
    (h : exec (c.connectTxs txs nTxPos) s = (.ok (), s')) (htx : dbEnd.tx = s'.dbset.tx)
    (hname : dbEnd.name = s'.dbset.name) :
    (∃ db, c.disconnectTxs txs dbEnd = .ok db ∧
      ∀ vchName, db.readNameOrEmpty vchName = s.dbset.readNameOrEmpty vchName) ↔
      c.Along (fun tx p s1 => UndoGood c (fun v => (dbEnd.name v).isSome) tx p s1.dbset) txs nTxPos
        s := by
  induction txs generalizing nTxPos s with
  | nil =>
    simp only [BlockCall.connectTxs, pure_ok] at h
    obtain ⟨-, rfl⟩ := h
    simp only [BlockCall.Along, iff_true]
    exact ⟨dbEnd, rfl, fun v => by simp [DatabaseSet.readNameOrEmpty, hname]⟩
  | cons tx rest ih =>
    have hall := h
    obtain ⟨s1, t, e, fee, h1, h2, hspend, hdb1, hfresh1⟩ := BlockCall.connectTxs_first fresh h
    have hih := ih hfresh1 h2
    have hbehind (db : DatabaseSet) (hd : c.disconnectTxs rest dbEnd = .ok db) :
        Behind c (nTxPos + tx.getSerializeSize) dbEnd db
          ((c.txCall tx).after (c.posOf nTxPos) s.ledger t e fee).db := by
      rw [← hdb1]
      exact disconnectTxs_behind hfresh1 h2 htx
        (fun v => by simp [DatabaseSet.readNameOrEmpty, hname]) hd
    have hone (db : DatabaseSet) (hd : c.disconnectTxs rest dbEnd = .ok db) :=
      hspend.disconnectInputs_eq (fresh.absent tx List.mem_cons_self) (hbehind db hd).tx
    rw [BlockCall.Along]
    constructor
    · rintro ⟨db2, hdb2, hread⟩
      obtain ⟨db1, hd1, hd2⟩ := disconnectTxs_cons hdb2
      have heq := hone db1 hd1
      rw [toOption_eq_some.mpr hd2] at heq
      obtain ⟨db3, hdb3, rfl⟩ := Option.map_eq_some_iff.mp heq.symm
      obtain ⟨target, htarget, hundo⟩ := Option.bind_eq_some_iff.mp hdb3
      obtain ⟨hread1, hgood⟩ := undo_of_read hspend htarget (hbehind db1 hd1) hundo hread
      refine ⟨hgood, ?_⟩
      intro s2 hs2
      obtain rfl : s1 = s2 := (Prod.mk.inj (h1.symm.trans hs2)).2
      exact hih.mp ⟨db1, hd1, fun v => by rw [hread1 v, hdb1]⟩
    · rintro ⟨hgood, hrest⟩
      obtain ⟨db1, hd1, hread1⟩ := hih.mpr (hrest s1 h1)
      have hpresent (v : VchType) (hv : (((c.txCall tx).after (c.posOf nTxPos) s.ledger t e
          fee).db.name v).isSome) : (dbEnd.name v).isSome := by
        rw [← hdb1] at hv
        rw [hname, connectTxs_present h2]
        exact .inl hv
      obtain ⟨target, db2, htarget, hundo, hread2⟩ := undo_of_good hspend (hbehind db1 hd1) hpresent
        (fun v => by rw [hread1 v, hdb1]) hgood
      have heq := hone db1 hd1
      rw [htarget, Option.bind_some, hundo, Option.map_some] at heq
      refine ⟨db2.withTx s.ledger.db.tx, ?_, hread2⟩
      simp only [BlockCall.disconnectTxs, Except.bind_eq_ok]
      exact ⟨db1, hd1, toOption_eq_some.mp heq⟩

end Block

def Undoable (c : BlockCall) (b : CBlock) (s : ChainState) : Prop :=
  ∀ pre tx s1, TxAt c b s pre tx s1 → UndoGood c (fun vchName =>
    (s.dbset.name vchName).isSome ∨ ∃ pre' tx' s2, TxAt c b s pre' tx' s2 ∧
      Records (c.txCall tx') s2.dbset vchName) tx (c.txPos b pre) s1.dbset

theorem disconnectBlock_eq {c : BlockCall} {b : CBlock} {db : DatabaseSet}
    {P : (VchType → Option (List CNameIndex)) → Prop} {t : TxMap} :
    (∃ db', c.disconnectBlock b db = .ok db' ∧ db'.tx = t ∧ P db'.name) ↔
      ∃ db', c.disconnectTxs b.vtx db = .ok db' ∧ db'.tx = t ∧ P db'.name := by
  simp only [BlockCall.disconnectBlock, Except.bind_eq_ok, Except.pure_eq_ok]
  constructor
  · rintro ⟨db', ⟨db1, h1, rfl⟩, htx, hname⟩
    rw [writePrevIndex_tx] at htx
    rw [writePrevIndex_name] at hname
    exact ⟨db1, h1, htx, hname⟩
  · rintro ⟨db1, h1, htx, hname⟩
    refine ⟨c.writePrevIndex 0 db1, ⟨db1, h1, rfl⟩, ?_, ?_⟩
    · rw [writePrevIndex_tx]
      exact htx
    · rw [writePrevIndex_name]
      exact hname

theorem disconnectBlock_undoes_iff {c : BlockCall} {b : CBlock} {s s' : ChainState}
    (h : exec (c.connectBlock b) s = (.ok (), s'))
    (fresh : ∀ tx ∈ b.vtx, s.dbset.tx (tx.getHash c.env) = none) :
    (∃ db, c.disconnectBlock b s'.dbset = .ok db ∧ db.tx = s.dbset.tx ∧
      ∀ vchName, db.readNameOrEmpty vchName = s.dbset.readNameOrEmpty vchName) ↔
      Undoable c b s := by
  obtain ⟨hcheck, s1, hexec, hdone⟩ := BlockCall.connectBlock_txs h
  have hfresh : FreshTxs c.env b.vtx (BlockCall.startState s).dbset.tx :=
    ⟨CBlock.checkBlock_nodup hcheck, fresh⟩
  have htx : s'.dbset.tx = s1.dbset.tx := by rw [hdone.db, writePrevIndex_tx]; rfl
  have hname : s'.dbset.name = s1.dbset.name := by rw [hdone.db, writePrevIndex_name]; rfl
  have hiff := disconnectTxs_undo_iff hfresh hexec htx hname
  have hbehind (db : DatabaseSet) (hd : c.disconnectTxs b.vtx s'.dbset = .ok db) :
      db.tx = s.dbset.tx :=
    (disconnectTxs_behind hfresh hexec htx (fun v => by simp [DatabaseSet.readNameOrEmpty, hname])
      hd).tx
  have hpresent (v : VchType) : (s'.dbset.name v).isSome ↔ (s.dbset.name v).isSome ∨
      ∃ pre tx s2, TxAt c b s pre tx s2 ∧ Records (c.txCall tx) s2.dbset v := by
    rw [hname, connectTxs_present hexec]
    constructor
    · rintro (hs | ⟨pre, tx, post, s2, hsplit, hpre, hrec⟩)
      · exact .inl hs
      · exact .inr ⟨pre, tx, s2, ⟨⟨post, hsplit⟩, hpre⟩, hrec⟩
    · rintro (hs | ⟨pre, tx, s2, hat, hrec⟩)
      · exact .inl hs
      · obtain ⟨post, hsplit⟩ := hat.split
        exact .inr ⟨pre, tx, post, s2, hsplit, hat.prefixDone, hrec⟩
  refine (disconnectBlock_eq
    (P := fun name => ∀ v, (name v).getD [] = s.dbset.readNameOrEmpty v)).trans ?_
  refine Iff.trans ⟨?_, ?_⟩ (hiff.trans ?_)
  · rintro ⟨db, hd, -, hread⟩
    exact ⟨db, hd, hread⟩
  · rintro ⟨db, hd, hread⟩
    exact ⟨db, hd, hbehind db hd, hread⟩
  · rw [BlockCall.along_iff]
    simp only [hpresent]
    constructor
    · intro hall pre tx s2 hat
      obtain ⟨post, hsplit⟩ := hat.split
      exact hall pre tx post s2 hsplit hat.prefixDone
    · intro hall pre tx post s2 hsplit hpre
      exact hall pre tx s2 ⟨⟨post, hsplit⟩, hpre⟩

theorem renewal_undone :
    ∃ db, (sampleCall renewalStart 2000 renewalBlock).disconnectBlock renewalBlock
      (sampleNext renewalStart 2000 renewalBlock).state.dbset = .ok db ∧
        db.tx = renewalStart.state.dbset.tx ∧
        ∀ vchName, db.readNameOrEmpty vchName =
          renewalStart.state.dbset.readNameOrEmpty vchName := by
  refine (disconnectBlock_undoes_iff renewal_forkStep.accepted (by decide +kernel)).mpr ?_
  intro pre tx s hat
  rcases hat.of_two rfl with ⟨rfl, rfl, rfl⟩ | ⟨rfl, rfl, rfl⟩
  · exact ⟨none, by decide +kernel, by simp⟩
  · refine ⟨some [65], by decide +kernel, ?_⟩
    rintro v hv
    obtain rfl : [65] = v := Option.some.inj hv
    exact .inr ⟨.inl (by decide +kernel), by decide +kernel⟩

def namedCoinbase : CTransaction :=
  ⟨namecoinTxVersion, [⟨COutPoint.null, [1, 2, 3, 4], uintMax⟩],
    [⟨coin, [83, 1, 65, 1, 90, 109]⟩], 0⟩

def namedCoinbaseBlock : CBlock := sampleBlock 1 [namedCoinbase]

def emptyNode : ChainNode where
  walk := [sampleIndex 8 150000 (sampleBlock 0 [])]
  disk := Disk.empty
  state := ⟨⟨fun _ => none, fun _ => none, fun _ => none, none⟩, fun _ => ∅, sampleWallet⟩

theorem named_coinbase_not_undone :
    exec ((sampleCall emptyNode 2000 namedCoinbaseBlock).connectBlock namedCoinbaseBlock)
        emptyNode.state = (.ok (), (sampleNext emptyNode 2000 namedCoinbaseBlock).state) ∧
      (∀ tx ∈ namedCoinbaseBlock.vtx, emptyNode.state.dbset.tx (tx.getHash sampleEnv) = none) ∧
      ¬∃ db, (sampleCall emptyNode 2000 namedCoinbaseBlock).disconnectBlock namedCoinbaseBlock
        (sampleNext emptyNode 2000 namedCoinbaseBlock).state.dbset = .ok db ∧
          db.tx = emptyNode.state.dbset.tx ∧
          ∀ vchName, db.readNameOrEmpty vchName = emptyNode.state.dbset.readNameOrEmpty vchName := by
  refine ⟨(sample_connected (Disk.empty_endsBy _ _) (by decide +kernel)).accepted, fun _ _ => rfl, ?_⟩
  rintro ⟨db, hdb, -⟩
  have hfail : ((sampleCall emptyNode 2000 namedCoinbaseBlock).disconnectBlock namedCoinbaseBlock
      (sampleNext emptyNode 2000 namedCoinbaseBlock).state.dbset).toOption.isSome = false := by
    decide +kernel
  rw [hdb] at hfail
  cases hfail

end Namecoin
