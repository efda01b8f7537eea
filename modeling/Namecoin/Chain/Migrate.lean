import Namecoin.Data.RoundTrip
import Namecoin.Lib.OrderedMap
import Namecoin.Lib.Packing
import Namecoin.Name.ScanNames

namespace Namecoin

open Std (TreeMap)
open OrderedMap Reading

def version : Int := 38000

def CDiskTxPos.serialize (pos : CDiskTxPos) : List UInt8 :=
  leBytes 4 pos.nFile ++ leBytes 4 pos.nBlockPos ++ leBytes 4 pos.nTxPos

def CDiskTxPos.unserialize : Reader UInt8 CDiskTxPos := do
  let nFile ← readUInt 4
  let nBlockPos ← readUInt 4
  let nTxPos ← readUInt 4
  pure ⟨nFile, nBlockPos, nTxPos⟩

def getBitvectorWordCount (n : Nat) : Nat := (n + 7) / 8

def bitMask (i : Nat) : UInt8 := 1 <<< UInt8.ofNat (i % 8)

def bitWords (v : List Bool) : List UInt8 :=
  (List.range v.length).foldl
    (fun words i =>
      if v.getD i false then words.modify (i / 8) (fun word => word ||| bitMask i) else words)
    (List.replicate (getBitvectorWordCount v.length) 0)

def serBits (v : List Bool) : List UInt8 := writeCompactSize v.length ++ bitWords v

def readBits : Reader UInt8 (List Bool) := do
  let size ← readCompactSize
  let words ← raw (getBitvectorWordCount size)
  pure ((List.range size).map (fun i => words.getD (i / 8) 0 &&& bitMask i != 0))

namespace CTxIndex

def serialize (t : CTxIndex) : List UInt8 := t.pos.serialize ++ serBits t.isSpent

def getSerializeSize (t : CTxIndex) : Nat :=
  12 + (getSizeOfCompactSize t.isSpent.length + getBitvectorWordCount t.isSpent.length)

def unserialize (nVersion : Int) : Reader UInt8 CTxIndex :=
  if nVersion < 37500 then do
    let nVersionDummy ← readInt 4
    if 37500 ≤ nVersionDummy then fail
    let pos ← CDiskTxPos.unserialize
    let vSpent ← readVector CDiskTxPos.unserialize
    pure ⟨pos, vSpent.map (fun p => !p.isNull)⟩
  else do
    let pos ← CDiskTxPos.unserialize
    let isSpent ← readBits
    pure ⟨pos, isSpent⟩

end CTxIndex

structure OldTxIndex where
  nVersion : Int
  pos : CDiskTxPos
  vSpent : List CDiskTxPos

def OldTxIndex.serialize (t : OldTxIndex) : List UInt8 :=
  serInt 4 t.nVersion ++ t.pos.serialize ++ serVector CDiskTxPos.serialize t.vSpent

abbrev DbRecords := TreeMap (List UInt8) (List UInt8)

def txKey (hash : Uint256) : List UInt8 := serString "tx" ++ serHash hash

def loadTxIndex (oldVersion : Int) : List (List UInt8 × List UInt8) → TreeMap Uint256 CTxIndex →
    Except Fault (TreeMap Uint256 CTxIndex)
  | [], txindex => .ok txindex
  | (ssKey, ssValue) :: rest, txindex =>
    match readBytes ssKey with
    | none => .error endOfData
    | some (strType, ssKey) =>
      if strType ≠ str "tx" then .ok txindex
      else
        match readHash ssKey, CTxIndex.unserialize oldVersion ssValue with
        | some (hash, _), some (obj, _) =>
          if txindex.contains hash then .error .assertion
          else loadTxIndex oldVersion rest (txindex.insert hash obj)
        | _, _ => .error endOfData

namespace DbRecords

def readTxIndex (records : DbRecords) (hash : Uint256) : Option CTxIndex :=
  (records[txKey hash]?).bind (fun value => (CTxIndex.unserialize version value).map Prod.fst)

def updateTxIndex (records : DbRecords) (hash : Uint256) (txindex : CTxIndex) : DbRecords :=
  records.insert (txKey hash) txindex.serialize

def setRange (records : DbRecords) (ssKey : List UInt8) : List (List UInt8 × List UInt8) :=
  records.toList.dropWhile (fun p => decide (compare p.1 ssKey = .lt))

def rewriteTxIndex (oldVersion : Int) (records : DbRecords) : Except Fault DbRecords := do
  let txindex ← loadTxIndex oldVersion (records.setRange (txKey 0)) ∅
  return txindex.toList.foldl (fun records item => records.updateTxIndex item.1 item.2) records

end DbRecords

section Format

structure CDiskTxPos.Fits (pos : CDiskTxPos) : Prop where
  nFile : UIntFits 32 pos.nFile
  nBlockPos : UIntFits 32 pos.nBlockPos
  nTxPos : UIntFits 32 pos.nTxPos

theorem CDiskTxPos.serialize_length (pos : CDiskTxPos) : pos.serialize.length = 12 := by
  simp [serialize]

theorem CDiskTxPos.reads {pos : CDiskTxPos} (h : pos.Fits) :
    Reads CDiskTxPos.unserialize pos.serialize pos := by
  simp only [serialize, List.append_assoc]
  exact (reads_uint (k := 4) h.nFile).bind ((reads_uint (k := 4) h.nBlockPos).bind
    ((reads_uint (k := 4) h.nTxPos).last (Reads.pure pos)))

theorem testBit_mask {i : Nat} (h : i < 8) (word : UInt8) :
    (word &&& bitMask i != 0) = word.toNat.testBit i := by
  have hmask : (bitMask i).toNat = 2 ^ i := by
    interval_cases i <;> rfl
  have hand : (word &&& bitMask i).toNat = (word.toNat.testBit i).toNat * 2 ^ i := by
    rw [UInt8.toNat_and, hmask, Nat.and_two_pow]
  cases hbit : word.toNat.testBit i with
  | false =>
    have hzero : word &&& bitMask i = 0 := by
      apply UInt8.toNat_inj.mp
      rw [hand, hbit]
      simp
    rw [hzero]
    rfl
  | true =>
    apply bne_iff_ne.mpr
    intro hzero
    rw [hzero, hbit] at hand
    have hpos : 0 < 2 ^ i := Nat.two_pow_pos i
    simp only [Bool.toNat_true, one_mul] at hand
    exact absurd hand.symm hpos.ne'

def byteWord : Packing.Word UInt8 8 where
  zero := 0
  get word i := word &&& bitMask i != 0
  put word i := word ||| bitMask i
  get_zero := by
    intro i hi
    rw [testBit_mask hi]
    simp
  get_put := by
    intro word i j hi hj
    have hmask : (bitMask i).toNat = 2 ^ i := by
      interval_cases i <;> rfl
    rw [testBit_mask hj, testBit_mask hj, UInt8.toNat_or, hmask, Nat.testBit_or,
      Nat.testBit_two_pow, Bool.or_comm]
    simp only [eq_comm]

theorem bitMask_mod (i : Nat) : bitMask (i % 8) = bitMask i := by
  rw [bitMask, bitMask, Nat.mod_mod]

theorem bitWords_eq (v : List Bool) : bitWords v = Packing.pack byteWord v := by
  have hmark : ∀ words i, Packing.mark byteWord words i =
      words.modify (i / 8) (fun word => word ||| bitMask i) := by
    intro words i
    simp only [Packing.mark, byteWord, bitMask_mod]
  simp only [Packing.pack, Packing.packFrom, hmark]
  rfl

theorem bitAt_byteWord (words : List UInt8) (i : Nat) :
    Packing.bitAt byteWord words i = (words.getD (i / 8) 0 &&& bitMask i != 0) := by
  simp only [Packing.bitAt, byteWord, bitMask_mod]

theorem reads_bits {v : List Bool} (h : v.length ≤ maxSize) : Reads readBits (serBits v) v := by
  have hlen : (bitWords v).length = getBitvectorWordCount v.length := by
    rw [bitWords_eq, Packing.pack_length]
    rfl
  have hraw := reads_raw (bitWords v)
  rw [hlen] at hraw
  have hback : (List.range v.length).map
      (fun i => (bitWords v).getD (i / 8) 0 &&& bitMask i != 0) = v := by
    simp only [← bitAt_byteWord]
    rw [bitWords_eq]
    exact Packing.unpack_pack (by decide) byteWord v
  refine (reads_compactSize h).bind (hraw.last ?_)
  rw [hback]
  exact Reads.pure v

theorem serBits_length (v : List Bool) :
    (serBits v).length = getSizeOfCompactSize v.length + getBitvectorWordCount v.length := by
  rw [serBits, List.length_append, writeCompactSize_length, bitWords_eq, Packing.pack_length]
  rfl

namespace CTxIndex

theorem serialize_length (t : CTxIndex) : t.serialize.length = t.getSerializeSize := by
  rw [serialize, List.length_append, CDiskTxPos.serialize_length, serBits_length]
  rfl

theorem reads {nVersion : Int} (hversion : 37500 ≤ nVersion) {t : CTxIndex} (hpos : t.pos.Fits)
    (hlen : t.isSpent.length ≤ maxSize) : Reads (unserialize nVersion) t.serialize t := by
  rw [unserialize, if_neg (by omega), serialize]
  exact (CDiskTxPos.reads hpos).bind ((reads_bits hlen).last (Reads.pure t))

end CTxIndex

structure OldTxIndex.Fits (t : OldTxIndex) : Prop where
  nVersion : IntFits 32 t.nVersion
  dated : t.nVersion < 37500
  pos : t.pos.Fits
  vSpent : ∀ p ∈ t.vSpent, p.Fits

def OldTxIndex.upgraded (t : OldTxIndex) : CTxIndex := ⟨t.pos, t.vSpent.map (fun p => !p.isNull)⟩

theorem OldTxIndex.reads {oldVersion : Int} (hversion : oldVersion < 37500) {t : OldTxIndex}
    (h : t.Fits) (hlen : t.vSpent.length ≤ maxSize) :
    Reads (CTxIndex.unserialize oldVersion) t.serialize t.upgraded := by
  have hdated : ¬ 37500 ≤ t.nVersion := not_le.mpr h.dated
  have hspent := reads_vector hlen (fun p hp => CDiskTxPos.reads (h.vSpent p hp))
  rw [CTxIndex.unserialize, if_pos hversion, serialize]
  simp only [List.append_assoc]
  refine (reads_int (k := 4) (by decide) h.nVersion).bind ?_
  rw [if_neg hdated]
  exact (CDiskTxPos.reads h.pos).bind (hspent.last (Reads.pure t.upgraded))

end Format

structure OldTxDb where
  records : DbRecords
  filed : ∀ (k v : List UInt8), records[k]? = some v →
    (∃ hash old, old.Fits ∧ k = txKey hash ∧ v = OldTxIndex.serialize old) ∨
      ∃ strType rest, strType.length ≤ maxSize ∧ strType ≠ str "tx" ∧ k = serBytes strType ++ rest

section Load

structure TxEntry where
  hash : Uint256
  old : OldTxIndex
  fits : old.Fits
  length : old.vSpent.length ≤ maxSize

def TxEntry.record (e : TxEntry) : List UInt8 × List UInt8 := (txKey e.hash, e.old.serialize)

def OtherType (p : List UInt8 × List UInt8) : Prop :=
  ∃ strType rest, strType.length ≤ maxSize ∧ strType ≠ str "tx" ∧ p.1 = serBytes strType ++ rest

theorem tx_length : (str "tx").length ≤ maxSize := by decide

theorem reads_txKey (hash : Uint256) :
    readBytes (txKey hash) = some (str "tx", serHash hash) ∧
      readHash (serHash hash) = some (hash, []) := by
  refine ⟨reads_bytes tx_length _, ?_⟩
  have hread := reads_hash hash []
  rwa [List.append_nil] at hread

theorem txKey_inj {hash hash' : Uint256} (h : txKey hash = txKey hash') : hash = hash' := by
  have hread := (reads_txKey hash).2
  rw [List.append_cancel_left h, (reads_txKey hash').2] at hread
  cases hread
  rfl

theorem zeroes_least (l : List UInt8) : compare l (List.replicate l.length 0) ≠ .lt := by
  induction l with
  | nil => decide
  | cons x l ih =>
    rw [List.length_cons, List.replicate_succ, List.compare_cons_cons]
    cases hcmp : compare x (0 : UInt8) with
    | lt => exact absurd (Std.compare_eq_lt.mp hcmp) UInt8.not_lt_zero
    | eq => exact ih
    | gt => exact nofun

theorem zeroHash_least (hash : Uint256) : compare (serHash hash) (serHash 0) ≠ .lt := by
  have hzero : serHash 0 = List.replicate (serHash hash).length 0 := by
    rw [serHash_length]
    decide
  rw [hzero]
  exact zeroes_least _

def isTx (p : List UInt8 × List UInt8) : Bool := (readBytes p.1).map Prod.fst == some (str "tx")

theorem TxEntry.isTx_record (e : TxEntry) : isTx e.record = true := by
  rw [isTx, record, (reads_txKey e.hash).1]
  rfl

theorem OtherType.isTx {p : List UInt8 × List UInt8} (h : OtherType p) : isTx p = false := by
  obtain ⟨strType, rest, hlen, hne, hkey⟩ := h
  rw [Namecoin.isTx, hkey, reads_bytes hlen rest]
  simpa using hne

theorem loadTxIndex_other {oldVersion : Int} {rest : List (List UInt8 × List UInt8)}
    (hrest : ∀ p ∈ rest.head?, OtherType p) (txindex : TreeMap Uint256 CTxIndex) :
    loadTxIndex oldVersion rest txindex = .ok txindex := by
  cases rest with
  | nil => rfl
  | cons p rest =>
    obtain ⟨strType, r, hlen, hne, hkey⟩ := hrest p rfl
    obtain ⟨ssKey, ssValue⟩ := p
    rw [loadTxIndex, show ssKey = _ from hkey, reads_bytes hlen r]
    simp only [ne_eq, hne, not_false_eq_true, if_true]

theorem loadTxIndex_entries {oldVersion : Int} (hversion : oldVersion < 37500) {es : List TxEntry}
    {rest : List (List UInt8 × List UInt8)} (hd : es.Pairwise (fun a b => a.hash ≠ b.hash))
    (hrest : ∀ p ∈ rest.head?, OtherType p) {txindex : TreeMap Uint256 CTxIndex}
    (hnew : ∀ e ∈ es, txindex.contains e.hash = false) :
    loadTxIndex oldVersion (es.map TxEntry.record ++ rest) txindex =
      .ok (es.foldl (fun m e => m.insert e.hash e.old.upgraded) txindex) := by
  induction es generalizing txindex with
  | nil => exact loadTxIndex_other hrest txindex
  | cons e es ih =>
    obtain ⟨he, hes⟩ := List.pairwise_cons.mp hd
    obtain ⟨hhere, hlater⟩ := List.forall_mem_cons.mp hnew
    obtain ⟨hkey, hhash⟩ := reads_txKey e.hash
    have hvalue := OldTxIndex.reads hversion e.fits e.length []
    rw [List.append_nil] at hvalue
    have hnext : ∀ e' ∈ es, (txindex.insert e.hash e.old.upgraded).contains e'.hash = false := by
      intro e' he'
      rw [TreeMap.contains_insert, hlater e' he', Bool.or_false]
      simpa using he e' he'
    rw [List.map_cons, List.cons_append, TxEntry.record, loadTxIndex, hkey]
    simp only [ne_eq, not_true_eq_false, if_false, hhash, hvalue, hhere]
    exact ih hes hnext

end Load

namespace OldTxDb

variable {db : OldTxDb}

def Readable (db : OldTxDb) : Prop :=
  ∀ hash old, OldTxIndex.Fits old → db.records[txKey hash]? = some old.serialize →
    old.vSpent.length ≤ maxSize

theorem filed_entry (hread : db.Readable) {p : List UInt8 × List UInt8}
    (hp : p ∈ db.records.toList) : p ∈ Set.range TxEntry.record ∨ OtherType p := by
  obtain ⟨k, v⟩ := p
  have hget := TreeMap.mem_toList_iff_getElem?_eq_some.mp hp
  rcases db.filed k v hget with ⟨hash, old, hfits, rfl, rfl⟩ | hother
  · exact .inl ⟨⟨hash, old, hfits, hread hash old hfits hget⟩, rfl⟩
  · exact .inr hother

theorem setRange_takeWhile (hread : db.Readable) :
    (db.records.setRange (txKey 0)).takeWhile isTx = db.records.toList.filter isTx := by
  have hordered := TreeMap.ordered_keys_toList (t := db.records)
  apply range_eq_filter
  · apply hordered.imp
    intro x y hxy hy
    exact decide_eq_true (Std.TransCmp.lt_trans hxy (of_decide_eq_true hy))
  · apply hordered.imp_of_mem
    intro x y hx hy hxy hy'
    by_cases hlow : compare x.1 (txKey 0) = .lt
    · exact .inl (decide_eq_true hlow)
    · refine .inr ?_
      rcases filed_entry hread hx with ⟨e, rfl⟩ | ⟨strType, rest, hlen, hne, hkey⟩
      · exact e.isTx_record
      · rcases filed_entry hread hy with ⟨e, rfl⟩ | hother
        · rw [hkey] at hlow hxy
          obtain ⟨z, hz⟩ := isPrefix_of_between hlow hxy
          exact absurd (serBytes_inj tx_length hlen hz).1.symm hne
        · rw [hother.isTx] at hy'
          cases hy'
  · intro x hx hx'
    rcases filed_entry hread hx with ⟨e, rfl⟩ | hother
    · apply decide_eq_false
      rw [TxEntry.record, txKey, txKey, compare_append_left]
      exact zeroHash_least _
    · rw [hother.isTx] at hx'
      cases hx'

theorem setRange_entries (hread : db.Readable) : ∃ (es : List TxEntry)
    (rest : List (List UInt8 × List UInt8)),
    db.records.setRange (txKey 0) = es.map TxEntry.record ++ rest ∧
    es.map TxEntry.record = db.records.toList.filter isTx ∧ ∀ p ∈ rest.head?, OtherType p := by
  have hentries : db.records.toList.filter isTx ∈ Set.range (List.map TxEntry.record) := by
    rw [Set.range_list_map]
    intro p hp
    obtain ⟨hmem, htx⟩ := List.mem_filter.mp hp
    rcases filed_entry hread hmem with hentry | hother
    · exact hentry
    · rw [hother.isTx] at htx
      cases htx
  obtain ⟨es, hes⟩ := hentries
  refine ⟨es, (db.records.setRange (txKey 0)).dropWhile isTx, ?_, hes, ?_⟩
  · rw [hes, ← setRange_takeWhile hread, List.takeWhile_append_dropWhile]
  · intro p hp
    obtain ⟨rest, hrest⟩ := List.head?_eq_some_iff.mp hp
    have hseek : p ∈ db.records.setRange (txKey 0) := by
      apply (List.dropWhile_sublist isTx).subset
      rw [hrest]
      exact List.mem_cons_self
    have hmem : p ∈ db.records.toList := (List.dropWhile_sublist _).subset hseek
    have hne : (db.records.setRange (txKey 0)).dropWhile isTx ≠ [] := by
      rw [hrest]
      exact List.cons_ne_nil p rest
    have hstop := List.head_dropWhile_not isTx hne
    simp only [hrest, List.head_cons] at hstop
    rcases filed_entry hread hmem with ⟨e, rfl⟩ | hother
    · rw [e.isTx_record] at hstop
      cases hstop
    · exact hother

def loaded (es : List TxEntry) : TreeMap Uint256 CTxIndex :=
  es.foldl (fun m e => m.insert e.hash e.old.upgraded) ∅

theorem loaded_of_mem {es : List TxEntry} (hd : es.Pairwise (fun a b => a.hash ≠ b.hash))
    {e : TxEntry} (he : e ∈ es) : (loaded es)[e.hash]? = some e.old.upgraded :=
  getElem?_insertAll_of_mem hd he ∅

theorem mem_of_loaded {es : List TxEntry} {hash : Uint256} {t : CTxIndex}
    (h : (loaded es)[hash]? = some t) : ∃ e ∈ es, e.hash = hash := by
  by_contra hnone
  have hne : ∀ e ∈ es, e.hash ≠ hash := fun e he heq => hnone ⟨e, he, heq⟩
  rw [loaded, getElem?_insertAll_of_ne hne] at h
  simp at h

theorem rewriteTxIndex_eq (hread : db.Readable) {oldVersion : Int} (hversion : oldVersion < 37500) :
    ∃ es : List TxEntry, es.map TxEntry.record = db.records.toList.filter isTx ∧
      es.Pairwise (fun a b => a.hash ≠ b.hash) ∧
      db.records.rewriteTxIndex oldVersion = .ok ((loaded es).toList.foldl
        (fun records item => records.updateTxIndex item.1 item.2) db.records) := by
  obtain ⟨es, rest, hseek, hes, hrest⟩ := setRange_entries hread
  have hd : es.Pairwise (fun a b => a.hash ≠ b.hash) := by
    have hkeys := (distinct_keys db.records).filter isTx
    rw [← hes, List.pairwise_map] at hkeys
    apply hkeys.imp
    intro a b hne heq
    exact hne (congrArg txKey heq)
  refine ⟨es, hes, hd, ?_⟩
  rw [DbRecords.rewriteTxIndex, hseek, loadTxIndex_entries hversion hd hrest (by simp)]
  rfl

theorem rewriteTxIndex_get (hread : db.Readable) {oldVersion : Int} (hversion : oldVersion < 37500) :
    ∃ records', db.records.rewriteTxIndex oldVersion = .ok records' ∧
      (∀ e : TxEntry, db.records[txKey e.hash]? = some e.old.serialize →
        records'[txKey e.hash]? = some e.old.upgraded.serialize) ∧
      ∀ k, (∀ hash, k ≠ txKey hash) ∨ db.records[k]? = none → records'[k]? = db.records[k]? := by
  obtain ⟨es, hes, hd, hrun⟩ := rewriteTxIndex_eq hread hversion
  refine ⟨_, hrun, ?_, ?_⟩
  · intro e he
    have hmem : e.record ∈ es.map TxEntry.record := by
      rw [hes]
      refine List.mem_filter.mpr ⟨?_, e.isTx_record⟩
      exact TreeMap.mem_toList_iff_getElem?_eq_some.mpr he
    obtain ⟨e', he', heq⟩ := List.mem_map.mp hmem
    obtain ⟨hkey, hvalue⟩ := Prod.mk.inj heq
    have hsame : e'.old.upgraded = e.old.upgraded := by
      have hread' := OldTxIndex.reads hversion e'.fits e'.length []
      rw [hvalue, OldTxIndex.reads hversion e.fits e.length []] at hread'
      exact (congrArg Prod.fst (Option.some.inj hread')).symm
    have hload := loaded_of_mem hd he'
    rw [txKey_inj hkey, hsame] at hload
    exact getElem?_insertAll_of_mem
      ((distinct_keys _).imp (fun hne heq => hne (txKey_inj heq)))
      (TreeMap.mem_toList_iff_getElem?_eq_some.mpr hload) db.records
  · intro k hk
    apply getElem?_insertAll_of_ne
    rintro ⟨hash, t⟩ hitem rfl
    obtain ⟨e, he, rfl⟩ := mem_of_loaded (TreeMap.mem_toList_iff_getElem?_eq_some.mp hitem)
    have hmem : e.record ∈ db.records.toList.filter isTx := by
      rw [← hes]
      exact List.mem_map_of_mem he
    have hget := TreeMap.mem_toList_iff_getElem?_eq_some.mp (List.mem_filter.mp hmem).1
    rcases hk with hk | hk
    · exact hk e.hash rfl
    · rw [show db.records[txKey e.hash]? = _ from hget] at hk
      cases hk

theorem txIndex_upgrade :
    (∀ t : CTxIndex, t.pos.Fits → t.isSpent.length ≤ maxSize →
      t.serialize.length = t.getSerializeSize ∧
        ∀ rest, CTxIndex.unserialize version (t.serialize ++ rest) = some (t, rest)) ∧
    ∀ (db : OldTxDb) (oldVersion : Int), oldVersion < 37500 → db.Readable →
      ∃ records', db.records.rewriteTxIndex oldVersion = .ok records' ∧
        (∀ hash old, OldTxIndex.Fits old → db.records[txKey hash]? = some old.serialize →
          ∃ t, DbRecords.readTxIndex records' hash = some t ∧ t.pos = old.pos ∧
            t.getOutputCount = old.vSpent.length ∧
            ∀ (i : Nat) (p : CDiskTxPos), old.vSpent[i]? = some p →
              t.isSpent[i]? = some (!p.isNull)) ∧
        ∀ k, (∀ hash, k ≠ txKey hash) ∨ db.records[k]? = none →
          records'[k]? = db.records[k]? := by
  refine ⟨fun t hpos hlen => ⟨t.serialize_length, t.reads (by decide) hpos hlen⟩, ?_⟩
  intro db oldVersion hversion hread
  obtain ⟨records', hrun, hentry, hother⟩ := rewriteTxIndex_get hread hversion
  refine ⟨records', hrun, ?_, hother⟩
  intro hash old hfits hget
  have hlen := hread hash old hfits hget
  have hnew := hentry ⟨hash, old, hfits, hlen⟩ hget
  have hcount : old.upgraded.isSpent.length ≤ maxSize := by
    simpa only [OldTxIndex.upgraded, List.length_map] using hlen
  have hvalue := @CTxIndex.reads version (by decide) old.upgraded hfits.pos hcount []
  rw [List.append_nil] at hvalue
  refine ⟨old.upgraded, ?_, rfl, List.length_map _, ?_⟩
  · rw [DbRecords.readTxIndex, hnew, Option.bind_some, hvalue]
    rfl
  · intro i p hp
    rw [OldTxIndex.upgraded, List.getElem?_map, hp]
    rfl

end OldTxDb

theorem txIndex_long : ¬ ∀ t : CTxIndex, t.pos.Fits →
    ∀ rest, CTxIndex.unserialize version (t.serialize ++ rest) = some (t, rest) := by
  intro hall
  have hpos : CDiskTxPos.null.Fits := ⟨by decide, by decide, by decide⟩
  have hback := hall ⟨.null, List.replicate (maxSize + 1) false⟩ hpos []
  rw [CTxIndex.unserialize, if_neg (by decide), CTxIndex.serialize, List.append_assoc] at hback
  obtain ⟨pos, rest, hread, hback⟩ := bind_some.mp hback
  rw [CDiskTxPos.reads hpos] at hread
  cases hread
  obtain ⟨isSpent, rest, hread, -⟩ := bind_some.mp hback
  obtain ⟨size, rest, hread, -⟩ := bind_some.mp hread
  rw [serBits, List.append_assoc, List.length_replicate,
    readCompactSize_long (by omega) (by decide)] at hread
  cases hread

def siteHash : Uint256 := 7

def siteOld : OldTxIndex := ⟨37200, ⟨1, 80, 161⟩, [⟨1, 300, 381⟩, .null]⟩

theorem siteOld_fits : siteOld.Fits where
  nVersion := by decide
  dated := by decide
  pos := ⟨by decide, by decide, by decide⟩
  vSpent := by
    intro p hp
    rcases List.mem_cons.mp hp with rfl | hp
    · exact ⟨by decide, by decide, by decide⟩
    · rw [List.mem_singleton.mp hp]
      exact ⟨by decide, by decide, by decide⟩

def siteTxDb : OldTxDb where
  records := ((∅ : DbRecords).insert (txKey siteHash) siteOld.serialize).insert
    (serString "version") (leBytes 4 37200)
  filed := by
    intro k v hget
    rw [TreeMap.getElem?_insert] at hget
    split at hget
    · rename_i heq
      refine .inr ⟨str "version", [], by decide, by decide, ?_⟩
      rw [List.append_nil, ← Std.LawfulEqCmp.compare_eq_iff_eq.mp heq]
      rfl
    · rw [TreeMap.getElem?_insert] at hget
      split at hget
      · rename_i heq
        cases hget
        exact .inl ⟨siteHash, siteOld, siteOld_fits, (Std.LawfulEqCmp.compare_eq_iff_eq.mp heq).symm,
          rfl⟩
      · simp at hget

theorem siteTxDb_readable : siteTxDb.Readable := by
  intro hash old hfits hget
  have hsmall : old.serialize.length ≤ maxSize := by
    simp only [siteTxDb, TreeMap.getElem?_insert] at hget
    split at hget
    · rw [← Option.some.inj hget]
      decide
    · split at hget
      · rw [← Option.some.inj hget]
        decide
      · simp at hget
  refine le_trans ?_ hsmall
  rw [OldTxIndex.serialize, List.length_append,
    serVector_length CDiskTxPos.serialize (fun _ => 12) CDiskTxPos.serialize_length,
    List.map_const', List.sum_replicate, smul_eq_mul]
  omega

theorem siteTxDb_upgrade :
    CTxIndex.unserialize version ((CTxIndex.make ⟨1, 80, 161⟩ 9).serialize ++ [1, 2]) =
      some (CTxIndex.make ⟨1, 80, 161⟩ 9, [1, 2]) ∧
    ∃ records', siteTxDb.records.rewriteTxIndex 37200 = .ok records' ∧
      ∃ t, DbRecords.readTxIndex records' siteHash = some t ∧ t.isSpent[1]? = some false := by
  obtain ⟨hformat, hrewrite⟩ := OldTxDb.txIndex_upgrade
  refine ⟨(hformat _ ⟨by decide, by decide, by decide⟩ (by decide)).2 [1, 2], ?_⟩
  obtain ⟨records', hrun, hentry, -⟩ := hrewrite siteTxDb 37200 (by decide) siteTxDb_readable
  have hget : siteTxDb.records[txKey siteHash]? = some siteOld.serialize := by decide +kernel
  obtain ⟨t, hread, -, -, hspent⟩ := hentry siteHash siteOld siteOld_fits hget
  exact ⟨records', hrun, t, hread, hspent 1 .null rfl⟩

end Namecoin
