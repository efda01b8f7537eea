import Namecoin.Data.RoundTrip
import Namecoin.Lib.Act
import Namecoin.Lib.OrderedMap

namespace Namecoin

open Std (TreeMap)
open OrderedMap Reading

def nameKey (vchName : VchType) : List UInt8 := serString "namei" ++ serBytes vchName

inductive NameRecord where
  | namei (vtxPos : List CNameIndex)
  | other

def NameRecord.Filed (ssKey : List UInt8) : NameRecord → Prop
  | .namei _ => ∃ vchName : VchType, vchName.length ≤ maxNameLength ∧ ssKey = nameKey vchName
  | .other => ∃ strType rest, strType.length ≤ maxSize ∧ strType ≠ str "namei" ∧
      ssKey = serBytes strType ++ rest

structure NameDb where
  records : TreeMap (List UInt8) NameRecord
  filed : ∀ (k : List UInt8) (v : NameRecord), records[k]? = some v → v.Filed k

abbrev ScannedName := VchType × CNameIndex

-- an empty history leaves nHeight of the default CNameIndex unset
def lastEntry (nUnset : Nat) (vtxPos : List CNameIndex) : CNameIndex :=
  (vtxPos.getLast?).getD ⟨.null, nUnset, []⟩

def endOfData : Fault := .exception "CDataStream::read() : end of data"

def scanRecord (nUnset : Nat) (ssKey : List UInt8) (ssValue : NameRecord)
    (nameScan : List ScannedName) : Except Fault (List ScannedName) :=
  match readBytes ssKey with
  | none => .error endOfData
  | some (strType, ssKey) =>
    if strType = str "namei" then
      match readBytes ssKey, ssValue with
      | none, _ => .error endOfData
      | some _, .other => .error .undefined
      | some (vchName, _), .namei vtxPos => .ok (nameScan ++ [(vchName, lastEntry nUnset vtxPos)])
    else .ok nameScan

def scanRecords (nUnset nMax : Nat) : List (List UInt8 × NameRecord) → List ScannedName →
    Except Fault (List ScannedName)
  | [], nameScan => .ok nameScan
  | (ssKey, ssValue) :: rest, nameScan => do
    let nameScan ← scanRecord nUnset ssKey ssValue nameScan
    if nMax ≤ nameScan.length then return nameScan else scanRecords nUnset nMax rest nameScan

def sizeOfInt (n : Int) : Nat := (n % 2 ^ 64).toNat

namespace NameDb

def scanNames (nUnset : Nat) (vchName : VchType) (nMax : Int) (db : NameDb) :
    Except Fault (List ScannedName) :=
  scanRecords nUnset (sizeOfInt nMax)
    (db.records.toList.dropWhile (fun p => decide (compare p.1 (nameKey vchName) = .lt))) []

def readName (db : NameDb) (vchName : VchType) : Option (List CNameIndex) :=
  match db.records[nameKey vchName]? with
  | some (.namei vtxPos) => some vtxPos
  | _ => none

end NameDb

section Order

def compareNames (a b : VchType) : Ordering := (compare a.length b.length).then (compare a b)

theorem compare_byte {m n : Nat} (hm : m < 256) (hn : n < 256) :
    compare (UInt8.ofNat m) (UInt8.ofNat n) = compare m n := by
  have hm' : (UInt8.ofNat m).toNat = m := UInt8.toNat_ofNat_of_lt' hm
  have hn' : (UInt8.ofNat n).toNat = n := UInt8.toNat_ofNat_of_lt' hn
  rcases Nat.lt_trichotomy m n with h | rfl | h
  · rw [Nat.compare_eq_lt.mpr h]
    exact Std.compare_eq_lt.mpr (UInt8.lt_iff_toNat_lt.mpr (by omega))
  · rw [Nat.compare_eq_eq.mpr rfl]
    exact Std.ReflCmp.compare_self
  · rw [Nat.compare_eq_gt.mpr h]
    exact Std.compare_eq_gt.mpr (UInt8.lt_iff_toNat_lt.mpr (by omega))

theorem writeCompactSize_lt {m n : Nat} (h : m < n) (hn : n ≤ maxNameLength) (x y : List UInt8) :
    compare (writeCompactSize m ++ x) (writeCompactSize n ++ y) = .lt := by
  have hone : ∀ k, k < 256 → leBytes 1 k = [UInt8.ofNat k] := by
    intro k hk
    rw [leBytes, leBytes, Nat.mod_eq_of_lt hk]
  have htwo : ∀ k, k < 256 → leBytes 2 k = [UInt8.ofNat k, 0] := by
    intro k hk
    rw [leBytes, Nat.mod_eq_of_lt hk, Nat.div_eq_of_lt hk]
    rfl
  have hlarge : (253 : UInt8) = UInt8.ofNat 253 := rfl
  unfold maxNameLength at hn
  unfold writeCompactSize
  split
  · rw [hone m (by omega)]
    split
    · rw [hone n (by omega), List.cons_append, List.cons_append, List.compare_cons_cons,
        compare_byte (by omega) (by omega), Nat.compare_eq_lt.mpr h]
      rfl
    · rw [if_pos (by omega), List.cons_append, List.cons_append, List.compare_cons_cons, hlarge,
        compare_byte (by omega) (by omega), Nat.compare_eq_lt.mpr (by omega)]
      rfl
  · rw [if_pos (by omega), if_neg (by omega), if_pos (by omega), htwo m (by omega),
      htwo n (by omega)]
    simp only [List.cons_append, List.compare_cons_cons]
    have hsame : compare (253 : UInt8) 253 = .eq := Std.ReflCmp.compare_self
    rw [hsame, compare_byte (by omega) (by omega), Nat.compare_eq_lt.mpr h]
    rfl

theorem serBytes_compare {a b : VchType} (ha : a.length ≤ maxNameLength)
    (hb : b.length ≤ maxNameLength) : compare (serBytes a) (serBytes b) = compareNames a b := by
  unfold serBytes compareNames
  rcases Nat.lt_trichotomy a.length b.length with h | h | h
  · rw [writeCompactSize_lt h hb, Nat.compare_eq_lt.mpr h]
    rfl
  · rw [h, compare_append_left, Nat.compare_eq_eq.mpr rfl]
    rfl
  · rw [Std.OrientedCmp.gt_iff_lt.mpr (writeCompactSize_lt h ha b a), Nat.compare_eq_gt.mpr h]
    rfl

theorem nameKey_compare {a b : VchType} (ha : a.length ≤ maxNameLength)
    (hb : b.length ≤ maxNameLength) : compare (nameKey a) (nameKey b) = compareNames a b := by
  rw [nameKey, nameKey, compare_append_left, serBytes_compare ha hb]

end Order

section Filed

def NameRecord.isNamei : NameRecord → Bool
  | .namei _ => true
  | .other => false

def entryOf (nUnset : Nat) (p : List UInt8 × NameRecord) : Option ScannedName :=
  match p.2 with
  | .namei vtxPos => some ((keyName p.1).getD [], lastEntry nUnset vtxPos)
  | .other => none
where
  keyName (ssKey : List UInt8) : Option VchType :=
    ((readBytes ssKey).bind (fun r => readBytes r.2)).map Prod.fst

variable {nUnset nMax : Nat}

theorem namei_length : (str "namei").length ≤ maxSize := by decide

theorem maxNameLength_le {vchName : VchType} (h : vchName.length ≤ maxNameLength) :
    vchName.length ≤ maxSize := h.trans (by decide)

theorem reads_nameKey {vchName : VchType} (h : vchName.length ≤ maxNameLength) :
    readBytes (nameKey vchName) = some (str "namei", serBytes vchName) ∧
      readBytes (serBytes vchName) = some (vchName, []) := by
  refine ⟨reads_bytes namei_length _, ?_⟩
  have hread := reads_bytes (maxNameLength_le h) []
  rwa [List.append_nil] at hread

theorem entryOf_namei {vchName : VchType} (h : vchName.length ≤ maxNameLength)
    (vtxPos : List CNameIndex) :
    entryOf nUnset (nameKey vchName, .namei vtxPos) = some (vchName, lastEntry nUnset vtxPos) := by
  obtain ⟨hkey, hname⟩ := reads_nameKey h
  simp only [entryOf, entryOf.keyName, hkey, hname, Option.bind_some, Option.map_some,
    Option.getD_some]

theorem scanRecord_filed {p : List UInt8 × NameRecord} (hp : p.2.Filed p.1)
    (nameScan : List ScannedName) : scanRecord nUnset p.1 p.2 nameScan =
      .ok (nameScan ++ (entryOf nUnset p).toList) := by
  obtain ⟨ssKey, ssValue⟩ := p
  cases ssValue with
  | namei vtxPos =>
    obtain ⟨vchName, hlen, rfl⟩ := hp
    obtain ⟨hkey, hname⟩ := reads_nameKey hlen
    rw [entryOf_namei hlen, scanRecord, hkey]
    simp only [hname, if_true, Option.toList_some]
  | other =>
    obtain ⟨strType, rest, hlen, hne, rfl⟩ := hp
    rw [scanRecord, reads_bytes hlen rest]
    simp only [if_neg hne, entryOf, Option.toList_none, List.append_nil]

theorem scanRecords_eq {l : List (List UInt8 × NameRecord)} (hfiled : ∀ p ∈ l, p.2.Filed p.1)
    (hfirst : l.Pairwise (fun x y => y.2.isNamei = true → x.2.isNamei = true))
    {nameScan : List ScannedName} (hroom : nameScan.length < max nMax 1) :
    scanRecords nUnset nMax l nameScan = .ok (nameScan ++
      (l.filterMap (entryOf nUnset)).take (max nMax 1 - nameScan.length)) := by
  induction l generalizing nameScan with
  | nil => simp [scanRecords]
  | cons p rest ih =>
    obtain ⟨hp, hrest⟩ := List.forall_mem_cons.mp hfiled
    obtain ⟨hhead, htail⟩ := List.pairwise_cons.mp hfirst
    obtain ⟨ssKey, ssValue⟩ := p
    rw [scanRecords, scanRecord_filed hp]
    show (if _ then Except.ok _ else _) = _
    cases ssValue with
    | namei vtxPos =>
      obtain ⟨vchName, hlen, rfl⟩ := hp
      rw [List.filterMap_cons_some (entryOf_namei hlen vtxPos), entryOf_namei hlen,
        Option.toList_some]
      split
      · rename_i hfull
        rw [List.length_append, List.length_singleton] at hfull
        have hone : max nMax 1 - nameScan.length = 1 := by omega
        rw [hone]
        rfl
      · rename_i hmore
        rw [List.length_append, List.length_singleton] at hmore
        obtain ⟨k, hk⟩ : ∃ k, max nMax 1 - nameScan.length = k + 1 :=
          ⟨max nMax 1 - nameScan.length - 1, by omega⟩
        have hroom' : (nameScan ++ [(vchName, lastEntry nUnset vtxPos)]).length < max nMax 1 := by
          rw [List.length_append, List.length_singleton]
          omega
        have hk' : max nMax 1 - (nameScan.length + 1) = k := by omega
        rw [ih hrest htail hroom', hk, List.take_succ_cons, List.length_append,
          List.length_singleton, hk', List.append_assoc]
        rfl
    | other =>
      have hnone : rest.filterMap (entryOf nUnset) = [] := by
        apply List.filterMap_eq_nil_iff.mpr
        intro q hq
        obtain ⟨k, v⟩ := q
        cases v with
        | namei vtxPos => cases hhead _ hq rfl
        | other => rfl
      have hskip : ((ssKey, NameRecord.other) :: rest).filterMap (entryOf nUnset) = [] := by
        rw [List.filterMap_cons_none rfl, hnone]
      have hown : entryOf nUnset (ssKey, .other) = none := rfl
      rw [hskip, hown, Option.toList_none, List.append_nil, List.take_nil, List.append_nil]
      split
      · rfl
      · rw [ih hrest htail hroom, hnone, List.take_nil, List.append_nil]

end Filed

namespace NameDb

variable {nUnset : Nat} {vchName : VchType} {db : NameDb}

def entries (nUnset : Nat) (db : NameDb) : List ScannedName :=
  db.records.toList.filterMap (entryOf nUnset)

def namesFrom (nUnset : Nat) (vchName : VchType) (db : NameDb) : List ScannedName :=
  ((db.entries nUnset).mergeSort (fun p q => (compareNames p.1 q.1).isLE)).filter
    (fun p => (compareNames vchName p.1).isLE)

def keyed (nUnset : Nat) (vchName : VchType) (db : NameDb) : List ScannedName :=
  (db.entries nUnset).filter (fun p => !decide (compare (nameKey p.1) (nameKey vchName) = .lt))

theorem mem_filed (db : NameDb) {p : List UInt8 × NameRecord} (hp : p ∈ db.records.toList) :
    p.2.Filed p.1 := db.filed p.1 p.2 (TreeMap.mem_toList_iff_getElem?_eq_some.mp hp)

theorem entry_of_mem {p : ScannedName} (hp : p ∈ db.entries nUnset) :
    ∃ vtxPos, p.1.length ≤ maxNameLength ∧ (nameKey p.1, .namei vtxPos) ∈ db.records.toList ∧
      p.2 = lastEntry nUnset vtxPos := by
  obtain ⟨⟨ssKey, ssValue⟩, hmem, hentry⟩ := List.mem_filterMap.mp hp
  have hfiled := db.mem_filed hmem
  cases ssValue with
  | namei vtxPos =>
    obtain ⟨vchName, hlen, rfl⟩ := hfiled
    rw [entryOf_namei hlen] at hentry
    cases hentry
    exact ⟨vtxPos, hlen, hmem, rfl⟩
  | other => cases hentry

theorem mem_entries_iff {p : ScannedName} : p ∈ db.entries nUnset ↔
    p.1.length ≤ maxNameLength ∧
      ∃ vtxPos, db.readName p.1 = some vtxPos ∧ p.2 = lastEntry nUnset vtxPos := by
  constructor
  · intro hp
    obtain ⟨vtxPos, hlen, hmem, hlast⟩ := entry_of_mem hp
    refine ⟨hlen, vtxPos, ?_, hlast⟩
    rw [readName, TreeMap.mem_toList_iff_getElem?_eq_some.mp hmem]
  · rintro ⟨hlen, vtxPos, hread, hlast⟩
    unfold readName at hread
    split at hread
    · rename_i vtxPos' hget
      cases hread
      refine List.mem_filterMap.mpr ⟨(nameKey p.1, .namei vtxPos),
        TreeMap.mem_toList_iff_getElem?_eq_some.mpr hget, ?_⟩
      rw [entryOf_namei hlen, ← hlast]
    · cases hread

theorem entries_ordered (nUnset : Nat) (db : NameDb) : (db.entries nUnset).Pairwise
    (fun p q => compare (nameKey p.1) (nameKey q.1) = .lt) := by
  have hordered := TreeMap.ordered_keys_toList (t := db.records)
  refine List.pairwise_filterMap.mpr (hordered.imp_of_mem ?_)
  intro x y hx hy hxy p hp q hq
  have hx' := db.mem_filed hx
  have hy' := db.mem_filed hy
  obtain ⟨kx, vx⟩ := x
  obtain ⟨ky, vy⟩ := y
  cases vx with
  | other => cases hp
  | namei vtxPos =>
    cases vy with
    | other => cases hq
    | namei vtxPos' =>
      obtain ⟨a, ha, rfl⟩ := hx'
      obtain ⟨b, hb, rfl⟩ := hy'
      rw [entryOf_namei ha] at hp
      rw [entryOf_namei hb] at hq
      cases hp
      cases hq
      exact hxy

theorem entries_sorted (nUnset : Nat) (db : NameDb) :
    (db.entries nUnset).Pairwise (fun p q => compareNames p.1 q.1 = .lt) := by
  refine (db.entries_ordered nUnset).imp_of_mem ?_
  intro p q hp hq hlt
  obtain ⟨-, hplen, -⟩ := entry_of_mem hp
  obtain ⟨-, hqlen, -⟩ := entry_of_mem hq
  rwa [← nameKey_compare hplen hqlen]

theorem seek_eq_filter (db : NameDb) (vchName : VchType) :
    db.records.toList.dropWhile (fun p => decide (compare p.1 (nameKey vchName) = .lt)) =
      db.records.toList.filter (fun p => !decide (compare p.1 (nameKey vchName) = .lt)) := by
  apply dropWhile_eq_filter
  apply (TreeMap.ordered_keys_toList (t := db.records)).imp
  intro x y hxy hy
  exact decide_eq_true (Std.TransCmp.lt_trans hxy (of_decide_eq_true hy))

theorem records_above (db : NameDb) (vchName : VchType) :
    (db.records.toList.dropWhile (fun p => decide (compare p.1 (nameKey vchName) = .lt))).Pairwise
      (fun x y => y.2.isNamei = true → x.2.isNamei = true) := by
  rw [seek_eq_filter]
  refine ((TreeMap.ordered_keys_toList (t := db.records)).filter _).imp_of_mem ?_
  intro x y hx hy hxy hnamei
  obtain ⟨hxmem, hlow⟩ := List.mem_filter.mp hx
  have hxfiled := db.mem_filed hxmem
  have hyfiled := db.mem_filed (List.mem_filter.mp hy).1
  obtain ⟨kx, vx⟩ := x
  obtain ⟨ky, vy⟩ := y
  cases vx with
  | namei vtxPos => rfl
  | other =>
    cases vy with
    | other => cases hnamei
    | namei vtxPos =>
      obtain ⟨b, -, rfl⟩ := hyfiled
      obtain ⟨strType, rest, hlen, hne, rfl⟩ := hxfiled
      have hlow' : compare (serBytes strType ++ rest) (nameKey vchName) ≠ .lt := by
        simpa using hlow
      obtain ⟨z, hz⟩ := isPrefix_of_between hlow' hxy
      exact absurd (serBytes_inj namei_length hlen hz).1.symm hne

theorem scanNames_eq (db : NameDb) (nUnset : Nat) (vchName : VchType) {nMax : Nat}
    (hmax : nMax ≤ intMax + 1) : db.scanNames nUnset vchName nMax =
      .ok ((db.keyed nUnset vchName).take (max nMax 1)) := by
  have hsize : sizeOfInt nMax = nMax := by
    unfold sizeOfInt
    unfold intMax at hmax
    omega
  have hfiled : ∀ p ∈ db.records.toList.dropWhile
      (fun p => decide (compare p.1 (nameKey vchName) = .lt)), p.2.Filed p.1 :=
    fun p hp => db.mem_filed ((List.dropWhile_sublist _).subset hp)
  have hroom : ([] : List ScannedName).length < max nMax 1 := by
    rw [List.length_nil]
    omega
  rw [scanNames, hsize, scanRecords_eq hfiled (db.records_above vchName) hroom, List.nil_append,
    List.length_nil, Nat.sub_zero, seek_eq_filter, keyed, entries]
  congr 2
  rw [List.filterMap_filter, List.filter_filterMap]
  apply List.filterMap_congr
  intro p hp
  have hpfiled := db.mem_filed hp
  obtain ⟨k, v⟩ := p
  cases v with
  | other => simp [entryOf]
  | namei vtxPos =>
    obtain ⟨a, ha, rfl⟩ := hpfiled
    rw [entryOf_namei ha, Option.filter_some]

def Has (db : NameDb) (vchName : VchType) : Prop :=
  vchName.length ≤ maxNameLength ∧ (db.readName vchName).isSome

theorem has_iff : db.Has vchName ↔ ∃ p ∈ db.entries nUnset, p.1 = vchName := by
  constructor
  · rintro ⟨hlen, hsome⟩
    obtain ⟨vtxPos, hread⟩ := Option.isSome_iff_exists.mp hsome
    exact ⟨(vchName, _), mem_entries_iff.mpr ⟨hlen, vtxPos, hread, rfl⟩, rfl⟩
  · rintro ⟨p, hp, rfl⟩
    obtain ⟨hlen, vtxPos, hread, -⟩ := mem_entries_iff.mp hp
    exact ⟨hlen, by rw [hread]; rfl⟩

theorem entries_mergeSort (nUnset : Nat) (db : NameDb) :
    (db.entries nUnset).mergeSort (fun p q => (compareNames p.1 q.1).isLE) = db.entries nUnset := by
  apply List.mergeSort_of_pairwise
  apply (db.entries_sorted nUnset).imp
  intro p q hlt
  rw [hlt]
  rfl

theorem compareNames_swap (a b : VchType) : compareNames b a = (compareNames a b).swap := by
  unfold compareNames
  rw [Ordering.swap_then, ← Std.OrientedCmp.eq_swap, ← Std.OrientedCmp.eq_swap]

theorem keyed_eq_namesFrom (db : NameDb) (nUnset : Nat) (h : vchName.length ≤ maxNameLength) :
    db.keyed nUnset vchName = db.namesFrom nUnset vchName := by
  rw [keyed, namesFrom, entries_mergeSort]
  apply List.filter_congr
  intro p hp
  obtain ⟨-, hlen, -⟩ := entry_of_mem hp
  rw [nameKey_compare hlen h, compareNames_swap p.1 vchName]
  cases compareNames p.1 vchName <;> rfl

theorem namesFrom_long (db : NameDb) (nUnset : Nat) (h : maxNameLength < vchName.length) :
    db.namesFrom nUnset vchName = [] := by
  rw [namesFrom, entries_mergeSort]
  apply List.filter_eq_nil_iff.mpr
  intro p hp
  obtain ⟨-, hlen, -⟩ := entry_of_mem hp
  rw [compareNames, Nat.compare_eq_gt.mpr (by omega)]
  exact nofun

theorem keyed_eq_nil_iff : db.keyed nUnset vchName = [] ↔
    ∀ name, db.Has name → compare (nameKey name) (nameKey vchName) = .lt := by
  rw [keyed, List.filter_eq_nil_iff]
  simp only [Bool.not_eq_true', decide_eq_false_iff_not, not_not]
  constructor
  · intro h name hhas
    obtain ⟨p, hp, rfl⟩ := (@has_iff nUnset name db).mp hhas
    exact h p hp
  · intro h p hp
    exact h p.1 (has_iff.mpr ⟨p, hp, rfl⟩)

theorem scanNames_first_iff (db : NameDb) (nUnset : Nat) (vchName : VchType) {nMax : Nat}
    (hmax : nMax ≤ intMax) :
    db.scanNames nUnset vchName nMax = .ok ((db.namesFrom nUnset vchName).take nMax) ↔
      (0 < nMax ∧ vchName.length ≤ maxNameLength) ∨
        ∀ name, db.Has name → compare (nameKey name) (nameKey vchName) = .lt := by
  rw [db.scanNames_eq nUnset vchName (Nat.le_succ_of_le hmax), ← @keyed_eq_nil_iff nUnset]
  constructor
  · intro h
    have heq := Except.ok.inj h
    rcases Nat.eq_zero_or_pos nMax with rfl | hpos
    · refine .inr ?_
      rw [List.take_zero, List.take_eq_nil_iff] at heq
      exact heq.resolve_left (by omega)
    · rcases Nat.lt_or_ge maxNameLength vchName.length with hlong | hshort
      · refine .inr ?_
        rw [namesFrom_long db nUnset hlong, List.take_nil, List.take_eq_nil_iff] at heq
        exact heq.resolve_left (by omega)
      · exact .inl ⟨hpos, hshort⟩
  · rintro (⟨hpos, hshort⟩ | hnone)
    · rw [keyed_eq_namesFrom db nUnset hshort, max_eq_left hpos]
    · rw [hnone, List.take_nil]
      rcases Nat.lt_or_ge maxNameLength vchName.length with hlong | hshort
      · rw [namesFrom_long db nUnset hlong, List.take_nil]
      · rw [← keyed_eq_namesFrom db nUnset hshort, hnone, List.take_nil]

def resumeNames (nUnset : Nat) (last : VchType) (nMax : Nat) (db : NameDb) :
    Except Fault (List ScannedName) :=
  (db.scanNames nUnset last (nMax + 1 : Nat)).map List.tail

def pagesFrom (nUnset nMax : Nat) (db : NameDb) :
    Nat → List ScannedName → Except Fault (List ScannedName)
  | 0, _ => .error .undefined
  | fuel + 1, page =>
    match page.getLast? with
    | none => .ok []
    | some last => do
      let next ← db.resumeNames nUnset last.1 nMax
      let rest ← pagesFrom nUnset nMax db fuel next
      return page ++ rest

def pages (nUnset : Nat) (vchName : VchType) (nMax fuel : Nat) (db : NameDb) :
    Except Fault (List ScannedName) := do
  let page ← db.scanNames nUnset vchName nMax
  db.pagesFrom nUnset nMax fuel page

theorem keyed_last {P Q : List ScannedName} {last : ScannedName}
    (h : db.entries nUnset = P ++ last :: Q) : db.keyed nUnset last.1 = last :: Q := by
  have hordered := db.entries_ordered nUnset
  rw [h] at hordered
  obtain ⟨-, hlastQ, hbefore⟩ := List.pairwise_append.mp hordered
  obtain ⟨hafter, -⟩ := List.pairwise_cons.mp hlastQ
  rw [keyed, h, List.filter_append, List.filter_cons_of_pos (by simp)]
  have hP : P.filter (fun p => !decide (compare (nameKey p.1) (nameKey last.1) = .lt)) = [] := by
    apply List.filter_eq_nil_iff.mpr
    intro p hp
    simpa using hbefore p hp last List.mem_cons_self
  have hQ : Q.filter (fun p => !decide (compare (nameKey p.1) (nameKey last.1) = .lt)) = Q := by
    apply List.filter_eq_self.mpr
    intro q hq
    have hgt := Std.OrientedCmp.gt_of_lt (hafter q hq)
    simp [hgt]
  rw [hP, hQ, List.nil_append]

theorem pagesFrom_eq {nMax fuel : Nat} (hpos : 0 < nMax) (hmax : nMax ≤ intMax)
    {P Q : List ScannedName} (h : db.entries nUnset = P ++ Q) (hfuel : Q.length < fuel) :
    db.pagesFrom nUnset nMax fuel (Q.take nMax) = .ok Q := by
  induction fuel generalizing P Q with
  | zero => omega
  | succ fuel ih =>
    rw [pagesFrom]
    cases hlast : (Q.take nMax).getLast? with
    | none =>
      have hnil := List.getLast?_eq_none_iff.mp hlast
      rw [List.take_eq_nil_iff] at hnil
      rw [hnil.resolve_left (by omega)]
    | some last =>
      obtain ⟨front, hfront⟩ := List.getLast?_eq_some_iff.mp hlast
      have hQ : Q = front ++ last :: Q.drop nMax := by
        rw [← List.singleton_append, ← List.append_assoc, ← hfront, List.take_append_drop]
      have hlen := congrArg List.length hQ
      rw [List.length_append, List.length_cons] at hlen
      have hsplit : db.entries nUnset = (P ++ front) ++ last :: Q.drop nMax := by
        rw [List.append_assoc, ← hQ, h]
      have hnext : db.resumeNames nUnset last.1 nMax = .ok ((Q.drop nMax).take nMax) := by
        rw [resumeNames, db.scanNames_eq nUnset last.1 (Nat.succ_le_succ hmax),
          keyed_last hsplit, max_eq_left (Nat.succ_pos nMax)]
        rfl
      have hsplit' : db.entries nUnset = (P ++ front ++ [last]) ++ Q.drop nMax := by
        rw [hsplit, List.append_assoc (P ++ front), List.singleton_append]
      have hrest := ih hsplit' (by omega)
      refine Except.bind_eq_ok.mpr ⟨_, hnext, Except.bind_eq_ok.mpr ⟨_, hrest, ?_⟩⟩
      rw [List.take_append_drop]
      rfl

theorem pages_eq (db : NameDb) (nUnset : Nat) {vchName : VchType} {nMax fuel : Nat}
    (hname : vchName.length ≤ maxNameLength) (hpos : 0 < nMax) (hmax : nMax ≤ intMax)
    (hfuel : (db.entries nUnset).length < fuel) :
    db.pages nUnset vchName nMax fuel = .ok (db.namesFrom nUnset vchName) := by
  have hbelow : (db.entries nUnset).Pairwise (fun p q =>
      decide (compare (nameKey q.1) (nameKey vchName) = .lt) = true →
        decide (compare (nameKey p.1) (nameKey vchName) = .lt) = true) := by
    apply (db.entries_ordered nUnset).imp
    intro p q hpq hq
    exact decide_eq_true (Std.TransCmp.lt_trans hpq (of_decide_eq_true hq))
  have hdrop := dropWhile_eq_filter hbelow
  have hsplit : db.entries nUnset = (db.entries nUnset).takeWhile
      (fun p => decide (compare (nameKey p.1) (nameKey vchName) = .lt)) ++ db.keyed nUnset vchName := by
    rw [keyed, ← hdrop, List.takeWhile_append_dropWhile]
  have hle : (db.keyed nUnset vchName).length ≤ (db.entries nUnset).length :=
    List.length_filter_le _ _
  have hscan := db.scanNames_eq nUnset vchName (Nat.le_succ_of_le hmax)
  rw [max_eq_left hpos] at hscan
  rw [← keyed_eq_namesFrom db nUnset hname]
  exact Except.bind_eq_ok.mpr ⟨_, hscan, pagesFrom_eq hpos hmax hsplit (by omega)⟩

theorem namesFrom_once (db : NameDb) (nUnset : Nat) (vchName : VchType) :
    ((db.namesFrom nUnset vchName).map Prod.fst).Nodup := by
  rw [namesFrom, entries_mergeSort, List.Nodup, List.pairwise_map]
  apply ((db.entries_sorted nUnset).filter _).imp
  intro p q hlt heq
  have hself : compareNames q.1 q.1 = .eq := by
    unfold compareNames
    rw [Nat.compare_eq_eq.mpr rfl]
    exact Std.ReflCmp.compare_self
  rw [heq, hself] at hlt
  cases hlt

theorem scanNames_pages (db : NameDb) (nUnset : Nat) (vchName : VchType) {nMax : Nat}
    (hmax : nMax ≤ intMax) :
    (db.scanNames nUnset vchName nMax = .ok ((db.namesFrom nUnset vchName).take nMax) ↔
      (0 < nMax ∧ vchName.length ≤ maxNameLength) ∨
        ∀ name, db.Has name → compare (nameKey name) (nameKey vchName) = .lt) ∧
    (0 < nMax → vchName.length ≤ maxNameLength → ∃ fuel,
      db.pages nUnset vchName nMax fuel = .ok (db.namesFrom nUnset vchName)) ∧
    ((db.namesFrom nUnset vchName).map Prod.fst).Nodup ∧
    ∀ p, p ∈ db.namesFrom nUnset vchName ↔ p.1.length ≤ maxNameLength ∧
      (compareNames vchName p.1).isLE = true ∧
      ∃ vtxPos, db.readName p.1 = some vtxPos ∧ p.2 = lastEntry nUnset vtxPos := by
  refine ⟨db.scanNames_first_iff nUnset vchName hmax, ?_, db.namesFrom_once nUnset vchName, ?_⟩
  · intro hpos hname
    exact ⟨_, db.pages_eq nUnset hname hpos hmax (Nat.lt_succ_self _)⟩
  · intro p
    rw [namesFrom, entries_mergeSort, List.mem_filter, mem_entries_iff]
    tauto

end NameDb

def siteRecords : TreeMap (List UInt8) NameRecord :=
  ((∅ : TreeMap (List UInt8) NameRecord).insert (nameKey (str "d/site"))
    (.namei [⟨.memPool, 7, str "value"⟩])).insert (serString "version") .other

def siteDb : NameDb where
  records := siteRecords
  filed := by
    intro k v hget
    rw [siteRecords, TreeMap.getElem?_insert] at hget
    split at hget
    · rename_i heq
      cases hget
      refine ⟨str "version", [], by decide, by decide, ?_⟩
      rw [List.append_nil, ← Std.LawfulEqCmp.compare_eq_iff_eq.mp heq]
      rfl
    · rw [TreeMap.getElem?_insert] at hget
      split at hget
      · rename_i heq
        cases hget
        exact ⟨str "d/site", by decide, (Std.LawfulEqCmp.compare_eq_iff_eq.mp heq).symm⟩
      · simp at hget

theorem scanNames_zero :
    ¬ ∀ (db : NameDb) (nUnset : Nat) (vchName : VchType) (nMax : Nat), nMax ≤ intMax →
      db.scanNames nUnset vchName nMax = .ok ((db.namesFrom nUnset vchName).take nMax) := by
  intro hall
  have hone : (siteDb.scanNames 0 [] (0 : Nat)).toOption.map List.length = some 1 := by
    decide +kernel
  rw [hall siteDb 0 [] 0 (Nat.zero_le _)] at hone
  cases hone

def NameDb.writeName (db : NameDb) (vchName : VchType) (vtxPos : List CNameIndex)
    (hlen : vchName.length ≤ maxNameLength) : NameDb where
  records := db.records.insert (nameKey vchName) (.namei vtxPos)
  filed := by
    intro k v hget
    rw [TreeMap.getElem?_insert] at hget
    split at hget
    · rename_i heq
      cases hget
      exact ⟨vchName, hlen, (Std.LawfulEqCmp.compare_eq_iff_eq.mp heq).symm⟩
    · exact db.filed k v hget

def sitesDb : NameDb :=
  (((siteDb.writeName (str "d/sitf") [⟨.memPool, 8, str "next"⟩, ⟨.memPool, 9, str "last"⟩]
    (by decide)).writeName (str "d/a") [] (by decide)).writeName (str "d/abcdefgh")
      [⟨.memPool, 5, str "long"⟩] (by decide)).writeName (str "d/ab") [⟨.memPool, 6, str "short"⟩]
        (by decide)

-- Shorter names come first, and the start name need not be in the database.
theorem sitesDb_pages :
    (sitesDb.scanNames 0 (str "d/b") (10 : Nat)).toOption.map (fun page => page.map Prod.fst) =
        some [str "d/ab", str "d/site", str "d/sitf", str "d/abcdefgh"] ∧
      sitesDb.scanNames 0 (str "d/b") (3 : Nat) = .ok ((sitesDb.namesFrom 0 (str "d/b")).take 3) ∧
      ∃ fuel, sitesDb.pages 0 (str "d/b") 3 fuel = .ok (sitesDb.namesFrom 0 (str "d/b")) := by
  obtain ⟨hfirst, hpages, -⟩ := sitesDb.scanNames_pages 0 (str "d/b") (by decide : 3 ≤ intMax)
  exact ⟨by decide +kernel, hfirst.mpr (.inl ⟨by decide, by decide⟩), hpages (by decide) (by decide)⟩

end Namecoin
