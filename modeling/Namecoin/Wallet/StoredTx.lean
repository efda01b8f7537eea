import Namecoin.Data.RoundTrip
import Namecoin.Lib.OrderedMap

namespace Namecoin

open Std (ExtTreeMap)
open OrderedMap Reading

abbrev MapValue := ExtTreeMap StdString StdString

structure StoredTx extends CMerkleTx where
  vtxPrev : List CMerkleTx
  mapValue : MapValue
  vOrderForm : List (StdString × StdString)
  fTimeReceivedIsTxTime : Nat
  nTimeReceived : Nat
  fFromMe : UInt8
  strFromAccount : StdString
  vfSpent : List UInt8

def serPair (item : StdString × StdString) : List UInt8 := serBytes item.1 ++ serBytes item.2

def readPair : Reader UInt8 (StdString × StdString) := do
  let first ← readBytes
  let second ← readBytes
  pure (first, second)

def sizePair (item : StdString × StdString) : Nat :=
  getSizeOfCompactSize item.1.length + item.1.length +
    (getSizeOfCompactSize item.2.length + item.2.length)

def sizeVector {α : Type} (f : α → Nat) (v : List α) : Nat :=
  getSizeOfCompactSize v.length + (v.map f).sum

def serMap (m : MapValue) : List UInt8 := serVector serPair m.toList

def readMap : Reader UInt8 MapValue := do
  let items ← readVector readPair
  pure (items.foldl (fun m item => m.insertIfNew item.1 item.2) ∅)

def readChar : Reader UInt8 UInt8 := do
  let n ← readUInt 1
  pure (UInt8.ofNat n)

namespace StoredTx

def spentFlag (f : UInt8) : UInt8 := if f ≠ 0 then '1'.toUInt8 else '0'.toUInt8

def withReserved (wtx : StoredTx) : StoredTx :=
  let mapValue := wtx.mapValue.insert (str "fromaccount") wtx.strFromAccount
  { wtx with mapValue := mapValue.insert (str "spent") (wtx.vfSpent.map spentFlag) }

def eraseReserved (wtx : StoredTx) : StoredTx :=
  { wtx with mapValue :=
      ((wtx.mapValue.erase (str "fromaccount")).erase (str "version")).erase (str "spent") }

def anySpent (wtx : StoredTx) : Bool := wtx.vfSpent.any (fun f => f != 0)

def fields (wtx : StoredTx) (fSpent : UInt8) : List UInt8 :=
  wtx.toCMerkleTx.serialize ++ (serVector CMerkleTx.serialize wtx.vtxPrev ++
    (serMap wtx.mapValue ++ (serVector serPair wtx.vOrderForm ++
      (leBytes 4 wtx.fTimeReceivedIsTxTime ++ (leBytes 4 wtx.nTimeReceived ++
        [wtx.fFromMe, fSpent])))))

def fieldsSize (wtx : StoredTx) : Nat :=
  wtx.toCMerkleTx.getSerializeSize + sizeVector CMerkleTx.getSerializeSize wtx.vtxPrev +
    sizeVector sizePair wtx.mapValue.toList + sizeVector sizePair wtx.vOrderForm + 4 + 4 + 1 + 1

-- a const member that fills the reserved keys, writes and erases them again
def serialize (wtx : StoredTx) : List UInt8 × StoredTx :=
  let fSpent := if wtx.anySpent then 1 else 0
  (wtx.withReserved.fields fSpent, wtx.withReserved.eraseReserved)

def getSerializeSize (wtx : StoredTx) : UInt32 × StoredTx :=
  (nSerSize wtx.withReserved.fieldsSize, wtx.withReserved.eraseReserved)

def readSpent (mapValue : MapValue) (nOut : Nat) (fSpent : UInt8) : List UInt8 :=
  match mapValue[str "spent"]? with
  | some spent => spent.map (fun c => if c ≠ '0'.toUInt8 then 1 else 0)
  | none => List.replicate nOut fSpent

def unserialize : Reader UInt8 StoredTx := do
  let merkle ← CMerkleTx.unserialize
  let vtxPrev ← readVector CMerkleTx.unserialize
  let mapValue ← readMap
  let vOrderForm ← readVector readPair
  let fTimeReceivedIsTxTime ← readUInt 4
  let nTimeReceived ← readUInt 4
  let fFromMe ← readChar
  let fSpent ← readChar
  let strFromAccount := (mapValue[str "fromaccount"]?).getD []
  let vfSpent := readSpent mapValue merkle.tx.vout.length fSpent
  let wtx : StoredTx := ⟨merkle, vtxPrev, mapValue, vOrderForm, fTimeReceivedIsTxTime, nTimeReceived,
    fFromMe, strFromAccount, vfSpent⟩
  pure wtx.eraseReserved

def normalised (wtx : StoredTx) : StoredTx :=
  { wtx with vfSpent := wtx.vfSpent.map (fun f => if f ≠ 0 then 1 else 0) }

end StoredTx

section Pieces

structure PairFits (item : StdString × StdString) : Prop where
  first : item.1.length ≤ maxSize
  second : item.2.length ≤ maxSize

theorem reads_pair {item : StdString × StdString} (h : PairFits item) :
    Reads readPair (serPair item) item :=
  (reads_bytes h.first).bind ((reads_bytes h.second).last (Reads.pure item))

theorem reads_map {m : MapValue} (hlen : m.toList.length ≤ maxSize)
    (h : ∀ item ∈ m.toList, PairFits item) : Reads readMap (serMap m) m := by
  have hpure : Reads (pure (rebuild m.toList ∅) : Reader UInt8 MapValue) [] m := by
    rw [rebuild_toList]
    exact Reads.pure m
  exact (reads_vector hlen (fun item hitem => reads_pair (h item hitem))).last hpure

theorem reads_char (c : UInt8) : Reads readChar [c] c := by
  have hbyte : leBytes 1 c.toNat = [c] := by
    simp [leBytes, Nat.mod_eq_of_lt c.toNat_lt]
  have hread : Reads (readUInt 1) (leBytes 1 c.toNat) c.toNat := reads_uint c.toNat_lt
  rw [hbyte] at hread
  refine hread.last ?_
  rw [UInt8.ofNat_toNat]
  exact Reads.pure c

theorem serPair_length (item : StdString × StdString) : (serPair item).length = sizePair item := by
  simp only [serPair, serBytes, sizePair, List.length_append, writeCompactSize_length]

end Pieces

namespace StoredTx

variable {wtx : StoredTx}

theorem fields_length (wtx : StoredTx) (fSpent : UInt8) :
    (wtx.fields fSpent).length = wtx.fieldsSize := by
  simp only [fields, fieldsSize, serMap, sizeVector, List.length_append, leBytes_length,
    CMerkleTx.serialize_length, serVector_length _ _ CMerkleTx.serialize_length,
    serVector_length _ _ serPair_length, List.length_cons, List.length_nil]
  omega

structure Unreserved (wtx : StoredTx) : Prop where
  fromaccount : wtx.mapValue[str "fromaccount"]? = none
  spent : wtx.mapValue[str "spent"]? = none
  version : wtx.mapValue[str "version"]? = none

theorem compare_eq_iff {a b : StdString} : compare a b = .eq ↔ a = b :=
  Std.LawfulEqCmp.compare_eq_iff_eq

theorem withReserved_get (wtx : StoredTx) (k : StdString) :
    wtx.withReserved.mapValue[k]? =
      if str "spent" = k then some (wtx.vfSpent.map spentFlag)
      else if str "fromaccount" = k then some wtx.strFromAccount else wtx.mapValue[k]? := by
  simp only [withReserved, ExtTreeMap.getElem?_insert, compare_eq_iff]

theorem reserved_erased (h : wtx.Unreserved) :
    wtx.withReserved.eraseReserved.mapValue = wtx.mapValue := by
  apply ExtTreeMap.ext_getElem?
  intro k
  simp only [eraseReserved, ExtTreeMap.getElem?_erase, compare_eq_iff, withReserved_get]
  split
  · rename_i hspent
    rw [← hspent, h.spent]
  · split
    · rename_i hversion
      rw [← hversion, h.version]
    · split
      · rename_i hfrom
        rw [← hfrom, h.fromaccount]
      · rfl

theorem eraseReserved_withReserved (h : wtx.Unreserved) : wtx.withReserved.eraseReserved = wtx := by
  have heq : wtx.withReserved.eraseReserved =
    { wtx with mapValue := wtx.withReserved.eraseReserved.mapValue } := rfl
  rw [heq, reserved_erased h]

structure Fits (wtx : StoredTx) : Prop where
  merkle : wtx.toCMerkleTx.Fits
  vtxPrev_length : wtx.vtxPrev.length ≤ maxSize
  vtxPrev : ∀ prev ∈ wtx.vtxPrev, prev.Fits
  mapValue_size : wtx.mapValue.size + 2 ≤ maxSize
  mapValue : ∀ (k v : StdString), wtx.mapValue[k]? = some v → PairFits (k, v)
  vOrderForm_length : wtx.vOrderForm.length ≤ maxSize
  vOrderForm : ∀ item ∈ wtx.vOrderForm, PairFits item
  fTimeReceivedIsTxTime : UIntFits 32 wtx.fTimeReceivedIsTxTime
  nTimeReceived : UIntFits 32 wtx.nTimeReceived
  strFromAccount : wtx.strFromAccount.length ≤ maxSize
  vfSpent : wtx.vfSpent.length ≤ maxSize

theorem reserved_length : (str "spent").length ≤ maxSize ∧ (str "fromaccount").length ≤ maxSize := by
  decide

theorem withReserved_reads (h : wtx.Fits) :
    Reads readMap (serMap wtx.withReserved.mapValue) wtx.withReserved.mapValue := by
  apply reads_map
  · rw [ExtTreeMap.length_toList]
    have hfrom := ExtTreeMap.size_insert_le (t := wtx.mapValue) (k := str "fromaccount")
      (v := wtx.strFromAccount)
    refine ExtTreeMap.size_insert_le.trans ?_
    exact (Nat.succ_le_succ hfrom).trans h.mapValue_size
  · rintro ⟨k, v⟩ hitem
    have hget := ExtTreeMap.mem_toList_iff_getElem?_eq_some.mp hitem
    rw [withReserved_get] at hget
    split at hget
    · rename_i hspent
      cases hget
      subst hspent
      exact ⟨reserved_length.1, by simpa only [List.length_map] using h.vfSpent⟩
    · split at hget
      · rename_i hfrom
        cases hget
        subst hfrom
        exact ⟨reserved_length.2, h.strFromAccount⟩
      · exact h.mapValue k v hget

theorem readSpent_withReserved (wtx : StoredTx) (nOut : Nat) (fSpent : UInt8) :
    readSpent wtx.withReserved.mapValue nOut fSpent = wtx.normalised.vfSpent := by
  have hget : wtx.withReserved.mapValue[str "spent"]? = some (wtx.vfSpent.map spentFlag) := by
    rw [withReserved_get, if_pos rfl]
  simp only [readSpent, hget, List.map_map, normalised]
  apply List.map_congr_left
  intro f _
  by_cases hf : f = 0
  · subst hf
    rfl
  · simp only [Function.comp, spentFlag, ne_eq, hf, not_false_eq_true, if_true]
    rfl

theorem reads (h : wtx.Fits) (hkeys : wtx.Unreserved) :
    Reads unserialize (serialize wtx).1 wtx.normalised := by
  have hfrom : (wtx.withReserved.mapValue[str "fromaccount"]?).getD [] = wtx.strFromAccount := by
    rw [withReserved_get, if_neg (by decide), if_pos rfl, Option.getD_some]
  have hback : ∀ fSpent, (⟨wtx.toCMerkleTx, wtx.vtxPrev, wtx.withReserved.mapValue, wtx.vOrderForm,
      wtx.fTimeReceivedIsTxTime, wtx.nTimeReceived, wtx.fFromMe,
      (wtx.withReserved.mapValue[str "fromaccount"]?).getD [],
      readSpent wtx.withReserved.mapValue wtx.tx.vout.length fSpent⟩ : StoredTx).eraseReserved =
        wtx.normalised := by
    intro fSpent
    rw [hfrom, readSpent_withReserved, normalised, ← reserved_erased hkeys]
    rfl
  refine (CMerkleTx.reads h.merkle).bind <|
    (reads_vector h.vtxPrev_length fun prev hprev => CMerkleTx.reads (h.vtxPrev prev hprev)).bind <|
    (withReserved_reads h).bind <|
    (reads_vector h.vOrderForm_length fun item hitem => reads_pair (h.vOrderForm item hitem)).bind <|
    (reads_uint (k := 4) h.fTimeReceivedIsTxTime).bind <|
    (reads_uint (k := 4) h.nTimeReceived).bind <| (reads_char wtx.fFromMe).bind <|
    (reads_char _).last ?_
  dsimp only
  rw [hback]
  exact Reads.pure wtx.normalised

theorem storedTx_roundTrip (wtx : StoredTx) (h : wtx.Fits) (hkeys : wtx.Unreserved) :
    wtx.getSerializeSize.2 = wtx ∧ wtx.serialize.2 = wtx ∧
      wtx.getSerializeSize.1.toNat = wtx.serialize.1.length % 2 ^ 32 ∧
      ∀ rest, unserialize (wtx.getSerializeSize.2.serialize.1 ++ rest) =
        some (wtx.normalised, rest) := by
  have hsame : wtx.getSerializeSize.2 = wtx := eraseReserved_withReserved hkeys
  refine ⟨hsame, eraseReserved_withReserved hkeys, ?_, ?_⟩
  · rw [getSerializeSize, nSerSize_toNat, serialize, fields_length]
  · rw [hsame]
    exact reads h hkeys

def ofMerkle (merkle : CMerkleTx) : StoredTx := ⟨merkle, [], ∅, [], 0, 0, 0, [], []⟩

theorem ofMerkle_unreserved (merkle : CMerkleTx) (vtxPrev : List CMerkleTx) :
    Unreserved { ofMerkle merkle with vtxPrev := vtxPrev } :=
  ⟨ExtTreeMap.getElem?_empty, ExtTreeMap.getElem?_empty, ExtTreeMap.getElem?_empty⟩

def blankMerkle : CMerkleTx := ⟨⟨1, [], [], 0⟩, 0, [], -1⟩

theorem blankMerkle_fits : blankMerkle.Fits where
  tx := ⟨by decide, by decide, nofun, by decide, nofun, by decide⟩
  vMerkleBranch := by decide
  nIndex := by decide

theorem storedTx_long : ¬ ∀ wtx : StoredTx, wtx.toCMerkleTx.Fits →
    UIntFits 32 wtx.fTimeReceivedIsTxTime → UIntFits 32 wtx.nTimeReceived → wtx.Unreserved →
      ∀ rest, unserialize (wtx.getSerializeSize.2.serialize.1 ++ rest) =
        some (wtx.normalised, rest) := by
  intro hall
  have hkeys := ofMerkle_unreserved blankMerkle (List.replicate (maxSize + 1) blankMerkle)
  have hback := hall _ blankMerkle_fits (by decide : UIntFits 32 0) (by decide : UIntFits 32 0)
    hkeys []
  simp only [getSerializeSize, eraseReserved_withReserved hkeys, serialize, fields,
    List.append_assoc] at hback
  obtain ⟨merkle, rest, hread, hback⟩ := bind_some.mp hback
  have hmerkle := hread.symm.trans (CMerkleTx.reads blankMerkle_fits _)
  cases hmerkle
  obtain ⟨vtxPrev, rest, hread, -⟩ := bind_some.mp hback
  have hlong := readVector_long CMerkleTx.unserialize (f := CMerkleTx.serialize)
    (v := List.replicate (maxSize + 1) blankMerkle) (by rw [List.length_replicate]; omega)
    (by rw [List.length_replicate]; decide)
  have hnone := hread.symm.trans (hlong _)
  cases hnone

def rentTx : StoredTx :=
  { ofMerkle blankMerkle with
    mapValue := (∅ : MapValue).insert (str "comment") (str "rent")
    strFromAccount := str "savings"
    vfSpent := [0, 5, 1] }

theorem rentTx_roundTrip : rentTx.serialize.2 = rentTx ∧
    ∀ rest, unserialize (rentTx.getSerializeSize.2.serialize.1 ++ rest) =
      some ({ rentTx with vfSpent := [0, 1, 1] }, rest) := by
  have hget : ∀ k : StdString, rentTx.mapValue[k]? =
      if str "comment" = k then some (str "rent") else none := by
    intro k
    simp only [rentTx, ExtTreeMap.getElem?_insert, compare_eq_iff, ExtTreeMap.getElem?_empty]
  have hfits : rentTx.Fits := by
    refine ⟨blankMerkle_fits, by decide, nofun, by decide, ?_, by decide, nofun, by decide,
      by decide, by decide, by decide⟩
    intro k v hkv
    rw [hget] at hkv
    split at hkv
    · rename_i hcomment
      cases hkv
      subst hcomment
      exact ⟨by decide, by decide⟩
    · cases hkv
  have hkeys : rentTx.Unreserved := by
    refine ⟨?_, ?_, ?_⟩
    · rw [hget, if_neg (by decide)]
    · rw [hget, if_neg (by decide)]
    · rw [hget, if_neg (by decide)]
  obtain ⟨-, hwrite, -, hread⟩ := storedTx_roundTrip rentTx hfits hkeys
  exact ⟨hwrite, hread⟩

end StoredTx

end Namecoin
