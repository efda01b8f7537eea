import Namecoin.Name.ScanNames
import Namecoin.Wallet.NetFee

namespace Namecoin

open Std (TreeMap)

def getDisplayExpirationDepth (nHeight : Nat) : Nat :=
  if nHeight < 12000 then 12000 else 36000

def expiresIn (nHeight nBestHeight : Nat) : Int :=
  (nHeight : Int) + getDisplayExpirationDepth nHeight - nBestHeight

inductive JsonValue where
  | str (s : StdString)
  | int (n : Int)
  | hash (h : Uint256)
  deriving DecidableEq

abbrev JsonObject := List (String × JsonValue)

def JsonObject.get (o : JsonObject) (key : String) : Option JsonValue :=
  (o.find? (fun p => p.1 == key)).map Prod.snd

def expiredPair (expired : Bool) : JsonObject := if expired then [("expired", .int 1)] else []

def rpcError {α : Type} (msg : String) : Except Fault α := .error (.exception msg)

section Address

variable (env : Env)

def getBitcoinAddress (scriptPubKey : CScript) : StdString :=
  let hash160 := getBitcoinAddressHash160 env scriptPubKey
  if hash160 = uint160Null then [] else hash160ToAddress env hash160

def getNameAddress (tx : CTransaction) : Except Fault (Option StdString) :=
  match decodeNameTx env tx bugWorkaroundBlock with
  | none => .ok none
  | some d =>
    match tx.vout[d.nOut]? with
    | none => .error .undefined
    | some txout =>
      (removeNameScriptPrefix txout.scriptPubKey).map
        (fun scriptPubKey => some (getBitcoinAddress env scriptPubKey))

theorem getNameAddress_ok (tx : CTransaction) : ∃ strAddress, getNameAddress env tx = .ok strAddress := by
  unfold getNameAddress
  cases hd : decodeNameTx env tx bugWorkaroundBlock with
  | none => exact ⟨none, rfl⟩
  | some d =>
    have hfork : postLibcoinFork env bugWorkaroundBlock = true := by
      unfold postLibcoinFork
      split <;> decide
    obtain ⟨-, op, honly⟩ := decodeNameTx_strict hfork hd
    obtain ⟨script, hscript, hdecoded⟩ := Option.bind_eq_some_iff.mp honly.at_k
    rw [CTransaction.outScripts, List.getElem?_map] at hscript
    obtain ⟨txout, hout, rfl⟩ := Option.map_eq_some_iff.mp hscript
    have hname : isNameScript txout.scriptPubKey = true := by
      rw [← decodedName_isNameScript, hdecoded]
      rfl
    simp only [hout, removeNameScriptPrefix, hname, if_true]
    exact ⟨_, rfl⟩

end Address

section Queries

variable (e : NodeEnv) (s : NodeState)

def bestHeight : Nat := (s.view e).pindexBestHeight

def getTxPosHeight (txPos : CDiskTxPos) : Nat :=
  match s.disk.readBlock txPos.nFile txPos.nBlockPos with
  | none => 0
  | some block =>
    match s.mapBlockIndex (block.getHash e.env) with
    | none => 0
    | some pindex => if pindex.isInMainChain s then pindex.nHeight else 0

def nameShow (vchName : VchType) (db : NameDb) : Except Fault JsonObject :=
  match db.readName vchName with
  | none => rpcError "failed to read from name DB"
  | some vtxPos =>
    match vtxPos.getLast? with
    | none => rpcError "no result returned"
    | some last =>
      match s.disk.readFromDisk last.txPos with
      | none => rpcError "failed to read from from disk"
      | some tx => do
        match ← getValueOfNameTx e.env tx (bestHeight e s) with
        | none => return []
        | some vchValue =>
          let nHeight := getTxPosHeight e s last.txPos
          let strAddress ← getNameAddress e.env tx
          let nExpiresIn := expiresIn nHeight (bestHeight e s)
          return [("name", .str vchName), ("value", .str vchValue),
            ("txid", .hash (tx.getHash e.env)), ("address", .str (strAddress.getD [])),
            ("expires_in", .int nExpiresIn)] ++ expiredPair (decide (nExpiresIn ≤ 0))

def nameScanObject (p : ScannedName) : JsonObject :=
  let nExpiresIn := expiresIn p.2.nHeight (bestHeight e s)
  if nExpiresIn ≤ 0 ∨ p.2.txPos.nFile = uintMax ∨ (s.disk.readFromDisk p.2.txPos).isNone then
    [("name", .str p.1), ("expired", .int 1)]
  else [("name", .str p.1), ("value", .str p.2.vValue), ("expires_in", .int nExpiresIn)]

def nameScan (nUnset : Nat) (vchName : VchType) (nMax : Int) (db : NameDb) :
    Except Fault (List JsonObject) :=
  (db.scanNames nUnset vchName nMax).map (List.map (nameScanObject e s))

structure FilterParams where
  regexSearch : StdString → Bool
  nMaxAge : Int
  nFrom : Int
  nNb : Int

def nameFilterObject (p : ScannedName) : JsonObject :=
  let nExpiresIn := expiresIn p.2.nHeight (bestHeight e s)
  if nExpiresIn ≤ 0 then [("name", .str p.1), ("expired", .int 1)]
  else [("name", .str p.1), ("value", .str p.2.vValue), ("expires_in", .int nExpiresIn)]

def nameFilterLoop (params : FilterParams) :
    List ScannedName → Int → List ScannedName → Except Fault (List ScannedName)
  | [], _, oRes => .ok oRes
  | p :: rest, nCountFrom, oRes => do
    if ¬params.regexSearch p.1 then nameFilterLoop params rest nCountFrom oRes
    else if params.nMaxAge ≠ 0 ∧ params.nMaxAge ≤ (bestHeight e s : Int) - p.2.nHeight then
      nameFilterLoop params rest nCountFrom oRes
    else
      let nFirst ← toInt (params.nFrom + 1)
      if nCountFrom + 1 < nFirst then nameFilterLoop params rest (nCountFrom + 1) oRes
      else
        let oRes := oRes ++ [p]
        if 0 < params.nNb ∧ params.nNb ≤ oRes.length then return oRes
        else nameFilterLoop params rest (nCountFrom + 1) oRes

def nameFilterStat (n : Nat) : JsonObject := [("blocks", .int s.nBestHeight), ("count", .int n)]

def nameFilter (nUnset : Nat) (params : FilterParams) (fStat : Bool) (db : NameDb) :
    Except Fault (List JsonObject) := do
  let nameScan ← db.scanNames nUnset [] 100000000
  let oRes ← nameFilterLoop e s params nameScan 0 []
  return if fStat then [nameFilterStat s oRes.length] else oRes.map (nameFilterObject e s)

-- The tests on a name that come ahead of the counting.
def FilterParams.keeps (params : FilterParams) (p : ScannedName) : Bool :=
  params.regexSearch p.1 &&
    !decide (params.nMaxAge ≠ 0 ∧ params.nMaxAge ≤ (bestHeight e s : Int) - p.2.nHeight)

def FilterParams.limit (params : FilterParams) (nCountNb : Nat) (l : List ScannedName) :
    List ScannedName :=
  if 0 < params.nNb then l.take (params.nNb.toNat - nCountNb) else l

theorem FilterParams.limit_full {params : FilterParams} {nCountNb : Nat} (p : ScannedName)
    (l : List ScannedName) (hnb : 0 < params.nNb) (hlast : params.nNb = (nCountNb + 1 : Nat)) :
    params.limit nCountNb (p :: l) = [p] := by
  have hone : params.nNb.toNat - nCountNb = 1 := by omega
  rw [limit, if_pos hnb, hone, List.take_succ_cons, List.take_zero]

theorem FilterParams.limit_cons {params : FilterParams} {nCountNb : Nat} (p : ScannedName)
    (l : List ScannedName) (hroom : 0 < params.nNb → ((nCountNb + 1 : Nat) : Int) < params.nNb) :
    params.limit nCountNb (p :: l) = p :: params.limit (nCountNb + 1) l := by
  unfold limit
  split
  · rename_i hnb
    have hless := hroom hnb
    have hsucc : params.nNb.toNat - nCountNb = params.nNb.toNat - (nCountNb + 1) + 1 := by omega
    rw [hsucc, List.take_succ_cons]
  · rfl

theorem nameFilterLoop_page {params : FilterParams} (hfits : FitsInt (params.nFrom + 1))
    {l : List ScannedName} {nCountFrom : Int} {oRes : List ScannedName}
    (hroom : 0 < params.nNb → (oRes.length : Int) < params.nNb) :
    nameFilterLoop e s params l nCountFrom oRes = .ok (oRes ++ params.limit oRes.length
      ((l.filter (params.keeps e s)).drop (params.nFrom - nCountFrom).toNat)) := by
  induction l generalizing nCountFrom oRes with
  | nil => simp [nameFilterLoop, FilterParams.limit]
  | cons p rest ih =>
    rw [nameFilterLoop, List.filter_cons, FilterParams.keeps]
    by_cases hregex : params.regexSearch p.1 = true
    swap
    · rw [if_pos hregex, if_neg (by simp [hregex]), ih hroom]
    rw [if_neg (not_not.mpr hregex), hregex, Bool.true_and]
    by_cases hage : params.nMaxAge ≠ 0 ∧ params.nMaxAge ≤ (bestHeight e s : Int) - p.2.nHeight
    · rw [if_pos hage, decide_eq_true hage, Bool.not_true, if_neg Bool.false_ne_true, ih hroom]
    rw [if_neg hage, decide_eq_false hage, Bool.not_false, if_pos rfl, toInt_ok hfits]
    dsimp only [bind, Except.bind]
    split
    · -- still ahead of the first result
      have hdrop : (params.nFrom - nCountFrom).toNat =
          (params.nFrom - (nCountFrom + 1)).toNat + 1 := by omega
      rw [ih hroom, hdrop, List.drop_succ_cons]
    · have hnow : (params.nFrom - nCountFrom).toNat = 0 := by omega
      have hnext : (params.nFrom - (nCountFrom + 1)).toNat = 0 := by omega
      have hlen : (oRes ++ [p]).length = oRes.length + 1 := List.length_append
      rw [hnow, List.drop_zero]
      split
      · rename_i hlast
        rw [hlen] at hlast
        have hless := hroom hlast.1
        rw [FilterParams.limit_full p _ hlast.1 (by omega)]
        rfl
      · rename_i hmore
        rw [hlen] at hmore
        have hroom' : 0 < params.nNb → ((oRes.length + 1 : Nat) : Int) < params.nNb := by
          intro hnb
          by_contra hfull
          exact hmore ⟨hnb, by omega⟩
        rw [ih (by rwa [hlen]), hnext, List.drop_zero, hlen, FilterParams.limit_cons p _ hroom',
          List.append_assoc, List.singleton_append]

theorem nameFilter_page (nUnset : Nat) {params : FilterParams} (hfits : FitsInt (params.nFrom + 1))
    (db : NameDb) : nameFilter e s nUnset params false db =
      (db.scanNames nUnset [] 100000000).map fun nameScan =>
        (params.limit 0 ((nameScan.filter (params.keeps e s)).drop params.nFrom.toNat)).map
          (nameFilterObject e s) := by
  rw [nameFilter]
  cases db.scanNames nUnset [] 100000000 with
  | error fault => rfl
  | ok nameScan =>
    change (nameFilterLoop e s params nameScan 0 [] >>= _) = _
    rw [@nameFilterLoop_page e s params hfits nameScan 0 [] fun hnb => hnb, Int.sub_zero]
    rfl

-- Without a filter the names are those of name_scan.
theorem nameFilter_all (nUnset : Nat) (db : NameDb) :
    (nameFilter e s nUnset ⟨fun _ => true, 0, 0, 0⟩ false db).map
        (List.map fun oName => oName.get "name") =
      (nameScan e s nUnset [] 100000000 db).map (List.map fun oName => oName.get "name") := by
  have hname : ∀ p, (nameFilterObject e s p).get "name" = (nameScanObject e s p).get "name" := by
    intro p
    unfold nameFilterObject nameScanObject
    dsimp only
    split <;> split <;> rfl
  rw [nameFilter_page e s nUnset (by decide), nameScan]
  cases db.scanNames nUnset [] 100000000 with
  | error fault => rfl
  | ok names =>
    have hall : names.filter (FilterParams.keeps e s ⟨fun _ => true, 0, 0, 0⟩) = names :=
      List.filter_eq_self.mpr fun p _ => by simp [FilterParams.keeps]
    simp [Except.map, FilterParams.limit, hall, hname]

end Queries

section NameList

variable (e : NodeEnv) (s : NodeState) (nDecodeHeight : Uint256 → Nat)

def WalletTx.getHeightInMainChain (wtx : WalletTx) : Int :=
  if wtx.getDepthInMainChain e s = 0 then -1
  else ((s.mapBlockIndex wtx.merkle.hashBlock).map CBlockIndex.nHeight).getD 0

-- the decoded name is kept, so it is that of the best height when it was first asked for
def WalletTx.getNameUpdate (env : Env) (wtx : WalletTx) : Except Fault (Option (VchType × VchType)) :=
  let tx := wtx.merkle.tx
  if tx.nVersion ≠ namecoinTxVersion then .ok none
  else
    match decodeNameTx env tx (nDecodeHeight (tx.getHash env)) with
    | none => .ok none
    | some d =>
      if d.op = opNameFirstupdate then do
        let vchName ← vchAt d.vvch 0
        let vchValue ← vchAt d.vvch 2
        return some (vchName, vchValue)
      else if d.op = opNameUpdate then do
        let vchName ← vchAt d.vvch 0
        let vchValue ← vchAt d.vvch 1
        return some (vchName, vchValue)
      else .ok none

abbrev ListedNames := TreeMap VchType (Int × JsonObject)

def ListedNames.put (m : ListedNames) (vchName : VchType) (nHeight : Int) (oName : JsonObject) :
    ListedNames :=
  match m[vchName]? with
  | none => m.insert vchName (nHeight, oName)
  | some (nLast, _) => if nHeight < nLast then m else m.insert vchName (nHeight, oName)

def transferredPair (mine : Bool) : JsonObject := if mine then [] else [("transferred", .int 1)]

namespace Wallet

variable {env : Env} (w : Wallet env)

def nameListObject (wtx : WalletTx) (vchName vchValue : VchType) : Except Fault JsonObject := do
  let strAddress ← getNameAddress env wtx.merkle.tx
  let nHeight := (wtx.getHeightInMainChain e s).toNat
  let nExpiresIn := expiresIn nHeight (bestHeight e s)
  return [("name", .str vchName), ("value", .str vchValue)] ++
    transferredPair (w.toCWallet.hookIsMineTx env wtx.merkle.tx) ++
    [("address", .str (strAddress.getD [])), ("expires_in", .int nExpiresIn)] ++
    expiredPair (decide (nExpiresIn ≤ 0))

def nameListStep (vchNameUniq : VchType) (m : ListedNames) (wtx : WalletTx) :
    Except Fault ListedNames := do
  match ← wtx.getNameUpdate nDecodeHeight env with
  | none => return m
  | some (vchName, vchValue) =>
    if vchNameUniq ≠ [] ∧ vchNameUniq ≠ vchName then return m
    else if wtx.getHeightInMainChain e s = -1 then return m
    else
      let oName ← w.nameListObject e s wtx vchName vchValue
      return m.put vchName (wtx.getHeightInMainChain e s) oName

def nameList (vchNameUniq : VchType) : Except Fault (List JsonObject) := do
  let vNames ← w.txs.foldlM (w.nameListStep e s nDecodeHeight vchNameUniq) ∅
  return vNames.toList.map (fun p => p.2.2)

end Wallet

end NameList

section Expiry

def ConsensusLive (nHeight nBestHeight : Nat) : Prop :=
  (nBestHeight : Int) - nHeight < getExpirationDepth nBestHeight

def AtDepthChange (nHeight nBestHeight : Nat) : Prop :=
  nHeight = 12000 ∧ 24000 ≤ nBestHeight ∧ nBestHeight < 48000

theorem expiresIn_agrees_iff {nHeight nBestHeight : Nat} (hle : nHeight ≤ nBestHeight) :
    ((0 < expiresIn nHeight nBestHeight ↔ ConsensusLive nHeight nBestHeight) ↔
      ¬AtDepthChange nHeight nBestHeight) := by
  unfold expiresIn getDisplayExpirationDepth ConsensusLive getExpirationDepth AtDepthChange
  split <;> split
  · omega
  · split <;> omega
  · omega
  · split <;> omega

variable {e : NodeEnv} {s : NodeState}

inductive Shows (e : NodeEnv) (s : NodeState) : Nat → JsonObject → Prop
  | nameShow {db : NameDb} {vchName : VchType} {vtxPos : List CNameIndex} {last : CNameIndex}
      {o : JsonObject} (read : db.readName vchName = some vtxPos)
      (hlast : vtxPos.getLast? = some last) (shown : nameShow e s vchName db = .ok o)
      (found : o ≠ []) : Shows e s (getTxPosHeight e s last.txPos) o
  | nameScan (p : ScannedName) (stored : (s.disk.readFromDisk p.2.txPos).isSome) :
      Shows e s p.2.nHeight (nameScanObject e s p)
  | nameFilter (p : ScannedName) : Shows e s p.2.nHeight (nameFilterObject e s p)
  | nameList {env : Env} {w : Wallet env} {wtx : WalletTx} {vchName vchValue : VchType}
      {o : JsonObject} (listed : w.nameListObject e s wtx vchName vchValue = .ok o) :
      Shows e s (wtx.getHeightInMainChain e s).toNat o

theorem expiredPair_get (n : Int) :
    (expiredPair (decide (n ≤ 0))).get "expired" = none ↔ 0 < n := by
  unfold expiredPair
  split
  · rename_i h
    have hle := of_decide_eq_true h
    exact ⟨nofun, fun hlt => absurd hlt (by omega)⟩
  · rename_i h
    have hgt := of_decide_eq_false (Bool.eq_false_iff.mpr h)
    exact ⟨fun _ => by omega, fun _ => rfl⟩

theorem get_append {o o' : JsonObject} {key : String} (h : ∀ p ∈ o, p.1 ≠ key) :
    JsonObject.get (o ++ o') key = JsonObject.get o' key := by
  have hnone : o.find? (fun p => p.1 == key) = none := by
    rw [List.find?_eq_none]
    intro p hp
    simpa using h p hp
  rw [JsonObject.get, JsonObject.get, List.find?_append, hnone, Option.none_or]

theorem Shows.expired_iff {nHeight : Nat} {o : JsonObject} (h : Shows e s nHeight o) :
    o.get "expired" = none ↔ 0 < expiresIn nHeight (bestHeight e s) := by
  cases h with
  | nameShow read hlast shown found =>
    unfold Namecoin.nameShow at shown
    rw [read] at shown
    dsimp only at shown
    rw [hlast] at shown
    dsimp only at shown
    split at shown
    · cases shown
    · obtain ⟨value, -, shown⟩ := Except.bind_eq_ok.mp shown
      cases value with
      | none =>
        cases shown
        exact absurd rfl found
      | some vchValue =>
        obtain ⟨strAddress, -, shown⟩ := Except.bind_eq_ok.mp shown
        cases shown
        rw [get_append (by simp)]
        exact expiredPair_get _
  | nameScan p stored =>
    have hfile : p.2.txPos.nFile ≠ uintMax := by
      intro hnull
      rw [Disk.readFromDisk, if_pos hnull] at stored
      cases stored
    have hread : (s.disk.readFromDisk p.2.txPos).isNone = false := by
      rw [Option.isNone_eq_false_iff]
      exact stored
    simp only [nameScanObject, hfile, hread, Bool.false_eq_true, or_false]
    split
    · rename_i hle
      exact ⟨nofun, fun hlt => absurd hlt (by omega)⟩
    · rename_i hgt
      exact ⟨fun _ => by omega, fun _ => rfl⟩
  | nameFilter p =>
    simp only [nameFilterObject]
    split
    · rename_i hle
      exact ⟨nofun, fun hlt => absurd hlt (by omega)⟩
    · rename_i hgt
      exact ⟨fun _ => by omega, fun _ => rfl⟩
  | nameList listed =>
    obtain ⟨strAddress, -, listed⟩ := Except.bind_eq_ok.mp listed
    cases listed
    rw [get_append (by unfold transferredPair; split <;> simp)]
    exact expiredPair_get _

theorem display_agrees_iff {nHeight nBestHeight : Nat} (hle : nHeight ≤ nBestHeight) :
    ((0 < expiresIn nHeight nBestHeight ↔ ConsensusLive nHeight nBestHeight) ↔
      ¬AtDepthChange nHeight nBestHeight) ∧
    ∀ e s o, Shows e s nHeight o → bestHeight e s = nBestHeight →
      ((o.get "expired" = none ↔ ConsensusLive nHeight nBestHeight) ↔
        ¬AtDepthChange nHeight nBestHeight) := by
  refine ⟨expiresIn_agrees_iff hle, ?_⟩
  rintro e s o hshows rfl
  rw [hshows.expired_iff]
  exact expiresIn_agrees_iff hle

theorem display_live_past_expiry :
    ¬ ∀ nHeight nBestHeight : Nat, nHeight ≤ nBestHeight →
      (0 < expiresIn nHeight nBestHeight ↔ ConsensusLive nHeight nBestHeight) := by
  intro hall
  have hlive := (hall 12000 24000 (by decide)).mp (by decide)
  exact absurd hlive (by unfold ConsensusLive; decide)

theorem display_agrees_young : 0 < expiresIn 12001 24000 ↔ ConsensusLive 12001 24000 :=
  (display_agrees_iff (by decide : 12001 ≤ 24000)).1.mpr (by unfold AtDepthChange; decide)

end Expiry

end Namecoin
