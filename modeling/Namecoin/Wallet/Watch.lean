import Namecoin.Lib.OrderedMap
import Namecoin.Wallet.Encrypted

namespace Namecoin

open Std (TreeMap)
open OrderedMap (compare_append_left)

inductive WalletRecord where
  | key (key : CKey)
  | wkey (key : CKey)
  | ckey (vchPubKey vchCryptedSecret : VchType)
  | address (hash160 : Uint160)

namespace WalletRecord

def ssKey : WalletRecord → List UInt8
  | .key k => serString "key" ++ serBytes k.vchPubKey
  | .wkey k => serString "wkey" ++ serBytes k.vchPubKey
  | .ckey vchPubKey _ => serString "ckey" ++ serBytes vchPubKey
  | .address hash160 => serString "address" ++ hash160.val

def pubKey : WalletRecord → Option VchType
  | .key k => some k.vchPubKey
  | .wkey k => some k.vchPubKey
  | .ckey vchPubKey _ => some vchPubKey
  | .address _ => none

def slot (env : Env) (r : WalletRecord) : Uint160 × VchType :=
  match r with
  | .key k => (env.hash160 k.vchPubKey, k.vchPubKey)
  | .wkey k => (env.hash160 k.vchPubKey, k.vchPubKey)
  | .ckey vchPubKey _ => (env.hash160 vchPubKey, vchPubKey)
  | .address hash160 => (hash160, [])

def isPlain : WalletRecord → Bool
  | .key _ => true
  | .wkey _ => true
  | _ => false

def isCrypted : WalletRecord → Bool
  | .ckey _ _ => true
  | _ => false

end WalletRecord

abbrev WalletDb := TreeMap (List UInt8) WalletRecord

namespace WalletDb

def writeNew (r : WalletRecord) (db : WalletDb) : WalletDb :=
  if db.contains r.ssKey then db else db.insert r.ssKey r

def writeCryptedKey (key : CKey) (vchCryptedSecret : VchType) (db : WalletDb) : WalletDb :=
  if db.contains (WalletRecord.ckey key.vchPubKey vchCryptedSecret).ssKey then db
  else
    ((db.insert (WalletRecord.ckey key.vchPubKey vchCryptedSecret).ssKey
      (.ckey key.vchPubKey vchCryptedSecret)).erase (WalletRecord.key key).ssKey).erase
        (WalletRecord.wkey key).ssKey

def records (db : WalletDb) : List WalletRecord := db.toList.map Prod.snd

end WalletDb

section Load

variable (env : Env) (evp : Evp)

def loadWalletRecord (r : WalletRecord) (ks : CKeyStore) : Bool × CKeyStore :=
  match r with
  | .key key => ks.addKey env evp key
  | .wkey key => ks.addKey env evp key
  | .ckey vchPubKey vchCryptedSecret => ks.addCryptedKey env vchPubKey vchCryptedSecret
  | .address hash160 => (true, ks.addAddress hash160)

def loadWalletRecords : List WalletRecord → CKeyStore → Option CKeyStore
  | [], ks => some ks
  | r :: rest, ks =>
    let x := loadWalletRecord env evp r ks
    if x.1 then loadWalletRecords rest x.2 else none

def loadWallet (db : WalletDb) : Option CKeyStore := loadWalletRecords env evp db.records CKeyStore.empty

end Load

structure WalletFile where
  ks : CKeyStore
  db : WalletDb

inductive WatchOp where
  | importaddress (hash160 : Uint160)
  | importprivkey (key : CKey)
  | generateNewKey (key : CKey)

namespace WalletFile

variable (env : Env) (evp : Evp)

def addAddress (hash160 : Uint160) (w : WalletFile) : WalletFile :=
  ⟨w.ks.addAddress hash160, w.db.writeNew (.address hash160)⟩

def addKey (key : CKey) (w : WalletFile) : WalletFile :=
  let x := w.ks.addKey env evp key
  if ¬x.1 then { w with ks := x.2 }
  else if w.ks.fUseCrypto then
    match x.2.mapCryptedKeys[key.vchPubKey]? with
    | none => { w with ks := x.2 }
    | some vchCryptedSecret => ⟨x.2, w.db.writeCryptedKey key vchCryptedSecret⟩
  else ⟨x.2, w.db.writeNew (.key key)⟩

def step (w : WalletFile) : WatchOp → WalletFile
  | .importaddress hash160 => w.addAddress hash160
  | .importprivkey key => if w.ks.isLocked then w else w.addKey env evp key
  | .generateNewKey key => w.addKey env evp key

def run (w : WalletFile) (ops : List WatchOp) : WalletFile := ops.foldl (step env evp) w

structure Ok (w : WalletFile) : Prop where
  keyed : ∀ (k : List UInt8) (r : WalletRecord), w.db[k]? = some r → r.ssKey = k
  plain : w.ks.fUseCrypto = false →
    ∀ (k : List UInt8) (r : WalletRecord), w.db[k]? = some r → r.isCrypted = false
  crypted : w.ks.fUseCrypto = true →
    ∀ (k : List UInt8) (r : WalletRecord), w.db[k]? = some r → r.isPlain = false

end WalletFile

namespace CKeyStore

def HoldsPubKey (ks : CKeyStore) (vchPubKey : VchType) : Prop :=
  vchPubKey ≠ [] ∧ ks.haveKey vchPubKey = true

def HoldsScript (env : Env) (ks : CKeyStore) (script : CScript) : Prop :=
  (∃ vchPubKey, solver script = some [(opPubkey, vchPubKey)] ∧ ks.HoldsPubKey vchPubKey) ∨
    ∃ vch vchPubKey, solver script = some [(opPubkeyhash, vch)] ∧ ks.HoldsPubKey vchPubKey ∧
      env.hash160 vchPubKey = uint160 vch

theorem isSpendable_pubkey {env : Env} {ks : CKeyStore} {script : CScript} {vchPubKey : VchType}
    (h : solver script = some [(opPubkey, vchPubKey)]) (hheld : ks.HoldsPubKey vchPubKey) :
    ks.isSpendable env script = true := by
  simp only [isSpendable, isMine, solve, h, solveItems, if_true, hheld.2, extractPubKey,
    Option.bind_some, ownPubKey, Option.filter_some, List.findSome?_cons, Bool.true_or,
    Bool.true_and, Bool.not_eq_true', List.isEmpty_eq_false_iff]
  exact hheld.1

theorem isSpendable_pubkeyhash {env : Env} {ks : CKeyStore} {script : CScript} {vch : VchType}
    (h : solver script = some [(opPubkeyhash, vch)]) :
    ks.isSpendable env script = true ↔
      ∃ vchPubKey, ks.mapPubKeys (uint160 vch) = some vchPubKey ∧ ks.HoldsPubKey vchPubKey := by
  have hne : opPubkeyhash ≠ opPubkey := by decide
  simp only [isSpendable, isMine, solve, h, solveItems, if_neg hne, if_true, extractPubKey,
    Option.bind_some, ownPubKey, List.findSome?_cons, List.findSome?_nil]
  cases hslot : ks.mapPubKeys (uint160 vch) with
  | none => simp
  | some vchPubKey =>
    cases hhave : ks.haveKey vchPubKey with
    | false => simp [hhave, HoldsPubKey]
    | true => simp [hhave, HoldsPubKey, Option.filter_some]

end CKeyStore

def OnlyDummy (m : KeyMap) : Prop := ∀ k v : VchType, m[k]? = some v → k = [] ∧ v = []

theorem OnlyDummy.toList {m : KeyMap} (h : OnlyDummy m) :
    m.toList = [] ∨ m.toList = [([], [])] := by
  have hall : ∀ p ∈ m.toList, p = ([], []) := by
    rintro ⟨k, v⟩ hp
    obtain ⟨rfl, rfl⟩ := h k v ((mem_toList m k v).mp hp)
    rfl
  have hdistinct := TreeMap.distinct_keys_toList (t := m)
  cases hlist : m.toList with
  | nil => exact .inl rfl
  | cons p rest =>
    rw [hlist] at hall hdistinct
    obtain ⟨hp, hrest⟩ := List.forall_mem_cons.mp hall
    subst hp
    cases rest with
    | nil => exact .inr rfl
    | cons q rest =>
      have hq := hrest q List.mem_cons_self
      subst hq
      exact absurd Std.ReflCmp.compare_self ((List.pairwise_cons.mp hdistinct).1 _ List.mem_cons_self)

structure Fresh (ks : CKeyStore) : Prop where
  plain : ks.fUseCrypto = false
  dummy : OnlyDummy ks.mapKeys
  noCrypted : ∀ k : VchType, ks.mapCryptedKeys[k]? = none

theorem Fresh.empty : Fresh CKeyStore.empty :=
  ⟨rfl, fun k v h => by simp [CKeyStore.empty] at h, fun k => by simp [CKeyStore.empty]⟩

theorem keyMap_contains_insert (m : KeyMap) (k a v : VchType) :
    (m.insert k v).contains a = true ↔ k = a ∨ m.contains a = true := by
  rw [TreeMap.contains_insert, Bool.or_eq_true, beq_iff_eq, Std.LawfulEqCmp.compare_eq_iff_eq]

theorem Fresh.setCrypted {ks : CKeyStore} (h : Fresh ks) :
    ks.setCrypted.1 = true ∧ ks.setCrypted.2.fUseCrypto = true ∧
      ks.setCrypted.2.mapPubKeys = ks.mapPubKeys ∧
      ∀ k : VchType, k ≠ [] →
        ks.setCrypted.2.mapCryptedKeys.contains k = ks.mapCryptedKeys.contains k := by
  unfold CKeyStore.setCrypted
  rw [if_neg (by simp [h.plain])]
  rcases h.dummy.toList with hlist | hlist
  · simp [hlist]
  · simp only [hlist, and_self, if_true, true_and]
    intro k hk
    apply Bool.eq_iff_iff.mpr
    rw [keyMap_contains_insert]
    simp [hk.symm]

theorem Fresh.haveKey {ks : CKeyStore} (h : Fresh ks) {k : VchType} (hk : k ≠ []) :
    ks.haveKey k = false ∧ ks.mapCryptedKeys.contains k = false := by
  constructor
  · rw [CKeyStore.haveKey, if_neg (by simp [h.plain]), TreeMap.contains_eq_isSome_getElem?]
    cases hget : ks.mapKeys[k]? with
    | none => rfl
    | some v => exact absurd (h.dummy k v hget).1 hk
  · rw [TreeMap.contains_eq_isSome_getElem?, h.noCrypted]
    rfl

theorem Fresh.addAddress {ks : CKeyStore} (h : Fresh ks) (hash160 : Uint160) :
    Fresh (ks.addAddress hash160) := by
  have hplain : (ks.putPubKey hash160 []).fUseCrypto = false := h.plain
  rw [CKeyStore.addAddress, if_neg (by simp [hplain])]
  refine ⟨h.plain, ?_, h.noCrypted⟩
  intro k v hget
  change (ks.mapKeys.insert [] [])[k]? = some v at hget
  rw [keyMap_insert] at hget
  split at hget
  · rename_i heq
    cases hget
    exact ⟨heq.symm, rfl⟩
  · exact h.dummy k v hget

structure Loads (env : Env) (r : WalletRecord) (ks ks' : CKeyStore) : Prop where
  held : ∀ k : VchType, k ≠ [] →
    (ks'.haveKey k = true ↔ ks.haveKey k = true ∨ r.pubKey = some k)
  slots : ks'.mapPubKeys = Function.update ks.mapPubKeys (r.slot env).1 (some (r.slot env).2)

section LoadSteps

variable {env : Env} {evp : Evp} {ks : CKeyStore}

theorem addKey_loads (hplain : ks.fUseCrypto = false) (k : CKey) :
    (ks.addKey env evp k).1 = true ∧ (ks.addKey env evp k).2.fUseCrypto = false ∧
      Loads env (.key k) ks (ks.addKey env evp k).2 := by
  rw [CKeyStore.addKey, if_neg (by simp [hplain])]
  refine ⟨rfl, hplain, ?_, rfl⟩
  intro a _
  simp only [CKeyStore.haveKey, CKeyStore.putPubKey, hplain, WalletRecord.pubKey]
  rw [if_neg (by simp), if_neg (by simp), keyMap_contains_insert, Option.some.injEq]
  exact or_comm

theorem addCryptedKey_loads (hks : ks.fUseCrypto = true ∨ Fresh ks) (vchPubKey c : VchType) :
    (ks.addCryptedKey env vchPubKey c).1 = true ∧
      (ks.addCryptedKey env vchPubKey c).2.fUseCrypto = true ∧
      Loads env (.ckey vchPubKey c) ks (ks.addCryptedKey env vchPubKey c).2 := by
  obtain ⟨ks1, hok, hcrypt, hslots, hheld⟩ : ∃ ks1, ks.setCrypted = (true, ks1) ∧
      ks1.fUseCrypto = true ∧ ks1.mapPubKeys = ks.mapPubKeys ∧
      ∀ k : VchType, k ≠ [] → (ks1.mapCryptedKeys.contains k = true ↔ ks.haveKey k = true) := by
    rcases hks with hcrypt | hfresh
    · refine ⟨ks, CKeyStore.setCrypted_of_crypted hcrypt, hcrypt, rfl, ?_⟩
      intro k _
      rw [CKeyStore.haveKey, if_pos hcrypt]
    · obtain ⟨hok, hcrypt, hslots, hsame⟩ := hfresh.setCrypted
      refine ⟨ks.setCrypted.2, Prod.ext hok rfl, hcrypt, hslots, ?_⟩
      intro k hk
      obtain ⟨hno, hno'⟩ := hfresh.haveKey hk
      rw [hsame k hk, hno, hno']
  rw [CKeyStore.addCryptedKey, hok, if_pos rfl]
  refine ⟨rfl, hcrypt, ?_, ?_⟩
  · intro k hk
    simp only [CKeyStore.haveKey, CKeyStore.putPubKey, hcrypt, WalletRecord.pubKey] at hheld ⊢
    rw [if_pos trivial, keyMap_contains_insert, hheld k hk, Option.some.injEq]
    exact or_comm
  · simp only [CKeyStore.putPubKey, hslots, WalletRecord.slot]

theorem addAddress_fUseCrypto (hash160 : Uint160) (ks : CKeyStore) :
    (ks.addAddress hash160).fUseCrypto = ks.fUseCrypto := by
  unfold CKeyStore.addAddress
  dsimp only
  split <;> rfl

theorem addAddress_loads (hash160 : Uint160) (ks : CKeyStore) :
    Loads env (.address hash160) ks (ks.addAddress hash160) := by
  have hinsert : ∀ (m : KeyMap) (k : VchType), k ≠ [] →
      ((m.insert [] []).contains k = true ↔ m.contains k = true) := by
    intro m k hk
    rw [keyMap_contains_insert]
    simp [hk.symm]
  unfold CKeyStore.addAddress
  dsimp only
  split
  · rename_i hc
    refine ⟨?_, rfl⟩
    intro k hk
    have hc' : ks.fUseCrypto = true := hc
    simp only [CKeyStore.haveKey, CKeyStore.putPubKey, hc', if_true, WalletRecord.pubKey]
    rw [hinsert _ k hk]
    simp
  · rename_i hc
    refine ⟨?_, rfl⟩
    intro k hk
    have hc' : ks.fUseCrypto = false := by simpa [CKeyStore.putPubKey] using hc
    simp only [CKeyStore.haveKey, CKeyStore.putPubKey, hc', WalletRecord.pubKey]
    rw [if_neg (by simp), if_neg (by simp), hinsert _ k hk]
    simp

def Fits (l : List WalletRecord) (ks : CKeyStore) : Prop :=
  (ks.fUseCrypto = false ∧ ∀ r ∈ l, r.isCrypted = false) ∨
    ((ks.fUseCrypto = true ∨ Fresh ks) ∧ ∀ r ∈ l, r.isPlain = false)

theorem Fits.step {r : WalletRecord} {l : List WalletRecord} (h : Fits (r :: l) ks) :
    (loadWalletRecord env evp r ks).1 = true ∧ Fits l (loadWalletRecord env evp r ks).2 ∧
      Loads env r ks (loadWalletRecord env evp r ks).2 := by
  rcases h with ⟨hplain, hl⟩ | ⟨hks, hl⟩
  · obtain ⟨hr, hrest⟩ := List.forall_mem_cons.mp hl
    cases r with
    | key k =>
      obtain ⟨hok, hplain', hloads⟩ := addKey_loads hplain k
      exact ⟨hok, .inl ⟨hplain', hrest⟩, hloads⟩
    | wkey k =>
      obtain ⟨hok, hplain', hloads⟩ := addKey_loads hplain k
      exact ⟨hok, .inl ⟨hplain', hrest⟩, hloads.held, hloads.slots⟩
    | ckey vchPubKey c => cases hr
    | address hash160 =>
      have hsame := addAddress_fUseCrypto hash160 ks
      exact ⟨rfl, .inl ⟨hsame.trans hplain, hrest⟩, addAddress_loads hash160 ks⟩
  · obtain ⟨hr, hrest⟩ := List.forall_mem_cons.mp hl
    cases r with
    | key k => cases hr
    | wkey k => cases hr
    | ckey vchPubKey c =>
      obtain ⟨hok, hcrypt, hloads⟩ := addCryptedKey_loads hks vchPubKey c
      exact ⟨hok, .inr ⟨.inl hcrypt, hrest⟩, hloads⟩
    | address hash160 =>
      have hsame := addAddress_fUseCrypto hash160 ks
      refine ⟨rfl, .inr ⟨?_, hrest⟩, addAddress_loads hash160 ks⟩
      exact hks.imp hsame.trans (fun hfresh => hfresh.addAddress hash160)

def slotsAfter (env : Env) (l : List WalletRecord) (m : Uint160 → Option VchType) :
    Uint160 → Option VchType :=
  l.foldl (fun m r => Function.update m (r.slot env).1 (some (r.slot env).2)) m

theorem Fits.load {l : List WalletRecord} (h : Fits l ks) :
    ∃ ks', loadWalletRecords env evp l ks = some ks' ∧
      (∀ k : VchType, k ≠ [] →
        (ks'.haveKey k = true ↔ ks.haveKey k = true ∨ ∃ r ∈ l, r.pubKey = some k)) ∧
      ks'.mapPubKeys = slotsAfter env l ks.mapPubKeys := by
  induction l generalizing ks with
  | nil => exact ⟨ks, rfl, by simp, rfl⟩
  | cons r l ih =>
    obtain ⟨hok, hfits, hloads⟩ := @Fits.step env evp ks r l h
    obtain ⟨ks', hload, hheld, hslots⟩ := ih hfits
    refine ⟨ks', by simp only [loadWalletRecords, hok, if_true, hload], ?_, ?_⟩
    · intro k hk
      rw [hheld k hk, hloads.held k hk, List.exists_mem_cons_iff, or_assoc]
    · rw [hslots, hloads.slots]
      rfl

theorem slotsAfter_last (env : Env) (l : List WalletRecord) (m : Uint160 → Option VchType)
    (h : Uint160) :
    (slotsAfter env l m h = m h ∧ ∀ r ∈ l, (r.slot env).1 ≠ h) ∨
      ∃ l1 r l2, l = l1 ++ r :: l2 ∧ (r.slot env).1 = h ∧ (∀ r' ∈ l2, (r'.slot env).1 ≠ h) ∧
        slotsAfter env l m h = some (r.slot env).2 := by
  induction l generalizing m with
  | nil => exact .inl ⟨rfl, by simp⟩
  | cons r l ih =>
    rcases ih (Function.update m (r.slot env).1 (some (r.slot env).2)) with
      ⟨hkeep, hnone⟩ | ⟨l1, r', l2, rfl, hr', hl2, hlast⟩
    · by_cases hr : (r.slot env).1 = h
      · refine .inr ⟨[], r, l, rfl, hr, hnone, ?_⟩
        change slotsAfter env l _ h = _
        rw [hkeep, hr, Function.update_self]
      · refine .inl ⟨?_, List.forall_mem_cons.mpr ⟨hr, hnone⟩⟩
        change slotsAfter env l _ h = _
        rw [hkeep, Function.update_of_ne (Ne.symm hr)]
    · exact .inr ⟨r :: l1, r', l2, rfl, hr', hl2, hlast⟩

end LoadSteps

theorem serBytes_cons {b : VchType} (h : b ≠ []) : ∃ n rest, serBytes b = n :: rest ∧ 0 < n := by
  have hpos : 0 < b.length := List.length_pos_iff.mpr h
  unfold serBytes writeCompactSize
  split
  · refine ⟨UInt8.ofNat (b.length % 256), b, rfl, ?_⟩
    rw [UInt8.lt_iff_toNat_lt, UInt8.toNat_ofNat']
    change 0 < b.length % 256 % 2 ^ 8
    omega
  · split
    · exact ⟨253, _, rfl, by decide⟩
    · split
      · exact ⟨254, _, rfl, by decide⟩
      · exact ⟨255, _, rfl, by decide⟩

theorem compare_head {x y : UInt8} (h : compare x y = .gt) (xs ys : List UInt8) :
    compare (x :: xs) (y :: ys) ≠ .lt := by
  rw [List.compare_cons_cons, h]
  exact fun hlt => by cases hlt

theorem address_last {h : Uint160} {r : WalletRecord}
    (hlt : compare (WalletRecord.address h).ssKey r.ssKey = .lt) : r.pubKey = none := by
  have haddress : (WalletRecord.address h).ssKey =
      7 :: ([97, 100, 100, 114, 101, 115, 115] ++ h.val) := rfl
  rw [haddress] at hlt
  cases r with
  | key k =>
    have hkey : (WalletRecord.key k).ssKey = 3 :: ([107, 101, 121] ++ serBytes k.vchPubKey) := rfl
    rw [hkey] at hlt
    exact absurd hlt (compare_head (by decide) _ _)
  | wkey k =>
    have hkey : (WalletRecord.wkey k).ssKey =
        4 :: ([119, 107, 101, 121] ++ serBytes k.vchPubKey) := rfl
    rw [hkey] at hlt
    exact absurd hlt (compare_head (by decide) _ _)
  | ckey vchPubKey c =>
    have hkey : (WalletRecord.ckey vchPubKey c).ssKey =
        4 :: ([99, 107, 101, 121] ++ serBytes vchPubKey) := rfl
    rw [hkey] at hlt
    exact absurd hlt (compare_head (by decide) _ _)
  | address h' => rfl

theorem dummy_first {vchPubKey c c' : VchType} (hne : vchPubKey ≠ [])
    (hlt : compare (WalletRecord.ckey vchPubKey c).ssKey (WalletRecord.ckey [] c').ssKey = .lt) :
    False := by
  obtain ⟨n, rest, hser, hpos⟩ := serBytes_cons hne
  have hnil : serBytes ([] : VchType) = [0] := by decide
  have hgt : compare n 0 = .gt := Std.compare_eq_gt.mpr hpos
  rw [WalletRecord.ssKey, WalletRecord.ssKey, compare_append_left, hser, hnil] at hlt
  exact compare_head hgt _ _ hlt

theorem ssKey_address {r : WalletRecord} {hash160 : Uint160}
    (h : r.ssKey = (WalletRecord.address hash160).ssKey) : r = .address hash160 := by
  cases r with
  | key k => exact absurd (List.cons.inj h).1 (by decide)
  | wkey k => exact absurd (List.cons.inj h).1 (by decide)
  | ckey vchPubKey c => exact absurd (List.cons.inj h).1 (by decide)
  | address hash160' => rw [Subtype.ext (List.append_cancel_left h)]

namespace WalletFile

variable {env : Env} {evp : Evp} {w : WalletFile}

def Watched (w : WalletFile) (hash160 : Uint160) : Prop :=
  w.db.contains (WalletRecord.address hash160).ssKey = true

def OnFile (w : WalletFile) (vchPubKey : VchType) : Prop :=
  vchPubKey ≠ [] ∧ ∃ r ∈ w.db.records, r.pubKey = some vchPubKey

theorem mem_records {r : WalletRecord} : r ∈ w.db.records ↔ ∃ k : List UInt8, w.db[k]? = some r := by
  simp only [WalletDb.records, List.mem_map, Prod.exists,
    TreeMap.mem_toList_iff_getElem?_eq_some, exists_eq_right]

theorem Ok.sorted (h : w.Ok) :
    w.db.records.Pairwise (fun r r' => compare r.ssKey r'.ssKey = .lt) := by
  unfold WalletDb.records
  rw [List.pairwise_map]
  refine List.Pairwise.imp_of_mem ?_ TreeMap.ordered_keys_toList
  rintro ⟨k, r⟩ ⟨k', r'⟩ hr hr' hlt
  rw [TreeMap.mem_toList_iff_getElem?_eq_some] at hr hr'
  rw [h.keyed k r hr, h.keyed k' r' hr']
  exact hlt

theorem Ok.watched_iff (h : w.Ok) {hash160 : Uint160} :
    w.Watched hash160 ↔ .address hash160 ∈ w.db.records := by
  rw [mem_records, Watched, TreeMap.contains_eq_isSome_getElem?, Option.isSome_iff_exists]
  constructor
  · rintro ⟨r, hr⟩
    rw [ssKey_address (h.keyed _ r hr)] at hr
    exact ⟨_, hr⟩
  · rintro ⟨k, hk⟩
    rw [h.keyed k _ hk]
    exact ⟨_, hk⟩

theorem Ok.fits (h : w.Ok) : Fits w.db.records CKeyStore.empty := by
  cases hc : w.ks.fUseCrypto with
  | false =>
    refine .inl ⟨rfl, ?_⟩
    intro r hr
    obtain ⟨k, hk⟩ := mem_records.mp hr
    exact h.plain hc k r hk
  | true =>
    refine .inr ⟨.inr Fresh.empty, ?_⟩
    intro r hr
    obtain ⟨k, hk⟩ := mem_records.mp hr
    exact h.crypted hc k r hk

theorem before_last {l l1 l2 : List WalletRecord} {r r' : WalletRecord} {hash160 : Uint160}
    (hsorted : l.Pairwise (fun r r' => compare r.ssKey r'.ssKey = .lt)) (hl : l = l1 ++ r :: l2)
    (hafter : ∀ r' ∈ l2, (r'.slot env).1 ≠ hash160) (hmem : r' ∈ l)
    (hslot : (r'.slot env).1 = hash160) : r' = r ∨ compare r'.ssKey r.ssKey = .lt := by
  subst hl
  rcases List.mem_append.mp hmem with hmem | hmem
  · exact .inr ((List.pairwise_append.mp hsorted).2.2 r' hmem r List.mem_cons_self)
  · rcases List.mem_cons.mp hmem with rfl | hmem
    · exact .inl rfl
    · exact absurd hslot (hafter r' hmem)

theorem slot_of_pubKey {r : WalletRecord} {vchPubKey : VchType} (h : r.pubKey = some vchPubKey) :
    r.slot env = (env.hash160 vchPubKey, vchPubKey) := by
  cases r with
  | key k => cases h; rfl
  | wkey k => cases h; rfl
  | ckey pk c => cases h; rfl
  | address hash160 => cases h

theorem Ok.slot_watched (h : w.Ok) {hash160 : Uint160} (hwatch : w.Watched hash160) :
    slotsAfter env w.db.records (fun _ => none) hash160 = some [] := by
  have hmem := h.watched_iff.mp hwatch
  rcases slotsAfter_last env w.db.records (fun _ => none) hash160 with
    ⟨-, hnone⟩ | ⟨l1, r, l2, hl, hr, hl2, hlast⟩
  · exact absurd rfl (hnone _ hmem)
  · rw [hlast]
    rcases before_last h.sorted hl hl2 hmem rfl with rfl | hlt
    · rfl
    · have hnone := address_last hlt
      cases r with
      | address hash160' => rfl
      | key k => cases hnone
      | wkey k => cases hnone
      | ckey pk c => cases hnone

theorem Ok.dummy_first {r r' : WalletRecord} {vchPubKey : VchType} (h : w.Ok)
    (hne : vchPubKey ≠ []) (hr : r ∈ w.db.records) (hr' : r' ∈ w.db.records)
    (hpub : r.pubKey = some vchPubKey) (hpub' : r'.pubKey = some [])
    (hlt : compare r.ssKey r'.ssKey = .lt) : False := by
  cases r' with
  | key k => exact k.hasPubKey (Option.some.inj hpub')
  | wkey k => exact k.hasPubKey (Option.some.inj hpub')
  | address hash160 => cases hpub'
  | ckey pk c =>
    cases hpub'
    have hcrypt : w.ks.fUseCrypto = true := by
      rw [← Bool.not_eq_false]
      intro hplain
      obtain ⟨k, hk⟩ := mem_records.mp hr'
      cases h.plain hplain k _ hk
    obtain ⟨k, hk⟩ := mem_records.mp hr
    have hsealed := h.crypted hcrypt k r hk
    cases r with
    | key k => cases hsealed
    | wkey k => cases hsealed
    | address hash160 => cases hpub
    | ckey pk c =>
      cases hpub
      exact Namecoin.dummy_first hne hlt

theorem Ok.slot_held (h : w.Ok) {vchPubKey : VchType} (hfile : w.OnFile vchPubKey)
    (hwatch : ¬w.Watched (env.hash160 vchPubKey)) :
    ∃ vchPubKey', slotsAfter env w.db.records (fun _ => none) (env.hash160 vchPubKey) =
      some vchPubKey' ∧ w.OnFile vchPubKey' := by
  obtain ⟨hne, rk, hmem, hpub⟩ := hfile
  have hslot := @slot_of_pubKey env rk vchPubKey hpub
  rcases slotsAfter_last env w.db.records (fun _ => none) (env.hash160 vchPubKey) with
    ⟨-, hnone⟩ | ⟨l1, r, l2, hl, hr, hl2, hlast⟩
  · exact absurd (congrArg Prod.fst hslot) (hnone _ hmem)
  · have hin : r ∈ w.db.records := by
      rw [hl]
      simp
    cases hpub' : r.pubKey with
    | none =>
      cases r with
      | address hash160 => exact absurd (h.watched_iff.mpr (hr ▸ hin)) hwatch
      | key k => cases hpub'
      | wkey k => cases hpub'
      | ckey pk c => cases hpub'
    | some v =>
      have hslot' := @slot_of_pubKey env r v hpub'
      refine ⟨v, by rw [hlast, hslot'], ?_, r, hin, hpub'⟩
      rintro rfl
      rcases before_last h.sorted hl hl2 hmem (congrArg Prod.fst hslot) with rfl | hlt
      · cases hpub.symm.trans hpub'
        exact hne rfl
      · exact h.dummy_first hne hmem hin hpub hpub' hlt

theorem Ok.reload (h : w.Ok) (env : Env) (evp : Evp) :
    ∃ ks, loadWallet env evp w.db = some ks ∧
      (∀ vchPubKey, ks.HoldsPubKey vchPubKey ↔ w.OnFile vchPubKey) ∧
      ks.mapPubKeys = slotsAfter env w.db.records (fun _ => none) := by
  obtain ⟨ks, hload, hheld, hslots⟩ := @Fits.load env evp _ _ h.fits
  refine ⟨ks, hload, ?_, hslots⟩
  intro vchPubKey
  refine and_congr_right ?_
  intro hne
  have hnone : CKeyStore.empty.haveKey vchPubKey = false := (Fresh.empty.haveKey hne).1
  rw [hheld vchPubKey hne, hnone]
  simp

theorem Ok.spendable_iff (h : w.Ok) {env : Env} {evp : Evp} {ks : CKeyStore}
    (hload : loadWallet env evp w.db = some ks) :
    (∀ script, ks.HoldsScript env script → ks.isSpendable env script = true) ↔
      ∀ vchPubKey, w.OnFile vchPubKey → ¬w.Watched (env.hash160 vchPubKey) := by
  obtain ⟨ks', hload', hheld, hslots⟩ := h.reload env evp
  cases hload.symm.trans hload'
  constructor
  · intro hall vchPubKey hfile hwatch
    have hsolve := solver_setBitcoinAddress (env.hash160 vchPubKey)
    have hround : uint160 (env.hash160 vchPubKey).val = env.hash160 vchPubKey := by
      simp [uint160, (env.hash160 vchPubKey).property]
    have hspend := hall _ (.inr ⟨_, vchPubKey, hsolve, (hheld _).mpr hfile, hround.symm⟩)
    obtain ⟨v, hv, hhold⟩ := (CKeyStore.isSpendable_pubkeyhash hsolve).mp hspend
    rw [hround, hslots, h.slot_watched hwatch] at hv
    cases hv
    exact hhold.1 rfl
  · intro hno script hscript
    rcases hscript with ⟨vchPubKey, hsolve, hhold⟩ | ⟨vch, vchPubKey, hsolve, hhold, hhash⟩
    · exact CKeyStore.isSpendable_pubkey hsolve hhold
    · have hfile := (hheld vchPubKey).mp hhold
      obtain ⟨v, hv, hvfile⟩ := h.slot_held hfile (hno vchPubKey hfile)
      rw [CKeyStore.isSpendable_pubkeyhash hsolve]
      exact ⟨v, by rw [hslots, ← hhash, hv], (hheld v).mpr hvfile⟩

end WalletFile

namespace WalletDb

theorem writeNew_get {r r' : WalletRecord} {db : WalletDb} {k : List UInt8}
    (h : (db.writeNew r)[k]? = some r') : db[k]? = some r' ∨ (r' = r ∧ r.ssKey = k) := by
  unfold writeNew at h
  split at h
  · exact .inl h
  · rw [keyMap_insert] at h
    split at h
    · rename_i heq
      cases h
      exact .inr ⟨rfl, heq⟩
    · exact .inl h

theorem writeNew_contains {r : WalletRecord} {db : WalletDb} {k : List UInt8} :
    (db.writeNew r).contains k = true ↔ r.ssKey = k ∨ db.contains k = true := by
  unfold writeNew
  split
  · rename_i hin
    constructor
    · exact .inr
    · rintro (rfl | h)
      · exact hin
      · exact h
  · rw [TreeMap.contains_insert, Bool.or_eq_true, beq_iff_eq, Std.LawfulEqCmp.compare_eq_iff_eq]

theorem erase_get {db : WalletDb} {k k' : List UInt8} {r : WalletRecord}
    (h : (db.erase k')[k]? = some r) : db[k]? = some r := by
  rw [TreeMap.getElem?_erase] at h
  split at h
  · cases h
  · exact h

theorem writeCryptedKey_get {key : CKey} {c : VchType} {r : WalletRecord} {db : WalletDb}
    {k : List UInt8} (h : (db.writeCryptedKey key c)[k]? = some r) :
    db[k]? = some r ∨
      (r = .ckey key.vchPubKey c ∧ (WalletRecord.ckey key.vchPubKey c).ssKey = k) := by
  unfold writeCryptedKey at h
  split at h
  · exact .inl h
  · have h := erase_get (erase_get h)
    rw [keyMap_insert] at h
    split at h
    · rename_i heq
      cases h
      exact .inr ⟨rfl, heq⟩
    · exact .inl h

theorem writeCryptedKey_address {key : CKey} {c : VchType} {db : WalletDb} {hash160 : Uint160} :
    (db.writeCryptedKey key c).contains (WalletRecord.address hash160).ssKey =
      db.contains (WalletRecord.address hash160).ssKey := by
  have hother : ∀ r : WalletRecord, r.pubKey = some key.vchPubKey →
      compare r.ssKey (WalletRecord.address hash160).ssKey ≠ .eq := by
    intro r hr heq
    rw [ssKey_address (Std.LawfulEqCmp.compare_eq_iff_eq.mp heq)] at hr
    cases hr
  unfold writeCryptedKey
  split
  · rfl
  · rw [TreeMap.contains_erase, TreeMap.contains_erase, TreeMap.contains_insert,
      bne_iff_ne.mpr (hother (.wkey key) rfl), bne_iff_ne.mpr (hother (.key key) rfl),
      beq_eq_false_iff_ne.mpr (hother (.ckey key.vchPubKey c) rfl)]
    simp

end WalletDb

namespace WalletFile

variable {env : Env} {evp : Evp} {w : WalletFile}

theorem Ok.write {ks : CKeyStore} {db : WalletDb} (h : w.Ok) (hks : ks.fUseCrypto = w.ks.fUseCrypto)
    (hdb : ∀ (k : List UInt8) (r : WalletRecord), db[k]? = some r → w.db[k]? = some r ∨
      (r.ssKey = k ∧ (w.ks.fUseCrypto = false → r.isCrypted = false) ∧
        (w.ks.fUseCrypto = true → r.isPlain = false))) : (WalletFile.mk ks db).Ok where
  keyed := by
    intro k r hr
    rcases hdb k r hr with hold | ⟨hkey, -⟩
    · exact h.keyed k r hold
    · exact hkey
  plain := by
    intro hc k r hr
    rcases hdb k r hr with hold | ⟨-, hplain, -⟩
    · exact h.plain (hks.symm.trans hc) k r hold
    · exact hplain (hks.symm.trans hc)
  crypted := by
    intro hc k r hr
    rcases hdb k r hr with hold | ⟨-, -, hcrypt⟩
    · exact h.crypted (hks.symm.trans hc) k r hold
    · exact hcrypt (hks.symm.trans hc)

theorem Ok.addAddress (h : w.Ok) (hash160 : Uint160) : (w.addAddress hash160).Ok := by
  refine h.write (addAddress_fUseCrypto hash160 w.ks) ?_
  intro k r hr
  rcases WalletDb.writeNew_get hr with hold | ⟨rfl, hkey⟩
  · exact .inl hold
  · exact .inr ⟨hkey, fun _ => rfl, fun _ => rfl⟩

theorem Ok.addKey (h : w.Ok) (key : CKey) : (w.addKey env evp key).Ok := by
  have hks := @CKeyStore.addKey_fUseCrypto env evp key w.ks
  unfold WalletFile.addKey
  dsimp only
  split
  · exact h.write hks (fun k r hr => .inl hr)
  · split
    · rename_i hcrypt
      split
      · exact h.write hks (fun k r hr => .inl hr)
      · refine h.write hks ?_
        intro k r hr
        rcases WalletDb.writeCryptedKey_get hr with hold | ⟨rfl, hkey⟩
        · exact .inl hold
        · refine .inr ⟨hkey, ?_, fun _ => rfl⟩
          intro hplain
          cases hplain.symm.trans hcrypt
    · rename_i hplain
      refine h.write hks ?_
      intro k r hr
      rcases WalletDb.writeNew_get hr with hold | ⟨rfl, hkey⟩
      · exact .inl hold
      · exact .inr ⟨hkey, fun _ => rfl, fun hcrypt => absurd hcrypt hplain⟩

theorem watched_addKey (key : CKey) (hash160 : Uint160) :
    (w.addKey env evp key).Watched hash160 ↔ w.Watched hash160 := by
  unfold WalletFile.addKey Watched
  dsimp only
  split
  · rfl
  · split
    · split
      · rfl
      · rw [WalletDb.writeCryptedKey_address]
    · rw [WalletDb.writeNew_contains]
      refine or_iff_right ?_
      intro heq
      cases ssKey_address heq

theorem watched_addAddress (hash160 hash160' : Uint160) :
    (w.addAddress hash160).Watched hash160' ↔ hash160' = hash160 ∨ w.Watched hash160' := by
  unfold WalletFile.addAddress Watched
  rw [WalletDb.writeNew_contains]
  refine or_congr_left ?_
  constructor
  · intro heq
    cases ssKey_address heq
    rfl
  · rintro rfl
    rfl

theorem Ok.step (h : w.Ok) (op : WatchOp) :
    (w.step env evp op).Ok ∧ ∀ hash160, (w.step env evp op).Watched hash160 ↔
      w.Watched hash160 ∨ op = .importaddress hash160 := by
  cases op with
  | importaddress hash160 =>
    refine ⟨h.addAddress hash160, ?_⟩
    intro hash160'
    rw [WalletFile.step, watched_addAddress, or_comm, WatchOp.importaddress.injEq]
    simp only [eq_comm]
  | importprivkey key =>
    simp only [WalletFile.step, reduceCtorEq, or_false]
    split
    · exact ⟨h, fun _ => Iff.rfl⟩
    · exact ⟨h.addKey key, watched_addKey key⟩
  | generateNewKey key =>
    simp only [WalletFile.step, reduceCtorEq, or_false]
    exact ⟨h.addKey key, watched_addKey key⟩

theorem Ok.run (h : w.Ok) (ops : List WatchOp) :
    (w.run env evp ops).Ok ∧ ∀ hash160, (w.run env evp ops).Watched hash160 ↔
      w.Watched hash160 ∨ .importaddress hash160 ∈ ops := by
  induction ops generalizing w with
  | nil => exact ⟨h, by simp [WalletFile.run]⟩
  | cons op ops ih =>
    obtain ⟨hok, hwatch⟩ := @Ok.step env evp w h op
    obtain ⟨hok', hwatch'⟩ := ih hok
    refine ⟨hok', ?_⟩
    intro hash160
    rw [List.mem_cons, ← or_assoc, eq_comm, ← hwatch hash160]
    exact hwatch' hash160

theorem watching_spendable_iff (env : Env) (evp : Evp) {w : WalletFile} (h : w.Ok)
    (ops : List WatchOp) :
    ∃ ks, loadWallet env evp (w.run env evp ops).db = some ks ∧
      ((∀ script, ks.HoldsScript env script → ks.isSpendable env script = true) ↔
        ∀ vchPubKey, (w.run env evp ops).OnFile vchPubKey →
          ¬w.Watched (env.hash160 vchPubKey) ∧
            .importaddress (env.hash160 vchPubKey) ∉ ops) := by
  obtain ⟨hok, hwatch⟩ := @Ok.run env evp w h ops
  obtain ⟨ks, hload, -⟩ := hok.reload env evp
  refine ⟨ks, hload, ?_⟩
  rw [hok.spendable_iff hload]
  simp only [hwatch, not_or]

theorem onFile_mem {vchPubKey : VchType} (h : w.OnFile vchPubKey) :
    vchPubKey ∈ w.db.records.filterMap WalletRecord.pubKey := by
  obtain ⟨-, r, hr, hpub⟩ := h
  exact List.mem_filterMap.mpr ⟨r, hr, hpub⟩

def blank : WalletFile := ⟨CKeyStore.empty, ∅⟩

theorem blank_ok : blank.Ok := by
  constructor <;> simp [blank]

end WalletFile

def watchThenKey : List WatchOp :=
  [.importaddress (sampleEnv.hash160 firstKey.vchPubKey), .importprivkey firstKey]

def watchOther : List WatchOp :=
  [.importaddress uint160Null, .importprivkey firstKey, .generateNewKey secondKey]

theorem watchOther_spendable :
    ∃ ks, loadWallet sampleEnv sampleEvp (WalletFile.blank.run sampleEnv sampleEvp watchOther).db =
      some ks ∧ ∀ script, ks.HoldsScript sampleEnv script → ks.isSpendable sampleEnv script = true := by
  obtain ⟨ks, hload, hiff⟩ :=
    WalletFile.watching_spendable_iff sampleEnv sampleEvp WalletFile.blank_ok watchOther
  refine ⟨ks, hload, hiff.mpr ?_⟩
  intro vchPubKey hfile
  have hmem := WalletFile.onFile_mem hfile
  have hkeys : (WalletFile.blank.run sampleEnv sampleEvp watchOther).db.records.filterMap
      WalletRecord.pubKey = [firstKey.vchPubKey, secondKey.vchPubKey] := by decide +kernel
  rw [hkeys, List.mem_pair] at hmem
  rcases hmem with rfl | rfl
  · have hne : sampleEnv.hash160 firstKey.vchPubKey ≠ uint160Null := by decide +kernel
    exact ⟨by simp [WalletFile.Watched, WalletFile.blank], by simp [watchOther, hne]⟩
  · have hne : sampleEnv.hash160 secondKey.vchPubKey ≠ uint160Null := by decide +kernel
    exact ⟨by simp [WalletFile.Watched, WalletFile.blank], by simp [watchOther, hne]⟩

theorem watchThenKey_unspendable :
    ¬∀ (env : Env) (evp : Evp) (w : WalletFile), w.Ok → ∀ (ops : List WatchOp) (ks : CKeyStore),
      loadWallet env evp (w.run env evp ops).db = some ks →
        ∀ script, ks.HoldsScript env script → ks.isSpendable env script = true := by
  intro h
  obtain ⟨hok, hwatch⟩ :=
    @WalletFile.Ok.run sampleEnv sampleEvp WalletFile.blank WalletFile.blank_ok watchThenKey
  obtain ⟨ks, hload, -⟩ := hok.reload sampleEnv sampleEvp
  have hall := h sampleEnv sampleEvp _ WalletFile.blank_ok watchThenKey ks hload
  have hkeys : (WalletFile.blank.run sampleEnv sampleEvp watchThenKey).db.records.filterMap
      WalletRecord.pubKey = [firstKey.vchPubKey] := by decide +kernel
  have hfile : (WalletFile.blank.run sampleEnv sampleEvp watchThenKey).OnFile
      firstKey.vchPubKey := by
    refine ⟨firstKey.hasPubKey, ?_⟩
    rw [← List.mem_filterMap, hkeys]
    exact List.mem_cons_self
  refine (hok.spendable_iff hload).mp hall _ hfile ((hwatch _).mpr (.inr ?_))
  exact List.mem_cons_self

end Namecoin
