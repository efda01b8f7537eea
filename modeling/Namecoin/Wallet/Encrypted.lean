import Namecoin.Wallet.KeyStore
import Namecoin.Chain.Run

namespace Namecoin

open Std (TreeMap)

structure IdealEvp (evp : Evp) : Prop where
  same : ∀ vMasterKey nIV vchPlaintext c, vMasterKey.length = walletCryptoKeySize →
    evp.encrypt vMasterKey nIV vchPlaintext = some c →
      evp.decrypt vMasterKey nIV c = some vchPlaintext
  other : ∀ vMasterKey vMasterKey' nIV vchPlaintext c,
    vMasterKey.length = walletCryptoKeySize → vMasterKey'.length = walletCryptoKeySize →
    vMasterKey' ≠ vMasterKey → evp.encrypt vMasterKey nIV vchPlaintext = some c →
      evp.decrypt vMasterKey' nIV c = none
  blank : ∀ vMasterKey nIV, vMasterKey.length = walletCryptoKeySize →
    evp.decrypt vMasterKey nIV [] = none

theorem encryptSecret_some {evp : Evp} {vMasterKey vchPlaintext c : VchType} {nIV : Uint256}
    (h : encryptSecret evp vMasterKey vchPlaintext nIV = some c) :
    vMasterKey.length = walletCryptoKeySize ∧ evp.encrypt vMasterKey nIV vchPlaintext = some c := by
  unfold encryptSecret at h
  split at h
  · cases h
  · rename_i hlen
    exact ⟨not_not.mp hlen, h⟩

theorem IdealEvp.decryptSecret_same {evp : Evp} (ideal : IdealEvp evp)
    {vMasterKey vchPlaintext c : VchType} {nIV : Uint256}
    (h : encryptSecret evp vMasterKey vchPlaintext nIV = some c) :
    decryptSecret evp vMasterKey c nIV = some vchPlaintext := by
  obtain ⟨hlen, henc⟩ := encryptSecret_some h
  rw [decryptSecret, if_neg (not_not.mpr hlen)]
  exact ideal.same _ _ _ _ hlen henc

theorem IdealEvp.decryptSecret_other {evp : Evp} (ideal : IdealEvp evp)
    {vMasterKey vMasterKey' vchPlaintext c : VchType} {nIV : Uint256} (hne : vMasterKey' ≠ vMasterKey)
    (h : encryptSecret evp vMasterKey vchPlaintext nIV = some c) :
    decryptSecret evp vMasterKey' c nIV = none := by
  obtain ⟨hlen, henc⟩ := encryptSecret_some h
  unfold decryptSecret
  split
  · rfl
  · rename_i hlen'
    exact ideal.other _ _ _ _ _ hlen (not_not.mp hlen') hne henc

inductive KeyOp where
  | addKey (key : CKey)
  | addAddress (hash160 : Uint160)
  | encryptKeys (vMasterKeyIn : VchType)
  | lock
  | unlock (vMasterKeyIn : VchType)

structure KeyRun where
  ks : CKeyStore
  added : VchType → Option VchType
  master : Option VchType

namespace KeyRun

variable (env : Env) (evp : Evp)

def start : KeyRun := ⟨CKeyStore.empty, fun _ => none, none⟩

def step (r : KeyRun) : KeyOp → KeyRun
  | .addKey key =>
    let x := r.ks.addKey env evp key
    { r with
      ks := x.2
      added := if x.1 then Function.update r.added key.vchPubKey (some key.vchPrivKey) else r.added }
  | .addAddress hash160 => { r with ks := r.ks.addAddress hash160 }
  | .encryptKeys vMasterKeyIn =>
    let x := r.ks.encryptKeys env evp vMasterKeyIn
    { r with ks := x.2, master := if x.1 then some vMasterKeyIn else r.master }
  | .lock => { r with ks := r.ks.lock.2 }
  | .unlock vMasterKeyIn => { r with ks := (r.ks.unlock env evp vMasterKeyIn).2 }

structure Usable (r : KeyRun) (vMasterKey : VchType) : Prop where
  unlocks : (r.ks.unlock env evp vMasterKey).1 = true
  refuses : ∀ vMasterKey', vMasterKey' ≠ vMasterKey →
    (∃ vchPubKey, vchPubKey ≠ [] ∧ vchPubKey ∈ r.ks.mapCryptedKeys) →
      (r.ks.unlock env evp vMasterKey').1 = false
  yields : r.ks.isLocked = false → ∀ vchPubKey vchPrivKey, r.added vchPubKey = some vchPrivKey →
    r.ks.getPrivKey env evp vchPubKey = some vchPrivKey

def Guarded (r : KeyRun) : KeyOp → Prop
  | .addAddress _ => False
  | .unlock vMasterKeyIn => ∀ vMasterKey, r.master = some vMasterKey →
      vMasterKeyIn = vMasterKey ∨ r.ks.mapCryptedKeys.isEmpty = false
  | _ => True

end KeyRun

structure Unsealed (added : VchType → Option VchType) (ks : CKeyStore) : Prop where
  keys : ∀ vchPubKey : VchType, ks.mapKeys[vchPubKey]? = added vchPubKey
  noCrypted : ∀ vchPubKey : VchType, ks.mapCryptedKeys[vchPubKey]? = none
  noDummy : added [] = none
  noMaster : ks.vMasterKey = []

structure Sealed (env : Env) (evp : Evp) (vMasterKey : VchType)
    (added : VchType → Option VchType) (ks : CKeyStore) : Prop where
  crypted : ks.fUseCrypto = true
  secret : ∀ (vchPubKey c : VchType), ks.mapCryptedKeys[vchPubKey]? = some c →
    ∃ vchPrivKey, added vchPubKey = some vchPrivKey ∧
      encryptSecret evp vMasterKey vchPrivKey (env.hash vchPubKey) = some c
  stored : ∀ vchPubKey vchPrivKey : VchType, added vchPubKey = some vchPrivKey →
    ∃ c, ks.mapCryptedKeys[vchPubKey]? = some c
  noDummy : added [] = none
  master : ks.vMasterKey = [] ∨ ks.vMasterKey = vMasterKey

theorem keyMap_insert {V : Type} (m : TreeMap (List UInt8) V) (k a : List UInt8) (v : V) :
    (m.insert k v)[a]? = if k = a then some v else m[a]? := by
  rw [TreeMap.getElem?_insert]
  simp only [Std.LawfulEqCmp.compare_eq_iff_eq]

theorem mem_toList (m : KeyMap) (k v : VchType) : (k, v) ∈ m.toList ↔ m[k]? = some v :=
  TreeMap.mem_toList_iff_getElem?_eq_some

namespace CKeyStore

variable {env : Env} {evp : Evp} {ks : CKeyStore}

theorem setCrypted_of_crypted (h : ks.fUseCrypto = true) : ks.setCrypted = (true, ks) := by
  simp [setCrypted, h]

theorem setCrypted_cases (ks : CKeyStore) :
    (ks.setCrypted.1 = true ∧ ks.setCrypted.2.fUseCrypto = true) ∨ ks.setCrypted = (false, ks) := by
  unfold setCrypted
  split
  · rename_i hc
    exact .inl ⟨rfl, hc⟩
  · split
    · exact .inl ⟨rfl, rfl⟩
    · split
      · exact .inl ⟨rfl, rfl⟩
      · exact .inr rfl
    · exact .inr rfl

def sealKey (env : Env) (vchPubKey c : VchType) (ks : CKeyStore) : CKeyStore :=
  ({ ks with mapCryptedKeys := ks.mapCryptedKeys.insert vchPubKey c }).putPubKey
    (env.hash160 vchPubKey) vchPubKey

@[simp]
theorem sealKey_fUseCrypto (vchPubKey c : VchType) :
    (ks.sealKey env vchPubKey c).fUseCrypto = ks.fUseCrypto := rfl

@[simp]
theorem sealKey_vMasterKey (vchPubKey c : VchType) :
    (ks.sealKey env vchPubKey c).vMasterKey = ks.vMasterKey := rfl

theorem sealKey_get (vchPubKey c k : VchType) :
    (ks.sealKey env vchPubKey c).mapCryptedKeys[k]? =
      if vchPubKey = k then some c else ks.mapCryptedKeys[k]? := keyMap_insert _ _ _ _

theorem addCryptedKey_of_crypted (h : ks.fUseCrypto = true) (vchPubKey c : VchType) :
    ks.addCryptedKey env vchPubKey c = (true, ks.sealKey env vchPubKey c) := by
  simp [addCryptedKey, setCrypted_of_crypted h, sealKey]

theorem addKey_fUseCrypto (key : CKey) (ks : CKeyStore) :
    (ks.addKey env evp key).2.fUseCrypto = ks.fUseCrypto := by
  unfold addKey
  split
  · rename_i hc
    split
    · rfl
    · split
      · rfl
      · rw [addCryptedKey_of_crypted hc, sealKey_fUseCrypto]
  · rfl

theorem encryptKeys_of_crypted (h : ks.fUseCrypto = true) (vMasterKeyIn : VchType) :
    ks.encryptKeys env evp vMasterKeyIn = (false, ks) := by
  rw [encryptKeys, if_pos (.inr h)]

theorem lock_cases (ks : CKeyStore) : ks.lock.2.fUseCrypto = true ∨ ks.lock.2 = ks := by
  unfold lock
  obtain ⟨hok, hcrypt⟩ | hfail := setCrypted_cases ks
  · exact .inl (by simp [hok, hcrypt])
  · exact .inr (by simp [hfail])

theorem unlock_cases (vMasterKeyIn : VchType) (ks : CKeyStore) :
    (ks.unlock env evp vMasterKeyIn).2.fUseCrypto = true ∨
      (ks.unlock env evp vMasterKeyIn).2 = ks := by
  unfold unlock
  obtain ⟨hok, hcrypt⟩ | hfail := setCrypted_cases ks
  · left
    simp only [hok, if_true]
    split
    · exact hcrypt
    · split
      · exact hcrypt
      · exact hcrypt
  · exact .inr (by simp [hfail])

section EncryptEach

variable {vMasterKeyIn : VchType} {l : List (VchType × VchType)}

theorem encryptEach_cons {k v : VchType} (hc : ks.fUseCrypto = true) (hk : k ≠ []) :
    encryptEach env evp vMasterKeyIn ((k, v) :: l) ks =
      match encryptSecret evp vMasterKeyIn v (env.hash k) with
      | none => (false, ks)
      | some c => encryptEach env evp vMasterKeyIn l (ks.sealKey env k c) := by
  rw [encryptEach, if_neg hk]
  cases encryptSecret evp vMasterKeyIn v (env.hash k) with
  | none => rfl
  | some c => simp [addCryptedKey_of_crypted hc]

theorem encryptEach_frame (hc : ks.fUseCrypto = true) (hl : ∀ p ∈ l, p.1 ≠ []) :
    (encryptEach env evp vMasterKeyIn l ks).2.fUseCrypto = true ∧
      (encryptEach env evp vMasterKeyIn l ks).2.vMasterKey = ks.vMasterKey := by
  induction l generalizing ks with
  | nil => exact ⟨hc, rfl⟩
  | cons p l ih =>
    obtain ⟨hk, hl⟩ := List.forall_mem_cons.mp hl
    rw [encryptEach_cons hc hk]
    split
    · exact ⟨hc, rfl⟩
    · exact ih hc hl

theorem encryptEach_secret {k c : VchType} (hc : ks.fUseCrypto = true) (hl : ∀ p ∈ l, p.1 ≠ [])
    (h : (encryptEach env evp vMasterKeyIn l ks).2.mapCryptedKeys[k]? = some c) :
    ks.mapCryptedKeys[k]? = some c ∨
      ∃ v, (k, v) ∈ l ∧ encryptSecret evp vMasterKeyIn v (env.hash k) = some c := by
  induction l generalizing ks with
  | nil => exact .inl h
  | cons p l ih =>
    obtain ⟨hk, hl⟩ := List.forall_mem_cons.mp hl
    rw [encryptEach_cons hc hk] at h
    split at h
    · exact .inl h
    · rename_i c' hc'
      have hsealed : (ks.sealKey env p.1 c').fUseCrypto = true := hc
      rcases ih hsealed hl h with hold | ⟨v, hv, henc⟩
      · rw [sealKey_get] at hold
        split at hold
        · rename_i heq
          cases hold
          subst heq
          exact .inr ⟨p.2, List.mem_cons_self, hc'⟩
        · exact .inl hold
      · exact .inr ⟨v, List.mem_cons_of_mem _ hv, henc⟩

theorem encryptEach_grows {k c : VchType} (hc : ks.fUseCrypto = true) (hl : ∀ p ∈ l, p.1 ≠ [])
    (h : ks.mapCryptedKeys[k]? = some c) :
    ∃ c', (encryptEach env evp vMasterKeyIn l ks).2.mapCryptedKeys[k]? = some c' := by
  induction l generalizing ks c with
  | nil => exact ⟨c, h⟩
  | cons p l ih =>
    obtain ⟨hk, hl⟩ := List.forall_mem_cons.mp hl
    rw [encryptEach_cons hc hk]
    split
    · exact ⟨c, h⟩
    · rename_i c' hc'
      have hsealed : (ks.sealKey env p.1 c').fUseCrypto = true := hc
      by_cases heq : p.1 = k
      · exact ih hsealed hl (by rw [sealKey_get, if_pos heq])
      · exact ih hsealed hl (by rw [sealKey_get, if_neg heq, h])

theorem encryptEach_stored (hc : ks.fUseCrypto = true) (hl : ∀ p ∈ l, p.1 ≠ [])
    (hok : (encryptEach env evp vMasterKeyIn l ks).1 = true) :
    ∀ p ∈ l, ∃ c, (encryptEach env evp vMasterKeyIn l ks).2.mapCryptedKeys[p.1]? = some c := by
  induction l generalizing ks with
  | nil => simp
  | cons q l ih =>
    obtain ⟨hk, hrest⟩ := List.forall_mem_cons.mp hl
    rw [encryptEach_cons hc hk] at hok ⊢
    split
    · rename_i hnone
      simp [hnone] at hok
    · rename_i c hsome
      have hsealed : (ks.sealKey env q.1 c).fUseCrypto = true := hc
      simp only [hsome] at hok
      intro p hp
      rcases List.mem_cons.mp hp with rfl | hp
      · exact encryptEach_grows hsealed hrest (by rw [sealKey_get, if_pos rfl])
      · exact ih hsealed hrest hok p hp

end EncryptEach

end CKeyStore

namespace Unsealed

variable {env : Env} {evp : Evp} {added : VchType → Option VchType} {ks : CKeyStore}

theorem addKey (h : Unsealed added ks) (hplain : ks.fUseCrypto = false) (key : CKey) :
    (ks.addKey env evp key).1 = true ∧
      Unsealed (Function.update added key.vchPubKey (some key.vchPrivKey))
        (ks.addKey env evp key).2 := by
  rw [CKeyStore.addKey, if_neg (by simp [hplain])]
  refine ⟨rfl, ?_, h.noCrypted, ?_, h.noMaster⟩
  · intro k
    change (ks.mapKeys.insert key.vchPubKey key.vchPrivKey)[k]? = _
    rw [keyMap_insert, Function.update_apply, h.keys]
    simp only [eq_comm]
  · rw [Function.update_of_ne key.hasPubKey.symm]
    exact h.noDummy

theorem encryptKeys {vMasterKeyIn : VchType} (h : Unsealed added ks)
    (hplain : ks.fUseCrypto = false) :
    (ks.encryptKeys env evp vMasterKeyIn).2.fUseCrypto = true ∧
      ((ks.encryptKeys env evp vMasterKeyIn).1 = true →
        Sealed env evp vMasterKeyIn added (ks.encryptKeys env evp vMasterKeyIn).2) := by
  have hempty : ks.mapCryptedKeys.isEmpty = true := by
    rw [← Bool.not_eq_false, TreeMap.isEmpty_eq_false_iff_exists_mem]
    rintro ⟨k, hk⟩
    rw [TreeMap.mem_iff_isSome_getElem?, h.noCrypted k] at hk
    cases hk
  have hl : ∀ p ∈ ks.mapKeys.toList, p.1 ≠ [] := by
    rintro ⟨k, v⟩ hp rfl
    rw [mem_toList, h.keys, h.noDummy] at hp
    cases hp
  rw [CKeyStore.encryptKeys, if_neg (by simp [hempty, hplain])]
  have hc : ({ ks with fUseCrypto := true } : CKeyStore).fUseCrypto = true := rfl
  dsimp only
  split
  · rename_i hok
    refine ⟨(CKeyStore.encryptEach_frame hc hl).1, fun _ => ?_⟩
    refine ⟨(CKeyStore.encryptEach_frame hc hl).1, ?_, ?_, h.noDummy, .inl ?_⟩
    · intro k c hk
      rcases CKeyStore.encryptEach_secret hc hl hk with hold | ⟨v, hv, henc⟩
      · rw [h.noCrypted k] at hold
        cases hold
      · exact ⟨v, by rw [← h.keys, ← mem_toList]; exact hv, henc⟩
    · intro k v hkv
      rw [← h.keys, ← mem_toList] at hkv
      exact CKeyStore.encryptEach_stored hc hl hok _ hkv
    · exact (CKeyStore.encryptEach_frame hc hl).2.trans h.noMaster
  · rename_i hok
    exact ⟨(CKeyStore.encryptEach_frame hc hl).1, fun hyes => absurd hyes hok⟩

end Unsealed

namespace Sealed

variable {env : Env} {evp : Evp} {vMasterKey : VchType} {added : VchType → Option VchType}
  {ks : CKeyStore}

theorem addKey (h : Sealed env evp vMasterKey added ks) (key : CKey) :
    Sealed env evp vMasterKey
      (if (ks.addKey env evp key).1 then
        Function.update added key.vchPubKey (some key.vchPrivKey) else added)
      (ks.addKey env evp key).2 := by
  rw [CKeyStore.addKey, if_pos h.crypted]
  split
  · exact h
  · rename_i hopen
    have hkey : ks.vMasterKey = vMasterKey := by
      refine h.master.resolve_left ?_
      intro hnil
      simp [CKeyStore.isLocked, h.crypted, hnil] at hopen
    split
    · exact h
    · rename_i c henc
      rw [hkey] at henc
      simp only [CKeyStore.addCryptedKey_of_crypted h.crypted, if_true]
      refine ⟨h.crypted, ?_, ?_, ?_, h.master⟩
      · intro k c' hk
        rw [CKeyStore.sealKey_get] at hk
        split at hk
        · rename_i heq
          cases hk
          subst heq
          exact ⟨key.vchPrivKey, Function.update_self _ _ _, henc⟩
        · rename_i hne
          obtain ⟨v, hv, henc'⟩ := h.secret k c' hk
          exact ⟨v, by rw [Function.update_of_ne (Ne.symm hne), hv], henc'⟩
      · intro k v hk
        rw [CKeyStore.sealKey_get]
        split
        · exact ⟨c, rfl⟩
        · rename_i hne
          rw [Function.update_of_ne (Ne.symm hne)] at hk
          exact h.stored k v hk
      · rw [Function.update_of_ne key.hasPubKey.symm]
        exact h.noDummy

theorem lock (h : Sealed env evp vMasterKey added ks) :
    Sealed env evp vMasterKey added ks.lock.2 := by
  rw [CKeyStore.lock, CKeyStore.setCrypted_of_crypted h.crypted, if_pos rfl]
  exact ⟨h.crypted, h.secret, h.stored, h.noDummy, .inl rfl⟩

theorem unlock_eq (h : Sealed env evp vMasterKey added ks) (vMasterKeyIn : VchType) :
    ks.unlock env evp vMasterKeyIn =
      match ks.mapCryptedKeys.toList with
      | [] => (true, { ks with vMasterKey := vMasterKeyIn })
      | p :: _ =>
        match decryptSecret evp vMasterKeyIn p.2 (env.hash p.1) with
        | none => (false, ks)
        | some _ => (true, { ks with vMasterKey := vMasterKeyIn }) := by
  rw [CKeyStore.unlock, CKeyStore.setCrypted_of_crypted h.crypted, if_pos rfl]
  cases ks.mapCryptedKeys.toList with
  | nil => rfl
  | cons p rest => rfl

theorem head_secret (h : Sealed env evp vMasterKey added ks) {p : VchType × VchType}
    {rest : List (VchType × VchType)} (hlist : ks.mapCryptedKeys.toList = p :: rest) :
    ∃ vchPrivKey, encryptSecret evp vMasterKey vchPrivKey (env.hash p.1) = some p.2 := by
  have hmem : (p.1, p.2) ∈ ks.mapCryptedKeys.toList := by
    rw [hlist]
    exact List.mem_cons_self
  rw [mem_toList] at hmem
  obtain ⟨v, -, henc⟩ := h.secret _ _ hmem
  exact ⟨v, henc⟩

theorem unlock_master (h : Sealed env evp vMasterKey added ks) (ideal : IdealEvp evp) :
    ks.unlock env evp vMasterKey = (true, { ks with vMasterKey := vMasterKey }) := by
  rw [h.unlock_eq]
  split
  · rfl
  · rename_i p rest hlist
    obtain ⟨v, henc⟩ := h.head_secret hlist
    rw [ideal.decryptSecret_same henc]

theorem unlock_other (h : Sealed env evp vMasterKey added ks) (ideal : IdealEvp evp)
    {vMasterKey' : VchType} (hne : vMasterKey' ≠ vMasterKey)
    (hkeys : ks.mapCryptedKeys.isEmpty = false) :
    ks.unlock env evp vMasterKey' = (false, ks) := by
  rw [h.unlock_eq]
  split
  · rename_i hlist
    rw [← TreeMap.isEmpty_toList, hlist] at hkeys
    cases hkeys
  · rename_i p rest hlist
    obtain ⟨v, henc⟩ := h.head_secret hlist
    rw [ideal.decryptSecret_other hne henc]

theorem unlock (h : Sealed env evp vMasterKey added ks) (ideal : IdealEvp evp)
    {vMasterKeyIn : VchType}
    (hguard : vMasterKeyIn = vMasterKey ∨ ks.mapCryptedKeys.isEmpty = false) :
    Sealed env evp vMasterKey added (ks.unlock env evp vMasterKeyIn).2 := by
  by_cases heq : vMasterKeyIn = vMasterKey
  · subst heq
    rw [h.unlock_master ideal]
    exact ⟨h.crypted, h.secret, h.stored, h.noDummy, .inr rfl⟩
  · rw [h.unlock_other ideal heq (hguard.resolve_left heq)]
    exact h

theorem usable {r : KeyRun} (h : Sealed env evp vMasterKey r.added r.ks) (ideal : IdealEvp evp) :
    r.Usable env evp vMasterKey where
  unlocks := by rw [h.unlock_master ideal]
  refuses := by
    rintro vMasterKey' hne ⟨k, -, hk⟩
    have hkeys := TreeMap.isEmpty_eq_false_iff_exists_mem.mpr ⟨k, hk⟩
    rw [h.unlock_other ideal hne hkeys]
  yields := by
    intro hopen k v hkv
    have hkey : r.ks.vMasterKey = vMasterKey := by
      refine h.master.resolve_left ?_
      intro hnil
      simp [CKeyStore.isLocked, h.crypted, hnil] at hopen
    obtain ⟨c, hc⟩ := h.stored k v hkv
    obtain ⟨v', hv', henc⟩ := h.secret k c hc
    cases hv'.symm.trans hkv
    rw [CKeyStore.getPrivKey, if_pos h.crypted, hc, hkey]
    exact ideal.decryptSecret_same henc

end Sealed

namespace KeyRun

variable {env : Env} {evp : Evp} {r : KeyRun}

def Ok (env : Env) (evp : Evp) (r : KeyRun) : Prop :=
  match r.master with
  | none => r.ks.fUseCrypto = false → Unsealed r.added r.ks
  | some vMasterKey => Sealed env evp vMasterKey r.added r.ks

theorem ok_start : start.Ok env evp :=
  fun _ => ⟨fun _ => TreeMap.getElem?_emptyc, fun _ => TreeMap.getElem?_emptyc, rfl, rfl⟩

theorem ok_of_setCrypted {ks ks' : CKeyStore} {added : VchType → Option VchType}
    (h : (KeyRun.mk ks added none).Ok env evp) (hcase : ks'.fUseCrypto = true ∨ ks' = ks) :
    (KeyRun.mk ks' added none).Ok env evp := by
  obtain hcrypt | rfl := hcase
  · intro hplain
    cases hcrypt.symm.trans hplain
  · exact h

theorem Ok.step {op : KeyOp} (ideal : IdealEvp evp) (h : r.Ok env evp) (hguard : r.Guarded op) :
    (r.step env evp op).Ok env evp := by
  obtain ⟨ks, added, master⟩ := r
  cases master with
  | none =>
    cases op with
    | addKey key =>
      intro hplain
      have hold : ks.fUseCrypto = false := (CKeyStore.addKey_fUseCrypto key ks).symm.trans hplain
      obtain ⟨hok, hadd⟩ := @Unsealed.addKey env evp _ _ (h hold) hold key
      simp only [KeyRun.step]
      rw [if_pos hok]
      exact hadd
    | addAddress hash160 => exact absurd hguard id
    | encryptKeys vMasterKeyIn =>
      simp only [KeyRun.step]
      cases hplain : ks.fUseCrypto with
      | true =>
        simp only [CKeyStore.encryptKeys_of_crypted hplain]
        exact h
      | false =>
        obtain ⟨hcrypt, hsealed⟩ := Unsealed.encryptKeys (h hplain) hplain
        split
        · rename_i hok
          exact hsealed hok
        · intro hplain'
          cases hcrypt.symm.trans hplain'
    | lock => exact ok_of_setCrypted h (CKeyStore.lock_cases ks)
    | unlock vMasterKeyIn => exact ok_of_setCrypted h (CKeyStore.unlock_cases vMasterKeyIn ks)
  | some vMasterKey =>
    cases op with
    | addKey key => exact Sealed.addKey h key
    | addAddress hash160 => exact absurd hguard id
    | encryptKeys vMasterKeyIn =>
      simp only [KeyRun.step, CKeyStore.encryptKeys_of_crypted (Sealed.crypted h)]
      exact h
    | lock => exact Sealed.lock h
    | unlock vMasterKeyIn => exact Sealed.unlock h ideal (hguard vMasterKey rfl)

def run (env : Env) (evp : Evp) (ops : List KeyOp) : KeyRun := ops.foldl (KeyRun.step env evp) start

def GuardedRun (env : Env) (evp : Evp) : List KeyOp → KeyRun → Prop
  | [], _ => True
  | op :: rest, r => r.Guarded op ∧ GuardedRun env evp rest (r.step env evp op)

theorem Ok.foldl {ops : List KeyOp} (ideal : IdealEvp evp) (h : r.Ok env evp)
    (hguard : GuardedRun env evp ops r) : (ops.foldl (KeyRun.step env evp) r).Ok env evp := by
  induction ops generalizing r with
  | nil => exact h
  | cons op rest ih => exact ih (h.step ideal hguard.1) hguard.2

theorem encrypted_wallet_usable (env : Env) {evp : Evp} (ideal : IdealEvp evp) {ops : List KeyOp}
    (hguard : GuardedRun env evp ops start) {vMasterKey : VchType}
    (hmaster : (run env evp ops).master = some vMasterKey) :
    (run env evp ops).Usable env evp vMasterKey := by
  have hok : (run env evp ops).Ok env evp := ok_start.foldl ideal hguard
  simp only [Ok, hmaster] at hok
  exact hok.usable ideal

theorem guarded_unlock {vMasterKey : VchType} (h : r.master = some vMasterKey) :
    r.Guarded (.unlock vMasterKey) :=
  fun _ h' => .inl (Option.some.inj (h.symm.trans h'))

end KeyRun

def sampleEvp : Evp where
  encrypt vMasterKey _ vchPlaintext := some (vMasterKey ++ vchPlaintext)
  decrypt vMasterKey _ c :=
    if c.take vMasterKey.length = vMasterKey then some (c.drop vMasterKey.length) else none

theorem sampleEvp_ideal : IdealEvp sampleEvp where
  same := by
    intro vMasterKey nIV p c hlen henc
    cases henc
    simp [sampleEvp]
  other := by
    intro vMasterKey vMasterKey' nIV p c hlen hlen' hne henc
    cases henc
    simp [sampleEvp, hlen', ← hlen, hne.symm]
  blank := by
    intro vMasterKey nIV hlen
    have hne : vMasterKey ≠ [] := by
      rintro rfl
      cases hlen
    simp [sampleEvp, hne.symm]

def sampleMaster : VchType := List.replicate 32 1

def firstKey : CKey := ⟨2 :: List.replicate 32 1, List.replicate 32 20, by decide⟩

def secondKey : CKey := ⟨3 :: List.replicate 32 1, List.replicate 32 30, by decide⟩

def sealedOps : List KeyOp :=
  [.addKey firstKey, .encryptKeys sampleMaster, .unlock sampleMaster, .addKey secondKey, .lock,
    .unlock sampleMaster]

def watchingOps : List KeyOp :=
  [.addKey firstKey, .encryptKeys sampleMaster, .addAddress uint160Null]

theorem sealedOps_usable :
    (KeyRun.run sampleEnv sampleEvp sealedOps).Usable sampleEnv sampleEvp sampleMaster ∧
      (KeyRun.run sampleEnv sampleEvp sealedOps).added secondKey.vchPubKey =
        some secondKey.vchPrivKey := by
  have hguard : KeyRun.GuardedRun sampleEnv sampleEvp sealedOps KeyRun.start := by
    refine ⟨trivial, trivial, ?_, trivial, trivial, ?_, trivial⟩
    · exact KeyRun.guarded_unlock (by decide +kernel)
    · exact KeyRun.guarded_unlock (by decide +kernel)
  exact ⟨KeyRun.encrypted_wallet_usable sampleEnv sampleEvp_ideal hguard (by decide +kernel),
    by decide +kernel⟩

theorem watchingOps_locked_out :
    ¬∀ (env : Env) (evp : Evp), IdealEvp evp → ∀ (ops : List KeyOp) (vMasterKey : VchType),
      (KeyRun.run env evp ops).master = some vMasterKey →
        (KeyRun.run env evp ops).Usable env evp vMasterKey := by
  intro h
  have husable := h sampleEnv sampleEvp sampleEvp_ideal watchingOps sampleMaster (by decide +kernel)
  have hfail : ((KeyRun.run sampleEnv sampleEvp watchingOps).ks.unlock sampleEnv sampleEvp
    sampleMaster).1 = false := by decide +kernel
  cases hfail.symm.trans husable.unlocks

end Namecoin
