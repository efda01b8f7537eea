import Namecoin.Wallet.Encrypted

namespace Namecoin

open Std (TreeMap)

-- Every call brings its own Evp: whether a key can be encrypted may differ from call to call.
inductive StoreOp where
  | addKey (evp : Evp) (key : CKey)
  | addAddress (hash160 : Uint160)
  | addCryptedKey (vchPubKey vchCryptedSecret : VchType)
  | setCrypted
  | lock
  | unlock (evp : Evp) (vMasterKeyIn : VchType)
  | encryptKeys (evp : Evp) (vMasterKeyIn : VchType)

namespace CKeyStore

structure StoreInv (ks : CKeyStore) : Prop where
  crypted : ks.fUseCrypto = true → ks.mapKeys.isEmpty = true
  plain : ks.fUseCrypto = false → ks.vMasterKey = [] ∧ ks.mapCryptedKeys.isEmpty = true

structure Unchanged (ks ks' : CKeyStore) : Prop where
  mapKeys : ks'.mapKeys = ks.mapKeys
  mapCryptedKeys : ks'.mapCryptedKeys = ks.mapCryptedKeys
  mapPubKeys : ks'.mapPubKeys = ks.mapPubKeys
  fUseCrypto : ks'.fUseCrypto = ks.fUseCrypto

theorem Unchanged.refl (ks : CKeyStore) : ks.Unchanged ks := ⟨rfl, rfl, rfl, rfl⟩

variable (env : Env)

def storeStep (ks : CKeyStore) : StoreOp → Bool × CKeyStore
  | .addKey evp key => ks.addKey env evp key
  | .addAddress hash160 => (true, ks.addAddress hash160)
  | .addCryptedKey vchPubKey vchCryptedSecret => ks.addCryptedKey env vchPubKey vchCryptedSecret
  | .setCrypted => ks.setCrypted
  | .lock => ks.lock
  | .unlock evp vMasterKeyIn => ks.unlock env evp vMasterKeyIn
  | .encryptKeys evp vMasterKeyIn => ks.encryptKeys env evp vMasterKeyIn

def Keeps : List StoreOp → CKeyStore → Prop
  | [], ks => ks.StoreInv
  | op :: ops, ks =>
    ks.StoreInv ∧ ((ks.storeStep env op).1 = false → ks.Unchanged (ks.storeStep env op).2) ∧
      Keeps ops (ks.storeStep env op).2

-- What must not happen on a store that is not encrypted yet: a key other than the watch-only
-- dummy that cannot be encrypted, and an unlock that meets the dummy alone and cannot decrypt it.
def Undisturbed (ks : CKeyStore) : StoreOp → Prop
  | .encryptKeys evp vMasterKeyIn => ks.fUseCrypto = false →
      ∀ p ∈ ks.mapKeys.toList, p.1 ≠ [] →
        encryptSecret evp vMasterKeyIn p.2 (env.hash p.1) ≠ none
  | .unlock evp vMasterKeyIn => ks.fUseCrypto = false → ks.mapKeys.toList = [([], [])] →
      decryptSecret evp vMasterKeyIn [] (env.hash []) ≠ none
  | _ => True

def UndisturbedRun : List StoreOp → CKeyStore → Prop
  | [], _ => True
  | op :: ops, ks => ks.Undisturbed env op ∧ UndisturbedRun ops (ks.storeStep env op).2

variable {env} {evp : Evp} {ks : CKeyStore}

theorem storeInv_empty : empty.StoreInv := ⟨nofun, fun _ => ⟨rfl, rfl⟩⟩

theorem isEmpty_of_toList {m : KeyMap} (h : m.toList = []) : m.isEmpty = true := by
  rw [TreeMap.isEmpty_iff_forall_not_mem]
  intro k hk
  have hmem := (mem_toList m k _).mpr (TreeMap.getElem?_eq_some_getElem hk)
  rw [h] at hmem
  cases hmem

theorem isEmpty_erase {m : KeyMap} {v : VchType} (h : m.toList = [([], v)]) :
    (m.erase []).isEmpty = true := by
  rw [TreeMap.isEmpty_iff_forall_not_mem]
  intro k hk
  obtain ⟨hne, hk⟩ := TreeMap.mem_erase.mp hk
  have hmem := (mem_toList m k _).mpr (TreeMap.getElem?_eq_some_getElem hk)
  rw [h, List.mem_singleton, Prod.mk.injEq] at hmem
  rw [hmem.1] at hne
  exact hne Std.ReflCmp.compare_self

theorem setCrypted_inv (h : ks.StoreInv) : ks.setCrypted.2.StoreInv := by
  unfold setCrypted
  split
  · exact h
  · split
    · next hnil => exact ⟨fun _ => isEmpty_of_toList hnil, nofun⟩
    · next vchPubKey vchPrivKey hone =>
      split
      · next hdummy =>
        rw [hdummy.1] at hone
        exact ⟨fun _ => isEmpty_erase hone, nofun⟩
      · exact h
    · exact h

theorem setCrypted_fails (h : ks.setCrypted.1 = false) : ks.setCrypted.2 = ks := by
  rcases setCrypted_cases ks with hok | hfail
  · rw [hok.1] at h
    cases h
  · rw [hfail]

theorem addCryptedKey_inv (h : ks.StoreInv) (vchPubKey c : VchType) :
    (ks.addCryptedKey env vchPubKey c).2.StoreInv := by
  have hinv := setCrypted_inv h
  unfold addCryptedKey
  rcases setCrypted_cases ks with hok | hfail
  · rw [if_pos hok.1]
    exact ⟨fun _ => hinv.crypted hok.2, fun hplain => absurd (hok.2.symm.trans hplain) (by decide)⟩
  · rw [hfail]
    exact h

theorem addCryptedKey_fails {vchPubKey c : VchType}
    (h : (ks.addCryptedKey env vchPubKey c).1 = false) :
    (ks.addCryptedKey env vchPubKey c).2 = ks := by
  unfold addCryptedKey at h ⊢
  rcases setCrypted_cases ks with hok | hfail
  · rw [if_pos hok.1] at h
    cases h
  · rw [hfail]
    rfl

theorem addKey_inv (h : ks.StoreInv) (key : CKey) : (ks.addKey env evp key).2.StoreInv := by
  unfold addKey
  split
  · split
    · exact h
    · split
      · exact h
      · exact addCryptedKey_inv h _ _
  · next hplain => exact ⟨fun hc => absurd hc hplain, h.plain⟩

theorem addKey_fails {key : CKey} (h : (ks.addKey env evp key).1 = false) :
    (ks.addKey env evp key).2 = ks := by
  unfold addKey at h ⊢
  split at h
  · next hc =>
    rw [if_pos hc]
    split at h
    · next hlocked => rw [if_pos hlocked]
    · next hlocked =>
      rw [if_neg hlocked]
      split at h
      · rfl
      · exact addCryptedKey_fails h
  · cases h

theorem addAddress_inv (h : ks.StoreInv) (hash160 : Uint160) : (ks.addAddress hash160).StoreInv := by
  unfold addAddress
  dsimp only
  split
  · next hc => exact ⟨fun _ => h.crypted hc, fun hplain => absurd (hc.symm.trans hplain) (by decide)⟩
  · next hplain => exact ⟨fun hc => absurd hc hplain, h.plain⟩

theorem lock_inv (h : ks.StoreInv) : ks.lock.2.StoreInv := by
  have hinv := setCrypted_inv h
  unfold lock
  rcases setCrypted_cases ks with hok | hfail
  · rw [if_pos hok.1]
    exact ⟨hinv.crypted, fun hplain => absurd (hok.2.symm.trans hplain) (by decide)⟩
  · rw [hfail]
    exact h

theorem lock_fails (h : ks.lock.1 = false) : ks.lock.2 = ks := by
  unfold lock at h ⊢
  rcases setCrypted_cases ks with hok | hfail
  · rw [if_pos hok.1] at h
    cases h
  · rw [hfail]
    rfl

section Unlock

variable {vMasterKeyIn : VchType}

theorem unlock_inv (h : ks.StoreInv) : (ks.unlock env evp vMasterKeyIn).2.StoreInv := by
  have hinv := setCrypted_inv h
  unfold unlock
  rcases setCrypted_cases ks with hok | hfail
  · have hkeyed : { ks.setCrypted.2 with vMasterKey := vMasterKeyIn }.StoreInv :=
      ⟨hinv.crypted, fun hplain => absurd (hok.2.symm.trans hplain) (by decide)⟩
    rw [if_pos hok.1]
    split
    · exact hkeyed
    · split
      · exact hinv
      · exact hkeyed
  · rw [hfail]
    exact h

theorem insert_toList {m : KeyMap} (h : m.isEmpty = true) :
    ∃ rest, (m.insert [] []).toList = (([] : VchType), ([] : VchType)) :: rest := by
  have hget : ∀ k v : VchType, (k, v) ∈ (m.insert [] []).toList ↔ [] = k ∧ [] = v := by
    intro k v
    rw [mem_toList, keyMap_insert]
    split
    · next hk => simp [hk]
    · next hk =>
      have hnone : m[k]? = none := by
        rw [TreeMap.getElem?_eq_none]
        exact TreeMap.isEmpty_iff_forall_not_mem.mp h k
      simp [hk, hnone]
  cases hlist : (m.insert [] []).toList with
  | nil =>
    have hmem := (hget [] []).mpr ⟨rfl, rfl⟩
    rw [hlist] at hmem
    cases hmem
  | cons p rest =>
    obtain ⟨hk, hv⟩ := (hget p.1 p.2).mp (hlist ▸ List.mem_cons_self)
    exact ⟨rest, congrArg (· :: rest) (Prod.ext hk.symm hv.symm)⟩

-- An unlock of a plain store either finds SetCrypted refusing it, or has the dummy to decrypt.
theorem unlock_plain (env : Env) (evp : Evp) (vMasterKeyIn : VchType) (h : ks.StoreInv) (hplain : ks.fUseCrypto = false) :
    ks.mapKeys.toList = [] ∧ (ks.unlock env evp vMasterKeyIn).1 = true ∨
      ks.mapKeys.toList = [([], [])] ∧
        (ks.unlock env evp vMasterKeyIn).2.fUseCrypto = true ∧
        ((ks.unlock env evp vMasterKeyIn).1 = false ↔
          decryptSecret evp vMasterKeyIn [] (env.hash []) = none) ∨
      ks.mapKeys.toList ≠ [([], [])] ∧ ks.unlock env evp vMasterKeyIn = (false, ks) := by
  have hempty := (h.plain hplain).2
  unfold unlock setCrypted
  rw [hplain]
  simp only [Bool.false_eq_true, if_false]
  split
  · next hnil =>
    refine .inl ⟨hnil, ?_⟩
    have hlist : ks.mapCryptedKeys.toList = [] := by
      rw [List.eq_nil_iff_forall_not_mem]
      intro p hp
      have hget := (mem_toList ks.mapCryptedKeys p.1 p.2).mp hp
      exact TreeMap.isEmpty_iff_forall_not_mem.mp hempty p.1 (TreeMap.mem_iff_isSome_getElem?.mpr
        (by rw [hget]; rfl))
    rw [if_pos rfl, hlist]
  · next vchPubKey vchPrivKey hone =>
    split
    · next hdummy =>
      obtain ⟨rfl, rfl⟩ := hdummy
      obtain ⟨rest, hlist⟩ := insert_toList hempty
      refine .inr (.inl ⟨hone, ?_⟩)
      rw [if_pos rfl, hlist]
      dsimp only
      cases decryptSecret evp vMasterKeyIn [] (env.hash []) with
      | none => exact ⟨rfl, by simp⟩
      | some vchSecret => exact ⟨rfl, by simp⟩
    · next hdummy =>
      refine .inr (.inr ⟨?_, rfl⟩)
      rw [hone]
      intro heq
      simp only [List.cons.injEq, Prod.mk.injEq, and_true] at heq
      exact hdummy heq
  · next hne hone =>
    exact .inr (.inr ⟨fun heq => hone [] [] heq, rfl⟩)

end Unlock

section EncryptKeys

variable {vMasterKeyIn : VchType}

theorem encryptEach_iff (env : Env) (evp : Evp) (vMasterKeyIn : VchType)
    (l : List (VchType × VchType)) {ks : CKeyStore} (hc : ks.fUseCrypto = true) :
    (encryptEach env evp vMasterKeyIn l ks).2.fUseCrypto = true ∧
      ((encryptEach env evp vMasterKeyIn l ks).1 = true ↔
        ∀ p ∈ l, p.1 ≠ [] → encryptSecret evp vMasterKeyIn p.2 (env.hash p.1) ≠ none) := by
  induction l generalizing ks with
  | nil => exact ⟨hc, by simp [encryptEach]⟩
  | cons p rest ih =>
    obtain ⟨k, v⟩ := p
    rw [encryptEach]
    by_cases hk : k = []
    · have hsealed : (ks.sealKey env k []).fUseCrypto = true := hc
      obtain ⟨hcrypt, hiff⟩ := ih hsealed
      simp only [if_pos hk, addCryptedKey_of_crypted hc, if_true]
      refine ⟨hcrypt, hiff.trans ?_⟩
      rw [List.forall_mem_cons]
      exact ⟨fun h => ⟨fun hne => absurd hk hne, h⟩, fun h => h.2⟩
    · simp only [if_neg hk]
      cases henc : encryptSecret evp vMasterKeyIn v (env.hash k) with
      | none =>
        refine ⟨hc, iff_of_false Bool.false_ne_true (fun h => ?_)⟩
        exact h (k, v) List.mem_cons_self hk henc
      | some c =>
        have hsealed : (ks.sealKey env k c).fUseCrypto = true := hc
        obtain ⟨hcrypt, hiff⟩ := ih hsealed
        simp only [addCryptedKey_of_crypted hc, if_true]
        refine ⟨hcrypt, hiff.trans ?_⟩
        rw [List.forall_mem_cons]
        exact ⟨fun h => ⟨fun _ hnone => by simp [henc] at hnone, h⟩, fun h => h.2⟩

theorem encryptKeys_plain (env : Env) (evp : Evp) (vMasterKeyIn : VchType) (h : ks.StoreInv) (hplain : ks.fUseCrypto = false) :
    (ks.encryptKeys env evp vMasterKeyIn).2.fUseCrypto = true ∧
      ((ks.encryptKeys env evp vMasterKeyIn).1 = true ↔
        ∀ p ∈ ks.mapKeys.toList, p.1 ≠ [] →
          encryptSecret evp vMasterKeyIn p.2 (env.hash p.1) ≠ none) ∧
      ((ks.encryptKeys env evp vMasterKeyIn).1 = true →
        (ks.encryptKeys env evp vMasterKeyIn).2.mapKeys = ∅) := by
  obtain ⟨hcrypt, hiff⟩ := @encryptEach_iff env evp vMasterKeyIn ks.mapKeys.toList
    { ks with fUseCrypto := true } rfl
  have hopen : ¬(ks.mapCryptedKeys.isEmpty = false ∨ ks.fUseCrypto = true) := by
    rw [(h.plain hplain).2, hplain]
    decide
  unfold encryptKeys
  rw [if_neg hopen]
  dsimp only
  split
  · next hok => exact ⟨hcrypt, iff_of_true rfl (hiff.mp hok), fun _ => rfl⟩
  · next hfail => exact ⟨hcrypt, hiff, fun hok => absurd hok hfail⟩

end EncryptKeys

theorem storeStep_inv {op : StoreOp} (h : ks.StoreInv) (hu : ks.Undisturbed env op) :
    (ks.storeStep env op).2.StoreInv := by
  cases op with
  | addKey evp key => exact addKey_inv h key
  | addAddress hash160 => exact addAddress_inv h hash160
  | addCryptedKey vchPubKey c => exact addCryptedKey_inv h vchPubKey c
  | setCrypted => exact setCrypted_inv h
  | lock => exact lock_inv h
  | unlock evp vMasterKeyIn => exact unlock_inv h
  | encryptKeys evp vMasterKeyIn =>
    rw [storeStep]
    cases hc : ks.fUseCrypto with
    | true =>
      rw [encryptKeys_of_crypted hc]
      exact h
    | false =>
      obtain ⟨hcrypt, hiff, hclear⟩ := encryptKeys_plain env evp vMasterKeyIn h hc
      refine ⟨fun _ => ?_, fun hplain => absurd (hcrypt.symm.trans hplain) (by decide)⟩
      rw [hclear (hiff.mpr (hu hc))]
      rfl

theorem storeStep_unchanged {op : StoreOp} (h : ks.StoreInv) (hu : ks.Undisturbed env op)
    (hfail : (ks.storeStep env op).1 = false) : ks.Unchanged (ks.storeStep env op).2 := by
  have hsame : (ks.storeStep env op).2 = ks := by
    cases op with
    | addKey evp key => exact addKey_fails hfail
    | addAddress hash160 => cases hfail
    | addCryptedKey vchPubKey c => exact addCryptedKey_fails hfail
    | setCrypted => exact setCrypted_fails hfail
    | lock => exact lock_fails hfail
    | unlock evp vMasterKeyIn =>
      rw [storeStep] at hfail ⊢
      cases hc : ks.fUseCrypto with
      | true =>
        unfold unlock at hfail ⊢
        rw [setCrypted_of_crypted hc, if_pos rfl] at hfail ⊢
        split at hfail
        · cases hfail
        · split at hfail
          · rfl
          · cases hfail
      | false =>
        rcases unlock_plain env evp vMasterKeyIn h hc with
          ⟨-, hok⟩ | ⟨hdummy, -, hiff⟩ | ⟨-, hsame⟩
        · rw [hok] at hfail
          cases hfail
        · exact absurd (hiff.mp hfail) (hu hc hdummy)
        · rw [hsame]
    | encryptKeys evp vMasterKeyIn =>
      rw [storeStep] at hfail ⊢
      cases hc : ks.fUseCrypto with
      | true => rw [encryptKeys_of_crypted hc]
      | false =>
        rw [((encryptKeys_plain env evp vMasterKeyIn h hc).2.1).mpr (hu hc)] at hfail
        cases hfail
  rw [hsame]
  exact Unchanged.refl ks

theorem storeStep_disturbed {op : StoreOp} (h : ks.StoreInv) (hu : ¬ks.Undisturbed env op) :
    (ks.storeStep env op).1 = false ∧ ¬ks.Unchanged (ks.storeStep env op).2 := by
  cases op with
  | unlock evp vMasterKeyIn =>
    simp only [Undisturbed, Classical.not_imp, not_not] at hu
    obtain ⟨hplain, hdummy, hdecrypt⟩ := hu
    rcases unlock_plain env evp vMasterKeyIn h hplain with
      ⟨hnil, -⟩ | ⟨-, hcrypt, hiff⟩ | ⟨hne, -⟩
    · rw [hnil] at hdummy
      cases hdummy
    · exact ⟨hiff.mpr hdecrypt, fun hsame =>
        absurd (hcrypt.symm.trans (hsame.fUseCrypto.trans hplain)) (by decide)⟩
    · exact absurd hdummy hne
  | encryptKeys evp vMasterKeyIn =>
    simp only [Undisturbed, Classical.not_imp] at hu
    obtain ⟨hplain, hall⟩ := hu
    obtain ⟨hcrypt, hiff, -⟩ := encryptKeys_plain env evp vMasterKeyIn h hplain
    exact ⟨Bool.eq_false_iff.mpr (fun hok => hall (hiff.mp hok)), fun hsame =>
      absurd (hcrypt.symm.trans (hsame.fUseCrypto.trans hplain)) (by decide)⟩
  | _ => exact absurd trivial hu

theorem Keeps.inv {ops : List StoreOp} (h : Keeps env ops ks) : ks.StoreInv := by
  cases ops with
  | nil => exact h
  | cons op ops => exact h.1

theorem keeps_iff {ops : List StoreOp} (h : ks.StoreInv) :
    Keeps env ops ks ↔ UndisturbedRun env ops ks := by
  induction ops generalizing ks with
  | nil => exact iff_of_true h trivial
  | cons op ops ih =>
    constructor
    · rintro ⟨-, hfails, hrest⟩
      refine ⟨?_, (ih hrest.inv).mp hrest⟩
      by_contra hu
      obtain ⟨hfail, hchanged⟩ := storeStep_disturbed h hu
      exact hchanged (hfails hfail)
    · rintro ⟨hu, hrest⟩
      exact ⟨h, storeStep_unchanged h hu, (ih (storeStep_inv h hu)).mpr hrest⟩

theorem keyStore_keeps (env : Env) (ops : List StoreOp) :
    Keeps env ops empty ↔ UndisturbedRun env ops empty := keeps_iff storeInv_empty

def brokenEvp : Evp := ⟨fun _ _ _ => none, fun _ _ _ => none⟩

def brokenOps : List StoreOp := [.addKey brokenEvp firstKey, .encryptKeys brokenEvp sampleMaster]

theorem keyStore_mixed : ¬∀ (env : Env) (ops : List StoreOp), Keeps env ops empty := by
  intro h
  obtain ⟨-, -, -, -, hinv⟩ := h sampleEnv brokenOps
  have hkeys := hinv.crypted (by decide +kernel)
  exact absurd hkeys (by decide +kernel)

end CKeyStore

end Namecoin
