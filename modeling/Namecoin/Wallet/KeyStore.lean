import Namecoin.Wallet.Solver

namespace Namecoin

open Std (TreeMap)

structure CKey where
  vchPubKey : VchType
  vchPrivKey : VchType
  hasPubKey : vchPubKey ≠ []

abbrev KeyMap := TreeMap VchType VchType

structure Evp where
  encrypt : VchType → Uint256 → VchType → Option VchType
  decrypt : VchType → Uint256 → VchType → Option VchType

def walletCryptoKeySize : Nat := 32

def encryptSecret (evp : Evp) (vMasterKey vchPlaintext : VchType) (nIV : Uint256) :
    Option VchType :=
  if vMasterKey.length ≠ walletCryptoKeySize then none
  else evp.encrypt vMasterKey nIV vchPlaintext

def decryptSecret (evp : Evp) (vMasterKey vchCiphertext : VchType) (nIV : Uint256) :
    Option VchType :=
  if vMasterKey.length ≠ walletCryptoKeySize then none
  else evp.decrypt vMasterKey nIV vchCiphertext

structure CKeyStore where
  mapKeys : KeyMap
  mapCryptedKeys : KeyMap
  vMasterKey : VchType
  fUseCrypto : Bool
  mapPubKeys : Uint160 → Option VchType

namespace CKeyStore

def empty : CKeyStore := ⟨∅, ∅, [], false, fun _ => none⟩

def isLocked (ks : CKeyStore) : Bool := ks.fUseCrypto && ks.vMasterKey.isEmpty

def haveKey (ks : CKeyStore) (vchPubKey : VchType) : Bool :=
  if ks.fUseCrypto then ks.mapCryptedKeys.contains vchPubKey else ks.mapKeys.contains vchPubKey

def putPubKey (hash160 : Uint160) (vchPubKey : VchType) (ks : CKeyStore) : CKeyStore :=
  { ks with mapPubKeys := Function.update ks.mapPubKeys hash160 (some vchPubKey) }

def setCrypted (ks : CKeyStore) : Bool × CKeyStore :=
  if ks.fUseCrypto then (true, ks)
  else
    match ks.mapKeys.toList with
    | [] => (true, { ks with fUseCrypto := true })
    | [(vchPubKey, vchPrivKey)] =>
      if vchPubKey = [] ∧ vchPrivKey = [] then
        (true, { ks with
          mapKeys := ks.mapKeys.erase []
          mapCryptedKeys := ks.mapCryptedKeys.insert [] []
          fUseCrypto := true })
      else (false, ks)
    | _ => (false, ks)

def addCryptedKey (env : Env) (vchPubKey vchCryptedSecret : VchType) (ks : CKeyStore) :
    Bool × CKeyStore :=
  let r := ks.setCrypted
  if r.1 then
    (true, ({ r.2 with
      mapCryptedKeys := r.2.mapCryptedKeys.insert vchPubKey vchCryptedSecret }).putPubKey
        (env.hash160 vchPubKey) vchPubKey)
  else r

def addKey (env : Env) (evp : Evp) (key : CKey) (ks : CKeyStore) : Bool × CKeyStore :=
  if ks.fUseCrypto then
    if ks.isLocked then (false, ks)
    else
      match encryptSecret evp ks.vMasterKey key.vchPrivKey (env.hash key.vchPubKey) with
      | none => (false, ks)
      | some vchCryptedSecret => ks.addCryptedKey env key.vchPubKey vchCryptedSecret
  else
    (true, ({ ks with
      mapKeys := ks.mapKeys.insert key.vchPubKey key.vchPrivKey }).putPubKey
        (env.hash160 key.vchPubKey) key.vchPubKey)

def addAddress (hash160 : Uint160) (ks : CKeyStore) : CKeyStore :=
  let ks := ks.putPubKey hash160 []
  if ks.fUseCrypto then { ks with mapCryptedKeys := ks.mapCryptedKeys.insert [] [] }
  else { ks with mapKeys := ks.mapKeys.insert [] [] }

def getPrivKey (env : Env) (evp : Evp) (vchPubKey : VchType) (ks : CKeyStore) : Option VchType :=
  if ks.fUseCrypto then
    match ks.mapCryptedKeys[vchPubKey]? with
    | none => none
    | some vchCryptedSecret =>
      decryptSecret evp ks.vMasterKey vchCryptedSecret (env.hash vchPubKey)
  else ks.mapKeys[vchPubKey]?

def lock (ks : CKeyStore) : Bool × CKeyStore :=
  let r := ks.setCrypted
  if r.1 then (true, { r.2 with vMasterKey := [] }) else r

def unlock (env : Env) (evp : Evp) (vMasterKeyIn : VchType) (ks : CKeyStore) : Bool × CKeyStore :=
  let r := ks.setCrypted
  if r.1 then
    match r.2.mapCryptedKeys.toList with
    | [] => (true, { r.2 with vMasterKey := vMasterKeyIn })
    | (vchPubKey, vchCryptedSecret) :: _ =>
      match decryptSecret evp vMasterKeyIn vchCryptedSecret (env.hash vchPubKey) with
      | none => (false, r.2)
      | some _ => (true, { r.2 with vMasterKey := vMasterKeyIn })
  else r

def encryptEach (env : Env) (evp : Evp) (vMasterKeyIn : VchType) :
    List (VchType × VchType) → CKeyStore → Bool × CKeyStore
  | [], ks => (true, ks)
  | (vchPubKey, vchPrivKey) :: rest, ks =>
    let vchCryptedSecret :=
      if vchPubKey = [] then some []
      else encryptSecret evp vMasterKeyIn vchPrivKey (env.hash vchPubKey)
    match vchCryptedSecret with
    | none => (false, ks)
    | some c =>
      let r := ks.addCryptedKey env vchPubKey c
      if r.1 then encryptEach env evp vMasterKeyIn rest r.2 else r

def encryptKeys (env : Env) (evp : Evp) (vMasterKeyIn : VchType) (ks : CKeyStore) :
    Bool × CKeyStore :=
  if ks.mapCryptedKeys.isEmpty = false ∨ ks.fUseCrypto then (false, ks)
  else
    let r := encryptEach env evp vMasterKeyIn ks.mapKeys.toList { ks with fUseCrypto := true }
    if r.1 then (true, { r.2 with mapKeys := ∅ }) else r

variable (env : Env) (ks : CKeyStore)

def watches (hash160 : Uint160) : Bool :=
  match ks.mapPubKeys hash160 with
  | none => false
  | some vchPubKey => ks.haveKey vchPubKey

def solveItems (signature : VchType → Option VchType) (hash : Uint256) :
    Solution → CScript → Bool × CScript
  | [], scriptSig => (true, scriptSig)
  | (opcode, vch) :: rest, scriptSig =>
    if opcode = opPubkey then
      if hash = 0 then (ks.haveKey vch || ks.watches (env.hash160 vch), scriptSig)
      else
        match signature vch with
        | none => (false, scriptSig)
        | some vchSig => solveItems signature hash rest (scriptSig ++ pushData vchSig)
    else if opcode = opPubkeyhash then
      match ks.mapPubKeys (uint160 vch) with
      | none => (false, scriptSig)
      | some vchPubKey =>
        if hash = 0 then (ks.haveKey vchPubKey, scriptSig)
        else
          match signature vchPubKey with
          | none => (false, scriptSig)
          | some vchSig =>
            solveItems signature hash rest (scriptSig ++ pushData vchSig ++ pushData vchPubKey)
    else (false, scriptSig)

def solve (signature : VchType → Option VchType) (scriptPubKey : CScript) (hash : Uint256) :
    Bool × CScript :=
  match solver scriptPubKey with
  | none => (false, [])
  | some vSolution => solveItems env ks signature hash vSolution []

def isMine (scriptPubKey : CScript) : Bool := (solve env ks (fun _ => none) scriptPubKey 0).1

def ownPubKey (item : Nat × VchType) : Option VchType :=
  let vchPubKey :=
    if item.1 = opPubkey then some item.2
    else if item.1 = opPubkeyhash then ks.mapPubKeys (uint160 item.2)
    else none
  vchPubKey.filter ks.haveKey

def extractPubKey (scriptPubKey : CScript) : Option VchType :=
  (solver scriptPubKey).bind (fun vSolution => vSolution.findSome? ks.ownPubKey)

def isSpendable (scriptPubKey : CScript) : Bool :=
  isMine env ks scriptPubKey &&
    match ks.extractPubKey scriptPubKey with
    | none => false
    | some vchPubKey => !vchPubKey.isEmpty

variable {env ks}

theorem isMine_of_solver_none {script : CScript} (h : solver script = none) :
    isMine env ks script = false := by
  simp only [isMine, solve, h]

theorem isSpendable_of_solver_none {script : CScript} (h : solver script = none) :
    isSpendable env ks script = false := by
  simp only [isSpendable, isMine_of_solver_none h, Bool.false_and]

end CKeyStore

end Namecoin
