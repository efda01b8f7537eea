import Namecoin.Wallet.Accounts

namespace Namecoin

open Std (TreeMap)

namespace WalletTx

def ofTx (tx : CTransaction) : WalletTx where
  merkle := ⟨tx, 0, [], -1⟩
  nTimeReceived := 0
  fFromMe := false
  vfSpent := []
  fMerkleVerified := false
  vtxPrev := []
  strFromAccount := []
  nDebitCached := none
  nDebitInclNameCached := none
  nCreditCached := none
  nAvailableCreditCached := none

def setSpent (wtx : WalletTx) (vfSpent : List Bool) : WalletTx :=
  { wtx with
    vfSpent := vfSpent
    nAvailableCreditCached := none }

def markSpent (wtx : WalletTx) (nOut : Nat) : Except Fault WalletTx :=
  let n := wtx.merkle.tx.vout.length
  if n ≤ nOut then .error (.exception "CWalletTx::MarkSpent() : nOut out of range")
  else
    let vfSpent := (wtx.vfSpent ++ List.replicate n false).take n
    if (vfSpent[nOut]?).getD false then .ok { wtx with vfSpent := vfSpent }
    else .ok (wtx.setSpent (vfSpent.set nOut true))

def markDirty (wtx : WalletTx) : WalletTx :=
  { wtx with
    nDebitCached := none
    nDebitInclNameCached := none
    nCreditCached := none
    nAvailableCreditCached := none }

def merge (wtx wtxIn : WalletTx) : WalletTx :=
  let merged := CWallet.mergeTx wtx.toCWalletTx wtxIn.toCWalletTx
  { wtx with
    toCWalletTx := merged
    nAvailableCreditCached :=
      if merged.vfSpent = wtx.vfSpent then wtx.nAvailableCreditCached else none }

end WalletTx

namespace Wallet

section Caches

variable {env : Env} (w : Wallet env) (e : NodeEnv) (s : NodeState)

def fillDebit (wtx : WalletTx) : Except Fault WalletTx :=
  if wtx.merkle.tx.vin = [] then .ok wtx
  else (w.getDebit wtx).map (fun nDebit => { wtx with nDebitCached := some nDebit })

def fillDebitInclName (wtx : WalletTx) : Except Fault WalletTx :=
  if wtx.merkle.tx.vin = [] then .ok wtx
  else (w.getDebitInclName wtx).map (fun nDebit => { wtx with nDebitInclNameCached := some nDebit })

def fillCredit (wtx : WalletTx) : Except Fault WalletTx :=
  if wtx.merkle.tx.isCoinBase ∧ 0 < wtx.getBlocksToMaturity e s then .ok wtx
  else (w.getCredit e s wtx).map (fun nCredit => { wtx with nCreditCached := some nCredit })

def fillAvailableCredit (wtx : WalletTx) : Except Fault WalletTx :=
  if wtx.merkle.tx.isCoinBase ∧ 0 < wtx.getBlocksToMaturity e s then .ok wtx
  else
    (w.getAvailableCredit e s wtx).map
      (fun nCredit => { wtx with nAvailableCreditCached := some nCredit })

end Caches

section Add

variable {env : Env} (e : NodeEnv) (s : NodeState)

def walletUpdateSpent : List CTxIn → Wallet env → Except Fault (Wallet env)
  | [], w => .ok w
  | txin :: rest, w =>
    match w.mapWallet[txin.prevout.hash]? with
    | none => walletUpdateSpent rest w
    | some wtx => do
      let spent ← wtx.isSpent txin.prevout.n
      let mine := ((wtx.merkle.tx.vout[txin.prevout.n]?).map w.toCWallet.isMineTxOut).getD false
      if !spent && mine then
        -- the log line prints GetCredit, which fills its cache
        let wtx ← w.fillCredit e s wtx
        let wtx ← wtx.markSpent txin.prevout.n
        walletUpdateSpent rest (w.putTx wtx)
      else walletUpdateSpent rest w

def addToWallet (wtxIn : WalletTx) (w : Wallet env) : Except Fault (Wallet env) :=
  let wtx := match w.mapWallet[wtxIn.merkle.tx.getHash env]? with
    | none => { wtxIn with nTimeReceived := e.nNow }
    | some old => old.merge wtxIn
  walletUpdateSpent e s wtx.merkle.tx.vin (w.putTx wtx)

def markInputs : List CTxIn → Wallet env → Except Fault (Wallet env)
  | [], w => .ok w
  | txin :: rest, w =>
    match w.mapWallet[txin.prevout.hash]? with
    -- operator[] inserts an empty transaction, whose MarkSpent throws
    | none => .error (.exception "CWalletTx::MarkSpent() : nOut out of range")
    | some coin => do
      let coin ← coin.markSpent txin.prevout.n
      markInputs rest (w.putTx coin)

def commitToWallet (wtxNew : WalletTx) (w : Wallet env) : Except Fault (Wallet env) := do
  let w ← w.addToWallet e s wtxNew
  w.markInputs wtxNew.merkle.tx.vin

end Add

def commitTransaction (e : NodeEnv) (fRateLimited : Bool) (wtxNew : WalletTx) (w : Wallet e.env)
    (s : NodeState) : Except Fault (Bool × Wallet e.env × NodeState) := do
  let w ← w.commitToWallet e s wtxNew
  match Act.exec (acceptToMemoryPool e wtxNew.merkle.tx true true fRateLimited) s with
  | (.ok (), s) => return (true, w, s)
  | (.error (.reject _), s) => return (false, w, s)
  | (.error fault, _) => .error fault

section Keeps

variable {env : Env} {w w' w'' : Wallet env} {e : NodeEnv} {s : NodeState}

def Holds (w : Wallet env) (hash : Uint256) : Prop := (w.mapWallet[hash]?).isSome = true

def Keeps (w w' : Wallet env) : Prop := ∀ hash, w.Holds hash → w'.Holds hash

theorem Keeps.trans (h : w.Keeps w') (h' : w'.Keeps w'') : w.Keeps w'' :=
  fun hash hw => h' hash (h hash hw)

theorem putTx_self (w : Wallet env) (wtx : WalletTx) :
    (w.putTx wtx).mapWallet[wtx.merkle.tx.getHash env]? = some wtx := by
  simp [putTx]

theorem putTx_keeps (w : Wallet env) (wtx : WalletTx) : w.Keeps (w.putTx wtx) := by
  intro hash hw
  unfold Holds putTx
  dsimp only
  rw [TreeMap.getElem?_insert]
  split
  · rfl
  · exact hw

theorem walletUpdateSpent_keeps {vin : List CTxIn} (h : walletUpdateSpent e s vin w = .ok w') :
    w.Keeps w' := by
  induction vin generalizing w with
  | nil =>
    cases h
    exact fun _ hw => hw
  | cons txin rest ih =>
    rw [walletUpdateSpent] at h
    split at h
    · exact ih h
    · obtain ⟨spent, -, h⟩ := Except.bind_eq_ok.mp h
      dsimp only at h
      split at h
      · obtain ⟨filled, -, h⟩ := Except.bind_eq_ok.mp h
        obtain ⟨marked, -, h⟩ := Except.bind_eq_ok.mp h
        exact (putTx_keeps w marked).trans (ih h)
      · exact ih h

theorem merge_tx (old wtxIn : WalletTx) : (old.merge wtxIn).merkle.tx = old.merkle.tx := by
  simp only [WalletTx.merge, CWallet.mergeTx, CWalletTx.updateSpent]
  split <;> rfl

theorem addToWallet_keeps {wtxIn : WalletTx} (h : addToWallet e s wtxIn w = .ok w') :
    w.Keeps w' ∧ w'.Holds (wtxIn.merkle.tx.getHash env) := by
  unfold addToWallet at h
  dsimp only at h
  have hkeeps := walletUpdateSpent_keeps h
  refine ⟨(putTx_keeps w _).trans hkeeps, hkeeps _ ?_⟩
  cases hold : w.mapWallet[wtxIn.merkle.tx.getHash env]? with
  | none =>
    have hself := putTx_self w { wtxIn with nTimeReceived := e.nNow }
    unfold Holds
    dsimp only at hself ⊢
    rw [hself]
    rfl
  | some old =>
    refine putTx_keeps w _ _ ?_
    unfold Holds
    rw [hold]
    rfl

theorem markInputs_keeps {vin : List CTxIn} (h : markInputs vin w = .ok w') : w.Keeps w' := by
  induction vin generalizing w with
  | nil =>
    cases h
    exact fun _ hw => hw
  | cons txin rest ih =>
    rw [markInputs] at h
    split at h
    · cases h
    · obtain ⟨coin, -, h⟩ := Except.bind_eq_ok.mp h
      exact (putTx_keeps w coin).trans (ih h)

theorem commitToWallet_keeps {wtxNew : WalletTx} (h : commitToWallet e s wtxNew w = .ok w') :
    w.Keeps w' ∧ w'.Holds (wtxNew.merkle.tx.getHash env) := by
  obtain ⟨w1, hw1, h⟩ := Except.bind_eq_ok.mp h
  obtain ⟨hkeeps, hself⟩ := addToWallet_keeps hw1
  have hmarks := markInputs_keeps h
  exact ⟨hkeeps.trans hmarks, hmarks _ hself⟩

end Keeps

theorem commitTransaction_keeps {e : NodeEnv} {fRateLimited fOk : Bool} {wtxNew : WalletTx}
    {w w' : Wallet e.env} {s s' : NodeState}
    (h : w.commitTransaction e fRateLimited wtxNew s = .ok (fOk, w', s')) :
    w.Keeps w' ∧ w'.Holds (wtxNew.merkle.tx.getHash e.env) := by
  obtain ⟨w1, hw1, h⟩ := Except.bind_eq_ok.mp h
  have hlast : w1 = w' := by
    split at h
    · cases h
      rfl
    · cases h
      rfl
    · cases h
  subst hlast
  exact commitToWallet_keeps hw1

theorem commitTransaction_accepted {e : NodeEnv} {fRateLimited fOk : Bool} {wtxNew : WalletTx}
    {w w' : Wallet e.env} {s s' : NodeState}
    (h : w.commitTransaction e fRateLimited wtxNew s = .ok (fOk, w', s'))
    (haccept : (Act.exec (acceptToMemoryPool e wtxNew.merkle.tx true true fRateLimited) s).1 =
      .ok ()) : fOk = true := by
  obtain ⟨w1, -, h⟩ := Except.bind_eq_ok.mp h
  split at h
  · cases h
    rfl
  · rename_i heq
    rw [heq] at haccept
    cases haccept
  · cases h

end Wallet

end Namecoin
