import Namecoin.Wallet.Registration

namespace Namecoin

def uiMaxValueLength : Nat := 520

def FitsInt (n : Int) : Prop := -2 ^ 31 ≤ n ∧ n < 2 ^ 31

instance (n : Int) : Decidable (FitsInt n) := inferInstanceAs (Decidable (_ ∧ _))

def toInt (n : Int) : Except Fault Int := if FitsInt n then .ok n else .error .overflow

theorem toInt_ok {n : Int} (h : FitsInt n) : toInt n = .ok n := if_pos h

def fasterHeight (nHeight : Nat) : Except Fault Int :=
  if 24000 ≤ nHeight then do
    let n ← toInt ((nHeight - 24000 : Nat) * 3)
    toInt (nHeight + n)
  else toInt nHeight

def getNetworkFeeChecked (env : Env) (nHeight : Nat) : Except Fault Int :=
  (fasterHeight nHeight).map (fun _ => getNetworkFee env nHeight)

def FeeInRange (nHeight : Nat) : Prop := FitsInt (4 * nHeight - 72000)

def sendMoneyOuts (scriptPubKey : CScript) (nValue nNetFee : Int) : List (CScript × Int) :=
  (scriptPubKey, nValue) :: if nNetFee = 0 then [] else [([UInt8.ofNat opReturn], nNetFee)]

structure FirstupdateParams where
  vchName : VchType
  vchRand : VchType
  vchValue : VchType
  wtxInHash : Option Uint256
  strAddress : Option StdString
  vchPubKey : VchType
  choices : Nat → Choices
  fRateLimited : Bool

def scriptPubKeyOrig (env : Env) (strAddress : Option StdString) (vchPubKey : VchType) :
    Option CScript :=
  match strAddress with
  | none => some (setBitcoinAddress (env.hash160 vchPubKey))
  | some strAddress => (addressToHash160 env strAddress).map setBitcoinAddress

namespace WalletModel

variable {e : NodeEnv} (g : GuiEnv e)

def createWithInputTx (scriptPubKey : CScript) (nValue nNetFee : Int) (wtxIn : WalletTx)
    (choices : Nat → Choices) (m : WalletModel e) : Except Fault (Except String CTransaction) := do
  let nTxOut ← indexOfNameOutput e.env wtxIn.merkle.tx (m.node.view e).pindexBestHeight
  let vecSend := sendMoneyOuts scriptPubKey nValue nNetFee
  let nFeeRequired ← m.wallet.createTransactionWithInputTxFee e m.node g.fuel g.send vecSend wtxIn
    nTxOut nameTxStart choices
  match ← m.wallet.createTransactionWithInputTx e m.node g.fuel g.send vecSend wtxIn nTxOut
      nameTxStart choices with
  | none =>
    let nBalance ← m.wallet.getBalance e m.node g.fuel
    return .error (feeError "" nValue nFeeRequired nBalance)
  | some tx => return .ok tx

def sendMoneyWithInputTx (scriptPubKey : CScript) (nValue nNetFee : Int) (wtxIn : WalletTx)
    (choices : Nat → Choices) (fRateLimited : Bool) (m : WalletModel e) :
    Except Fault (Except String CTransaction × WalletModel e) := do
  match ← m.createWithInputTx g scriptPubKey nValue nNetFee wtxIn choices with
  | .error strError => return (.error strError, m)
  | .ok tx =>
    let wtxNew := { WalletTx.ofTx tx with
      fFromMe := true
      vtxPrev := g.supporting m.wallet m.node tx }
    let (fOk, w, s) ← m.wallet.commitTransaction e fRateLimited wtxNew m.node
    let m := { m with
      wallet := w
      node := s }
    return (if fOk then .ok tx else .error rejectedMsg, m)

def nameFirstupdate (params : FirstupdateParams) (m : WalletModel e) :
    Except Fault (Except String CTransaction × WalletModel e) :=
  if uiMaxValueLength < params.vchValue.length then .ok (.error "the value is too long", m)
  else if m.node.chain.mapNamePending params.vchName ≠ ∅ then
    .ok (.error "there are pending operations on that name", m)
  else if (getTxOfName (m.node.view e) m.node.chain.dbset params.vchName).isSome then
    .ok (.error "this name is already active", m)
  else
    match scriptPubKeyOrig e.env params.strAddress params.vchPubKey with
    | none => .ok (.error "Invalid namecoin address", m)
    | some scriptPubKeyOrig =>
      if m.wallet.keys.isLocked then
        .ok (.error
          "Error: Please enter the wallet passphrase with walletpassphrase first.", m)
      else
        match params.wtxInHash.or m.mapMyNames[params.vchName]? with
        | none =>
          .ok (.error ("could not find a coin with this name, try specifying the name_new " ++
            "transaction id"), m)
        | some wtxInHash =>
          match m.wallet.mapWallet[wtxInHash]? with
          | none => .ok (.error "previous transaction is not in the wallet", m)
          | some wtxIn => do
            match ← nameNewHash wtxIn.merkle.tx.vout none with
            | .error strError => return (.error strError, m)
            | .ok none => return (.error "previous tx on this name is not a name tx", m)
            | .ok (some vchHash) =>
              if uint160 vchHash ≠ e.env.hash160 (params.vchRand ++ params.vchName) then
                return (.error "previous tx used a different random value", m)
              else
                let nNetFee ← getNetworkFeeChecked e.env (m.node.view e).pindexBestHeight
                m.sendMoneyWithInputTx g
                  (firstupdateScript params.vchName params.vchRand params.vchValue ++
                    scriptPubKeyOrig)
                  minAmount (roundedNetFee nNetFee) wtxIn params.choices params.fRateLimited

end WalletModel

section Decay

variable {nStart : Int}

def feeStart (env : Env) : Int := if env.fTestNet then 10 * cent else 50 * coin

def decayed (nStart : Int) (n : Nat) : Int :=
  if 60 ≤ n >>> 13 then 0
  else nStart >>> (n >>> 13) - (nStart >>> (n >>> 13)) >>> (14 : Nat) * (n % 8192 : Nat)

def sped (nHeight : Nat) : Nat :=
  if 24000 ≤ nHeight then nHeight + (nHeight - 24000) * 3 else nHeight

theorem getNetworkFee_eq (env : Env) (nHeight : Nat) :
    getNetworkFee env nHeight = decayed (feeStart env) (sped nHeight) := by
  have hshift : ∀ nRes : Int, nRes >>> (14 : Int) = nRes >>> (14 : Nat) :=
    fun nRes => Int.shiftRight_natCast_right nRes 14
  simp only [getNetworkFee, hshift]
  rfl

theorem sped_lt (nHeight : Nat) : sped nHeight < sped (nHeight + 1) := by
  unfold sped
  split <;> split <;> omega

theorem shiftRight_step (a : Int) (k : Nat) : a >>> (k + 1) = (a >>> k) / 2 := by
  rw [Int.shiftRight_eq_div_pow, Int.shiftRight_eq_div_pow, pow_succ, Nat.cast_mul,
    Int.ediv_ediv_of_nonneg (Int.natCast_nonneg _)]
  rfl

theorem interval_shrinks (nRes : Int) (h : 0 ≤ nRes) {n : Int} (hn : 0 ≤ n) (hlt : n ≤ 8192) :
    nRes / 2 ≤ nRes - nRes >>> (14 : Nat) * n ∧ nRes - nRes >>> (14 : Nat) * n ≤ nRes := by
  have hq : nRes >>> (14 : Nat) = nRes / 16384 := Int.shiftRight_eq_div_pow nRes 14
  have hpos : 0 ≤ nRes / 16384 := Int.ediv_nonneg h (by decide)
  have hlow : 0 ≤ nRes / 16384 * n := mul_nonneg hpos hn
  have hhigh : nRes / 16384 * n ≤ nRes / 16384 * 8192 := mul_le_mul_of_nonneg_left hlt hpos
  rw [hq]
  omega

theorem decayed_bounds (hstart : 0 ≤ nStart) (n : Nat) :
    0 ≤ decayed nStart n ∧ decayed nStart n ≤ nStart := by
  unfold decayed
  split
  · exact ⟨le_refl 0, hstart⟩
  · have hres : 0 ≤ nStart >>> (n >>> 13) := by
      rw [Int.shiftRight_eq_div_pow]
      positivity
    have hle : nStart >>> (n >>> 13) ≤ nStart := by
      rw [Int.shiftRight_eq_div_pow]
      exact Int.ediv_le_self _ hstart
    have hmod : ((n % 8192 : Nat) : Int) ≤ 8192 := by omega
    have hstep := interval_shrinks _ hres (Int.natCast_nonneg _) hmod
    omega

theorem decayed_succ (hstart : 0 ≤ nStart) (n : Nat) :
    decayed nStart (n + 1) ≤ decayed nStart n := by
  have hn : n >>> 13 = n / 8192 := Nat.shiftRight_eq_div_pow n 13
  have hn1 : (n + 1) >>> 13 = (n + 1) / 8192 := Nat.shiftRight_eq_div_pow (n + 1) 13
  rcases Nat.lt_or_ge ((n + 1) >>> 13) 60 with hlt | hge
  · have hres : 0 ≤ nStart >>> (n >>> 13) := by
      rw [Int.shiftRight_eq_div_pow]
      positivity
    rw [decayed, decayed, if_neg (by omega), if_neg (by omega)]
    rcases Nat.lt_or_ge (n % 8192) 8191 with hin | hedge
    · -- inside an interval of 8192 blocks the fee falls by the same amount each time
      have hsame : (n + 1) >>> 13 = n >>> 13 := by omega
      have hmod : (((n + 1) % 8192 : Nat) : Int) = (n % 8192 : Nat) + 1 := by omega
      have hstep : 0 ≤ (nStart >>> (n >>> 13)) >>> (14 : Nat) := by
        rw [Int.shiftRight_eq_div_pow _ 14]
        positivity
      rw [hsame, hmod, mul_add, mul_one]
      omega
    · have hnext : (n + 1) >>> 13 = n >>> 13 + 1 := by omega
      have hmod : (n + 1) % 8192 = 0 := by omega
      have hmod' : ((n % 8192 : Nat) : Int) ≤ 8192 := by omega
      rw [hnext, hmod, Nat.cast_zero, mul_zero, sub_zero, shiftRight_step]
      exact (interval_shrinks _ hres (Int.natCast_nonneg _) hmod').1
  · rw [decayed, if_pos hge]
    exact (decayed_bounds hstart n).1

theorem decayed_antitone (hstart : 0 ≤ nStart) : Antitone (decayed nStart) :=
  antitone_nat_of_succ_le (decayed_succ hstart)

theorem feeStart_bounds (env : Env) : 0 ≤ feeStart env ∧ feeStart env ≤ 50 * coin := by
  unfold feeStart cent coin
  split <;> decide

theorem getNetworkFee_antitone (env : Env) : Antitone (getNetworkFee env) := by
  intro h h' hle
  rw [getNetworkFee_eq, getNetworkFee_eq]
  exact decayed_antitone (feeStart_bounds env).1
    ((strictMono_nat_of_lt_succ sped_lt).monotone hle)

theorem getNetworkFee_bounds (env : Env) (nHeight : Nat) :
    0 ≤ getNetworkFee env nHeight ∧ getNetworkFee env nHeight ≤ 50 * coin := by
  have hstart := feeStart_bounds env
  have hfee := decayed_bounds hstart.1 (sped nHeight)
  rw [getNetworkFee_eq]
  exact ⟨hfee.1, hfee.2.trans hstart.2⟩

theorem fasterHeight_ok {nHeight : Nat} (h : FeeInRange nHeight) :
    fasterHeight nHeight = .ok (sped nHeight) := by
  unfold FeeInRange FitsInt at h
  unfold fasterHeight sped
  split
  · have hextra : FitsInt (((nHeight - 24000 : Nat) : Int) * 3) := by
      unfold FitsInt
      omega
    have hsum : FitsInt (nHeight + ((nHeight - 24000 : Nat) : Int) * 3) := by
      unfold FitsInt
      omega
    refine Except.bind_eq_ok.mpr ⟨_, toInt_ok hextra, ?_⟩
    rw [toInt_ok hsum, Nat.cast_add, Nat.cast_mul]
    rfl
  · have hsame : FitsInt nHeight := by
      unfold FitsInt
      omega
    exact toInt_ok hsame

theorem getNetworkFeeChecked_ok (env : Env) {nHeight : Nat} (h : FeeInRange nHeight) :
    getNetworkFeeChecked env nHeight = .ok (getNetworkFee env nHeight) := by
  rw [getNetworkFeeChecked, fasterHeight_ok h, Except.map]

end Decay

section Created

variable {env : Env} {w : Wallet env} {e : NodeEnv} {s : NodeState} {c : SendEnv}
  {vecSend : List (CScript × Int)} {ch : Choices} {wtxNew tx : CTransaction}

def CTxOut.isNetFee (txout : CTxOut) : Bool :=
  decide (txout.scriptPubKey = [UInt8.ofNat opReturn])

theorem filter_insertIdx {α : Type} {p : α → Bool} {b : α} (hb : p b = false) (l : List α) (n : Nat) :
    (l.insertIdx n b).filter p = l.filter p := by
  induction l generalizing n with
  | nil =>
    cases n with
    | zero => simp [hb]
    | succ n => rfl
  | cons a l ih =>
    cases n with
    | zero => rw [List.insertIdx_zero, List.filter_cons_of_neg (by simp [hb])]
    | succ n => rw [List.insertIdx_succ_cons, List.filter_cons, List.filter_cons, ih]

theorem change_not_netFee {nChange : Int} {vchPubKey : VchType} {hash160 : Uint160} {paid : Prop}
    [Decidable paid] : CTxOut.isNetFee
      ⟨nChange, if paid then setBitcoinAddress hash160 else payToPubkey vchPubKey⟩ = false := by
  rw [CTxOut.isNetFee, decide_eq_false_iff_not]
  intro h
  have hlen := congrArg List.length h
  split at hlen
  · simp [setBitcoinAddress, ops] at hlen
  · have hpos := pushData_length_pos vchPubKey
    simp only [payToPubkey, ops, List.length_append, List.length_map, List.length_cons,
      List.length_nil] at hlen
    omega

theorem fillVout_netFee {nChange : Int} {vout : List CTxOut}
    (h : w.fillVout vecSend ch nChange = .ok vout) :
    vout.filter CTxOut.isNetFee =
      (vecSend.map (fun s => CTxOut.mk s.2 s.1)).filter CTxOut.isNetFee := by
  unfold Wallet.fillVout at h
  dsimp only at h
  split at h
  · cases h
    rfl
  · obtain ⟨vchPubKey, -, h⟩ := Except.bind_eq_ok.mp h
    obtain ⟨-, -, h⟩ := Except.bind_eq_ok.mp h
    cases h
    exact filter_insertIdx change_not_netFee _ _

end Created

section Paid

theorem roundedNetFee_ge {n : Int} (h : 0 ≤ n) : n ≤ roundedNetFee n := by
  unfold roundedNetFee
  rw [Int.tdiv_eq_ediv_of_nonneg (by unfold cent; omega)]
  unfold cent
  omega

theorem roundedNetFee_lt {n : Int} (h : 0 ≤ n) : roundedNetFee n < n + cent := by
  unfold roundedNetFee
  rw [Int.tdiv_eq_ediv_of_nonneg (by unfold cent; omega)]
  unfold cent
  omega

theorem firstupdateScript_not_netFee {nValue : Int} {vchName vchRand vchValue : VchType}
    {script : CScript} :
    CTxOut.isNetFee ⟨nValue, firstupdateScript vchName vchRand vchValue ++ script⟩ = false := by
  rw [CTxOut.isNetFee, decide_eq_false_iff_not]
  intro h
  have hlen := congrArg List.length h
  simp only [firstupdateScript, ops, List.length_append, List.length_map, List.length_cons,
    List.length_nil] at hlen
  omega

theorem sendMoneyOuts_netFee {scriptPubKey : CScript} {nValue nNetFee : Int}
    (hscript : CTxOut.isNetFee ⟨nValue, scriptPubKey⟩ = false) :
    ((((sendMoneyOuts scriptPubKey nValue nNetFee).map (fun s => CTxOut.mk s.2 s.1)).filter
      CTxOut.isNetFee).map CTxOut.nValue) = if nNetFee = 0 then [] else [nNetFee] := by
  have hpaid : CTxOut.isNetFee ⟨nNetFee, [UInt8.ofNat opReturn]⟩ = true := decide_eq_true rfl
  rw [sendMoneyOuts, List.map_cons, List.filter_cons_of_neg (by simp [hscript])]
  split
  · rfl
  · rw [List.map_singleton, List.filter_cons_of_pos hpaid]
    rfl

theorem getNameNetFee_of_outs {tx : CTransaction} {nNetFee : Int}
    (h : (tx.vout.filter CTxOut.isNetFee).map CTxOut.nValue =
      if nNetFee = 0 then [] else [nNetFee])
    (hnonneg : 0 ≤ nNetFee) (hlt : nNetFee < 2 ^ 63) : getNameNetFee tx = .ok nNetFee := by
  have hsum : getNameNetFee tx = sum64 ((tx.vout.filter CTxOut.isNetFee).map CTxOut.nValue) 0 := rfl
  rw [hsum, h]
  split
  · rename_i hzero
    rw [hzero]
    rfl
  · have hadd : add64 0 nNetFee = .ok nNetFee := add64_ok.mpr ⟨by omega, by omega, by omega⟩
    rw [sum64, hadd]
    rfl

end Paid

namespace WalletModel

variable {e : NodeEnv} {g : GuiEnv e} {m m' : WalletModel e} {tx : CTransaction}

theorem createWithInputTx_netFee {scriptPubKey : CScript} {nValue nNetFee : Int} {wtxIn : WalletTx}
    {choices : Nat → Choices}
    (h : m.createWithInputTx g scriptPubKey nValue nNetFee wtxIn choices = .ok (.ok tx))
    (hscript : CTxOut.isNetFee ⟨nValue, scriptPubKey⟩ = false) (hnonneg : 0 ≤ nNetFee)
    (hlt : nNetFee < 2 ^ 63) : getNameNetFee tx = .ok nNetFee := by
  obtain ⟨nTxOut, -, h⟩ := Except.bind_eq_ok.mp h
  obtain ⟨nFeeRequired, -, h⟩ := Except.bind_eq_ok.mp h
  obtain ⟨created, hcreated, h⟩ := Except.bind_eq_ok.mp h
  cases created with
  | none =>
    obtain ⟨nBalance, -, h⟩ := Except.bind_eq_ok.mp h
    cases h
  | some txNew =>
    cases h
    obtain ⟨ch, nChange, hvout⟩ := createTransactionWithInputTx_vout hcreated
    refine getNameNetFee_of_outs ?_ hnonneg hlt
    rw [fillVout_netFee hvout]
    exact sendMoneyOuts_netFee hscript

theorem sendMoneyWithInputTx_netFee {scriptPubKey : CScript} {nValue nNetFee : Int}
    {wtxIn : WalletTx} {choices : Nat → Choices} {fRateLimited : Bool}
    (h : m.sendMoneyWithInputTx g scriptPubKey nValue nNetFee wtxIn choices fRateLimited =
      .ok (.ok tx, m'))
    (hscript : CTxOut.isNetFee ⟨nValue, scriptPubKey⟩ = false) (hnonneg : 0 ≤ nNetFee)
    (hlt : nNetFee < 2 ^ 63) : getNameNetFee tx = .ok nNetFee := by
  obtain ⟨created, hcreated, h⟩ := Except.bind_eq_ok.mp h
  cases created with
  | error strError => cases h
  | ok txNew =>
    obtain ⟨⟨fOk, w, s⟩, -, h⟩ := Except.bind_eq_ok.mp h
    cases fOk with
    | false => cases h
    | true =>
      cases h
      exact createWithInputTx_netFee hcreated hscript hnonneg hlt

theorem getNetworkFeeChecked_eq {env : Env} {nHeight : Nat} {nFee : Int}
    (h : getNetworkFeeChecked env nHeight = .ok nFee) : nFee = getNetworkFee env nHeight := by
  unfold getNetworkFeeChecked at h
  cases hfaster : fasterHeight nHeight with
  | error fault =>
    rw [hfaster] at h
    cases h
  | ok n =>
    rw [hfaster, Except.map] at h
    exact (Except.ok.inj h).symm

theorem nameFirstupdate_netFee {params : FirstupdateParams}
    (h : m.nameFirstupdate g params = .ok (.ok tx, m')) :
    getNameNetFee tx =
      .ok (roundedNetFee (getNetworkFee e.env (m.node.view e).pindexBestHeight)) := by
  have hbounds := getNetworkFee_bounds e.env (m.node.view e).pindexBestHeight
  have hge := roundedNetFee_ge hbounds.1
  have hlt := roundedNetFee_lt hbounds.1
  unfold nameFirstupdate at h
  split at h
  · cases h
  split at h
  · cases h
  split at h
  · cases h
  split at h
  · cases h
  split at h
  · cases h
  split at h
  · cases h
  split at h
  · cases h
  obtain ⟨scan, -, h⟩ := Except.bind_eq_ok.mp h
  split at h
  · cases h
  · cases h
  split at h
  · cases h
  obtain ⟨nNetFee, hfee, h⟩ := Except.bind_eq_ok.mp h
  obtain rfl := getNetworkFeeChecked_eq hfee
  have hsmall : (50 * coin + cent : Int) < 2 ^ 63 := by decide
  exact sendMoneyWithInputTx_netFee h firstupdateScript_not_netFee (by omega) (by omega)

end WalletModel

def feeTooLow : Fault := .reject "ConnectInputsHook() : got tx with fee too low"

theorem checkMiner_avoids_feeTooLow {c : NameCall} {s : ConnState} {vchName : VchType}
    {txindex : CTxIndex} : (c.checkMiner s vchName txindex).Avoids feeTooLow := by
  refine Except.avoids_bind (Except.avoids_raiseIf (by decide) _) (fun _ _ => ?_)
  exact Except.avoids_raiseIf (by decide) _

theorem vchAt_avoids_reject (vvch : List VchType) (i : Nat) (msg : String) :
    (vchAt vvch i).Avoids (.reject msg) := by
  unfold vchAt
  split
  · exact Except.avoids_ok _
  · exact Except.avoids_error nofun

theorem inputIndex_avoids_reject (c : NameCall) (prev : NameScan) (msg : String) :
    (c.inputIndex prev).Avoids (.reject msg) := by
  unfold NameCall.inputIndex
  split
  · exact Except.avoids_error nofun
  · split
    · exact Except.avoids_error nofun
    · exact Except.avoids_ok _

theorem checkFirstupdate_avoids_feeTooLow {c : NameCall} {s : ConnState} {vchName : VchType}
    {d : NameTx} {prev : NameScan} {nNetFee : Int} (hpaid : getNameNetFee c.tx = .ok nNetFee)
    (hfee : getNetworkFee c.env c.nHeight ≤ nNetFee) :
    (c.checkFirstupdate s vchName d prev).Avoids feeTooLow := by
  unfold NameCall.checkFirstupdate
  rw [hpaid]
  refine Except.avoids_bind (Except.avoids_ok _) (fun n hn => ?_)
  obtain rfl := Except.ok.inj hn
  rw [Except.raiseIf, if_neg (by omega)]
  refine Except.avoids_bind (Except.avoids_ok _) (fun _ _ => ?_)
  refine Except.avoids_bind (Except.avoids_raiseIf (by decide) _) (fun _ _ => ?_)
  refine Except.avoids_bind (vchAt_avoids_reject _ _ _) (fun vchRand _ => ?_)
  refine Except.avoids_bind (Except.avoids_raiseIf (by decide) _) (fun _ _ => ?_)
  refine Except.avoids_bind (vchAt_avoids_reject _ _ _) (fun vchValue _ => ?_)
  refine Except.avoids_bind (Except.avoids_raiseIf (by decide) _) (fun _ _ => ?_)
  refine Except.avoids_bind (vchAt_avoids_reject _ _ _) (fun vchHash _ => ?_)
  refine Except.avoids_bind (Except.avoids_raiseIf (by decide) _) (fun _ _ => ?_)
  refine Except.avoids_bind (Except.avoids_raiseIf (by decide) _) (fun _ _ => ?_)
  refine Except.avoids_bind (inputIndex_avoids_reject _ _ _) (fun txindex _ => ?_)
  refine Except.avoids_bind (Except.avoids_raiseIf (by decide) _) (fun _ _ => ?_)
  refine Except.avoids_bind (Except.avoids_doIf (fun _ => checkMiner_avoids_feeTooLow))
    (fun _ _ => ?_)
  exact Except.avoids_pure _

structure FeeAccepted (c : NameCall) : Prop where
  enough : ∃ nNetFee nFee, getNameNetFee c.tx = .ok nNetFee ∧
    getNetworkFeeChecked c.env c.nHeight = .ok nFee ∧ nFee ≤ nNetFee
  hook : ∀ s vchName d prev, c.checkFirstupdate s vchName d prev ≠ .error feeTooLow

theorem fee_never_rises :
    (∀ env nHeight, FeeInRange nHeight → ∃ nFee, getNetworkFeeChecked env nHeight = .ok nFee ∧
      0 ≤ nFee ∧ nFee ≤ 50 * coin) ∧
    (∀ env nHeight, FeeInRange nHeight → FeeInRange (nHeight + 1) → ∃ nFee nNext,
      getNetworkFeeChecked env nHeight = .ok nFee ∧
      getNetworkFeeChecked env (nHeight + 1) = .ok nNext ∧ nNext ≤ nFee) ∧
    ∀ (e : NodeEnv) (g : GuiEnv e) (params : FirstupdateParams) (m m' : WalletModel e)
      (c : NameCall), m.nameFirstupdate g params = .ok (.ok c.tx, m') → c.env = e.env →
      (m.node.view e).pindexBestHeight ≤ c.nHeight → FeeInRange c.nHeight → FeeAccepted c := by
  refine ⟨?_, ?_, ?_⟩
  · intro env nHeight hrange
    exact ⟨_, getNetworkFeeChecked_ok env hrange, getNetworkFee_bounds env nHeight⟩
  · intro env nHeight hrange hnext
    exact ⟨_, _, getNetworkFeeChecked_ok env hrange, getNetworkFeeChecked_ok env hnext,
      getNetworkFee_antitone env (Nat.le_succ nHeight)⟩
  · intro e g params m m' c hcall henv hlater hrange
    have hpaid := WalletModel.nameFirstupdate_netFee hcall
    rw [← henv] at hpaid
    have hfee : getNetworkFee c.env c.nHeight ≤
        roundedNetFee (getNetworkFee c.env (m.node.view e).pindexBestHeight) :=
      (getNetworkFee_antitone c.env hlater).trans
        (roundedNetFee_ge (getNetworkFee_bounds c.env _).1)
    refine ⟨⟨_, _, hpaid, getNetworkFeeChecked_ok c.env hrange, hfee⟩, ?_⟩
    intro s vchName d prev
    exact checkFirstupdate_avoids_feeTooLow hpaid hfee

theorem fee_undefined_past_range :
    ¬ ∀ (env : Env) (nHeight : Nat), FeeInRange nHeight → ∃ nFee nNext,
      getNetworkFeeChecked env nHeight = .ok nFee ∧
      getNetworkFeeChecked env (nHeight + 1) = .ok nNext ∧ nNext ≤ nFee := by
  intro hall
  obtain ⟨nFee, nNext, -, hnext, -⟩ := hall sampleEnv 536888911 ⟨by decide, by decide⟩
  have hover : fasterHeight (536888911 + 1) = .error .overflow := by decide
  rw [getNetworkFeeChecked, hover] at hnext
  cases hnext

def siteParams : FirstupdateParams where
  vchName := siteName
  vchRand := bigNumVch 77
  vchValue := []
  wtxInHash := none
  strAddress := none
  vchPubKey := walletPubKey
  choices _ := sampleChoices
  fRateLimited := false

def siteFirstupdate : Except Fault
    (NameSession sampleNodeEnv × Except String CTransaction × WalletModel sampleNodeEnv) := do
  let l ← newSession
  let r ← l.model.nameFirstupdate sampleGui siteParams
  return (l, r)

def sentAtTip (r : NameSession sampleNodeEnv × Except String CTransaction ×
    WalletModel sampleNodeEnv) : Bool :=
  match r.2.1 with
  | .ok _ => decide ((r.1.model.node.view sampleNodeEnv).pindexBestHeight ≤ 12)
  | .error _ => false

theorem siteFirstupdate_accepted : ∃ (m m' : WalletModel sampleNodeEnv) (c : NameCall),
    m.nameFirstupdate sampleGui siteParams = .ok (.ok c.tx, m') ∧ FeeAccepted c := by
  obtain ⟨⟨l, sent, m'⟩, hrun, hsent⟩ := exists_of_reads (x := siteFirstupdate) (f := sentAtTip)
    (b := true) (by decide +kernel)
  obtain ⟨l', -, hrun⟩ := Except.bind_eq_ok.mp hrun
  obtain ⟨r, hcall, hrun⟩ := Except.bind_eq_ok.mp hrun
  cases hrun
  cases sent with
  | error strError => cases hsent
  | ok tx =>
    have hlater : (l.model.node.view sampleNodeEnv).pindexBestHeight ≤ 12 := of_decide_eq_true hsent
    let c : NameCall :=
      ⟨sampleEnv, l.model.node.view sampleNodeEnv, tx, [], ⟨twelfthIndex, []⟩, .memPool, false, false⟩
    have hrange : FeeInRange 12 := ⟨by decide, by decide⟩
    exact ⟨l.model, m', c, hcall,
      fee_never_rises.2.2 sampleNodeEnv sampleGui siteParams l.model m' c hcall rfl hlater hrange⟩

end Namecoin
