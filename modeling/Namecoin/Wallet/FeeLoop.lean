import Namecoin.Chain.Overflow
import Namecoin.Wallet.Registration
import Namecoin.Wallet.Selection

namespace Namecoin

open Std (TreeMap)

section Loop

variable {round : Nat → Int → Except Fault Round} {nMost : Int}

inductive Loops (round : Nat → Int → Except Fault Round) :
    Nat → Int → Except Fault (Option (CTransaction × Int)) → Prop
  | fault {k : Nat} {nFeeRet : Int} {err : Fault} (h : round k nFeeRet = .error err) :
      Loops round k nFeeRet (.error err)
  | fail {k : Nat} {nFeeRet : Int} (h : round k nFeeRet = .ok .fail) :
      Loops round k nFeeRet (.ok none)
  | done {k : Nat} {nFeeRet : Int} {wtxNew : CTransaction}
      (h : round k nFeeRet = .ok (.done wtxNew)) :
      Loops round k nFeeRet (.ok (some (wtxNew, nFeeRet)))
  | retry {k : Nat} {nFeeRet nRaised : Int} {r : Except Fault (Option (CTransaction × Int))}
      (h : round k nFeeRet = .ok (.retry nRaised)) (rest : Loops round (k + 1) nRaised r) :
      Loops round k nFeeRet r

def RaisesTo (round : Nat → Int → Except Fault Round) (nMost : Int) : Prop :=
  ∀ k nFeeRet nRaised, round k nFeeRet = .ok (.retry nRaised) → nFeeRet < nRaised ∧ nRaised ≤ nMost

theorem RaisesTo.loops (h : RaisesTo round nMost) {n k : Nat} {nFeeRet : Int}
    (hn : (nMost - nFeeRet).toNat < n) :
    ∃ r, Loops round k nFeeRet r ∧ feeLoop round n k nFeeRet = r.map (Option.map Prod.fst) := by
  induction n generalizing k nFeeRet with
  | zero => exact absurd hn (Nat.not_lt_zero _)
  | succ n ih =>
    rw [feeLoop]
    cases hround : round k nFeeRet with
    | error err => exact ⟨.error err, .fault hround, rfl⟩
    | ok r =>
      cases r with
      | fail => exact ⟨.ok none, .fail hround, rfl⟩
      | done wtxNew => exact ⟨.ok (some (wtxNew, nFeeRet)), .done hround, rfl⟩
      | retry nRaised =>
        obtain ⟨hraise, hmost⟩ := h k nFeeRet nRaised hround
        have hless : (nMost - nRaised).toNat < n := by omega
        obtain ⟨r, hloops, hrun⟩ := ih (k := k + 1) hless
        exact ⟨r, .retry hround hloops, hrun⟩

theorem feeLoop_fee {fuel k : Nat} {nStart nFeeRet : Int} {tx : CTransaction}
    (h : feeLoop round fuel k nStart = .ok (some tx))
    (hfee : feeLoopRet round fuel k nStart = .ok nFeeRet) :
    ∃ k, round k nFeeRet = .ok (.done tx) := by
  induction fuel generalizing k nStart with
  | zero => cases h
  | succ fuel ih =>
    obtain ⟨r, hr, h⟩ := Except.bind_eq_ok.mp h
    rw [feeLoopRet, hr] at hfee
    cases r with
    | fail => cases h
    | retry nRaised => exact ih h hfee
    | done wtxNew =>
      cases h
      cases hfee
      exact ⟨k, hr⟩

end Loop

theorem getMinFee_le (tx : CTransaction) (nBlockSize : Nat) (fAllowFree fForRelay : Bool) :
    tx.getMinFee nBlockSize fAllowFree fForRelay ≤ maxMoney := by
  have hcap : ∀ n : Int, (if moneyRange n then n else maxMoney) ≤ maxMoney := by
    intro n
    split
    · rename_i hrange
      exact (moneyRange_iff.mp hrange).2
    · exact le_refl _
  unfold CTransaction.getMinFee
  dsimp only
  split
  · exact le_refl _
  · exact hcap _

def feeCap (c : SendEnv) (nMaxBytes : Nat) : Int :=
  max (|c.nTransactionFee| * (1 + (nMaxBytes / 1000 : Nat))) maxMoney

theorem payFee_le (c : SendEnv) {nBytes nMaxBytes : Nat} (h : nBytes < nMaxBytes) :
    c.nTransactionFee * (1 + (nBytes / 1000 : Nat)) ≤
      |c.nTransactionFee| * (1 + (nMaxBytes / 1000 : Nat)) := by
  have hdiv : nBytes / 1000 ≤ nMaxBytes / 1000 := Nat.div_le_div_right h.le
  calc c.nTransactionFee * (1 + (nBytes / 1000 : Nat))
      ≤ |c.nTransactionFee| * (1 + (nBytes / 1000 : Nat)) :=
        mul_le_mul_of_nonneg_right (le_abs_self _) (by omega)
    _ ≤ |c.nTransactionFee| * (1 + (nMaxBytes / 1000 : Nat)) :=
        mul_le_mul_of_nonneg_left (by omega) (abs_nonneg _)

def CTransaction.valueOut (tx : CTransaction) : Int := (tx.vout.map CTxOut.nValue).sum

def payments (vecSend : List (CScript × Int)) : List CTxOut :=
  vecSend.map (fun s => CTxOut.mk s.2 s.1)

theorem sendTotal_sum {vecSend : List (CScript × Int)} {n nValue : Int}
    (h : sendTotal vecSend n = some nValue) :
    nValue = n + ((payments vecSend).map CTxOut.nValue).sum := by
  induction vecSend generalizing n with
  | nil =>
    rw [sendTotal] at h
    split at h
    · cases h
    · cases h
      exact (add_zero _).symm
  | cons p rest ih =>
    rw [sendTotal] at h
    split at h
    · cases h
    · rw [ih h, payments, payments, List.map_cons, List.map_cons, List.sum_cons, add_assoc]

namespace Wallet

variable {env : Env} {w : Wallet env} {e : NodeEnv} {s : NodeState} {fuel : Nat} {c : SendEnv}
  {vecSend : List (CScript × Int)} {ch : Choices} {wtxNew tx : CTransaction}
  {nMaxBytes : Nat} {nFeeRet nTotalValue nValueIn nValue : Int} {vecCoins : List Input}
  {wtxIn : WalletTx} {nTxOut : Nat}

theorem fillVout_value {nChange : Int} {vout : List CTxOut} (hsend : vecSend ≠ [])
    (h : w.fillVout vecSend ch nChange = .ok vout) :
    (payments vecSend).Subperm vout ∧
      (vout.map CTxOut.nValue).sum = ((payments vecSend).map CTxOut.nValue).sum +
        if nChange < cent then 0 else nChange := by
  unfold Wallet.fillVout at h
  dsimp only at h
  split at h
  · rename_i hsmall
    cases h
    rw [if_pos hsmall, add_zero]
    exact ⟨List.Subperm.refl _, rfl⟩
  · rename_i hlarge
    obtain ⟨vchPubKey, -, h⟩ := Except.bind_eq_ok.mp h
    obtain ⟨-, -, h⟩ := Except.bind_eq_ok.mp h
    cases h
    have hpos : 0 < (payments vecSend).length := by
      rw [payments, List.length_map]
      exact List.length_pos_iff.mpr hsend
    have hperm (txout : CTxOut) := List.perm_insertIdx txout (payments vecSend)
      (Nat.mod_lt (ch.position (payments vecSend).length) hpos).le
    refine ⟨(List.sublist_cons_self _ _).subperm.trans (hperm _).symm.subperm, ?_⟩
    rw [if_neg hlarge, add_comm]
    exact ((hperm _).map CTxOut.nValue).sum_eq.trans (by rw [List.map_cons, List.sum_cons])

theorem assemble_retry {nRaised : Int}
    (h : w.assemble e s c vecSend wtxNew ch nMaxBytes nFeeRet nTotalValue nValueIn vecCoins =
      .ok (.retry nRaised)) : nFeeRet < nRaised ∧ nRaised ≤ feeCap c nMaxBytes := by
  rcases assemble_ends h with hfail | ⟨-, txSigned, nNeeded, -, -, hsize, hneeded, hend⟩
  · cases hfail
  · rcases hend with ⟨hlow, hretry⟩ | ⟨-, hdone⟩
    · cases hretry
      refine ⟨hlow, ?_⟩
      rw [hneeded]
      exact max_le_max (payFee_le c hsize) (getMinFee_le _ _ _ _)
    · cases hdone

theorem assemble_fees
    (h : w.assemble e s c vecSend wtxNew ch nMaxBytes nFeeRet nTotalValue nValueIn vecCoins =
      .ok (.done tx)) :
    c.nTransactionFee * (1 + (tx.getSerializeSize / 1000 : Nat)) ≤ nFeeRet ∧
      tx.getMinFee 1 (c.allowFree (credits e s vecCoins) tx.getSerializeSize) false ≤ nFeeRet := by
  rcases assemble_ends h with hfail | ⟨-, txSigned, nNeeded, -, -, -, hneeded, hend⟩
  · cases hfail
  · rcases hend with ⟨-, hretry⟩ | ⟨hpaid, hdone⟩
    · cases hretry
    · cases hdone
      rw [hneeded] at hpaid
      exact max_le_iff.mp hpaid

theorem selectCoins_picks {nTargetValue : Int} {setCoins : List Coin}
    (h : w.selectCoins e s fuel nTargetValue ch = .ok (some (setCoins, nValueIn))) :
    ∃ nConfMine nConfTheirs,
      w.Picks e s fuel nTargetValue nConfMine nConfTheirs setCoins nValueIn := by
  obtain ⟨first, hfirst, h⟩ := Except.bind_eq_ok.mp h
  split at h
  · rw [Except.pure_eq_ok.mp h] at hfirst
    exact ⟨_, _, selectCoinsMinConf_picks hfirst⟩
  · obtain ⟨second, hsecond, h⟩ := Except.bind_eq_ok.mp h
    split at h
    · rw [Except.pure_eq_ok.mp h] at hsecond
      exact ⟨_, _, selectCoinsMinConf_picks hsecond⟩
    · exact ⟨_, _, selectCoinsMinConf_picks h⟩

theorem selectCoins_value {nTargetValue : Int} {setCoins : List Coin}
    (h : w.selectCoins e s fuel nTargetValue ch = .ok (some (setCoins, nValueIn))) :
    nValueIn = (setCoins.map w.coinValue).sum ∧ nTargetValue ≤ nValueIn := by
  obtain ⟨nConfMine, nConfTheirs, hpicks⟩ := selectCoins_picks h
  exact ⟨hpicks.sum, hpicks.reached⟩

theorem selectExtra_value {nNeeded : Int} {setCoins : List Coin}
    (h : w.selectExtra e s fuel nNeeded ch = .ok (some (setCoins, nValueIn))) :
    nValueIn = (setCoins.map w.coinValue).sum ∧ nNeeded ≤ nValueIn := by
  unfold selectExtra at h
  split at h
  · exact selectCoins_value h
  · rename_i hnone
    cases h
    exact ⟨rfl, by omega⟩

def pointValue (w : Wallet env) (prevout : COutPoint) : Int := w.coinValue (prevout.hash, prevout.n)

def valueIn (w : Wallet env) (tx : CTransaction) : Int := (tx.prevouts.map w.pointValue).sum

def spentInputs (w : Wallet env) (tx : CTransaction) : List Input :=
  tx.prevouts.filterMap (fun prevout =>
    (w.mapWallet[prevout.hash]?).map (fun wtx => (wtx, prevout.n)))

def Held (w : Wallet env) (vecCoins : List Input) : Prop :=
  ∀ coin ∈ vecCoins, w.mapWallet[coin.1.merkle.tx.getHash env]? = some coin.1

theorem inputs_held {addr : Uint256 → Nat} {setCoins : List Coin} :
    w.Held (w.inputs addr setCoins) := by
  intro input hinput
  obtain ⟨coin, -, hcoin⟩ := List.mem_filterMap.mp hinput
  obtain ⟨wtx, hget, rfl⟩ := Option.map_eq_some_iff.mp hcoin
  rw [w.keyed _ _ hget]
  exact hget

theorem Held.spentInputs (h : w.Held vecCoins)
    (hprev : tx.prevouts = vecCoins.map (Input.outPoint env)) : w.spentInputs tx = vecCoins := by
  rw [Wallet.spentInputs, hprev]
  clear hprev
  induction vecCoins with
  | nil => rfl
  | cons coin rest ih =>
    obtain ⟨hcoin, hrest⟩ := List.forall_mem_cons.mp h
    rw [List.map_cons, List.filterMap_cons, Input.outPoint]
    dsimp only
    rw [hcoin, Option.map_some, ih hrest]

structure Funds (w : Wallet env) (e : NodeEnv) (s : NodeState) (c : SendEnv)
    (vecSend : List (CScript × Int)) (tx : CTransaction) (nFeeRet : Int) : Prop where
  pays : (payments vecSend).Subperm tx.vout
  distinct : tx.prevouts.Nodup
  covers : nFeeRet ≤ w.valueIn tx - tx.valueOut
  leaves : w.valueIn tx - tx.valueOut < nFeeRet + cent
  payFee : c.nTransactionFee * (1 + (tx.getSerializeSize / 1000 : Nat)) ≤ nFeeRet
  minFee : tx.getMinFee 1 (c.allowFree (credits e s (w.spentInputs tx)) tx.getSerializeSize) false ≤
    nFeeRet

theorem assemble_funds (hsend : vecSend ≠ []) (htotal : sendTotal vecSend 0 = some nValue)
    (hheld : w.Held vecCoins) (hin : nValueIn = w.valueIn tx) (hreached : nValue + nFeeRet ≤ nValueIn)
    (hdistinct : tx.prevouts.Nodup)
    (h : w.assemble e s c vecSend wtxNew ch nMaxBytes nFeeRet (nValue + nFeeRet) nValueIn vecCoins =
      .ok (.done tx)) : w.Funds e s c vecSend tx nFeeRet := by
  obtain ⟨hpays, hvalue⟩ := fillVout_value hsend (assemble_vout h)
  obtain ⟨hpayFee, hminFee⟩ := assemble_fees h
  have hamount := sendTotal_sum htotal
  have hcent : (0 : Int) < cent := by decide
  have hout : tx.valueOut = nValue +
      if nValueIn - (nValue + nFeeRet) < cent then 0 else nValueIn - (nValue + nFeeRet) := by
    rw [CTransaction.valueOut, hvalue, hamount, zero_add]
  rw [hheld.spentInputs (assemble_prevouts h) |>.symm] at hminFee
  refine ⟨hpays, hdistinct, ?_, ?_, hpayFee, hminFee⟩
  · rw [← hin, hout]
    split <;> omega
  · rw [← hin, hout]
    split <;> omega

theorem pointValue_sum {points : List COutPoint} {setCoins : List Coin}
    (h : points.Perm (setCoins.map coinPoint)) :
    (points.map w.pointValue).sum = (setCoins.map w.coinValue).sum := by
  rw [(h.map w.pointValue).sum_eq, List.map_map]
  rfl

theorem createRound_funds (hsend : vecSend ≠ []) (htotal : sendTotal vecSend 0 = some nValue)
    (h : w.createRound e s fuel c vecSend nValue wtxNew ch nFeeRet = .ok (.done tx)) :
    w.Funds e s c vecSend tx nFeeRet := by
  obtain ⟨chosen, hchosen, h⟩ := Except.bind_eq_ok.mp h
  cases chosen with
  | none => cases h
  | some r =>
    obtain ⟨setCoins, nValueIn⟩ := r
    obtain ⟨hspends, hnodup⟩ := selectCoins_spends hchosen
    obtain ⟨hsum, hreached⟩ := selectCoins_value hchosen
    have hprev : tx.prevouts.Perm (setCoins.map coinPoint) := by
      rw [assemble_prevouts h, inputs_outPoints hspends]
      exact (List.mergeSort_perm _ _).map _
    refine assemble_funds hsend htotal inputs_held ?_ hreached ?_ h
    · rw [hsum, valueIn, pointValue_sum hprev]
    · exact hprev.nodup_iff.mpr (hnodup.map coinPoint_injective)

theorem createRoundWithInputTx_funds {hash : Uint256} {txout : CTxOut} {op : Nat}
    {vvch : List VchType} (hsend : vecSend ≠ []) (htotal : sendTotal vecSend 0 = some nValue)
    (hin : w.mapWallet[hash]? = some wtxIn) (hout : wtxIn.merkle.tx.vout[nTxOut]? = some txout)
    (hname : (decodeNameScript txout.scriptPubKey op vvch).ok = true)
    (h : w.createRoundWithInputTx e s fuel c vecSend nValue wtxIn nTxOut wtxNew ch nFeeRet =
      .ok (.done tx)) : w.Funds e s c vecSend tx nFeeRet := by
  obtain ⟨txout', setCoins, nValueIn, hout', hchosen, h⟩ := createRoundWithInputTx_done h
  cases hout.symm.trans hout'
  obtain ⟨hspends, hnodup⟩ := selectExtra_spends hchosen
  obtain ⟨hsum, hreached⟩ := selectExtra_value hchosen
  have hhead : Input.outPoint env (wtxIn, nTxOut) = ⟨hash, nTxOut⟩ := by
    rw [Input.outPoint, w.keyed hash wtxIn hin]
  have hprev : tx.prevouts = ⟨hash, nTxOut⟩ ::
      (setCoins.mergeSort (inSetOrder ch.addr)).map coinPoint := by
    rw [assemble_prevouts h, List.map_cons, inputs_outPoints hspends, hhead]
  have hrest : ((setCoins.mergeSort (inSetOrder ch.addr)).map coinPoint).Perm
      (setCoins.map coinPoint) := (List.mergeSort_perm _ _).map _
  have hvalue : w.pointValue ⟨hash, nTxOut⟩ = txout.nValue := by
    rw [pointValue, coinValue, hin, Option.bind_some, hout, Option.map_some, Option.getD_some]
  have hheld : w.Held ((wtxIn, nTxOut) :: w.inputs ch.addr setCoins) := by
    refine List.forall_mem_cons.mpr ⟨?_, inputs_held⟩
    rw [w.keyed hash wtxIn hin, hin]
  refine assemble_funds hsend htotal hheld ?_ (by omega) ?_ h
  · rw [valueIn, hprev, List.map_cons, List.sum_cons, pointValue_sum hrest, hvalue, hsum, add_comm]
  · -- a name output is never spendable, so the selection cannot hold it a second time
    rw [hprev]
    refine List.nodup_cons.mpr ⟨fun hmem => ?_, ?_⟩
    · obtain ⟨coin, hcoin, heq⟩ := List.mem_map.mp (hrest.mem_iff.mp hmem)
      have hplain := (hspends coin hcoin).plain
      rw [heq] at hplain
      rw [hplain.no_name hin hout] at hname
      cases hname
    · exact hrest.nodup_iff.mpr (hnodup.map coinPoint_injective)

theorem createRound_raises (chs : Nat → Choices) :
    RaisesTo (fun k nFeeRet => w.createRound e s fuel c vecSend nValue wtxNew (chs k) nFeeRet)
      (feeCap c maxStandardTxSize) := by
  intro k nFeeRet nRaised h
  obtain ⟨chosen, -, h⟩ := Except.bind_eq_ok.mp h
  cases chosen with
  | none => cases h
  | some r => exact assemble_retry h

theorem createRoundWithInputTx_raises (chs : Nat → Choices) :
    RaisesTo (fun k nFeeRet =>
      w.createRoundWithInputTx e s fuel c vecSend nValue wtxIn nTxOut wtxNew (chs k) nFeeRet)
      (feeCap c (maxBlockSizeGen / 5)) := by
  intro k nFeeRet nRaised h
  unfold createRoundWithInputTx at h
  dsimp only at h
  split at h
  · cases h
  · obtain ⟨chosen, -, h⟩ := Except.bind_eq_ok.mp h
    cases chosen with
    | none => cases h
    | some r => exact assemble_retry h

theorem createTransaction_funds {chs : Nat → Choices}
    (h : w.createTransaction e s fuel c vecSend wtxNew chs = .ok (some tx))
    (hfee : w.createTransactionFee e s fuel c vecSend wtxNew chs = .ok nFeeRet) :
    w.Funds e s c vecSend tx nFeeRet := by
  unfold createTransaction at h
  unfold createTransactionFee at hfee
  split at h
  · rename_i p rest nValue htotal
    rw [htotal] at hfee
    obtain ⟨k, hround⟩ := feeLoop_fee h hfee
    exact createRound_funds (List.cons_ne_nil _ _) htotal hround
  · cases h

theorem createTransactionWithInputTx_funds {hash : Uint256} {txout : CTxOut} {op : Nat}
    {vvch : List VchType} {chs : Nat → Choices} (hin : w.mapWallet[hash]? = some wtxIn)
    (hout : wtxIn.merkle.tx.vout[nTxOut]? = some txout)
    (hname : (decodeNameScript txout.scriptPubKey op vvch).ok = true)
    (h : w.createTransactionWithInputTx e s fuel c vecSend wtxIn nTxOut wtxNew chs = .ok (some tx))
    (hfee : w.createTransactionWithInputTxFee e s fuel c vecSend wtxIn nTxOut wtxNew chs =
      .ok nFeeRet) : w.Funds e s c vecSend tx nFeeRet := by
  unfold createTransactionWithInputTx at h
  unfold createTransactionWithInputTxFee at hfee
  split at h
  · rename_i p rest nValue htotal
    rw [htotal] at hfee
    obtain ⟨k, hround⟩ := feeLoop_fee h hfee
    exact createRoundWithInputTx_funds (List.cons_ne_nil _ _) htotal hin hout hname hround
  · cases h

section Exact

variable {nConfMine nConfTheirs : Int} {setCoins : List Coin}

def holdings (w : Wallet env) : Int := worth (w.mapWallet.toList.flatMap w.selectableCoins)

theorem eligibleCoins_sublist (w : Wallet env) :
    (w.eligibleCoins e s fuel nConfMine nConfTheirs).Sublist
      (w.mapWallet.toList.flatMap w.selectableCoins) := by
  rw [eligibleCoins]
  induction w.mapWallet.toList with
  | nil => exact List.Sublist.refl _
  | cons pcoin rest ih =>
    rw [List.flatMap_cons, List.flatMap_cons]
    exact (eligibleOuts_sublist pcoin).append ih

-- Whatever coins the selection adds up, the sum is no more than all the wallet could spend.
theorem eligible_range (hkept : moneyRange w.holdings = true) {l : List (Int × Coin)}
    (h : l.Subperm (w.eligibleCoins e s fuel nConfMine nConfTheirs)) :
    moneyRange (worth l) = true := by
  have hpos : ∀ c ∈ w.mapWallet.toList.flatMap w.selectableCoins, 0 ≤ c.1 := by
    intro c hc
    obtain ⟨pcoin, -, hc⟩ := List.mem_flatMap.mp hc
    obtain ⟨-, txout, -, hvalue, hpos⟩ := mem_selectableCoins hc
    omega
  have hall := h.trans (eligibleCoins_sublist w).subperm
  refine moneyRange_iff.mpr ⟨?_, (worth_le hall hpos).trans (moneyRange_iff.mp hkept).2⟩
  refine List.sum_nonneg fun n hn => ?_
  obtain ⟨c, hc, rfl⟩ := List.mem_map.mp hn
  exact hpos c (hall.subset hc)

theorem selectCoins_range {nTargetValue : Int} (hkept : moneyRange w.holdings = true)
    (h : w.selectCoins e s fuel nTargetValue ch = .ok (some (setCoins, nValueIn))) :
    moneyRange nValueIn = true := by
  obtain ⟨nConfMine, nConfTheirs, hpicks⟩ := selectCoins_picks h
  let l := setCoins.map fun coin => (w.coinValue coin, coin)
  have hnodup : l.Nodup := hpicks.distinct.map fun a b hab => congrArg Prod.snd hab
  have hsub : l ⊆ w.eligibleCoins e s fuel nConfMine nConfTheirs := by
    intro c hc
    obtain ⟨coin, hcoin, rfl⟩ := List.mem_map.mp hc
    exact hpicks.eligible coin hcoin
  have hworth : worth l = nValueIn := by
    rw [worth, List.map_map, hpicks.sum]
    rfl
  rw [← hworth]
  exact eligible_range hkept (List.subperm_of_subset hnodup hsub)

-- The premises under which the unbounded amounts of a round are those of the 64-bit code: the
-- payments are nonnegative, they and the fee stay in MoneyRange, and so do the wallet's coins.
structure Exact (w : Wallet env) (c : SendEnv) (vecSend : List (CScript × Int))
    (nValue nFeeRet : Int) : Prop where
  nonneg : ∀ p ∈ vecSend, 0 ≤ p.2
  total : sendTotal vecSend 0 = some nValue
  fee : 0 ≤ nFeeRet
  round : moneyRange (nValue + nFeeRet) = true
  rate : moneyRange c.nTransactionFee = true
  kept : w.MoneyKept
  holdings : moneyRange w.holdings = true

namespace Exact

theorem sums (h : w.Exact c vecSend nValue nFeeRet) (k : Nat) :
    moneyRange (((payments vecSend).take k).map CTxOut.nValue).sum = true := by
  have hamount := sendTotal_sum h.total
  have hall : ∀ n ∈ (payments vecSend).map CTxOut.nValue, 0 ≤ n := by
    intro n hn
    obtain ⟨txout, htxout, rfl⟩ := List.mem_map.mp hn
    obtain ⟨p, hp, rfl⟩ := List.mem_map.mp htxout
    exact h.nonneg p hp
  have hsplit := List.sum_take_add_sum_drop ((payments vecSend).map CTxOut.nValue) k
  have hfirst := List.sum_nonneg fun n hn => hall n (List.mem_of_mem_take (i := k) hn)
  have hrest := List.sum_nonneg fun n hn => hall n (List.mem_of_mem_drop (i := k) hn)
  have hfee := h.fee
  obtain ⟨-, hmax⟩ := moneyRange_iff.mp h.round
  rw [List.map_take]
  exact moneyRange_iff.mpr ⟨hfirst, by omega⟩

-- The fee only rises, so what holds of the last round holds of those before it.
theorem of_le {nEarlier : Int} (h : w.Exact c vecSend nValue nFeeRet) (hearly : 0 ≤ nEarlier)
    (hle : nEarlier ≤ nFeeRet) : w.Exact c vecSend nValue nEarlier := by
  have hsum := (moneyRange_iff.mp (h.sums (payments vecSend).length)).1
  rw [List.take_length] at hsum
  have hamount := sendTotal_sum h.total
  obtain ⟨-, hmax⟩ := moneyRange_iff.mp h.round
  have hround : moneyRange (nValue + nEarlier) = true := moneyRange_iff.mpr ⟨by omega, by omega⟩
  exact { h with fee := hearly, round := hround }

theorem target (h : w.Exact c vecSend nValue nFeeRet) : IntFits 64 (nValue + nFeeRet + cent) := by
  obtain ⟨hlow, hhigh⟩ := moneyRange_iff.mp h.round
  have hmax := maxMoney_eq
  have hcent : cent = 1000000 := by decide
  constructor <;> omega

theorem change (h : w.Exact c vecSend nValue nFeeRet)
    (hchosen : w.selectCoins e s fuel (nValue + nFeeRet) ch = .ok (some (setCoins, nValueIn))) :
    moneyRange (nValueIn - (nValue + nFeeRet)) = true := by
  obtain ⟨-, hreached⟩ := selectCoins_value hchosen
  obtain ⟨-, hin⟩ := moneyRange_iff.mp (selectCoins_range h.holdings hchosen)
  obtain ⟨hlow, -⟩ := moneyRange_iff.mp h.round
  exact moneyRange_iff.mpr ⟨by omega, by omega⟩

-- The name output of the input transaction comes on top of the coins chosen for the rest.
theorem changeWithInputTx (h : w.Exact c vecSend nValue nFeeRet) {hash : Uint256} {txout : CTxOut}
    (hget : w.mapWallet[hash]? = some wtxIn) (hout : wtxIn.merkle.tx.vout[nTxOut]? = some txout)
    (hchosen : w.selectExtra e s fuel (nValue + nFeeRet - txout.nValue) ch =
      .ok (some (setCoins, nValueIn))) :
    IntFits 64 (nValueIn + txout.nValue - (nValue + nFeeRet)) := by
  have hmax := maxMoney_eq
  obtain ⟨hlow, hhigh⟩ := moneyRange_iff.mp h.round
  obtain ⟨hpos, hle⟩ := moneyRange_iff.mp (h.kept hash wtxIn hget txout (List.mem_of_getElem? hout))
  have hin : 0 ≤ nValueIn ∧ nValueIn ≤ maxMoney := by
    unfold selectExtra at hchosen
    split at hchosen
    · exact moneyRange_iff.mp (selectCoins_range h.holdings hchosen)
    · cases hchosen
      exact ⟨le_rfl, by omega⟩
  constructor <;> omega

theorem payFee (h : w.Exact c vecSend nValue nFeeRet) {nBytes : Nat} (hbytes : nBytes < maxBlockSize) :
    IntFits 64 (c.nTransactionFee * (1 + (nBytes / 1000 : Nat))) := by
  have hmax := maxMoney_eq
  obtain ⟨hpos, hle⟩ := moneyRange_iff.mp h.rate
  have hsize : maxBlockSize = 1000000 := by decide
  have hrate : (1 + (nBytes / 1000 : Nat) : Int) ≤ 1000 := by omega
  have hprod : c.nTransactionFee * (1 + (nBytes / 1000 : Nat)) ≤ maxMoney * 1000 :=
    mul_le_mul hle hrate (by omega) (by omega)
  have hnonneg : 0 ≤ c.nTransactionFee * (1 + (nBytes / 1000 : Nat)) := mul_nonneg hpos (by omega)
  constructor <;> omega

end Exact

end Exact

theorem creation_terminates_and_conserves (w : Wallet env) (e : NodeEnv) (s : NodeState)
    (fuel : Nat) (c : SendEnv) (vecSend : List (CScript × Int)) (wtxNew : CTransaction)
    (chs : Nat → Choices) :
    (∀ nValue n, (feeCap c maxStandardTxSize - c.nTransactionFee).toNat < n →
      let round := fun k nFeeRet =>
        w.createRound e s fuel c vecSend nValue wtxNew (chs k) nFeeRet
      ∃ r, Loops round 0 c.nTransactionFee r ∧
        feeLoop round n 0 c.nTransactionFee = r.map (Option.map Prod.fst)) ∧
    (∀ wtxIn nTxOut nValue n, (feeCap c (maxBlockSizeGen / 5) - c.nTransactionFee).toNat < n →
      let round := fun k nFeeRet =>
        w.createRoundWithInputTx e s fuel c vecSend nValue wtxIn nTxOut wtxNew (chs k) nFeeRet
      ∃ r, Loops round 0 c.nTransactionFee r ∧
        feeLoop round n 0 c.nTransactionFee = r.map (Option.map Prod.fst)) ∧
    (∀ tx nFeeRet, w.createTransaction e s fuel c vecSend wtxNew chs = .ok (some tx) →
      w.createTransactionFee e s fuel c vecSend wtxNew chs = .ok nFeeRet →
        w.Funds e s c vecSend tx nFeeRet) ∧
    ∀ (hash : Uint256) wtxIn nTxOut txout op vvch tx nFeeRet, w.mapWallet[hash]? = some wtxIn →
      wtxIn.merkle.tx.vout[nTxOut]? = some txout →
      (decodeNameScript txout.scriptPubKey op vvch).ok = true →
      w.createTransactionWithInputTx e s fuel c vecSend wtxIn nTxOut wtxNew chs = .ok (some tx) →
      w.createTransactionWithInputTxFee e s fuel c vecSend wtxIn nTxOut wtxNew chs = .ok nFeeRet →
        w.Funds e s c vecSend tx nFeeRet := by
  refine ⟨?_, ?_, ?_, ?_⟩
  · intro nValue n hn
    exact (createRound_raises chs).loops hn
  · intro wtxIn nTxOut nValue n hn
    exact (createRoundWithInputTx_raises chs).loops hn
  · intro tx nFeeRet h hfee
    exact createTransaction_funds h hfee
  · intro hash wtxIn nTxOut txout op vvch tx nFeeRet hin hout hname h hfee
    exact createTransactionWithInputTx_funds hin hout hname h hfee

end Wallet

theorem fundedWallet_conserves :
    (∃ r, Loops (fun _ nFeeRet => fundedWallet.createRound sampleNodeEnv zeroNode 5 sampleSend
      [(payToPubkey walletPubKey, 3 * coin)] (3 * coin) ⟨1, [], [], 0⟩ sampleChoices nFeeRet)
        0 0 r) ∧
    (∃ tx, fundedPayment = .ok (some tx) ∧ fundedWallet.Funds sampleNodeEnv zeroNode sampleSend
      [(payToPubkey walletPubKey, 3 * coin)] tx 0) ∧
    ∃ tx, fundedUpdate = .ok (some tx) ∧ fundedWallet.Funds sampleNodeEnv zeroNode sampleSend
      [(nameNewScript, 3 * coin)] tx 0 := by
  have hname : (decodeNameScript nameNewScript 0 []).ok = true := by decide +kernel
  have hget : fundedWallet.mapWallet[nameTx.merkle.tx.getHash sampleEnv]? = some nameTx :=
    TreeMap.getElem?_insert_self
  obtain ⟨tx, htx⟩ := ok_some_of_isSome (x := fundedPayment) (by decide +kernel)
  obtain ⟨tx', htx'⟩ := ok_some_of_isSome (x := fundedUpdate) (by decide +kernel)
  obtain ⟨hloops, -, hpay, -⟩ := fundedWallet.creation_terminates_and_conserves sampleNodeEnv zeroNode 5
    sampleSend [(payToPubkey walletPubKey, 3 * coin)] ⟨1, [], [], 0⟩ (fun _ => sampleChoices)
  obtain ⟨-, -, -, hupdate⟩ := fundedWallet.creation_terminates_and_conserves sampleNodeEnv zeroNode 5
    sampleSend [(nameNewScript, 3 * coin)] ⟨namecoinTxVersion, [], [], 0⟩ (fun _ => sampleChoices)
  obtain ⟨r, hr, -⟩ := hloops (3 * coin) _ (Nat.lt_succ_self _)
  exact ⟨⟨r, hr⟩, ⟨tx, htx, hpay tx 0 htx (by decide +kernel)⟩,
    tx', htx', hupdate _ _ _ _ _ _ tx' 0 hget rfl hname htx' (by decide +kernel)⟩

end Namecoin
