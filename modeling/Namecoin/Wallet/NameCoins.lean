import Namecoin.Wallet.Coins
import Namecoin.Node.MainChain

namespace Namecoin

open Std (TreeMap)

section Lists

variable {α : Type}

theorem mem_of_mem_swapAt {l : List α} {i j : Nat} {a : α} (h : a ∈ swapAt l i j) : a ∈ l := by
  unfold swapAt at h
  split at h
  · rename_i x y hx hy
    rcases List.mem_or_eq_of_mem_set h with h | rfl
    · rcases List.mem_or_eq_of_mem_set h with h | rfl
      · exact h
      · exact List.mem_of_getElem? hy
    · exact List.mem_of_getElem? hx
  · exact h

theorem mem_of_mem_randomShuffle {getRandInt : Nat → Nat} {l : List α} {a : α}
    (h : a ∈ randomShuffle getRandInt l) : a ∈ l := by
  have hfold : ∀ (is : List Nat) (l' : List α),
      a ∈ is.foldl (fun l i => swapAt l i (getRandInt i % (i + 1))) l' → a ∈ l' := by
    intro is
    induction is with
    | nil => exact fun l' h => h
    | cons i is ih => exact fun l' h => mem_of_mem_swapAt (ih _ h)
  exact hfold _ _ h

end Lists

structure CoinScan.All (Q : Coin → Prop) (r : CoinScan) : Prop where
  exact : ∀ p, r.exact = some p → Q p.2
  larger : ∀ coin, r.lowestLarger.2 = some coin → Q coin
  lower : ∀ p ∈ r.vValue, Q p.2

namespace CoinScan

variable {Q : Coin → Prop} {r : CoinScan} {nTargetValue n : Int} {coin : Coin}

theorem all_start : CoinScan.start.All Q := by
  constructor <;> simp [CoinScan.start]

theorem All.put (h : r.All Q) (hcoin : Q coin) : (r.put nTargetValue n coin).All Q := by
  unfold CoinScan.put
  split
  · refine ⟨?_, h.larger, h.lower⟩
    intro p hp
    cases hp
    exact hcoin
  · split
    · refine ⟨h.exact, h.larger, ?_⟩
      intro p hp
      rcases List.mem_append.mp hp with hp | hp
      · exact h.lower p hp
      · rw [List.mem_singleton.mp hp]
        exact hcoin
    · split
      · refine ⟨h.exact, ?_, h.lower⟩
        intro c hc
        cases hc
        exact hcoin
      · exact h

theorem mem_of_mem_included {vValue : List (Int × Coin)} {vfBest : List Bool} {p : Int × Coin}
    (h : p ∈ included vValue vfBest) : p ∈ vValue := by
  obtain ⟨q, hq, rfl⟩ := List.mem_map.mp h
  exact (List.of_mem_zip (List.mem_filter.mp hq).1).1

theorem All.largerCoin {l : List (Int × Coin)} (h : r.All Q) (hl : r.largerCoin = some l) :
    ∀ p ∈ l, Q p.2 := by
  intro p hp
  obtain ⟨c, hc, rfl⟩ := Option.map_eq_some_iff.mp hl
  rw [List.mem_singleton.mp hp]
  exact h.larger c hc

theorem All.closest {ch : Choices} {nCall : Nat} (h : r.All Q) :
    ∀ p ∈ r.closest nTargetValue ch nCall, Q p.2 := by
  have hbest : ∀ p ∈ included (r.approximate nTargetValue ch nCall).1
      (r.approximate nTargetValue ch nCall).2.vfBest, Q p.2 := by
    intro p hp
    exact h.lower p (List.mem_mergeSort.mp (mem_of_mem_included hp))
  unfold CoinScan.closest
  dsimp only
  split
  · rename_i coins hcoins
    split
    · exact h.largerCoin hcoins
    · exact hbest
  · exact hbest

theorem All.choose {ch : Choices} {nCall : Nat} {l : List (Int × Coin)} (h : r.All Q)
    (hl : r.choose nTargetValue ch nCall = some l) : ∀ p ∈ l, Q p.2 := by
  unfold CoinScan.choose at hl
  split at hl
  · cases hl
    exact h.lower
  · split at hl
    · exact h.largerCoin hl
    · split at hl
      · cases hl
        exact h.closest
      · cases hl
        exact h.closest

end CoinScan

namespace Wallet

variable {env : Env} {w : Wallet env} {e : NodeEnv} {s : NodeState} {fuel : Nat}

def Spends (w : Wallet env) (coin : Coin) : Prop :=
  ∃ wtx txout, w.mapWallet[coin.1]? = some wtx ∧ wtx.merkle.tx.vout[coin.2]? = some txout ∧
    w.keys.isSpendable env txout.scriptPubKey = true

theorem Spends.not_name {coin : Coin} (h : w.Spends coin) :
    ∃ wtx txout, w.mapWallet[coin.1]? = some wtx ∧ wtx.merkle.tx.vout[coin.2]? = some txout ∧
      ∀ op vvch, (decodeNameScript txout.scriptPubKey op vvch).ok = false := by
  obtain ⟨wtx, txout, hwtx, hout, hspend⟩ := h
  refine ⟨wtx, txout, hwtx, hout, ?_⟩
  intro op vvch
  by_contra hok
  rw [Bool.not_eq_false] at hok
  rw [CKeyStore.isSpendable_of_solver_none (solver_nameScript hok)] at hspend
  cases hspend

theorem scanOuts_all {nTargetValue : Int} {hash : Uint256} {wtx : WalletTx} {vout : List CTxOut}
    {i : Nat} {r r' : CoinScan} (hwtx : w.mapWallet[hash]? = some wtx)
    (hvout : vout = wtx.merkle.tx.vout.drop i) (h : r.All w.Spends)
    (hscan : w.scanOuts nTargetValue hash wtx vout i r = .ok r') : r'.All w.Spends := by
  induction vout generalizing i r with
  | nil =>
    cases hscan
    exact h
  | cons txout rest ih =>
    have hrest : rest = wtx.merkle.tx.vout.drop (i + 1) := by
      rw [← List.tail_drop, ← hvout, List.tail_cons]
    have hout : wtx.merkle.tx.vout[i]? = some txout := by
      rw [← List.head?_drop, ← hvout, List.head?_cons]
    simp only [scanOuts] at hscan
    split at hscan
    · cases hscan
      exact h
    · obtain ⟨spent, -, hscan⟩ := Except.bind_eq_ok.mp hscan
      split at hscan
      · exact ih hrest h hscan
      · rename_i hkeep
        simp only [Bool.or_eq_true, not_or, Bool.not_eq_true', Bool.not_eq_false] at hkeep
        exact ih hrest (h.put ⟨wtx, txout, hwtx, hout, hkeep.1.2⟩) hscan

theorem scanTxs_all {nTargetValue nConfMine nConfTheirs : Int}
    {vCoins : List (Uint256 × WalletTx)} {r r' : CoinScan}
    (hcoins : ∀ p ∈ vCoins, w.mapWallet[p.1]? = some p.2) (h : r.All w.Spends)
    (hscan : w.scanTxs e s fuel nTargetValue nConfMine nConfTheirs vCoins r = .ok r') :
    r'.All w.Spends := by
  induction vCoins generalizing r with
  | nil =>
    cases hscan
    exact h
  | cons pcoin rest ih =>
    have hrest : ∀ p ∈ rest, w.mapWallet[p.1]? = some p.2 :=
      fun p hp => hcoins p (List.mem_cons_of_mem _ hp)
    simp only [scanTxs] at hscan
    split at hscan
    · cases hscan
      exact h
    · obtain ⟨ok, -, hscan⟩ := Except.bind_eq_ok.mp hscan
      split at hscan
      · obtain ⟨r1, hr1, hscan⟩ := Except.bind_eq_ok.mp hscan
        have hhead := hcoins pcoin List.mem_cons_self
        exact ih hrest (scanOuts_all hhead (List.drop_zero).symm h hr1) hscan
      · exact ih hrest h hscan

theorem setInsertAll_all {Q : Coin → Prop} {l : List (Int × Coin)} (h : ∀ p ∈ l, Q p.2) :
    (∀ coin ∈ (setInsertAll l).1, Q coin) ∧ (setInsertAll l).1.Nodup := by
  refine ⟨?_, List.nodup_dedup _⟩
  intro coin hcoin
  obtain ⟨p, hp, rfl⟩ := List.mem_map.mp (List.mem_dedup.mp hcoin)
  exact h p hp

theorem selectCoinsMinConf_spends {nTargetValue nConfMine nConfTheirs nValueRet : Int}
    {ch : Choices} {nCall : Nat} {setCoins : List Coin}
    (h : w.selectCoinsMinConf e s fuel nTargetValue nConfMine nConfTheirs ch nCall =
      .ok (some (setCoins, nValueRet))) :
    (∀ coin ∈ setCoins, w.Spends coin) ∧ setCoins.Nodup := by
  obtain ⟨r, hscan, h⟩ := Except.bind_eq_ok.mp h
  have hall : r.All w.Spends := by
    refine scanTxs_all ?_ CoinScan.all_start hscan
    intro p hp
    exact TreeMap.mem_toList_iff_getElem?_eq_some.mp (mem_of_mem_randomShuffle hp)
  split at h
  · rename_i coin hexact
    have hone : ∀ p ∈ [coin], w.Spends p.2 := by
      intro p hp
      rw [List.mem_singleton.mp hp]
      exact hall.exact coin hexact
    have heq := Option.some.inj (Except.ok.inj h)
    have hset := setInsertAll_all hone
    rw [heq] at hset
    exact hset
  · obtain ⟨l, hl, heq⟩ := Option.map_eq_some_iff.mp (Except.ok.inj h)
    have hset := setInsertAll_all (hall.choose hl)
    rw [heq] at hset
    exact hset

theorem selectCoins_spends {nTargetValue nValueRet : Int} {ch : Choices} {setCoins : List Coin}
    (h : w.selectCoins e s fuel nTargetValue ch = .ok (some (setCoins, nValueRet))) :
    (∀ coin ∈ setCoins, w.Spends coin) ∧ setCoins.Nodup := by
  obtain ⟨first, hfirst, h⟩ := Except.bind_eq_ok.mp h
  split at h
  · rw [Except.pure_eq_ok.mp h] at hfirst
    exact selectCoinsMinConf_spends hfirst
  · obtain ⟨second, hsecond, h⟩ := Except.bind_eq_ok.mp h
    split at h
    · rw [Except.pure_eq_ok.mp h] at hsecond
      exact selectCoinsMinConf_spends hsecond
    · exact selectCoinsMinConf_spends h

end Wallet

def CTransaction.prevouts (tx : CTransaction) : List COutPoint := tx.vin.map CTxIn.prevout

theorem setScriptSig_prevouts (tx : CTransaction) (nIn : Nat) (scriptSig : CScript) :
    (tx.setScriptSig nIn scriptSig).prevouts = tx.prevouts := by
  apply List.ext_getElem?
  intro i
  simp only [CTransaction.prevouts, CTransaction.setScriptSig, List.getElem?_map,
    List.getElem?_modify]
  split
  · cases tx.vin[i]? <;> rfl
  · simp

theorem signSignature_prevouts {env : Env} {c : SendEnv} {ks : CKeyStore} {fromPubKey : CScript}
    {tx tx' : CTransaction} {nIn nHashType : Nat}
    (h : signSignature env c ks fromPubKey tx nIn nHashType = some tx') :
    tx'.prevouts = tx.prevouts := by
  unfold signSignature at h
  dsimp only at h
  split at h
  · cases h
    exact setScriptSig_prevouts _ _ _
  · cases h

theorem signInputs_prevouts {env : Env} {c : SendEnv} {ks : CKeyStore} {coins : List Input}
    {nIn : Nat} {tx tx' : CTransaction}
    (h : signInputs env c ks coins nIn tx = .ok (some tx')) : tx'.prevouts = tx.prevouts := by
  induction coins generalizing nIn tx with
  | nil =>
    cases h
    rfl
  | cons coin rest ih =>
    simp only [signInputs] at h
    split at h
    · cases h
    · split at h
      · cases h
      · rename_i txSigned hsign
        rw [ih h]
        exact signSignature_prevouts hsign

theorem feeLoop_done {round : Nat → Int → Except Fault Round} {fuel k : Nat} {nFeeRet : Int}
    {tx : CTransaction} (h : feeLoop round fuel k nFeeRet = .ok (some tx)) :
    ∃ k nFeeRet, round k nFeeRet = .ok (.done tx) := by
  induction fuel generalizing k nFeeRet with
  | zero => cases h
  | succ fuel ih =>
    obtain ⟨r, hr, h⟩ := Except.bind_eq_ok.mp h
    cases r with
    | fail => cases h
    | retry nFeeRet' => exact ih h
    | done wtxNew =>
      cases h
      exact ⟨k, nFeeRet, hr⟩

namespace Wallet

variable {env : Env} {w : Wallet env} {e : NodeEnv} {s : NodeState} {fuel : Nat} {c : SendEnv}
  {vecSend : List (CScript × Int)} {ch : Choices} {wtxNew tx : CTransaction}

theorem assemble_ends {nMaxBytes : Nat} {nFeeRet nTotalValue nValueIn : Int}
    {vecCoins : List Input} {round : Round}
    (h : w.assemble e s c vecSend wtxNew ch nMaxBytes nFeeRet nTotalValue nValueIn vecCoins =
      .ok round) :
    round = .fail ∨ ∃ vout txSigned nNeeded,
      w.fillVout vecSend ch (nValueIn - nTotalValue) = .ok vout ∧
      signInputs env c w.keys vecCoins 0 { wtxNew with
        vin := vecCoins.map (fun coin => CTxIn.mk (coin.outPoint env) [] uintMax)
        vout := vout } = .ok (some txSigned) ∧
      txSigned.getSerializeSize < nMaxBytes ∧
      nNeeded = max (c.nTransactionFee * (1 + (txSigned.getSerializeSize / 1000 : Nat)))
        (txSigned.getMinFee 1 (c.allowFree (credits e s vecCoins) txSigned.getSerializeSize)
          false) ∧
      (nFeeRet < nNeeded ∧ round = .retry nNeeded ∨
        nNeeded ≤ nFeeRet ∧ round = .done txSigned) := by
  obtain ⟨vout, hvout, h⟩ := Except.bind_eq_ok.mp h
  obtain ⟨signed, hsigned, h⟩ := Except.bind_eq_ok.mp h
  cases signed with
  | none =>
    cases h
    exact .inl rfl
  | some txSigned =>
    dsimp only at h
    split at h
    · cases h
      exact .inl rfl
    · rename_i hsize
      refine .inr ⟨vout, txSigned, _, hvout, hsigned, not_le.mp hsize, rfl, ?_⟩
      split at h
      · rename_i hlow
        cases h
        exact .inl ⟨hlow, rfl⟩
      · rename_i hfee
        cases h
        exact .inr ⟨not_lt.mp hfee, rfl⟩

theorem assemble_done {nMaxBytes : Nat} {nFeeRet nTotalValue nValueIn : Int}
    {vecCoins : List Input}
    (h : w.assemble e s c vecSend wtxNew ch nMaxBytes nFeeRet nTotalValue nValueIn vecCoins =
      .ok (.done tx)) :
    ∃ vout, w.fillVout vecSend ch (nValueIn - nTotalValue) = .ok vout ∧
      signInputs env c w.keys vecCoins 0 { wtxNew with
        vin := vecCoins.map (fun coin => CTxIn.mk (coin.outPoint env) [] uintMax)
        vout := vout } = .ok (some tx) := by
  rcases assemble_ends h with hfail | ⟨vout, txSigned, nNeeded, hvout, hsigned, -, -, hend⟩
  · cases hfail
  · rcases hend with ⟨-, hretry⟩ | ⟨-, hdone⟩
    · cases hretry
    · cases hdone
      exact ⟨vout, hvout, hsigned⟩

theorem assemble_prevouts {nMaxBytes : Nat} {nFeeRet nTotalValue nValueIn : Int}
    {vecCoins : List Input}
    (h : w.assemble e s c vecSend wtxNew ch nMaxBytes nFeeRet nTotalValue nValueIn vecCoins =
      .ok (.done tx)) : tx.prevouts = vecCoins.map (Input.outPoint env) := by
  obtain ⟨vout, -, hsigned⟩ := assemble_done h
  rw [signInputs_prevouts hsigned, CTransaction.prevouts, List.map_map]
  rfl

def coinPoint (coin : Coin) : COutPoint := ⟨coin.1, coin.2⟩

theorem inputs_outPoints {addr : Uint256 → Nat} {setCoins : List Coin}
    (h : ∀ coin ∈ setCoins, w.Spends coin) :
    (w.inputs addr setCoins).map (Input.outPoint env) =
      (setCoins.mergeSort (inSetOrder addr)).map coinPoint := by
  have hsorted : ∀ coin ∈ setCoins.mergeSort (inSetOrder addr), w.Spends coin :=
    fun coin hcoin => h coin (List.mem_mergeSort.mp hcoin)
  unfold inputs
  generalize setCoins.mergeSort (inSetOrder addr) = sorted at hsorted
  induction sorted with
  | nil => rfl
  | cons coin rest ih =>
    obtain ⟨wtx, txout, hwtx, -⟩ := hsorted coin List.mem_cons_self
    have hrest := ih (fun c hc => hsorted c (List.mem_cons_of_mem _ hc))
    rw [List.filterMap_cons, hwtx, Option.map_some, List.map_cons, List.map_cons, hrest]
    simp only [Input.outPoint, coinPoint, w.keyed _ _ hwtx]

theorem coinPoint_injective : Function.Injective coinPoint := by
  rintro ⟨h, n⟩ ⟨h', n'⟩ heq
  simpa [coinPoint] using heq

theorem createTransaction_prevouts {chs : Nat → Choices}
    (h : w.createTransaction e s fuel c vecSend wtxNew chs = .ok (some tx)) :
    ∃ setCoins : List Coin, tx.prevouts.Perm (setCoins.map coinPoint) ∧
      (∀ coin ∈ setCoins, w.Spends coin) ∧ setCoins.Nodup := by
  unfold createTransaction at h
  split at h
  · obtain ⟨k, nFeeRet, hround⟩ := feeLoop_done h
    obtain ⟨chosen, hchosen, hround⟩ := Except.bind_eq_ok.mp hround
    cases chosen with
    | none => cases hround
    | some r =>
      obtain ⟨setCoins, nValueIn⟩ := r
      obtain ⟨hspends, hnodup⟩ := selectCoins_spends hchosen
      refine ⟨setCoins, ?_, hspends, hnodup⟩
      rw [assemble_prevouts hround, inputs_outPoints hspends]
      exact (List.mergeSort_perm _ _).map _
  · cases h

theorem selectExtra_spends {nNeeded nValueRet : Int} {setCoins : List Coin}
    (h : w.selectExtra e s fuel nNeeded ch = .ok (some (setCoins, nValueRet))) :
    (∀ coin ∈ setCoins, w.Spends coin) ∧ setCoins.Nodup := by
  unfold selectExtra at h
  split at h
  · exact selectCoins_spends h
  · cases h
    simp

theorem createRoundWithInputTx_done {nValue nFeeRet : Int} {wtxIn : WalletTx} {nTxOut : Nat}
    {ch : Choices}
    (h : w.createRoundWithInputTx e s fuel c vecSend nValue wtxIn nTxOut wtxNew ch nFeeRet =
      .ok (.done tx)) :
    ∃ txout setCoins nValueIn, wtxIn.merkle.tx.vout[nTxOut]? = some txout ∧
      w.selectExtra e s fuel (nValue + nFeeRet - txout.nValue) ch = .ok (some (setCoins, nValueIn)) ∧
      w.assemble e s c vecSend wtxNew ch (maxBlockSizeGen / 5) nFeeRet (nValue + nFeeRet)
        (nValueIn + txout.nValue) ((wtxIn, nTxOut) :: w.inputs ch.addr setCoins) =
          .ok (.done tx) := by
  unfold createRoundWithInputTx at h
  dsimp only at h
  split at h
  · cases h
  · next txout hout =>
    obtain ⟨chosen, hchosen, h⟩ := Except.bind_eq_ok.mp h
    cases chosen with
    | none => cases h
    | some r => exact ⟨txout, r.1, r.2, hout, hchosen, h⟩

theorem createTransactionWithInputTx_round {wtxIn : WalletTx} {nTxOut : Nat}
    {chs : Nat → Choices}
    (h : w.createTransactionWithInputTx e s fuel c vecSend wtxIn nTxOut wtxNew chs =
      .ok (some tx)) :
    ∃ k nValue nFeeRet, w.createRoundWithInputTx e s fuel c vecSend nValue wtxIn nTxOut wtxNew
      (chs k) nFeeRet = .ok (.done tx) := by
  unfold createTransactionWithInputTx at h
  split at h
  · obtain ⟨k, nFeeRet, hround⟩ := feeLoop_done h
    exact ⟨k, _, nFeeRet, hround⟩
  · cases h

theorem createTransactionWithInputTx_prevouts {wtxIn : WalletTx} {nTxOut : Nat}
    {chs : Nat → Choices}
    (h : w.createTransactionWithInputTx e s fuel c vecSend wtxIn nTxOut wtxNew chs =
      .ok (some tx)) :
    ∃ (setCoins : List Coin) (rest : List COutPoint),
      tx.prevouts = Input.outPoint env (wtxIn, nTxOut) :: rest ∧
      rest.Perm (setCoins.map coinPoint) ∧ (∀ coin ∈ setCoins, w.Spends coin) ∧
      setCoins.Nodup := by
  obtain ⟨k, nValue, nFeeRet, hround⟩ := createTransactionWithInputTx_round h
  obtain ⟨txout, setCoins, nValueIn, -, hchosen, hdone⟩ := createRoundWithInputTx_done hround
  have hspends := selectExtra_spends hchosen
  refine ⟨setCoins, (setCoins.mergeSort (inSetOrder (chs k).addr)).map coinPoint, ?_,
    (List.mergeSort_perm _ _).map _, hspends⟩
  rw [assemble_prevouts hdone, List.map_cons, inputs_outPoints hspends.1]

def Plain (w : Wallet env) (prevout : COutPoint) : Prop :=
  ∃ wtx txout, w.mapWallet[prevout.hash]? = some wtx ∧
    wtx.merkle.tx.vout[prevout.n]? = some txout ∧
    ∀ op vvch, (decodeNameScript txout.scriptPubKey op vvch).ok = false

theorem Spends.plain {coin : Coin} (h : w.Spends coin) : w.Plain (coinPoint coin) := h.not_name

theorem Plain.no_name {h : Uint256} {wtxIn : WalletTx} {nTxOut op : Nat} {txout : CTxOut}
    {vvch : List VchType} (hplain : w.Plain ⟨h, nTxOut⟩) (hin : w.mapWallet[h]? = some wtxIn)
    (hout : wtxIn.merkle.tx.vout[nTxOut]? = some txout) :
    (decodeNameScript txout.scriptPubKey op vvch).ok = false := by
  obtain ⟨wtx, txout', hwtx, hout', hno⟩ := hplain
  cases hwtx.symm.trans hin
  cases hout'.symm.trans hout
  exact hno op vvch

theorem createTransaction_plain {chs : Nat → Choices}
    (h : w.createTransaction e s fuel c vecSend wtxNew chs = .ok (some tx)) :
    ∀ prevout ∈ tx.prevouts, w.Plain prevout := by
  obtain ⟨setCoins, hperm, hspends, -⟩ := createTransaction_prevouts h
  intro prevout hmem
  obtain ⟨coin, hcoin, rfl⟩ := List.mem_map.mp (hperm.mem_iff.mp hmem)
  exact (hspends coin hcoin).plain

theorem createTransactionWithInputTx_nodup {h : Uint256} {wtxIn : WalletTx} {nTxOut : Nat}
    {txout : CTxOut} {op : Nat} {vvch : List VchType} {chs : Nat → Choices}
    (hin : w.mapWallet[h]? = some wtxIn) (hout : wtxIn.merkle.tx.vout[nTxOut]? = some txout)
    (hname : (decodeNameScript txout.scriptPubKey op vvch).ok = true)
    (hcreate : w.createTransactionWithInputTx e s fuel c vecSend wtxIn nTxOut wtxNew chs =
      .ok (some tx)) :
    tx.prevouts.head? = some ⟨h, nTxOut⟩ ∧ (∀ prevout ∈ tx.prevouts.tail, w.Plain prevout) ∧
      tx.prevouts.Nodup := by
  obtain ⟨setCoins, rest, hprev, hperm, hspends, hnodup⟩ :=
    createTransactionWithInputTx_prevouts hcreate
  have hhead : Input.outPoint env (wtxIn, nTxOut) = ⟨h, nTxOut⟩ := by
    rw [Input.outPoint, w.keyed h wtxIn hin]
  have hplain : ∀ prevout ∈ rest, w.Plain prevout := by
    intro prevout hmem
    obtain ⟨coin, hcoin, rfl⟩ := List.mem_map.mp (hperm.mem_iff.mp hmem)
    exact (hspends coin hcoin).plain
  rw [hprev, hhead]
  refine ⟨rfl, hplain, List.nodup_cons.mpr ⟨?_, ?_⟩⟩
  · intro hmem
    rw [(hplain _ hmem).no_name hin hout] at hname
    cases hname
  · exact hperm.nodup_iff.mpr (hnodup.map coinPoint_injective)

theorem payments_keep_names (w : Wallet env) (e : NodeEnv) (s : NodeState) (fuel : Nat)
    (c : SendEnv) :
    (∀ script op vvch, (decodeNameScript script op vvch).ok = true → solver script = none) ∧
    (∀ nTargetValue ch setCoins nValueRet,
      w.selectCoins e s fuel nTargetValue ch = .ok (some (setCoins, nValueRet)) →
        ∀ coin ∈ setCoins, w.Plain (coinPoint coin)) ∧
    (∀ vecSend wtxNew chs tx, w.createTransaction e s fuel c vecSend wtxNew chs = .ok (some tx) →
      ∀ prevout ∈ tx.prevouts, w.Plain prevout) ∧
    (∀ vecSend h wtxIn nTxOut txout op vvch wtxNew chs tx, w.mapWallet[h]? = some wtxIn →
      wtxIn.merkle.tx.vout[nTxOut]? = some txout →
      (decodeNameScript txout.scriptPubKey op vvch).ok = true →
      w.createTransactionWithInputTx e s fuel c vecSend wtxIn nTxOut wtxNew chs = .ok (some tx) →
        tx.prevouts.head? = some ⟨h, nTxOut⟩ ∧ (∀ prevout ∈ tx.prevouts.tail, w.Plain prevout) ∧
          tx.prevouts.Nodup) := by
  refine ⟨?_, ?_, ?_, ?_⟩
  · intro script op vvch hok
    exact solver_nameScript hok
  · intro nTargetValue ch setCoins nValueRet hselect coin hcoin
    exact ((selectCoins_spends hselect).1 coin hcoin).plain
  · intro vecSend wtxNew chs tx hcreate
    exact createTransaction_plain hcreate
  · intro vecSend h wtxIn nTxOut txout op vvch wtxNew chs tx hin hout hname hcreate
    exact createTransactionWithInputTx_nodup hin hout hname hcreate

end Wallet

def walletPubKey : VchType := List.replicate 33 2

def walletKeys : CKeyStore where
  mapKeys := (∅ : KeyMap).insert walletPubKey [9]
  mapCryptedKeys := ∅
  vMasterKey := []
  fUseCrypto := false
  mapPubKeys := Function.update (fun _ => none) (sampleEnv.hash160 walletPubKey) (some walletPubKey)

def nameNewScript : CScript :=
  [UInt8.ofNat op1, 1, 7, UInt8.ofNat opDrop] ++ setBitcoinAddress (sampleEnv.hash160 walletPubKey)

def minedTx (n : Nat) (txout : CTxOut) : WalletTx where
  merkle := ⟨⟨1, [⟨⟨5, n⟩, [], uintMax⟩], [txout], 0⟩, zeroBlock.getHash sampleEnv, [], 0⟩
  nTimeReceived := 0
  fFromMe := false
  vfSpent := []
  fMerkleVerified := true
  vtxPrev := []
  strFromAccount := []
  nDebitCached := none
  nDebitInclNameCached := none
  nCreditCached := none
  nAvailableCreditCached := none

def plainTx : WalletTx := minedTx 0 ⟨5 * coin, payToPubkey walletPubKey⟩

def nameTx : WalletTx := minedTx 1 ⟨cent, nameNewScript⟩

def blankWallet : Wallet sampleEnv where
  keys := walletKeys
  mapWallet := ∅
  mapAddressBook := ∅
  nMinimumInputValue := 0
  keyed := by simp

def fundedWallet : Wallet sampleEnv := (blankWallet.putTx plainTx).putTx nameTx

def sampleChoices : Choices where
  shuffle _ i := i
  rand _ _ _ := true
  addr h := h.toNat
  position _ := 0
  reservedKey := .ok walletPubKey

def sampleSend : SendEnv where
  evp := ⟨fun _ _ _ => none, fun _ _ _ => none⟩
  signatureHash _ _ _ _ := 1
  sign _ _ := some [3]
  allowFree _ _ := true
  nTransactionFee := 0

def fundedSelection : Except Fault (Option (List Coin × Int)) :=
  fundedWallet.selectCoins sampleNodeEnv zeroNode 5 (3 * coin) sampleChoices

def fundedPayment : Except Fault (Option CTransaction) :=
  fundedWallet.createTransaction sampleNodeEnv zeroNode 5 sampleSend
    [(payToPubkey walletPubKey, 3 * coin)] ⟨1, [], [], 0⟩ (fun _ => sampleChoices)

def fundedUpdate : Except Fault (Option CTransaction) :=
  fundedWallet.createTransactionWithInputTx sampleNodeEnv zeroNode 5 sampleSend
    [(nameNewScript, 3 * coin)] nameTx 0 ⟨namecoinTxVersion, [], [], 0⟩ (fun _ => sampleChoices)

theorem ok_some_of_isSome {α : Type} {x : Except Fault (Option α)}
    (h : x.toOption.join.isSome = true) : ∃ a, x = .ok (some a) := by
  cases x with
  | error f => cases h
  | ok r =>
    cases r with
    | none => cases h
    | some a => exact ⟨a, rfl⟩

theorem exists_of_reads {α β : Type} {x : Except Fault α} {f : α → β} {b : β}
    (h : x.toOption.map f = some b) : ∃ a, x = .ok a ∧ f a = b := by
  cases x with
  | error fault => cases h
  | ok a => exact ⟨a, rfl, Option.some.inj h⟩

theorem fundedWallet_keeps_names :
    solver nameNewScript = none ∧
    (∃ r, fundedSelection = .ok (some r) ∧
      ∀ coin ∈ r.1, fundedWallet.Plain (Wallet.coinPoint coin)) ∧
    (∃ tx, fundedPayment = .ok (some tx) ∧
      ∀ prevout ∈ tx.prevouts, fundedWallet.Plain prevout) ∧
    ∃ tx, fundedUpdate = .ok (some tx) ∧
      tx.prevouts.head? = some ⟨nameTx.merkle.tx.getHash sampleEnv, 0⟩ ∧ tx.prevouts.Nodup := by
  obtain ⟨hsolver, hselect, hcreate, hupdate⟩ :=
    Wallet.payments_keep_names fundedWallet sampleNodeEnv zeroNode 5 sampleSend
  have hname : (decodeNameScript nameNewScript 0 []).ok = true := by decide +kernel
  have hget : fundedWallet.mapWallet[nameTx.merkle.tx.getHash sampleEnv]? = some nameTx :=
    TreeMap.getElem?_insert_self
  obtain ⟨r, hr⟩ := ok_some_of_isSome (x := fundedSelection) (by decide +kernel)
  obtain ⟨tx, htx⟩ := ok_some_of_isSome (x := fundedPayment) (by decide +kernel)
  obtain ⟨tx', htx'⟩ := ok_some_of_isSome (x := fundedUpdate) (by decide +kernel)
  obtain ⟨hhead, -, hnodup⟩ := hupdate _ _ _ _ _ _ _ _ _ _ hget rfl hname htx'
  exact ⟨hsolver _ _ _ hname, ⟨r, hr, hselect _ _ _ _ hr⟩, ⟨tx, htx, hcreate _ _ _ _ htx⟩,
    tx', htx', hhead, hnodup⟩

end Namecoin
