import Namecoin.Chain.Overflow

namespace Namecoin

open Act

def blockSubsidy (nHeight : Nat) : Int := (50 * coin) >>> (nHeight / 210000 % 64)

structure FreshStep (env : Env) (n : ChainNode) (c : BlockCall) (b : CBlock) (n' : ChainNode) :
    Prop extends Connected env n c b n' where
  fresh : ∀ tx ∈ b.vtx, n.state.dbset.tx (tx.getHash env) = none

structure SupplyOk (env : Env) (n : ChainNode) : Prop where
  index : IndexOk env n.disk n.state.dbset.tx
  wallet : WalletOk n.state.wallet

theorem blockSubsidy_range (nHeight : Nat) :
    0 ≤ blockSubsidy nHeight ∧ blockSubsidy nHeight ≤ 50 * coin := by
  unfold blockSubsidy
  rw [Int.shiftRight_eq_div_pow]
  have hpos : (0 : Int) < ((2 ^ (nHeight / 210000 % 64) : Nat) : Int) := by positivity
  refine ⟨Int.ediv_nonneg (by decide) hpos.le, ?_⟩
  exact Int.ediv_le_self _ (by decide)

theorem getBlockValue_ok {nHeight : Nat} {nFees v : Int} (h : getBlockValue nHeight nFees = .ok v) :
    v = blockSubsidy nHeight + nFees := (add64_ok.mp h).1

theorem getBlockValue_avoids {nHeight : Nat} {nFees : Int} (h : moneyRange nFees = true) :
    NoOverflow (getBlockValue nHeight nFees) := by
  have hm := maxMoney_eq
  have hc : 50 * coin = 5000000000 := by decide
  have hs := blockSubsidy_range nHeight
  have hf := moneyRange_iff.mp h
  exact add64_avoids (show -2 ^ 63 ≤ blockSubsidy nHeight + nFees ∧
    blockSubsidy nHeight + nFees < 2 ^ 63 by omega)

theorem getBlockValue_zero (nHeight : Nat) :
    getBlockValue nHeight 0 = .ok (blockSubsidy nHeight) := by
  cases h : getBlockValue nHeight 0 with
  | error e =>
    have hc : 50 * coin = 5000000000 := by decide
    have hs := blockSubsidy_range nHeight
    have hadd : getBlockValue nHeight 0 = .ok (blockSubsidy nHeight + 0) :=
      add64_ok.mpr ⟨rfl, show -2 ^ 63 ≤ blockSubsidy nHeight + 0 by omega,
        show blockSubsidy nHeight + 0 < 2 ^ 63 by omega⟩
    rw [hadd] at h
    cases h
  | ok v =>
    rw [getBlockValue_ok h, Int.add_zero]

theorem subsidy_total (heights : Finset Nat) (h : ∀ nHeight ∈ heights, nHeight / 210000 < 64) :
    ∑ nHeight ∈ heights, blockSubsidy nHeight ≤ maxMoney := by
  have hsub : heights ⊆ Finset.range (64 * 210000) := by
    intro x hx
    have := h x hx
    rw [Finset.mem_range]
    omega
  have hnn : ∀ x ∈ Finset.range (64 * 210000), x ∉ heights → 0 ≤ blockSubsidy x :=
    fun x _ _ => (blockSubsidy_range x).1
  calc ∑ x ∈ heights, blockSubsidy x
      ≤ ∑ x ∈ Finset.range (64 * 210000), blockSubsidy x := Finset.sum_le_sum_of_subset_of_nonneg hsub hnn
    _ = 210000 • ∑ k ∈ Finset.range 64, (50 * coin) >>> (k % 64) :=
        Total.sum_range_div (fun k => (50 * coin) >>> (k % 64)) 210000 (by decide) 64
    _ = (210000 : Nat) * ∑ k ∈ Finset.range 64, (50 * coin) >>> (k % 64) := nsmul_eq_mul _ _
    _ ≤ maxMoney := by decide +kernel

theorem txsRun_fees {c : BlockCall} {txs : List CTransaction} {nTxPos : Nat} {l l' : Ledger}
    (run : c.TxsRun txs nTxPos l l') (h : moneyRange l.fees = true) :
    moneyRange l'.fees = true := by
  induction run with
  | nil nTxPos l => exact h
  | cons head tail ih =>
    refine ih ?_
    rw [TxCall.after_fees]
    cases head with
    | coinbase cb => simpa using h
    | spend cb run scan name value fee range => exact range

theorem FreshStep.freshTxs {env : Env} {n n' : ChainNode} {c : BlockCall} {b : CBlock}
    (h : FreshStep env n c b n') : FreshTxs c.env b.vtx n.state.dbset.tx where
  nodup := CBlock.checkBlock_nodup (BlockCall.connectBlock_txs h.accepted).1
  absent := by
    rw [h.sameEnv]
    exact h.fresh

theorem coinTotal_extends {env : Env} {d d' : Disk} {t : TxMap} (h : IndexOk env d t)
    (hd : d.Extends d') : coinTotal d' t = coinTotal d t := by
  refine Total.total_congr ?_
  intro hash txindex ht
  obtain ⟨tx, hok⟩ := h hash txindex ht
  simp only [entryValue, hok.read, readFromDisk_extends hd hok.read]

theorem FreshStep.coinTotal_le {env : Env} {n n' : ChainNode} {c : BlockCall} {b : CBlock}
    (h : FreshStep env n c b n') (hok : IndexOk env n.disk n.state.dbset.tx) :
    coinTotal n'.disk n'.state.dbset.tx ≤
      coinTotal n.disk n.state.dbset.tx + blockSubsidy c.pindex.pindex.nHeight := by
  obtain ⟨l, hdone⟩ := BlockCall.connectBlock_ok h.accepted
  obtain ⟨nOut, nValue, hout, hvalue, hle⟩ := hdone.value
  obtain ⟨-, cb, rest, hvtx, hcb, hrest⟩ := CBlock.checkBlock_txs hdone.check
  have hstore := h.toConnected.storable
  have hfresh := h.freshTxs
  have hokc : IndexOk c.env c.view.disk n.state.dbset.tx := by
    rw [h.sameEnv]
    exact hok.mono h.grows
  have hrun := hdone.run
  rw [hvtx] at hrun hstore hfresh hout
  cases hrun with
  | cons head tail =>
    obtain ⟨hfee, htotal⟩ := coinbase_coinTotal head hcb hstore hfresh
    have hrestTotal := txsRun_coinTotal tail hrest hstore.tail
      (FreshTxs.tail (l := ⟨n.state.dbset, n.state.mapNamePending, 0⟩) hfresh head)
      (head.after_indexOk hstore hokc)
    rw [TxCall.after_fees, hfee] at hrestTotal
    have hcbOut : nOut = valueOf cb.vout := getValueOut_ok (by simpa using hout)
    have hbv := getBlockValue_ok hvalue
    have hstart := coinTotal_extends hok h.grows
    rw [h.disk, hdone.db, writePrevIndex_tx, hrestTotal]
    rw [hfee] at htotal
    rw [htotal]
    simp only at hstart ⊢
    omega

theorem connectBlock_wallet {c : BlockCall} {b : CBlock} {s s' : ChainState}
    (h : exec (c.connectBlock b) s = (.ok (), s')) (hw : WalletOk s.wallet) :
    WalletOk s'.wallet := by
  obtain ⟨hcheck, -⟩ := BlockCall.connectBlock_txs h
  simp only [BlockCall.connectBlock, bind_ok, fromExcept_ok, get_ok, modify_ok, raiseIf_ok] at h
  obtain ⟨u0, s1, ⟨-, rfl⟩, t, s2, ⟨rfl, rfl⟩, -, s3, rfl, u1, s4, ⟨-, rfl⟩, nOut, s5, ⟨-, rfl⟩,
    nValue, s6, ⟨-, rfl⟩, -, s7, ⟨-, rfl⟩, -, s8, rfl, t, s9, ⟨rfl, rfl⟩, w, s10, ⟨hsync, rfl⟩,
    rfl⟩ := h
  exact (CWallet.syncWithWallets_spec hw (CBlock.checkBlock_txs hcheck).1).2 w hsync

theorem connectBlock_avoids {c : BlockCall} {b : CBlock} {s : ChainState}
    (hok : IndexOk c.env c.view.disk s.dbset.tx) (hw : WalletOk s.wallet)
    (hstore : (∀ tx ∈ b.vtx, tx.checkTransaction c.env = .ok ()) →
      Storable c b.vtx (c.firstTxPos b)) : NoOverflowAt (c.connectBlock b) s := by
  refine avoids_bind (avoids_fromExcept (checkBlock_avoids _ _ _ _)) (fun u s1 h1 => ?_)
  obtain ⟨hcheck, rfl⟩ := fromExcept_ok.mp h1
  obtain ⟨hall, cb, rest, hvtx, -, -⟩ := CBlock.checkBlock_txs hcheck
  refine avoids_bind avoids_get (fun t s2 h2 => ?_)
  obtain ⟨rfl, rfl⟩ := get_ok.mp h2
  have htxs : NoOverflowAt (c.connectTxs b.vtx (c.firstTxPos b)) (BlockCall.startState s) :=
    BlockCall.connectTxs_avoids hok moneyRange_zero (hstore hall)
  refine avoids_bind (avoids_modify _) (fun _ s3 h3 => ?_)
  obtain rfl := modify_ok.mp h3
  refine avoids_bind (avoids_fromExcept htxs) (fun u s4 h4 => ?_)
  obtain ⟨hr, rfl⟩ := fromExcept_ok.mp h4
  refine avoids_bind (avoids_fromExcept ?_) (fun nOut s5 h5 => ?_)
  · rw [hvtx]
    exact valueOutFrom_avoids moneyRange_zero
      (checkTransaction_ok (hall cb (hvtx ▸ List.mem_cons_self))).1
  obtain ⟨-, rfl⟩ := fromExcept_ok.mp h5
  refine avoids_bind (avoids_fromExcept (getBlockValue_avoids ?_)) (fun nValue s6 h6 => ?_)
  · exact txsRun_fees (BlockCall.connectTxs_ok (Prod.ext hr rfl)) moneyRange_zero
  obtain ⟨-, rfl⟩ := fromExcept_ok.mp h6
  refine avoids_bind (avoids_raiseIf (by simp) _) (fun _ s7 h7 => ?_)
  obtain ⟨-, rfl⟩ := raiseIf_ok.mp h7
  refine avoids_bind (avoids_modify _) (fun _ s8 h8 => ?_)
  obtain rfl := modify_ok.mp h8
  refine avoids_bind avoids_get (fun t s9 h9 => ?_)
  obtain ⟨rfl, rfl⟩ := get_ok.mp h9
  exact avoids_bind (avoids_fromExcept (CWallet.syncWithWallets_spec hw hall).1)
    (fun _ _ _ => avoids_modify _)

theorem supplyOk_of_run {env : Env} {start n : ChainNode}
    (h0 : ∀ hash, start.state.dbset.tx hash = none) (hw : WalletOk start.state.wallet)
    (run : Relation.ReflTransGen (fun m m' => ∃ c b, FreshStep env m c b m') start n) :
    SupplyOk env n := by
  induction run with
  | refl =>
    refine ⟨?_, hw⟩
    intro hash txindex ht
    rw [h0 hash] at ht
    cases ht
  | tail _ hstep ih =>
    obtain ⟨c, b, hstep⟩ := hstep
    exact ⟨hstep.toConnected.indexOk ih.index, connectBlock_wallet hstep.accepted ih.wallet⟩

theorem no_inflation {env : Env} {start n : ChainNode}
    (h0 : ∀ hash, start.state.dbset.tx hash = none) (hw : WalletOk start.state.wallet)
    (run : Relation.ReflTransGen (fun m m' => ∃ c b, FreshStep env m c b m') start n) :
    (∀ c b n', FreshStep env n c b n' → ∃ nBlockValue,
      getBlockValue c.pindex.pindex.nHeight 0 = .ok nBlockValue ∧
      coinTotal n'.disk n'.state.dbset.tx ≤
        coinTotal n.disk n.state.dbset.tx + nBlockValue) ∧
      (∀ c b, Offered env n c b → (exec (c.connectBlock b) n.state).1 ≠ .error .overflow) ∧
      ∃ subsidy : Nat → Int, (∀ nHeight, getBlockValue nHeight 0 = .ok (subsidy nHeight)) ∧
        ∀ heights : Finset Nat, (∀ nHeight ∈ heights, nHeight / 210000 < 64) →
          ∑ nHeight ∈ heights, subsidy nHeight ≤ maxMoney := by
  have hok := supplyOk_of_run h0 hw run
  refine ⟨?_, ?_, blockSubsidy, getBlockValue_zero, subsidy_total⟩
  · intro c b n' hstep
    exact ⟨_, getBlockValue_zero _, hstep.coinTotal_le hok.index⟩
  · intro c b hoffer
    refine connectBlock_avoids ?_ hok.wallet hoffer.storable
    rw [hoffer.sameEnv]
    exact hok.index.mono hoffer.grows

def genesisNode : ChainNode where
  walk := [sampleIndex 8 0 (sampleBlock 0 [])]
  disk := Disk.empty
  state := ⟨⟨fun _ => none, fun _ => none, fun _ => none, none⟩, fun _ => ∅, sampleWallet⟩

def firstBlock : CBlock := sampleBlock 1 [sampleCoinbase 1]

theorem firstBlock_step : FreshStep sampleEnv genesisNode (sampleCall genesisNode 2000 firstBlock)
    firstBlock (sampleNext genesisNode 2000 firstBlock) where
  toConnected := sample_connected (Disk.empty_endsBy _ _) (by decide +kernel)
  fresh _ _ := rfl

theorem firstBlock_supply :
    (∃ nBlockValue, getBlockValue (sampleCall genesisNode 2000 firstBlock).pindex.pindex.nHeight 0 =
        .ok nBlockValue ∧
      coinTotal (sampleNext genesisNode 2000 firstBlock).disk
          (sampleNext genesisNode 2000 firstBlock).state.dbset.tx ≤
        coinTotal genesisNode.disk genesisNode.state.dbset.tx + nBlockValue) ∧
      (exec ((sampleCall genesisNode 2000 firstBlock).connectBlock firstBlock)
        genesisNode.state).1 ≠ .error .overflow := by
  have hrefl : Relation.ReflTransGen (fun m m' => ∃ c b, FreshStep sampleEnv m c b m') genesisNode
      genesisNode := .refl
  have hall := no_inflation (fun _ => rfl) (fun _ _ h => by cases h) hrefl
  exact ⟨hall.1 _ _ _ firstBlock_step, hall.2.1 _ _ firstBlock_step.toOffered⟩

end Namecoin
