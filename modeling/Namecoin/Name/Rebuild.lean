import Namecoin.Name.Reconstruct

namespace Namecoin

open Act

section Block

variable {c : BlockCall} {txs : List CTransaction} {nTxPos : Nat} {d : Disk} {db : DatabaseSet}

theorem TxSpends.after_pos {tx : CTransaction} {l : Ledger} {t : TxMap} {e : NameEffect}
    {fee : Int} (hs : TxSpends (c.txCall tx) (c.posOf nTxPos) l t e fee)
    (absent : l.db.tx (tx.getHash c.env) = none) {hash : Uint256} {txindex : CTxIndex}
    (h : l.db.tx hash = some txindex) :
    (((c.txCall tx).after (c.posOf nTxPos) l t e fee).db.tx hash).map CTxIndex.pos =
      some txindex.pos := by
  have hne : hash ≠ tx.getHash c.env := by
    rintro rfl
    rw [h] at absent
    cases absent
  rw [TxCall.after_tx]
  refine (congrArg (Option.map CTxIndex.pos) (Function.update_of_ne hne _ _)).trans ?_
  rw [hs.pos_eq, h]
  rfl

theorem txsRun_pos {l l' : Ledger} (run : c.TxsRun txs nTxPos l l')
    (fresh : FreshTxs c.env txs l.db.tx) {hash : Uint256} {pos : CDiskTxPos}
    (h : (l.db.tx hash).map CTxIndex.pos = some pos) :
    (l'.db.tx hash).map CTxIndex.pos = some pos := by
  induction run with
  | nil nTxPos l => exact h
  | cons head tail ih =>
    obtain ⟨txindex, hx, rfl⟩ := Option.map_eq_some_iff.mp h
    exact ih (fresh.tail head) (head.after_pos (fresh.absent _ List.mem_cons_self) hx)

theorem Ahead.back {d0 d1 : Disk} {t0 t1 : TxMap} {t : TxMap} (h : Ahead d1 t1 d t)
    (hd : d0.Extends d1)
    (ht : ∀ hash pos, (t0 hash).map CTxIndex.pos = some pos →
      (t1 hash).map CTxIndex.pos = some pos) : Ahead d0 t0 d t where
  disk nFile nTxPos tx hr := h.disk _ _ _ (hd _ _ _ hr)
  pos hash txindex hx := by
    obtain ⟨x, hx1, hpos⟩ := Option.map_eq_some_iff.mp (ht hash txindex.pos (by rw [hx]; rfl))
    rw [← hpos]
    exact h.pos hash x hx1
  zero := h.zero

theorem connectTxs_reconstructs {s s' : ConnState}
    (h : exec (c.connectTxs txs nTxPos) s = (.ok (), s')) (hstore : Storable c txs nTxPos)
    (fresh : FreshTxs c.env txs s.dbset.tx) (hok : IndexOk c.env c.view.disk s.dbset.tx)
    (ahead : Ahead c.view.disk s'.dbset.tx d db.tx)
    (hcoinbase : ∀ tx ∈ txs, tx.isCoinBase = true → tx.nVersion = namecoinTxVersion →
      postLibcoinFork c.env c.pindex.pindex.nHeight = true →
      ∀ n, decodeNameTx c.env tx c.pindex.pindex.nHeight = some n → n.op = opNameNew)
    (hvalue : c.Along (fun tx _ s1 => ∀ v, Records (c.txCall tx) s1.dbset v →
      getValueOfNameTx c.env tx c.view.pindexBestHeight =
        getValueOfNameTx c.env tx c.pindex.pindex.nHeight) txs nTxPos s)
    (hread : ∀ v, db.readNameOrEmpty v = s.dbset.readNameOrEmpty v) :
    ∃ db', reconstructTxs c.env d c.pindex.pindex.nHeight txs db = .ok db' ∧
      SameNames db db' s'.dbset := by
  induction txs generalizing nTxPos s db with
  | nil =>
    simp only [BlockCall.connectTxs, pure_ok] at h
    obtain ⟨-, rfl⟩ := h
    exact ⟨db, rfl, rfl, hread⟩
  | cons tx rest ih =>
    obtain ⟨s1, t, e, fee, h1, h2, hspend, hdb1, hfresh1⟩ := BlockCall.connectTxs_first fresh h
    have habsent := fresh.absent tx List.mem_cons_self
    have hlater (hash : Uint256) (pos : CDiskTxPos)
        (hx : (s1.dbset.tx hash).map CTxIndex.pos = some pos) :
        (s'.dbset.tx hash).map CTxIndex.pos = some pos :=
      txsRun_pos (BlockCall.connectTxs_ok h2) hfresh1 hx
    have hahead1 : Ahead c.view.disk s1.dbset.tx d db.tx := ahead.back (fun _ _ _ hr => hr) hlater
    have hahead0 : Ahead c.view.disk s.dbset.tx d db.tx := by
      refine hahead1.back (fun _ _ _ hr => hr) ?_
      intro hash pos hx
      obtain ⟨x, hfound, rfl⟩ := Option.map_eq_some_iff.mp hx
      rw [hdb1]
      exact hspend.after_pos habsent hfound
    have hown : (db.tx (tx.getHash c.env)).map CTxIndex.pos = some (c.posOf nTxPos) := by
      refine hahead1.pos (tx.getHash c.env) ((c.txCall tx).entry (c.posOf nTxPos)) ?_
      rw [hdb1]
      exact BlockCall.after_own
    obtain ⟨db1, hrec, hsame⟩ := hspend.reconstructs hstore hok hahead0 hown
      (hcoinbase tx List.mem_cons_self) hvalue.1 hread
    rw [← hdb1] at hsame
    have hok1 : IndexOk c.env c.view.disk s1.dbset.tx := by
      rw [hdb1]
      exact hspend.after_indexOk hstore hok
    obtain ⟨db2, hrec2, hsame2⟩ := @ih _ db1 s1 h2 hstore.tail hfresh1 hok1
      (by rw [hsame.tx]; exact ahead) (fun tx' hin => hcoinbase tx' (List.mem_cons_of_mem _ hin))
      (hvalue.2 s1 h1) hsame.read
    refine ⟨db2, ?_, hsame2.tx.trans hsame.tx, hsame2.read⟩
    rw [reconstructTxs, Except.bind_eq_ok]
    exact ⟨db1, hrec, hrec2⟩

end Block

def Disk.KeepsBlocks (d d' : Disk) : Prop :=
  ∀ nFile nBlockPos b, d.readBlock nFile nBlockPos = some b → d'.readBlock nFile nBlockPos = some b

structure RebuildStep (env : Env) (n : ChainNode) (c : BlockCall) (b : CBlock) (n' : ChainNode) :
    Prop extends FreshStep env n c b n' where
  keeps : n.disk.KeepsBlocks c.view.disk
  stored : c.view.disk.readBlock c.pindex.pindex.nFile c.pindex.pindex.nBlockPos = some b
  nonzero : ∀ tx ∈ b.vtx, tx.getHash env ≠ 0
  coinbase : ∀ tx ∈ b.vtx, tx.isCoinBase = true → tx.nVersion = namecoinTxVersion →
    postLibcoinFork env c.pindex.pindex.nHeight = true →
    ∀ n, decodeNameTx env tx c.pindex.pindex.nHeight = some n → n.op = opNameNew
  value : ∀ pre tx s, TxAt c b n.state pre tx s → ∀ v, Records (c.txCall tx) s.dbset v →
    getValueOfNameTx env tx c.view.pindexBestHeight =
      getValueOfNameTx env tx c.pindex.pindex.nHeight

structure GenesisNode (n : ChainNode) (pindex : CBlockIndex) (b : CBlock) : Prop where
  walk : n.walk = [pindex]
  stored : n.disk.readBlock pindex.nFile pindex.nBlockPos = some b
  plain : ∀ tx ∈ b.vtx, tx.nVersion ≠ namecoinTxVersion
  tx : n.state.dbset.tx = fun _ => none
  names : n.state.dbset.name = fun _ => none

structure Rebuilds (env : Env) (n : ChainNode) : Prop where
  index : IndexOk env n.disk n.state.dbset.tx
  zero : n.state.dbset.tx 0 = none
  rebuilt : ∀ d db, Ahead n.disk n.state.dbset.tx d db.tx → n.disk.KeepsBlocks d →
    (∀ v, db.readNameOrEmpty v = []) →
    ∃ db', reconstructNameIndex env d n.walk.reverse db = .ok db' ∧
      SameNames db db' n.state.dbset

section Run

variable {env : Env} {n n' : ChainNode} {c : BlockCall} {b : CBlock}

theorem reconstructNameIndex_concat {d : Disk} {walk : List CBlockIndex} {pindex : CBlockIndex}
    {db db1 db2 : DatabaseSet} (h1 : reconstructNameIndex env d walk db = .ok db1)
    (h2 : reconstructTxs env d pindex.nHeight (d.blockTxs pindex) db1 = .ok db2) :
    reconstructNameIndex env d (walk ++ [pindex]) db = .ok db2 := by
  induction walk generalizing db with
  | nil =>
    obtain rfl : db = db1 := Except.ok.inj h1
    rw [List.nil_append, reconstructNameIndex, Except.bind_eq_ok]
    exact ⟨db2, h2, rfl⟩
  | cons p rest ih =>
    rw [reconstructNameIndex, Except.bind_eq_ok] at h1
    obtain ⟨db3, h3, h4⟩ := h1
    rw [List.cons_append, reconstructNameIndex, Except.bind_eq_ok]
    exact ⟨db3, h3, ih h4⟩

theorem reconstructTxs_plain {d : Disk} {nHeight : Nat} {txs : List CTransaction}
    {db : DatabaseSet} (h : ∀ tx ∈ txs, tx.nVersion ≠ namecoinTxVersion) :
    reconstructTxs env d nHeight txs db = .ok db := by
  induction txs with
  | nil => rfl
  | cons tx rest ih =>
    rw [reconstructTxs, Except.bind_eq_ok]
    refine ⟨db, ?_, ih (fun tx' hin => h tx' (List.mem_cons_of_mem _ hin))⟩
    rw [reconstructTx, if_pos (h tx List.mem_cons_self)]

theorem GenesisNode.rebuilds {pindex : CBlockIndex} (h : GenesisNode n pindex b) :
    Rebuilds env n where
  index hash txindex hx := by
    rw [h.tx] at hx
    cases hx
  zero := by rw [h.tx]
  rebuilt d db _ hkeeps hread := by
    have htxs : d.blockTxs pindex = b.vtx := by simp [Disk.blockTxs, hkeeps _ _ _ h.stored]
    refine ⟨db, ?_, rfl, ?_⟩
    · rw [h.walk]
      have hplain : reconstructTxs env d pindex.nHeight (d.blockTxs pindex) db = .ok db := by
        rw [htxs]
        exact reconstructTxs_plain h.plain
      exact @reconstructNameIndex_concat env d [] pindex db db db rfl hplain
    · intro v
      rw [hread v]
      simp [DatabaseSet.readNameOrEmpty, h.names]

theorem txsRun_zero {txs : List CTransaction} {nTxPos : Nat} {l l' : Ledger}
    (run : c.TxsRun txs nTxPos l l') (hne : ∀ tx ∈ txs, tx.getHash c.env ≠ 0)
    (h : l.db.tx 0 = none) : l'.db.tx 0 = none := by
  induction run with
  | nil nTxPos l => exact h
  | @cons tx rest nTxPos l l' t e fee head tail ih =>
    refine ih (fun tx' hin => hne tx' (List.mem_cons_of_mem _ hin)) ?_
    have hpos := head.pos_eq 0
    rw [h, Option.map_none, Option.map_eq_none_iff] at hpos
    rw [TxCall.after_tx]
    exact (Function.update_of_ne (hne tx List.mem_cons_self).symm _ _).trans hpos

theorem RebuildStep.rebuilds (hc : RebuildStep env n c b n') (h : Rebuilds env n) :
    Rebuilds env n' := by
  obtain ⟨-, s1, hexec, hdone⟩ := BlockCall.connectBlock_txs hc.accepted
  have htx : n'.state.dbset.tx = s1.dbset.tx := by
    rw [hdone.db, writePrevIndex_tx]
    rfl
  have hname (v : VchType) : n'.state.dbset.readNameOrEmpty v = s1.dbset.readNameOrEmpty v := by
    rw [hdone.db]
    simp [DatabaseSet.readNameOrEmpty, writePrevIndex_name, ConnState.ledger]
  have hrun := BlockCall.connectTxs_ok hexec
  refine ⟨hc.indexOk h.index, ?_, ?_⟩
  · rw [htx]
    refine txsRun_zero hrun ?_ h.zero
    rw [hc.sameEnv]
    exact hc.nonzero
  · intro d db ahead hkeeps hread
    rw [hc.disk] at ahead hkeeps
    rw [htx] at ahead
    have hback : Ahead n.disk n.state.dbset.tx d db.tx :=
      ahead.back hc.grows (fun hash pos hx => txsRun_pos hrun hc.freshTxs hx)
    obtain ⟨db1, h1, hsame1⟩ := h.rebuilt d db hback
      (fun f p x hx => hkeeps f p x (hc.keeps f p x hx)) hread
    have hstart : IndexOk c.env c.view.disk n.state.dbset.tx := by
      rw [hc.sameEnv]
      exact h.index.mono hc.grows
    have hvalue : c.Along (fun tx _ s1 => ∀ v, Records (c.txCall tx) s1.dbset v →
        getValueOfNameTx c.env tx c.view.pindexBestHeight =
          getValueOfNameTx c.env tx c.pindex.pindex.nHeight) b.vtx (c.firstTxPos b)
        (BlockCall.startState n.state) := by
      refine BlockCall.along_iff.mpr ?_
      intro pre tx post s2 hsplit hpre
      rw [hc.sameEnv]
      exact hc.value pre tx s2 ⟨⟨post, hsplit⟩, hpre⟩
    obtain ⟨db2, h2, hsame2⟩ := @connectTxs_reconstructs c b.vtx (c.firstTxPos b) d db1
      (BlockCall.startState n.state) s1 hexec hc.storable hc.freshTxs hstart
      (by rw [hsame1.tx]; exact ahead) (by rw [hc.sameEnv]; exact hc.coinbase) hvalue hsame1.read
    refine ⟨db2, ?_, hsame2.tx.trans hsame1.tx, ?_⟩
    · rw [hc.walk, Branch.walk, hc.pprev, List.reverse_cons]
      refine reconstructNameIndex_concat h1 ?_
      rw [Disk.blockTxs, hkeeps _ _ _ hc.stored, ← hc.sameEnv]
      exact h2
    · intro v
      rw [hsame2.read, hname]

theorem rebuild_eq_incremental {start : ChainNode} {genesis : CBlockIndex} {b0 : CBlock}
    (h0 : GenesisNode start genesis b0)
    (run : Relation.ReflTransGen (fun m m' => ∃ c b, RebuildStep env m c b m') start n) :
    ∃ db, reconstructNameIndex env n.disk n.walk.reverse n.state.dbset.eraseNames = .ok db ∧
      ∀ vchName, db.readNameOrEmpty vchName = n.state.dbset.readNameOrEmpty vchName := by
  have hall : Rebuilds env n := by
    induction run with
    | refl => exact h0.rebuilds
    | tail run step ih =>
      obtain ⟨c, b, hstep⟩ := step
      exact hstep.rebuilds ih
  have hself : Ahead n.disk n.state.dbset.tx n.disk n.state.dbset.eraseNames.tx :=
    ⟨fun _ _ _ hr => hr, fun _ _ hx => by rw [DatabaseSet.eraseNames, hx]; rfl, hall.zero⟩
  obtain ⟨db, hdb, hsame⟩ := hall.rebuilt n.disk n.state.dbset.eraseNames hself
    (fun _ _ _ hx => hx) (fun v => rfl)
  exact ⟨db, hdb, hsame.read⟩

end Run

structure SoleCoinbase (tx : CTransaction) : Prop where
  coinbase : tx.isCoinBase = true
  checked : tx.checkTransaction sampleEnv = .ok ()
  value : tx.getValueOut = .ok coin
  small : tx.getSerializeSize ≤ 500
  sigops : tx.getSigOpCount ≤ 100

def chainBlock (hashPrevBlock : Uint256) (nTime : Nat) (tx : CTransaction) : CBlock :=
  let b : CBlock := ⟨⟨65537, hashPrevBlock, 0, nTime, 0x1d00ffff, 0⟩, [tx], none⟩
  { b with hashMerkleRoot := b.buildMerkleTree sampleEnv }

theorem sample_proofOfWork (l : List UInt8) :
    checkProofOfWork sampleEnv (sampleEnv.hash l) 0x1d00ffff = true := by
  have hlt := sampleHash_lt l
  have hhash : (sampleEnv.hash l).toNat = sampleHash l := by
    simp only [sampleEnv, BitVec.toNat_ofNat]
    exact Nat.mod_eq_of_lt (hlt.trans (by decide))
  have htarget : setCompact 0x1d00ffff = 0xffff * 2 ^ 208 := by decide
  simp only [checkProofOfWork, htarget, hhash, Bool.and_eq_true, decide_eq_true_eq]
  refine ⟨by decide, ?_⟩
  have : ((sampleHash l : Nat) : Int) < 2 ^ 200 := by exact_mod_cast hlt
  omega

theorem chainBlock_check {tx : CTransaction} (h : SoleCoinbase tx) (hashPrevBlock : Uint256)
    (nTime nHeight : Nat) (hh : nHeight ≤ 150000) :
    (chainBlock hashPrevBlock nTime tx).checkBlock sampleEnv nTime nHeight = .ok () := by
  have hstrict : doStrictChecks sampleEnv nHeight = false := by
    simp [doStrictChecks, sampleEnv]
    omega
  have hwork : (chainBlock hashPrevBlock nTime tx).checkProofOfWork sampleEnv nHeight = true := by
    have hid : (chainBlock hashPrevBlock nTime tx).toCBlockHeader.getChainID = getOurChainID := rfl
    have hpow : Namecoin.checkProofOfWork sampleEnv
        ((chainBlock hashPrevBlock nTime tx).toCBlockHeader.getHash sampleEnv)
        (chainBlock hashPrevBlock nTime tx).nBits = true := sample_proofOfWork _
    simp only [CBlock.checkProofOfWork, hid, hpow]
    split <;> simp [chainBlock]
  have hsize : (chainBlock hashPrevBlock nTime tx).getSerializeSize ≤ 1000 := by
    have := h.small
    simp [CBlock.getSerializeSize, CBlock.headerSize, chainBlock, auxPowSize,
      getSizeOfCompactSize]
    omega
  have hcb := h.coinbase
  have hsig := h.sigops
  simp only [CBlock.checkBlock, Except.bind_eq_ok, Except.raiseIf_eq_ok]
  refine ⟨(), ?_, (), by simp [hstrict], (), by simp [hwork], (), ?_, (), ?_, (), ?_, (), ?_, (),
    ?_, (), ?_, ?_⟩
  · simp only [not_or, not_lt]
    refine ⟨by simp [chainBlock], by simp [chainBlock, maxBlockSize], hsize.trans (by decide)⟩
  · simp [chainBlock]
  · simp [chainBlock, hcb]
  · simp [chainBlock]
  · simp only [chainBlock, checkTransactions, Except.bind_eq_ok]
    exact ⟨(), h.checked, trivial⟩
  · simp [chainBlock, txHashes]
  · simp [chainBlock, maxBlockSigops, maxBlockSize]
    omega
  · exact fun hne => hne rfl

theorem sampleWallet_sync {tx : CTransaction} (hcb : tx.isCoinBase = true) (nNow : Nat)
    (b : CBlock) : sampleWallet.syncWithWallets sampleEnv nNow b [tx] = .ok sampleWallet := by
  obtain ⟨txin, hvin, -⟩ := isCoinBase_vin hcb
  have hmine : sampleWallet.isMine sampleEnv tx = false := by
    have hhook : sampleWallet.hookIsMineTx sampleEnv tx = false := by
      unfold CWallet.hookIsMineTx
      split
      · rfl
      · cases decodeNameTx sampleEnv tx bugWorkaroundBlock with
        | none => rfl
        | some n => cases hout : tx.vout[n.nOut]? <;> simp [hout, sampleWallet]
    have hany : tx.vout.any (fun txout => sampleWallet.isMineTxOut txout &&
        decide (sampleWallet.nMinimumInputValue ≤ txout.nValue)) = false := by
      simp [CWallet.isMineTxOut, sampleWallet]
    rw [CWallet.isMine, hhook, hany]
    rfl
  have hdebit : sampleWallet.isFromMe tx = .ok false := by
    simp only [CWallet.isFromMe, hvin]
    rfl
  have hinvolves : sampleWallet.involvesMe sampleEnv tx = .ok false := by
    rw [CWallet.involvesMe, hmine, hdebit]
    rfl
  have hstep : sampleWallet.addToWalletIfInvolvingMe sampleEnv nNow tx b = .ok sampleWallet := by
    rw [CWallet.addToWalletIfInvolvingMe, Except.bind_eq_ok]
    refine ⟨false, hinvolves, ?_⟩
    rw [CWallet.involve, if_neg (by decide), hvin]
    rfl
  rw [CWallet.syncWithWallets, Except.bind_eq_ok]
  exact ⟨sampleWallet, hstep, rfl⟩

theorem connectTxs_coinbase {c : BlockCall} {tx : CTransaction} {nTxPos : Nat} {s : ConnState}
    (hcb : tx.isCoinBase = true) :
    exec (c.connectTxs [tx] nTxPos) s = (.ok (), { s with
      vin := tx.vin.map (fun _ => CTxInCache.empty)
      dbset := s.dbset.writeTx (tx.getHash c.env)
        (some (CTxIndex.make (c.posOf nTxPos) tx.vout.length)) }) := by
  have hcb' : ¬(c.txCall tx).tx.isCoinBase = false := by
    simp [show (c.txCall tx).tx.isCoinBase = true from hcb]
  simp only [BlockCall.connectTxs, BlockCall.connectTx, TxCall.connectInputs,
    TxCall.addTxIndex, bind_ok, modify_ok, doIf_ok, pure_ok]
  exact ⟨(), _, ⟨(), _, rfl, (), _, .inr ⟨hcb', rfl⟩, rfl⟩, trivial, rfl⟩

theorem chainBlock_accepted {n : ChainNode} {tx : CTransaction} {nBlockPos : Nat}
    (h : SoleCoinbase tx) (hashPrevBlock : Uint256) (nTime : Nat) (hh : n.nHeight < 150000)
    (hwallet : n.state.wallet = sampleWallet) :
    ∃ s', exec ((sampleCall n nBlockPos (chainBlock hashPrevBlock nTime tx)).connectBlock
      (chainBlock hashPrevBlock nTime tx)) n.state = (.ok (), s') ∧
        s'.dbset.name = n.state.dbset.name ∧ s'.wallet = sampleWallet := by
  have hcheck := chainBlock_check h hashPrevBlock nTime (n.nHeight + 1) (by omega)
  have hsubsidy : coin ≤ blockSubsidy (n.nHeight + 1) := by
    have hzero : (n.nHeight + 1) / 210000 % 64 = 0 := by omega
    rw [blockSubsidy, hzero]
    decide
  have hheight : (sampleCall n nBlockPos (chainBlock hashPrevBlock nTime tx)).pindex.pindex.nHeight =
      n.nHeight + 1 := rfl
  have hnow : (sampleCall n nBlockPos (chainBlock hashPrevBlock nTime tx)).nNow = nTime := rfl
  have henv : (sampleCall n nBlockPos (chainBlock hashPrevBlock nTime tx)).env = sampleEnv := rfl
  generalize sampleCall n nBlockPos (chainBlock hashPrevBlock nTime tx) = c at *
  have hexec := @connectTxs_coinbase c tx (c.firstTxPos (chainBlock hashPrevBlock nTime tx))
    (BlockCall.startState n.state) h.coinbase
  generalize hs1 : ({ BlockCall.startState n.state with
      vin := tx.vin.map (fun _ => CTxInCache.empty)
      dbset := (BlockCall.startState n.state).dbset.writeTx (tx.getHash c.env)
        (some (CTxIndex.make (c.posOf (c.firstTxPos (chainBlock hashPrevBlock nTime tx)))
          tx.vout.length)) } : ConnState) = s1 at hexec
  refine ⟨⟨c.writePrevIndex c.pindex.pindex.hashBlock s1.dbset, s1.mapNamePending, sampleWallet⟩,
    ?_, ?_, rfl⟩
  · have hvtx : (chainBlock hashPrevBlock nTime tx).vtx = [tx] := rfl
    simp only [BlockCall.connectBlock, bind_ok, fromExcept_ok, get_ok, modify_ok, raiseIf_ok, hvtx,
      henv, hnow, hheight]
    refine ⟨(), _, ⟨hcheck, rfl⟩, _, _, ⟨rfl, rfl⟩, (), _, rfl, (), _, ⟨by rw [hexec], rfl⟩, coin, _,
      ⟨h.value, rfl⟩, blockSubsidy (n.nHeight + 1), _, ⟨?_, rfl⟩, (), _, ⟨by omega, rfl⟩, (), _,
      rfl, _, _, ⟨rfl, rfl⟩, sampleWallet, _, ⟨?_, rfl⟩, by rw [hexec]⟩
    · rw [hexec, ← hs1]
      exact getBlockValue_zero _
    · change CWallet.syncWithWallets _ _ _ _ n.state.wallet = _
      rw [hwallet]
      exact sampleWallet_sync h.coinbase _ _
  · rw [writePrevIndex_name, ← hs1]
    rfl

def tipHash (n : ChainNode) : Uint256 := (n.walk.head?.map CBlockIndex.hashBlock).getD 0

def nextBlock (n : ChainNode) (tx : CTransaction) : CBlock :=
  chainBlock (tipHash n) (n.nHeight + 1) tx

def nextNode (n : ChainNode) (tx : CTransaction) : ChainNode :=
  sampleNext n (1000 * (n.nHeight + 1)) (nextBlock n tx)

def rootBlock : CBlock := chainBlock 0 0 (sampleCoinbase 0)

def rootNode : ChainNode where
  walk := [sampleIndex 0 0 rootBlock]
  disk := Disk.empty.writeToDisk 1 0 rootBlock
  state := ⟨⟨fun _ => none, fun _ => none, fun _ => none, none⟩, fun _ => ∅, sampleWallet⟩

def plainNode : Nat → ChainNode
  | 0 => rootNode
  | k + 1 => nextNode (plainNode k) (sampleCoinbase (k + 1))

structure PlainChain (n : ChainNode) (k : Nat) : Prop where
  height : n.nHeight = k
  disk : n.disk.EndsBy 1 (1000 * (k + 1))
  plain : ∀ f p b, n.disk.readBlock f p = some b → ∀ tx ∈ b.vtx, tx.nVersion ≠ namecoinTxVersion
  below : ∀ pindex ∈ n.walk, pindex.nBlockPos < 1000 * (k + 1)
  names : n.state.dbset.name = fun _ => none
  wallet : n.state.wallet = sampleWallet

theorem sampleCoinbase_sole (k : Nat) : SoleCoinbase (sampleCoinbase k) where
  coinbase := rfl
  checked := rfl
  value := rfl
  small := show 4 + (1 + (36 + (1 + 4) + 4 + 0)) + (1 + (8 + (1 + 1) + 0)) + 4 ≤ 500 by decide
  sigops := by
    have h := getSigOpCount_le (leBytes 4 k)
    have hout : getSigOpCount [UInt8.ofNat op1] = 0 := by decide
    have hlen : (leBytes 4 k).length = 4 := rfl
    simp only [CTransaction.getSigOpCount, sampleCoinbase, List.map_cons, List.map_nil,
      List.sum_cons, List.sum_nil, hout]
    omega

theorem nextNode_connected {n : ChainNode} {k : Nat} {tx : CTransaction} (h : PlainChain n k)
    (htx : SoleCoinbase tx) (hk : k < 150000) :
    Connected sampleEnv n (sampleCall n (1000 * (n.nHeight + 1)) (nextBlock n tx)) (nextBlock n tx)
      (nextNode n tx) ∧ (nextNode n tx).state.dbset.name = n.state.dbset.name ∧
        (nextNode n tx).state.wallet = sampleWallet := by
  obtain ⟨s', hexec, hname, hwallet⟩ := @chainBlock_accepted n tx (1000 * (n.nHeight + 1)) htx
    (tipHash n) (n.nHeight + 1) (by rw [h.height]; exact hk) h.wallet
  have hnext : (nextNode n tx).state = s' := by
    rw [nextNode, sampleNext]
    exact congrArg Prod.snd hexec
  refine ⟨sample_connected ?_ (congrArg Prod.fst hexec), hnext ▸ hname, hnext ▸ hwallet⟩
  refine h.disk.mono ?_
  rw [h.height, CBlock.dataPos]
  omega

theorem nextNode_plain {n : ChainNode} {k : Nat} {tx : CTransaction} (h : PlainChain n k)
    (htx : SoleCoinbase tx) (hv : tx.nVersion ≠ namecoinTxVersion) (hk : k < 150000) :
    PlainChain (nextNode n tx) (k + 1) := by
  obtain ⟨hcon, hname, hwallet⟩ := nextNode_connected h htx hk
  refine ⟨?_, ?_, ?_, ?_, hname.trans h.names, hwallet⟩
  · rw [← h.height]
    rfl
  · rw [nextNode, h.height]
    have hsize : (nextBlock n tx).dataPos (1000 * (k + 1)) +
        ((nextBlock n tx).vtx.map CTransaction.getSerializeSize).sum ≤ 1000 * (k + 1 + 1) := by
      have := htx.small
      simp [CBlock.dataPos, CBlock.headerSize, nextBlock, chainBlock, auxPowSize,
        getSizeOfCompactSize]
      omega
    refine Disk.EndsBy.mono (Disk.EndsBy.write (h.disk.mono ?_)) hsize
    rw [CBlock.dataPos]
    omega
  · intro f p b hb tx' htx'
    simp only [nextNode, sampleNext, Disk.writeToDisk] at hb
    split at hb
    · obtain rfl := Option.some.inj hb
      obtain rfl : tx' = tx := by simpa [nextBlock, chainBlock] using htx'
      exact hv
    · exact h.plain f p b hb tx' htx'
  · intro pindex hp
    rcases List.mem_cons.mp hp with rfl | hp
    · rw [h.height]
      change 1000 * (k + 1) < _
      omega
    · have := h.below pindex hp
      omega

theorem rootNode_plain : PlainChain rootNode 0 where
  height := rfl
  disk := Disk.EndsBy.mono (Disk.EndsBy.write (Disk.empty_endsBy _ _)) (by decide +kernel)
  plain f p b hb tx htx := by
    simp only [rootNode, Disk.writeToDisk] at hb
    split at hb
    · obtain rfl := Option.some.inj hb
      obtain rfl : tx = sampleCoinbase 0 := by simpa [rootBlock, chainBlock] using htx
      decide
    · cases hb
  below pindex hp := by
    obtain rfl : pindex = sampleIndex 0 0 rootBlock := by simpa [rootNode] using hp
    decide
  names := rfl
  wallet := rfl

theorem plainNode_plain {k : Nat} (hk : k ≤ 150000) : PlainChain (plainNode k) k := by
  induction k with
  | zero => exact rootNode_plain
  | succ k ih =>
    exact nextNode_plain (ih (by omega)) (sampleCoinbase_sole _)
      (show (1 : Int) ≠ namecoinTxVersion by decide) (by omega)

theorem plainNode_run {k : Nat} (hk : k ≤ 150000) :
    Relation.ReflTransGen (fun m m' => ∃ c b, Connected sampleEnv m c b m') rootNode
      (plainNode k) := by
  induction k with
  | zero => exact .refl
  | succ k ih =>
    refine .tail (ih (by omega)) ?_
    exact ⟨_, _, (nextNode_connected (plainNode_plain (by omega)) (sampleCoinbase_sole (k + 1))
      (by omega)).1⟩

theorem reconstructNameIndex_plain {d : Disk} {walk : List CBlockIndex} {db : DatabaseSet}
    {env : Env}
    (h : ∀ pindex ∈ walk, ∀ tx ∈ d.blockTxs pindex, tx.nVersion ≠ namecoinTxVersion) :
    reconstructNameIndex env d walk db = .ok db := by
  induction walk with
  | nil => rfl
  | cons pindex rest ih =>
    rw [reconstructNameIndex, Except.bind_eq_ok]
    exact ⟨db, reconstructTxs_plain (h pindex List.mem_cons_self),
      ih (fun p hp => h p (List.mem_cons_of_mem _ hp))⟩

theorem namedCoinbase_sole : SoleCoinbase namedCoinbase where
  coinbase := rfl
  checked := by decide +kernel
  value := by decide +kernel
  small := by decide +kernel
  sigops := by decide +kernel

theorem rootNode_genesis : GenesisNode rootNode (sampleIndex 0 0 rootBlock) rootBlock where
  walk := rfl
  stored := rfl
  plain := by decide
  tx := rfl
  names := rfl

theorem nextNode_rebuildStep :
    RebuildStep sampleEnv rootNode (sampleCall rootNode 1000 (nextBlock rootNode (sampleCoinbase 1)))
      (nextBlock rootNode (sampleCoinbase 1)) (nextNode rootNode (sampleCoinbase 1)) where
  toConnected := (nextNode_connected rootNode_plain (sampleCoinbase_sole 1) (by decide)).1
  fresh _ _ := rfl
  keeps f p b hb := by
    have hb0 : ¬(f = 1 ∧ p = 1000) := by
      rintro ⟨rfl, rfl⟩
      cases hb
    simp only [sampleCall, sampleView, Disk.writeToDisk, if_neg hb0]
    exact hb
  stored := by simp [sampleCall, sampleView, Disk.writeToDisk, sampleIndex]
  nonzero := by decide +kernel
  coinbase tx htx _ hv := by
    obtain rfl : tx = sampleCoinbase 1 := by simpa [nextBlock, chainBlock] using htx
    exact absurd hv (by decide)
  value pre tx s hat v hrec := by
    obtain ⟨i, hi, -, htx⟩ := hat.index
    obtain rfl : tx = sampleCoinbase 1 := by
      have hmem := List.mem_of_getElem? htx
      simpa [nextBlock, chainBlock] using hmem
    obtain ⟨prev, name, hrec⟩ := hrec
    exact absurd hrec.spends (by decide)

theorem nextNode_rebuilt :
    ∃ db, reconstructNameIndex sampleEnv (nextNode rootNode (sampleCoinbase 1)).disk
        (nextNode rootNode (sampleCoinbase 1)).walk.reverse
        (nextNode rootNode (sampleCoinbase 1)).state.dbset.eraseNames = .ok db ∧
      ∀ vchName, db.readNameOrEmpty vchName =
        (nextNode rootNode (sampleCoinbase 1)).state.dbset.readNameOrEmpty vchName :=
  rebuild_eq_incremental rootNode_genesis (.tail .refl ⟨_, _, nextNode_rebuildStep⟩)

theorem reconstructTx_sole {n n' : ChainNode} {c : BlockCall} {b : CBlock}
    {tx : CTransaction} {name : NameTx} {vchName vchValue : VchType} {db : DatabaseSet} {env : Env}
    (hc : Connected env n c b n') (hvtx : b.vtx = [tx])
    (hdb : db.tx = n'.state.dbset.tx) (version : tx.nVersion = namecoinTxVersion)
    (fork : postLibcoinFork env c.pindex.pindex.nHeight = true)
    (hdec : decodeNameTx env tx c.pindex.pindex.nHeight = some name) (hop : name.op ≠ opNameNew)
    (hname : name.vvch[0]? = some vchName)
    (hvalue : vchAt name.vvch (if name.op = opNameFirstupdate then 2 else 1) = .ok vchValue) :
    ∃ entry, reconstructTx env n'.disk c.pindex.pindex.nHeight tx db =
      .ok (db.writeName vchName (db.readNameOrEmpty vchName ++ [entry])) := by
  obtain ⟨l, hdone⟩ := BlockCall.connectBlock_ok hc.accepted
  have hstore := hc.storable
  have hrun := hdone.run
  rw [hvtx] at hstore hrun
  have hown : (db.tx (tx.getHash c.env)).map CTxIndex.pos = some (c.posOf (c.firstTxPos b)) := by
    rw [hdb, hdone.db, writePrevIndex_tx]
    cases hrun with
    | cons head tail =>
      cases tail with
      | nil =>
        rw [BlockCall.after_own]
        rfl
  obtain ⟨txindex, hdisk, hpos⟩ := hstore.readDiskTx (fun _ _ _ hr => hr) hown
  rw [hc.sameEnv, ← hc.disk] at hdisk
  refine ⟨⟨txindex.pos, c.pindex.pindex.nHeight, vchValue⟩, ?_⟩
  refine (reconstructTx_named version hdec hop hname hdisk
    (by rw [workaroundPrev, if_pos fork])).trans ?_
  refine recordTx_write ?_ hvalue
  intro _ hearly
  rw [fork] at hearly
  cases hearly

theorem named_coinbase_differs {n : ChainNode} (hplain : PlainChain n 149999) :
    ¬∃ db, reconstructNameIndex sampleEnv (nextNode n namedCoinbase).disk
        (nextNode n namedCoinbase).walk.reverse
        (nextNode n namedCoinbase).state.dbset.eraseNames = .ok db ∧
      ∀ vchName, db.readNameOrEmpty vchName =
        (nextNode n namedCoinbase).state.dbset.readNameOrEmpty vchName := by
  obtain ⟨hcon, hname, -⟩ := nextNode_connected hplain namedCoinbase_sole (by decide)
  rintro ⟨db, hdb, hread⟩
  have hheight : (sampleCall n (1000 * (n.nHeight + 1))
      (nextBlock n namedCoinbase)).pindex.pindex.nHeight = 150000 := by
    change n.nHeight + 1 = 150000
    rw [hplain.height]
  have hold : ∀ pindex ∈ n.walk.reverse, ∀ tx ∈ (nextNode n namedCoinbase).disk.blockTxs pindex,
      tx.nVersion ≠ namecoinTxVersion := by
    intro pindex hp tx htx
    have hbelow := hplain.below pindex (List.mem_reverse.mp hp)
    have hne : ¬(pindex.nFile = 1 ∧ pindex.nBlockPos = 1000 * (n.nHeight + 1)) := by
      rw [hplain.height]
      omega
    simp only [Disk.blockTxs, nextNode, sampleNext, Disk.writeToDisk, if_neg hne] at htx
    cases hb : n.disk.readBlock pindex.nFile pindex.nBlockPos with
    | none => simp [hb] at htx
    | some b => exact hplain.plain _ _ b hb tx (by simpa [hb] using htx)
  have hdec : decodeNameTx sampleEnv namedCoinbase (sampleCall n (1000 * (n.nHeight + 1))
      (nextBlock n namedCoinbase)).pindex.pindex.nHeight = some ⟨3, 0, [[65], [90]]⟩ := by
    rw [hheight]
    decide +kernel
  have hvalue : vchAt [[65], [90]] 1 = .ok [90] := rfl
  obtain ⟨entry, hentry⟩ := @reconstructTx_sole _ _ _ _ _ _ [65] [90]
    (nextNode n namedCoinbase).state.dbset.eraseNames _ hcon rfl rfl rfl
    (by rw [hheight]; decide) hdec (by decide) rfl hvalue
  have hblock : (nextNode n namedCoinbase).disk.blockTxs (sampleCall n (1000 * (n.nHeight + 1))
      (nextBlock n namedCoinbase)).pindex.pindex = [namedCoinbase] := by
    simp [Disk.blockTxs, nextNode, sampleNext, Disk.writeToDisk, sampleCall, sampleIndex, nextBlock,
      chainBlock]
  have htxs : reconstructTxs sampleEnv (nextNode n namedCoinbase).disk
      (sampleCall n (1000 * (n.nHeight + 1)) (nextBlock n namedCoinbase)).pindex.pindex.nHeight
      ((nextNode n namedCoinbase).disk.blockTxs (sampleCall n (1000 * (n.nHeight + 1))
        (nextBlock n namedCoinbase)).pindex.pindex)
      (nextNode n namedCoinbase).state.dbset.eraseNames =
      .ok ((nextNode n namedCoinbase).state.dbset.eraseNames.writeName [65]
        ((nextNode n namedCoinbase).state.dbset.eraseNames.readNameOrEmpty [65] ++ [entry])) := by
    rw [hblock, reconstructTxs, Except.bind_eq_ok]
    exact ⟨_, hentry, rfl⟩
  have hall := reconstructNameIndex_concat (reconstructNameIndex_plain hold) htxs
  rw [show (nextNode n namedCoinbase).walk.reverse = n.walk.reverse ++ [(sampleCall n
    (1000 * (n.nHeight + 1)) (nextBlock n namedCoinbase)).pindex.pindex] from List.reverse_cons,
    hall] at hdb
  obtain rfl := Except.ok.inj hdb
  have hempty := hread [65]
  rw [readNameOrEmpty_writeName_self, DatabaseSet.readNameOrEmpty, DatabaseSet.readNameOrEmpty,
    hname, hplain.names] at hempty
  cases hempty

theorem named_coinbase_rebuilt :
    GenesisNode rootNode (sampleIndex 0 0 rootBlock) rootBlock ∧
      Relation.ReflTransGen (fun m m' => ∃ c b, Connected sampleEnv m c b m') rootNode
        (nextNode (plainNode 149999) namedCoinbase) ∧
      ¬∃ db, reconstructNameIndex sampleEnv (nextNode (plainNode 149999) namedCoinbase).disk
          (nextNode (plainNode 149999) namedCoinbase).walk.reverse
          (nextNode (plainNode 149999) namedCoinbase).state.dbset.eraseNames = .ok db ∧
        ∀ vchName, db.readNameOrEmpty vchName =
          (nextNode (plainNode 149999) namedCoinbase).state.dbset.readNameOrEmpty vchName := by
  have hplain : PlainChain (plainNode 149999) 149999 := plainNode_plain (by decide)
  exact ⟨rootNode_genesis, .tail (plainNode_run (by decide))
    ⟨_, _, (nextNode_connected hplain namedCoinbase_sole (by decide)).1⟩,
    named_coinbase_differs hplain⟩

end Namecoin
