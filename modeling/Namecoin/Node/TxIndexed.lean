import Namecoin.Name.Rebuild
import Namecoin.Node.Record

namespace Namecoin

open Act

section Origin

variable {c : BlockCall} {h : Uint256} {txindex' : CTxIndex}

def CameFrom (t : TxMap) (h : Uint256) (pos : CDiskTxPos) : Prop :=
  ∃ txindex, t h = some txindex ∧ txindex.pos = pos

def InBlockAt (env : Env) (p : CBlockIndex) (b : CBlock) (h : Uint256) (pos : CDiskTxPos) : Prop :=
  pos.nFile = p.nFile ∧ pos.nBlockPos = p.nBlockPos ∧ h ∈ txHashes env b.vtx

theorem cameFrom_of_pos_eq {t t' : TxMap}
    (heq : (t' h).map CTxIndex.pos = (t h).map CTxIndex.pos) (hh : t' h = some txindex') :
    CameFrom t h txindex'.pos := by
  rw [hh, Option.map_some] at heq
  exact Option.map_eq_some_iff.mp heq.symm

theorem txsRun_origin {txs : List CTransaction} {nTxPos : Nat} {l l' : Ledger}
    (hrun : c.TxsRun txs nTxPos l l') (hh : l'.db.tx h = some txindex') :
    CameFrom l.db.tx h txindex'.pos ∨ txindex'.pos.nFile = c.pindex.pindex.nFile ∧
      txindex'.pos.nBlockPos = c.pindex.pindex.nBlockPos ∧ h ∈ txHashes c.env txs := by
  induction hrun with
  | nil nTxPos l => exact .inl ⟨txindex', hh, rfl⟩
  | @cons tx rest nTxPos l l' t e fee head tail ih =>
    rcases ih hh with ⟨txindex, hfrom, hpos⟩ | ⟨hfile, hblock, hmem⟩
    · rw [TxCall.after_tx] at hfrom
      by_cases hown : h = tx.getHash c.env
      · subst hown
        rw [show (c.txCall tx).tx.getHash (c.txCall tx).env = tx.getHash c.env from rfl,
          Function.update_self] at hfrom
        obtain rfl := Option.some.inj hfrom
        rw [← hpos]
        exact .inr ⟨rfl, rfl, List.mem_cons_self⟩
      · rw [show (c.txCall tx).tx.getHash (c.txCall tx).env = tx.getHash c.env from rfl,
          Function.update_of_ne hown] at hfrom
        rw [← hpos]
        exact .inl (cameFrom_of_pos_eq (head.pos_eq h) hfrom)
    · exact .inr ⟨hfile, hblock, List.mem_cons_of_mem _ hmem⟩

theorem connectBlock_origin {b : CBlock} {s s' : ChainState} {u : Unit}
    (hrun : exec (c.connectBlock b) s = (.ok u, s')) (hh : s'.dbset.tx h = some txindex') :
    CameFrom s.dbset.tx h txindex'.pos ∨ InBlockAt c.env c.pindex.pindex b h txindex'.pos := by
  obtain ⟨l, hdone⟩ := BlockCall.connectBlock_ok hrun
  rw [hdone.db, writePrevIndex_tx] at hh
  exact txsRun_origin hdone.run hh

theorem disconnectVin_origin {vin : List CTxIn} {db db' : DatabaseSet}
    (hrun : disconnectVin vin db = .ok db') (hh : db'.tx h = some txindex') :
    CameFrom db.tx h txindex'.pos := by
  induction vin generalizing db with
  | nil =>
    obtain rfl : db = db' := Except.ok.inj hrun
    exact ⟨txindex', hh, rfl⟩
  | cons txin rest ih =>
    rw [disconnectVin] at hrun
    cases hprev : db.tx txin.prevout.hash with
    | none => simp [hprev] at hrun
    | some txindex =>
      simp only [hprev] at hrun
      split at hrun
      · cases hrun
      · split at hrun
        · cases hrun
        · obtain ⟨old, hold, hpos⟩ := ih hrun
          rw [← hpos]
          by_cases hk : h = txin.prevout.hash
          · subst hk
            simp only [DatabaseSet.writeTx, Function.update_self, Option.some.injEq] at hold
            subst hold
            exact ⟨txindex, hprev, rfl⟩
          · simp only [DatabaseSet.writeTx, Function.update_of_ne hk] at hold
            exact ⟨old, hold, rfl⟩

theorem hookDisconnectInputs_tx {env : Env} {tx : CTransaction} {pindex : CBlockIndex}
    {db db' : DatabaseSet} (hrun : hookDisconnectInputs env tx pindex db = .ok db') :
    db'.tx = db.tx := by
  unfold hookDisconnectInputs at hrun
  split at hrun
  · obtain rfl := Except.ok.inj hrun
    rfl
  · split at hrun
    · cases hrun
    · split at hrun
      · obtain ⟨vchName, -, hpop⟩ := Except.bind_eq_ok.mp hrun
        unfold popHistory at hpop
        repeat' split at hpop
        all_goals cases hpop
        all_goals rfl
      · obtain rfl := Except.ok.inj hrun
        rfl

theorem disconnectInputs_origin {env : Env} {tx : CTransaction} {pindex : CBlockIndex}
    {db db' : DatabaseSet} (hrun : tx.disconnectInputs env pindex db = .ok db')
    (hh : db'.tx h = some txindex') :
    CameFrom db.tx h txindex'.pos ∧ h ≠ tx.getHash env := by
  simp only [CTransaction.disconnectInputs, Except.bind_eq_ok, Except.pure_eq_ok] at hrun
  obtain ⟨db1, hhook, db2, hrestore, rfl⟩ := hrun
  have hne : h ≠ tx.getHash env := by
    rintro rfl
    simp [DatabaseSet.writeTx] at hh
  refine ⟨?_, hne⟩
  simp only [DatabaseSet.writeTx, Function.update_of_ne hne] at hh
  rw [← hookDisconnectInputs_tx hhook]
  unfold CTransaction.restoreInputs at hrestore
  split at hrestore
  · obtain rfl := Except.ok.inj hrestore
    exact ⟨txindex', hh, rfl⟩
  · exact disconnectVin_origin hrestore hh

theorem disconnectTxs_origin {txs : List CTransaction} {db db' : DatabaseSet}
    (hrun : c.disconnectTxs txs db = .ok db') (hh : db'.tx h = some txindex') :
    CameFrom db.tx h txindex'.pos ∧ h ∉ txHashes c.env txs := by
  induction txs generalizing db' txindex' with
  | nil =>
    obtain rfl : db = db' := Except.ok.inj hrun
    exact ⟨⟨txindex', hh, rfl⟩, List.not_mem_nil⟩
  | cons tx rest ih =>
    rw [BlockCall.disconnectTxs, Except.bind_eq_ok] at hrun
    obtain ⟨db1, hrest, htx⟩ := hrun
    obtain ⟨⟨txindex, hmid, hpos⟩, hne⟩ := disconnectInputs_origin htx hh
    obtain ⟨hfrom, hnot⟩ := ih hrest hmid
    rw [hpos] at hfrom
    refine ⟨hfrom, ?_⟩
    rw [txHashes, List.map_cons, List.mem_cons, not_or]
    exact ⟨hne, hnot⟩

theorem disconnectBranch_origin {cs : List BlockCall} {s s' : ChainState}
    {vResurrect : List CTransaction} (hrun : exec (disconnectBranch cs) s = (.ok vResurrect, s'))
    (hh : s'.dbset.tx h = some txindex') :
    CameFrom s.dbset.tx h txindex'.pos ∧ ∀ c ∈ cs, ∀ b,
      c.view.disk.readIndexed c.env c.pindex.pindex = some b → h ∉ txHashes c.env b.vtx := by
  induction cs generalizing s vResurrect with
  | nil =>
    obtain ⟨-, rfl⟩ := pure_ok.mp hrun
    exact ⟨⟨txindex', hh, rfl⟩, fun c hc => absurd hc List.not_mem_nil⟩
  | cons c rest ih =>
    simp only [disconnectBranch, bind_ok, fromOption_ok, get_ok, fromExcept_ok, modify_ok,
      pure_ok] at hrun
    obtain ⟨block, s1, ⟨hread, rfl⟩, t, s2, ⟨rfl, rfl⟩, db, s3, ⟨hblock, rfl⟩, -, s4, rfl, more,
      s5, hrest, -, rfl⟩ := hrun
    obtain ⟨⟨txindex, hmid, hpos⟩, hnot⟩ := ih hrest
    simp only [BlockCall.disconnectBlock, Except.bind_eq_ok, Except.pure_eq_ok] at hblock
    obtain ⟨db1, htxs, rfl⟩ := hblock
    simp only [writePrevIndex_tx] at hmid
    obtain ⟨hfrom, hout⟩ := disconnectTxs_origin htxs hmid
    rw [hpos] at hfrom
    refine ⟨hfrom, List.forall_mem_cons.mpr ⟨?_, hnot⟩⟩
    intro b hb
    rw [hread] at hb
    obtain rfl := Option.some.inj hb
    exact hout

theorem connectBranch_origin {cs : List BlockCall} {s s' : ChainState}
    {vDelete : List CTransaction} (hrun : exec (connectBranch cs) s = (.ok vDelete, s'))
    (hh : s'.dbset.tx h = some txindex') :
    CameFrom s.dbset.tx h txindex'.pos ∨ ∃ c ∈ cs, ∃ b,
      c.view.disk.readIndexed c.env c.pindex.pindex = some b ∧
        InBlockAt c.env c.pindex.pindex b h txindex'.pos := by
  induction cs generalizing s vDelete with
  | nil =>
    obtain ⟨-, rfl⟩ := pure_ok.mp hrun
    exact .inl ⟨txindex', hh, rfl⟩
  | cons c rest ih =>
    simp only [connectBranch, bind_ok, fromOption_ok, pure_ok] at hrun
    obtain ⟨block, s1, ⟨hread, rfl⟩, u, s2, hblock, more, s3, hrest, -, rfl⟩ := hrun
    rcases ih hrest with ⟨txindex, hmid, hpos⟩ | ⟨c', hc', b, hb⟩
    · have horigin := connectBlock_origin hblock hmid
      rw [hpos] at horigin
      rcases horigin with hfrom | hin
      · exact .inl hfrom
      · exact .inr ⟨c, List.mem_cons_self, block, hread, hin⟩
    · exact .inr ⟨c', List.mem_cons_of_mem _ hc', b, hb⟩

end Origin

def Placed (env : Env) (m : BlockMap) (d : Disk) (x h : Uint256) (pos : CDiskTxPos) : Prop :=
  ∃ p b, m x = some p ∧ d.readIndexed env p = some b ∧ InBlockAt env p b h pos

def TxPlaced (env : Env) (s : NodeState) (best : Uint256) : Prop :=
  ∀ h txindex, s.chain.dbset.tx h = some txindex →
    ∃ x, Forest.Anc (parentOf s.mapBlockIndex) x best ∧
      Placed env s.mapBlockIndex s.disk x h txindex.pos

section Placed

variable {env : Env} {m m' : BlockMap} {d d' : Disk} {x h : Uint256} {pos : CDiskTxPos}

theorem Placed.congr (hplaced : Placed env m d x h pos) (hsame : SameTree m m') :
    Placed env m' d x h pos := by
  obtain ⟨p, b, hp, hread, hin⟩ := hplaced
  obtain ⟨p', hp'⟩ := hsame.present hp
  obtain ⟨q, next, hq, rfl⟩ := hsame.lookup hp'
  rw [hp] at hq
  obtain rfl := Option.some.inj hq
  exact ⟨_, b, hp', hread, hin⟩

theorem Disk.KeepsBlocks.readIndexed (hkeeps : d.KeepsBlocks d') {p : CBlockIndex} {b : CBlock}
    (hread : d.readIndexed env p = some b) : d'.readIndexed env p = some b := by
  obtain ⟨hblock, hhash⟩ := Option.filter_eq_some_iff.mp hread
  exact Option.filter_eq_some_iff.mpr ⟨hkeeps _ _ _ hblock, hhash⟩

theorem Placed.grow (hplaced : Placed env m d x h pos) (hkeeps : d.KeepsBlocks d')
    (hm : ∀ p, m x = some p → m' x = some p) : Placed env m' d' x h pos := by
  obtain ⟨p, b, hp, hread, hin⟩ := hplaced
  exact ⟨p, b, hm p hp, hkeeps.readIndexed hread, hin⟩

end Placed

theorem PoolOnly.disk {s s' : NodeState} (h : PoolOnly s s') : s'.disk = s.disk := by
  have hw : s'.withoutPool.disk = s.withoutPool.disk := congrArg NodeState.disk h
  exact hw

section Best

variable {e : NodeEnv} {s s' : NodeState} {b : CBlock} {genesis best : Uint256}
  {pindexNew : CBlockIndex}

theorem txPlaced_of_origin {env : Env} {best' : Uint256} (hdisk : s'.disk = s.disk)
    (hsame : SameTree s.mapBlockIndex s'.mapBlockIndex)
    (horigin : ∀ h txindex, s'.chain.dbset.tx h = some txindex →
      ∃ x, Forest.Anc (parentOf s.mapBlockIndex) x best' ∧
        Placed env s.mapBlockIndex s.disk x h txindex.pos) : TxPlaced env s' best' := by
  intro h txindex hh
  obtain ⟨x, hanc, hplaced⟩ := horigin h txindex hh
  refine ⟨x, ?_, ?_⟩
  · rw [hsame.parentOf_eq]
    exact hanc
  · rw [hdisk]
    exact hplaced.congr hsame

theorem TxPlaced.extended {c : ChainState} (hplaced : TxPlaced e.env s best)
    (hnew : s.mapBlockIndex pindexNew.hashBlock = some pindexNew)
    (hprev : pindexNew.pprev = some best)
    (hstored : s.disk.readIndexed e.env pindexNew = some b)
    (hrun : exec (extendChain (s.tipCall e pindexNew) b) s.chain = (.ok (), c)) (h : Uint256)
    (txindex : CTxIndex) (hh : c.dbset.tx h = some txindex) :
    ∃ x, Forest.Anc (parentOf s.mapBlockIndex) x pindexNew.hashBlock ∧
      Placed e.env s.mapBlockIndex s.disk x h txindex.pos := by
  simp only [extendChain, bind_ok, writeBest, modify_ok] at hrun
  obtain ⟨u, s1, hblock, rfl⟩ := hrun
  have hh' : s1.dbset.tx h = some txindex := hh
  rcases connectBlock_origin hblock hh' with ⟨old, hold, hpos⟩ | hin
  · obtain ⟨x, hanc, hx⟩ := hplaced h old hold
    refine ⟨x, ?_, hpos ▸ hx⟩
    have hparent : parentOf s.mapBlockIndex pindexNew.hashBlock = some best := by
      simp [parentOf, hnew, hprev]
    exact Relation.ReflTransGen.head hparent hanc
  · exact ⟨pindexNew.hashBlock, .refl _, pindexNew, b, hnew, hstored, hin⟩

theorem TxPlaced.switched {pfork : CBlockIndex} {r : List CTransaction × List CTransaction}
    {c : ChainState} (hok : TreeOk s.tree genesis best) (hplaced : TxPlaced e.env s best)
    (hnew : s.mapBlockIndex pindexNew.hashBlock = some pindexNew)
    (hf : findFork (s.walk s.pindexBest) (s.longer pindexNew) = .ok pfork)
    (hrun : exec (s.switchCall e pindexNew pfork) s.chain = (.ok r, c)) (h : Uint256)
    (txindex : CTxIndex) (hh : c.dbset.tx h = some txindex) :
    ∃ x, Forest.Anc (parentOf s.mapBlockIndex) x pindexNew.hashBlock ∧
      Placed e.env s.mapBlockIndex s.disk x h txindex.pos := by
  have hroot : Rooted s.mapBlockIndex genesis := hok.rooted
  have hbest : s.pindexBest = some best := hok.isBest
  have hshort := hroot.walk_path hok.best_some
  have hlong := hroot.longer_path hnew
  rw [hbest] at hf
  obtain ⟨hin, hin'⟩ := findFork_ok hf
  have hfv : Forest.Anc (parentOf s.mapBlockIndex) pfork.hashBlock best :=
    Forest.anc_of_mem_path (hshort ▸ List.mem_map_of_mem hin)
  have hfw : Forest.Anc (parentOf s.mapBlockIndex) pfork.hashBlock pindexNew.hashBlock :=
    Forest.anc_of_mem_path (hlong ▸ hin')
  simp only [NodeState.switchCall, switchBranch, bind_ok, writeBest, modify_ok, pure_ok] at hrun
  obtain ⟨vResurrect, s1, hd, vDelete, s2, hc, -, s3, rfl, -, rfl⟩ := hrun
  have hh' : s2.dbset.tx h = some txindex := hh
  rcases connectBranch_origin hc hh' with ⟨mid, hmid, hpos⟩ | ⟨call, hcall, block, hread, hblock⟩
  · obtain ⟨⟨old, hold, hpos'⟩, hout⟩ := disconnectBranch_origin hd hmid
    obtain ⟨x, hanc, p, block, hp, hread, hblock⟩ := hplaced h old hold
    rw [hpos', hpos] at hblock
    refine ⟨x, ?_, p, block, hp, hread, hblock⟩
    -- the block was not undone, so it is below the fork
    by_contra hnot
    have hmem : x ∈ (Forest.path (parentOf s.mapBlockIndex) (heightOf s.mapBlockIndex best + 1)
        best).takeWhile (fun y => decide (y ≠ pfork.hashBlock)) := by
      refine (Forest.mem_path_takeWhile hroot.graded (Nat.lt_succ_self _) hfv).mpr ⟨hanc, ?_⟩
      intro hxf
      exact hnot (Relation.ReflTransGen.trans hfw hxf)
    rw [← hshort, ← upTo_hashes] at hmem
    obtain ⟨br, hbr, hhash⟩ := List.mem_map.mp hmem
    have hbr' : s.mapBlockIndex br.pindex.hashBlock = some br.pindex :=
      hroot.mem_pprevWalk (upTo_mem hbr)
    rw [hhash, hp] at hbr'
    obtain rfl := Option.some.inj hbr'
    refine hout (s.blockCall e br) (List.mem_map_of_mem ?_) block hread hblock.2.2
    rw [NodeState.vDisconnect, hbest]
    exact hbr
  · obtain ⟨br, hbr, rfl⟩ := List.mem_map.mp hcall
    rw [NodeState.vConnect, List.mem_reverse] at hbr
    have hmem : br.pindex.hashBlock ∈ (upTo pfork (s.longer pindexNew)).map
        (fun br => br.pindex.hashBlock) := List.mem_map_of_mem hbr
    rw [upTo_hashes] at hmem
    have hwalk : br.pindex.hashBlock ∈ (s.longer pindexNew).map CBlockIndex.hashBlock :=
      (List.takeWhile_sublist _).subset hmem
    have hbr' : s.mapBlockIndex br.pindex.hashBlock = some br.pindex := by
      rcases List.mem_cons.mp (upTo_mem hbr) with heq | hw
      · rw [heq]
        exact hnew
      · exact hroot.mem_pprevWalk hw
    refine ⟨br.pindex.hashBlock, ?_, br.pindex, block, hbr', hread, hblock⟩
    rw [NodeState.longer, hlong] at hwalk
    exact Forest.anc_of_mem_path hwalk

structure MovesTxs (e : NodeEnv) (b : CBlock) (pindexNew : CBlockIndex) (s : NodeState)
    (r : Except Fault Unit × NodeState) : Prop where
  disk : r.2.disk = s.disk
  index : (r.1 ≠ .ok () ∧ r.2.chain.dbset.tx = s.chain.dbset.tx) ∨
    r.1 = .ok () ∧ ∀ h txindex, r.2.chain.dbset.tx h = some txindex →
      ∃ x, Forest.Anc (parentOf s.mapBlockIndex) x pindexNew.hashBlock ∧
        Placed e.env s.mapBlockIndex s.disk x h txindex.pos

theorem TxPlaced.moved (hok : TreeOk s.tree genesis best) (hplaced : TxPlaced e.env s best)
    (hnew : s.mapBlockIndex pindexNew.hashBlock = some pindexNew)
    (hprev : pindexNew.pprev = some b.hashPrevBlock)
    (hstored : s.disk.readIndexed e.env pindexNew = some b) {r : Except Fault Unit × NodeState}
    (hmove : Moved e b pindexNew s r) : MovesTxs e b pindexNew s r := by
  cases hmove with
  | genesis hgen _ =>
    have hgen' : s.pindexGenesisBlock = some genesis := hok.genesisBlock
    rw [hgen] at hgen'
    cases hgen'
  | extendFails _ _ | noFork _ _ | switchFails _ _ _ =>
    exact ⟨rfl, .inl ⟨nofun, rfl⟩⟩
  | @extended hbest c hrun =>
    obtain ⟨-, -, hhash, -⟩ := hok.globals
    have hhash' : s.hashBestChain = best := hhash
    have hpool : PoolOnly _ _ := removeAll_poolOnly e.env b.vtx
      ((s.commitTxn c).linkNext pindexNew (some pindexNew.hashBlock))
    refine ⟨hpool.disk, .inr ⟨rfl, ?_⟩⟩
    intro h txindex hh
    rw [hpool.dbset] at hh
    exact hplaced.extended hnew (by rw [hprev, hbest, hhash']) hstored hrun h txindex hh
  | @switched hbest pfork r c hf hrun =>
    have hpool : PoolOnly (relink (s.vDisconnect pfork) (s.vConnect pindexNew pfork)
        (s.commitTxn c)) _ := (resurrect_poolOnly e r.1 _).trans (removeAll_poolOnly e.env r.2 _)
    rw [relink_eq] at hpool
    rw [relink_eq]
    refine ⟨hpool.disk, .inr ⟨rfl, ?_⟩⟩
    intro h txindex hh
    rw [hpool.dbset] at hh
    exact hplaced.switched hok hnew hf hrun h txindex hh

def Indexed (env : Env) (genesis : Uint256) (s : NodeState) : Prop :=
  ∃ best, TreeOk s.tree genesis best ∧ TxPlaced env s best

theorem setBestChain_indexed (hok : TreeOk s.tree genesis best) (hplaced : TxPlaced e.env s best)
    (hhash : b.getHash e.env = pindexNew.hashBlock)
    (hnew : s.mapBlockIndex pindexNew.hashBlock = some pindexNew)
    (hprev : pindexNew.pprev = some b.hashPrevBlock)
    (hstored : s.disk.readIndexed e.env pindexNew = some b) :
    (exec (setBestChain e b pindexNew) s).2.disk = s.disk ∧
      SameTree s.mapBlockIndex (exec (setBestChain e b pindexNew) s).2.mapBlockIndex ∧
      Indexed e.env genesis (exec (setBestChain e b pindexNew) s).2 := by
  have htree := hok.setBestChain hhash hnew hprev
  revert htree
  unfold Namecoin.setBestChain
  rcases hx : exec (moveChain e b pindexNew) s with ⟨r, s'⟩
  have hmove := moveChain_moved e b pindexNew s
  rw [hx] at hmove
  obtain ⟨hdisk, hindex⟩ := hplaced.moved hok hnew hprev hstored hmove
  rcases hok.moved hnew hprev hmove with ⟨fault, rfl, ht⟩ | ⟨m, rfl, ht, hsame, -⟩
  · rw [exec_bind_error hx]
    intro _
    have hmap : s'.mapBlockIndex = s.mapBlockIndex := congrArg TreeView.mapBlockIndex ht
    have hsame : SameTree s.mapBlockIndex s'.mapBlockIndex := hmap ▸ SameTree.refl _
    rcases hindex with ⟨-, htx⟩ | ⟨hbad, -⟩
    · refine ⟨hdisk, hsame, best, ?_, txPlaced_of_origin hdisk hsame ?_⟩
      · have ht' : s'.tree = s.tree := ht
        rw [ht']
        exact hok
      · intro h txindex hh
        have htx' : s'.chain.dbset.tx = s.chain.dbset.tx := htx
        rw [htx'] at hh
        exact hplaced h txindex hh
    · cases hbad
  · rw [exec_bind_ok hx, exec_modify]
    intro htree
    have hmap : s'.mapBlockIndex = m := congrArg TreeView.mapBlockIndex ht
    rw [← hmap] at hsame
    rcases hindex with ⟨hbad, -⟩ | ⟨-, horigin⟩
    · exact absurd rfl hbad
    · refine ⟨hdisk, hsame, pindexNew.hashBlock, ?_, txPlaced_of_origin hdisk hsame horigin⟩
      rcases htree with heq | htree
      · have hpoint : s.pindexBest = some pindexNew.hashBlock := by
          have hbest' : (s'.newBest pindexNew (b.getHash e.env)).tree.pindexBest =
              s.tree.pindexBest := congrArg TreeView.pindexBest heq
          rw [← hhash]
          exact hbest'.symm
        obtain rfl : best = pindexNew.hashBlock :=
          Option.some.inj (hok.isBest.symm.trans hpoint)
        exact heq ▸ hok
      · exact htree.1

end Best

def Grows (m m' : BlockMap) : Prop :=
  ∀ x p, m x = some p → ∃ p', m' x = some p' ∧ forgetNext p' = forgetNext p

theorem SameTree.grows {m m' : BlockMap} (h : SameTree m m') : Grows m m' := by
  intro x p hp
  obtain ⟨p', hp'⟩ := h.present hp
  have hx := h x
  rw [hp, hp'] at hx
  exact ⟨p', hp', Option.some.inj hx⟩

theorem grows_refl (m : BlockMap) : Grows m m := (SameTree.refl m).grows

theorem Grows.trans {m m' m'' : BlockMap} (h : Grows m m') (h' : Grows m' m'') : Grows m m'' := by
  intro x p hp
  obtain ⟨p', hp', he⟩ := h x p hp
  obtain ⟨p'', hp'', he'⟩ := h' x p' hp'
  exact ⟨p'', hp'', he'.trans he⟩

theorem grows_insert {m : BlockMap} {pindexNew : CBlockIndex}
    (hfresh : m pindexNew.hashBlock = none) :
    Grows m (Function.update m pindexNew.hashBlock (some pindexNew)) := by
  intro x p hp
  refine ⟨p, ?_, rfl⟩
  rw [Function.update_of_ne, hp]
  rintro rfl
  rw [hfresh] at hp
  cases hp

theorem Grows.anc_back {m m' : BlockMap} {genesis : Uint256} (hroot : Rooted m genesis)
    (hgrows : Grows m m') {a x : Uint256} (hx : (m x).isSome) (hanc : Forest.Anc (parentOf m') a x) :
    Forest.Anc (parentOf m) a x := by
  refine (Forest.anc_congr fun y hy => ?_).mp hanc
  obtain ⟨p, hp⟩ := Option.isSome_iff_exists.mp (hroot.anc_some hx hy)
  obtain ⟨p', hp', hforget⟩ := hgrows y p hp
  rw [parentOf, parentOf, hp, hp']
  show (forgetNext p').pprev = (forgetNext p).pprev
  rw [hforget]

theorem Disk.KeepsBlocks.trans {a b c : Disk} (h : a.KeepsBlocks b) (h' : b.KeepsBlocks c) :
    a.KeepsBlocks c := fun nFile nBlockPos x hx => h' _ _ _ (h nFile nBlockPos x hx)

structure IndexStep (env : Env) (genesis : Uint256) (s s' : NodeState) : Prop where
  keeps : s.disk.KeepsBlocks s'.disk
  grows : Grows s.mapBlockIndex s'.mapBlockIndex
  indexed : Indexed env genesis s → Indexed env genesis s'

theorem indexStep_refl (env : Env) (genesis : Uint256) (s : NodeState) :
    IndexStep env genesis s s := ⟨fun _ _ _ h => h, grows_refl _, fun h => h⟩

theorem IndexStep.trans {env : Env} {genesis : Uint256} {a b c : NodeState}
    (h : IndexStep env genesis a b) (h' : IndexStep env genesis b c) : IndexStep env genesis a c :=
  ⟨h.keeps.trans h'.keeps, h.grows.trans h'.grows, fun ha => h'.indexed (h.indexed ha)⟩

theorem indexStep_of_same {env : Env} {genesis : Uint256} {s s' : NodeState}
    (htree : s'.tree = s.tree) (hdisk : s'.disk = s.disk)
    (htx : s'.chain.dbset.tx = s.chain.dbset.tx) : IndexStep env genesis s s' := by
  have hmap : s'.mapBlockIndex = s.mapBlockIndex := congrArg TreeView.mapBlockIndex htree
  refine ⟨?_, ?_, ?_⟩
  · rw [hdisk]
    exact fun _ _ _ h => h
  · rw [hmap]
    exact grows_refl _
  · rintro ⟨best, hok, hplaced⟩
    refine ⟨best, htree ▸ hok, ?_⟩
    intro h txindex hh
    rw [htx] at hh
    rw [hmap, hdisk]
    exact hplaced h txindex hh

theorem PoolOnly.indexStep {env : Env} {genesis : Uint256} {s s' : NodeState}
    (h : PoolOnly s s') : IndexStep env genesis s s' :=
  indexStep_of_same h.tree h.disk (by rw [h.dbset])

def NodeEnv.Appends (e : NodeEnv) : Prop :=
  ∀ s b nFile nBlockPos, e.writeToDisk s b = some (nFile, nBlockPos) →
    s.disk.readBlock nFile nBlockPos = none

section Accept

variable {e : NodeEnv} {b : CBlock} {s : NodeState} {genesis : Uint256} {nFile nBlockPos : Nat}

theorem writeToDisk_keeps {d : Disk} (h : d.readBlock nFile nBlockPos = none) (b : CBlock) :
    d.KeepsBlocks (d.writeToDisk nFile nBlockPos b) := by
  intro f p x hx
  simp only [Disk.writeToDisk]
  rw [if_neg, hx]
  rintro ⟨rfl, rfl⟩
  rw [h] at hx
  cases hx

theorem addToBlockIndex_indexStep (hprev : (s.mapBlockIndex b.hashPrevBlock).isSome)
    (hstored : s.disk.readBlock nFile nBlockPos = some b) (hindexed : Indexed e.env genesis s) :
    IndexStep e.env genesis s (exec (addToBlockIndex e b nFile nBlockPos) s).2 := by
  unfold addToBlockIndex
  rw [exec_get_bind]
  refine after_raiseIf (indexStep_refl e.env genesis s) (fun hfresh => ?_)
  obtain ⟨best, hok, hplaced⟩ := hindexed
  have hnone : s.mapBlockIndex (b.getHash e.env) = none := by simpa using hfresh
  obtain ⟨hlink, hins⟩ := hok.insertNew hprev hnone nFile nBlockPos
  have hgrows : Grows s.mapBlockIndex
      (insertBlockIndex (newBlockIndex e.env s b nFile nBlockPos) s).mapBlockIndex :=
    grows_insert hnone
  have hplaced' : TxPlaced e.env (insertBlockIndex (newBlockIndex e.env s b nFile nBlockPos) s)
      best := by
    intro h txindex hh
    obtain ⟨x, hanc, hx⟩ := hplaced h txindex hh
    have hne : ∀ y, Forest.Anc (parentOf s.mapBlockIndex) y best → y ≠ b.getHash e.env := by
      rintro y hy rfl
      have hsome := hok.rooted.anc_some hok.best_some hy
      have hnone' : s.tree.mapBlockIndex (b.getHash e.env) = none := hnone
      rw [hnone'] at hsome
      cases hsome
    have hsame : ∀ y, y ≠ b.getHash e.env →
        (insertBlockIndex (newBlockIndex e.env s b nFile nBlockPos) s).mapBlockIndex y =
          s.mapBlockIndex y := fun y hy => Function.update_of_ne hy _ _
    refine ⟨x, hanc.congr (fun y hy => ?_), hx.grow (fun _ _ _ h => h) (fun p hp => ?_)⟩
    · rw [parentOf, hsame y (hne y hy)]
      rfl
    · rw [hsame x (hne x hanc)]
      exact hp
  dsimp only
  rw [exec_modify_bind]
  unfold doIf
  split
  · obtain ⟨hdisk, hsame, hidx⟩ := @setBestChain_indexed e _ b genesis best
      (newBlockIndex e.env s b nFile nBlockPos) hins hplaced' rfl (Function.update_self _ _ _)
      hlink (Option.filter_eq_some_iff.mpr ⟨hstored, by simp [newBlockIndex]⟩)
    have hdisk' : _ = s.disk := hdisk
    exact ⟨hdisk' ▸ fun _ _ _ h => h, hgrows.trans hsame.grows, fun _ => hidx⟩
  · exact ⟨fun _ _ _ h => h, hgrows, fun _ => ⟨best, hins, hplaced'⟩⟩

theorem acceptBlock_indexStep (happends : e.Appends) (b : CBlock) (s : NodeState)
    (hindexed : Indexed e.env genesis s) :
    IndexStep e.env genesis s (exec (acceptBlock e b) s).2 := by
  have hself := indexStep_refl e.env genesis s
  unfold acceptBlock
  rw [exec_get_bind]
  refine after_raiseIf hself (fun _ => ?_)
  refine after_fromOption hself (fun pindexPrev hprev => ?_)
  refine after_fromExcept hself (fun _ _ => ?_)
  refine after_fromOption hself (fun pos hpos => ?_)
  rw [exec_modify_bind]
  have hkeeps := writeToDisk_keeps (happends s b pos.1 pos.2 hpos) b
  have hwritten : Indexed e.env genesis { s with disk := s.disk.writeToDisk pos.1 pos.2 b } := by
    obtain ⟨best, hok, hplaced⟩ := hindexed
    refine ⟨best, hok, ?_⟩
    intro h txindex hh
    obtain ⟨x, hanc, hx⟩ := hplaced h txindex hh
    exact ⟨x, hanc, hx.grow hkeeps (fun _ hp => hp)⟩
  have hadd := @addToBlockIndex_indexStep e b
    { s with disk := s.disk.writeToDisk pos.1 pos.2 b } genesis pos.1 pos.2 (by simp [hprev])
    (by simp [Disk.writeToDisk]) hwritten
  exact ⟨hkeeps.trans hadd.keeps, hadd.grows, fun _ => hadd.indexed hwritten⟩

end Accept

end Namecoin
