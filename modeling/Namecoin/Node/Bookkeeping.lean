import Namecoin.Node.Rollback

namespace Namecoin

open Act

def PendingTracks (env : Env) (s : NodeState) : Prop :=
  Mirror.Tracks (CTransaction.pendsOn env) s.mapTransactions s.chain.mapNamePending

def NewTracks (env : Env) (s : NodeState) : Prop :=
  ∀ vchHash, vchHash ∈ s.setNewHashes ↔
    ∃ h tx, s.mapTransactions h = some tx ∧ tx.commitsTo env = some vchHash

structure Booked (env : Env) (s : NodeState) : Prop where
  pending : PendingTracks env s
  news : NewTracks env s

def Unconfirmed (s : NodeState) : PoolAct → Prop
  | .accept _ _ _ _ _ => True
  | .best e b pindexNew =>
    ((exec (setBestChain e b pindexNew) s).1 = .ok () →
      ∀ d ∈ s.vDelete e b pindexNew, ∀ tx,
        (s.resurrect e (s.vResurrect e b pindexNew)).mapTransactions (d.getHash e.env) = some tx →
          tx = d ∧ d.commitsTo e.env = none) ∧
    ((exec (setBestChain e b pindexNew) s).1 ≠ .ok () → KeepsPending e b pindexNew s)

theorem EmptyPool.booked {s : NodeState} (h : EmptyPool s) (env : Env) : Booked env s where
  pending := by
    unfold PendingTracks
    rw [h.transactions, h.pending]
    exact Mirror.tracks_empty
  news := by
    intro vchHash
    simp [h.newHashes, h.transactions]

theorem SamePool.booked {env : Env} {s s' : NodeState} (h : SamePool s s') (hb : Booked env s) :
    Booked env s' where
  pending := by
    unfold PendingTracks
    rw [h.transactions, h.pending]
    exact hb.pending
  news := by
    unfold NewTracks
    rw [h.transactions, h.newHashes]
    exact hb.news

theorem Admits.booked {env : Env} {tx : CTransaction} {s s' : NodeState} (h : Admits env tx s s')
    (hb : Booked env s) : Booked env s' where
  pending := by
    unfold PendingTracks
    rw [h.transactions, h.pending]
    exact hb.pending.insert h.unpooled
  news := by
    intro vchHash
    rw [h.newHashes, h.transactions, Finset.mem_union, Option.mem_toFinset, Option.mem_def,
      hb.news vchHash]
    constructor
    · rintro (hnew | ⟨k, tx', hk, hcommit⟩)
      · exact ⟨tx.getHash env, tx, by simp, hnew⟩
      · have hne : k ≠ tx.getHash env := by
          rintro rfl
          rw [h.unpooled] at hk
          cases hk
        exact ⟨k, tx', by rw [Function.update_of_ne hne, hk], hcommit⟩
    · rintro ⟨k, tx', hk, hcommit⟩
      rcases eq_or_ne k (tx.getHash env) with rfl | hne
      · rw [Function.update_self] at hk
        obtain rfl := Option.some.inj hk
        exact .inl hcommit
      · rw [Function.update_of_ne hne] at hk
        exact .inr ⟨k, tx', hk, hcommit⟩

theorem Booked.accept {e : NodeEnv} {s : NodeState} (hb : Booked e.env s) (tx : CTransaction)
    (fCheckInputs fLimitFree fRateLimited : Bool) :
    Booked e.env (exec (acceptToMemoryPool e tx fCheckInputs fLimitFree fRateLimited) s).2 := by
  rcases acceptToMemoryPool_cases e tx fCheckInputs fLimitFree fRateLimited s with
    ⟨fault, hx⟩ | ⟨s', hx, hadmits⟩
  · rw [hx]
    exact hb
  · rw [hx]
    exact hadmits.booked hb

theorem Booked.resurrect {e : NodeEnv} {s : NodeState} (hb : Booked e.env s)
    (vResurrect : List CTransaction) : Booked e.env (s.resurrect e vResurrect) := by
  induction vResurrect generalizing s with
  | nil => exact hb
  | cons tx rest ih => exact ih (hb.accept tx false true false)

theorem Sheds.file {ids : List Uint256} {m m' : Pending} (h : Sheds ids m m') (k : Uint256)
    (o : Option VchType) : Sheds ids (Mirror.file k m o) (Mirror.file k m' o) where
  shrinks vchName k' hk' := by
    rw [Mirror.mem_file] at hk' ⊢
    exact hk'.imp_right (h.shrinks vchName k')
  keeps vchName k' hk' hne := by
    rw [Mirror.mem_file] at hk' ⊢
    exact hk'.imp_right (fun hin => h.keeps vchName k' hin hne)

theorem Sheds.accept {e : NodeEnv} {ids : List Uint256} {s t : NodeState} (halike : PoolAlike t s)
    (h : Sheds ids s.chain.mapNamePending t.chain.mapNamePending) (tx : CTransaction) :
    Sheds ids (exec (acceptToMemoryPool e tx false true false) s).2.chain.mapNamePending
      (exec (acceptToMemoryPool e tx false true false) t).2.chain.mapNamePending := by
  have hresult := (halike.accept e tx true false).1
  rcases acceptToMemoryPool_cases e tx false true false s with ⟨fault, hs⟩ | ⟨s', hs, hadmits⟩
  · rcases acceptToMemoryPool_cases e tx false true false t with ⟨fault', ht⟩ | ⟨t', ht, -⟩
    · rw [hs, ht]
      exact h
    · rw [hs, ht] at hresult
      cases hresult
  · rcases acceptToMemoryPool_cases e tx false true false t with ⟨fault', ht⟩ | ⟨t', ht, hadmits'⟩
    · rw [hs, ht] at hresult
      cases hresult
    · rw [hs, ht, hadmits.pending, hadmits'.pending]
      exact h.file _ _

theorem Sheds.resurrect {e : NodeEnv} {ids : List Uint256} {s t : NodeState}
    (halike : PoolAlike t s) (h : Sheds ids s.chain.mapNamePending t.chain.mapNamePending)
    (vResurrect : List CTransaction) :
    Sheds ids (s.resurrect e vResurrect).chain.mapNamePending
      (t.resurrect e vResurrect).chain.mapNamePending := by
  induction vResurrect generalizing s t with
  | nil => exact h
  | cons tx rest ih => exact ih (halike.accept e tx true false).2 (Sheds.accept halike h tx)

theorem Booked.remove {env : Env} {ds : List CTransaction} {s t s' : NodeState}
    (hb : Booked env s) (halike : PoolAlike t s)
    (hsheds : Sheds (txHashes env ds) s.chain.mapNamePending t.chain.mapNamePending)
    (hremoves : Removes env ds t s')
    (hsafe : ∀ d ∈ ds, ∀ tx, s.mapTransactions (d.getHash env) = some tx →
      tx = d ∧ d.commitsTo env = none) : Booked env s' where
  pending := by
    have hpool : ∀ k, s'.mapTransactions k =
        if k ∈ (txHashes env ds).toFinset then none else s.mapTransactions k := by
      intro k
      rw [hremoves.transactions, halike.transactions]
      simp only [List.mem_toFinset]
    refine hb.pending.remove hpool ?_ ?_ ?_
    · intro vchName k hk
      exact hsheds.shrinks vchName k (hremoves.shrinks vchName k hk)
    · intro vchName k hk hne
      rw [List.mem_toFinset] at hne
      exact hremoves.keeps vchName k (hsheds.keeps vchName k hk hne) hne
    · intro vchName k tx hgone htx hname
      obtain ⟨d, hd, rfl⟩ := List.mem_map.mp (List.mem_toFinset.mp hgone)
      obtain ⟨rfl, -⟩ := hsafe d hd tx htx
      exact hremoves.clears tx hd vchName hname
  news := by
    intro vchHash
    rw [hremoves.newHashes, halike.newHashes, hb.news vchHash]
    constructor
    · rintro ⟨k, tx, htx, hcommit⟩
      refine ⟨k, tx, ?_, hcommit⟩
      rw [hremoves.transactions, halike.transactions, if_neg, htx]
      intro hgone
      obtain ⟨d, hd, rfl⟩ := List.mem_map.mp hgone
      obtain ⟨rfl, hnone⟩ := hsafe d hd tx htx
      rw [hnone] at hcommit
      cases hcommit
    · rintro ⟨k, tx, htx, hcommit⟩
      rw [hremoves.transactions, halike.transactions] at htx
      split at htx
      · cases htx
      · exact ⟨k, tx, htx, hcommit⟩

theorem PoolAlike.samePool {s s' : NodeState} (h : PoolAlike s' s)
    (hpend : s'.chain.mapNamePending = s.chain.mapNamePending) : SamePool s s' :=
  ⟨h.transactions, h.nextTx, hpend, h.newHashes⟩

theorem Booked.best {e : NodeEnv} {b : CBlock} {pindexNew : CBlockIndex} {s : NodeState}
    (hb : Booked e.env s) (hG : Unconfirmed s (.best e b pindexNew)) :
    Booked e.env (exec (setBestChain e b pindexNew) s).2 := by
  simp only [Unconfirmed] at hG
  rcases setBestChain_cases e b pindexNew s with ⟨fault, s', hx, halike⟩ | ⟨s', hx, hsettles⟩
  · have hpend := (moved_pending (setBestChain_failed hx)).mpr (hG.2 (by rw [hx]; simp))
    rw [hx]
    exact (halike.samePool hpend).booked hb
  · have hsafe := hG.1 (by rw [hx])
    obtain ⟨s1, halike, hsheds, rfl⟩ := hsettles.done
    rw [hx]
    have hremoved : Booked e.env ((s1.resurrect e (s.vResurrect e b pindexNew)).removeAll e.env
        (s.vDelete e b pindexNew)) :=
      (hb.resurrect _).remove (halike.resurrect e _) (hsheds.resurrect halike _)
        (removeAll_removes _ _ _) hsafe
    exact ⟨hremoved.pending, hremoved.news⟩

theorem Booked.step {env : Env} {s s' : NodeState} (hb : Booked env s)
    (hstep : PoolStep env Unconfirmed s s') : Booked env s' := by
  cases hstep with
  | act a henv hG =>
    subst henv
    cases a with
    | accept e tx fCheckInputs fLimitFree fRateLimited => exact Booked.accept hb _ _ _ _
    | best e b pindexNew => exact Booked.best hb hG
  | elsewhere h => exact h.booked hb

theorem booked_of_run {env : Env} {s0 s : NodeState} (hstart : EmptyPool s0)
    (run : Relation.ReflTransGen (PoolStep env Unconfirmed) s0 s) : Booked env s := by
  induction run with
  | refl => exact hstart.booked env
  | tail _ hstep ih => exact ih.step hstep

theorem hookAccept_new {env : Env} {tx : CTransaction} {vchHash : VchType} {s : NodeState}
    (hcommit : tx.commitsTo env = some vchHash) (hfree : vchHash ∉ s.setNewHashes) :
    (exec (hookAcceptToMemoryPool env tx) s).1 = .ok () := by
  obtain ⟨d, hd, hif⟩ := Option.bind_eq_some_iff.mp hcommit
  unfold CTransaction.pooledName at hd
  split at hd
  · next hv =>
    split at hif
    · next hop =>
      have hout : tx.vout ≠ [] := by
        intro hout
        simp [decodeNameTx, CTransaction.outScripts, hout, scanNameScripts, NameScan.start] at hd
      unfold hookAcceptToMemoryPool
      rw [if_neg (not_not.mpr hv), exec_bind_ok ((raiseIf_ok (u := ())).mpr ⟨hout, rfl⟩),
        exec_bind_ok (fromOption_ok.mpr ⟨hd, rfl⟩),
        exec_bind_ok (fromExcept_ok.mpr ⟨vchAt_ok.mpr hif, rfl⟩), if_pos hop, exec_get_bind,
        exec_bind_ok ((raiseIf_ok (u := ())).mpr ⟨hfree, rfl⟩)]
      rfl
    · cases hif
  · cases hd

structure TracksPool (env : Env) (s : NodeState) : Prop where
  pending : ∀ vchName h, h ∈ s.chain.mapNamePending vchName ↔
    ∃ tx, s.mapTransactions h = some tx ∧ tx.pendsOn env = some vchName
  newHashes : ∀ vchHash, vchHash ∈ s.setNewHashes ↔
    ∃ h tx, s.mapTransactions h = some tx ∧ tx.commitsTo env = some vchHash
  again : ∀ tx vchHash, tx.commitsTo env = some vchHash →
    (∀ h tx', s.mapTransactions h = some tx' → tx'.commitsTo env ≠ some vchHash) →
      (exec (hookAcceptToMemoryPool env tx) s).1 = .ok ()

theorem bookkeeping_tracks_pool {env : Env} {s0 s : NodeState} (hstart : EmptyPool s0)
    (run : Relation.ReflTransGen (PoolStep env Unconfirmed) s0 s) : TracksPool env s := by
  have hb := booked_of_run hstart run
  refine ⟨hb.pending, hb.news, ?_⟩
  intro tx vchHash hcommit hgone
  refine hookAccept_new hcommit ?_
  intro hin
  obtain ⟨h, tx', hpool, hcommit'⟩ := (hb.news vchHash).mp hin
  exact hgone h tx' hpool hcommit'

def commitVch : VchType := List.replicate 20 7

def newTx : CTransaction :=
  sampleTx namecoinTxVersion [(fundTx.getHash sampleEnv, 0)]
    [(cent, [81, 20] ++ commitVch ++ [109]), (coin, List.replicate 25 (UInt8.ofNat opNop))]

def newBlock : CBlock := linkedBlock (zeroBlock.getHash sampleEnv) 2 [sampleCoinbase 1, newTx]

def minedNode : NodeState := bestNode (acceptNode fundedNode newTx) newBlock

theorem bestNode_transactions {s : NodeState} {b : CBlock}
    (hok : (exec (setBestChain sampleNodeEnv b (offeredIndex s b)) (offeredNode s b)).1 = .ok ())
    (hres : NodeState.vResurrect sampleNodeEnv (offeredNode s b) b (offeredIndex s b) = [])
    (k : Uint256) : (bestNode s b).mapTransactions k =
      if k ∈ txHashes sampleEnv
        (NodeState.vDelete sampleNodeEnv (offeredNode s b) b (offeredIndex s b)) then none
      else s.mapTransactions k := by
  rcases setBestChain_cases sampleNodeEnv b (offeredIndex s b) (offeredNode s b) with
    ⟨fault, s', hx, -⟩ | ⟨s', hx, hsettles⟩
  · rw [hx] at hok
    cases hok
  · obtain ⟨s1, halike, -, rfl⟩ := hsettles.done
    have hremoves := removeAll_removes sampleEnv
      (NodeState.vDelete sampleNodeEnv (offeredNode s b) b (offeredIndex s b)) s1
    rw [hres] at hx
    rw [bestNode, hx]
    have hpool : s1.mapTransactions = s.mapTransactions := halike.transactions
    rw [← hpool, ← hremoves.transactions k]
    rfl

theorem minedNode_empty (h : Uint256) : minedNode.mapTransactions h = none := by
  have hok : (exec (acceptToMemoryPool sampleNodeEnv newTx true true false) fundedNode).1 =
      .ok () := by decide +kernel
  have hbest : (exec (setBestChain sampleNodeEnv newBlock
      (offeredIndex (acceptNode fundedNode newTx) newBlock))
      (offeredNode (acceptNode fundedNode newTx) newBlock)).1 = .ok () := by decide +kernel
  have hres : NodeState.vResurrect sampleNodeEnv (offeredNode (acceptNode fundedNode newTx) newBlock)
      newBlock (offeredIndex (acceptNode fundedNode newTx) newBlock) = [] := by decide +kernel
  have hdelete : NodeState.vDelete sampleNodeEnv (offeredNode (acceptNode fundedNode newTx) newBlock)
      newBlock (offeredIndex (acceptNode fundedNode newTx) newBlock) =
      [sampleCoinbase 1, newTx] := by decide +kernel
  rw [minedNode, bestNode_transactions hbest hres, hdelete,
    acceptNode_transactions fundedNode_empty hok]
  split
  · rfl
  · next hne =>
    refine Function.update_of_ne ?_ _ _
    rintro rfl
    exact hne (List.mem_cons_of_mem _ List.mem_cons_self)

theorem not_tracksPool_of_empty {env : Env} {s : NodeState} {vchHash : VchType}
    (hempty : ∀ h, s.mapTransactions h = none) (hnew : s.setNewHashes = {vchHash}) :
    ¬TracksPool env s := by
  intro htracks
  have hin : vchHash ∈ s.setNewHashes := by simp [hnew]
  obtain ⟨h, tx, hpool, -⟩ := (htracks.newHashes vchHash).mp hin
  rw [hempty] at hpool
  cases hpool

theorem bookkeeping_forgets :
    ¬ ∀ s0 s, EmptyPool s0 →
      Relation.ReflTransGen (PoolStep sampleEnv (fun _ _ => True)) s0 s →
        TracksPool sampleEnv s := by
  intro hall
  have hrun : Relation.ReflTransGen (PoolStep sampleEnv (fun _ _ => True)) fundedNode minedNode :=
    acceptThenBest_run trivial trivial
  have hnew : minedNode.setNewHashes = {commitVch} := by decide +kernel
  exact not_tracksPool_of_empty minedNode_empty hnew (hall _ _ fundedNode_empty hrun)

theorem namedNode_empty : EmptyPool namedNode := by
  have hok : (exec (loadBlockIndex namedEnv namedGenesis) (NodeState.blank sampleWallet)).1 =
      .ok () := by decide +kernel
  have hstarted : Started sampleEnv namedEnv.hashGenesisBlock
      (exec (loadBlockIndex namedEnv namedGenesis) (NodeState.blank sampleWallet)).2 :=
    ⟨namedEnv, namedGenesis, sampleWallet, rfl, rfl, rfl, by decide +kernel, exec_eta hok⟩
  exact (withNameHead_samePool _).emptyPool hstarted.emptyPool

def renewBlock : CBlock :=
  linkedBlock (namedGenesis.getHash sampleEnv) 2 [sampleCoinbase 1, renewTx]

theorem renewBlock_unconfirmed :
    Unconfirmed (offeredNode renewNode renewBlock)
      (.best sampleNodeEnv renewBlock (offeredIndex renewNode renewBlock)) := by
  have hbest : (exec (setBestChain sampleNodeEnv renewBlock (offeredIndex renewNode renewBlock))
      (offeredNode renewNode renewBlock)).1 = .ok () := by decide +kernel
  refine ⟨fun _ => ?_, fun hne => absurd hbest hne⟩
  have hres : NodeState.vResurrect sampleNodeEnv (offeredNode renewNode renewBlock) renewBlock
      (offeredIndex renewNode renewBlock) = [] := by decide +kernel
  have hdelete : NodeState.vDelete sampleNodeEnv (offeredNode renewNode renewBlock) renewBlock
      (offeredIndex renewNode renewBlock) = [sampleCoinbase 1, renewTx] := by decide +kernel
  have hcoinbase : renewNode.mapTransactions ((sampleCoinbase 1).getHash sampleEnv) = none := by
    decide +kernel
  have hrenew : renewNode.mapTransactions (renewTx.getHash sampleEnv) = some renewTx := by
    decide +kernel
  have hplain : renewTx.commitsTo sampleEnv = none := by decide +kernel
  rw [hres, hdelete]
  intro d hd tx htx
  rw [resurrect_nil, (offeredNode_samePool renewNode renewBlock).transactions] at htx
  rcases List.mem_cons.mp hd with rfl | hd
  · rw [show sampleNodeEnv.env = sampleEnv from rfl, hcoinbase] at htx
    cases htx
  · obtain rfl := List.mem_singleton.mp hd
    rw [show sampleNodeEnv.env = sampleEnv from rfl, hrenew] at htx
    exact ⟨(Option.some.inj htx).symm, hplain⟩

theorem renewBlock_tracks :
    renewNode.chain.mapNamePending [65] = {renewTx.getHash sampleEnv} ∧
      (bestNode renewNode renewBlock).nBestHeight = 1 ∧
      TracksPool sampleEnv (bestNode renewNode renewBlock) := by
  have hrun : Relation.ReflTransGen (PoolStep sampleEnv Unconfirmed) namedNode
      (bestNode renewNode renewBlock) := acceptThenBest_run trivial renewBlock_unconfirmed
  exact ⟨by decide +kernel, by decide +kernel, bookkeeping_tracks_pool namedNode_empty hrun⟩

end Namecoin
