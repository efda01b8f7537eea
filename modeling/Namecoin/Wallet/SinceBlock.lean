import Namecoin.Node.Reload
import Namecoin.Node.TxIndexed
import Namecoin.Wallet.TxEntries

namespace Namecoin

open Act

section Locator

variable (e : NodeEnv) (s : NodeState)

def locatorFrom : Nat → Nat → Nat → List CBlockIndex → List Uint256
  | 0, _, _, _ => []
  | _ + 1, _, _, [] => []
  | fuel + 1, nStep, nHave, pindex :: pprev =>
    pindex.hashBlock ::
      locatorFrom fuel (if 10 < nHave + 1 then 2 * nStep else nStep) (nHave + 1)
        ((pindex :: pprev).drop nStep)

def locatorSet (hashBlock : Uint256) : List Uint256 :=
  let walk := s.walk (some hashBlock)
  locatorFrom walk.length 1 0 walk ++ [e.hashGenesisBlock]

def locatorOf (hashBlock : Uint256) : List Uint256 :=
  if (s.mapBlockIndex hashBlock).isSome then locatorSet e s hashBlock else []

def locatorIndex : List Uint256 → Option Uint256
  | [] => s.pindexGenesisBlock
  | hash :: vHave =>
    match s.mapBlockIndex hash with
    | none => locatorIndex vHave
    | some pindex => if pindex.isInMainChain s then some hash else locatorIndex vHave

def sinceDepth (blockId : Option Uint256) : Int :=
  match blockId.bind fun hash => locatorIndex s (locatorOf e s hash) with
  | none => -1
  | some pindex => 1 + s.nBestHeight - heightOf s.mapBlockIndex pindex

def lastBlock (target_confirms : Int) : Except Fault Uint256 :=
  if target_confirms = 1 then .ok s.hashBestChain
  else
    match s.pindexBest.bind s.mapBlockIndex with
    | none => .error .undefined
    | some pindexBest =>
      let target_height := (pindexBest.nHeight : Int) + 1 - target_confirms
      let block := (s.walk s.pindexBest).find? fun block =>
        decide ((block.nHeight : Int) ≤ target_height)
      .ok ((block.map CBlockIndex.hashBlock).getD 0)

end Locator

structure SinceBlock where
  transactions : List ListedTx
  lastblock : Uint256

namespace Wallet

variable {env : Env} (w : Wallet env) (l : ListEnv env)

def sinceTxs (blockId : Option Uint256) : List WalletTx :=
  let depth := sinceDepth l.e l.s blockId
  w.txs.filter fun wtx => decide (depth = -1 ∨ wtx.getDepthInMainChain l.e l.s < depth)

def listsinceblock (blockId : Option Uint256) (targetConfirms : Option Int) :
    Except Fault SinceBlock := do
  let target_confirms := targetConfirms.getD 1
  Except.raiseIf (target_confirms < 1) (.exception "Invalid parameter")
  let transactions ← (w.sinceTxs l blockId).mapM fun wtx =>
    w.listTransactions l wtx (str "*") 0 true
  let lastblock ← lastBlock l.s target_confirms
  pure ⟨transactions.flatten, lastblock⟩

end Wallet

structure InBlock (e : NodeEnv) (wtx : WalletTx) (p : CBlockIndex) : Prop where
  hash : wtx.merkle.hashBlock = p.hashBlock
  branch : wtx.fMerkleVerified = true ∨
    checkMerkleBranch e.env (wtx.merkle.tx.getHash e.env) wtx.merkle.vMerkleBranch
      wtx.merkle.nIndex = p.hashMerkleRoot

def MainWith (s : NodeState) (confirmations : Int) (hash : Uint256) : Prop :=
  ∃ p, s.mapBlockIndex hash = some p ∧ isInMainChain s p ∧
    confirmations ≤ s.nBestHeight - p.nHeight + 1

section Locator

variable {e : NodeEnv} {s : NodeState} {genesis best : Uint256}

theorem locatorFrom_subset (fuel nStep nHave : Nat) (walk : List CBlockIndex) :
    ∀ hash ∈ locatorFrom fuel nStep nHave walk, hash ∈ walk.map CBlockIndex.hashBlock := by
  induction fuel generalizing nStep nHave walk with
  | zero => intro hash h; cases h
  | succ fuel ih =>
    cases walk with
    | nil => intro hash h; cases h
    | cons pindex pprev =>
      intro hash h
      rw [locatorFrom] at h
      rcases List.mem_cons.mp h with rfl | h
      · exact List.mem_cons_self
      · exact List.map_subset _ (List.drop_subset nStep _) (ih _ _ _ hash h)

theorem Rooted.anc_of_mem_walk (h : Rooted s.mapBlockIndex genesis) {x : Uint256}
    (hx : (s.mapBlockIndex x).isSome) {hash : Uint256}
    (hmem : hash ∈ (s.walk (some x)).map CBlockIndex.hashBlock) :
    Forest.Anc (parentOf s.mapBlockIndex) hash x := by
  rw [h.walk_path hx] at hmem
  exact Forest.anc_of_mem_path hmem

theorem isInMainChain_iff (p : CBlockIndex) :
    p.isInMainChain s = true ↔ isInMainChain s p := by
  rw [CBlockIndex.isInMainChain, isInMainChain, Bool.or_eq_true, decide_eq_true_eq,
    Option.isSome_iff_ne_none]

theorem locatorIndex_cases (vHave : List Uint256) :
    locatorIndex s vHave = s.pindexGenesisBlock ∨
      ∃ hash ∈ vHave, locatorIndex s vHave = some hash ∧
        ∃ p, s.mapBlockIndex hash = some p ∧ isInMainChain s p := by
  induction vHave with
  | nil => exact .inl rfl
  | cons hash vHave ih =>
    have hrest : locatorIndex s vHave = s.pindexGenesisBlock ∨
        ∃ x ∈ hash :: vHave, locatorIndex s vHave = some x ∧
          ∃ p, s.mapBlockIndex x = some p ∧ isInMainChain s p :=
      ih.imp_right fun ⟨x, hx, hrest⟩ => ⟨x, List.mem_cons_of_mem _ hx, hrest⟩
    rw [locatorIndex]
    cases hp : s.mapBlockIndex hash with
    | none => exact hrest
    | some p =>
      dsimp only
      split
      · next hmain =>
        exact .inr ⟨hash, List.mem_cons_self, rfl, p, hp, (isInMainChain_iff p).mp hmain⟩
      · exact hrest

theorem TreeOk.since_start (h : TreeOk s.tree genesis best) (hgenesis : e.hashGenesisBlock = genesis)
    (hash : Uint256) :
    ∃ x, sinceDepth e s (some hash) = 1 + s.nBestHeight - heightOf s.mapBlockIndex x ∧
      Forest.Anc (parentOf s.mapBlockIndex) x best ∧
      (x = genesis ∨ (s.mapBlockIndex hash).isSome ∧
        Forest.Anc (parentOf s.mapBlockIndex) x hash) := by
  have hgenesisBlock : s.pindexGenesisBlock = some genesis := h.genesisBlock
  have hroot : Forest.Anc (parentOf s.mapBlockIndex) genesis best :=
    h.rooted.genesis_anc h.best_some
  rcases @locatorIndex_cases s (locatorOf e s hash) with hnone | ⟨x, hx, hfound, p, hp, hmain⟩
  · rw [hgenesisBlock] at hnone
    exact ⟨genesis, by rw [sinceDepth, Option.bind_some, hnone], hroot, .inl rfl⟩
  · refine ⟨x, by rw [sinceDepth, Option.bind_some, hfound], (h.main_iff hp).mp hmain, ?_⟩
    by_cases hknown : (s.mapBlockIndex hash).isSome
    · rw [locatorOf, if_pos hknown, locatorSet, List.mem_append, List.mem_singleton, hgenesis] at hx
      refine hx.symm.imp_right fun hx => ⟨hknown, ?_⟩
      exact Rooted.anc_of_mem_walk h.rooted hknown (locatorFrom_subset _ _ _ _ x hx)
    · rw [locatorOf, if_neg hknown] at hx
      cases hx

theorem getDepth_pos {wtx : WalletTx} (h : 1 ≤ wtx.getDepthInMainChain e s) :
    ∃ p, s.mapBlockIndex wtx.merkle.hashBlock = some p ∧ isInMainChain s p ∧
      (p.hashBlock = wtx.merkle.hashBlock → InBlock e wtx p) ∧
      wtx.getDepthInMainChain e s =
        (((s.pindexBest.bind s.mapBlockIndex).map CBlockIndex.nHeight).getD 0 : Int) -
          p.nHeight + 1 := by
  rw [WalletTx.getDepthInMainChain, CMerkleTx.getDepthInMainChain] at h ⊢
  split at h
  · omega
  · next hset =>
    rw [if_neg hset]
    cases hp : s.mapBlockIndex wtx.merkle.hashBlock with
    | none =>
      rw [hp] at h
      dsimp only at h
      omega
    | some p =>
      rw [hp] at h
      dsimp only at h ⊢
      split at h
      · omega
      · next hmain =>
        rw [if_neg hmain]
        split at h
        · omega
        · next hbranch =>
          rw [if_neg hbranch]
          refine ⟨p, rfl, (isInMainChain_iff p).mp (not_not.mp hmain), fun hkey => ⟨hkey.symm, ?_⟩,
            rfl⟩
          rw [not_and_or, not_not, not_not] at hbranch
          exact hbranch

theorem lastBlock_cases (h : TreeOk s.tree genesis best) {target_confirms : Int} {hash : Uint256}
    (hlast : lastBlock s target_confirms = .ok hash) : hash = 0 ∨
      (s.mapBlockIndex hash).isSome ∧ Forest.Anc (parentOf s.mapBlockIndex) hash best ∧
        target_confirms ≤ s.nBestHeight - heightOf s.mapBlockIndex hash + 1 := by
  have hbest : s.pindexBest = some best := h.isBest
  obtain ⟨p, hp, hchain, hheight, -⟩ := h.globals
  have hp : s.mapBlockIndex best = some p := hp
  have hchain : s.hashBestChain = best := hchain
  have hheight : s.nBestHeight = p.nHeight := hheight
  rw [lastBlock] at hlast
  split at hlast
  · next hone =>
    rw [← Except.ok.inj hlast, hchain, hheight]
    refine .inr ⟨by rw [hp]; rfl, .refl _, ?_⟩
    simp [heightOf, hp, hone]
  · rw [hbest, Option.bind_some, hp] at hlast
    have hhash := Except.ok.inj hlast
    cases hfind : (s.walk (some best)).find? fun block =>
        decide ((block.nHeight : Int) ≤ (p.nHeight : Int) + 1 - target_confirms) with
    | none =>
      rw [hfind] at hhash
      exact .inl hhash.symm
    | some block =>
      rw [hfind] at hhash
      have hhash : block.hashBlock = hash := hhash
      have hmem := List.mem_of_find?_eq_some hfind
      have hblock : s.mapBlockIndex block.hashBlock = some block := h.rooted.mem_pprevWalk hmem
      have hlow : (block.nHeight : Int) ≤ (p.nHeight : Int) + 1 - target_confirms := by
        simpa using List.find?_some hfind
      have hanc := Rooted.anc_of_mem_walk h.rooted h.best_some (List.mem_map_of_mem hmem)
      rw [← hhash, hheight]
      refine .inr ⟨by rw [hblock]; rfl, hanc, ?_⟩
      rw [heightOf, hblock, Option.map_some, Option.getD_some]
      omega

end Locator

section Growth

theorem addToBlockIndex_grows (e : NodeEnv) (b : CBlock) (nFile nBlockPos : Nat) (s : NodeState) :
    Grows s.mapBlockIndex (exec (addToBlockIndex e b nFile nBlockPos) s).2.mapBlockIndex := by
  let Since (t : NodeState) : Prop := Grows s.mapBlockIndex t.mapBlockIndex
  show Since _
  unfold addToBlockIndex
  rw [exec_get_bind]
  refine after_raiseIf (P := Since) (grows_refl s.mapBlockIndex) fun hfresh => ?_
  dsimp only
  rw [exec_modify_bind]
  have hnone : s.mapBlockIndex (newBlockIndex e.env s b nFile nBlockPos).hashBlock = none := by
    simpa [newBlockIndex] using hfresh
  have hkeep := keeps_doIf keepsIndex_refl
    (s.bnBestChainWork < (newBlockIndex e.env s b nFile nBlockPos).bnChainWork)
    (setBestChain_keepsIndex e b (newBlockIndex e.env s b nFile nBlockPos))
    (insertBlockIndex (newBlockIndex e.env s b nFile nBlockPos) s)
  exact (grows_insert hnone).trans hkeep.same.grows

theorem acceptBlock_grows (e : NodeEnv) (b : CBlock) (s : NodeState) :
    Grows s.mapBlockIndex (exec (acceptBlock e b) s).2.mapBlockIndex := by
  have hself : Grows s.mapBlockIndex s.mapBlockIndex := grows_refl _
  let Since (t : NodeState) : Prop := Grows s.mapBlockIndex t.mapBlockIndex
  show Since _
  unfold acceptBlock
  rw [exec_get_bind]
  refine after_raiseIf (P := Since) hself fun _ => ?_
  refine after_fromOption (P := Since) hself fun pindexPrev _ => ?_
  refine after_fromExcept (P := Since) hself fun _ _ => ?_
  refine after_fromOption (P := Since) hself fun pos _ => ?_
  rw [exec_modify_bind]
  exact addToBlockIndex_grows e b pos.1 pos.2 { s with disk := s.disk.writeToDisk pos.1 pos.2 b }

theorem grows_carries (e : NodeEnv) :
    Carries e (fun s s' => Grows s.mapBlockIndex s'.mapBlockIndex) where
  refl s := grows_refl s.mapBlockIndex
  trans := Grows.trans
  park _ s := grows_refl s.mapBlockIndex
  erase _ s := grows_refl s.mapBlockIndex
  drop _ s := grows_refl s.mapBlockIndex
  accept := acceptBlock_grows e

theorem indexGrows_of_run {env : Env} {hashGenesisBlock : Uint256} {s s' : NodeState}
    (run : Relation.ReflTransGen (NodeStep env hashGenesisBlock) s s') :
    Grows s.mapBlockIndex s'.mapBlockIndex := by
  induction run with
  | refl => exact grows_refl _
  | tail _ hstep ih =>
    refine ih.trans ?_
    cases hstep with
    | block e b _ _ => exact (grows_carries e).processBlock b _
    | tx e tx fCheckInputs fLimitFree fRateLimited _ _ =>
      have hpool := acceptToMemoryPool_poolOnly e tx fCheckInputs fLimitFree fRateLimited
      exact (hpool _).keepsIndex.same.grows

end Growth

theorem Wallet.listsinceblock_lastblock {env : Env} {w : Wallet env} {l : ListEnv env}
    {blockId : Option Uint256} {targetConfirms : Option Int} {r : SinceBlock}
    (h : w.listsinceblock l blockId targetConfirms = .ok r) :
    lastBlock l.s (targetConfirms.getD 1) = .ok r.lastblock := by
  obtain ⟨_, -, h⟩ := Except.bind_eq_ok.mp h
  obtain ⟨transactions, -, h⟩ := Except.bind_eq_ok.mp h
  obtain ⟨lastblock, hlast, h⟩ := Except.bind_eq_ok.mp h
  rw [← Except.pure_eq_ok.mp h]
  exact hlast

theorem Wallet.not_mem_sinceTxs {env : Env} {w : Wallet env} {l : ListEnv env}
    {blockId : Option Uint256} {wtx : WalletTx} (hwtx : wtx ∈ w.txs)
    (h : wtx ∉ w.sinceTxs l blockId) :
    sinceDepth l.e l.s blockId ≤ wtx.getDepthInMainChain l.e l.s := by
  by_contra hless
  refine h (List.mem_filter.mpr ⟨hwtx, decide_eq_true (.inr ?_)⟩)
  omega

theorem Wallet.listsinceblock_misses_none {env : Env} {hashGenesisBlock : Uint256}
    {s0 : NodeState} {l1 l2 : ListEnv env}
    (hnull : ∀ header : CBlockHeader, header.getHash env ≠ 0)
    (hstart : Started env hashGenesisBlock s0)
    (before : Relation.ReflTransGen (NodeStep env hashGenesisBlock) s0 l1.s)
    (between : Relation.ReflTransGen (NodeStep env hashGenesisBlock) l1.s l2.s)
    (hgenesis : l2.e.hashGenesisBlock = hashGenesisBlock) {w1 w2 : Wallet env}
    {blockId : Option Uint256} {targetConfirms : Option Int} {r : SinceBlock}
    (hfirst : w1.listsinceblock l1 blockId targetConfirms = .ok r) {wtx : WalletTx}
    (hwtx : wtx ∈ w2.txs) (hmissed : wtx ∉ w2.sinceTxs l2 (some r.lastblock)) :
    ∃ p, l2.s.mapBlockIndex wtx.merkle.hashBlock = some p ∧ InBlock l2.e wtx p ∧
      (p.hashBlock = hashGenesisBlock ∨ MainWith l1.s (targetConfirms.getD 1) p.hashBlock) := by
  obtain ⟨best1, hok1⟩ := treeOk_of_run hstart before
  obtain ⟨best2, hok2⟩ := treeOk_of_run hstart (before.trans between)
  have hgraded := hok2.rooted.graded
  obtain ⟨pbest, hpbest, -, hbestHeight, -⟩ := hok2.globals
  have hpbest : l2.s.mapBlockIndex best2 = some pbest := hpbest
  have hbestHeight : l2.s.nBestHeight = pbest.nHeight := hbestHeight
  have hbest2 : l2.s.pindexBest = some best2 := hok2.isBest
  obtain ⟨x, hdepth, hxbest, hx⟩ := hok2.since_start hgenesis r.lastblock
  have hdeep := Wallet.not_mem_sinceTxs hwtx hmissed
  have hxheight : heightOf l2.s.mapBlockIndex x ≤ pbest.nHeight := by
    have hle := hxbest.height_le hgraded
    rwa [show heightOf l2.s.tree.mapBlockIndex best2 = pbest.nHeight by
      simp [heightOf, NodeState.tree, hpbest]] at hle
  obtain ⟨p, hp, hmain, hin, hconfirms⟩ := @getDepth_pos l2.e l2.s wtx (by omega)
  have hkey : p.hashBlock = wtx.merkle.hashBlock := hok2.rooted.keyed _ p hp
  refine ⟨p, hp, hin hkey, ?_⟩
  rw [hkey]
  -- The transaction's block is on the main chain and not above the block the walk started from.
  have hblockHeight : heightOf l2.s.mapBlockIndex wtx.merkle.hashBlock = p.nHeight := by
    simp [heightOf, hp]
  rw [hbest2, Option.bind_some, hpbest, Option.map_some, Option.getD_some] at hconfirms
  have hbelow : Forest.Anc (parentOf l2.s.mapBlockIndex) wtx.merkle.hashBlock x := by
    rcases ((hok2.main_iff hp).mp hmain).linear hxbest with hanc | hanc
    · exact hanc
    · have hge := hanc.height_le hgraded
      have hge : heightOf l2.s.mapBlockIndex x ≤
        heightOf l2.s.mapBlockIndex wtx.merkle.hashBlock := hge
      have heq := hanc.eq_of_height hgraded
        (show heightOf l2.s.mapBlockIndex x = heightOf l2.s.mapBlockIndex wtx.merkle.hashBlock by
          omega)
      rw [heq]
      exact .refl _
  rcases hx with rfl | ⟨hknown, hxlast⟩
  · have hroot := hok2.rooted.heightOf_genesis
    have hle := hbelow.height_le hgraded
    exact .inl (hbelow.eq_of_height hgraded (by omega))
  · refine .inr ?_
    rcases lastBlock_cases hok1 (Wallet.listsinceblock_lastblock hfirst) with hzero |
      ⟨hlast, hlastMain, hlow⟩
    · have hloaded := (savedTree_of_run hstart (before.trans between)).loadable hnull
      rw [hzero, hloaded.null] at hknown
      cases hknown
    · have hback := Grows.anc_back hok1.rooted (indexGrows_of_run between) hlast (hxlast.trans hbelow)
      obtain ⟨q, hq⟩ := Option.isSome_iff_exists.mp (hok1.rooted.anc_some hlast hback)
      have hq : l1.s.mapBlockIndex wtx.merkle.hashBlock = some q := hq
      refine ⟨q, hq, (hok1.main_iff hq).mpr (hlastMain.trans hback), ?_⟩
      have hle := hback.height_le hok1.rooted.graded
      have hqheight : heightOf l1.s.tree.mapBlockIndex wtx.merkle.hashBlock = q.nHeight := by
        simp [heightOf, NodeState.tree, hq]
      have hsame : heightOf l1.s.tree.mapBlockIndex r.lastblock =
        heightOf l1.s.mapBlockIndex r.lastblock := rfl
      omega

def sinceTx : WalletTx :=
  { plainTx with
    merkle := ⟨plainTx.merkle.tx, nonzeroNext.getHash nonzeroEnv, [], 0⟩ }

def sinceWallet : Wallet nonzeroEnv :=
  Wallet.putTx ⟨walletKeys, ∅, ∅, 0, keyed_empty _⟩ sinceTx

def grownList : ListEnv nonzeroEnv := ⟨nonzeroNodeEnv, grownNode, fun _ => ⟨0, ∅⟩⟩

theorem grownList_run :
    Relation.ReflTransGen (NodeStep nonzeroEnv nonzeroNodeEnv.hashGenesisBlock) nonzeroNode
      grownList.s := by
  have hrun : Relation.ReflTransGen (NodeStep nonzeroEnv nonzeroNodeEnv.hashGenesisBlock)
      nonzeroNode grownNode := .single (.block nonzeroNodeEnv nonzeroNext rfl rfl)
  simp only [grownList]
  exact hrun

theorem grownNode_since :
    ∃ r, sinceWallet.listsinceblock grownList none none = .ok r ∧
      sinceTx ∉ sinceWallet.sinceTxs grownList (some r.lastblock) ∧
      ∃ p, grownList.s.mapBlockIndex sinceTx.merkle.hashBlock = some p ∧
        InBlock grownList.e sinceTx p ∧
        (p.hashBlock = nonzeroNodeEnv.hashGenesisBlock ∨ MainWith grownList.s 1 p.hashBlock) := by
  obtain ⟨r, hfirst⟩ := isOk_ok (x := sinceWallet.listsinceblock grownList none none)
    (by decide +kernel)
  have hlast := Wallet.listsinceblock_lastblock hfirst
  rw [Option.getD_none, lastBlock, if_pos rfl] at hlast
  have hdepth : ¬(sinceDepth grownList.e grownList.s (some grownList.s.hashBestChain) = -1 ∨
      sinceTx.getDepthInMainChain grownList.e grownList.s <
        sinceDepth grownList.e grownList.s (some grownList.s.hashBestChain)) := by
    decide +kernel
  rw [Except.ok.inj hlast] at hdepth
  have hmem : sinceTx ∈ sinceWallet.txs :=
    List.mem_map.mpr ⟨(_, sinceTx), Std.TreeMap.mem_toList_iff_getElem?_eq_some.mpr
      (Wallet.putTx_self _ sinceTx), rfl⟩
  have hmissed : sinceTx ∉ sinceWallet.sinceTxs grownList (some r.lastblock) := by
    intro hin
    exact hdepth (of_decide_eq_true (List.mem_filter.mp hin).2)
  exact ⟨r, hfirst, hmissed, Wallet.listsinceblock_misses_none nonzeroEnv_getHash
    nonzeroNode_started grownList_run .refl rfl hfirst hmem hmissed⟩

end Namecoin
