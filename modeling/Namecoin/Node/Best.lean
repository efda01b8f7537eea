import Namecoin.Node.Tree

namespace Namecoin

open Act

structure TreeView where
  mapBlockIndex : BlockMap
  pindexGenesisBlock : Option Uint256
  pindexBest : Option Uint256
  hashBestChain : Uint256
  nBestHeight : Int
  bnBestChainWork : Int

def NodeState.tree (s : NodeState) : TreeView :=
  ⟨s.mapBlockIndex, s.pindexGenesisBlock, s.pindexBest, s.hashBestChain, s.nBestHeight,
    s.bnBestChainWork⟩

def NodeState.withoutPool (s : NodeState) : NodeState :=
  { s with
    chain := { s.chain with mapNamePending := fun _ => ∅ }
    mapTransactions := fun _ => none
    mapNextTx := fun _ => none
    setNewHashes := ∅ }

def PoolOnly (s s' : NodeState) : Prop := s'.withoutPool = s.withoutPool

theorem poolOnly_refl (s : NodeState) : PoolOnly s s := rfl

theorem PoolOnly.trans {a b c : NodeState} (h : PoolOnly a b) (h' : PoolOnly b c) :
    PoolOnly a c := Eq.trans h' h

theorem PoolOnly.tree {s s' : NodeState} (h : PoolOnly s s') : s'.tree = s.tree := by
  have hw : s'.withoutPool.tree = s.withoutPool.tree := congrArg NodeState.tree h
  exact hw

theorem hookRemoveFromMemoryPool_poolOnly (env : Env) (tx : CTransaction) (s : NodeState) :
    PoolOnly s (s.hookRemoveFromMemoryPool env tx) := by
  unfold NodeState.hookRemoveFromMemoryPool
  repeat' split
  all_goals rfl

theorem removeFromMemoryPool_poolOnly (env : Env) (tx : CTransaction) (s : NodeState) :
    PoolOnly s (s.removeFromMemoryPool env tx) :=
  hookRemoveFromMemoryPool_poolOnly env tx s

theorem removeAll_poolOnly (env : Env) (vtx : List CTransaction) (s : NodeState) :
    PoolOnly s (s.removeAll env vtx) := by
  induction vtx generalizing s with
  | nil => exact poolOnly_refl s
  | cons tx rest ih => exact (removeFromMemoryPool_poolOnly env tx s).trans (ih _)

theorem hookAcceptToMemoryPool_poolOnly (env : Env) (tx : CTransaction) :
    Keeps PoolOnly (hookAcceptToMemoryPool env tx) := by
  unfold hookAcceptToMemoryPool
  split
  · exact keeps_pure poolOnly_refl ()
  · refine keeps_bind (R := PoolOnly) PoolOnly.trans (keeps_raiseIf poolOnly_refl _ _) (fun _ => ?_)
    refine keeps_bind (R := PoolOnly) PoolOnly.trans (keeps_fromOption poolOnly_refl _ _)
      (fun d => ?_)
    refine keeps_bind (R := PoolOnly) PoolOnly.trans (keeps_fromExcept poolOnly_refl _)
      (fun vchName => ?_)
    split
    · refine keeps_bind (R := PoolOnly) PoolOnly.trans (keeps_get poolOnly_refl) (fun _ => ?_)
      refine keeps_bind (R := PoolOnly) PoolOnly.trans (keeps_raiseIf poolOnly_refl _ _)
        (fun _ => ?_)
      exact keeps_modify (fun _ => rfl)
    · exact keeps_modify (fun _ => rfl)

theorem acceptToMemoryPool_poolOnly (e : NodeEnv) (tx : CTransaction)
    (fCheckInputs fLimitFree fRateLimited : Bool) :
    Keeps PoolOnly (acceptToMemoryPool e tx fCheckInputs fLimitFree fRateLimited) := by
  refine keeps_bind (R := PoolOnly) PoolOnly.trans (keeps_get poolOnly_refl) (fun s => ?_)
  refine keeps_bind (R := PoolOnly) PoolOnly.trans (keeps_fromExcept poolOnly_refl _) (fun _ => ?_)
  refine keeps_bind (R := PoolOnly) PoolOnly.trans (keeps_fromExcept poolOnly_refl _) (fun _ => ?_)
  refine keeps_bind (R := PoolOnly) PoolOnly.trans (hookAcceptToMemoryPool_poolOnly e.env tx)
    (fun _ => ?_)
  exact keeps_modify (fun _ => rfl)

theorem resurrect_poolOnly (e : NodeEnv) (vResurrect : List CTransaction) (s : NodeState) :
    PoolOnly s (s.resurrect e vResurrect) := by
  induction vResurrect generalizing s with
  | nil => exact poolOnly_refl s
  | cons tx rest ih => exact (acceptToMemoryPool_poolOnly e tx false true false s).trans (ih _)

def NodeState.commitTxn (s : NodeState) (c : ChainState) : NodeState := { s with chain := c }

def NodeState.abortTxn (pindexNew : CBlockIndex) (s : NodeState) (c : ChainState) : NodeState :=
  NodeState.invalidChainFound pindexNew { s with chain := { c with dbset := s.chain.dbset } }

theorem runTxn_ok {α : Type} {pindexNew : CBlockIndex} {x : Act Fault ChainState α}
    {s : NodeState} {c : ChainState} {a : α} (h : exec x s.chain = (.ok a, c)) :
    exec (runTxn pindexNew x) s = (.ok a, s.commitTxn c) := by
  unfold runTxn
  rw [exec_get_bind, h]
  rfl

theorem runTxn_error {α : Type} {pindexNew : CBlockIndex} {x : Act Fault ChainState α}
    {s : NodeState} {c : ChainState} {fault : Fault} (h : exec x s.chain = (.error fault, c)) :
    exec (runTxn pindexNew x) s = (.error fault, s.abortTxn pindexNew c) := by
  unfold runTxn
  rw [exec_get_bind, h]
  rfl

def linkMap (f : Branch → Option Uint256) (bs : List Branch) (m : BlockMap) : BlockMap :=
  bs.foldl (fun m b => setNext b.pindex.pprev (f b) m) m

theorem foldl_linkNext (f : Branch → Option Uint256) (bs : List Branch) (s : NodeState) :
    bs.foldl (fun s b => s.linkNext b.pindex (f b)) s =
      { s with mapBlockIndex := linkMap f bs s.mapBlockIndex } := by
  induction bs generalizing s with
  | nil => rfl
  | cons b rest ih =>
    rw [List.foldl_cons, ih]
    rfl

theorem sameTree_linkMap (f : Branch → Option Uint256) (bs : List Branch) (m : BlockMap) :
    SameTree m (linkMap f bs m) := by
  induction bs generalizing m with
  | nil => exact SameTree.refl m
  | cons b rest ih => exact (sameTree_setNext _ _ _).trans (ih _)

def relinkMap (vDisconnect vConnect : List Branch) (m : BlockMap) : BlockMap :=
  linkMap (fun b => some b.pindex.hashBlock) vConnect (linkMap (fun _ => none) vDisconnect m)

theorem relink_eq (vDisconnect vConnect : List Branch) (s : NodeState) :
    relink vDisconnect vConnect s =
      { s with mapBlockIndex := relinkMap vDisconnect vConnect s.mapBlockIndex } := by
  unfold relink
  rw [foldl_linkNext, foldl_linkNext]
  rfl

theorem Rooted.setNext_link {m : BlockMap} {genesis : Uint256} (h : Rooted m genesis)
    (x : Uint256) (next : Option Uint256) :
    nextOf (setNext (parentOf m x) next m) = Forest.link (parentOf m) x next (nextOf m) := by
  funext y
  rw [Forest.link_apply]
  cases hq : parentOf m x with
  | none => simp [setNext]
  | some q =>
    obtain ⟨-, pq, -, -, hmq, -⟩ := h.parent_some hq
    rw [nextOf_setNext (by simp [hmq])]
    simp

def Listed (m : BlockMap) (bs : List Branch) : Prop :=
  ∀ b ∈ bs, parentOf m b.pindex.hashBlock = b.pindex.pprev

theorem Listed.congr {m m' : BlockMap} {bs : List Branch} (h : Listed m bs) (hs : SameTree m m') :
    Listed m' bs := by
  intro b hb
  rw [hs.parentOf_eq]
  exact h b hb

theorem Rooted.linkMap_foldl {m : BlockMap} {genesis : Uint256} (h : Rooted m genesis)
    (f : Branch → Option Uint256) {bs : List Branch} (hbs : Listed m bs) :
    nextOf (linkMap f bs m) =
      bs.foldl (fun n b => Forest.link (parentOf m) b.pindex.hashBlock (f b) n) (nextOf m) := by
  induction bs generalizing m with
  | nil => rfl
  | cons b rest ih =>
    have hsame := sameTree_setNext b.pindex.pprev (f b) m
    have hrest : Listed m rest := fun c hc => hbs c (List.mem_cons_of_mem _ hc)
    have hlink := h.setNext_link b.pindex.hashBlock (f b)
    rw [hbs b List.mem_cons_self] at hlink
    have hstep : linkMap f (b :: rest) m = linkMap f rest (setNext b.pindex.pprev (f b) m) := rfl
    rw [hstep, ih (h.congr hsame) (hrest.congr hsame), hsame.parentOf_eq, List.foldl_cons, ← hlink]

theorem Rooted.nextOf_relinkMap {m : BlockMap} {genesis : Uint256} (h : Rooted m genesis)
    {vDisconnect vConnect : List Branch} (hd : Listed m vDisconnect) (hc : Listed m vConnect) :
    nextOf (relinkMap vDisconnect vConnect m) =
      Forest.linkAll (parentOf m) (vConnect.map (fun b => b.pindex.hashBlock))
        (Forest.unlinkAll (parentOf m) (vDisconnect.map (fun b => b.pindex.hashBlock))
          (nextOf m)) := by
  have hsame := sameTree_linkMap (fun _ => none) vDisconnect m
  unfold relinkMap Forest.linkAll Forest.unlinkAll
  rw [(h.congr hsame).linkMap_foldl _ (hc.congr hsame), h.linkMap_foldl _ hd, hsame.parentOf_eq,
    List.foldl_map, List.foldl_map]

theorem sameTree_relinkMap (vDisconnect vConnect : List Branch) (m : BlockMap) :
    SameTree m (relinkMap vDisconnect vConnect m) :=
  (sameTree_linkMap _ _ _).trans (sameTree_linkMap _ _ _)

theorem branches_pindex (walk : List CBlockIndex) :
    (branches walk).map Branch.pindex = walk := by
  induction walk with
  | nil => rfl
  | cons p rest ih => rw [branches, List.map_cons, ih]

theorem upTo_hashes (pfork : CBlockIndex) (walk : List CBlockIndex) :
    (upTo pfork walk).map (fun b => b.pindex.hashBlock) =
      (walk.map CBlockIndex.hashBlock).takeWhile (fun y => decide (y ≠ pfork.hashBlock)) := by
  have hmap : walk.map CBlockIndex.hashBlock =
      (branches walk).map (fun b => b.pindex.hashBlock) := by
    conv_lhs => rw [← branches_pindex walk]
    rw [List.map_map]
    rfl
  rw [hmap, List.takeWhile_map]
  rfl

theorem upTo_mem {pfork : CBlockIndex} {walk : List CBlockIndex} {b : Branch}
    (hb : b ∈ upTo pfork walk) : b.pindex ∈ walk := by
  have hb' := List.takeWhile_subset _ hb
  rw [← branches_pindex walk]
  exact List.mem_map_of_mem hb'

theorem findFork_ok {shorter longer : List CBlockIndex} {pfork : CBlockIndex}
    (h : findFork shorter longer = .ok pfork) :
    pfork ∈ shorter ∧ pfork.hashBlock ∈ longer.map CBlockIndex.hashBlock := by
  induction shorter generalizing longer with
  | nil => cases h
  | cons p rest ih =>
    rw [findFork] at h
    have hsub : longer.dropWhile (fun q => decide (p.nHeight < q.nHeight)) ⊆ longer :=
      List.dropWhile_subset _
    split at h
    · cases h
    · next q more hq =>
      rw [hq] at hsub
      split at h
      · next heq =>
        cases h
        exact ⟨List.mem_cons_self, heq ▸ List.mem_map_of_mem (hsub List.mem_cons_self)⟩
      · obtain ⟨h1, h2⟩ := ih h
        exact ⟨List.mem_cons_of_mem _ h1, List.map_subset _ hsub h2⟩

def moveBest (t : TreeView) (m : BlockMap) (pindexNew : CBlockIndex) : TreeView where
  mapBlockIndex := m
  pindexGenesisBlock := t.pindexGenesisBlock
  pindexBest := some pindexNew.hashBlock
  hashBestChain := pindexNew.hashBlock
  nBestHeight := pindexNew.nHeight
  bnBestChainWork := pindexNew.bnChainWork

namespace NodeState

def tipCall (e : NodeEnv) (s : NodeState) (pindexNew : CBlockIndex) : BlockCall :=
  s.blockCall e ⟨pindexNew, s.walk pindexNew.pprev⟩

def longer (s : NodeState) (pindexNew : CBlockIndex) : List CBlockIndex :=
  pindexNew :: s.walk pindexNew.pprev

def vDisconnect (s : NodeState) (pfork : CBlockIndex) : List Branch :=
  upTo pfork (s.walk s.pindexBest)

def vConnect (s : NodeState) (pindexNew pfork : CBlockIndex) : List Branch :=
  (upTo pfork (s.longer pindexNew)).reverse

def switchCall (e : NodeEnv) (s : NodeState) (pindexNew pfork : CBlockIndex) :
    Act Fault ChainState (List CTransaction × List CTransaction) :=
  switchBranch ((s.vDisconnect pfork).map (s.blockCall e))
    ((s.vConnect pindexNew pfork).map (s.blockCall e)) pindexNew.hashBlock

end NodeState

section Outcomes

variable {e : NodeEnv} {b : CBlock} {pindexNew pfork : CBlockIndex} {s : NodeState}
  {c : ChainState} {fault : Fault} {r : List CTransaction × List CTransaction}

theorem extendBest_error (hx : exec (extendChain (s.tipCall e pindexNew) b) s.chain =
    (.error fault, c)) :
    exec (extendBest e b pindexNew) s = (.error fault, s.abortTxn pindexNew c) := by
  unfold extendBest
  rw [exec_get_bind]
  exact exec_bind_error (runTxn_error hx)

theorem extendBest_ok (hx : exec (extendChain (s.tipCall e pindexNew) b) s.chain = (.ok (), c)) :
    exec (extendBest e b pindexNew) s = (.ok (), NodeState.removeAll e.env b.vtx
      ((s.commitTxn c).linkNext pindexNew (some pindexNew.hashBlock))) := by
  unfold extendBest
  rw [exec_get_bind]
  exact exec_bind_ok (runTxn_ok hx)

theorem reorganize_noFork (hf : findFork (s.walk s.pindexBest) (s.longer pindexNew) =
    .error fault) :
    exec (reorganize e pindexNew) s = (.error fault, s.invalidChainFound pindexNew) := by
  unfold NodeState.longer at hf
  unfold reorganize
  rw [exec_get_bind]
  dsimp only
  rw [hf]
  rfl

theorem reorganize_error (hf : findFork (s.walk s.pindexBest) (s.longer pindexNew) = .ok pfork)
    (hx : exec (s.switchCall e pindexNew pfork) s.chain = (.error fault, c)) :
    exec (reorganize e pindexNew) s = (.error fault, s.abortTxn pindexNew c) := by
  unfold NodeState.longer at hf
  unfold reorganize
  rw [exec_get_bind]
  dsimp only
  rw [hf]
  exact exec_bind_error (runTxn_error hx)

theorem reorganize_ok (hf : findFork (s.walk s.pindexBest) (s.longer pindexNew) = .ok pfork)
    (hx : exec (s.switchCall e pindexNew pfork) s.chain = (.ok r, c)) :
    exec (reorganize e pindexNew) s = (.ok (), NodeState.removeAll e.env r.2
      (NodeState.resurrect e r.1
        (relink (s.vDisconnect pfork) (s.vConnect pindexNew pfork) (s.commitTxn c)))) := by
  unfold NodeState.longer at hf
  unfold reorganize
  rw [exec_get_bind]
  dsimp only
  rw [hf]
  exact exec_bind_ok (runTxn_ok hx)

end Outcomes

inductive Moved (e : NodeEnv) (b : CBlock) (pindexNew : CBlockIndex) (s : NodeState) :
    Except Fault Unit × NodeState → Prop
  | genesis (hgen : s.pindexGenesisBlock = none) (hhash : b.getHash e.env = e.hashGenesisBlock) :
      Moved e b pindexNew s (.ok (), s.becomeGenesis (b.getHash e.env))
  | extendFails (hprev : b.hashPrevBlock = s.hashBestChain) {fault : Fault} {c : ChainState}
      (hx : exec (extendChain (s.tipCall e pindexNew) b) s.chain = (.error fault, c)) :
      Moved e b pindexNew s (.error fault, s.abortTxn pindexNew c)
  | extended (hprev : b.hashPrevBlock = s.hashBestChain) {c : ChainState}
      (hx : exec (extendChain (s.tipCall e pindexNew) b) s.chain = (.ok (), c)) :
      Moved e b pindexNew s (.ok (), NodeState.removeAll e.env b.vtx
        ((s.commitTxn c).linkNext pindexNew (some pindexNew.hashBlock)))
  | noFork (hprev : b.hashPrevBlock ≠ s.hashBestChain) {fault : Fault}
      (hf : findFork (s.walk s.pindexBest) (s.longer pindexNew) = .error fault) :
      Moved e b pindexNew s (.error fault, s.invalidChainFound pindexNew)
  | switchFails (hprev : b.hashPrevBlock ≠ s.hashBestChain) {pfork : CBlockIndex} {fault : Fault}
      {c : ChainState} (hf : findFork (s.walk s.pindexBest) (s.longer pindexNew) = .ok pfork)
      (hx : exec (s.switchCall e pindexNew pfork) s.chain = (.error fault, c)) :
      Moved e b pindexNew s (.error fault, s.abortTxn pindexNew c)
  | switched (hprev : b.hashPrevBlock ≠ s.hashBestChain) {pfork : CBlockIndex}
      {r : List CTransaction × List CTransaction} {c : ChainState}
      (hf : findFork (s.walk s.pindexBest) (s.longer pindexNew) = .ok pfork)
      (hx : exec (s.switchCall e pindexNew pfork) s.chain = (.ok r, c)) :
      Moved e b pindexNew s (.ok (), NodeState.removeAll e.env r.2 (NodeState.resurrect e r.1
        (relink (s.vDisconnect pfork) (s.vConnect pindexNew pfork) (s.commitTxn c))))

theorem moveChain_moved (e : NodeEnv) (b : CBlock) (pindexNew : CBlockIndex) (s : NodeState) :
    Moved e b pindexNew s (exec (moveChain e b pindexNew) s) := by
  unfold moveChain
  rw [exec_get_bind]
  split
  · next hgen => exact .genesis hgen.1 hgen.2
  · split
    · next hprev =>
      rcases hx : exec (extendChain (s.tipCall e pindexNew) b) s.chain with ⟨r, c⟩
      cases r with
      | error fault =>
        rw [extendBest_error hx]
        exact .extendFails hprev hx
      | ok a =>
        rw [extendBest_ok hx]
        exact .extended hprev hx
    · next hprev =>
      cases hf : findFork (s.walk s.pindexBest) (s.longer pindexNew) with
      | error fault =>
        rw [reorganize_noFork hf]
        exact .noFork hprev hf
      | ok pfork =>
        rcases hx : exec (s.switchCall e pindexNew pfork) s.chain with ⟨r, c⟩
        cases r with
        | error fault =>
          rw [reorganize_error hf hx]
          exact .switchFails hprev hf hx
        | ok a =>
          rw [reorganize_ok hf hx]
          exact .switched hprev hf hx

structure TreeOk (t : TreeView) (genesis best : Uint256) : Prop where
  rooted : Rooted t.mapBlockIndex genesis
  genesisBlock : t.pindexGenesisBlock = some genesis
  isBest : t.pindexBest = some best
  threaded : Forest.Threaded (parentOf t.mapBlockIndex) (nextOf t.mapBlockIndex) best
  globals : ∃ p, t.mapBlockIndex best = some p ∧ t.hashBestChain = best ∧
    t.nBestHeight = p.nHeight ∧ t.bnBestChainWork = p.bnChainWork

theorem TreeOk.best_some {t : TreeView} {genesis best : Uint256} (h : TreeOk t genesis best) :
    (t.mapBlockIndex best).isSome := by
  obtain ⟨p, hp, -⟩ := h.globals
  simp [hp]

theorem TreeOk.moveBest {t : TreeView} {genesis best : Uint256} (h : TreeOk t genesis best)
    {m : BlockMap} {pindexNew : CBlockIndex} (hs : SameTree t.mapBlockIndex m)
    (hnew : t.mapBlockIndex pindexNew.hashBlock = some pindexNew)
    (ht : Forest.Threaded (parentOf t.mapBlockIndex) (nextOf m) pindexNew.hashBlock) :
    TreeOk (moveBest t m pindexNew) genesis pindexNew.hashBlock where
  rooted := h.rooted.congr hs
  genesisBlock := h.genesisBlock
  isBest := rfl
  threaded := by
    show Forest.Threaded (parentOf m) (nextOf m) pindexNew.hashBlock
    rw [hs.parentOf_eq]
    exact ht
  globals := by
    obtain ⟨p', hp'⟩ := hs.present hnew
    obtain ⟨q, next, hq, rfl⟩ := hs.lookup hp'
    rw [hnew] at hq
    cases hq
    exact ⟨_, hp', rfl, rfl, rfl⟩

theorem HeightTree.walk_path {s : NodeState} {genesis : Uint256}
    (h : HeightTree s.mapBlockIndex genesis)
    {x : Uint256} (hx : (s.mapBlockIndex x).isSome) :
    (s.walk (some x)).map CBlockIndex.hashBlock =
      Forest.path (parentOf s.mapBlockIndex) (heightOf s.mapBlockIndex x + 1) x :=
  h.pprevWalk_path _ hx

theorem HeightTree.longer_eq {s : NodeState} {genesis : Uint256}
    (h : HeightTree s.mapBlockIndex genesis) {p : CBlockIndex}
    (hp : s.mapBlockIndex p.hashBlock = some p) :
    s.longer p = pprevWalk s.mapBlockIndex (heightOf s.mapBlockIndex p.hashBlock + 1)
      (some p.hashBlock) := by
  have hparent : parentOf s.mapBlockIndex p.hashBlock = p.pprev := by simp [parentOf, hp]
  rw [NodeState.longer, pprevWalk_cons hp]
  congr 1
  cases hq : p.pprev with
  | none => cases heightOf s.mapBlockIndex p.hashBlock <;> rfl
  | some q => rw [h.graded _ _ (hparent.trans hq)]; rfl

theorem HeightTree.longer_path {s : NodeState} {genesis : Uint256}
    (h : HeightTree s.mapBlockIndex genesis) {p : CBlockIndex}
    (hp : s.mapBlockIndex p.hashBlock = some p) :
    (s.longer p).map CBlockIndex.hashBlock = Forest.path (parentOf s.mapBlockIndex)
      (heightOf s.mapBlockIndex p.hashBlock + 1) p.hashBlock := by
  rw [h.longer_eq hp]
  exact h.pprevWalk_path _ (by simp [hp])

theorem Rooted.walk_path {s : NodeState} {genesis : Uint256} (h : Rooted s.mapBlockIndex genesis)
    {x : Uint256} (hx : (s.mapBlockIndex x).isSome) :
    (s.walk (some x)).map CBlockIndex.hashBlock =
      Forest.path (parentOf s.mapBlockIndex) (heightOf s.mapBlockIndex x + 1) x :=
  h.heightTree.walk_path hx

theorem Rooted.longer_path {s : NodeState} {genesis : Uint256} (h : Rooted s.mapBlockIndex genesis)
    {p : CBlockIndex} (hp : s.mapBlockIndex p.hashBlock = some p) :
    (p :: s.walk p.pprev).map CBlockIndex.hashBlock = Forest.path (parentOf s.mapBlockIndex)
      (heightOf s.mapBlockIndex p.hashBlock + 1) p.hashBlock :=
  h.heightTree.longer_path hp

theorem listed_upTo {m : BlockMap} {walk : List CBlockIndex}
    (hw : ∀ p ∈ walk, m p.hashBlock = some p) (pfork : CBlockIndex) :
    Listed m (upTo pfork walk) := by
  intro b hb
  simp [parentOf, hw _ (upTo_mem hb)]

theorem TreeOk.extend_threaded {t : TreeView} {genesis best : Uint256} (h : TreeOk t genesis best)
    {pindexNew : CBlockIndex} (hnew : t.mapBlockIndex pindexNew.hashBlock = some pindexNew)
    (hprev : pindexNew.pprev = some best) :
    Forest.Threaded (parentOf t.mapBlockIndex)
      (nextOf (setNext pindexNew.pprev (some pindexNew.hashBlock) t.mapBlockIndex))
      pindexNew.hashBlock := by
  have hparent : parentOf t.mapBlockIndex pindexNew.hashBlock = some best := by
    simp [parentOf, hnew, hprev]
  have hlink := h.rooted.setNext_link pindexNew.hashBlock (some pindexNew.hashBlock)
  rw [hparent, ← hprev] at hlink
  rw [hlink]
  exact h.threaded.extend h.rooted.graded hparent

theorem TreeOk.reorganize_threaded {s : NodeState} {genesis best : Uint256}
    (h : TreeOk s.tree genesis best) {pindexNew pfork : CBlockIndex}
    (hnew : s.mapBlockIndex pindexNew.hashBlock = some pindexNew)
    (hfork : findFork (s.walk s.pindexBest) (s.longer pindexNew) = .ok pfork) :
    Forest.Threaded (parentOf s.mapBlockIndex)
      (nextOf (relinkMap (s.vDisconnect pfork) (s.vConnect pindexNew pfork) s.mapBlockIndex))
      pindexNew.hashBlock := by
  unfold NodeState.vDisconnect NodeState.vConnect NodeState.longer at *
  have hroot : Rooted s.mapBlockIndex genesis := h.rooted
  have hbest : s.pindexBest = some best := h.isBest
  have hthread : Forest.Threaded (parentOf s.mapBlockIndex) (nextOf s.mapBlockIndex) best :=
    h.threaded
  rw [hbest] at hfork ⊢
  have hshort := hroot.walk_path h.best_some
  have hlong := hroot.longer_path hnew
  obtain ⟨hin, hin'⟩ := findFork_ok hfork
  have hfv : Forest.Anc (parentOf s.mapBlockIndex) pfork.hashBlock best :=
    Forest.anc_of_mem_path (hshort ▸ List.mem_map_of_mem hin)
  have hfw : Forest.Anc (parentOf s.mapBlockIndex) pfork.hashBlock pindexNew.hashBlock :=
    Forest.anc_of_mem_path (hlong ▸ hin')
  have hlistD : Listed s.mapBlockIndex (upTo pfork (s.walk (some best))) :=
    listed_upTo (fun p hp => hroot.mem_pprevWalk hp) pfork
  have hlistC : Listed s.mapBlockIndex
      (upTo pfork (pindexNew :: s.walk pindexNew.pprev)).reverse := by
    intro b hb
    refine listed_upTo (fun p hp => ?_) pfork b (List.mem_reverse.mp hb)
    rcases List.mem_cons.mp hp with rfl | hp
    · exact hnew
    · exact hroot.mem_pprevWalk hp
  rw [hroot.nextOf_relinkMap hlistD hlistC]
  refine hthread.relink hroot.graded hfv hfw ?_ ?_
  · intro d
    rw [upTo_hashes, hshort]
    exact Forest.mem_path_takeWhile hroot.graded (Nat.lt_succ_self _) hfv
  · intro c
    rw [List.map_reverse, List.mem_reverse, upTo_hashes, hlong]
    exact Forest.mem_path_takeWhile hroot.graded (Nat.lt_succ_self _) hfw

theorem TreeOk.moved {e : NodeEnv} {b : CBlock} {s : NodeState} {genesis best : Uint256}
    {pindexNew : CBlockIndex} (h : TreeOk s.tree genesis best)
    (hnew : s.mapBlockIndex pindexNew.hashBlock = some pindexNew)
    (hprev : pindexNew.pprev = some b.hashPrevBlock) {r : Except Fault Unit × NodeState}
    (hmove : Moved e b pindexNew s r) :
    (∃ fault, r.1 = .error fault ∧ r.2.tree = s.tree) ∨
    ∃ m, r.1 = .ok () ∧ r.2.tree = { s.tree with mapBlockIndex := m } ∧
      SameTree s.mapBlockIndex m ∧
      Forest.Threaded (parentOf s.mapBlockIndex) (nextOf m) pindexNew.hashBlock := by
  cases hmove with
  | genesis hgen _ =>
    have hgen' : s.pindexGenesisBlock = some genesis := h.genesisBlock
    rw [hgen] at hgen'
    cases hgen'
  | extendFails _ _ => exact .inl ⟨_, rfl, rfl⟩
  | extended hbest _ =>
    obtain ⟨-, -, hhash, -⟩ := h.globals
    have hhash' : s.hashBestChain = best := hhash
    rw [hbest, hhash'] at hprev
    exact .inr ⟨_, rfl, (removeAll_poolOnly _ _ _).tree, sameTree_setNext _ _ _,
      h.extend_threaded hnew hprev⟩
  | noFork _ _ => exact .inl ⟨_, rfl, rfl⟩
  | switchFails _ _ _ => exact .inl ⟨_, rfl, rfl⟩
  | switched _ hf _ =>
    refine .inr ⟨_, rfl, ?_, sameTree_relinkMap _ _ _, h.reorganize_threaded hnew hf⟩
    rw [(removeAll_poolOnly _ _ _).tree, (resurrect_poolOnly _ _ _).tree, relink_eq]
    rfl

theorem TreeOk.setBestChain {e : NodeEnv} {b : CBlock} {s : NodeState} {genesis best : Uint256}
    {pindexNew : CBlockIndex} (h : TreeOk s.tree genesis best)
    (hhash : b.getHash e.env = pindexNew.hashBlock)
    (hnew : s.mapBlockIndex pindexNew.hashBlock = some pindexNew)
    (hprev : pindexNew.pprev = some b.hashPrevBlock) :
    (exec (setBestChain e b pindexNew) s).2.tree = s.tree ∨
    (TreeOk (exec (setBestChain e b pindexNew) s).2.tree genesis pindexNew.hashBlock ∧
      (exec (setBestChain e b pindexNew) s).2.bnBestChainWork = pindexNew.bnChainWork) := by
  unfold Namecoin.setBestChain
  rcases hx : exec (moveChain e b pindexNew) s with ⟨r, s'⟩
  have hmove := moveChain_moved e b pindexNew s
  rw [hx] at hmove
  rcases h.moved hnew hprev hmove with ⟨fault, rfl, ht⟩ | ⟨m, rfl, ht, hs, hthread⟩
  · rw [exec_bind_error hx]
    exact .inl ht
  · rw [exec_bind_ok hx, exec_modify]
    refine .inr ⟨?_, rfl⟩
    have hview : (s'.newBest pindexNew (b.getHash e.env)).tree =
        Namecoin.moveBest s.tree m pindexNew := by
      rw [hhash]
      have hm : s'.mapBlockIndex = m := congrArg TreeView.mapBlockIndex ht
      have hg : s'.pindexGenesisBlock = s.pindexGenesisBlock :=
        congrArg TreeView.pindexGenesisBlock ht
      simp [NodeState.tree, NodeState.newBest, Namecoin.moveBest, hm, hg]
    rw [hview]
    exact h.moveBest hs hnew hthread

end Namecoin
