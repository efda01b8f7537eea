import Namecoin.Node.Lookup

namespace Namecoin

open Act

abbrev RecordMap := Uint256 → Option CDiskBlockIndex

def Stores (r : CDiskBlockIndex) (p : CBlockIndex) : Prop :=
  forgetNext r.index = forgetNext p ∧ r.hashPrev = p.pprev.getD 0 ∧ r.hashNext = p.pnext.getD 0

def RecordsOk (m : BlockMap) (d : RecordMap) : Prop := ∀ h, Option.Rel Stores (d h) (m h)

def writeNext (b : Branch) (hashNext : Uint256) (d : RecordMap) : RecordMap :=
  match b.pprev with
  | [] => d
  | pprev :: _ => Function.update d pprev.hashBlock (some ⟨pprev, pprev.pprev.getD 0, hashNext⟩)

theorem writePrevIndex_blockindex (c : BlockCall) (hashNext : Uint256) (db : DatabaseSet) :
    (c.writePrevIndex hashNext db).blockindex = writeNext c.pindex hashNext db.blockindex := by
  unfold BlockCall.writePrevIndex writeNext
  cases c.pindex.pprev <;> rfl

theorem writePrevIndex_hashBestChain (c : BlockCall) (hashNext : Uint256) (db : DatabaseSet) :
    (c.writePrevIndex hashNext db).hashBestChain = db.hashBestChain := by
  unfold BlockCall.writePrevIndex
  split <;> rfl

inductive Follows (m : BlockMap) (b : Branch) : Prop
  | root (hprev : b.pindex.pprev = none) (hwalk : b.pprev = [])
  | link {p p' : CBlockIndex} {rest : List CBlockIndex} (hprev : b.pindex.pprev = some p.hashBlock)
      (hwalk : b.pprev = p :: rest) (hmap : m p.hashBlock = some p')
      (hsame : forgetNext p = forgetNext p')

theorem Follows.congr {m m' : BlockMap} {b : Branch} (h : Follows m b) (hs : SameTree m m') :
    Follows m' b := by
  cases h with
  | root hprev hwalk => exact .root hprev hwalk
  | @link p p' rest hprev hwalk hmap hsame =>
    obtain ⟨p'', hp''⟩ := hs.present hmap
    have hforget := hs p.hashBlock
    rw [hp'', hmap] at hforget
    exact .link hprev hwalk hp'' (hsame.trans (Option.some.inj hforget).symm)

theorem forgetNext_eq {p q : CBlockIndex} (h : forgetNext p = forgetNext q) :
    p = { q with pnext := p.pnext } := by
  have hp : p = { forgetNext p with pnext := p.pnext } := rfl
  rw [h] at hp
  exact hp

theorem RecordsOk.link {m : BlockMap} {d : RecordMap} (h : RecordsOk m d) {b : Branch}
    (hb : Follows m b) (next : Option Uint256) :
    RecordsOk (setNext b.pindex.pprev next m) (writeNext b (next.getD 0) d) := by
  cases hb with
  | root hprev hwalk =>
    rw [hprev, setNext, writeNext, hwalk]
    exact h
  | @link p p' rest hprev hwalk hmap hsame =>
    rw [hprev, setNext, writeNext, hwalk]
    intro x
    dsimp only
    by_cases hx : x = p.hashBlock
    · subst hx
      rw [Function.update_self, Function.update_self, hmap]
      refine .some ⟨hsame.trans ?_, ?_, rfl⟩
      · rfl
      · have hpe := forgetNext_eq hsame
        rw [hpe]
    · rw [Function.update_of_ne hx, Function.update_of_ne hx]
      exact h x

theorem RecordsOk.linkMap {m : BlockMap} {d : RecordMap} (h : RecordsOk m d)
    (f : Branch → Option Uint256) {bs : List Branch} (hbs : ∀ b ∈ bs, Follows m b) :
    RecordsOk (linkMap f bs m) (bs.foldl (fun d b => writeNext b ((f b).getD 0) d) d) := by
  induction bs generalizing m d with
  | nil => exact h
  | cons b rest ih =>
    have hsame := sameTree_setNext b.pindex.pprev (f b) m
    exact ih (h.link (hbs b List.mem_cons_self) (f b))
      (fun c hc => (hbs c (List.mem_cons_of_mem _ hc)).congr hsame)

theorem RecordsOk.relinkMap {m : BlockMap} {d : RecordMap} (h : RecordsOk m d)
    {vDisconnect vConnect : List Branch} (hd : ∀ b ∈ vDisconnect, Follows m b)
    (hc : ∀ b ∈ vConnect, Follows m b) :
    RecordsOk (relinkMap vDisconnect vConnect m)
      (vConnect.foldl (fun d b => writeNext b b.pindex.hashBlock d)
        (vDisconnect.foldl (fun d b => writeNext b 0 d) d)) := by
  have hsame := sameTree_linkMap (fun _ => none) vDisconnect m
  exact (h.linkMap (fun _ => none) hd).linkMap (fun b => some b.pindex.hashBlock)
    (fun b hb => (hc b hb).congr hsame)

theorem follows_here {m : BlockMap} {genesis : Uint256} (h : Rooted m genesis) {fuel : Nat}
    {p : CBlockIndex} (hp : m p.hashBlock = some p) (hfuel : p.nHeight ≤ fuel) :
    Follows m ⟨p, pprevWalk m fuel p.pprev⟩ := by
  cases hq : p.pprev with
  | none =>
    refine .root hq ?_
    cases fuel <;> rfl
  | some q =>
    have hparent : parentOf m p.hashBlock = some q := by simp [parentOf, hp, hq]
    obtain ⟨p', pq, hp', -, hmq, hheight⟩ := h.parent_some hparent
    rw [hp] at hp'
    cases hp'
    have hkey := h.keyed q pq hmq
    subst hkey
    obtain ⟨k, rfl⟩ := Nat.exists_eq_add_of_lt (by omega : 0 < fuel)
    have hwalk : pprevWalk m (0 + k + 1) (some pq.hashBlock) = pq :: pprevWalk m (0 + k) pq.pprev := by
      rw [pprevWalk, Option.bind_some, hmq]
    exact .link hq hwalk hmq rfl

theorem follows_branches {m : BlockMap} {genesis : Uint256} (h : Rooted m genesis) {fuel : Nat}
    {x : Option Uint256} (hfuel : ∀ q, x = some q → heightOf m q < fuel) :
    ∀ b ∈ branches (pprevWalk m fuel x), Follows m b := by
  induction fuel generalizing x with
  | zero =>
    intro b hb
    cases hb
  | succ fuel ih =>
    rw [pprevWalk]
    cases hx : x.bind m with
    | none =>
      intro b hb
      cases hb
    | some p =>
      obtain ⟨q, rfl, hq⟩ := Option.bind_eq_some_iff.mp hx
      have hkey := h.keyed q p hq
      subst hkey
      have hheight : p.nHeight < fuel + 1 := by
        have := hfuel _ rfl
        simpa [heightOf, hq] using this
      intro b hb
      rcases List.mem_cons.mp hb with rfl | hb
      · exact follows_here h hq (by omega)
      · refine ih (fun r hr => ?_) b hb
        have hparent : parentOf m p.hashBlock = some r := by simp [parentOf, hq, hr]
        have hg := h.graded _ _ hparent
        have hpn : heightOf m p.hashBlock = p.nHeight := by simp [heightOf, hq]
        omega

theorem upTo_branches {pfork : CBlockIndex} {walk : List CBlockIndex} {b : Branch}
    (hb : b ∈ upTo pfork walk) : b ∈ branches walk := List.takeWhile_subset _ hb

theorem Rooted.follows_walk {s : NodeState} {genesis : Uint256} (h : Rooted s.mapBlockIndex genesis)
    (x : Option Uint256) : ∀ b ∈ branches (s.walk x), Follows s.mapBlockIndex b := by
  refine follows_branches h (fun q hq => ?_)
  subst hq
  exact Nat.lt_succ_self _

theorem Rooted.follows_tip {s : NodeState} {genesis : Uint256} (h : Rooted s.mapBlockIndex genesis)
    {p : CBlockIndex} (hp : s.mapBlockIndex p.hashBlock = some p) :
    Follows s.mapBlockIndex ⟨p, s.walk p.pprev⟩ := by
  refine follows_here h hp ?_
  cases hq : p.pprev with
  | none =>
    by_cases hg : p.hashBlock = genesis
    · have := h.heightOf_genesis
      rw [← hg] at this
      simp only [heightOf, hp, Option.map_some, Option.getD_some] at this
      omega
    · obtain ⟨q, pq, hprev, -⟩ := h.parent _ p hp hg
      rw [hq] at hprev
      cases hprev
  | some q =>
    have hparent : parentOf s.mapBlockIndex p.hashBlock = some q := by simp [parentOf, hp, hq]
    have hg := h.graded _ _ hparent
    have hpn : heightOf s.mapBlockIndex p.hashBlock = p.nHeight := by simp [heightOf, hp]
    show p.nHeight ≤ heightOf s.mapBlockIndex q + 1
    omega

theorem Rooted.follows_longer {s : NodeState} {genesis : Uint256}
    (h : Rooted s.mapBlockIndex genesis) {p : CBlockIndex}
    (hp : s.mapBlockIndex p.hashBlock = some p) :
    ∀ b ∈ branches (s.longer p), Follows s.mapBlockIndex b := by
  intro b hb
  rcases List.mem_cons.mp hb with rfl | hb
  · exact h.follows_tip hp
  · exact h.follows_walk _ b hb

structure SameRecords (db db' : DatabaseSet) : Prop where
  blockindex : db'.blockindex = db.blockindex
  hashBestChain : db'.hashBestChain = db.hashBestChain

theorem SameRecords.refl (db : DatabaseSet) : SameRecords db db := ⟨rfl, rfl⟩

theorem SameRecords.trans {a b c : DatabaseSet} (h : SameRecords a b) (h' : SameRecords b c) :
    SameRecords a c :=
  ⟨h'.blockindex.trans h.blockindex, h'.hashBestChain.trans h.hashBestChain⟩

theorem txsRun_records {c : BlockCall} {txs : List CTransaction} {nTxPos : Nat} {l l' : Ledger}
    (h : BlockCall.TxsRun c txs nTxPos l l') : SameRecords l.db l'.db := by
  induction h with
  | nil _ l => exact SameRecords.refl l.db
  | cons _ _ ih =>
    exact SameRecords.trans ⟨TxCall.after_blockindex _ _ _ _, TxCall.after_hashBestChain _ _ _ _⟩ ih

theorem connectBlock_records {c : BlockCall} {b : CBlock} {s s' : ChainState}
    (h : exec (c.connectBlock b) s = (.ok (), s')) :
    s'.dbset.blockindex = writeNext c.pindex c.pindex.pindex.hashBlock s.dbset.blockindex ∧
      s'.dbset.hashBestChain = s.dbset.hashBestChain := by
  obtain ⟨l, hdone⟩ := BlockCall.connectBlock_ok h
  have hsame := txsRun_records hdone.run
  rw [hdone.db, writePrevIndex_blockindex, writePrevIndex_hashBestChain, hsame.blockindex,
    hsame.hashBestChain]
  exact ⟨rfl, rfl⟩

theorem popHistory_records {db db' : DatabaseSet} {hash : Uint256} {vchName : VchType}
    (h : popHistory db hash vchName = .ok db') : SameRecords db db' := by
  unfold popHistory at h
  repeat' split at h
  all_goals first
    | cases h
      exact ⟨rfl, rfl⟩
    | cases h

theorem hookDisconnectInputs_records {env : Env} {tx : CTransaction} {pindex : CBlockIndex}
    {db db' : DatabaseSet} (h : hookDisconnectInputs env tx pindex db = .ok db') :
    SameRecords db db' := by
  unfold hookDisconnectInputs at h
  split at h
  · cases h
    exact SameRecords.refl db
  · split at h
    · cases h
    · split at h
      · obtain ⟨vchName, -, hpop⟩ := Except.bind_eq_ok.mp h
        exact popHistory_records hpop
      · cases h
        exact SameRecords.refl db

theorem writeTx_records (db : DatabaseSet) (hash : Uint256) (txindex : Option CTxIndex) :
    SameRecords db (db.writeTx hash txindex) := ⟨rfl, rfl⟩

theorem disconnectVin_records {vin : List CTxIn} {db db' : DatabaseSet}
    (h : disconnectVin vin db = .ok db') : SameRecords db db' := by
  induction vin generalizing db with
  | nil =>
    cases h
    exact SameRecords.refl _
  | cons txin rest ih =>
    rw [disconnectVin] at h
    split at h
    · cases h
    · split at h
      · cases h
      · split at h
        · cases h
        · exact (writeTx_records _ _ _).trans (ih h)

theorem disconnectInputs_records {env : Env} {tx : CTransaction} {pindex : CBlockIndex}
    {db db' : DatabaseSet} (h : tx.disconnectInputs env pindex db = .ok db') :
    SameRecords db db' := by
  simp only [CTransaction.disconnectInputs, Except.bind_eq_ok, Except.pure_eq_ok] at h
  obtain ⟨db1, hhook, db2, hrestore, rfl⟩ := h
  have hvin : SameRecords db1 db2 := by
    unfold CTransaction.restoreInputs at hrestore
    split at hrestore
    · cases hrestore
      exact SameRecords.refl db1
    · exact disconnectVin_records hrestore
  exact (hookDisconnectInputs_records hhook).trans (hvin.trans ⟨rfl, rfl⟩)

theorem disconnectTxs_records {c : BlockCall} {txs : List CTransaction} {db db' : DatabaseSet}
    (h : c.disconnectTxs txs db = .ok db') : SameRecords db db' := by
  induction txs generalizing db' with
  | nil =>
    cases h
    exact SameRecords.refl db
  | cons tx rest ih =>
    simp only [BlockCall.disconnectTxs, Except.bind_eq_ok] at h
    obtain ⟨db1, hrest, htx⟩ := h
    exact (ih hrest).trans (disconnectInputs_records htx)

theorem disconnectBlock_records {c : BlockCall} {b : CBlock} {db db' : DatabaseSet}
    (h : c.disconnectBlock b db = .ok db') :
    db'.blockindex = writeNext c.pindex 0 db.blockindex ∧ db'.hashBestChain = db.hashBestChain := by
  simp only [BlockCall.disconnectBlock, Except.bind_eq_ok, Except.pure_eq_ok] at h
  obtain ⟨db1, htxs, rfl⟩ := h
  have hsame := disconnectTxs_records htxs
  rw [writePrevIndex_blockindex, writePrevIndex_hashBestChain, hsame.blockindex,
    hsame.hashBestChain]
  exact ⟨rfl, rfl⟩

theorem disconnectBranch_records {cs : List BlockCall} {s s' : ChainState} {r : List CTransaction}
    (h : exec (disconnectBranch cs) s = (.ok r, s')) :
    s'.dbset.blockindex = cs.foldl (fun d c => writeNext c.pindex 0 d) s.dbset.blockindex := by
  induction cs generalizing s r with
  | nil =>
    simp only [disconnectBranch, pure_ok] at h
    obtain ⟨-, rfl⟩ := h
    rfl
  | cons c rest ih =>
    simp only [disconnectBranch, bind_ok, fromOption_ok, get_ok, fromExcept_ok, modify_ok,
      pure_ok] at h
    obtain ⟨b, s1, ⟨-, rfl⟩, t, s2, ⟨rfl, rfl⟩, db, s3, ⟨hdb, rfl⟩, -, s4, rfl, vResurrect, s5,
      hrest, -, rfl⟩ := h
    rw [ih hrest, (disconnectBlock_records hdb).1]
    rfl

theorem connectBranch_records {cs : List BlockCall} {s s' : ChainState} {r : List CTransaction}
    (h : exec (connectBranch cs) s = (.ok r, s')) :
    s'.dbset.blockindex =
      cs.foldl (fun d c => writeNext c.pindex c.pindex.pindex.hashBlock d) s.dbset.blockindex := by
  induction cs generalizing s r with
  | nil =>
    simp only [connectBranch, pure_ok] at h
    obtain ⟨-, rfl⟩ := h
    rfl
  | cons c rest ih =>
    simp only [connectBranch, bind_ok, fromOption_ok, pure_ok] at h
    obtain ⟨b, s1, ⟨-, rfl⟩, _, s2, hconnect, vDelete, s3, hrest, -, rfl⟩ := h
    rw [ih hrest, (connectBlock_records hconnect).1]
    rfl

theorem extendChain_records {c : BlockCall} {b : CBlock} {s s' : ChainState}
    (h : exec (extendChain c b) s = (.ok (), s')) :
    s'.dbset.blockindex = writeNext c.pindex c.pindex.pindex.hashBlock s.dbset.blockindex ∧
      s'.dbset.hashBestChain = some (b.getHash c.env) := by
  simp only [extendChain, writeBest, bind_ok, modify_ok] at h
  obtain ⟨_, s1, hconnect, rfl⟩ := h
  exact ⟨(connectBlock_records hconnect).1, rfl⟩

theorem switchBranch_records {vDisconnect vConnect : List BlockCall} {hash : Uint256}
    {s s' : ChainState} {r : List CTransaction × List CTransaction}
    (h : exec (switchBranch vDisconnect vConnect hash) s = (.ok r, s')) :
    s'.dbset.blockindex =
        vConnect.foldl (fun d c => writeNext c.pindex c.pindex.pindex.hashBlock d)
          (vDisconnect.foldl (fun d c => writeNext c.pindex 0 d) s.dbset.blockindex) ∧
      s'.dbset.hashBestChain = some hash := by
  simp only [switchBranch, writeBest, bind_ok, modify_ok, pure_ok] at h
  obtain ⟨vResurrect, s1, hdis, vDelete, s2, hcon, -, s3, rfl, -, rfl⟩ := h
  refine ⟨?_, rfl⟩
  rw [← disconnectBranch_records hdis, ← connectBranch_records hcon]
  rfl

def CBlockIndex.header (p : CBlockIndex) : CBlockHeader :=
  ⟨p.nVersion, p.pprev.getD 0, p.hashMerkleRoot, p.nTime, p.nBits, p.nNonce⟩

def Hashed (env : Env) (m : BlockMap) : Prop :=
  ∀ h p, m h = some p → p.header.getHash env = h

theorem Hashed.congr {env : Env} {m m' : BlockMap} (h : Hashed env m) (hs : SameTree m m') :
    Hashed env m' := by
  intro x p' hp'
  obtain ⟨p, next, hp, rfl⟩ := hs.lookup hp'
  exact h x p hp

structure Saved (env : Env) (s : NodeState) : Prop where
  hashed : Hashed env s.mapBlockIndex
  records : RecordsOk s.mapBlockIndex s.chain.dbset.blockindex
  best : s.chain.dbset.hashBestChain = some s.hashBestChain

theorem Saved.congr {env : Env} {s s' : NodeState} (h : Saved env s) (htree : s'.tree = s.tree)
    (hdb : s'.chain.dbset = s.chain.dbset) : Saved env s' := by
  have hmap : s'.mapBlockIndex = s.mapBlockIndex := congrArg TreeView.mapBlockIndex htree
  have hbest : s'.hashBestChain = s.hashBestChain := congrArg TreeView.hashBestChain htree
  exact ⟨hmap ▸ h.hashed, hmap ▸ hdb ▸ h.records, by rw [hdb, hbest, h.best]⟩

theorem PoolOnly.dbset {s s' : NodeState} (h : PoolOnly s s') :
    s'.chain.dbset = s.chain.dbset := by
  have hw : s'.withoutPool.chain.dbset = s.withoutPool.chain.dbset :=
    congrArg (fun t : NodeState => t.chain.dbset) h
  exact hw

theorem Saved.newBest {env : Env} {s s' : NodeState} (h : Saved env s) {m : BlockMap}
    {pindexNew : CBlockIndex} {hash : Uint256} (hmap : s'.mapBlockIndex = m)
    (hs : SameTree s.mapBlockIndex m) (hrec : RecordsOk m s'.chain.dbset.blockindex)
    (hbest : s'.chain.dbset.hashBestChain = some hash) :
    Saved env (s'.newBest pindexNew hash) where
  hashed := by
    show Hashed env s'.mapBlockIndex
    rw [hmap]
    exact h.hashed.congr hs
  records := by
    show RecordsOk s'.mapBlockIndex s'.chain.dbset.blockindex
    rw [hmap]
    exact hrec
  best := hbest

theorem Saved.extend {e : NodeEnv} {b : CBlock} {s : NodeState} {genesis best : Uint256}
    {pindexNew : CBlockIndex} {c : ChainState} (h : Saved e.env s) (hok : TreeOk s.tree genesis best)
    (hnew : s.mapBlockIndex pindexNew.hashBlock = some pindexNew)
    (hx : exec (extendChain (s.tipCall e pindexNew) b) s.chain = (.ok (), c)) :
    Saved e.env ((NodeState.removeAll e.env b.vtx ((s.commitTxn c).linkNext pindexNew
      (some pindexNew.hashBlock))).newBest pindexNew (b.getHash e.env)) := by
  have hpool := removeAll_poolOnly e.env b.vtx
    ((s.commitTxn c).linkNext pindexNew (some pindexNew.hashBlock))
  have hroot : Rooted s.mapBlockIndex genesis := hok.rooted
  obtain ⟨hblocks, hhash⟩ := extendChain_records hx
  refine h.newBest (congrArg TreeView.mapBlockIndex hpool.tree)
    (sameTree_setNext pindexNew.pprev (some pindexNew.hashBlock) s.mapBlockIndex) ?_ ?_
  · rw [hpool.dbset]
    show RecordsOk _ c.dbset.blockindex
    rw [hblocks]
    exact h.records.link (hroot.follows_tip hnew) (some pindexNew.hashBlock)
  · rw [hpool.dbset]
    exact hhash

theorem Saved.switch {e : NodeEnv} {b : CBlock} {s : NodeState} {genesis best : Uint256}
    {pindexNew pfork : CBlockIndex} {c : ChainState} {r : List CTransaction × List CTransaction}
    (h : Saved e.env s) (hok : TreeOk s.tree genesis best)
    (hhash : b.getHash e.env = pindexNew.hashBlock)
    (hnew : s.mapBlockIndex pindexNew.hashBlock = some pindexNew)
    (hx : exec (s.switchCall e pindexNew pfork) s.chain = (.ok r, c)) :
    Saved e.env ((NodeState.removeAll e.env r.2 (NodeState.resurrect e r.1
      (relink (s.vDisconnect pfork) (s.vConnect pindexNew pfork) (s.commitTxn c)))).newBest
        pindexNew (b.getHash e.env)) := by
  have hpool := (resurrect_poolOnly e r.1 (relink (s.vDisconnect pfork) (s.vConnect pindexNew pfork)
    (s.commitTxn c))).trans (removeAll_poolOnly e.env r.2 _)
  rw [relink_eq] at hpool ⊢
  have hroot : Rooted s.mapBlockIndex genesis := hok.rooted
  obtain ⟨hblocks, hbest⟩ := switchBranch_records hx
  rw [List.foldl_map, List.foldl_map] at hblocks
  refine h.newBest (congrArg TreeView.mapBlockIndex hpool.tree)
    (sameTree_relinkMap (s.vDisconnect pfork) (s.vConnect pindexNew pfork) s.mapBlockIndex) ?_ ?_
  · rw [hpool.dbset]
    show RecordsOk _ c.dbset.blockindex
    rw [hblocks]
    refine h.records.relinkMap ?_ ?_
    · intro b hb
      exact hroot.follows_walk _ b (upTo_branches hb)
    · intro b hb
      exact hroot.follows_longer hnew b (upTo_branches (List.mem_reverse.mp hb))
  · rw [hpool.dbset, hhash]
    exact hbest

theorem Saved.setBestChain {e : NodeEnv} {b : CBlock} {s : NodeState} {genesis best : Uint256}
    {pindexNew : CBlockIndex} (h : Saved e.env s) (hok : TreeOk s.tree genesis best)
    (hhash : b.getHash e.env = pindexNew.hashBlock)
    (hnew : s.mapBlockIndex pindexNew.hashBlock = some pindexNew) :
    Saved e.env (exec (setBestChain e b pindexNew) s).2 := by
  unfold Namecoin.setBestChain
  rw [exec_bind]
  have hmove := moveChain_moved e b pindexNew s
  generalize exec (moveChain e b pindexNew) s = r at hmove
  cases hmove with
  | genesis hgen _ =>
    have hgen' : s.pindexGenesisBlock = some genesis := hok.genesisBlock
    rw [hgen] at hgen'
    cases hgen'
  | extendFails _ _ => exact h.congr rfl rfl
  | extended _ hx => exact h.extend hok hnew hx
  | noFork _ _ => exact h.congr rfl rfl
  | switchFails _ _ _ => exact h.congr rfl rfl
  | switched _ _ hx => exact h.switch hok hhash hnew hx

theorem insertBlockIndex_map (p : CBlockIndex) (s : NodeState) :
    (insertBlockIndex p s).mapBlockIndex = Function.update s.mapBlockIndex p.hashBlock (some p) :=
  rfl

theorem insertBlockIndex_records (p : CBlockIndex) (s : NodeState) :
    (insertBlockIndex p s).chain.dbset.blockindex = Function.update s.chain.dbset.blockindex
      p.hashBlock (some ⟨p, p.pprev.getD 0, 0⟩) := rfl

theorem Saved.insert {env : Env} {s : NodeState} (h : Saved env s) {p : CBlockIndex}
    (hhash : p.header.getHash env = p.hashBlock) (hnext : p.pnext = none) :
    Saved env (insertBlockIndex p s) := by
  refine ⟨?_, ?_, h.best⟩
  · rw [insertBlockIndex_map]
    intro x q hq
    by_cases hx : x = p.hashBlock
    · subst hx
      rw [Function.update_self] at hq
      cases hq
      exact hhash
    · rw [Function.update_of_ne hx] at hq
      exact h.hashed x q hq
  · rw [insertBlockIndex_map, insertBlockIndex_records]
    intro x
    by_cases hx : x = p.hashBlock
    · subst hx
      rw [Function.update_self, Function.update_self]
      exact .some ⟨rfl, rfl, by rw [hnext]; rfl⟩
    · rw [Function.update_of_ne hx, Function.update_of_ne hx]
      exact h.records x

theorem newBlockIndex_hashed {env : Env} {s : NodeState} {b : CBlock} {nFile nBlockPos : Nat}
    (hprev : (newBlockIndex env s b nFile nBlockPos).pprev.getD 0 = b.hashPrevBlock) :
    (newBlockIndex env s b nFile nBlockPos).header.getHash env =
      (newBlockIndex env s b nFile nBlockPos).hashBlock := by
  unfold CBlockIndex.header
  rw [hprev]
  rfl

def SavedTree (env : Env) (hashGenesisBlock : Uint256) (s : NodeState) : Prop :=
  (∃ best, TreeOk s.tree hashGenesisBlock best) ∧ Saved env s

theorem addToBlockIndex_saved {e : NodeEnv} {b : CBlock} {s : NodeState} {genesis : Uint256}
    (hprev : (s.mapBlockIndex b.hashPrevBlock).isSome) (nFile nBlockPos : Nat)
    (h : SavedTree e.env genesis s) :
    SavedTree e.env genesis (exec (addToBlockIndex e b nFile nBlockPos) s).2 := by
  obtain ⟨⟨best, hok⟩, hsaved⟩ := h
  refine ⟨(addToBlockIndex_advances hprev nFile nBlockPos genesis best hok).1, ?_⟩
  unfold addToBlockIndex
  rw [exec_get_bind]
  refine after_raiseIf hsaved (fun hfresh => ?_)
  have hnone : s.mapBlockIndex (b.getHash e.env) = none := by simpa using hfresh
  obtain ⟨hlink, hins⟩ := hok.insertNew hprev hnone nFile nBlockPos
  have hsaved' := hsaved.insert (newBlockIndex_hashed (by rw [hlink]; rfl)) rfl
  dsimp only
  rw [exec_modify_bind]
  unfold doIf
  split
  · exact hsaved'.setBestChain hins rfl (Function.update_self _ _ _)
  · exact hsaved'

theorem acceptBlock_saved {e : NodeEnv} {b : CBlock} {s : NodeState} {genesis : Uint256}
    (h : SavedTree e.env genesis s) : SavedTree e.env genesis (exec (acceptBlock e b) s).2 := by
  unfold acceptBlock
  rw [exec_get_bind]
  refine after_raiseIf h (fun _ => ?_)
  refine after_fromOption h (fun pindexPrev hprev => ?_)
  refine after_fromExcept h (fun _ _ => ?_)
  refine after_fromOption h (fun pos _ => ?_)
  rw [exec_modify_bind]
  refine addToBlockIndex_saved ?_ pos.1 pos.2 ⟨h.1, h.2.congr rfl rfl⟩
  simp [hprev]

theorem savedTree_carries (e : NodeEnv) (genesis : Uint256) :
    Carries e (fun s s' => SavedTree e.env genesis s → SavedTree e.env genesis s') where
  refl _ h := h
  trans h h' hs := h' (h hs)
  park _ _ h := ⟨h.1, h.2.congr rfl rfl⟩
  erase _ _ h := ⟨h.1, h.2.congr rfl rfl⟩
  drop _ _ h := ⟨h.1, h.2.congr rfl rfl⟩
  accept _ _ h := acceptBlock_saved h

theorem NodeStep.saved {env : Env} {hashGenesisBlock : Uint256} {s s' : NodeState}
    (hstep : NodeStep env hashGenesisBlock s s') (h : SavedTree env hashGenesisBlock s) :
    SavedTree env hashGenesisBlock s' := by
  cases hstep with
  | block e b henv _ =>
    subst henv
    exact (savedTree_carries e hashGenesisBlock).processBlock b s h
  | tx e tx fCheckInputs fLimitFree fRateLimited _ _ =>
    have hpool := acceptToMemoryPool_poolOnly e tx fCheckInputs fLimitFree fRateLimited s
    obtain ⟨⟨best, hok⟩, hsaved⟩ := h
    exact ⟨⟨best, hpool.tree ▸ hok⟩, hsaved.congr hpool.tree hpool.dbset⟩

theorem Started.saved {env : Env} {hashGenesisBlock : Uint256} {s : NodeState}
    (h : Started env hashGenesisBlock s) : SavedTree env hashGenesisBlock s := by
  refine ⟨⟨_, h.treeOk⟩, ?_⟩
  obtain ⟨e, genesis, wallet, disk, nFile, nBlockPos, rfl, rfl, hprev, hwork, hhash, hadd⟩ := h.added
  have hstate := @addToBlockIndex_genesis e genesis { NodeState.blank wallet with disk := disk } rfl
    hhash hwork nFile nBlockPos
  rw [hadd] at hstate
  cases hstate
  have hblank : Saved e.env
      { NodeState.blank wallet with
        chain := ⟨⟨fun _ => none, fun _ => none, fun _ => none, some 0⟩, fun _ => ∅, wallet⟩ } := by
    refine ⟨fun x p hp => ?_, fun x => .none, rfl⟩
    cases hp
  have hins := hblank.insert (@newBlockIndex_hashed e.env (NodeState.blank wallet) genesis nFile
    nBlockPos hprev.symm) rfl
  exact ⟨hins.hashed, hins.records, rfl⟩

end Namecoin
