import Namecoin.Lib.Coins
import Namecoin.Node.Mempool
import Namecoin.Node.TxIndexed

namespace Namecoin

open Act

def CTransaction.spentPoints (tx : CTransaction) : List COutPoint :=
  if tx.isCoinBase then [] else prevouts tx.vin

theorem CTransaction.spentPoints_of_not {tx : CTransaction} (h : tx.isCoinBase = false) :
    tx.spentPoints = prevouts tx.vin := by
  simp [spentPoints, h]

theorem CTransaction.spentPoints_of_coinBase {tx : CTransaction} (h : tx.isCoinBase = true) :
    tx.spentPoints = [] := by
  simp [spentPoints, h]

structure TxApplied (env : Env) (tx : CTransaction) (t t' : TxMap) : Prop where
  fresh : t (tx.getHash env) = none
  nodup : tx.spentPoints.Nodup
  unspent : ∀ p ∈ tx.spentPoints, spentFlag t p = some false
  after : ∃ pos, t' = Function.update (setAll tx.spentPoints true t) (tx.getHash env)
    (some (CTxIndex.make pos tx.vout.length))

inductive TxsApplied (env : Env) : List CTransaction → TxMap → TxMap → Prop
  | nil (t : TxMap) : TxsApplied env [] t t
  | cons {tx : CTransaction} {rest : List CTransaction} {t t₁ t' : TxMap}
      (head : TxApplied env tx t t₁) (tail : TxsApplied env rest t₁ t') :
      TxsApplied env (tx :: rest) t t'

section Applied

variable {env : Env} {tx : CTransaction} {txs txs' : List CTransaction} {t t' t'' : TxMap}

theorem TxsApplied.append (h : TxsApplied env txs t t') (h' : TxsApplied env txs' t' t'') :
    TxsApplied env (txs ++ txs') t t'' := by
  induction h with
  | nil t => exact h'
  | cons head tail ih => exact .cons head (ih h')

theorem TxSpends.applied {c : TxCall} {pos : CDiskTxPos} {l : Ledger} {t : TxMap} {e : NameEffect}
    {fee : Int} (h : TxSpends c pos l t e fee) (fresh : l.db.tx (c.tx.getHash c.env) = none) :
    TxApplied c.env c.tx l.db.tx (c.after pos l t e fee).db.tx := by
  rw [TxCall.after_tx]
  cases h with
  | coinbase cb =>
    have hnone := CTransaction.spentPoints_of_coinBase cb
    refine ⟨fresh, ?_, ?_, pos, ?_⟩
    · rw [hnone]
      exact List.nodup_nil
    · simp [hnone]
    · rw [hnone, setAll_nil]
      rfl
  | spend cb run scan name value fee range =>
    have hpoints := CTransaction.spentPoints_of_not cb
    refine ⟨fresh, ?_, ?_, pos, ?_⟩
    · rw [hpoints]
      exact run.unspent.1
    · rw [hpoints]
      exact run.unspent.2
    · rw [hpoints, run.eq_setAll]
      rfl

theorem txsRun_applied {c : BlockCall} {nTxPos : Nat} {l l' : Ledger}
    (run : c.TxsRun txs nTxPos l l') (fresh : FreshTxs c.env txs l.db.tx) :
    TxsApplied c.env txs l.db.tx l'.db.tx := by
  induction run with
  | nil nTxPos l => exact .nil _
  | cons head tail ih =>
    exact .cons (head.applied (fresh.absent _ List.mem_cons_self)) (ih (fresh.tail head))

theorem connectBlock_applied {c : BlockCall} {b : CBlock} {s s' : ChainState} {u : Unit}
    (h : exec (c.connectBlock b) s = (.ok u, s')) (fresh : FreshTxs c.env b.vtx s.dbset.tx) :
    TxsApplied c.env b.vtx s.dbset.tx s'.dbset.tx := by
  obtain ⟨l, hdone⟩ := BlockCall.connectBlock_ok h
  rw [hdone.db, writePrevIndex_tx]
  exact txsRun_applied hdone.run fresh

theorem TxApplied.hash_ne (h : TxApplied env tx t t') :
    ∀ p ∈ tx.spentPoints, p.hash ≠ tx.getHash env := by
  intro p hp heq
  have hflag := h.unspent p hp
  rw [spentFlag, heq, h.fresh] at hflag
  cases hflag

theorem TxApplied.flag_of_ne (h : TxApplied env tx t t') {p : COutPoint}
    (hne : p.hash ≠ tx.getHash env) : spentFlag t' p =
      if p ∈ tx.spentPoints then (spentFlag t p).map (fun _ => true) else spentFlag t p := by
  obtain ⟨pos, rfl⟩ := h.after
  rw [← spentFlag_setAll]
  simp [spentFlag, hne]

theorem TxApplied.flag_spent (h : TxApplied env tx t t') {p : COutPoint}
    (hp : p ∈ tx.spentPoints) : spentFlag t' p = some true := by
  rw [h.flag_of_ne (h.hash_ne p hp), if_pos hp, h.unspent p hp]
  rfl

theorem TxApplied.undo (h : TxApplied env tx t t') {pindex : CBlockIndex} {db db' : DatabaseSet}
    (hdb : db.tx = t') (hd : tx.disconnectInputs env pindex db = .ok db') : db'.tx = t := by
  simp only [CTransaction.disconnectInputs, Except.bind_eq_ok, Except.pure_eq_ok] at hd
  obtain ⟨db₁, hhook, db₂, hrestore, rfl⟩ := hd
  have hsame : db₁.tx = t' := (hookDisconnectInputs_tx hhook).trans hdb
  have hflag : ∀ p ∈ tx.spentPoints, spentFlag db₁.tx p = some true := by
    intro p hp
    rw [hsame]
    exact h.flag_spent hp
  have hrestored : db₂.tx = setAll tx.spentPoints false db₁.tx := by
    unfold CTransaction.restoreInputs at hrestore
    split at hrestore
    · rename_i hcb
      obtain rfl := Except.ok.inj hrestore
      rw [CTransaction.spentPoints_of_coinBase hcb, setAll_nil]
    · rename_i hcb
      have hpoints := CTransaction.spentPoints_of_not (Bool.not_eq_true _ ▸ hcb)
      rw [hpoints] at hflag ⊢
      rw [disconnectVin_eq (hpoints ▸ h.nodup) hflag] at hrestore
      obtain rfl := Except.ok.inj hrestore
      rfl
  have hback : Function.update t (tx.getHash env) none = t := by
    rw [← h.fresh, Function.update_eq_self]
  obtain ⟨pos, hafter⟩ := h.after
  simp only [DatabaseSet.writeTx]
  rw [hrestored, hsame, hafter, setAll_update h.hash_ne, Function.update_idem,
    setAll_undo h.unspent, hback]

theorem TxsApplied.undo {c : BlockCall} (h : TxsApplied c.env txs t t') {db db' : DatabaseSet}
    (hdb : db.tx = t') (hd : c.disconnectTxs txs db = .ok db') : db'.tx = t := by
  induction h generalizing db' with
  | nil t =>
    obtain rfl := Except.ok.inj hd
    exact hdb
  | cons head tail ih =>
    obtain ⟨db₁, hrest, hfirst⟩ := disconnectTxs_cons hd
    exact head.undo (ih hdb hrest) hfirst

theorem disconnectBlock_undo {c : BlockCall} {b : CBlock} (h : TxsApplied c.env b.vtx t t')
    {db db' : DatabaseSet} (hdb : db.tx = t') (hd : c.disconnectBlock b db = .ok db') :
    db'.tx = t := by
  simp only [BlockCall.disconnectBlock, Except.bind_eq_ok, Except.pure_eq_ok] at hd
  obtain ⟨db₁, htxs, rfl⟩ := hd
  rw [writePrevIndex_tx]
  exact h.undo hdb htxs

end Applied

def coinKind (env : Env) : Coins.Kind Uint256 COutPoint CTransaction where
  owner := COutPoint.hash
  name := CTransaction.getHash env
  spends := CTransaction.spentPoints
  makes tx p := p.n < tx.vout.length

def coinIndex (env : Env) (t : TxMap) : Coins.Index (coinKind env) where
  has h := t h ≠ none
  flag := spentFlag t
  known p hflag hnone := hflag (by rw [spentFlag, show t p.hash = none from hnone]; rfl)

section Kind

variable {env : Env} {tx : CTransaction} {txs : List CTransaction} {t t' : TxMap}

theorem TxApplied.applies (h : TxApplied env tx t t') :
    Coins.Applies tx (coinIndex env t) (coinIndex env t') where
  fresh := not_not.mpr h.fresh
  nodup := h.nodup
  unspent := h.unspent
  has_iff k := by
    show t' k ≠ none ↔ t k ≠ none ∨ k = tx.getHash env
    obtain ⟨pos, rfl⟩ := h.after
    rcases eq_or_ne k (tx.getHash env) with rfl | hne
    · simp
    · rw [Function.update_of_ne hne, ne_eq, setAll_apply_none]
      simp [hne]
  spent p hp := h.flag_spent hp
  kept p hown hp := (h.flag_of_ne hown).trans (if_neg hp)
  made p hown := by
    have hname : p.hash = tx.getHash env := hown
    show spentFlag t' p = some false ↔ p.n < tx.vout.length
    obtain ⟨pos, rfl⟩ := h.after
    rw [spentFlag, hname, Function.update_self, Option.bind_some]
    simp [CTxIndex.make, List.getElem?_replicate]

theorem TxsApplied.run (h : TxsApplied env txs t t') :
    Coins.Run txs (coinIndex env t) (coinIndex env t') := by
  induction h with
  | nil t => exact .nil _
  | cons head tail ih => exact .cons head.applies ih

end Kind

inductive Built (env : Env) (m : BlockMap) (d : Disk) : Uint256 → TxMap → Prop
  | genesis {x : Uint256} {p : CBlockIndex} {b : CBlock} (hp : m x = some p)
      (hroot : p.pprev = none) (hread : d.readIndexed env p = some b)
      (hplain : ∀ tx ∈ b.vtx, tx.isCoinBase = true) : Built env m d x (fun _ => none)
  | block {x prev : Uint256} {p : CBlockIndex} {b : CBlock} {t t' : TxMap} (hp : m x = some p)
      (hprev : p.pprev = some prev) (hread : d.readIndexed env p = some b)
      (below : Built env m d prev t) (applied : TxsApplied env b.vtx t t') : Built env m d x t'

section Built

variable {env : Env} {m m' : BlockMap} {d d' : Disk} {x : Uint256} {t : TxMap}

theorem readIndexed_forget {p p' : CBlockIndex} (h : forgetNext p' = forgetNext p) :
    d.readIndexed env p' = d.readIndexed env p ∧ p'.pprev = p.pprev := by
  rw [forgetNext_eq h]
  exact ⟨rfl, rfl⟩

theorem Built.grow (h : Built env m d x t) (hgrows : Grows m m') (hkeeps : d.KeepsBlocks d') :
    Built env m' d' x t := by
  induction h with
  | genesis hp hroot hread hplain =>
    obtain ⟨p', hp', hforget⟩ := hgrows _ _ hp
    obtain ⟨hsame, hprev⟩ := @readIndexed_forget env d' _ _ hforget
    exact .genesis hp' (hprev.trans hroot) (hsame.trans (hkeeps.readIndexed hread)) hplain
  | block hp hprev hread below applied ih =>
    obtain ⟨p', hp', hforget⟩ := hgrows _ _ hp
    obtain ⟨hsame, hprev'⟩ := @readIndexed_forget env d' _ _ hforget
    exact .block hp' (hprev'.trans hprev) (hsame.trans (hkeeps.readIndexed hread)) ih applied

theorem Built.present (h : Built env m d x t) : ∃ p, m x = some p := by
  cases h with
  | genesis hp => exact ⟨_, hp⟩
  | block hp => exact ⟨_, hp⟩

theorem Built.parent (h : Built env m d x t) {p : CBlockIndex} (hp : m x = some p) {prev : Uint256}
    (hprev : p.pprev = some prev) :
    ∃ b t₀, d.readIndexed env p = some b ∧ Built env m d prev t₀ ∧ TxsApplied env b.vtx t₀ t := by
  cases h with
  | genesis hq hroot hread hplain =>
    obtain rfl := Option.some.inj (hq.symm.trans hp)
    rw [hprev] at hroot
    cases hroot
  | block hq hprev' hread below applied =>
    obtain rfl := Option.some.inj (hq.symm.trans hp)
    obtain rfl := Option.some.inj (hprev'.symm.trans hprev)
    exact ⟨_, _, hread, below, applied⟩

theorem Built.spent (h : Built env m d x t) {y : Uint256} (hy : Forest.Anc (parentOf m) y x)
    {p : CBlockIndex} {b : CBlock} (hp : m y = some p) (hread : d.readIndexed env p = some b)
    {tx : CTransaction} (htx : tx ∈ b.vtx) {o : COutPoint} (ho : o ∈ tx.spentPoints) :
    spentFlag t o = some true := by
  induction h with
  | genesis hq hroot hread' hplain =>
    rcases hy.cases_self with rfl | ⟨prev, hparent, -⟩
    · obtain rfl := Option.some.inj (hq.symm.trans hp)
      obtain rfl := Option.some.inj (hread'.symm.trans hread)
      rw [CTransaction.spentPoints_of_coinBase (hplain tx htx)] at ho
      cases ho
    · rw [parentOf, hq, Option.bind_some, hroot] at hparent
      cases hparent
  | block hq hprev hread' below applied ih =>
    rcases hy.cases_self with rfl | ⟨prev', hparent, hanc⟩
    · obtain rfl := Option.some.inj (hq.symm.trans hp)
      obtain rfl := Option.some.inj (hread'.symm.trans hread)
      exact applied.run.spent htx ho
    · rw [parentOf, hq, Option.bind_some, hprev] at hparent
      obtain rfl := Option.some.inj hparent
      exact (applied.run.flag_spent (ih hanc)).1

end Built

theorem upTo_cons {pfork p : CBlockIndex} {rest : List CBlockIndex} :
    upTo pfork (p :: rest) =
      if p.hashBlock = pfork.hashBlock then [] else ⟨p, rest⟩ :: upTo pfork rest := by
  rw [upTo, branches, List.takeWhile_cons]
  by_cases heq : p.hashBlock = pfork.hashBlock
  · simp [heq]
  · simp [heq, upTo]

theorem branchTxs_cons (e : NodeEnv) (s : NodeState) (b : Branch) (bs : List Branch) {block : CBlock}
    (hread : s.disk.readIndexed e.env b.pindex = some block) :
    s.branchTxs e (b :: bs) = block.vtx ++ s.branchTxs e bs := by
  rw [NodeState.branchTxs, List.flatMap_cons, hread]
  rfl

theorem branchTxs_concat (e : NodeEnv) (s : NodeState) (b : Branch) (bs : List Branch)
    {block : CBlock} (hread : s.disk.readIndexed e.env b.pindex = some block) :
    s.branchTxs e (bs ++ [b]) = s.branchTxs e bs ++ block.vtx := by
  rw [NodeState.branchTxs, List.flatMap_append, List.flatMap_singleton, hread]
  rfl

theorem connectBranch_concat {cs : List BlockCall} {c : BlockCall} {s s' : ChainState}
    {r : List CTransaction} (h : exec (connectBranch (cs ++ [c])) s = (.ok r, s')) :
    ∃ r₁ s₁ block, exec (connectBranch cs) s = (.ok r₁, s₁) ∧
      c.view.disk.readIndexed c.env c.pindex.pindex = some block ∧
      exec (c.connectBlock block) s₁ = (.ok (), s') := by
  induction cs generalizing s r with
  | nil =>
    simp only [List.nil_append, connectBranch, bind_ok, fromOption_ok, pure_ok] at h
    obtain ⟨block, _, ⟨hread, rfl⟩, _, s₂, hblock, -, _, ⟨-, rfl⟩, -, rfl⟩ := h
    exact ⟨[], s, block, rfl, hread, hblock⟩
  | cons c₀ rest ih =>
    simp only [List.cons_append, connectBranch, bind_ok, fromOption_ok, pure_ok] at h
    obtain ⟨block₀, _, ⟨hread₀, rfl⟩, u, s₂, hblock₀, more, _, hrest, -, rfl⟩ := h
    obtain ⟨r₁, s₁, block, hbefore, hread, hblock⟩ := ih hrest
    refine ⟨block₀.vtx ++ r₁, s₁, block, ?_, hread, hblock⟩
    simp only [connectBranch, bind_ok, fromOption_ok, pure_ok]
    exact ⟨block₀, s, ⟨hread₀, rfl⟩, u, s₂, hblock₀, r₁, s₁, hbefore, rfl, rfl⟩

theorem FreshTxs.left {env : Env} {txs txs' : List CTransaction} {t : TxMap}
    (h : FreshTxs env (txs ++ txs') t) : FreshTxs env txs t where
  nodup := by
    have hall := h.nodup
    rw [txHashes, List.map_append] at hall
    exact hall.of_append_left
  absent tx htx := h.absent tx (List.mem_append_left _ htx)

theorem FreshTxs.right {env : Env} {txs txs' : List CTransaction} {t t' : TxMap}
    (h : FreshTxs env (txs ++ txs') t) (happ : TxsApplied env txs t t') :
    FreshTxs env txs' t' where
  nodup := by
    have hall := h.nodup
    rw [txHashes, List.map_append] at hall
    exact hall.of_append_right
  absent tx htx := by
    by_contra hsome
    rcases (happ.run.has_iff (tx.getHash env)).mp hsome with hbefore | hin
    · exact hbefore (h.absent tx (List.mem_append_right _ htx))
    · have hall := h.nodup
      rw [txHashes, List.map_append] at hall
      exact (List.disjoint_of_nodup_append hall) hin (List.mem_map_of_mem htx)

section Branches

variable {e : NodeEnv} {s : NodeState} {genesis : Uint256} {pfork : CBlockIndex}

theorem disconnectBranch_built (hroot : Rooted s.mapBlockIndex genesis) {fuel : Nat} {x : Uint256}
    {c c' : ChainState} {r : List CTransaction}
    (hbuilt : Built e.env s.mapBlockIndex s.disk x c.dbset.tx)
    (hanc : Forest.Anc (parentOf s.mapBlockIndex) pfork.hashBlock x)
    (hfuel : heightOf s.mapBlockIndex x < fuel)
    (hrun : exec (disconnectBranch ((upTo pfork (pprevWalk s.mapBlockIndex fuel (some x))).map
      (s.blockCall e))) c = (.ok r, c')) :
    Built e.env s.mapBlockIndex s.disk pfork.hashBlock c'.dbset.tx ∧
      ∃ old, TxsApplied e.env old c'.dbset.tx c.dbset.tx ∧
        old.Perm (s.branchTxs e (upTo pfork (pprevWalk s.mapBlockIndex fuel (some x)))) := by
  induction fuel generalizing x c r with
  | zero => exact absurd hfuel (Nat.not_lt_zero _)
  | succ fuel ih =>
    obtain ⟨p, hp⟩ := hbuilt.present
    have hkey : p.hashBlock = x := hroot.keyed x p hp
    rw [pprevWalk_cons hp, upTo_cons] at hrun ⊢
    by_cases heq : p.hashBlock = pfork.hashBlock
    · rw [if_pos heq] at hrun ⊢
      obtain ⟨-, rfl⟩ := pure_ok.mp hrun
      rw [← heq, hkey]
      exact ⟨hbuilt, [], .nil _, .refl _⟩
    · rw [if_neg heq] at hrun ⊢
      rcases hanc.cases_self with hself | ⟨prev, hparent, hbelow⟩
      · exact absurd (hkey.trans hself.symm) heq
      have hprev : p.pprev = some prev := by
        rw [parentOf, hp] at hparent
        exact hparent
      obtain ⟨block, t, hread, below, applied⟩ := hbuilt.parent hp hprev
      rw [List.map_cons] at hrun
      simp only [disconnectBranch, bind_ok, fromOption_ok, get_ok, fromExcept_ok, modify_ok,
        pure_ok] at hrun
      obtain ⟨block', _, ⟨hread', rfl⟩, _, _, ⟨rfl, rfl⟩, db, _, ⟨hblock, rfl⟩, -, _, rfl,
        more, _, hrest, -, rfl⟩ := hrun
      have hsame : some block' = some block := hread'.symm.trans hread
      obtain rfl := Option.some.inj hsame
      have hback : db.tx = t :=
        disconnectBlock_undo (c := s.blockCall e ⟨p, _⟩) applied rfl hblock
      have hheight := hroot.graded _ _ hparent
      rw [hprev] at hrest ⊢
      obtain ⟨hfork, old, hold, hperm⟩ := ih (c := { c with dbset := db })
        (by rw [hback]; exact below) hbelow (by omega) hrest
      refine ⟨hfork, old ++ block'.vtx, ?_, ?_⟩
      · refine hold.append ?_
        rw [show ({ c with dbset := db } : ChainState).dbset.tx = t from hback]
        exact applied
      · rw [branchTxs_cons e s ⟨p, _⟩ _ hread]
        exact List.perm_append_comm.trans (hperm.append_left _)

theorem connectBranch_built (hroot : Rooted s.mapBlockIndex genesis) {fuel : Nat} {x : Uint256}
    {c c' : ChainState} {r : List CTransaction} (hsome : (s.mapBlockIndex x).isSome)
    (hbuilt : Built e.env s.mapBlockIndex s.disk pfork.hashBlock c.dbset.tx)
    (hanc : Forest.Anc (parentOf s.mapBlockIndex) pfork.hashBlock x)
    (hfuel : heightOf s.mapBlockIndex x < fuel)
    (hfresh : FreshTxs e.env (s.branchTxs e
      (upTo pfork (pprevWalk s.mapBlockIndex fuel (some x))).reverse) c.dbset.tx)
    (hrun : exec (connectBranch ((upTo pfork (pprevWalk s.mapBlockIndex fuel (some x))).reverse.map
      (s.blockCall e))) c = (.ok r, c')) :
    Built e.env s.mapBlockIndex s.disk x c'.dbset.tx ∧
      TxsApplied e.env (s.branchTxs e
        (upTo pfork (pprevWalk s.mapBlockIndex fuel (some x))).reverse) c.dbset.tx c'.dbset.tx := by
  induction fuel generalizing x c' r with
  | zero => exact absurd hfuel (Nat.not_lt_zero _)
  | succ fuel ih =>
    obtain ⟨p, hp⟩ := Option.isSome_iff_exists.mp hsome
    have hkey : p.hashBlock = x := hroot.keyed x p hp
    rw [pprevWalk_cons hp, upTo_cons] at hrun hfresh ⊢
    by_cases heq : p.hashBlock = pfork.hashBlock
    · rw [if_pos heq] at hrun ⊢
      obtain ⟨-, rfl⟩ := pure_ok.mp hrun
      rw [← hkey, heq]
      exact ⟨hbuilt, .nil _⟩
    · rw [if_neg heq, List.reverse_cons] at hrun hfresh ⊢
      rcases hanc.cases_self with hself | ⟨prev, hparent, habove⟩
      · exact absurd (hkey.trans hself.symm) heq
      have hprev : p.pprev = some prev := by
        rw [parentOf, hp] at hparent
        exact hparent
      have hheight := hroot.graded _ _ hparent
      obtain ⟨-, q, -, -, hq, -⟩ := hroot.parent_some hparent
      rw [List.map_append, List.map_singleton] at hrun
      obtain ⟨r₁, c₁, block, hbefore, hread, hblock⟩ := connectBranch_concat hrun
      have hread' : s.disk.readIndexed e.env p = some block := hread
      rw [branchTxs_concat e s ⟨p, _⟩ _ hread'] at hfresh ⊢
      rw [hprev] at hbefore hfresh ⊢
      obtain ⟨hbelow, happ⟩ := ih (by simp [hq]) habove (by omega) hfresh.left hbefore
      have hlast := connectBlock_applied hblock (hfresh.right happ)
      exact ⟨.block hp hprev hread' hbelow hlast, happ.append hlast⟩

end Branches

def NodeState.vUndone (e : NodeEnv) (s : NodeState) (b : CBlock) (pindexNew : CBlockIndex) :
    List CTransaction :=
  if s.pindexGenesisBlock = none ∧ b.getHash e.env = e.hashGenesisBlock then []
  else if b.hashPrevBlock = s.hashBestChain then []
  else
    match findFork (s.walk s.pindexBest) (s.longer pindexNew) with
    | .error _ => []
    | .ok pfork => s.branchTxs e (s.vDisconnect pfork)

theorem NodeState.vResurrect_eq (e : NodeEnv) (s : NodeState) (b : CBlock)
    (pindexNew : CBlockIndex) :
    s.vResurrect e b pindexNew =
      (s.vUndone e b pindexNew).filter (fun tx => !tx.isCoinBase) := by
  rw [vResurrect, vUndone]
  split
  · rfl
  · split
    · rfl
    · cases findFork (s.walk s.pindexBest) (s.longer pindexNew) <;> rfl

structure NoCopies (e : NodeEnv) (s : NodeState) (b : CBlock) (pindexNew : CBlockIndex) :
    Prop where
  nodup : (txHashes e.env (s.vDelete e b pindexNew)).Nodup
  unindexed : ∀ tx ∈ s.vDelete e b pindexNew, s.chain.dbset.tx (tx.getHash e.env) = none ∨
    tx.getHash e.env ∈ txHashes e.env (s.vUndone e b pindexNew)

structure Replays (e : NodeEnv) (b : CBlock) (pindexNew : CBlockIndex) (s : NodeState)
    (t : TxMap) : Prop where
  built : Built e.env s.mapBlockIndex s.disk pindexNew.hashBlock t
  moved : ∃ t₀ old, TxsApplied e.env old t₀ s.chain.dbset.tx ∧
    old.Perm (s.vUndone e b pindexNew) ∧ TxsApplied e.env (s.vDelete e b pindexNew) t₀ t

theorem FreshTxs.after_undo {env : Env} {old undone new : List CTransaction} {t₀ t : TxMap}
    (hold : TxsApplied env old t₀ t) (hperm : old.Perm undone) (hnd : (txHashes env new).Nodup)
    (hnew : ∀ tx ∈ new, t (tx.getHash env) = none ∨ tx.getHash env ∈ txHashes env undone) :
    FreshTxs env new t₀ := by
  refine ⟨hnd, fun tx htx => ?_⟩
  by_contra hsome
  have hhas : t (tx.getHash env) ≠ none := (hold.run.has_iff _).mpr (.inl hsome)
  rcases hnew tx htx with hnone | hin
  · exact hhas hnone
  · obtain ⟨a, ha, hname⟩ := List.mem_map.mp hin
    have hfresh := hold.run.fresh a (hperm.mem_iff.mpr ha)
    have hname' : (coinKind env).name a = tx.getHash env := hname
    rw [hname'] at hfresh
    exact hfresh hsome

section Best

variable {e : NodeEnv} {s s' : NodeState} {b : CBlock} {genesis best : Uint256}
  {pindexNew pfork : CBlockIndex} {c : ChainState}

theorem extended_replays (hbuilt : Built e.env s.mapBlockIndex s.disk best s.chain.dbset.tx)
    (hnew : s.mapBlockIndex pindexNew.hashBlock = some pindexNew)
    (hprev : pindexNew.pprev = some best)
    (hstored : s.disk.readIndexed e.env pindexNew = some b)
    (hundone : s.vUndone e b pindexNew = []) (hdelete : s.vDelete e b pindexNew = b.vtx)
    (hcopies : NoCopies e s b pindexNew)
    (hrun : exec (extendChain (s.tipCall e pindexNew) b) s.chain = (.ok (), c)) :
    Replays e b pindexNew s c.dbset.tx := by
  obtain ⟨hnd, hunindexed⟩ := hcopies
  rw [hdelete] at hnd hunindexed
  rw [hundone] at hunindexed
  have hfresh := FreshTxs.after_undo (.nil s.chain.dbset.tx) (.refl []) hnd hunindexed
  simp only [extendChain, bind_ok, writeBest, modify_ok] at hrun
  obtain ⟨u, s₁, hblock, rfl⟩ := hrun
  have happ := connectBlock_applied hblock hfresh
  refine ⟨.block hnew hprev hstored hbuilt happ, s.chain.dbset.tx, [], .nil _, ?_, ?_⟩
  · rw [hundone]
  · rw [hdelete]
    exact happ

theorem switched_replays (hok : TreeOk s.tree genesis best)
    (hbuilt : Built e.env s.mapBlockIndex s.disk best s.chain.dbset.tx)
    (hnew : s.mapBlockIndex pindexNew.hashBlock = some pindexNew)
    (hf : findFork (s.walk s.pindexBest) (s.longer pindexNew) = .ok pfork)
    (hundone : s.vUndone e b pindexNew = s.branchTxs e (s.vDisconnect pfork))
    (hdelete : s.vDelete e b pindexNew = s.branchTxs e (s.vConnect pindexNew pfork))
    (hcopies : NoCopies e s b pindexNew) {r : List CTransaction × List CTransaction}
    (hrun : exec (s.switchCall e pindexNew pfork) s.chain = (.ok r, c)) :
    Replays e b pindexNew s c.dbset.tx := by
  have hroot : Rooted s.mapBlockIndex genesis := hok.rooted
  have hbest : s.pindexBest = some best := hok.isBest
  have hshort := hroot.walk_path hok.best_some
  have hlong := hroot.longer_path hnew
  have hwalk : s.walk s.pindexBest = pprevWalk s.mapBlockIndex
      (heightOf s.mapBlockIndex best + 1) (some best) := by rw [hbest]; rfl
  obtain ⟨hin, hin'⟩ := findFork_ok hf
  rw [hbest] at hin
  have hfv : Forest.Anc (parentOf s.mapBlockIndex) pfork.hashBlock best :=
    Forest.anc_of_mem_path (hshort ▸ List.mem_map_of_mem hin)
  have hfw : Forest.Anc (parentOf s.mapBlockIndex) pfork.hashBlock pindexNew.hashBlock :=
    Forest.anc_of_mem_path (hlong ▸ hin')
  simp only [NodeState.switchCall, switchBranch, bind_ok, writeBest, modify_ok, pure_ok] at hrun
  obtain ⟨vResurrect, s₁, hd, vDelete, s₂, hc, -, s₃, rfl, -, rfl⟩ := hrun
  rw [NodeState.vDisconnect, hwalk] at hd hundone
  rw [NodeState.vConnect, hroot.heightTree.longer_eq hnew] at hc hdelete
  obtain ⟨hfork, old, hold, hperm⟩ :=
    disconnectBranch_built hroot hbuilt hfv (Nat.lt_succ_self _) hd
  obtain ⟨hnd, hunindexed⟩ := hcopies
  rw [hdelete] at hnd hunindexed
  rw [hundone] at hunindexed
  have hfresh := FreshTxs.after_undo hold hperm hnd hunindexed
  obtain ⟨htip, happ⟩ := connectBranch_built hroot (by simp [hnew]) hfork hfw
    (Nat.lt_succ_self _) hfresh hc
  refine ⟨htip, s₁.dbset.tx, old, hold, ?_, ?_⟩
  · rw [hundone]
    exact hperm
  · rw [hdelete]
    exact happ

theorem setBestChain_replays (hok : TreeOk s.tree genesis best)
    (hbuilt : Built e.env s.mapBlockIndex s.disk best s.chain.dbset.tx)
    (hnew : s.mapBlockIndex pindexNew.hashBlock = some pindexNew)
    (hprev : pindexNew.pprev = some b.hashPrevBlock)
    (hstored : s.disk.readIndexed e.env pindexNew = some b)
    (hcopies : NoCopies e s b pindexNew)
    (hrun : exec (setBestChain e b pindexNew) s = (.ok (), s')) :
    Replays e b pindexNew s s'.chain.dbset.tx := by
  have hgenesis : ¬(s.pindexGenesisBlock = none ∧ b.getHash e.env = e.hashGenesisBlock) := by
    rintro ⟨hnone, -⟩
    have hgen : s.pindexGenesisBlock = some genesis := hok.genesisBlock
    rw [hnone] at hgen
    cases hgen
  unfold setBestChain at hrun
  simp only [bind_ok, modify_ok] at hrun
  obtain ⟨u, s₁, hmove, rfl⟩ := hrun
  have hmoved := moveChain_moved e b pindexNew s
  rw [hmove] at hmoved
  cases hmoved with
  | genesis hgen hhash => exact absurd ⟨hgen, hhash⟩ hgenesis
  | @extended htip c hx =>
    have hbest : s.hashBestChain = best := by
      obtain ⟨-, -, hhash, -⟩ := hok.globals
      exact hhash
    have hpool : PoolOnly _ _ := removeAll_poolOnly e.env b.vtx
      ((s.commitTxn c).linkNext pindexNew (some pindexNew.hashBlock))
    have hundone : s.vUndone e b pindexNew = [] := by
      rw [NodeState.vUndone, if_neg hgenesis, if_pos htip]
    have hdelete : s.vDelete e b pindexNew = b.vtx := by
      rw [NodeState.vDelete, if_neg hgenesis, if_pos htip]
    have hdone := extended_replays hbuilt hnew (by rw [hprev, htip, hbest]) hstored hundone hdelete
      hcopies hx
    rw [show c.dbset = _ from hpool.dbset.symm] at hdone
    exact hdone
  | @switched hother pfork r c hf hx =>
    have hpool : PoolOnly (relink (s.vDisconnect pfork) (s.vConnect pindexNew pfork)
        (s.commitTxn c)) _ := (resurrect_poolOnly e r.1 _).trans (removeAll_poolOnly e.env r.2 _)
    rw [relink_eq] at hpool ⊢
    have hundone : s.vUndone e b pindexNew = s.branchTxs e (s.vDisconnect pfork) := by
      rw [NodeState.vUndone, if_neg hgenesis, if_neg hother, hf]
    have hdelete : s.vDelete e b pindexNew = s.branchTxs e (s.vConnect pindexNew pfork) := by
      rw [NodeState.vDelete, if_neg hgenesis, if_neg hother, hf]
    have hdone := switched_replays hok hbuilt hnew hf hundone hdelete hcopies hx
    rw [show c.dbset = _ from hpool.dbset.symm] at hdone
    exact hdone

end Best

end Namecoin
