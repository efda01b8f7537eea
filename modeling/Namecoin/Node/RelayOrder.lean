import Namecoin.Node.RelayPool
import Namecoin.Node.SpendMap

namespace Namecoin

open Act

structure Parked (env : Env) (D : List CTransaction) (rl : TxRelay) : Prop where
  orphans : ∀ h, rl.mapOrphanTransactions h = (poolMap env D h).map CTransaction.serialize
  byPrev : ∀ p h, (p, h) ∈ rl.mapOrphanTransactionsByPrev ↔
    ∃ t ∈ D, t.getHash env = h ∧ p ∈ t.prevHashes

section Parked

variable {env : Env} {D : List CTransaction} {rl : TxRelay} {tx : CTransaction}

theorem mem_addOrphan (hash : Uint256) (tx : CTransaction) (vMsg : List UInt8) (rl : TxRelay)
    (q : Uint256 × Uint256) :
    q ∈ (rl.addOrphan hash tx vMsg).mapOrphanTransactionsByPrev ↔
      q ∈ rl.mapOrphanTransactionsByPrev ∨ q.2 = hash ∧ q.1 ∈ tx.prevHashes := by
  have hfold : ∀ (vin : List CTxIn) (m : List (Uint256 × Uint256)),
      q ∈ vin.foldl (fun m txin => m ++ [(txin.prevout.hash, hash)]) m ↔
        q ∈ m ∨ q.2 = hash ∧ q.1 ∈ vin.map (fun txin => txin.prevout.hash) := by
    intro vin
    induction vin with
    | nil => simp
    | cons txin rest ih =>
      intro m
      rw [List.foldl_cons, ih, List.mem_append, List.mem_singleton, Prod.ext_iff, List.map_cons,
        List.mem_cons]
      tauto
  exact hfold tx.vin _

theorem mem_eraseOrphan (hash : Uint256) (tx : CTransaction) (rl : TxRelay)
    (q : Uint256 × Uint256) :
    q ∈ (rl.eraseOrphan hash tx).mapOrphanTransactionsByPrev ↔
      q ∈ rl.mapOrphanTransactionsByPrev ∧ ¬(q.2 = hash ∧ q.1 ∈ tx.prevHashes) := by
  have hfold : ∀ (vin : List CTxIn) (m : List (Uint256 × Uint256)),
      q ∈ vin.foldl (fun m txin =>
          m.filter (fun p => decide (¬(p.1 = txin.prevout.hash ∧ p.2 = hash)))) m ↔
        q ∈ m ∧ ¬(q.2 = hash ∧ q.1 ∈ vin.map (fun txin => txin.prevout.hash)) := by
    intro vin
    induction vin with
    | nil => simp
    | cons txin rest ih =>
      intro m
      rw [List.foldl_cons, ih, List.mem_filter, decide_eq_true_eq, List.map_cons, List.mem_cons]
      tauto
  exact hfold tx.vin _

theorem mem_orphansOf {hashPrev h : Uint256} (hparked : Parked env D rl) :
    h ∈ rl.orphansOf hashPrev ↔ ∃ t ∈ D, t.getHash env = h ∧ hashPrev ∈ t.prevHashes := by
  rw [← hparked.byPrev]
  simp [TxRelay.orphansOf]

theorem Parked.add (h : Parked env D rl) :
    Parked env (tx :: D) (rl.addOrphan (tx.getHash env) tx tx.serialize) where
  orphans x := by
    rw [poolMap_cons]
    by_cases hx : x = tx.getHash env
    · subst hx
      simp [TxRelay.addOrphan]
    · simp [TxRelay.addOrphan, hx, h.orphans]
  byPrev p x := by
    rw [mem_addOrphan, h.byPrev]
    simp only [List.mem_cons, exists_eq_or_imp]
    constructor
    · rintro (hold | ⟨rfl, hp⟩)
      · exact .inr hold
      · exact .inl ⟨rfl, hp⟩
    · rintro (⟨rfl, hp⟩ | hold)
      · exact .inr ⟨rfl, hp⟩
      · exact .inl hold

def without (env : Env) (W : List Uint256) (D : List CTransaction) : List CTransaction :=
  D.filter (fun t => decide (t.getHash env ∉ W))

theorem mem_without {W : List Uint256} {t : CTransaction} :
    t ∈ without env W D ↔ t ∈ D ∧ t.getHash env ∉ W := by
  simp [without]

theorem poolMap_without (D : List CTransaction) (W : List Uint256) (h : Uint256) :
    poolMap env (without env W D) h = if h ∈ W then none else poolMap env D h := by
  induction D with
  | nil => simp [poolMap, without]
  | cons t rest ih =>
    by_cases ht : t.getHash env ∈ W
    · rw [show without env W (t :: rest) = without env W rest by simp [without, ht], ih,
        poolMap_cons]
      split
      · rfl
      · next hh =>
        rw [Function.update_of_ne]
        rintro rfl
        exact hh ht
    · rw [show without env W (t :: rest) = t :: without env W rest by simp [without, ht],
        poolMap_cons, poolMap_cons]
      by_cases hh : h = t.getHash env
      · subst hh
        simp [ht]
      · simp only [Function.update_of_ne hh, ih]

theorem Parked.erase (h : Parked env D rl) (hD : HashesDiffer env D) (htx : tx ∈ D) :
    Parked env (without env [tx.getHash env] D) (rl.eraseOrphan (tx.getHash env) tx) where
  orphans x := by
    rw [poolMap_without]
    by_cases hx : x = tx.getHash env
    · subst hx
      simp [TxRelay.eraseOrphan]
    · simp [TxRelay.eraseOrphan, hx, h.orphans]
  byPrev p x := by
    rw [mem_eraseOrphan, h.byPrev]
    constructor
    · rintro ⟨⟨t, ht, rfl, hp⟩, hnot⟩
      refine ⟨t, mem_without.mpr ⟨ht, ?_⟩, rfl, hp⟩
      intro hmem
      rw [List.mem_singleton] at hmem
      obtain rfl := hD t ht tx htx hmem
      exact hnot ⟨rfl, hp⟩
    · rintro ⟨t, ht, rfl, hp⟩
      obtain ⟨ht, hne⟩ := mem_without.mp ht
      rw [List.mem_singleton] at hne
      exact ⟨⟨t, ht, rfl, hp⟩, fun hnot => hne hnot.1⟩

theorem without_append (W W' : List Uint256) (D : List CTransaction) :
    without env (W ++ W') D = without env W' (without env W D) := by
  simp only [without, List.filter_filter]
  congr 1
  funext t
  simp [Bool.and_comm]

theorem without_of_poolMap_none {h : Uint256} (hnone : poolMap env D h = none) :
    without env [h] D = D := by
  refine List.filter_eq_self.mpr ?_
  intro t ht
  rw [decide_eq_true_eq, List.mem_singleton]
  intro hhash
  have hsome : (poolMap env D h).isSome := poolMap_isSome.mpr ⟨t, ht, hhash⟩
  rw [hnone] at hsome
  cases hsome

theorem eraseOrphanTxs_parked (W : List Uint256) (hD : HashesDiffer env D)
    (hfits : ∀ t ∈ D, t.Fits) (h : Parked env D rl) :
    ∃ rl', exec (eraseOrphanTxs W) rl = (.ok (), rl') ∧ rl'.node = rl.node ∧
      Parked env (without env W D) rl' := by
  induction W generalizing D rl with
  | nil =>
    refine ⟨rl, rfl, rfl, ?_⟩
    rwa [show without env [] D = D by simp [without]]
  | cons hash rest ih =>
    have hstep : ∃ rl1, exec (eraseOrphanTx hash) rl = (.ok (), rl1) ∧ rl1.node = rl.node ∧
        Parked env (without env [hash] D) rl1 := by
      have horphan := h.orphans hash
      unfold eraseOrphanTx
      rw [exec_get_bind]
      cases hfind : poolMap env D hash with
      | none =>
        rw [hfind] at horphan
        simp only [horphan, Option.map_none]
        refine ⟨rl, rfl, rfl, ?_⟩
        rwa [without_of_poolMap_none hfind]
      | some tx =>
        obtain ⟨hmem, rfl⟩ := poolMap_some hfind
        rw [hfind] at horphan
        simp only [horphan, Option.map_some, readTx_serialize (hfits tx hmem), fromExcept,
          pure_bind, exec_modify]
        exact ⟨_, rfl, rfl, h.erase hD hmem⟩
    obtain ⟨rl1, hrun, hnode, hparked⟩ := hstep
    have hsub : without env [hash] D ⊆ D := fun t ht => (mem_without.mp ht).1
    obtain ⟨rl2, hrun2, hnode2, hparked2⟩ :=
      ih (hD.mono hsub) (fun t ht => hfits t (hsub ht)) hparked
    refine ⟨rl2, ?_, hnode2.trans hnode, ?_⟩
    · rw [eraseOrphanTxs, exec_bind_ok hrun]
      exact hrun2
    · rw [show hash :: rest = [hash] ++ rest from rfl, without_append]
      exact hparked2

end Parked

structure Working (e : NodeEnv) (s0 : NodeState) (S D A : List CTransaction) (rl : TxRelay) :
    Prop where
  pool : PoolIs e.env s0 A rl.node
  parked : Parked e.env D rl
  accepted : A ⊆ S
  waiting : D ⊆ S

def backlog (env : Env) (rl : TxRelay) (A : List CTransaction) : Nat :=
  ((rl.mapOrphanTransactionsByPrev.map Prod.snd).toFinset.filter
    (fun h => (poolMap env A h).isNone)).card

section Backlog

variable {env : Env} {rl : TxRelay} {A : List CTransaction} {tx : CTransaction}

theorem backlog_le (env : Env) (rl : TxRelay) (A : List CTransaction) :
    backlog env rl A ≤ rl.mapOrphanTransactionsByPrev.length := by
  calc backlog env rl A
      ≤ (rl.mapOrphanTransactionsByPrev.map Prod.snd).toFinset.card := Finset.card_filter_le _ _
    _ ≤ (rl.mapOrphanTransactionsByPrev.map Prod.snd).length := List.toFinset_card_le _
    _ = rl.mapOrphanTransactionsByPrev.length := List.length_map _

theorem backlog_cons (hmem : tx.getHash env ∈ rl.mapOrphanTransactionsByPrev.map Prod.snd)
    (hnew : poolMap env A (tx.getHash env) = none) :
    backlog env rl (tx :: A) + 1 = backlog env rl A := by
  have herase : (rl.mapOrphanTransactionsByPrev.map Prod.snd).toFinset.filter
        (fun h => (poolMap env (tx :: A) h).isNone) =
      ((rl.mapOrphanTransactionsByPrev.map Prod.snd).toFinset.filter
        (fun h => (poolMap env A h).isNone)).erase (tx.getHash env) := by
    ext h
    rw [Finset.mem_erase, Finset.mem_filter, Finset.mem_filter, poolMap_cons]
    by_cases hh : h = tx.getHash env
    · subst hh
      simp
    · simp [hh]
  unfold backlog
  rw [herase]
  refine Finset.card_erase_add_one ?_
  rw [Finset.mem_filter]
  exact ⟨by simpa using hmem, by simp [hnew]⟩

end Backlog

section Drain

variable {e : NodeEnv} {s0 : NodeState} {S D A : List CTransaction} {rl : TxRelay}
  {tx : CTransaction} {nNow : Nat}

theorem Parked.withNode {env : Env} (h : Parked env D rl) (node : NodeState) :
    Parked env D (rl.withNode node) := ⟨h.orphans, h.byPrev⟩

theorem Working.acceptTx_ready (hrel : Relayable e s0 S) (hnow : e.nNow ≤ nNow)
    (hw : Working e s0 S D A rl) (htx : tx ∈ S) (hnew : tx ∉ A)
    (hready : Ready s0 (poolMap e.env A) tx) :
    ∃ node, exec (acceptTx (e.atTime nNow) tx) rl = (.ok true, rl.withNode node) ∧
      Working e s0 S D (tx :: A) (rl.withNode node) := by
  obtain ⟨node, hrun, hpool⟩ := hrel.accept_ready hw.pool hw.accepted htx hnew hready hnow
    (rl.rateLimiter 0)
  refine ⟨node, ?_, hpool, hw.parked.withNode node, ?_, hw.waiting⟩
  · unfold acceptTx
    rw [exec_get_bind, hrun]
    rfl
  · exact List.cons_subset.mpr ⟨htx, hw.accepted⟩

theorem Working.acceptTx_refused (hrel : Relayable e s0 S) (hnow : e.nNow ≤ nNow)
    (hw : Working e s0 S D A rl) (htx : tx ∈ S)
    (hnot : tx ∈ A ∨ ¬Ready s0 (poolMap e.env A) tx) :
    exec (acceptTx (e.atTime nNow) tx) rl = (.ok false, rl.withNode rl.node) ∧
      Working e s0 S D A (rl.withNode rl.node) := by
  have hrun : ∃ msg, exec (acceptToMemoryPool (e.atTime nNow) tx true true (rl.rateLimiter 0))
      rl.node = (.error (.reject msg), rl.node) := by
    by_cases hmem : tx ∈ A
    · exact ⟨"", (hrel.accept_have hw.pool hw.accepted hmem hnow _).1⟩
    · exact (hrel.accept_waits hw.pool hw.accepted htx hmem (hnot.resolve_left hmem) hnow _).1
  obtain ⟨msg, hrun⟩ := hrun
  refine ⟨?_, hw.pool, hw.parked.withNode _, hw.accepted, hw.waiting⟩
  unfold acceptTx
  rw [exec_get_bind, hrun]
  rfl

structure Retried (e : NodeEnv) (s0 : NodeState) (S D A B : List CTransaction)
    (rl rl' : TxRelay) : Prop where
  working : Working e s0 S D (B ++ A) rl'
  fromParked : B ⊆ D
  byPrev : rl'.mapOrphanTransactionsByPrev = rl.mapOrphanTransactionsByPrev
  spent : backlog e.env rl (B ++ A) + B.length = backlog e.env rl A

theorem backlog_congr {env : Env} {rl rl' : TxRelay} (A : List CTransaction)
    (h : rl'.mapOrphanTransactionsByPrev = rl.mapOrphanTransactionsByPrev) :
    backlog env rl' A = backlog env rl A := by
  rw [backlog, h]
  rfl

theorem Retried.trans {B B' : List CTransaction} {rl1 rl2 : TxRelay}
    (h : Retried e s0 S D A B rl rl1) (h' : Retried e s0 S D (B ++ A) B' rl1 rl2) :
    Retried e s0 S D A (B' ++ B) rl rl2 where
  working := by
    rw [List.append_assoc]
    exact h'.working
  fromParked := List.append_subset.mpr ⟨h'.fromParked, h.fromParked⟩
  byPrev := h'.byPrev.trans h.byPrev
  spent := by
    have hspent := h'.spent
    rw [backlog_congr _ h.byPrev, backlog_congr _ h.byPrev] at hspent
    have hfirst := h.spent
    rw [List.append_assoc, List.length_append]
    omega

theorem retryOrphan_retried (hrel : Relayable e s0 S) (hnow : e.nNow ≤ nNow)
    (hfits : ∀ t ∈ D, t.Fits) (hprev : ∀ t ∈ D, t.prevHashes ≠ [])
    (hw : Working e s0 S D A rl) (htx : tx ∈ D) :
    ∃ B rl', exec (retryOrphan (e.atTime nNow) (tx.getHash e.env)) rl =
        (.ok (B.reverse.map (CTransaction.getHash e.env)), rl') ∧
      Retried e s0 S D A B rl rl' ∧ (Ready s0 (poolMap e.env A) tx → tx ∈ B ++ A) := by
  have hS := hw.waiting htx
  have hfind : poolMap e.env D (tx.getHash e.env) = some tx :=
    (hrel.hashes.mono hw.waiting).poolMap_iff.mpr ⟨htx, rfl⟩
  have horphan : rl.mapOrphanTransactions (tx.getHash e.env) = some tx.serialize := by
    rw [hw.parked.orphans, hfind]
    rfl
  unfold retryOrphan
  rw [exec_get_bind, horphan]
  simp only [fromOption, fromExcept, pure_bind, readTx_serialize (hfits tx htx)]
  by_cases hgo : tx ∉ A ∧ Ready s0 (poolMap e.env A) tx
  · obtain ⟨hnew, hready⟩ := hgo
    obtain ⟨node, hrun, hw'⟩ := hw.acceptTx_ready hrel hnow hS hnew hready
    refine ⟨[tx], rl.withNode node, ?_, ⟨hw', ?_, rfl, ?_⟩, fun _ => List.mem_cons_self⟩
    · rw [exec_bind_ok hrun]
      rfl
    · exact List.cons_subset.mpr ⟨htx, List.nil_subset _⟩
    · refine backlog_cons ?_ ?_
      · obtain ⟨p, hp⟩ := List.exists_mem_of_ne_nil _ (hprev tx htx)
        exact List.mem_map.mpr ⟨(p, tx.getHash e.env),
          (hw.parked.byPrev _ _).mpr ⟨tx, htx, rfl, hp⟩, rfl⟩
      · rw [← Option.not_isSome_iff_eq_none]
        intro hsome
        obtain ⟨t, ht, hhash⟩ := poolMap_isSome.mp hsome
        obtain rfl := hrel.hashes t (hw.accepted ht) tx hS hhash
        exact hnew ht
  · have hnot : tx ∈ A ∨ ¬Ready s0 (poolMap e.env A) tx := by tauto
    obtain ⟨hrun, hw'⟩ := hw.acceptTx_refused hrel hnow hS hnot
    refine ⟨[], rl.withNode rl.node, ?_, ⟨hw', List.nil_subset _, rfl, rfl⟩, ?_⟩
    · rw [exec_bind_ok hrun]
      rfl
    · intro hready
      exact hnot.resolve_right (not_not.mpr hready)

theorem Retried.refl (hw : Working e s0 S D A rl) : Retried e s0 S D A [] rl rl :=
  ⟨hw, List.nil_subset _, rfl, rfl⟩

theorem retryOrphans_retried (hrel : Relayable e s0 S) (hnow : e.nNow ≤ nNow)
    (hfits : ∀ t ∈ D, t.Fits) (hprev : ∀ t ∈ D, t.prevHashes ≠ []) {hs : List Uint256}
    (hw : Working e s0 S D A rl) (hhs : ∀ h ∈ hs, ∃ t ∈ D, t.getHash e.env = h) :
    ∃ B rl', exec (retryOrphans (e.atTime nNow) hs) rl =
        (.ok (B.reverse.map (CTransaction.getHash e.env)), rl') ∧
      Retried e s0 S D A B rl rl' ∧
      ∀ t ∈ D, t.getHash e.env ∈ hs → Ready s0 (poolMap e.env A) t → t ∈ B ++ A := by
  induction hs generalizing A rl with
  | nil => exact ⟨[], rl, rfl, Retried.refl hw, fun _ _ h => absurd h List.not_mem_nil⟩
  | cons h rest ih =>
    obtain ⟨tx, htx, rfl⟩ := hhs h List.mem_cons_self
    obtain ⟨B1, rl1, hrun1, hr1, hdone1⟩ := retryOrphan_retried hrel hnow hfits hprev hw htx
    obtain ⟨B2, rl2, hrun2, hr2, hdone2⟩ :=
      ih hr1.working (fun x hx => hhs x (List.mem_cons_of_mem _ hx))
    refine ⟨B2 ++ B1, rl2, ?_, hr1.trans hr2, ?_⟩
    · rw [retryOrphans, exec_bind_ok hrun1, exec_bind_ok hrun2, List.reverse_append,
        List.map_append]
      rfl
    · intro t ht hmem hready
      rw [List.append_assoc]
      rcases List.mem_cons.mp hmem with hhash | hmem
      · obtain rfl := hrel.hashes t (hw.waiting ht) tx (hw.waiting htx) hhash
        exact List.mem_append_right _ (hdone1 hready)
      · exact hdone2 t ht hmem (hready.mono (List.subset_append_right _ _))

def Covers (s0 : NodeState) (env : Env) (D A : List CTransaction) (q : List Uint256) : Prop :=
  ∀ t ∈ D, t ∉ A → Ready s0 (poolMap env A) t → ∃ h ∈ q, h ∈ t.prevHashes

theorem exists_new_parent {B : List CTransaction} {t : CTransaction} {env : Env}
    (hready : Ready s0 (poolMap env (B ++ A)) t) (hnot : ¬Ready s0 (poolMap env A) t) :
    ∃ b ∈ B, b.getHash env ∈ t.prevHashes := by
  unfold Ready at hnot
  push Not at hnot
  obtain ⟨txin, hin, hpool, hnone⟩ := hnot
  obtain ⟨b, hb, hhash⟩ := poolMap_isSome.mp (hready txin hin hpool)
  rcases List.mem_append.mp hb with hb | hb
  · exact ⟨b, hb, List.mem_map.mpr ⟨txin, hin, hhash.symm⟩⟩
  · exact absurd (poolMap_isSome.mpr ⟨b, hb, hhash⟩) hnone

theorem Covers.step {B : List CTransaction} {hashPrev : Uint256} {q : List Uint256} {env : Env}
    (h : Covers s0 env D A (hashPrev :: q))
    (hdone : ∀ t ∈ D, hashPrev ∈ t.prevHashes → Ready s0 (poolMap env A) t → t ∈ B ++ A) :
    Covers s0 env D (B ++ A) (q ++ B.reverse.map (CTransaction.getHash env)) := by
  intro t ht hnot hready
  by_cases hwas : Ready s0 (poolMap env A) t
  · obtain ⟨x, hx, hp⟩ := h t ht (fun hA => hnot (List.mem_append_right _ hA)) hwas
    rcases List.mem_cons.mp hx with rfl | hx
    · exact absurd (hdone t ht hp hwas) hnot
    · exact ⟨x, List.mem_append_left _ hx, hp⟩
  · obtain ⟨b, hb, hp⟩ := exists_new_parent hready hwas
    refine ⟨b.getHash env, List.mem_append_right _ ?_, hp⟩
    exact List.mem_map.mpr ⟨b, List.mem_reverse.mpr hb, rfl⟩

-- Each turn takes one hash off the queue and puts on one per orphan it admits, so the queue
-- together with the backlog loses one.
theorem drainQueue_retried (hrel : Relayable e s0 S) (hnow : e.nNow ≤ nNow)
    (hfits : ∀ t ∈ D, t.Fits) (hprev : ∀ t ∈ D, t.prevHashes ≠ []) {fuel : Nat}
    {q : List Uint256} (hw : Working e s0 S D A rl)
    (hfuel : q.length + backlog e.env rl A ≤ fuel) (hcovers : Covers s0 e.env D A q) :
    ∃ B rl', exec (drainQueue (e.atTime nNow) fuel q) rl =
        (.ok (q ++ B.reverse.map (CTransaction.getHash e.env)), rl') ∧
      Retried e s0 S D A B rl rl' ∧ Covers s0 e.env D (B ++ A) [] := by
  induction fuel generalizing A rl q with
  | zero =>
    obtain rfl : q = [] := List.length_eq_zero_iff.mp (by omega)
    exact ⟨[], rl, rfl, Retried.refl hw, hcovers⟩
  | succ fuel ih =>
    cases q with
    | nil => exact ⟨[], rl, rfl, Retried.refl hw, hcovers⟩
    | cons hashPrev q =>
      obtain ⟨B1, rl1, hrun1, hr1, hdone1⟩ := @retryOrphans_retried e s0 S D A rl nNow hrel hnow
        hfits hprev (rl.orphansOf hashPrev) hw (by
          intro h hh
          obtain ⟨t, ht, hhash, -⟩ := (mem_orphansOf hw.parked).mp hh
          exact ⟨t, ht, hhash⟩)
      have hcovers1 := hcovers.step (B := B1) (by
        intro t ht hp hready
        exact hdone1 t ht ((mem_orphansOf hw.parked).mpr ⟨t, ht, rfl, hp⟩) hready)
      have hfuel1 : (q ++ B1.reverse.map (CTransaction.getHash e.env)).length +
          backlog e.env rl1 (B1 ++ A) ≤ fuel := by
        have hspent := hr1.spent
        rw [backlog_congr _ hr1.byPrev]
        simp only [List.length_append, List.length_map, List.length_reverse]
        simp only [List.length_cons] at hfuel
        omega
      obtain ⟨B2, rl2, hrun2, hr2, hcovers2⟩ := ih hr1.working hfuel1 hcovers1
      refine ⟨B2 ++ B1, rl2, ?_, hr1.trans hr2, ?_⟩
      · rw [drainQueue, exec_get_bind, exec_bind_ok hrun1, exec_bind_ok hrun2,
          List.reverse_append, List.map_append, List.append_assoc]
        rfl
      · rw [List.append_assoc]
        exact hcovers2

end Drain

structure Relayed (e : NodeEnv) (s0 : NodeState) (S D A : List CTransaction) (rl : TxRelay) :
    Prop extends Working e s0 S D A rl where
  apart : ∀ t ∈ D, t ∉ A
  stuck : ∀ t ∈ D, ¬Ready s0 (poolMap e.env A) t

def TxMessage.Carries (m : TxMessage) (tx : CTransaction) : Prop :=
  ∃ rest, m.vRecv = tx.serialize ++ rest

section Process

variable {e : NodeEnv} {s0 : NodeState} {S D A : List CTransaction} {rl : TxRelay}
  {tx : CTransaction} {nNow : Nat}

theorem Relayable.prevHashes_ne (hrel : Relayable e s0 S) (htx : tx ∈ S) :
    tx.prevHashes ≠ [] := by
  have hvalid := (hrel.passes tx htx).loose.valid
  simp only [CTransaction.checkTransaction, Except.bind_eq_ok, Except.raiseIf_eq_ok] at hvalid
  obtain ⟨_, hempty, -⟩ := hvalid
  intro hnil
  exact hempty (.inl (List.map_eq_nil_iff.mp hnil))

theorem Relayed.receive_ready (hrel : Relayable e s0 S) (hfits : ∀ t ∈ S, t.Fits)
    (hnow : e.nNow ≤ nNow) (h : Relayed e s0 S D A rl) (htx : tx ∈ S) (hnew : tx ∉ A)
    (hready : Ready s0 (poolMap e.env A) tx) (rest : List UInt8) :
    ∃ D' A' rl', exec (processTx (e.atTime nNow) (tx.serialize ++ rest)) rl = (.ok (), rl') ∧
      Relayed e s0 S D' A' rl' ∧ ∀ t, t ∈ A ∨ t ∈ D ∨ t = tx → t ∈ A' ∨ t ∈ D' := by
  obtain ⟨node, hrun, hw⟩ := h.acceptTx_ready hrel hnow htx hnew hready
  have hfitsD : ∀ t ∈ D, t.Fits := fun t ht => hfits t (h.waiting ht)
  have hcovers : Covers s0 e.env D (tx :: A) [tx.getHash e.env] := by
    intro t ht _ hready'
    obtain ⟨b, hb, hp⟩ := @exists_new_parent s0 A [tx] t e.env hready' (h.stuck t ht)
    obtain rfl := List.mem_singleton.mp hb
    exact ⟨_, List.mem_singleton_self _, hp⟩
  have hfuel : [tx.getHash e.env].length + backlog e.env (rl.withNode node) (tx :: A) ≤
      rl.mapOrphanTransactionsByPrev.length + 1 := by
    have hle := backlog_le e.env (rl.withNode node) (tx :: A)
    have hlen : (rl.withNode node).mapOrphanTransactionsByPrev.length =
        rl.mapOrphanTransactionsByPrev.length := rfl
    rw [List.length_singleton]
    omega
  obtain ⟨B, rl1, hdrain, hr, hdone⟩ := drainQueue_retried hrel hnow hfitsD
    (fun t ht => hrel.prevHashes_ne (h.waiting ht)) hw hfuel hcovers
  obtain ⟨rl2, herase, hnode, hparked⟩ := eraseOrphanTxs_parked
    ([tx.getHash e.env] ++ B.reverse.map (CTransaction.getHash e.env))
    (hrel.hashes.mono h.waiting) hfitsD hr.working.parked
  have hqueue : ∀ t ∈ D, t.getHash e.env ∈
      [tx.getHash e.env] ++ B.reverse.map (CTransaction.getHash e.env) ↔ t = tx ∨ t ∈ B := by
    intro t ht
    simp only [List.singleton_append, List.mem_cons, List.mem_map, List.mem_reverse]
    constructor
    · rintro (hhash | ⟨b, hb, hhash⟩)
      · exact .inl (hrel.hashes t (h.waiting ht) tx htx hhash)
      · have hS : b ∈ S := h.waiting (hr.fromParked hb)
        rw [hrel.hashes t (h.waiting ht) b hS hhash.symm]
        exact .inr hb
    · rintro (rfl | hb)
      · exact .inl rfl
      · exact .inr ⟨t, hb, rfl⟩
  refine ⟨_, B ++ tx :: A, rl2, ?_, ⟨⟨?_, hparked, hr.working.accepted, ?_⟩, ?_, ?_⟩, ?_⟩
  · unfold processTx
    simp only [readTx_append (hfits tx htx), fromExcept, pure_bind]
    rw [exec_get_bind, exec_bind_ok hrun]
    simp only [if_true]
    rw [exec_bind_ok (show exec (drainQueue (e.atTime nNow) _ [tx.getHash (e.atTime nNow).env]) _ =
      _ from hdrain)]
    exact herase
  · rw [hnode]
    exact hr.working.pool
  · exact fun t ht => h.waiting (mem_without.mp ht).1
  · intro t ht hmem
    obtain ⟨htD, hout⟩ := mem_without.mp ht
    rw [hqueue t htD, not_or] at hout
    rcases List.mem_append.mp hmem with hb | hmem
    · exact hout.2 hb
    · rcases List.mem_cons.mp hmem with rfl | hA
      · exact hout.1 rfl
      · exact h.apart t htD hA
  · intro t ht hready'
    obtain ⟨htD, hout⟩ := mem_without.mp ht
    rw [hqueue t htD, not_or] at hout
    have hnot : t ∉ B ++ tx :: A := by
      rw [List.mem_append, List.mem_cons]
      rintro (hb | rfl | hA)
      · exact hout.2 hb
      · exact hout.1 rfl
      · exact h.apart t htD hA
    obtain ⟨x, hx, -⟩ := hdone t htD hnot hready'
    cases hx
  · rintro t (hA | hD | rfl)
    · exact .inl (List.mem_append_right _ (List.mem_cons_of_mem _ hA))
    · by_cases hout : t = tx ∨ t ∈ B
      · rcases hout with rfl | hb
        · exact .inl (List.mem_append_right _ List.mem_cons_self)
        · exact .inl (List.mem_append_left _ hb)
      · exact .inr (mem_without.mpr ⟨hD, fun hmem => hout ((hqueue t hD).mp hmem)⟩)
    · exact .inl (List.mem_append_right _ List.mem_cons_self)

theorem Relayed.receive_waits (hrel : Relayable e s0 S) (hfits : ∀ t ∈ S, t.Fits)
    (hnow : e.nNow ≤ nNow) (h : Relayed e s0 S D A rl) (htx : tx ∈ S) (hnew : tx ∉ A)
    (hready : ¬Ready s0 (poolMap e.env A) tx) (rest : List UInt8) :
    ∃ D' rl', exec (processTx (e.atTime nNow) (tx.serialize ++ rest)) rl = (.ok (), rl') ∧
      Relayed e s0 S D' A rl' ∧ ∀ t, t ∈ A ∨ t ∈ D ∨ t = tx → t ∈ A ∨ t ∈ D' := by
  obtain ⟨hrun, hw⟩ := h.acceptTx_refused hrel hnow htx (.inr hready)
  have hmissing := (hrel.accept_waits h.pool h.accepted htx hnew hready hnow true).2
  have hstart : exec (processTx (e.atTime nNow) (tx.serialize ++ rest)) rl =
      exec (addOrphanTx e.env tx.serialize) (rl.withNode rl.node) := by
    unfold processTx
    simp only [readTx_append (hfits tx htx), fromExcept, pure_bind, take_message]
    rw [exec_get_bind, exec_bind_ok hrun]
    simp only [Bool.false_eq_true, if_false, hmissing, doIf, if_true]
    rfl
  rw [hstart]
  unfold addOrphanTx
  simp only [readTx_serialize (hfits tx htx), fromExcept, pure_bind]
  rw [exec_get_bind, hw.parked.orphans]
  by_cases hmem : tx ∈ D
  · rw [(hrel.hashes.mono h.waiting).poolMap_iff.mpr ⟨hmem, rfl⟩]
    refine ⟨D, rl.withNode rl.node, rfl, ⟨hw, h.apart, h.stuck⟩, ?_⟩
    rintro t (hA | hD | rfl)
    · exact .inl hA
    · exact .inr hD
    · exact .inr hmem
  · have hnone : poolMap e.env D (tx.getHash e.env) = none := by
      rw [← Option.not_isSome_iff_eq_none]
      intro hsome
      obtain ⟨t, ht, hhash⟩ := poolMap_isSome.mp hsome
      rw [hrel.hashes t (h.waiting ht) tx htx hhash] at ht
      exact hmem ht
    rw [hnone]
    refine ⟨tx :: D, _, rfl, ⟨⟨hw.pool, hw.parked.add, hw.accepted, ?_⟩, ?_, ?_⟩, ?_⟩
    · exact List.cons_subset.mpr ⟨htx, h.waiting⟩
    · exact List.forall_mem_cons.mpr ⟨hnew, h.apart⟩
    · exact List.forall_mem_cons.mpr ⟨hready, h.stuck⟩
    · rintro t (hA | hD | rfl)
      · exact .inl hA
      · exact .inr (List.mem_cons_of_mem _ hD)
      · exact .inr List.mem_cons_self

theorem Relayed.receive_have (hrel : Relayable e s0 S) (hfits : ∀ t ∈ S, t.Fits)
    (hnow : e.nNow ≤ nNow) (h : Relayed e s0 S D A rl) (htx : tx ∈ A) (rest : List UInt8) :
    ∃ rl', exec (processTx (e.atTime nNow) (tx.serialize ++ rest)) rl = (.ok (), rl') ∧
      Relayed e s0 S D A rl' := by
  obtain ⟨hrun, hw⟩ := h.acceptTx_refused hrel hnow (h.accepted htx) (.inl htx)
  have hmissing := (hrel.accept_have h.pool h.accepted htx hnow true).2
  refine ⟨rl.withNode rl.node, ?_, hw, h.apart, h.stuck⟩
  unfold processTx
  simp only [readTx_append (hfits tx (h.accepted htx)), fromExcept, pure_bind]
  rw [exec_get_bind, exec_bind_ok hrun]
  simp only [Bool.false_eq_true, if_false, hmissing, doIf]
  rfl

theorem Relayed.receive (hrel : Relayable e s0 S) (hfits : ∀ t ∈ S, t.Fits)
    (hnow : e.nNow ≤ nNow) (h : Relayed e s0 S D A rl) (htx : tx ∈ S) (rest : List UInt8) :
    ∃ D' A' rl', exec (processTx (e.atTime nNow) (tx.serialize ++ rest)) rl = (.ok (), rl') ∧
      Relayed e s0 S D' A' rl' ∧ ∀ t, t ∈ A ∨ t ∈ D ∨ t = tx → t ∈ A' ∨ t ∈ D' := by
  by_cases hmem : tx ∈ A
  · obtain ⟨rl', hrun, h'⟩ := h.receive_have hrel hfits hnow hmem rest
    refine ⟨D, A, rl', hrun, h', ?_⟩
    rintro t (hA | hD | rfl)
    · exact .inl hA
    · exact .inr hD
    · exact .inl hmem
  · by_cases hready : Ready s0 (poolMap e.env A) tx
    · exact h.receive_ready hrel hfits hnow htx hmem hready rest
    · obtain ⟨D', rl', hrun, h', hkeep⟩ := h.receive_waits hrel hfits hnow htx hmem hready rest
      exact ⟨D', A, rl', hrun, h', hkeep⟩

end Process

end Namecoin
