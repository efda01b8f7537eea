import Namecoin.Lib.Simulation
import Namecoin.Node.OrphanHeap

namespace Namecoin

open Act Simulation

namespace OrphanRelay

variable {P : Type}

def streamHash (env : Env) : Option (List UInt8) → Uint256
  | none => 0
  | some vMsg =>
    match readTx vMsg with
    | .ok tx => tx.getHash env
    | .error _ => 0

-- The key under which the stream at a pointer is stored is the hash of what it holds.
def hashAt (env : Env) (rl : OrphanRelay P) (pvMsg : P) : Uint256 := streamHash env (rl.heap pvMsg)

def view (env : Env) (rl : OrphanRelay P) : TxRelay where
  node := rl.node
  mapOrphanTransactions hash := (rl.mapOrphanTransactions hash).bind rl.heap
  mapOrphanTransactionsByPrev := rl.mapOrphanTransactionsByPrev.map (Prod.map id (rl.hashAt env))
  rateLimiter := rl.rateLimiter

end OrphanRelay

section Maps

variable {P : Type} {env : Env} {L : List (Orphan P)} {rl : OrphanRelay P} {o : Orphan P}

theorem OrphansAre.hashAt_eq (h : OrphansAre env L rl) (ho : o ∈ L) :
    rl.hashAt env o.pvMsg = o.hash := by
  obtain ⟨vMsg, hlive, hread⟩ := h.live o ho
  rw [OrphanRelay.hashAt, hlive, OrphanRelay.streamHash, hread]
  exact h.hashed o ho

theorem OrphansAre.view_stored (h : OrphansAre env L rl) (ho : o ∈ L) :
    (rl.view env).mapOrphanTransactions o.hash = rl.heap o.pvMsg := by
  change (rl.mapOrphanTransactions o.hash).bind rl.heap = _
  rw [(h.stored o.hash o.pvMsg).mpr ⟨o, ho, rfl, rfl⟩, Option.bind_some]

theorem OrphansAre.view_isNone (h : OrphansAre env L rl) (hash : Uint256) :
    ((rl.view env).mapOrphanTransactions hash).isNone =
      (rl.mapOrphanTransactions hash).isNone := by
  change ((rl.mapOrphanTransactions hash).bind rl.heap).isNone = _
  cases hstored : rl.mapOrphanTransactions hash with
  | none => rfl
  | some pvMsg =>
    obtain ⟨o, ho, -, rfl⟩ := (h.stored hash pvMsg).mp hstored
    obtain ⟨vMsg, hlive, -⟩ := h.live o ho
    rw [Option.bind_some, hlive]
    rfl

theorem OrphansAre.entry (h : OrphansAre env L rl) {q : Uint256 × P}
    (hq : q ∈ rl.mapOrphanTransactionsByPrev) : ∃ o ∈ L, q ∈ o.entries ∧ q.2 = o.pvMsg := by
  obtain ⟨o, ho, hentry⟩ := List.mem_flatMap.mp (h.byPrev.mem_iff.mp hq)
  obtain ⟨txin, -, hq⟩ := List.mem_map.mp hentry
  exact ⟨o, ho, hentry, (congrArg Prod.snd hq).symm⟩

-- the range of a key is the same list of orphans under either kind of key
theorem OrphansAre.range_eq (h : OrphansAre env L rl) (hashPrev : Uint256) :
    ∃ os : List (Orphan P), (∀ o ∈ os, o ∈ L) ∧ rl.rangeOf hashPrev = os.map Orphan.pvMsg ∧
      (rl.view env).orphansOf hashPrev = os.map Orphan.hash := by
  have hlist : ∀ m : List (Uint256 × P), (∀ q ∈ m, ∃ o ∈ L, q ∈ o.entries ∧ q.2 = o.pvMsg) →
      ∃ os : List (Orphan P), (∀ o ∈ os, o ∈ L) ∧ m.map Prod.snd = os.map Orphan.pvMsg ∧
        m.map (fun q => rl.hashAt env q.2) = os.map Orphan.hash := by
    intro m hm
    induction m with
    | nil => exact ⟨[], by simp, rfl, rfl⟩
    | cons q m ih =>
      obtain ⟨o, ho, -, hpvMsg⟩ := hm q List.mem_cons_self
      obtain ⟨os, hos, hpointers, hhashes⟩ := ih fun q hq => hm q (List.mem_cons_of_mem _ hq)
      refine ⟨o :: os, List.forall_mem_cons.mpr ⟨ho, hos⟩, ?_, ?_⟩
      · rw [List.map_cons, List.map_cons, hpointers, hpvMsg]
      · rw [List.map_cons, List.map_cons, hhashes, hpvMsg, h.hashAt_eq ho]
  obtain ⟨os, hos, hpointers, hhashes⟩ := hlist
    (rl.mapOrphanTransactionsByPrev.filter (fun q => decide (q.1 = hashPrev)))
    (fun q hq => h.entry (List.mem_of_mem_filter hq))
  refine ⟨os, hos, hpointers, ?_⟩
  rw [← hhashes, TxRelay.orphansOf, OrphanRelay.view, List.filter_map, List.map_map]
  rfl

variable [DecidableEq P]

theorem OrphansAre.view_insert (h : OrphansAre env L rl) {pvMsg : P} (hnew : rl.heap pvMsg = none)
    {tx : CTransaction} {vMsg : List UInt8} (hread : readTx vMsg = .ok tx) :
    (rl.insertOrphan (tx.getHash env) pvMsg tx vMsg).view env =
      (rl.view env).addOrphan (tx.getHash env) tx vMsg := by
  have hfresh := h.fresh hnew
  have hold : ∀ p, p ≠ pvMsg →
      (rl.insertOrphan (tx.getHash env) pvMsg tx vMsg).hashAt env p = rl.hashAt env p :=
    fun p hp => congrArg (OrphanRelay.streamHash env) (Function.update_of_ne hp _ _)
  have hthis : (rl.insertOrphan (tx.getHash env) pvMsg tx vMsg).hashAt env pvMsg =
      tx.getHash env := by
    have hself := Function.update_self pvMsg (some vMsg) rl.heap
    refine (congrArg (OrphanRelay.streamHash env) hself).trans ?_
    rw [OrphanRelay.streamHash, hread]
  have hstored : (fun hash => (Function.update rl.mapOrphanTransactions (tx.getHash env) (some pvMsg)
      hash).bind (Function.update rl.heap pvMsg (some vMsg))) =
      Function.update (rl.view env).mapOrphanTransactions (tx.getHash env) (some vMsg) := by
    funext x
    rw [Function.update_apply, Function.update_apply]
    split
    · rw [Option.bind_some, Function.update_self]
    · change _ = (rl.mapOrphanTransactions x).bind rl.heap
      cases hx : rl.mapOrphanTransactions x with
      | none => rfl
      | some p =>
        obtain ⟨o, ho, -, rfl⟩ := (h.stored x p).mp hx
        rw [Option.bind_some, Option.bind_some, Function.update_of_ne (hfresh o ho)]
  have hbyPrev : (rl.insertOrphan (tx.getHash env) pvMsg tx vMsg).mapOrphanTransactionsByPrev.map
      (Prod.map id ((rl.insertOrphan (tx.getHash env) pvMsg tx vMsg).hashAt env)) =
      tx.vin.foldl (fun m txin => m ++ [(txin.prevout.hash, tx.getHash env)])
        (rl.view env).mapOrphanTransactionsByPrev := by
    rw [foldl_insert]
    change (tx.vin.foldl _ rl.mapOrphanTransactionsByPrev).map _ = _
    rw [foldl_insert, List.map_append, List.map_map]
    refine congrArg₂ _ (List.map_congr_left fun q hq => ?_) (List.map_congr_left fun txin _ => ?_)
    · obtain ⟨o, ho, -, hpvMsg⟩ := h.entry hq
      exact Prod.ext rfl (hold q.2 (hpvMsg ▸ hfresh o ho))
    · exact Prod.ext rfl hthis
  rw [OrphanRelay.view, hbyPrev]
  exact congrArg (fun m => TxRelay.mk rl.node m _ rl.rateLimiter) hstored

theorem OrphansAre.view_delete (h : OrphansAre env L rl) (ho : o ∈ L) :
    (rl.deleteOrphan o.hash o.pvMsg o.tx).view env = (rl.view env).eraseOrphan o.hash o.tx := by
  have hpointer : ∀ o' ∈ L, o'.pvMsg = o.pvMsg → o' = o := fun o' ho' heq =>
    List.inj_on_of_nodup_map h.pointers ho' ho heq
  have hhash : ∀ o' ∈ L, o'.hash = o.hash → o' = o := fun o' ho' heq =>
    List.inj_on_of_nodup_map h.hashes ho' ho heq
  have hold : ∀ p, p ≠ o.pvMsg →
      (rl.deleteOrphan o.hash o.pvMsg o.tx).hashAt env p = rl.hashAt env p :=
    fun p hp => congrArg (OrphanRelay.streamHash env) (Function.update_of_ne hp _ _)
  have hstored : (fun hash => (Function.update rl.mapOrphanTransactions o.hash none hash).bind
      (Function.update rl.heap o.pvMsg none)) =
      Function.update (rl.view env).mapOrphanTransactions o.hash none := by
    funext x
    rw [Function.update_apply, Function.update_apply]
    split
    · rfl
    · next hne =>
      change _ = (rl.mapOrphanTransactions x).bind rl.heap
      cases hx : rl.mapOrphanTransactions x with
      | none => rfl
      | some p =>
        obtain ⟨o', ho', rfl, rfl⟩ := (h.stored x p).mp hx
        rw [Option.bind_some, Option.bind_some,
          Function.update_of_ne fun heq => hne (congrArg Orphan.hash (hpointer o' ho' heq))]
  have hentry : ∀ q ∈ rl.mapOrphanTransactionsByPrev,
      ((q.1, rl.hashAt env q.2) ∈ o.tx.vin.map fun txin => (txin.prevout.hash, o.hash)) ↔
        q ∈ o.tx.vin.map fun txin => (txin.prevout.hash, o.pvMsg) := by
    intro q hq
    obtain ⟨o', ho', -, hpvMsg⟩ := h.entry hq
    rw [List.mem_map, List.mem_map, hpvMsg, h.hashAt_eq ho']
    constructor
    · rintro ⟨txin, hin, heq⟩
      obtain rfl := hhash o' ho' (congrArg Prod.snd heq).symm
      have hkey : txin.prevout.hash = q.1 := congrArg Prod.fst heq
      exact ⟨txin, hin, Prod.ext hkey hpvMsg.symm⟩
    · rintro ⟨txin, hin, rfl⟩
      obtain rfl := hpointer o' ho' hpvMsg.symm
      exact ⟨txin, hin, rfl⟩
  have hbyPrev : (rl.deleteOrphan o.hash o.pvMsg o.tx).mapOrphanTransactionsByPrev.map
      (Prod.map id ((rl.deleteOrphan o.hash o.pvMsg o.tx).hashAt env)) =
      o.tx.vin.foldl
        (fun m txin => m.filter (fun q => decide (¬(q.1 = txin.prevout.hash ∧ q.2 = o.hash))))
        (rl.view env).mapOrphanTransactionsByPrev := by
    rw [foldl_delete]
    change (o.tx.vin.foldl _ rl.mapOrphanTransactionsByPrev).map _ = _
    rw [foldl_delete, OrphanRelay.view, List.filter_map]
    have hfilter : rl.mapOrphanTransactionsByPrev.filter
        ((fun q => decide (¬q ∈ o.tx.vin.map fun txin => (txin.prevout.hash, o.hash))) ∘
          Prod.map id (rl.hashAt env)) = rl.mapOrphanTransactionsByPrev.filter
        (fun q => decide (¬q ∈ o.tx.vin.map fun txin => (txin.prevout.hash, o.pvMsg))) :=
      List.filter_congr fun q hq => decide_eq_decide.mpr (not_congr (hentry q hq))
    rw [hfilter]
    refine List.map_congr_left fun q hq => ?_
    obtain ⟨hin, hkept⟩ := List.mem_filter.mp hq
    obtain ⟨o', ho', hown, hpvMsg⟩ := h.entry hin
    refine Prod.ext rfl (hold q.2 fun heq => of_decide_eq_true hkept ?_)
    obtain rfl := hpointer o' ho' (hpvMsg.symm.trans heq)
    exact hown
  rw [OrphanRelay.view, hbyPrev]
  exact congrArg (fun m => TxRelay.mk rl.node m _ rl.rateLimiter) hstored

end Maps

section Programs

variable {P : Type} {env : Env} {L : List (Orphan P)} {rl : OrphanRelay P}

namespace OrphanRelay

theorem acceptTx_view (e : NodeEnv) (tx : CTransaction) (rl : OrphanRelay P) :
    Imitates (view env) (Namecoin.acceptTx e tx) (acceptTx e tx) rl := by
  refine imitates_get_bind (imitates_bind (imitates_modify rfl) fun _ rl' _ => ?_)
  have hnode : (rl.view env).node = rl.node := rfl
  have hlimit : (rl.view env).rateLimiter = rl.rateLimiter := rfl
  rw [hnode, hlimit]
  cases (exec (acceptToMemoryPool e tx true true (rl.rateLimiter 0)) rl.node).1 with
  | ok u => exact imitates_pure true
  | error fault =>
    cases fault with
    | reject msg => exact imitates_pure false
    | _ => exact imitates_throw _

theorem retryOrphan_view (h : OrphansAre env L rl) {o : Orphan P} (ho : o ∈ L) (e : NodeEnv) :
    Imitates (view env) (Namecoin.retryOrphan e o.hash) (retryOrphan e o.pvMsg) rl :=
  imitates_get_bind (imitates_bind (imitates_fromOption (h.view_stored ho)) fun _ _ _ =>
    imitates_bind (imitates_fromExcept _) fun tx rl' _ =>
      imitates_bind (acceptTx_view e tx rl') fun _ _ _ => imitates_pure _)

theorem retryOrphans_view (h : OrphansAre env L rl) {os : List (Orphan P)} (hos : ∀ o ∈ os, o ∈ L)
    (e : NodeEnv) : Imitates (view env) (Namecoin.retryOrphans e (os.map Orphan.hash))
      (retryOrphans e (os.map Orphan.pvMsg)) rl := by
  induction os generalizing rl with
  | nil => exact imitates_pure []
  | cons o os ih =>
    obtain ⟨ho, hrest⟩ := List.forall_mem_cons.mp hos
    refine imitates_bind (retryOrphan_view h ho e) fun vFirst rl' hrun => ?_
    have hsame := retryOrphan_same e o.pvMsg rl
    rw [hrun] at hsame
    exact imitates_bind (ih (hsame.orphansAre h) hrest) fun _ _ _ => imitates_pure _

theorem drainQueue_view (h : OrphansAre env L rl) (e : NodeEnv) (fuel : Nat)
    (vWorkQueue : List Uint256) : Imitates (view env) (Namecoin.drainQueue e fuel vWorkQueue)
      (drainQueue e fuel vWorkQueue) rl := by
  induction fuel generalizing rl vWorkQueue with
  | zero =>
    cases vWorkQueue with
    | nil => exact imitates_pure []
    | cons hashPrev rest => exact imitates_throw _
  | succ fuel ih =>
    cases vWorkQueue with
    | nil => exact imitates_pure []
    | cons hashPrev rest =>
      obtain ⟨os, hos, hpointers, hhashes⟩ := h.range_eq hashPrev
      refine imitates_get_bind (imitates_bind ?_ fun vNew rl' hrun => ?_)
      · rw [hpointers, hhashes]
        exact retryOrphans_view h hos e
      · have hsame := retryOrphans_same e (rl.rangeOf hashPrev) rl
        rw [hrun] at hsame
        exact imitates_bind (ih (hsame.orphansAre h) _) fun _ _ _ => imitates_pure _

variable [DecidableEq P]

theorem eraseOrphanTx_view (h : OrphansAre env L rl) (hash : Uint256) :
    Imitates (view env) (Namecoin.eraseOrphanTx hash) (eraseOrphanTx hash) rl := by
  refine imitates_get_bind ?_
  cases hstored : rl.mapOrphanTransactions hash with
  | none =>
    have hnone : (rl.view env).mapOrphanTransactions hash = none := by
      change (rl.mapOrphanTransactions hash).bind rl.heap = none
      rw [hstored, Option.bind_none]
    rw [hnone]
    exact imitates_pure ()
  | some pvMsg =>
    obtain ⟨o, ho, rfl, rfl⟩ := (h.stored hash pvMsg).mp hstored
    obtain ⟨vMsg, hlive, hread⟩ := h.live o ho
    rw [h.view_stored ho]
    simp only [hlive, fromOption, hread, fromExcept, pure_bind]
    exact imitates_modify (h.view_delete ho).symm

theorem eraseOrphanTxs_view (h : OrphansAre env L rl) (hashes : List Uint256) :
    Imitates (view env) (Namecoin.eraseOrphanTxs hashes) (eraseOrphanTxs hashes) rl := by
  induction hashes generalizing rl L with
  | nil => exact imitates_pure ()
  | cons hash rest ih =>
    refine imitates_bind (eraseOrphanTx_view h hash) fun u rl' hrun => ?_
    obtain ⟨L', h'⟩ := eraseOrphanTx_are h hash
    rw [hrun] at h'
    exact ih h'

theorem addOrphanTx_view (h : OrphansAre env L rl) {pvMsg : P} (hnew : rl.heap pvMsg = none)
    (vMsg : List UInt8) :
    Imitates (view env) (Namecoin.addOrphanTx env vMsg) (addOrphanTx env pvMsg vMsg) rl := by
  refine imitates_bind (imitates_fromExcept _) fun tx rl' hrun => ?_
  obtain ⟨hread, rfl⟩ := fromExcept_ok.mp hrun
  refine imitates_get_bind (imitates_doIf ?_ fun _ => imitates_modify ?_)
  · rw [h.view_isNone]
  · exact (h.view_insert hnew hread).symm

theorem processTx_view {e : NodeEnv} (h : OrphansAre e.env L rl) {pvMsg : P}
    (hnew : rl.heap pvMsg = none) (vRecv : List UInt8) :
    Imitates (view e.env) (Namecoin.processTx e vRecv) (processTx e pvMsg vRecv) rl := by
  refine imitates_bind (imitates_fromExcept _) fun tx rl₀ hread => ?_
  obtain ⟨-, rfl⟩ := fromExcept_ok.mp hread
  refine imitates_get_bind (imitates_bind (acceptTx_view e tx rl) fun fAccepted rl₁ haccept => ?_)
  have hsame := acceptTx_same e tx rl
  rw [haccept] at hsame
  have hare := hsame.orphansAre h
  cases fAccepted with
  | true =>
    rw [if_pos rfl, if_pos rfl]
    refine imitates_bind ?_ fun vWorkQueue rl₂ hdrain => ?_
    · have hlength : (rl.view e.env).mapOrphanTransactionsByPrev.length =
          rl.mapOrphanTransactionsByPrev.length := List.length_map _
      rw [hlength]
      exact drainQueue_view hare e _ _
    · have hdrained := drainQueue_same e (rl.mapOrphanTransactionsByPrev.length + 1)
        [tx.getHash e.env] rl₁
      rw [hdrain] at hdrained
      exact eraseOrphanTxs_view (hdrained.orphansAre hare) vWorkQueue
  | false =>
    rw [if_neg Bool.false_ne_true, if_neg Bool.false_ne_true]
    refine imitates_doIf Iff.rfl fun _ => addOrphanTx_view hare ?_ _
    exact (congrFun hsame.heap pvMsg).trans hnew

-- A tx message with the address that operator new gives if the message is stored.
structure HeapMessage (P : Type) extends TxMessage where
  pvMsg : P

def receive (e : NodeEnv) (rl : OrphanRelay P) (m : HeapMessage P) :
    Except Fault Unit × OrphanRelay P :=
  exec (processTx (e.atTime m.nNow) m.pvMsg m.vRecv) rl

def receiveView (e : NodeEnv) (rl : TxRelay) (m : HeapMessage P) : Except Fault Unit × TxRelay :=
  exec (Namecoin.processTx (e.atTime m.nNow) m.vRecv) rl

theorem relay_simulates (e : NodeEnv) :
    Simulates (receive e) (receiveView e) (view e.env)
      (fun rl : OrphanRelay P => ∃ L, OrphansAre e.env L rl) (fun rl m => rl.heap m.pvMsg = none) where
  keeps _ m := fun ⟨_, h⟩ hnew => processTx_are (e := e.atTime m.nNow) h hnew m.vRecv
  output _ m := fun ⟨_, h⟩ hnew =>
    congrArg Prod.fst (processTx_view (e := e.atTime m.nNow) h hnew m.vRecv).symm
  state _ m := fun ⟨_, h⟩ hnew =>
    congrArg Prod.snd (processTx_view (e := e.atTime m.nNow) h hnew m.vRecv).symm

-- The maps keyed by hashes answer every sequence of messages as the maps of pointers do.
theorem relay_refines {e : NodeEnv} {start : OrphanRelay P} (hstart : start.NoOrphans)
    {msgs : List (HeapMessage P)}
    (hnew : Allowed (receive e) (fun rl m => rl.heap m.pvMsg = none) start msgs) :
    (trace (receive e) start msgs).map (Prod.map id (view e.env)) =
      trace (receiveView e) (start.view e.env) msgs :=
  (relay_simulates e).trace_eq ⟨[], hstart.are⟩ hnew

end OrphanRelay

end Programs

end Namecoin
