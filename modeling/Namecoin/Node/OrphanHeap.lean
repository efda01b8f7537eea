import Namecoin.Node.MissingInputs

namespace Namecoin

open Act

-- The orphan maps with the stream pointers themselves: heap is what the live CDataStream objects
-- hold, and a tx message carries the address operator new gives if the message is stored.
structure OrphanRelay (P : Type) where
  node : NodeState
  heap : P → Option (List UInt8)
  mapOrphanTransactions : Uint256 → Option P
  mapOrphanTransactionsByPrev : List (Uint256 × P)
  rateLimiter : Nat → Bool

namespace OrphanRelay

variable {P : Type} [DecidableEq P]

def withNode (rl : OrphanRelay P) (node : NodeState) : OrphanRelay P :=
  { rl with node := node, rateLimiter := fun n => rl.rateLimiter (n + 1) }

def rangeOf (rl : OrphanRelay P) (hashPrev : Uint256) : List P :=
  (rl.mapOrphanTransactionsByPrev.filter (fun q => decide (q.1 = hashPrev))).map Prod.snd

def insertOrphan (hash : Uint256) (pvMsg : P) (tx : CTransaction) (vMsg : List UInt8)
    (rl : OrphanRelay P) : OrphanRelay P :=
  { rl with
    heap := Function.update rl.heap pvMsg (some vMsg)
    mapOrphanTransactions := Function.update rl.mapOrphanTransactions hash (some pvMsg)
    mapOrphanTransactionsByPrev :=
      tx.vin.foldl (fun m txin => m ++ [(txin.prevout.hash, pvMsg)]) rl.mapOrphanTransactionsByPrev }

def deleteOrphan (hash : Uint256) (pvMsg : P) (tx : CTransaction) (rl : OrphanRelay P) :
    OrphanRelay P :=
  { rl with
    mapOrphanTransactionsByPrev := tx.vin.foldl
      (fun m txin => m.filter (fun q => decide (¬(q.1 = txin.prevout.hash ∧ q.2 = pvMsg))))
      rl.mapOrphanTransactionsByPrev
    heap := Function.update rl.heap pvMsg none
    mapOrphanTransactions := Function.update rl.mapOrphanTransactions hash none }

def acceptTx (e : NodeEnv) (tx : CTransaction) : Act Fault (OrphanRelay P) Bool := do
  let rl ← get
  let r := exec (acceptToMemoryPool e tx true true (rl.rateLimiter 0)) rl.node
  modify (fun rl => rl.withNode r.2)
  match r.1 with
  | .ok () => pure true
  | .error (.reject _) => pure false
  | .error fault => throw fault

def addOrphanTx (env : Env) (pvMsg : P) (vMsg : List UInt8) : Act Fault (OrphanRelay P) Unit := do
  let tx ← fromExcept (readTx vMsg)
  let hash := tx.getHash env
  let rl ← get
  doIf ((rl.mapOrphanTransactions hash).isNone) (modify (insertOrphan hash pvMsg tx vMsg))

def eraseOrphanTx (hash : Uint256) : Act Fault (OrphanRelay P) Unit := do
  let rl ← get
  match rl.mapOrphanTransactions hash with
  | none => pure ()
  | some pvMsg => do
    let vMsg ← fromOption .undefined (rl.heap pvMsg)
    let tx ← fromExcept (readTx vMsg)
    modify (deleteOrphan hash pvMsg tx)

def eraseOrphanTxs : List Uint256 → Act Fault (OrphanRelay P) Unit
  | [] => pure ()
  | hash :: rest => do
    eraseOrphanTx hash
    eraseOrphanTxs rest

def retryOrphan (e : NodeEnv) (pvMsg : P) : Act Fault (OrphanRelay P) (List Uint256) := do
  let rl ← get
  let vMsg ← fromOption .undefined (rl.heap pvMsg)
  let tx ← fromExcept (readTx vMsg)
  let fAccepted ← acceptTx e tx
  pure (if fAccepted then [tx.getHash e.env] else [])

def retryOrphans (e : NodeEnv) : List P → Act Fault (OrphanRelay P) (List Uint256)
  | [] => pure []
  | pvMsg :: rest => do
    let vFirst ← retryOrphan e pvMsg
    let vRest ← retryOrphans e rest
    pure (vFirst ++ vRest)

def drainQueue (e : NodeEnv) : Nat → List Uint256 → Act Fault (OrphanRelay P) (List Uint256)
  | _, [] => pure []
  | 0, _ :: _ => throw .undefined
  | fuel + 1, hashPrev :: vWorkQueue => do
    let rl ← get
    let vNew ← retryOrphans e (rl.rangeOf hashPrev)
    let vRest ← drainQueue e fuel (vWorkQueue ++ vNew)
    pure (hashPrev :: vRest)

def processTx (e : NodeEnv) (pvMsg : P) (vRecv : List UInt8) : Act Fault (OrphanRelay P) Unit := do
  let tx ← fromExcept (readTx vRecv)
  let vMsg := vRecv.take tx.getSerializeSize
  let rl ← get
  let fAccepted ← acceptTx e tx
  if fAccepted then do
    let vWorkQueue ← drainQueue e (rl.mapOrphanTransactionsByPrev.length + 1) [tx.getHash e.env]
    eraseOrphanTxs vWorkQueue
  else doIf (fMissingInputs e tx rl.node) (addOrphanTx e.env pvMsg vMsg)

inductive TxStep (env : Env) : OrphanRelay P → OrphanRelay P → Prop
  | tx {rl : OrphanRelay P} (e : NodeEnv) (henv : e.env = env) (pvMsg : P) (vRecv : List UInt8)
      (hnew : rl.heap pvMsg = none) : TxStep env rl (exec (processTx e pvMsg vRecv) rl).2
  | elsewhere {rl : OrphanRelay P} (node : NodeState) (heap : P → Option (List UInt8))
      (rateLimiter : Nat → Bool)
      (hheap : ∀ h pvMsg, rl.mapOrphanTransactions h = some pvMsg → heap pvMsg = rl.heap pvMsg) :
      TxStep env rl { rl with node := node, heap := heap, rateLimiter := rateLimiter }

structure NoOrphans (rl : OrphanRelay P) : Prop where
  orphans : rl.mapOrphanTransactions = fun _ => none
  byPrev : rl.mapOrphanTransactionsByPrev = []

end OrphanRelay

structure Orphan (P : Type) where
  hash : Uint256
  pvMsg : P
  tx : CTransaction

def Orphan.entries {P : Type} (o : Orphan P) : List (Uint256 × P) :=
  o.tx.vin.map fun txin => (txin.prevout.hash, o.pvMsg)

structure OrphansAre {P : Type} (env : Env) (L : List (Orphan P)) (rl : OrphanRelay P) : Prop where
  hashes : (L.map Orphan.hash).Nodup
  pointers : (L.map Orphan.pvMsg).Nodup
  stored : ∀ h pvMsg, rl.mapOrphanTransactions h = some pvMsg ↔
    ∃ o ∈ L, o.hash = h ∧ o.pvMsg = pvMsg
  live : ∀ o ∈ L, ∃ vMsg, rl.heap o.pvMsg = some vMsg ∧ readTx vMsg = .ok o.tx
  hashed : ∀ o ∈ L, o.tx.getHash env = o.hash
  byPrev : rl.mapOrphanTransactionsByPrev.Perm (L.flatMap Orphan.entries)

theorem filter_flatMap_eq {α β : Type} {f : α → List β} {g : β → Bool} {keep : α → Bool}
    {l : List α} (hkeep : ∀ a ∈ l, keep a = true → ∀ b ∈ f a, g b = true)
    (hdrop : ∀ a ∈ l, keep a = false → ∀ b ∈ f a, g b = false) :
    (l.flatMap f).filter g = (l.filter keep).flatMap f := by
  induction l with
  | nil => rfl
  | cons a l ih =>
    have hrest := ih (fun x hx => hkeep x (List.mem_cons_of_mem a hx))
      (fun x hx => hdrop x (List.mem_cons_of_mem a hx))
    rw [List.flatMap_cons, List.filter_append, hrest]
    cases ha : keep a with
    | true =>
      rw [List.filter_cons_of_pos ha, List.flatMap_cons,
        List.filter_eq_self.mpr (hkeep a List.mem_cons_self ha)]
    | false =>
      have hnone : (f a).filter g = [] := List.filter_eq_nil_iff.mpr fun b hb => by
        simp [hdrop a List.mem_cons_self ha b hb]
      rw [List.filter_cons_of_neg (by simp [ha]), hnone, List.nil_append]

section Keep

variable {P : Type} {env : Env} {L : List (Orphan P)} {rl rl' : OrphanRelay P}

theorem foldl_insert (vin : List CTxIn) (pvMsg : P) (m : List (Uint256 × P)) :
    vin.foldl (fun m txin => m ++ [(txin.prevout.hash, pvMsg)]) m =
      m ++ vin.map fun txin => (txin.prevout.hash, pvMsg) := by
  induction vin generalizing m with
  | nil => simp
  | cons txin rest ih => rw [List.foldl_cons, ih, List.append_assoc, List.map_cons, List.singleton_append]

theorem OrphansAre.fresh (h : OrphansAre env L rl) {pvMsg : P} (hnew : rl.heap pvMsg = none) :
    ∀ o ∈ L, o.pvMsg ≠ pvMsg := by
  rintro o ho rfl
  obtain ⟨vMsg, hlive, -⟩ := h.live o ho
  cases hlive.symm.trans hnew

theorem OrphansAre.same (h : OrphansAre env L rl)
    (horphans : rl'.mapOrphanTransactions = rl.mapOrphanTransactions)
    (hbyPrev : rl'.mapOrphanTransactionsByPrev = rl.mapOrphanTransactionsByPrev)
    (hheap : ∀ h pvMsg, rl.mapOrphanTransactions h = some pvMsg → rl'.heap pvMsg = rl.heap pvMsg) :
    OrphansAre env L rl' where
  hashes := h.hashes
  pointers := h.pointers
  stored x p := by
    rw [horphans]
    exact h.stored x p
  live o ho := by
    have hstored := (h.stored o.hash o.pvMsg).mpr ⟨o, ho, rfl, rfl⟩
    rw [hheap o.hash o.pvMsg hstored]
    exact h.live o ho
  hashed := h.hashed
  byPrev := by
    rw [hbyPrev]
    exact h.byPrev

variable [DecidableEq P]

theorem foldl_delete (vin : List CTxIn) (pvMsg : P) (m : List (Uint256 × P)) :
    vin.foldl (fun m txin =>
        m.filter (fun q => decide (¬(q.1 = txin.prevout.hash ∧ q.2 = pvMsg)))) m =
      m.filter (fun q => decide (¬q ∈ vin.map fun txin => (txin.prevout.hash, pvMsg))) := by
  induction vin generalizing m with
  | nil => simp
  | cons txin rest ih =>
    rw [List.foldl_cons, ih, List.filter_filter]
    refine List.filter_congr (fun q _ => ?_)
    rw [← Bool.decide_and, decide_eq_decide, List.map_cons, List.mem_cons, Prod.ext_iff]
    tauto

theorem OrphansAre.insert (h : OrphansAre env L rl) {pvMsg : P} (hnew : rl.heap pvMsg = none)
    {tx : CTransaction} {vMsg : List UInt8} (hread : readTx vMsg = .ok tx)
    (hnone : rl.mapOrphanTransactions (tx.getHash env) = none) :
    OrphansAre env (⟨tx.getHash env, pvMsg, tx⟩ :: L)
      (rl.insertOrphan (tx.getHash env) pvMsg tx vMsg) := by
  have hother : ∀ o ∈ L, o.hash ≠ tx.getHash env := by
    intro o ho heq
    have hstored := (h.stored (tx.getHash env) o.pvMsg).mpr ⟨o, ho, heq, rfl⟩
    cases hnone.symm.trans hstored
  have hfresh := h.fresh hnew
  refine ⟨?_, ?_, ?_, ?_, ?_, ?_⟩
  · rw [List.map_cons, List.nodup_cons]
    refine ⟨?_, h.hashes⟩
    rw [List.mem_map]
    rintro ⟨o, ho, heq⟩
    exact hother o ho heq
  · rw [List.map_cons, List.nodup_cons]
    refine ⟨?_, h.pointers⟩
    rw [List.mem_map]
    rintro ⟨o, ho, heq⟩
    exact hfresh o ho heq
  · intro x p
    change Function.update rl.mapOrphanTransactions (tx.getHash env) (some pvMsg) x = some p ↔ _
    simp only [List.mem_cons, exists_eq_or_imp]
    rw [Function.update_apply]
    split
    · next hx =>
      subst hx
      constructor
      · intro heq
        exact .inl ⟨rfl, Option.some.inj heq⟩
      · rintro (⟨-, rfl⟩ | ⟨o, ho, heq, -⟩)
        · rfl
        · exact absurd heq (hother o ho)
    · next hx =>
      rw [h.stored]
      constructor
      · exact .inr
      · rintro (⟨rfl, -⟩ | hold)
        · exact absurd rfl hx
        · exact hold
  · intro o ho
    change ∃ v, Function.update rl.heap pvMsg (some vMsg) o.pvMsg = some v ∧ _
    rcases List.mem_cons.mp ho with rfl | ho
    · exact ⟨vMsg, by rw [Function.update_self], hread⟩
    · rw [Function.update_of_ne (hfresh o ho)]
      exact h.live o ho
  · intro o ho
    rcases List.mem_cons.mp ho with rfl | ho
    · rfl
    · exact h.hashed o ho
  · change (tx.vin.foldl _ rl.mapOrphanTransactionsByPrev).Perm _
    rw [foldl_insert, List.flatMap_cons]
    exact List.perm_append_comm.trans (h.byPrev.append_left _)

theorem OrphansAre.delete (h : OrphansAre env L rl) {o : Orphan P} (ho : o ∈ L) :
    OrphansAre env (L.filter fun o' => decide (o'.hash ≠ o.hash))
      (rl.deleteOrphan o.hash o.pvMsg o.tx) := by
  have hsame : ∀ o' ∈ L, o'.hash = o.hash → o' = o := fun o' ho' heq =>
    List.inj_on_of_nodup_map h.hashes ho' ho heq
  have hpointer : ∀ o' ∈ L, o'.pvMsg = o.pvMsg → o' = o := fun o' ho' heq =>
    List.inj_on_of_nodup_map h.pointers ho' ho heq
  have hmem : ∀ {o'}, o' ∈ L.filter (fun o' => decide (o'.hash ≠ o.hash)) ↔
      o' ∈ L ∧ o'.hash ≠ o.hash := by
    intro o'
    rw [List.mem_filter, decide_eq_true_eq]
  refine ⟨?_, ?_, ?_, ?_, ?_, ?_⟩
  · exact h.hashes.sublist (List.filter_sublist.map Orphan.hash)
  · exact h.pointers.sublist (List.filter_sublist.map Orphan.pvMsg)
  · intro x p
    change Function.update rl.mapOrphanTransactions o.hash none x = some p ↔ _
    simp only [hmem]
    rw [Function.update_apply]
    split
    · next hx =>
      subst hx
      constructor
      · intro heq
        cases heq
      · rintro ⟨o', ⟨-, hne⟩, heq, -⟩
        exact absurd heq hne
    · next hx =>
      rw [h.stored]
      constructor
      · rintro ⟨o', ho', rfl, hp⟩
        exact ⟨o', ⟨ho', hx⟩, rfl, hp⟩
      · rintro ⟨o', ⟨ho', -⟩, heq, hp⟩
        exact ⟨o', ho', heq, hp⟩
  · intro o' ho'
    obtain ⟨hin, hne⟩ := hmem.mp ho'
    change ∃ v, Function.update rl.heap o.pvMsg none o'.pvMsg = some v ∧ _
    rw [Function.update_of_ne (fun heq => hne (congrArg Orphan.hash (hpointer o' hin heq)))]
    exact h.live o' hin
  · exact fun o' ho' => h.hashed o' (hmem.mp ho').1
  · change (o.tx.vin.foldl _ rl.mapOrphanTransactionsByPrev).Perm _
    rw [foldl_delete]
    refine (h.byPrev.filter _).trans ?_
    refine List.Perm.of_eq (filter_flatMap_eq ?_ ?_)
    · intro o' ho' hkeep q hq
      have hne : o'.hash ≠ o.hash := of_decide_eq_true hkeep
      obtain ⟨txin', -, rfl⟩ := List.mem_map.mp hq
      refine decide_eq_true fun hin => hne ?_
      obtain ⟨txin, -, heq⟩ := List.mem_map.mp hin
      exact congrArg Orphan.hash (hpointer o' ho' (congrArg Prod.snd heq).symm)
    · intro o' ho' hdrop q hq
      have heq : o' = o := hsame o' ho' (not_not.mp (of_decide_eq_false hdrop))
      subst heq
      exact decide_eq_false (not_not.mpr hq)

end Keep

section Relay

variable {P : Type} {env : Env} {L : List (Orphan P)} {rl rl' : OrphanRelay P} {e : NodeEnv}

namespace OrphanRelay

structure SameOrphans (rl rl' : OrphanRelay P) : Prop where
  heap : rl'.heap = rl.heap
  orphans : rl'.mapOrphanTransactions = rl.mapOrphanTransactions
  byPrev : rl'.mapOrphanTransactionsByPrev = rl.mapOrphanTransactionsByPrev

theorem sameOrphans_refl (rl : OrphanRelay P) : SameOrphans rl rl := ⟨rfl, rfl, rfl⟩

theorem SameOrphans.trans {a b d : OrphanRelay P} (h : SameOrphans a b) (h' : SameOrphans b d) :
    SameOrphans a d :=
  ⟨h'.heap.trans h.heap, h'.orphans.trans h.orphans, h'.byPrev.trans h.byPrev⟩

theorem SameOrphans.orphansAre (h : SameOrphans rl rl') (hare : OrphansAre env L rl) :
    OrphansAre env L rl' :=
  hare.same h.orphans h.byPrev fun _ _ _ => congrFun h.heap _

theorem NoOrphans.are (h : NoOrphans rl) : OrphansAre env [] rl where
  hashes := List.nodup_nil
  pointers := List.nodup_nil
  stored x p := by simp [h.orphans]
  live o ho := by cases ho
  hashed o ho := by cases ho
  byPrev := by rw [h.byPrev]; rfl

theorem acceptTx_same (e : NodeEnv) (tx : CTransaction) :
    Keeps SameOrphans (acceptTx e tx : Act Fault (OrphanRelay P) Bool) := by
  refine keeps_bind (@SameOrphans.trans P) (keeps_get sameOrphans_refl) (fun rl => ?_)
  refine keeps_bind (@SameOrphans.trans P) (keeps_modify (fun rl => ⟨rfl, rfl, rfl⟩)) (fun _ => ?_)
  split
  · exact keeps_pure sameOrphans_refl _
  · exact keeps_pure sameOrphans_refl _
  · exact keeps_throw sameOrphans_refl _

theorem retryOrphan_same (e : NodeEnv) (pvMsg : P) : Keeps SameOrphans (retryOrphan e pvMsg) := by
  refine keeps_bind (@SameOrphans.trans P) (keeps_get sameOrphans_refl) (fun rl => ?_)
  refine keeps_bind (@SameOrphans.trans P) (keeps_fromOption sameOrphans_refl _ _) (fun vMsg => ?_)
  refine keeps_bind (@SameOrphans.trans P) (keeps_fromExcept sameOrphans_refl _) (fun tx => ?_)
  exact keeps_bind (@SameOrphans.trans P) (acceptTx_same e tx)
    (fun _ => keeps_pure sameOrphans_refl _)

theorem retryOrphans_same (e : NodeEnv) (pvMsgs : List P) :
    Keeps SameOrphans (retryOrphans e pvMsgs) := by
  induction pvMsgs with
  | nil => exact keeps_pure sameOrphans_refl _
  | cons pvMsg rest ih =>
    exact keeps_bind (@SameOrphans.trans P) (retryOrphan_same e pvMsg) (fun _ =>
      keeps_bind (@SameOrphans.trans P) ih (fun _ => keeps_pure sameOrphans_refl _))

theorem drainQueue_same (e : NodeEnv) (fuel : Nat) (vWorkQueue : List Uint256) :
    Keeps SameOrphans (drainQueue e fuel vWorkQueue : Act Fault (OrphanRelay P) _) := by
  induction fuel generalizing vWorkQueue with
  | zero =>
    cases vWorkQueue with
    | nil => exact keeps_pure sameOrphans_refl _
    | cons hashPrev rest => exact keeps_throw sameOrphans_refl _
  | succ fuel ih =>
    cases vWorkQueue with
    | nil => exact keeps_pure sameOrphans_refl _
    | cons hashPrev rest =>
      refine keeps_bind (@SameOrphans.trans P) (keeps_get sameOrphans_refl) (fun rl => ?_)
      refine keeps_bind (@SameOrphans.trans P) (retryOrphans_same e _) (fun vNew => ?_)
      exact keeps_bind (@SameOrphans.trans P) (ih _) (fun _ => keeps_pure sameOrphans_refl _)

variable [DecidableEq P]

theorem addOrphanTx_are (h : OrphansAre env L rl) {pvMsg : P} (hnew : rl.heap pvMsg = none)
    (vMsg : List UInt8) : ∃ L', OrphansAre env L' (exec (addOrphanTx env pvMsg vMsg) rl).2 := by
  unfold addOrphanTx
  cases hread : readTx vMsg with
  | error fault => exact ⟨L, h⟩
  | ok tx =>
    simp only [fromExcept, pure_bind]
    rw [exec_get_bind, doIf]
    split
    · next hnone => exact ⟨_, h.insert hnew hread (Option.isNone_iff_eq_none.mp hnone)⟩
    · exact ⟨L, h⟩

theorem eraseOrphanTx_are (h : OrphansAre env L rl) (hash : Uint256) :
    ∃ L', OrphansAre env L' (exec (eraseOrphanTx hash) rl).2 := by
  unfold eraseOrphanTx
  rw [exec_get_bind]
  cases hstored : rl.mapOrphanTransactions hash with
  | none => exact ⟨L, h⟩
  | some pvMsg =>
    obtain ⟨o, ho, rfl, rfl⟩ := (h.stored hash pvMsg).mp hstored
    obtain ⟨vMsg, hlive, hread⟩ := h.live o ho
    simp only [hlive, fromOption, hread, fromExcept, pure_bind]
    exact ⟨_, h.delete ho⟩

theorem eraseOrphanTxs_are (h : OrphansAre env L rl) (hashes : List Uint256) :
    ∃ L', OrphansAre env L' (exec (eraseOrphanTxs hashes) rl).2 := by
  induction hashes generalizing rl L with
  | nil => exact ⟨L, h⟩
  | cons hash rest ih =>
    obtain ⟨L₁, h₁⟩ := eraseOrphanTx_are h hash
    rw [eraseOrphanTxs, exec_bind]
    rcases hx : exec (eraseOrphanTx hash) rl with ⟨x, rl₁⟩
    rw [hx] at h₁
    cases x with
    | error fault => exact ⟨L₁, h₁⟩
    | ok u => exact ih h₁

theorem processTx_are (h : OrphansAre e.env L rl) {pvMsg : P} (hnew : rl.heap pvMsg = none)
    (vRecv : List UInt8) : ∃ L', OrphansAre e.env L' (exec (processTx e pvMsg vRecv) rl).2 := by
  unfold processTx
  cases hread : readTx vRecv with
  | error fault => exact ⟨L, h⟩
  | ok tx =>
    simp only [fromExcept, pure_bind]
    rw [exec_get_bind, exec_bind]
    have haccept := acceptTx_same e tx rl
    rcases hx : exec (acceptTx e tx) rl with ⟨x, rl₁⟩
    rw [hx] at haccept
    cases x with
    | error fault => exact ⟨L, haccept.orphansAre h⟩
    | ok fAccepted =>
      cases fAccepted with
      | true =>
        have hdrain := drainQueue_same e (rl.mapOrphanTransactionsByPrev.length + 1)
          [tx.getHash e.env] rl₁
        dsimp only
        rw [if_pos rfl, exec_bind]
        rcases hy : exec (drainQueue e (rl.mapOrphanTransactionsByPrev.length + 1)
          [tx.getHash e.env]) rl₁ with ⟨y, rl₂⟩
        rw [hy] at hdrain
        have hare := (haccept.trans hdrain).orphansAre h
        cases y with
        | error fault => exact ⟨L, hare⟩
        | ok vWorkQueue => exact eraseOrphanTxs_are hare vWorkQueue
      | false =>
        have hare := haccept.orphansAre h
        have hnew₁ : rl₁.heap pvMsg = none := (congrFun haccept.heap pvMsg).trans hnew
        dsimp only
        rw [if_neg Bool.false_ne_true, doIf]
        split
        · exact addOrphanTx_are hare hnew₁ _
        · exact ⟨L, hare⟩

theorem TxStep.are (hstep : TxStep env rl rl') (h : OrphansAre env L rl) :
    ∃ L', OrphansAre env L' rl' := by
  cases hstep with
  | tx e henv pvMsg vRecv hnew =>
    subst henv
    exact processTx_are h hnew vRecv
  | elsewhere node heap rateLimiter hheap =>
    exact ⟨L, h.same rfl rfl hheap⟩

theorem orphansAre_of_run {start : OrphanRelay P} (hstart : start.NoOrphans)
    (hrun : Relation.ReflTransGen (TxStep env) start rl) : ∃ L, OrphansAre env L rl := by
  induction hrun with
  | refl => exact ⟨[], hstart.are⟩
  | tail _ hstep ih =>
    obtain ⟨L, hL⟩ := ih
    exact hstep.are hL

end OrphanRelay

theorem orphan_index_exact [DecidableEq P] {start : OrphanRelay P} (hstart : start.NoOrphans)
    (hrun : Relation.ReflTransGen (OrphanRelay.TxStep env) start rl) :
    ∃ L, OrphansAre env L rl ∧
      ∀ q ∈ rl.mapOrphanTransactionsByPrev, ∃ h vMsg,
        rl.mapOrphanTransactions h = some q.2 ∧ rl.heap q.2 = some vMsg := by
  obtain ⟨L, hL⟩ := OrphanRelay.orphansAre_of_run hstart hrun
  refine ⟨L, hL, fun q hq => ?_⟩
  obtain ⟨o, ho, hentry⟩ := List.mem_flatMap.mp (hL.byPrev.mem_iff.mp hq)
  obtain ⟨txin, -, rfl⟩ := List.mem_map.mp hentry
  obtain ⟨vMsg, hlive, -⟩ := hL.live o ho
  exact ⟨o.hash, vMsg, (hL.stored _ _).mpr ⟨o, ho, rfl, rfl⟩, hlive⟩

def emptyRelay : OrphanRelay Nat := ⟨fundedNode, fun _ => none, fun _ => none, [], fun _ => false⟩

def parkedRelay : OrphanRelay Nat :=
  (exec (OrphanRelay.processTx sampleNodeEnv 5 (spendFund 100).serialize) emptyRelay).2

theorem parkedRelay_indexed :
    parkedRelay.mapOrphanTransactionsByPrev = [(fundTx.getHash sampleEnv, 5)] ∧
      ∃ L, OrphansAre sampleEnv L parkedRelay ∧
        ∀ q ∈ parkedRelay.mapOrphanTransactionsByPrev, ∃ h vMsg,
          parkedRelay.mapOrphanTransactions h = some q.2 ∧ parkedRelay.heap q.2 = some vMsg := by
  have hrun : Relation.ReflTransGen (OrphanRelay.TxStep sampleEnv) emptyRelay parkedRelay :=
    .single (.tx sampleNodeEnv rfl 5 _ rfl)
  exact ⟨by decide +kernel, orphan_index_exact ⟨rfl, rfl⟩ hrun⟩

end Relay

section Queue

variable {P : Type} {L : List (Orphan P)} {rl rl' : OrphanRelay P} {e : NodeEnv}

def Orphan.pending (node : NodeState) (o : Orphan P) : Bool :=
  (node.mapTransactions o.hash).isNone && !o.tx.vin.isEmpty

def backlogOf (L : List (Orphan P)) (node : NodeState) : Nat := L.countP (Orphan.pending node)

theorem countP_lt {α : Type} {p q : α → Bool} {l : List α} {a : α} (ha : a ∈ l)
    (hle : ∀ x ∈ l, p x = true → q x = true) (hp : p a = false) (hq : q a = true) :
    l.countP p < l.countP q := by
  obtain ⟨l₁, l₂, rfl⟩ := List.append_of_mem ha
  have hleft := List.countP_mono_left fun x hx => hle x (List.mem_append_left _ hx)
  have hright := List.countP_mono_left fun x hx =>
    hle x (List.mem_append_right _ (List.mem_cons_of_mem a hx))
  rw [List.countP_append, List.countP_append, List.countP_cons_of_neg (by simp [hp]),
    List.countP_cons_of_pos hq]
  omega

theorem entries_length (L : List (Orphan P)) (node : NodeState) :
    backlogOf L node ≤ (L.flatMap Orphan.entries).length := by
  induction L with
  | nil => exact Nat.le_refl 0
  | cons o L ih =>
    rw [backlogOf, List.countP_cons, List.flatMap_cons, List.length_append]
    refine Nat.add_comm _ _ ▸ Nat.add_le_add ?_ ih
    split
    · next hpending =>
      rw [Orphan.pending, Bool.and_eq_true] at hpending
      rw [Orphan.entries, List.length_map]
      exact List.length_pos_iff.mpr (by simpa using hpending.2)
    · exact Nat.zero_le _

theorem OrphansAre.backlog_le (h : OrphansAre e.env L rl) (node : NodeState) :
    backlogOf L node ≤ rl.mapOrphanTransactionsByPrev.length := by
  rw [h.byPrev.length_eq]
  exact entries_length L node

namespace OrphanRelay

theorem acceptTx_node {tx : CTransaction} {fAccepted : Bool}
    (h : exec (acceptTx e tx) rl = (.ok fAccepted, rl')) :
    if fAccepted then rl.node.mapTransactions (tx.getHash e.env) = none ∧
      rl'.node.mapTransactions =
        Function.update rl.node.mapTransactions (tx.getHash e.env) (some tx)
    else rl'.node = rl.node := by
  rw [acceptTx, exec_get_bind] at h
  rcases acceptToMemoryPool_cases e tx true true (rl.rateLimiter 0) rl.node with
    ⟨fault, hrun⟩ | ⟨node, hrun, hadmits⟩
  · rw [hrun, exec_modify_bind] at h
    cases fault with
    | reject msg =>
      obtain ⟨hok, rfl⟩ := Prod.mk.inj h
      obtain rfl := Except.ok.inj hok
      rfl
    | assertion => cases h
    | exception msg => cases h
    | overflow => cases h
    | undefined => cases h
  · rw [hrun, exec_modify_bind] at h
    obtain ⟨hok, rfl⟩ := Prod.mk.inj h
    obtain rfl := Except.ok.inj hok
    exact ⟨hadmits.unpooled, hadmits.transactions⟩

theorem retryOrphan_backlog (h : OrphansAre e.env L rl) {o : Orphan P} (ho : o ∈ L)
    (hvin : o.tx.vin ≠ []) {vNew : List Uint256}
    (hrun : exec (retryOrphan e o.pvMsg) rl = (.ok vNew, rl')) :
    backlogOf L rl'.node + vNew.length ≤ backlogOf L rl.node := by
  obtain ⟨vMsg, hlive, hread⟩ := h.live o ho
  rw [retryOrphan, exec_get_bind, hlive] at hrun
  simp only [fromOption, hread, fromExcept, pure_bind] at hrun
  rw [bind_ok] at hrun
  obtain ⟨fAccepted, rl₁, haccept, hrest⟩ := hrun
  obtain ⟨hnew, rfl⟩ := pure_ok.mp hrest
  have hnode := acceptTx_node haccept
  cases fAccepted with
  | false =>
    rw [if_neg Bool.false_ne_true] at hnode hnew
    rw [← hnew, hnode]
    exact Nat.le_refl _
  | true =>
    rw [if_pos rfl] at hnode hnew
    rw [h.hashed o ho] at hnode
    rw [← hnew]
    obtain ⟨hfresh, hupdate⟩ := hnode
    refine countP_lt ho ?_ ?_ ?_
    · intro x _ hpending
      rw [Orphan.pending, Bool.and_eq_true, hupdate, Function.update_apply] at hpending
      rw [Orphan.pending, Bool.and_eq_true]
      refine ⟨?_, hpending.2⟩
      split at hpending
      · cases hpending.1
      · exact hpending.1
    · rw [Orphan.pending, hupdate, Function.update_self]
      rfl
    · rw [Orphan.pending, hfresh]
      simpa using hvin

structure Drained (L : List (Orphan P)) (rl rl' : OrphanRelay P) (vNew : List Uint256) : Prop where
  same : SameOrphans rl rl'
  backlog : backlogOf L rl'.node + vNew.length ≤ backlogOf L rl.node

theorem retryOrphans_drained (h : OrphansAre e.env L rl) {pvMsgs : List P}
    (hin : ∀ p ∈ pvMsgs, ∃ o ∈ L, o.tx.vin ≠ [] ∧ o.pvMsg = p) {vNew : List Uint256}
    (hrun : exec (retryOrphans e pvMsgs) rl = (.ok vNew, rl')) : Drained L rl rl' vNew := by
  induction pvMsgs generalizing rl vNew with
  | nil =>
    obtain ⟨rfl, rfl⟩ := pure_ok.mp hrun
    exact ⟨sameOrphans_refl rl, Nat.le_refl _⟩
  | cons p rest ih =>
    rw [retryOrphans, bind_ok] at hrun
    obtain ⟨vFirst, rl₁, hfirst, hrun⟩ := hrun
    rw [bind_ok] at hrun
    obtain ⟨vRest, rl₂, hrest, hrun⟩ := hrun
    obtain ⟨rfl, rfl⟩ := pure_ok.mp hrun
    obtain ⟨o, ho, hvin, rfl⟩ := hin p List.mem_cons_self
    have hsame : SameOrphans rl rl₁ := by
      have hkeep := retryOrphan_same e o.pvMsg rl
      rw [hfirst] at hkeep
      exact hkeep
    have hbacklog := retryOrphan_backlog h ho hvin hfirst
    have hlater := ih (hsame.orphansAre h) (fun x hx => hin x (List.mem_cons_of_mem _ hx)) hrest
    refine ⟨hsame.trans hlater.same, ?_⟩
    have hmore := hlater.backlog
    rw [List.length_append]
    omega

theorem mem_rangeOf (h : OrphansAre e.env L rl) (hashPrev : Uint256) :
    ∀ p ∈ rl.rangeOf hashPrev, ∃ o ∈ L, o.tx.vin ≠ [] ∧ o.pvMsg = p := by
  intro p hp
  obtain ⟨q, hq, rfl⟩ := List.mem_map.mp hp
  obtain ⟨o, ho, hentry⟩ := List.mem_flatMap.mp
    (h.byPrev.mem_iff.mp (List.mem_of_mem_filter hq))
  obtain ⟨txin, hin, rfl⟩ := List.mem_map.mp hentry
  exact ⟨o, ho, List.ne_nil_of_mem hin, rfl⟩

-- The loop itself, without the fuel: it ends when the queue is empty or a retry aborts.
inductive Drains (e : NodeEnv) : List Uint256 → OrphanRelay P →
    Except Fault (List Uint256) × OrphanRelay P → Prop
  | done (rl : OrphanRelay P) : Drains e [] rl (.ok [], rl)
  | fault {hashPrev : Uint256} {rest : List Uint256} {rl rl' : OrphanRelay P} {fault : Fault}
      (hretry : exec (retryOrphans e (rl.rangeOf hashPrev)) rl = (.error fault, rl')) :
      Drains e (hashPrev :: rest) rl (.error fault, rl')
  | turn {hashPrev : Uint256} {rest vNew : List Uint256} {rl rl₁ : OrphanRelay P}
      {r : Except Fault (List Uint256) × OrphanRelay P}
      (hretry : exec (retryOrphans e (rl.rangeOf hashPrev)) rl = (.ok vNew, rl₁))
      (hrest : Drains e (rest ++ vNew) rl₁ r) :
      Drains e (hashPrev :: rest) rl (r.1.map (List.cons hashPrev), r.2)

theorem Drains.unique {vWorkQueue : List Uint256}
    {r r' : Except Fault (List Uint256) × OrphanRelay P} (h : Drains e vWorkQueue rl r)
    (h' : Drains e vWorkQueue rl r') : r = r' := by
  induction h generalizing r' with
  | done => cases h' with | done => rfl
  | fault hretry =>
    cases h' with
    | fault hretry' =>
      obtain ⟨hfault, rfl⟩ := Prod.mk.inj (hretry.symm.trans hretry')
      rw [Except.error.inj hfault]
    | turn hretry' _ => cases hretry.symm.trans hretry'
  | turn hretry _ ih =>
    cases h' with
    | fault hretry' => cases hretry.symm.trans hretry'
    | turn hretry' hrest' =>
      obtain ⟨hnew, rfl⟩ := Prod.mk.inj (hretry.symm.trans hretry')
      obtain rfl := Except.ok.inj hnew
      rw [ih hrest']

theorem drainQueue_drains {fuel : Nat} {vWorkQueue : List Uint256} (h : OrphansAre e.env L rl)
    (hfuel : vWorkQueue.length + backlogOf L rl.node ≤ fuel) :
    Drains e vWorkQueue rl (exec (drainQueue e fuel vWorkQueue) rl) := by
  induction fuel generalizing vWorkQueue rl with
  | zero =>
    obtain rfl : vWorkQueue = [] := List.length_eq_zero_iff.mp (by omega)
    exact .done rl
  | succ fuel ih =>
    cases vWorkQueue with
    | nil => exact .done rl
    | cons hashPrev rest =>
      rw [List.length_cons] at hfuel
      rw [drainQueue, exec_get_bind, exec_bind]
      rcases hx : exec (retryOrphans e (rl.rangeOf hashPrev)) rl with ⟨x, rl₁⟩
      cases x with
      | error fault => exact .fault hx
      | ok vNew =>
        have hdrained := retryOrphans_drained h (mem_rangeOf h hashPrev) hx
        have hspent := hdrained.backlog
        have hrest := @ih rl₁ (rest ++ vNew) (hdrained.same.orphansAre h)
          (by rw [List.length_append]; omega)
        have hturn := Drains.turn hx hrest
        dsimp only
        rw [exec_bind]
        rcases hy : exec (drainQueue e fuel (rest ++ vNew)) rl₁ with ⟨y, rl₂⟩
        rw [hy] at hturn
        cases y with
        | error fault => exact hturn
        | ok vRest => exact hturn

-- In every reachable state the turns that the model allows the loop are enough.
theorem workQueue_drains [DecidableEq P] {start : OrphanRelay P} (hstart : start.NoOrphans)
    (hrun : Relation.ReflTransGen (TxStep e.env) start rl) {tx : CTransaction} {fAccepted : Bool}
    (haccept : exec (acceptTx e tx) rl = (.ok fAccepted, rl'))
    (r : Except Fault (List Uint256) × OrphanRelay P) :
    Drains e [tx.getHash e.env] rl' r ↔
      exec (drainQueue e (rl.mapOrphanTransactionsByPrev.length + 1) [tx.getHash e.env]) rl' =
        r := by
  obtain ⟨L, h⟩ := orphansAre_of_run hstart hrun
  have hsame : SameOrphans rl rl' := by
    have hkeep := acceptTx_same e tx rl
    rw [haccept] at hkeep
    exact hkeep
  have hare := hsame.orphansAre h
  have hbacklog := hare.backlog_le rl'.node
  rw [hsame.byPrev] at hbacklog
  have hdrains : Drains e [tx.getHash e.env] rl' (exec (drainQueue e
      (rl.mapOrphanTransactionsByPrev.length + 1) [tx.getHash e.env]) rl') :=
    drainQueue_drains hare (by rw [List.length_singleton]; omega)
  exact ⟨fun hr => hdrains.unique hr, fun hr => hr ▸ hdrains⟩

end OrphanRelay

end Queue

end Namecoin
