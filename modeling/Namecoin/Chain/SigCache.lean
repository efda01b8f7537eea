import Namecoin.Chain.Index

namespace Namecoin

open Act

structure TxObject where
  tx : CTransaction
  vin : List CTxInCache

def CTxInCache.invalidateCache (cache : CTxInCache) : CTxInCache :=
  { cache with txPrev := none, fHasPrevInfo := false, prevHeight := -1 }

def CTxInCache.assign (fCacheTxPrev : Bool) (old src : CTxInCache) : CTxInCache :=
  let cache := old.invalidateCache
  let cache := if src.fHasPrevInfo then
      { cache with
        fHasPrevInfo := src.fHasPrevInfo
        prevPos := src.prevPos
        nValue := src.nValue
        prevHeight := src.prevHeight
        fChecked := src.fChecked }
    else cache
  { cache with txPrev := if fCacheTxPrev then src.txPrev else none }

namespace TxObject

def assign (fCacheTxPrev : Bool) (old : List CTxInCache) (src : TxObject) : TxObject :=
  ⟨src.tx, src.vin.mapIdx (fun i cache =>
    CTxInCache.assign fCacheTxPrev (old.getD i CTxInCache.empty) cache)⟩

def invalidateCache (obj : TxObject) (nIn : Nat) : TxObject :=
  { obj with vin := obj.vin.modify nIn CTxInCache.invalidateCache }

def setChecked (obj : TxObject) (nIn : Nat) : TxObject :=
  { obj with vin := obj.vin.modify nIn (fun cache => { cache with fChecked := true }) }

def verifyCached (env : Env) (obj : TxObject) (txFrom : CTransaction) (nIn : Nat) (txin : CTxIn)
    (txout : CTxOut) : Except Fault (Bool × TxObject) :=
  let cache := obj.vin.getD nIn CTxInCache.empty
  if cache.fHasPrevInfo ∧ cache.fChecked then .ok (true, obj)
  else if env.verifyScript txin.scriptSig txout.scriptPubKey obj.tx nIn 0 = false then
    .ok (false, obj)
  else if cache.fHasPrevInfo then
    if cache.txPrev.any (fun txPrev => decide (txPrev ≠ txFrom)) then .error .assertion
    else .ok (true, obj.setChecked nIn)
  else .ok (true, obj)

def verifySignature (env : Env) (obj : TxObject) (txFrom : CTransaction) (nIn : Nat) :
    Except Fault (Bool × TxObject) :=
  match obj.tx.vin[nIn]? with
  | none => .error .assertion
  | some txin =>
    match txFrom.vout[txin.prevout.n]? with
    | none => .ok (false, obj)
    | some txout =>
      if txin.prevout.hash ≠ txFrom.getHash env then .ok (false, obj)
      else obj.verifyCached env txFrom nIn txin txout

end TxObject

structure Verified (env : Env) (U : Set CTransaction) (tx : CTransaction) (nIn : Nat) : Prop where
  prev : ∃ txin prevTx txout, tx.vin[nIn]? = some txin ∧ prevTx ∈ U ∧
    prevTx.getHash env = txin.prevout.hash ∧ prevTx.vout[txin.prevout.n]? = some txout ∧
    env.verifyScript txin.scriptSig txout.scriptPubKey tx nIn 0 = true

structure SoundAt (env : Env) (U : Set CTransaction) (tx : CTransaction) (nIn : Nat)
    (cache : CTxInCache) : Prop where
  held : ∀ txPrev, cache.txPrev = some txPrev → txPrev ∈ U ∧
    ∃ txin, tx.vin[nIn]? = some txin ∧ txPrev.getHash env = txin.prevout.hash
  checked : cache.fHasPrevInfo = true → cache.fChecked = true → Verified env U tx nIn

def CacheSound (env : Env) (U : Set CTransaction) (tx : CTransaction) (vin : List CTxInCache) :
    Prop :=
  ∀ nIn cache, vin[nIn]? = some cache → SoundAt env U tx nIn cache

section Sound

variable {env : Env} {U : Set CTransaction} {tx : CTransaction} {vin : List CTxInCache}

theorem SoundAt.invalidateCache (nIn : Nat) (cache : CTxInCache) :
    SoundAt env U tx nIn cache.invalidateCache := by
  refine ⟨?_, ?_⟩
  · intro txPrev h
    cases h
  · intro h
    cases h

theorem SoundAt.assign {nIn : Nat} {src : CTxInCache} (h : SoundAt env U tx nIn src)
    (fCacheTxPrev : Bool) (old : CTxInCache) :
    SoundAt env U tx nIn (CTxInCache.assign fCacheTxPrev old src) := by
  refine ⟨?_, ?_⟩
  · intro txPrev hprev
    simp only [CTxInCache.assign] at hprev
    split at hprev
    · exact h.held txPrev hprev
    · cases hprev
  · intro hinfo hchecked
    simp only [CTxInCache.assign] at hinfo hchecked
    split at hinfo
    · next hsrc =>
      rw [if_pos hsrc] at hchecked
      exact h.checked hsrc hchecked
    · cases hinfo

theorem CacheSound.getD (h : CacheSound env U tx vin) (nIn : Nat) :
    SoundAt env U tx nIn (vin.getD nIn CTxInCache.empty) := by
  rw [List.getD_eq_getElem?_getD]
  cases hc : vin[nIn]? with
  | none =>
    refine ⟨?_, ?_⟩
    · intro txPrev hprev
      cases hprev
    · intro hinfo
      cases hinfo
  | some cache => exact h nIn cache hc

theorem CacheSound.modify (h : CacheSound env U tx vin) {nIn : Nat} {f : CTxInCache → CTxInCache}
    (hf : ∀ cache, SoundAt env U tx nIn cache → SoundAt env U tx nIn (f cache)) :
    CacheSound env U tx (vin.modify nIn f) := by
  intro j cache hj
  rw [List.getElem?_modify] at hj
  obtain ⟨old, hold, rfl⟩ := Option.map_eq_some_iff.mp hj
  split
  · next heq =>
    subst heq
    exact hf old (h _ old hold)
  · exact h j old hold

end Sound

def SameVin (s s' : ConnState) : Prop := s'.vin = s.vin

theorem sameVin_refl (s : ConnState) : SameVin s s := rfl

theorem SameVin.trans {a b c : ConnState} (h : SameVin a b) (h' : SameVin b c) : SameVin a c :=
  Eq.trans h' h

namespace NameCall

theorem writeHistory_sameVin (c : NameCall) (vchName : VchType) (d : NameTx) (prev : NameScan) :
    Keeps SameVin (c.writeHistory vchName d prev) := by
  refine keeps_bind (R := SameVin) SameVin.trans (keeps_get sameVin_refl) (fun s => ?_)
  refine keeps_bind (R := SameVin) SameVin.trans (keeps_fromExcept sameVin_refl _) (fun bad => ?_)
  split
  · exact keeps_raiseIf sameVin_refl _ _
  · refine keeps_bind (R := SameVin) SameVin.trans (keeps_fromExcept sameVin_refl _)
      (fun vchValue => ?_)
    exact keeps_modify (fun _ => rfl)

theorem applyNameOp_sameVin (c : NameCall) (d : NameTx) (prev : NameScan) :
    Keeps SameVin (c.applyNameOp d prev) := by
  refine keeps_bind (R := SameVin) SameVin.trans (keeps_get sameVin_refl) (fun s => ?_)
  refine keeps_bind (R := SameVin) SameVin.trans (keeps_fromExcept sameVin_refl _)
    (fun vchName => ?_)
  refine keeps_bind (R := SameVin) SameVin.trans (keeps_fromExcept sameVin_refl _) (fun bad => ?_)
  refine keeps_bind (R := SameVin) SameVin.trans (keeps_raiseIf sameVin_refl _ _) (fun _ => ?_)
  refine keeps_bind (R := SameVin) SameVin.trans
    (keeps_doIf sameVin_refl _ (c.writeHistory_sameVin vchName d prev)) (fun _ => ?_)
  exact keeps_doIf sameVin_refl _ (keeps_modify (fun _ => rfl))

theorem connectInputs_sameVin (c : NameCall) (vTxPrev : List CTransaction) :
    Keeps SameVin (c.connectInputs vTxPrev) := by
  refine keeps_bind (R := SameVin) SameVin.trans (keeps_fromOption sameVin_refl _ _)
    (fun prev => ?_)
  split
  · refine keeps_bind (R := SameVin) SameVin.trans (keeps_raiseIf sameVin_refl _ _) (fun _ => ?_)
    exact keeps_raiseIf sameVin_refl _ _
  · refine keeps_bind (R := SameVin) SameVin.trans (keeps_fromOption sameVin_refl _ _)
      (fun d => ?_)
    refine keeps_bind (R := SameVin) SameVin.trans (keeps_get sameVin_refl) (fun s => ?_)
    refine keeps_bind (R := SameVin) SameVin.trans (keeps_fromExcept sameVin_refl _)
      (fun fBugWorkaround => ?_)
    exact keeps_doIf sameVin_refl _ (c.applyNameOp_sameVin d prev)

end NameCall

namespace TxObject

variable {env : Env} {U : Set CTransaction} {obj obj' : TxObject} {txFrom : CTransaction}
  {nIn : Nat} {answer : Bool}

theorem verifySignature_cacheSound (hs : CacheSound env U obj.tx obj.vin) (hin : txFrom ∈ U)
    (h : obj.verifySignature env txFrom nIn = .ok (answer, obj')) :
    CacheSound env U obj'.tx obj'.vin := by
  unfold verifySignature at h
  split at h
  · cases h
  · next txin htxin =>
    split at h
    · cases h
      exact hs
    · next txout hout =>
      split at h
      · cases h
        exact hs
      · next hhash =>
        unfold verifyCached at h
        dsimp only at h
        split at h
        · cases h
          exact hs
        · split at h
          · cases h
            exact hs
          · next hscript =>
            split at h
            · split at h
              · cases h
              · cases h
                refine hs.modify (fun cache hc => ⟨hc.held, fun _ _ => ?_⟩)
                exact ⟨txin, txFrom, txout, htxin, hin, (not_not.mp hhash).symm, hout,
                  by simpa using hscript⟩
            · cases h
              exact hs

theorem verifySignature_tx (h : obj.verifySignature env txFrom nIn = .ok (answer, obj')) :
    obj'.tx = obj.tx := by
  unfold verifySignature verifyCached setChecked at h
  dsimp only at h
  repeat' split at h
  all_goals cases h <;> rfl

def plainVerify (env : Env) (tx txFrom : CTransaction) (nIn : Nat) : Option Bool :=
  match tx.vin[nIn]? with
  | none => none
  | some txin =>
    match txFrom.vout[txin.prevout.n]? with
    | none => some false
    | some txout => some (decide (txin.prevout.hash = txFrom.getHash env) &&
        env.verifyScript txin.scriptSig txout.scriptPubKey tx nIn 0)

theorem verifyCached_eq_plain (hs : CacheSound env U obj.tx obj.vin)
    (huniq : Set.InjOn (fun tx => CTransaction.getHash env tx) U) (hin : txFrom ∈ U) {txin : CTxIn}
    (htxin : obj.tx.vin[nIn]? = some txin) {txout : CTxOut}
    (hout : txFrom.vout[txin.prevout.n]? = some txout)
    (hhash : txin.prevout.hash = txFrom.getHash env) :
    (obj.verifyCached env txFrom nIn txin txout).map Prod.fst =
      .ok (env.verifyScript txin.scriptSig txout.scriptPubKey obj.tx nIn 0) := by
  have hcache := hs.getD nIn
  unfold verifyCached
  dsimp only
  split
  · next hseen =>
    obtain ⟨txin', prevTx, txout', htxin', hprev, hsame, hout', hscript⟩ :=
      (hcache.checked hseen.1 hseen.2).prev
    rw [htxin] at htxin'
    cases htxin'
    have heq : prevTx = txFrom := huniq hprev hin (hsame.trans hhash)
    subst heq
    rw [hout] at hout'
    cases hout'
    rw [hscript]
    rfl
  · split
    · next hscript =>
      rw [hscript]
      rfl
    · next hscript =>
      rw [show env.verifyScript txin.scriptSig txout.scriptPubKey obj.tx nIn 0 = true by
        simpa using hscript]
      split
      · split
        · next hany =>
          -- the transaction kept in the cache has the hash the input names, so it is txFrom
          obtain ⟨txPrev, hprev, hne⟩ : ∃ txPrev, (obj.vin.getD nIn CTxInCache.empty).txPrev =
              some txPrev ∧ txPrev ≠ txFrom := by simpa [Option.any_eq_true] using hany
          obtain ⟨hdrawn, txin', htxin', hnamed⟩ := hcache.held txPrev hprev
          rw [htxin] at htxin'
          cases htxin'
          exact absurd (huniq hdrawn hin (hnamed.trans hhash)) hne
        · rfl
      · rfl

theorem verifySignature_eq_plain (hs : CacheSound env U obj.tx obj.vin)
    (huniq : Set.InjOn (fun tx => CTransaction.getHash env tx) U) (hin : txFrom ∈ U) :
    (obj.verifySignature env txFrom nIn).map Prod.fst = .ok answer ↔
      plainVerify env obj.tx txFrom nIn = some answer := by
  unfold verifySignature plainVerify
  split
  · exact iff_of_false (fun h => by cases h) (fun h => by cases h)
  · next txin htxin =>
    split
    · exact (Except.ok.injEq _ _).to_iff.trans (Option.some.injEq _ _).to_iff.symm
    · next txout hout =>
      split
      · next hhash =>
        rw [decide_eq_false hhash, Bool.false_and]
        exact (Except.ok.injEq _ _).to_iff.trans (Option.some.injEq _ _).to_iff.symm
      · next hhash =>
        have hhash' : txin.prevout.hash = txFrom.getHash env := not_not.mp hhash
        rw [verifyCached_eq_plain hs huniq hin htxin hout hhash', decide_eq_true hhash',
          Bool.true_and, Except.ok.injEq, Option.some.injEq]

end TxObject

def TxCall.PointsAt (c : TxCall) (h : Uint256) (txindex : CTxIndex) : Prop :=
  txindex.pos ≠ CDiskTxPos.memPool →
    ∀ txPrev, c.view.disk.readFromDisk txindex.pos = some txPrev → txPrev.getHash c.env = h

def TxCall.Points (c : TxCall) (s : ConnState) : Prop :=
  ∀ h txindex, c.readTxIndex s h = some txindex → c.PointsAt h txindex

structure TxCall.Draws (c : TxCall) (U : Set CTransaction) : Prop where
  pool : ∀ h txPrev, c.view.mapTransactions h = some txPrev → txPrev ∈ U ∧ txPrev.getHash c.env = h
  disk : ∀ pos txPrev, c.view.disk.readFromDisk pos = some txPrev → txPrev ∈ U

theorem CTxInCache.checked_self {cache : CTxInCache}
    (h : (cache.fChecked || cache.fHasPrevInfo) = cache.fChecked) :
    { cache with fChecked := cache.fChecked || cache.fHasPrevInfo } = cache := by rw [h]

theorem modify_congr {vin : List CTxInCache} {i : Nat} {f g : CTxInCache → CTxInCache}
    (h : f (vin.getD i CTxInCache.empty) = g (vin.getD i CTxInCache.empty)) :
    vin.modify i f = vin.modify i g := by
  refine List.ext_getElem? (fun j => ?_)
  rw [List.getElem?_modify, List.getElem?_modify]
  by_cases hij : i = j
  · subst hij
    cases hi : vin[i]? with
    | none => rfl
    | some old =>
      rw [List.getD_eq_getElem?_getD, hi, Option.getD_some] at h
      simp [h]
  · simp [hij]

namespace TxCall

theorem points_of_indexOk {c : TxCall} {s : ConnState}
    (hindex : IndexOk c.env c.view.disk s.dbset.tx)
    (htest : c.fMiner = true → ∀ h txindex, s.mapTestPool h = some txindex → c.PointsAt h txindex) :
    c.Points s := by
  intro h txindex hread
  unfold readTxIndex at hread
  split at hread
  · next hpool => exact htest (Bool.and_eq_true_iff.mp hpool).1 h txindex hread
  · intro _ txPrev hdisk
    obtain ⟨tx, hentry⟩ := hindex h txindex hread
    rw [hentry.read] at hdisk
    obtain rfl := Option.some.inj hdisk
    exact hentry.hash

theorem writeBack_reads {c : TxCall} {s : ConnState} {h h' : Uint256} {txindex txindex' : CTxIndex}
    (hread : c.readTxIndex (exec (c.writeBack h txindex) s).2 h' = some txindex') :
    (h' = h ∧ txindex' = txindex) ∨ c.readTxIndex s h' = some txindex' := by
  rw [writeBack, exec_modify] at hread
  by_cases hh : h' = h
  · subst hh
    unfold readTxIndex at hread ⊢
    dsimp only [DatabaseSet.writeTx] at hread
    split at hread
    · by_cases htest : (c.fMiner && (s.mapTestPool h').isSome) = true
      · simp only [htest, if_true] at hread ⊢
        exact .inr hread
      · simp only [htest] at hread
        exact .inl ⟨rfl, (by simpa using hread.symm)⟩
    · split at hread
      · next hminer =>
        simp only [hminer, Function.update_self, Option.isSome_some, Bool.and_true, if_true] at hread
        exact .inl ⟨rfl, (Option.some.inj hread).symm⟩
      · exact .inr hread
  · refine .inr ?_
    unfold readTxIndex at hread ⊢
    split at hread
    · simpa [DatabaseSet.writeTx, Function.update_of_ne hh] using hread
    · split at hread
      · simpa [Function.update_of_ne hh] using hread
      · exact hread

theorem verifySignature_object {c : TxCall} {i : Nat} {txin : CTxIn}
    (htxin : c.tx.vin[i]? = some txin) {txPrev : CTransaction} {s : ConnState}
    (hprev : ∀ t, (s.vin.getD i CTxInCache.empty).txPrev = some t → t = txPrev) :
    exec (c.verifySignature i txin txPrev) s =
      match TxObject.verifySignature c.env ⟨c.tx, s.vin⟩ txPrev i with
      | .ok (true, obj) => (.ok (), { s with vin := obj.vin })
      | .ok (false, _) => (.error (.reject "ConnectInputs: VerifySignature failed"), s)
      | .error fault => (.error fault, s) := by
  have hany : (s.vin.getD i CTxInCache.empty).txPrev.any (fun t => decide (t ≠ txPrev)) = false := by
    rw [Option.any_eq_false]
    intro t ht
    simp [hprev t ht]
  unfold verifySignature TxObject.verifySignature
  rw [exec_get_bind, htxin]
  dsimp only
  cases hout : txPrev.vout[txin.prevout.n]? with
  | none => rfl
  | some txout =>
    dsimp only
    rw [exec_raiseIf_bind]
    by_cases hhash : txin.prevout.hash ≠ txPrev.getHash c.env
    · rw [if_pos hhash, if_pos hhash]
    · rw [if_neg hhash, if_neg hhash, exec_raiseIf_bind, putCache, exec_modify]
      unfold TxObject.verifyCached TxObject.setChecked
      simp only [hany]
      generalize hcache : s.vin.getD i CTxInCache.empty = cache at *
      by_cases hseen : cache.fHasPrevInfo = true ∧ cache.fChecked = true
      · rw [if_pos hseen, if_neg (by simp [hseen.1, hseen.2])]
        have hsame := @modify_congr s.vin i
          (fun old => { old with fChecked := old.fChecked || old.fHasPrevInfo }) id
          (by rw [hcache]; exact CTxInCache.checked_self (by simp [hseen.1, hseen.2]))
        rw [hsame, List.modify_id]
      · have hunseen : (cache.fHasPrevInfo && cache.fChecked) = false := by simpa using hseen
        rw [if_neg hseen]
        by_cases hscript : c.env.verifyScript txin.scriptSig txout.scriptPubKey c.tx i 0 = false
        · rw [if_pos hscript, if_pos ⟨hunseen, hscript⟩]
        · rw [if_neg hscript, if_neg (fun h => hscript h.2)]
          by_cases hinfo : cache.fHasPrevInfo = true
          · have hsame := @modify_congr s.vin i
              (fun old => { old with fChecked := old.fChecked || old.fHasPrevInfo })
              (fun old => { old with fChecked := true }) (by rw [hcache]; simp [hinfo])
            rw [if_pos hinfo, if_neg (by simp), hsame]
          · have hsame := @modify_congr s.vin i
              (fun old => { old with fChecked := old.fChecked || old.fHasPrevInfo }) id
              (by rw [hcache]; exact CTxInCache.checked_self (by simp [hinfo]))
            rw [if_neg hinfo, hsame, List.modify_id]

end TxCall

section Connect

variable {c : TxCall} {U : Set CTransaction}

structure TxCall.StateSound (c : TxCall) (U : Set CTransaction) (s : ConnState) : Prop where
  cache : CacheSound c.env U c.tx s.vin
  points : c.Points s

theorem readPrev_drawn (hd : c.Draws U) {prevout : COutPoint} {fFound : Bool} {txindex : CTxIndex}
    (hpoint : fFound = true → c.PointsAt prevout.hash txindex) {txPrev : CTransaction}
    (h : c.readPrev prevout fFound txindex = .ok txPrev) :
    txPrev ∈ U ∧ txPrev.getHash c.env = prevout.hash := by
  rcases TxCall.readPrev_ok.mp h with ⟨-, hpool⟩ | ⟨⟨hfound, hdisk⟩, hread⟩
  · exact hd.pool _ _ hpool
  · exact ⟨hd.disk _ _ hread, hpoint hfound hdisk txPrev hread⟩

theorem putCache_sound {i : Nat} {f : CTxInCache → CTxInCache}
    (hf : ∀ cache, SoundAt c.env U c.tx i cache → SoundAt c.env U c.tx i (f cache)) :
    Holds (c.StateSound U) (fun _ => True) (TxCall.putCache i f) :=
  holds_of_keeps (fun _ hs => ⟨CacheSound.modify hs.cache hf, hs.points⟩)

theorem fetchPrev_sound (hd : c.Draws U) {i : Nat} {txin : CTxIn} (htxin : c.tx.vin[i]? = some txin)
    {fFound : Bool} {txindex : CTxIndex}
    (hpoint : fFound = true → c.PointsAt txin.prevout.hash txindex) :
    Holds (c.StateSound U) (fun txPrev => txPrev ∈ U ∧ txPrev.getHash c.env = txin.prevout.hash)
      (c.fetchPrev i txin.prevout fFound txindex) := by
  refine holds_bind holds_get (fun s hs => ?_)
  have hcache := CacheSound.getD hs.cache i
  dsimp only
  split
  · next txPrev hprev =>
    refine holds_bind (holds_raiseIf _ _) (fun _ _ => ?_)
    obtain ⟨hin, txin', htxin', hnamed⟩ := hcache.held txPrev hprev
    rw [htxin] at htxin'
    cases htxin'
    exact holds_pure ⟨hin, hnamed⟩
  · refine holds_bind (holds_fromExcept (fun txPrev => readPrev_drawn hd hpoint))
      (fun txPrev hin => ?_)
    refine holds_bind (putCache_sound (fun cache hs => ?_)) (fun _ _ => holds_pure hin)
    refine ⟨?_, ?_⟩
    · intro t ht
      dsimp only at ht
      split at ht
      · cases ht
        exact ⟨hin.1, txin, htxin, hin.2⟩
      · cases ht
    · intro _ hchecked
      dsimp only at hchecked
      split at hchecked
      · next hinfo => exact hs.checked hinfo hchecked
      · cases hchecked

theorem verifySignature_sound (huniq : Set.InjOn (fun tx => CTransaction.getHash c.env tx) U)
    {i : Nat} {txin : CTxIn} (htxin : c.tx.vin[i]? = some txin) {txPrev : CTransaction}
    (hin : txPrev ∈ U) (hnamed : txPrev.getHash c.env = txin.prevout.hash) :
    Holds (c.StateSound U) (fun _ => True) (c.verifySignature i txin txPrev) := by
  refine holds_of_keeps (fun s hs => ?_)
  have hprev : ∀ t, (s.vin.getD i CTxInCache.empty).txPrev = some t → t = txPrev := by
    intro t ht
    obtain ⟨hdrawn, txin', htxin', ht'⟩ := (CacheSound.getD hs.cache i).held t ht
    rw [htxin] at htxin'
    cases htxin'
    exact huniq hdrawn hin (ht'.trans hnamed.symm)
  rw [TxCall.verifySignature_object htxin hprev]
  cases hv : TxObject.verifySignature c.env ⟨c.tx, s.vin⟩ txPrev i with
  | error fault => exact hs
  | ok r =>
    obtain ⟨answer, obj⟩ := r
    cases answer with
    | false => exact hs
    | true =>
      have htx : obj.tx = c.tx := TxObject.verifySignature_tx hv
      have hsound := @TxObject.verifySignature_cacheSound c.env U ⟨c.tx, s.vin⟩ _ _ _ _ hs.cache hin hv
      rw [htx] at hsound
      exact ⟨hsound, hs.points⟩

theorem writeBack_sound {h : Uint256} {txindex : CTxIndex}
    (hpoint : (c.fBlock || c.fMiner) = true → c.PointsAt h txindex) :
    Holds (c.StateSound U) (fun _ => True) (c.writeBack h txindex) := by
  refine holds_of_keeps (fun s hs => ⟨?_, fun h' txindex' hread => ?_⟩)
  · rw [TxCall.writeBack, exec_modify]
    split
    · exact hs.cache
    · split <;> exact hs.cache
  · by_cases hwrite : (c.fBlock || c.fMiner) = true
    · rcases TxCall.writeBack_reads hread with ⟨rfl, rfl⟩ | hold
      · exact hpoint hwrite
      · exact hs.points h' txindex' hold
    · obtain ⟨hblock, hminer⟩ : c.fBlock = false ∧ c.fMiner = false := by simpa using hwrite
      rw [TxCall.writeBack, exec_modify, if_neg (by simp [hblock]), if_neg (by simp [hminer])] at hread
      exact hs.points h' txindex' hread

theorem connectInput_sound (huniq : Set.InjOn (fun tx => CTransaction.getHash c.env tx) U)
    (hd : c.Draws U) {i : Nat} {txin : CTxIn} (htxin : c.tx.vin[i]? = some txin) (nValueIn : Int) :
    Holds (c.StateSound U) (fun _ => True) (c.connectInput i txin nValueIn) := by
  refine holds_bind holds_get (fun s hs => ?_)
  have hfind : (c.readTxIndex s txin.prevout.hash).isSome = true →
      c.PointsAt txin.prevout.hash ((c.readTxIndex s txin.prevout.hash).getD
        (CTxIndex.make CDiskTxPos.null (txin.prevout.n + 1))) := by
    intro hsome
    obtain ⟨txindex, hread⟩ := Option.isSome_iff_exists.mp hsome
    rw [hread]
    exact hs.points _ _ hread
  refine holds_bind (holds_raiseIf _ _) (fun _ hfound => ?_)
  refine holds_bind (holds_raiseIf _ _) (fun _ _ => ?_)
  refine holds_bind (fetchPrev_sound hd htxin hfind) (fun txPrev hin => ?_)
  refine holds_bind (holds_raiseIf _ _) (fun _ _ => ?_)
  refine holds_bind (Q := fun _ => True) ?_ (fun _ _ => ?_)
  · unfold doIf
    split
    · exact verifySignature_sound huniq htxin hin.1 hin.2
    · exact holds_pure trivial
  refine holds_bind (holds_raiseIf _ _) (fun _ _ => ?_)
  refine holds_bind (holds_raiseIf _ _) (fun _ _ => ?_)
  refine holds_bind (putCache_sound (fun cache hc => ⟨hc.held, hc.checked⟩)) (fun _ _ => ?_)
  refine holds_bind (holds_fromExcept (Q := fun _ => True) (fun _ _ => trivial)) (fun _ _ => ?_)
  refine holds_bind (holds_raiseIf _ _) (fun _ _ => ?_)
  refine holds_bind (writeBack_sound (fun hwrite => ?_)) (fun _ _ => holds_pure trivial)
  refine hfind ?_
  cases hread : c.readTxIndex s txin.prevout.hash with
  | none => exact absurd ⟨by rw [hread]; rfl, hwrite⟩ hfound
  | some txindex => rfl

theorem connectVin_sound (huniq : Set.InjOn (fun tx => CTransaction.getHash c.env tx) U)
    (hd : c.Draws U) {vin : List CTxIn} {i : Nat} (hvin : c.tx.vin.drop i = vin) (nValueIn : Int) :
    Holds (c.StateSound U) (fun _ => True) (c.connectVin vin i nValueIn) := by
  induction vin generalizing i nValueIn with
  | nil => exact holds_pure trivial
  | cons txin rest ih =>
    have htxin : c.tx.vin[i]? = some txin := by
      rw [← List.head?_drop, hvin]
      rfl
    have hrest : c.tx.vin.drop (i + 1) = rest := by
      rw [← List.tail_drop, hvin]
      rfl
    refine holds_bind (connectInput_sound huniq hd htxin nValueIn) (fun r _ => ?_)
    exact holds_bind (ih hrest _) (fun rs _ => holds_pure trivial)

theorem tallyFee_sameVin (c : TxCall) (nValueIn nMinFee : Int) :
    Keeps SameVin (c.tallyFee nValueIn nMinFee) :=
  TxCall.tallyFee_keeps sameVin_refl @SameVin.trans (fun _ _ => rfl) nValueIn nMinFee

theorem addTxIndex_sameVin (c : TxCall) (posThisTx : CDiskTxPos) :
    Keeps SameVin (c.addTxIndex posThisTx) := by
  intro s
  rw [TxCall.addTxIndex, exec_modify, SameVin]
  dsimp only
  split
  · rfl
  · split <;> rfl

theorem connectInputs_sound (huniq : Set.InjOn (fun tx => CTransaction.getHash c.env tx) U)
    (hd : c.Draws U) {s : ConnState} (hs : c.StateSound U s) (posThisTx : CDiskTxPos)
    (nMinFee : Int) :
    CacheSound c.env U c.tx (exec (c.connectInputs posThisTx nMinFee) s).2.vin := by
  have hspend : SameVin (exec (c.connectVin c.tx.vin 0 0) s).2
      (exec (c.spendInputs posThisTx nMinFee) s).2 := bind_tail sameVin_refl (fun rs =>
    keeps_bind (R := SameVin) SameVin.trans (NameCall.connectInputs_sameVin _ _)
      (fun _ => tallyFee_sameVin c _ _)) s
  have hvin := (connectVin_sound huniq hd List.drop_zero 0 s hs).1
  have hadd : SameVin (exec (doIf (c.tx.isCoinBase = false) (c.spendInputs posThisTx nMinFee)) s).2
      (exec (c.connectInputs posThisTx nMinFee) s).2 :=
    bind_tail sameVin_refl (fun _ => addTxIndex_sameVin c posThisTx) s
  rw [hadd]
  unfold doIf
  split
  · rw [hspend]
    exact hvin.cache
  · exact hs.cache

end Connect

abbrev TxHeap := Nat → Option TxObject

inductive CacheStep (env : Env) (U : Set CTransaction) (fCacheTxPrev : Bool) (m : TxHeap) :
    TxHeap → Prop
  | unserialize (k : Nat) (tx : CTransaction) (vin : List CTxInCache)
      (hfresh : ∀ cache ∈ vin, cache.txPrev = none ∧ cache.fHasPrevInfo = false) :
      CacheStep env U fCacheTxPrev m (Function.update m k (some ⟨tx, vin⟩))
  | assign {src : Nat} {obj : TxObject} (dst : Nat) (old : List CTxInCache)
      (hsrc : m src = some obj) :
      CacheStep env U fCacheTxPrev m (Function.update m dst (some (obj.assign fCacheTxPrev old)))
  | invalidateCache {k : Nat} {obj : TxObject} (nIn : Nat) (hk : m k = some obj) :
      CacheStep env U fCacheTxPrev m (Function.update m k (some (obj.invalidateCache nIn)))
  | verifySignature {k nIn : Nat} {obj obj' : TxObject} {txFrom : CTransaction} {answer : Bool}
      (hk : m k = some obj) (hfrom : txFrom ∈ U)
      (hverify : obj.verifySignature env txFrom nIn = .ok (answer, obj')) :
      CacheStep env U fCacheTxPrev m (Function.update m k (some obj'))
  | connectInputs {k : Nat} {obj : TxObject} {c : TxCall} {s : ConnState} (posThisTx : CDiskTxPos)
      (nMinFee : Int) (hk : m k = some obj) (henv : c.env = env) (htx : c.tx = obj.tx)
      (hcache : c.view.fCacheTxPrev = fCacheTxPrev) (hdraws : c.Draws U) (hpoints : c.Points s)
      (hvin : s.vin = obj.vin) :
      CacheStep env U fCacheTxPrev m (Function.update m k
        (some ⟨obj.tx, (exec (c.connectInputs posThisTx nMinFee) s).2.vin⟩))

def HeapSound (env : Env) (U : Set CTransaction) (m : TxHeap) : Prop :=
  ∀ k obj, m k = some obj → CacheSound env U obj.tx obj.vin

theorem HeapSound.put {env : Env} {U : Set CTransaction} {m : TxHeap} (h : HeapSound env U m)
    {obj : TxObject} (hobj : CacheSound env U obj.tx obj.vin) (k : Nat) :
    HeapSound env U (Function.update m k (some obj)) := by
  intro j obj' hj
  by_cases hjk : j = k
  · subst hjk
    rw [Function.update_self] at hj
    cases hj
    exact hobj
  · rw [Function.update_of_ne hjk] at hj
    exact h j obj' hj

theorem CacheSound.assign {env : Env} {U : Set CTransaction} {obj : TxObject}
    (h : CacheSound env U obj.tx obj.vin) (fCacheTxPrev : Bool) (old : List CTxInCache) :
    CacheSound env U (obj.assign fCacheTxPrev old).tx (obj.assign fCacheTxPrev old).vin := by
  intro nIn cache hc
  simp only [TxObject.assign, List.getElem?_mapIdx] at hc
  obtain ⟨src, hsrc, rfl⟩ := Option.map_eq_some_iff.mp hc
  exact (h nIn src hsrc).assign fCacheTxPrev _

theorem CacheStep.heapSound {env : Env} {U : Set CTransaction} {fCacheTxPrev : Bool} {m m' : TxHeap}
    (huniq : Set.InjOn (fun tx => CTransaction.getHash env tx) U)
    (hstep : CacheStep env U fCacheTxPrev m m') (h : HeapSound env U m) : HeapSound env U m' := by
  cases hstep with
  | unserialize k tx vin hfresh =>
    refine h.put (fun nIn cache hc => ?_) k
    obtain ⟨hprev, hinfo⟩ := hfresh cache (List.mem_of_getElem? hc)
    refine ⟨?_, ?_⟩
    · intro txPrev htx
      rw [hprev] at htx
      cases htx
    · intro hset
      rw [hinfo] at hset
      cases hset
  | @assign src obj dst old hsrc => exact h.put ((h src obj hsrc).assign fCacheTxPrev old) dst
  | @invalidateCache k obj nIn hk =>
    exact h.put ((h k obj hk).modify (fun cache _ => SoundAt.invalidateCache nIn cache)) k
  | @verifySignature k nIn obj obj' txFrom answer hk hfrom hverify =>
    exact h.put (TxObject.verifySignature_cacheSound (h k obj hk) hfrom hverify) k
  | @connectInputs k obj c s posThisTx nMinFee hk henv htx hcache hdraws hpoints hvin =>
    have hobj := h k obj hk
    subst henv
    rw [← htx, ← hvin] at hobj
    have hrun := connectInputs_sound huniq hdraws ⟨hobj, hpoints⟩ posThisTx nMinFee
    rw [htx] at hrun
    exact h.put hrun k

theorem heapSound_of_run {env : Env} {U : Set CTransaction} {fCacheTxPrev : Bool} {m : TxHeap}
    (huniq : Set.InjOn (fun tx => CTransaction.getHash env tx) U)
    (run : Relation.ReflTransGen (CacheStep env U fCacheTxPrev) (fun _ => none) m) :
    HeapSound env U m := by
  induction run with
  | refl =>
    intro k obj hk
    cases hk
  | tail _ hstep ih => exact hstep.heapSound huniq ih

theorem signature_cache_sound {env : Env} {U : Set CTransaction} {fCacheTxPrev : Bool} {m : TxHeap}
    (huniq : Set.InjOn (fun tx => CTransaction.getHash env tx) U)
    (run : Relation.ReflTransGen (CacheStep env U fCacheTxPrev) (fun _ => none) m)
    {k : Nat} {obj : TxObject} (hk : m k = some obj) (nIn : Nat) :
    (∀ cache, obj.vin[nIn]? = some cache → cache.fHasPrevInfo = true → cache.fChecked = true →
      ∃ txin, obj.tx.vin[nIn]? = some txin ∧
        (∃ prevTx ∈ U, prevTx.getHash env = txin.prevout.hash) ∧
        ∀ prevTx ∈ U, prevTx.getHash env = txin.prevout.hash →
          ∃ txout, prevTx.vout[txin.prevout.n]? = some txout ∧
            env.verifyScript txin.scriptSig txout.scriptPubKey obj.tx nIn 0 = true) ∧
      ∀ txFrom ∈ U, ∀ answer, (obj.verifySignature env txFrom nIn).map Prod.fst = .ok answer ↔
        TxObject.plainVerify env obj.tx txFrom nIn = some answer := by
  have hsound := heapSound_of_run huniq run k obj hk
  refine ⟨?_, ?_⟩
  · intro cache hc hinfo hchecked
    obtain ⟨txin, prevTx, txout, htxin, hin, hhash, hout, hscript⟩ :=
      ((hsound nIn cache hc).checked hinfo hchecked).prev
    refine ⟨txin, htxin, ⟨prevTx, hin, hhash⟩, ?_⟩
    intro prevTx' hin' hhash'
    have heq : prevTx' = prevTx := huniq hin' hin (hhash'.trans hhash.symm)
    subst heq
    exact ⟨txout, hout, hscript⟩
  · intro txFrom hfrom answer
    exact TxObject.verifySignature_eq_plain hsound huniq hfrom

def cachedPrev : CTransaction := sampleTx 1 [(7, 0)] [(coin, [UInt8.ofNat op1])]

def cachedTx : CTransaction :=
  sampleTx 1 [(cachedPrev.getHash sampleEnv, 0)] [(cent, [UInt8.ofNat op1])]

def cachedCall : TxCall where
  env := sampleEnv
  view := ⟨Disk.empty,
    fun h => if h = cachedPrev.getHash sampleEnv then some cachedPrev else none, 0, 0, true⟩
  tx := cachedTx
  pindexBlock := ⟨sampleIndex 8 1 (sampleBlock 0 []), []⟩
  fBlock := false
  fMiner := false

def cachedStart : ConnState :=
  ⟨⟨fun _ => none, fun _ => none, fun _ => none, none⟩, fun _ => none, fun _ => ∅,
    [CTxInCache.empty], 0⟩

def cachedObject : TxObject :=
  ⟨cachedTx, (exec (cachedCall.connectInputs CDiskTxPos.memPool 0) cachedStart).2.vin⟩

theorem cachedCall_draws : cachedCall.Draws {cachedPrev} := by
  refine ⟨?_, ?_⟩
  · intro h txPrev hread
    dsimp only [cachedCall] at hread
    split at hread
    · next heq =>
      obtain rfl := Option.some.inj hread
      exact ⟨rfl, heq.symm⟩
    · cases hread
  · intro pos txPrev hread
    unfold Disk.readFromDisk at hread
    split at hread <;> cases hread

theorem cachedCall_points : cachedCall.Points cachedStart := by
  refine TxCall.points_of_indexOk (fun h txindex hread => ?_) (fun hminer => ?_)
  · cases hread
  · cases hminer

theorem cachedObject_run : Relation.ReflTransGen (CacheStep sampleEnv {cachedPrev} true)
    (fun _ => none) (Function.update (Function.update (fun _ => none) 0
      (some ⟨cachedTx, [CTxInCache.empty]⟩)) 0 (some cachedObject)) := by
  have hread : CacheStep sampleEnv {cachedPrev} true (fun _ => none) (Function.update
      (fun _ => none) 0 (some ⟨cachedTx, [CTxInCache.empty]⟩)) :=
    .unserialize 0 cachedTx [CTxInCache.empty] (by decide)
  refine .tail (.single hread) ?_
  exact .connectInputs (c := cachedCall) (s := cachedStart) CDiskTxPos.memPool 0
    (Function.update_self _ _ _) rfl rfl rfl cachedCall_draws cachedCall_points rfl

theorem cachedObject_sound :
    cachedObject.vin.map (fun cache => (cache.fHasPrevInfo, cache.fChecked)) = [(true, true)] ∧
      (cachedObject.verifySignature sampleEnv cachedPrev 0).map Prod.fst = .ok true :=
  ⟨by decide +kernel, ((signature_cache_sound (Set.injOn_singleton _ _) cachedObject_run
    (Function.update_self _ _ _) 0).2 cachedPrev rfl true).mpr (by decide +kernel)⟩

end Namecoin
