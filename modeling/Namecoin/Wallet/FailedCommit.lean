import Namecoin.Wallet.KeyPool
import Namecoin.Wallet.SpentFlags

namespace Namecoin

open Std (TreeMap)

structure PoolEnv where
  newCKey : Nat → CKey
  keyTime : Nat → Int
  evp : Evp
  nTargetSize : Nat

def PoolEnv.newKey (g : PoolEnv) (n : Nat) : CKeyPool := ⟨g.keyTime n, (g.newCKey n).vchPubKey⟩

namespace KeyPoolState

variable {newKey : Nat → CKeyPool} {p p' p'' : KeyPoolState}

def takeKey (newKey : Nat → CKeyPool) (nTargetSize : Nat) (p : KeyPoolState) :
    Except Fault (VchType × KeyPoolState) :=
  match p.reserveKeyFromKeyPool newKey nTargetSize with
  | (some nIndex, .ok keypool, p') =>
    .ok (keypool.vchPubKey, (p'.keepKey nIndex).recordKept keypool.vchPubKey)
  | (none, .ok _, _) => .error .undefined
  | (_, .error fault, _) => .error fault

def Used (p p' : KeyPoolState) : Prop :=
  p.nGenerated < p'.nGenerated ∨
    (p'.nGenerated = p.nGenerated ∧ p'.setKeyPool.card < p.setKeyPool.card)

theorem Used.trans (h : p.Used p') (h' : p'.Used p'') : p.Used p'' := by
  unfold Used at *
  omega

theorem Used.ne (h : p.Used p') : p' ≠ p := by
  rintro rfl
  unfold Used at h
  omega

theorem topUp_nGenerated (nTargetSize fuel : Nat) (p : KeyPoolState) :
    p.topUp newKey nTargetSize fuel = p ∨
      p.nGenerated < (p.topUp newKey nTargetSize fuel).nGenerated := by
  induction fuel generalizing p with
  | zero => exact .inl rfl
  | succ fuel ih =>
    rw [topUp]
    split
    · have hborn : (p.writeNewKey newKey p.nEnd).nGenerated = p.nGenerated + 1 := rfl
      rcases ih (p.writeNewKey newKey p.nEnd) with hsame | hmore
      · rw [hsame, hborn]
        exact .inr (Nat.lt_succ_self _)
      · exact .inr (by omega)
    · exact .inl rfl

theorem refill_nGenerated (newKey : Nat → CKeyPool) (nTargetSize : Nat) (p : KeyPoolState) :
    p.refill newKey nTargetSize = p ∨
      p.nGenerated < (p.refill newKey nTargetSize).nGenerated := by
  rw [refill]
  split
  · exact .inl rfl
  · exact topUp_nGenerated nTargetSize _ p

theorem takeOldest_card {nIndex : Option Nat} {keypool : CKeyPool}
    (h : p.takeOldest = (nIndex, .ok keypool, p')) :
    p'.nGenerated = p.nGenerated ∧ p'.setKeyPool.card < p.setKeyPool.card ∧
      p'.reserved = p.reserved := by
  rw [takeOldest] at h
  split at h
  · rename_i hne
    have hin := p.setKeyPool.min'_mem hne
    have hless := Finset.card_erase_lt_of_mem hin
    dsimp only at h
    split at h
    · cases h
    · split at h
      · cases h
      · split at h
        · cases h
        · cases h
          exact ⟨rfl, hless, rfl⟩
  · cases h

theorem refill_reserved (nTargetSize : Nat) (p : KeyPoolState) :
    (p.refill newKey nTargetSize).reserved = p.reserved := by
  rw [refill]
  split
  · rfl
  · exact PoolOk.topUp_reserved _ _ _

theorem takeKey_used {nTargetSize : Nat} {vchPubKey : VchType}
    (h : p.takeKey newKey nTargetSize = .ok (vchPubKey, p')) :
    p.Used p' ∧ p'.reserved = p.reserved := by
  unfold takeKey at h
  split at h
  · rename_i nIndex keypool taken htaken
    cases h
    obtain ⟨hborn, hcard, hreserved⟩ := takeOldest_card htaken
    obtain ⟨hset, hres, -, -, hgen⟩ := PoolOk.keepKey_rest (s := taken) (i := nIndex)
    have hset' : ((taken.keepKey nIndex).recordKept keypool.vchPubKey).setKeyPool =
        taken.setKeyPool := hset
    have hgen' : ((taken.keepKey nIndex).recordKept keypool.vchPubKey).nGenerated =
        taken.nGenerated := hgen
    refine ⟨?_, hres.trans (hreserved.trans (refill_reserved nTargetSize p))⟩
    rw [Used, hset', hgen', hborn]
    rcases refill_nGenerated newKey nTargetSize p with hsame | hmore
    · rw [hsame] at hcard ⊢
      exact .inr ⟨rfl, hcard⟩
    · exact .inl hmore
  · cases h
  · cases h

theorem keepReserved_rest (k : Nat) (p : KeyPoolState) :
    (p.keepReserved k).nGenerated = p.nGenerated ∧
      (p.keepReserved k).setKeyPool = p.setKeyPool ∧
      (p.keepReserved k).fFileBacked = p.fFileBacked ∧ (p.keepReserved k).reserved k = none := by
  rw [keepReserved]
  cases hres : p.reserved k with
  | none => exact ⟨rfl, rfl, rfl, hres⟩
  | some r =>
    obtain ⟨hset, -, -, -, hgen⟩ := PoolOk.keepKey_rest (s := p) (i := r.1)
    refine ⟨hgen, hset, ?_, Function.update_self _ _ _⟩
    dsimp only [setReserved, recordKept]
    rw [keepKey]
    split <;> rfl

theorem keepReserved_none {k : Nat} (h : p.reserved k = none) : p.keepReserved k = p := by
  rw [keepReserved, h]

end KeyPoolState

structure CommitState (env : Env) where
  wallet : Wallet env
  pool : KeyPoolState
  vchDefaultKey : VchType

namespace Wallet

variable {env : Env}

def addGenerated (g : PoolEnv) (nFirst nLast : Nat) (w : Wallet env) : Wallet env :=
  { w with
    keys := (List.range' nFirst (nLast - nFirst)).foldl
      (fun ks n => (ks.addKey env g.evp (g.newCKey n)).2) w.keys }

def insertOrMerge (e : NodeEnv) (wtxIn : WalletTx) (w : Wallet env) : WalletTx :=
  match w.mapWallet[wtxIn.merkle.tx.getHash env]? with
  | none => { wtxIn with nTimeReceived := e.nNow }
  | some old => old.merge wtxIn

end Wallet

namespace CommitState

variable {env : Env}

def replaceDefaultKey (g : PoolEnv) (scriptDefaultKey : CScript) :
    List CTxOut → CommitState env → Except Fault (CommitState env)
  | [], m => .ok m
  | txout :: rest, m => do
    if txout.scriptPubKey = scriptDefaultKey ∧ m.pool.fFileBacked = true then
      let taken ← m.pool.takeKey g.newKey g.nTargetSize
      let wallet := m.wallet.addGenerated g m.pool.nGenerated taken.2.nGenerated
      replaceDefaultKey g scriptDefaultKey rest ⟨wallet, taken.2, taken.1⟩
    else replaceDefaultKey g scriptDefaultKey rest m

def addToWallet (e : NodeEnv) (s : NodeState) (g : PoolEnv) (wtxIn : WalletTx)
    (m : CommitState env) : Except Fault (CommitState env) := do
  let wtx := m.wallet.insertOrMerge e wtxIn
  let m := { m with wallet := m.wallet.putTx wtx }
  let scriptDefaultKey := setBitcoinAddress (env.hash160 m.vchDefaultKey)
  let m ← m.replaceDefaultKey g scriptDefaultKey wtx.merkle.tx.vout
  let wallet ← Wallet.walletUpdateSpent e s wtx.merkle.tx.vin m.wallet
  return { m with wallet := wallet }

def commitTransaction (e : NodeEnv) (g : PoolEnv) (fRateLimited : Bool) (k : Nat)
    (wtxNew : WalletTx) (m : CommitState e.env) (s : NodeState) :
    Except Fault (Bool × CommitState e.env × NodeState) := do
  let m := { m with pool := m.pool.keepReserved k }
  let m ← m.addToWallet e s g wtxNew
  let wallet ← m.wallet.markInputs wtxNew.merkle.tx.vin
  let m := { m with wallet := wallet }
  match Act.exec (acceptToMemoryPool e wtxNew.merkle.tx true true fRateLimited) s with
  | (.ok (), s) => return (true, m, s)
  | (.error (.reject _), s) => return (false, m, s)
  | (.error fault, _) => .error fault

end CommitState

def WalletTx.record (wtx : WalletTx) :
    CMerkleTx × Nat × Bool × Bool × List (CMerkleTx × Bool) × StdString :=
  (wtx.merkle, wtx.nTimeReceived, wtx.fFromMe, wtx.fMerkleVerified, wtx.vtxPrev, wtx.strFromAccount)

structure WalletTx.Absorbs (old wtxIn : WalletTx) : Prop where
  block : wtxIn.merkle.hashBlock = 0 ∨ wtxIn.merkle.hashBlock = old.merkle.hashBlock
  branch : wtxIn.merkle.nIndex = -1 ∨ (wtxIn.merkle.vMerkleBranch = old.merkle.vMerkleBranch ∧
    wtxIn.merkle.nIndex = old.merkle.nIndex)
  fromMe : wtxIn.fFromMe = true → old.fFromMe = true
  spent : ∀ n < old.merkle.tx.vout.length, n < old.vfSpent.length → wtxIn.spentAt n = true →
    old.spentAt n = true

namespace Wallet

variable {env : Env} {w w' w'' : Wallet env} {e : NodeEnv} {s : NodeState} {hash : Uint256}
  {wtx wtx' old wtxIn : WalletTx} {S S' : Set COutPoint}

def inPoints (vin : List CTxIn) : Set COutPoint := {o | ∃ txin ∈ vin, txin.prevout = o}

structure Marks (w w' : Wallet env) (S : Set COutPoint) : Prop where
  keys : w'.keys = w.keys
  record : ∀ hash : Uint256,
    (w'.mapWallet[hash]?).map WalletTx.record = (w.mapWallet[hash]?).map WalletTx.record
  spent : ∀ o, (w.toCWallet.outAt o).isSome →
    (w'.toCWallet.spentAt o = true ↔ w.toCWallet.spentAt o = true ∨ o ∈ S)

theorem record_txAt
    (h : ∀ hash : Uint256,
      (w'.mapWallet[hash]?).map WalletTx.record = (w.mapWallet[hash]?).map WalletTx.record) :
    w'.toCWallet.txAt = w.toCWallet.txAt := by
  funext hash
  have hmap := congrArg (Option.map (fun r => r.1.tx)) (h hash)
  rw [Option.map_map, Option.map_map] at hmap
  rw [txAt_toCWallet, txAt_toCWallet]
  exact hmap

theorem Marks.outAt (h : Marks w w' S) : w'.toCWallet.outAt = w.toCWallet.outAt := by
  funext o
  rw [CWallet.outAt, CWallet.outAt, record_txAt h.record]

theorem Marks.refl (w : Wallet env) : Marks w w ∅ := ⟨rfl, fun _ => rfl, fun o _ => by simp⟩

theorem Marks.trans (h : Marks w w' S) (h' : Marks w' w'' S') : Marks w w'' (S ∪ S') where
  keys := h'.keys.trans h.keys
  record hash := (h'.record hash).trans (h.record hash)
  spent o ho := by
    rw [h'.spent o (by rwa [h.outAt]), h.spent o ho, Set.mem_union, or_assoc]

theorem Marks.congr (h : Marks w w' S)
    (hS : ∀ o, (w.toCWallet.outAt o).isSome →
      (w.toCWallet.spentAt o = true ∨ o ∈ S ↔ w.toCWallet.spentAt o = true ∨ o ∈ S')) :
    Marks w w' S' :=
  ⟨h.keys, h.record, fun o ho => (h.spent o ho).trans (hS o ho)⟩

theorem owns_congr (hkeys : w'.keys = w.keys)
    (hout : w'.toCWallet.outAt = w.toCWallet.outAt) (o : COutPoint) :
    w'.toCWallet.Owns o ↔ w.toCWallet.Owns o := by
  have hscript : w'.toCWallet.isMineTxOut = w.toCWallet.isMineTxOut := by
    funext txout
    exact congrArg (fun ks : CKeyStore => ks.isMine env txout.scriptPubKey) hkeys
  rw [CWallet.Owns, CWallet.Owns, hout, hscript]

theorem Marks.owns (h : Marks w w' S) (o : COutPoint) :
    w'.toCWallet.Owns o ↔ w.toCWallet.Owns o := owns_congr h.keys h.outAt o

theorem spentAt_putTx (w : Wallet env) (wtx : WalletTx) (o : COutPoint) :
    (w.putTx wtx).toCWallet.spentAt o =
      if wtx.merkle.tx.getHash env = o.hash then wtx.spentAt o.n else w.toCWallet.spentAt o := by
  have hread : ∀ u : Wallet env, u.toCWallet.spentAt o =
      ((u.mapWallet[o.hash]?).map (fun v => v.spentAt o.n)).getD false := by
    intro u
    have hmap : u.toCWallet.mapWallet o.hash =
        (u.mapWallet[o.hash]?).map WalletTx.toCWalletTx := rfl
    rw [CWallet.spentAt, hmap]
    cases u.mapWallet[o.hash]? <;> rfl
  rw [hread, hread, getElem?_putTx]
  split <;> rfl

theorem outAt_lt {n : Nat} (hget : w.mapWallet[hash]? = some wtx)
    (ho : (w.toCWallet.outAt ⟨hash, n⟩).isSome) : n < wtx.merkle.tx.vout.length := by
  rw [CWallet.outAt, txAt_toCWallet, txOf_of_get hget, Option.bind_some] at ho
  simpa using ho

theorem marks_putTx_outs {T : Set Nat} (hget : w.mapWallet[hash]? = some wtx)
    (hrecord : wtx'.record = wtx.record)
    (hspent : ∀ n < wtx.merkle.tx.vout.length,
      (wtx'.spentAt n = true ↔ wtx.spentAt n = true ∨ n ∈ T)) :
    Marks w (w.putTx wtx') {o | o.hash = hash ∧ o.n ∈ T} := by
  have hmerkle : wtx'.merkle = wtx.merkle := congrArg Prod.fst hrecord
  have hhash : wtx'.merkle.tx.getHash env = hash := by
    rw [hmerkle]
    exact w.keyed hash wtx hget
  refine ⟨rfl, fun k => ?_, fun o ho => ?_⟩
  · rw [getElem?_putTx, hhash]
    split
    · rename_i heq
      subst heq
      rw [hget, Option.map_some, Option.map_some, hrecord]
    · rfl
  · obtain ⟨k, n⟩ := o
    rw [spentAt_putTx, hhash, Set.mem_ofPred_eq]
    dsimp only
    split
    · rename_i heq
      subst heq
      rw [hspent n (outAt_lt hget ho), spentAt_of_get hget]
      simp
    · rename_i hne
      have hother : k ≠ hash := fun heq => hne heq.symm
      simp only [hother, false_and, or_false]

theorem marks_putTx (nOut : Nat) (hget : w.mapWallet[hash]? = some wtx)
    (hrecord : wtx'.record = wtx.record)
    (hspent : ∀ n < wtx.merkle.tx.vout.length,
      (wtx'.spentAt n = true ↔ wtx.spentAt n = true ∨ n = nOut)) :
    Marks w (w.putTx wtx') {⟨hash, nOut⟩} := by
  refine (marks_putTx_outs (T := {nOut}) hget hrecord hspent).congr fun o _ => ?_
  obtain ⟨k, n⟩ := o
  simp only [Set.mem_ofPred_eq, Set.mem_singleton_iff, COutPoint.mk.injEq]

theorem markSpent_spent {nOut : Nat} (h : wtx.markSpent nOut = .ok wtx') :
    wtx'.record = wtx.record ∧ nOut < wtx.merkle.tx.vout.length ∧
      ∀ n < wtx.merkle.tx.vout.length,
        (wtx'.spentAt n = true ↔ wtx.spentAt n = true ∨ n = nOut) := by
  unfold WalletTx.markSpent at h
  dsimp only at h
  split at h
  · cases h
  · rename_i hin
    have hlt : nOut < wtx.merkle.tx.vout.length := not_le.mp hin
    split at h
    · rename_i hflag
      cases h
      refine ⟨rfl, hlt, fun n hn => ?_⟩
      rw [padded_spentAt wtx hlt] at hflag
      have hsame := padded_spentAt wtx hn
      constructor
      · intro hspent
        exact .inl (hsame.symm.trans hspent)
      · rintro (hspent | rfl)
        · exact hsame.trans hspent
        · exact hsame.trans hflag
    · cases h
      refine ⟨rfl, hlt, fun n hn => ?_⟩
      have hset : (wtx.setSpent (((wtx.vfSpent ++ List.replicate wtx.merkle.tx.vout.length
          false).take wtx.merkle.tx.vout.length).set nOut true)).spentAt n =
            (wtx.spentAt n || decide (n = nOut)) :=
        @CWalletTx.markSpent_spentAt wtx.toCWalletTx nOut n hn
      rw [hset, Bool.or_eq_true, decide_eq_true_eq]

theorem fillCredit_record (h : w.fillCredit e s wtx = .ok wtx') :
    wtx'.record = wtx.record ∧ wtx'.vfSpent = wtx.vfSpent := by
  unfold Wallet.fillCredit at h
  split at h
  · cases h
    exact ⟨rfl, rfl⟩
  · obtain ⟨nCredit, -, rfl⟩ := map_eq_ok h
    exact ⟨rfl, rfl⟩

theorem inPoints_cons (txin : CTxIn) (rest : List CTxIn) :
    inPoints (txin :: rest) = ({txin.prevout} : Set COutPoint) ∪ inPoints rest := by
  ext o
  simp only [inPoints, List.mem_cons, exists_eq_or_imp, Set.mem_union, Set.mem_singleton_iff]
  exact or_congr eq_comm Iff.rfl

theorem owns_of_get {n : Nat} (hget : w.mapWallet[hash]? = some wtx) :
    w.toCWallet.Owns ⟨hash, n⟩ ↔
      ((wtx.merkle.tx.vout[n]?).map w.toCWallet.isMineTxOut).getD false = true := by
  rw [CWallet.Owns, CWallet.outAt, txAt_toCWallet, txOf_of_get hget, Option.bind_some]
  cases wtx.merkle.tx.vout[n]? with
  | none => simp
  | some txout => simp

theorem walletUpdateSpent_marks {vin : List CTxIn} (h : walletUpdateSpent e s vin w = .ok w') :
    Marks w w' {o | w.toCWallet.Owns o ∧ o ∈ inPoints vin} := by
  induction vin generalizing w with
  | nil =>
    cases h
    refine ⟨rfl, fun _ => rfl, fun o _ => ?_⟩
    simp [inPoints]
  | cons txin rest ih =>
    have hskip : ∀ {u : Wallet env}, Marks w u {o | w.toCWallet.Owns o ∧ o ∈ inPoints rest} →
        (w.toCWallet.Owns txin.prevout → w.toCWallet.spentAt txin.prevout = true) →
        Marks w u {o | w.toCWallet.Owns o ∧ o ∈ inPoints (txin :: rest)} := by
      intro u hrest hidle
      refine hrest.congr fun o _ => ?_
      simp only [inPoints_cons, Set.mem_ofPred_eq, Set.mem_union, Set.mem_singleton_iff]
      constructor
      · rintro (hspent | ⟨hown, hin⟩)
        · exact .inl hspent
        · exact .inr ⟨hown, .inr hin⟩
      · rintro (hspent | ⟨hown, rfl | hin⟩)
        · exact .inl hspent
        · exact .inl (hidle hown)
        · exact .inr ⟨hown, hin⟩
    rw [walletUpdateSpent] at h
    split at h
    · rename_i hget
      refine hskip (ih h) fun hown => ?_
      obtain ⟨txout, hout, -⟩ := hown
      rw [CWallet.outAt, txAt_toCWallet, txOf, hget] at hout
      cases hout
    · rename_i wtx hget
      have howns := owns_of_get (n := txin.prevout.n) hget
      have hflag := spentAt_of_get (n := txin.prevout.n) hget
      obtain ⟨spent, hspent, h⟩ := Except.bind_eq_ok.mp h
      rw [CWalletTx.isSpent] at hspent
      split at hspent
      · cases hspent
      · cases hspent
        dsimp only at h
        split at h
        · rename_i hmark
          obtain ⟨filled, hfilled, h⟩ := Except.bind_eq_ok.mp h
          obtain ⟨marked, hmarked, h⟩ := Except.bind_eq_ok.mp h
          obtain ⟨hrecordFilled, hvf⟩ := fillCredit_record hfilled
          obtain ⟨hrecord, hlt, hspentMarked⟩ := markSpent_spent hmarked
          have hmerkle : filled.merkle = wtx.merkle := congrArg Prod.fst hrecordFilled
          have hsame : ∀ n, filled.spentAt n = wtx.spentAt n := by
            intro n
            rw [CWalletTx.spentAt, CWalletTx.spentAt, hvf]
          have hfirst := marks_putTx txin.prevout.n hget (hrecord.trans hrecordFilled)
            (by
              intro n hn
              rw [← hsame n]
              exact hspentMarked n (by rwa [hmerkle]))
          have hmine : w.toCWallet.Owns txin.prevout := by
            refine howns.mpr ?_
            rw [Bool.and_eq_true] at hmark
            exact hmark.2
          refine (hfirst.trans (ih h)).congr fun o _ => ?_
          simp only [inPoints_cons, Set.mem_ofPred_eq, Set.mem_union, Set.mem_singleton_iff,
            hfirst.owns]
          constructor
          · rintro (hspent | rfl | ⟨hown, hin⟩)
            · exact .inl hspent
            · exact .inr ⟨hmine, .inl rfl⟩
            · exact .inr ⟨hown, .inr hin⟩
          · rintro (hspent | ⟨hown, rfl | hin⟩)
            · exact .inl hspent
            · exact .inr (.inl rfl)
            · exact .inr (.inr ⟨hown, hin⟩)
        · rename_i hmark
          refine hskip (ih h) fun hown => ?_
          have hmine := howns.mp hown
          rw [Bool.and_eq_true, not_and] at hmark
          refine hflag.trans ?_
          cases hspent : wtx.spentAt txin.prevout.n with
          | true => rfl
          | false =>
            refine absurd hmine (hmark ?_)
            change (!wtx.spentAt txin.prevout.n) = true
            rw [hspent]
            rfl

theorem markInputs_marks {vin : List CTxIn} (h : markInputs vin w = .ok w') :
    Marks w w' (inPoints vin) ∧ ∀ o ∈ inPoints vin, (w.toCWallet.outAt o).isSome := by
  induction vin generalizing w with
  | nil =>
    cases h
    refine ⟨⟨rfl, fun _ => rfl, fun o _ => ?_⟩, ?_⟩
    · simp [inPoints]
    · simp [inPoints]
  | cons txin rest ih =>
    rw [markInputs] at h
    split at h
    · cases h
    · rename_i coin hget
      obtain ⟨marked, hmark, h⟩ := Except.bind_eq_ok.mp h
      obtain ⟨hrecord, hlt, hspent⟩ := markSpent_spent hmark
      have hfirst := marks_putTx txin.prevout.n hget hrecord hspent
      obtain ⟨hrest, hin⟩ := ih h
      rw [inPoints_cons]
      refine ⟨hfirst.trans hrest, ?_⟩
      rintro o (rfl | ho)
      · rw [CWallet.outAt, txAt_toCWallet, txOf_of_get hget, Option.bind_some]
        simpa using hlt
      · rw [← hfirst.outAt]
        exact hin o ho

theorem mergeTx_merkle (old wtxIn : CWalletTx) :
    (CWallet.mergeTx old wtxIn).merkle =
      ⟨old.merkle.tx,
        if wtxIn.merkle.hashBlock ≠ 0 then wtxIn.merkle.hashBlock else old.merkle.hashBlock,
        if wtxIn.merkle.nIndex ≠ -1 then wtxIn.merkle.vMerkleBranch else old.merkle.vMerkleBranch,
        if wtxIn.merkle.nIndex ≠ -1 then wtxIn.merkle.nIndex else old.merkle.nIndex⟩ := by
  unfold CWallet.mergeTx CWalletTx.updateSpent
  dsimp only
  split <;> rfl

theorem merge_record_iff : (old.merge wtxIn).record = old.record ↔
    (wtxIn.merkle.hashBlock = 0 ∨ wtxIn.merkle.hashBlock = old.merkle.hashBlock) ∧
    (wtxIn.merkle.nIndex = -1 ∨ (wtxIn.merkle.vMerkleBranch = old.merkle.vMerkleBranch ∧
      wtxIn.merkle.nIndex = old.merkle.nIndex)) ∧
    (wtxIn.fFromMe = true → old.fFromMe = true) := by
  have hrecord : (old.merge wtxIn).record = old.record ↔
      (CWallet.mergeTx old.toCWalletTx wtxIn.toCWalletTx).merkle = old.merkle ∧
        (old.fFromMe || wtxIn.fFromMe) = old.fFromMe := by
    constructor
    · intro h
      exact ⟨congrArg Prod.fst h, congrArg (fun r => r.2.2.1) h⟩
    · rintro ⟨hmerkle, hfrom⟩
      exact Prod.ext hmerkle (Prod.ext rfl (Prod.ext hfrom rfl))
  have hsame : ∀ m : CMerkleTx, m = ⟨m.tx, m.hashBlock, m.vMerkleBranch, m.nIndex⟩ := fun _ => rfl
  rw [hrecord, mergeTx_merkle, hsame old.merkle, CMerkleTx.mk.injEq]
  have hfrom : (old.fFromMe || wtxIn.fFromMe) = old.fFromMe ↔
      (wtxIn.fFromMe = true → old.fFromMe = true) := by
    cases old.fFromMe <;> cases wtxIn.fFromMe <;> decide
  rw [hfrom]
  have hblock : (if wtxIn.merkle.hashBlock ≠ 0 then wtxIn.merkle.hashBlock
      else old.merkle.hashBlock) = old.merkle.hashBlock ↔
      (wtxIn.merkle.hashBlock = 0 ∨ wtxIn.merkle.hashBlock = old.merkle.hashBlock) := by
    rcases eq_or_ne wtxIn.merkle.hashBlock 0 with hzero | hset
    · simp [hzero]
    · rw [if_pos hset]
      exact (or_iff_right hset).symm
  have hbranch : (if wtxIn.merkle.nIndex ≠ -1 then wtxIn.merkle.vMerkleBranch
      else old.merkle.vMerkleBranch) = old.merkle.vMerkleBranch ∧
      (if wtxIn.merkle.nIndex ≠ -1 then wtxIn.merkle.nIndex else old.merkle.nIndex) =
        old.merkle.nIndex ↔
      (wtxIn.merkle.nIndex = -1 ∨ (wtxIn.merkle.vMerkleBranch = old.merkle.vMerkleBranch ∧
        wtxIn.merkle.nIndex = old.merkle.nIndex)) := by
    rcases eq_or_ne wtxIn.merkle.nIndex (-1) with hnone | hset
    · simp [hnone]
    · simp [hset]
  rw [← hblock, ← hbranch]
  constructor
  · rintro ⟨⟨-, hhash, hvBranch, hindex⟩, hme⟩
    exact ⟨hhash, ⟨hvBranch, hindex⟩, hme⟩
  · rintro ⟨hhash, ⟨hvBranch, hindex⟩, hme⟩
    exact ⟨⟨rfl, hhash, hvBranch, hindex⟩, hme⟩

theorem merge_spentAt (old wtxIn : WalletTx) (n : Nat) :
    (old.merge wtxIn).spentAt n = true ↔
      old.spentAt n = true ∨ (n < old.vfSpent.length ∧ wtxIn.spentAt n = true) := by
  have hflags : (old.merge wtxIn).spentAt n =
      (old.spentAt n || (decide (n < old.vfSpent.length) && wtxIn.spentAt n)) := by
    change (CWallet.mergeTx old.toCWalletTx wtxIn.toCWalletTx).spentAt n = _
    unfold CWallet.mergeTx
    dsimp only
    rw [CWalletTx.updateSpent_spentAt]
    rfl
  rw [hflags, Bool.or_eq_true, Bool.and_eq_true, decide_eq_true_eq]

end Wallet

namespace CommitState

variable {e : NodeEnv} {g : PoolEnv} {s s' : NodeState} {k : Nat} {fRateLimited : Bool}
  {m m' : CommitState e.env} {wtxNew wtxIn : WalletTx}

structure Unchanged (m m' : CommitState e.env) : Prop where
  record : ∀ hash : Uint256, (m'.wallet.mapWallet[hash]?).map WalletTx.record =
    (m.wallet.mapWallet[hash]?).map WalletTx.record
  spent : ∀ o, (m.wallet.toCWallet.outAt o).isSome →
    m'.wallet.toCWallet.spentAt o = m.wallet.toCWallet.spentAt o
  pool : m'.pool = m.pool

structure Recorded (m : CommitState e.env) (k : Nat) (wtxNew old : WalletTx) : Prop where
  stored : m.wallet.mapWallet[wtxNew.merkle.tx.getHash e.env]? = some old
  absorbs : old.Absorbs wtxNew
  unreserved : m.pool.reserved k = none
  defaultKey : m.pool.fFileBacked = true → ∀ txout ∈ old.merkle.tx.vout,
    txout.scriptPubKey ≠ setBitcoinAddress (e.env.hash160 m.vchDefaultKey)
  owned : ∀ txin ∈ old.merkle.tx.vin, m.wallet.toCWallet.Owns txin.prevout →
    m.wallet.toCWallet.spentAt txin.prevout = true
  inputs : ∀ txin ∈ wtxNew.merkle.tx.vin, m.wallet.toCWallet.spentAt txin.prevout = true

theorem replaceDefaultKey_cases {script : CScript} {vout : List CTxOut}
    (h : replaceDefaultKey g script vout m = .ok m') :
    m'.wallet.mapWallet = m.wallet.mapWallet ∧
    ((m' = m ∧ (m.pool.fFileBacked = true → ∀ txout ∈ vout, txout.scriptPubKey ≠ script)) ∨
      (m.pool.Used m'.pool ∧
        ¬(m.pool.fFileBacked = true → ∀ txout ∈ vout, txout.scriptPubKey ≠ script))) := by
  induction vout generalizing m with
  | nil =>
    cases h
    exact ⟨rfl, .inl ⟨rfl, fun _ => by simp⟩⟩
  | cons txout rest ih =>
    rw [replaceDefaultKey] at h
    split at h
    · rename_i hpays
      obtain ⟨⟨vchPubKey, pool⟩, htaken, h⟩ := Except.bind_eq_ok.mp h
      have hused := (KeyPoolState.takeKey_used htaken).1
      obtain ⟨hmap, hrest⟩ := ih h
      refine ⟨hmap, .inr ⟨?_, fun hnot => hnot hpays.2 txout List.mem_cons_self hpays.1⟩⟩
      rcases hrest with ⟨rfl, -⟩ | ⟨hmore, -⟩
      · exact hused
      · exact hused.trans hmore
    · rename_i hother
      obtain ⟨hmap, hrest⟩ := ih h
      have hsplit : (m.pool.fFileBacked = true → ∀ out ∈ txout :: rest, out.scriptPubKey ≠ script) ↔
          (m.pool.fFileBacked = true → ∀ out ∈ rest, out.scriptPubKey ≠ script) := by
        simp only [List.forall_mem_cons]
        tauto
      rw [hsplit]
      exact ⟨hmap, hrest⟩

theorem commitTransaction_steps {fOk : Bool}
    (h : m.commitTransaction e g fRateLimited k wtxNew s = .ok (fOk, m', s')) :
    ∃ m₁ : CommitState e.env, ∃ w₂,
      replaceDefaultKey g (setBitcoinAddress (e.env.hash160 m.vchDefaultKey))
        (m.wallet.insertOrMerge e wtxNew).merkle.tx.vout
        ⟨m.wallet.putTx (m.wallet.insertOrMerge e wtxNew), m.pool.keepReserved k,
          m.vchDefaultKey⟩ = .ok m₁ ∧
      Wallet.walletUpdateSpent e s (m.wallet.insertOrMerge e wtxNew).merkle.tx.vin m₁.wallet =
        .ok w₂ ∧
      Wallet.markInputs wtxNew.merkle.tx.vin w₂ = .ok m'.wallet ∧ m'.pool = m₁.pool := by
  obtain ⟨added, hadded, h⟩ := Except.bind_eq_ok.mp h
  obtain ⟨m₁, hkey, hadded⟩ := Except.bind_eq_ok.mp hadded
  obtain ⟨w₂, hupdate, hadded⟩ := Except.bind_eq_ok.mp hadded
  cases hadded
  obtain ⟨w₃, hmark, h⟩ := Except.bind_eq_ok.mp h
  refine ⟨m₁, w₂, hkey, hupdate, ?_⟩
  split at h
  · cases h
    exact ⟨hmark, rfl⟩
  · cases h
    exact ⟨hmark, rfl⟩
  · cases h

theorem insertOrMerge_hash (w : Wallet e.env) (wtxIn : WalletTx) :
    (w.insertOrMerge e wtxIn).merkle.tx.getHash e.env = wtxIn.merkle.tx.getHash e.env := by
  rw [Wallet.insertOrMerge]
  cases hold : w.mapWallet[wtxIn.merkle.tx.getHash e.env]? with
  | none => rfl
  | some old =>
    dsimp only
    rw [Wallet.merge_tx]
    exact w.keyed _ old hold

structure Merged (w u : Wallet e.env) (wtxNew old : WalletTx) : Prop where
  keys : u.keys = w.keys
  record : ∀ hash : Uint256,
    (u.mapWallet[hash]?).map WalletTx.record = (w.mapWallet[hash]?).map WalletTx.record
  spent : ∀ o, u.toCWallet.spentAt o = true ↔ w.toCWallet.spentAt o = true ∨
    (o.hash = wtxNew.merkle.tx.getHash e.env ∧ o.n < old.vfSpent.length ∧
      wtxNew.spentAt o.n = true)

theorem merged_putTx {w : Wallet e.env} {old : WalletTx}
    (hstored : w.mapWallet[wtxNew.merkle.tx.getHash e.env]? = some old)
    (hrecord : (old.merge wtxNew).record = old.record) :
    Merged w (w.putTx (old.merge wtxNew)) wtxNew old := by
  have hhash : (old.merge wtxNew).merkle.tx.getHash e.env = wtxNew.merkle.tx.getHash e.env := by
    rw [Wallet.merge_tx]
    exact w.keyed _ old hstored
  refine ⟨rfl, fun hash => ?_, fun o => ?_⟩
  · rw [Wallet.getElem?_putTx, hhash]
    split
    · rename_i heq
      rw [← heq, hstored, Option.map_some, Option.map_some, hrecord]
    · rfl
  · obtain ⟨hash, n⟩ := o
    rw [Wallet.spentAt_putTx, hhash]
    dsimp only
    split
    · rename_i heq
      subst heq
      rw [Wallet.spentAt_of_get hstored, Wallet.merge_spentAt]
      simp
    · rename_i hne
      constructor
      · exact .inl
      · rintro (hspent | ⟨heq, -⟩)
        · exact hspent
        · exact absurd heq.symm hne

theorem Merged.marks {w u : Wallet e.env} {old : WalletTx} (h : Merged w u wtxNew old)
    (hspent : ∀ n < old.merkle.tx.vout.length, n < old.vfSpent.length →
      wtxNew.spentAt n = true → old.spentAt n = true)
    (hstored : w.mapWallet[wtxNew.merkle.tx.getHash e.env]? = some old) :
    Wallet.Marks w u ∅ := by
  refine ⟨h.keys, h.record, fun o ho => ?_⟩
  rw [h.spent o, Set.mem_empty_iff_false, or_false]
  constructor
  · rintro (hflag | ⟨heq, hlen, hnew⟩)
    · exact hflag
    · obtain ⟨hash, n⟩ := o
      dsimp only at heq hlen hnew
      subst heq
      rw [Wallet.spentAt_of_get hstored]
      exact hspent n (Wallet.outAt_lt hstored ho) hlen hnew
  · exact .inl

theorem unchanged_stored {m₁ : CommitState e.env} {w₂ : Wallet e.env} {S S' : Set COutPoint}
    (hsame : m.Unchanged m')
    (hmap : m₁.wallet.mapWallet =
      (m.wallet.putTx (m.wallet.insertOrMerge e wtxNew)).mapWallet)
    (hfirst : Wallet.Marks m₁.wallet w₂ S) (hlast : Wallet.Marks w₂ m'.wallet S') :
    ∃ old, m.wallet.mapWallet[wtxNew.merkle.tx.getHash e.env]? = some old ∧
      m.wallet.insertOrMerge e wtxNew = old.merge wtxNew ∧
      (old.merge wtxNew).record = old.record := by
  have hread := hsame.record (wtxNew.merkle.tx.getHash e.env)
  rw [hlast.record, hfirst.record, hmap, Wallet.getElem?_putTx, insertOrMerge_hash, if_pos rfl,
    Option.map_some] at hread
  cases hstored : m.wallet.mapWallet[wtxNew.merkle.tx.getHash e.env]? with
  | none =>
    rw [hstored] at hread
    cases hread
  | some old =>
    have hmerge : m.wallet.insertOrMerge e wtxNew = old.merge wtxNew := by
      rw [Wallet.insertOrMerge, hstored]
    rw [hstored, hmerge, Option.map_some] at hread
    exact ⟨old, rfl, hmerge, Option.some.inj hread⟩

theorem unchanged_pool {m₁ : CommitState e.env} {vout : List CTxOut} {script : CScript}
    {w : Wallet e.env} (hpool : m₁.pool = m.pool)
    (h : replaceDefaultKey g script vout ⟨w, m.pool.keepReserved k, m.vchDefaultKey⟩ = .ok m₁) :
    m₁.wallet = w ∧ m.pool.reserved k = none ∧
      (m.pool.fFileBacked = true → ∀ txout ∈ vout, txout.scriptPubKey ≠ script) := by
  obtain ⟨hborn, hset, hbacked, hreleased⟩ := KeyPoolState.keepReserved_rest k m.pool
  rcases (replaceDefaultKey_cases h).2 with ⟨rfl, hnone⟩ | ⟨hused, -⟩
  · dsimp only at hpool hnone
    rw [hbacked] at hnone
    rw [hpool] at hreleased
    exact ⟨rfl, hreleased, hnone⟩
  · have hmore : m.pool.Used m₁.pool := by
      unfold KeyPoolState.Used at hused ⊢
      dsimp only at hused
      rwa [hborn, hset] at hused
    exact absurd hpool hmore.ne

theorem failed_commit_unchanged_iff (e : NodeEnv) (g : PoolEnv) (fRateLimited : Bool) (k : Nat)
    (wtxNew : WalletTx) (m m' : CommitState e.env) (s s' : NodeState)
    (h : m.commitTransaction e g fRateLimited k wtxNew s = .ok (false, m', s')) :
    m.Unchanged m' ↔ ∃ old, m.Recorded k wtxNew old := by
  obtain ⟨m₁, w₂, hkey, hupdate, hmark, hpool⟩ := commitTransaction_steps h
  have hfirst := Wallet.walletUpdateSpent_marks hupdate
  obtain ⟨hlast, hinputs⟩ := Wallet.markInputs_marks hmark
  constructor
  · intro hsame
    obtain ⟨old, hstored, hmerge, hrecord⟩ :=
      unchanged_stored hsame (replaceDefaultKey_cases hkey).1 hfirst hlast
    obtain ⟨hwallet, hunreserved, hdefault⟩ := unchanged_pool (hpool.symm.trans hsame.pool) hkey
    rw [hmerge] at hwallet hupdate hfirst hdefault
    rw [Wallet.merge_tx] at hdefault hupdate hfirst
    rw [hwallet] at hfirst
    have hmerged := merged_putTx hstored hrecord
    have hmarks := hfirst.trans hlast
    have hout : (m.wallet.putTx (old.merge wtxNew)).toCWallet.outAt = m.wallet.toCWallet.outAt := by
      funext o
      rw [CWallet.outAt, CWallet.outAt, Wallet.record_txAt hmerged.record]
    have hflag : ∀ o, (m.wallet.toCWallet.outAt o).isSome →
        ((m.wallet.putTx (old.merge wtxNew)).toCWallet.spentAt o = true ∨
          o ∈ {o | (m.wallet.putTx (old.merge wtxNew)).toCWallet.Owns o ∧
            o ∈ Wallet.inPoints old.merkle.tx.vin} ∪ Wallet.inPoints wtxNew.merkle.tx.vin) →
        m.wallet.toCWallet.spentAt o = true := by
      intro o ho hraised
      rw [← hsame.spent o ho]
      exact (hmarks.spent o (by rwa [hout])).mpr hraised
    obtain ⟨hblock, hbranch, hfrom⟩ := Wallet.merge_record_iff.mp hrecord
    refine ⟨old, hstored, ⟨hblock, hbranch, hfrom, ?_⟩, hunreserved, hdefault, ?_, ?_⟩
    · intro n hn hlen hnew
      rw [← Wallet.spentAt_of_get hstored]
      refine hflag _ ?_ (.inl ((hmerged.spent _).mpr (.inr ⟨rfl, hlen, hnew⟩)))
      rw [CWallet.outAt, Wallet.txAt_toCWallet, Wallet.txOf_of_get hstored, Option.bind_some]
      simpa using hn
    · intro txin hin hown
      obtain ⟨txout, ho, -⟩ := id hown
      refine hflag _ (by rw [ho]; rfl) (.inr (.inl ⟨?_, txin, hin, rfl⟩))
      exact (Wallet.owns_congr hmerged.keys hout _).mpr hown
    · intro txin hin
      have ho := hinputs txin.prevout ⟨txin, hin, rfl⟩
      rw [hfirst.outAt, hout] at ho
      exact hflag _ ho (.inr (.inr ⟨txin, hin, rfl⟩))
  · rintro ⟨old, hrec⟩
    have hmerge : m.wallet.insertOrMerge e wtxNew = old.merge wtxNew := by
      rw [Wallet.insertOrMerge, hrec.stored]
    have hrecord := Wallet.merge_record_iff.mpr
      ⟨hrec.absorbs.block, hrec.absorbs.branch, hrec.absorbs.fromMe⟩
    rw [hmerge] at hkey hfirst
    rw [Wallet.merge_tx] at hkey hfirst
    rw [KeyPoolState.keepReserved_none hrec.unreserved] at hkey
    have hmerged := (merged_putTx hrec.stored hrecord).marks hrec.absorbs.spent hrec.stored
    rcases (replaceDefaultKey_cases hkey).2 with ⟨rfl, -⟩ | ⟨-, hpays⟩
    · have hmarks := (hmerged.trans hfirst).trans hlast
      refine ⟨hmarks.record, fun o ho => Bool.eq_iff_iff.mpr ?_, hpool⟩
      rw [hmarks.spent o ho]
      constructor
      · rintro (hspent | (hnone | ⟨hown, txin, hin, rfl⟩) | ⟨txin, hin, rfl⟩)
        · exact hspent
        · exact absurd hnone (Set.notMem_empty _)
        · exact hrec.owned txin hin ((hmerged.owns _).mp hown)
        · exact hrec.inputs txin hin
      · exact .inl
    · exact absurd hrec.defaultKey hpays

end CommitState

def unknownSpend : WalletTx :=
  WalletTx.ofTx (sampleTx 1 [(plainTx.merkle.tx.getHash sampleEnv, 0)]
    [(3 * coin, payToPubkey walletPubKey), (2 * coin, payToPubkey walletPubKey)])

def samplePool : KeyPoolState where
  setKeyPool := {2}
  pool i := if i = 1 ∨ i = 2 then some ⟨0, [UInt8.ofNat i]⟩ else none
  haveKey := {[1], [2]}
  nGenerated := 2
  fLocked := false
  fFileBacked := true
  reserved k := if k = 0 then some (1, [1]) else none
  kept := ∅

def samplePoolEnv : PoolEnv where
  newCKey n := ⟨[3, UInt8.ofNat n], [9], by simp⟩
  keyTime _ := 0
  evp := sampleSend.evp
  nTargetSize := 1

def sampleCommit : CommitState sampleNodeEnv.env := ⟨fundedWallet, samplePool, [2]⟩

def failedCommit : Except Fault (Bool × CommitState sampleNodeEnv.env × NodeState) :=
  sampleCommit.commitTransaction sampleNodeEnv samplePoolEnv false 0 unknownSpend zeroNode

def commitReads (r : Bool × CommitState sampleNodeEnv.env × NodeState) : Bool × Bool :=
  (r.1, (r.2.1.wallet.mapWallet[unknownSpend.merkle.tx.getHash sampleEnv]?).isSome)

theorem failed_commit_recorded :
    ¬ ∀ (e : NodeEnv) (g : PoolEnv) (fRateLimited : Bool) (k : Nat) (wtxNew : WalletTx)
      (m m' : CommitState e.env) (s s' : NodeState),
      m.commitTransaction e g fRateLimited k wtxNew s = .ok (false, m', s') → m.Unchanged m' := by
  intro hall
  obtain ⟨⟨fOk, m', s'⟩, hrun, hreads⟩ := exists_of_reads (x := failedCommit) (f := commitReads)
    (b := (false, true)) (by decide +kernel)
  obtain ⟨rfl, hstored⟩ := Prod.mk.inj hreads
  have hsame := hall sampleNodeEnv samplePoolEnv false 0 unknownSpend sampleCommit m' zeroNode s' hrun
  have hread := hsame.record (unknownSpend.merkle.tx.getHash sampleEnv)
  have hbefore : (sampleCommit.wallet.mapWallet[unknownSpend.merkle.tx.getHash sampleEnv]?).isSome =
      false := by decide +kernel
  have hsome := congrArg Option.isSome hread
  rw [Option.isSome_map, Option.isSome_map, hbefore] at hsome
  exact absurd (hsome.symm.trans hstored) Bool.false_ne_true

theorem failedCommit_unchanged_iff : ∃ m' s', failedCommit = .ok (false, m', s') ∧
    (sampleCommit.Unchanged m' ↔ ∃ old, sampleCommit.Recorded 0 unknownSpend old) := by
  obtain ⟨⟨fOk, m', s'⟩, hrun, hreads⟩ := exists_of_reads (x := failedCommit) (f := commitReads)
    (b := (false, true)) (by decide +kernel)
  obtain ⟨rfl, -⟩ := Prod.mk.inj hreads
  exact ⟨m', s', hrun, CommitState.failed_commit_unchanged_iff sampleNodeEnv samplePoolEnv false 0
    unknownSpend sampleCommit m' zeroNode s' hrun⟩

end Namecoin
