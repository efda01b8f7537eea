import Namecoin.Data.Types

namespace Namecoin

structure CKeyPool where
  nTime : Int
  vchPubKey : VchType
  deriving DecidableEq, Repr

structure KeyPoolState where
  setKeyPool : Finset Nat
  pool : Nat → Option CKeyPool
  haveKey : Finset VchType
  nGenerated : Nat
  fLocked : Bool
  fFileBacked : Bool
  reserved : Nat → Option (Nat × VchType)
  kept : Finset VchType

namespace KeyPoolState

variable (newKey : Nat → CKeyPool)

def writeNewKey (nIndex : Nat) (s : KeyPoolState) : KeyPoolState :=
  let key := newKey s.nGenerated
  { s with
    nGenerated := s.nGenerated + 1
    haveKey := insert key.vchPubKey s.haveKey
    pool := Function.update s.pool nIndex (some key)
    setKeyPool := insert nIndex s.setKeyPool }

def erasePool (nIndex : Nat) (s : KeyPoolState) : KeyPoolState :=
  { s with pool := Function.update s.pool nIndex none }

def eraseAll (s : KeyPoolState) : KeyPoolState :=
  { s with pool := fun i => if i ∈ s.setKeyPool then none else s.pool i, setKeyPool := ∅ }

def newKeyPool (nKeys : Nat) (s : KeyPoolState) : KeyPoolState :=
  let s := s.eraseAll
  if s.fLocked then s else (List.range nKeys).foldl (fun s i => s.writeNewKey newKey (i + 1)) s

def nEnd (s : KeyPoolState) : Nat := s.setKeyPool.sup id + 1

def topUp (nTargetSize : Nat) : Nat → KeyPoolState → KeyPoolState
  | 0, s => s
  | fuel + 1, s =>
    if s.setKeyPool.card < nTargetSize + 1 then topUp nTargetSize fuel (s.writeNewKey newKey s.nEnd)
    else s

def refill (nTargetSize : Nat) (s : KeyPoolState) : KeyPoolState :=
  if s.fLocked then s else topUp newKey nTargetSize (nTargetSize + 1) s

def takeOldest (s : KeyPoolState) : Option Nat × Except Fault CKeyPool × KeyPoolState :=
  if h : s.setKeyPool.Nonempty then
    let nIndex := s.setKeyPool.min' h
    let s := { s with setKeyPool := s.setKeyPool.erase nIndex }
    match s.pool nIndex with
    | none => (some nIndex, .error (.exception "ReserveKeyFromKeyPool() : read failed"), s)
    | some keypool =>
      if keypool.vchPubKey ∉ s.haveKey then
        (some nIndex, .error (.exception "ReserveKeyFromKeyPool() : unknown key in key pool"), s)
      else if keypool.vchPubKey = [] then (some nIndex, .error .assertion, s)
      else (some nIndex, .ok keypool, s)
  else (none, .error (.exception "ReserveKeyFromKeyPool() : pool is empty"), s)

def reserveKeyFromKeyPool (nTargetSize : Nat) (s : KeyPoolState) :
    Option Nat × Except Fault CKeyPool × KeyPoolState := (s.refill newKey nTargetSize).takeOldest

def keepKey (nIndex : Nat) (s : KeyPoolState) : KeyPoolState :=
  if s.fFileBacked then s.erasePool nIndex else s

def returnKey (nIndex : Nat) (s : KeyPoolState) : KeyPoolState :=
  { s with setKeyPool := insert nIndex s.setKeyPool }

def setReserved (k : Nat) (r : Option (Nat × VchType)) (s : KeyPoolState) : KeyPoolState :=
  { s with reserved := Function.update s.reserved k r }

def recordKept (vchPubKey : VchType) (s : KeyPoolState) : KeyPoolState :=
  { s with kept := insert vchPubKey s.kept }

def getReservedKey (nTargetSize k : Nat) (s : KeyPoolState) : KeyPoolState :=
  match s.reserved k with
  | some _ => s
  | none =>
    match s.reserveKeyFromKeyPool newKey nTargetSize with
    | (nIndex, .ok keypool, s') => s'.setReserved k (nIndex.map (fun i => (i, keypool.vchPubKey)))
    | (nIndex, .error _, s') => s'.setReserved k (nIndex.map (fun i => (i, [])))

def keepReserved (k : Nat) (s : KeyPoolState) : KeyPoolState :=
  match s.reserved k with
  | none => s
  | some r => ((s.keepKey r.1).recordKept r.2).setReserved k none

def returnReserved (k : Nat) (s : KeyPoolState) : KeyPoolState :=
  match s.reserved k with
  | none => s
  | some r => (s.returnKey r.1).setReserved k none

def getKeyFromKeyPool (nTargetSize : Nat) (s : KeyPoolState) : KeyPoolState :=
  match s.reserveKeyFromKeyPool newKey nTargetSize with
  | (some nIndex, .ok keypool, s') => (s'.keepKey nIndex).recordKept keypool.vchPubKey
  | (_, _, s') => s'

def getOldestKeyPoolTime (nTargetSize : Nat) (s : KeyPoolState) : KeyPoolState :=
  match s.reserveKeyFromKeyPool newKey nTargetSize with
  | (some nIndex, .ok _, s') => s'.returnKey nIndex
  | (_, _, s') => s'

end KeyPoolState

inductive PoolOp where
  | getReservedKey (nTargetSize k : Nat)
  | keepReserved (k : Nat)
  | returnReserved (k : Nat)
  | getKeyFromKeyPool (nTargetSize : Nat)
  | getOldestKeyPoolTime (nTargetSize : Nat)
  | lock (fLocked : Bool)
  | newKeyPool (nKeys : Nat)

def PoolOp.run (newKey : Nat → CKeyPool) (s : KeyPoolState) : PoolOp → KeyPoolState
  | .getReservedKey nTargetSize k => s.getReservedKey newKey nTargetSize k
  | .keepReserved k => s.keepReserved k
  | .returnReserved k => s.returnReserved k
  | .getKeyFromKeyPool nTargetSize => s.getKeyFromKeyPool newKey nTargetSize
  | .getOldestKeyPoolTime nTargetSize => s.getOldestKeyPoolTime newKey nTargetSize
  | .lock fLocked => { s with fLocked := fLocked }
  | .newKeyPool nKeys => s.newKeyPool newKey nKeys

namespace KeyPoolState

def Held (s : KeyPoolState) (nIndex : Nat) : Prop := ∃ k v, s.reserved k = some (nIndex, v)

def Live (s : KeyPoolState) (nIndex : Nat) : Prop := nIndex ∈ s.setKeyPool ∨ s.Held nIndex

def Roomy (nTargetSize : Nat) (s : KeyPoolState) : Prop :=
  ∀ i, s.Held i → i < s.nEnd ∨ s.nEnd + (nTargetSize + 1 - s.setKeyPool.card) ≤ i

end KeyPoolState

structure PoolOk (newKey : Nat → CKeyPool) (s : KeyPoolState) : Prop where
  entry : ∀ i, s.Live i → ∃ key, s.pool i = some key ∧ key.vchPubKey ∈ s.haveKey ∧
    key.vchPubKey ≠ [] ∧ key.vchPubKey ∉ s.kept
  apart : ∀ i j key key', s.Live i → s.Live j → s.pool i = some key → s.pool j = some key' →
    key.vchPubKey = key'.vchPubKey → i = j
  holder : ∀ k i v, s.reserved k = some (i, v) →
    i ∉ s.setKeyPool ∧ (s.pool i).map CKeyPool.vchPubKey = some v
  one : ∀ k k' i v v', s.reserved k = some (i, v) → s.reserved k' = some (i, v') → k = k'
  kept : s.kept ⊆ s.haveKey
  unborn : ∀ n, s.nGenerated ≤ n → (newKey n).vchPubKey ∉ s.haveKey

structure FreshKeys (newKey : Nat → CKeyPool) : Prop where
  injective : Function.Injective (fun n => (newKey n).vchPubKey)
  nonempty : ∀ n, (newKey n).vchPubKey ≠ []

namespace PoolOk

open KeyPoolState

variable {newKey : Nat → CKeyPool} {s s' : KeyPoolState} {i : Nat} {key : CKeyPool}

theorem writeNewKey_live {j : Nat} :
    (s.writeNewKey newKey i).Live j ↔ j = i ∨ s.Live j := by
  simp only [Live, Held, writeNewKey, Finset.mem_insert, or_assoc]

theorem writeNewKey (h : PoolOk newKey s) (hfresh : FreshKeys newKey) (hfree : ¬s.Live i) :
    PoolOk newKey (s.writeNewKey newKey i) := by
  have hne : ∀ j, s.Live j → j ≠ i := by
    rintro j hj rfl
    exact hfree hj
  have hread : ∀ j, j ≠ i → (s.writeNewKey newKey i).pool j = s.pool j :=
    fun j hj => Function.update_of_ne hj _ _
  have hself : (s.writeNewKey newKey i).pool i = some (newKey s.nGenerated) :=
    Function.update_self _ _ _
  have hborn : (newKey s.nGenerated).vchPubKey ∉ s.haveKey := h.unborn _ le_rfl
  refine ⟨?_, ?_, ?_, h.one, ?_, ?_⟩
  · intro j hj
    rcases writeNewKey_live.mp hj with rfl | hj
    · exact ⟨_, hself, Finset.mem_insert_self _ _, hfresh.nonempty _,
        fun hk => hborn (h.kept hk)⟩
    · obtain ⟨k, hk, hhave, hnil, hkept⟩ := h.entry j hj
      exact ⟨k, (hread j (hne j hj)).trans hk, Finset.mem_insert_of_mem hhave, hnil, hkept⟩
  · have hold : ∀ j k, s.Live j → (s.writeNewKey newKey i).pool j = some k →
        s.pool j = some k ∧ k.vchPubKey ∈ s.haveKey := by
      intro j k hj hk
      rw [hread j (hne j hj)] at hk
      obtain ⟨k', hk', hhave, -⟩ := h.entry j hj
      rw [hk] at hk'
      cases hk'
      exact ⟨hk, hhave⟩
    intro a b k k' ha hb hka hkb heq
    rcases writeNewKey_live.mp ha with rfl | ha
    · rw [hself] at hka
      cases hka
      rcases writeNewKey_live.mp hb with rfl | hb
      · rfl
      · exact absurd (heq ▸ (hold b k' hb hkb).2) hborn
    · obtain ⟨hka', hhave⟩ := hold a k ha hka
      rcases writeNewKey_live.mp hb with rfl | hb
      · rw [hself] at hkb
        cases hkb
        exact absurd (heq ▸ hhave) hborn
      · exact h.apart a b k k' ha hb hka' (hold b k' hb hkb).1 heq
  · intro k j v hk
    have hlive : s.Live j := .inr ⟨k, v, hk⟩
    obtain ⟨hout, hpool⟩ := h.holder k j v hk
    refine ⟨?_, ?_⟩
    · exact fun hin => (Finset.mem_insert.mp hin).elim (hne j hlive) hout
    · rw [hread j (hne j hlive)]
      exact hpool
  · exact h.kept.trans (Finset.subset_insert _ _)
  · intro n hn
    have hn' : s.nGenerated < n := hn
    refine fun hin => (Finset.mem_insert.mp hin).elim (fun heq => ?_) (h.unborn n hn'.le)
    exact absurd (hfresh.injective heq) (by omega)

theorem nEnd_not_mem (s : KeyPoolState) : s.nEnd ∉ s.setKeyPool := by
  intro hin
  have hle : s.nEnd ≤ s.setKeyPool.sup id := Finset.le_sup (f := id) hin
  exact Nat.not_succ_le_self _ hle

theorem nEnd_writeNewKey (s : KeyPoolState) :
    (s.writeNewKey newKey s.nEnd).nEnd = s.nEnd + 1 := by
  have hsup : (insert s.nEnd s.setKeyPool).sup id = s.nEnd := by
    rw [Finset.sup_insert]
    exact max_eq_left (Nat.le_succ _)
  show (insert s.nEnd s.setKeyPool).sup id + 1 = s.nEnd + 1
  rw [hsup]

theorem card_writeNewKey (s : KeyPoolState) :
    (s.writeNewKey newKey s.nEnd).setKeyPool.card = s.setKeyPool.card + 1 :=
  Finset.card_insert_of_notMem (nEnd_not_mem s)

theorem topUp_reserved (n fuel : Nat) (s : KeyPoolState) :
    (s.topUp newKey n fuel).reserved = s.reserved := by
  induction fuel generalizing s with
  | zero => rfl
  | succ fuel ih =>
    rw [topUp]
    split
    · exact ih _
    · rfl

theorem topUp {n : Nat} (h : PoolOk newKey s) (hfresh : FreshKeys newKey) (hroom : s.Roomy n)
    (fuel : Nat) : PoolOk newKey (s.topUp newKey n fuel) := by
  induction fuel generalizing s with
  | zero => exact h
  | succ fuel ih =>
    rw [KeyPoolState.topUp]
    split
    · next hsmall =>
      have hfree : ¬s.Live s.nEnd := by
        rintro (hin | hheld)
        · exact nEnd_not_mem s hin
        · have := hroom _ hheld
          omega
      refine ih (h.writeNewKey hfresh hfree) ?_
      intro j hj
      have hj' := hroom j hj
      rw [nEnd_writeNewKey, card_writeNewKey]
      omega
    · exact h

theorem refill {n : Nat} (h : PoolOk newKey s) (hfresh : FreshKeys newKey)
    (hroom : s.fLocked = false → s.Roomy n) : PoolOk newKey (s.refill newKey n) := by
  unfold KeyPoolState.refill
  split
  · exact h
  · next hlock => exact h.topUp hfresh (hroom (by simpa using hlock)) _

theorem takeOldest (h : PoolOk newKey s) :
    (s.setKeyPool = ∅ ∧ ∃ fault, s.takeOldest = (none, .error fault, s)) ∨
      ∃ i key, i ∈ s.setKeyPool ∧ s.pool i = some key ∧
        s.takeOldest = (some i, .ok key, { s with setKeyPool := s.setKeyPool.erase i }) := by
  unfold KeyPoolState.takeOldest
  split
  · next hne =>
    have hin := s.setKeyPool.min'_mem hne
    obtain ⟨key, hkey, hhave, hnil, -⟩ := h.entry _ (.inl hin)
    refine .inr ⟨_, key, hin, hkey, ?_⟩
    simp only [hkey, not_true_eq_false, hhave, if_false, hnil]
  · next hne => exact .inl ⟨Finset.not_nonempty_iff_eq_empty.mp hne, _, rfl⟩

theorem retire (h : PoolOk newKey s) (hlive : s.Live i) (hkey : s.pool i = some key)
    (hpool : ∀ j, j ≠ i → s'.pool j = s.pool j) (hset : s'.setKeyPool ⊆ s.setKeyPool)
    (hout : ∀ j, s'.Live j → j ≠ i)
    (hres : ∀ k r, s'.reserved k = some r → s.reserved k = some r)
    (hkept : s'.kept = insert key.vchPubKey s.kept) (hhave : s'.haveKey = s.haveKey)
    (hgen : s'.nGenerated = s.nGenerated) : PoolOk newKey s' := by
  have hback : ∀ j, s'.Live j → s.Live j := by
    rintro j (hin | ⟨k, v, hk⟩)
    · exact .inl (hset hin)
    · exact .inr ⟨k, v, hres _ _ hk⟩
  refine ⟨?_, ?_, ?_, ?_, ?_, ?_⟩
  · intro j hj
    obtain ⟨k, hk, hin, hnil, hno⟩ := h.entry j (hback j hj)
    refine ⟨k, (hpool j (hout j hj)).trans hk, hhave ▸ hin, hnil, ?_⟩
    rw [hkept]
    refine fun hmem => (Finset.mem_insert.mp hmem).elim (fun heq => ?_) hno
    exact hout j hj (h.apart j i k key (hback j hj) hlive hk hkey heq)
  · intro a b k k' ha hb hka hkb
    rw [hpool a (hout a ha)] at hka
    rw [hpool b (hout b hb)] at hkb
    exact h.apart a b k k' (hback a ha) (hback b hb) hka hkb
  · intro k j v hk
    obtain ⟨hnot, hmap⟩ := h.holder k j v (hres _ _ hk)
    refine ⟨fun hin => hnot (hset hin), ?_⟩
    rw [hpool j (hout j (.inr ⟨k, v, hk⟩))]
    exact hmap
  · intro k k' j v v' hk hk'
    exact h.one k k' j v v' (hres _ _ hk) (hres _ _ hk')
  · rw [hkept, hhave]
    obtain ⟨k, hk, hin, -⟩ := h.entry i hlive
    rw [hkey] at hk
    cases hk
    exact Finset.insert_subset hin h.kept
  · intro n hn
    rw [hhave]
    exact h.unborn n (hgen ▸ hn)

theorem keepKey_pool {j : Nat} (hj : j ≠ i) : (s.keepKey i).pool j = s.pool j := by
  unfold KeyPoolState.keepKey
  split
  · exact Function.update_of_ne hj _ _
  · rfl

theorem keepKey_rest : (s.keepKey i).setKeyPool = s.setKeyPool ∧
    (s.keepKey i).reserved = s.reserved ∧ (s.keepKey i).kept = s.kept ∧
    (s.keepKey i).haveKey = s.haveKey ∧ (s.keepKey i).nGenerated = s.nGenerated := by
  unfold KeyPoolState.keepKey
  split <;> exact ⟨rfl, rfl, rfl, rfl, rfl⟩

theorem update_reserved {k k' : Nat} {f : Nat → Option (Nat × VchType)}
    {r : Option (Nat × VchType)} {r' : Nat × VchType} (h : Function.update f k r k' = some r') :
    (k' = k ∧ r = some r') ∨ (k' ≠ k ∧ f k' = some r') := by
  by_cases hne : k' = k
  · subst hne
    rw [Function.update_self] at h
    exact .inl ⟨rfl, h⟩
  · rw [Function.update_of_ne hne] at h
    exact .inr ⟨hne, h⟩

theorem setReserved_none {k k' : Nat} {r : Nat × VchType}
    (hk : Function.update s.reserved k none k' = some r) : k' ≠ k ∧ s.reserved k' = some r := by
  rcases update_reserved hk with ⟨-, hnone⟩ | hold
  · cases hnone
  · exact hold

theorem hold {k : Nat} (h : PoolOk newKey s) (hin : i ∈ s.setKeyPool) (hkey : s.pool i = some key) :
    PoolOk newKey (({ s with setKeyPool := s.setKeyPool.erase i } : KeyPoolState).setReserved k
      (some (i, key.vchPubKey))) := by
  have hcases : ∀ k' j v, Function.update s.reserved k (some (i, key.vchPubKey)) k' = some (j, v) →
      (k' = k ∧ j = i ∧ v = key.vchPubKey) ∨ (j ≠ i ∧ s.reserved k' = some (j, v)) := by
    intro k' j v hk'
    rcases update_reserved hk' with ⟨rfl, heq⟩ | ⟨-, hold⟩
    · cases heq
      exact .inl ⟨rfl, rfl, rfl⟩
    · refine .inr ⟨?_, hold⟩
      rintro rfl
      exact (h.holder k' j v hold).1 hin
  have hlive : ∀ j, (({ s with setKeyPool := s.setKeyPool.erase i } : KeyPoolState).setReserved k
      (some (i, key.vchPubKey))).Live j → s.Live j := by
    rintro j (hj | ⟨k', v, hk'⟩)
    · exact .inl (Finset.mem_of_mem_erase hj)
    · rcases hcases k' j v hk' with ⟨-, rfl, -⟩ | ⟨-, hold⟩
      · exact .inl hin
      · exact .inr ⟨k', v, hold⟩
  refine ⟨?_, ?_, ?_, ?_, h.kept, h.unborn⟩
  · exact fun j hj => h.entry j (hlive j hj)
  · exact fun a b c d ha hb => h.apart a b c d (hlive a ha) (hlive b hb)
  · intro k' j v hk'
    rcases hcases k' j v hk' with ⟨-, rfl, rfl⟩ | ⟨-, hold⟩
    · exact ⟨Finset.notMem_erase _ _, congrArg (Option.map CKeyPool.vchPubKey) hkey⟩
    · obtain ⟨hout, hmap⟩ := h.holder k' j v hold
      exact ⟨fun hj => hout (Finset.mem_of_mem_erase hj), hmap⟩
  · intro k1 k2 j v v' h1 h2
    rcases hcases k1 j v h1 with ⟨rfl, rfl, -⟩ | ⟨hne, hold1⟩
    · rcases hcases k2 _ v' h2 with ⟨rfl, -, -⟩ | ⟨hne, -⟩
      · rfl
      · exact absurd rfl hne
    · rcases hcases k2 j v' h2 with ⟨-, rfl, -⟩ | ⟨-, hold2⟩
      · exact absurd rfl hne
      · exact h.one k1 k2 j v v' hold1 hold2

theorem getReservedKey {n k : Nat} (h : PoolOk newKey s) (hfresh : FreshKeys newKey)
    (hroom : s.fLocked = false → s.reserved k = none → s.Roomy n) :
    PoolOk newKey (s.getReservedKey newKey n k) := by
  unfold KeyPoolState.getReservedKey KeyPoolState.reserveKeyFromKeyPool
  split
  · exact h
  · next hnone =>
    have hfull := h.refill hfresh (fun hlock => hroom hlock hnone)
    have hres : (s.refill newKey n).reserved k = none := by
      unfold KeyPoolState.refill
      split
      · exact hnone
      · rw [topUp_reserved]
        exact hnone
    generalize s.refill newKey n = t at hfull hres
    rcases hfull.takeOldest with ⟨-, fault, htake⟩ | ⟨i, key, hin, hkey, htake⟩
    · rw [htake]
      have hsame : t.setReserved k none = t := by
        unfold setReserved
        rw [← hres, Function.update_eq_self]
      show PoolOk newKey (t.setReserved k none)
      rw [hsame]
      exact hfull
    · rw [htake]
      exact hfull.hold hin hkey

theorem keepReserved {k : Nat} (h : PoolOk newKey s) : PoolOk newKey (s.keepReserved k) := by
  unfold KeyPoolState.keepReserved
  split
  · exact h
  · next r hr =>
    obtain ⟨i, v⟩ := r
    obtain ⟨hset, hres, hkept, hhave, hgen⟩ := @keepKey_rest s i
    obtain ⟨hout, hmap⟩ := h.holder k i v hr
    obtain ⟨key, hkey, rfl⟩ := Option.map_eq_some_iff.mp hmap
    have hback : ∀ k' r, ((s.keepKey i).recordKept key.vchPubKey |>.setReserved k none).reserved k' =
        some r → k' ≠ k ∧ s.reserved k' = some r := by
      intro k' r hk'
      have hupd : Function.update (s.keepKey i).reserved k none k' = some r := hk'
      rw [hres] at hupd
      exact setReserved_none hupd
    refine h.retire (.inr ⟨k, _, hr⟩) hkey (fun j hj => keepKey_pool hj) hset.subset ?_
      (fun k' r hk' => (hback k' r hk').2) (congrArg (insert _) hkept) hhave hgen
    rintro j (hj | ⟨k', v, hk'⟩) rfl
    · exact hout (hset ▸ hj)
    · obtain ⟨hne, hk'⟩ := hback k' _ hk'
      exact hne (h.one k' k j v _ hk' hr)

theorem returnReserved {k : Nat} (h : PoolOk newKey s) : PoolOk newKey (s.returnReserved k) := by
  unfold KeyPoolState.returnReserved
  split
  · exact h
  · next r hr =>
    obtain ⟨i, v⟩ := r
    have hlive : ∀ j, ((s.returnKey i).setReserved k none).Live j → s.Live j := by
      rintro j (hj | ⟨k', v', hk'⟩)
      · rcases Finset.mem_insert.mp hj with rfl | hj
        · exact .inr ⟨k, v, hr⟩
        · exact .inl hj
      · exact .inr ⟨k', v', (setReserved_none hk').2⟩
    refine ⟨?_, ?_, ?_, ?_, h.kept, h.unborn⟩
    · exact fun j hj => h.entry j (hlive j hj)
    · exact fun a b c d ha hb => h.apart a b c d (hlive a ha) (hlive b hb)
    · intro k' j v' hk'
      obtain ⟨hne, hold⟩ := setReserved_none hk'
      obtain ⟨hout, hmap⟩ := h.holder k' j v' hold
      refine ⟨?_, hmap⟩
      intro hj
      rcases Finset.mem_insert.mp hj with rfl | hj
      · exact hne (h.one k' k _ v' v hold hr)
      · exact hout hj
    · intro k1 k2 j v1 v2 h1 h2
      exact h.one k1 k2 j v1 v2 (setReserved_none h1).2 (setReserved_none h2).2

theorem getKeyFromKeyPool {n : Nat} (h : PoolOk newKey s) (hfresh : FreshKeys newKey)
    (hroom : s.fLocked = false → s.Roomy n) : PoolOk newKey (s.getKeyFromKeyPool newKey n) := by
  have hfull := h.refill hfresh hroom
  unfold KeyPoolState.getKeyFromKeyPool KeyPoolState.reserveKeyFromKeyPool
  generalize s.refill newKey n = t at hfull
  rcases hfull.takeOldest with ⟨-, fault, htake⟩ | ⟨i, key, hin, hkey, htake⟩
  · rw [htake]
    exact hfull
  · rw [htake]
    obtain ⟨hset, hres, hkept, hhave, hgen⟩ :=
      @keepKey_rest { t with setKeyPool := t.setKeyPool.erase i } i
    refine hfull.retire (.inl hin) hkey (fun j hj => keepKey_pool hj) ?_ ?_ ?_
      (congrArg (insert _) hkept) hhave hgen
    · exact hset.subset.trans (Finset.erase_subset _ _)
    · rintro j (hj | ⟨k', v, hk'⟩) rfl
      · exact Finset.notMem_erase _ _ (hset ▸ hj)
      · exact (hfull.holder k' j v (hres ▸ hk')).1 hin
    · intro k' r hk'
      exact hres ▸ hk'

theorem getOldestKeyPoolTime {n : Nat} (h : PoolOk newKey s) (hfresh : FreshKeys newKey)
    (hroom : s.fLocked = false → s.Roomy n) : PoolOk newKey (s.getOldestKeyPoolTime newKey n) := by
  have hfull := h.refill hfresh hroom
  unfold KeyPoolState.getOldestKeyPoolTime KeyPoolState.reserveKeyFromKeyPool
  generalize s.refill newKey n = t at hfull
  rcases hfull.takeOldest with ⟨-, fault, htake⟩ | ⟨i, key, hin, hkey, htake⟩
  · rw [htake]
    exact hfull
  · rw [htake]
    have hsame : ({ t with setKeyPool := t.setKeyPool.erase i } : KeyPoolState).returnKey i = t := by
      unfold KeyPoolState.returnKey
      rw [Finset.insert_erase hin]
    show PoolOk newKey (({ t with setKeyPool := t.setKeyPool.erase i } : KeyPoolState).returnKey i)
    rw [hsame]
    exact hfull

theorem eraseAll (h : PoolOk newKey s) : PoolOk newKey s.eraseAll := by
  have hheld : ∀ j, s.eraseAll.Live j → s.Held j := by
    rintro j (hj | hj)
    · cases hj
    · exact hj
  have hread : ∀ j, s.eraseAll.Live j → s.eraseAll.pool j = s.pool j := by
    intro j hj
    obtain ⟨k, v, hk⟩ := hheld j hj
    exact if_neg (h.holder k j v hk).1
  refine ⟨?_, ?_, ?_, h.one, h.kept, h.unborn⟩
  · intro j hj
    rw [hread j hj]
    exact h.entry j (.inr (hheld j hj))
  · intro a b c d ha hb hc hd
    rw [hread a ha] at hc
    rw [hread b hb] at hd
    exact h.apart a b c d (.inr (hheld a ha)) (.inr (hheld b hb)) hc hd
  · intro k j v hk
    refine ⟨Finset.notMem_empty _, ?_⟩
    rw [hread j (.inr ⟨k, v, hk⟩)]
    exact (h.holder k j v hk).2

theorem writeRange (h : PoolOk newKey s) (hfresh : FreshKeys newKey) {nKeys : Nat}
    (hempty : s.setKeyPool = ∅) (hroom : ∀ i, s.Held i → i = 0 ∨ nKeys < i) :
    PoolOk newKey ((List.range nKeys).foldl (fun s i => s.writeNewKey newKey (i + 1)) s) := by
  have hall : ∀ n, n ≤ nKeys → PoolOk newKey ((List.range n).foldl
      (fun s i => s.writeNewKey newKey (i + 1)) s) ∧ ∀ j, ((List.range n).foldl
      (fun s i => s.writeNewKey newKey (i + 1)) s).Live j → j ≤ n ∧ 0 < j ∨ s.Held j := by
    intro n
    induction n with
    | zero =>
      intro _
      refine ⟨h, ?_⟩
      rintro j (hj | hj)
      · rw [List.range_zero, List.foldl_nil, hempty] at hj
        cases hj
      · exact .inr hj
    | succ n ih =>
      intro hn
      obtain ⟨hok, hlive⟩ := ih (by omega)
      rw [List.range_succ, List.foldl_append, List.foldl_cons, List.foldl_nil]
      refine ⟨hok.writeNewKey hfresh ?_, ?_⟩
      · intro hin
        rcases hlive _ hin with ⟨hle, -⟩ | hheld
        · omega
        · have := hroom _ hheld
          omega
      · intro j hj
        rcases writeNewKey_live.mp hj with rfl | hj
        · exact .inl ⟨le_rfl, Nat.succ_pos n⟩
        · rcases hlive j hj with ⟨hle, hpos⟩ | hheld
          · exact .inl ⟨by omega, hpos⟩
          · exact .inr hheld
  exact (hall nKeys le_rfl).1

theorem newKeyPool {nKeys : Nat} (h : PoolOk newKey s) (hfresh : FreshKeys newKey)
    (hroom : s.fLocked = false → ∀ i, s.Held i → i = 0 ∨ nKeys < i) :
    PoolOk newKey (s.newKeyPool newKey nKeys) := by
  unfold KeyPoolState.newKeyPool
  dsimp only
  split
  · exact h.eraseAll
  · next hlock =>
    have hopen : s.fLocked = false := by
      cases hs : s.fLocked with
      | false => rfl
      | true => exact absurd hs hlock
    exact h.eraseAll.writeRange hfresh rfl (hroom hopen)

end PoolOk

def PoolOp.Fits (s : KeyPoolState) : PoolOp → Prop
  | .getReservedKey nTargetSize k =>
    s.fLocked = false → s.reserved k = none → s.Roomy nTargetSize
  | .getKeyFromKeyPool nTargetSize => s.fLocked = false → s.Roomy nTargetSize
  | .getOldestKeyPoolTime nTargetSize => s.fLocked = false → s.Roomy nTargetSize
  | .newKeyPool nKeys => s.fLocked = false → ∀ i, s.Held i → i = 0 ∨ nKeys < i
  | _ => True

theorem PoolOk.run {newKey : Nat → CKeyPool} {s : KeyPoolState} (h : PoolOk newKey s)
    (hfresh : FreshKeys newKey) {op : PoolOp} (hfits : op.Fits s) :
    PoolOk newKey (op.run newKey s) := by
  cases op with
  | getReservedKey nTargetSize k => exact h.getReservedKey hfresh hfits
  | keepReserved k => exact h.keepReserved
  | returnReserved k => exact h.returnReserved
  | getKeyFromKeyPool nTargetSize => exact h.getKeyFromKeyPool hfresh hfits
  | getOldestKeyPoolTime nTargetSize => exact h.getOldestKeyPoolTime hfresh hfits
  | lock fLocked => exact ⟨h.entry, h.apart, h.holder, h.one, h.kept, h.unborn⟩
  | newKeyPool nKeys => exact h.newKeyPool hfresh hfits

structure PoolLoaded (newKey : Nat → CKeyPool) (s : KeyPoolState) : Prop where
  indexed : ∀ i, i ∈ s.setKeyPool ↔ (s.pool i).isSome
  known : ∀ i key, s.pool i = some key → key.vchPubKey ∈ s.haveKey ∧ key.vchPubKey ≠ []
  apart : ∀ i j key key', s.pool i = some key → s.pool j = some key' →
    key.vchPubKey = key'.vchPubKey → i = j
  unreserved : ∀ k, s.reserved k = none
  unkept : s.kept = ∅
  unborn : ∀ n, s.nGenerated ≤ n → (newKey n).vchPubKey ∉ s.haveKey

theorem PoolLoaded.poolOk {newKey : Nat → CKeyPool} {s : KeyPoolState} (h : PoolLoaded newKey s) :
    PoolOk newKey s := by
  have hnone : ∀ k r, s.reserved k ≠ some r := by
    intro k r hk
    rw [h.unreserved k] at hk
    cases hk
  refine ⟨?_, ?_, ?_, ?_, ?_, h.unborn⟩
  · rintro i (hi | ⟨k, v, hk⟩)
    · obtain ⟨key, hkey⟩ := Option.isSome_iff_exists.mp ((h.indexed i).mp hi)
      obtain ⟨hhave, hnil⟩ := h.known i key hkey
      exact ⟨key, hkey, hhave, hnil, by simp [h.unkept]⟩
    · exact absurd hk (hnone k _)
  · intro i j key key' _ _
    exact h.apart i j key key'
  · intro k i v hk
    exact absurd hk (hnone k _)
  · intro k k' i v v' hk
    exact absurd hk (hnone k _)
  · rw [h.unkept]
    exact Finset.empty_subset _

def KeyPoolStep (newKey : Nat → CKeyPool) (s s' : KeyPoolState) : Prop :=
  ∃ op : PoolOp, op.Fits s ∧ s' = op.run newKey s

structure PoolSafe (newKey : Nat → CKeyPool) (s : KeyPoolState) : Prop where
  distinct : ∀ k k' i i' v v', k ≠ k' → s.reserved k = some (i, v) → s.reserved k' = some (i', v') →
    i ≠ i' ∧ v ≠ v'
  unkept : ∀ k i v, s.reserved k = some (i, v) → v ∉ s.kept
  handed : ∀ nTargetSize i key s', (s.fLocked = false → s.Roomy nTargetSize) →
    s.reserveKeyFromKeyPool newKey nTargetSize = (i, .ok key, s') → key.vchPubKey ∉ s.kept
  stored : ∀ i ∈ s.setKeyPool, (s.pool i).isSome

theorem refill_kept (newKey : Nat → CKeyPool) (n : Nat) (s : KeyPoolState) :
    (s.refill newKey n).kept = s.kept := by
  have htop : ∀ fuel (t : KeyPoolState), (t.topUp newKey n fuel).kept = t.kept := by
    intro fuel
    induction fuel with
    | zero => exact fun t => rfl
    | succ fuel ih =>
      intro t
      rw [KeyPoolState.topUp]
      split
      · exact ih _
      · rfl
  unfold KeyPoolState.refill
  split
  · rfl
  · exact htop _ s

theorem PoolOk.safe {newKey : Nat → CKeyPool} {s : KeyPoolState} (h : PoolOk newKey s)
    (hfresh : FreshKeys newKey) : PoolSafe newKey s := by
  have hread : ∀ k i v, s.reserved k = some (i, v) →
      ∃ key, s.pool i = some key ∧ key.vchPubKey = v :=
    fun k i v hk => Option.map_eq_some_iff.mp (h.holder k i v hk).2
  refine ⟨?_, ?_, ?_, ?_⟩
  · intro k k' i i' v v' hne hk hk'
    have hindex : i ≠ i' := by
      rintro rfl
      exact hne (h.one k k' i v v' hk hk')
    refine ⟨hindex, ?_⟩
    obtain ⟨key, hkey, rfl⟩ := hread k i v hk
    obtain ⟨key', hkey', rfl⟩ := hread k' i' v' hk'
    exact fun heq => hindex (h.apart i i' key key' (.inr ⟨k, _, hk⟩) (.inr ⟨k', _, hk'⟩) hkey
      hkey' heq)
  · intro k i v hk
    obtain ⟨key, hkey, rfl⟩ := hread k i v hk
    obtain ⟨key', hkey', -, -, hno⟩ := h.entry i (.inr ⟨k, _, hk⟩)
    rw [hkey] at hkey'
    cases hkey'
    exact hno
  · intro nTargetSize i key s' hroom hreserve
    have hfull := h.refill hfresh hroom
    rw [← refill_kept newKey nTargetSize s]
    unfold KeyPoolState.reserveKeyFromKeyPool at hreserve
    rcases hfull.takeOldest with ⟨-, fault, htake⟩ | ⟨j, key', hin, hkey, htake⟩
    · rw [htake] at hreserve
      cases hreserve
    · rw [htake] at hreserve
      cases hreserve
      obtain ⟨key'', hkey'', -, -, hno⟩ := hfull.entry j (.inl hin)
      rw [hkey] at hkey''
      cases hkey''
      exact hno
  · intro i hi
    obtain ⟨key, hkey, -⟩ := h.entry i (.inl hi)
    simp [hkey]

theorem key_pool_safe {newKey : Nat → CKeyPool} {s0 s : KeyPoolState} (hfresh : FreshKeys newKey)
    (hload : PoolLoaded newKey s0) (run : Relation.ReflTransGen (KeyPoolStep newKey) s0 s) :
    PoolSafe newKey s := by
  have hok : PoolOk newKey s := by
    induction run with
    | refl => exact hload.poolOk
    | tail _ hstep ih =>
      obtain ⟨op, hfits, rfl⟩ := hstep
      exact ih.run hfresh hfits
  exact hok.safe hfresh

def sampleKey (n : Nat) : CKeyPool := ⟨0, List.replicate (n + 1) 2⟩

theorem sampleKey_fresh : FreshKeys sampleKey := by
  refine ⟨?_, ?_⟩
  · intro a b hab
    have hlen := congrArg List.length hab
    simpa [sampleKey] using hlen
  · intro n hnil
    have hlen := congrArg List.length hnil
    simp [sampleKey] at hlen

def emptyPool : KeyPoolState := ⟨∅, fun _ => none, ∅, 0, false, true, fun _ => none, ∅⟩

theorem emptyPool_loaded : PoolLoaded sampleKey emptyPool where
  indexed i := by simp [emptyPool]
  known i key h := by cases h
  apart i j key key' h := by cases h
  unreserved k := rfl
  unkept := rfl
  unborn n _ := Finset.notMem_empty _

section Slots

variable {newKey : Nat → CKeyPool} {s : KeyPoolState}

theorem reserveKeyFromKeyPool_reserved (newKey : Nat → CKeyPool) (n : Nat) (s : KeyPoolState) :
    (s.reserveKeyFromKeyPool newKey n).2.2.reserved = s.reserved := by
  have hrefill : (s.refill newKey n).reserved = s.reserved := by
    unfold KeyPoolState.refill
    split
    · rfl
    · exact PoolOk.topUp_reserved n _ s
  have htake : ∀ t : KeyPoolState, t.takeOldest.2.2.reserved = t.reserved := by
    intro t
    unfold KeyPoolState.takeOldest
    split
    · dsimp only
      split
      · rfl
      · split
        · rfl
        · split <;> rfl
    · rfl
  exact (htake _).trans hrefill

def PoolOp.slot : PoolOp → Option Nat
  | .getReservedKey _ k => some k
  | .keepReserved k => some k
  | .returnReserved k => some k
  | _ => none

-- A CReserveKey object is written by its own calls alone.
theorem PoolOp.run_reserved {op : PoolOp} {k : Nat} (h : op.slot ≠ some k) :
    (op.run newKey s).reserved k = s.reserved k := by
  have hother : ∀ (j : Nat) (r : Option (Nat × VchType)) (t : KeyPoolState), some j ≠ some k →
      (t.setReserved j r).reserved k = t.reserved k := by
    intro j r t hne
    exact Function.update_of_ne (fun heq => hne (congrArg some heq.symm)) _ _
  have hreserve := reserveKeyFromKeyPool_reserved newKey
  cases op with
  | getReservedKey n j =>
    unfold PoolOp.run KeyPoolState.getReservedKey
    specialize hreserve n s
    dsimp only
    split
    · rfl
    · split
      all_goals
        next heq =>
          rw [heq] at hreserve
          rw [hother _ _ _ h, hreserve]
  | keepReserved j =>
    unfold PoolOp.run KeyPoolState.keepReserved
    dsimp only
    split
    · rfl
    · rw [hother _ _ _ h]
      exact congrFun PoolOk.keepKey_rest.2.1 k
  | returnReserved j =>
    unfold PoolOp.run KeyPoolState.returnReserved
    dsimp only
    split
    · rfl
    · rw [hother _ _ _ h]
      rfl
  | getKeyFromKeyPool n =>
    unfold PoolOp.run KeyPoolState.getKeyFromKeyPool
    specialize hreserve n s
    dsimp only
    split
    · next heq =>
      rw [heq] at hreserve
      exact (congrFun PoolOk.keepKey_rest.2.1 k).trans (congrFun hreserve k)
    · next heq =>
      rw [heq] at hreserve
      exact congrFun hreserve k
  | getOldestKeyPoolTime n =>
    unfold PoolOp.run KeyPoolState.getOldestKeyPoolTime
    specialize hreserve n s
    dsimp only
    split
    · next heq =>
      rw [heq] at hreserve
      exact congrFun hreserve k
    · next heq =>
      rw [heq] at hreserve
      exact congrFun hreserve k
  | lock fLocked => rfl
  | newKeyPool nKeys =>
    have hwrite : ∀ l : List Nat, ∀ t : KeyPoolState,
        (l.foldl (fun t i => t.writeNewKey newKey (i + 1)) t).reserved = t.reserved := by
      intro l
      induction l with
      | nil => exact fun t => rfl
      | cons i l ih => exact fun t => ih _
    unfold PoolOp.run KeyPoolState.newKeyPool
    dsimp only
    split
    · rfl
    · exact congrFun (hwrite _ _) k

theorem roomy_of_slots {n : Nat} (hrest : ∀ k, 2 ≤ k → s.reserved k = none)
    (h : ∀ k < 2, ∀ r ∈ s.reserved k, r.1 < s.nEnd) : s.Roomy n := by
  rintro i ⟨k, v, hk⟩
  rcases Nat.lt_or_ge k 2 with hlt | hge
  · exact .inl (h k hlt (i, v) hk)
  · rw [hrest k hge] at hk
    cases hk

end Slots

def poolAfter (ops : List PoolOp) : KeyPoolState := ops.foldl (PoolOp.run sampleKey) emptyPool

def twoPayments : List PoolOp :=
  [.getReservedKey 2 0, .getReservedKey 2 1, .keepReserved 0, .getReservedKey 2 0,
    .returnReserved 1, .getReservedKey 2 1]

theorem twoPayments_slots {ops : List PoolOp} (h : ops <+: twoPayments) {k : Nat} (hk : 2 ≤ k) :
    (poolAfter ops).reserved k = none := by
  have hslots : ∀ op ∈ twoPayments, op.slot = some 0 ∨ op.slot = some 1 := by decide
  induction ops using List.reverseRecOn with
  | nil => rfl
  | append_singleton ops op ih =>
    have hop := hslots op (h.subset (List.mem_append_right _ List.mem_cons_self))
    have hne : op.slot ≠ some k := by
      rcases hop with hop | hop <;> rw [hop, ne_eq, Option.some.injEq] <;> omega
    rw [poolAfter, List.foldl_concat, PoolOp.run_reserved hne]
    exact ih ((List.prefix_append ops [op]).trans h)

theorem twoPayments_fits {ops : List PoolOp} {op : PoolOp} (h : ops ++ [op] <+: twoPayments) :
    op.Fits (poolAfter ops) := by
  have hslots : ∀ k, 2 ≤ k → (poolAfter ops).reserved k = none :=
    fun k hk => twoPayments_slots ((List.prefix_append ops [op]).trans h) hk
  have hheld : ∀ n < 6, ∀ k < 2, ∀ r ∈ (poolAfter (twoPayments.take n)).reserved k,
      r.1 < (poolAfter (twoPayments.take n)).nEnd := by decide +kernel
  have hlen : ops.length < 6 := by
    have hle := h.length_le
    rw [List.length_append] at hle
    exact hle
  have htake : twoPayments.take ops.length = ops :=
    (List.prefix_iff_eq_take.mp ((List.prefix_append ops [op]).trans h)).symm
  have hroomy : ∀ n, (poolAfter ops).Roomy n := fun n =>
    roomy_of_slots hslots (by rw [← htake]; exact hheld ops.length hlen)
  cases op with
  | getReservedKey n k => exact fun _ _ => hroomy n
  | getKeyFromKeyPool n => exact fun _ => hroomy n
  | getOldestKeyPoolTime n => exact fun _ => hroomy n
  | newKeyPool n =>
    have hmem := h.subset (List.mem_append_right _ List.mem_cons_self)
    simp [twoPayments] at hmem
  | _ => trivial

theorem twoPayments_run {ops : List PoolOp} (h : ops <+: twoPayments) :
    Relation.ReflTransGen (KeyPoolStep sampleKey) emptyPool (poolAfter ops) := by
  induction ops using List.reverseRecOn with
  | nil => exact .refl
  | append_singleton ops op ih =>
    refine (ih ((List.prefix_append ops [op]).trans h)).tail ⟨op, twoPayments_fits h, ?_⟩
    rw [poolAfter, List.foldl_concat]
    rfl

theorem twoPayments_safe :
    (poolAfter twoPayments).reserved 0 = some (3, (sampleKey 2).vchPubKey) ∧
      (poolAfter twoPayments).reserved 1 = some (2, (sampleKey 1).vchPubKey) ∧
      (sampleKey 0).vchPubKey ∈ (poolAfter twoPayments).kept ∧
      PoolSafe sampleKey (poolAfter twoPayments) :=
  ⟨by decide +kernel, by decide +kernel, by decide +kernel,
    key_pool_safe sampleKey_fresh emptyPool_loaded (twoPayments_run (List.prefix_refl _))⟩

def drainedPool : KeyPoolState :=
  PoolOp.run sampleKey (PoolOp.run sampleKey emptyPool (.getReservedKey 0 0)) (.getReservedKey 0 1)

theorem reservations_clash :
    PoolLoaded sampleKey emptyPool ∧ FreshKeys sampleKey ∧ ¬PoolSafe sampleKey drainedPool := by
  refine ⟨emptyPool_loaded, sampleKey_fresh, ?_⟩
  intro h
  have h0 : drainedPool.reserved 0 = some (1, [2]) := by decide +kernel
  have h1 : drainedPool.reserved 1 = some (1, [2, 2]) := by decide +kernel
  exact (h.distinct 0 1 1 1 _ _ (by decide) h0 h1).1 rfl

end Namecoin
