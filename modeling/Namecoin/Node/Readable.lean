import Namecoin.Node.Orphan
import Namecoin.Node.TxIndexed

namespace Namecoin

open Act

def Readable (s : NodeState) : Prop :=
  ∀ h p, s.mapBlockIndex h = some p → (s.disk.readBlock p.nFile p.nBlockPos).isSome

def KeepsReadable (s s' : NodeState) : Prop := Readable s → Readable s'

theorem keepsReadable_of_same {s s' : NodeState} (htree : SameTree s.mapBlockIndex s'.mapBlockIndex)
    (hdisk : s'.disk = s.disk) : KeepsReadable s s' := by
  intro h x p hp
  have hsame := htree x
  rw [hp, Option.map_some] at hsame
  obtain ⟨q, hq, hforget⟩ := Option.map_eq_some_iff.mp hsame.symm
  have hread := h x q hq
  rw [hdisk]
  have hfile : q.nFile = p.nFile :=
    show (forgetNext q).nFile = (forgetNext p).nFile by rw [hforget]
  have hpos : q.nBlockPos = p.nBlockPos :=
    show (forgetNext q).nBlockPos = (forgetNext p).nBlockPos by rw [hforget]
  rwa [hfile, hpos] at hread

theorem keepsReadable_pool {s s' : NodeState} (h : PoolOnly s s') : KeepsReadable s s' :=
  keepsReadable_of_same h.keepsIndex.same h.disk

theorem keepsReadable_bestKeeps : BestKeeps KeepsReadable where
  refl _ h := h
  trans hab hbc h := hbc (hab h)
  chain _ _ h := h
  invalid _ _ h := h
  next _ _ _ := keepsReadable_of_same (sameTree_setNext _ _ _) rfl
  pool := keepsReadable_pool
  genesis _ _ h := h
  best _ _ _ h := h

section Accept

variable {s : NodeState} {nFile nBlockPos : Nat}

theorem readBlock_written (d : Disk) (b : CBlock) :
    ((d.writeToDisk nFile nBlockPos b).readBlock nFile nBlockPos).isSome := by
  simp [Disk.writeToDisk]

theorem Readable.write (h : Readable s) (b : CBlock) :
    Readable { s with disk := s.disk.writeToDisk nFile nBlockPos b } := by
  intro x p hp
  simp only [Disk.writeToDisk]
  split
  · rfl
  · exact h x p hp

theorem Readable.insert (h : Readable s) (pindexNew : CBlockIndex)
    (hnew : (s.disk.readBlock pindexNew.nFile pindexNew.nBlockPos).isSome) :
    Readable (insertBlockIndex pindexNew s) := by
  intro x p hp
  by_cases hx : x = pindexNew.hashBlock
  · subst hx
    have hself : (insertBlockIndex pindexNew s).mapBlockIndex pindexNew.hashBlock =
        some pindexNew := Function.update_self _ _ _
    rw [hself] at hp
    cases hp
    exact hnew
  · have hother : (insertBlockIndex pindexNew s).mapBlockIndex x = s.mapBlockIndex x :=
      Function.update_of_ne hx _ _
    rw [hother] at hp
    exact h x p hp

theorem addToBlockIndex_readable (e : NodeEnv) (b : CBlock) (h : Readable s)
    (hnew : (s.disk.readBlock nFile nBlockPos).isSome) :
    Readable (exec (addToBlockIndex e b nFile nBlockPos) s).2 := by
  unfold addToBlockIndex
  rw [exec_get_bind]
  refine after_raiseIf h (fun _ => ?_)
  dsimp only
  rw [exec_modify_bind]
  have hinsert := h.insert (newBlockIndex e.env s b nFile nBlockPos) hnew
  exact keeps_doIf keepsReadable_bestKeeps.refl _ (keepsReadable_bestKeeps.setBestChain e b _) _ hinsert

theorem acceptBlock_readable (e : NodeEnv) (b : CBlock) (s : NodeState) :
    KeepsReadable s (exec (acceptBlock e b) s).2 := by
  intro h
  unfold acceptBlock
  rw [exec_get_bind]
  refine after_raiseIf h (fun _ => ?_)
  refine after_fromOption h (fun pindexPrev _ => ?_)
  refine after_fromExcept h (fun _ _ => ?_)
  refine after_fromOption h (fun pos _ => ?_)
  rw [exec_modify_bind]
  exact addToBlockIndex_readable e b (h.write b) (readBlock_written s.disk b)

end Accept

theorem keepsReadable_carries (e : NodeEnv) : Carries e KeepsReadable where
  refl _ h := h
  trans hab hbc h := hbc (hab h)
  park _ _ h := h
  erase _ _ h := h
  drop _ _ h := h
  accept := acceptBlock_readable e

theorem Started.readable {env : Env} {hashGenesisBlock : Uint256} {s : NodeState}
    (h : Started env hashGenesisBlock s) : Readable s := by
  obtain ⟨e, genesis, wallet, -, -, -, -, hload⟩ := h.loaded
  have hblank : Readable (NodeState.blank wallet) := by
    intro x p hp
    cases hp
  have hs : s = (exec (loadBlockIndex e genesis) (NodeState.blank wallet)).2 := by rw [hload]
  rw [hs]
  unfold loadBlockIndex
  rw [exec_get_bind]
  refine after_raiseIf hblank (fun _ => ?_)
  refine after_fromOption hblank (fun pos _ => ?_)
  rw [exec_modify_bind]
  exact addToBlockIndex_readable e genesis (hblank.write genesis) (readBlock_written _ genesis)

theorem readable_of_run {env : Env} {hashGenesisBlock : Uint256} {s0 s : NodeState}
    (hstart : Started env hashGenesisBlock s0)
    (run : Relation.ReflTransGen (NodeStep env hashGenesisBlock) s0 s) : Readable s := by
  induction run with
  | refl => exact hstart.readable
  | tail _ hstep ih =>
    cases hstep with
    | block e b _ _ => exact (keepsReadable_carries e).processBlock b _ ih
    | tx e tx fCheckInputs fLimitFree fRateLimited _ _ =>
      exact keepsReadable_pool
        (acceptToMemoryPool_poolOnly e tx fCheckInputs fLimitFree fRateLimited _) ih

end Namecoin
