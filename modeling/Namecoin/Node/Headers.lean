import Namecoin.Lib.Median
import Namecoin.Node.Readable
import Namecoin.Node.Reload
import Namecoin.Node.Spendable

namespace Namecoin

open Act

def Vetted (env : Env) (b : CBlock) : Prop := ∃ nNow : Int, b.checkBlock env nNow intMax = .ok ()

-- What AcceptBlock has checked of the header of a block under its parent's chain.
structure FollowsRules (env : Env) (walk : List CBlockIndex) (nHeight : Nat) (b : CBlock) : Prop where
  nBits : getNextWorkRequired env walk b.toCBlockHeader = .ok b.nBits
  time : getMedianTimePast walk < b.nTime
  lockin : lockin env nHeight (b.getHash env) = true
  vetted : Vetted env b

structure HeaderOk (env : Env) (s : NodeState) (p : CBlockIndex) (b : CBlock) : Prop where
  stored : s.disk.readBlock p.nFile p.nBlockPos = some b
  hash : b.getHash env = p.hashBlock
  header : p.nTime = b.nTime ∧ p.nBits = b.nBits
  linked : ∀ q, p.pprev = some q →
    b.hashPrevBlock = q ∧ FollowsRules env (s.walk (some q)) p.nHeight b

def HeadersOk (env : Env) (s : NodeState) : Prop :=
  ∀ x p, s.mapBlockIndex x = some p → ∃ b, HeaderOk env s p b

theorem forgetNext_read {α : Type} {f : CBlockIndex → α} (hf : ∀ p, f (forgetNext p) = f p)
    {p p' : CBlockIndex} (h : forgetNext p' = forgetNext p) : f p' = f p := by
  rw [← hf p', h, hf]

section Forget

variable {walk walk' : List CBlockIndex}

theorem forget_map {α : Type} {f : CBlockIndex → α} (hf : ∀ p, f (forgetNext p) = f p)
    (h : walk'.map forgetNext = walk.map forgetNext) : walk'.map f = walk.map f := by
  have hcomp : f = f ∘ forgetNext := funext fun p => (hf p).symm
  rw [hcomp, ← List.map_map, ← List.map_map, h]

theorem lastNormalBits_forget (nProofOfWorkLimit : Nat)
    (h : walk'.map forgetNext = walk.map forgetNext) :
    lastNormalBits nProofOfWorkLimit walk' = lastNormalBits nProofOfWorkLimit walk := by
  induction walk generalizing walk' with
  | nil => rw [List.map_eq_nil_iff.mp h]
  | cons p rest ih =>
    obtain ⟨p', rest', rfl, hp, hrest⟩ := List.map_eq_cons_iff.mp h
    have hbits : p'.nBits = p.nBits := forgetNext_read (fun _ => rfl) hp
    have hheight : p'.nHeight = p.nHeight := forgetNext_read (fun _ => rfl) hp
    cases rest with
    | nil =>
      rw [List.map_eq_nil_iff.mp hrest]
      exact hbits
    | cons r more =>
      have hmore := ih hrest
      obtain ⟨r', more', rfl, -, -⟩ := List.map_eq_cons_iff.mp hrest
      simp only [lastNormalBits] at hmore ⊢
      rw [hmore, hbits, hheight]

theorem getNextWorkRequired_forget (env : Env) (hdr : CBlockHeader)
    (h : walk'.map forgetNext = walk.map forgetNext) :
    getNextWorkRequired env walk' hdr = getNextWorkRequired env walk hdr := by
  have hlast := lastNormalBits_forget (getCompact (bnProofOfWorkLimit env)) h
  cases walk with
  | nil => rw [List.map_eq_nil_iff.mp h]
  | cons p rest =>
    obtain ⟨p', rest', rfl, hp, -⟩ := List.map_eq_cons_iff.mp h
    have hbits : p'.nBits = p.nBits := forgetNext_read (fun _ => rfl) hp
    have hheight : p'.nHeight = p.nHeight := forgetNext_read (fun _ => rfl) hp
    have htime : p'.nTime = p.nTime := forgetNext_read (fun _ => rfl) hp
    have hat : ∀ k : Nat, ((p' :: rest')[k]?).map forgetNext = ((p :: rest)[k]?).map forgetNext := by
      intro k
      rw [← List.getElem?_map, ← List.getElem?_map, h]
    simp only [getNextWorkRequired]
    rw [hlast, hbits, hheight, htime]
    split
    · rfl
    · generalize (if getFullRetargetStartBlock env ≤ p.nHeight ∧ nInterval < p.nHeight + 1
        then nInterval else nInterval - 1) = nBlocksBack
      have hfirst := hat nBlocksBack
      cases hk : (p :: rest)[nBlocksBack]? with
      | none =>
        rw [hk, Option.map_none, Option.map_eq_none_iff] at hfirst
        rw [hfirst]
      | some q =>
        rw [hk, Option.map_some] at hfirst
        obtain ⟨q', hq', heq⟩ := Option.map_eq_some_iff.mp hfirst
        have hqtime : q'.nTime = q.nTime := forgetNext_read (fun _ => rfl) heq
        rw [hq']
        simp only [retarget, hbits, htime, hqtime]

theorem getMedianTimePast_forget (h : walk'.map forgetNext = walk.map forgetNext) :
    getMedianTimePast walk' = getMedianTimePast walk := by
  have htimes : walk'.map CBlockIndex.nTime = walk.map CBlockIndex.nTime :=
    forget_map (fun _ => rfl) h
  rw [getMedianTimePast, getMedianTimePast, List.map_take, List.map_take, htimes]

theorem FollowsRules.congr {env : Env} {nHeight : Nat} {b : CBlock}
    (hr : FollowsRules env walk nHeight b) (h : walk'.map forgetNext = walk.map forgetNext) :
    FollowsRules env walk' nHeight b := by
  refine ⟨?_, ?_, hr.lockin, hr.vetted⟩
  · rw [getNextWorkRequired_forget env _ h]
    exact hr.nBits
  · rw [getMedianTimePast_forget h]
    exact hr.time

end Forget

section Walk

variable {m m' : BlockMap} {genesis : Uint256}

theorem pprevWalk_grows (hroot : Rooted m genesis) (hgrows : Grows m m') (fuel : Nat)
    {h : Option Uint256} (hsome : ∀ x, h = some x → (m x).isSome) :
    (pprevWalk m' fuel h).map forgetNext = (pprevWalk m fuel h).map forgetNext := by
  induction fuel generalizing h with
  | zero => rfl
  | succ fuel ih =>
    cases h with
    | none => rfl
    | some x =>
      obtain ⟨p, hp⟩ := Option.isSome_iff_exists.mp (hsome x rfl)
      obtain ⟨p', hp', hforget⟩ := hgrows x p hp
      have hprev : p'.pprev = p.pprev := forgetNext_read (fun _ => rfl) hforget
      have hparent : ∀ y, p.pprev = some y → (m y).isSome := by
        intro y hy
        obtain ⟨-, q, -, -, hq, -⟩ := hroot.parent_some (q := y) (x := x) (by simp [parentOf, hp, hy])
        rw [hq]
        rfl
      rw [pprevWalk_cons hp, pprevWalk_cons hp', List.map_cons, List.map_cons, hforget, hprev,
        ih hparent]

theorem walk_grows {s s' : NodeState} (hroot : Rooted s.mapBlockIndex genesis)
    (hgrows : Grows s.mapBlockIndex s'.mapBlockIndex) {x : Uint256}
    (hx : (s.mapBlockIndex x).isSome) :
    (s'.walk (some x)).map forgetNext = (s.walk (some x)).map forgetNext := by
  obtain ⟨p, hp⟩ := Option.isSome_iff_exists.mp hx
  obtain ⟨p', hp', hforget⟩ := hgrows x p hp
  have hheight : p'.nHeight = p.nHeight := forgetNext_read (fun _ => rfl) hforget
  rw [NodeState.walk, NodeState.walk, Option.bind_some, Option.bind_some, hp, hp', Option.map_some,
    Option.map_some, hheight]
  refine pprevWalk_grows hroot hgrows _ ?_
  rintro y ⟨⟩
  exact hx

theorem HeaderOk.grow {env : Env} {s s' : NodeState} {p p' : CBlockIndex} {b : CBlock}
    (h : HeaderOk env s p b) (hroot : Rooted s.mapBlockIndex genesis) {x : Uint256}
    (hp : s.mapBlockIndex x = some p) (hforget : forgetNext p' = forgetNext p)
    (hgrows : Grows s.mapBlockIndex s'.mapBlockIndex) (hkeeps : s.disk.KeepsBlocks s'.disk) :
    HeaderOk env s' p' b := by
  have hfile : p'.nFile = p.nFile := forgetNext_read (fun _ => rfl) hforget
  have hpos : p'.nBlockPos = p.nBlockPos := forgetNext_read (fun _ => rfl) hforget
  have hhash : p'.hashBlock = p.hashBlock := forgetNext_read (fun _ => rfl) hforget
  have hbits : p'.nBits = p.nBits := forgetNext_read (fun _ => rfl) hforget
  have htime : p'.nTime = p.nTime := forgetNext_read (fun _ => rfl) hforget
  have hheight : p'.nHeight = p.nHeight := forgetNext_read (fun _ => rfl) hforget
  have hprev : p'.pprev = p.pprev := forgetNext_read (fun _ => rfl) hforget
  refine ⟨?_, ?_, ?_, ?_⟩
  · rw [hfile, hpos]
    exact hkeeps _ _ _ h.stored
  · rw [hhash]
    exact h.hash
  · rw [hbits, htime]
    exact h.header
  · intro q hq
    rw [hprev] at hq
    obtain ⟨hlink, hrules⟩ := h.linked q hq
    obtain ⟨-, pq, -, -, hmq, -⟩ := hroot.parent_some (q := q) (x := x) (by simp [parentOf, hp, hq])
    refine ⟨hlink, ?_⟩
    rw [hheight]
    exact hrules.congr (walk_grows hroot hgrows (by rw [hmq]; rfl))

end Walk

section Accept

variable {e : NodeEnv} {s s' : NodeState} {b : CBlock} {genesis best : Uint256}

theorem checkAccept_ok {pindexPrev : CBlockIndex} {u : Unit} (hvetted : Vetted e.env b)
    (h : checkAccept e s b pindexPrev = .ok u) :
    FollowsRules e.env (s.walk (some b.hashPrevBlock)) (pindexPrev.nHeight + 1) b := by
  simp only [checkAccept, Except.bind_eq_ok, Except.raiseIf_eq_ok] at h
  obtain ⟨nBits, hbits, _, hsame, _, htime, _, -, hlock⟩ := h
  rw [not_not] at hsame
  rw [← hsame] at hbits
  exact ⟨hbits, not_le.mp htime, Bool.not_eq_false _ ▸ hlock, hvetted⟩

structure SameHeaders (s s' : NodeState) : Prop where
  index : KeepsIndex s s'
  disk : s'.disk = s.disk

theorem PoolOnly.sameHeaders (h : PoolOnly s s') : SameHeaders s s' := ⟨h.keepsIndex, h.disk⟩

theorem sameHeaders_bestKeeps : BestKeeps SameHeaders where
  refl s := ⟨keepsIndex_refl s, rfl⟩
  trans h h' := ⟨h.index.trans h'.index, h'.disk.trans h.disk⟩
  chain s c := ⟨keepsIndex_bestKeeps.chain s c, rfl⟩
  invalid p s := ⟨keepsIndex_bestKeeps.invalid p s, rfl⟩
  next p n s := ⟨keepsIndex_bestKeeps.next p n s, rfl⟩
  pool := PoolOnly.sameHeaders
  genesis hash s := ⟨keepsIndex_bestKeeps.genesis hash s, rfl⟩
  best p hash s := ⟨keepsIndex_bestKeeps.best p hash s, rfl⟩

theorem HeadersOk.same {env : Env} (h : HeadersOk env s) (hroot : Rooted s.mapBlockIndex genesis)
    (hsame : SameHeaders s s') : HeadersOk env s' := by
  intro x p' hp'
  obtain ⟨p, hp, hforget⟩ := hsame.index.same.symm.grows x p' hp'
  obtain ⟨b, hb⟩ := h x p hp
  refine ⟨b, hb.grow hroot hp hforget.symm hsame.index.same.grows ?_⟩
  rw [hsame.disk]
  exact fun _ _ _ hread => hread

theorem HeadersOk.congr {env : Env} (h : HeadersOk env s) (hmap : s'.mapBlockIndex = s.mapBlockIndex)
    (hdisk : s'.disk = s.disk) : HeadersOk env s' := by
  intro x p hp
  rw [hmap] at hp
  obtain ⟨b, hb⟩ := h x p hp
  refine ⟨b, hdisk ▸ hb.stored, hb.hash, hb.header, fun q hq => ?_⟩
  have hwalk : s'.walk (some q) = s.walk (some q) := by rw [NodeState.walk, NodeState.walk, hmap]
  rw [hwalk]
  exact hb.linked q hq

theorem HeadersOk.insert (h : HeadersOk e.env s) (hroot : Rooted s.mapBlockIndex genesis)
    {pindexPrev : CBlockIndex} {nFile nBlockPos : Nat}
    (hfresh : s.mapBlockIndex (b.getHash e.env) = none)
    (hprev : s.mapBlockIndex b.hashPrevBlock = some pindexPrev)
    (hrules : FollowsRules e.env (s.walk (some b.hashPrevBlock)) (pindexPrev.nHeight + 1) b)
    (hunused : s.disk.readBlock nFile nBlockPos = none) :
    HeadersOk e.env (insertBlockIndex (newBlockIndex e.env s b nFile nBlockPos)
      { s with disk := s.disk.writeToDisk nFile nBlockPos b }) := by
  have hgrows : Grows s.mapBlockIndex (insertBlockIndex (newBlockIndex e.env s b nFile nBlockPos)
      { s with disk := s.disk.writeToDisk nFile nBlockPos b }).mapBlockIndex :=
    @grows_insert s.mapBlockIndex (newBlockIndex e.env s b nFile nBlockPos) hfresh
  intro x p hp
  by_cases hx : x = b.getHash e.env
  · subst hx
    have hself : Function.update s.mapBlockIndex (b.getHash e.env)
        (some (newBlockIndex e.env s b nFile nBlockPos)) (b.getHash e.env) =
        some (newBlockIndex e.env s b nFile nBlockPos) := Function.update_self _ _ _
    obtain rfl := Option.some.inj (hself.symm.trans hp)
    refine ⟨b, ?_, rfl, ⟨rfl, rfl⟩, ?_⟩
    · show (s.disk.writeToDisk nFile nBlockPos b).readBlock nFile nBlockPos = some b
      simp [Disk.writeToDisk]
    · intro q hq
      simp only [newBlockIndex, hprev, Option.map_some, Option.some.injEq] at hq
      subst hq
      refine ⟨rfl, ?_⟩
      have hheight : (newBlockIndex e.env s b nFile nBlockPos).nHeight = pindexPrev.nHeight + 1 := by
        simp [newBlockIndex, hprev]
      rw [hheight]
      exact hrules.congr (walk_grows hroot hgrows (by rw [hprev]; rfl))
  · have hold : s.mapBlockIndex x = some p := by
      rw [← hp]
      exact (Function.update_of_ne hx _ _).symm
    obtain ⟨c, hc⟩ := h x p hold
    exact ⟨c, hc.grow hroot hold rfl hgrows (writeToDisk_keeps hunused b)⟩

structure RulesKept (env : Env) (genesis : Uint256) (s : NodeState) : Prop where
  headers : HeadersOk env s
  orphans : ∀ o ∈ s.mapOrphanBlocksByPrev, Vetted env o.2
  tree : ∃ best, TreeOk s.tree genesis best

theorem RulesKept.same {env : Env} (h : RulesKept env genesis s) (hsame : SameHeaders s s')
    (htree : ∃ best, TreeOk s'.tree genesis best) : RulesKept env genesis s' := by
  obtain ⟨best, hok⟩ := h.tree
  refine ⟨h.headers.same hok.rooted hsame, ?_, htree⟩
  rw [hsame.index.byPrev]
  exact h.orphans

structure HeadersKept (env : Env) (s s' : NodeState) : Prop where
  headers : HeadersOk env s'
  byPrev : s'.mapOrphanBlocksByPrev = s.mapOrphanBlocksByPrev

theorem acceptBlock_headersKept (happends : e.Appends) (hvetted : Vetted e.env b)
    (h : HeadersOk e.env s) (hok : TreeOk s.tree genesis best) :
    HeadersKept e.env s (exec (acceptBlock e b) s).2 := by
  have hself : HeadersKept e.env s s := ⟨h, rfl⟩
  unfold acceptBlock
  rw [exec_get_bind]
  refine after_raiseIf hself (fun hfresh => ?_)
  refine after_fromOption hself (fun pindexPrev hprev => ?_)
  refine after_fromExcept hself (fun _ hcheck => ?_)
  refine after_fromOption hself (fun pos hpos => ?_)
  rw [exec_modify_bind]
  have hnone : s.mapBlockIndex (b.getHash e.env) = none := by simpa using hfresh
  have hins := h.insert hok.rooted hnone hprev (checkAccept_ok hvetted hcheck)
    (happends s b pos.1 pos.2 hpos)
  have hroot := (hok.insertNew (by rw [hprev]; rfl) hnone pos.1 pos.2).2.rooted
  unfold addToBlockIndex
  rw [exec_get_bind, exec_raiseIf_bind, if_neg hfresh]
  dsimp only
  rw [exec_modify_bind]
  have hsame := keeps_doIf sameHeaders_bestKeeps.refl
    (s.bnBestChainWork < (newBlockIndex e.env s b pos.1 pos.2).bnChainWork)
    (sameHeaders_bestKeeps.setBestChain e b (newBlockIndex e.env s b pos.1 pos.2))
    (insertBlockIndex (newBlockIndex e.env s b pos.1 pos.2)
      { s with disk := s.disk.writeToDisk pos.1 pos.2 b })
  exact ⟨hins.same hroot hsame, hsame.index.byPrev⟩

theorem acceptBlock_rulesKept (happends : e.Appends) (hvetted : Vetted e.env b)
    (h : RulesKept e.env genesis s) : RulesKept e.env genesis (exec (acceptBlock e b) s).2 := by
  obtain ⟨best, hok⟩ := h.tree
  have hkept := acceptBlock_headersKept happends hvetted h.headers hok
  refine ⟨hkept.headers, ?_, (acceptBlock_advances e b s genesis best hok).1⟩
  rw [hkept.byPrev]
  exact h.orphans

end Accept

-- What every step of ProcessBlock keeps when each block it files has passed the check P.
structure VettedKeeps (e : NodeEnv) (P : CBlock → Prop) (I : NodeState → Prop) : Prop where
  park : ∀ b s, P b → I s → I (s.addOrphan e.env b)
  erase : ∀ h s, I s → I (s.eraseOrphan h)
  drop : ∀ h s, I s → I (s.eraseOrphansByPrev h)
  accept : ∀ b s, P b → I s → I (exec (acceptBlock e b) s).2
  orphans : ∀ s, I s → ∀ o ∈ s.mapOrphanBlocksByPrev, P o.2

section VettedKeeps

variable {e : NodeEnv} {P : CBlock → Prop} {I : NodeState → Prop}

theorem VettedKeeps.acceptOrphans (h : VettedKeeps e P I) {bs : List CBlock} (hbs : ∀ b ∈ bs, P b)
    {s : NodeState} (hs : I s) : I (acceptOrphans e bs s).2 := by
  induction bs generalizing s with
  | nil => exact hs
  | cons b rest ih =>
    obtain ⟨hb, hrest⟩ := List.forall_mem_cons.mp hbs
    have hstep := ih hrest (h.erase (b.getHash e.env) _ (h.accept b s hb hs))
    rw [Namecoin.acceptOrphans]
    split <;> exact hstep

theorem VettedKeeps.acceptDependents (h : VettedKeeps e P I) (fuel : Nat) (vWorkQueue : List Uint256)
    {s : NodeState} (hs : I s) : I (acceptDependents e fuel vWorkQueue s) := by
  induction fuel generalizing vWorkQueue s with
  | zero => exact hs
  | succ fuel ih =>
    cases vWorkQueue with
    | nil => exact hs
    | cons hashPrev rest =>
      have hbs : ∀ b ∈ s.orphansOf hashPrev, P b := by
        intro b hb
        obtain ⟨o, ho, rfl⟩ := List.mem_map.mp hb
        exact h.orphans s hs o (List.mem_of_mem_filter ho)
      rw [Namecoin.acceptDependents]
      exact ih _ (h.drop hashPrev _ (h.acceptOrphans hbs hs))

theorem VettedKeeps.processBlock (h : VettedKeeps e P I) {b : CBlock}
    (hchecked : ∀ u, b.checkBlock e.env e.nNow intMax = .ok u → P b) {s : NodeState} (hs : I s) :
    I (exec (processBlock e b) s).2 := by
  unfold Namecoin.processBlock
  rw [exec_get_bind]
  refine after_raiseIf hs (fun _ => ?_)
  refine after_raiseIf hs (fun _ => ?_)
  refine after_fromExcept hs (fun u hcheck => ?_)
  have hb := hchecked u hcheck
  split
  · exact h.park b s hb hs
  · have haccept := h.accept b s hb hs
    refine exec_bind_after ?_ ?_
    · intro fault s' hx
      rw [hx] at haccept
      exact haccept
    · intro _ s' hx
      rw [hx] at haccept
      exact h.acceptDependents _ _ haccept

end VettedKeeps

section Runs

variable {env : Env} {hashGenesisBlock : Uint256} {s0 s : NodeState}

theorem rulesKept_vetted {e : NodeEnv} (happends : e.Appends) (genesis : Uint256) :
    VettedKeeps e (Vetted e.env) (RulesKept e.env genesis) where
  park b s hb hs := by
    refine ⟨hs.headers.congr rfl rfl, fun o ho => ?_, hs.tree⟩
    rcases List.mem_append.mp ho with hold | hnew
    · exact hs.orphans o hold
    · rw [List.mem_singleton.mp hnew]
      exact hb
  erase _ _ hs := ⟨hs.headers.congr rfl rfl, hs.orphans, hs.tree⟩
  drop _ _ hs :=
    ⟨hs.headers.congr rfl rfl, fun o ho => hs.orphans o (List.mem_of_mem_filter ho), hs.tree⟩
  accept _ _ hb hs := acceptBlock_rulesKept happends hb hs
  orphans _ hs := hs.orphans

theorem Started.headersOk (h : Started env hashGenesisBlock s) : HeadersOk env s := by
  obtain ⟨e, genesis, wallet, rfl, rfl, hprev, hwork, hload⟩ := h.loaded
  simp only [loadBlockIndex, bind_ok, get_ok, raiseIf_ok, fromOption_ok, modify_ok] at hload
  obtain ⟨_, _, ⟨rfl, rfl⟩, -, _, ⟨hhash, rfl⟩, pos, _, ⟨-, rfl⟩, -, _, rfl, hadd⟩ := hload
  have hstate := @addToBlockIndex_genesis e genesis
    { NodeState.blank wallet with
      disk := (NodeState.blank wallet).disk.writeToDisk pos.1 pos.2 genesis }
    rfl (not_not.mp hhash) hwork pos.1 pos.2
  have hsame := hadd.symm.trans hstate
  cases hsame
  intro x p hp
  by_cases hx : x = genesis.getHash e.env
  · have hself : Function.update (fun _ => none) (genesis.getHash e.env)
        (some (newBlockIndex e.env (NodeState.blank wallet) genesis pos.1 pos.2)) x =
        some (newBlockIndex e.env (NodeState.blank wallet) genesis pos.1 pos.2) := by
      rw [hx, Function.update_self]
    obtain rfl := Option.some.inj (hself.symm.trans hp)
    refine ⟨genesis, ?_, rfl, ⟨rfl, rfl⟩, fun q hq => ?_⟩
    · show ((NodeState.blank wallet).disk.writeToDisk pos.1 pos.2 genesis).readBlock pos.1 pos.2 = _
      simp [Disk.writeToDisk]
    · cases hq
  · have hother : Function.update (fun _ => none) (genesis.getHash e.env)
        (some (newBlockIndex e.env (NodeState.blank wallet) genesis pos.1 pos.2)) x = none :=
      Function.update_of_ne hx _ _
    cases hother.symm.trans hp

theorem Started.rulesKept (h : Started env hashGenesisBlock s) :
    RulesKept env hashGenesisBlock s := by
  refine ⟨h.headersOk, ?_, _, h.treeOk⟩
  rw [h.byPrev_nil]
  exact fun o ho => absurd ho List.not_mem_nil

inductive AppendStep (env : Env) (hashGenesisBlock : Uint256) (s : NodeState) : NodeState → Prop
  | block (e : NodeEnv) (b : CBlock) (henv : e.env = env)
      (hgenesis : e.hashGenesisBlock = hashGenesisBlock) (happends : e.Appends) :
      AppendStep env hashGenesisBlock s (exec (processBlock e b) s).2
  | tx (e : NodeEnv) (tx : CTransaction) (fCheckInputs fLimitFree fRateLimited : Bool)
      (henv : e.env = env) (hgenesis : e.hashGenesisBlock = hashGenesisBlock) :
      AppendStep env hashGenesisBlock s
        (exec (acceptToMemoryPool e tx fCheckInputs fLimitFree fRateLimited) s).2

theorem RulesKept.step {s' : NodeState} (h : RulesKept env hashGenesisBlock s)
    (hstep : AppendStep env hashGenesisBlock s s') : RulesKept env hashGenesisBlock s' := by
  cases hstep with
  | block e b henv _ happends =>
    subst henv
    exact (rulesKept_vetted happends hashGenesisBlock).processBlock
      (fun _ hcheck => ⟨e.nNow, hcheck⟩) h
  | tx e tx fCheckInputs fLimitFree fRateLimited henv _ =>
    subst henv
    have hpool := acceptToMemoryPool_poolOnly e tx fCheckInputs fLimitFree fRateLimited s
    refine h.same hpool.sameHeaders ?_
    rw [hpool.tree]
    exact h.tree

theorem RulesKept.run (hstart : Started env hashGenesisBlock s0)
    (run : Relation.ReflTransGen (AppendStep env hashGenesisBlock) s0 s) :
    RulesKept env hashGenesisBlock s := by
  induction run with
  | refl => exact hstart.rulesKept
  | tail _ hstep ih => exact ih.step hstep

end Runs

section MedianTime

variable {env : Env} {s : NodeState} {genesis : Uint256}

theorem middle_get {times : List Nat} (hne : times ≠ []) :
    (times.insertionSort (· ≤ ·))[times.length / 2]? =
      some ((times.insertionSort (· ≤ ·)).getD (times.length / 2) 0) := by
  have hpos := List.length_pos_iff.mpr hne
  have hlt : times.length / 2 < (times.insertionSort (· ≤ ·)).length := by
    rw [List.length_insertionSort]
    omega
  rw [List.getD_eq_getElem?_getD, List.getElem?_eq_getElem hlt, Option.getD_some]

theorem getMedianTimePast_eq (walk : List CBlockIndex) : getMedianTimePast walk =
    (((walk.map CBlockIndex.nTime).take nMedianTimeSpan).insertionSort (· ≤ ·)).getD
      (((walk.map CBlockIndex.nTime).take nMedianTimeSpan).length / 2) 0 := by
  rw [getMedianTimePast, List.map_take, List.length_insertionSort]

theorem getMedianTimePast_cons {p : CBlockIndex} {walk : List CBlockIndex}
    (h : getMedianTimePast walk < p.nTime) : getMedianTimePast walk ≤ getMedianTimePast (p :: walk) := by
  rcases eq_or_ne walk [] with rfl | hwalk
  · exact Nat.zero_le _
  have hne : (walk.map CBlockIndex.nTime).take nMedianTimeSpan ≠ [] := by
    simpa [List.take_eq_nil_iff, nMedianTimeSpan] using hwalk
  rw [getMedianTimePast_eq] at h ⊢
  rw [getMedianTimePast_eq (p :: walk), List.map_cons]
  generalize walk.map CBlockIndex.nTime = times at h hne ⊢
  have hnew : (p.nTime :: times).take nMedianTimeSpan = p.nTime :: times.take 10 := rfl
  have hold := Median.countP_lt_sorted (middle_get hne)
  generalize ((times.take nMedianTimeSpan).insertionSort (· ≤ ·)).getD
    ((times.take nMedianTimeSpan).length / 2) 0 = m at h hold ⊢
  have hsub := (List.take_sublist_take_left (l := times)
    (show 10 ≤ nMedianTimeSpan by decide)).countP_le (p := fun a => decide (a < m))
  rw [hnew]
  refine Median.le_sorted (middle_get (List.cons_ne_nil _ _)) ?_
  rw [List.countP_cons_of_neg (by simpa using h.le), List.length_cons, List.length_take]
  rw [List.length_take] at hold
  simp only [nMedianTimeSpan] at hold hsub
  omega

theorem Rooted.walk_cons (h : Rooted s.mapBlockIndex genesis) {x q : Uint256} {p : CBlockIndex}
    (hp : s.mapBlockIndex x = some p) (hq : p.pprev = some q) :
    s.walk (some x) = p :: s.walk (some q) := by
  obtain ⟨p', pq, hp', -, hmq, hheight⟩ := h.parent_some (q := q) (x := x) (by simp [parentOf, hp, hq])
  obtain rfl := Option.some.inj (hp.symm.trans hp')
  rw [NodeState.walk, NodeState.walk, Option.bind_some, Option.bind_some, hp, hmq, Option.map_some,
    Option.map_some, Option.getD_some, Option.getD_some, pprevWalk_cons hp, hq, hheight]

-- What holds of every block the index has taken, whatever was received and in what order.
structure ChainRules (env : Env) (genesis : Uint256) (s : NodeState) : Prop where
  indexed : ∀ x p, s.mapBlockIndex x = some p → ∃ b, HeaderOk env s p b
  parented : ∀ x p, s.mapBlockIndex x = some p → x ≠ genesis →
    ∃ q pq, p.pprev = some q ∧ s.mapBlockIndex q = some pq ∧ p.nHeight = pq.nHeight + 1 ∧
      s.walk (some x) = p :: s.walk (some q)
  medianTime : ∀ a x, Forest.Anc (parentOf s.mapBlockIndex) a x →
    getMedianTimePast (s.walk (some a)) ≤ getMedianTimePast (s.walk (some x))

theorem RulesKept.median_parent (h : RulesKept env genesis s) {x q : Uint256}
    (hq : parentOf s.mapBlockIndex x = some q) :
    getMedianTimePast (s.walk (some q)) ≤ getMedianTimePast (s.walk (some x)) := by
  obtain ⟨best, hok⟩ := h.tree
  have hroot : Rooted s.mapBlockIndex genesis := hok.rooted
  obtain ⟨p, -, hp, hprev, -, -⟩ := hroot.parent_some hq
  obtain ⟨b, hb⟩ := h.headers x p hp
  obtain ⟨-, hrules⟩ := hb.linked q hprev
  rw [hroot.walk_cons hp hprev]
  refine getMedianTimePast_cons ?_
  rw [hb.header.1]
  exact hrules.time

theorem chainRules_of_run {hashGenesisBlock : Uint256} {s0 : NodeState}
    (hstart : Started env hashGenesisBlock s0)
    (run : Relation.ReflTransGen (AppendStep env hashGenesisBlock) s0 s) :
    ChainRules env hashGenesisBlock s := by
  have hkept := RulesKept.run hstart run
  obtain ⟨best, hok⟩ := hkept.tree
  have hroot : Rooted s.mapBlockIndex hashGenesisBlock := hok.rooted
  refine ⟨hkept.headers, fun x p hp hx => ?_, fun a x hanc => ?_⟩
  · obtain ⟨q, pq, hq, hmq, hheight⟩ := hroot.parent x p hp hx
    exact ⟨q, pq, hq, hmq, hheight, hroot.walk_cons hp hq⟩
  · induction hanc with
    | refl => exact le_rfl
    | tail _ hup ih => exact (hkept.median_parent hup).trans ih

def joinedNode : NodeState :=
  (exec (processBlock appendEnv oneBlock) (exec (processBlock appendEnv twoBlock) zeroNode).2).2

theorem joinedNode_chainRules : ChainRules sampleEnv sampleNodeEnv.hashGenesisBlock joinedNode ∧
    (joinedNode.mapBlockIndex (twoBlock.getHash sampleEnv)).isSome := by
  refine ⟨chainRules_of_run zeroNode_started ((Relation.ReflTransGen.single
    (.block appendEnv twoBlock rfl rfl appendEnv_appends)).tail
      (.block appendEnv oneBlock rfl rfl appendEnv_appends)), ?_⟩
  decide +kernel

end MedianTime

end Namecoin
