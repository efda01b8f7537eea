import Namecoin.Node.Connected

namespace Namecoin

open Act

def NodeState.withTree (t : TreeView) (s : NodeState) : NodeState :=
  { s with
    mapBlockIndex := t.mapBlockIndex
    pindexGenesisBlock := t.pindexGenesisBlock
    pindexBest := t.pindexBest
    hashBestChain := t.hashBestChain
    nBestHeight := t.nBestHeight
    bnBestChainWork := t.bnBestChainWork }

-- A false return is dropped by the caller, an exception is not.
def returned (x : Act Fault NodeState Unit) : Act Fault NodeState Unit :=
  tryCatch x (fun fault =>
    match fault with
    | .reject _ => pure ()
    | fault => throw fault)

namespace CTxDB

def checkChain (e : NodeEnv) (s : NodeState) (fCheckBlocks : Bool) :
    List CBlockIndex → Option CBlockIndex → Except Fault (Option CBlockIndex)
  | pindex :: pprev :: rest, pindexFork =>
    if (pindex.nHeight : Int) < s.nBestHeight - 2500 ∧ fCheckBlocks = false then .ok pindexFork
    else
      match s.disk.readIndexed e.env pindex with
      | none => .error (.reject "LoadBlockIndex() : block.ReadFromDisk failed")
      | some block =>
        match block.checkBlock e.env e.nNow pindex.nHeight with
        | .ok _ => checkChain e s fCheckBlocks (pprev :: rest) pindexFork
        | .error (.reject _) => checkChain e s fCheckBlocks (pprev :: rest) (some pprev)
        | .error fault => .error fault
  | _, pindexFork => .ok pindexFork

def verifyBestChain (e : NodeEnv) (fCheckBlocks : Bool) : Act Fault NodeState Unit := do
  let s ← get
  let pindexFork ← fromExcept (checkChain e s fCheckBlocks (s.walk s.pindexBest) none)
  match pindexFork with
  | none => pure ()
  | some pindexFork => do
    let block ← fromOption (.reject "LoadBlockIndex() : block.ReadFromDisk failed")
      (s.disk.readIndexed e.env pindexFork)
    returned (setBestChain e block pindexFork)

def loadBlockIndex (e : NodeEnv) (addr : Uint256 → Nat) (records : List CDiskBlockIndex)
    (bestInvalidWork : Option Int) (fCheckBlocks : Bool) : Act Fault NodeState Unit := do
  let s ← get
  let t ← fromExcept (readBlockIndex e.env e.hashGenesisBlock addr records
    s.chain.dbset.hashBestChain)
  modify (NodeState.withTree t)
  doIf t.pindexBest.isSome do
    modify (fun s => { s with bnBestInvalidWork := bestInvalidWork.getD s.bnBestInvalidWork })
    verifyBestChain e fCheckBlocks

end CTxDB

-- A process that starts over: the files and databases as they are, nothing in memory.
def NodeState.restarted (s : NodeState) (wallet : CWallet) : NodeState :=
  { NodeState.blank wallet with
    disk := s.disk
    chain := ⟨s.chain.dbset, fun _ => ∅, wallet⟩ }

theorem CBlock.checkBlock_clock {env : Env} {b : CBlock} {nNow : Int} {nHeight : Nat}
    (h : b.checkBlock env nNow nHeight = .ok ()) (nNow' : Int) :
    b.checkBlock env nNow' nHeight =
      if nNow' + 2 * 60 * 60 < b.nTime then
        .error (.reject "CheckBlock() : block timestamp too far in the future")
      else .ok () := by
  simp only [CBlock.checkBlock, Except.bind_eq_ok, Except.raiseIf_eq_ok] at h
  obtain ⟨-, hsize, -, hlock, -, hpow, -, -, -, hfirst, -, hmore, u, htxs, -, hdup, -, hsigops,
    hroot⟩ := h
  unfold CBlock.checkBlock
  rw [htxs]
  unfold Except.raiseIf
  rw [if_neg hsize, if_neg hlock, if_neg hpow, if_neg hfirst, if_neg hmore, if_neg hdup,
    if_neg hsigops, if_neg hroot]
  by_cases hlate : nNow' + 2 * 60 * 60 < (b.nTime : Int)
  · rw [if_pos hlate]
    rfl
  · rw [if_neg hlate]
    rfl

namespace NodeState

-- The depth to which the load reads and checks blocks again.
def rechecks (s : NodeState) (fCheckBlocks : Bool) (p : CBlockIndex) : Prop :=
  fCheckBlocks = true ∨ s.nBestHeight - 2500 ≤ p.nHeight

def OnTime (e : NodeEnv) (s : NodeState) (fCheckBlocks : Bool) (x : Option Uint256) : Prop :=
  ∀ p ∈ s.walk x, p.pprev.isSome → s.rechecks fCheckBlocks p →
    (p.nTime : Int) ≤ e.nNow + 2 * 60 * 60

def Recheckable (e : NodeEnv) (s : NodeState) (x : Option Uint256) : Prop :=
  ∀ p ∈ s.walk x, p.pprev.isSome → ∃ b, s.disk.readIndexed e.env p = some b ∧
    b.checkBlock e.env e.nNow p.nHeight =
      if (e.nNow : Int) + 2 * 60 * 60 < p.nTime then
        .error (.reject "CheckBlock() : block timestamp too far in the future")
      else .ok ()

end NodeState

section Walk

variable {e : NodeEnv} {s : NodeState} {genesis x : Uint256} {p q : CBlockIndex}
  {fCheckBlocks : Bool} {pindexFork : Option CBlockIndex}

theorem walk_root (hp : s.mapBlockIndex x = some p) (hprev : p.pprev = none) :
    s.walk (some x) = [p] := by
  rw [NodeState.walk, Option.bind_some, hp, Option.map_some, pprevWalk_cons hp, hprev]
  cases p.nHeight <;> rfl

theorem Rooted.height_walk (h : Rooted s.mapBlockIndex genesis) (hp : s.mapBlockIndex x = some p)
    (hq : q ∈ s.walk (some x)) : q.nHeight ≤ p.nHeight := by
  have hmap : s.mapBlockIndex q.hashBlock = some q := h.mem_pprevWalk hq
  have hpath := h.walk_path (x := x) (by simp [hp])
  have hanc : Forest.Anc (parentOf s.mapBlockIndex) q.hashBlock x :=
    Forest.anc_of_mem_path (hpath ▸ List.mem_map_of_mem hq)
  have hle := hanc.height_le h.graded
  simpa [heightOf, hmap, hp] using hle

theorem Rooted.walk_pair (h : Rooted s.mapBlockIndex genesis) {y : Uint256}
    (hp : s.mapBlockIndex x = some p) (hy : p.pprev = some y) : ∃ q rest,
      s.mapBlockIndex y = some q ∧ p.nHeight = q.nHeight + 1 ∧ s.walk (some y) = q :: rest ∧
        s.walk (some x) = p :: q :: rest := by
  obtain ⟨p', q, hp', -, hq, hheight⟩ := h.parent_some (q := y) (x := x) (by simp [parentOf, hp, hy])
  obtain rfl := Option.some.inj (hp.symm.trans hp')
  obtain ⟨rest, hrest⟩ : ∃ rest, s.walk (some y) = q :: rest := by
    rw [NodeState.walk, Option.bind_some, hq, Option.map_some, pprevWalk_cons hq]
    exact ⟨_, rfl⟩
  exact ⟨q, rest, hq, hheight, hrest, by rw [h.walk_cons hp hy, hrest]⟩

theorem checkChain_deep {rest : List CBlockIndex} (hdeep : ¬s.rechecks fCheckBlocks p) :
    CTxDB.checkChain e s fCheckBlocks (p :: q :: rest) pindexFork = .ok pindexFork := by
  rw [NodeState.rechecks, not_or, not_le, Bool.not_eq_true] at hdeep
  rw [CTxDB.checkChain, if_pos ⟨hdeep.2, hdeep.1⟩]

theorem checkChain_step {rest : List CBlockIndex} (hrecheck : s.rechecks fCheckBlocks p)
    (hread : s.Recheckable e (some x)) (hwalk : s.walk (some x) = p :: q :: rest)
    (hlinked : p.pprev.isSome) :
    CTxDB.checkChain e s fCheckBlocks (p :: q :: rest) pindexFork =
      CTxDB.checkChain e s fCheckBlocks (q :: rest)
        (if (e.nNow : Int) + 2 * 60 * 60 < p.nTime then some q else pindexFork) := by
  have hshallow : ¬((p.nHeight : Int) < s.nBestHeight - 2500 ∧ fCheckBlocks = false) := by
    rintro ⟨hlow, hno⟩
    rcases hrecheck with hyes | hheight
    · rw [hyes] at hno
      cases hno
    · omega
  obtain ⟨b, hb, hcheck⟩ := hread p (by simp [hwalk]) hlinked
  rw [CTxDB.checkChain, if_neg hshallow, hb]
  dsimp only
  rw [hcheck]
  by_cases hlate : (e.nNow : Int) + 2 * 60 * 60 < p.nTime
  · rw [if_pos hlate, if_pos hlate]
  · rw [if_neg hlate, if_neg hlate]

theorem NodeState.Recheckable.tail {rest : List CBlockIndex} {y : Uint256}
    (h : s.Recheckable e (some x)) (hx : s.walk (some x) = p :: rest) (hy : s.walk (some y) = rest) :
    s.Recheckable e (some y) := by
  intro q hq
  rw [hy] at hq
  exact h q (by rw [hx]; exact List.mem_cons_of_mem _ hq)

theorem checkChain_onTime (h : Rooted s.mapBlockIndex genesis) (hp : s.mapBlockIndex x = some p)
    (hread : s.Recheckable e (some x)) (hon : s.OnTime e fCheckBlocks (some x)) :
    CTxDB.checkChain e s fCheckBlocks (s.walk (some x)) pindexFork = .ok pindexFork := by
  induction hn : p.nHeight generalizing x p with
  | zero =>
    have hprev : p.pprev = none := by
      cases hy : p.pprev with
      | none => rfl
      | some y =>
        obtain ⟨q, rest, -, hheight, -⟩ := h.walk_pair hp hy
        omega
    rw [walk_root hp hprev]
    rfl
  | succ n ih =>
    cases hy : p.pprev with
    | none =>
      rw [walk_root hp hy]
      rfl
    | some y =>
      obtain ⟨q, rest, hq, hheight, hbelow, hwalk⟩ := h.walk_pair hp hy
      rw [hwalk]
      by_cases hrecheck : s.rechecks fCheckBlocks p
      · have htime := hon p (by simp [hwalk]) (by simp [hy]) hrecheck
        rw [checkChain_step hrecheck hread hwalk (by simp [hy]), if_neg (not_lt.mpr htime), ← hbelow]
        refine ih hq (hread.tail hwalk hbelow) (fun r hr => ?_) (by omega)
        rw [hbelow] at hr
        exact hon r (by rw [hwalk]; exact List.mem_cons_of_mem _ hr)
      · exact checkChain_deep hrecheck

-- The lowest block that fails again decides where the load goes back to.
theorem checkChain_late (h : Rooted s.mapBlockIndex genesis) (hp : s.mapBlockIndex x = some p)
    (hread : s.Recheckable e (some x)) {late : CBlockIndex} (hmem : late ∈ s.walk (some x))
    (hrecheck : s.rechecks fCheckBlocks late) (htime : (e.nNow : Int) + 2 * 60 * 60 < late.nTime)
    {prev : Uint256} (hprev : late.pprev = some prev) (hon : s.OnTime e fCheckBlocks (some prev)) :
    CTxDB.checkChain e s fCheckBlocks (s.walk (some x)) pindexFork = .ok (s.mapBlockIndex prev) := by
  induction hn : p.nHeight generalizing x p pindexFork with
  | zero =>
    have hself : late = p := by
      cases hy : p.pprev with
      | none => simpa [walk_root hp hy] using hmem
      | some y =>
        obtain ⟨q, rest, -, hheight, -⟩ := h.walk_pair hp hy
        omega
    rw [hself] at hprev
    obtain ⟨q, rest, -, hheight, -⟩ := h.walk_pair hp hprev
    omega
  | succ n ih =>
    have hlow := h.height_walk hp hmem
    cases hy : p.pprev with
    | none =>
      have hself : late = p := by simpa [walk_root hp hy] using hmem
      rw [hself, hy] at hprev
      cases hprev
    | some y =>
      obtain ⟨q, rest, hq, hheight, hbelow, hwalk⟩ := h.walk_pair hp hy
      have hshallow : s.rechecks fCheckBlocks p := hrecheck.imp id fun hle => by omega
      rw [hwalk, checkChain_step hshallow hread hwalk (by simp [hy]), ← hbelow]
      rw [hwalk] at hmem
      rcases List.mem_cons.mp hmem with rfl | hrest
      · obtain rfl := Option.some.inj (hy.symm.trans hprev)
        rw [if_pos htime, checkChain_onTime h hq (hread.tail hwalk hbelow) hon, hq]
      · exact ih hq (hread.tail hwalk hbelow) (hbelow ▸ hrest) (by omega)

end Walk

-- The node as the records alone give it back, before its best chain is checked.
def NodeState.reloaded (s : NodeState) (wallet : CWallet) (bestInvalidWork : Option Int) :
    NodeState :=
  { NodeState.withTree s.tree (s.restarted wallet) with
    bnBestInvalidWork := bestInvalidWork.getD 0 }

theorem exec_returned (x : Act Fault NodeState Unit) (s : NodeState) :
    (exec (returned x) s).2 = (exec x s).2 := by
  unfold exec returned
  rcases h : StateT.run (ExceptT.run x) s with ⟨r, t⟩
  rw [ExceptT.run_tryCatch, StateT.run_bind, h]
  cases r with
  | ok a => rfl
  | error fault => cases fault <;> rfl

structure Reloads (e : NodeEnv) (wallet : CWallet) (bestInvalidWork : Option Int)
    (fCheckBlocks : Bool) (s : NodeState) (r : Except Fault Unit × NodeState) : Prop where
  index : SameTree s.mapBlockIndex r.2.mapBlockIndex
  restored : s.OnTime e fCheckBlocks s.pindexBest → r.1 = .ok () ∧ r.2.tree = s.tree
  movedBack : ∀ p prev, p ∈ s.walk s.pindexBest → s.rechecks fCheckBlocks p →
    (e.nNow : Int) + 2 * 60 * 60 < p.nTime → p.pprev = some prev →
    s.OnTime e fCheckBlocks (some prev) → ∃ pindexFork block,
      s.mapBlockIndex prev = some pindexFork ∧
      s.disk.readIndexed e.env pindexFork = some block ∧
      r = exec (returned (setBestChain e block pindexFork)) (s.reloaded wallet bestInvalidWork)

section Runs

variable {e : NodeEnv} {s : NodeState} {genesis : Uint256} {wallet : CWallet}
  {bestInvalidWork : Option Int} {fCheckBlocks : Bool}

theorem HeaderOk.readIndexed {env : Env} {p : CBlockIndex} {b : CBlock} (h : HeaderOk env s p b) :
    s.disk.readIndexed env p = some b :=
  Option.filter_eq_some_iff.mpr ⟨h.stored, by simp [h.hash]⟩

theorem ChainPassed.recheckable {best : Uint256} (h : ChainPassed e.env genesis s best)
    (hheaders : HeadersOk e.env s) : s.Recheckable e (some best) := by
  intro p hp hlinked
  have hroot : Rooted s.mapBlockIndex genesis := h.tree.rooted
  have hmap : s.mapBlockIndex p.hashBlock = some p := hroot.mem_pprevWalk hp
  have hanc : Forest.Anc (parentOf s.mapBlockIndex) p.hashBlock best :=
    Forest.anc_of_mem_path (hroot.walk_path h.tree.best_some ▸ List.mem_map_of_mem hp)
  obtain ⟨b, nNow, hread, hcheck⟩ := h.passed p.hashBlock p hanc hmap hlinked
  obtain ⟨b', hb'⟩ := hheaders p.hashBlock p hmap
  obtain rfl := Option.some.inj (hread.symm.trans hb'.readIndexed)
  refine ⟨b, hread, ?_⟩
  rw [hb'.header.1]
  exact CBlock.checkBlock_clock hcheck e.nNow

theorem verifyBestChain_index (t : NodeState) :
    SameTree t.mapBlockIndex (exec (CTxDB.verifyBestChain e fCheckBlocks) t).2.mapBlockIndex := by
  let Same (t' : NodeState) : Prop := SameTree t.mapBlockIndex t'.mapBlockIndex
  have hself : Same t := SameTree.refl t.mapBlockIndex
  unfold CTxDB.verifyBestChain
  rw [exec_get_bind]
  refine after_fromExcept (P := Same) hself (fun pindexFork _ => ?_)
  cases pindexFork with
  | none => exact hself
  | some pindexFork =>
    refine after_fromOption (P := Same) hself (fun block _ => ?_)
    rw [exec_returned]
    exact (setBestChain_keepsIndex e block pindexFork t).same

theorem verifyBestChain_none {t : NodeState}
    (h : CTxDB.checkChain e t fCheckBlocks (t.walk t.pindexBest) none = .ok none) :
    exec (CTxDB.verifyBestChain e fCheckBlocks) t = (.ok (), t) := by
  unfold CTxDB.verifyBestChain
  rw [exec_get_bind, h]
  rfl

theorem verifyBestChain_some {t : NodeState} {pindexFork : CBlockIndex} {block : CBlock}
    (h : CTxDB.checkChain e t fCheckBlocks (t.walk t.pindexBest) none = .ok (some pindexFork))
    (hread : t.disk.readIndexed e.env pindexFork = some block) :
    exec (CTxDB.verifyBestChain e fCheckBlocks) t =
      exec (returned (setBestChain e block pindexFork)) t := by
  unfold CTxDB.verifyBestChain
  rw [exec_get_bind, h, exec_bind_ok (show exec (fromExcept _) t = (.ok (some pindexFork), t) from rfl)]
  dsimp only
  rw [hread]
  rfl

theorem verifyBestChain_reloads (hheaders : HeadersOk e.env s) (hkept : ChainKept e.env genesis s) :
    Reloads e wallet bestInvalidWork fCheckBlocks s
      (exec (CTxDB.verifyBestChain e fCheckBlocks) (s.reloaded wallet bestInvalidWork)) := by
  obtain ⟨best, hok⟩ := hkept
  have hbest : s.pindexBest = some best := hok.tree.isBest
  have hroot : Rooted (s.reloaded wallet bestInvalidWork).mapBlockIndex genesis := hok.tree.rooted
  obtain ⟨p₀, hp₀, -⟩ := hok.tree.globals
  have hp₀ : (s.reloaded wallet bestInvalidWork).mapBlockIndex best = some p₀ := hp₀
  have hread : (s.reloaded wallet bestInvalidWork).Recheckable e (some best) :=
    hok.recheckable hheaders
  have hwalk : (s.reloaded wallet bestInvalidWork).walk
      (s.reloaded wallet bestInvalidWork).pindexBest =
      (s.reloaded wallet bestInvalidWork).walk (some best) := by rw [← hbest]; rfl
  refine ⟨verifyBestChain_index _, fun hon => ?_, fun p prev hp hrecheck hlate hprev hon => ?_⟩
  · rw [hbest] at hon
    have hchain := @checkChain_onTime _ _ _ _ _ _ none hroot hp₀ hread hon
    rw [← hwalk] at hchain
    rw [verifyBestChain_none hchain]
    exact ⟨rfl, rfl⟩
  · rw [hbest] at hp
    have hchain := @checkChain_late _ _ _ _ _ _ none hroot hp₀ hread _ hp hrecheck hlate _ hprev hon
    obtain ⟨q, rest, hq, -⟩ := hroot.walk_pair (hroot.mem_pprevWalk hp) hprev
    obtain ⟨block, hblock⟩ := hheaders prev q hq
    have hread' : (s.reloaded wallet bestInvalidWork).disk.readIndexed e.env q = some block :=
      hblock.readIndexed
    rw [← hwalk, hq] at hchain
    exact ⟨q, block, hq, hblock.readIndexed, verifyBestChain_some hchain hread'⟩

theorem AppendStep.nodeStep {env : Env} {hashGenesisBlock : Uint256} {s' : NodeState}
    (h : AppendStep env hashGenesisBlock s s') : NodeStep env hashGenesisBlock s s' := by
  cases h with
  | block e b henv hgenesis _ => exact .block e b henv hgenesis
  | tx e tx fCheckInputs fLimitFree fRateLimited henv hgenesis =>
    exact .tx e tx fCheckInputs fLimitFree fRateLimited henv hgenesis

theorem reload_restores {s0 : NodeState}
    (hnull : ∀ header : CBlockHeader, header.getHash e.env ≠ 0)
    (hstart : Started e.env e.hashGenesisBlock s0)
    (run : Relation.ReflTransGen (AppendStep e.env e.hashGenesisBlock) s0 s) (addr : Uint256 → Nat)
    {records : List CDiskBlockIndex} (hcursor : Cursor s.chain.dbset.blockindex records)
    (wallet : CWallet) (bestInvalidWork : Option Int) (fCheckBlocks : Bool) :
    Reloads e wallet bestInvalidWork fCheckBlocks s
      (exec (CTxDB.loadBlockIndex e addr records bestInvalidWork fCheckBlocks)
        (s.restarted wallet)) := by
  have hrun : Relation.ReflTransGen (NodeStep e.env e.hashGenesisBlock) s0 s :=
    Relation.ReflTransGen.mono (fun _ _ h => AppendStep.nodeStep h) _ _ run
  have hread := readBlockIndex_tree hnull hstart hrun addr hcursor
  have hkept := chainKept_of_run hstart run
  have hbest : s.tree.pindexBest.isSome := by
    obtain ⟨best, hok⟩ := hkept
    simp [hok.tree.isBest]
  have hload : exec (CTxDB.loadBlockIndex e addr records bestInvalidWork fCheckBlocks)
      (s.restarted wallet) = exec (CTxDB.verifyBestChain e fCheckBlocks)
        (s.reloaded wallet bestInvalidWork) := by
    have hstored : (s.restarted wallet).chain.dbset.hashBestChain =
        s.chain.dbset.hashBestChain := rfl
    unfold CTxDB.loadBlockIndex
    rw [exec_get_bind, hstored, hread]
    show exec (doIf (s.tree.pindexBest.isSome = true) _) (NodeState.withTree s.tree _) = _
    rw [doIf, if_pos hbest]
    rfl
  rw [hload]
  exact verifyBestChain_reloads (RulesKept.run hstart run).headers hkept

end Runs

theorem nBestHeight_of_tree {s t : NodeState} (h : s.tree = t.tree) :
    s.nBestHeight = t.nBestHeight := congrArg TreeView.nBestHeight h

def clockEnv (nNow : Nat) : NodeEnv :=
  { nonzeroNodeEnv with
    nNow := nNow
    writeToDisk := appendEnv.writeToDisk }

def lateBlock : CBlock := nonzeroBlock (nonzeroGenesis.getHash nonzeroEnv) 9000

def lateNode : NodeState := (exec (processBlock (clockEnv 10000) lateBlock) nonzeroNode).2

def lateKeys : List Uint256 :=
  [nonzeroNodeEnv.hashGenesisBlock, lateBlock.getHash nonzeroEnv]

def lateRecords : List CDiskBlockIndex := lateKeys.filterMap lateNode.chain.dbset.blockindex

theorem lateNode_run : Relation.ReflTransGen
    (AppendStep nonzeroEnv nonzeroNodeEnv.hashGenesisBlock) nonzeroNode lateNode :=
  .single (.block (clockEnv 10000) lateBlock rfl rfl appendEnv_appends)

theorem lateNode_cursor : Cursor lateNode.chain.dbset.blockindex lateRecords := by
  refine cursor_of_keys fun x hx => ?_
  unfold lateNode at hx
  exact processBlock_recordKeys (e := clockEnv 10000) rfl nonzeroNode_started hx

theorem lateNode_reloaded :
    let r := exec (CTxDB.loadBlockIndex (clockEnv 10000) (fun _ => 0) lateRecords none false)
      (lateNode.restarted sampleWallet)
    r.1 = .ok () ∧ r.2.tree = lateNode.tree ∧ r.2.nBestHeight = 1 := by
  have htimes : ∀ p ∈ lateNode.walk lateNode.pindexBest,
      (p.nTime : Int) ≤ (clockEnv 10000).nNow + 2 * 60 * 60 := by decide +kernel
  have hheight : lateNode.nBestHeight = 1 := by decide +kernel
  have hloads := reload_restores (e := clockEnv 10000) nonzeroEnv_getHash nonzeroNode_started
    lateNode_run (fun _ => 0) lateNode_cursor sampleWallet none false
  have hrestored := hloads.restored fun p hp _ _ => htimes p hp
  generalize exec (CTxDB.loadBlockIndex (clockEnv 10000) (fun _ => 0) lateRecords none false)
    (lateNode.restarted sampleWallet) = r at hrestored ⊢
  obtain ⟨hok, htree⟩ := hrestored
  exact ⟨hok, htree, (nBestHeight_of_tree htree).trans hheight⟩

-- Started again with its clock three hours behind, the node gives up its own best block.
theorem lateNode_falls_back :
    (∀ header : CBlockHeader, header.getHash nonzeroEnv ≠ 0) ∧
      Started nonzeroEnv nonzeroNodeEnv.hashGenesisBlock nonzeroNode ∧
      Relation.ReflTransGen (AppendStep nonzeroEnv nonzeroNodeEnv.hashGenesisBlock)
        nonzeroNode lateNode ∧
      Cursor lateNode.chain.dbset.blockindex lateRecords ∧
      let r := exec (CTxDB.loadBlockIndex (clockEnv 0) (fun _ => 0) lateRecords none false)
        (lateNode.restarted sampleWallet)
      r.1 = .ok () ∧ lateNode.nBestHeight = 1 ∧ r.2.nBestHeight = 0 ∧
        r.2.pindexBest = some nonzeroNodeEnv.hashGenesisBlock := by
  refine ⟨nonzeroEnv_getHash, nonzeroNode_started, lateNode_run, lateNode_cursor, ?_⟩
  decide +kernel

end Namecoin
