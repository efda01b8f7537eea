import Namecoin.Chain.Pending
import Namecoin.Chain.Synced
import Namecoin.Node.Orphan
import Namecoin.Node.SpendMap

namespace Namecoin

open Act

namespace BlockCall

def QuietBlock (m : Pending) (c : BlockCall) (b : CBlock) (s : ChainState) : Prop :=
  b.checkBlock c.env c.nNow c.pindex.pindex.nHeight = .ok () →
    c.Along (fun tx nTxPos s1 => ∀ vchName, c.Clears tx nTxPos s1 vchName →
      tx.getHash c.env ∉ m vchName) b.vtx (c.firstTxPos b) (startState s)

structure Tried (c : BlockCall) (b : CBlock) (s : ChainState) (r : Except Fault Unit × ChainState) :
    Prop where
  pending : r.2.mapNamePending =
    (exec (c.connectTxs b.vtx (c.firstTxPos b)) (startState s)).2.mapNamePending
  wallet : match r.1 with
    | .ok _ => s.wallet.syncWithWallets c.env c.nNow b b.vtx = .ok r.2.wallet
    | .error _ => r.2.wallet = s.wallet

theorem connectBlock_tried {c : BlockCall} {b : CBlock} {s : ChainState}
    (h : b.checkBlock c.env c.nNow c.pindex.pindex.nHeight = .ok ()) :
    Tried c b s (exec (c.connectBlock b) s) := by
  unfold connectBlock
  rw [h, exec_bind_ok (show exec (fromExcept (.ok ())) s = (.ok (), s) from rfl), exec_get_bind,
    exec_modify_bind]
  rcases hr : exec (c.connectTxs b.vtx (c.firstTxPos b)) (startState s) with ⟨r, s1⟩
  dsimp only
  cases r with
  | error fault => exact ⟨by rw [hr]; rfl, rfl⟩
  | ok u =>
    simp only [fromExcept, pure_bind]
    cases (b.vtx.head?.map CTransaction.getValueOut).getD (.ok 0) with
    | error fault => exact ⟨by rw [hr]; rfl, rfl⟩
    | ok nValueOut =>
      simp only [pure_bind]
      cases getBlockValue c.pindex.pindex.nHeight s1.nFees with
      | error fault => exact ⟨by rw [hr]; rfl, rfl⟩
      | ok nBlockValue =>
        simp only [pure_bind, raiseIf]
        split
        · exact ⟨by rw [hr]; rfl, rfl⟩
        · rw [pure_bind, exec_modify_bind, exec_get_bind]
          dsimp only
          cases hsync : s.wallet.syncWithWallets c.env c.nNow b b.vtx with
          | error fault => exact ⟨by rw [hr]; rfl, rfl⟩
          | ok wallet => exact ⟨by rw [hr]; rfl, hsync⟩

theorem connectBlock_unchecked {c : BlockCall} {b : CBlock} {fault : Fault}
    (h : b.checkBlock c.env c.nNow c.pindex.pindex.nHeight = .error fault) (s : ChainState) :
    exec (c.connectBlock b) s = (.error fault, s) := by
  unfold connectBlock
  rw [h]
  exact exec_bind_error rfl

theorem connectBlock_le (c : BlockCall) (b : CBlock) :
    Keeps (Falls ChainState.mapNamePending) (c.connectBlock b) := by
  intro s
  cases h : b.checkBlock c.env c.nNow c.pindex.pindex.nHeight with
  | error fault =>
    rw [connectBlock_unchecked h]
    exact falls_refl s
  | ok u =>
    rw [Falls, (connectBlock_tried h).pending]
    exact c.connectTxs_le b.vtx (c.firstTxPos b) (startState s)

theorem connectBlock_stationary (c : BlockCall) (b : CBlock) (s : ChainState) :
    (exec (c.connectBlock b) s).2.mapNamePending = s.mapNamePending ↔
      c.QuietBlock s.mapNamePending b s := by
  cases h : b.checkBlock c.env c.nNow c.pindex.pindex.nHeight with
  | error fault =>
    rw [connectBlock_unchecked h]
    refine iff_of_true rfl ?_
    intro hok
    rw [h] at hok
    cases hok
  | ok u =>
    rw [(connectBlock_tried h).pending]
    have htxs := c.connectTxs_stationary b.vtx (c.firstTxPos b) (startState s)
    exact htxs.trans ⟨fun hq _ => hq, fun hq => hq h⟩

theorem connectBlock_wallet {c : BlockCall} {b : CBlock} {s s' : ChainState} {u : Unit}
    (h : exec (c.connectBlock b) s = (.ok u, s')) :
    s.wallet.syncWithWallets c.env c.nNow b b.vtx = .ok s'.wallet := by
  have hw := (connectBlock_tried (connectBlock_txs h).1 : Tried c b s _).wallet
  rw [h] at hw
  exact hw

theorem connectBlock_failed {c : BlockCall} {b : CBlock} {s s' : ChainState} {fault : Fault}
    (h : exec (c.connectBlock b) s = (.error fault, s')) : s'.wallet = s.wallet := by
  cases hcheck : b.checkBlock c.env c.nNow c.pindex.pindex.nHeight with
  | error fault' =>
    rw [connectBlock_unchecked hcheck] at h
    obtain ⟨-, rfl⟩ := Prod.mk.inj h
    rfl
  | ok u =>
    have hw := (connectBlock_tried hcheck : Tried c b s _).wallet
    rw [h] at hw
    exact hw

end BlockCall

def QuietBranch (m : Pending) : List BlockCall → ChainState → Prop
  | [], _ => True
  | c :: rest, s => ∀ b, c.view.disk.readIndexed c.env c.pindex.pindex = some b →
    c.QuietBlock m b s ∧
      ∀ s1, exec (c.connectBlock b) s = (.ok (), s1) → QuietBranch m rest s1

def connectedBefore : List BlockCall → ChainState → List CBlock
  | [], _ => []
  | c :: rest, s =>
    match c.view.disk.readIndexed c.env c.pindex.pindex with
    | none => []
    | some b =>
      match exec (c.connectBlock b) s with
      | (.ok _, s1) => b :: connectedBefore rest s1
      | (.error _, _) => []

theorem connectBranch_le (cs : List BlockCall) :
    Keeps (Falls ChainState.mapNamePending) (connectBranch cs) := by
  induction cs with
  | nil => exact keeps_pure falls_refl _
  | cons c rest ih =>
    refine keeps_bind Falls.trans (keeps_fromOption falls_refl _ _) (fun b => ?_)
    refine keeps_bind Falls.trans (c.connectBlock_le b) (fun _ => ?_)
    exact keeps_bind Falls.trans ih (fun _ => keeps_pure falls_refl _)

theorem connectBranch_stationary (cs : List BlockCall) (s : ChainState) :
    (exec (connectBranch cs) s).2.mapNamePending = s.mapNamePending ↔
      QuietBranch s.mapNamePending cs s := by
  generalize hm : s.mapNamePending = m
  induction cs generalizing s with
  | nil => exact iff_of_true hm trivial
  | cons c rest ih =>
    subst hm
    rw [connectBranch, QuietBranch]
    cases hread : c.view.disk.readIndexed c.env c.pindex.pindex with
    | none =>
      refine iff_of_true rfl ?_
      intro b hb
      cases hb
    | some b =>
      rw [exec_bind_ok (show exec (fromOption _ (some b)) s = (.ok b, s) from rfl)]
      have hsplit := bind_stationary (c.connectBlock_le b) (fun _ => keeps_bind Falls.trans
        (connectBranch_le rest) (fun vDelete => keeps_pure falls_refl (b.vtx ++ vDelete))) s
      rw [hsplit, BlockCall.connectBlock_stationary]
      have hrest : ∀ s1, (exec (connectBranch rest >>= fun vDelete =>
          (pure (b.vtx ++ vDelete) : Act Fault ChainState (List CTransaction))) s1).2 =
          (exec (connectBranch rest) s1).2 := by
        intro s1
        exact bind_tail (R := fun a a' => a' = a) (fun _ => rfl) (fun _ _ => rfl) s1
      constructor
      · rintro ⟨hquiet, hmore⟩ b' hb'
        obtain rfl := Option.some.inj hb'
        refine ⟨hquiet, ?_⟩
        intro s1 h1
        have hkept := (BlockCall.connectBlock_stationary c b s).mpr hquiet
        rw [h1] at hkept
        refine (ih s1 hkept).mp ?_
        rw [← hrest]
        exact hmore () s1 h1
      · intro h
        obtain ⟨hquiet, hmore⟩ := h b rfl
        refine ⟨hquiet, ?_⟩
        intro u s1 h1
        have hkept := (BlockCall.connectBlock_stationary c b s).mpr hquiet
        rw [h1] at hkept
        rw [hrest]
        exact (ih s1 hkept).mpr (hmore s1 h1)

theorem connectBranch_failed {env : Env} {nNow : Nat} {cs : List BlockCall}
    (henv : ∀ c ∈ cs, c.env = env ∧ c.nNow = nNow) {s s' : ChainState} {fault : Fault}
    (h : exec (connectBranch cs) s = (.error fault, s')) :
    s.wallet.syncBlocks env nNow (connectedBefore cs s) = .ok s'.wallet := by
  induction cs generalizing s fault with
  | nil => cases h
  | cons c rest ih =>
    rw [connectBranch] at h
    rw [connectedBefore]
    cases hread : c.view.disk.readIndexed c.env c.pindex.pindex with
    | none =>
      rw [hread] at h
      obtain ⟨-, rfl⟩ := Prod.mk.inj h
      rfl
    | some b =>
      rw [hread, exec_bind_ok (show exec (fromOption _ (some b)) s = (.ok b, s) from rfl)] at h
      rcases hblock : exec (c.connectBlock b) s with ⟨r, s1⟩
      cases r with
      | error fault' =>
        rw [exec_bind_error hblock] at h
        obtain ⟨-, rfl⟩ := Prod.mk.inj h
        rw [← BlockCall.connectBlock_failed hblock]
        simp only [hblock]
        rfl
      | ok u =>
        rw [exec_bind_ok hblock] at h
        have hsync := BlockCall.connectBlock_wallet hblock
        obtain ⟨rfl, rfl⟩ := henv c List.mem_cons_self
        rcases hrest : exec (connectBranch rest) s1 with ⟨r', s2⟩
        cases r' with
        | ok vDelete =>
          rw [exec_bind_ok hrest] at h
          cases h
        | error fault' =>
          rw [exec_bind_error hrest] at h
          obtain ⟨-, rfl⟩ := Prod.mk.inj h
          have hmore := ih (fun c' hc' => henv c' (List.mem_cons_of_mem _ hc')) hrest
          simp only [hblock, CWallet.syncBlocks, hsync]
          exact hmore

structure SameMemory (s s' : ChainState) : Prop where
  pending : s'.mapNamePending = s.mapNamePending
  wallet : s'.wallet = s.wallet

theorem sameMemory_refl (s : ChainState) : SameMemory s s := ⟨rfl, rfl⟩

theorem SameMemory.trans {a b c : ChainState} (h : SameMemory a b) (h' : SameMemory b c) :
    SameMemory a c := ⟨h'.pending.trans h.pending, h'.wallet.trans h.wallet⟩

theorem disconnectBranch_sameMemory (cs : List BlockCall) :
    Keeps SameMemory (disconnectBranch cs) := by
  induction cs with
  | nil => exact keeps_pure sameMemory_refl _
  | cons c rest ih =>
    refine keeps_bind (R := SameMemory) SameMemory.trans (keeps_fromOption sameMemory_refl _ _)
      (fun b => ?_)
    refine keeps_bind (R := SameMemory) SameMemory.trans (keeps_get sameMemory_refl) (fun s => ?_)
    refine keeps_bind (R := SameMemory) SameMemory.trans (keeps_fromExcept sameMemory_refl _)
      (fun db => ?_)
    refine keeps_bind (R := SameMemory) SameMemory.trans (keeps_modify (fun s => ⟨rfl, rfl⟩))
      (fun _ => ?_)
    exact keeps_bind (R := SameMemory) SameMemory.trans ih (fun _ => keeps_pure sameMemory_refl _)

section Switch

variable {vDisconnect vConnect : List BlockCall} {hash : Uint256} {s s' : ChainState}
  {fault : Fault}

theorem switchBranch_undisconnected {fault' : Fault} {s1 : ChainState}
    (h : exec (switchBranch vDisconnect vConnect hash) s = (.error fault, s'))
    (hd : exec (disconnectBranch vDisconnect) s = (.error fault', s1)) : SameMemory s s' := by
  have hkept := disconnectBranch_sameMemory vDisconnect s
  unfold switchBranch at h
  rw [exec_bind_error hd] at h
  obtain ⟨-, rfl⟩ := Prod.mk.inj h
  rw [hd] at hkept
  exact hkept

theorem switchBranch_unconnected {vResurrect : List CTransaction} {s1 : ChainState}
    (h : exec (switchBranch vDisconnect vConnect hash) s = (.error fault, s'))
    (hd : exec (disconnectBranch vDisconnect) s = (.ok vResurrect, s1)) :
    SameMemory s s1 ∧ exec (connectBranch vConnect) s1 = (.error fault, s') := by
  have hkept := disconnectBranch_sameMemory vDisconnect s
  unfold switchBranch at h
  rw [exec_bind_ok hd] at h
  rw [hd] at hkept
  refine ⟨hkept, ?_⟩
  rcases hc : exec (connectBranch vConnect) s1 with ⟨r, s2⟩
  cases r with
  | ok vDelete =>
    rw [exec_bind_ok hc] at h
    cases h
  | error fault' =>
    rw [exec_bind_error hc] at h
    obtain ⟨hfault, rfl⟩ := Prod.mk.inj h
    cases hfault
    rfl

theorem switchBranch_stationary
    (h : exec (switchBranch vDisconnect vConnect hash) s = (.error fault, s')) :
    s'.mapNamePending = s.mapNamePending ↔
      ∀ vResurrect s1, exec (disconnectBranch vDisconnect) s = (.ok vResurrect, s1) →
        QuietBranch s.mapNamePending vConnect s1 := by
  rcases hd : exec (disconnectBranch vDisconnect) s with ⟨r, s1⟩
  cases r with
  | error fault' =>
    refine iff_of_true (switchBranch_undisconnected h hd).pending ?_
    intro vResurrect s2 hok
    cases hok
  | ok vResurrect =>
    obtain ⟨hkept, hc⟩ := switchBranch_unconnected h hd
    have hpend := connectBranch_stationary vConnect s1
    rw [hc, hkept.pending] at hpend
    rw [hpend]
    constructor
    · intro hquiet vResurrect' s2 hok
      cases hok
      exact hquiet
    · intro hquiet
      exact hquiet vResurrect s1 rfl

theorem switchBranch_wallet {env : Env} {nNow : Nat}
    (henv : ∀ c ∈ vConnect, c.env = env ∧ c.nNow = nNow)
    (h : exec (switchBranch vDisconnect vConnect hash) s = (.error fault, s')) :
    s'.wallet.mapWallet = s.wallet.mapWallet ↔
      ∀ vResurrect s1, exec (disconnectBranch vDisconnect) s = (.ok vResurrect, s1) →
        s.wallet.SettledIn env (connectedBefore vConnect s1) := by
  rcases hd : exec (disconnectBranch vDisconnect) s with ⟨r, s1⟩
  cases r with
  | error fault' =>
    have hwallet := (switchBranch_undisconnected h hd).wallet
    refine iff_of_true (congrArg CWallet.mapWallet hwallet) ?_
    intro vResurrect s2 hok
    cases hok
  | ok vResurrect =>
    obtain ⟨hkept, hc⟩ := switchBranch_unconnected h hd
    have hsync := connectBranch_failed henv hc
    rw [hkept.wallet] at hsync
    rw [CWallet.syncBlocks_mapWallet hsync]
    constructor
    · intro hsettled vResurrect' s2 hok
      cases hok
      exact hsettled
    · intro hsettled
      exact hsettled vResurrect s1 rfl

end Switch

def KeepsPending (e : NodeEnv) (b : CBlock) (pindexNew : CBlockIndex) (s : NodeState) : Prop :=
  (b.hashPrevBlock = s.hashBestChain →
    (s.tipCall e pindexNew).QuietBlock s.chain.mapNamePending b s.chain) ∧
  (b.hashPrevBlock ≠ s.hashBestChain →
    ∀ pfork, findFork (s.walk s.pindexBest) (s.longer pindexNew) = .ok pfork →
      ∀ vResurrect s1, exec (disconnectBranch ((s.vDisconnect pfork).map (s.blockCall e))) s.chain =
          (.ok vResurrect, s1) →
        QuietBranch s.chain.mapNamePending ((s.vConnect pindexNew pfork).map (s.blockCall e)) s1)

def KeepsWallet (e : NodeEnv) (b : CBlock) (pindexNew : CBlockIndex) (s : NodeState) : Prop :=
  b.hashPrevBlock ≠ s.hashBestChain →
    ∀ pfork, findFork (s.walk s.pindexBest) (s.longer pindexNew) = .ok pfork →
      ∀ vResurrect s1, exec (disconnectBranch ((s.vDisconnect pfork).map (s.blockCall e))) s.chain =
          (.ok vResurrect, s1) →
        s.chain.wallet.SettledIn e.env
          (connectedBefore ((s.vConnect pindexNew pfork).map (s.blockCall e)) s1)

section Tip

variable {e : NodeEnv} {b : CBlock} {pindexNew : CBlockIndex} {s : NodeState}

theorem keepsPending_tip (hprev : b.hashPrevBlock = s.hashBestChain)
    (hquiet : (s.tipCall e pindexNew).QuietBlock s.chain.mapNamePending b s.chain) :
    KeepsPending e b pindexNew s := ⟨fun _ => hquiet, fun hne => absurd hprev hne⟩

theorem keepsWallet_tip (hprev : b.hashPrevBlock = s.hashBestChain) :
    KeepsWallet e b pindexNew s := fun hne => absurd hprev hne

end Tip

structure AsBefore (s s' : NodeState) : Prop where
  transactions : s'.mapTransactions = s.mapTransactions
  nextTx : s'.mapNextTx = s.mapNextTx
  pending : s'.chain.mapNamePending = s.chain.mapNamePending
  wallet : s'.chain.wallet.mapWallet = s.chain.wallet.mapWallet
  databases : s'.chain.dbset = s.chain.dbset

theorem extendChain_failed {c : BlockCall} {b : CBlock} {s s' : ChainState} {fault : Fault}
    (h : exec (extendChain c b) s = (.error fault, s')) :
    exec (c.connectBlock b) s = (.error fault, s') := by
  unfold extendChain at h
  rcases hblock : exec (c.connectBlock b) s with ⟨r, s1⟩
  cases r with
  | ok u =>
    rw [exec_bind_ok hblock] at h
    cases h
  | error fault' =>
    rw [exec_bind_error hblock] at h
    exact h

theorem moved_pending {e : NodeEnv} {b : CBlock} {pindexNew : CBlockIndex} {s s' : NodeState}
    {fault : Fault} (h : Moved e b pindexNew s (.error fault, s')) :
    s'.chain.mapNamePending = s.chain.mapNamePending ↔ KeepsPending e b pindexNew s := by
  cases h with
  | @extendFails hprev _ c hx =>
    have hpend := (s.tipCall e pindexNew).connectBlock_stationary b s.chain
    rw [extendChain_failed hx] at hpend
    constructor
    · intro hsame
      exact keepsPending_tip hprev (hpend.mp hsame)
    · intro hquiet
      exact hpend.mpr (hquiet.1 hprev)
  | noFork hprev hf =>
    refine iff_of_true rfl ⟨fun heq => absurd heq hprev, ?_⟩
    intro _ pfork hok
    rw [hf] at hok
    cases hok
  | @switchFails hprev pfork _ c hf hx =>
    have hpend := switchBranch_stationary hx
    constructor
    · intro hsame
      refine ⟨fun heq => absurd heq hprev, ?_⟩
      intro _ pfork' hok
      rw [hf] at hok
      cases hok
      exact hpend.mp hsame
    · intro hquiet
      exact hpend.mpr (hquiet.2 hprev pfork hf)

theorem moved_wallet {e : NodeEnv} {b : CBlock} {pindexNew : CBlockIndex} {s s' : NodeState}
    {fault : Fault} (h : Moved e b pindexNew s (.error fault, s')) :
    s'.chain.wallet.mapWallet = s.chain.wallet.mapWallet ↔ KeepsWallet e b pindexNew s := by
  cases h with
  | @extendFails hprev _ c hx =>
    have hwallet := BlockCall.connectBlock_failed (extendChain_failed hx)
    exact iff_of_true (congrArg CWallet.mapWallet hwallet) (keepsWallet_tip hprev)
  | noFork hprev hf =>
    refine iff_of_true rfl ?_
    intro _ pfork hok
    rw [hf] at hok
    cases hok
  | @switchFails hprev pfork _ c hf hx =>
    have henv : ∀ call ∈ (s.vConnect pindexNew pfork).map (s.blockCall e),
        call.env = e.env ∧ call.nNow = e.nNow := by
      intro call hmem
      obtain ⟨branch, -, rfl⟩ := List.mem_map.mp hmem
      exact ⟨rfl, rfl⟩
    have hwallet := switchBranch_wallet henv hx
    constructor
    · intro hsame _ pfork' hok
      rw [hf] at hok
      cases hok
      exact hwallet.mp hsame
    · intro hquiet
      exact hwallet.mpr (hquiet hprev pfork hf)

theorem setBestChain_failed {e : NodeEnv} {b : CBlock} {pindexNew : CBlockIndex} {s s' : NodeState}
    {fault : Fault} (h : exec (setBestChain e b pindexNew) s = (.error fault, s')) :
    Moved e b pindexNew s (.error fault, s') := by
  have hmove := moveChain_moved e b pindexNew s
  unfold setBestChain at h
  rcases hx : exec (moveChain e b pindexNew) s with ⟨r, s1⟩
  rw [hx] at hmove
  cases r with
  | ok u =>
    rw [exec_bind_ok hx] at h
    cases h
  | error fault' =>
    rw [exec_bind_error hx] at h
    rw [← h]
    exact hmove

theorem moved_databases {e : NodeEnv} {b : CBlock} {pindexNew : CBlockIndex} {s s' : NodeState}
    {fault : Fault} (h : Moved e b pindexNew s (.error fault, s')) :
    s'.mapTransactions = s.mapTransactions ∧ s'.mapNextTx = s.mapNextTx ∧
      s'.chain.dbset = s.chain.dbset := by
  cases h with
  | extendFails hprev hx => exact ⟨rfl, rfl, rfl⟩
  | noFork hprev hf => exact ⟨rfl, rfl, rfl⟩
  | switchFails hprev hf hx => exact ⟨rfl, rfl, rfl⟩

theorem rejected_block_leaves {e : NodeEnv} {b : CBlock} {pindexNew : CBlockIndex}
    {s s' : NodeState} {message : String}
    (h : exec (setBestChain e b pindexNew) s = (.error (.reject message), s')) :
    AsBefore s s' ↔ KeepsPending e b pindexNew s ∧ KeepsWallet e b pindexNew s := by
  have hmove := setBestChain_failed h
  obtain ⟨hpool, hnext, hdb⟩ := moved_databases hmove
  rw [← moved_pending hmove, ← moved_wallet hmove]
  constructor
  · intro hsame
    exact ⟨hsame.pending, hsame.wallet⟩
  · rintro ⟨hpend, hwallet⟩
    exact ⟨hpool, hnext, hpend, hwallet, hdb⟩

def nameHead : CTransaction :=
  sampleTx namecoinTxVersion [(1, 0)] [(coin, [82, 1, 65, 1, 66, 1, 67, 109])]

theorem BlockCall.quietBlock_coinbase {m : Pending} {c : BlockCall} {b : CBlock} {s : ChainState}
    {coinbase : CTransaction} (hvtx : b.vtx = [coinbase]) (hcb : coinbase.isCoinBase = true) :
    c.QuietBlock m b s := by
  intro _
  rw [hvtx]
  refine ⟨?_, fun _ _ => trivial⟩
  intro vchName hclears
  rw [hclears.spends] at hcb
  cases hcb

def namedGenesis : CBlock := linkedBlock 0 1 [sampleCoinbase 0, nameHead]

def withNameHead (s : NodeState) : NodeState :=
  let pos := samplePos 1000 namedGenesis 1
  { s with chain := { s.chain with
      dbset := (s.chain.dbset.writeTx (nameHead.getHash sampleEnv)
        (some (CTxIndex.make pos 1))).writeName [65] [⟨pos, 0, [67]⟩] } }

theorem withNameHead_samePool (s : NodeState) : SamePool s (withNameHead s) :=
  ⟨rfl, rfl, rfl, rfl⟩

def namedEnv : NodeEnv := { sampleNodeEnv with hashGenesisBlock := namedGenesis.getHash sampleEnv }

def namedNode : NodeState :=
  withNameHead (exec (loadBlockIndex namedEnv namedGenesis) (NodeState.blank sampleWallet)).2

def renewTx : CTransaction :=
  sampleTx namecoinTxVersion [(nameHead.getHash sampleEnv, 0)]
    [(cent, [83, 1, 65, 1, 68, 109]), (cent, List.replicate 25 (UInt8.ofNat opNop))]

def renewNode : NodeState := acceptNode namedNode renewTx

def refusedBlock (vtx : List CTransaction) : CBlock :=
  linkedBlock (namedGenesis.getHash sampleEnv) 2 (greedyCoinbase :: vtx)

theorem bestNode_exec {s : NodeState} {b : CBlock} {r : Except Fault Unit}
    (h : (exec (setBestChain sampleNodeEnv b (offeredIndex s b)) (offeredNode s b)).1 = r) :
    exec (setBestChain sampleNodeEnv b (offeredIndex s b)) (offeredNode s b) = (r, bestNode s b) :=
  Prod.ext h rfl

theorem rejected_block_clears :
    ¬ ∀ e b pindexNew s message s',
      exec (setBestChain e b pindexNew) s = (.error (.reject message), s') → AsBefore s s' := by
  intro hall
  have hx : (exec (setBestChain sampleNodeEnv (refusedBlock [renewTx])
      (offeredIndex renewNode (refusedBlock [renewTx])))
      (offeredNode renewNode (refusedBlock [renewTx]))).1 = .error (.reject "") := by
    decide +kernel
  have hbefore : (offeredNode renewNode (refusedBlock [renewTx])).chain.mapNamePending [65] =
      {renewTx.getHash sampleEnv} := by decide +kernel
  have hafter : (bestNode renewNode (refusedBlock [renewTx])).chain.mapNamePending [65] = ∅ := by
    decide +kernel
  have hsame := congrFun (hall _ _ _ _ _ _ (bestNode_exec hx)).pending [65]
  rw [hbefore, hafter] at hsame
  exact Finset.singleton_ne_empty _ hsame.symm

theorem quietBranch_coinbases {m : Pending} {cs : List BlockCall}
    (h : ∀ c ∈ cs, ∀ b, c.view.disk.readIndexed c.env c.pindex.pindex = some b →
      ∃ coinbase, b.vtx = [coinbase] ∧ coinbase.isCoinBase = true) (s : ChainState) :
    QuietBranch m cs s := by
  induction cs generalizing s with
  | nil => trivial
  | cons c rest ih =>
    intro b hb
    obtain ⟨coinbase, hvtx, hcb⟩ := h c List.mem_cons_self b hb
    exact ⟨BlockCall.quietBlock_coinbase hvtx hcb,
      fun s1 _ => ih (fun c' hc' => h c' (List.mem_cons_of_mem _ hc')) s1⟩

section Fork

variable {e : NodeEnv} {b : CBlock} {pindexNew pfork : CBlockIndex} {s : NodeState}

theorem keepsPending_fork (hprev : b.hashPrevBlock ≠ s.hashBestChain)
    (hfork : findFork (s.walk s.pindexBest) (s.longer pindexNew) = .ok pfork)
    (hread : ∀ c ∈ (s.vConnect pindexNew pfork).map (s.blockCall e), ∀ b,
      c.view.disk.readIndexed c.env c.pindex.pindex = some b →
        ∃ coinbase, b.vtx = [coinbase] ∧ coinbase.isCoinBase = true) :
    KeepsPending e b pindexNew s := by
  refine ⟨fun heq => absurd heq hprev, fun _ pfork' hf vResurrect s1 _ => ?_⟩
  rw [hfork] at hf
  obtain rfl := Except.ok.inj hf
  exact quietBranch_coinbases hread s1

theorem keepsWallet_fork {bs : List CBlock}
    (hfork : findFork (s.walk s.pindexBest) (s.longer pindexNew) = .ok pfork)
    (hbefore : connectedBefore ((s.vConnect pindexNew pfork).map (s.blockCall e))
      (exec (disconnectBranch ((s.vDisconnect pfork).map (s.blockCall e))) s.chain).2 = bs)
    (hsettled : s.chain.wallet.SettledIn e.env bs) : KeepsWallet e b pindexNew s := by
  intro _ pfork' hf vResurrect s1 hd
  rw [hfork] at hf
  obtain rfl := Except.ok.inj hf
  rw [hd] at hbefore
  rw [hbefore]
  exact hsettled

end Fork

theorem CBlock.eq_plain {b : CBlock} {header : CBlockHeader} {vtx : List CTransaction}
    (h : (b.toCBlockHeader, b.vtx, b.auxpow.isNone) = (header, vtx, true)) :
    b = ⟨header, vtx, none⟩ := by
  obtain ⟨hheader, hvtx, hauxpow⟩ : b.toCBlockHeader = header ∧ b.vtx = vtx ∧ b.auxpow = none := by
    simpa using h
  rw [← hheader, ← hvtx, ← hauxpow]

def sideBlock (n : Nat) : CBlock :=
  linkedBlock (namedGenesis.getHash sampleEnv) n [sampleCoinbase n]

def sideTip : CBlock := linkedBlock ((sideBlock 3).getHash sampleEnv) 4 [greedyCoinbase]

def sideWallet : CWallet :=
  ⟨fun _ => true, fun _ => false, 0, fun hash =>
    if hash = (sampleCoinbase 3).getHash sampleEnv then
      some ⟨CWallet.setMerkleBranch sampleEnv (sampleCoinbase 3) (sideBlock 3), 0, false, []⟩
    else none⟩

def renewFork : NodeState :=
  let s := (exec (processBlock sampleNodeEnv (sideBlock 3))
    (exec (processBlock sampleNodeEnv (sideBlock 2)) renewNode).2).2
  { s with chain := { s.chain with wallet := sideWallet } }

theorem sideWallet_settled : sideWallet.SettledIn sampleEnv [sideBlock 3] := by
  have hentry : ∀ hash wtx, sideWallet.mapWallet hash = some wtx →
      hash = (sampleCoinbase 3).getHash sampleEnv ∧
        wtx.merkle = CWallet.setMerkleBranch sampleEnv (sampleCoinbase 3) (sideBlock 3) := by
    intro hash wtx hwtx
    dsimp only [sideWallet] at hwtx
    split at hwtx
    · next heq =>
      obtain rfl := Option.some.inj hwtx
      exact ⟨heq, rfl⟩
    · cases hwtx
  have hplaces : CWallet.placesOf sampleEnv ((sampleCoinbase 3).getHash sampleEnv) [sideBlock 3] =
      [CWallet.setMerkleBranch sampleEnv (sampleCoinbase 3) (sideBlock 3)] := by decide +kernel
  have htx : ∀ b ∈ [sideBlock 3], ∀ tx ∈ b.vtx, tx = sampleCoinbase 3 := by
    intro b hb tx htx
    obtain rfl := List.mem_singleton.mp hb
    exact List.mem_singleton.mp htx
  have hfirst : (CWallet.recorded sampleEnv sideWallet (sampleCoinbase 3)).vin.map
      (fun txin => sideWallet.mapWallet txin.prevout.hash) = [none] := by decide +kernel
  refine ⟨fun b hb tx hin _ => ?_, fun b hb tx hin txin htxin => ?_, fun hash wtx hwtx m hm => ?_,
    fun hash wtx hwtx m hm => ?_⟩
  · rw [htx b hb tx hin]
    decide +kernel
  · rw [htx b hb tx hin] at htxin
    rintro ⟨wtx, txout, hwtx, -⟩
    have hnone := List.mem_map_of_mem (f := fun txin : CTxIn => sideWallet.mapWallet txin.prevout.hash)
      htxin
    rw [hfirst, hwtx] at hnone
    simp at hnone
  · obtain ⟨rfl, hmerkle⟩ := hentry hash wtx hwtx
    rw [hplaces] at hm
    obtain rfl := Option.some.inj hm
    rw [hmerkle]
    exact ⟨rfl, rfl⟩
  · obtain ⟨rfl, hmerkle⟩ := hentry hash wtx hwtx
    rw [hplaces] at hm
    have hin := List.mem_of_mem_filter (List.mem_of_getLast? hm)
    rw [hmerkle, List.mem_singleton.mp hin]

def renewForkIndex : CBlockIndex :=
  (renewFork.mapBlockIndex (namedGenesis.getHash sampleEnv)).getD (offeredIndex renewFork sideTip)

def renewCalls : List BlockCall :=
  ((offeredNode renewFork sideTip).vConnect (offeredIndex renewFork sideTip) renewForkIndex).map
    ((offeredNode renewFork sideTip).blockCall sampleNodeEnv)

def renewBefore : List CBlock :=
  connectedBefore renewCalls
    (exec (disconnectBranch (((offeredNode renewFork sideTip).vDisconnect renewForkIndex).map
      ((offeredNode renewFork sideTip).blockCall sampleNodeEnv)))
        (offeredNode renewFork sideTip).chain).2

theorem renewBefore_eq : renewBefore = [sideBlock 3] := by
  have hparts : renewBefore.map (fun b => (b.toCBlockHeader, b.vtx, b.auxpow.isNone)) =
      [((sideBlock 3).toCBlockHeader, (sideBlock 3).vtx, true)] := by decide +kernel
  obtain ⟨b, hb, hpart⟩ := List.map_eq_singleton_iff.mp hparts
  rw [hb, CBlock.eq_plain hpart]
  rfl

theorem renewCalls_read : ∀ c ∈ renewCalls, ∀ b,
    c.view.disk.readIndexed c.env c.pindex.pindex = some b →
      ∃ coinbase, b.vtx = [coinbase] ∧ coinbase.isCoinBase = true := by
  have hreads : renewCalls.map (fun c => (c.view.disk.readIndexed c.env c.pindex.pindex).map
      CBlock.vtx) = [some [sampleCoinbase 3], some [greedyCoinbase]] := by decide +kernel
  intro c hc b hb
  have hmem := List.mem_map_of_mem (f := fun c : BlockCall =>
    (c.view.disk.readIndexed c.env c.pindex.pindex).map CBlock.vtx) hc
  rw [hreads, hb] at hmem
  simp only [Option.map_some, List.mem_cons, List.not_mem_nil, or_false, Option.some.injEq] at hmem
  rcases hmem with hvtx | hvtx
  · exact ⟨_, hvtx, by decide⟩
  · exact ⟨_, hvtx, by decide⟩

theorem refusedBlock_leaves :
    renewFork.chain.mapNamePending [65] = {renewTx.getHash sampleEnv} ∧
      renewBefore = [sideBlock 3] ∧
      AsBefore (offeredNode renewFork sideTip) (bestNode renewFork sideTip) := by
  have hx : (exec (setBestChain sampleNodeEnv sideTip (offeredIndex renewFork sideTip))
      (offeredNode renewFork sideTip)).1 = .error (.reject "") := by decide +kernel
  have hprev : sideTip.hashPrevBlock ≠ (offeredNode renewFork sideTip).hashBestChain := by
    decide +kernel
  have hfork : findFork ((offeredNode renewFork sideTip).walk
      (offeredNode renewFork sideTip).pindexBest) ((offeredNode renewFork sideTip).longer
        (offeredIndex renewFork sideTip)) = .ok renewForkIndex := by decide +kernel
  have hwallet : (offeredNode renewFork sideTip).chain.wallet = sideWallet := by
    unfold offeredNode insertBlockIndex renewFork
    rfl
  refine ⟨by decide +kernel, renewBefore_eq, (rejected_block_leaves (bestNode_exec hx)).mpr
    ⟨keepsPending_fork hprev hfork renewCalls_read, keepsWallet_fork hfork renewBefore_eq ?_⟩⟩
  rw [hwallet]
  exact sideWallet_settled

end Namecoin
