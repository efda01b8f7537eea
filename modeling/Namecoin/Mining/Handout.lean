import Namecoin.Mining.AuxWork

namespace Namecoin

open Act

section Script

theorem getOp_pushUint64 (n : Nat) (rest : CScript) :
    ∃ opcode vch, getOp (pushUint64 n ++ rest) = some (opcode, vch, rest) := by
  unfold pushUint64
  split
  · rename_i hn
    have hbyte : (UInt8.ofNat (n + (op1 - 1))).toNat = n + (op1 - 1) := by
      have : op1 - 1 = 80 := rfl
      rw [UInt8.toNat_ofNat']
      omega
    refine ⟨n + (op1 - 1), [], ?_⟩
    have hnot : ¬n + (op1 - 1) ≤ opPushdata4 := by
      have : op1 - 1 = 80 := rfl
      have : opPushdata4 = 78 := rfl
      omega
    rw [List.singleton_append, getOp, hbyte, if_neg hnot]
  · have hlen := bigNumVch_length n
    obtain ⟨opcode, -, hop⟩ := getOp_pushData (b := bigNumVch n) (by omega) rest
    exact ⟨opcode, bigNumVch n, hop⟩

theorem nextOp_eq {s : CScript} {r : Nat × VchType × CScript} (h : getOp s = some r) :
    nextOp s = r := by
  rw [nextOp, h, Option.getD_some]

theorem removeMergedMiningHeader_add (vchAux : VchType) :
    removeMergedMiningHeader (pchMergedMiningHeader ++ vchAux) = .ok vchAux := by
  rw [removeMergedMiningHeader, if_neg (by simp [pchMergedMiningHeader]), search_start,
    if_neg (by simp), List.drop_left]

theorem auxOfScript_make {nBits nExtraNonce : Nat} {vchAux : VchType}
    (hlen : vchAux.length ≤ maxSize) :
    auxOfScript (makeCoinbaseWithAux nBits nExtraNonce vchAux) = .ok vchAux := by
  have hmax : maxSize = 0x02000000 := rfl
  have hheader : pchMergedMiningHeader.length = 4 := rfl
  obtain ⟨op, vch, hfirst⟩ := getOp_pushUint64 nBits
    (pushUint64 nExtraNonce ++ (UInt8.ofNat op2 :: pushData (pchMergedMiningHeader ++ vchAux)))
  obtain ⟨op', vch', hsecond⟩ := getOp_pushUint64 nExtraNonce
    (UInt8.ofNat op2 :: pushData (pchMergedMiningHeader ++ vchAux))
  have hthird : getOp (UInt8.ofNat op2 :: pushData (pchMergedMiningHeader ++ vchAux)) =
      some (op2, [], pushData (pchMergedMiningHeader ++ vchAux)) := rfl
  obtain ⟨op'', -, hlast⟩ := getOp_pushData (b := pchMergedMiningHeader ++ vchAux) (by
    rw [List.length_append]
    omega) []
  rw [List.append_nil] at hlast
  unfold auxOfScript makeCoinbaseWithAux
  rw [nextOp_eq hfirst, nextOp_eq hsecond, nextOp_eq hthird]
  dsimp only
  rw [if_neg (by simp), nextOp_eq hlast]
  exact removeMergedMiningHeader_add vchAux

end Script

structure BlockTemplate where
  hashPrevBlock : Uint256
  nBits : Nat
  nBits_lt : nBits < 2 ^ 32
  nValue : Int
  nValue_fits : IntFits 64 nValue
  scriptPubKey : CScript
  scriptPubKey_le : scriptPubKey.length ≤ maxSize
  rest : List CTransaction
  rest_lt : rest.length + 1 < maxSize

namespace BlockTemplate

variable (t : BlockTemplate) (env : Env)

def coinbase (scriptSig : CScript) : CTransaction :=
  ⟨1, [⟨COutPoint.null, scriptSig, uintMax⟩], [⟨t.nValue, t.scriptPubKey⟩], 0⟩

def block (scriptSig : CScript) (nTime nNonce : Nat) : CBlock :=
  let b : CBlock := ⟨⟨blockVersionDefault, t.hashPrevBlock, 0, nTime, t.nBits, nNonce⟩,
    t.coinbase scriptSig :: t.rest, none⟩
  { b with hashMerkleRoot := b.buildMerkleTree env }

def aux (n : Nat) (vchAux : VchType) : CScript := makeCoinbaseWithAux t.nBits n vchAux

def root (n : Nat) (vchAux : VchType) : Uint256 := (t.block env (t.aux n vchAux) 0 0).hashMerkleRoot

variable {t env}

theorem block_inj {t' : BlockTemplate} {scriptSig scriptSig' : CScript} {nTime nNonce nTime' nNonce' : Nat}
    (h : t.block env scriptSig nTime nNonce = t'.block env scriptSig' nTime' nNonce') :
    t = t' ∧ scriptSig = scriptSig' := by
  have hvtx : t.coinbase scriptSig :: t.rest = t'.coinbase scriptSig' :: t'.rest := congrArg CBlock.vtx h
  have hprev : t.hashPrevBlock = t'.hashPrevBlock := congrArg (fun b => b.hashPrevBlock) h
  have hbits : t.nBits = t'.nBits := congrArg (fun b => b.nBits) h
  obtain ⟨hcoinbase, hrest⟩ := List.cons.inj hvtx
  cases t
  cases t'
  simp only [coinbase, CTransaction.mk.injEq, List.cons.injEq, CTxIn.mk.injEq, CTxOut.mk.injEq,
    and_true, true_and] at hcoinbase hrest hprev hbits
  obtain ⟨rfl, rfl, rfl⟩ := hcoinbase
  subst hrest hprev hbits
  exact ⟨rfl, rfl⟩

end BlockTemplate

theorem fillBlock_template {env : Env} {pindexPrev : Branch} {nNow : Nat} {vchPubKey : VchType}
    {vtx : List CTransaction} {nFees : Int} {b : CBlock} (hkey : vchPubKey.length ≤ 120)
    (hvtx : vtx.length + 1 < maxSize)
    (h : fillBlock env pindexPrev nNow vchPubKey vtx nFees = .ok b) :
    ∃ (t : BlockTemplate) (nTime : Nat), t.hashPrevBlock = pindexPrev.pindex.hashBlock ∧
      b = t.block env [] nTime 0 := by
  obtain ⟨nValue, hvalue, h⟩ := Except.bind_eq_ok.mp h
  obtain ⟨nBits, -, h⟩ := Except.bind_eq_ok.mp h
  obtain rfl := Except.ok.inj h
  have hpush : (payToPubkey vchPubKey).length ≤ maxSize := by
    have hlen := pushData_length vchPubKey
    have hmax : maxSize = 0x02000000 := rfl
    simp only [payToPubkey, ops, List.length_append, List.length_map, List.length_cons,
      List.length_nil]
    omega
  obtain ⟨hsum, hlow, hhigh⟩ := add64_ok.mp hvalue
  exact ⟨⟨pindexPrev.pindex.hashBlock, nBits % 2 ^ 32, Nat.mod_lt _ (by decide), nValue,
    ⟨by omega, by omega⟩, payToPubkey vchPubKey, hpush, vtx, hvtx⟩, _, rfl, rfl⟩

theorem createNewBlock_template {env : Env} {c : MinerCall} {b : CBlock}
    (h : createNewBlock env c = .ok b) :
    ∃ (t : BlockTemplate) (nTime : Nat), t.hashPrevBlock = c.hashBest ∧ b = t.block env [] nTime 0 := by
  obtain ⟨vchPubKey, hkey, h⟩ := Except.bind_eq_ok.mp h
  exact fillBlock_template (c.reserved_le vchPubKey hkey) c.vtx_lt h

namespace AuxMiner

def Holds (env : Env) (m : AuxMiner) (i : Nat) (t : BlockTemplate) (vchAux : VchType) : Prop :=
  vchAux.length ≤ maxSize ∧
    ∃ n nTime nNonce, m.vNewBlock[i]? = some (t.block env (t.aux n vchAux) nTime nNonce)

structure Entry (env : Env) (m : AuxMiner) (w : AuxWork) (i n : Nat) (t : BlockTemplate) : Prop where
  mapped : m.mapNewBlock w.header.hashMerkleRoot = some (i, n)
  held : m.Holds env i t w.vchAux
  nVersion : w.header.nVersion = blockVersionDefault
  hashPrevBlock : w.header.hashPrevBlock = t.hashPrevBlock
  nBits : w.header.nBits = t.nBits
  root : t.root env n w.vchAux = w.header.hashMerkleRoot

variable {env : Env} {m : AuxMiner} {i : Nat} {t : BlockTemplate} {vchAux : VchType}

theorem Holds.unique {t' : BlockTemplate} {vchAux' : VchType} (h : m.Holds env i t vchAux)
    (h' : m.Holds env i t' vchAux') : t = t' ∧ vchAux = vchAux' := by
  obtain ⟨hlen, n, nTime, nNonce, hget⟩ := h
  obtain ⟨hlen', n', nTime', nNonce', hget'⟩ := h'
  rw [hget] at hget'
  obtain ⟨rfl, hscript⟩ := BlockTemplate.block_inj (Option.some.inj hget')
  refine ⟨rfl, ?_⟩
  have haux := @auxOfScript_make t.nBits n vchAux hlen
  have haux' := @auxOfScript_make t.nBits n' vchAux' hlen'
  rw [BlockTemplate.aux, BlockTemplate.aux] at hscript
  rw [hscript, haux'] at haux
  exact (Except.ok.inj haux).symm

structure Refreshed (env : Env) (m m' : AuxMiner) (i : Nat) (t : BlockTemplate) (vchAux : VchType)
    (n : Nat) : Prop where
  held : m.Holds env i t vchAux
  blocks : ∃ nTime nNonce, m'.vNewBlock = m.vNewBlock.set i (t.block env (t.aux n vchAux) nTime nNonce)

theorem Refreshed.holds {m' : AuxMiner} {n j : Nat} {t' : BlockTemplate} {vchAux' : VchType}
    (h : Refreshed env m m' i t vchAux n) (hold : m.Holds env j t' vchAux') :
    m'.Holds env j t' vchAux' := by
  obtain ⟨nTime, nNonce, hblocks⟩ := h.blocks
  rcases Classical.em (i = j) with rfl | hne
  · obtain ⟨rfl, rfl⟩ := h.held.unique hold
    obtain ⟨hlen, n', nTime', nNonce', hget⟩ := hold
    refine ⟨hlen, n, nTime, nNonce, ?_⟩
    have hlt := (List.getElem?_eq_some_iff.mp hget).1
    rw [hblocks, List.getElem?_set_self hlt]
  · obtain ⟨hlen, n', nTime', nNonce', hget⟩ := hold
    exact ⟨hlen, n', nTime', nNonce', by rw [hblocks, List.getElem?_set_ne hne, hget]⟩

end AuxMiner

namespace MinerRun

def latest (r : MinerRun) (root : Uint256) : Option AuxWork :=
  r.works.find? (fun w => decide (w.header.hashMerkleRoot = root))

structure Ok (env : Env) (r : MinerRun) : Prop where
  blocks : ∀ i < r.miner.vNewBlock.length, ∃ t vchAux, r.miner.Holds env i t vchAux
  tip : ∀ w ∈ r.works, r.miner.pindexPrev = some w.header.hashPrevBlock ∧
    w.header.nVersion = blockVersionDefault
  stored : ∀ (root : Uint256) (i n : Nat), r.miner.mapNewBlock root = some (i, n) →
    i < r.miner.vNewBlock.length
  entries : ∀ (root : Uint256) (w : AuxWork), r.latest root = some w →
    ∃ i n t, r.miner.Entry env w i n t

theorem Ok.start (env : Env) : Ok env MinerRun.start where
  blocks i h := absurd h (Nat.not_lt_zero i)
  tip w hw := by cases hw
  stored root i n h := by cases h
  entries root w h := by cases h

theorem Ok.current {env : Env} {r : MinerRun} (hr : Ok env r) (h : r.miner.Current) :
    ∃ t, r.miner.pindexPrev = some t.hashPrevBlock ∧
      r.miner.Holds env r.miner.pblock t r.miner.vchAuxPrev := by
  obtain ⟨b, hget, htip, haux⟩ := h
  obtain ⟨t, vchAux, hlen, n, nTime, nNonce, hheld⟩ :=
    hr.blocks r.miner.pblock (List.getElem?_eq_some_iff.mp hget).1
  obtain rfl := Option.some.inj (hget.symm.trans hheld)
  have hscript : auxOfScript (makeCoinbaseWithAux t.nBits n vchAux) = .ok r.miner.vchAuxPrev := haux
  rw [auxOfScript_make hlen] at hscript
  obtain rfl := Except.ok.inj hscript
  exact ⟨t, htip, hlen, n, nTime, nNonce, hget⟩

theorem Ok.renew {env : Env} {r : MinerRun} (hr : Ok env r) (c : MinerCall) (vchAux : VchType) :
    Ok env ⟨r.miner.renew c vchAux,
      if some c.hashBest = r.miner.pindexPrev then r.works else []⟩ := by
  by_cases hsame : some c.hashBest = r.miner.pindexPrev
  · have hkept : r.miner.dropStale c = r.miner := by
      rw [AuxMiner.dropStale, if_neg (not_not.mpr hsame.symm)]
    have hrenew : r.miner.renew c vchAux =
        { r.miner with
          nTransactionsUpdatedLast := c.nTransactionsUpdated
          vchAuxPrev := vchAux
          nStart := c.nTime } := by
      rw [AuxMiner.renew, hkept, hsame]
    rw [if_pos hsame, hrenew]
    exact ⟨hr.blocks, hr.tip, hr.stored, fun root w hw => by
      obtain ⟨i, n, t, hentry⟩ := hr.entries root w hw
      exact ⟨i, n, t, hentry.mapped, hentry.held, hentry.nVersion, hentry.hashPrevBlock,
        hentry.nBits, hentry.root⟩⟩
  · have hdropped : r.miner.dropStale c =
        { r.miner with mapNewBlock := fun _ => none, vNewBlock := [] } := by
      rw [AuxMiner.dropStale, if_pos (fun heq => hsame heq.symm)]
    rw [if_neg hsame, AuxMiner.renew, hdropped]
    refine ⟨fun i h => absurd h (Nat.not_lt_zero i), fun w hw => ?_, fun root i n h => ?_,
      fun root w h => ?_⟩
    · cases hw
    · cases h
    · cases h

end MinerRun

namespace AuxMiner

variable {env : Env} {m m' : AuxMiner} {c : MinerCall} {vchAux : VchType} {work : AuxWork} {n : Nat}
  {t : BlockTemplate}

structure HandedOut (env : Env) (m m' : AuxMiner) (vchAux : VchType) (t : BlockTemplate)
    (work : AuxWork) (n : Nat) : Prop where
  aux : work.vchAux = vchAux
  entry : m'.Entry env work m.pblock n t
  blocks : ∃ nTime, m'.vNewBlock = m.vNewBlock.set m.pblock (t.block env (t.aux n vchAux) nTime 0)
  mapped : m'.mapNewBlock =
    Function.update m.mapNewBlock work.header.hashMerkleRoot (some (m.pblock, n))
  tip : m'.pindexPrev = m.pindexPrev

theorem exec_handOut (c : MinerCall) {scriptSig : CScript} {nTime nNonce : Nat}
    (hlen : vchAux.length ≤ maxSize)
    (hget : m.vNewBlock[m.pblock]? = some (t.block env scriptSig nTime nNonce)) :
    ∃ work m' n, exec (handOut env c vchAux) m = (.ok work, m') ∧
      HandedOut env m m' vchAux t work n := by
  have hrun : exec (handOut env c vchAux) m = (.ok
      ⟨(t.block env (t.aux (m.incrementExtraNonce c).1 vchAux) (c.nNow % 2 ^ 32) 0).toCBlockHeader,
        vchAux⟩, { m.setBlock m.pblock
          (t.block env (t.aux (m.incrementExtraNonce c).1 vchAux) (c.nNow % 2 ^ 32) 0) with
        nExtraNonce := (m.incrementExtraNonce c).1
        nPrevTime := (m.incrementExtraNonce c).2
        mapNewBlock := Function.update m.mapNewBlock
          (t.root env (m.incrementExtraNonce c).1 vchAux)
          (some (m.pblock, (m.incrementExtraNonce c).1)) }) := by
    unfold handOut
    rw [exec_get_bind, hget]
    rfl
  have hlt := (List.getElem?_eq_some_iff.mp hget).1
  refine ⟨_, _, (m.incrementExtraNonce c).1, hrun, rfl, ?_, ⟨c.nNow % 2 ^ 32, rfl⟩, rfl, rfl⟩
  exact ⟨Function.update_self _ _ _, ⟨hlen, (m.incrementExtraNonce c).1, c.nNow % 2 ^ 32, 0,
    List.getElem?_set_self hlt⟩, rfl, rfl, rfl, rfl⟩

theorem updateBlock_fresh (hneeds : m.needsBlock c vchAux = false) :
    exec (updateBlock env c vchAux) m = (.ok (), m) := by
  unfold updateBlock
  rw [exec_get_bind, doIf, if_neg (by simp [hneeds])]
  rfl

theorem updateBlock_stale (hneeds : m.needsBlock c vchAux = true) :
    exec (updateBlock env c vchAux) m = match createNewBlock env c with
      | .error fault => (.error fault, m.renew c vchAux)
      | .ok pblock => (.ok (), (m.renew c vchAux).pushBlock pblock) := by
  unfold updateBlock
  rw [exec_get_bind, doIf, if_pos hneeds, exec_modify_bind]
  cases createNewBlock env c <;> rfl

theorem holds_push {b b' : CBlock} {i : Nat}
    (hblocks : m'.vNewBlock = (m.vNewBlock ++ [b]).set m.vNewBlock.length b')
    (h : m.Holds env i t vchAux) : m'.Holds env i t vchAux := by
  obtain ⟨hlen, n, nTime, nNonce, hget⟩ := h
  have hlt := (List.getElem?_eq_some_iff.mp hget).1
  refine ⟨hlen, n, nTime, nNonce, ?_⟩
  rw [hblocks, List.getElem?_set_ne (by omega), List.getElem?_append_left hlt, hget]

theorem Holds.lt {i : Nat} (h : m.Holds env i t vchAux) : i < m.vNewBlock.length := by
  obtain ⟨-, n, nTime, nNonce, hget⟩ := h
  exact (List.getElem?_eq_some_iff.mp hget).1

end AuxMiner

namespace MinerRun

section Issue

variable {env : Env} {r : MinerRun} {m' : AuxMiner} {c : MinerCall} {work : AuxWork} {n i : Nat}
  {t : BlockTemplate} {vchAux : VchType}

theorem Ok.issue (hr : Ok env r)
    (hkeep : ∀ (i : Nat) (t : BlockTemplate) (vchAux : VchType), r.miner.Holds env i t vchAux →
      m'.Holds env i t vchAux)
    (hblocks : ∀ j < m'.vNewBlock.length, j < r.miner.vNewBlock.length ∨ j = i)
    (hmap : m'.mapNewBlock =
      Function.update r.miner.mapNewBlock work.header.hashMerkleRoot (some (i, n)))
    (htip : m'.pindexPrev = r.miner.pindexPrev) (hbest : r.miner.pindexPrev = some t.hashPrevBlock)
    (hentry : m'.Entry env work i n t) : Ok env ⟨m', work :: r.works⟩ where
  blocks j hj := by
    rcases hblocks j hj with hold | rfl
    · obtain ⟨t', vchAux, hheld⟩ := hr.blocks j hold
      exact ⟨t', vchAux, hkeep j t' vchAux hheld⟩
    · exact ⟨t, work.vchAux, hentry.held⟩
  tip w hw := by
    rcases List.mem_cons.mp hw with rfl | hold
    · rw [htip, hbest, hentry.hashPrevBlock]
      exact ⟨rfl, hentry.nVersion⟩
    · rw [htip]
      exact hr.tip w hold
  stored root j k h := by
    rw [hmap, Function.update_apply] at h
    split at h
    · cases h
      exact hentry.held.lt
    · obtain ⟨t', vchAux, hheld⟩ := hr.blocks j (hr.stored root j k h)
      exact (hkeep j t' vchAux hheld).lt
  entries root w h := by
    unfold latest at h
    rw [List.find?_cons] at h
    split at h
    · cases h
      exact ⟨i, n, t, hentry⟩
    · rename_i hne
      have hroot : w.header.hashMerkleRoot = root := by
        simpa using List.find?_some h
      obtain ⟨j, k, t', hold⟩ := hr.entries root w h
      have hdiff : w.header.hashMerkleRoot ≠ work.header.hashMerkleRoot := by
        intro heq
        simp [← heq, hroot] at hne
      refine ⟨j, k, t', ?_, hkeep j t' w.vchAux hold.held, hold.nVersion, hold.hashPrevBlock,
        hold.nBits, hold.root⟩
      rw [hmap, Function.update_of_ne hdiff]
      exact hold.mapped

theorem Ok.push (hr : Ok env r) (hbest : r.miner.pindexPrev = some t.hashPrevBlock)
    (hlen : vchAux.length ≤ maxSize) (c : MinerCall) (nTime : Nat) : ∃ work m',
      exec (AuxMiner.handOut env c vchAux) (r.miner.pushBlock (t.block env [] nTime 0)) =
        (.ok work, m') ∧ m'.pindexPrev = r.miner.pindexPrev ∧ Ok env ⟨m', work :: r.works⟩ := by
  have hget : (r.miner.pushBlock (t.block env [] nTime 0)).vNewBlock[
      (r.miner.pushBlock (t.block env [] nTime 0)).pblock]? = some (t.block env [] nTime 0) := by
    simp [AuxMiner.pushBlock]
  obtain ⟨work, m', n, hrun, hhanded⟩ := AuxMiner.exec_handOut c hlen hget
  obtain ⟨nTime', hblocks⟩ := hhanded.blocks
  refine ⟨work, m', hrun, hhanded.tip, hr.issue (fun i t vchAux h => AuxMiner.holds_push hblocks h)
    (fun j hj => ?_) hhanded.mapped hhanded.tip hbest hhanded.entry⟩
  rw [hblocks, List.length_set, AuxMiner.pushBlock, List.length_append, List.length_singleton] at hj
  show j < r.miner.vNewBlock.length ∨ j = r.miner.vNewBlock.length
  omega

theorem Ok.goOn (hr : Ok env r) (hcurrent : r.miner.Current) (hlen : r.miner.vchAuxPrev.length ≤ maxSize)
    (c : MinerCall) : ∃ work m',
      exec (AuxMiner.handOut env c r.miner.vchAuxPrev) r.miner = (.ok work, m') ∧
        m'.pindexPrev = r.miner.pindexPrev ∧ Ok env ⟨m', work :: r.works⟩ := by
  obtain ⟨t, hbest, hheld⟩ := hr.current hcurrent
  obtain ⟨-, k, nTime, nNonce, hget⟩ := hheld
  obtain ⟨work, m', n, hrun, hhanded⟩ := AuxMiner.exec_handOut c hlen hget
  obtain ⟨nTime', hblocks⟩ := hhanded.blocks
  refine ⟨work, m', hrun, hhanded.tip, hr.issue (fun i t' vchAux' hold => ?_) (fun j hj => ?_)
    hhanded.mapped hhanded.tip hbest hhanded.entry⟩
  · exact AuxMiner.Refreshed.holds ⟨⟨hlen, k, nTime, nNonce, hget⟩, nTime', 0, hblocks⟩ hold
  · rw [hblocks, List.length_set] at hj
    exact .inl hj

theorem Ok.getwork (hr : Ok env r) (hlen : vchAux.length ≤ maxSize)
    (hsound : c.checkReady = .ok () → r.miner.needsBlock c vchAux = true ∨ r.miner.Current) :
    Ok env (r.after (exec (AuxMiner.getworkaux env c vchAux) r.miner)) := by
  unfold AuxMiner.getworkaux
  cases hready : c.checkReady with
  | error fault =>
    rw [exec_bind_error (show exec (fromExcept (.error fault)) r.miner = (.error fault, r.miner) from
      rfl)]
    unfold after
    rw [if_pos rfl]
    exact hr
  | ok u =>
    rw [exec_bind_ok (show exec (fromExcept (.ok u)) r.miner = (.ok u, r.miner) from rfl)]
    cases hneeds : r.miner.needsBlock c vchAux with
    | true =>
      have hrenewed := hr.renew c vchAux
      have hupdate := @AuxMiner.updateBlock_stale env _ _ _ hneeds
      cases hcreate : createNewBlock env c with
      | error fault =>
        rw [hcreate] at hupdate
        rw [exec_bind_error hupdate]
        exact hrenewed
      | ok b =>
        rw [hcreate] at hupdate
        obtain ⟨t, nTime, hbest, rfl⟩ := createNewBlock_template hcreate
        obtain ⟨work, m', hrun, htip, hok⟩ := hrenewed.push (congrArg some hbest.symm) hlen c nTime
        rw [exec_bind_ok hupdate, hrun]
        unfold after
        dsimp only
        rw [htip]
        exact hok
    | false =>
      obtain hbad | hcurrent := hsound hready
      · rw [hneeds] at hbad
        cases hbad
      · have haux : vchAux = r.miner.vchAuxPrev := by
          simp only [AuxMiner.needsBlock, Bool.or_eq_false_iff, decide_eq_false_iff_not,
            not_not] at hneeds
          exact hneeds.1.2
        subst haux
        obtain ⟨work, m', hrun, htip, hok⟩ := hr.goOn hcurrent hlen c
        rw [exec_bind_ok (AuxMiner.updateBlock_fresh hneeds), hrun]
        unfold after
        dsimp only
        rw [if_pos htip]
        exact hok

end Issue

theorem reconstruct_spec {env : Env} {m : AuxMiner} {pdata : CBlockHeader} {i n : Nat}
    {t : BlockTemplate} {vchAux : VchType} (hmap : m.mapNewBlock pdata.hashMerkleRoot = some (i, n))
    (hheld : m.Holds env i t vchAux) :
    exec (AuxMiner.reconstruct env pdata) m =
      (.ok (some (t.block env (t.aux n vchAux) pdata.nTime pdata.nNonce, vchAux)),
        m.setBlock i (t.block env (t.aux n vchAux) pdata.nTime pdata.nNonce)) := by
  obtain ⟨hlen, k, nTime, nNonce, hget⟩ := hheld
  have haux : auxOfScript (t.aux k vchAux) = .ok vchAux := auxOfScript_make hlen
  have hrun : exec (AuxMiner.reconstruct env pdata) m =
      (.ok (some (t.block env (t.aux n vchAux) pdata.nTime pdata.nNonce, vchAux)),
        (m.setBlock i { t.block env (t.aux k vchAux) nTime nNonce with
          nTime := pdata.nTime
          nNonce := pdata.nNonce }).setBlock i
            (t.block env (t.aux n vchAux) pdata.nTime pdata.nNonce)) := by
    unfold AuxMiner.reconstruct
    rw [exec_get_bind, hmap]
    dsimp only
    rw [hget, exec_bind_ok (show exec (fromOption _ (some _)) m = (.ok _, m) from rfl),
      exec_modify_bind]
    have hscript : ({ t.block env (t.aux k vchAux) nTime nNonce with
        nTime := pdata.nTime
        nNonce := pdata.nNonce } : CBlock).coinbaseScript = t.aux k vchAux := rfl
    rw [hscript, haux]
    rfl
  rw [hrun]
  unfold AuxMiner.setBlock
  rw [List.set_set]

theorem Ok.reconstruct {env : Env} {r : MinerRun} (hr : Ok env r) (pdata : CBlockHeader) :
    Ok env { r with miner := (exec (AuxMiner.reconstruct env pdata) r.miner).2 } := by
  cases hmap : r.miner.mapNewBlock pdata.hashMerkleRoot with
  | none =>
    have hrun : exec (AuxMiner.reconstruct env pdata) r.miner = (.ok none, r.miner) := by
      unfold AuxMiner.reconstruct
      rw [exec_get_bind, hmap]
      rfl
    rw [hrun]
    exact hr
  | some p =>
    obtain ⟨i, n⟩ := p
    obtain ⟨t, vchAux, hheld⟩ := hr.blocks i (hr.stored _ i n hmap)
    rw [reconstruct_spec hmap hheld]
    have hrefresh : AuxMiner.Refreshed env r.miner
        (r.miner.setBlock i (t.block env (t.aux n vchAux) pdata.nTime pdata.nNonce)) i t vchAux n :=
      ⟨hheld, pdata.nTime, pdata.nNonce, rfl⟩
    have hlen : (r.miner.setBlock i
        (t.block env (t.aux n vchAux) pdata.nTime pdata.nNonce)).vNewBlock.length =
        r.miner.vNewBlock.length := List.length_set ..
    refine ⟨fun j hj => ?_, hr.tip, fun root j k h => ?_, fun root w hw => ?_⟩
    · obtain ⟨t', vchAux', hold⟩ := hr.blocks j (hlen ▸ hj)
      exact ⟨t', vchAux', hrefresh.holds hold⟩
    · dsimp only
      rw [hlen]
      exact hr.stored root j k h
    · obtain ⟨j, k, t', hold⟩ := hr.entries root w hw
      exact ⟨j, k, t', hold.mapped, hrefresh.holds hold.held, hold.nVersion, hold.hashPrevBlock,
        hold.nBits, hold.root⟩

theorem Ok.submit {env : Env} {r : MinerRun} (hr : Ok env r) (c : MinerCall) (vchData : List UInt8) :
    Ok env { r with miner := (exec (AuxMiner.submitwork env c vchData) r.miner).2 } := by
  let Kept (m : AuxMiner) : Prop := Ok env { r with miner := m }
  show Kept _
  unfold AuxMiner.submitwork
  refine after_fromExcept (P := Kept) hr (fun _ _ => ?_)
  refine after_raiseIf (P := Kept) hr (fun _ => ?_)
  exact after_fromOption (P := Kept) hr (fun pdata _ => hr.reconstruct pdata.1)

theorem parseHex_length (s : List Char) : (parseHex s).length ≤ s.length := by
  fun_induction parseHex s <;> simp_all <;> omega

theorem Ok.step {env : Env} {r : MinerRun} (hr : Ok env r) {event : MinerEvent}
    (hsound : r.Sound event) : Ok env (r.step env event) := by
  cases event with
  | getwork q => exact hr.getwork ((parseHex_length q.aux).trans q.fits) hsound
  | submit c vchData => exact hr.submit c vchData

theorem Ok.runFrom {env : Env} {r : MinerRun} (hr : Ok env r) {events : List MinerEvent}
    (hsound : AllSound env r events) : Ok env (r.runFrom env events) := by
  induction events generalizing r with
  | nil => exact hr
  | cons event rest ih => exact ih (hr.step hsound.1) hsound.2

end MinerRun

end Namecoin
