import Namecoin.Chain.Run

namespace Namecoin

open Act

structure HeightsOk (db : DatabaseSet) (nTip : Nat) : Prop where
  sorted : ∀ vchName, ((db.readNameOrEmpty vchName).map CNameIndex.nHeight).Pairwise (· ≤ ·)
  bounded : ∀ vchName, ∀ entry ∈ db.readNameOrEmpty vchName, entry.nHeight ≤ nTip

structure SpendsHead (c : TxCall) (t : TxMap) (vchName : VchType) (head : CNameIndex)
    (txin : CTxIn) (txindex : CTxIndex) (txPrev : CTransaction) (op : Nat)
    (vvch : List VchType) : Prop where
  input : txin ∈ c.tx.vin
  index : t txin.prevout.hash = some txindex
  head : txindex.pos = head.txPos
  read : c.readPrev txin.prevout true txindex = .ok txPrev
  output : ((txPrev.vout[txin.prevout.n]?).map CTxOut.scriptPubKey).bind decodedName =
    some (op, vvch)
  op : op = opNameFirstupdate ∨ op = opNameUpdate
  name : vvch[0]? = some vchName

def Guarded (c : TxCall) (db : DatabaseSet) (nHeight : Nat) (vchName : VchType) : Prop :=
  ∀ head ∈ (db.readNameOrEmpty vchName).getLast?,
    (getExpirationDepth nHeight : Int) ≤ (nHeight : Int) - head.nHeight ∨
      ((∃ txin txindex txPrev op vvch,
        SpendsHead c db.tx vchName head txin txindex txPrev op vvch) ∧
        (nHeight : Int) - head.nHeight < getExpirationDepth nHeight)

def NewSpentAsUpdate (scripts : List CScript) : Prop :=
  (∃ script ∈ scripts, (decodedName script).map Prod.fst = some opNameNew) ∧
    (leftoverOp scripts 0 = opNameFirstupdate ∨ leftoverOp scripts 0 = opNameUpdate)

instance (scripts : List CScript) : Decidable (NewSpentAsUpdate scripts) :=
  inferInstanceAs (Decidable (_ ∧ _))

structure ForkStep (env : Env) (n : ChainNode) (c : BlockCall) (b : CBlock) (n' : ChainNode) :
    Prop extends Connected env n c b n' where
  fork : postLibcoinFork env c.pindex.pindex.nHeight = true
  unmixed : ∀ pre tx s, TxAt c b n.state pre tx s →
    ¬NewSpentAsUpdate ((c.txCall tx).spentScripts s.dbset.tx)

theorem prevScripts_bind {c : TxCall} {t t' : TxMap} {n n' : Int}
    {rs : List (CTransaction × CTxIndex)} (h : SpendRun c c.tx.vin t n rs t' n') {k op : Nat}
    {vvch : List VchType} {txindex : CTxIndex}
    (hk : ((c.spentScripts t)[k]?).bind decodedName = some (op, vvch))
    (hidx : (rs.map Prod.snd)[k]? = some txindex) :
    ∃ txin ∈ c.tx.vin, ∃ txindex0 txPrev, t txin.prevout.hash = some txindex0 ∧
      txindex0.pos = txindex.pos ∧ c.readPrev txin.prevout true txindex0 = .ok txPrev ∧
      ((txPrev.vout[txin.prevout.n]?).map CTxOut.scriptPubKey).bind decodedName =
        some (op, vvch) := by
  obtain ⟨⟨txPrev, txindex'⟩, hrs, rfl⟩ : ∃ r, rs[k]? = some r ∧ r.2 = txindex := by
    simpa using hidx
  obtain ⟨txin, txindex0, hin, hfound, hpos, hread⟩ := h.input hrs
  refine ⟨txin, List.mem_of_getElem? hin, txindex0, txPrev, hfound, hpos, hread, ?_⟩
  have hs : (c.spentScripts t)[k]? = some (c.spentScript t txin) := by
    simp [TxCall.spentScripts, hin]
  rw [hs, Option.bind_some, TxCall.spentScript, hfound] at hk
  simp only [hread] at hk
  cases hv : txPrev.vout[txin.prevout.n]? with
  | none => simp [hv, decodedName, decodeNameScript, getOp] at hk
  | some out => simpa [hv] using hk

theorem update_guarded {c : TxCall} {pos : CDiskTxPos} {l : Ledger} {t : TxMap} {n : Int}
    {rs : List (CTransaction × CTxIndex)} {prev : NameScan} {d : NameTx} {vchName : VchType}
    (unmixed : ¬NewSpentAsUpdate (c.spentScripts l.db.tx))
    (run : SpendRun c c.tx.vin l.db.tx 0 rs t n)
    (scan : scanNameScripts true (c.spentScripts l.db.tx) 0 NameScan.start = some prev)
    (op : d.op = opNameUpdate)
    (ok : NameCall.UpdateOk (c.nameCall pos (rs.map Prod.snd)) vchName prev false)
    (good : (c.nameCall pos (rs.map Prod.snd)).badPrevPos (l.db.readNameOrEmpty vchName) d prev =
      .ok false) : Guarded c l.db c.pindexBlock.pindex.nHeight vchName := by
  intro head hhead
  by_cases hexp : (getExpirationDepth c.pindexBlock.pindex.nHeight : Int) ≤
      (c.pindexBlock.pindex.nHeight : Int) - head.nHeight
  · exact .inl hexp
  refine .inr ⟨?_, not_le.mp hexp⟩
  obtain ⟨nInput, txindex, hfound, hidx, -⟩ := ok.input
  obtain ⟨ownop, honly⟩ := scan_found scan hfound
  obtain ⟨vchPrevName, hprev, hname⟩ := ok.name
  obtain rfl : vchPrevName = vchName := by simpa using hname
  have hpos : txindex.pos = head.txPos := by
    have hin : (c.nameCall pos (rs.map Prod.snd)).inputIndex prev = .ok txindex :=
      NameCall.inputIndex_ok.mpr ⟨nInput, hfound, hidx⟩
    simp only [NameCall.badPrevPos, op, if_true, hin, Except.map, Except.ok.injEq,
      Bool.not_eq_false', checkNameTxPos, Option.mem_def.mp hhead, decide_eq_true_eq] at good
    exact good.symm
  obtain ⟨txin, hmem, txindex0, txPrev, hindex, hpos0, hread, hout⟩ :=
    prevScripts_bind run honly.at_k hidx
  refine ⟨txin, txindex0, txPrev, ownop, prev.vvch, hmem, hindex, hpos0.trans hpos, hread, hout,
    ?_, hprev⟩
  obtain ⟨script, hscript, hdec⟩ := Option.bind_eq_some_iff.mp honly.at_k
  rcases argCount_op (decodedName_argCount hdec) with h | h | h
  · refine absurd ⟨⟨script, List.mem_of_getElem? hscript, by simp [hdec, h]⟩, ?_⟩ unmixed
    rw [← show prev.op = leftoverOp (c.spentScripts l.db.tx) 0 from scanNameScripts_op scan]
    exact ok.prevOp
  · exact .inl h
  · exact .inr h

theorem firstupdate_guarded {c : NameCall} {tc : TxCall} {db : DatabaseSet} {t : TxMap}
    {prev : NameScan} {d : NameTx} {vchName : VchType} {bug : Bool}
    (ok : NameCall.FirstupdateOk c (db.withTx t) vchName d prev bug) :
    Guarded tc db c.nHeight vchName := by
  intro head hhead
  left
  have hfree := ok.free
  simp only [getNameHeight, withTx_readNameOrEmpty, Option.mem_def.mp hhead] at hfree
  omega

theorem append_guarded {c : TxCall} {pos : CDiskTxPos} {l : Ledger} {t : TxMap} {fee : Int}
    {vchName : VchType} {entry : CNameIndex}
    (fork : postLibcoinFork c.env c.pindexBlock.pindex.nHeight = true)
    (unmixed : ¬NewSpentAsUpdate (c.spentScripts l.db.tx))
    (h : TxSpends c pos l t (.append vchName entry) fee) :
    entry.nHeight = c.pindexBlock.pindex.nHeight ∧
      Guarded c l.db c.pindexBlock.pindex.nHeight vchName := by
  cases h with
  | spend cb run scan name value fee range =>
    rw [fork, prevScripts_eq run] at scan
    cases name with
    | append op ok good read =>
      refine ⟨rfl, ?_⟩
      rcases ok.op with ⟨h1, -⟩ | ⟨h1, hok⟩ | ⟨h1, hok⟩
      · rw [h1] at op
        exact absurd op (by decide)
      · exact firstupdate_guarded hok
      · exact update_guarded unmixed run scan h1 hok good

theorem connectTx_names {c : BlockCall} {tx : CTransaction} {nTxPos : Nat} {s s' : ConnState}
    {vchName : VchType} (h : exec (c.connectTx tx nTxPos) s = (.ok (), s'))
    (changed : s'.dbset.readNameOrEmpty vchName ≠ s.dbset.readNameOrEmpty vchName) :
    ∃ t entry fee, TxSpends (c.txCall tx) (c.posOf nTxPos) s.ledger t (.append vchName entry) fee ∧
      s'.dbset.readNameOrEmpty vchName = s.dbset.readNameOrEmpty vchName ++ [entry] := by
  obtain ⟨t, e, fee, hspend, hafter⟩ := BlockCall.connectTx_ok h
  have hname : s'.dbset.name = (e.onNames s.dbset).name := by
    have hdb := congrArg (fun l => l.db.name) hafter
    simpa [ConnState.ledger] using hdb
  have hread (v : VchType) :
      s'.dbset.readNameOrEmpty v = (e.onNames s.dbset).readNameOrEmpty v := by
    simp [DatabaseSet.readNameOrEmpty, hname]
  rw [hread] at changed ⊢
  cases e with
  | keep => exact absurd rfl changed
  | skip v => exact absurd rfl changed
  | append v entry =>
    by_cases hv : vchName = v
    · subst hv
      exact ⟨t, entry, fee, hspend, readNameOrEmpty_writeName_self _ _ _⟩
    · exact absurd (readNameOrEmpty_writeName_ne s.dbset hv _) changed

theorem append_heightsOk {db : DatabaseSet} {nTip nHeight : Nat} {e : NameEffect}
    (hle : nTip ≤ nHeight) (he : ∀ vchName entry, e = .append vchName entry → entry.nHeight = nHeight)
    (h : HeightsOk db nTip) : HeightsOk (e.onNames db) nHeight := by
  cases e with
  | keep => exact ⟨h.sorted, fun v entry hm => (h.bounded v entry hm).trans hle⟩
  | skip v => exact ⟨h.sorted, fun v entry hm => (h.bounded v entry hm).trans hle⟩
  | append v entry =>
    have hentry := he v entry rfl
    constructor
    · intro w
      by_cases hw : w = v
      · subst hw
        simp only [NameEffect.onNames, readNameOrEmpty_writeName_self, List.map_append,
          List.map_singleton, List.pairwise_append, List.pairwise_singleton, List.mem_map]
        refine ⟨h.sorted w, trivial, ?_⟩
        rintro _ ⟨x, hx, rfl⟩ y hy
        rw [List.mem_singleton.mp hy, hentry]
        exact (h.bounded w x hx).trans hle
      · rw [NameEffect.onNames, readNameOrEmpty_writeName_ne db hw]
        exact h.sorted w
    · intro w x hx
      by_cases hw : w = v
      · subst hw
        simp only [NameEffect.onNames, readNameOrEmpty_writeName_self, List.mem_append,
          List.mem_singleton] at hx
        rcases hx with hx | rfl
        · exact (h.bounded w x hx).trans hle
        · exact hentry.le
      · rw [NameEffect.onNames, readNameOrEmpty_writeName_ne db hw] at hx
        exact (h.bounded w x hx).trans hle

theorem entry_nHeight {c : TxCall} {pos : CDiskTxPos} {l : Ledger} {t : TxMap} {fee : Int}
    {vchName : VchType} {entry : CNameIndex}
    (h : TxSpends c pos l t (.append vchName entry) fee) :
    entry.nHeight = c.pindexBlock.pindex.nHeight := by
  cases h with
  | spend cb run scan name value fee range =>
    cases name with
    | append op ok good read => rfl

theorem heightsOk_congr {db db' : DatabaseSet} {nTip : Nat} (hn : db'.name = db.name)
    (h : HeightsOk db nTip) : HeightsOk db' nTip := by
  have hread : db'.readNameOrEmpty = db.readNameOrEmpty := by
    funext v
    simp [DatabaseSet.readNameOrEmpty, hn]
  exact ⟨fun v => hread ▸ h.sorted v, fun v => hread ▸ h.bounded v⟩

theorem txsRun_heightsOk {c : BlockCall} {txs : List CTransaction} {nTxPos : Nat} {l l' : Ledger}
    {nTip : Nat} (hle : nTip ≤ c.pindex.pindex.nHeight) (h : HeightsOk l.db nTip)
    (run : c.TxsRun txs nTxPos l l') : HeightsOk l'.db c.pindex.pindex.nHeight := by
  induction run generalizing nTip with
  | nil nTxPos l => exact ⟨h.sorted, fun v entry hm => (h.bounded v entry hm).trans hle⟩
  | cons head tail ih =>
    refine ih le_rfl (heightsOk_congr (TxCall.after_name _ _ _ _) (append_heightsOk hle ?_ h))
    rintro v entry rfl
    exact entry_nHeight head

theorem connected_heightsOk {env : Env} {n n' : ChainNode} {c : BlockCall} {b : CBlock}
    (h : HeightsOk n.state.dbset n.nHeight) (hc : Connected env n c b n') :
    HeightsOk n'.state.dbset n'.nHeight := by
  obtain ⟨l, hdone⟩ := BlockCall.connectBlock_ok hc.accepted
  have hle : n.nHeight ≤ c.pindex.pindex.nHeight := by
    unfold ChainNode.nHeight
    cases hw : n.walk.head? with
    | none => simp
    | some tip =>
      have := hc.height tip hw
      simp
      omega
  have htip : n'.nHeight = c.pindex.pindex.nHeight := by
    simp [ChainNode.nHeight, hc.walk, Branch.walk]
  rw [htip, hdone.db]
  exact heightsOk_congr (writePrevIndex_name _ _ _) (txsRun_heightsOk hle h hdone.run)

theorem live_name_not_taken {env : Env} {start n : ChainNode}
    (h0 : HeightsOk start.state.dbset start.nHeight)
    (run : Relation.ReflTransGen (fun m m' => ∃ c b, ForkStep env m c b m') start n) :
    HeightsOk n.state.dbset n.nHeight ∧
      ∀ c b n', ForkStep env n c b n' → ∀ pre tx s s' vchName, TxAt c b n.state pre tx s →
        exec (c.connectTx tx (c.txPos b pre)) s = (.ok (), s') →
        s'.dbset.readNameOrEmpty vchName ≠ s.dbset.readNameOrEmpty vchName →
        ∃ entry, s'.dbset.readNameOrEmpty vchName = s.dbset.readNameOrEmpty vchName ++ [entry] ∧
          entry.nHeight = c.pindex.pindex.nHeight ∧
          Guarded (c.txCall tx) s.dbset c.pindex.pindex.nHeight vchName := by
  constructor
  · induction run with
    | refl => exact h0
    | tail _ hstep ih =>
      obtain ⟨c, b, hstep⟩ := hstep
      exact connected_heightsOk ih hstep.toConnected
  · intro c b n' hstep pre tx s s' vchName hat h changed
    obtain ⟨t, entry, fee, hspend, hread⟩ := connectTx_names h changed
    have hfork : postLibcoinFork c.env c.pindex.pindex.nHeight = true := by
      rw [hstep.sameEnv]
      exact hstep.fork
    obtain ⟨hheight, hguard⟩ := append_guarded hfork (hstep.unmixed pre tx s hat) hspend
    exact ⟨entry, hread, hheight, hguard⟩

theorem sampleState_heightsOk {t : TxMap} {vchName : VchType} {entry : CNameIndex} {nTip : Nat}
    (h : entry.nHeight ≤ nTip) : HeightsOk (sampleState t vchName entry).dbset nTip := by
  have hread (v : VchType) : (sampleState t vchName entry).dbset.readNameOrEmpty v =
      if v = vchName then [entry] else [] := by
    by_cases hv : v = vchName <;> simp [sampleState, DatabaseSet.readNameOrEmpty, hv]
  constructor
  · intro v
    rw [hread]
    split <;> simp
  · intro v x hx
    rw [hread] at hx
    split at hx
    · rw [List.mem_singleton.mp hx]
      exact h
    · cases hx

def renewalHead : CTransaction :=
  sampleTx namecoinTxVersion [(1, 0)] [(cent, [82, 1, 65, 1, 66, 1, 67, 109])]

def renewalOldBlock : CBlock := sampleBlock 0 [sampleCoinbase 0, renewalHead]

def renewalStart : ChainNode where
  walk := [sampleIndex 8 150000 renewalOldBlock]
  disk := Disk.empty.writeToDisk 1 8 renewalOldBlock
  state :=
    let t : TxMap := Function.update (fun _ => none) (renewalHead.getHash sampleEnv)
      (some (CTxIndex.make (samplePos 8 renewalOldBlock 1) 1))
    sampleState t [65] ⟨samplePos 8 renewalOldBlock 1, 150000, [67]⟩

def renewalTx : CTransaction :=
  sampleTx namecoinTxVersion [(renewalHead.getHash sampleEnv, 0)] [(cent, [83, 1, 65, 1, 90, 109])]

def renewalBlock : CBlock := sampleBlock 1 [sampleCoinbase 1, renewalTx]

def renewalState : ConnState :=
  let c := sampleCall renewalStart 2000 renewalBlock
  (exec (c.connectTxs [sampleCoinbase 1] (c.firstTxPos renewalBlock))
    (BlockCall.startState renewalStart.state)).2

theorem renewal_forkStep :
    ForkStep sampleEnv renewalStart (sampleCall renewalStart 2000 renewalBlock) renewalBlock
      (sampleNext renewalStart 2000 renewalBlock) where
  toConnected := sample_connected (sample_endsBy (by decide +kernel)) (by decide +kernel)
  fork := by decide
  unmixed := by
    intro pre tx s hat
    rcases hat.of_two rfl with ⟨rfl, rfl, rfl⟩ | ⟨rfl, rfl, rfl⟩
    · decide +kernel
    · decide +kernel

theorem renewal_not_taken :
    ∃ s' entry, exec ((sampleCall renewalStart 2000 renewalBlock).connectTx renewalTx
        ((sampleCall renewalStart 2000 renewalBlock).txPos renewalBlock [sampleCoinbase 1]))
        renewalState = (.ok (), s') ∧
      s'.dbset.readNameOrEmpty [65] = renewalState.dbset.readNameOrEmpty [65] ++ [entry] ∧
      entry.nHeight = 150001 ∧
      Guarded ((sampleCall renewalStart 2000 renewalBlock).txCall renewalTx) renewalState.dbset
        150001 [65] := by
  have hexec := exec_eta (x := (sampleCall renewalStart 2000 renewalBlock).connectTx renewalTx
    ((sampleCall renewalStart 2000 renewalBlock).txPos renewalBlock [sampleCoinbase 1]))
    (s := renewalState) (a := ()) (by decide +kernel)
  obtain ⟨entry, hread, hheight, hguard⟩ :=
    (live_name_not_taken (sampleState_heightsOk (by decide)) .refl).2 _ _ _ renewal_forkStep
      [sampleCoinbase 1] renewalTx renewalState _ [65]
      ⟨⟨[], rfl⟩, exec_eta (by decide +kernel)⟩ hexec (by decide +kernel)
  exact ⟨_, entry, hexec, hread, hheight, hguard⟩

def takeoverHead : CTransaction :=
  sampleTx namecoinTxVersion [(1, 0)]
    [(cent, [82, 1, 65, 1, 66, 81]), (cent, [81, 1, 65, 117]), (cent, [82, 117])]

def takeoverCoin : CTransaction := sampleTx 1 [(2, 0)] [(cent, [83])]

def takeoverOldBlock : CBlock := sampleBlock 0 [sampleCoinbase 0, takeoverHead, takeoverCoin]

def takeoverStart : ChainNode where
  walk := [sampleIndex 8 149999 takeoverOldBlock]
  disk := Disk.empty.writeToDisk 1 8 takeoverOldBlock
  state :=
    let t : TxMap := Function.update (fun _ => none) (takeoverHead.getHash sampleEnv)
      (some (CTxIndex.make (samplePos 8 takeoverOldBlock 1) 3))
    let t : TxMap := Function.update t (takeoverCoin.getHash sampleEnv)
      (some (CTxIndex.make (samplePos 8 takeoverOldBlock 2) 1))
    sampleState t [65] ⟨samplePos 8 takeoverOldBlock 1, 149999, [65]⟩

def takeoverTx : CTransaction :=
  sampleTx namecoinTxVersion
    [(takeoverHead.getHash sampleEnv, 1), (takeoverCoin.getHash sampleEnv, 0)]
    [(cent, [83, 1, 65, 1, 90, 109])]

def takeoverBlock : CBlock := sampleBlock 1 [sampleCoinbase 1, takeoverTx]

def takeoverState : ConnState :=
  let c := sampleCall takeoverStart 2000 takeoverBlock
  (exec (c.connectTxs [sampleCoinbase 1] (c.firstTxPos takeoverBlock))
    (BlockCall.startState takeoverStart.state)).2

theorem name_taken_through_new_output :
    HeightsOk takeoverStart.state.dbset takeoverStart.nHeight ∧
      Connected sampleEnv takeoverStart (sampleCall takeoverStart 2000 takeoverBlock) takeoverBlock
        (sampleNext takeoverStart 2000 takeoverBlock) ∧
      postLibcoinFork sampleEnv 150000 = true ∧
      TxAt (sampleCall takeoverStart 2000 takeoverBlock) takeoverBlock takeoverStart.state
        [sampleCoinbase 1] takeoverTx takeoverState ∧
      (∃ s', exec ((sampleCall takeoverStart 2000 takeoverBlock).connectTx takeoverTx
          ((sampleCall takeoverStart 2000 takeoverBlock).txPos takeoverBlock [sampleCoinbase 1]))
          takeoverState = (.ok (), s') ∧
        s'.dbset.readNameOrEmpty [65] ≠ takeoverState.dbset.readNameOrEmpty [65]) ∧
      ¬Guarded ((sampleCall takeoverStart 2000 takeoverBlock).txCall takeoverTx)
        takeoverState.dbset 150000 [65] := by
  refine ⟨sampleState_heightsOk (by decide), sample_connected (sample_endsBy (by decide +kernel))
    (by decide +kernel), by decide, ⟨⟨[], rfl⟩, exec_eta (by decide +kernel)⟩,
    ⟨_, exec_eta (by decide +kernel), by decide +kernel⟩, ?_⟩
  intro hguard
  rcases hguard ⟨samplePos 8 takeoverOldBlock 1, 149999, [65]⟩ (by decide +kernel) with
    h | ⟨⟨txin, txindex, txPrev, op, vvch, h⟩, -⟩
  · exact absurd h (by decide)
  · have hin : txin ∈ takeoverTx.vin := h.input
    simp only [takeoverTx, sampleTx, List.map_cons, List.map_nil, List.mem_cons,
      List.not_mem_nil, or_false] at hin
    rcases hin with rfl | rfl
    · obtain rfl : CTxIndex.make (samplePos 8 takeoverOldBlock 1) 3 = txindex :=
        Option.some.inj ((show _ = _ by decide +kernel).symm.trans h.index)
      obtain rfl : takeoverHead = txPrev :=
        Except.ok.inj ((show _ = _ by decide +kernel).symm.trans h.read)
      obtain ⟨rfl, -⟩ : opNameNew = op ∧ [[65]] = vvch := by
        have hout : some (opNameNew, [[65]]) = some (op, vvch) :=
          (show _ = _ by decide +kernel).symm.trans h.output
        simpa using hout
      exact absurd h.op (by decide)
    · obtain rfl : CTxIndex.make (samplePos 8 takeoverOldBlock 2) 1 = txindex :=
        Option.some.inj ((show _ = _ by decide +kernel).symm.trans h.index)
      exact absurd h.head (by decide +kernel)

end Namecoin
