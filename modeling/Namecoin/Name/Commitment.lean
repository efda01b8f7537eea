import Namecoin.Name.Takeover

namespace Namecoin

open Act

def IndexedIn (t : TxMap) (walk : List CBlockIndex) : Prop :=
  ∀ hash txindex, t hash = some txindex →
    ∃ pindex ∈ walk, pindex.nFile = txindex.pos.nFile ∧ pindex.nBlockPos = txindex.pos.nBlockPos

def Linked (walk : List CBlockIndex) : Prop :=
  walk.IsChain (fun pindex pprev => pindex.nHeight = pprev.nHeight + 1)

instance (walk : List CBlockIndex) : Decidable (Linked walk) :=
  inferInstanceAs (Decidable (List.IsChain _ walk))

structure WellIndexed (n : ChainNode) : Prop where
  linked : Linked n.walk
  indexed : IndexedIn n.state.dbset.tx n.walk

def NameOutput (tx : CTransaction) (nOut : Nat) (vchName vchRand vchValue : VchType) : Prop :=
  OnlyName tx.outScripts nOut opNameFirstupdate [vchName, vchRand, vchValue]

structure CommitsTo (c : TxCall) (t : TxMap) (nHeight : Nat) (commitment : VchType)
    (txin : CTxIn) (txindex : CTxIndex) (txPrev : CTransaction) (pindex : CBlockIndex) :
    Prop where
  input : txin ∈ c.tx.vin
  index : t txin.prevout.hash = some txindex
  read : c.readPrev txin.prevout true txindex = .ok txPrev
  output : ((txPrev.vout[txin.prevout.n]?).map CTxOut.scriptPubKey).bind decodedName =
    some (opNameNew, [commitment])
  block : pindex ∈ c.pindexBlock.walk ∧ pindex.nFile = txindex.pos.nFile ∧
    pindex.nBlockPos = txindex.pos.nBlockPos
  deep : pindex.nHeight + minFirstupdateDepth ≤ nHeight

def Committed (c : TxCall) (t : TxMap) (nHeight : Nat) (vchName vchRand : VchType) : Prop :=
  ∃ txin txindex txPrev pindex,
    CommitsTo c t nHeight (c.env.hash160 (vchRand ++ vchName)).val txin txindex txPrev pindex

structure SpendsNew (c : TxCall) (t : TxMap) (txin : CTxIn) (txindex : CTxIndex)
    (commitment : VchType) : Prop where
  input : txin ∈ c.tx.vin
  index : t txin.prevout.hash = some txindex
  script : decodedName (c.spentScript t txin) = some (opNameNew, [commitment])
  length : commitment.length = 20

def ProperFirstupdate (c : TxCall) (t : TxMap) (nHeight : Nat) (vchName vchRand : VchType) :
    Prop :=
  ∃ txin txindex commitment, SpendsNew c t txin txindex commitment ∧
    (leftoverOp c.tx.outScripts 0 = opNameFirstupdate ∨
      (vchName = (c.env.hash160 (vchRand ++ vchName)).val ∧
        ∃ pindex ∈ c.pindexBlock.walk, pindex.nFile = txindex.pos.nFile ∧
          pindex.nBlockPos = txindex.pos.nBlockPos ∧
          pindex.nHeight + minFirstupdateDepth ≤ nHeight))

theorem uint160_eq_of_length {vch : VchType} (h : vch.length = 20) : (uint160 vch).val = vch := by
  simp [uint160, h]

theorem relativeDepth_none {nHeight : Nat} {pos : CDiskTxPos} {maxDepth : Nat}
    {walk : List CBlockIndex} (hlink : Linked walk)
    (hd : ∀ d, relativeDepth nHeight pos maxDepth walk = some d → ¬d < maxDepth)
    {pindex : CBlockIndex} (hp : pindex ∈ walk) (hfile : pindex.nFile = pos.nFile)
    (hpos : pindex.nBlockPos = pos.nBlockPos) : (maxDepth : Int) ≤ (nHeight : Int) - pindex.nHeight := by
  induction walk with
  | nil => cases hp
  | cons q rest ih =>
    rw [relativeDepth] at hd
    by_cases hq : (nHeight : Int) - q.nHeight < maxDepth
    · rw [if_pos hq] at hd
      by_cases hm : q.nBlockPos = pos.nBlockPos ∧ q.nFile = pos.nFile
      · rw [if_pos hm] at hd
        exact absurd hq (hd _ rfl)
      · rw [if_neg hm] at hd
        rcases List.mem_cons.mp hp with rfl | hp
        · exact absurd ⟨hpos, hfile⟩ hm
        · exact ih hlink.tail hd hp
    · have hle : pindex.nHeight ≤ q.nHeight := by
        rcases List.mem_cons.mp hp with rfl | hp
        · exact le_rfl
        · have hpw : (q :: rest).Pairwise (fun a b => b.nHeight ≤ a.nHeight) := by
            refine List.isChain_iff_pairwise.mp ?_
            exact hlink.imp (fun a b h => by omega)
          exact (List.pairwise_cons.mp hpw).1 pindex hp
      omega

theorem relativeDepth_nonneg {nHeight : Nat} {pos : CDiskTxPos} {maxDepth : Nat}
    {walk : List CBlockIndex} (hlink : Linked walk) (hhead : ∀ p ∈ walk.head?, p.nHeight ≤ nHeight)
    {d : Int} (h : relativeDepth nHeight pos maxDepth walk = some d) : 0 ≤ d := by
  induction walk with
  | nil => cases h
  | cons q rest ih =>
    have hq : q.nHeight ≤ nHeight := hhead q rfl
    rw [relativeDepth] at h
    split at h
    · split at h
      · obtain rfl := Option.some.inj h
        omega
      · refine ih hlink.tail ?_ h
        intro p hp
        have := (List.isChain_cons.mp hlink).1 p hp
        omega
    · cases h

theorem indexedIn_mono {t : TxMap} {walk : List CBlockIndex} (h : IndexedIn t walk)
    (pindex : CBlockIndex) : IndexedIn t (pindex :: walk) := by
  intro hash txindex ht
  obtain ⟨p, hp, hpos⟩ := h hash txindex ht
  exact ⟨p, List.mem_cons_of_mem _ hp, hpos⟩

theorem indexedIn_congr {t t' : TxMap} {walk : List CBlockIndex}
    (hpos : ∀ k, (t' k).map CTxIndex.pos = (t k).map CTxIndex.pos) (h : IndexedIn t walk) :
    IndexedIn t' walk := by
  intro hash txindex ht
  have heq := hpos hash
  rw [ht] at heq
  obtain ⟨txindex0, h0, hp⟩ := Option.map_eq_some_iff.mp heq.symm
  rw [← hp]
  exact h hash txindex0 h0

theorem txsRun_indexedIn {c : BlockCall} {txs : List CTransaction} {nTxPos : Nat} {l l' : Ledger}
    (h : IndexedIn l.db.tx c.pindex.walk) (run : c.TxsRun txs nTxPos l l') :
    IndexedIn l'.db.tx c.pindex.walk := by
  induction run with
  | nil nTxPos l => exact h
  | cons head tail ih =>
    refine ih ?_
    rw [TxCall.after_tx]
    intro hash txindex ht
    rw [Function.update_apply] at ht
    split at ht
    · obtain rfl := Option.some.inj ht
      exact ⟨c.pindex.pindex, List.mem_cons_self, rfl, rfl⟩
    · exact indexedIn_congr head.pos_eq h hash txindex ht

theorem Connected.linked {env : Env} {n n' : ChainNode} {c : BlockCall} {b : CBlock}
    (hc : Connected env n c b n') (h : Linked n.walk) : Linked c.pindex.walk := by
  refine List.isChain_cons.mpr ⟨?_, ?_⟩
  · rw [hc.pprev]
    exact hc.height
  · rw [hc.pprev]
    exact h

theorem Connected.wellIndexed {env : Env} {n n' : ChainNode} {c : BlockCall} {b : CBlock}
    (hc : Connected env n c b n') (h : WellIndexed n) : WellIndexed n' := by
  obtain ⟨l, hdone⟩ := BlockCall.connectBlock_ok hc.accepted
  constructor
  · rw [hc.walk]
    exact hc.linked h.linked
  · rw [hdone.db, writePrevIndex_tx, hc.walk]
    refine txsRun_indexedIn ?_ hdone.run
    rw [Branch.walk, hc.pprev]
    exact indexedIn_mono h.indexed _

theorem wellIndexed_of_run {env : Env} {start n : ChainNode} (h0 : WellIndexed start)
    (run : Relation.ReflTransGen (fun m m' => ∃ c b, Connected env m c b m') start n) :
    WellIndexed n := by
  induction run with
  | refl => exact h0
  | tail _ hstep ih =>
    obtain ⟨c, b, hstep⟩ := hstep
    exact hstep.wellIndexed ih

theorem Connected.txAt_indexedIn {env : Env} {n n' : ChainNode} {c : BlockCall} {b : CBlock}
    {pre : List CTransaction} {tx : CTransaction} {s : ConnState} (hc : Connected env n c b n')
    (h : WellIndexed n) (hat : TxAt c b n.state pre tx s) :
    IndexedIn s.dbset.tx c.pindex.walk := by
  refine txsRun_indexedIn ?_ hat.run
  rw [Branch.walk, hc.pprev]
  exact indexedIn_mono h.indexed _

section Firstupdate

variable {c : TxCall} {pos : CDiskTxPos} {l : Ledger} {t t' : TxMap} {n : Int}
  {rs : List (CTransaction × CTxIndex)} {prev : NameScan} {vchName vchRand vchValue : VchType}

theorem spentScript_output {txin : CTxIn} {txindex : CTxIndex} {txPrev : CTransaction}
    (hindex : t txin.prevout.hash = some txindex)
    (hread : c.readPrev txin.prevout true txindex = .ok txPrev) :
    decodedName (c.spentScript t txin) =
      ((txPrev.vout[txin.prevout.n]?).map CTxOut.scriptPubKey).bind decodedName := by
  unfold TxCall.spentScript
  simp only [hindex, hread]
  cases txPrev.vout[txin.prevout.n]? with
  | none => rfl
  | some out => rfl

theorem spentScripts_getElem {k : Nat} {txin : CTxIn} (h : c.tx.vin[k]? = some txin) :
    (c.spentScripts t)[k]? = some (c.spentScript t txin) := by
  simp [TxCall.spentScripts, h]

theorem only_input {k op : Nat} {vvch : List VchType} {txin : CTxIn} {vchHash : VchType}
    (honly : OnlyName (c.spentScripts t) k op vvch) (hin : txin ∈ c.tx.vin)
    (hdec : decodedName (c.spentScript t txin) = some (opNameNew, [vchHash])) :
    c.tx.vin[k]? = some txin ∧ vvch = [vchHash] := by
  obtain ⟨j, hj⟩ := List.mem_iff_getElem?.mp hin
  have hs := spentScripts_getElem (t := t) hj
  obtain rfl : j = k := honly.eq_index hs (by simp [hdec])
  have hk := honly.at_k
  rw [hs, Option.bind_some, hdec] at hk
  simp only [Option.some.injEq, Prod.mk.injEq] at hk
  exact ⟨hj, hk.2.symm⟩

theorem committed_of_new {txin : CTxIn} {txindex : CTxIndex} {pindex : CBlockIndex}
    {nHeight : Nat} {commitment : VchType} (run : SpendRun c c.tx.vin t 0 rs t' n)
    (hnew : SpendsNew c t txin txindex commitment)
    (heq : commitment = (c.env.hash160 (vchRand ++ vchName)).val)
    (hp : pindex ∈ c.pindexBlock.walk) (hfile : pindex.nFile = txindex.pos.nFile)
    (hpos : pindex.nBlockPos = txindex.pos.nBlockPos)
    (hdeep : pindex.nHeight + minFirstupdateDepth ≤ nHeight) :
    Committed c t nHeight vchName vchRand := by
  obtain ⟨k, hk⟩ := List.mem_iff_getElem?.mp hnew.input
  have hlen : k < rs.length := by
    rw [run.length_eq]
    exact (List.getElem?_eq_some_iff.mp hk).choose
  obtain ⟨txin', txindex0, hin', hindex', -, hread⟩ := run.input (List.getElem?_eq_getElem hlen)
  obtain rfl : txin = txin' := Option.some.inj (hk.symm.trans hin')
  obtain rfl : txindex = txindex0 := Option.some.inj (hnew.index.symm.trans hindex')
  refine ⟨txin, txindex, _, pindex, hnew.input, hnew.index, hread, ?_, ⟨hp, hfile, hpos⟩, hdeep⟩
  rw [← spentScript_output hnew.index hread, hnew.script, heq]

theorem CommitsTo.spendsNew {nHeight : Nat} {txin : CTxIn} {txindex : CTxIndex}
    {txPrev : CTransaction} {pindex : CBlockIndex}
    (h : CommitsTo c t nHeight (c.env.hash160 (vchRand ++ vchName)).val txin txindex txPrev pindex) :
    SpendsNew c t txin txindex (c.env.hash160 (vchRand ++ vchName)).val where
  input := h.input
  index := h.index
  script := by rw [spentScript_output h.index h.read, h.output]
  length := (c.env.hash160 (vchRand ++ vchName)).property

theorem NameOutput.decoded {nOut : Nat} {nHeight : Nat} {d : NameTx}
    (hout : NameOutput c.tx nOut vchName vchRand vchValue)
    (fork : postLibcoinFork c.env nHeight = true) (hd : decodeNameTx c.env c.tx nHeight = some d) :
    d.op = leftoverOp c.tx.outScripts 0 ∧ d.vvch = [vchName, vchRand, vchValue] := by
  obtain ⟨hop, own, honly⟩ := decodeNameTx_strict fork hd
  refine ⟨hop, ?_⟩
  obtain ⟨script, hs, hdec⟩ := Option.bind_eq_some_iff.mp hout.at_k
  obtain rfl : nOut = d.nOut := honly.eq_index hs (by simp [hdec])
  have hk := honly.at_k
  rw [hout.at_k] at hk
  simp only [Option.some.injEq, Prod.mk.injEq] at hk
  exact hk.2.symm

theorem new_deep {k : Nat} {txindex : CTxIndex} {txin : CTxIn} {txindex0 : CTxIndex}
    (hlink : Linked c.pindexBlock.walk) (hidx : IndexedIn t c.pindexBlock.walk)
    (run : SpendRun c c.tx.vin t 0 rs t' n) (hk : c.tx.vin[k]? = some txin)
    (hindex : t txin.prevout.hash = some txindex)
    (hrs : (rs.map Prod.snd)[k]? = some txindex0)
    (hdeep : ¬(0 ≤ (c.nameCall pos (rs.map Prod.snd)).depthOf txindex0 minFirstupdateDepth ∧
      (c.nameCall pos (rs.map Prod.snd)).depthOf txindex0 minFirstupdateDepth <
        minFirstupdateDepth)) :
    ∃ pindex ∈ c.pindexBlock.walk, pindex.nFile = txindex.pos.nFile ∧
      pindex.nBlockPos = txindex.pos.nBlockPos ∧
      pindex.nHeight + minFirstupdateDepth ≤ c.pindexBlock.pindex.nHeight := by
  obtain ⟨⟨txPrev, x⟩, hrs', rfl⟩ : ∃ r, rs[k]? = some r ∧ r.2 = txindex0 := by simpa using hrs
  obtain ⟨txin', txindex1, hin, hindex', hpos, -⟩ := run.input hrs'
  obtain rfl : txin = txin' := Option.some.inj (hk.symm.trans hin)
  obtain rfl : txindex = txindex1 := Option.some.inj (hindex.symm.trans hindex')
  obtain ⟨p, hp, hfile, hblock⟩ := hidx _ _ hindex
  refine ⟨p, hp, hfile, hblock, ?_⟩
  have hnone : ∀ d, relativeDepth c.pindexBlock.pindex.nHeight txindex.pos minFirstupdateDepth
      c.pindexBlock.walk = some d → ¬d < minFirstupdateDepth := by
    intro d hd hlt
    simp only [NameCall.depthOf, checkTransactionAtRelativeDepth, TxCall.nameCall, ← hpos, hd,
      Option.getD_some] at hdeep
    exact hdeep ⟨relativeDepth_nonneg hlink (by simp [Branch.walk]) hd, hlt⟩
  have hle := relativeDepth_none hlink hnone hp hfile hblock
  simp only [minFirstupdateDepth] at hle ⊢
  omega

theorem committed_iff_proper {nOut : Nat} {name : VchType} {entry : CNameIndex} {fee : Int}
    (fork : postLibcoinFork c.env c.pindexBlock.pindex.nHeight = true)
    (hout : NameOutput c.tx nOut vchName vchRand vchValue)
    (hlink : Linked c.pindexBlock.walk) (hidx : IndexedIn l.db.tx c.pindexBlock.walk)
    (h : TxSpends c pos l t (.append name entry) fee) :
    Committed c l.db.tx c.pindexBlock.pindex.nHeight vchName vchRand ↔
      ProperFirstupdate c l.db.tx c.pindexBlock.pindex.nHeight vchName vchRand := by
  cases h with
  | spend cb run scan step value fee range =>
    rw [fork, prevScripts_eq run] at scan
    cases step with
    | append op ok good read =>
      obtain ⟨hop, hvvch⟩ := hout.decoded fork ok.decoded
      obtain rfl : vchName = name := by simpa [hvvch] using ok.name
      rcases ok.op with ⟨h1, -⟩ | ⟨h1, hok⟩ | ⟨h1, hok⟩
      · rw [h1] at op
        exact absurd op (by decide)
      · obtain ⟨k, txindex0, hfound, hrs, hdeep⟩ := hok.input
        obtain ⟨own, honly⟩ := scan_found scan hfound
        obtain ⟨rand, vchHash, hrand, hhash, hbug⟩ := hok.commit
        obtain rfl : vchRand = rand := by simpa [hvvch] using hrand
        constructor
        · rintro ⟨txin, txindex, txPrev, pindex, hcom⟩
          exact ⟨txin, txindex, _, hcom.spendsNew, .inl (hop ▸ h1)⟩
        · rintro ⟨txin, txindex, commitment, hnew, -⟩
          obtain ⟨hk, hv⟩ := only_input honly hnew.input hnew.script
          obtain rfl : commitment = vchHash := by simpa [hv] using hhash
          obtain ⟨p, hp, hfile, hpos, hle⟩ := new_deep hlink hidx run hk hnew.index hrs hdeep
          refine committed_of_new run hnew ?_ hp hfile hpos hle
          have heq : uint160 commitment = c.env.hash160 (vchRand ++ vchName) := by
            exact not_not.mp (of_decide_eq_false hbug.symm)
          rw [← heq, uint160_eq_of_length hnew.length]
      · obtain ⟨k, txindex0, hfound, hrs, hdeep⟩ := hok.input
        obtain ⟨own, honly⟩ := scan_found scan hfound
        obtain ⟨vchPrevName, hprev, hname⟩ := hok.name
        obtain rfl : vchPrevName = vchName := by simpa using hname
        constructor
        · rintro ⟨txin, txindex, txPrev, pindex, hcom⟩
          have hnew := hcom.spendsNew
          obtain ⟨hk, hv⟩ := only_input honly hnew.input hnew.script
          refine ⟨txin, txindex, _, hnew, .inr ⟨?_, pindex, hcom.block.1, hcom.block.2.1,
            hcom.block.2.2, hcom.deep⟩⟩
          rw [hv] at hprev
          exact (Option.some.inj hprev).symm
        · rintro ⟨txin, txindex, commitment, hnew, hL | ⟨hfix, p, hp, hfile, hpos, hle⟩⟩
          · rw [← hop, h1] at hL
            exact absurd hL (by decide)
          · obtain ⟨hk, hv⟩ := only_input honly hnew.input hnew.script
            rw [hv] at hprev
            exact committed_of_new run hnew ((Option.some.inj hprev).trans hfix) hp hfile hpos hle

end Firstupdate

theorem firstupdate_committed_iff {env : Env} {start n n' : ChainNode} {c : BlockCall}
    {b : CBlock} {pre : List CTransaction} {tx : CTransaction} {s s' : ConnState} {nOut : Nat}
    {vchName vchRand vchValue name : VchType} (h0 : WellIndexed start)
    (run : Relation.ReflTransGen (fun m m' => ∃ c b, Connected env m c b m') start n)
    (hc : Connected env n c b n') (fork : postLibcoinFork env c.pindex.pindex.nHeight = true)
    (hat : TxAt c b n.state pre tx s)
    (hexec : exec (c.connectTx tx (c.txPos b pre)) s = (.ok (), s'))
    (hout : NameOutput tx nOut vchName vchRand vchValue)
    (hwritten : s'.dbset.readNameOrEmpty name ≠ s.dbset.readNameOrEmpty name) :
    Committed (c.txCall tx) s.dbset.tx c.pindex.pindex.nHeight vchName vchRand ↔
      ProperFirstupdate (c.txCall tx) s.dbset.tx c.pindex.pindex.nHeight vchName vchRand := by
  have hwell := wellIndexed_of_run h0 run
  obtain ⟨t, entry, fee, hspend, -⟩ := connectTx_names hexec hwritten
  have hfork : postLibcoinFork c.env c.pindex.pindex.nHeight = true := by
    rw [hc.sameEnv]
    exact fork
  exact committed_iff_proper hfork hout (hc.linked hwell.linked) (hc.txAt_indexedIn hwell hat) hspend

theorem sampleState_indexedIn {hash : Uint256} {pos : CDiskTxPos} {nOutputs : Nat}
    {vchName : VchType} {entry : CNameIndex} {walk : List CBlockIndex} {pindex : CBlockIndex}
    (hp : pindex ∈ walk) (hfile : pindex.nFile = pos.nFile)
    (hpos : pindex.nBlockPos = pos.nBlockPos) :
    IndexedIn (sampleState (Function.update (fun _ => none) hash
      (some (CTxIndex.make pos nOutputs))) vchName entry).dbset.tx walk := by
  intro k txindex hk
  simp only [sampleState, Function.update_apply] at hk
  split at hk
  · obtain rfl := Option.some.inj hk
    exact ⟨pindex, hp, hfile, hpos⟩
  · cases hk

def commitNew : CTransaction :=
  sampleTx namecoinTxVersion [(1, 0)]
    [(cent, [81, 20] ++ (sampleEnv.hash160 [66, 65]).val ++ [109])]

def commitOldBlock : CBlock := sampleBlock 0 [sampleCoinbase 0, commitNew]

def commitStart : ChainNode where
  walk := (List.range 12).map (fun i => sampleIndex (1000 - i) (150012 - i) (sampleBlock 0 [])) ++
    [sampleIndex 8 150000 commitOldBlock]
  disk := Disk.empty.writeToDisk 1 8 commitOldBlock
  state := sampleState (Function.update (fun _ => none) (commitNew.getHash sampleEnv)
    (some (CTxIndex.make (samplePos 8 commitOldBlock 1) 1))) [1] ⟨CDiskTxPos.null, 0, []⟩

def commitTx : CTransaction :=
  sampleTx namecoinTxVersion [(commitNew.getHash sampleEnv, 0)]
    [(cent, [82, 1, 65, 1, 66, 1, 67, 109])]

def commitBlock : CBlock := sampleBlock 1 [sampleCoinbase 1, commitTx]

def afterCoinbase (n : ChainNode) (nBlockPos : Nat) (b : CBlock) : ConnState :=
  let c := sampleCall n nBlockPos b
  (exec (c.connectTxs [sampleCoinbase 1] (c.firstTxPos b)) (BlockCall.startState n.state)).2

theorem commitStart_wellIndexed : WellIndexed commitStart where
  linked := by decide +kernel
  indexed :=
    have hp : sampleIndex 8 150000 commitOldBlock ∈ commitStart.walk :=
      List.mem_append_right _ List.mem_cons_self
    sampleState_indexedIn hp rfl rfl

theorem commit_committed :
    Committed ((sampleCall commitStart 2000 commitBlock).txCall commitTx)
      (afterCoinbase commitStart 2000 commitBlock).dbset.tx 150013 [65] [66] := by
  have hcon : Connected sampleEnv commitStart (sampleCall commitStart 2000 commitBlock) commitBlock
      (sampleNext commitStart 2000 commitBlock) :=
    sample_connected (sample_endsBy (by decide +kernel)) (by decide +kernel)
  have hout : NameOutput commitTx 0 [65] [66] [67] :=
    .of_scripts (by decide +kernel) (by decide +kernel)
  have hexec := exec_eta (x := (sampleCall commitStart 2000 commitBlock).connectTx commitTx
    ((sampleCall commitStart 2000 commitBlock).txPos commitBlock [sampleCoinbase 1]))
    (s := afterCoinbase commitStart 2000 commitBlock) (a := ()) (by decide +kernel)
  have hwritten : (exec ((sampleCall commitStart 2000 commitBlock).connectTx commitTx
      ((sampleCall commitStart 2000 commitBlock).txPos commitBlock [sampleCoinbase 1]))
      (afterCoinbase commitStart 2000 commitBlock)).2.dbset.readNameOrEmpty [65] ≠
      (afterCoinbase commitStart 2000 commitBlock).dbset.readNameOrEmpty [65] := by decide +kernel
  refine (firstupdate_committed_iff commitStart_wellIndexed .refl hcon (by decide)
    ⟨⟨[], rfl⟩, exec_eta (by decide +kernel)⟩ hexec hout hwritten).mpr ?_
  refine ⟨⟨⟨commitNew.getHash sampleEnv, 0⟩, [], uintMax⟩,
    CTxIndex.make (samplePos 8 commitOldBlock 1) 1, (sampleEnv.hash160 [66, 65]).val, ?_,
    .inl (by decide)⟩
  exact ⟨by decide +kernel, by decide +kernel, by decide +kernel, by decide +kernel⟩

def disguisedTx : CTransaction :=
  sampleTx namecoinTxVersion [(renewalHead.getHash sampleEnv, 0)]
    [(cent, [82, 1, 65, 1, 66, 1, 67, 109]), (0, [83])]

def disguisedBlock : CBlock := sampleBlock 1 [sampleCoinbase 1, disguisedTx]

theorem firstupdate_without_new :
    WellIndexed renewalStart ∧
      Connected sampleEnv renewalStart (sampleCall renewalStart 2000 disguisedBlock) disguisedBlock
        (sampleNext renewalStart 2000 disguisedBlock) ∧
      postLibcoinFork sampleEnv 150001 = true ∧
      TxAt (sampleCall renewalStart 2000 disguisedBlock) disguisedBlock renewalStart.state
        [sampleCoinbase 1] disguisedTx (afterCoinbase renewalStart 2000 disguisedBlock) ∧
      (∃ s', exec ((sampleCall renewalStart 2000 disguisedBlock).connectTx disguisedTx
          ((sampleCall renewalStart 2000 disguisedBlock).txPos disguisedBlock [sampleCoinbase 1]))
          (afterCoinbase renewalStart 2000 disguisedBlock) = (.ok (), s') ∧
        s'.dbset.readNameOrEmpty [65] ≠
          (afterCoinbase renewalStart 2000 disguisedBlock).dbset.readNameOrEmpty [65]) ∧
      disguisedTx.nVersion = namecoinTxVersion ∧ NameOutput disguisedTx 0 [65] [66] [67] ∧
      ¬Committed ((sampleCall renewalStart 2000 disguisedBlock).txCall disguisedTx)
        (afterCoinbase renewalStart 2000 disguisedBlock).dbset.tx 150001 [65] [66] := by
  refine ⟨⟨by decide +kernel, sampleState_indexedIn List.mem_cons_self rfl rfl⟩,
    sample_connected (sample_endsBy (by decide +kernel)) (by decide +kernel), by decide,
    ⟨⟨[], rfl⟩, exec_eta (by decide +kernel)⟩, ⟨_, exec_eta (by decide +kernel), by decide +kernel⟩,
    rfl, .of_scripts (by decide +kernel) (by decide +kernel), ?_⟩
  rintro ⟨txin, txindex, txPrev, pindex, h⟩
  have hin : txin ∈ disguisedTx.vin := h.input
  simp only [disguisedTx, sampleTx, List.map_cons, List.map_nil, List.mem_singleton] at hin
  subst hin
  have hnew := h.spendsNew.script
  exact absurd (congrArg (Option.map Prod.fst) hnew) (by decide +kernel)

end Namecoin
