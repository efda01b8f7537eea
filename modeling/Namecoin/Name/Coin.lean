import Namecoin.Chain.Supply
import Namecoin.Chain.Undo
import Namecoin.Name.Commitment

namespace Namecoin

open Act

structure LiveCoin (env : Env) (d : Disk) (db : DatabaseSet) (head : CNameIndex)
    (tx : CTransaction) (nOut : Nat) (op : Nat) (vvch : List VchType) (txindex : CTxIndex) :
    Prop where
  read : d.readFromDisk head.txPos = some tx
  onDisk : head.txPos ≠ CDiskTxPos.memPool
  only : OnlyName tx.outScripts nOut op vvch
  index : db.tx (tx.getHash env) = some txindex
  pos : txindex.pos = head.txPos
  unspent : txindex.isSpent[nOut]? = some false

def CoinsLive (env : Env) (d : Disk) (db : DatabaseSet) : Prop :=
  ∀ vchName, ∀ head ∈ (db.readNameOrEmpty vchName).getLast?,
    ∃ tx nOut op vvch txindex, LiveCoin env d db head tx nOut op vvch txindex

structure CleanSpend (c : TxCall) (t : TxMap) (vchName : VchType) (op : Nat)
    (vvch : List VchType) : Prop where
  writes : op = opNameFirstupdate ∨ op = opNameUpdate
  name : vvch[0]? = some vchName
  leftover : leftoverOp (c.spentScripts t) 0 = op

def CleanSpends (c : TxCall) (db : DatabaseSet) : Prop :=
  ∀ vchName, ∀ head ∈ (db.readNameOrEmpty vchName).getLast?, ∀ txin ∈ c.tx.vin, ∀ txindex op vvch,
    db.tx txin.prevout.hash = some txindex → txindex.pos = head.txPos →
    decodedName (c.spentScript db.tx txin) = some (op, vvch) → CleanSpend c db.tx vchName op vvch

structure CoinStep (env : Env) (n : ChainNode) (c : BlockCall) (b : CBlock) (n' : ChainNode) :
    Prop extends FreshStep env n c b n' where
  fork : postLibcoinFork env c.pindex.pindex.nHeight = true
  position : ∀ vchName, ∀ entry ∈ n.state.dbset.readNameOrEmpty vchName,
    ∀ p, entry.txPos ≠ c.posOf p
  clean : ∀ pre tx s, TxAt c b n.state pre tx s → CleanSpends (c.txCall tx) s.dbset

inductive CoinRun (env : Env) (start : ChainNode) :
    ChainNode → List (ChainNode × BlockCall × CBlock) → Prop
  | start : CoinRun env start start []
  | connect {n n' : ChainNode} {c : BlockCall} {b : CBlock}
      {stack : List (ChainNode × BlockCall × CBlock)} (run : CoinRun env start n stack)
      (step : CoinStep env n c b n') : CoinRun env start n' ((n, c, b) :: stack)
  | disconnect {n prev : ChainNode} {c : BlockCall} {b : CBlock} {db : DatabaseSet}
      {stack : List (ChainNode × BlockCall × CBlock)}
      (run : CoinRun env start n ((prev, c, b) :: stack))
      (undo : c.disconnectBlock b n.state.dbset = .ok db) :
      CoinRun env start ⟨prev.walk, n.disk, { n.state with dbset := db }⟩ stack

structure SpendsCoin (env : Env) (d : Disk) (db : DatabaseSet) (tx : CTransaction)
    (vchName : VchType) : Prop where
  spends : tx.isCoinBase = false
  coin : ∃ head ∈ (db.readNameOrEmpty vchName).getLast?, ∃ txPrev nOut op vvch txindex,
    LiveCoin env d db head txPrev nOut op vvch txindex ∧
      ⟨txPrev.getHash env, nOut⟩ ∈ prevouts tx.vin

def CoinsPassOn (env : Env) (c : BlockCall) (b : CBlock) (s : ChainState) : Prop :=
  ∀ pre tx s1 s2, TxAt c b s pre tx s1 →
    exec (c.connectTx tx (c.txPos b pre)) s1 = (.ok (), s2) →
    ∀ vchName, SpendsCoin env c.view.disk s1.dbset tx vchName →
      ∃ entry, s2.dbset.readNameOrEmpty vchName = s1.dbset.readNameOrEmpty vchName ++ [entry] ∧
        entry.txPos = c.posOf (c.txPos b pre)

theorem coinsLive_congr {env : Env} {d d' : Disk} {db db' : DatabaseSet} (hd : d.Extends d')
    (htx : db'.tx = db.tx) (hread : ∀ v, db'.readNameOrEmpty v = db.readNameOrEmpty v)
    (h : CoinsLive env d db) : CoinsLive env d' db' := by
  intro v head hhead
  rw [hread] at hhead
  obtain ⟨tx, nOut, op, vvch, txindex, hc⟩ := h v head hhead
  exact ⟨tx, nOut, op, vvch, txindex, readFromDisk_extends hd hc.read, hc.onDisk, hc.only,
    by rw [htx]; exact hc.index, hc.pos, hc.unspent⟩

section Step

variable {c : BlockCall} {tx : CTransaction} {rest : List CTransaction} {nTxPos : Nat} {l : Ledger}
  {t : TxMap} {e : NameEffect} {fee : Int} {vchName : VchType}

theorem found_of_spent {tc : TxCall} {tm : TxMap} {prev : NameScan} {txin : CTxIn} {op : Nat}
    {vvch : List VchType}
    (scan : scanNameScripts true (tc.spentScripts tm) 0 NameScan.start = some prev)
    (hin : txin ∈ tc.tx.vin) (hdec : decodedName (tc.spentScript tm txin) = some (op, vvch)) :
    prev.found ≠ none ∧ prev.vvch = vvch := by
  obtain ⟨j, hj⟩ := List.mem_iff_getElem?.mp hin
  have hs := spentScripts_getElem (t := tm) hj
  rcases scanNameScripts_strict_none rfl scan with ⟨-, hall⟩ | ⟨k, own, hfound, honly⟩
  · rw [hall _ (List.mem_of_getElem? hs)] at hdec
    cases hdec
  · refine ⟨by simp [hfound], ?_⟩
    obtain rfl : j = k := honly.eq_index hs (by simp [hdec])
    have hk := honly.at_k
    rw [hs, Option.bind_some, hdec] at hk
    simp only [Option.some.injEq, Prod.mk.injEq] at hk
    exact hk.2.symm

theorem spent_coin_recorded (fork : postLibcoinFork c.env c.pindex.pindex.nHeight = true)
    (hs : TxSpends (c.txCall tx) (c.posOf nTxPos) l t e fee) (hcb : tx.isCoinBase = false)
    {txin : CTxIn} {op : Nat} {vvch : List VchType} (hin : txin ∈ tx.vin)
    (hdec : decodedName ((c.txCall tx).spentScript l.db.tx txin) = some (op, vvch))
    (hclean : CleanSpend (c.txCall tx) l.db.tx vchName op vvch) :
    ∃ entry, e = .append vchName entry := by
  cases hs with
  | coinbase cb => exact absurd cb (by simp [show (c.txCall tx).tx.isCoinBase = false from hcb])
  | spend cb run scan name value fee range =>
    rw [show postLibcoinFork (c.txCall tx).env (c.txCall tx).pindexBlock.pindex.nHeight = true from
      fork, prevScripts_eq run] at scan
    obtain ⟨hfound, hvvch⟩ := found_of_spent scan hin hdec
    have hleft := scanNameScripts_op scan
    cases name with
    | plain version unnamed => exact absurd unnamed hfound
    | bug ok =>
      rcases ok.op with ⟨-, hok⟩ | ⟨-, hok⟩ | ⟨-, hok⟩
      · exact absurd hok.honest (by decide)
      · exact absurd (hok.honest fork) (by decide)
      · exact absurd (hok.honest fork) (by decide)
    | new op ok =>
      rcases ok.op with ⟨-, hok⟩ | ⟨h1, -⟩ | ⟨h1, -⟩
      · exact absurd hok.unnamed hfound
      · exact absurd (op.symm.trans h1) (by decide)
      · exact absurd (op.symm.trans h1) (by decide)
    | skip op ok bad early =>
      exact absurd (early.symm.trans fork) (by decide)
    | append op ok good read =>
      rcases ok.op with ⟨h1, -⟩ | ⟨-, hok⟩ | ⟨-, hok⟩
      · rw [h1] at op
        exact absurd op (by decide)
      · have hnew := hok.prevOp
        rw [hleft, show NameScan.start.op = 0 from rfl, hclean.leftover] at hnew
        rcases hclean.writes with h1 | h1
        · exact absurd (h1.symm.trans hnew) (by decide)
        · exact absurd (h1.symm.trans hnew) (by decide)
      · obtain ⟨vchPrevName, hprev, hbug⟩ := hok.name
        rw [hvvch, hclean.name] at hprev
        obtain rfl := Option.some.inj hprev
        obtain rfl := not_not.mp (of_decide_eq_false hbug.symm)
        exact ⟨_, rfl⟩

theorem TxSpends.spentFlag_eq {tc : TxCall} {pos : CDiskTxPos} {p : COutPoint}
    (hs : TxSpends tc pos l t e fee)
    (hp : tc.tx.isCoinBase = true ∨ p ∉ prevouts tc.tx.vin) :
    spentFlag t p = spentFlag l.db.tx p := by
  cases hs with
  | coinbase cb => rfl
  | spend cb run scan name value fee range =>
    rcases hp with hp | hp
    · simp [cb] at hp
    · rw [run.eq_setAll, spentFlag_setAll, if_neg hp]

theorem LiveCoin.spent_script {head : CNameIndex} {txPrev : CTransaction} {nOut op : Nat}
    {vvch : List VchType} {txindex : CTxIndex} {txin : CTxIn}
    (h : LiveCoin c.env c.view.disk l.db head txPrev nOut op vvch txindex)
    (hp : txin.prevout = ⟨txPrev.getHash c.env, nOut⟩) :
    decodedName ((c.txCall tx).spentScript l.db.tx txin) = some (op, vvch) := by
  have hindex : l.db.tx txin.prevout.hash = some txindex := by rw [hp]; exact h.index
  have hread : (c.txCall tx).readPrev txin.prevout true txindex = .ok txPrev :=
    readPrev_onDisk (by rw [h.pos]; exact h.onDisk) (by rw [h.pos]; exact h.read)
  rw [spentScript_output hindex hread, hp]
  have hk := h.only.at_k
  rwa [CTransaction.outScripts, List.getElem?_map] at hk

theorem coin_passed_on (fork : postLibcoinFork c.env c.pindex.pindex.nHeight = true)
    (hs : TxSpends (c.txCall tx) (c.posOf nTxPos) l t e fee)
    (clean : CleanSpends (c.txCall tx) l.db)
    (h : SpendsCoin c.env c.view.disk l.db tx vchName) : ∃ entry, e = .append vchName entry := by
  obtain ⟨head, hhead, txPrev, nOut, op, vvch, txindex, hcoin, hmem⟩ := h.coin
  obtain ⟨txin, hin, hprev⟩ := List.mem_map.mp hmem
  have hdec : decodedName ((c.txCall tx).spentScript l.db.tx txin) = some (op, vvch) :=
    hcoin.spent_script hprev
  have hclean := clean vchName head hhead txin hin txindex op vvch
    (by rw [hprev]; exact hcoin.index) hcoin.pos hdec
  exact spent_coin_recorded fork hs h.spends hin hdec hclean

theorem appended_coin (fork : postLibcoinFork c.env c.pindex.pindex.nHeight = true)
    {entry : CNameIndex}
    (hs : TxSpends (c.txCall tx) (c.posOf nTxPos) l t (.append vchName entry) fee)
    (hstore : Storable c (tx :: rest) nTxPos) :
    ∃ tx' nOut op vvch txindex, LiveCoin c.env c.view.disk
      ((c.txCall tx).after (c.posOf nTxPos) l t (.append vchName entry) fee).db entry tx' nOut op
        vvch txindex := by
  obtain ⟨hpos, d, hdec, -⟩ := hs.append_entry
  obtain ⟨-, op, honly⟩ := decodeNameTx_strict fork hdec
  have hlen : d.nOut < tx.vout.length := by
    obtain ⟨script, hscript, -⟩ := Option.bind_eq_some_iff.mp honly.at_k
    have := (List.getElem?_eq_some_iff.mp hscript).choose
    simpa [CTransaction.outScripts, BlockCall.txCall] using this
  refine ⟨tx, d.nOut, op, d.vvch, (c.txCall tx).entry (c.posOf nTxPos), ?_⟩
  refine ⟨?_, ?_, honly, ?_, hpos.symm, ?_⟩
  · rw [hpos]
    exact hstore.read
  · rw [hpos]
    exact hstore.entry.onDisk
  · exact BlockCall.after_own
  · simp [TxCall.entry, CTxIndex.make, BlockCall.txCall, hlen]

theorem LiveCoin.kept {head : CNameIndex} {txPrev : CTransaction} {nOut op : Nat}
    {vvch : List VchType} {txindex : CTxIndex}
    (h : LiveCoin c.env c.view.disk l.db head txPrev nOut op vvch txindex)
    (hs : TxSpends (c.txCall tx) (c.posOf nTxPos) l t e fee)
    (absent : l.db.tx (tx.getHash c.env) = none)
    (hp : tx.isCoinBase = true ∨ ⟨txPrev.getHash c.env, nOut⟩ ∉ prevouts tx.vin) :
    ∃ txindex', LiveCoin c.env c.view.disk
      ((c.txCall tx).after (c.posOf nTxPos) l t e fee).db head txPrev nOut op vvch txindex' := by
  have hflag := hs.spentFlag_eq (p := ⟨txPrev.getHash c.env, nOut⟩) hp
  have hpos := hs.pos_eq (txPrev.getHash c.env)
  rw [h.index, Option.map_some] at hpos
  obtain ⟨txindex', hindex, hpos⟩ := Option.map_eq_some_iff.mp hpos
  simp only [spentFlag, hindex, h.index, Option.bind_some, h.unspent] at hflag
  refine ⟨txindex', h.read, h.onDisk, h.only, ?_, hpos.trans h.pos, hflag⟩
  have hne : txPrev.getHash c.env ≠ tx.getHash c.env := by
    intro heq
    rw [← heq, h.index] at absent
    cases absent
  rw [TxCall.after_tx]
  exact (Function.update_of_ne hne _ _).trans hindex

theorem TxSpends.after_coinsLive (fork : postLibcoinFork c.env c.pindex.pindex.nHeight = true)
    (hs : TxSpends (c.txCall tx) (c.posOf nTxPos) l t e fee)
    (hstore : Storable c (tx :: rest) nTxPos) (absent : l.db.tx (tx.getHash c.env) = none)
    (clean : CleanSpends (c.txCall tx) l.db) (h : CoinsLive c.env c.view.disk l.db) :
    CoinsLive c.env c.view.disk ((c.txCall tx).after (c.posOf nTxPos) l t e fee).db := by
  intro v head hhead
  rcases after_read (c.txCall tx) (c.posOf nTxPos) l t e fee v with
    ⟨entry, rfl, hafter⟩ | ⟨hne, hafter⟩
  · rw [hafter, List.getLast?_concat] at hhead
    obtain rfl := Option.some.inj hhead
    exact appended_coin fork hs hstore
  · rw [hafter] at hhead
    obtain ⟨txPrev, nOut, op, vvch, txindex, hcoin⟩ := h v head hhead
    have hp : tx.isCoinBase = true ∨ ⟨txPrev.getHash c.env, nOut⟩ ∉ prevouts tx.vin := by
      by_contra hspent
      rw [not_or, not_not] at hspent
      obtain ⟨entry, he⟩ := coin_passed_on fork hs clean
        ⟨by simpa using hspent.1, head, hhead, txPrev, nOut, op, vvch, txindex, hcoin, hspent.2⟩
      exact hne entry he
    obtain ⟨txindex', hkept⟩ := hcoin.kept hs absent hp
    exact ⟨txPrev, nOut, op, vvch, txindex', hkept⟩

end Step

section Run

variable {env : Env} {n n' : ChainNode} {c : BlockCall} {b : CBlock}

theorem connectTxs_coinsLive {txs : List CTransaction} {nTxPos : Nat} {s s' : ConnState}
    (fork : postLibcoinFork c.env c.pindex.pindex.nHeight = true)
    (exec_ok : exec (c.connectTxs txs nTxPos) s = (.ok (), s')) (hstore : Storable c txs nTxPos)
    (fresh : FreshTxs c.env txs s.dbset.tx)
    (clean : c.Along (fun tx _ s1 => CleanSpends (c.txCall tx) s1.dbset) txs nTxPos s)
    (h : CoinsLive c.env c.view.disk s.dbset) : CoinsLive c.env c.view.disk s'.dbset := by
  induction txs generalizing nTxPos s with
  | nil =>
    simp only [BlockCall.connectTxs, pure_ok] at exec_ok
    obtain ⟨-, rfl⟩ := exec_ok
    exact h
  | cons tx rest ih =>
    obtain ⟨s1, t, e, fee, h1, h2, hspend, hdb1, hfresh1⟩ := BlockCall.connectTxs_first fresh exec_ok
    refine ih h2 hstore.tail hfresh1 (clean.2 s1 h1) ?_
    rw [hdb1]
    exact hspend.after_coinsLive fork hstore (fresh.absent tx List.mem_cons_self) clean.1 h

theorem CoinStep.along (hc : CoinStep env n c b n') :
    c.Along (fun tx _ s1 => CleanSpends (c.txCall tx) s1.dbset) b.vtx (c.firstTxPos b)
      (BlockCall.startState n.state) := by
  refine BlockCall.along_iff.mpr ?_
  intro pre tx post s1 hsplit hpre
  exact hc.clean pre tx s1 ⟨⟨post, hsplit⟩, hpre⟩

theorem CoinStep.coinsLive (hc : CoinStep env n c b n')
    (h : CoinsLive env n.disk n.state.dbset) : CoinsLive env n'.disk n'.state.dbset := by
  obtain ⟨-, s1, hexec, hdone⟩ := BlockCall.connectBlock_txs hc.accepted
  have hfork : postLibcoinFork c.env c.pindex.pindex.nHeight = true := by
    rw [hc.sameEnv]
    exact hc.fork
  have hstart : CoinsLive c.env c.view.disk n.state.dbset := by
    rw [hc.sameEnv]
    exact coinsLive_congr hc.grows rfl (fun v => rfl) h
  have hend := connectTxs_coinsLive hfork hexec hc.storable hc.freshTxs hc.along hstart
  rw [hc.sameEnv, ← hc.disk] at hend
  refine coinsLive_congr (fun _ _ _ hr => hr) ?_ ?_ hend
  · rw [hdone.db, writePrevIndex_tx]
    rfl
  · intro v
    rw [hdone.db]
    simp [DatabaseSet.readNameOrEmpty, writePrevIndex_name, ConnState.ledger]

structure Undoes (db db' : DatabaseSet) : Prop where
  tx : db'.tx = db.tx
  read : ∀ vchName, db'.readNameOrEmpty vchName = db.readNameOrEmpty vchName

theorem CoinStep.disconnect (hc : CoinStep env n c b n') {dbEnd db : DatabaseSet}
    (hsame : Undoes n'.state.dbset dbEnd) (undo : c.disconnectBlock b dbEnd = .ok db) :
    Undoes n.state.dbset db := by
  obtain ⟨-, s1, hexec, hdone⟩ := BlockCall.connectBlock_txs hc.accepted
  simp only [BlockCall.disconnectBlock, Except.bind_eq_ok, Except.pure_eq_ok] at undo
  obtain ⟨db1, hdb1, rfl⟩ := undo
  have htx : dbEnd.tx = s1.dbset.tx := by
    rw [hsame.tx, hdone.db, writePrevIndex_tx]
    rfl
  have hname (v : VchType) : dbEnd.readNameOrEmpty v = s1.dbset.readNameOrEmpty v := by
    rw [hsame.read, hdone.db]
    simp [DatabaseSet.readNameOrEmpty, writePrevIndex_name, ConnState.ledger]
  have hbehind := disconnectTxs_behind hc.freshTxs hexec htx hname hdb1
  refine ⟨?_, ?_⟩
  · rw [writePrevIndex_tx]
    exact hbehind.tx
  · intro v
    obtain ⟨extra, heq, hextra⟩ := hbehind.dropped v
    have hnil : extra = [] := by
      rw [List.eq_nil_iff_forall_not_mem]
      intro entry hentry
      obtain ⟨p, -, hp⟩ := hextra entry hentry
      refine hc.position v entry ?_ p hp
      have hmem : entry ∈ (BlockCall.startState n.state).dbset.readNameOrEmpty v := by
        rw [heq]
        exact List.mem_append_right _ hentry
      exact hmem
    rw [hnil, List.append_nil] at heq
    simpa [DatabaseSet.readNameOrEmpty, writePrevIndex_name, BlockCall.startState] using heq.symm

def Frames (env : Env) : ChainNode → List (ChainNode × BlockCall × CBlock) → Prop
  | _, [] => True
  | n, (prev, c, b) :: stack =>
    (∃ n', CoinStep env prev c b n' ∧ Undoes n'.state.dbset n.state.dbset) ∧
      prev.disk.Extends n.disk ∧ CoinsLive env prev.disk prev.state.dbset ∧ Frames env prev stack

theorem Frames.congr {stack : List (ChainNode × BlockCall × CBlock)} {m : ChainNode}
    (h : Frames env n stack) (hdisk : n.disk.Extends m.disk)
    (hsame : Undoes n.state.dbset m.state.dbset) : Frames env m stack := by
  cases stack with
  | nil => trivial
  | cons frame stack =>
    obtain ⟨prev, c, b⟩ := frame
    obtain ⟨⟨n', hstep, hun⟩, hext, hlive, hrest⟩ := h
    refine ⟨⟨n', hstep, ?_, ?_⟩, ?_, hlive, hrest⟩
    · exact hsame.tx.trans hun.tx
    · intro v
      exact (hsame.read v).trans (hun.read v)
    · intro nFile nTxPos tx hread
      exact hdisk _ _ _ (hext _ _ _ hread)

theorem coinRun_live {start : ChainNode} {stack : List (ChainNode × BlockCall × CBlock)}
    (h0 : CoinsLive env start.disk start.state.dbset) (run : CoinRun env start n stack) :
    CoinsLive env n.disk n.state.dbset ∧ Frames env n stack := by
  induction run with
  | start => exact ⟨h0, trivial⟩
  | @connect n n' c b stack run step ih =>
    obtain ⟨hlive, hframes⟩ := ih
    refine ⟨step.coinsLive hlive, ⟨n', step, rfl, fun v => rfl⟩, ?_, hlive, hframes⟩
    rw [step.disk]
    exact step.grows
  | @disconnect n prev c b db stack run undo ih =>
    obtain ⟨-, ⟨n', hstep, hun⟩, hext, hlive, hrest⟩ := ih
    have hback := hstep.disconnect hun undo
    exact ⟨coinsLive_congr hext hback.tx hback.read hlive, hrest.congr hext hback⟩

theorem CoinStep.coinsPassOn (hc : CoinStep env n c b n') : CoinsPassOn env c b n.state := by
  intro pre tx s1 s2 hat hexec v hspends
  obtain ⟨t, e, fee, hspend, hafter⟩ := BlockCall.connectTx_ok hexec
  have hfork : postLibcoinFork c.env c.pindex.pindex.nHeight = true := by
    rw [hc.sameEnv]
    exact hc.fork
  obtain ⟨entry, rfl⟩ := coin_passed_on hfork hspend (hc.clean pre tx s1 hat)
    (by rw [hc.sameEnv]; exact hspends)
  refine ⟨entry, ?_, hspend.append_entry.1⟩
  rcases after_read (c.txCall tx) (c.posOf (c.txPos b pre)) s1.ledger t (.append v entry) fee v
    with ⟨entry', he, hread⟩ | ⟨hne, -⟩
  · injection he with _ he
    subst he
    rw [← hafter] at hread
    exact hread
  · exact absurd rfl (hne entry)

theorem coins_stay_live {start : ChainNode} {stack : List (ChainNode × BlockCall × CBlock)}
    (h0 : CoinsLive env start.disk start.state.dbset) (run : CoinRun env start n stack) :
    CoinsLive env n.disk n.state.dbset ∧
      ∀ c b n', CoinStep env n c b n' → CoinsPassOn env c b n.state :=
  ⟨(coinRun_live h0 run).1, fun _ _ _ hc => hc.coinsPassOn⟩

theorem sampleState_coinsLive {d : Disk} {tx : CTransaction} {t : TxMap} {pos : CDiskTxPos}
    {nOut op nHeight nOutputs : Nat} {vvch : List VchType} {v value : VchType}
    (hread : d.readFromDisk pos = some tx) (hdisk : pos ≠ CDiskTxPos.memPool)
    (honly : OnlyName tx.outScripts nOut op vvch)
    (hindex : t (tx.getHash sampleEnv) = some (CTxIndex.make pos nOutputs))
    (hlen : nOut < nOutputs) : CoinsLive sampleEnv d (sampleState t v ⟨pos, nHeight, value⟩).dbset := by
  intro v' head hhead
  simp only [sampleState, DatabaseSet.readNameOrEmpty, Function.update_apply] at hhead
  split at hhead
  · obtain rfl : ⟨pos, nHeight, value⟩ = head := by simpa using hhead
    exact ⟨tx, nOut, op, vvch, _, hread, hdisk, honly, hindex, rfl, by simp [CTxIndex.make, hlen]⟩
  · cases hhead

theorem sampleState_entry {t : TxMap} {v v' : VchType} {entry head : CNameIndex}
    (h : head ∈ (sampleState t v entry).dbset.readNameOrEmpty v') : v' = v ∧ head = entry := by
  simp only [sampleState, DatabaseSet.readNameOrEmpty, Function.update_apply] at h
  split at h
  · exact ⟨by assumption, by simpa using h⟩
  · cases h

theorem afterCoinbase_name {nBlockPos : Nat}
    (h : (exec ((sampleCall n nBlockPos b).connectTx (sampleCoinbase 1)
      ((sampleCall n nBlockPos b).firstTxPos b)) (BlockCall.startState n.state)).1 = .ok ()) :
    (afterCoinbase n nBlockPos b).dbset.name = n.state.dbset.name := by
  have hx := exec_eta h
  obtain ⟨t, e, fee, hspend, hafter⟩ := BlockCall.connectTx_ok hx
  have hrun : afterCoinbase n nBlockPos b = (exec ((sampleCall n nBlockPos b).connectTx
      (sampleCoinbase 1) ((sampleCall n nBlockPos b).firstTxPos b))
      (BlockCall.startState n.state)).2 := by
    simp only [afterCoinbase, BlockCall.connectTxs]
    rw [(bind_ok.mpr ⟨(), _, hx, rfl⟩ : exec _ _ = (.ok (), _))]
  cases hspend with
  | coinbase cb =>
    have hname := congrArg (fun l => l.db.name) hafter
    rw [hrun]
    simpa [ConnState.ledger, NameEffect.onNames, BlockCall.startState] using hname
  | spend cb =>
    have hcb : (sampleCoinbase 1).isCoinBase = false := cb
    exact absurd hcb (by decide)

theorem renewal_coinStep :
    CoinStep sampleEnv renewalStart (sampleCall renewalStart 2000 renewalBlock) renewalBlock
      (sampleNext renewalStart 2000 renewalBlock) where
  toConnected := sample_connected (sample_endsBy (by decide +kernel)) (by decide +kernel)
  fresh := by decide +kernel
  fork := by decide
  position := by
    intro v entry hentry p hp
    obtain ⟨-, rfl⟩ := sampleState_entry hentry
    have hblock : 8 = 2000 := congrArg CDiskTxPos.nBlockPos hp
    exact absurd hblock (by decide)
  clean := by
    intro pre tx s hat
    rcases hat.of_two rfl with ⟨rfl, rfl, rfl⟩ | ⟨rfl, rfl, rfl⟩
    · intro v head hhead txin hin txindex op vvch hindex
      have hnull : txin = ⟨COutPoint.null, leBytes 4 1, uintMax⟩ := by
        simpa [BlockCall.txCall, sampleCoinbase] using hin
      subst hnull
      have hnone : none = some txindex := (show _ = _ by decide +kernel).symm.trans hindex
      cases hnone
    · intro v head hhead txin hin txindex op vvch hindex hpos hdec
      have hname := @afterCoinbase_name renewalStart renewalBlock 2000 (by decide +kernel)
      have hv : head ∈ renewalStart.state.dbset.readNameOrEmpty v := by
        have hmem := List.mem_of_getLast? hhead
        simp only [DatabaseSet.readNameOrEmpty] at hmem ⊢
        rw [← hname]
        exact hmem
      obtain ⟨rfl, -⟩ := sampleState_entry hv
      have hone : txin = ⟨⟨renewalHead.getHash sampleEnv, 0⟩, [], uintMax⟩ := by
        simpa [BlockCall.txCall, renewalTx, sampleTx] using hin
      subst hone
      obtain ⟨rfl, rfl⟩ : opNameFirstupdate = op ∧ [[65], [66], [67]] = vvch := by
        have heq : some (opNameFirstupdate, [[65], [66], [67]]) = some (op, vvch) :=
          (show _ = _ by decide +kernel).symm.trans hdec
        simpa using heq
      exact ⟨by decide, rfl, by decide +kernel⟩

theorem renewalStart_coinsLive :
    CoinsLive sampleEnv renewalStart.disk renewalStart.state.dbset := by
  have honly : OnlyName renewalHead.outScripts 0 opNameFirstupdate [[65], [66], [67]] :=
    .of_scripts (by decide +kernel) (by decide +kernel)
  exact sampleState_coinsLive (by decide +kernel) (by decide) honly (Function.update_self _ _ _)
    (by decide)

theorem renewal_coin_live :
    CoinsLive sampleEnv renewalStart.disk renewalStart.state.dbset ∧
      CoinsLive sampleEnv (sampleNext renewalStart 2000 renewalBlock).disk
        (sampleNext renewalStart 2000 renewalBlock).state.dbset :=
  ⟨renewalStart_coinsLive,
    (coins_stay_live renewalStart_coinsLive (.connect .start renewal_coinStep)).1⟩

def lostName : VchType := (sampleEnv.hash160 [66, 65]).val

def lostHead : CTransaction :=
  sampleTx namecoinTxVersion [(1, 0)] [(cent, [82, 20] ++ lostName ++ [1, 66, 1, 67, 109])]

def strayCoin : CTransaction := sampleTx 1 [(2, 0)] [(cent, [81])]

def lostOldBlock : CBlock := sampleBlock 0 [sampleCoinbase 0, lostHead, strayCoin]

def lostIndex : TxMap :=
  let t : TxMap := Function.update (fun _ => none) (lostHead.getHash sampleEnv)
    (some (CTxIndex.make (samplePos 8 lostOldBlock 1) 1))
  Function.update t (strayCoin.getHash sampleEnv)
    (some (CTxIndex.make (samplePos 8 lostOldBlock 2) 1))

def lostStart : ChainNode where
  walk := (List.range 12).map (fun i => sampleIndex (1000 - i) (150012 - i) (sampleBlock 0 [])) ++
    [sampleIndex 8 150000 lostOldBlock]
  disk := Disk.empty.writeToDisk 1 8 lostOldBlock
  state := sampleState lostIndex lostName ⟨samplePos 8 lostOldBlock 1, 150000, [67]⟩

def lostTx : CTransaction :=
  sampleTx namecoinTxVersion [(lostHead.getHash sampleEnv, 0), (strayCoin.getHash sampleEnv, 0)]
    [(cent, [82, 1, 65, 1, 66, 1, 67, 109])]

def lostBlock : CBlock := sampleBlock 1 [sampleCoinbase 1, lostTx]

theorem coin_lost_to_firstupdate :
    CoinsLive sampleEnv lostStart.disk lostStart.state.dbset ∧
      Connected sampleEnv lostStart (sampleCall lostStart 2000 lostBlock) lostBlock
        (sampleNext lostStart 2000 lostBlock) ∧
      postLibcoinFork sampleEnv 150013 = true ∧
      ¬CoinsLive sampleEnv (sampleNext lostStart 2000 lostBlock).disk
        (sampleNext lostStart 2000 lostBlock).state.dbset := by
  have honly : OnlyName lostHead.outScripts 0 opNameFirstupdate [lostName, [66], [67]] :=
    .of_scripts (by decide +kernel) (by decide +kernel)
  have hindex : lostIndex (lostHead.getHash sampleEnv) =
      some (CTxIndex.make (samplePos 8 lostOldBlock 1) 1) := by decide +kernel
  refine ⟨sampleState_coinsLive (by decide +kernel) (by decide) honly hindex (by decide),
    sample_connected (sample_endsBy (by decide +kernel)) (by decide +kernel), by decide, ?_⟩
  intro hlive
  obtain ⟨tx, nOut, op, vvch, txindex, h⟩ :=
    hlive lostName ⟨samplePos 8 lostOldBlock 1, 150000, [67]⟩ (by decide +kernel)
  obtain rfl : lostHead = tx := Option.some.inj ((show _ = _ by decide +kernel).symm.trans h.read)
  obtain rfl : ⟨samplePos 8 lostOldBlock 1, [true]⟩ = txindex :=
    Option.some.inj ((show _ = _ by decide +kernel).symm.trans h.index)
  have hspent := List.mem_of_getElem? h.unspent
  simp at hspent

end Run

end Namecoin
