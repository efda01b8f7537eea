import Namecoin.Chain.Step

namespace Namecoin

open Act

structure ChainNode where
  walk : List CBlockIndex
  disk : Disk
  state : ChainState

def ChainNode.nHeight (n : ChainNode) : Nat := (n.walk.head?.map CBlockIndex.nHeight).getD 0

def Disk.Extends (d d' : Disk) : Prop :=
  ∀ nFile nTxPos tx, d.readTx nFile nTxPos = some tx → d'.readTx nFile nTxPos = some tx

def Disk.Stores (d : Disk) (nFile : Nat) : List CTransaction → Nat → Prop
  | [], _ => True
  | tx :: rest, nTxPos =>
    d.readTx nFile nTxPos = some tx ∧ d.Stores nFile rest (nTxPos + tx.getSerializeSize)

def txAtPos : List CTransaction → Nat → Nat → Option CTransaction
  | [], _, _ => none
  | tx :: rest, nTxPos, target =>
    if nTxPos = target then some tx else txAtPos rest (nTxPos + tx.getSerializeSize) target

def CBlock.dataPos (b : CBlock) (nBlockPos : Nat) : Nat :=
  nBlockPos + b.headerSize + getSizeOfCompactSize b.vtx.length

def Disk.empty : Disk := ⟨fun _ _ => none, fun _ _ => none⟩

def Disk.writeToDisk (d : Disk) (nFile nBlockPos : Nat) (b : CBlock) : Disk where
  readTx f p :=
    if f = nFile then (txAtPos b.vtx (b.dataPos nBlockPos) p).or (d.readTx f p) else d.readTx f p
  readBlock f p := if f = nFile ∧ p = nBlockPos then some b else d.readBlock f p

structure Offered (env : Env) (n : ChainNode) (c : BlockCall) (b : CBlock) : Prop where
  sameEnv : c.env = env
  pprev : c.pindex.pprev = n.walk
  height : ∀ tip ∈ n.walk.head?, c.pindex.pindex.nHeight = tip.nHeight + 1
  file : c.pindex.pindex.nFile ≠ uintMax
  grows : n.disk.Extends c.view.disk
  stores : c.view.disk.Stores c.pindex.pindex.nFile b.vtx (c.firstTxPos b)

structure Connected (env : Env) (n : ChainNode) (c : BlockCall) (b : CBlock) (n' : ChainNode) :
    Prop extends Offered env n c b where
  disk : n'.disk = c.view.disk
  accepted : exec (c.connectBlock b) n.state = (.ok (), n'.state)
  walk : n'.walk = c.pindex.walk

def BlockCall.txPos (c : BlockCall) (b : CBlock) (pre : List CTransaction) : Nat :=
  c.firstTxPos b + (pre.map CTransaction.getSerializeSize).sum

structure TxAt (c : BlockCall) (b : CBlock) (s : ChainState) (pre : List CTransaction)
    (tx : CTransaction) (s1 : ConnState) : Prop where
  split : ∃ post, b.vtx = pre ++ tx :: post
  prefixDone : exec (c.connectTxs pre (c.firstTxPos b)) (BlockCall.startState s) = (.ok (), s1)

theorem txAtPos_of_lt {txs : List CTransaction} {nTxPos target : Nat} (h : target < nTxPos) :
    txAtPos txs nTxPos target = none := by
  induction txs generalizing nTxPos with
  | nil => rfl
  | cons tx rest ih =>
    rw [txAtPos, if_neg (by omega)]
    exact ih (by omega)

theorem Disk.stores_of_txAtPos {d : Disk} {nFile : Nat} {txs : List CTransaction} {nTxPos : Nat}
    (h : ∀ p tx, txAtPos txs nTxPos p = some tx → d.readTx nFile p = some tx) :
    d.Stores nFile txs nTxPos := by
  induction txs generalizing nTxPos with
  | nil => trivial
  | cons tx rest ih =>
    refine ⟨h nTxPos tx (by simp [txAtPos]), ih ?_⟩
    intro p tx' hp
    refine h p tx' ?_
    have hle : nTxPos + tx.getSerializeSize ≤ p := by
      by_contra hlt
      rw [txAtPos_of_lt (by omega)] at hp
      cases hp
    have hpos := size_pos tx
    rw [txAtPos, if_neg (by omega)]
    exact hp

theorem Disk.writeToDisk_stores (d : Disk) (nFile nBlockPos : Nat) (b : CBlock) :
    (d.writeToDisk nFile nBlockPos b).Stores nFile b.vtx (b.dataPos nBlockPos) := by
  apply stores_of_txAtPos
  intro p tx hp
  simp [Disk.writeToDisk, hp]

theorem Disk.Extends.refl (d : Disk) : d.Extends d := fun _ _ _ h => h

def Disk.EndsBy (d : Disk) (nFile nEnd : Nat) : Prop :=
  ∀ p tx, d.readTx nFile p = some tx → p < nEnd

theorem Disk.empty_endsBy (nFile nEnd : Nat) : Disk.empty.EndsBy nFile nEnd := by
  intro p tx h
  cases h

theorem txAtPos_lt {txs : List CTransaction} {nTxPos p : Nat} {tx : CTransaction}
    (h : txAtPos txs nTxPos p = some tx) :
    p < nTxPos + (txs.map CTransaction.getSerializeSize).sum := by
  induction txs generalizing nTxPos with
  | nil => cases h
  | cons tx' rest ih =>
    have hpos := size_pos tx'
    rw [txAtPos] at h
    split at h
    · simp only [List.map_cons, List.sum_cons]
      omega
    · have := ih h
      simp only [List.map_cons, List.sum_cons]
      omega

theorem Disk.EndsBy.mono {d : Disk} {nFile nEnd nEnd' : Nat} (h : d.EndsBy nFile nEnd)
    (hle : nEnd ≤ nEnd') : d.EndsBy nFile nEnd' := fun p tx hp => (h p tx hp).trans_le hle

theorem Disk.EndsBy.write {d : Disk} {nFile nBlockPos : Nat} {b : CBlock}
    (h : d.EndsBy nFile (b.dataPos nBlockPos)) :
    (d.writeToDisk nFile nBlockPos b).EndsBy nFile
      (b.dataPos nBlockPos + (b.vtx.map CTransaction.getSerializeSize).sum) := by
  intro p tx hp
  simp only [Disk.writeToDisk, if_true, Option.or_eq_some_iff] at hp
  rcases hp with hp | ⟨-, hp⟩
  · exact txAtPos_lt hp
  · have := h p tx hp
    omega

theorem Disk.EndsBy.writeToDisk_extends {d : Disk} {nFile nBlockPos : Nat} {b : CBlock}
    (h : d.EndsBy nFile (b.dataPos nBlockPos)) : d.Extends (d.writeToDisk nFile nBlockPos b) := by
  intro f p tx hp
  simp only [Disk.writeToDisk]
  split
  · rename_i hf
    subst hf
    rw [txAtPos_of_lt (h p tx hp)]
    exact hp
  · exact hp

theorem TxAt.index {c : BlockCall} {b : CBlock} {s : ChainState} {pre : List CTransaction}
    {tx : CTransaction} {s1 : ConnState} (h : TxAt c b s pre tx s1) :
    ∃ i, i < b.vtx.length ∧ pre = b.vtx.take i ∧ b.vtx[i]? = some tx := by
  obtain ⟨post, hsplit⟩ := h.split
  exact ⟨pre.length, by simp [hsplit], by simp [hsplit], by simp [hsplit]⟩

theorem TxAt.state {c : BlockCall} {b : CBlock} {s : ChainState} {pre : List CTransaction}
    {tx : CTransaction} {s1 : ConnState} (h : TxAt c b s pre tx s1) :
    s1 = (exec (c.connectTxs pre (c.firstTxPos b)) (BlockCall.startState s)).2 := by
  rw [h.prefixDone]

theorem TxAt.of_two {c : BlockCall} {b : CBlock} {s : ChainState} {pre : List CTransaction}
    {tx first second : CTransaction} {s1 : ConnState} (hvtx : b.vtx = [first, second])
    (h : TxAt c b s pre tx s1) :
    pre = [] ∧ tx = first ∧ s1 = BlockCall.startState s ∨
      pre = [first] ∧ tx = second ∧
        s1 = (exec (c.connectTxs [first] (c.firstTxPos b)) (BlockCall.startState s)).2 := by
  obtain ⟨post, hsplit⟩ := h.split
  have hs := h.state
  rw [hvtx] at hsplit
  rcases List.cons_eq_append_iff.mp hsplit with ⟨rfl, hpost⟩ | ⟨pre, rfl, hpost⟩
  · exact Or.inl ⟨rfl, (List.cons.inj hpost).1, hs⟩
  · rcases List.cons_eq_append_iff.mp hpost with ⟨rfl, hpost⟩ | ⟨pre, rfl, hpost⟩
    · exact Or.inr ⟨rfl, (List.cons.inj hpost).1.symm, hs⟩
    · simp at hpost

def TxCall.spentScript (c : TxCall) (t : TxMap) (txin : CTxIn) : CScript :=
  match t txin.prevout.hash with
  | none => []
  | some txindex =>
    match c.readPrev txin.prevout true txindex with
    | .error _ => []
    | .ok txPrev => ((txPrev.vout[txin.prevout.n]?).map CTxOut.scriptPubKey).getD []

def TxCall.spentScripts (c : TxCall) (t : TxMap) : List CScript :=
  c.tx.vin.map (c.spentScript t)

theorem readPrev_congr (c : TxCall) (prevout : COutPoint) (fFound : Bool) {t t' : CTxIndex}
    (h : t'.pos = t.pos) : c.readPrev prevout fFound t' = c.readPrev prevout fFound t := by
  simp [TxCall.readPrev, h]

theorem spentScript_congr (c : TxCall) {t t' : TxMap} {txin : CTxIn}
    (h : (t' txin.prevout.hash).map CTxIndex.pos = (t txin.prevout.hash).map CTxIndex.pos) :
    c.spentScript t' txin = c.spentScript t txin := by
  unfold TxCall.spentScript
  cases ht : t txin.prevout.hash with
  | none =>
    rw [ht] at h
    simp [Option.map_eq_none_iff.mp h]
  | some txindex =>
    rw [ht] at h
    obtain ⟨txindex', ht', hpos⟩ := Option.map_eq_some_iff.mp h
    simp only [ht', readPrev_congr c txin.prevout true hpos]

theorem update_setSpent_pos {t : TxMap} {hash : Uint256} {txindex : CTxIndex} {n : Nat} {b : Bool}
    (h : t hash = some txindex) (k : Uint256) :
    (Function.update t hash (some (txindex.setSpent n b)) k).map CTxIndex.pos =
      (t k).map CTxIndex.pos := by
  by_cases hk : k = hash
  · subst hk
    simp [h, CTxIndex.setSpent]
  · simp [hk]

namespace SpendRun

variable {c : TxCall} {vin : List CTxIn} {t t' : TxMap} {n n' : Int}
  {rs : List (CTransaction × CTxIndex)}

theorem pos_eq (h : SpendRun c vin t n rs t' n') (k : Uint256) :
    (t' k).map CTxIndex.pos = (t k).map CTxIndex.pos := by
  induction h with
  | nil t n => rfl
  | cons step range tail ih => rw [ih, update_setSpent_pos step.found]

theorem length_eq (h : SpendRun c vin t n rs t' n') : rs.length = vin.length := by
  induction h with
  | nil t n => rfl
  | cons step range tail ih => simp [ih]

theorem scripts_eq (h : SpendRun c vin t n rs t' n') :
    List.zipWith (fun txin txPrev => ((txPrev.vout[txin.prevout.n]?).map
      CTxOut.scriptPubKey).getD []) vin (rs.map Prod.fst) = vin.map (c.spentScript t) := by
  induction h with
  | nil t n => rfl
  | @cons txin rest t t' n n' txPrev txindex rs step range tail ih =>
    simp only [List.map_cons, List.zipWith_cons_cons, ih]
    congr 1
    · simp [TxCall.spentScript, step.found, step.read]
    · apply List.map_congr_left
      intro a _
      exact spentScript_congr c (update_setSpent_pos step.found _)

theorem input (h : SpendRun c vin t n rs t' n') {k : Nat} {txPrev : CTransaction}
    {txindex : CTxIndex} (hk : rs[k]? = some (txPrev, txindex)) :
    ∃ txin txindex0, vin[k]? = some txin ∧ t txin.prevout.hash = some txindex0 ∧
      txindex0.pos = txindex.pos ∧ c.readPrev txin.prevout true txindex0 = .ok txPrev := by
  induction h generalizing k with
  | nil t n => simp at hk
  | @cons txin rest t t' n n' txPrev0 txindex0 rs step range tail ih =>
    cases k with
    | zero =>
      obtain ⟨rfl, rfl⟩ : txPrev0 = txPrev ∧ txindex0.setSpent txin.prevout.n true = txindex := by
        simpa using hk
      exact ⟨txin, txindex0, rfl, step.found, rfl, step.read⟩
    | succ k =>
      obtain ⟨txin', txindex1, hin, hfound, hpos, hread⟩ := ih (by simpa using hk)
      have heq := update_setSpent_pos (n := txin.prevout.n) (b := true) step.found
        txin'.prevout.hash
      rw [hfound] at heq
      obtain ⟨txindex2, h2, hpos2⟩ := Option.map_eq_some_iff.mp heq.symm
      refine ⟨txin', txindex2, by simpa using hin, h2, hpos2.trans hpos, ?_⟩
      rw [readPrev_congr c txin'.prevout true hpos2]
      exact hread

end SpendRun

theorem prevScripts_eq {c : TxCall} {t t' : TxMap} {n n' : Int}
    {rs : List (CTransaction × CTxIndex)} (h : SpendRun c c.tx.vin t n rs t' n') :
    prevScripts c.tx (rs.map Prod.fst) = c.spentScripts t := h.scripts_eq

theorem TxSpends.pos_eq {c : TxCall} {pos : CDiskTxPos} {l : Ledger} {t : TxMap} {e : NameEffect}
    {fee : Int} (h : TxSpends c pos l t e fee) (k : Uint256) :
    (t k).map CTxIndex.pos = (l.db.tx k).map CTxIndex.pos := by
  cases h with
  | coinbase cb => rfl
  | spend cb run scan name value fee range => exact run.pos_eq k

theorem TxAt.run {c : BlockCall} {b : CBlock} {s : ChainState} {pre : List CTransaction}
    {tx : CTransaction} {s1 : ConnState} (h : TxAt c b s pre tx s1) :
    c.TxsRun pre (c.firstTxPos b) ⟨s.dbset, s.mapNamePending, 0⟩ s1.ledger :=
  BlockCall.connectTxs_ok h.prefixDone

namespace BlockCall

def Along (c : BlockCall) (Q : CTransaction → Nat → ConnState → Prop) :
    List CTransaction → Nat → ConnState → Prop
  | [], _, _ => True
  | tx :: rest, nTxPos, s => Q tx nTxPos s ∧
    ∀ s1, exec (c.connectTx tx nTxPos) s = (.ok (), s1) →
      Along c Q rest (nTxPos + tx.getSerializeSize) s1

theorem along_iff {c : BlockCall} {Q : CTransaction → Nat → ConnState → Prop}
    {txs : List CTransaction} {nTxPos : Nat} {s : ConnState} :
    c.Along Q txs nTxPos s ↔ ∀ pre tx post s1, txs = pre ++ tx :: post →
      exec (c.connectTxs pre nTxPos) s = (.ok (), s1) →
        Q tx (nTxPos + (pre.map CTransaction.getSerializeSize).sum) s1 := by
  induction txs generalizing nTxPos s with
  | nil => simp [Along]
  | cons tx rest ih =>
    rw [Along]
    constructor
    · rintro ⟨hq, hrest⟩ pre tx' post s1 hsplit hexec
      cases pre with
      | nil =>
        obtain ⟨rfl, rfl⟩ := List.cons.inj hsplit
        obtain ⟨-, rfl⟩ := pure_ok.mp hexec
        exact hq
      | cons a pre =>
        obtain ⟨rfl, rfl⟩ := List.cons.inj hsplit
        simp only [connectTxs, bind_ok] at hexec
        obtain ⟨u, s2, h2, h3⟩ := hexec
        have hq' := ih.mp (hrest s2 h2) pre tx' post s1 rfl h3
        simpa [Nat.add_assoc] using hq'
    · intro h
      refine ⟨h [] tx rest s rfl rfl, ?_⟩
      intro s1 h1
      refine ih.mpr ?_
      intro pre tx' post s2 hsplit hexec
      have hq := h (tx :: pre) tx' post s2 (by rw [hsplit]; rfl)
        (bind_ok.mpr ⟨(), s1, h1, hexec⟩)
      simpa [Nat.add_assoc] using hq

end BlockCall

def sampleHash (l : List UInt8) : Nat :=
  l.foldl (fun a b => (a * 257 + b.toNat + 1) % 2 ^ 200) 0

theorem sampleHash_lt (l : List UInt8) : sampleHash l < 2 ^ 200 := by
  unfold sampleHash
  rcases List.eq_nil_or_concat l with rfl | ⟨ys, y, rfl⟩
  · decide
  · rw [List.concat_eq_append, List.foldl_concat]
    exact Nat.mod_lt _ (by decide)

def sampleEnv : Env where
  fTestNet := false
  hash l := BitVec.ofNat 256 (sampleHash l)
  hash160 vch := uint160 (leBytes 20 (sampleHash vch))
  verifyScript _ _ _ _ _ := true

def sampleBlock (nTime : Nat) (vtx : List CTransaction) : CBlock :=
  let b : CBlock := ⟨⟨65537, 0, 0, nTime, 0x1d00ffff, 0⟩, vtx, none⟩
  { b with hashMerkleRoot := b.buildMerkleTree sampleEnv }

def sampleCoinbase (n : Nat) : CTransaction :=
  ⟨1, [⟨COutPoint.null, leBytes 4 n, uintMax⟩], [⟨coin, [UInt8.ofNat op1]⟩], 0⟩

def sampleTx (nVersion : Int) (ins : List (Uint256 × Nat)) (outs : List (Int × CScript)) :
    CTransaction :=
  ⟨nVersion, ins.map (fun p => ⟨⟨p.1, p.2⟩, [], uintMax⟩), outs.map (fun p => ⟨p.1, p.2⟩), 0⟩

def sampleIndex (nBlockPos nHeight : Nat) (b : CBlock) : CBlockIndex where
  hashBlock := b.toCBlockHeader.getHash sampleEnv
  pprev := none
  pnext := none
  nFile := 1
  nBlockPos := nBlockPos
  nHeight := nHeight
  bnChainWork := 0
  nVersion := b.nVersion
  hashMerkleRoot := b.hashMerkleRoot
  nTime := b.nTime
  nBits := b.nBits
  nNonce := b.nNonce

def sampleWallet : CWallet := ⟨fun _ => false, fun _ => false, 0, fun _ => none⟩

def samplePos (nBlockPos : Nat) (b : CBlock) (i : Nat) : CDiskTxPos :=
  ⟨1, nBlockPos,
    b.dataPos nBlockPos + ((b.vtx.take i).map CTransaction.getSerializeSize).sum⟩

def sampleView (d : Disk) (nHeight : Nat) : View := ⟨d, fun _ => none, nHeight, nHeight, false⟩

def sampleCall (n : ChainNode) (nBlockPos : Nat) (b : CBlock) : BlockCall where
  env := sampleEnv
  view := sampleView (n.disk.writeToDisk 1 nBlockPos b) n.nHeight
  nNow := b.nTime
  pindex := ⟨sampleIndex nBlockPos (n.nHeight + 1) b, n.walk⟩

def sampleNext (n : ChainNode) (nBlockPos : Nat) (b : CBlock) : ChainNode where
  walk := (sampleCall n nBlockPos b).pindex.walk
  disk := n.disk.writeToDisk 1 nBlockPos b
  state := (exec ((sampleCall n nBlockPos b).connectBlock b) n.state).2

theorem sample_connected {n : ChainNode} {nBlockPos : Nat} {b : CBlock}
    (hends : n.disk.EndsBy 1 (b.dataPos nBlockPos))
    (h : (exec ((sampleCall n nBlockPos b).connectBlock b) n.state).1 = .ok ()) :
    Connected sampleEnv n (sampleCall n nBlockPos b) b (sampleNext n nBlockPos b) where
  sameEnv := rfl
  pprev := rfl
  height tip htip := by simp [sampleCall, sampleIndex, ChainNode.nHeight, Option.mem_def.mp htip]
  file := show 1 ≠ uintMax by decide
  disk := rfl
  grows := hends.writeToDisk_extends
  stores := Disk.writeToDisk_stores _ _ _ _
  accepted := exec_eta h
  walk := rfl

theorem sample_endsBy {nBlockPos nBlockPos' : Nat} {b b' : CBlock}
    (h : b.dataPos nBlockPos + (b.vtx.map CTransaction.getSerializeSize).sum ≤
      b'.dataPos nBlockPos') :
    (Disk.empty.writeToDisk 1 nBlockPos b).EndsBy 1 (b'.dataPos nBlockPos') :=
  (Disk.empty_endsBy _ _).write.mono h

def sampleState (t : TxMap) (vchName : VchType) (entry : CNameIndex) : ChainState :=
  ⟨⟨t, Function.update (fun _ => none) vchName (some [entry]), fun _ => none, none⟩, fun _ => ∅,
    sampleWallet⟩

end Namecoin
