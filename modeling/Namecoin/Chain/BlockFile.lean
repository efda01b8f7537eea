import Namecoin.Data.RoundTrip
import Namecoin.Chain.Index

namespace Namecoin

open Act Reading

def blockfileMaxSize : Nat := 0x7F000000

def blockfileChunkSize : Nat := 16 * 2 ^ 20

structure BlockFile where
  bytes : List UInt8
  reserved : Nat
  inFile : reserved ≤ bytes.length

namespace BlockFile

def startPos (f : BlockFile) : Nat := f.bytes.length - f.reserved

def extend (f : BlockFile) (addedChunk : Nat) : BlockFile :=
  ⟨f.bytes ++ List.replicate addedChunk 0, f.reserved + addedChunk, by
    have h := f.inFile
    rw [List.length_append, List.length_replicate]
    omega⟩

def reserve (f : BlockFile) (size : Nat) : Option BlockFile :=
  if size ≤ f.reserved then some f
  else
    let addedChunk := max blockfileChunkSize (size - f.reserved)
    if f.bytes.length + addedChunk ≤ blockfileMaxSize then some (f.extend addedChunk) else none

def write (f : BlockFile) (data : List UInt8) : BlockFile :=
  ⟨f.bytes.take f.startPos ++ data ++ f.bytes.drop (f.startPos + data.length),
    f.reserved - data.length, by
      have h := f.inFile
      simp only [List.length_append, List.length_take, List.length_drop, startPos]
      omega⟩

end BlockFile

abbrev BlockFiles := Nat → BlockFile

def appendBlockFile (files : BlockFiles) (size : Nat) : Nat → Nat → Option (Nat × BlockFile)
  | 0, _ => none
  | fuel + 1, nCurrentBlockFile =>
    if nCurrentBlockFile = uintMax then none
    else match (files nCurrentBlockFile).reserve size with
      | some f => some (nCurrentBlockFile, f)
      | none => appendBlockFile files size fuel (nCurrentBlockFile + 1)

structure BlockWrite where
  files : BlockFiles
  nFileRet : Nat
  nBlockPosRet : Nat

def CBlock.writeToDisk (env : Env) (files : BlockFiles) (fuel nCurrentBlockFile : Nat)
    (b : CBlock) : Option BlockWrite := do
  let nSize := b.serializeSize serDisk
  let nTotalSize := nSize + (4 + 4)
  let (nFileRet, fileout) ← appendBlockFile files nTotalSize fuel nCurrentBlockFile
  let data := pchMessageStart env ++ leBytes 4 nSize ++ b.serialize serDisk
  if data.length ≠ nTotalSize then none
  else
    some ⟨Function.update files nFileRet (fileout.write data), nFileRet, fileout.startPos + 8⟩

def BlockFiles.disk (files : BlockFiles) : Disk where
  readTx nFile nTxPos :=
    (CTransaction.unserialize ((files nFile).bytes.drop nTxPos)).map Prod.fst
  readBlock nFile nBlockPos :=
    (CBlock.unserialize serDisk ((files nFile).bytes.drop nBlockPos)).map Prod.fst

namespace BlockFile

def used (f : BlockFile) : List UInt8 := f.bytes.take f.startPos

theorem used_length (f : BlockFile) : f.used.length = f.startPos := by
  rw [used, List.length_take, startPos]
  omega

theorem used_extend (f : BlockFile) (addedChunk : Nat) : (f.extend addedChunk).used = f.used := by
  have hin := f.inFile
  have hstart : (f.extend addedChunk).startPos = f.startPos := by
    simp only [startPos, extend, List.length_append, List.length_replicate]
    omega
  rw [used, hstart, used]
  exact List.take_append_of_le_length (Nat.sub_le _ _)

theorem reserve_some {f g : BlockFile} {size : Nat} (h : f.reserve size = some g) :
    g.used = f.used ∧ size ≤ g.reserved := by
  unfold reserve at h
  split at h
  · next hle =>
    cases h
    exact ⟨rfl, hle⟩
  · dsimp only at h
    split at h
    · cases h
      refine ⟨used_extend f _, ?_⟩
      simp only [extend]
      omega
    · cases h

theorem used_write {f : BlockFile} {data : List UInt8} (h : data.length ≤ f.reserved) :
    (f.write data).used = f.used ++ data := by
  have hin := f.inFile
  have hlen : (f.write data).startPos = (f.used ++ data).length := by
    rw [List.length_append, used_length]
    simp only [startPos, write, List.length_append, List.length_take, List.length_drop]
    omega
  rw [used, hlen]
  exact List.take_left

end BlockFile

theorem appendBlockFile_some {files : BlockFiles} {size fuel n nFile : Nat} {f : BlockFile}
    (h : appendBlockFile files size fuel n = some (nFile, f)) :
    nFile ≠ uintMax ∧ f.used = (files nFile).used ∧ size ≤ f.reserved := by
  induction fuel generalizing n with
  | zero => cases h
  | succ fuel ih =>
    simp only [appendBlockFile] at h
    split at h
    · cases h
    · next hfile =>
      split at h
      · next g hreserve =>
        cases h
        exact ⟨hfile, BlockFile.reserve_some hreserve⟩
      · exact ih h

theorem writeToDisk_used {env : Env} {files : BlockFiles} {fuel n : Nat} {b : CBlock}
    {w : BlockWrite} (h : b.writeToDisk env files fuel n = some w) :
    w.nFileRet ≠ uintMax ∧ (∀ m ≠ w.nFileRet, w.files m = files m) ∧
      ∃ pre, (w.files w.nFileRet).used = pre ++ b.serialize serDisk ∧
        (files w.nFileRet).used <+: pre ∧ pre.length = w.nBlockPosRet := by
  simp only [CBlock.writeToDisk, Option.bind_eq_bind, Option.bind_eq_some_iff] at h
  obtain ⟨⟨nFile, f⟩, happend, h⟩ := h
  obtain ⟨hfile, hused, hroom⟩ := appendBlockFile_some happend
  split at h
  · cases h
  · next hlen =>
    cases h
    refine ⟨hfile, fun m hm => Function.update_of_ne hm _ _, ?_⟩
    dsimp only at hlen ⊢
    rw [not_not] at hlen
    refine ⟨f.used ++ (pchMessageStart env ++ leBytes 4 (b.serializeSize serDisk)), ?_, ?_, ?_⟩
    · rw [Function.update_self, BlockFile.used_write (by rw [hlen]; exact hroom)]
      simp only [List.append_assoc]
    · rw [← hused]
      exact List.prefix_append _ _
    · simp only [List.length_append, BlockFile.used_length, pchMessageStart_length, leBytes_length]

def BlockFiles.Grows (files files' : BlockFiles) : Prop := ∀ n, (files n).used <+: (files' n).used

theorem writeToDisk_grows {env : Env} {files : BlockFiles} {fuel n : Nat} {b : CBlock}
    {w : BlockWrite} (h : b.writeToDisk env files fuel n = some w) :
    BlockFiles.Grows files w.files := by
  obtain ⟨-, hothers, pre, hused, hpre, -⟩ := writeToDisk_used h
  intro m
  by_cases hm : m = w.nFileRet
  · rw [hm, hused]
    exact hpre.trans (List.prefix_append _ _)
  · rw [hothers m hm]

inductive Written (env : Env) (files : BlockFiles) : BlockFiles → Prop
  | write {b : CBlock} {fuel n : Nat} {w : BlockWrite}
      (done : b.writeToDisk env files fuel n = some w) : Written env files w.files

theorem grows_of_run {env : Env} {files files' : BlockFiles}
    (h : Relation.ReflTransGen (Written env) files files') : BlockFiles.Grows files files' := by
  induction h with
  | refl => exact fun n => List.prefix_refl _
  | tail _ step ih =>
    cases step with
    | write done => exact fun n => (ih n).trans (writeToDisk_grows done n)

structure CTransaction.InRange (tx : CTransaction) : Prop where
  nVersion : IntFits 32 tx.nVersion
  vin : ∀ txin ∈ tx.vin, UIntFits 32 txin.prevout.n ∧ UIntFits 32 txin.nSequence
  vout : ∀ txout ∈ tx.vout, IntFits 64 txout.nValue
  nLockTime : UIntFits 32 tx.nLockTime

theorem length_le_sum_sizes {α : Type} {v : List α} {g : α → Nat} (hg : ∀ x, 0 < g x) :
    v.length ≤ (v.map g).sum := by
  induction v with
  | nil => exact Nat.le_refl 0
  | cons x v ih =>
    have hx := hg x
    simp only [List.length_cons, List.map_cons, List.sum_cons]
    omega

theorem size_le_sum_sizes {α : Type} {v : List α} (g : α → Nat) {x : α} (hx : x ∈ v) :
    g x ≤ (v.map g).sum := List.single_le_sum (fun _ _ => Nat.zero_le _) _ (List.mem_map_of_mem hx)

theorem CTransaction.InRange.fits {tx : CTransaction} (h : tx.InRange)
    (hsize : tx.getSerializeSize ≤ maxSize) : tx.Fits := by
  have hin : tx.vin.length ≤ (tx.vin.map CTxIn.getSerializeSize).sum :=
    length_le_sum_sizes fun txin => by unfold CTxIn.getSerializeSize; omega
  have hout : tx.vout.length ≤ (tx.vout.map CTxOut.getSerializeSize).sum :=
    length_le_sum_sizes fun txout => by unfold CTxOut.getSerializeSize; omega
  simp only [CTransaction.getSerializeSize] at hsize
  refine ⟨h.nVersion, by omega, fun txin hmem => ?_, by omega, fun txout hmem => ?_, h.nLockTime⟩
  · have hle := size_le_sum_sizes CTxIn.getSerializeSize hmem
    simp only [CTxIn.getSerializeSize, sizeBytes] at hle
    exact ⟨(h.vin txin hmem).1, by omega, (h.vin txin hmem).2⟩
  · have hle := size_le_sum_sizes CTxOut.getSerializeSize hmem
    simp only [CTxOut.getSerializeSize, sizeBytes] at hle
    exact ⟨h.vout txout hmem, by omega⟩

theorem txsRun_otherPos {c : BlockCall} {txs : List CTransaction} {nTxPos : Nat} {l l' : Ledger}
    (run : c.TxsRun txs nTxPos l l') {hash : Uint256} (hnot : hash ∉ txHashes c.env txs) :
    (l'.db.tx hash).map CTxIndex.pos = (l.db.tx hash).map CTxIndex.pos := by
  induction run with
  | nil nTxPos l => rfl
  | @cons tx rest nTxPos l l' t e fee head tail ih =>
    simp only [txHashes, List.map_cons, List.mem_cons, not_or] at hnot
    rw [ih hnot.2, TxCall.after_tx, ← head.pos_eq hash]
    exact congrArg _ (Function.update_of_ne hnot.1 _ _)

theorem txsRun_ownPos {c : BlockCall} {txs : List CTransaction} {nTxPos : Nat} {l l' : Ledger}
    (run : c.TxsRun txs nTxPos l l') (hnodup : (txHashes c.env txs).Nodup) {i : Nat}
    {tx : CTransaction} (htx : txs[i]? = some tx) :
    (l'.db.tx (tx.getHash c.env)).map CTxIndex.pos =
      some (c.posOf (nTxPos + ((txs.take i).map CTransaction.getSerializeSize).sum)) := by
  induction run generalizing i with
  | nil nTxPos l => cases htx
  | @cons tx' rest nTxPos l l' t e fee head tail ih =>
    obtain ⟨hnot, hrest⟩ := List.nodup_cons.mp hnodup
    cases i with
    | zero =>
      obtain rfl : tx' = tx := Option.some.inj htx
      rw [txsRun_otherPos tail hnot, BlockCall.after_own]
      rfl
    | succ i =>
      rw [ih hrest htx]
      simp only [List.take_succ_cons, List.map_cons, List.sum_cons, Nat.add_assoc]

theorem connectBlock_pos {c : BlockCall} {b : CBlock} {s s' : ChainState}
    (h : exec (c.connectBlock b) s = (.ok (), s')) {i : Nat} {tx : CTransaction}
    (htx : b.vtx[i]? = some tx) :
    ∃ txindex, s'.dbset.tx (tx.getHash c.env) = some txindex ∧
      txindex.pos = c.posOf (c.txPos b (b.vtx.take i)) := by
  obtain ⟨l, hdone⟩ := BlockCall.connectBlock_ok h
  have hpos := txsRun_ownPos hdone.run (CBlock.checkBlock_nodup hdone.check) htx
  rw [hdone.db, writePrevIndex_tx]
  exact Option.map_eq_some_iff.mp hpos

def CBlock.bytesBefore (b : CBlock) (i : Nat) : List UInt8 :=
  b.toCBlockHeader.serialize ++ writeAuxPow serDisk b.nVersion b.auxpow ++
    writeCompactSize b.vtx.length ++ (b.vtx.take i).flatMap CTransaction.serialize

theorem CBlock.bytesBefore_length (b : CBlock) (i : Nat) :
    (b.bytesBefore i).length = b.headerSize + getSizeOfCompactSize b.vtx.length +
      ((b.vtx.take i).map CTransaction.getSerializeSize).sum := by
  simp only [bytesBefore, List.length_append, CBlockHeader.serialize_length, writeAuxPow_length,
    writeCompactSize_length, List.length_flatMap, CTransaction.serialize_length, headerSize]

theorem CBlock.serialize_zero (b : CBlock) :
    b.serialize serDisk = b.bytesBefore 0 ++ b.vtx.flatMap CTransaction.serialize := by
  have hfull : headerOnly serDisk = false := by decide
  simp only [serialize, serBlock, bytesBefore, hfull, Bool.false_eq_true, if_false, serVector,
    List.take_zero, List.flatMap_nil, List.append_nil, List.append_assoc]

theorem CBlock.serialize_split {b : CBlock} {i : Nat} {tx : CTransaction}
    (htx : b.vtx[i]? = some tx) : b.bytesBefore i ++ tx.serialize <+: b.serialize serDisk := by
  obtain ⟨hi, hget⟩ := List.getElem?_eq_some_iff.mp htx
  have hvtx : b.vtx = b.vtx.take i ++ tx :: b.vtx.drop (i + 1) := by
    rw [← hget, List.getElem_cons_drop, List.take_append_drop]
  have hmany : b.vtx.flatMap CTransaction.serialize =
      (b.vtx.take i).flatMap CTransaction.serialize ++
        (tx.serialize ++ (b.vtx.drop (i + 1)).flatMap CTransaction.serialize) := by
    conv_lhs => rw [hvtx]
    rw [List.flatMap_append, List.flatMap_cons]
  refine ⟨(b.vtx.drop (i + 1)).flatMap CTransaction.serialize, ?_⟩
  rw [serialize_zero, hmany]
  simp only [bytesBefore, List.take_zero, List.flatMap_nil, List.append_nil, List.append_assoc]

theorem CBlock.checkBlock_size {env : Env} {nNow : Int} {b : CBlock} {nHeight : Nat} {u : Unit}
    (h : b.checkBlock env nNow nHeight = .ok u) : b.getSerializeSize ≤ maxBlockSize := by
  simp only [checkBlock, Except.bind_eq_ok, Except.raiseIf_eq_ok] at h
  obtain ⟨-, hsize, -⟩ := h
  omega

theorem CBlock.size_of_mem {b : CBlock} {tx : CTransaction} (htx : tx ∈ b.vtx) :
    tx.getSerializeSize ≤ b.getSerializeSize := by
  have hle := size_le_sum_sizes CTransaction.getSerializeSize htx
  unfold getSerializeSize
  omega

theorem readTx_of_placed {files : BlockFiles} {nFile nTxPos : Nat} {tx : CTransaction}
    (hfits : tx.Fits) (h : tx.serialize <+: (files nFile).bytes.drop nTxPos) :
    files.disk.readTx nFile nTxPos = some tx := by
  obtain ⟨rest, hrest⟩ := h
  simp only [BlockFiles.disk, ← hrest, CTransaction.reads hfits rest, Option.map_some]

theorem writeToDisk_bytes {env : Env} {files files' : BlockFiles} {fuel n : Nat} {b : CBlock}
    {w : BlockWrite} (hwrite : b.writeToDisk env files fuel n = some w)
    (hlater : Relation.ReflTransGen (Written env) w.files files') :
    b.serialize serDisk <+: (files' w.nFileRet).bytes.drop w.nBlockPosRet := by
  obtain ⟨-, -, pre, hused, -, hpos⟩ := writeToDisk_used hwrite
  have hgrows := grows_of_run hlater w.nFileRet
  rw [hused] at hgrows
  have hstored : (files' w.nFileRet).used <+: (files' w.nFileRet).bytes :=
    List.take_prefix _ _
  obtain ⟨rest, hrest⟩ := hgrows.trans hstored
  rw [← hrest, ← hpos, List.append_assoc, List.drop_left]
  exact List.prefix_append _ _

theorem disk_positions {c : BlockCall} {b : CBlock} {s s' : ChainState}
    {files files' : BlockFiles} {fuel n : Nat} {w : BlockWrite}
    (hrange : ∀ tx ∈ b.vtx, tx.InRange)
    (hwrite : b.writeToDisk c.env files fuel n = some w)
    (hfile : c.pindex.pindex.nFile = w.nFileRet)
    (hblock : c.pindex.pindex.nBlockPos = w.nBlockPosRet)
    (hconnect : exec (c.connectBlock b) s = (.ok (), s'))
    (hlater : Relation.ReflTransGen (Written c.env) w.files files') {i : Nat} {tx : CTransaction}
    (htx : b.vtx[i]? = some tx) :
    ∃ txindex, s'.dbset.tx (tx.getHash c.env) = some txindex ∧
      txindex.pos = ⟨w.nFileRet, w.nBlockPosRet, w.nBlockPosRet + (b.bytesBefore i).length⟩ ∧
      b.bytesBefore i ++ tx.serialize <+: b.serialize serDisk ∧
      tx.serialize <+: (files' w.nFileRet).bytes.drop txindex.pos.nTxPos ∧
      files'.disk.readFromDisk txindex.pos = some tx := by
  obtain ⟨txindex, hindex, hpos⟩ := connectBlock_pos hconnect htx
  have hat : txindex.pos =
      ⟨w.nFileRet, w.nBlockPosRet, w.nBlockPosRet + (b.bytesBefore i).length⟩ := by
    rw [hpos, BlockCall.posOf, BlockCall.txPos, BlockCall.firstTxPos, hfile, hblock,
      b.bytesBefore_length]
    simp only [Nat.add_assoc]
  have hmem : tx ∈ b.vtx := List.mem_of_getElem? htx
  have hfits : tx.Fits := by
    have hcheck := CBlock.checkBlock_size (BlockCall.connectBlock_txs hconnect).1
    have hle := CBlock.size_of_mem hmem
    have hmax : maxBlockSize ≤ maxSize := by decide
    exact (hrange tx hmem).fits (by omega)
  have hplaced : tx.serialize <+: (files' w.nFileRet).bytes.drop txindex.pos.nTxPos := by
    obtain ⟨rest, hrest⟩ := (CBlock.serialize_split htx).trans (writeToDisk_bytes hwrite hlater)
    rw [hat, ← List.drop_drop, ← hrest, List.append_assoc, List.drop_left]
    exact List.prefix_append _ _
  refine ⟨txindex, hindex, hat, CBlock.serialize_split htx, hplaced, ?_⟩
  rw [hat] at hplaced ⊢
  rw [Disk.readFromDisk, if_neg (writeToDisk_used hwrite).1]
  exact readTx_of_placed hfits hplaced

def storedFiles : BlockFiles := fun _ => ⟨List.replicate 2000 0, 2000, List.length_replicate.ge⟩

def storedPrev : CTransaction := sampleTx 1 [(2, 0)] [(cent, [83]), (cent, [84, 85])]

def storedOldBlock : CBlock := sampleBlock 0 [sampleCoinbase 0, storedPrev]

def storedSpend : CTransaction :=
  sampleTx 1 [(storedPrev.getHash sampleEnv, 0), (storedPrev.getHash sampleEnv, 1)] [(cent, [81])]

def storedWork (hashAuxBlock : Uint256) : CAuxPow :=
  let aux := (serHash hashAuxBlock).reverse ++ leBytes 4 1 ++ leBytes 4 0
  let coinbase : CTransaction :=
    ⟨1, [⟨COutPoint.null, pchMergedMiningHeader ++ aux, uintMax⟩], [⟨coin, []⟩], 0⟩
  .mk ⟨coinbase, 0, [], 0⟩ [] 0 ⟨1, 0, coinbase.getHash sampleEnv, 1, 0x1d00ffff, 0⟩ [] none

def storedBlock : CBlock :=
  let b := sampleBlock 1 [sampleCoinbase 1, storedSpend]
  let header : CBlockHeader := { b.toCBlockHeader with nVersion := 65793 }
  ⟨header, b.vtx, some (storedWork (header.getHash sampleEnv))⟩

def storedNode : ChainNode where
  walk := [sampleIndex 8 150000 storedOldBlock]
  disk := Disk.empty.writeToDisk 1 8 storedOldBlock
  state :=
    let t : TxMap := Function.update (fun _ => none) (storedPrev.getHash sampleEnv)
      (some (CTxIndex.make (samplePos 8 storedOldBlock 1) 2))
    ⟨⟨t, fun _ => none, fun _ => none, none⟩, fun _ => ∅, sampleWallet⟩

theorem storedBlock_inRange : ∀ tx ∈ storedBlock.vtx, tx.InRange := by
  have hcoinbase : (sampleCoinbase 1).InRange := by
    refine ⟨by decide, fun txin hin => ?_, fun txout hout => ?_, by decide⟩
    · rw [List.mem_singleton.mp hin]
      exact ⟨by decide, by decide⟩
    · rw [List.mem_singleton.mp hout]
      decide
  have hspend : storedSpend.InRange := by
    refine ⟨by decide, fun txin hin => ?_, fun txout hout => ?_, by decide⟩
    · obtain ⟨p, hp, rfl⟩ := List.mem_map.mp hin
      rcases List.mem_pair.mp hp with rfl | rfl
      · exact ⟨by decide, by decide⟩
      · exact ⟨by decide, by decide⟩
    · rw [List.mem_singleton.mp hout]
      decide
  intro tx htx
  rcases List.mem_pair.mp htx with rfl | rfl
  · exact hcoinbase
  · exact hspend

-- The block lies behind an earlier one, spends two of its outputs and carries its auxpow; a later
-- block follows it in the same file.
theorem storedBlock_positions :
    ∃ first w later, storedOldBlock.writeToDisk sampleEnv storedFiles 1 1 = some first ∧
      storedBlock.writeToDisk sampleEnv first.files 1 1 = some w ∧
      (sampleBlock 2 [sampleCoinbase 2]).writeToDisk sampleEnv w.files 1 1 = some later ∧
      ∃ txindex, (exec ((sampleCall storedNode 234 storedBlock).connectBlock storedBlock)
          storedNode.state).2.dbset.tx (storedSpend.getHash sampleEnv) = some txindex ∧
        txindex.pos = ⟨1, 234, 606⟩ ∧
        later.files.disk.readFromDisk txindex.pos = some storedSpend := by
  have hplace : (do
      let first ← storedOldBlock.writeToDisk sampleEnv storedFiles 1 1
      let w ← storedBlock.writeToDisk sampleEnv first.files 1 1
      let later ← (sampleBlock 2 [sampleCoinbase 2]).writeToDisk sampleEnv w.files 1 1
      pure (w.nFileRet, w.nBlockPosRet, later.nFileRet)) = some (1, 234, 1) := by decide +kernel
  obtain ⟨first, hfirst, hplace⟩ := Option.bind_eq_some_iff.mp hplace
  obtain ⟨w, hwrite, hplace⟩ := Option.bind_eq_some_iff.mp hplace
  obtain ⟨later, hlater, hplace⟩ := Option.bind_eq_some_iff.mp hplace
  have hret := Option.some.inj hplace
  have hok : (exec ((sampleCall storedNode 234 storedBlock).connectBlock storedBlock)
      storedNode.state).1 = .ok () := by decide +kernel
  have hrange := storedBlock_inRange
  have hcall : (sampleCall storedNode 234 storedBlock).env = sampleEnv := rfl
  have hpindex : (sampleCall storedNode 234 storedBlock).pindex.pindex.nFile = 1 ∧
      (sampleCall storedNode 234 storedBlock).pindex.pindex.nBlockPos = 234 := ⟨rfl, rfl⟩
  have htx : storedBlock.vtx[1]? = some storedSpend := rfl
  have hat : 234 + (storedBlock.bytesBefore 1).length = 606 := by decide +kernel
  have hexec := exec_eta hok
  generalize sampleCall storedNode 234 storedBlock = c at *
  have hwrite' := hwrite
  rw [← hcall] at hwrite' ⊢
  have hfile : w.nFileRet = 1 := congrArg Prod.fst hret
  have hblock : w.nBlockPosRet = 234 := congrArg (fun p => p.2.1) hret
  have hafter : Written c.env w.files later.files := hcall ▸ .write hlater
  obtain ⟨txindex, hindex, hpos, -, -, hread⟩ := disk_positions hrange hwrite'
    (hpindex.1.trans hfile.symm) (hpindex.2.trans hblock.symm) hexec (.single hafter) htx
  refine ⟨first, w, later, hcall ▸ hfirst, hwrite', hcall ▸ hlater, txindex, hindex, ?_, hread⟩
  rw [hpos, hfile, hblock, hat]

end Namecoin
