import Namecoin.Data.Codec

namespace Namecoin

open Reading

def UIntFits (w n : Nat) : Prop := n < 2 ^ w

def IntFits (w : Nat) (n : Int) : Prop := -2 ^ (w - 1) ≤ n ∧ n < 2 ^ (w - 1)

instance (w n : Nat) : Decidable (UIntFits w n) := inferInstanceAs (Decidable (n < 2 ^ w))

instance (w : Nat) (n : Int) : Decidable (IntFits w n) :=
  inferInstanceAs (Decidable (-2 ^ (w - 1) ≤ n ∧ n < 2 ^ (w - 1)))

structure CTxIn.Fits (txin : CTxIn) : Prop where
  n : UIntFits 32 txin.prevout.n
  scriptSig : txin.scriptSig.length ≤ maxSize
  nSequence : UIntFits 32 txin.nSequence

structure CTxOut.Fits (txout : CTxOut) : Prop where
  nValue : IntFits 64 txout.nValue
  scriptPubKey : txout.scriptPubKey.length ≤ maxSize

structure CTransaction.Fits (tx : CTransaction) : Prop where
  nVersion : IntFits 32 tx.nVersion
  vin_length : tx.vin.length ≤ maxSize
  vin : ∀ txin ∈ tx.vin, txin.Fits
  vout_length : tx.vout.length ≤ maxSize
  vout : ∀ txout ∈ tx.vout, txout.Fits
  nLockTime : UIntFits 32 tx.nLockTime

structure CMerkleTx.Fits (m : CMerkleTx) : Prop where
  tx : m.tx.Fits
  vMerkleBranch : m.vMerkleBranch.length ≤ maxSize
  nIndex : IntFits 32 m.nIndex

structure CBlockHeader.Fits (b : CBlockHeader) : Prop where
  nVersion : IntFits 32 b.nVersion
  nTime : UIntFits 32 b.nTime
  nBits : UIntFits 32 b.nBits
  nNonce : UIntFits 32 b.nNonce

structure VtxFits (vtx : List CTransaction) : Prop where
  length : vtx.length ≤ maxSize
  fits : ∀ tx ∈ vtx, tx.Fits

mutual

def CAuxPow.Fits : CAuxPow → Prop
  | .mk m branch nChainIndex header vtx parent =>
    m.Fits ∧ branch.length ≤ maxSize ∧ IntFits 32 nChainIndex ∧ header.Fits ∧ VtxFits vtx ∧
      AuxPowFits header.nVersion parent

def AuxPowFits (nVersion : Int) : Option CAuxPow → Prop
  | none => hasAuxPowVersion nVersion = false
  | some a => hasAuxPowVersion nVersion = true ∧ a.Fits

end

structure CBlock.Fits (b : CBlock) : Prop where
  header : b.toCBlockHeader.Fits
  vtx : VtxFits b.vtx
  auxpow : AuxPowFits b.nVersion b.auxpow

mutual

def CAuxPow.reduced : CAuxPow → CAuxPow
  | .mk m branch nChainIndex header _ parent =>
    .mk m branch nChainIndex header [] (reducedAuxPow parent)

def reducedAuxPow : Option CAuxPow → Option CAuxPow
  | none => none
  | some a => some a.reduced

end

def CBlock.reduced (nType : Nat) (b : CBlock) : CBlock :=
  ⟨b.toCBlockHeader, if headerOnly nType then [] else b.vtx, reducedAuxPow b.auxpow⟩

def nSerSize (n : Nat) : UInt32 := UInt32.ofNat n

theorem writeCompactSize_length (n : Nat) :
    (writeCompactSize n).length = getSizeOfCompactSize n := by
  unfold writeCompactSize getSizeOfCompactSize
  split
  · simp
  · split
    · simp
    · split <;> simp

theorem serVector_length {α : Type} (f : α → List UInt8) (g : α → Nat)
    (h : ∀ x, (f x).length = g x) (v : List α) :
    (serVector f v).length = getSizeOfCompactSize v.length + (v.map g).sum := by
  simp [serVector, writeCompactSize_length, List.length_flatMap, h]

theorem serInt_length (k : Nat) (n : Int) : (serInt k n).length = k := leBytes_length k _

theorem CTxIn.serialize_length (txin : CTxIn) :
    txin.serialize.length = txin.getSerializeSize := by
  simp only [CTxIn.serialize, CTxIn.getSerializeSize, serBytes, sizeBytes, List.length_append,
    serHash_length, leBytes_length, writeCompactSize_length]

theorem CTxOut.serialize_length (txout : CTxOut) :
    txout.serialize.length = txout.getSerializeSize := by
  simp only [CTxOut.serialize, CTxOut.getSerializeSize, serBytes, sizeBytes, List.length_append,
    serInt_length, writeCompactSize_length]

theorem CTransaction.serialize_eq (tx : CTransaction) :
    tx.serialize = serInt 4 tx.nVersion ++ (serVector CTxIn.serialize tx.vin ++
      (serVector CTxOut.serialize tx.vout ++ leBytes 4 tx.nLockTime)) := by
  simp only [CTransaction.serialize, serVector, List.append_assoc]

theorem CTransaction.serialize_length (tx : CTransaction) :
    tx.serialize.length = tx.getSerializeSize := by
  rw [CTransaction.serialize_eq, CTransaction.getSerializeSize]
  simp only [List.length_append, serInt_length, leBytes_length,
    serVector_length _ _ CTxIn.serialize_length, serVector_length _ _ CTxOut.serialize_length]
  omega

theorem serHashes_length (v : List Uint256) :
    (serVector serHash v).length = getSizeOfCompactSize v.length + 32 * v.length := by
  rw [serVector_length serHash (fun _ => 32) serHash_length]
  simp [Nat.mul_comm]

theorem CMerkleTx.serialize_length (m : CMerkleTx) :
    m.serialize.length = m.getSerializeSize := by
  simp only [CMerkleTx.serialize, CMerkleTx.getSerializeSize, List.length_append,
    CTransaction.serialize_length, serHash_length, serHashes_length, serInt_length]

theorem CBlockHeader.serialize_length (b : CBlockHeader) : b.serialize.length = 80 := by
  simp only [CBlockHeader.serialize, List.length_append, serInt_length, serHash_length,
    leBytes_length]

theorem headerOnly_or (nType : Nat) : headerOnly (nType ||| serBlockHeaderOnly) = true := by
  have hbit : (nType ||| serBlockHeaderOnly) &&& serBlockHeaderOnly = serBlockHeaderOnly := by
    apply Nat.eq_of_testBit_eq
    intro i
    simp only [Nat.testBit_and, Nat.testBit_or]
    cases serBlockHeaderOnly.testBit i <;> simp
  rw [headerOnly, hbit]
  decide

theorem serBlock_parent (nType : Nat) (header : CBlockHeader) (auxpow : List UInt8)
    (vtx : List CTransaction) :
    serBlock (nType ||| serBlockHeaderOnly) header auxpow vtx = header.serialize ++ auxpow := by
  rw [serBlock, headerOnly_or, if_pos rfl, List.append_nil]

mutual

theorem CAuxPow.serialize_length : ∀ (a : CAuxPow) (nType : Nat),
    (a.serialize nType).length = a.getSerializeSize
  | .mk m branch nChainIndex header vtx parent, nType => by
    simp only [CAuxPow.serialize, CAuxPow.getSerializeSize, serBlock_parent, List.length_append,
      CMerkleTx.serialize_length, serHashes_length, serInt_length, CBlockHeader.serialize_length,
      writeAuxPow_length parent]

theorem writeAuxPow_length : ∀ (auxpow : Option CAuxPow) (nType : Nat) (nVersion : Int),
    (writeAuxPow nType nVersion auxpow).length = auxPowSize nVersion auxpow
  | none, _, _ => rfl
  | some a, nType, nVersion => by
    simp only [writeAuxPow, auxPowSize]
    split
    · exact CAuxPow.serialize_length a nType
    · rfl

end

theorem CBlock.serialize_length (nType : Nat) (b : CBlock) :
    (b.serialize nType).length = b.serializeSize nType := by
  simp only [CBlock.serialize, serBlock, CBlock.serializeSize, CBlock.getSerializeSize,
    CBlock.headerSize, List.length_append, CBlockHeader.serialize_length, writeAuxPow_length]
  split
  · rfl
  · rw [serVector_length _ _ CTransaction.serialize_length]

theorem reads_uint {k n : Nat} (h : n < 256 ^ k) : Reads (readUInt k) (leBytes k n) n := by
  have hraw := reads_raw (leBytes k n)
  rw [leBytes_length] at hraw
  refine hraw.last ?_
  rw [leNat_leBytes_of_lt h]
  exact Reads.pure n

theorem toSigned_emod {k : Nat} {n : Int} (hk : 0 < k) (h : IntFits (8 * k) n) :
    toSigned k (n % (256 ^ k : Nat)).toNat = n := by
  obtain ⟨hlow, hhigh⟩ := h
  have hdouble : 256 ^ k = 2 * 2 ^ (8 * k - 1) := by
    rw [← pow_succ', Nat.sub_add_cancel (by omega), pow_mul]
    rfl
  have hcast : ((256 : Int) ^ k) = 2 * 2 ^ (8 * k - 1) := by exact_mod_cast hdouble
  have hhalf : ((2 : Int) ^ (8 * k - 1)) = ((2 ^ (8 * k - 1) : Nat) : Int) := by norm_cast
  rw [toSigned, hcast, hdouble]
  rw [hhalf] at hlow hhigh ⊢
  generalize 2 ^ (8 * k - 1) = half at hlow hhigh ⊢
  by_cases hneg : n < 0
  · have hmod : n % ((2 * half : Nat) : Int) = n + 2 * half := by
      rw [← Int.add_emod_right, Int.emod_eq_of_lt (by omega) (by omega)]
      push_cast
      rfl
    rw [hmod, if_neg (by omega)]
    omega
  · rw [Int.emod_eq_of_lt (by omega) (by omega), if_pos (by omega)]
    omega

theorem reads_int {k : Nat} {n : Int} (hk : 0 < k) (h : IntFits (8 * k) n) :
    Reads (readInt k) (serInt k n) n := by
  have hraw := reads_raw (serInt k n)
  rw [serInt_length] at hraw
  refine hraw.last ?_
  have hlt : (n % (256 ^ k : Nat)).toNat < 256 ^ k := by
    have hpos : 0 < 256 ^ k := Nat.pow_pos (by decide)
    have h := Int.emod_lt_of_pos n (Int.natCast_pos.mpr hpos)
    omega
  rw [serInt, leNat_leBytes_of_lt hlt, toSigned_emod hk h]
  exact Reads.pure n

theorem reads_hash (h : Uint256) : Reads readHash (serHash h) h := by
  have hraw := reads_raw (serHash h)
  rw [serHash_length] at hraw
  refine hraw.last ?_
  rw [leNat_serHash, BitVec.ofNat_toNat, BitVec.setWidth_eq]
  exact Reads.pure h

def readWideSize : Reader UInt8 Nat := do
  let m ← readUInt 1
  readLongSize m

theorem reads_mark {m n : Nat} {bytes : List UInt8} (hm : m < 256)
    (h : Reads (readLongSize m) bytes n) : Reads readWideSize (UInt8.ofNat m :: bytes) n := by
  have hmark : Reads (readUInt 1) (leBytes 1 m) m := reads_uint (by omega)
  have hbyte : leBytes 1 m = [UInt8.ofNat m] := by
    simp [leBytes, Nat.mod_eq_of_lt hm]
  rw [hbyte] at hmark
  exact hmark.bind h

theorem reads_wideSize {n : Nat} (h : n < 2 ^ 64) : Reads readWideSize (writeCompactSize n) n := by
  unfold writeCompactSize
  split
  · next hbyte =>
    have hbytes : leBytes 1 n = [UInt8.ofNat n] := by
      simp [leBytes, Nat.mod_eq_of_lt (by omega : n < 256)]
    rw [hbytes]
    refine reads_mark (by omega) ?_
    rw [readLongSize, if_pos hbyte]
    exact Reads.pure n
  · split
    · exact reads_mark (m := 253) (by decide) (reads_uint (by omega : n < 256 ^ 2))
    · split
      · exact reads_mark (m := 254) (by decide) (reads_uint (by omega : n < 256 ^ 4))
      · exact reads_mark (m := 255) (by decide) (reads_uint (by omega : n < 256 ^ 8))

theorem readCompactSize_eq :
    readCompactSize = readWideSize >>= fun n => if maxSize < n then fail else pure n := by
  simp only [readCompactSize, readWideSize, bind_assoc]

theorem reads_compactSize {n : Nat} (h : n ≤ maxSize) :
    Reads readCompactSize (writeCompactSize n) n := by
  have hmax : maxSize = 33554432 := rfl
  rw [readCompactSize_eq]
  refine (reads_wideSize (by omega)).last ?_
  rw [if_neg (by omega)]
  exact Reads.pure n

theorem readCompactSize_long {n : Nat} (h : maxSize < n) (hn : n < 2 ^ 64) (rest : List UInt8) :
    readCompactSize (writeCompactSize n ++ rest) = none := by
  rw [readCompactSize_eq]
  change (readWideSize (writeCompactSize n ++ rest)).bind _ = none
  rw [reads_wideSize hn rest]
  exact congrFun (if_pos h) rest

theorem reads_bytes {b : List UInt8} (h : b.length ≤ maxSize) : Reads readBytes (serBytes b) b :=
  (reads_compactSize h).bind (reads_raw b)

theorem serBytes_inj {a b r r' : List UInt8} (ha : a.length ≤ maxSize) (hb : b.length ≤ maxSize)
    (h : serBytes a ++ r = serBytes b ++ r') : a = b ∧ r = r' := by
  have hread := reads_bytes ha r
  rw [h, reads_bytes hb r'] at hread
  cases hread
  exact ⟨rfl, rfl⟩

theorem reads_vector {α : Type} {p : Reader UInt8 α} {f : α → List UInt8} {v : List α}
    (hlen : v.length ≤ maxSize) (h : ∀ x ∈ v, Reads p (f x) x) :
    Reads (readVector p) (serVector f v) v :=
  (reads_compactSize hlen).bind (reads_many h)

theorem readVector_long {α : Type} (p : Reader UInt8 α) {f : α → List UInt8} {v : List α}
    (hlen : maxSize < v.length) (h64 : v.length < 2 ^ 64) (rest : List UInt8) :
    readVector p (serVector f v ++ rest) = none := by
  rw [serVector, List.append_assoc, readVector]
  change (readCompactSize (writeCompactSize v.length ++ _)).bind _ = none
  rw [readCompactSize_long hlen h64]
  rfl

theorem CTxIn.reads {txin : CTxIn} (h : txin.Fits) :
    Reads CTxIn.unserialize txin.serialize txin := by
  simp only [CTxIn.serialize, List.append_assoc]
  exact (reads_hash _).bind <| (reads_uint h.n).bind <| (reads_bytes h.scriptSig).bind <|
    (reads_uint h.nSequence).last (Reads.pure txin)

theorem CTxOut.reads {txout : CTxOut} (h : txout.Fits) :
    Reads CTxOut.unserialize txout.serialize txout := by
  exact (reads_int (by decide) h.nValue).bind <|
    (reads_bytes h.scriptPubKey).last (Reads.pure txout)

theorem CTransaction.reads {tx : CTransaction} (h : tx.Fits) :
    Reads CTransaction.unserialize tx.serialize tx := by
  rw [CTransaction.serialize_eq]
  exact (reads_int (by decide) h.nVersion).bind <|
    (reads_vector h.vin_length fun txin hin => CTxIn.reads (h.vin txin hin)).bind <|
    (reads_vector h.vout_length fun txout hout => CTxOut.reads (h.vout txout hout)).bind <|
    (reads_uint h.nLockTime).last (Reads.pure tx)

theorem CMerkleTx.reads {m : CMerkleTx} (h : m.Fits) :
    Reads CMerkleTx.unserialize m.serialize m := by
  simp only [CMerkleTx.serialize, List.append_assoc]
  exact (CTransaction.reads h.tx).bind <| (reads_hash _).bind <|
    (reads_vector h.vMerkleBranch fun x _ => reads_hash x).bind <|
    (reads_int (by decide) h.nIndex).last (Reads.pure m)

theorem CBlockHeader.reads {b : CBlockHeader} (h : b.Fits) :
    Reads CBlockHeader.unserialize b.serialize b := by
  simp only [CBlockHeader.serialize, List.append_assoc]
  exact (reads_int (by decide) h.nVersion).bind <| (reads_hash _).bind <| (reads_hash _).bind <|
    (reads_uint h.nTime).bind <| (reads_uint h.nBits).bind <|
    (reads_uint h.nNonce).last (Reads.pure b)

theorem readVtx_reads {nType : Nat} {vtx : List CTransaction} (h : VtxFits vtx) :
    Reads (readVtx nType) (if headerOnly nType then [] else serVector CTransaction.serialize vtx)
      (if headerOnly nType then [] else vtx) := by
  unfold readVtx
  split
  · exact Reads.pure []
  · exact reads_vector h.length fun tx htx => CTransaction.reads (h.fits tx htx)

theorem readBlock_reads {readAux : Reader UInt8 CAuxPow} {nType : Nat} {header : CBlockHeader}
    {bytes : List UInt8} {auxpow : Option CAuxPow} {vtx : List CTransaction}
    (hheader : header.Fits) (haux : Reads (readAuxPow readAux header.nVersion) bytes auxpow)
    (hvtx : VtxFits vtx) :
    Reads (readBlock readAux nType) (serBlock nType header bytes vtx)
      ⟨header, if headerOnly nType then [] else vtx, auxpow⟩ := by
  rw [serBlock, List.append_assoc]
  exact (CBlockHeader.reads hheader).bind <| haux.bind <|
    (readVtx_reads hvtx).last (Reads.pure _)

mutual

theorem CAuxPow.reads : ∀ (a : CAuxPow) (nType fuel : Nat), a.Fits →
    (a.serialize nType).length < fuel →
    Reads (CAuxPow.unserializeFuel fuel nType) (a.serialize nType) a.reduced
  | .mk m branch nChainIndex header vtx parent, nType, fuel, h, hfuel => by
    obtain ⟨fuel, rfl⟩ : ∃ f, fuel = f + 1 := ⟨fuel - 1, by omega⟩
    simp only [CAuxPow.Fits] at h
    obtain ⟨hm, hbranch, hindex, hheader, hvtx, hparent⟩ := h
    simp only [CAuxPow.serialize] at hfuel ⊢
    have hshort : (writeAuxPow (nType ||| serBlockHeaderOnly) header.nVersion parent).length <
        fuel := by
      rw [serBlock_parent] at hfuel
      simp only [List.length_append, CBlockHeader.serialize_length] at hfuel
      omega
    have haux := writeAuxPow_reads parent (nType ||| serBlockHeaderOnly) fuel _ hparent hshort
    have hblock := @readBlock_reads _ (nType ||| serBlockHeaderOnly) _ _ _ _ hheader haux hvtx
    rw [headerOnly_or, if_pos rfl] at hblock
    rw [List.append_assoc, List.append_assoc]
    exact (CMerkleTx.reads hm).bind <| (reads_vector hbranch fun x _ => reads_hash x).bind <|
      (reads_int (by decide) hindex).bind <| hblock.last (Reads.pure _)

theorem writeAuxPow_reads : ∀ (auxpow : Option CAuxPow) (nType fuel : Nat) (nVersion : Int),
    AuxPowFits nVersion auxpow → (writeAuxPow nType nVersion auxpow).length < fuel →
    Reads (readAuxPow (CAuxPow.unserializeFuel fuel nType) nVersion)
      (writeAuxPow nType nVersion auxpow) (reducedAuxPow auxpow)
  | none, nType, fuel, nVersion, h, _ => by
    simp only [AuxPowFits] at h
    simp only [readAuxPow, h, writeAuxPow, reducedAuxPow]
    exact Reads.pure none
  | some a, nType, fuel, nVersion, h, hfuel => by
    simp only [AuxPowFits] at h
    simp only [writeAuxPow, h.1, if_true] at hfuel ⊢
    simp only [readAuxPow, h.1, if_true, reducedAuxPow]
    exact (CAuxPow.reads a nType fuel h.2 hfuel).map some

end

theorem CBlock.reads {b : CBlock} (h : b.Fits) (nType : Nat) :
    Reads (CBlock.unserialize nType) (b.serialize nType) (b.reduced nType) := by
  intro rest
  have hlen : (writeAuxPow nType b.nVersion b.auxpow).length <
      (b.serialize nType ++ rest).length + 1 := by
    simp only [CBlock.serialize, serBlock, List.length_append]
    omega
  exact readBlock_reads h.header (writeAuxPow_reads b.auxpow nType _ _ h.auxpow hlen) h.vtx rest

theorem nSerSize_toNat (n : Nat) : (nSerSize n).toNat = n % 2 ^ 32 := rfl

theorem serialization_lossless (nType : Nat) :
    (∀ tx : CTransaction, tx.Fits →
      (nSerSize tx.getSerializeSize).toNat = tx.serialize.length % 2 ^ 32 ∧
        ∀ rest, CTransaction.unserialize (tx.serialize ++ rest) = some (tx, rest)) ∧
    (∀ b : CBlock, b.Fits →
      (nSerSize (b.serializeSize nType)).toNat = (b.serialize nType).length % 2 ^ 32 ∧
        ∀ rest, CBlock.unserialize nType (b.serialize nType ++ rest) =
          some (b.reduced nType, rest)) ∧
    (∀ a : CAuxPow, a.Fits →
      (nSerSize a.getSerializeSize).toNat = (a.serialize nType).length % 2 ^ 32 ∧
        ∀ rest, CAuxPow.unserialize nType (a.serialize nType ++ rest) =
          some (a.reduced, rest)) := by
  refine ⟨fun tx h => ⟨?_, CTransaction.reads h⟩, fun b h => ⟨?_, CBlock.reads h nType⟩,
    fun a h => ⟨?_, fun rest => ?_⟩⟩
  · rw [nSerSize_toNat, CTransaction.serialize_length]
  · rw [nSerSize_toNat, CBlock.serialize_length]
  · rw [nSerSize_toNat, CAuxPow.serialize_length]
  · have hlen : (a.serialize nType).length < (a.serialize nType ++ rest).length + 1 := by
      simp only [List.length_append]
      omega
    exact CAuxPow.reads a nType _ h hlen rest

def codedTx (nIn : Nat) (script : CScript) : CTransaction :=
  ⟨1, List.replicate nIn ⟨COutPoint.null, script, uintMax⟩, [⟨coin, [0x51]⟩], 0⟩

theorem codedTx_fits {nIn : Nat} {script : CScript} (hin : nIn ≤ maxSize)
    (hscript : script.length ≤ maxSize) : (codedTx nIn script).Fits where
  nVersion := (by decide : IntFits 32 1)
  vin_length := by rwa [codedTx, List.length_replicate]
  vin txin h := by
    rw [List.eq_of_mem_replicate h]
    exact ⟨(by decide : UIntFits 32 uintMax), hscript, (by decide : UIntFits 32 uintMax)⟩
  vout_length := (by decide : 1 ≤ maxSize)
  vout txout h := by
    rw [List.mem_singleton.mp h]
    exact ⟨by decide, by decide⟩
  nLockTime := (by decide : UIntFits 32 0)

def codedHeader (nVersion : Int) : CBlockHeader := ⟨nVersion, 0, 0, 1, 0x1d00ffff, 7⟩

theorem codedHeader_fits {nVersion : Int} (h : IntFits 32 nVersion) :
    (codedHeader nVersion).Fits :=
  ⟨h, (by decide : UIntFits 32 1), (by decide : UIntFits 32 0x1d00ffff), (by decide : UIntFits 32 7)⟩

def codedVtx : List CTransaction := [codedTx 1 [1, 2]]

theorem codedVtx_fits : VtxFits codedVtx where
  length := by decide
  fits tx h := by
    rw [List.mem_singleton.mp h]
    exact codedTx_fits (by decide) (by decide)

def codedWork (nVersion : Int) (parent : Option CAuxPow) : CAuxPow :=
  .mk ⟨codedTx 1 [1, 2], 0, [5], -1⟩ [3, 4] 2 (codedHeader nVersion) codedVtx parent

theorem codedWork_fits {nVersion : Int} {parent : Option CAuxPow} (h : IntFits 32 nVersion)
    (hparent : AuxPowFits nVersion parent) : (codedWork nVersion parent).Fits :=
  ⟨⟨codedTx_fits (by decide) (by decide), by decide, by decide⟩, by decide, by decide,
    codedHeader_fits h, codedVtx_fits, hparent⟩

def codedBlock : CBlock :=
  ⟨codedHeader 0x10101, codedVtx, some (codedWork 0x100 (some (codedWork 1 none)))⟩

theorem codedBlock_fits : codedBlock.Fits where
  header := codedHeader_fits (by decide)
  vtx := codedVtx_fits
  auxpow := ⟨by decide, codedWork_fits (by decide) ⟨by decide, codedWork_fits (by decide) rfl⟩⟩

theorem codedBlock_lossless :
    CBlock.unserialize serDisk (codedBlock.serialize serDisk ++ [1]) =
      some (codedBlock.reduced serDisk, [1]) :=
  ((serialization_lossless serDisk).2.1 codedBlock codedBlock_fits).2 [1]

theorem codedTx_size (nIn : Nat) (script : CScript) :
    (codedTx nIn script).getSerializeSize =
      4 + (getSizeOfCompactSize nIn + nIn * (40 + sizeBytes script)) + 11 + 4 := by
  have hin : CTxIn.getSerializeSize ⟨COutPoint.null, script, uintMax⟩ =
      40 + sizeBytes script := by
    simp only [CTxIn.getSerializeSize]
    omega
  simp only [CTransaction.getSerializeSize, codedTx, List.length_replicate, List.map_replicate,
    List.sum_replicate, hin, smul_eq_mul]
  rfl

theorem wideTx_size :
    (codedTx 128 (List.replicate maxSize 0)).getSerializeSize = 2 ^ 32 + 5780 := by
  have hscript : sizeBytes (List.replicate maxSize 0) = 5 + maxSize := by
    rw [sizeBytes, List.length_replicate]
    rfl
  rw [codedTx_size, hscript]
  decide

theorem lossless_not_exact :
    ¬ (∀ b : CBlock, b.Fits → ∀ rest,
        CBlock.unserialize serBlockHeaderOnly (b.serialize serBlockHeaderOnly ++ rest) =
          some (b.reduced serNetwork, rest)) ∧
      ¬ (∀ tx : CTransaction, tx.Fits →
        (nSerSize tx.getSerializeSize).toNat = tx.serialize.length) := by
  constructor
  · intro h
    have hread := (CBlock.reads codedBlock_fits serBlockHeaderOnly []).symm.trans
      (h codedBlock codedBlock_fits [])
    have hvtx := congrArg (fun r => r.map fun p => p.1.vtx) hread
    cases hvtx
  · intro h
    have hsize := h (codedTx 128 (List.replicate maxSize 0))
      (codedTx_fits (by decide) (by rw [List.length_replicate]))
    rw [CTransaction.serialize_length, wideTx_size] at hsize
    cases hsize

end Namecoin
