import Namecoin.Lib.Shortest
import Namecoin.Node.MissingInputs

namespace Namecoin

open Reading

section Coded

theorem uses_readUInt (k : Nat) : Uses (readUInt k) fun n used =>
    used = leBytes k n ∧ n < 256 ^ k := by
  refine ((uses_raw k).bind fun b => uses_pure (leNat b)).mono ?_
  rintro n used ⟨b, u, u', rfl, ⟨rfl, hlen⟩, rfl, rfl⟩
  have hlt := leNat_lt b
  rw [List.append_nil, leBytes_leNat hlen]
  rw [hlen] at hlt
  exact ⟨rfl, hlt⟩

theorem serInt_toSigned {k n : Nat} (hk : 0 < k) (h : n < 256 ^ k) :
    serInt k (toSigned k n) = leBytes k n ∧ IntFits (8 * k) (toSigned k n) := by
  have hdouble : 256 ^ k = 2 * 2 ^ (8 * k - 1) := by
    rw [← pow_succ', Nat.sub_add_cancel (by omega), pow_mul]
    rfl
  have hcast : ((256 : Int) ^ k) = ((256 ^ k : Nat) : Int) := by norm_cast
  have hhalf : ((2 : Int) ^ (8 * k - 1)) = ((2 ^ (8 * k - 1) : Nat) : Int) := by norm_cast
  rw [serInt, toSigned, IntFits, hcast, hhalf, hdouble]
  rw [hdouble] at h
  generalize 2 ^ (8 * k - 1) = half at h
  split
  · next hlow =>
    rw [Int.emod_eq_of_lt (by omega) (by omega)]
    exact ⟨by rw [Int.toNat_natCast], by omega, by omega⟩
  · next hhigh =>
    have hmod : ((n : Int) - ((2 * half : Nat) : Int)) % ((2 * half : Nat) : Int) = n := by
      rw [Int.sub_emod_right, Int.emod_eq_of_lt (by omega) (by omega)]
    rw [hmod, Int.toNat_natCast]
    exact ⟨rfl, by omega, by omega⟩

theorem coded_int {k : Nat} (hk : 0 < k) : Coded (readInt k) (serInt k) (IntFits (8 * k)) := by
  refine ((uses_raw k).bind fun b => uses_pure (toSigned k (leNat b))).mono ?_
  rintro n used ⟨b, u, u', rfl, ⟨rfl, hlen⟩, rfl, rfl⟩
  have hlt := leNat_lt b
  rw [hlen] at hlt
  obtain ⟨hser, hfits⟩ := serInt_toSigned hk hlt
  rw [List.append_nil, hser, leBytes_leNat hlen]
  exact ⟨tight_refl b, hfits⟩

theorem coded_uint (k : Nat) : Coded (readUInt k) (leBytes k) (fun n => n < 256 ^ k) := by
  refine (uses_readUInt k).mono ?_
  rintro n used ⟨rfl, hlt⟩
  exact ⟨tight_refl _, hlt⟩

theorem coded_hash : Coded readHash serHash (fun _ => True) := by
  refine ((uses_raw 32).bind fun b => uses_pure (BitVec.ofNat 256 (leNat b))).mono ?_
  rintro h used ⟨b, u, u', rfl, ⟨rfl, hlen⟩, rfl, rfl⟩
  have hlt := leNat_lt b
  rw [hlen, show 256 ^ 32 = 2 ^ 256 from rfl] at hlt
  have hnat : (BitVec.ofNat 256 (leNat b)).toNat = leNat b := by
    rw [BitVec.toNat_ofNat, Nat.mod_eq_of_lt hlt]
  rw [List.append_nil, serHash, hnat, leBytes_leNat hlen]
  exact ⟨tight_refl b, trivial⟩

theorem leBytes_one {n : Nat} (h : n < 256) : leBytes 1 n = [UInt8.ofNat n] := by
  simp [leBytes, Nat.mod_eq_of_lt h]

theorem tight_compactSize {chSize n : Nat} {used : List UInt8} (hch : chSize < 256)
    (hread : (chSize < 253 ∧ n = chSize ∧ used = []) ∨
      (chSize = 253 ∧ n < 256 ^ 2 ∧ used = leBytes 2 n) ∨
      (chSize = 254 ∧ n < 256 ^ 4 ∧ used = leBytes 4 n) ∨
      (chSize = 255 ∧ used.length = 8)) (hn : n ≤ maxSize) :
    Tight (writeCompactSize n) (leBytes 1 chSize ++ used) := by
  have hmax : maxSize = 33554432 := rfl
  have hsize := writeCompactSize_length n
  rw [leBytes_one hch]
  rcases hread with ⟨hsmall, rfl, rfl⟩ | ⟨rfl, hlt, rfl⟩ | ⟨rfl, hlt, rfl⟩ | ⟨rfl, hlen⟩
  · rw [writeCompactSize, if_pos hsmall, leBytes_one hch]
    exact tight_refl _
  · by_cases hshort : n < 253
    · refine tight_of_lt ?_
      rw [hsize, getSizeOfCompactSize, if_pos hshort, List.length_append, leBytes_length]
      decide
    · rw [writeCompactSize, if_neg hshort, if_pos (by omega)]
      exact tight_refl _
  · by_cases hshort : n ≤ 0xffff
    · refine tight_of_lt ?_
      rw [hsize, getSizeOfCompactSize, List.length_append, leBytes_length]
      rw [if_pos hshort]
      split
      · decide
      · decide
    · rw [writeCompactSize, if_neg (by omega), if_neg hshort, if_pos (by omega)]
      exact tight_refl _
  · refine tight_of_lt ?_
    rw [hsize, getSizeOfCompactSize, List.length_append, hlen, if_pos (by omega : n ≤ 0xffffffff)]
    split
    · decide
    · split
      · decide
      · decide

theorem uses_longSize {chSize : Nat} (hch : chSize < 256) :
    Uses (readLongSize chSize) fun n used => (chSize < 253 ∧ n = chSize ∧ used = []) ∨
      (chSize = 253 ∧ n < 256 ^ 2 ∧ used = leBytes 2 n) ∨
      (chSize = 254 ∧ n < 256 ^ 4 ∧ used = leBytes 4 n) ∨
      (chSize = 255 ∧ used.length = 8) := by
  unfold readLongSize
  split
  · next hsmall =>
    exact (uses_pure chSize).mono fun n used h => .inl ⟨hsmall, h.1, h.2⟩
  · split
    · next h253 =>
      exact (uses_readUInt 2).mono fun n used h => .inr (.inl ⟨h253, h.2, h.1⟩)
    · split
      · next h254 =>
        exact (uses_readUInt 4).mono fun n used h => .inr (.inr (.inl ⟨h254, h.2, h.1⟩))
      · next h252 h253 h254 =>
        refine (uses_readUInt 8).mono fun n used h => .inr (.inr (.inr ⟨by omega, ?_⟩))
        rw [h.1, leBytes_length]

theorem coded_compactSize : Coded readCompactSize writeCompactSize (fun n => n ≤ maxSize) := by
  intro b n rest hrun
  obtain ⟨chSize, rest₁, hmark, hrun⟩ := bind_some.mp hrun
  obtain ⟨m, rest₂, hlong, h⟩ := bind_some.mp hrun
  obtain ⟨u, rfl, rfl, hch⟩ := uses_readUInt 1 b chSize rest₁ hmark
  obtain ⟨u', rfl, hu'⟩ := uses_longSize hch rest₁ m rest₂ hlong
  split at h
  · cases h
  · next hn =>
    cases h
    exact ⟨leBytes 1 chSize ++ u', (List.append_assoc _ _ _).symm,
      tight_compactSize hch hu' (Nat.not_lt.mp hn), Nat.not_lt.mp hn⟩

theorem coded_bytes : Coded readBytes serBytes (fun b => b.length ≤ maxSize) := by
  refine (coded_compactSize.bind fun n => uses_raw n).mono ?_
  rintro b used ⟨n, u, u', rfl, ⟨htight, hn⟩, rfl, rfl⟩
  exact ⟨htight.append (tight_refl b), hn⟩

theorem coded_vector {α : Type} {p : Reader UInt8 α} {f : α → List UInt8} {P : α → Prop}
    (hp : Coded p f P) : Coded (readVector p) (serVector f)
      (fun v => v.length ≤ maxSize ∧ ∀ x ∈ v, P x) := by
  refine (coded_compactSize.bind fun n => coded_many hp n).mono ?_
  rintro v used ⟨n, u, u', rfl, ⟨htight, hn⟩, rfl, hmany, hall⟩
  exact ⟨htight.append hmany, hn, hall⟩

theorem CTxIn.coded : Coded CTxIn.unserialize CTxIn.serialize CTxIn.Fits := by
  refine (coded_hash.bind fun hash => (coded_uint 4).bind fun n => coded_bytes.bind fun scriptSig =>
    (coded_uint 4).bind fun nSequence => uses_pure (⟨⟨hash, n⟩, scriptSig, nSequence⟩ : CTxIn)).mono ?_
  rintro txin used ⟨hash, u, r, rfl, ⟨hhash, -⟩, n, u₁, r₁, rfl, ⟨hn, hnFits⟩, scriptSig, u₂, r₂, rfl,
    ⟨hscript, hscriptFits⟩, nSequence, u₃, r₃, rfl, ⟨hseq, hseqFits⟩, rfl, rfl⟩
  refine ⟨?_, hnFits, hscriptFits, hseqFits⟩
  rw [CTxIn.serialize, List.append_assoc, List.append_assoc, List.append_nil]
  exact hhash.append (hn.append (hscript.append hseq))

theorem CTxOut.coded : Coded CTxOut.unserialize CTxOut.serialize CTxOut.Fits := by
  refine ((coded_int (by decide : 0 < 8)).bind fun nValue => coded_bytes.bind fun scriptPubKey =>
    uses_pure (⟨nValue, scriptPubKey⟩ : CTxOut)).mono ?_
  rintro txout used ⟨nValue, u, r, rfl, ⟨hvalue, hvalueFits⟩, scriptPubKey, u₁, r₁, rfl,
    ⟨hscript, hscriptFits⟩, rfl, rfl⟩
  refine ⟨?_, hvalueFits, hscriptFits⟩
  rw [List.append_nil]
  exact hvalue.append hscript

theorem CTransaction.coded :
    Coded CTransaction.unserialize CTransaction.serialize CTransaction.Fits := by
  refine ((coded_int (by decide : 0 < 4)).bind fun nVersion => (coded_vector CTxIn.coded).bind fun vin =>
    (coded_vector CTxOut.coded).bind fun vout => (coded_uint 4).bind fun nLockTime =>
      uses_pure (⟨nVersion, vin, vout, nLockTime⟩ : CTransaction)).mono ?_
  rintro tx used ⟨nVersion, u, r, rfl, ⟨hversion, hversionFits⟩, vin, u₁, r₁, rfl,
    ⟨hvin, hvinLength, hvinFits⟩, vout, u₂, r₂, rfl, ⟨hvout, hvoutLength, hvoutFits⟩, nLockTime, u₃,
    r₃, rfl, ⟨hlock, hlockFits⟩, rfl, rfl⟩
  refine ⟨?_, hversionFits, hvinLength, hvinFits, hvoutLength, hvoutFits, hlockFits⟩
  rw [CTransaction.serialize_eq, List.append_nil]
  exact hversion.append (hvin.append (hvout.append hlock))

end Coded

section Message

variable {vRecv : List UInt8} {tx : CTransaction}

theorem readTx_ok : readTx vRecv = .ok tx ↔ ∃ rest, CTransaction.unserialize vRecv = some (tx, rest) := by
  unfold readTx
  cases h : CTransaction.unserialize vRecv with
  | none => simp
  | some r =>
    obtain ⟨x, rest⟩ := r
    simp

theorem truncation_keeps_tx_iff (hread : readTx vRecv = .ok tx) :
    readTx (vRecv.take tx.getSerializeSize) = .ok tx ↔ tx.serialize <+: vRecv := by
  obtain ⟨rest, hrun⟩ := readTx_ok.mp hread
  rw [readTx_ok, ← CTransaction.coded.take_iff (fun a ha => CTransaction.reads ha) hrun,
    CTransaction.serialize_length, Option.map_eq_some_iff]
  constructor
  · rintro ⟨r, hr⟩
    exact ⟨(tx, r), hr, rfl⟩
  · rintro ⟨⟨x, r⟩, hr, rfl⟩
    exact ⟨r, hr⟩

theorem truncation_keeps_sample :
    readTx (((spendFund 1).serialize ++ [7]).take (spendFund 1).getSerializeSize) =
      .ok (spendFund 1) := by
  have hread : readTx ((spendFund 1).serialize ++ [7]) = .ok (spendFund 1) := by decide +kernel
  exact (truncation_keeps_tx_iff hread).mpr ⟨[7], rfl⟩

def widePayload : List UInt8 :=
  leBytes 4 1 ++ [253, 1, 0] ++ ((spendFund 1).serialize.drop 5)

theorem truncation_loses_tx :
    readTx widePayload = .ok (spendFund 1) ∧
      readTx (widePayload.take (spendFund 1).getSerializeSize) ≠ .ok (spendFund 1) := by
  decide +kernel

end Message

end Namecoin
