import Namecoin.Data.RoundTrip
import Namecoin.Lib.Separated
import Namecoin.Script.StackLeft

namespace Namecoin

open Reading

structure CTxIn.InMemory (txin : CTxIn) : Prop where
  n : UIntFits 32 txin.prevout.n
  nSequence : UIntFits 32 txin.nSequence

structure CTxOut.InMemory (txout : CTxOut) : Prop where
  nValue : IntFits 64 txout.nValue
  scriptPubKey : txout.scriptPubKey.length < 2 ^ 64

-- The values a CTransaction in memory can hold; no list is as long as the code's longest.
structure CTransaction.InMemory (tx : CTransaction) : Prop where
  nVersion : IntFits 32 tx.nVersion
  vin : ∀ txin ∈ tx.vin, txin.InMemory
  vin_length : tx.vin.length < 2 ^ 64
  vout : ∀ txout ∈ tx.vout, txout.InMemory
  vout_length : tx.vout.length < 2 ^ 64
  nLockTime : UIntFits 32 tx.nLockTime

section Separated

theorem compactSize_separated : Separated writeCompactSize (fun n => n < 2 ^ 64) :=
  Separated.of_reads (fun _ h => reads_wideSize h)

theorem uint_separated (k : Nat) : Separated (leBytes k) (fun n => n < 256 ^ k) :=
  Separated.of_reads (fun _ h => reads_uint h)

theorem int_separated {k : Nat} (hk : 0 < k) : Separated (serInt k) (IntFits (8 * k)) :=
  Separated.of_reads (fun _ h => reads_int hk h)

theorem hash_separated : Separated serHash (fun _ => True) :=
  Separated.of_reads (P := fun _ => True) (fun h _ => reads_hash h)

theorem compactSize_zero {n : Nat} {r r' : List UInt8}
    (h : writeCompactSize 0 ++ r = writeCompactSize n ++ r') : n = 0 := by
  have hzero : writeCompactSize 0 = [0] := by decide
  rw [hzero] at h
  unfold writeCompactSize at h
  split at h
  · next hbyte =>
    rw [leBytes, leBytes, List.cons_append, List.cons_append, List.cons.injEq] at h
    have hnat := congrArg UInt8.toNat h.1
    rw [UInt8.toNat_ofNat'] at hnat
    simp only [UInt8.toNat_zero] at hnat
    omega
  · split at h
    · exact absurd (List.cons.inj h).1 (by decide)
    · split at h
      · exact absurd (List.cons.inj h).1 (by decide)
      · exact absurd (List.cons.inj h).1 (by decide)

theorem bytes_separated : Separated serBytes (fun b => b.length < 2 ^ 64) := by
  intro a b r r' ha hb h
  rw [serBytes, serBytes, List.append_assoc, List.append_assoc] at h
  obtain ⟨hlen, hrest⟩ := compactSize_separated ha hb h
  exact List.append_inj hrest hlen

theorem CTxOut.separated : Separated CTxOut.serialize CTxOut.InMemory := by
  intro a b r r' ha hb h
  rw [CTxOut.serialize, CTxOut.serialize, List.append_assoc, List.append_assoc] at h
  obtain ⟨hvalue, hafter⟩ := int_separated (by decide) ha.nValue hb.nValue h
  obtain ⟨hscript, hrest⟩ := bytes_separated ha.scriptPubKey hb.scriptPubKey hafter
  exact ⟨congrArg₂ CTxOut.mk hvalue hscript, hrest⟩

-- A blanked input carries no script or the one that is signed.
theorem CTxIn.separated (scriptCode : CScript) :
    Separated CTxIn.serialize
      (fun txin => txin.InMemory ∧ (txin.scriptSig = [] ∨ txin.scriptSig = scriptCode)) := by
  intro a b r r' ⟨ha, hcode⟩ ⟨hb, hcode'⟩ h
  simp only [CTxIn.serialize, List.append_assoc] at h
  obtain ⟨hhash, htail⟩ := hash_separated trivial trivial h
  obtain ⟨hn, hafter⟩ := uint_separated 4 ha.n hb.n htail
  have hscript : a.scriptSig = b.scriptSig := by
    rcases hcode with hempty | hcode
    · rcases hcode' with hempty' | hcode'
      · rw [hempty, hempty']
      · simp only [serBytes, hempty, List.append_assoc, List.length_nil] at hafter
        rw [hempty, List.length_eq_zero_iff.mp (compactSize_zero hafter)]
    · rcases hcode' with hempty' | hcode'
      · simp only [serBytes, hempty', List.append_assoc, List.length_nil] at hafter
        rw [hempty', List.length_eq_zero_iff.mp (compactSize_zero hafter.symm)]
      · rw [hcode, hcode']
  rw [hscript] at hafter
  obtain ⟨hseq, hrest⟩ :=
    uint_separated 4 ha.nSequence hb.nSequence (List.append_cancel_left hafter)
  obtain ⟨⟨hash, n⟩, script, seq⟩ := a
  obtain ⟨⟨hash', n'⟩, script', seq'⟩ := b
  dsimp only at hhash hn hscript hseq
  subst hhash hn hscript hseq
  exact ⟨rfl, hrest⟩

end Separated

def anyoneCanPay (nHashType : Nat) : Prop := nHashType / sighashAnyonecanpay % 2 = 1

def signsNone (nHashType : Nat) : Prop := nHashType % 32 = sighashNone

def signsSingle (nHashType : Nat) : Prop := nHashType % 32 = sighashSingle

instance (nHashType : Nat) : Decidable (anyoneCanPay nHashType) :=
  inferInstanceAs (Decidable (nHashType / sighashAnyonecanpay % 2 = 1))

instance (nHashType : Nat) : Decidable (signsNone nHashType) :=
  inferInstanceAs (Decidable (nHashType % 32 = sighashNone))

instance (nHashType : Nat) : Decidable (signsSingle nHashType) :=
  inferInstanceAs (Decidable (nHashType % 32 = sighashSingle))

def CTxIn.signedPart (txin : CTxIn) : COutPoint × Nat := (txin.prevout, txin.nSequence)

structure SignedAlike (nIn nHashType : Nat) (tx tx' : CTransaction) : Prop where
  nVersion : tx.nVersion = tx'.nVersion
  nLockTime : tx.nLockTime = tx'.nLockTime
  signedInput : tx.vin[nIn]?.map CTxIn.signedPart = tx'.vin[nIn]?.map CTxIn.signedPart
  prevouts : ¬anyoneCanPay nHashType → tx.vin.map CTxIn.prevout = tx'.vin.map CTxIn.prevout
  sequences : ¬anyoneCanPay nHashType → ¬signsNone nHashType → ¬signsSingle nHashType →
    tx.vin.map CTxIn.nSequence = tx'.vin.map CTxIn.nSequence
  outputs : ¬signsNone nHashType → ¬signsSingle nHashType → tx.vout = tx'.vout
  output : signsSingle nHashType → tx.vout[nIn]? = tx'.vout[nIn]?

section Signed

variable (scriptCode : CScript) (nIn nHashType : Nat)

def signedIn (i : Nat) (txin : CTxIn) : CTxIn where
  prevout := txin.prevout
  scriptSig := if i = nIn then findAndDelete scriptCode (ops [opCodeseparator]) else []
  nSequence :=
    if i ≠ nIn ∧ (signsNone nHashType ∨ signsSingle nHashType) then 0 else txin.nSequence

def signedVin (vin : List CTxIn) : List CTxIn :=
  if anyoneCanPay nHashType then (vin[nIn]?.map (signedIn scriptCode nIn nHashType nIn)).toList
  else vin.mapIdx (signedIn scriptCode nIn nHashType)

def signedVout (vout : List CTxOut) : List CTxOut :=
  if signsNone nHashType then []
  else if signsSingle nHashType then List.replicate nIn CTxOut.null ++ vout[nIn]?.toList
  else vout

def signedBytes (tx : CTransaction) : List UInt8 :=
  CTransaction.serialize ⟨tx.nVersion, signedVin scriptCode nIn nHashType tx.vin,
    signedVout nIn nHashType tx.vout, tx.nLockTime⟩ ++ leBytes 4 nHashType

theorem signedIn_kept (h : ¬(signsNone nHashType ∨ signsSingle nHashType)) :
    signedIn scriptCode nIn nHashType = fun i txin => { txin with
      scriptSig := if i = nIn then findAndDelete scriptCode (ops [opCodeseparator]) else [] } := by
  funext i txin
  have hkept : ¬(i ≠ nIn ∧ (signsNone nHashType ∨ signsSingle nHashType)) := fun hblank => h hblank.2
  simp only [signedIn, if_neg hkept]

theorem signedIn_blanked (h : signsNone nHashType ∨ signsSingle nHashType) (vin : List CTxIn) :
    blankSequences nIn (vin.mapIdx fun i txin => { txin with
      scriptSig := if i = nIn then findAndDelete scriptCode (ops [opCodeseparator]) else [] }) =
      vin.mapIdx (signedIn scriptCode nIn nHashType) := by
  rw [blankSequences, List.mapIdx_mapIdx]
  congr 1
  funext i txin
  rw [Function.comp_apply, signedIn]
  by_cases hi : i = nIn
  · rw [if_pos hi, if_pos hi, if_neg (fun hblank => hblank.1 hi)]
  · rw [if_neg hi, if_neg hi, if_pos ⟨hi, h⟩]

theorem signatureHash_eq (env : Env) {tx : CTransaction} (hin : nIn < tx.vin.length)
    (hout : signsSingle nHashType → nIn < tx.vout.length) :
    signatureHash env scriptCode tx nIn nHashType =
      env.hash (signedBytes scriptCode nIn nHashType tx) := by
  have hvin : ∀ vin : List CTxIn, vin = tx.vin.mapIdx (signedIn scriptCode nIn nHashType) →
      (if nHashType / sighashAnyonecanpay % 2 = 1 then vin[nIn]?.toList else vin) =
        signedVin scriptCode nIn nHashType tx.vin := by
    rintro vin rfl
    unfold signedVin anyoneCanPay
    rw [List.getElem?_mapIdx]
    rfl
  unfold signatureHash blankOutputs signedBytes signedVout
  rw [if_pos hin]
  dsimp only
  by_cases hnone : nHashType % 32 = sighashNone
  · rw [if_pos hnone, if_pos (show signsNone nHashType from hnone)]
    dsimp only
    rw [hvin _ (signedIn_blanked scriptCode nIn nHashType (Or.inl hnone) tx.vin)]
  · rw [if_neg hnone, if_neg (show ¬signsNone nHashType from hnone)]
    by_cases hsingle : nHashType % 32 = sighashSingle
    · rw [if_pos hsingle, if_pos (show signsSingle nHashType from hsingle),
        List.getElem?_eq_getElem (hout hsingle)]
      dsimp only
      rw [hvin _ (signedIn_blanked scriptCode nIn nHashType (Or.inr hsingle) tx.vin)]
      rfl
    · have hkept : ¬(signsNone nHashType ∨ signsSingle nHashType) :=
        fun h => h.elim hnone hsingle
      rw [if_neg hsingle, if_neg (show ¬signsSingle nHashType from hsingle)]
      dsimp only
      rw [hvin _ (by rw [signedIn_kept scriptCode nIn nHashType hkept])]

theorem signedVin_items {vin : List CTxIn} (h : ∀ txin ∈ vin, txin.InMemory) :
    ∀ txin ∈ signedVin scriptCode nIn nHashType vin, txin.InMemory ∧ (txin.scriptSig = [] ∨
      txin.scriptSig = findAndDelete scriptCode (ops [opCodeseparator])) := by
  have hsigned : ∀ i, ∀ txin ∈ vin, (signedIn scriptCode nIn nHashType i txin).InMemory ∧
      ((signedIn scriptCode nIn nHashType i txin).scriptSig = [] ∨
        (signedIn scriptCode nIn nHashType i txin).scriptSig =
          findAndDelete scriptCode (ops [opCodeseparator])) := by
    intro i txin hmem
    refine ⟨⟨(h txin hmem).n, ?_⟩, ?_⟩
    · rw [signedIn]
      dsimp only
      split
      · exact Nat.two_pow_pos 32
      · exact (h txin hmem).nSequence
    · rw [signedIn]
      dsimp only
      split
      · exact Or.inr rfl
      · exact Or.inl rfl
  intro txin hmem
  unfold signedVin at hmem
  split at hmem
  · obtain ⟨txin', hget, rfl⟩ := Option.map_eq_some_iff.mp (Option.mem_toList.mp hmem)
    exact hsigned nIn txin' (List.mem_of_getElem? hget)
  · obtain ⟨i, hi, rfl⟩ := List.mem_mapIdx.mp hmem
    exact hsigned i _ (List.getElem_mem hi)

theorem signedVin_length {vin : List CTxIn} (hin : nIn < vin.length) :
    (signedVin scriptCode nIn nHashType vin).length ≤ vin.length := by
  unfold signedVin
  split
  · rw [List.getElem?_eq_getElem hin]
    exact Nat.succ_le_of_lt (Nat.zero_lt_of_lt hin)
  · rw [List.length_mapIdx]

theorem signedVout_items {vout : List CTxOut} (h : ∀ txout ∈ vout, txout.InMemory) :
    ∀ txout ∈ signedVout nIn nHashType vout, txout.InMemory := by
  intro txout hmem
  unfold signedVout at hmem
  split at hmem
  · cases hmem
  · split at hmem
    · rcases List.mem_append.mp hmem with hnull | hout
      · rw [List.eq_of_mem_replicate hnull]
        exact ⟨by decide, by decide⟩
      · exact h txout (List.mem_of_getElem? (Option.mem_toList.mp hout))
    · exact h txout hmem

theorem signedVout_length {vout : List CTxOut} (hout : signsSingle nHashType → nIn < vout.length) :
    (signedVout nIn nHashType vout).length ≤ vout.length := by
  unfold signedVout
  split
  · exact Nat.zero_le _
  · split
    · next hsingle =>
      rw [List.getElem?_eq_getElem (hout hsingle), List.length_append, List.length_replicate]
      exact hout hsingle
    · exact le_rfl

variable {scriptCode nIn nHashType} {tx tx' : CTransaction}

theorem signedBytes_inj (h : tx.InMemory) (h' : tx'.InMemory) (hin : nIn < tx.vin.length)
    (hin' : nIn < tx'.vin.length) (hout : signsSingle nHashType → nIn < tx.vout.length)
    (hout' : signsSingle nHashType → nIn < tx'.vout.length) :
    signedBytes scriptCode nIn nHashType tx = signedBytes scriptCode nIn nHashType tx' ↔
      tx.nVersion = tx'.nVersion ∧ tx.nLockTime = tx'.nLockTime ∧
      signedVin scriptCode nIn nHashType tx.vin = signedVin scriptCode nIn nHashType tx'.vin ∧
      signedVout nIn nHashType tx.vout = signedVout nIn nHashType tx'.vout := by
  constructor
  · intro heq
    simp only [signedBytes, CTransaction.serialize, List.append_assoc] at heq
    obtain ⟨hversion, heq⟩ := int_separated (by decide) h.nVersion h'.nVersion heq
    obtain ⟨hvin, heq⟩ := Separated.vector (CTxIn.separated _) compactSize_separated
      (signedVin_items scriptCode nIn nHashType h.vin)
      (signedVin_items scriptCode nIn nHashType h'.vin)
      ((signedVin_length scriptCode nIn nHashType hin).trans_lt h.vin_length)
      ((signedVin_length scriptCode nIn nHashType hin').trans_lt h'.vin_length) heq
    obtain ⟨hvout, heq⟩ := Separated.vector CTxOut.separated compactSize_separated
      (signedVout_items nIn nHashType h.vout) (signedVout_items nIn nHashType h'.vout)
      ((signedVout_length nIn nHashType hout).trans_lt h.vout_length)
      ((signedVout_length nIn nHashType hout').trans_lt h'.vout_length) heq
    obtain ⟨hlock, -⟩ := uint_separated 4 h.nLockTime h'.nLockTime heq
    exact ⟨hversion, hlock, hvin, hvout⟩
  · rintro ⟨hversion, hlock, hvin, hvout⟩
    rw [signedBytes, signedBytes, hversion, hlock, hvin, hvout]

theorem signedIn_iff {i : Nat} {a b : CTxIn} :
    signedIn scriptCode nIn nHashType i a = signedIn scriptCode nIn nHashType i b ↔
      a.prevout = b.prevout ∧
        (i = nIn ∨ ¬signsNone nHashType ∧ ¬signsSingle nHashType → a.nSequence = b.nSequence) := by
  rw [signedIn, signedIn, CTxIn.mk.injEq]
  by_cases hblank : i ≠ nIn ∧ (signsNone nHashType ∨ signsSingle nHashType)
  · rw [if_pos hblank, if_pos hblank]
    tauto
  · rw [if_neg hblank, if_neg hblank]
    tauto

theorem signedIn_map_iff {i : Nat} {a b : Option CTxIn} :
    a.map (signedIn scriptCode nIn nHashType i) = b.map (signedIn scriptCode nIn nHashType i) ↔
      a.map CTxIn.prevout = b.map CTxIn.prevout ∧
        (i = nIn ∨ ¬signsNone nHashType ∧ ¬signsSingle nHashType →
          a.map CTxIn.nSequence = b.map CTxIn.nSequence) := by
  cases a with
  | none => cases b <;> simp
  | some a =>
    cases b with
    | none => simp
    | some b => simp only [Option.map_some, Option.some.injEq, signedIn_iff]

theorem signedPart_map_iff {a b : Option CTxIn} :
    a.map CTxIn.signedPart = b.map CTxIn.signedPart ↔
      a.map CTxIn.prevout = b.map CTxIn.prevout ∧
        a.map CTxIn.nSequence = b.map CTxIn.nSequence := by
  cases a with
  | none => cases b <;> simp
  | some a =>
    cases b with
    | none => simp
    | some b => simp only [Option.map_some, Option.some.injEq, CTxIn.signedPart, Prod.mk.injEq]

theorem map_eq_iff_getElem? {α β : Type} {f : α → β} {l l' : List α} :
    l.map f = l'.map f ↔ ∀ i : Nat, l[i]?.map f = l'[i]?.map f := by
  rw [List.ext_getElem?_iff]
  simp only [List.getElem?_map]

theorem option_toList_inj {α : Type} {a b : Option α} : a.toList = b.toList ↔ a = b := by
  cases a with
  | none => cases b <;> simp
  | some a => cases b <;> simp

theorem signedVin_one {vin vin' : List CTxIn} (hany : anyoneCanPay nHashType) :
    signedVin scriptCode nIn nHashType vin = signedVin scriptCode nIn nHashType vin' ↔
      vin[nIn]?.map CTxIn.signedPart = vin'[nIn]?.map CTxIn.signedPart := by
  rw [signedVin, signedVin, if_pos hany, if_pos hany, option_toList_inj, signedIn_map_iff,
    signedPart_map_iff]
  tauto

theorem signedVin_all {vin vin' : List CTxIn} (hany : ¬anyoneCanPay nHashType) :
    signedVin scriptCode nIn nHashType vin = signedVin scriptCode nIn nHashType vin' ↔
      vin[nIn]?.map CTxIn.signedPart = vin'[nIn]?.map CTxIn.signedPart ∧
      vin.map CTxIn.prevout = vin'.map CTxIn.prevout ∧
      (¬signsNone nHashType → ¬signsSingle nHashType →
        vin.map CTxIn.nSequence = vin'.map CTxIn.nSequence) := by
  rw [signedVin, signedVin, if_neg hany, if_neg hany, List.ext_getElem?_iff]
  simp only [List.getElem?_mapIdx, signedIn_map_iff, signedPart_map_iff, map_eq_iff_getElem?]
  constructor
  · intro h
    exact ⟨⟨(h nIn).1, (h nIn).2 (Or.inl rfl)⟩, fun i => (h i).1,
      fun hnone hsingle i => (h i).2 (Or.inr ⟨hnone, hsingle⟩)⟩
  · rintro ⟨⟨-, hseq⟩, hprev, hall⟩ i
    refine ⟨hprev i, ?_⟩
    rintro (rfl | ⟨hnone, hsingle⟩)
    · exact hseq
    · exact hall hnone hsingle i

theorem signedVout_iff {vout vout' : List CTxOut} :
    signedVout nIn nHashType vout = signedVout nIn nHashType vout' ↔
      (¬signsNone nHashType → ¬signsSingle nHashType → vout = vout') ∧
      (signsSingle nHashType → vout[nIn]? = vout'[nIn]?) := by
  unfold signedVout
  by_cases hnone : signsNone nHashType
  · have hsingle : ¬signsSingle nHashType := by
      unfold signsNone signsSingle at *
      rw [hnone]
      decide
    rw [if_pos hnone, if_pos hnone]
    tauto
  · rw [if_neg hnone, if_neg hnone]
    by_cases hsingle : signsSingle nHashType
    · rw [if_pos hsingle, if_pos hsingle, List.append_cancel_left_eq, option_toList_inj]
      tauto
    · rw [if_neg hsingle, if_neg hsingle]
      tauto

end Signed

-- A hash to 32 bytes has collisions; what is asked is that the two byte strings hashed are not one.
theorem signatureHash_commits (env : Env) (scriptCode : CScript) (tx tx' : CTransaction)
    (nIn nHashType : Nat) (h : tx.InMemory) (h' : tx'.InMemory) (hin : nIn < tx.vin.length)
    (hin' : nIn < tx'.vin.length)
    (hout : signsSingle nHashType → nIn < tx.vout.length ∧ nIn < tx'.vout.length)
    (hhash : Set.InjOn env.hash
      {signedBytes scriptCode nIn nHashType tx, signedBytes scriptCode nIn nHashType tx'}) :
    (signatureHash env scriptCode tx nIn nHashType = signatureHash env scriptCode tx' nIn nHashType ↔
      SignedAlike nIn nHashType tx tx') ∧
    signatureHash env scriptCode tx.unsigned nIn nHashType =
      signatureHash env scriptCode tx nIn nHashType := by
  refine ⟨?_, signatureHash_unsigned env scriptCode tx nIn nHashType⟩
  rw [signatureHash_eq scriptCode nIn nHashType env hin (fun hs => (hout hs).1),
    signatureHash_eq scriptCode nIn nHashType env hin' (fun hs => (hout hs).2),
    hhash.eq_iff (Or.inl rfl) (Or.inr rfl),
    signedBytes_inj h h' hin hin' (fun hs => (hout hs).1) (fun hs => (hout hs).2), signedVout_iff]
  by_cases hany : anyoneCanPay nHashType
  · rw [signedVin_one hany]
    constructor
    · rintro ⟨hversion, hlock, hsigned, houts, hsingle⟩
      exact ⟨hversion, hlock, hsigned, fun hno => absurd hany hno, fun hno => absurd hany hno,
        houts, hsingle⟩
    · intro halike
      exact ⟨halike.nVersion, halike.nLockTime, halike.signedInput, halike.outputs, halike.output⟩
  · rw [signedVin_all hany]
    constructor
    · rintro ⟨hversion, hlock, ⟨hsigned, hprev, hseq⟩, houts, hsingle⟩
      exact ⟨hversion, hlock, hsigned, fun _ => hprev, fun _ => hseq, houts, hsingle⟩
    · intro halike
      exact ⟨halike.nVersion, halike.nLockTime, ⟨halike.signedInput, halike.prevouts hany,
        halike.sequences hany⟩, halike.outputs, halike.output⟩

def payTx (nValue : Int) (nSequence : Nat) : CTransaction :=
  ⟨1, [⟨⟨5, 0⟩, [9], nSequence⟩, ⟨⟨6, 1⟩, [], 2⟩], [⟨nValue, [81]⟩, ⟨7, [82]⟩], 0⟩

theorem payTx_inMemory {nValue : Int} {nSequence : Nat} (hvalue : IntFits 64 nValue)
    (hseq : UIntFits 32 nSequence) : (payTx nValue nSequence).InMemory where
  nVersion := (by decide : IntFits 32 1)
  vin := by
    intro txin hmem
    simp only [payTx, List.mem_cons, List.not_mem_nil, or_false] at hmem
    rcases hmem with rfl | rfl
    · exact ⟨(by decide : UIntFits 32 0), hseq⟩
    · exact ⟨by decide, by decide⟩
  vin_length := (by decide : 2 < 2 ^ 64)
  vout := by
    intro txout hmem
    simp only [payTx, List.mem_cons, List.not_mem_nil, or_false] at hmem
    rcases hmem with rfl | rfl
    · exact ⟨hvalue, (by decide : 1 < 2 ^ 64)⟩
    · exact ⟨by decide, by decide⟩
  vout_length := (by decide : 2 < 2 ^ 64)
  nLockTime := (by decide : UIntFits 32 0)

-- Input 1 signed with NONE leaves the outputs and the sequence of input 0 open, signed with ALL
-- it does not.
theorem payTx_commits :
    signatureHash sampleEnv [172] (payTx 3 4) 1 2 = signatureHash sampleEnv [172] (payTx 8 0) 1 2 ∧
      signatureHash sampleEnv [172] (payTx 3 4) 1 1 ≠
        signatureHash sampleEnv [172] (payTx 8 0) 1 1 := by
  have hold : (payTx 3 4).InMemory := payTx_inMemory (by decide) (by decide)
  have hnew : (payTx 8 0).InMemory := payTx_inMemory (by decide) (by decide)
  constructor
  · have hbytes : signedBytes [172] 1 2 (payTx 3 4) = signedBytes [172] 1 2 (payTx 8 0) := by
      decide +kernel
    refine ((signatureHash_commits sampleEnv [172] (payTx 3 4) (payTx 8 0) 1 2 hold hnew (by decide)
      (by decide) (fun h => absurd h (by decide)) ?_).1).mpr ?_
    · rw [hbytes, Set.pair_eq_singleton]
      exact Set.injOn_singleton _ _
    · exact ⟨rfl, rfl, rfl, fun _ => rfl, fun _ h => absurd rfl h, fun h => absurd rfl h,
        fun h => absurd h (by decide)⟩
  · have hhash : sampleEnv.hash (signedBytes [172] 1 1 (payTx 3 4)) ≠
        sampleEnv.hash (signedBytes [172] 1 1 (payTx 8 0)) := by decide +kernel
    intro heq
    have halike := ((signatureHash_commits sampleEnv [172] (payTx 3 4) (payTx 8 0) 1 1 hold hnew
      (by decide) (by decide) (fun h => absurd h (by decide))
      (Set.injOn_pair.mpr fun h => absurd h hhash)).1).mp heq
    have houts := halike.outputs (by decide) (by decide)
    exact absurd houts (by decide)

end Namecoin
