import Namecoin.Lib.Merging
import Namecoin.Net.Truncated
import Namecoin.Script.StackLeft
import Namecoin.Wallet.Coins
import Namecoin.Wallet.NameQueries

namespace Namecoin

open Reading

structure RawEnv where
  env : Env
  evp : Evp
  keys : KeyCheck
  sized : keys.Sized
  sign : VchType → Uint256 → Option VchType

structure RawSign where
  txFirst : CTransaction
  txOthers : List CTransaction
  mapPrevOut : COutPoint → Option CScript
  keystore : CKeyStore
  nHashType : Nat

def pushAll (values : List VchType) : CScript := values.flatMap pushData

def blankSigs : List VchType → Bool
  | [] => true
  | sig :: _ => sig.isEmpty

namespace RawEnv

variable (c : RawEnv)

def nullCall : EvalCall := ⟨c.env, c.keys, ⟨1, [], [], 0⟩, 0, 0⟩

def sigStack (scriptSig : CScript) : List VchType := (c.nullCall.stackLeft scriptSig).reverse

def combineSignatures (scriptSig1 scriptSig2 : CScript) : CScript :=
  if blankSigs (c.sigStack scriptSig1) then pushAll (c.sigStack scriptSig2)
  else pushAll (c.sigStack scriptSig1)

def verifyScript (tx : CTransaction) (nIn : Nat) (scriptPubKey scriptSig : CScript) : Bool :=
  (EvalCall.mk c.env c.keys tx nIn 0).verifyScript scriptSig scriptPubKey

def signature (ks : CKeyStore) (hash : Uint256) (nHashType : Nat) (vchPubKey : VchType) :
    Option VchType :=
  ((ks.getPrivKey c.env c.evp vchPubKey).bind (fun privkey => c.sign privkey hash)).map
    (fun vchSig => vchSig ++ [UInt8.ofNat nHashType])

-- What SignSignature writes to the input, whether or not it then returns true.
def signedScript (ks : CKeyStore) (fromPubKey : CScript) (txTo : CTransaction)
    (nIn nHashType : Nat) : CScript :=
  let hash := signatureHash c.env fromPubKey txTo nIn nHashType
  (ks.solve c.env (c.signature ks hash nHashType) (rawScript fromPubKey) hash).2

end RawEnv

namespace RawSign

variable (c : RawEnv) (r : RawSign)

def txVariants : List CTransaction := r.txFirst :: r.txOthers

def fHashSingle : Bool :=
  decide (r.nHashType = sighashSingle ∨ r.nHashType = sighashSingle + sighashAnyonecanpay)

def ownScript (prevPubKey : CScript) (tx : CTransaction) (i : Nat) : CScript :=
  if r.fHashSingle = false ∨ i < tx.vout.length then
    c.signedScript r.keystore prevPubKey tx i r.nHashType
  else []

def mergeVariants (i : Nat) (scriptSig : CScript) : Except Fault CScript :=
  r.txVariants.foldlM (fun scriptSig txv =>
    match txv.vin[i]? with
    | none => .error .undefined
    | some txin => .ok (c.combineSignatures scriptSig txin.scriptSig)) scriptSig

def signInput (prevPubKey : CScript) (i : Nat) (st : CTransaction × Bool) :
    Except Fault (CTransaction × Bool) := do
  let scriptSig ← mergeVariants c r i (ownScript c r prevPubKey (st.1.setScriptSig i []) i)
  let tx := st.1.setScriptSig i scriptSig
  pure (tx, st.2 && c.verifyScript tx i prevPubKey scriptSig)

def signFrom : List CTxIn → Nat → CTransaction × Bool → Except Fault (CTransaction × Bool)
  | [], _, st => .ok st
  | txin :: rest, i, st =>
    match r.mapPrevOut txin.prevout with
    | none => signFrom rest (i + 1) (st.1, false)
    | some prevPubKey => do
      let st ← signInput c r prevPubKey i st
      signFrom rest (i + 1) st

def signAll : Except Fault (CTransaction × Bool) := signFrom c r r.txFirst.vin 0 (r.txFirst, true)

end RawSign

structure PrevTx where
  txid : Uint256
  vout : Int
  scriptPubKey : CScript

structure RawParams where
  txData : List UInt8
  prevTxs : Option (List PrevTx)
  privkeys : Option (List (Option CKey))
  sighash : Option StdString

def readVariants : Nat → List UInt8 → Except Fault (List CTransaction)
  | _, [] => .ok []
  | 0, _ :: _ => .error .undefined
  | fuel + 1, b :: ssData =>
    match CTransaction.unserialize (b :: ssData) with
    | none => rpcError "TX decode failed"
    | some (tx, rest) => (readVariants fuel rest).map (fun txs => tx :: txs)

def NodeState.fetchPrevOut (s : NodeState) (prevout : COutPoint) : Option CScript :=
  if prevout = COutPoint.null then none
  else
    let txPrev :=
      match s.chain.dbset.tx prevout.hash with
      | none => s.mapTransactions prevout.hash
      | some txindex => s.disk.readFromDisk txindex.pos
    (txPrev.bind (fun tx => tx.vout[prevout.n]?)).map CTxOut.scriptPubKey

def NodeState.fetchPrevOuts (s : NodeState) (tx : CTransaction) (prevout : COutPoint) :
    Option CScript :=
  if prevout ∈ tx.vin.map CTxIn.prevout then s.fetchPrevOut prevout else none

def addPrevTxs : List PrevTx → (COutPoint → Option CScript) →
    Except Fault (COutPoint → Option CScript)
  | [], mapPrevOut => .ok mapPrevOut
  | p :: rest, mapPrevOut =>
    if p.vout < 0 then rpcError "vout must be positive"
    else
      let outpoint : COutPoint := ⟨p.txid, p.vout.toNat⟩
      match mapPrevOut outpoint with
      | none => addPrevTxs rest (Function.update mapPrevOut outpoint (some p.scriptPubKey))
      | some scriptPubKey =>
        -- the two scripts are printed after this text
        if scriptPubKey ≠ p.scriptPubKey then rpcError "Previous output scriptPubKey mismatch:\n"
        else addPrevTxs rest mapPrevOut

def addGivenKeys (c : RawEnv) : List (Option CKey) → CKeyStore → Except Fault CKeyStore
  | [], tempKeystore => .ok tempKeystore
  | none :: _, _ => rpcError "Invalid private key"
  | some key :: rest, tempKeystore =>
    addGivenKeys c rest (tempKeystore.addKey c.env c.evp key).2

def mapSigHashValues : List (StdString × Nat) :=
  [(str "ALL", sighashAll), (str "ALL|ANYONECANPAY", sighashAll + sighashAnyonecanpay),
    (str "NONE", sighashNone), (str "NONE|ANYONECANPAY", sighashNone + sighashAnyonecanpay),
    (str "SINGLE", sighashSingle), (str "SINGLE|ANYONECANPAY", sighashSingle + sighashAnyonecanpay)]

def readHashType : Option StdString → Except Fault Nat
  | none => .ok sighashAll
  | some strHashType =>
    match mapSigHashValues.find? (fun p => p.1 == strHashType) with
    | none => rpcError "Invalid sighash param"
    | some p => .ok p.2

def ensureWalletIsUnlocked (ks : CKeyStore) : Except Fault CKeyStore :=
  if ks.isLocked then
    rpcError "Error: Please enter the wallet passphrase with walletpassphrase first."
  else .ok ks

def RawParams.read (c : RawEnv) (s : NodeState) (pwalletMain : CKeyStore) (p : RawParams) :
    Except Fault RawSign := do
  let txVariants ← readVariants p.txData.length p.txData
  match txVariants with
  | [] => rpcError "Missing transaction"
  | txFirst :: txOthers => do
    let keystore ←
      match p.privkeys with
      | some keys => addGivenKeys c keys CKeyStore.empty
      | none => ensureWalletIsUnlocked pwalletMain
    let mapPrevOut ← addPrevTxs (p.prevTxs.getD []) (s.fetchPrevOuts txFirst)
    let nHashType ← readHashType p.sighash
    pure ⟨txFirst, txOthers, mapPrevOut, keystore, nHashType⟩

def signrawtransaction (c : RawEnv) (s : NodeState) (pwalletMain : CKeyStore) (p : RawParams) :
    Except Fault (List UInt8 × Bool) := do
  let r ← p.read c s pwalletMain
  let st ← r.signAll c
  pure (st.1.serialize, st.2)

section Pushes

theorem pushAll_length_of_prefix {values values' : List VchType} (h : values' <+: values) :
    (pushAll values').length ≤ (pushAll values).length := by
  obtain ⟨rest, rfl⟩ := h
  rw [pushAll, pushAll, List.flatMap_append, List.length_append]
  omega

theorem length_le_pushData (b : VchType) : b.length ≤ (pushData b).length := by
  unfold pushData
  split
  · simp
  · split
    · simp
      omega
    · split
      · simp
        omega
      · simp
        omega

theorem pushAll_wide {values : List VchType} (h : (pushAll values).length ≤ 10000) :
    ∀ vch ∈ values, vch.length < 2 ^ 32 := by
  intro vch hvch
  have hpush := length_le_pushData vch
  obtain ⟨before, after, rfl⟩ := List.append_of_mem hvch
  rw [pushAll, List.flatMap_append, List.flatMap_cons, List.length_append, List.length_append] at h
  omega

theorem blankSigs_take (values : List VchType) : blankSigs (values.take 1001) = blankSigs values := by
  cases values <;> rfl

end Pushes

def keptSigs (values : List VchType) : Bool :=
  !blankSigs values && decide ((pushAll values).length ≤ 10000)

namespace RawEnv

variable {c : RawEnv}

theorem sigStack_small (scriptSig : CScript) : SmallItems (c.sigStack scriptSig) :=
  (EvalCall.stackLeft_small c.sized scriptSig).subset (List.reverse_subset.mpr (List.Subset.refl _))

theorem sigStack_pushAll {values : List VchType} (hlen : (pushAll values).length ≤ 10000) :
    c.sigStack (pushAll values) = (values.takeWhile fun vch => vch.length ≤ 520).take 1001 := by
  have hleft := (EvalCall.stackLeft_pushes (c := c.nullCall) (pushAll_wide hlen)).trans (if_pos hlen)
  rw [sigStack, pushAll, hleft, List.reverse_reverse]

theorem sigStack_long {scriptSig : CScript} (hlen : 10000 < scriptSig.length) :
    c.sigStack scriptSig = [] := by
  rw [sigStack, EvalCall.stackLeft, if_pos hlen, List.reverse_nil]

theorem sigStack_reread {values : List VchType} (hsmall : SmallItems values)
    (hlen : (pushAll values).length ≤ 10000) :
    c.sigStack (pushAll values) = values.take 1001 := by
  rw [sigStack_pushAll hlen, List.takeWhile_eq_self_iff.mpr]
  intro vch hvch
  exact decide_eq_true (hsmall vch hvch)

theorem blankSigs_reread {values : List VchType} (hsmall : SmallItems values) :
    (!blankSigs (c.sigStack (pushAll values))) = keptSigs values := by
  rcases Nat.lt_or_ge 10000 (pushAll values).length with hlong | hshort
  · rw [sigStack_long hlong, keptSigs, decide_eq_false (by omega), Bool.and_false]
    rfl
  · rw [sigStack_reread hsmall hshort, blankSigs_take, keptSigs, decide_eq_true hshort, Bool.and_true]

theorem keptSigs_reread {values : List VchType} (hsmall : SmallItems values)
    (hkept : keptSigs values = true) : keptSigs (c.sigStack (pushAll values)) = true := by
  obtain ⟨hsig, hlen⟩ := (Bool.and_eq_true _ _).mp hkept
  have hfits := of_decide_eq_true hlen
  have htake := pushAll_length_of_prefix (List.take_prefix 1001 values)
  rw [sigStack_reread hsmall hfits, keptSigs, blankSigs_take, hsig, decide_eq_true (by omega)]
  rfl

variable (c)

def reencoding : Merging.Reencoding CScript (List VchType) where
  encode := pushAll
  decode := c.sigStack
  good values := !blankSigs values
  kept := keptSigs
  Ok := SmallItems
  ok_decode := sigStack_small
  good_reread _ := blankSigs_reread
  kept_reread _ := keptSigs_reread

theorem combineSignatures_eq : c.combineSignatures = c.reencoding.combine := by
  funext scriptSig1 scriptSig2
  rw [combineSignatures, Merging.Reencoding.combine]
  cases h : blankSigs (c.sigStack scriptSig1) <;> simp [reencoding, h]

-- A stack of more than 1000 values is cut when it is read again, and fails before and after.
theorem reencoding_rereads (tx : CTransaction) (nIn : Nat) (scriptPubKey : CScript) :
    c.reencoding.Rereads fun scriptSig => c.verifyScript tx nIn scriptPubKey scriptSig = true := by
  intro values hsmall hkept
  obtain ⟨-, hlen⟩ := (Bool.and_eq_true _ _).mp hkept
  have hreread : c.sigStack (pushAll values) = values.take 1001 :=
    sigStack_reread hsmall (of_decide_eq_true hlen)
  change c.verifyScript tx nIn scriptPubKey (pushAll (c.sigStack (pushAll values))) = true ↔
    c.verifyScript tx nIn scriptPubKey (pushAll values) = true
  rw [hreread]
  rcases Nat.lt_or_ge 1000 values.length with hmany | hfew
  · have hfail : ∀ vvch : List VchType, SmallItems vvch → 1000 < vvch.length →
        c.verifyScript tx nIn scriptPubKey (pushAll vvch) = false := by
      intro vvch hvvch hlong
      rw [verifyScript, EvalCall.verifyScript, pushAll, EvalCall.evalScript_pushes hvvch,
        if_neg (by omega)]
      rfl
    rw [hfail values hsmall hmany, hfail _ (hsmall.subset (List.take_subset _ _))
      (by rw [List.length_take]; omega)]
  · rw [List.take_of_length_le (by omega)]

section Own

variable {c}

theorem solveItems_pushes {ks : CKeyStore} {signature : VchType → Option VchType} {hash : Uint256}
    (vSolution : Solution) (values : List VchType) :
    ∃ values', (ks.solveItems c.env signature hash vSolution (pushAll values)).2 = pushAll values' := by
  induction vSolution generalizing values with
  | nil => exact ⟨values, rfl⟩
  | cons item rest ih =>
    obtain ⟨opcode, vch⟩ := item
    have hpush : ∀ b : VchType, pushAll values ++ pushData b = pushAll (values ++ [b]) := by
      intro b
      rw [pushAll, pushAll, List.flatMap_append, List.flatMap_singleton]
    have htwo : ∀ a b : VchType,
        pushAll values ++ pushData a ++ pushData b = pushAll (values ++ [a, b]) := by
      intro a b
      simp [pushAll, List.flatMap_append]
    rw [CKeyStore.solveItems]
    split
    · split
      · exact ⟨values, rfl⟩
      · split
        · exact ⟨values, rfl⟩
        · rw [hpush]
          exact ih _
    · split
      · split
        · exact ⟨values, rfl⟩
        · split
          · exact ⟨values, rfl⟩
          · split
            · exact ⟨values, rfl⟩
            · rw [htwo]
              exact ih _
      · exact ⟨values, rfl⟩

theorem signedScript_pushes (ks : CKeyStore) (fromPubKey : CScript) (tx : CTransaction)
    (nIn nHashType : Nat) : ∃ values, c.signedScript ks fromPubKey tx nIn nHashType = pushAll values := by
  simp only [signedScript, CKeyStore.solve]
  split
  · exact ⟨[], rfl⟩
  · rename_i vSolution hsol
    exact solveItems_pushes vSolution []

theorem keptSigs_pushes (values : List VchType) :
    (!blankSigs (c.sigStack (pushAll values))) = keptSigs (c.sigStack (pushAll values)) := by
  rcases Nat.lt_or_ge 10000 (pushAll values).length with hlong | hshort
  · rw [sigStack_long hlong]
    rfl
  · have hprefix : c.sigStack (pushAll values) <+: values := by
      rw [sigStack_pushAll hshort]
      exact (List.take_prefix _ _).trans (List.takeWhile_prefix _)
    have hle := pushAll_length_of_prefix hprefix
    rw [keptSigs, decide_eq_true (by omega), Bool.and_true]

theorem signedScript_unsigned {tx tx' : CTransaction} (h : tx.unsigned = tx'.unsigned)
    (ks : CKeyStore) (fromPubKey : CScript) (nIn nHashType : Nat) :
    c.signedScript ks fromPubKey tx nIn nHashType = c.signedScript ks fromPubKey tx' nIn nHashType := by
  rw [signedScript, signedScript, ← signatureHash_unsigned c.env fromPubKey tx,
    ← signatureHash_unsigned c.env fromPubKey tx', h]

end Own

end RawEnv

theorem setScriptSig_unsigned (tx : CTransaction) (nIn : Nat) (scriptSig : CScript) :
    (tx.setScriptSig nIn scriptSig).unsigned = tx.unsigned := by
  have hvin : (tx.vin.modify nIn fun txin => { txin with scriptSig := scriptSig }).map
      (fun txin => { txin with scriptSig := [] }) =
        tx.vin.map fun txin => { txin with scriptSig := [] } := by
    apply List.ext_getElem?
    intro i
    rw [List.getElem?_map, List.getElem?_map, List.getElem?_modify]
    cases tx.vin[i]? with
    | none => rfl
    | some txin =>
      rw [Option.map_eq_map, Option.map_some]
      split <;> rfl
  rw [CTransaction.unsigned, CTransaction.setScriptSig, CTransaction.unsigned, hvin]

def scriptSigAt (tx : CTransaction) (i : Nat) : CScript := ((tx.vin[i]?).map CTxIn.scriptSig).getD []

namespace RawSign

variable {c : RawEnv} {r : RawSign}

theorem ownScript_unsigned {tx tx' : CTransaction} (h : tx.unsigned = tx'.unsigned)
    (prevPubKey : CScript) (i : Nat) :
    r.ownScript c prevPubKey tx i = r.ownScript c prevPubKey tx' i := by
  have hvout : tx.unsigned.vout = tx'.unsigned.vout := congrArg CTransaction.vout h
  change tx.vout = tx'.vout at hvout
  rw [ownScript, ownScript, hvout, RawEnv.signedScript_unsigned h]

theorem ownScript_pushes (prevPubKey : CScript) (tx : CTransaction) (i : Nat) :
    ∃ values, r.ownScript c prevPubKey tx i = pushAll values := by
  unfold ownScript
  split
  · exact RawEnv.signedScript_pushes _ _ _ _ _
  · exact ⟨[], rfl⟩

theorem mergeFold_ok {l : List CTransaction} {i : Nat} {scriptSig merged : CScript} :
    l.foldlM (fun scriptSig txv =>
        match txv.vin[i]? with
        | none => .error .undefined
        | some txin => .ok (c.combineSignatures scriptSig txin.scriptSig)) scriptSig =
          (.ok merged : Except Fault CScript) ↔
      (∀ txv ∈ l, i < txv.vin.length) ∧
        merged = (l.map fun txv => scriptSigAt txv i).foldl c.combineSignatures scriptSig := by
  induction l generalizing scriptSig with
  | nil =>
    rw [List.foldlM_nil, Except.pure_eq_ok]
    constructor
    · rintro rfl
      exact ⟨fun _ h => absurd h List.not_mem_nil, rfl⟩
    · rintro ⟨-, rfl⟩
      rfl
  | cons txv l ih =>
    rw [List.foldlM_cons, Except.bind_eq_ok, List.forall_mem_cons, List.map_cons, List.foldl_cons]
    rcases Nat.lt_or_ge i txv.vin.length with hlt | hge
    · have hsig : scriptSigAt txv i = txv.vin[i].scriptSig := by
        rw [scriptSigAt, List.getElem?_eq_getElem hlt]
        rfl
      rw [List.getElem?_eq_getElem hlt, hsig]
      constructor
      · rintro ⟨a, ha, hrest⟩
        cases ha
        obtain ⟨hall, heq⟩ := ih.mp hrest
        exact ⟨⟨hlt, hall⟩, heq⟩
      · rintro ⟨⟨-, hall⟩, heq⟩
        exact ⟨_, rfl, ih.mpr ⟨hall, heq⟩⟩
    · rw [List.getElem?_eq_none hge]
      constructor
      · rintro ⟨a, ha, -⟩
        cases ha
      · rintro ⟨⟨hlt, -⟩, -⟩
        omega

variable (c r)

def mergedSig (prevPubKey : CScript) (i : Nat) : CScript :=
  (r.txVariants.map fun txv => scriptSigAt txv i).foldl c.combineSignatures
    (r.ownScript c prevPubKey r.txFirst i)

def Reaches (i : Nat) : Prop := ∀ txv ∈ r.txVariants, i < txv.vin.length

-- Each round writes its own input alone, so the scriptSig of round j is the one in the result.
structure Signed (txins : List CTxIn) (i : Nat) (st st' : CTransaction × Bool) : Prop where
  unsigned : st'.1.unsigned = st.1.unsigned
  before : ∀ j < i, st'.1.vin[j]? = st.1.vin[j]?
  merged : ∀ j txin prevPubKey, txins[j]? = some txin → r.mapPrevOut txin.prevout = some prevPubKey →
    r.Reaches (i + j) ∧ scriptSigAt st'.1 (i + j) = r.mergedSig c prevPubKey (i + j)

variable {c r}

theorem signInput_ok {prevPubKey : CScript} {i : Nat} {st st' : CTransaction × Bool}
    (hun : st.1.unsigned = r.txFirst.unsigned) (h : r.signInput c prevPubKey i st = .ok st') :
    r.Reaches i ∧ st'.1 = st.1.setScriptSig i (r.mergedSig c prevPubKey i) := by
  obtain ⟨scriptSig, hmerge, hret⟩ := Except.bind_eq_ok.mp h
  obtain ⟨hreach, rfl⟩ := mergeFold_ok.mp hmerge
  rw [← Except.pure_eq_ok.mp hret, mergedSig,
    ownScript_unsigned ((setScriptSig_unsigned st.1 i []).trans hun)]
  exact ⟨hreach, rfl⟩

theorem signInput_flag {prevPubKey : CScript} {i : Nat} {st st' : CTransaction × Bool}
    (hun : st.1.unsigned = r.txFirst.unsigned) (h : r.signInput c prevPubKey i st = .ok st') :
    st'.2 = (st.2 && c.verifyScript st'.1 i prevPubKey (r.mergedSig c prevPubKey i)) := by
  obtain ⟨scriptSig, hmerge, hret⟩ := Except.bind_eq_ok.mp h
  obtain ⟨-, rfl⟩ := mergeFold_ok.mp hmerge
  rw [← Except.pure_eq_ok.mp hret, mergedSig,
    ownScript_unsigned ((setScriptSig_unsigned st.1 i []).trans hun)]

theorem signInput_total {i : Nat} (hreach : r.Reaches i) (prevPubKey : CScript)
    (st : CTransaction × Bool) : ∃ st', r.signInput c prevPubKey i st = .ok st' :=
  ⟨_, Except.bind_eq_ok.mpr ⟨_, mergeFold_ok.mpr ⟨hreach, rfl⟩, rfl⟩⟩

theorem signFrom_total {txins : List CTxIn} {i : Nat}
    (h : ∀ j txin, txins[j]? = some txin → (r.mapPrevOut txin.prevout).isSome → r.Reaches (i + j))
    (st : CTransaction × Bool) : ∃ st', r.signFrom c txins i st = .ok st' := by
  induction txins generalizing i st with
  | nil => exact ⟨st, rfl⟩
  | cons txin rest ih =>
    have hrest : ∀ j txin', rest[j]? = some txin' → (r.mapPrevOut txin'.prevout).isSome →
        r.Reaches (i + 1 + j) := by
      intro j txin' hget hprev
      have hreach := h (j + 1) txin' hget hprev
      rwa [Nat.add_comm j 1, ← Nat.add_assoc] at hreach
    rw [signFrom]
    cases hprev : r.mapPrevOut txin.prevout with
    | none => exact ih hrest _
    | some prevPubKey =>
      obtain ⟨st', hst'⟩ := signInput_total (h 0 txin rfl (by rw [hprev]; rfl)) prevPubKey st
      obtain ⟨st'', hst''⟩ := ih hrest st'
      exact ⟨st'', Except.bind_eq_ok.mpr ⟨st', hst', hst''⟩⟩

theorem signFrom_ok {txins : List CTxIn} {i : Nat} {st st' : CTransaction × Bool}
    (hun : st.1.unsigned = r.txFirst.unsigned) (hlen : i + txins.length = st.1.vin.length)
    (h : r.signFrom c txins i st = .ok st') : Signed c r txins i st st' := by
  induction txins generalizing i st with
  | nil =>
    cases h
    exact ⟨rfl, fun _ _ => rfl, fun j txin prevPubKey hget => by cases hget⟩
  | cons txin rest ih =>
    rw [List.length_cons] at hlen
    rw [signFrom] at h
    cases hprev : r.mapPrevOut txin.prevout with
    | none =>
      rw [hprev] at h
      have hrest : Signed c r rest (i + 1) (st.1, false) st' := ih hun (by dsimp only; omega) h
      refine ⟨hrest.unsigned, fun j hj => hrest.before j (by omega), ?_⟩
      intro j txin' prevPubKey hget hknown
      cases j with
      | zero =>
        cases hget
        rw [hprev] at hknown
        cases hknown
      | succ j =>
        have hmerged := hrest.merged j txin' prevPubKey hget hknown
        rwa [Nat.add_assoc, Nat.add_comm 1 j] at hmerged
    | some prevPubKey =>
      rw [hprev] at h
      obtain ⟨mid, hmid, h⟩ := Except.bind_eq_ok.mp h
      obtain ⟨hreach, heq⟩ := signInput_ok hun hmid
      have hmidun : mid.1.unsigned = st.1.unsigned := by
        rw [heq]
        exact setScriptSig_unsigned _ _ _
      have hmidlen : mid.1.vin.length = st.1.vin.length := by
        rw [heq]
        exact List.length_modify _ _ _
      have hrest : Signed c r rest (i + 1) mid st' := ih (hmidun.trans hun) (by omega) h
      refine ⟨hrest.unsigned.trans hmidun, ?_, ?_⟩
      · intro j hj
        rw [hrest.before j (by omega), heq]
        exact List.getElem?_modify_ne _ _ (Nat.ne_of_gt hj)
      · intro j txin' prevPubKey' hget hknown
        cases j with
        | zero =>
          cases hget
          obtain rfl : prevPubKey = prevPubKey' := Option.some.inj (hprev.symm.trans hknown)
          refine ⟨hreach, ?_⟩
          have hi : st.1.vin[i]? = some st.1.vin[i] := List.getElem?_eq_getElem (by omega)
          rw [Nat.add_zero, scriptSigAt, hrest.before i (by omega), heq]
          simp [CTransaction.setScriptSig, List.getElem?_modify_eq, hi]
        | succ j =>
          have hmerged := hrest.merged j txin' prevPubKey' hget hknown
          rwa [Nat.add_assoc, Nat.add_comm 1 j] at hmerged

variable (c r)

def Known (i : Nat) (prevPubKey : CScript) : Prop :=
  ∃ txin, r.txFirst.vin[i]? = some txin ∧ r.mapPrevOut txin.prevout = some prevPubKey

def Passes (tx : CTransaction) (i : Nat) (prevPubKey scriptSig : CScript) : Prop :=
  c.verifyScript tx i prevPubKey scriptSig = true

inductive Candidate (i : Nat) (prevPubKey : CScript) : CScript → Prop
  | own : Candidate i prevPubKey (r.ownScript c prevPubKey r.txFirst i)
  | variant {txv : CTransaction} {txin : CTxIn} (hmem : txv ∈ r.txVariants)
      (hin : txv.vin[i]? = some txin) (hpush : isPushOnly txin.scriptSig = true) :
      Candidate i prevPubKey txin.scriptSig

def SameButSigs : Prop := ∀ txv ∈ r.txVariants, txv.unsigned = r.txFirst.unsigned

def MergesAll : Prop :=
  ∃ tx fComplete, r.signAll c = .ok (tx, fComplete) ∧
    (r.SameButSigs → ∀ i prevPubKey, r.Known i prevPubKey →
      (∃ scriptSig, Candidate c r i prevPubKey scriptSig ∧ Passes c r.txFirst i prevPubKey scriptSig) →
        Passes c tx i prevPubKey (scriptSigAt tx i))

def InReach : Prop := ∀ i prevPubKey, r.Known i prevPubKey → r.Reaches i

def firstSigs (prevPubKey : CScript) (i : Nat) : List VchType :=
  Merging.firstKept keptSigs (c.sigStack (r.ownScript c prevPubKey r.txFirst i))
    (r.txVariants.map fun txv => c.sigStack (scriptSigAt txv i))

def FirstSigsPass : Prop :=
  ∀ i prevPubKey, r.Known i prevPubKey →
    (∃ scriptSig, Candidate c r i prevPubKey scriptSig ∧ Passes c r.txFirst i prevPubKey scriptSig) →
      Passes c r.txFirst i prevPubKey (pushAll (firstSigs c r prevPubKey i))

variable {c r}

theorem mergedSig_passes (tx : CTransaction) (i : Nat) (prevPubKey : CScript) :
    Passes c tx i prevPubKey (r.mergedSig c prevPubKey i) ↔
      Passes c tx i prevPubKey (pushAll (firstSigs c r prevPubKey i)) := by
  obtain ⟨values, hown⟩ := ownScript_pushes (c := c) (r := r) prevPubKey r.txFirst i
  have hfirst := Merging.Reencoding.merge_firstKept (c.reencoding_rereads tx i prevPubKey)
    (s := r.ownScript c prevPubKey r.txFirst i) (t := scriptSigAt r.txFirst i)
    (by rw [hown]; exact RawEnv.keptSigs_pushes values)
    (r.txOthers.map fun txv => scriptSigAt txv i)
  rw [← c.combineSignatures_eq, List.map_cons, List.map_map] at hfirst
  exact hfirst

theorem passes_unsigned {tx tx' : CTransaction} (h : tx.unsigned = tx'.unsigned) (i : Nat)
    (prevPubKey scriptSig : CScript) :
    Passes c tx i prevPubKey scriptSig ↔ Passes c tx' i prevPubKey scriptSig := by
  rw [Passes, Passes, RawEnv.verifyScript, RawEnv.verifyScript, verifyScript_unsigned h]

theorem signAll_ok {tx : CTransaction} {fComplete : Bool} (h : r.signAll c = .ok (tx, fComplete)) :
    Signed c r r.txFirst.vin 0 (r.txFirst, true) (tx, fComplete) :=
  signFrom_ok rfl (Nat.zero_add _) h

-- An input without a known previous output clears the flag for good, as a failed check does.
theorem signFrom_complete {txins : List CTxIn} {i : Nat} {st st' : CTransaction × Bool}
    (hun : st.1.unsigned = r.txFirst.unsigned) (h : r.signFrom c txins i st = .ok st') :
    st'.2 = true ↔ st.2 = true ∧ ∀ j txin, txins[j]? = some txin →
      ∃ prevPubKey, r.mapPrevOut txin.prevout = some prevPubKey ∧
        Passes c r.txFirst (i + j) prevPubKey (r.mergedSig c prevPubKey (i + j)) := by
  induction txins generalizing i st with
  | nil =>
    cases h
    exact ⟨fun hst => ⟨hst, fun j txin hget => by cases hget⟩, And.left⟩
  | cons txin rest ih =>
    rw [signFrom] at h
    cases hprev : r.mapPrevOut txin.prevout with
    | none =>
      rw [hprev] at h
      have hcleared : ((st.1, false) : CTransaction × Bool).1.unsigned = r.txFirst.unsigned := hun
      rw [ih hcleared h]
      constructor
      · rintro ⟨hfalse, -⟩
        cases hfalse
      · rintro ⟨-, hall⟩
        obtain ⟨prevPubKey, hknown, -⟩ := hall 0 txin rfl
        rw [hprev] at hknown
        cases hknown
    | some prevPubKey =>
      rw [hprev] at h
      obtain ⟨mid, hmid, h⟩ := Except.bind_eq_ok.mp h
      have hmidun : mid.1.unsigned = r.txFirst.unsigned := by
        rw [(signInput_ok hun hmid).2, setScriptSig_unsigned, hun]
      have hflag : mid.2 = true ↔ st.2 = true ∧
          Passes c r.txFirst i prevPubKey (r.mergedSig c prevPubKey i) := by
        rw [signInput_flag hun hmid, Bool.and_eq_true]
        exact and_congr_right' (passes_unsigned hmidun i prevPubKey _)
      rw [ih hmidun h, hflag, and_assoc]
      refine and_congr_right' ⟨?_, fun hall => ⟨?_, fun j txin' hget => ?_⟩⟩
      · rintro ⟨hpass, hall⟩ j txin' hget
        cases j with
        | zero =>
          cases hget
          exact ⟨prevPubKey, hprev, hpass⟩
        | succ j =>
          have hlater := hall j txin' hget
          rwa [Nat.add_assoc, Nat.add_comm 1 j] at hlater
      · obtain ⟨prevPubKey', hknown, hpass⟩ := hall 0 txin rfl
        rw [hprev] at hknown
        cases hknown
        exact hpass
      · have hlater := hall (j + 1) txin' hget
        rwa [← Nat.add_assoc, Nat.add_right_comm] at hlater

theorem signAll_complete {tx : CTransaction} {fComplete : Bool}
    (h : r.signAll c = .ok (tx, fComplete)) :
    fComplete = true ↔ ∀ i txin, r.txFirst.vin[i]? = some txin →
      ∃ prevPubKey, r.mapPrevOut txin.prevout = some prevPubKey ∧
        Passes c tx i prevPubKey (scriptSigAt tx i) := by
  have hsigned := signAll_ok h
  have hflag := signFrom_complete (i := 0) rfl h
  simp only [Nat.zero_add, true_and] at hflag
  refine hflag.trans (forall₃_congr fun i txin hget => exists_congr fun prevPubKey =>
    and_congr_right fun hprev => ?_)
  have hmerged := (hsigned.merged i txin prevPubKey hget hprev).2
  rw [Nat.zero_add] at hmerged
  rw [hmerged]
  exact (passes_unsigned hsigned.unsigned i prevPubKey _).symm

theorem signraw_merges_iff (c : RawEnv) (r : RawSign) :
    MergesAll c r ↔ r.InReach ∧ (r.SameButSigs → FirstSigsPass c r) := by
  constructor
  · rintro ⟨tx, fComplete, hrun, hmerge⟩
    have hsigned := signAll_ok hrun
    have hround : ∀ i prevPubKey, r.Known i prevPubKey →
        r.Reaches i ∧ scriptSigAt tx i = r.mergedSig c prevPubKey i := by
      rintro i prevPubKey ⟨txin, hget, hprev⟩
      have hmerged := hsigned.merged i txin prevPubKey hget hprev
      rwa [Nat.zero_add] at hmerged
    refine ⟨fun i prevPubKey hknown => (hround i prevPubKey hknown).1, ?_⟩
    intro hsame i prevPubKey hknown hcand
    have hpass := hmerge hsame i prevPubKey hknown hcand
    rw [(hround i prevPubKey hknown).2, passes_unsigned hsigned.unsigned, mergedSig_passes] at hpass
    exact hpass
  · rintro ⟨hreach, hfirst⟩
    obtain ⟨⟨tx, fComplete⟩, hrun⟩ := signFrom_total (c := c) (i := 0)
      (fun j txin hget hprev => by
        obtain ⟨prevPubKey, hprev⟩ := Option.isSome_iff_exists.mp hprev
        rw [Nat.zero_add]
        exact hreach j prevPubKey ⟨txin, hget, hprev⟩) (r.txFirst, true)
    have hsigned := signAll_ok hrun
    refine ⟨tx, fComplete, hrun, ?_⟩
    intro hsame i prevPubKey hknown hcand
    have hpass := hfirst hsame i prevPubKey hknown hcand
    obtain ⟨txin, hget, hprev⟩ := hknown
    have hmerged := (hsigned.merged i txin prevPubKey hget hprev).2
    rw [Nat.zero_add] at hmerged
    rw [hmerged, passes_unsigned hsigned.unsigned, mergedSig_passes]
    exact hpass

end RawSign

section Request

variable {c : RawEnv} {s : NodeState} {pwalletMain : CKeyStore} {p : RawParams}

theorem addPrevTxs_keeps {prevTxs : List PrevTx} {mapPrevOut mapPrevOut' : COutPoint → Option CScript}
    (h : addPrevTxs prevTxs mapPrevOut = .ok mapPrevOut') {prevout : COutPoint}
    {scriptPubKey : CScript} (hknown : mapPrevOut prevout = some scriptPubKey) :
    mapPrevOut' prevout = some scriptPubKey := by
  induction prevTxs generalizing mapPrevOut with
  | nil =>
    cases h
    exact hknown
  | cons prevTx rest ih =>
    rw [addPrevTxs] at h
    split at h
    · cases h
    · dsimp only at h
      split at h
      · rename_i hnone
        have hne : prevout ≠ ⟨prevTx.txid, prevTx.vout.toNat⟩ := by
          rintro rfl
          rw [hnone] at hknown
          cases hknown
        exact ih h (by rw [Function.update_of_ne hne, hknown])
      · split at h
        · cases h
        · exact ih h hknown

theorem readVariants_first {fuel : Nat} {ssData : List UInt8} {tx : CTransaction}
    {txs : List CTransaction} (h : readVariants fuel ssData = .ok (tx :: txs)) :
    ∃ rest, CTransaction.unserialize ssData = some (tx, rest) := by
  cases ssData with
  | nil => cases fuel <;> cases h
  | cons b ssData =>
    cases fuel with
    | zero => cases h
    | succ fuel =>
      rw [readVariants] at h
      split at h
      · cases h
      · rename_i tx' rest hread
        cases hrest : readVariants fuel rest with
        | error e =>
          rw [hrest] at h
          cases h
        | ok txs' =>
          rw [hrest] at h
          cases h
          exact ⟨rest, hread⟩

theorem RawParams.read_ok {r : RawSign} (h : p.read c s pwalletMain = .ok r) :
    (∃ rest, CTransaction.unserialize p.txData = some (r.txFirst, rest)) ∧
      ∀ prevout scriptPubKey, s.fetchPrevOuts r.txFirst prevout = some scriptPubKey →
        r.mapPrevOut prevout = some scriptPubKey := by
  obtain ⟨txVariants, hread, h⟩ := Except.bind_eq_ok.mp h
  cases txVariants with
  | nil => cases h
  | cons txFirst txOthers =>
    dsimp only at h
    -- the key store comes from the given keys or from the wallet
    split at h
    all_goals
      obtain ⟨keystore, -, h⟩ := Except.bind_eq_ok.mp h
      obtain ⟨mapPrevOut, hprev, h⟩ := Except.bind_eq_ok.mp h
      obtain ⟨nHashType, -, h⟩ := Except.bind_eq_ok.mp h
      cases h
      exact ⟨readVariants_first hread, fun prevout scriptPubKey => addPrevTxs_keeps hprev⟩

-- What a caller may take from "complete": an output the node knows is checked against the script
-- it has, whatever the request gives for it.
theorem signrawtransaction_complete {hex : List UInt8}
    (h : signrawtransaction c s pwalletMain p = .ok (hex, true)) :
    ∃ txFirst tx rest, CTransaction.unserialize p.txData = some (txFirst, rest) ∧
      tx.unsigned = txFirst.unsigned ∧ hex = tx.serialize ∧
      ∀ i txin, txFirst.vin[i]? = some txin →
        ∃ prevPubKey, RawSign.Passes c tx i prevPubKey (scriptSigAt tx i) ∧
          ∀ scriptPubKey, s.fetchPrevOut txin.prevout = some scriptPubKey →
            prevPubKey = scriptPubKey := by
  obtain ⟨r, hread, h⟩ := Except.bind_eq_ok.mp h
  obtain ⟨⟨tx, fComplete⟩, hsign, h⟩ := Except.bind_eq_ok.mp h
  cases h
  obtain ⟨⟨rest, hfirst⟩, hkept⟩ := RawParams.read_ok hread
  refine ⟨r.txFirst, tx, rest, hfirst, (RawSign.signAll_ok hsign).unsigned, rfl, ?_⟩
  intro i txin hget
  obtain ⟨prevPubKey, hprev, hpass⟩ := (RawSign.signAll_complete hsign).mp rfl i txin hget
  refine ⟨prevPubKey, hpass, fun scriptPubKey hknown => ?_⟩
  have hmem : txin.prevout ∈ r.txFirst.vin.map CTxIn.prevout :=
    List.mem_map_of_mem (List.mem_of_getElem? hget)
  have hfetch := hkept txin.prevout scriptPubKey (by rw [NodeState.fetchPrevOuts, if_pos hmem, hknown])
  exact Option.some.inj (hprev.symm.trans hfetch)

end Request

def sampleRaw : RawEnv where
  env := sampleEnv
  evp := ⟨fun _ _ _ => none, fun _ _ _ => none⟩
  keys := ⟨fun _ => true, fun _ _ vchSig => vchSig == [7], fun _ => List.replicate 20 0,
    fun _ => List.replicate 20 0, fun _ => List.replicate 32 0⟩
  sized := ⟨fun _ => rfl, fun _ => rfl, fun _ => rfl⟩
  sign _ _ := none

def variantOf (scriptSigs : List CScript) : CTransaction :=
  ⟨1, scriptSigs.map fun scriptSig => ⟨⟨5, 0⟩, scriptSig, 0⟩, [], 0⟩

def rawVariantsOf (first other : List CScript) : RawSign where
  txFirst := variantOf first
  txOthers := [variantOf other]
  mapPrevOut _ := some (payToPubkey [2])
  keystore := CKeyStore.empty
  nHashType := sighashAll

def badFirst : RawSign := rawVariantsOf [pushData [9, 1]] [pushData [7, 1]]

def shortOther : RawSign := rawVariantsOf [[]] []

theorem signraw_loses :
    (badFirst.SameButSigs ∧ badFirst.Known 0 (payToPubkey [2]) ∧
      RawSign.Candidate sampleRaw badFirst 0 (payToPubkey [2]) (pushData [7, 1]) ∧
      RawSign.Passes sampleRaw badFirst.txFirst 0 (payToPubkey [2]) (pushData [7, 1]) ∧
      badFirst.signAll sampleRaw = .ok (badFirst.txFirst, false) ∧
      ¬RawSign.MergesAll sampleRaw badFirst) ∧
    shortOther.signAll sampleRaw = .error .undefined ∧ ¬RawSign.MergesAll sampleRaw shortOther := by
  have hsame : badFirst.SameButSigs := by
    unfold RawSign.SameButSigs
    decide +kernel
  have hknown : badFirst.Known 0 (payToPubkey [2]) := ⟨_, rfl, rfl⟩
  have hcand : RawSign.Candidate sampleRaw badFirst 0 (payToPubkey [2]) (pushData [7, 1]) :=
    .variant (List.mem_cons_of_mem _ List.mem_cons_self)
      (rfl : (variantOf [pushData [7, 1]]).vin[0]? = some ⟨⟨5, 0⟩, pushData [7, 1], 0⟩) (by decide)
  have hpass : RawSign.Passes sampleRaw badFirst.txFirst 0 (payToPubkey [2]) (pushData [7, 1]) := by
    unfold RawSign.Passes
    decide +kernel
  have hbad : badFirst.signAll sampleRaw = .ok (badFirst.txFirst, false) := by decide +kernel
  have hshort : shortOther.signAll sampleRaw = .error .undefined := by decide +kernel
  refine ⟨⟨hsame, hknown, hcand, hpass, hbad, ?_⟩, hshort, ?_⟩
  · rintro ⟨tx, fComplete, hrun, hmerge⟩
    rw [hbad] at hrun
    cases hrun
    have hkept := hmerge hsame 0 (payToPubkey [2]) hknown ⟨_, hcand, hpass⟩
    revert hkept
    unfold RawSign.Passes
    decide +kernel
  · rintro ⟨tx, fComplete, hrun, -⟩
    rw [hshort] at hrun
    cases hrun

end Namecoin
