import Namecoin.Lib.OrderedMap
import Namecoin.Wallet.Accounts
import Namecoin.Wallet.NameCoins

namespace Namecoin

open Std (TreeMap)

section Ranged

variable {α : Type} {msg : String} {f : α → Except Fault Int} {g : α → Int}

theorem add64_money {n v : Int} (hn : 0 ≤ n) (hv : 0 ≤ v) (hle : n + v ≤ maxMoney) :
    add64 n v = .ok (n + v) ∧ moneyRange (n + v) = true := by
  have hmax : maxMoney < 2 ^ 63 := by decide
  constructor
  · rw [add64, if_pos (by omega)]
  · simp only [moneyRange, Bool.and_eq_true, decide_eq_true_eq]
    omega

theorem sumInRange_ok {l : List α} (hf : ∀ a ∈ l, f a = .ok (g a)) (hg : ∀ a ∈ l, 0 ≤ g a) {n : Int}
    (hn : 0 ≤ n) (hle : n + (l.map g).sum ≤ maxMoney) :
    sumInRange msg f l n = .ok (n + (l.map g).sum) := by
  induction l generalizing n with
  | nil => simp [sumInRange]
  | cons a l ih =>
    obtain ⟨hfa, hfl⟩ := List.forall_mem_cons.mp hf
    obtain ⟨hga, hgl⟩ := List.forall_mem_cons.mp hg
    have hrest : 0 ≤ (l.map g).sum := List.sum_nonneg (by simpa using hgl)
    rw [List.map_cons, List.sum_cons] at hle ⊢
    obtain ⟨hadd, hrange⟩ := add64_money hn hga (by omega)
    refine Except.bind_eq_ok.mpr ⟨g a, hfa, Except.bind_eq_ok.mpr ⟨n + g a, hadd, ?_⟩⟩
    refine Except.bind_eq_ok.mpr ⟨(), Except.raiseIf_eq_ok.mpr (not_not.mpr hrange), ?_⟩
    rw [ih hfl hgl (by omega) (by omega), add_assoc]

theorem valueOutFrom_money {vout : List CTxOut} (h : ∀ txout ∈ vout, 0 ≤ txout.nValue) {n : Int}
    (hn : 0 ≤ n) (hle : n + (vout.map CTxOut.nValue).sum ≤ maxMoney) :
    valueOutFrom vout n = .ok (n + (vout.map CTxOut.nValue).sum) := by
  induction vout generalizing n with
  | nil => simp [valueOutFrom]
  | cons txout vout ih =>
    obtain ⟨hv, hrest⟩ := List.forall_mem_cons.mp h
    have hsum : 0 ≤ (vout.map CTxOut.nValue).sum := List.sum_nonneg (by simpa using hrest)
    rw [List.map_cons, List.sum_cons] at hle ⊢
    obtain ⟨hadd, hrange⟩ := add64_money hn hv (by omega)
    have hvalue : moneyRange txout.nValue = true := by
      simp only [moneyRange, Bool.and_eq_true, decide_eq_true_eq]
      omega
    refine Except.bind_eq_ok.mpr ⟨n + txout.nValue, hadd, ?_⟩
    refine Except.bind_eq_ok.mpr ⟨(), Except.raiseIf_eq_ok.mpr (not_not.mpr ⟨hvalue, hrange⟩), ?_⟩
    rw [ih hrest (by omega) (by omega), add_assoc]

end Ranged

def lockedValue (txout : CTxOut) : Int :=
  let d := decodeNameScript txout.scriptPubKey 0 []
  if d.ok ∧ d.op ≠ opNameNew then txout.nValue else 0

def reservedValue (txout : CTxOut) : Int :=
  let d := decodeNameScript txout.scriptPubKey 0 []
  if d.ok ∧ d.op = opNameNew then txout.nValue else 0

theorem outAddress_nameOp (env : Env) (script : CScript) :
    (outAddress env script).nameOp =
      if (decodeNameScript script 0 []).ok then some (decodeNameScript script 0 []).op else none := by
  cases hd : (decodeNameScript script 0 []).ok with
  | true =>
    have hsolver := solver_nameScript hd
    have hname : (extractAddress script).isSome = true := by
      unfold extractAddress
      split
      · rfl
      · simp [hd]
    obtain ⟨address, haddress⟩ := Option.isSome_iff_exists.mp hname
    simp only [outAddress, extractHash160, extractPubKeyOnly, hsolver, hookAddress, haddress, hd]
  | false =>
    unfold outAddress hookAddress
    split
    · simp
    · split
      · simp
      · split
        · simp
        · simp [hd]

namespace CKeyStore

theorem isMine_of_extractPubKey {env : Env} {ks : CKeyStore} {script : CScript} {vchPubKey : VchType}
    (h : ks.extractPubKey script = some vchPubKey) : ks.isMine env script = true := by
  have hne : opPubkeyhash ≠ opPubkey := by decide
  obtain ⟨sol, hsol, hfind⟩ := Option.bind_eq_some_iff.mp h
  obtain ⟨opcode, vch, rest, -, ⟨-, -, rfl⟩ | ⟨-, vchHash, -, rfl⟩⟩ := solver_cases hsol
  · simp only [List.findSome?_cons, List.findSome?_nil, ownPubKey, if_true] at hfind
    have hhave : ks.haveKey vch = true := by
      cases hk : ks.haveKey vch with
      | true => rfl
      | false => simp [Option.filter_some, hk] at hfind
    simp only [isMine, solve, hsol, solveItems, if_true, hhave, Bool.true_or]
  · simp only [List.findSome?_cons, List.findSome?_nil, ownPubKey, if_neg hne, if_true] at hfind
    cases hslot : ks.mapPubKeys (uint160 vchHash) with
    | none => simp [hslot] at hfind
    | some pk =>
      have hhave : ks.haveKey pk = true := by
        cases hk : ks.haveKey pk with
        | true => rfl
        | false => simp [hslot, Option.filter_some, hk] at hfind
      simp only [isMine, solve, hsol, solveItems, if_neg hne, if_true, hslot, hhave]

end CKeyStore

def OutTally.net (t : OutTally) : Int :=
  (t.listReceived.map Prod.snd).sum - (t.listSent.map Prod.snd).sum

namespace Wallet

variable {env : Env} {w : Wallet env}

def plainValue (w : Wallet env) (txout : CTxOut) : Int :=
  if w.toCWallet.isMineTxOut txout then txout.nValue else 0

def netValue (w : Wallet env) (nDebit : Int) (txout : CTxOut) : Int :=
  w.plainValue txout + if 0 < nDebit then lockedValue txout - txout.nValue else 0

theorem isMineTxOut_name {txout : CTxOut}
    (h : (decodeNameScript txout.scriptPubKey 0 []).ok = true) :
    w.toCWallet.isMineTxOut txout = false :=
  CKeyStore.isMine_of_solver_none (solver_nameScript h)

theorem isMineTxOut_change {txout : CTxOut} (h : w.isChange txout = true) :
    w.toCWallet.isMineTxOut txout = true := by
  unfold isChange at h
  split at h
  · cases h
  · rename_i vchPubKey hkey
    exact CKeyStore.isMine_of_extractPubKey hkey

section Tally

variable {tx : CTransaction} {nDebit : Int} {t : OutTally} {txout : CTxOut}

theorem listOut_net {address : StdString} (hhook : w.toCWallet.hookIsMineKnown tx txout = false) :
    (w.listOut tx nDebit address t txout).net =
        t.net + (w.plainValue txout - if 0 < nDebit then txout.nValue else 0) ∧
      (w.listOut tx nDebit address t txout).nCarriedOverCoin = t.nCarriedOverCoin := by
  simp only [listOut, hhook, Bool.or_false, plainValue, OutTally.net]
  split <;> split <;> simp <;> omega

theorem tallyOut_net : (w.tallyOut tx nDebit t txout).net = t.net + w.netValue nDebit txout ∧
    (w.tallyOut tx nDebit t txout).nCarriedOverCoin =
      t.nCarriedOverCoin - (lockedValue txout + reservedValue txout) := by
  have hop := outAddress_nameOp env txout.scriptPubKey
  cases hd : (decodeNameScript txout.scriptPubKey 0 []).ok with
  | false =>
    rw [hd, if_neg (by simp)] at hop
    have hhook : w.toCWallet.hookIsMineKnown tx txout = false := by
      simp [CWallet.hookIsMineKnown, CWallet.hookIsMine, isNameScript, hd]
    simp only [tallyOut, hop, Option.isSome_none, Bool.false_eq_true, if_false, false_and,
      netValue, lockedValue, reservedValue, hd]
    split
    · rename_i hchange
      rw [plainValue, if_pos (isMineTxOut_change hchange.2), if_pos hchange.1]
      constructor <;> omega
    · obtain ⟨hnet, hcoin⟩ := @listOut_net env w tx nDebit t txout
        (outAddress env txout.scriptPubKey).address hhook
      rw [hnet, hcoin]
      constructor
      · split <;> omega
      · omega
  | true =>
    rw [hd, if_pos rfl] at hop
    have hplain : w.plainValue txout = 0 := by
      rw [plainValue, isMineTxOut_name hd, if_neg (by simp)]
    rcases Classical.em ((decodeNameScript txout.scriptPubKey 0 []).op = opNameNew) with hnew | hold
    · have hhook : w.toCWallet.hookIsMineKnown tx txout = false := by
        simp [CWallet.hookIsMineKnown, hnew]
      have hchange : w.isChange txout = false := by
        cases hc : w.isChange txout with
        | false => rfl
        | true => exact absurd (isMineTxOut_change hc) (by simp [isMineTxOut_name hd])
      obtain ⟨hnet, hcoin⟩ := @listOut_net env w tx nDebit
        { t with nCarriedOverCoin := t.nCarriedOverCoin - txout.nValue } txout
        (outAddress env txout.scriptPubKey).address hhook
      simp only [tallyOut, hop, hnew, Option.isSome_some, if_true, ne_eq, not_true_eq_false,
        and_false, if_false, hchange, Bool.false_eq_true, netValue, lockedValue, reservedValue, hd,
        and_self]
      rw [hnet, hcoin]
      constructor
      · simp only [OutTally.net]
        split <;> omega
      · dsimp only
        omega
    · have hne : (some (decodeNameScript txout.scriptPubKey 0 []).op) ≠ some opNameNew := by
        simpa using hold
      simp only [tallyOut, hop, Option.isSome_some, if_true, true_and, if_pos hne, netValue, hplain,
        lockedValue, reservedValue, hd, if_pos hold, hold, and_false, if_false, OutTally.net]
      constructor
      · split <;> omega
      · omega

theorem tally_net {vout : List CTxOut} :
    (vout.foldl (w.tallyOut tx nDebit) t).net = t.net + (vout.map (w.netValue nDebit)).sum ∧
      (vout.foldl (w.tallyOut tx nDebit) t).nCarriedOverCoin =
        t.nCarriedOverCoin - ((vout.map lockedValue).sum + (vout.map reservedValue).sum) := by
  induction vout generalizing t with
  | nil => simp
  | cons txout vout ih =>
    obtain ⟨hnet, hcarried⟩ := ih (t := w.tallyOut tx nDebit t txout)
    obtain ⟨hstep, hcoin⟩ := @tallyOut_net env w tx nDebit t txout
    simp only [List.foldl_cons, List.map_cons, List.sum_cons, hnet, hstep, hcarried, hcoin]
    omega

end Tally

def plainIn (w : Wallet env) (tx : CTransaction) : Int := (tx.vin.map w.toCWallet.getDebit).sum

def ownIn (w : Wallet env) (tx : CTransaction) : Int := (tx.vin.map w.toCWallet.getDebitInclName).sum

def plainOut (w : Wallet env) (tx : CTransaction) : Int := (tx.vout.map w.plainValue).sum

def nameGap (w : Wallet env) (tx : CTransaction) : Int :=
  let nCarried := w.ownIn tx - w.plainIn tx - (tx.vout.map lockedValue).sum
  let nSpare := nCarried - (tx.vout.map reservedValue).sum
  let nFee := w.ownIn tx - (tx.vout.map CTxOut.nValue).sum
  if tx.isCoinBase ∨ w.ownIn tx = 0 then 0
  else (if 0 < nSpare then min nFee nSpare else 0) - nCarried

def spentPoints (w : Wallet env) : List COutPoint :=
  (w.txs.filter (fun wtx => !wtx.merkle.tx.isCoinBase)).flatMap (fun wtx => wtx.merkle.tx.prevouts)

structure Cached (w : Wallet env) (wtx : WalletTx) : Prop where
  debit : ∀ n, wtx.nDebitCached = some n → n = w.plainIn wtx.merkle.tx
  debitInclName : ∀ n, wtx.nDebitInclNameCached = some n → n = w.ownIn wtx.merkle.tx
  credit : ∀ n, wtx.nCreditCached = some n → n = w.plainOut wtx.merkle.tx
  availableCredit : ∀ n, wtx.nAvailableCreditCached = some n →
    n = ((unspentOuts wtx).map w.plainValue).sum

structure Settled (w : Wallet env) (e : NodeEnv) (s : NodeState) : Prop where
  isFinal : ∀ wtx ∈ w.txs, wtx.merkle.tx.isFinalNow e s = true
  confirmed : ∀ wtx ∈ w.txs, 1 ≤ wtx.getDepthInMainChain e s
  mature : ∀ wtx ∈ w.txs, wtx.getBlocksToMaturity e s = 0
  flagged : ∀ wtx ∈ w.txs, ∀ p ∈ wtx.merkle.tx.vout.zipIdx, w.toCWallet.isMineTxOut p.1 = true →
    ((wtx.vfSpent[p.2]?).getD false = true ↔ ⟨wtx.merkle.tx.getHash env, p.2⟩ ∈ w.spentPoints)
  once : w.spentPoints.Nodup
  values : ∀ wtx ∈ w.txs, ∀ txout ∈ wtx.merkle.tx.vout, 0 ≤ txout.nValue
  valueOut : ∀ wtx ∈ w.txs, (wtx.merkle.tx.vout.map CTxOut.nValue).sum ≤ maxMoney
  valueIn : ∀ wtx ∈ w.txs, w.ownIn wtx.merkle.tx ≤ maxMoney
  cached : ∀ wtx ∈ w.txs, w.Cached wtx

section Values

variable {e : NodeEnv} {s : NodeState} {wtx : WalletTx}

theorem mapWallet_prev {h : Uint256} {prev : CWalletTx} (hget : w.toCWallet.mapWallet h = some prev) :
    ∃ wtx ∈ w.txs, wtx.merkle = prev.merkle := by
  obtain ⟨wtx, hwtx, rfl⟩ := Option.map_eq_some_iff.mp hget
  exact ⟨wtx, mem_txs hwtx, rfl⟩

theorem getDebit_range (h : w.Settled e s) (txin : CTxIn) :
    0 ≤ w.toCWallet.getDebit txin ∧
      w.toCWallet.getDebit txin ≤ w.toCWallet.getDebitInclName txin := by
  unfold CWallet.getDebit CWallet.getDebitInclName
  cases hprev : w.toCWallet.mapWallet txin.prevout.hash with
  | none => exact ⟨le_refl 0, le_refl 0⟩
  | some prev =>
    obtain ⟨wtx, hwtx, hmerkle⟩ := mapWallet_prev hprev
    dsimp only
    cases hout : prev.merkle.tx.vout[txin.prevout.n]? with
    | none => exact ⟨le_refl 0, le_refl 0⟩
    | some txout =>
      rw [← hmerkle] at hout
      have hvalue := h.values wtx hwtx txout (List.mem_of_getElem? hout)
      dsimp only
      cases w.toCWallet.isMineTxOut txout with
      | true => simpa using hvalue
      | false =>
        simp only [Bool.false_eq_true, if_false, Bool.false_or, le_refl, true_and]
        split <;> omega

theorem plainIn_range (h : w.Settled e s) (tx : CTransaction) :
    0 ≤ w.plainIn tx ∧ w.plainIn tx ≤ w.ownIn tx := by
  constructor
  · apply List.sum_nonneg
    intro n hn
    obtain ⟨txin, -, rfl⟩ := List.mem_map.mp hn
    exact (getDebit_range h txin).1
  · apply List.sum_le_sum
    intro txin _
    exact (getDebit_range h txin).2

theorem debitFrom_eq (w : CWallet) (vin : List CTxIn) (n : Int) :
    w.debitFrom vin n = sumInRange "CWallet::GetDebitInclName() : value out of range"
      (fun txin => .ok (w.getDebitInclName txin)) vin n := by
  induction vin generalizing n with
  | nil => rfl
  | cons txin vin ih =>
    rw [CWallet.debitFrom, sumInRange]
    simp only [ih]
    rfl

theorem getDebitInclName_settled (h : w.Settled e s) (hwtx : wtx ∈ w.txs) :
    w.getDebitInclName wtx = .ok (w.ownIn wtx.merkle.tx) := by
  unfold getDebitInclName
  split
  · rename_i hnil
    rw [ownIn, hnil]
    rfl
  · split
    · rename_i n hn
      rw [(h.cached wtx hwtx).debitInclName n hn]
    · rw [debitFrom_eq, sumInRange_ok (fun _ _ => rfl) ?_ (le_refl 0), zero_add]
      · rfl
      · rw [zero_add]
        exact h.valueIn wtx hwtx
      · intro txin _
        obtain ⟨hpos, hle⟩ := getDebit_range h txin
        exact hpos.trans hle

theorem getDebit_settled (h : w.Settled e s) (hwtx : wtx ∈ w.txs) :
    w.getDebit wtx = .ok (w.plainIn wtx.merkle.tx) := by
  unfold getDebit
  split
  · rename_i hnil
    rw [plainIn, hnil]
    rfl
  · split
    · rename_i n hn
      rw [(h.cached wtx hwtx).debit n hn]
    · rw [sumInRange_ok (fun _ _ => rfl) ?_ (le_refl 0), zero_add]
      · rfl
      · rw [zero_add]
        exact (plainIn_range h wtx.merkle.tx).2.trans (h.valueIn wtx hwtx)
      · intro txin _
        exact (getDebit_range h txin).1

theorem credit_settled {msg : String} {vout : List CTxOut} (h : w.Settled e s) (hwtx : wtx ∈ w.txs)
    (hsub : vout.Sublist wtx.merkle.tx.vout) :
    sumInRange msg w.toCWallet.getCredit vout 0 = .ok (vout.map w.plainValue).sum := by
  have hvalues := h.values wtx hwtx
  have hpos : ∀ n ∈ wtx.merkle.tx.vout.map CTxOut.nValue, 0 ≤ n := by simpa using hvalues
  have hsum : (vout.map CTxOut.nValue).sum ≤ maxMoney :=
    ((hsub.map CTxOut.nValue).sum_le_sum hpos).trans (h.valueOut wtx hwtx)
  have hplain : ∀ txout ∈ vout, 0 ≤ w.plainValue txout ∧ w.plainValue txout ≤ txout.nValue := by
    intro txout htxout
    have hvalue := hvalues txout (hsub.subset htxout)
    unfold plainValue
    split <;> omega
  rw [sumInRange_ok (g := w.plainValue) ?_ (fun txout htxout => (hplain txout htxout).1) (le_refl 0),
    zero_add]
  · rw [zero_add]
    exact (List.sum_le_sum fun txout htxout => (hplain txout htxout).2).trans hsum
  · intro txout htxout
    have hvalue := hvalues txout (hsub.subset htxout)
    have hle : txout.nValue ≤ maxMoney :=
      (List.single_le_sum hpos _ (List.mem_map_of_mem (hsub.subset htxout))).trans
        (h.valueOut wtx hwtx)
    have hrange : moneyRange txout.nValue = true := by
      simp only [moneyRange, Bool.and_eq_true, decide_eq_true_eq]
      exact ⟨hvalue, hle⟩
    rw [CWallet.getCredit, hrange, if_neg (by simp)]
    rfl

theorem getCredit_settled (h : w.Settled e s) (hwtx : wtx ∈ w.txs) :
    w.getCredit e s wtx = .ok (w.plainOut wtx.merkle.tx) := by
  rw [getCredit, h.mature wtx hwtx, if_neg (by simp)]
  split
  · rename_i n hn
    rw [(h.cached wtx hwtx).credit n hn]
  · exact credit_settled h hwtx (List.Sublist.refl _)

theorem unspentOuts_sublist (wtx : WalletTx) : (unspentOuts wtx).Sublist wtx.merkle.tx.vout := by
  have hsub := (List.filter_sublist (p := fun p : CTxOut × Nat => !(wtx.vfSpent[p.2]?).getD false)
    (l := wtx.merkle.tx.vout.zipIdx)).map Prod.fst
  rwa [List.zipIdx_map_fst] at hsub

theorem availableBalance_settled (h : w.Settled e s) (hwtx : wtx ∈ w.txs) (fuel : Nat) :
    w.availableBalance e s fuel wtx = .ok ((unspentOuts wtx).map w.plainValue).sum := by
  have hconfirmed : w.isConfirmed e s fuel wtx = .ok true := by
    rw [isConfirmed, h.isFinal wtx hwtx, if_neg (by simp), if_pos (h.confirmed wtx hwtx)]
  rw [availableBalance, h.isFinal wtx hwtx, if_neg (by simp), hconfirmed]
  change w.getAvailableCredit e s wtx = _
  rw [getAvailableCredit, h.mature wtx hwtx, if_neg (by simp)]
  split
  · rename_i n hn
    rw [(h.cached wtx hwtx).availableCredit n hn]
  · exact credit_settled h hwtx (unspentOuts_sublist wtx)

def spentIn (w : Wallet env) (tx : CTransaction) : Int := if tx.isCoinBase then 0 else w.plainIn tx

theorem totalTx_generated (h : w.Settled e s) (hwtx : wtx ∈ w.txs)
    (hcoinbase : wtx.merkle.tx.isCoinBase = true) :
    w.totalTx e s 0 wtx =
      .ok (w.plainOut wtx.merkle.tx - w.spentIn wtx.merkle.tx + w.nameGap wtx.merkle.tx) := by
  have hamounts : w.getAmounts e s wtx =
      .ok ⟨0, w.plainOut wtx.merkle.tx, [], [], 0, wtx.strFromAccount, false⟩ := by
    rw [getAmounts, if_pos hcoinbase, generatedAmounts, h.mature wtx hwtx, if_neg (by simp),
      getCredit_settled h hwtx]
    rfl
  rw [totalTx, h.isFinal wtx hwtx, if_neg (by simp), hamounts, spentIn, nameGap, if_pos hcoinbase]
  simp [hcoinbase]

theorem netValue_sum (nDebit : Int) (vout : List CTxOut) :
    (vout.map (w.netValue nDebit)).sum = (vout.map w.plainValue).sum +
      if 0 < nDebit then (vout.map lockedValue).sum - (vout.map CTxOut.nValue).sum else 0 := by
  induction vout with
  | nil => simp
  | cons txout vout ih =>
    simp only [List.map_cons, List.sum_cons, ih, netValue]
    split <;> omega

theorem nameValue_nonneg {vout : List CTxOut} (h : ∀ txout ∈ vout, 0 ≤ txout.nValue) :
    0 ≤ (vout.map lockedValue).sum ∧ 0 ≤ (vout.map reservedValue).sum := by
  constructor
  · apply List.sum_nonneg
    intro n hn
    obtain ⟨txout, htxout, rfl⟩ := List.mem_map.mp hn
    have := h txout htxout
    unfold lockedValue
    dsimp only
    split <;> omega
  · apply List.sum_nonneg
    intro n hn
    obtain ⟨txout, htxout, rfl⟩ := List.mem_map.mp hn
    have := h txout htxout
    unfold reservedValue
    dsimp only
    split <;> omega

theorem sentAmounts_settled (h : w.Settled e s) (hwtx : wtx ∈ w.txs) :
    ∃ a, w.sentAmounts wtx = .ok a ∧ a.nGeneratedMature = 0 ∧
      (a.listReceived.map Prod.snd).sum - (a.listSent.map Prod.snd).sum - a.nFee =
        (w.plainOut wtx.merkle.tx + if 0 < w.ownIn wtx.merkle.tx then
          (wtx.merkle.tx.vout.map lockedValue).sum - (wtx.merkle.tx.vout.map CTxOut.nValue).sum
        else 0) - feeAfterCarry
          (w.ownIn wtx.merkle.tx - w.plainIn wtx.merkle.tx -
            ((wtx.merkle.tx.vout.map lockedValue).sum + (wtx.merkle.tx.vout.map reservedValue).sum))
          (if 0 < w.ownIn wtx.merkle.tx then
            w.ownIn wtx.merkle.tx - (wtx.merkle.tx.vout.map CTxOut.nValue).sum
          else 0) := by
  let tx := wtx.merkle.tx
  let t := tx.vout.foldl (w.tallyOut tx (w.ownIn tx)) ⟨[], [], w.ownIn tx - w.plainIn tx⟩
  let nFee := if 0 < w.ownIn tx then w.ownIn tx - (tx.vout.map CTxOut.nValue).sum else 0
  have hfee : feeBeforeCarry tx (w.ownIn tx) = .ok nFee := by
    have hvalueOut : tx.getValueOut = .ok (tx.vout.map CTxOut.nValue).sum := by
      rw [CTransaction.getValueOut, valueOutFrom_money (h.values wtx hwtx) (le_refl 0), zero_add]
      rw [zero_add]
      exact h.valueOut wtx hwtx
    rw [feeBeforeCarry, hvalueOut]
    change _ = Except.ok (if _ then _ else _)
    split <;> rfl
  have hsent : w.sentAmounts wtx =
      .ok ⟨0, 0, t.listReceived, t.listSent, feeAfterCarry t.nCarriedOverCoin nFee,
        wtx.strFromAccount, decide (w.ownIn tx - w.plainIn tx ≠ 0)⟩ := by
    refine Except.bind_eq_ok.mpr ⟨_, getDebitInclName_settled h hwtx, ?_⟩
    refine Except.bind_eq_ok.mpr ⟨_, hfee, ?_⟩
    exact Except.bind_eq_ok.mpr ⟨_, getDebit_settled h hwtx, rfl⟩
  obtain ⟨hnet, hcarried⟩ := @tally_net env w tx (w.ownIn tx)
    ⟨[], [], w.ownIn tx - w.plainIn tx⟩ tx.vout
  refine ⟨_, hsent, rfl, ?_⟩
  change t.net - feeAfterCarry t.nCarriedOverCoin nFee = _
  rw [hnet, hcarried, netValue_sum]
  simp [OutTally.net, plainOut, tx, nFee]

theorem net_eq_gap {nPlainOut nPlainIn nOwnIn nLocked nReserved nValueOut : Int}
    (hplain : 0 ≤ nPlainIn) (hown : nPlainIn ≤ nOwnIn) (hlocked : 0 ≤ nLocked)
    (hreserved : 0 ≤ nReserved) :
    (nPlainOut + if 0 < nOwnIn then nLocked - nValueOut else 0) -
        feeAfterCarry (nOwnIn - nPlainIn - (nLocked + nReserved))
          (if 0 < nOwnIn then nOwnIn - nValueOut else 0) =
      nPlainOut - nPlainIn + if nOwnIn = 0 then 0
        else (if 0 < nOwnIn - nPlainIn - nLocked - nReserved then
          min (nOwnIn - nValueOut) (nOwnIn - nPlainIn - nLocked - nReserved) else 0) -
            (nOwnIn - nPlainIn - nLocked) := by
  unfold feeAfterCarry
  rcases Classical.em (nOwnIn = 0) with hzero | hne
  · rw [if_neg (by omega), if_neg (by omega), if_pos hzero, if_neg (by omega)]
    omega
  · have hpos : 0 < nOwnIn := by omega
    rw [if_pos hpos, if_pos hpos, if_neg hne]
    rcases Classical.em (0 < nOwnIn - nPlainIn - nLocked - nReserved) with hspare | hnone
    · rw [if_pos (by omega), if_pos hspare]
      split <;> omega
    · rw [if_neg (by omega), if_neg hnone]
      omega

theorem totalTx_sent (h : w.Settled e s) (hwtx : wtx ∈ w.txs)
    (hcoinbase : wtx.merkle.tx.isCoinBase = false) :
    w.totalTx e s 0 wtx =
      .ok (w.plainOut wtx.merkle.tx - w.spentIn wtx.merkle.tx + w.nameGap wtx.merkle.tx) := by
  obtain ⟨a, hsent, hmature, hsum⟩ := sentAmounts_settled h hwtx
  obtain ⟨hplain, hown⟩ := plainIn_range h wtx.merkle.tx
  obtain ⟨hlocked, hreserved⟩ := nameValue_nonneg (h.values wtx hwtx)
  have hdepth : 0 ≤ wtx.getDepthInMainChain e s := by
    have := h.confirmed wtx hwtx
    omega
  have hamounts : w.getAmounts e s wtx = .ok a := by
    rw [getAmounts, hcoinbase, if_neg (by simp), hsent]
  rw [totalTx, h.isFinal wtx hwtx, if_neg (by simp), hamounts]
  refine congrArg Except.ok ?_
  have hspent : w.spentIn wtx.merkle.tx = w.plainIn wtx.merkle.tx := by
    rw [spentIn, hcoinbase, if_neg (by simp)]
  rw [if_pos hdepth, hmature, hsum, hspent, nameGap, net_eq_gap hplain hown hlocked hreserved,
    add_zero]
  simp only [hcoinbase, Bool.false_eq_true, false_or]

theorem totalTx_settled (h : w.Settled e s) (hwtx : wtx ∈ w.txs) :
    w.totalTx e s 0 wtx =
      .ok (w.plainOut wtx.merkle.tx - w.spentIn wtx.merkle.tx + w.nameGap wtx.merkle.tx) := by
  cases hcoinbase : wtx.merkle.tx.isCoinBase with
  | true => exact totalTx_generated h hwtx hcoinbase
  | false => exact totalTx_sent h hwtx hcoinbase

end Values

section Telescope

def plainAt (w : Wallet env) (prevout : COutPoint) : Int := w.toCWallet.getDebit ⟨prevout, [], 0⟩

def outsOf (w : Wallet env) (wtx : WalletTx) : List (COutPoint × Int) :=
  wtx.merkle.tx.vout.zipIdx.map (fun q => (⟨wtx.merkle.tx.getHash env, q.2⟩, w.plainValue q.1))

def outs (w : Wallet env) : List (COutPoint × Int) := w.txs.flatMap w.outsOf

theorem txs_get {wtx : WalletTx} (hwtx : wtx ∈ w.txs) :
    w.mapWallet[wtx.merkle.tx.getHash env]? = some wtx := by
  obtain ⟨⟨h, wtx'⟩, hp, rfl⟩ := List.mem_map.mp hwtx
  have hget := TreeMap.mem_toList_iff_getElem?_eq_some.mp hp
  rw [w.keyed h wtx' hget]
  exact hget

theorem mem_outs {k : COutPoint} {v : Int} : (k, v) ∈ w.outs ↔
    ∃ wtx txout, w.mapWallet[k.hash]? = some wtx ∧ wtx.merkle.tx.vout[k.n]? = some txout ∧
      v = w.plainValue txout := by
  constructor
  · intro h
    obtain ⟨wtx, hwtx, hin⟩ := List.mem_flatMap.mp h
    obtain ⟨⟨txout, i⟩, hq, heq⟩ := List.mem_map.mp hin
    obtain ⟨rfl, rfl⟩ := Prod.mk.inj heq
    exact ⟨wtx, txout, txs_get hwtx, List.mem_zipIdx_iff_getElem?.mp hq, rfl⟩
  · rintro ⟨wtx, txout, hwtx, hout, rfl⟩
    refine List.mem_flatMap.mpr ⟨wtx, mem_txs hwtx, List.mem_map.mpr ⟨(txout, k.n),
      List.mem_zipIdx_iff_getElem?.mpr hout, ?_⟩⟩
    rw [w.keyed k.hash wtx hwtx]

theorem plainAt_outs {p : COutPoint × Int} (hp : p ∈ w.outs) : w.plainAt p.1 = p.2 := by
  obtain ⟨wtx, txout, hwtx, hout, hv⟩ := mem_outs.mp hp
  simp only [plainAt, CWallet.getDebit, toCWallet, hwtx, Option.map_some, hout, hv]
  rfl

theorem plainAt_other {k : COutPoint} (hk : k ∉ w.outs.map Prod.fst) : w.plainAt k = 0 := by
  have hnot : ∀ v, (k, v) ∉ w.outs := fun v hv => hk (List.mem_map.mpr ⟨(k, v), hv, rfl⟩)
  unfold plainAt CWallet.getDebit
  dsimp only [toCWallet]
  cases hwtx : w.mapWallet[k.hash]? with
  | none => rfl
  | some wtx =>
    rw [Option.map_some]
    dsimp only
    cases hout : wtx.merkle.tx.vout[k.n]? with
    | none => rfl
    | some txout => exact absurd (mem_outs.mpr ⟨wtx, txout, hwtx, hout, rfl⟩) (hnot _)

theorem outs_nodup (w : Wallet env) : (w.outs.map Prod.fst).Nodup := by
  rw [outs, List.map_flatMap]
  apply List.nodup_flatMap.mpr
  constructor
  · intro wtx _
    rw [outsOf, List.map_map]
    have hcomp : (Prod.fst ∘ fun q : CTxOut × Nat =>
        ((⟨wtx.merkle.tx.getHash env, q.2⟩ : COutPoint), w.plainValue q.1)) =
          (fun i => (⟨wtx.merkle.tx.getHash env, i⟩ : COutPoint)) ∘ Prod.snd := rfl
    rw [hcomp, ← List.map_map]
    apply List.Nodup.map
    · intro i j hij
      exact (COutPoint.mk.inj hij).2
    · rw [List.zipIdx_map_snd]
      exact List.nodup_range'
  · have hkeys := OrderedMap.distinct_keys w.mapWallet
    apply List.pairwise_map.mpr
    apply hkeys.imp_of_mem
    intro a b ha hb hne k hka hkb
    have hhash : ∀ p ∈ w.mapWallet.toList, k ∈ (w.outsOf p.2).map Prod.fst → k.hash = p.1 := by
      intro p hp hk
      obtain ⟨q, hq, rfl⟩ := List.mem_map.mp hk
      obtain ⟨r, -, rfl⟩ := List.mem_map.mp hq
      exact w.keyed p.1 p.2 (TreeMap.mem_toList_iff_getElem?_eq_some.mp hp)
    exact hne ((hhash a ha hka).symm.trans (hhash b hb hkb))

theorem spentPoints_sum (w : Wallet env) :
    (w.spentPoints.map w.plainAt).sum = (w.txs.map (fun wtx => w.spentIn wtx.merkle.tx)).sum := by
  unfold spentPoints
  induction w.txs with
  | nil => rfl
  | cons wtx l ih =>
    cases hcoinbase : wtx.merkle.tx.isCoinBase with
    | true =>
      rw [List.filter_cons_of_neg (by simp [hcoinbase]), ih, List.map_cons, List.sum_cons, spentIn,
        if_pos hcoinbase, zero_add]
    | false =>
      have hprev : (wtx.merkle.tx.prevouts.map w.plainAt).sum = w.plainIn wtx.merkle.tx := by
        rw [CTransaction.prevouts, List.map_map]
        rfl
      rw [List.filter_cons_of_pos (by simp [hcoinbase]), List.flatMap_cons, List.map_append,
        List.sum_append, ih, hprev, List.map_cons, List.sum_cons, spentIn, hcoinbase,
        if_neg (by simp)]

theorem split_flagged {α : Type} {f : α → Int} {flag mem : α → Bool} {l : List α}
    (h : ∀ q ∈ l, f q ≠ 0 → flag q = mem q) :
    ((l.filter (fun q => !flag q)).map f).sum + (l.map (fun q => if mem q then f q else 0)).sum =
      (l.map f).sum := by
  induction l with
  | nil => rfl
  | cons q l ih =>
    obtain ⟨hq, hl⟩ := List.forall_mem_cons.mp h
    have hrest := ih hl
    have hhead : (if flag q = true then 0 else f q) + (if mem q = true then f q else 0) = f q := by
      rcases Classical.em (f q = 0) with hzero | hne
      · simp [hzero]
      · rw [hq hne]
        split <;> omega
    rw [List.filter_cons, List.map_cons, List.map_cons, List.sum_cons, List.sum_cons]
    cases hflag : flag q with
    | true =>
      rw [hflag] at hhead
      simp only [Bool.not_true, Bool.false_eq_true, if_false, if_true] at hhead ⊢
      omega
    | false =>
      rw [hflag] at hhead
      simp only [Bool.not_false, Bool.false_eq_true, if_false, if_true, List.map_cons,
        List.sum_cons] at hhead ⊢
      omega

theorem unspent_settled {e : NodeEnv} {s : NodeState} (h : w.Settled e s) {wtx : WalletTx}
    (hwtx : wtx ∈ w.txs) :
    ((unspentOuts wtx).map w.plainValue).sum +
        ((w.outsOf wtx).map (fun p => if p.1 ∈ w.spentPoints then p.2 else 0)).sum =
      w.plainOut wtx.merkle.tx := by
  have hsplit := @split_flagged (CTxOut × Nat) (fun q => w.plainValue q.1)
    (fun q => (wtx.vfSpent[q.2]?).getD false)
    (fun q => decide (⟨wtx.merkle.tx.getHash env, q.2⟩ ∈ w.spentPoints))
    wtx.merkle.tx.vout.zipIdx (by
      intro q hq hne
      have hmine : w.toCWallet.isMineTxOut q.1 = true := by
        cases hm : w.toCWallet.isMineTxOut q.1 with
        | true => rfl
        | false => simp [plainValue, hm] at hne
      have hflag := h.flagged wtx hwtx q hq hmine
      exact Bool.eq_iff_iff.mpr (hflag.trans decide_eq_true_iff.symm))
  have hout : wtx.merkle.tx.vout.zipIdx.map (fun q => w.plainValue q.1) =
      wtx.merkle.tx.vout.map w.plainValue := by
    have hcomp : (fun q : CTxOut × Nat => w.plainValue q.1) = w.plainValue ∘ Prod.fst := rfl
    rw [hcomp, ← List.map_map, List.zipIdx_map_fst]
  rw [hout] at hsplit
  rw [plainOut, ← hsplit, unspentOuts, outsOf, List.map_map, List.map_map]
  simp only [decide_eq_true_eq]
  rfl

theorem sum_flatMap_outs (g : COutPoint × Int → Int) (l : List WalletTx) :
    ((l.flatMap w.outsOf).map g).sum = (l.map (fun wtx => ((w.outsOf wtx).map g).sum)).sum := by
  induction l with
  | nil => rfl
  | cons wtx l ih =>
    rw [List.flatMap_cons, List.map_append, List.sum_append, ih, List.map_cons, List.sum_cons]

theorem unspent_sum {e : NodeEnv} {s : NodeState} (h : w.Settled e s) :
    (w.txs.map (fun wtx => ((unspentOuts wtx).map w.plainValue).sum)).sum =
      (w.txs.map (fun wtx => w.plainOut wtx.merkle.tx - w.spentIn wtx.merkle.tx)).sum := by
  have hspent : (w.txs.map (fun wtx =>
      ((w.outsOf wtx).map (fun p => if p.1 ∈ w.spentPoints then p.2 else 0)).sum)).sum =
        (w.txs.map (fun wtx => w.spentIn wtx.merkle.tx)).sum := by
    rw [← sum_flatMap_outs, ← spentPoints_sum]
    exact (OrderedMap.sum_lookup w.outs_nodup h.once (fun p hp => plainAt_outs hp)
      (fun k hk => plainAt_other hk)).symm
  have hsplit : (w.txs.map (fun wtx => ((unspentOuts wtx).map w.plainValue).sum)).sum +
      (w.txs.map (fun wtx =>
        ((w.outsOf wtx).map (fun p => if p.1 ∈ w.spentPoints then p.2 else 0)).sum)).sum =
          (w.txs.map (fun wtx => w.plainOut wtx.merkle.tx)).sum := by
    rw [← List.sum_map_add]
    exact congrArg List.sum (List.map_congr_left fun wtx hwtx => unspent_settled h hwtx)
  rw [OrderedMap.sum_map_sub]
  omega

theorem balances_agree_iff (w : Wallet env) (e : NodeEnv) (s : NodeState) (h : w.Settled e s)
    (b : AccountBook) (fuel : Nat) :
    ∃ n n' : Int, w.getbalance e s b fuel none = .ok n ∧
      w.getbalance e s b fuel (some (str "*", 0)) = .ok n' ∧
      (n = n' ↔ (w.txs.map (fun wtx => w.nameGap wtx.merkle.tx)).sum = 0) := by
  have hone : w.getBalance e s fuel =
      .ok (w.txs.map (fun wtx => ((unspentOuts wtx).map w.plainValue).sum)).sum := by
    rw [getBalance, Except.mapM_map fun wtx hwtx => availableBalance_settled h hwtx fuel]
    rfl
  have htwo : w.getTotalBalance e s 0 = .ok (w.txs.map (fun wtx =>
      w.plainOut wtx.merkle.tx - w.spentIn wtx.merkle.tx + w.nameGap wtx.merkle.tx)).sum := by
    rw [getTotalBalance, Except.mapM_map fun wtx hwtx => totalTx_settled h hwtx]
    rfl
  refine ⟨_, _, hone, htwo, ?_⟩
  rw [unspent_sum h, List.sum_map_add]
  omega

end Telescope

end Wallet

def nameUpdateScript : CScript :=
  [UInt8.ofNat (op1 + 2), 1, 100, 1, 101, UInt8.ofNat opDrop] ++
    setBitcoinAddress (sampleEnv.hash160 walletPubKey)

def confirmedTx (nVersion : Int) (ins : List (Uint256 × Nat)) (outs : List (Int × CScript))
    (vfSpent : List Bool) : WalletTx :=
  { plainTx with
    merkle := ⟨sampleTx nVersion ins outs, zeroBlock.getHash sampleEnv, [], 0⟩
    vfSpent := vfSpent }

def tenTx : WalletTx := confirmedTx 1 [(5, 0)] [(10 * coin, payToPubkey walletPubKey)] [true]

def ownedNameTx : WalletTx := confirmedTx namecoinTxVersion [(5, 1)] [(cent, nameUpdateScript)] []

def updateTx (nName : Int) : WalletTx :=
  confirmedTx namecoinTxVersion
    [(ownedNameTx.merkle.tx.getHash sampleEnv, 0), (tenTx.merkle.tx.getHash sampleEnv, 0)]
    [(nName, nameUpdateScript), (10 * coin - nName, payToPubkey walletPubKey)] [false, false]

def updateWallet (nName : Int) : Wallet sampleEnv :=
  ((blankWallet.putTx tenTx).putTx ownedNameTx).putTx (updateTx nName)

theorem uncached {w : Wallet sampleEnv} (h : ∀ wtx ∈ w.txs, wtx.nDebitCached = none ∧
      wtx.nDebitInclNameCached = none ∧ wtx.nCreditCached = none ∧
      wtx.nAvailableCreditCached = none) : ∀ wtx ∈ w.txs, w.Cached wtx := by
  intro wtx hwtx
  obtain ⟨h1, h2, h3, h4⟩ := h wtx hwtx
  constructor
  · simp [h1]
  · simp [h2]
  · simp [h3]
  · simp [h4]

theorem raisedName_settled : (updateWallet (5 * coin)).Settled sampleNodeEnv zeroNode where
  isFinal := by decide +kernel
  confirmed := by decide +kernel
  mature := by decide +kernel
  flagged := by decide +kernel
  once := by decide +kernel
  values := by decide +kernel
  valueOut := by decide +kernel
  valueIn := by decide +kernel
  cached := uncached (by decide +kernel)

theorem keptName_settled : (updateWallet cent).Settled sampleNodeEnv zeroNode where
  isFinal := by decide +kernel
  confirmed := by decide +kernel
  mature := by decide +kernel
  flagged := by decide +kernel
  once := by decide +kernel
  values := by decide +kernel
  valueOut := by decide +kernel
  valueIn := by decide +kernel
  cached := uncached (by decide +kernel)

theorem keptName_balances :
    ∃ n n' : Int, (updateWallet cent).getbalance sampleNodeEnv zeroNode ⟨∅, 0⟩ 0 none = .ok n ∧
      (updateWallet cent).getbalance sampleNodeEnv zeroNode ⟨∅, 0⟩ 0 (some (str "*", 0)) = .ok n' ∧
      n = n' := by
  obtain ⟨n, n', hone, htwo, hiff⟩ := Wallet.balances_agree_iff (updateWallet cent) sampleNodeEnv
    zeroNode keptName_settled ⟨∅, 0⟩ 0
  exact ⟨n, n', hone, htwo, hiff.mpr (by decide +kernel)⟩

theorem raisedName_balances :
    (updateWallet (5 * coin)).Settled sampleNodeEnv zeroNode ∧
      (updateWallet (5 * coin)).getbalance sampleNodeEnv zeroNode ⟨∅, 0⟩ 0 none = .ok (5 * coin) ∧
      (updateWallet (5 * coin)).getbalance sampleNodeEnv zeroNode ⟨∅, 0⟩ 0 (some (str "*", 0)) =
        .ok (10 * coin - cent) := by
  exact ⟨raisedName_settled, by decide +kernel⟩

end Namecoin
