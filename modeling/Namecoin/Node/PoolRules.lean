import Namecoin.Node.PoolInputs
import Namecoin.Chain.Overflow

namespace Namecoin

open Act

section Names

def ConnState.withCaches (vin : List CTxInCache) (s : ConnState) : ConnState := { s with vin := vin }

variable {v : List CTxInCache}

theorem NameCall.connectInputs_caches {c : NameCall} (hb : c.fBlock = false)
    (vTxPrev : List CTransaction) :
    Commutes (ConnState.withCaches v) (c.connectInputs vTxPrev) :=
  connectInputs_commutes (f := ConnState.withCaches v) hb (fun _ => rfl) (fun _ _ _ => rfl) vTxPrev

end Names

def prevIndex (t : TxMap) (p : COutPoint) : CTxIndex :=
  (t p.hash).getD (CTxIndex.make CDiskTxPos.null (p.n + 1))

namespace TxCall

structure Meets (c : TxCall) (t : TxMap) (i : Nat) (txin : CTxIn) (txPrev : CTransaction)
    (txout : CTxOut) : Prop where
  indexed : txin.prevout.n < (prevIndex t txin.prevout).getOutputCount
  read : c.readPrev txin.prevout (t txin.prevout.hash).isSome (prevIndex t txin.prevout) =
    .ok txPrev
  output : txPrev.vout[txin.prevout.n]? = some txout
  named : txin.prevout.hash = txPrev.getHash c.env
  signed : c.env.verifyScript txin.scriptSig txout.scriptPubKey c.tx i 0 = true
  mature : ¬(txPrev.isCoinBase = true ∧ c.immature (prevIndex t txin.prevout).pos = true)
  unspent : (prevIndex t txin.prevout).isSpent[txin.prevout.n]? ≠ some true

def addInput (t : TxMap) (txin : CTxIn) (txPrev : CTransaction) (nValue nValueIn : Int) :
    Except Fault (CTransaction × CTxIndex × Int) := do
  let nValueIn ← add64 nValueIn nValue
  Except.raiseIf (¬(moneyRange nValue ∧ moneyRange nValueIn))
    (.reject "ConnectInputs() : txin values out of range")
  pure (txPrev, (prevIndex t txin.prevout).setSpent txin.prevout.n true, nValueIn)

section Input

variable {c : TxCall} {s : ConnState} {i : Nat} {txin : CTxIn} {txPrev : CTransaction}
  {txout : CTxOut} {nValueIn : Int}

theorem verifySignature_cases (c : TxCall) {i : Nat} {s : ConnState} (txin : CTxIn)
    (txPrev : CTransaction) (hfresh : (s.vin.getD i CTxInCache.empty).fChecked = false) :
    (∃ msg, exec (c.verifySignature i txin txPrev) s = (.error (.reject msg), s) ∧
        ∀ txout, txPrev.vout[txin.prevout.n]? = some txout →
          txin.prevout.hash = txPrev.getHash c.env →
          c.env.verifyScript txin.scriptSig txout.scriptPubKey c.tx i 0 ≠ true) ∨
      ∃ txout s', txPrev.vout[txin.prevout.n]? = some txout ∧
        txin.prevout.hash = txPrev.getHash c.env ∧
        c.env.verifyScript txin.scriptSig txout.scriptPubKey c.tx i 0 = true ∧
        exec (c.verifySignature i txin txPrev) s = (.ok (), s') := by
  unfold verifySignature
  rw [exec_get_bind]
  cases hout : txPrev.vout[txin.prevout.n]? with
  | none => exact .inl ⟨_, rfl, fun _ h => by cases h⟩
  | some txout =>
    simp only [exec_raiseIf_bind, hfresh, Bool.and_false, true_and]
    split
    · next hother => exact .inl ⟨_, rfl, fun _ _ h => absurd h hother⟩
    · next hnamed =>
      split
      · next hbad =>
        refine .inl ⟨_, rfl, fun out h _ => ?_⟩
        obtain rfl := Option.some.inj h
        simp [hbad]
      · next hsigned =>
        exact .inr ⟨txout, _, rfl, not_not.mp hnamed, by simpa using hsigned, rfl⟩

theorem fetchPrev_fresh {prevout : COutPoint} {fFound : Bool} {txindex : CTxIndex}
    (hfresh : s.vin.getD i CTxInCache.empty = CTxInCache.empty) :
    (∃ msg, exec (c.fetchPrev i prevout fFound txindex) s = (.error (.reject msg), s) ∧
        ∀ txPrev, c.readPrev prevout fFound txindex ≠ .ok txPrev) ∨
      ∃ txPrev s', c.readPrev prevout fFound txindex = .ok txPrev ∧
        exec (c.fetchPrev i prevout fFound txindex) s = (.ok txPrev, s') ∧
        (s'.vin.getD i CTxInCache.empty).fChecked = false := by
  unfold fetchPrev
  rw [exec_get_bind, hfresh]
  cases hread : c.readPrev prevout fFound txindex with
  | error fault =>
    obtain ⟨msg, rfl⟩ := readPrev_refuses hread
    exact .inl ⟨msg, rfl, by simp⟩
  | ok txPrev =>
    refine .inr ⟨txPrev, _, rfl, rfl, ?_⟩
    change ((s.vin.modify i _).getD i CTxInCache.empty).fChecked = false
    rw [List.getD_eq_getElem?_getD] at hfresh ⊢
    rw [List.getElem?_modify]
    cases hat : s.vin[i]? with
    | none => simp [CTxInCache.empty]
    | some cache =>
      rw [hat, Option.getD_some] at hfresh
      simp [hfresh, CTxInCache.empty]

theorem receive_run (c : TxCall) (s : ConnState) {t : TxMap} (i : Nat) (txin : CTxIn)
    (txPrev : CTransaction) (hout : txPrev.vout[txin.prevout.n]? = some txout) (nValueIn : Int)
    (f : CTxInCache → CTxInCache) :
    (exec (do
      putCache i f
      let nValueIn ← fromExcept (add64 nValueIn
        ((txPrev.vout[txin.prevout.n]?.map CTxOut.nValue).getD 0))
      raiseIf (¬(moneyRange ((txPrev.vout[txin.prevout.n]?.map CTxOut.nValue).getD 0) = true ∧
        moneyRange nValueIn = true)) (.reject "ConnectInputs() : txin values out of range")
      c.writeBack txin.prevout.hash ((prevIndex t txin.prevout).setSpent txin.prevout.n true)
      pure (txPrev, (prevIndex t txin.prevout).setSpent txin.prevout.n true, nValueIn) :
        Act Fault ConnState (CTransaction × CTxIndex × Int)) s).1 =
      addInput t txin txPrev txout.nValue nValueIn := by
  have hvalue : ((txPrev.vout[txin.prevout.n]?.map CTxOut.nValue).getD 0) = txout.nValue := by
    rw [hout]
    rfl
  rw [hvalue, putCache, exec_modify_bind, exec_fromExcept_bind, addInput]
  refine congrArg (Except.bind _) (funext fun n => ?_)
  rw [exec_raiseIf_bind, Except.raiseIf]
  split
  · rfl
  · rfl

def InputOutcome (c : TxCall) (t : TxMap) (i : Nat) (txin : CTxIn) (nValueIn : Int)
    (r : Except Fault (CTransaction × CTxIndex × Int)) : Prop :=
  ((∃ msg, r = .error (.reject msg)) ∧ ∀ txPrev txout, ¬c.Meets t i txin txPrev txout) ∨
    ∃ txPrev txout, c.Meets t i txin txPrev txout ∧
      r = addInput t txin txPrev txout.nValue nValueIn

theorem connectInput_outcome (hb : c.fBlock = false) (hm : c.fMiner = false) (i : Nat)
    (txin : CTxIn) (nValueIn : Int)
    (hfresh : s.vin.getD i CTxInCache.empty = CTxInCache.empty) :
    c.InputOutcome s.dbset.tx i txin nValueIn (exec (c.connectInput i txin nValueIn) s).1 := by
  have hindex : (c.readTxIndex s txin.prevout.hash).getD
      (CTxIndex.make CDiskTxPos.null (txin.prevout.n + 1)) = prevIndex s.dbset.tx txin.prevout := by
    rw [readTxIndex_pool hm]
    rfl
  unfold connectInput
  simp only [exec_get_bind, exec_raiseIf_bind, readTxIndex_pool hm, hb, hm, Bool.or_self,
    Bool.false_eq_true, and_false, if_false]
  split
  · next hout => exact .inl ⟨⟨_, rfl⟩, fun _ _ h => Nat.not_le.mpr h.indexed hout⟩
  · next hin =>
    rcases fetchPrev_fresh hfresh with ⟨msg, hfetch, hno⟩ | ⟨txPrev, s₁, hread, hfetch, hunchecked⟩
    · rw [exec_bind_error hfetch]
      exact .inl ⟨⟨msg, rfl⟩, fun txPrev _ h => hno txPrev h.read⟩
    · rw [exec_bind_ok hfetch, exec_raiseIf_bind]
      have hread' : ∀ {txPrev' txout}, c.Meets s.dbset.tx i txin txPrev' txout → txPrev' = txPrev :=
        fun h => Except.ok.inj (h.read.symm.trans hread)
      split
      · next hshort =>
        refine .inl ⟨⟨_, rfl⟩, fun txPrev' txout h => ?_⟩
        obtain rfl := hread' h
        exact Nat.not_le.mpr (List.getElem?_eq_some_iff.mp h.output).1 hshort
      · next hlong =>
        rw [exec_doIf_bind, if_pos (by simp [hb])]
        rcases verifySignature_cases c txin txPrev hunchecked with
          ⟨msg, hsig, hno⟩ | ⟨txout, s₂, hout, hnamed, hsigned, hsig⟩
        · rw [exec_bind_error hsig]
          refine .inl ⟨⟨msg, rfl⟩, fun txPrev' txout h => ?_⟩
          obtain rfl := hread' h
          exact hno txout h.output h.named h.signed
        · rw [exec_bind_ok hsig, exec_raiseIf_bind]
          split
          · next hyoung =>
            refine .inl ⟨⟨_, rfl⟩, fun txPrev' txout h => ?_⟩
            obtain rfl := hread' h
            rw [hindex] at hyoung
            exact h.mature hyoung
          · next hmature =>
            rw [exec_raiseIf_bind]
            split
            · next hspent =>
              rw [hindex] at hspent
              exact .inl ⟨⟨_, rfl⟩, fun _ _ h => h.unspent hspent⟩
            · next hunspent =>
              rw [hindex] at hmature hunspent
              refine .inr ⟨txPrev, txout, ⟨Nat.not_le.mp hin, hread, hout, hnamed, hsigned,
                hmature, hunspent⟩, ?_⟩
              exact receive_run c s₂ i txin txPrev hout nValueIn _

theorem Meets.unique {t : TxMap} {txPrev' : CTransaction} {txout' : CTxOut}
    (h : c.Meets t i txin txPrev txout) (h' : c.Meets t i txin txPrev' txout') :
    txPrev = txPrev' ∧ txout = txout' := by
  obtain rfl := Except.ok.inj (h.read.symm.trans h'.read)
  exact ⟨rfl, Option.some.inj (h.output.symm.trans h'.output)⟩

theorem addInput_ok {t : TxMap} {nValue : Int} {r : CTransaction × CTxIndex × Int} :
    addInput t txin txPrev nValue nValueIn = .ok r ↔
      (moneyRange nValue = true ∧ moneyRange (nValueIn + nValue) = true) ∧
        r = (txPrev, (prevIndex t txin.prevout).setSpent txin.prevout.n true, nValueIn + nValue) := by
  simp only [addInput, Except.bind_eq_ok, Except.raiseIf_eq_ok, Except.pure_eq_ok, not_not]
  constructor
  · rintro ⟨n, hadd, -, hrange, rfl⟩
    obtain ⟨rfl, -⟩ := add64_ok.mp hadd
    exact ⟨hrange, rfl⟩
  · rintro ⟨hrange, rfl⟩
    have hm := maxMoney_eq
    obtain ⟨hlow, hhigh⟩ := moneyRange_iff.mp hrange.2
    exact ⟨_, add64_ok.mpr ⟨rfl, by omega, by omega⟩, (), hrange, rfl⟩

theorem addInput_refuses {t : TxMap} {nValue : Int} :
    (∃ msg, addInput t txin txPrev nValue nValueIn = .error (.reject msg)) ↔
      (-2 ^ 63 ≤ nValueIn + nValue ∧ nValueIn + nValue < 2 ^ 63) ∧
        ¬(moneyRange nValue = true ∧ moneyRange (nValueIn + nValue) = true) := by
  by_cases hfits : -2 ^ 63 ≤ nValueIn + nValue ∧ nValueIn + nValue < 2 ^ 63
  · by_cases hrange : moneyRange nValue = true ∧ moneyRange (nValueIn + nValue) = true
    · rw [addInput_ok.mpr ⟨hrange, rfl⟩]
      exact iff_of_false (fun ⟨msg, h⟩ => by cases h) (fun h => h.2 hrange)
    · refine iff_of_true ⟨"ConnectInputs() : txin values out of range", ?_⟩ ⟨hfits, hrange⟩
      rw [addInput, add64, if_pos hfits]
      change (Except.raiseIf _ _).bind _ = _
      rw [Except.raiseIf, if_pos hrange]
      rfl
  · refine iff_of_false ?_ (fun h => hfits h.1)
    rw [addInput, add64, if_neg hfits]
    rintro ⟨msg, h⟩
    cases h

end Input

inductive Settled (c : TxCall) (t : TxMap) :
    List CTxIn → Nat → Int → List (CTransaction × CTxIndex) → Int → Prop
  | nil (i : Nat) (n : Int) : Settled c t [] i n [] n
  | cons {txin : CTxIn} {rest : List CTxIn} {i : Nat} {n n' : Int} {txPrev : CTransaction}
      {txout : CTxOut} {rs : List (CTransaction × CTxIndex)}
      (meets : c.Meets t i txin txPrev txout)
      (range : moneyRange txout.nValue = true ∧ moneyRange (n + txout.nValue) = true)
      (tail : Settled c t rest (i + 1) (n + txout.nValue) rs n') :
      Settled c t (txin :: rest) i n
        ((txPrev, (prevIndex t txin.prevout).setSpent txin.prevout.n true) :: rs) n'

structure RefusesInput (c : TxCall) (t : TxMap) (i : Nat) (txin : CTxIn) (n : Int) : Prop where
  refuses : ∀ txPrev txout, c.Meets t i txin txPrev txout →
    (-2 ^ 63 ≤ n + txout.nValue ∧ n + txout.nValue < 2 ^ 63) ∧
      ¬(moneyRange txout.nValue = true ∧ moneyRange (n + txout.nValue) = true)

inductive RefusesVin (c : TxCall) (t : TxMap) : List CTxIn → Nat → Int → Prop
  | here {txin : CTxIn} {rest : List CTxIn} {i : Nat} {n : Int}
      (refuses : c.RefusesInput t i txin n) : RefusesVin c t (txin :: rest) i n
  | later {txin : CTxIn} {rest : List CTxIn} {i : Nat} {n : Int} {txPrev : CTransaction}
      {txout : CTxOut} (meets : c.Meets t i txin txPrev txout)
      (range : moneyRange txout.nValue = true ∧ moneyRange (n + txout.nValue) = true)
      (tail : RefusesVin c t rest (i + 1) (n + txout.nValue)) : RefusesVin c t (txin :: rest) i n

section Vin

variable {c : TxCall} {s s' : ConnState}

theorem connectInput_ok_iff (hb : c.fBlock = false) (hm : c.fMiner = false) {i : Nat}
    {txin : CTxIn} {nValueIn : Int} {r : CTransaction × CTxIndex × Int}
    (hfresh : s.vin.getD i CTxInCache.empty = CTxInCache.empty) :
    (exec (c.connectInput i txin nValueIn) s).1 = .ok r ↔
      ∃ txPrev txout, c.Meets s.dbset.tx i txin txPrev txout ∧
        (moneyRange txout.nValue = true ∧ moneyRange (nValueIn + txout.nValue) = true) ∧
        r = (txPrev, (prevIndex s.dbset.tx txin.prevout).setSpent txin.prevout.n true,
          nValueIn + txout.nValue) := by
  rcases connectInput_outcome hb hm i txin nValueIn hfresh with
    ⟨⟨msg, hrun⟩, hno⟩ | ⟨txPrev, txout, hmeets, hrun⟩
  · rw [hrun]
    constructor
    · intro h
      cases h
    · rintro ⟨txPrev, txout, hmeets, -⟩
      exact absurd hmeets (hno txPrev txout)
  · rw [hrun, addInput_ok]
    constructor
    · exact fun h => ⟨txPrev, txout, hmeets, h⟩
    · rintro ⟨txPrev', txout', hmeets', h⟩
      obtain ⟨rfl, rfl⟩ := hmeets.unique hmeets'
      exact h

theorem connectInput_refuses_iff (hb : c.fBlock = false) (hm : c.fMiner = false) {i : Nat}
    {txin : CTxIn} {nValueIn : Int}
    (hfresh : s.vin.getD i CTxInCache.empty = CTxInCache.empty) :
    (∃ msg, (exec (c.connectInput i txin nValueIn) s).1 = .error (.reject msg)) ↔
      c.RefusesInput s.dbset.tx i txin nValueIn := by
  rcases connectInput_outcome hb hm i txin nValueIn hfresh with
    ⟨⟨msg, hrun⟩, hno⟩ | ⟨txPrev, txout, hmeets, hrun⟩
  · exact iff_of_true ⟨msg, hrun⟩ ⟨fun txPrev txout h => absurd h (hno txPrev txout)⟩
  · rw [hrun, addInput_refuses]
    constructor
    · intro h
      refine ⟨fun txPrev' txout' hmeets' => ?_⟩
      obtain ⟨rfl, rfl⟩ := hmeets.unique hmeets'
      exact h
    · exact fun h => h.refuses txPrev txout hmeets

def FreshFrom (i : Nat) (s : ConnState) : Prop :=
  ∀ j, i ≤ j → s.vin.getD j CTxInCache.empty = CTxInCache.empty

theorem FreshFrom.next {i : Nat} (h : FreshFrom i s) (honly : OnlyInput i s s') :
    FreshFrom (i + 1) s' := fun j hj => by
  rw [honly.others j (by omega)]
  exact h j (by omega)

theorem connectVin_ok_iff (hb : c.fBlock = false) (hm : c.fMiner = false) {vin : List CTxIn}
    {i : Nat} {n m : Int} {rs : List (CTransaction × CTxIndex)} (hfresh : FreshFrom i s) :
    (exec (c.connectVin vin i n) s).1 = .ok (rs, m) ↔ c.Settled s.dbset.tx vin i n rs m := by
  induction vin generalizing s i n rs m with
  | nil =>
    constructor
    · intro h
      obtain ⟨rfl, rfl⟩ := Prod.mk.inj (Except.ok.inj h)
      exact .nil i n
    · rintro ⟨⟩
      rfl
  | cons txin rest ih =>
    have hfirst := @connectInput_ok_iff c s hb hm i txin n
    rw [connectVin, exec_bind]
    rcases hx : exec (c.connectInput i txin n) s with ⟨x, s₁⟩
    have hx₁ : (exec (c.connectInput i txin n) s).1 = x := by rw [hx]
    cases x with
    | error fault =>
      constructor
      · intro h
        cases h
      · rintro (- | ⟨hmeets, hrange, -⟩)
        have hok := (hfirst (hfresh i le_rfl)).mpr ⟨_, _, hmeets, hrange, rfl⟩
        cases hok.symm.trans hx₁
    | ok r₁ =>
      obtain ⟨txPrev, txout, hmeets, hrange, rfl⟩ := (hfirst (hfresh i le_rfl)).mp hx₁
      have honly := connectInput_onlyInput_ok hb hm hx
      dsimp only
      rw [exec_bind]
      have hrest := fun rs m => @ih s₁ (i + 1) (n + txout.nValue) m rs (hfresh.next honly)
      rw [honly.dbset] at hrest
      rcases hy : exec (c.connectVin rest (i + 1) (n + txout.nValue)) s₁ with ⟨y, s₂⟩
      rw [hy] at hrest
      cases y with
      | error fault =>
        constructor
        · intro h
          cases h
        · rintro (- | ⟨hmeets', -, htail⟩)
          obtain ⟨-, rfl⟩ := hmeets.unique hmeets'
          have hok := (hrest _ _).mpr htail
          cases hok
      | ok r₂ =>
        constructor
        · intro h
          obtain ⟨rfl, rfl⟩ := Prod.mk.inj (Except.ok.inj h)
          exact .cons hmeets hrange ((hrest _ _).mp rfl)
        · rintro (- | ⟨hmeets', -, htail⟩)
          obtain ⟨rfl, rfl⟩ := hmeets.unique hmeets'
          obtain rfl := Except.ok.inj ((hrest _ _).mpr htail)
          rfl

theorem connectVin_refuses_iff (hb : c.fBlock = false) (hm : c.fMiner = false)
    {vin : List CTxIn} {i : Nat} {n : Int} (hfresh : FreshFrom i s) :
    (∃ msg, (exec (c.connectVin vin i n) s).1 = .error (.reject msg)) ↔
      c.RefusesVin s.dbset.tx vin i n := by
  induction vin generalizing s i n with
  | nil =>
    constructor
    · rintro ⟨msg, h⟩
      cases h
    · rintro ⟨⟩
  | cons txin rest ih =>
    have hfirst := @connectInput_ok_iff c s hb hm i txin n
    have hrefuse := @connectInput_refuses_iff c s hb hm i txin n (hfresh i le_rfl)
    rw [connectVin, exec_bind]
    rcases hx : exec (c.connectInput i txin n) s with ⟨x, s₁⟩
    have hx₁ : (exec (c.connectInput i txin n) s).1 = x := by rw [hx]
    rw [hx] at hrefuse
    cases x with
    | error fault =>
      simp only [Except.error.injEq] at hrefuse ⊢
      constructor
      · exact fun h => .here (hrefuse.mp h)
      · rintro (⟨hbad⟩ | ⟨hmeets, hrange, -⟩)
        · exact hrefuse.mpr hbad
        · have hok := (hfirst (hfresh i le_rfl)).mpr ⟨_, _, hmeets, hrange, rfl⟩
          cases hok.symm.trans hx₁
    | ok r₁ =>
      obtain ⟨txPrev, txout, hmeets, hrange, rfl⟩ := (hfirst (hfresh i le_rfl)).mp hx₁
      have honly := connectInput_onlyInput_ok hb hm hx
      have hrest := @ih s₁ (i + 1) (n + txout.nValue) (hfresh.next honly)
      rw [honly.dbset] at hrest
      have htail : (∃ msg, (exec (do
          let rs ← c.connectVin rest (i + 1) (n + txout.nValue)
          pure ((txPrev, (prevIndex s.dbset.tx txin.prevout).setSpent txin.prevout.n true) :: rs.1,
            rs.2) : Act Fault ConnState _) s₁).1 = .error (.reject msg)) ↔
          ∃ msg, (exec (c.connectVin rest (i + 1) (n + txout.nValue)) s₁).1 =
            .error (.reject msg) := by
        rw [exec_bind]
        rcases exec (c.connectVin rest (i + 1) (n + txout.nValue)) s₁ with ⟨y, s₂⟩
        cases y with
        | error fault => rfl
        | ok r₂ => simp
      rw [htail, hrest]
      constructor
      · exact fun h => .later hmeets hrange h
      · rintro (⟨hbad⟩ | ⟨hmeets', -, h⟩)
        · exact absurd hrange (hbad.refuses _ _ hmeets).2
        · obtain ⟨-, rfl⟩ := hmeets.unique hmeets'
          exact h

def CachesOnly (s s' : ConnState) : Prop := ∃ v, s' = s.withCaches v

theorem cachesOnly_refl (s : ConnState) : CachesOnly s s := ⟨s.vin, rfl⟩

theorem CachesOnly.trans {a b d : ConnState} : CachesOnly a b → CachesOnly b d → CachesOnly a d := by
  rintro ⟨v, rfl⟩ ⟨w, rfl⟩
  exact ⟨w, rfl⟩

theorem putCache_cachesOnly (i : Nat) (g : CTxInCache → CTxInCache) :
    Keeps CachesOnly (putCache i g) := keeps_modify (fun s => ⟨s.vin.modify i g, rfl⟩)

theorem connectVin_cachesOnly (hb : c.fBlock = false) (hm : c.fMiner = false) (vin : List CTxIn)
    (i : Nat) (nValueIn : Int) : Keeps CachesOnly (c.connectVin vin i nValueIn) :=
  connectVin_keeps cachesOnly_refl @CachesOnly.trans putCache_cachesOnly
    (writeBack_idle hb hm cachesOnly_refl) vin i nValueIn

theorem Settled.range {t : TxMap} {vin : List CTxIn} {i : Nat} {n m : Int}
    {rs : List (CTransaction × CTxIndex)} (h : c.Settled t vin i n rs m)
    (hn : moneyRange n = true) : moneyRange m = true := by
  induction h with
  | nil => exact hn
  | cons _ hrange _ ih => exact ih hrange.2

end Vin

section Fee

variable {c : TxCall} {s : ConnState}

theorem valueOut_of_checkOutputs {vout : List CTxOut} {n : Int} {u : Unit}
    (hn : moneyRange n = true) (h : checkOutputs vout n = .ok u) :
    valueOutFrom vout n = .ok (n + valueOf vout) := by
  induction vout generalizing n with
  | nil => simp [valueOutFrom, valueOf]
  | cons o vout ih =>
    simp only [checkOutputs, Except.bind_eq_ok, Except.raiseIf_eq_ok] at h
    obtain ⟨-, hlow, -, hhigh, m, hadd, -, hrange, hrest⟩ := h
    have hm := add64_ok.mp hadd
    obtain ⟨rfl, -⟩ := hm
    have hout : moneyRange o.nValue = true := moneyRange_iff.mpr ⟨by omega, by omega⟩
    have hgo := ih (not_not.mp hrange) hrest
    rw [valueOutFrom, hadd]
    change (Except.raiseIf _ _).bind _ = _
    rw [Except.raiseIf, if_neg (not_not.mpr ⟨hout, not_not.mp hrange⟩)]
    change valueOutFrom vout (n + o.nValue) = _
    rw [hgo, valueOf, valueOf, List.map_cons, List.sum_cons, Int.add_assoc]

theorem tallyFee_run (hfees : s.nFees = 0) {n m : Int} (hout : c.tx.getValueOut = .ok m)
    (hn : moneyRange n = true) (hm : moneyRange m = true) :
    if n < m then ∃ msg, (exec (c.tallyFee n 0) s).1 = .error (.reject msg)
    else exec (c.tallyFee n 0) s = (.ok (), { s with nFees := n - m }) := by
  have hmax := maxMoney_eq
  obtain ⟨hnlow, hnhigh⟩ := moneyRange_iff.mp hn
  obtain ⟨hmlow, hmhigh⟩ := moneyRange_iff.mp hm
  have hsub : add64 n (-m) = .ok (n - m) := add64_ok.mpr ⟨by omega, by omega, by omega⟩
  simp only [tallyFee, hout, fromExcept, pure_bind, hsub]
  rw [exec_raiseIf_bind]
  split
  · next hless => exact ⟨_, by rw [if_pos (by omega)]⟩
  · next henough =>
    have hadd : add64 s.nFees (n - m) = .ok (n - m) := by
      rw [hfees]
      exact add64_ok.mpr ⟨by omega, by omega, by omega⟩
    rw [if_neg (by omega), exec_raiseIf_bind, if_neg (by omega), exec_get_bind, hadd]
    simp only [pure_bind]
    rw [exec_modify_bind, raiseIf, if_neg]
    · rfl
    · rw [not_not]
      exact moneyRange_iff.mpr ⟨by omega, by omega⟩

end Fee

end TxCall

section Connect

variable {e : NodeEnv} {tx : CTransaction} {s : NodeState} {pindexBest : CBlockIndex}

def nameRule (c : TxCall) (s : ConnState) (rs : List (CTransaction × CTxIndex)) :
    Except Fault Unit :=
  (exec ((c.nameCall CDiskTxPos.memPool (rs.map Prod.snd)).connectInputs (rs.map Prod.fst)) s).1

theorem NameCall.connectInputs_still {c : NameCall} (hb : c.fBlock = false)
    (vTxPrev : List CTransaction) : Keeps Eq (c.connectInputs vTxPrev) := by
  have hr : ∀ s : ConnState, s = s := fun _ => rfl
  have happly : ∀ d prev, Keeps Eq (c.applyNameOp d prev) := by
    intro d prev
    refine keeps_bind (@Eq.trans ConnState) (keeps_get hr) (fun s => ?_)
    refine keeps_bind (@Eq.trans ConnState) (keeps_fromExcept hr _) (fun vchName => ?_)
    refine keeps_bind (@Eq.trans ConnState) (keeps_fromExcept hr _) (fun bad => ?_)
    refine keeps_bind (@Eq.trans ConnState) (keeps_raiseIf hr _ _) (fun _ => ?_)
    simp only [doIf, hb, Bool.false_eq_true, false_and, if_false]
    exact keeps_bind (@Eq.trans ConnState) (keeps_pure hr _) (fun _ => keeps_pure hr _)
  refine keeps_bind (@Eq.trans ConnState) (keeps_fromOption hr _ _) (fun prev => ?_)
  split
  · exact keeps_bind (@Eq.trans ConnState) (keeps_raiseIf hr _ _) (fun _ => keeps_raiseIf hr _ _)
  · refine keeps_bind (@Eq.trans ConnState) (keeps_fromOption hr _ _) (fun d => ?_)
    refine keeps_bind (@Eq.trans ConnState) (keeps_get hr) (fun s => ?_)
    exact keeps_bind (@Eq.trans ConnState) (keeps_fromExcept hr _) (fun _ => keeps_doIf hr _ (happly _ _))

theorem poolStart_fresh (s : NodeState) (tx : CTransaction) :
    TxCall.FreshFrom 0 (poolStart s tx) := by
  intro j _
  rw [poolStart, List.getD_eq_getElem?_getD, List.getElem?_map]
  cases tx.vin[j]? <;> rfl

structure RulesMet (e : NodeEnv) (s : NodeState) (tx : CTransaction) (pindexBest : CBlockIndex)
    (rs : List (CTransaction × CTxIndex)) (nValueIn : Int) : Prop where
  settled : (poolCall e s pindexBest tx).Settled s.chain.dbset.tx tx.vin 0 0 rs nValueIn
  names : nameRule (poolCall e s pindexBest tx) (poolStart s tx) rs = .ok ()
  funded : valueOf tx.vout ≤ nValueIn

inductive BreaksRule (e : NodeEnv) (s : NodeState) (tx : CTransaction)
    (pindexBest : CBlockIndex) : Prop
  | input (h : (poolCall e s pindexBest tx).RefusesVin s.chain.dbset.tx tx.vin 0 0)
  | names {rs : List (CTransaction × CTxIndex)} {nValueIn : Int} {msg : String}
      (settled : (poolCall e s pindexBest tx).Settled s.chain.dbset.tx tx.vin 0 0 rs nValueIn)
      (refuses : nameRule (poolCall e s pindexBest tx) (poolStart s tx) rs = .error (.reject msg))
  | fee {rs : List (CTransaction × CTxIndex)} {nValueIn : Int}
      (settled : (poolCall e s pindexBest tx).Settled s.chain.dbset.tx tx.vin 0 0 rs nValueIn)
      (names : nameRule (poolCall e s pindexBest tx) (poolStart s tx) rs = .ok ())
      (short : nValueIn < valueOf tx.vout)

theorem nameRule_run {c : TxCall} (hb : c.fBlock = false) (s : ConnState) (v : List CTxInCache)
    (rs : List (CTransaction × CTxIndex)) :
    exec ((c.nameCall CDiskTxPos.memPool (rs.map Prod.snd)).connectInputs (rs.map Prod.fst))
      (s.withCaches v) = (nameRule c s rs, s.withCaches v) := by
  let hook := (c.nameCall CDiskTxPos.memPool (rs.map Prod.snd)).connectInputs (rs.map Prod.fst)
  have hstill : s = (exec hook s).2 := NameCall.connectInputs_still hb _ s
  have hsame : exec hook (s.withCaches v) = ((exec hook s).1, (exec hook s).2.withCaches v) :=
    NameCall.connectInputs_caches hb _ s
  rw [← hstill] at hsame
  exact hsame

theorem spendInputs_settled {rs : List (CTransaction × CTxIndex)} {n : Int}
    (hset : (poolCall e s pindexBest tx).Settled s.chain.dbset.tx tx.vin 0 0 rs n) :
    ∃ v, exec ((poolCall e s pindexBest tx).spendInputs CDiskTxPos.memPool 0) (poolStart s tx) =
      exec (fromExcept (nameRule (poolCall e s pindexBest tx) (poolStart s tx) rs) >>= fun _ =>
        (poolCall e s pindexBest tx).tallyFee n 0) ((poolStart s tx).withCaches v) := by
  have hvin := exec_eta ((TxCall.connectVin_ok_iff rfl rfl (poolStart_fresh s tx)).mpr hset)
  obtain ⟨v, hv⟩ := @TxCall.connectVin_cachesOnly (poolCall e s pindexBest tx) rfl rfl tx.vin 0 0
    (poolStart s tx)
  rw [hv] at hvin
  refine ⟨v, ?_⟩
  have hname := @nameRule_run (poolCall e s pindexBest tx) rfl (poolStart s tx) v rs
  rw [TxCall.spendInputs, show (poolCall e s pindexBest tx).tx.vin = tx.vin from rfl,
    exec_bind_ok hvin]
  dsimp only
  rw [exec_bind, hname]
  cases nameRule (poolCall e s pindexBest tx) (poolStart s tx) rs with
  | error fault => rfl
  | ok u => rfl

theorem poolConnect_spends (hbest : s.pindexBest.bind s.mapBlockIndex = some pindexBest)
    (hloose : tx.isCoinBase = false) :
    poolConnect e tx s =
      exec ((poolCall e s pindexBest tx).spendInputs CDiskTxPos.memPool 0) (poolStart s tx) := by
  have hadd : ∀ t, exec ((poolCall e s pindexBest tx).addTxIndex CDiskTxPos.memPool) t =
      (.ok (), t) := fun t => rfl
  have hdo : doIf ((poolCall e s pindexBest tx).tx.isCoinBase = false)
      ((poolCall e s pindexBest tx).spendInputs CDiskTxPos.memPool 0) =
      (poolCall e s pindexBest tx).spendInputs CDiskTxPos.memPool 0 := if_pos hloose
  rw [poolConnect, hbest]
  dsimp only
  rw [TxCall.connectInputs, exec_bind, hdo]
  rcases exec ((poolCall e s pindexBest tx).spendInputs CDiskTxPos.memPool 0)
    (poolStart s tx) with ⟨r, t⟩
  cases r with
  | error fault => rfl
  | ok u => exact hadd t

structure Entering (e : NodeEnv) (s : NodeState) (tx : CTransaction) (pindexBest : CBlockIndex) :
    Prop where
  best : s.pindexBest.bind s.mapBlockIndex = some pindexBest
  valid : tx.checkTransaction e.env = .ok ()
  loose : tx.isCoinBase = false

theorem Entering.valueOut (h : Entering e s tx pindexBest) :
    tx.getValueOut = .ok (valueOf tx.vout) := by
  have hchecked := h.valid
  simp only [CTransaction.checkTransaction, Except.bind_eq_ok] at hchecked
  obtain ⟨-, -, -, -, u, hout, -⟩ := hchecked
  have hval := TxCall.valueOut_of_checkOutputs moneyRange_zero hout
  rwa [Int.zero_add] at hval

theorem Entering.settled (h : Entering e s tx pindexBest) {rs : List (CTransaction × CTxIndex)}
    {n : Int} (hset : (poolCall e s pindexBest tx).Settled s.chain.dbset.tx tx.vin 0 0 rs n)
    (hname : nameRule (poolCall e s pindexBest tx) (poolStart s tx) rs = .ok ()) :
    if n < valueOf tx.vout then ∃ msg, (poolConnect e tx s).1 = .error (.reject msg)
    else (poolConnect e tx s).1 = .ok () ∧ (poolConnect e tx s).2.nFees = n - valueOf tx.vout := by
  obtain ⟨v, hrun⟩ := spendInputs_settled hset
  have htally := @TxCall.tallyFee_run (poolCall e s pindexBest tx) ((poolStart s tx).withCaches v)
    rfl n _ h.valueOut (hset.range moneyRange_zero) (checkTransaction_ok h.valid).2
  rw [poolConnect_spends h.best h.loose, hrun, hname]
  change if n < valueOf tx.vout then ∃ msg, (exec ((poolCall e s pindexBest tx).tallyFee n 0)
      ((poolStart s tx).withCaches v)).1 = .error (.reject msg)
    else (exec ((poolCall e s pindexBest tx).tallyFee n 0)
        ((poolStart s tx).withCaches v)).1 = .ok () ∧ (exec ((poolCall e s pindexBest tx).tallyFee n 0)
        ((poolStart s tx).withCaches v)).2.nFees = n - valueOf tx.vout
  split
  · next hshort => rwa [if_pos hshort] at htally
  · next henough =>
    rw [if_neg henough] at htally
    rw [htally]
    exact ⟨rfl, rfl⟩

theorem Entering.vin_error (h : Entering e s tx pindexBest) {fault : Fault}
    (hvin : (exec ((poolCall e s pindexBest tx).connectVin tx.vin 0 0) (poolStart s tx)).1 =
      .error fault) : (poolConnect e tx s).1 = .error fault := by
  rw [poolConnect_spends h.best h.loose, TxCall.spendInputs, exec_bind]
  rw [show (poolCall e s pindexBest tx).tx.vin = tx.vin from rfl]
  rcases hx : exec ((poolCall e s pindexBest tx).connectVin tx.vin 0 0) (poolStart s tx) with ⟨x, t⟩
  rw [hx] at hvin
  obtain rfl : x = .error fault := hvin
  rfl

theorem Entering.names_error (h : Entering e s tx pindexBest)
    {rs : List (CTransaction × CTxIndex)} {n : Int} {fault : Fault}
    (hset : (poolCall e s pindexBest tx).Settled s.chain.dbset.tx tx.vin 0 0 rs n)
    (hname : nameRule (poolCall e s pindexBest tx) (poolStart s tx) rs = .error fault) :
    (poolConnect e tx s).1 = .error fault := by
  obtain ⟨v, hrun⟩ := spendInputs_settled hset
  rw [poolConnect_spends h.best h.loose, hrun, hname]
  rfl

theorem Entering.cases (h : Entering e s tx pindexBest) :
    (∃ fault, (exec ((poolCall e s pindexBest tx).connectVin tx.vin 0 0) (poolStart s tx)).1 =
        .error fault ∧ (poolConnect e tx s).1 = .error fault) ∨
      ∃ rs n, (poolCall e s pindexBest tx).Settled s.chain.dbset.tx tx.vin 0 0 rs n := by
  cases hvin : (exec ((poolCall e s pindexBest tx).connectVin tx.vin 0 0) (poolStart s tx)).1 with
  | error fault => exact .inl ⟨fault, rfl, h.vin_error hvin⟩
  | ok r => exact .inr ⟨r.1, r.2, (TxCall.connectVin_ok_iff rfl rfl (poolStart_fresh s tx)).mp hvin⟩

theorem Entering.ok_iff (h : Entering e s tx pindexBest) :
    (poolConnect e tx s).1 = .ok () ↔ ∃ rs n, RulesMet e s tx pindexBest rs n := by
  constructor
  · intro hok
    rcases h.cases with ⟨fault, -, herr⟩ | ⟨rs, n, hset⟩
    · cases herr.symm.trans hok
    · cases hname : nameRule (poolCall e s pindexBest tx) (poolStart s tx) rs with
      | error fault => cases (h.names_error hset hname).symm.trans hok
      | ok u =>
        have hrun := h.settled hset hname
        split at hrun
        · obtain ⟨msg, herr⟩ := hrun
          cases herr.symm.trans hok
        · next henough => exact ⟨rs, n, hset, hname, Int.not_lt.mp henough⟩
  · rintro ⟨rs, n, hset, hname, hfunded⟩
    have hrun := h.settled hset hname
    rw [if_neg (Int.not_lt.mpr hfunded)] at hrun
    exact hrun.1

theorem Entering.refuses_iff (h : Entering e s tx pindexBest) :
    (∃ msg, (poolConnect e tx s).1 = .error (.reject msg)) ↔ BreaksRule e s tx pindexBest := by
  have hvin := @TxCall.connectVin_refuses_iff (poolCall e s pindexBest tx) (poolStart s tx) rfl rfl
    tx.vin 0 0 (poolStart_fresh s tx)
  constructor
  · rintro ⟨msg, hrefused⟩
    rcases h.cases with ⟨fault, hbad, herr⟩ | ⟨rs, n, hset⟩
    · obtain rfl := Except.error.inj (herr.symm.trans hrefused)
      exact .input (hvin.mp ⟨msg, hbad⟩)
    · cases hname : nameRule (poolCall e s pindexBest tx) (poolStart s tx) rs with
      | error fault =>
        obtain rfl := Except.error.inj ((h.names_error hset hname).symm.trans hrefused)
        exact .names hset hname
      | ok u =>
        have hrun := h.settled hset hname
        split at hrun
        · next hshort => exact .fee hset hname hshort
        · cases hrun.1.symm.trans hrefused
  · rintro (hbad | ⟨hset, hname⟩ | ⟨hset, hname, hshort⟩)
    · obtain ⟨msg, herr⟩ := hvin.mpr hbad
      exact ⟨msg, h.vin_error herr⟩
    · exact ⟨_, h.names_error hset hname⟩
    · have hrun := h.settled hset hname
      rwa [if_pos hshort] at hrun

end Connect

end Namecoin
