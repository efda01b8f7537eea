import Namecoin.Node.DistinctInputs

namespace Namecoin

open Act

def AddsOrphan (e : NodeEnv) (tx : CTransaction) (rl : TxRelay) : Prop :=
  (exec (acceptTx e tx) rl).1 = .ok false ∧ fMissingInputs e tx rl.node = true

def NodeState.UnknownInput (s : NodeState) (tx : CTransaction) : Prop :=
  ∃ p ∈ prevouts tx.vin, s.chain.dbset.tx p.hash = none ∧ s.mapTransactions p.hash = none

section Relay

variable {e : NodeEnv} {tx : CTransaction} {rl : TxRelay}

theorem fMissingInputs_iff {s : NodeState} : fMissingInputs e tx s = true ↔
    checkPoolTx e tx true s = .ok () ∧ ∃ msg, (poolConnect e tx s).1 = .error (.reject msg) := by
  unfold fMissingInputs
  cases checkPoolTx e tx true s with
  | error fault => simp
  | ok u =>
    cases (poolConnect e tx s).1 with
    | ok u => simp
    | error fault => cases fault <;> simp [Fault.isReject]

theorem addsOrphan_iff : AddsOrphan e tx rl ↔ checkPoolTx e tx true rl.node = .ok () ∧
    ∃ msg, (poolConnect e tx rl.node).1 = .error (.reject msg) := by
  constructor
  · exact fun h => fMissingInputs_iff.mp h.2
  · intro h
    refine ⟨?_, fMissingInputs_iff.mpr h⟩
    obtain ⟨hcheck, msg, hconnect⟩ := h
    have hinputs : checkPoolInputs e tx true (rl.rateLimiter 0) rl.node = .error (.reject msg) := by
      rw [checkPoolInputs_eq, hconnect]
      rfl
    have hrun : exec (acceptToMemoryPool e tx true true (rl.rateLimiter 0)) rl.node =
        (.error (.reject msg), rl.node) := by
      rw [acceptToMemoryPool, exec_get_bind, hcheck, hinputs]
      rfl
    rw [acceptTx, exec_get_bind, hrun]
    rfl

theorem orphan_only_unknown_iff (e : NodeEnv) (tx : CTransaction) (rl : TxRelay) :
    (AddsOrphan e tx rl → rl.node.UnknownInput tx) ↔
      checkPoolTx e tx true rl.node ≠ .ok () ∨ rl.node.UnknownInput tx ∨
        ∀ pindexBest, rl.node.pindexBest.bind rl.node.mapBlockIndex = some pindexBest →
          ¬BreaksRule e rl.node tx pindexBest := by
  constructor
  · intro h
    by_cases hcheck : checkPoolTx e tx true rl.node = .ok ()
    · by_cases hunknown : rl.node.UnknownInput tx
      · exact .inr (.inl hunknown)
      · refine .inr (.inr fun pindexBest hbest hbreaks => hunknown (h ?_))
        have hloose := (checkPoolTx_iff.mp hcheck).1
        have hentering : Entering e rl.node tx pindexBest :=
          ⟨hbest, hloose.valid, hloose.notCoinBase⟩
        exact addsOrphan_iff.mpr ⟨hcheck, hentering.refuses_iff.mpr hbreaks⟩
    · exact .inl hcheck
  · rintro hcond hadds
    obtain ⟨hcheck, msg, hrefused⟩ := addsOrphan_iff.mp hadds
    rcases hcond with hno | hunknown | hmet
    · exact absurd hcheck hno
    · exact hunknown
    · have hloose := (checkPoolTx_iff.mp hcheck).1
      cases hbest : rl.node.pindexBest.bind rl.node.mapBlockIndex with
      | none =>
        rw [poolConnect, hbest] at hrefused
        cases hrefused
      | some pindexBest =>
        have hentering : Entering e rl.node tx pindexBest :=
          ⟨hbest, hloose.valid, hloose.notCoinBase⟩
        exact absurd (hentering.refuses_iff.mp ⟨msg, hrefused⟩) (hmet pindexBest hbest)

def fundedRelay : TxRelay := ⟨fundedNode, fun _ => none, [], fun _ => false⟩

theorem orphan_with_known_inputs :
    AddsOrphan sampleNodeEnv (spendFund 100) fundedRelay ∧
      ¬fundedRelay.node.UnknownInput (spendFund 100) := by
  have hknown : ∀ p ∈ prevouts (spendFund 100).vin,
      ¬(fundedNode.chain.dbset.tx p.hash = none ∧ fundedNode.mapTransactions p.hash = none) := by
    decide +kernel
  refine ⟨⟨by decide +kernel, by decide +kernel⟩, ?_⟩
  rintro ⟨p, hp, hunknown⟩
  exact hknown p hp hunknown

end Relay

end Namecoin
