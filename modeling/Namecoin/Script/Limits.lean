import Namecoin.Script.Multisig

namespace Namecoin

theorem pickOrRollSteps_agrees (erase : Bool) (st : List VchType) :
    StepsAgree (pickOrRollSteps erase st) (pickOrRoll erase st) := by
  rcases st with _ | ⟨vchN, _ | ⟨x, st⟩⟩
  · exact .fails
  · exact .fails
  · simp only [pickOrRollSteps, pickOrRoll, need_cons, need_zero, ok_steps, bigNumTop, stackTop_head,
      popStack_cons, List.isEmpty_cons, Bool.false_eq_true, if_false]
    cases hn : castToBigNum vchN with
    | none =>
      rw [castSteps, hn]
      exact .tooLong
    | some n =>
      rw [castSteps, hn]
      simp only [ok_steps]
      rcases lt_or_ge n 0 with hneg | hpos
      · rw [if_pos (Or.inl hneg), if_pos hneg]
        exact .fails
      · rw [if_neg (not_lt.mpr hpos)]
        rcases lt_or_ge n.toNat (x :: st).length with hlt | hge
        · have hbound : ¬(n < 0 ∨ ((x :: st).length : Int) ≤ n) := by omega
          rw [if_neg hbound, List.getElem?_eq_getElem hlt, stackTop_of_lt hlt, eraseTop,
            stackTop_of_lt hlt]
          cases erase with
          | false => exact .ok _
          | true => exact .ok _
        · have hbound : n < 0 ∨ ((x :: st).length : Int) ≤ n := by omega
          rw [if_pos hbound, List.getElem?_eq_none hge]
          exact .fails

theorem stackOpSteps_agrees (op : StackOp) (st : List VchType) :
    StepsAgree (stackOpSteps op st) (evalStackOp op st) := by
  cases op with
  | depth => exact .ok _
  | pick => exact pickOrRollSteps_agrees false st
  | roll => exact pickOrRollSteps_agrees true st
  | twoRot =>
    rcases st with _ | ⟨x6, _ | ⟨x5, _ | ⟨x4, _ | ⟨x3, _ | ⟨x2, _ | ⟨x1, st⟩⟩⟩⟩⟩⟩
    all_goals simp [stackOpSteps, evalStackOp, eraseTop]
    all_goals constructor
  | _ =>
    rcases st with _ | ⟨x4, _ | ⟨x3, _ | ⟨x2, _ | ⟨x1, st⟩⟩⟩⟩
    all_goals simp [stackOpSteps, evalStackOp, eraseTop, swapTop, insertTop]
    all_goals constructor

theorem popIfTrue_agrees (vch : VchType) (st : List VchType) :
    StepsAgree (if castToBool vch then popStack (vch :: st) else .error .returnFalse)
      (if castToBool vch then some st else none) := by
  cases castToBool vch with
  | false => exact .fails
  | true => exact .ok st

namespace EvalCall

variable {c : EvalCall}

theorem onStackSteps_agrees {s : EvalState} {f : List VchType → Except ScriptStop (List VchType)}
    {g : List VchType → Option (List VchType)} (h : StepsAgree (f s.stack) (g s.stack)) :
    StepsAgree (onStackSteps s f) (onStack s g) := by
  unfold onStackSteps onStack
  rw [Option.map_eq_bind]
  exact h.bind (fun st _ => .ok _)

theorem branchSteps_agrees (fExec negated : Bool) (s : EvalState) :
    StepsAgree (branchSteps fExec negated s) (evalBranch fExec negated s) := by
  unfold branchSteps evalBranch
  cases fExec with
  | false => exact .ok _
  | true =>
    cases hst : s.stack with
    | nil => exact .fails
    | cons vch st => exact .ok _

theorem opSteps_agrees (fExec : Bool) (pc : CScript) (s : EvalState) (op : Opcode) :
    StepsAgree (c.opSteps fExec pc s op) (c.evalOp fExec pc s op) := by
  cases op with
  | num bn => exact .ok _
  | nop => exact .ok s
  | branch negated => exact branchSteps_agrees fExec negated s
  | otherwise =>
    simp only [opSteps, evalOp]
    cases s.vfExec with
    | nil => exact .fails
    | cons f rest => exact .ok _
  | endBranch =>
    simp only [opSteps, evalOp]
    cases s.vfExec with
    | nil => exact .fails
    | cons f rest => exact .ok _
  | verify =>
    rw [opSteps, evalOp]
    refine onStackSteps_agrees ?_
    cases s.stack with
    | nil => exact .fails
    | cons x st => exact popIfTrue_agrees x st
  | toAltStack =>
    simp only [opSteps, evalOp]
    cases s.stack with
    | nil => exact .fails
    | cons x st => exact .ok _
  | fromAltStack =>
    simp only [opSteps, evalOp]
    cases s.altstack with
    | nil => exact .fails
    | cons x alt => exact .ok _
  | stack op => exact onStackSteps_agrees (stackOpSteps_agrees op s.stack)
  | equal verify =>
    rw [opSteps, evalOp]
    refine onStackSteps_agrees ?_
    rcases s.stack with _ | ⟨x2, _ | ⟨x1, st⟩⟩
    · exact .fails
    · exact .fails
    · exact verifiedSteps_agrees verify (x1 == x2) st
  | unary op =>
    rw [opSteps, evalOp]
    refine onStackSteps_agrees ?_
    rcases s.stack with _ | ⟨x, st⟩
    · exact .fails
    · dsimp only
      rw [Option.map_eq_bind]
      exact (castSteps_agrees x).bind (fun bn _ => .ok _)
  | binary op =>
    rw [opSteps, evalOp]
    refine onStackSteps_agrees ?_
    rcases s.stack with _ | ⟨x2, _ | ⟨x1, st⟩⟩
    · exact .fails
    · exact .fails
    · refine (castSteps_agrees x1).bind (fun bn1 _ => (castSteps_agrees x2).bind (fun bn2 _ => ?_))
      simp only [popStack_cons, ok_steps]
      by_cases hverify : op = .numEqualVerify
      · rw [if_pos hverify, if_pos hverify]
        exact popIfTrue_agrees _ st
      · rw [if_neg hverify, if_neg hverify]
        exact .ok _
  | within =>
    rw [opSteps, evalOp]
    refine onStackSteps_agrees ?_
    rcases s.stack with _ | ⟨x3, _ | ⟨x2, _ | ⟨x1, st⟩⟩⟩
    · exact .fails
    · exact .fails
    · exact .fails
    · exact (castSteps_agrees x1).bind (fun bn1 _ => (castSteps_agrees x2).bind (fun bn2 _ =>
        (castSteps_agrees x3).bind (fun bn3 _ => .ok _)))
  | hash op =>
    rw [opSteps, evalOp]
    refine onStackSteps_agrees ?_
    cases s.stack with
    | nil => exact .fails
    | cons x st => exact .ok _
  | codeSeparator => exact .ok _
  | checkSig verify =>
    rw [opSteps, evalOp]
    refine onStackSteps_agrees ?_
    rcases s.stack with _ | ⟨vchPubKey, _ | ⟨vchSig, st⟩⟩
    · exact .fails
    · exact .fails
    · exact verifiedSteps_agrees verify _ st
  | checkMultisig verify => exact multisigSteps_agrees c verify s

theorem instrSteps_agrees (opcode : Nat) (vch : VchType) (pc : CScript) (s : EvalState) :
    StepsAgree (c.instrSteps opcode vch pc s) (c.evalInstr opcode vch pc s) := by
  unfold instrSteps evalInstr
  refine StepsAgree.ite (fun _ => StepsAgree.ite (fun _ => StepsAgree.ite (fun _ => ?_)))
  have hsize : ∀ t : EvalState, StepsAgree
      (if 1000 < t.stack.length + t.altstack.length then .error .returnFalse else pure t)
      (if 1000 < t.stack.length + t.altstack.length then none else some t) :=
    fun t => StepsAgree.ite (fun _ => .ok t)
  dsimp only
  generalize (if op16 < opcode then s.nOpCount + 1 else s.nOpCount) = nOpCount
  split
  · exact (StepsAgree.ok _).bind (fun t _ => hsize t)
  · split
    · cases opcodeOf opcode with
      | none => exact .fails
      | some op => exact (opSteps_agrees _ pc _ op).bind (fun t _ => hsize t)
    · exact (StepsAgree.ok _).bind (fun t _ => hsize t)

theorem loopSteps_agrees {fuel : Nat} {script : CScript} (h : script.length ≤ fuel) (s : EvalState) :
    StepsAgree (c.loopSteps fuel script s) (c.evalLoop fuel script s) := by
  induction fuel generalizing script s with
  | zero =>
    obtain rfl := List.length_eq_zero_iff.mp (Nat.le_zero.mp h)
    exact .ok s
  | succ fuel ih =>
    cases script with
    | nil => exact .ok s
    | cons b script =>
      rw [loopSteps, evalLoop]
      cases hop : getOp (b :: script) with
      | none => exact .fails
      | some r =>
        obtain ⟨opcode, vch, pc⟩ := r
        have hlt := getOp_length hop
        exact (instrSteps_agrees opcode vch pc s).bind (fun t _ => ih (by omega) t)

theorem scriptSteps_agrees (stack : List VchType) (script : CScript) :
    StepsAgree (c.scriptSteps stack script) (c.evalScript stack script) := by
  unfold scriptSteps evalScript evalFrom
  refine StepsAgree.ite (fun _ => (loopSteps_agrees le_rfl _).bind (fun s _ => ?_))
  cases s.vfExec.isEmpty with
  | false => exact .fails
  | true => exact .ok s.stack

-- The states in which the loop reads its next instruction, with the bytes left.
inductive Reaches (c : EvalCall) (stack : List VchType) (script : CScript) :
    CScript → EvalState → Prop
  | start : script.length ≤ 10000 → Reaches c stack script script ⟨stack, [], [], 0, script⟩
  | next {left pc : CScript} {opcode : Nat} {vchPushValue : VchType} {s s' : EvalState} :
    Reaches c stack script left s → getOp left = some (opcode, vchPushValue, pc) →
    c.instrSteps opcode vchPushValue pc s = .ok s' → Reaches c stack script pc s'

end EvalCall

structure EvalState.InLimits (s : EvalState) : Prop where
  stackItems : ∀ vch ∈ s.stack, vch.length ≤ 520
  altstackItems : ∀ vch ∈ s.altstack, vch.length ≤ 520
  size : s.stack.length + s.altstack.length ≤ 1000
  nOpCount : s.nOpCount ≤ 201

namespace EvalCall

variable {c : EvalCall}

theorem evalMultisig_nOpCount {verify : Bool} {s s' : EvalState}
    (hrun : c.evalMultisig verify s = some s') : s'.nOpCount ≤ 201 := by
  obtain ⟨k, fSuccess, st, nOpCount, hcount, -, rfl⟩ := evalMultisig_done hrun
  exact hcount

theorem evalOp_nOpCount {fExec : Bool} {pc : CScript} {s s' : EvalState} {op : Opcode}
    (hs : s.nOpCount ≤ 201) (hrun : c.evalOp fExec pc s op = some s') : s'.nOpCount ≤ 201 := by
  have honStack : ∀ {f : List VchType → Option (List VchType)}, onStack s f = some s' →
      s'.nOpCount ≤ 201 := by
    intro f hf
    obtain ⟨st, -, rfl⟩ := Option.map_eq_some_iff.mp hf
    exact hs
  cases op with
  | num bn =>
    cases hrun
    exact hs
  | nop =>
    cases hrun
    exact hs
  | branch negated =>
    simp only [evalOp, evalBranch] at hrun
    split at hrun
    · split at hrun <;> cases hrun
      exact hs
    · cases hrun
      exact hs
  | otherwise =>
    simp only [evalOp] at hrun
    split at hrun <;> cases hrun
    exact hs
  | endBranch =>
    simp only [evalOp] at hrun
    split at hrun <;> cases hrun
    exact hs
  | toAltStack =>
    simp only [evalOp] at hrun
    split at hrun <;> cases hrun
    exact hs
  | fromAltStack =>
    simp only [evalOp] at hrun
    split at hrun <;> cases hrun
    exact hs
  | codeSeparator =>
    cases hrun
    exact hs
  | checkMultisig verify => exact evalMultisig_nOpCount hrun
  | _ =>
    rw [evalOp] at hrun
    exact honStack hrun

theorem evalInstr_inLimits (hkeys : c.keys.Sized) {opcode : Nat} {vch : VchType} {pc : CScript}
    {s s' : EvalState} (hs : s.InLimits) (hrun : c.evalInstr opcode vch pc s = some s') :
    s'.InLimits := by
  obtain ⟨hstack, halt⟩ := evalInstr_small hkeys ⟨hs.stackItems, hs.altstackItems⟩ hrun
  have hends : s'.stack.length + s'.altstack.length ≤ 1000 ∧ s'.nOpCount ≤ 201 := by
    unfold evalInstr at hrun
    dsimp only at hrun
    generalize hcount : (if op16 < opcode then s.nOpCount + 1 else s.nOpCount) = nOpCount at hrun
    split at hrun
    · cases hrun
    · split at hrun
      · cases hrun
      · rename_i hop
        have hle : nOpCount ≤ 201 := by
          have := hs.nOpCount
          split at hcount <;> omega
        split at hrun
        · cases hrun
        · have hsize : ∀ {t : EvalState}, t.nOpCount ≤ 201 →
              (if 1000 < t.stack.length + t.altstack.length then none else some t) = some s' →
              s'.stack.length + s'.altstack.length ≤ 1000 ∧ s'.nOpCount ≤ 201 := by
            intro t ht heq
            split at heq
            · cases heq
            · rename_i hsize
              cases heq
              exact ⟨Nat.le_of_not_lt hsize, ht⟩
          split at hrun
          · obtain ⟨t, ht, hrun⟩ := Option.bind_eq_some_iff.mp hrun
            cases ht
            exact hsize hle hrun
          · split at hrun
            · obtain ⟨t, ht, hrun⟩ := Option.bind_eq_some_iff.mp hrun
              obtain ⟨op, -, hop⟩ := Option.bind_eq_some_iff.mp ht
              exact hsize (evalOp_nOpCount (s := { s with nOpCount := nOpCount }) hle hop) hrun
            · obtain ⟨t, ht, hrun⟩ := Option.bind_eq_some_iff.mp hrun
              cases ht
              exact hsize hle hrun
  exact ⟨hstack, halt, hends.1, hends.2⟩

section Run

variable {stack : List VchType} {script : CScript}

theorem reaches_inLimits (hkeys : c.keys.Sized) (hlen : stack.length ≤ 1000)
    (hitems : ∀ vch ∈ stack, vch.length ≤ 520) {left : CScript} {s : EvalState}
    (h : Reaches c stack script left s) : s.InLimits := by
  induction h with
  | start _ => exact ⟨hitems, nofun, hlen, Nat.zero_le _⟩
  | next _ hop hrun ih =>
    exact evalInstr_inLimits hkeys ih ((instrSteps_agrees _ _ _ _).some_iff.mp hrun)

theorem reaches_end {fuel : Nat} {left : CScript} {s s' : EvalState}
    (h : Reaches c stack script left s) (hrun : c.loopSteps fuel left s = .ok s') :
    Reaches c stack script [] s' := by
  induction fuel generalizing left s with
  | zero =>
    cases left with
    | nil =>
      cases hrun
      exact h
    | cons b left => cases hrun
  | succ fuel ih =>
    cases left with
    | nil =>
      cases hrun
      exact h
    | cons b left =>
      rw [loopSteps] at hrun
      cases hop : getOp (b :: left) with
      | none => simp [hop] at hrun
      | some r =>
        obtain ⟨opcode, vch, pc⟩ := r
        simp only [hop] at hrun
        cases hstep : c.instrSteps opcode vch pc s with
        | error e =>
          rw [hstep] at hrun
          cases hrun
        | ok t =>
          rw [hstep] at hrun
          exact ih (.next h hop hstep) hrun

theorem scriptSteps_reaches {stack' : List VchType} (h : c.scriptSteps stack script = .ok stack') :
    ∃ s, Reaches c stack script [] s ∧ s.stack = stack' := by
  unfold scriptSteps at h
  split at h
  · cases h
  · rename_i hlen
    cases hrun : c.loopSteps script.length script ⟨stack, [], [], 0, script⟩ with
    | error e =>
      rw [hrun] at h
      cases h
    | ok s =>
      rw [hrun, ok_steps] at h
      split at h
      · cases h
        exact ⟨s, reaches_end (.start (Nat.le_of_not_lt hlen)) hrun, rfl⟩
      · cases h

end Run

theorem script_limits (c : EvalCall) (hkeys : c.keys.Sized) (stack : List VchType)
    (hlen : stack.length ≤ 1000) (hitems : ∀ vch ∈ stack, vch.length ≤ 520) (script : CScript) :
    c.scriptSteps stack script ≠ .error .endless ∧
      c.scriptSteps stack script ≠ .error .outOfRange ∧
      (∀ left s, Reaches c stack script left s → s.InLimits) ∧
      (∀ stack', c.scriptSteps stack script = .ok stack' ↔ c.evalScript stack script = some stack') ∧
      ∀ stack', c.evalScript stack script = some stack' →
        ∃ s, Reaches c stack script [] s ∧ s.stack = stack' ∧ s.InLimits := by
  have hagrees := scriptSteps_agrees (c := c) stack script
  have hreach : ∀ left s, Reaches c stack script left s → s.InLimits :=
    fun left s => reaches_inLimits hkeys hlen hitems
  refine ⟨hagrees.in_range.2, hagrees.in_range.1, hreach, fun stack' => hagrees.some_iff, ?_⟩
  intro stack' heval
  obtain ⟨s, hs, hstack⟩ := scriptSteps_reaches (hagrees.some_iff.mpr heval)
  exact ⟨s, hs, hstack, hreach [] s hs⟩

def plainCall : EvalCall where
  env := sampleEnv
  keys := ⟨fun _ => true, fun _ _ vchSig => vchSig == [7], fun _ => List.replicate 20 0,
    fun _ => List.replicate 20 0, fun _ => List.replicate 32 0⟩
  txTo := ⟨1, [], [], 0⟩
  nIn := 0
  nHashType := 0

-- OP_2DUP OP_1 OP_ROLL OP_TOALTSTACK on two elements.
theorem script_limits_roll :
    plainCall.scriptSteps [[5], [6]] [110, 81, 122, 107] = .ok [[5], [5], [6]] ∧
      ∀ left s, Reaches plainCall [[5], [6]] [110, 81, 122, 107] left s → s.InLimits :=
  ⟨by decide +kernel,
    (script_limits plainCall ⟨fun _ => rfl, fun _ => rfl, fun _ => rfl⟩ [[5], [6]] (by decide)
      (by decide) [110, 81, 122, 107]).2.2.1⟩

end EvalCall

end Namecoin
