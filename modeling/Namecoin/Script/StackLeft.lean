import Namecoin.Script.NameOutput

namespace Namecoin

def unverified : Opcode → Opcode
  | .equal _ => .equal false
  | .binary .numEqualVerify => .binary .numEqual
  | .checkSig _ => .checkSig false
  | .checkMultisig _ => .checkMultisig false
  | op => op

namespace EvalCall

variable (c : EvalCall)

-- The stack a failing operation leaves: the verifying ones have already pushed their result, and
-- OP_PICK and OP_ROLL have popped the depth; every other one checks before it touches the stack.
def stackAtFault (fExec : Bool) (pc : CScript) (s : EvalState) (op : Opcode) : List VchType :=
  if op = .stack .pick ∨ op = .stack .roll then
    match s.stack with
    | vchN :: st => if st.isEmpty ∨ castToBigNum vchN = none then s.stack else st
    | [] => []
  else ((c.evalOp fExec pc s (unverified op)).map EvalState.stack).getD s.stack

def instrLeft (opcode : Nat) (vchPushValue : VchType) (pc : CScript) (s : EvalState) :
    List VchType :=
  let fExec := !s.vfExec.contains false
  let nOpCount := if op16 < opcode then s.nOpCount + 1 else s.nOpCount
  if 520 < vchPushValue.length then s.stack
  else if op16 < opcode ∧ 201 < nOpCount then s.stack
  else if opcode ∈ disabledOps then s.stack
  else
    let s := { s with nOpCount := nOpCount }
    if fExec ∧ opcode ≤ opPushdata4 then vchPushValue :: s.stack
    else if fExec ∨ (99 ≤ opcode ∧ opcode ≤ 104) then
      match opcodeOf opcode with
      | none => s.stack
      | some op =>
        match c.evalOp fExec pc s op with
        | none => c.stackAtFault fExec pc s op
        | some s' => s'.stack
    else s.stack

def loopLeft : Nat → CScript → EvalState → List VchType
  | _, [], s => s.stack
  | 0, _ :: _, s => s.stack
  | fuel + 1, b :: script, s =>
    match getOp (b :: script) with
    | none => s.stack
    | some (opcode, vchPushValue, pc) =>
      match c.evalInstr opcode vchPushValue pc s with
      | none => c.instrLeft opcode vchPushValue pc s
      | some s' => loopLeft fuel pc s'

def stackLeft (script : CScript) : List VchType :=
  if 10000 < script.length then [] else c.loopLeft script.length script ⟨[], [], [], 0, script⟩

variable {c}

theorem loopLeft_fuel {fuel : Nat} {script : CScript} {s : EvalState} (h : script.length ≤ fuel) :
    c.loopLeft fuel script s = c.loopLeft script.length script s := by
  induction hn : script.length using Nat.strong_induction_on generalizing fuel script s with
  | _ n ih =>
    subst hn
    cases script with
    | nil => cases fuel <;> rfl
    | cons b script =>
      obtain ⟨fuel, rfl⟩ := Nat.exists_eq_succ_of_ne_zero (Nat.ne_of_gt (Nat.zero_lt_of_lt h))
      rw [List.length_cons, loopLeft, loopLeft]
      cases hop : getOp (b :: script) with
      | none => rfl
      | some r =>
        obtain ⟨opcode, vch, pc⟩ := r
        have hlt := getOp_length hop
        rw [List.length_cons] at hlt h
        dsimp only
        cases c.evalInstr opcode vch pc s with
        | none => rfl
        | some s' =>
          dsimp only
          have hpc : pc.length < (b :: script).length := by
            rw [List.length_cons]
            omega
          exact (ih pc.length hpc (by omega) rfl).trans (ih pc.length hpc (by omega) rfl).symm

theorem loopLeft_step {script pc : CScript} {opcode : Nat} {vch : VchType} {s : EvalState}
    (h : getOp script = some (opcode, vch, pc)) :
    c.loopLeft script.length script s =
      match c.evalInstr opcode vch pc s with
      | none => c.instrLeft opcode vch pc s
      | some s' => c.loopLeft pc.length pc s' := by
  cases script with
  | nil => cases h
  | cons b script =>
    have hlt := getOp_length h
    rw [List.length_cons] at hlt
    rw [List.length_cons, loopLeft, h]
    dsimp only
    cases c.evalInstr opcode vch pc s with
    | none => rfl
    | some s' => exact loopLeft_fuel (by omega)

section Pushes

variable {stack : List VchType} {n : Nat} {code : CScript}

theorem evalInstr_full {opcode : Nat} {vch : VchType} {pc : CScript} (hop : opcode ≤ opPushdata4)
    (hroom : stack.length = 1000) : c.evalInstr opcode vch pc ⟨stack, [], [], n, code⟩ = none := by
  rw [evalInstr_literal hop, if_pos (show 1000 < stack.length + 1 by omega), ite_self]

theorem instrLeft_push {opcode : Nat} {vch : VchType} {pc : CScript} (hop : opcode ≤ opPushdata4) :
    c.instrLeft opcode vch pc ⟨stack, [], [], n, code⟩ =
      if 520 < vch.length then stack else vch :: stack := by
  obtain ⟨hlow, hdisabled⟩ := push_enabled hop
  unfold instrLeft
  simp only [List.contains_nil, Bool.not_false, hlow, if_false, false_and, hdisabled, hop, and_self,
    if_true]

-- The run stops at a value that is too long, and right after the one that fills the stack.
theorem loopLeft_pushes {vvch : List VchType} (hlen : ∀ vch ∈ vvch, vch.length < 2 ^ 32)
    (hroom : stack.length ≤ 1000) :
    c.loopLeft (vvch.flatMap pushData).length (vvch.flatMap pushData) ⟨stack, [], [], n, code⟩ =
      ((vvch.takeWhile fun vch => vch.length ≤ 520).take (1001 - stack.length)).reverse ++ stack := by
  induction vvch generalizing stack with
  | nil =>
    rw [List.takeWhile_nil, List.take_nil]
    rfl
  | cons vch vvch ih =>
    obtain ⟨hvch, hrest⟩ := List.forall_mem_cons.mp hlen
    obtain ⟨opcode, hle, hop⟩ := getOp_pushData hvch (vvch.flatMap pushData)
    obtain ⟨k, hk⟩ : ∃ k, 1001 - stack.length = k + 1 := ⟨1000 - stack.length, by omega⟩
    rw [List.flatMap_cons, loopLeft_step hop, hk, List.takeWhile_cons]
    rcases Nat.lt_or_ge 520 vch.length with hlong | hshort
    · have hnone : c.evalInstr opcode vch (vvch.flatMap pushData) ⟨stack, [], [], n, code⟩ = none := by
        unfold evalInstr
        rw [if_pos hlong]
      rw [hnone, if_neg (by simpa using hlong), instrLeft_push hle, if_pos hlong]
      rfl
    · rw [if_pos (by simpa using hshort), List.take_succ_cons, List.reverse_cons, List.append_assoc,
        List.singleton_append]
      rcases Nat.lt_or_ge stack.length 1000 with hlt | hge
      · rw [evalInstr_push hle hlt, if_neg (by omega)]
        dsimp only
        rw [ih hrest (by rw [List.length_cons]; omega), List.length_cons]
        congr 3
        omega
      · rw [evalInstr_full hle (by omega), instrLeft_push hle, if_neg (by omega)]
        obtain rfl : k = 0 := by omega
        rfl

theorem run_overflow {vvch : List VchType} (hlen : ∀ vch ∈ vvch, vch.length ≤ 520)
    (hroom : stack.length ≤ 1000) (hfull : 1000 < stack.length + vvch.length) :
    c.run (vvch.flatMap pushData) ⟨stack, [], [], n, code⟩ = none := by
  induction vvch generalizing stack with
  | nil =>
    rw [List.length_nil] at hfull
    omega
  | cons vch vvch ih =>
    obtain ⟨hvch, hrest⟩ := List.forall_mem_cons.mp hlen
    obtain ⟨opcode, hle, hop⟩ := getOp_pushData (b := vch) (by omega) (vvch.flatMap pushData)
    rw [List.length_cons] at hfull
    rw [List.flatMap_cons, run_step hop]
    rcases Nat.lt_or_ge stack.length 1000 with hlt | hge
    · rw [evalInstr_push hle hlt, if_neg (by omega), Option.bind_some]
      exact ih hrest (by rw [List.length_cons]; omega) (by rw [List.length_cons]; omega)
    · rw [evalInstr_full hle (by omega), Option.bind_none]

end Pushes

end EvalCall

def SmallItems (l : List VchType) : Prop := ∀ vch ∈ l, vch.length ≤ 520

structure KeyCheck.Sized (keys : KeyCheck) : Prop where
  ripemd160 : ∀ vch, (keys.ripemd160 vch).length = 20
  sha1 : ∀ vch, (keys.sha1 vch).length = 20
  sha256 : ∀ vch, (keys.sha256 vch).length = 32

section Small

@[simp] theorem smallItems_nil : SmallItems [] := fun _ h => absurd h List.not_mem_nil

@[simp] theorem smallItems_cons {vch : VchType} {l : List VchType} :
    SmallItems (vch :: l) ↔ vch.length ≤ 520 ∧ SmallItems l := List.forall_mem_cons

theorem SmallItems.subset {l l' : List VchType} (h : SmallItems l) (hsub : l' ⊆ l) : SmallItems l' :=
  fun vch hvch => h vch (hsub hvch)

theorem SmallItems.wide {l : List VchType} (h : SmallItems l) : ∀ vch ∈ l, vch.length < 2 ^ 32 := by
  intro vch hvch
  have := h vch hvch
  omega

@[simp] theorem bigNumVch_small (bn : Int) : (bigNumVch bn).length ≤ 520 :=
  (bigNumVch_length bn).trans (by decide)

@[simp] theorem vchBool_small (b : Bool) : (vchBool b).length ≤ 520 := by cases b <;> decide

theorem pickOrRoll_small {erase : Bool} {st st' : List VchType} (h : SmallItems st)
    (hrun : pickOrRoll erase st = some st') : SmallItems st' := by
  cases st with
  | nil => cases hrun
  | cons vchN st =>
    obtain ⟨-, hst⟩ := smallItems_cons.mp h
    simp only [pickOrRoll] at hrun
    split at hrun
    · cases hrun
    · split at hrun
      · cases hrun
      · split at hrun
        · cases hrun
        · split at hrun
          · cases hrun
          · rename_i vch hget
            cases hrun
            refine smallItems_cons.mpr ⟨hst vch (List.mem_of_getElem? hget), ?_⟩
            split
            · exact hst.subset List.eraseIdx_subset
            · exact hst

theorem evalStackOp_small {op : StackOp} {st st' : List VchType} (h : SmallItems st)
    (hrun : evalStackOp op st = some st') : SmallItems st' := by
  unfold evalStackOp at hrun
  split at hrun
  case h_13 => exact pickOrRoll_small h hrun
  case h_14 => exact pickOrRoll_small h hrun
  case h_7 =>
    cases hrun
    split <;> simp_all
  all_goals cases hrun
  all_goals simp_all

theorem verified_small {verify fSuccess : Bool} {st st' : List VchType} (h : SmallItems st)
    (hrun : verified verify fSuccess st = some st') : SmallItems st' := by
  unfold verified at hrun
  split at hrun
  · split at hrun
    · cases hrun
      exact h
    · cases hrun
  · cases hrun
    exact smallItems_cons.mpr ⟨vchBool_small fSuccess, h⟩

end Small

def EvalState.Small (s : EvalState) : Prop := SmallItems s.stack ∧ SmallItems s.altstack

namespace EvalCall

section Small

variable {c : EvalCall} {s s' : EvalState}

theorem hashOp_small (hkeys : c.keys.Sized) (op : HashOp) (vch : VchType) :
    (c.hashOp op vch).length ≤ 520 := by
  cases op with
  | ripemd160 => exact (hkeys.ripemd160 vch).le.trans (by decide)
  | sha1 => exact (hkeys.sha1 vch).le.trans (by decide)
  | sha256 => exact (hkeys.sha256 vch).le.trans (by decide)
  | hash160 => exact (c.env.hash160 vch).property.le.trans (by decide)
  | hash256 => exact (serHash_length _).le.trans (by decide)

theorem onStack_small {f : List VchType → Option (List VchType)} (hs : s.Small)
    (hf : ∀ st, f s.stack = some st → SmallItems st) (hrun : onStack s f = some s') : s'.Small := by
  obtain ⟨st, hst, rfl⟩ := Option.map_eq_some_iff.mp hrun
  exact ⟨hf st hst, hs.2⟩

theorem evalMultisig_done {verify : Bool} (hrun : c.evalMultisig verify s = some s') :
    ∃ k fSuccess st nOpCount, nOpCount ≤ 201 ∧ verified verify fSuccess (s.stack.drop k) = some st ∧
      s' = { s with stack := st, nOpCount := nOpCount } := by
  simp only [evalMultisig, Option.bind_eq_bind, Option.bind_eq_some_iff] at hrun
  obtain ⟨vchKeys, -, nKeysCount, -, hrun⟩ := hrun
  split at hrun
  · cases hrun
  · split at hrun
    · cases hrun
    · rename_i hcount
      obtain ⟨vchSigs, -, hrun⟩ := Option.bind_eq_some_iff.mp hrun
      obtain ⟨nSigsCount, -, hrun⟩ := Option.bind_eq_some_iff.mp hrun
      split at hrun
      · cases hrun
      · split at hrun
        · cases hrun
        · obtain ⟨st, hst, heq⟩ := Option.bind_eq_some_iff.mp hrun
          exact ⟨_, _, st, _, Nat.le_of_not_lt hcount, hst, (Option.some.inj heq).symm⟩

theorem evalMultisig_small {verify : Bool} (hs : s.Small) (hrun : c.evalMultisig verify s = some s') :
    s'.Small := by
  obtain ⟨k, fSuccess, st, nOpCount, -, hst, rfl⟩ := evalMultisig_done hrun
  exact ⟨verified_small (hs.1.subset (List.drop_subset _ _)) hst, hs.2⟩

theorem evalBranch_small {fExec negated : Bool} (hs : s.Small)
    (hrun : evalBranch fExec negated s = some s') : s'.Small := by
  unfold evalBranch at hrun
  split at hrun
  · split at hrun
    · cases hrun
    · rename_i vch st hst
      cases hrun
      rw [EvalState.Small, hst] at hs
      exact ⟨(smallItems_cons.mp hs.1).2, hs.2⟩
  · cases hrun
    exact hs

theorem onStack_items {f : List VchType → Option (List VchType)} (hs : s.Small)
    (hf : ∀ {st st'}, SmallItems st → f st = some st' → SmallItems st')
    (hrun : onStack s f = some s') : s'.Small := onStack_small hs (fun _ => hf hs.1) hrun

theorem evalOp_small (hkeys : c.keys.Sized) {fExec : Bool} {pc : CScript} {op : Opcode}
    (hs : s.Small) (hrun : c.evalOp fExec pc s op = some s') : s'.Small := by
  cases op with
  | num bn =>
    cases hrun
    exact ⟨smallItems_cons.mpr ⟨bigNumVch_small bn, hs.1⟩, hs.2⟩
  | nop =>
    cases hrun
    exact hs
  | branch negated => exact evalBranch_small hs hrun
  | otherwise =>
    simp only [evalOp] at hrun
    split at hrun <;> cases hrun
    exact hs
  | endBranch =>
    simp only [evalOp] at hrun
    split at hrun <;> cases hrun
    exact hs
  | verify =>
    rw [evalOp] at hrun
    refine onStack_items hs (fun {st st'} hst hf => ?_) hrun
    cases st with
    | nil => cases hf
    | cons x st =>
      dsimp only at hf
      split at hf <;> cases hf
      exact (smallItems_cons.mp hst).2
  | toAltStack =>
    simp only [evalOp] at hrun
    split at hrun <;> cases hrun
    rename_i x st hst
    rw [EvalState.Small, hst] at hs
    obtain ⟨hx, hst⟩ := smallItems_cons.mp hs.1
    exact ⟨hst, smallItems_cons.mpr ⟨hx, hs.2⟩⟩
  | fromAltStack =>
    simp only [evalOp] at hrun
    split at hrun <;> cases hrun
    rename_i x alt halt
    rw [EvalState.Small, halt] at hs
    obtain ⟨hx, halt⟩ := smallItems_cons.mp hs.2
    exact ⟨smallItems_cons.mpr ⟨hx, hs.1⟩, halt⟩
  | stack op => exact onStack_items hs evalStackOp_small hrun
  | equal verify =>
    rw [evalOp] at hrun
    refine onStack_items hs (fun {st st'} hst hf => ?_) hrun
    rcases st with _ | ⟨x2, _ | ⟨x1, st⟩⟩
    · cases hf
    · cases hf
    · exact verified_small (smallItems_cons.mp (smallItems_cons.mp hst).2).2 hf
  | unary op =>
    rw [evalOp] at hrun
    refine onStack_items hs (fun {st st'} hst hf => ?_) hrun
    rcases st with _ | ⟨x, st⟩
    · cases hf
    · obtain ⟨bn, -, rfl⟩ := Option.map_eq_some_iff.mp hf
      exact smallItems_cons.mpr ⟨bigNumVch_small _, (smallItems_cons.mp hst).2⟩
  | binary op =>
    rw [evalOp] at hrun
    refine onStack_items hs (fun {st st'} hst hf => ?_) hrun
    rcases st with _ | ⟨x2, _ | ⟨x1, st⟩⟩
    · cases hf
    · cases hf
    · obtain ⟨bn1, -, hf⟩ := Option.bind_eq_some_iff.mp hf
      obtain ⟨bn2, -, hf⟩ := Option.bind_eq_some_iff.mp hf
      have hrest := (smallItems_cons.mp (smallItems_cons.mp hst).2).2
      dsimp only at hf
      split at hf
      · split at hf <;> cases hf
        exact hrest
      · cases hf
        exact smallItems_cons.mpr ⟨bigNumVch_small _, hrest⟩
  | within =>
    rw [evalOp] at hrun
    refine onStack_items hs (fun {st st'} hst hf => ?_) hrun
    rcases st with _ | ⟨x3, _ | ⟨x2, _ | ⟨x1, st⟩⟩⟩
    · cases hf
    · cases hf
    · cases hf
    · obtain ⟨bn1, -, hf⟩ := Option.bind_eq_some_iff.mp hf
      obtain ⟨bn2, -, hf⟩ := Option.bind_eq_some_iff.mp hf
      obtain ⟨bn3, -, hf⟩ := Option.bind_eq_some_iff.mp hf
      cases hf
      simp only [smallItems_cons] at hst
      exact smallItems_cons.mpr ⟨vchBool_small _, hst.2.2.2⟩
  | hash op =>
    rw [evalOp] at hrun
    refine onStack_items hs (fun {st st'} hst hf => ?_) hrun
    rcases st with _ | ⟨x, st⟩
    · cases hf
    · cases hf
      exact smallItems_cons.mpr ⟨hashOp_small hkeys op x, (smallItems_cons.mp hst).2⟩
  | codeSeparator =>
    cases hrun
    exact hs
  | checkSig verify =>
    rw [evalOp] at hrun
    refine onStack_items hs (fun {st st'} hst hf => ?_) hrun
    rcases st with _ | ⟨vchPubKey, _ | ⟨vchSig, st⟩⟩
    · cases hf
    · cases hf
    · exact verified_small (smallItems_cons.mp (smallItems_cons.mp hst).2).2 hf
  | checkMultisig verify => exact evalMultisig_small hs hrun

theorem stackAtFault_small (hkeys : c.keys.Sized) {fExec : Bool} {pc : CScript} {op : Opcode}
    (hs : s.Small) : SmallItems (c.stackAtFault fExec pc s op) := by
  unfold stackAtFault
  split
  · cases hst : s.stack with
    | nil => exact smallItems_nil
    | cons vchN st =>
      have hstack := hs.1
      rw [hst] at hstack
      dsimp only
      split
      · exact hstack
      · exact (smallItems_cons.mp hstack).2
  · cases hrun : c.evalOp fExec pc s (unverified op) with
    | none => exact hs.1
    | some s' => exact (evalOp_small hkeys hs hrun).1

theorem evalInstr_small (hkeys : c.keys.Sized) {opcode : Nat} {vch : VchType} {pc : CScript}
    (hs : s.Small) (hrun : c.evalInstr opcode vch pc s = some s') : s'.Small := by
  unfold evalInstr at hrun
  dsimp only at hrun
  generalize (if op16 < opcode then s.nOpCount + 1 else s.nOpCount) = nOpCount at hrun
  split at hrun
  · cases hrun
  · rename_i hlen
    split at hrun
    · cases hrun
    · split at hrun
      · cases hrun
      · split at hrun
        · obtain ⟨t, ht, hrun⟩ := Option.bind_eq_some_iff.mp hrun
          cases ht
          split at hrun <;> cases hrun
          exact ⟨smallItems_cons.mpr ⟨by omega, hs.1⟩, hs.2⟩
        · split at hrun
          · obtain ⟨t, ht, hrun⟩ := Option.bind_eq_some_iff.mp hrun
            obtain ⟨op, -, hop⟩ := Option.bind_eq_some_iff.mp ht
            split at hrun <;> cases hrun
            exact evalOp_small hkeys (s := { s with nOpCount := nOpCount }) hs hop
          · obtain ⟨t, ht, hrun⟩ := Option.bind_eq_some_iff.mp hrun
            cases ht
            split at hrun <;> cases hrun
            exact hs

theorem instrLeft_small (hkeys : c.keys.Sized) {opcode : Nat} {vch : VchType} {pc : CScript}
    (hs : s.Small) : SmallItems (c.instrLeft opcode vch pc s) := by
  unfold instrLeft
  dsimp only
  generalize (if op16 < opcode then s.nOpCount + 1 else s.nOpCount) = nOpCount
  split
  · exact hs.1
  · rename_i hlen
    split
    · exact hs.1
    · split
      · exact hs.1
      · split
        · exact smallItems_cons.mpr ⟨by omega, hs.1⟩
        · split
          · split
            · exact hs.1
            · split
              · exact stackAtFault_small hkeys hs
              · rename_i t hop
                exact (evalOp_small hkeys (s := { s with nOpCount := nOpCount }) hs hop).1
          · exact hs.1

theorem loopLeft_small (hkeys : c.keys.Sized) (fuel : Nat) (script : CScript) (hs : s.Small) :
    SmallItems (c.loopLeft fuel script s) := by
  induction fuel generalizing script s with
  | zero => cases script <;> exact hs.1
  | succ fuel ih =>
    cases script with
    | nil => exact hs.1
    | cons b script =>
      rw [loopLeft]
      cases getOp (b :: script) with
      | none => exact hs.1
      | some r =>
        obtain ⟨opcode, vch, pc⟩ := r
        dsimp only
        cases hrun : c.evalInstr opcode vch pc s with
        | none => exact instrLeft_small hkeys hs
        | some s' => exact ih pc (evalInstr_small hkeys hs hrun)

theorem stackLeft_small (hkeys : c.keys.Sized) (script : CScript) :
    SmallItems (c.stackLeft script) := by
  unfold stackLeft
  split
  · exact smallItems_nil
  · exact loopLeft_small hkeys _ script ⟨smallItems_nil, smallItems_nil⟩

end Small

section Pushed

variable {c : EvalCall} {vvch : List VchType}

theorem evalScript_pushes (hlen : SmallItems vvch) :
    c.evalScript [] (vvch.flatMap pushData) =
      if (vvch.flatMap pushData).length ≤ 10000 ∧ vvch.length ≤ 1000 then some vvch.reverse
      else none := by
  unfold evalScript
  rcases Nat.lt_or_ge 10000 (vvch.flatMap pushData).length with hlong | hshort
  · rw [if_pos hlong, if_neg (by omega)]
  · rw [if_neg (by omega)]
    change (c.run (vvch.flatMap pushData) ⟨[], [], [], 0, vvch.flatMap pushData⟩).bind _ = _
    rcases Nat.lt_or_ge 1000 vvch.length with hmany | hfew
    · rw [run_overflow hlen (Nat.zero_le _) (by rw [List.length_nil]; omega), if_neg (by omega)]
      rfl
    · have hrun := @run_pushes c [] 0 (vvch.flatMap pushData) vvch [] hlen.wide
        (by rw [List.length_nil]; omega)
      rw [List.append_nil] at hrun
      rw [hrun.trans (if_pos hlen), run_nil, List.append_nil, if_pos ⟨hshort, hfew⟩]
      rfl

theorem stackLeft_pushes (hlen : ∀ vch ∈ vvch, vch.length < 2 ^ 32) :
    c.stackLeft (vvch.flatMap pushData) =
      if (vvch.flatMap pushData).length ≤ 10000 then
        ((vvch.takeWhile fun vch => vch.length ≤ 520).take 1001).reverse
      else [] := by
  unfold stackLeft
  rcases Nat.lt_or_ge 10000 (vvch.flatMap pushData).length with hlong | hshort
  · rw [if_pos hlong, if_neg (by omega)]
  · rw [if_neg (by omega), if_pos hshort, loopLeft_pushes hlen (Nat.zero_le _), List.append_nil]
    rfl

end Pushed

-- The transaction is read by the signature checks alone, and they hash it without its scriptSigs.
section Unsigned

theorem evalOp_congr {c c' : EvalCall} (henv : c.env = c'.env) (hkeys : c.keys = c'.keys)
    (hsig : c.checkSig = c'.checkSig) (fExec : Bool) (pc : CScript) (s : EvalState) (op : Opcode) :
    c.evalOp fExec pc s op = c'.evalOp fExec pc s op := by
  have hhash : c.hashOp = c'.hashOp := by
    funext op vch
    cases op <;> simp only [hashOp, henv, hkeys]
  have hmatch : c.matchSigs = c'.matchSigs := by
    funext code sigs keys
    induction keys generalizing sigs with
    | nil => cases sigs <;> rfl
    | cons vchPubKey keys ih =>
      cases sigs with
      | nil => rfl
      | cons vchSig sigs => simp only [matchSigs, hsig, ih]
  cases op with
  | checkMultisig verify => simp only [evalOp, evalMultisig, hmatch]
  | checkSig verify => simp only [evalOp, hsig]
  | hash op => simp only [evalOp, hhash]
  | _ => rfl

theorem evalLoop_congr {c c' : EvalCall} (henv : c.env = c'.env) (hkeys : c.keys = c'.keys)
    (hsig : c.checkSig = c'.checkSig) (fuel : Nat) (script : CScript) (s : EvalState) :
    c.evalLoop fuel script s = c'.evalLoop fuel script s := by
  induction fuel generalizing script s with
  | zero => cases script <;> rfl
  | succ fuel ih =>
    cases script with
    | nil => rfl
    | cons b script =>
      simp only [evalLoop, evalInstr, funext (ih _), evalOp_congr henv hkeys hsig]

theorem verifyScript_congr {c c' : EvalCall} (henv : c.env = c'.env) (hkeys : c.keys = c'.keys)
    (hsig : c.checkSig = c'.checkSig) (scriptSig scriptPubKey : CScript) :
    c.verifyScript scriptSig scriptPubKey = c'.verifyScript scriptSig scriptPubKey := by
  have heval : c.evalScript = c'.evalScript := by
    funext stack script
    simp only [evalScript, evalFrom, evalLoop_congr henv hkeys hsig]
  simp only [verifyScript, heval]

end Unsigned

end EvalCall

def CTransaction.unsigned (tx : CTransaction) : CTransaction :=
  { tx with vin := tx.vin.map (fun txin => { txin with scriptSig := [] }) }

theorem signatureHash_unsigned (env : Env) (scriptCode : CScript) (tx : CTransaction)
    (nIn nHashType : Nat) :
    signatureHash env scriptCode tx.unsigned nIn nHashType =
      signatureHash env scriptCode tx nIn nHashType := by
  have hvin : ∀ code : CScript,
      (tx.vin.map fun txin => { txin with scriptSig := [] }).mapIdx
          (fun i txin => { txin with scriptSig := if i = nIn then code else [] }) =
        tx.vin.mapIdx fun i txin => { txin with scriptSig := if i = nIn then code else [] } := by
    intro code
    apply List.ext_getElem?
    intro i
    simp [Function.comp_def]
  simp only [signatureHash, CTransaction.unsigned, List.length_map, hvin]

theorem verifyScript_unsigned {env : Env} {keys : KeyCheck} {tx tx' : CTransaction}
    (h : tx.unsigned = tx'.unsigned) (nIn nHashType : Nat) (scriptSig scriptPubKey : CScript) :
    (EvalCall.mk env keys tx nIn nHashType).verifyScript scriptSig scriptPubKey =
      (EvalCall.mk env keys tx' nIn nHashType).verifyScript scriptSig scriptPubKey := by
  refine @EvalCall.verifyScript_congr ⟨env, keys, tx, nIn, nHashType⟩ ⟨env, keys, tx', nIn, nHashType⟩
    rfl rfl ?_ scriptSig scriptPubKey
  funext vchSig vchPubKey scriptCode
  simp only [EvalCall.checkSig, ← signatureHash_unsigned env _ tx, ← signatureHash_unsigned env _ tx', h]

end Namecoin
