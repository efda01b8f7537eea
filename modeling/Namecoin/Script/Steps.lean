import Namecoin.Script.StackLeft

namespace Namecoin

inductive ScriptStop where
  | returnFalse
  | outOfRange
  | numberSize
  | endless
  deriving DecidableEq, Repr

inductive StepsAgree {α : Type} : Except ScriptStop α → Option α → Prop
  | ok (a : α) : StepsAgree (.ok a) (some a)
  | fails : StepsAgree (.error .returnFalse) none
  | tooLong : StepsAgree (.error .numberSize) none

section Agree

variable {α β : Type} {x : Except ScriptStop α} {y : Option α}

theorem StepsAgree.bind {f : α → Except ScriptStop β} {g : α → Option β} (h : StepsAgree x y)
    (hf : ∀ a, y = some a → StepsAgree (f a) (g a)) : StepsAgree (x >>= f) (y.bind g) := by
  cases h with
  | ok a => exact hf a rfl
  | fails => exact .fails
  | tooLong => exact .tooLong

theorem StepsAgree.some_iff (h : StepsAgree x y) {a : α} : x = .ok a ↔ y = some a := by
  cases h with
  | ok b => simp
  | fails => simp
  | tooLong => simp

theorem StepsAgree.in_range (h : StepsAgree x y) : x ≠ .error .outOfRange ∧ x ≠ .error .endless := by
  cases h with
  | ok a => exact ⟨nofun, nofun⟩
  | fails => exact ⟨nofun, nofun⟩
  | tooLong => exact ⟨nofun, nofun⟩

end Agree

def need (stack : List VchType) (n : Nat) : Except ScriptStop Unit :=
  if stack.length < n then .error .returnFalse else .ok ()

-- stack.at(stack.size() - i): the top of the stack is the head of the list.
def stackTop (stack : List VchType) (i : Nat) : Except ScriptStop VchType :=
  if i = 0 then .error .outOfRange
  else
    match stack[i - 1]? with
    | some vch => .ok vch
    | none => .error .outOfRange

def popStack : List VchType → Except ScriptStop (List VchType)
  | [] => .error .outOfRange
  | _ :: stack => .ok stack

def swapTop (stack : List VchType) (i j : Nat) : Except ScriptStop (List VchType) := do
  let vch1 ← stackTop stack i
  let vch2 ← stackTop stack j
  pure ((stack.set (i - 1) vch2).set (j - 1) vch1)

def eraseTop (stack : List VchType) (i : Nat) : Except ScriptStop (List VchType) := do
  let _ ← stackTop stack i
  pure (stack.eraseIdx (i - 1))

def insertTop (stack : List VchType) (i : Nat) (vch : VchType) :
    Except ScriptStop (List VchType) := do
  let _ ← stackTop stack i
  pure (stack.insertIdx i vch)

def castSteps (vch : VchType) : Except ScriptStop Int :=
  match castToBigNum vch with
  | some bn => .ok bn
  | none => .error .numberSize

def bigNumTop (stack : List VchType) (i : Nat) : Except ScriptStop Int := do
  let vch ← stackTop stack i
  castSteps vch

def popMany : Nat → List VchType → Except ScriptStop (List VchType)
  | 0, stack => .ok stack
  | i + 1, stack => do
    let stack ← popStack stack
    popMany i stack

def pickOrRollSteps (erase : Bool) (stack : List VchType) : Except ScriptStop (List VchType) := do
  need stack 2
  let n ← bigNumTop stack 1
  let stack ← popStack stack
  if n < 0 ∨ (stack.length : Int) ≤ n then .error .returnFalse
  else do
    let vch ← stackTop stack (n.toNat + 1)
    let stack ← if erase then eraseTop stack (n.toNat + 1) else pure stack
    pure (vch :: stack)

def stackOpSteps (op : StackOp) (stack : List VchType) : Except ScriptStop (List VchType) :=
  match op with
  | .twoDrop => do
    need stack 2
    let stack ← popStack stack
    popStack stack
  | .twoDup => do
    need stack 2
    let vch1 ← stackTop stack 2
    let vch2 ← stackTop stack 1
    pure (vch2 :: vch1 :: stack)
  | .threeDup => do
    need stack 3
    let vch1 ← stackTop stack 3
    let vch2 ← stackTop stack 2
    let vch3 ← stackTop stack 1
    pure (vch3 :: vch2 :: vch1 :: stack)
  | .twoOver => do
    need stack 4
    let vch1 ← stackTop stack 4
    let vch2 ← stackTop stack 3
    pure (vch2 :: vch1 :: stack)
  | .twoRot => do
    need stack 6
    let vch1 ← stackTop stack 6
    let vch2 ← stackTop stack 5
    let stack ← eraseTop stack 6
    let stack ← eraseTop stack 5
    pure (vch2 :: vch1 :: stack)
  | .twoSwap => do
    need stack 4
    let stack ← swapTop stack 4 2
    swapTop stack 3 1
  | .ifDup => do
    need stack 1
    let vch ← stackTop stack 1
    pure (if castToBool vch then vch :: stack else stack)
  | .depth => pure (bigNumVch stack.length :: stack)
  | .drop => do
    need stack 1
    popStack stack
  | .dup => do
    need stack 1
    let vch ← stackTop stack 1
    pure (vch :: stack)
  | .nip => do
    need stack 2
    eraseTop stack 2
  | .over => do
    need stack 2
    let vch ← stackTop stack 2
    pure (vch :: stack)
  | .pick => pickOrRollSteps false stack
  | .roll => pickOrRollSteps true stack
  | .rot => do
    need stack 3
    let stack ← swapTop stack 3 2
    swapTop stack 2 1
  | .swap => do
    need stack 2
    swapTop stack 2 1
  | .tuck => do
    need stack 2
    let vch ← stackTop stack 1
    insertTop stack 2 vch
  | .size => do
    need stack 1
    let vch ← stackTop stack 1
    pure (bigNumVch vch.length :: stack)

def verifiedSteps (verify fSuccess : Bool) (stack : List VchType) :
    Except ScriptStop (List VchType) :=
  if verify then
    if fSuccess then popStack (vchBool fSuccess :: stack) else .error .returnFalse
  else .ok (vchBool fSuccess :: stack)

-- A read of a key or of a signature, refused outside its own positions lo ≤ i < hi.
def rangeTop (stack : List VchType) (lo hi i : Nat) : Except ScriptStop VchType :=
  if lo ≤ i ∧ i < hi then stackTop stack i else .error .outOfRange

structure MultisigRange where
  stack : List VchType
  firstKey : Nat
  firstSig : Nat
  last : Nat

namespace MultisigRange

def key (r : MultisigRange) (i : Nat) : Except ScriptStop VchType :=
  rangeTop r.stack r.firstKey (r.firstSig - 1) i

def sig (r : MultisigRange) (i : Nat) : Except ScriptStop VchType :=
  rangeTop r.stack r.firstSig r.last i

def dropSigs (r : MultisigRange) : Nat → Nat → CScript → Except ScriptStop CScript
  | 0, _, scriptCode => .ok scriptCode
  | n + 1, isig, scriptCode => do
    let vchSig ← r.sig isig
    r.dropSigs n (isig + 1) (findAndDelete scriptCode (pushData vchSig))

def scanSigs (r : MultisigRange) (check : VchType → VchType → Bool) :
    Nat → Nat → Nat → Nat → Except ScriptStop Bool
  | _, 0, _, _ => .ok true
  | 0, _ + 1, ikey, isig => do
    let _ ← r.sig isig
    let _ ← r.key ikey
    pure false
  | nKeysCount + 1, nSigsCount + 1, ikey, isig => do
    let vchSig ← r.sig isig
    let vchPubKey ← r.key ikey
    if check vchSig vchPubKey then
      if nKeysCount < nSigsCount then pure false
      else r.scanSigs check nKeysCount nSigsCount (ikey + 1) (isig + 1)
    else if nKeysCount < nSigsCount + 1 then pure false
    else r.scanSigs check nKeysCount (nSigsCount + 1) (ikey + 1) isig

end MultisigRange

def multisigSteps (checkSig : VchType → VchType → CScript → Bool) (verify : Bool) (s : EvalState) :
    Except ScriptStop EvalState := do
  need s.stack 1
  let nKeysCount ← bigNumTop s.stack 1
  if nKeysCount < 0 ∨ 20 < nKeysCount then .error .returnFalse
  else do
    let nKeys := nKeysCount.toNat
    let nOpCount := s.nOpCount + nKeys
    if 201 < nOpCount then .error .returnFalse
    else do
      need s.stack (2 + nKeys)
      let nSigsCount ← bigNumTop s.stack (2 + nKeys)
      if nSigsCount < 0 ∨ nKeysCount < nSigsCount then .error .returnFalse
      else do
        let nSigs := nSigsCount.toNat
        let i := 3 + nKeys + nSigs
        need s.stack i
        let r : MultisigRange := ⟨s.stack, 2, 3 + nKeys, i⟩
        let scriptCode ← r.dropSigs nSigs (3 + nKeys) s.codeHash
        let fSuccess ← r.scanSigs (fun vchSig vchPubKey => checkSig vchSig vchPubKey scriptCode)
          nKeys nSigs 2 (3 + nKeys)
        let stack ← popMany i s.stack
        let stack ← verifiedSteps verify fSuccess stack
        pure { s with stack := stack, nOpCount := nOpCount }

namespace EvalCall

def onStackSteps (s : EvalState) (f : List VchType → Except ScriptStop (List VchType)) :
    Except ScriptStop EvalState := do
  let stack ← f s.stack
  pure { s with stack := stack }

def branchSteps (fExec negated : Bool) (s : EvalState) : Except ScriptStop EvalState :=
  if fExec then do
    need s.stack 1
    let vch ← stackTop s.stack 1
    let stack ← popStack s.stack
    pure { s with stack := stack, vfExec := (castToBool vch != negated) :: s.vfExec }
  else pure { s with vfExec := false :: s.vfExec }

def opSteps (c : EvalCall) (fExec : Bool) (pc : CScript) (s : EvalState) :
    Opcode → Except ScriptStop EvalState
  | .num bn => pure { s with stack := bigNumVch bn :: s.stack }
  | .nop => pure s
  | .branch negated => branchSteps fExec negated s
  | .otherwise =>
    match s.vfExec with
    | [] => .error .returnFalse
    | f :: rest => pure { s with vfExec := (!f) :: rest }
  | .endBranch =>
    match s.vfExec with
    | [] => .error .returnFalse
    | _ :: rest => pure { s with vfExec := rest }
  | .verify => onStackSteps s (fun stack => do
    need stack 1
    let vch ← stackTop stack 1
    if castToBool vch then popStack stack else .error .returnFalse)
  | .toAltStack => do
    need s.stack 1
    let vch ← stackTop s.stack 1
    let stack ← popStack s.stack
    pure { s with stack := stack, altstack := vch :: s.altstack }
  | .fromAltStack => do
    need s.altstack 1
    let vch ← stackTop s.altstack 1
    let altstack ← popStack s.altstack
    pure { s with stack := vch :: s.stack, altstack := altstack }
  | .stack op => onStackSteps s (stackOpSteps op)
  | .equal verify => onStackSteps s (fun stack => do
    need stack 2
    let vch1 ← stackTop stack 2
    let vch2 ← stackTop stack 1
    let stack ← popStack stack
    let stack ← popStack stack
    verifiedSteps verify (vch1 == vch2) stack)
  | .unary op => onStackSteps s (fun stack => do
    need stack 1
    let bn ← bigNumTop stack 1
    let stack ← popStack stack
    pure (bigNumVch (evalUnaryOp op bn) :: stack))
  | .binary op => onStackSteps s (fun stack => do
    need stack 2
    let bn1 ← bigNumTop stack 2
    let bn2 ← bigNumTop stack 1
    let stack ← popStack stack
    let stack ← popStack stack
    let stack := bigNumVch (evalBinaryOp op bn1 bn2) :: stack
    if op = .numEqualVerify then do
      let vch ← stackTop stack 1
      if castToBool vch then popStack stack else .error .returnFalse
    else pure stack)
  | .within => onStackSteps s (fun stack => do
    need stack 3
    let bn1 ← bigNumTop stack 3
    let bn2 ← bigNumTop stack 2
    let bn3 ← bigNumTop stack 1
    let stack ← popStack stack
    let stack ← popStack stack
    let stack ← popStack stack
    pure (vchBool (decide (bn2 ≤ bn1) && decide (bn1 < bn3)) :: stack))
  | .hash op => onStackSteps s (fun stack => do
    need stack 1
    let vch ← stackTop stack 1
    let stack ← popStack stack
    pure (c.hashOp op vch :: stack))
  | .codeSeparator => pure { s with codeHash := pc }
  | .checkSig verify => onStackSteps s (fun stack => do
    need stack 2
    let vchSig ← stackTop stack 2
    let vchPubKey ← stackTop stack 1
    let fSuccess := c.checkSig vchSig vchPubKey (findAndDelete s.codeHash (pushData vchSig))
    let stack ← popStack stack
    let stack ← popStack stack
    verifiedSteps verify fSuccess stack)
  | .checkMultisig verify => multisigSteps c.checkSig verify s

def instrSteps (c : EvalCall) (opcode : Nat) (vchPushValue : VchType) (pc : CScript)
    (s : EvalState) : Except ScriptStop EvalState :=
  let fExec := !s.vfExec.contains false
  let nOpCount := if op16 < opcode then s.nOpCount + 1 else s.nOpCount
  if 520 < vchPushValue.length then .error .returnFalse
  else if op16 < opcode ∧ 201 < nOpCount then .error .returnFalse
  else if opcode ∈ disabledOps then .error .returnFalse
  else do
    let s := { s with nOpCount := nOpCount }
    let s ←
      if fExec ∧ opcode ≤ opPushdata4 then pure { s with stack := vchPushValue :: s.stack }
      else if fExec ∨ (99 ≤ opcode ∧ opcode ≤ 104) then
        match opcodeOf opcode with
        | none => .error .returnFalse
        | some op => c.opSteps fExec pc s op
      else pure s
    if 1000 < s.stack.length + s.altstack.length then .error .returnFalse else pure s

def loopSteps (c : EvalCall) : Nat → CScript → EvalState → Except ScriptStop EvalState
  | _, [], s => .ok s
  | 0, _ :: _, _ => .error .endless
  | fuel + 1, b :: script, s =>
    match getOp (b :: script) with
    | none => .error .returnFalse
    | some (opcode, vchPushValue, pc) => do
      let s ← c.instrSteps opcode vchPushValue pc s
      c.loopSteps fuel pc s

def scriptSteps (c : EvalCall) (stack : List VchType) (script : CScript) :
    Except ScriptStop (List VchType) :=
  if 10000 < script.length then .error .returnFalse
  else do
    let s ← c.loopSteps script.length script ⟨stack, [], [], 0, script⟩
    if s.vfExec.isEmpty then pure s.stack else .error .returnFalse

end EvalCall

end Namecoin
