import Namecoin.Wallet.Solver

namespace Namecoin

def opCodeseparator : Nat := 171
def sighashNone : Nat := 2
def sighashSingle : Nat := 3
def sighashAnyonecanpay : Nat := 128
def nMaxNumSize : Nat := 4

def vchFalse : VchType := []
def vchTrue : VchType := [1]

def vchBool (b : Bool) : VchType := if b then vchTrue else vchFalse

def bigNumOf (vch : VchType) : Int :=
  match vch.getLast? with
  | none => 0
  | some top =>
    if 128 ≤ top.toNat then -(leNat (vch.dropLast ++ [top - 128]) : Int) else leNat vch

def bigNumVch (bn : Int) : VchType :=
  let vch := (leBytes 8 bn.natAbs).rdropWhile (fun b => b == 0)
  match vch.getLast? with
  | none => []
  | some top =>
    if 128 ≤ top.toNat then vch ++ [if bn < 0 then 128 else 0]
    else if bn < 0 then vch.dropLast ++ [top + 128]
    else vch

theorem bigNumVch_length (bn : Int) : (bigNumVch bn).length ≤ 9 := by
  have hle : ((leBytes 8 bn.natAbs).rdropWhile fun b => b == 0).length ≤ 8 := by
    have hprefix := List.rdropWhile_prefix (p := fun b => b == 0) (l := leBytes 8 bn.natAbs)
    exact hprefix.length_le.trans (leBytes_length 8 bn.natAbs).le
  unfold bigNumVch
  dsimp only
  split
  · simp
  · split
    · rw [List.length_append, List.length_singleton]
      omega
    · split
      · rw [List.length_append, List.length_dropLast, List.length_singleton]
        omega
      · omega

def castToBigNum (vch : VchType) : Option Int :=
  if nMaxNumSize < vch.length then none else some (bigNumOf vch)

def castToBool : VchType → Bool
  | [] => false
  | b :: vch => if b ≠ 0 then !(vch.isEmpty && b == 128) else castToBool vch

inductive StackOp where
  | twoDrop | twoDup | threeDup | twoOver | twoRot | twoSwap | ifDup | depth | drop | dup | nip
  | over | pick | roll | rot | swap | tuck | size
  deriving DecidableEq, Repr

inductive UnaryOp where
  | add1 | sub1 | negate | abs | not | notEqual0
  deriving DecidableEq, Repr

inductive BinaryOp where
  | add | sub | boolAnd | boolOr | numEqual | numEqualVerify | numNotEqual | lessThan | greaterThan
  | lessThanOrEqual | greaterThanOrEqual | min | max
  deriving DecidableEq, Repr

inductive HashOp where
  | ripemd160 | sha1 | sha256 | hash160 | hash256
  deriving DecidableEq, Repr

inductive Opcode where
  | num (bn : Int)
  | nop
  | branch (negated : Bool)
  | otherwise
  | endBranch
  | verify
  | toAltStack
  | fromAltStack
  | stack (op : StackOp)
  | equal (verify : Bool)
  | unary (op : UnaryOp)
  | binary (op : BinaryOp)
  | within
  | hash (op : HashOp)
  | codeSeparator
  | checkSig (verify : Bool)
  | checkMultisig (verify : Bool)
  deriving DecidableEq, Repr

def stackOps : List StackOp :=
  [.twoDrop, .twoDup, .threeDup, .twoOver, .twoRot, .twoSwap, .ifDup, .depth, .drop, .dup, .nip,
    .over, .pick, .roll, .rot, .swap, .tuck]

def binaryOps : List BinaryOp :=
  [.boolAnd, .boolOr, .numEqual, .numEqualVerify, .numNotEqual, .lessThan, .greaterThan,
    .lessThanOrEqual, .greaterThanOrEqual, .min, .max]

def hashOps : List HashOp := [.ripemd160, .sha1, .sha256, .hash160, .hash256]

def opcodeOf (opcode : Nat) : Option Opcode :=
  if opcode = 79 ∨ (op1 ≤ opcode ∧ opcode ≤ op16) then some (.num ((opcode : Int) - (op1 - 1 : Nat)))
  else if opcode = opNop ∨ (176 ≤ opcode ∧ opcode ≤ 185) then some .nop
  else if opcode = 99 then some (.branch false)
  else if opcode = 100 then some (.branch true)
  else if opcode = 103 then some .otherwise
  else if opcode = 104 then some .endBranch
  else if opcode = 105 then some .verify
  else if opcode = 107 then some .toAltStack
  else if opcode = 108 then some .fromAltStack
  else if op2Drop ≤ opcode ∧ opcode ≤ 125 then (stackOps[opcode - op2Drop]?).map .stack
  else if opcode = 130 then some (.stack .size)
  else if opcode = 135 then some (.equal false)
  else if opcode = opEqualverify then some (.equal true)
  else if opcode = 139 then some (.unary .add1)
  else if opcode = 140 then some (.unary .sub1)
  else if opcode = 143 then some (.unary .negate)
  else if opcode = 144 then some (.unary .abs)
  else if opcode = 145 then some (.unary .not)
  else if opcode = 146 then some (.unary .notEqual0)
  else if opcode = 147 then some (.binary .add)
  else if opcode = 148 then some (.binary .sub)
  else if 154 ≤ opcode ∧ opcode ≤ 164 then (binaryOps[opcode - 154]?).map .binary
  else if opcode = 165 then some .within
  else if 166 ≤ opcode ∧ opcode ≤ 170 then (hashOps[opcode - 166]?).map .hash
  else if opcode = opCodeseparator then some .codeSeparator
  else if opcode = opChecksig then some (.checkSig false)
  else if opcode = opChecksigverify then some (.checkSig true)
  else if opcode = opCheckmultisig then some (.checkMultisig false)
  else if opcode = opCheckmultisigverify then some (.checkMultisig true)
  else none

def disabledOps : List Nat := [126, 127, 128, 129, 131, 132, 133, 134, 141, 142, 149, 150, 151, 152, 153]

def pickOrRoll (erase : Bool) : List VchType → Option (List VchType)
  | vchN :: st =>
    if st.isEmpty then none
    else
      match castToBigNum vchN with
      | none => none
      | some n =>
        if n < 0 then none
        else
          match st[n.toNat]? with
          | none => none
          | some vch => some (vch :: (if erase then st.eraseIdx n.toNat else st))
  | [] => none

def evalStackOp : StackOp → List VchType → Option (List VchType)
  | .twoDrop, _ :: _ :: st => some st
  | .twoDup, x2 :: x1 :: st => some (x2 :: x1 :: x2 :: x1 :: st)
  | .threeDup, x3 :: x2 :: x1 :: st => some (x3 :: x2 :: x1 :: x3 :: x2 :: x1 :: st)
  | .twoOver, x4 :: x3 :: x2 :: x1 :: st => some (x2 :: x1 :: x4 :: x3 :: x2 :: x1 :: st)
  | .twoRot, x6 :: x5 :: x4 :: x3 :: x2 :: x1 :: st =>
    some (x2 :: x1 :: x6 :: x5 :: x4 :: x3 :: st)
  | .twoSwap, x4 :: x3 :: x2 :: x1 :: st => some (x2 :: x1 :: x4 :: x3 :: st)
  | .ifDup, x :: st => some (if castToBool x then x :: x :: st else x :: st)
  | .depth, st => some (bigNumVch st.length :: st)
  | .drop, _ :: st => some st
  | .dup, x :: st => some (x :: x :: st)
  | .nip, x2 :: _ :: st => some (x2 :: st)
  | .over, x2 :: x1 :: st => some (x1 :: x2 :: x1 :: st)
  | .pick, st => pickOrRoll false st
  | .roll, st => pickOrRoll true st
  | .rot, x3 :: x2 :: x1 :: st => some (x1 :: x3 :: x2 :: st)
  | .swap, x2 :: x1 :: st => some (x1 :: x2 :: st)
  | .tuck, x2 :: x1 :: st => some (x2 :: x1 :: x2 :: st)
  | .size, x :: st => some (bigNumVch x.length :: x :: st)
  | _, _ => none

def evalUnaryOp (op : UnaryOp) (bn : Int) : Int :=
  match op with
  | .add1 => bn + 1
  | .sub1 => bn - 1
  | .negate => -bn
  | .abs => if bn < 0 then -bn else bn
  | .not => if bn = 0 then 1 else 0
  | .notEqual0 => if bn ≠ 0 then 1 else 0

def evalBinaryOp (op : BinaryOp) (bn1 bn2 : Int) : Int :=
  let ofBool (b : Bool) : Int := if b then 1 else 0
  match op with
  | .add => bn1 + bn2
  | .sub => bn1 - bn2
  | .boolAnd => ofBool (bn1 ≠ 0 && bn2 ≠ 0)
  | .boolOr => ofBool (bn1 ≠ 0 || bn2 ≠ 0)
  | .numEqual => ofBool (bn1 == bn2)
  | .numEqualVerify => ofBool (bn1 == bn2)
  | .numNotEqual => ofBool (bn1 != bn2)
  | .lessThan => ofBool (bn1 < bn2)
  | .greaterThan => ofBool (bn2 < bn1)
  | .lessThanOrEqual => ofBool (bn1 ≤ bn2)
  | .greaterThanOrEqual => ofBool (bn2 ≤ bn1)
  | .min => if bn1 < bn2 then bn1 else bn2
  | .max => if bn2 < bn1 then bn1 else bn2

def stripAll (b : CScript) : Nat → CScript → CScript
  | 0, s => s
  | fuel + 1, s => if b.isPrefixOf s then stripAll b fuel (s.drop b.length) else s

def deleteFrom (b : CScript) : Nat → CScript → CScript
  | 0, s => s
  | fuel + 1, s =>
    let s := stripAll b s.length s
    match getOp s with
    | none => s
    | some (_, _, rest) => s.take (s.length - rest.length) ++ deleteFrom b fuel rest

def findAndDelete (script b : CScript) : CScript :=
  if b.isEmpty then script else deleteFrom b (script.length + 1) script

def CTxOut.null : CTxOut := ⟨-1, []⟩

def blankSequences (nIn : Nat) (vin : List CTxIn) : List CTxIn :=
  vin.mapIdx (fun i txin => if i = nIn then txin else { txin with nSequence := 0 })

def blankOutputs (txTmp : CTransaction) (nIn nHashType : Nat) : Option CTransaction :=
  if nHashType % 32 = sighashNone then
    some { txTmp with vin := blankSequences nIn txTmp.vin, vout := [] }
  else if nHashType % 32 = sighashSingle then
    match txTmp.vout[nIn]? with
    | none => none
    | some txout => some { txTmp with
        vin := blankSequences nIn txTmp.vin
        vout := List.replicate nIn CTxOut.null ++ [txout] }
  else some txTmp

def signatureHash (env : Env) (scriptCode : CScript) (txTo : CTransaction) (nIn nHashType : Nat) :
    Uint256 :=
  if nIn < txTo.vin.length then
    let scriptCode := findAndDelete scriptCode (ops [opCodeseparator])
    let vin := txTo.vin.mapIdx (fun i txin =>
      { txin with scriptSig := if i = nIn then scriptCode else [] })
    match blankOutputs { txTo with vin := vin } nIn nHashType with
    | none => 1
    | some txTmp =>
      let vin := if nHashType / sighashAnyonecanpay % 2 = 1 then (txTmp.vin[nIn]?).toList else txTmp.vin
      env.hash ({ txTmp with vin := vin }.serialize ++ leBytes 4 nHashType)
  else 1

structure KeyCheck where
  setPubKey : VchType → Bool
  verify : VchType → Uint256 → VchType → Bool
  ripemd160 : VchType → VchType
  sha1 : VchType → VchType
  sha256 : VchType → VchType

structure EvalCall where
  env : Env
  keys : KeyCheck
  txTo : CTransaction
  nIn : Nat
  nHashType : Nat

namespace EvalCall

def checkSig (c : EvalCall) (vchSig vchPubKey : VchType) (scriptCode : CScript) : Bool :=
  if c.keys.setPubKey vchPubKey then
    match vchSig.getLast? with
    | none => false
    | some last =>
      if c.nHashType = 0 ∨ c.nHashType = last.toNat then
        c.keys.verify vchPubKey (signatureHash c.env scriptCode c.txTo c.nIn last.toNat)
          vchSig.dropLast
      else false
  else false

def hashOp (c : EvalCall) (op : HashOp) (vch : VchType) : VchType :=
  match op with
  | .ripemd160 => c.keys.ripemd160 vch
  | .sha1 => c.keys.sha1 vch
  | .sha256 => c.keys.sha256 vch
  | .hash160 => (c.env.hash160 vch).val
  | .hash256 => serHash (c.env.hash vch)

def matchSigs (c : EvalCall) (scriptCode : CScript) : List VchType → List VchType → Bool
  | [], _ => true
  | _ :: _, [] => false
  | vchSig :: sigs, vchPubKey :: keys =>
    let sigs' := if c.checkSig vchSig vchPubKey scriptCode then sigs else vchSig :: sigs
    if keys.length < sigs'.length then false else c.matchSigs scriptCode sigs' keys

end EvalCall

structure EvalState where
  stack : List VchType
  altstack : List VchType
  vfExec : List Bool
  nOpCount : Nat
  codeHash : CScript

def verified (verify fSuccess : Bool) (stack : List VchType) : Option (List VchType) :=
  if verify then (if fSuccess then some stack else none) else some (vchBool fSuccess :: stack)

namespace EvalCall

def evalMultisig (c : EvalCall) (verify : Bool) (s : EvalState) : Option EvalState := do
  let nKeysCount ← castToBigNum (← s.stack[0]?)
  if nKeysCount < 0 ∨ 20 < nKeysCount then none
  else
    let nKeys := nKeysCount.toNat
    let nOpCount := s.nOpCount + nKeys
    if 201 < nOpCount then none
    else do
      let nSigsCount ← castToBigNum (← s.stack[1 + nKeys]?)
      if nSigsCount < 0 ∨ nKeysCount < nSigsCount then none
      else
        let nSigs := nSigsCount.toNat
        if s.stack.length < 3 + nKeys + nSigs then none
        else do
          let sigs := (s.stack.drop (2 + nKeys)).take nSigs
          let scriptCode := sigs.foldl (fun code vchSig => findAndDelete code (pushData vchSig)) s.codeHash
          let fSuccess := c.matchSigs scriptCode sigs ((s.stack.drop 1).take nKeys)
          let stack ← verified verify fSuccess (s.stack.drop (3 + nKeys + nSigs))
          some { s with stack := stack, nOpCount := nOpCount }

def evalBranch (fExec negated : Bool) (s : EvalState) : Option EvalState :=
  if fExec then
    match s.stack with
    | [] => none
    | vch :: st => some { s with stack := st, vfExec := (castToBool vch != negated) :: s.vfExec }
  else some { s with vfExec := false :: s.vfExec }

def onStack (s : EvalState) (f : List VchType → Option (List VchType)) : Option EvalState :=
  (f s.stack).map (fun stack => { s with stack := stack })

def evalOp (c : EvalCall) (fExec : Bool) (pc : CScript) (s : EvalState) : Opcode → Option EvalState
  | .num bn => some { s with stack := bigNumVch bn :: s.stack }
  | .nop => some s
  | .branch negated => evalBranch fExec negated s
  | .otherwise =>
    match s.vfExec with
    | [] => none
    | f :: rest => some { s with vfExec := (!f) :: rest }
  | .endBranch =>
    match s.vfExec with
    | [] => none
    | _ :: rest => some { s with vfExec := rest }
  | .verify => onStack s (fun
    | [] => none
    | x :: st => if castToBool x then some st else none)
  | .toAltStack =>
    match s.stack with
    | [] => none
    | x :: st => some { s with stack := st, altstack := x :: s.altstack }
  | .fromAltStack =>
    match s.altstack with
    | [] => none
    | x :: alt => some { s with stack := x :: s.stack, altstack := alt }
  | .stack op => onStack s (evalStackOp op)
  | .equal verify => onStack s (fun
    | x2 :: x1 :: st => verified verify (x1 == x2) st
    | _ => none)
  | .unary op => onStack s (fun
    | x :: st => (castToBigNum x).map (fun bn => bigNumVch (evalUnaryOp op bn) :: st)
    | _ => none)
  | .binary op => onStack s (fun
    | x2 :: x1 :: st => do
      let bn := evalBinaryOp op (← castToBigNum x1) (← castToBigNum x2)
      if op = .numEqualVerify then (if castToBool (bigNumVch bn) then some st else none)
      else some (bigNumVch bn :: st)
    | _ => none)
  | .within => onStack s (fun
    | x3 :: x2 :: x1 :: st => do
      let bn1 ← castToBigNum x1
      let bn2 ← castToBigNum x2
      let bn3 ← castToBigNum x3
      some (vchBool (decide (bn2 ≤ bn1) && decide (bn1 < bn3)) :: st)
    | _ => none)
  | .hash op => onStack s (fun
    | x :: st => some (c.hashOp op x :: st)
    | _ => none)
  | .codeSeparator => some { s with codeHash := pc }
  | .checkSig verify => onStack s (fun
    | vchPubKey :: vchSig :: st =>
      verified verify
        (c.checkSig vchSig vchPubKey (findAndDelete s.codeHash (pushData vchSig))) st
    | _ => none)
  | .checkMultisig verify => c.evalMultisig verify s

def evalInstr (c : EvalCall) (opcode : Nat) (vchPushValue : VchType) (pc : CScript)
    (s : EvalState) : Option EvalState :=
  let fExec := !s.vfExec.contains false
  let nOpCount := if op16 < opcode then s.nOpCount + 1 else s.nOpCount
  if 520 < vchPushValue.length then none
  else if op16 < opcode ∧ 201 < nOpCount then none
  else if opcode ∈ disabledOps then none
  else do
    let s := { s with nOpCount := nOpCount }
    let s ←
      if fExec ∧ opcode ≤ opPushdata4 then some { s with stack := vchPushValue :: s.stack }
      else if fExec ∨ (99 ≤ opcode ∧ opcode ≤ 104) then
        (opcodeOf opcode).bind (c.evalOp fExec pc s)
      else some s
    if 1000 < s.stack.length + s.altstack.length then none else some s

def evalLoop (c : EvalCall) : Nat → CScript → EvalState → Option EvalState
  | _, [], s => some s
  | 0, _ :: _, _ => none
  | fuel + 1, b :: script, s =>
    match getOp (b :: script) with
    | none => none
    | some (opcode, vchPushValue, pc) =>
      (c.evalInstr opcode vchPushValue pc s).bind (c.evalLoop fuel pc)

def evalFrom (c : EvalCall) (script : CScript) (s : EvalState) : Option (List VchType) :=
  (c.evalLoop script.length script s).bind
    (fun s => if s.vfExec.isEmpty then some s.stack else none)

def evalScript (c : EvalCall) (stack : List VchType) (script : CScript) : Option (List VchType) :=
  if 10000 < script.length then none else c.evalFrom script ⟨stack, [], [], 0, script⟩

def verifyScript (c : EvalCall) (scriptSig scriptPubKey : CScript) : Bool :=
  match (c.evalScript [] scriptSig).bind (fun stack => c.evalScript stack scriptPubKey) with
  | some (x :: _) => castToBool x
  | _ => false

end EvalCall

end Namecoin
