import Namecoin.Data.Serial

namespace Namecoin

def opPushdata1 : Nat := 76
def opPushdata2 : Nat := 77
def opPushdata4 : Nat := 78
def op1 : Nat := 81
def op16 : Nat := 96
def opNop : Nat := 97
def opReturn : Nat := 106
def op2Drop : Nat := 109
def opDrop : Nat := 117
def opChecksig : Nat := 172
def opChecksigverify : Nat := 173
def opCheckmultisig : Nat := 174
def opCheckmultisigverify : Nat := 175

def leNat : List UInt8 → Nat
  | [] => 0
  | b :: s => b.toNat + 256 * leNat s

def pushSize (opcode : Nat) (s : CScript) : Option (Nat × CScript) :=
  if opcode < opPushdata1 then some (opcode, s)
  else
    let width := if opcode = opPushdata1 then 1 else if opcode = opPushdata2 then 2 else 4
    if s.length < width then none else some (leNat (s.take width), s.drop width)

def getOp : CScript → Option (Nat × VchType × CScript)
  | [] => none
  | b :: s =>
    if b.toNat ≤ opPushdata4 then
      match pushSize b.toNat s with
      | none => none
      | some (nSize, s') =>
        if s'.length < nSize then none else some (b.toNat, s'.take nSize, s'.drop nSize)
    else some (b.toNat, [], s)

def opcodes : Nat → CScript → List Nat × Bool
  | 0, s => ([], s.isEmpty)
  | fuel + 1, s =>
    match getOp s with
    | none => ([], s.isEmpty)
    | some (opcode, _, s') =>
      let r := opcodes fuel s'
      (opcode :: r.1, r.2)

def sigOps (opcode : Nat) : Nat :=
  if opcode = opChecksig ∨ opcode = opChecksigverify then 1
  else if opcode = opCheckmultisig ∨ opcode = opCheckmultisigverify then 20
  else 0

def getSigOpCount (s : CScript) : Nat := ((opcodes s.length s).1.map sigOps).sum

theorem opcodes_length (fuel : Nat) (s : CScript) : (opcodes fuel s).1.length ≤ fuel := by
  induction fuel generalizing s with
  | zero => simp [opcodes]
  | succ fuel ih =>
    unfold opcodes
    split
    · simp
    · rename_i opcode vch s' hop
      simpa using ih s'

theorem getSigOpCount_le (s : CScript) : getSigOpCount s ≤ 20 * s.length := by
  have hone : ∀ x ∈ (opcodes s.length s).1.map sigOps, x ≤ 20 := by
    intro x hx
    obtain ⟨opcode, -, rfl⟩ := List.mem_map.mp hx
    unfold sigOps
    split
    · decide
    · split <;> decide
  have hlen := opcodes_length s.length s
  have hsum := List.sum_le_card_nsmul _ 20 hone
  rw [List.length_map, smul_eq_mul] at hsum
  unfold getSigOpCount
  omega

def isPushOnly (s : CScript) : Bool :=
  decide (s.length ≤ 200) && (opcodes s.length s).2 &&
    (opcodes s.length s).1.all (fun opcode => decide (opcode ≤ op16))

def CTransaction.getSigOpCount (tx : CTransaction) : Nat :=
  (tx.vin.map (fun txin => Namecoin.getSigOpCount txin.scriptSig)).sum +
    (tx.vout.map (fun txout => Namecoin.getSigOpCount txout.scriptPubKey)).sum

def isDropOrNop (opcode : Nat) : Bool :=
  opcode == opDrop || opcode == op2Drop || opcode == opNop

def readArgs : Nat → CScript → List VchType → Bool × List VchType
  | 0, _, vvch => (false, vvch)
  | fuel + 1, s, vvch =>
    match getOp s with
    | none => (false, vvch)
    | some (opcode, vch, s') =>
      if isDropOrNop opcode then (true, vvch)
      else if opcode ≤ opPushdata4 then readArgs fuel s' (vvch ++ [vch])
      else (false, vvch)

def argCount (op : Nat) (vvch : List VchType) : Bool :=
  (op == opNameNew && vvch.length == 1) || (op == opNameFirstupdate && vvch.length == 3) ||
    (op == opNameUpdate && vvch.length == 2)

structure NameScript where
  ok : Bool
  op : Nat
  vvch : List VchType
  deriving DecidableEq, Repr

def decodeNameScript (script : CScript) (op : Nat) (vvch : List VchType) : NameScript :=
  match getOp script with
  | none => ⟨false, op, vvch⟩
  | some (opcode, _, s) =>
    if opcode < op1 ∨ op16 < opcode then ⟨false, op, vvch⟩
    else
      let op' := opcode - op1 + 1
      let r := readArgs s.length s vvch
      ⟨r.1 && argCount op' r.2, op', r.2⟩

def smallInt (script : CScript) : Option Nat :=
  match getOp script with
  | none => none
  | some (opcode, _, _) =>
    if opcode < op1 ∨ op16 < opcode then none else some (opcode - op1 + 1)

theorem decodeNameScript_op (script : CScript) (op : Nat) (vvch : List VchType) :
    (decodeNameScript script op vvch).op = (smallInt script).getD op := by
  unfold decodeNameScript smallInt
  cases getOp script with
  | none => rfl
  | some r =>
    obtain ⟨opcode, vch, s⟩ := r
    dsimp only
    split <;> rfl

theorem decodeNameScript_op_of_ok {script : CScript} {op : Nat} {vvch : List VchType}
    (h : (decodeNameScript script op vvch).ok = true) :
    smallInt script = some (decodeNameScript script op vvch).op := by
  unfold decodeNameScript smallInt at *
  cases hg : getOp script with
  | none => simp [hg] at h
  | some r =>
    obtain ⟨opcode, vch, s⟩ := r
    rw [hg] at h
    dsimp only at h ⊢
    split at h
    · simp at h
    · rename_i hc
      simp [hc]

theorem decodeNameScript_indep (script : CScript) (op op' : Nat) (vvch : List VchType) :
    (decodeNameScript script op vvch).ok = (decodeNameScript script op' vvch).ok ∧
      (decodeNameScript script op vvch).vvch = (decodeNameScript script op' vvch).vvch := by
  unfold decodeNameScript
  cases getOp script with
  | none => exact ⟨rfl, rfl⟩
  | some r =>
    obtain ⟨opcode, vch, s⟩ := r
    dsimp only
    split <;> exact ⟨rfl, rfl⟩

theorem decodeNameScript_args {script : CScript} {op : Nat} {vvch : List VchType}
    (h : (decodeNameScript script op vvch).ok = true) :
    argCount (decodeNameScript script op vvch).op (decodeNameScript script op vvch).vvch = true := by
  unfold decodeNameScript at *
  cases hg : getOp script with
  | none => simp [hg] at h
  | some r =>
    obtain ⟨opcode, vch, s⟩ := r
    rw [hg] at h
    dsimp only at h ⊢
    split at h
    · simp at h
    · rename_i hc
      simp only [hc, if_false, Bool.and_eq_true] at h ⊢
      exact h.2

def isNameScript (script : CScript) : Bool := (decodeNameScript script 0 []).ok

end Namecoin
