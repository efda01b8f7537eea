import Namecoin.Chain.Run
import Namecoin.Script.Eval
import Namecoin.Wallet.NameScript

namespace Namecoin

def NameArgs.LengthsOk : NameArgs → Prop
  | .new hash => hash.length = 20
  | .firstupdate vchName vchRand vchValue =>
    vchName.length ≤ maxNameLength ∧ vchRand.length ≤ 20 ∧ vchValue.length ≤ maxValueLength
  | .update vchName vchValue => vchName.length ≤ maxNameLength ∧ vchValue.length ≤ maxValueLength

instance : (a : NameArgs) → Decidable a.LengthsOk
  | .new hash => inferInstanceAs (Decidable (hash.length = 20))
  | .firstupdate _ _ _ => inferInstanceAs (Decidable (_ ∧ _ ∧ _))
  | .update _ _ => inferInstanceAs (Decidable (_ ∧ _))

namespace EvalCall

variable (c : EvalCall)

def run (script : CScript) (s : EvalState) : Option EvalState := c.evalLoop script.length script s

variable {c}

theorem evalLoop_fuel {fuel : Nat} {script : CScript} {s : EvalState} (h : script.length ≤ fuel) :
    c.evalLoop fuel script s = c.run script s := by
  induction hn : script.length using Nat.strong_induction_on generalizing fuel script s with
  | _ n ih =>
    subst hn
    cases script with
    | nil =>
      unfold run
      cases fuel <;> rfl
    | cons b script =>
      obtain ⟨fuel, rfl⟩ := Nat.exists_eq_succ_of_ne_zero (Nat.ne_of_gt (Nat.zero_lt_of_lt h))
      unfold run
      rw [List.length_cons, evalLoop, evalLoop]
      cases hop : getOp (b :: script) with
      | none => rfl
      | some r =>
        obtain ⟨opcode, vch, pc⟩ := r
        have hlt := getOp_length hop
        rw [List.length_cons] at hlt h
        have hleft : ∀ s', c.evalLoop fuel pc s' = c.run pc s' :=
          fun s' => ih pc.length (by rw [List.length_cons]; omega) (by omega) rfl
        have hright : ∀ s', c.evalLoop script.length pc s' = c.run pc s' :=
          fun s' => ih pc.length (by rw [List.length_cons]; omega) (by omega) rfl
        simp only [funext hleft, funext hright]

theorem run_nil (s : EvalState) : c.run [] s = some s := rfl

theorem run_step {script pc : CScript} {opcode : Nat} {vch : VchType} {s : EvalState}
    (h : getOp script = some (opcode, vch, pc)) :
    c.run script s = (c.evalInstr opcode vch pc s).bind (c.run pc) := by
  cases script with
  | nil => cases h
  | cons b script =>
    have hlt := getOp_length h
    rw [List.length_cons] at hlt
    have hfuel : ∀ s', c.evalLoop script.length pc s' = c.run pc s' :=
      fun s' => evalLoop_fuel (by omega)
    unfold run at *
    rw [List.length_cons, evalLoop, h]
    simp only [funext hfuel]

section Plain

variable {stack : List VchType} {n : Nat} {code : CScript}

theorem push_enabled {opcode : Nat} (hop : opcode ≤ opPushdata4) :
    ¬op16 < opcode ∧ opcode ∉ disabledOps := by
  unfold opPushdata4 at hop
  unfold op16
  simp only [disabledOps, List.mem_cons, List.not_mem_nil, or_false]
  omega

theorem evalInstr_literal {opcode : Nat} {vch : VchType} {pc : CScript}
    (hop : opcode ≤ opPushdata4) :
    c.evalInstr opcode vch pc ⟨stack, [], [], n, code⟩ =
      if 520 < vch.length then none
      else if 1000 < stack.length + 1 then none else some ⟨vch :: stack, [], [], n, code⟩ := by
  obtain ⟨hlow, hdisabled⟩ := push_enabled hop
  unfold evalInstr
  simp only [List.contains_nil, Bool.not_false, hlow, if_false, false_and, hdisabled, hop, and_self,
    if_true]
  rfl

theorem evalInstr_push {opcode : Nat} {vch : VchType} {pc : CScript} (hop : opcode ≤ opPushdata4)
    (hroom : stack.length < 1000) :
    c.evalInstr opcode vch pc ⟨stack, [], [], n, code⟩ =
      if 520 < vch.length then none else some ⟨vch :: stack, [], [], n, code⟩ := by
  rw [evalInstr_literal hop, if_neg (show ¬1000 < stack.length + 1 by omega)]

theorem evalInstr_op {opcode : Nat} {op : Opcode} {pc : CScript} {s' : EvalState}
    (hlow : opPushdata4 < opcode) (hcount : n < 201) (hdisabled : opcode ∉ disabledOps)
    (hop : opcodeOf opcode = some op)
    (heval : c.evalOp true pc ⟨stack, [], [], if op16 < opcode then n + 1 else n, code⟩ op = some s')
    (hroom : s'.stack.length + s'.altstack.length ≤ 1000) :
    c.evalInstr opcode [] pc ⟨stack, [], [], n, code⟩ = some s' := by
  have hpush : ¬opcode ≤ opPushdata4 := by omega
  have hops : ¬(op16 < opcode ∧ 201 < if op16 < opcode then n + 1 else n) := by
    rintro ⟨hlow, hlt⟩
    rw [if_pos hlow] at hlt
    omega
  unfold evalInstr
  simp only [List.contains_nil, Bool.not_false, List.length_nil, hdisabled, hpush, and_false,
    if_false, true_or, if_true, hop, Option.bind_some, Option.bind_eq_bind]
  rw [if_neg (by omega), if_neg hops, heval, Option.bind_some, if_neg (by omega)]

theorem run_pushes {vvch : List VchType} {rest : CScript} (hlen : ∀ vch ∈ vvch, vch.length < 2 ^ 32)
    (hroom : stack.length + vvch.length ≤ 1000) :
    c.run (vvch.flatMap pushData ++ rest) ⟨stack, [], [], n, code⟩ =
      if ∀ vch ∈ vvch, vch.length ≤ 520 then
        c.run rest ⟨vvch.reverse ++ stack, [], [], n, code⟩
      else none := by
  induction vvch generalizing stack with
  | nil => simp
  | cons vch vvch ih =>
    rw [List.length_cons] at hroom
    obtain ⟨opcode, hle, hop⟩ := getOp_pushData (hlen vch List.mem_cons_self)
      (vvch.flatMap pushData ++ rest)
    rw [List.flatMap_cons, List.append_assoc, run_step hop, evalInstr_push hle (by omega)]
    split
    · rename_i hlong
      rw [if_neg]
      · rfl
      · intro hall
        have := hall vch List.mem_cons_self
        omega
    · rename_i hshort
      rw [Option.bind_some, ih (fun x hx => hlen x (List.mem_cons_of_mem _ hx))
        (by rw [List.length_cons]; omega)]
      have hiff : (∀ x ∈ vch :: vvch, x.length ≤ 520) ↔ ∀ x ∈ vvch, x.length ≤ 520 := by
        rw [List.forall_mem_cons]
        exact ⟨fun h => h.2, fun h => ⟨by omega, h⟩⟩
      simp only [hiff, List.reverse_cons, List.append_assoc, List.singleton_append]

theorem run_op {opcode : Nat} {op : Opcode} {rest : CScript} {s' : EvalState}
    (hlow : opPushdata4 < opcode) (hhigh : opcode < 256) (hcount : n < 201)
    (hdisabled : opcode ∉ disabledOps) (hop : opcodeOf opcode = some op)
    (heval : c.evalOp true rest ⟨stack, [], [], if op16 < opcode then n + 1 else n, code⟩ op = some s')
    (hroom : s'.stack.length + s'.altstack.length ≤ 1000) :
    c.run (UInt8.ofNat opcode :: rest) ⟨stack, [], [], n, code⟩ = c.run rest s' := by
  rw [run_step (getOp_ofNat hlow hhigh rest),
    evalInstr_op hlow hcount hdisabled hop heval hroom, Option.bind_some]

theorem run_smallInt {k : Nat} {rest : CScript} (hmin : 1 ≤ k) (hmax : k ≤ 16) (hcount : n < 201)
    (hroom : stack.length < 1000) :
    c.run (UInt8.ofNat (k + (op1 - 1)) :: rest) ⟨stack, [], [], n, code⟩ =
      c.run rest ⟨bigNumVch k :: stack, [], [], n, code⟩ := by
  have h1 : op1 = 81 := rfl
  have h16 : op16 = 96 := rfl
  have hpush : opPushdata4 = 78 := rfl
  have hdisabled : k + (op1 - 1) ∉ disabledOps := by
    simp only [disabledOps, List.mem_cons, List.not_mem_nil, or_false]
    omega
  have hop : opcodeOf (k + (op1 - 1)) = some (.num k) := by
    unfold opcodeOf
    rw [if_pos (by omega)]
    congr 2
    omega
  apply run_op (by omega) (by omega) hcount hdisabled hop
  · rw [if_neg (by omega)]
    rfl
  · rw [List.length_cons, List.length_nil]
    omega

theorem run_twoDrop {x2 x1 : VchType} {rest : CScript} (hcount : n < 201)
    (hroom : stack.length ≤ 1000) :
    c.run (UInt8.ofNat op2Drop :: rest) ⟨x2 :: x1 :: stack, [], [], n, code⟩ =
      c.run rest ⟨stack, [], [], n + 1, code⟩ :=
  run_op (by decide) (by decide) hcount (by decide) rfl rfl hroom

theorem run_drop {x : VchType} {rest : CScript} (hcount : n < 201) (hroom : stack.length ≤ 1000) :
    c.run (UInt8.ofNat opDrop :: rest) ⟨x :: stack, [], [], n, code⟩ =
      c.run rest ⟨stack, [], [], n + 1, code⟩ :=
  run_op (by decide) (by decide) hcount (by decide) rfl rfl hroom

theorem run_drops (a : NameArgs) {rest : CScript} (hcount : n < 200) (hroom : stack.length ≤ 996)
    (x : VchType) :
    c.run (UInt8.ofNat op2Drop :: (ops a.drops ++ rest))
        ⟨a.vvch.reverse ++ x :: stack, [], [], n, code⟩ =
      c.run rest ⟨stack, [], [], n + 1 + a.drops.length, code⟩ := by
  cases a with
  | new hash => exact run_twoDrop (by omega) (by omega)
  | firstupdate vchName vchRand vchValue =>
    calc c.run (UInt8.ofNat op2Drop :: UInt8.ofNat op2Drop :: rest)
          ⟨vchValue :: vchRand :: vchName :: x :: stack, [], [], n, code⟩
        = c.run (UInt8.ofNat op2Drop :: rest) ⟨vchName :: x :: stack, [], [], n + 1, code⟩ :=
          run_twoDrop (by omega) (by rw [List.length_cons, List.length_cons]; omega)
      _ = c.run rest ⟨stack, [], [], n + 1 + 1, code⟩ := run_twoDrop (by omega) (by omega)
  | update vchName vchValue =>
    calc c.run (UInt8.ofNat op2Drop :: UInt8.ofNat opDrop :: rest)
          ⟨vchValue :: vchName :: x :: stack, [], [], n, code⟩
        = c.run (UInt8.ofNat opDrop :: rest) ⟨x :: stack, [], [], n + 1, code⟩ :=
          run_twoDrop (by omega) (by rw [List.length_cons]; omega)
      _ = c.run rest ⟨stack, [], [], n + 1 + 1, code⟩ := run_drop (by omega) (by omega)

theorem run_script {a : NameArgs} {rest : CScript} (hlen : ∀ vch ∈ a.vvch, vch.length < 2 ^ 32)
    (hcount : n < 200) (hroom : stack.length ≤ 996) :
    c.run (a.script ++ rest) ⟨stack, [], [], n, code⟩ =
      if ∀ vch ∈ a.vvch, vch.length ≤ 520 then
        c.run rest ⟨stack, [], [], n + 1 + a.drops.length, code⟩
      else none := by
  obtain ⟨hmin, hmax⟩ := a.op_bounds
  have hargs : a.vvch.length ≤ 3 := by cases a <;> simp [NameArgs.vvch]
  rw [NameArgs.script_append, run_smallInt hmin (by omega) (by omega) (by omega),
    run_pushes hlen (by rw [List.length_cons]; omega), run_drops a hcount hroom]

end Plain

theorem run_address {hash160 : Uint160} {vchPubKey vchSig : VchType} {n : Nat} {code : CScript}
    (hcount : n + 4 < 201) (hpub : c.env.hash160 vchPubKey = hash160)
    (hsig : c.checkSig vchSig vchPubKey (findAndDelete code (pushData vchSig)) = true) :
    c.run (setBitcoinAddress hash160) ⟨[vchPubKey, vchSig], [], [], n, code⟩ =
      some ⟨[vchTrue], [], [], n + 4, code⟩ := by
  have hlen := hash160.property
  have hscript : setBitcoinAddress hash160 = UInt8.ofNat opDup :: UInt8.ofNat opHash160 ::
      ([hash160.val].flatMap pushData ++ ops [opEqualverify, opChecksig]) := by
    simp [setBitcoinAddress, ops]
  calc c.run (setBitcoinAddress hash160) ⟨[vchPubKey, vchSig], [], [], n, code⟩
      = c.run (UInt8.ofNat opHash160 ::
          ([hash160.val].flatMap pushData ++ ops [opEqualverify, opChecksig]))
          ⟨[vchPubKey, vchPubKey, vchSig], [], [], n + 1, code⟩ := by
        rw [hscript]
        exact run_op (by decide) (by decide) (by omega) (by decide) rfl rfl (by simp)
    _ = c.run ([hash160.val].flatMap pushData ++ ops [opEqualverify, opChecksig])
          ⟨[hash160.val, vchPubKey, vchSig], [], [], n + 2, code⟩ := by
        rw [← hpub]
        exact run_op (by decide) (by decide) (by omega) (by decide) rfl rfl (by simp)
    _ = c.run (ops [opEqualverify, opChecksig])
          ⟨[hash160.val, hash160.val, vchPubKey, vchSig], [], [], n + 2, code⟩ := by
        rw [run_pushes (by simp [hlen]) (by simp), if_pos (by simp [hlen])]
        rfl
    _ = c.run (ops [opChecksig]) ⟨[vchPubKey, vchSig], [], [], n + 3, code⟩ := by
        apply run_op (by decide) (by decide) (by omega) (by decide) rfl
        · simp only [evalOp, onStack, verified, beq_self_eq_true, if_true, Option.map_some]
          rfl
        · simp
    _ = c.run [] ⟨[vchTrue], [], [], n + 4, code⟩ := by
        apply run_op (by decide) (by decide) (by omega) (by decide) rfl
        · simp only [evalOp, onStack, hsig]
          rfl
        · simp
    _ = some ⟨[vchTrue], [], [], n + 4, code⟩ := rfl

theorem evalScript_run {script : CScript} {stack stack' : List VchType} {n : Nat}
    (hlen : script.length ≤ 10000)
    (h : c.run script ⟨stack, [], [], 0, script⟩ = some ⟨stack', [], [], n, script⟩) :
    c.evalScript stack script = some stack' := by
  unfold evalScript evalFrom
  rw [if_neg (by omega)]
  unfold run at h
  rw [h]
  rfl

theorem evalScript_signed {vchSig vchPubKey : VchType} (hsig : vchSig.length ≤ 520)
    (hpub : vchPubKey.length ≤ 520) :
    c.evalScript [] (pushData vchSig ++ pushData vchPubKey) = some [vchPubKey, vchSig] := by
  have hscript : [vchSig, vchPubKey].flatMap pushData ++ [] =
    pushData vchSig ++ pushData vchPubKey := by simp
  have hpushes : c.run ([vchSig, vchPubKey].flatMap pushData ++ [])
      ⟨[], [], [], 0, pushData vchSig ++ pushData vchPubKey⟩ =
        some ⟨[vchPubKey, vchSig], [], [], 0, pushData vchSig ++ pushData vchPubKey⟩ := by
    have hshort : ∀ vch ∈ [vchSig, vchPubKey], vch.length ≤ 520 := by
      simp only [List.forall_mem_cons, List.not_mem_nil, false_imp_iff, implies_true, and_true]
      exact ⟨hsig, hpub⟩
    have hwide : ∀ vch ∈ [vchSig, vchPubKey], vch.length < 2 ^ 32 := by
      intro vch hvch
      have := hshort vch hvch
      omega
    rw [run_pushes hwide (by simp), if_pos hshort]
    rfl
  rw [hscript] at hpushes
  have h1 := pushData_length vchSig
  have h2 := pushData_length vchPubKey
  exact evalScript_run (by rw [List.length_append]; omega) hpushes

end EvalCall

structure StaysSpendable (c : EvalCall) (a : NameArgs) : Prop where
  neutral : ∀ stack : List VchType, stack.length ≤ 996 → c.evalScript stack a.script = some stack
  follows : ∀ (hash160 : Uint160) (stack : List VchType), stack.length ≤ 996 →
    c.evalScript stack (a.script ++ setBitcoinAddress hash160) =
      c.evalFrom (setBitcoinAddress hash160)
        ⟨stack, [], [], 1 + a.drops.length, a.script ++ setBitcoinAddress hash160⟩
  spend : ∀ vchPubKey vchSig : VchType, vchPubKey.length ≤ 520 → vchSig.length ≤ 520 →
    c.checkSig vchSig vchPubKey
      (findAndDelete (a.script ++ setBitcoinAddress (c.env.hash160 vchPubKey)) (pushData vchSig)) =
        true →
    c.verifyScript (pushData vchSig ++ pushData vchPubKey)
      (a.script ++ setBitcoinAddress (c.env.hash160 vchPubKey)) = true

namespace NameArgs

variable {a : NameArgs}

theorem LengthsOk.le (h : a.LengthsOk) : ∀ vch ∈ a.vvch, vch.length ≤ 1023 := by
  have hname : maxNameLength = 255 := rfl
  have hvalue : maxValueLength = 1023 := rfl
  cases a with
  | new hash =>
    have hh : hash.length = 20 := h
    simp only [vvch, List.mem_singleton, forall_eq]
    omega
  | firstupdate vchName vchRand vchValue =>
    obtain ⟨h1, h2, h3⟩ := h
    simp only [vvch, List.forall_mem_cons, List.not_mem_nil, false_imp_iff, implies_true, and_true]
    omega
  | update vchName vchValue =>
    obtain ⟨h1, h2⟩ := h
    simp only [vvch, List.forall_mem_cons, List.not_mem_nil, false_imp_iff, implies_true, and_true]
    omega

theorem pushes_length {vvch : List VchType} (h : ∀ vch ∈ vvch, vch.length ≤ 1023) :
    (vvch.flatMap pushData).length ≤ vvch.length * 1028 := by
  induction vvch with
  | nil => simp
  | cons vch rest ih =>
    have hone := pushData_length vch
    have hle := h vch List.mem_cons_self
    have hrest := ih (fun x hx => h x (List.mem_cons_of_mem _ hx))
    rw [List.flatMap_cons, List.length_append, List.length_cons]
    omega

theorem LengthsOk.script_length (h : a.LengthsOk) : a.script.length ≤ 4000 := by
  have hpush := pushes_length h.le
  have hargs : a.vvch.length ≤ 3 := by cases a <;> simp [vvch]
  have hdrops : a.drops.length ≤ 1 := by cases a <;> simp [drops]
  rw [script_eq, List.length_cons, List.length_append, List.length_cons, ops, List.length_map]
  omega

end NameArgs

theorem setBitcoinAddress_length (hash160 : Uint160) : (setBitcoinAddress hash160).length ≤ 100 := by
  have hlen := pushData_length hash160.val
  have h20 := hash160.property
  simp only [setBitcoinAddress, ops, List.length_append, List.length_map, List.length_cons,
    List.length_nil]
  omega

theorem name_output_spendable_iff (c : EvalCall) {a : NameArgs} (h : a.LengthsOk) :
    StaysSpendable c a ↔ ∀ vch ∈ a.vvch, vch.length ≤ 520 := by
  have hwide : ∀ vch ∈ a.vvch, vch.length < 2 ^ 32 := by
    intro vch hvch
    have := h.le vch hvch
    omega
  have hsize := h.script_length
  have hdrops : a.drops.length ≤ 1 := by cases a <;> simp [NameArgs.drops]
  have hrun : ∀ (stack : List VchType) (rest code : CScript), stack.length ≤ 996 →
      c.run (a.script ++ rest) ⟨stack, [], [], 0, code⟩ =
        if ∀ vch ∈ a.vvch, vch.length ≤ 520 then
          c.run rest ⟨stack, [], [], 0 + 1 + a.drops.length, code⟩
        else none :=
    fun stack rest code hroom => EvalCall.run_script hwide (by decide) hroom
  constructor
  · intro hspend
    by_contra hlong
    have hnone := hrun [] [] a.script (by decide)
    have hsome := hspend.neutral [] (by decide)
    rw [if_neg hlong, List.append_nil] at hnone
    unfold EvalCall.run at hnone
    simp [EvalCall.evalScript, EvalCall.evalFrom, hnone] at hsome
  · intro hshort
    refine ⟨?_, ?_, ?_⟩
    · intro stack hroom
      have hdone := hrun stack [] a.script hroom
      rw [if_pos hshort, List.append_nil, EvalCall.run_nil] at hdone
      exact EvalCall.evalScript_run (by omega) hdone
    · intro hash160 stack hroom
      have hfollow := hrun stack (setBitcoinAddress hash160) (a.script ++ setBitcoinAddress hash160) hroom
      have haddress := setBitcoinAddress_length hash160
      rw [if_pos hshort] at hfollow
      unfold EvalCall.run at hfollow
      unfold EvalCall.evalScript EvalCall.evalFrom
      rw [if_neg (by rw [List.length_append]; omega), hfollow, Nat.zero_add]
    · intro vchPubKey vchSig hpub hsig hcheck
      have haddress := setBitcoinAddress_length (c.env.hash160 vchPubKey)
      have hunlocked : c.evalScript [vchPubKey, vchSig]
          (a.script ++ setBitcoinAddress (c.env.hash160 vchPubKey)) = some [vchTrue] := by
        apply EvalCall.evalScript_run (by rw [List.length_append]; omega)
        rw [hrun _ _ _ (by simp), if_pos hshort]
        exact EvalCall.run_address (by omega) rfl hcheck
      unfold EvalCall.verifyScript
      rw [EvalCall.evalScript_signed hsig hpub, Option.bind_some, hunlocked]
      rfl

def sampleEval : EvalCall where
  env := sampleEnv
  keys := ⟨fun _ => true, fun _ _ _ => true, id, id, id⟩
  txTo := sampleTx namecoinTxVersion [(1, 0)] []
  nIn := 0
  nHashType := 0

theorem shortValue_spendable : (NameArgs.update [65] [90]).LengthsOk ∧
    StaysSpendable sampleEval (.update [65] [90]) :=
  ⟨by decide, (name_output_spendable_iff sampleEval (by decide)).mpr (by decide)⟩

def longValue : NameArgs := .update [65] (List.replicate 521 90)

theorem longValue_frozen : longValue.LengthsOk ∧
    sampleEval.evalScript [] longValue.script = none ∧
    sampleEval.checkSig [1] [2] (findAndDelete (longValue.script ++
      setBitcoinAddress (sampleEnv.hash160 [2])) (pushData [1])) = true ∧
    sampleEval.verifyScript (pushData [1] ++ pushData [2])
      (longValue.script ++ setBitcoinAddress (sampleEnv.hash160 [2])) = false ∧
    ¬StaysSpendable sampleEval longValue := by
  have hnone : sampleEval.evalScript [] longValue.script = none := by decide +kernel
  refine ⟨by decide +kernel, hnone, rfl, by decide +kernel, ?_⟩
  intro h
  have hsome := h.neutral [] (by decide)
  rw [hnone] at hsome
  cases hsome

end Namecoin
