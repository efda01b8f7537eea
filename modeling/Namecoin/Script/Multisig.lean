import Namecoin.Lib.Matching
import Namecoin.Script.Steps

namespace Namecoin

section Access

variable {α β : Type} {st : List VchType} {vch : VchType}

@[simp] theorem ok_steps (a : α) (f : α → Except ScriptStop β) : (Except.ok a >>= f) = f a := rfl

@[simp] theorem need_nil (n : Nat) : need [] (n + 1) = .error .returnFalse := by
  simp [need]

@[simp] theorem need_zero : need st 0 = .ok () := by
  simp [need]

@[simp] theorem need_cons (n : Nat) : need (vch :: st) (n + 1) = need st n := by
  simp [need]

@[simp] theorem stackTop_head : stackTop (vch :: st) 1 = .ok vch := rfl

@[simp] theorem popStack_cons : popStack (vch :: st) = .ok st := rfl

theorem need_of_le {n : Nat} (h : n ≤ st.length) : need st n = .ok () := by
  rw [need, if_neg (by omega)]

theorem need_of_lt {n : Nat} (h : st.length < n) : need st n = .error .returnFalse := by
  rw [need, if_pos h]

theorem stackTop_of_lt {i : Nat} (h : i < st.length) : stackTop st (i + 1) = .ok st[i] := by
  simp [stackTop, List.getElem?_eq_getElem h]

theorem rangeTop_of_lt {lo hi i : Nat} (hlo : lo ≤ i + 1) (hhi : i + 1 < hi) (h : i < st.length) :
    rangeTop st lo hi (i + 1) = .ok st[i] := by
  rw [rangeTop, if_pos ⟨hlo, hhi⟩, stackTop_of_lt h]

theorem popMany_eq {n : Nat} (h : n ≤ st.length) : popMany n st = .ok (st.drop n) := by
  induction n generalizing st with
  | zero => rfl
  | succ n ih =>
    cases st with
    | nil => exact absurd h (Nat.not_succ_le_zero n)
    | cons vch st => exact ih (Nat.le_of_succ_le_succ h)

theorem castSteps_agrees (vch : VchType) : StepsAgree (castSteps vch) (castToBigNum vch) := by
  unfold castSteps
  cases castToBigNum vch with
  | none => exact .tooLong
  | some bn => exact .ok bn

theorem bigNumTop_eq {i : Nat} {bn : Int} (hget : st[i]? = some vch)
    (hcast : castToBigNum vch = some bn) : bigNumTop st (i + 1) = .ok bn := by
  obtain ⟨hlt, rfl⟩ := List.getElem?_eq_some_iff.mp hget
  rw [bigNumTop, stackTop_of_lt hlt, ok_steps, castSteps, hcast]

theorem StepsAgree.ite {x : Except ScriptStop α} {y : Option α} {p : Prop} [Decidable p]
    (h : ¬p → StepsAgree x y) :
    StepsAgree (if p then .error .returnFalse else x) (if p then none else y) := by
  by_cases hp : p
  · rw [if_pos hp, if_pos hp]
    exact .fails
  · rw [if_neg hp, if_neg hp]
    exact h hp

theorem StepsAgree.numberAt {i : Nat} {f : Int → Except ScriptStop α} {g : Int → Option α}
    (h : ∀ bn, i < st.length → StepsAgree (f bn) (g bn)) :
    StepsAgree (need st (i + 1) >>= fun _ => bigNumTop st (i + 1) >>= f)
      (st[i]? >>= fun vch => castToBigNum vch >>= g) := by
  rcases Nat.lt_or_ge i st.length with hlt | hge
  · rw [need_of_le hlt, bigNumTop, stackTop_of_lt hlt, List.getElem?_eq_getElem hlt]
    exact (castSteps_agrees st[i]).bind (fun bn _ => h bn hlt)
  · rw [need_of_lt (by omega), List.getElem?_eq_none hge]
    exact .fails

theorem verifiedSteps_agrees (verify fSuccess : Bool) (st : List VchType) :
    StepsAgree (verifiedSteps verify fSuccess st) (verified verify fSuccess st) := by
  unfold verifiedSteps verified
  cases verify with
  | false => exact .ok _
  | true =>
    cases fSuccess with
    | false => exact .fails
    | true => exact .ok st

end Access

namespace MultisigRange

variable {r : MultisigRange}

theorem dropSigs_eq {n isig : Nat} {scriptCode : CScript} (hlo : r.firstSig ≤ isig + 1)
    (hhi : isig + 1 + n ≤ r.last) (hlen : isig + n ≤ r.stack.length) :
    r.dropSigs n (isig + 1) scriptCode =
      .ok (((r.stack.drop isig).take n).foldl
        (fun code vchSig => findAndDelete code (pushData vchSig)) scriptCode) := by
  induction n generalizing isig scriptCode with
  | zero => rfl
  | succ n ih =>
    have hlt : isig < r.stack.length := by omega
    rw [dropSigs, sig, rangeTop_of_lt hlo (by omega) hlt, ok_steps,
      ih (by omega) (by omega) (by omega), List.drop_eq_getElem_cons hlt, List.take_succ_cons,
      List.foldl_cons]

theorem scanSigs_eq {check : VchType → VchType → Bool} {nKeysCount nSigsCount ikey isig : Nat}
    (hkeys : r.firstKey ≤ ikey + 1) (hkeys' : ikey + 1 + nKeysCount ≤ r.firstSig - 1)
    (hsigs : r.firstSig ≤ isig + 1) (hsigs' : isig + 1 + nSigsCount ≤ r.last)
    (hlen : isig + nSigsCount ≤ r.stack.length) (hlen' : ikey + nKeysCount ≤ r.stack.length)
    (hle : nSigsCount ≤ nKeysCount) :
    r.scanSigs check nKeysCount nSigsCount (ikey + 1) (isig + 1) =
      .ok (greedyMatch check ((r.stack.drop isig).take nSigsCount)
        ((r.stack.drop ikey).take nKeysCount)) := by
  induction nKeysCount generalizing nSigsCount ikey isig with
  | zero =>
    obtain rfl : nSigsCount = 0 := Nat.le_zero.mp hle
    rfl
  | succ nKeysCount ih =>
    cases nSigsCount with
    | zero => rw [scanSigs, List.take_zero, greedyMatch]
    | succ nSigsCount =>
      have hsig : isig < r.stack.length := by omega
      have hkey : ikey < r.stack.length := by omega
      rw [scanSigs, sig, rangeTop_of_lt hsigs (by omega) hsig, ok_steps, key,
        rangeTop_of_lt hkeys (by omega) hkey, ok_steps, List.drop_eq_getElem_cons hsig,
        List.drop_eq_getElem_cons hkey, List.take_succ_cons, List.take_succ_cons, greedyMatch]
      by_cases hcheck : check r.stack[isig] r.stack[ikey] = true
      · rw [if_pos hcheck, if_pos hcheck]
        exact (if_neg (by omega)).trans (ih (by omega) (by omega) (by omega) (by omega) (by omega)
          (by omega) (by omega))
      · rw [if_neg hcheck, if_neg hcheck]
        rcases Nat.lt_or_ge nKeysCount (nSigsCount + 1) with hfew | henough
        · rw [if_pos hfew, greedyMatch_of_length_lt check]
          · rfl
          · simp only [List.length_cons, List.length_take, List.length_drop]
            omega
        · rw [if_neg (by omega), ih (by omega) (by omega) hsigs hsigs' hlen (by omega) henough,
            List.drop_eq_getElem_cons hsig, List.take_succ_cons]

end MultisigRange

theorem EvalCall.matchSigs_eq (c : EvalCall) (scriptCode : CScript) (sigs keys : List VchType) :
    c.matchSigs scriptCode sigs keys =
      greedyMatch (fun vchSig vchPubKey => c.checkSig vchSig vchPubKey scriptCode) sigs keys := by
  induction keys generalizing sigs with
  | nil => cases sigs <;> rfl
  | cons vchPubKey keys ih =>
    cases sigs with
    | nil => rfl
    | cons vchSig sigs =>
      simp only [matchSigs, ih, greedyMatch]
      by_cases hcheck : c.checkSig vchSig vchPubKey scriptCode = true
      · simp only [hcheck, if_true]
        rcases Nat.lt_or_ge keys.length sigs.length with hfew | henough
        · rw [if_pos hfew, greedyMatch_of_length_lt _ hfew]
        · rw [if_neg (by omega)]
      · simp only [hcheck, Bool.false_eq_true, if_false]
        rcases Nat.lt_or_ge keys.length (vchSig :: sigs).length with hfew | henough
        · rw [if_pos hfew, greedyMatch_of_length_lt _ hfew]
        · rw [if_neg (by omega)]

theorem scan_steps {α : Type} (checkSig : VchType → VchType → CScript → Bool) {st : List VchType}
    {nKeys nSigs : Nat} (code : CScript) (hlen : 3 + nKeys + nSigs ≤ st.length) (hle : nSigs ≤ nKeys)
    (k : Bool → List VchType → Except ScriptStop α) :
    (do
      let r : MultisigRange := ⟨st, 2, 3 + nKeys, 3 + nKeys + nSigs⟩
      let scriptCode ← r.dropSigs nSigs (3 + nKeys) code
      let fSuccess ← r.scanSigs (fun vchSig vchPubKey => checkSig vchSig vchPubKey scriptCode)
        nKeys nSigs 2 (3 + nKeys)
      let stack ← popMany (3 + nKeys + nSigs) st
      k fSuccess stack) =
    k (greedyMatch
        (fun vchSig vchPubKey => checkSig vchSig vchPubKey
          (((st.drop (2 + nKeys)).take nSigs).foldl
            (fun code vchSig => findAndDelete code (pushData vchSig)) code))
        ((st.drop (2 + nKeys)).take nSigs) ((st.drop 1).take nKeys))
      (st.drop (3 + nKeys + nSigs)) := by
  dsimp only
  have hlast : 3 + nKeys = 2 + nKeys + 1 := by omega
  have hsigs : (⟨st, 2, 3 + nKeys, 3 + nKeys + nSigs⟩ : MultisigRange).dropSigs nSigs (3 + nKeys) code =
      .ok (((st.drop (2 + nKeys)).take nSigs).foldl
        (fun code vchSig => findAndDelete code (pushData vchSig)) code) := by
    rw [hlast]
    exact MultisigRange.dropSigs_eq le_rfl (by dsimp only; omega) (by dsimp only; omega)
  rw [hsigs, ok_steps]
  generalize ((st.drop (2 + nKeys)).take nSigs).foldl
    (fun code vchSig => findAndDelete code (pushData vchSig)) code = scriptCode
  have hscan : (⟨st, 2, 3 + nKeys, 3 + nKeys + nSigs⟩ : MultisigRange).scanSigs
      (fun vchSig vchPubKey => checkSig vchSig vchPubKey scriptCode) nKeys nSigs 2 (3 + nKeys) =
      .ok (greedyMatch (fun vchSig vchPubKey => checkSig vchSig vchPubKey scriptCode)
        ((st.drop (2 + nKeys)).take nSigs) ((st.drop 1).take nKeys)) := by
    rw [hlast]
    exact MultisigRange.scanSigs_eq le_rfl (by dsimp only; omega) le_rfl (by dsimp only; omega)
      (by dsimp only; omega) (by dsimp only; omega) hle
  rw [hscan, ok_steps, popMany_eq hlen, ok_steps]

theorem multisigSteps_agrees (c : EvalCall) (verify : Bool) (s : EvalState) :
    StepsAgree (multisigSteps c.checkSig verify s) (c.evalMultisig verify s) := by
  unfold multisigSteps EvalCall.evalMultisig
  refine StepsAgree.numberAt (fun nKeysCount _ => StepsAgree.ite (fun hkeys => ?_))
  refine StepsAgree.ite (fun _ => ?_)
  rw [show 2 + nKeysCount.toNat = 1 + nKeysCount.toNat + 1 by omega]
  refine StepsAgree.numberAt (fun nSigsCount hcount => StepsAgree.ite (fun hsigs => ?_))
  dsimp only
  rw [show 1 + nKeysCount.toNat + 1 = 2 + nKeysCount.toNat by omega]
  rcases Nat.lt_or_ge s.stack.length (3 + nKeysCount.toNat + nSigsCount.toNat) with hshort | hlong
  · rw [need_of_lt hshort, if_pos hshort]
    exact .fails
  · rw [need_of_le hlong, if_neg (by omega), ok_steps, scan_steps c.checkSig _ hlong (by omega),
      c.matchSigs_eq]
    exact (verifiedSteps_agrees verify _ _).bind (fun stack _ => .ok _)

-- Keys and signatures are listed as they were pushed, the last one on top.
theorem checkMultisig_matching (checkSig : VchType → VchType → CScript → Bool)
    (keys sigs : List VchType) (hsigs : sigs.length ≤ keys.length) (hkeys : keys.length ≤ 20)
    (vchKeys vchSigs dummy : VchType) (hvchKeys : castToBigNum vchKeys = some (keys.length : Int))
    (hvchSigs : castToBigNum vchSigs = some (sigs.length : Int)) (rest : List VchType) (s : EvalState)
    (hstack : s.stack = vchKeys :: (keys.reverse ++ vchSigs :: (sigs.reverse ++ dummy :: rest))) :
    if 201 < s.nOpCount + keys.length then
      multisigSteps checkSig false s = .error .returnFalse
    else
      ∃ fSuccess : Bool,
        multisigSteps checkSig false s =
          .ok { s with
            stack := vchBool fSuccess :: s.stack.drop (keys.length + sigs.length + 3)
            nOpCount := s.nOpCount + keys.length } ∧
        s.stack.drop (keys.length + sigs.length + 3) = rest ∧
        (fSuccess = true ↔
          ∃ f : Fin sigs.length → Fin keys.length, StrictMono f ∧
            ∀ i, checkSig (sigs.get i) (keys.get (f i))
              (sigs.reverse.foldl (fun code vchSig => findAndDelete code (pushData vchSig))
                s.codeHash) = true) := by
  have hlen : s.stack.length = 3 + keys.length + sigs.length + rest.length := by
    rw [hstack]
    simp only [List.length_cons, List.length_append, List.length_reverse]
    omega
  have hkeysAt : (s.stack.drop 1).take keys.length = keys.reverse := by
    rw [hstack, List.drop_one, List.tail_cons, ← List.length_reverse, List.take_left]
  have hafter : s.stack.drop (1 + keys.length) = vchSigs :: (sigs.reverse ++ dummy :: rest) := by
    rw [hstack, Nat.add_comm, List.drop_succ_cons, ← List.length_reverse, List.drop_left]
  have hsigsAt : (s.stack.drop (2 + keys.length)).take sigs.length = sigs.reverse := by
    rw [show 2 + keys.length = 1 + keys.length + 1 by omega, ← List.drop_drop, hafter, List.drop_one,
      List.tail_cons, ← List.length_reverse, List.take_left]
  have hrest : s.stack.drop (3 + keys.length + sigs.length) = rest := by
    rw [show 3 + keys.length + sigs.length = 1 + keys.length + (sigs.length + 1 + 1) by omega,
      ← List.drop_drop, hafter, List.drop_succ_cons, ← List.drop_drop, ← List.length_reverse,
      List.drop_left, List.drop_one, List.tail_cons]
  have hnKeys : bigNumTop s.stack 1 = .ok (keys.length : Int) :=
    bigNumTop_eq (by rw [hstack]; rfl) hvchKeys
  have hnSigs : bigNumTop s.stack (2 + keys.length) = .ok (sigs.length : Int) := by
    rw [show 2 + keys.length = 1 + keys.length + 1 by omega]
    refine bigNumTop_eq ?_ hvchSigs
    rw [← List.head?_drop, hafter, List.head?_cons]
  have hrange : ¬((keys.length : Int) < 0 ∨ 20 < (keys.length : Int)) := by omega
  have hrange' : ¬((sigs.length : Int) < 0 ∨ (keys.length : Int) < (sigs.length : Int)) := by omega
  unfold multisigSteps
  rw [need_of_le (by omega), ok_steps, hnKeys, ok_steps, if_neg hrange]
  dsimp only [Int.toNat_natCast]
  split
  · rfl
  · rw [need_of_le (by omega), ok_steps, hnSigs, ok_steps, if_neg hrange']
    dsimp only [Int.toNat_natCast]
    rw [need_of_le (by omega), ok_steps, scan_steps checkSig _ (by omega) hsigs, hrest, hkeysAt,
      hsigsAt, show keys.length + sigs.length + 3 = 3 + keys.length + sigs.length by omega, hrest]
    refine ⟨_, rfl, rfl, ?_⟩
    rw [greedyMatch_iff, matching_reverse, matching_iff_strictMono]

def twoOfThree : EvalState where
  stack := [[3], [33], [32], [31], [2], [33], [31], [], [7]]
  altstack := []
  vfExec := []
  nOpCount := 1
  codeHash := []

theorem checkMultisig_twoOfThree :
    ∃ fSuccess : Bool,
      multisigSteps (fun vchSig vchPubKey _ => vchSig == vchPubKey) false twoOfThree =
        .ok { twoOfThree with stack := vchBool fSuccess :: [[7]], nOpCount := 4 } ∧
      (fSuccess = true ↔
        ∃ f : Fin 2 → Fin 3, StrictMono f ∧
          ∀ i, (([[31], [33]] : List VchType).get i ==
            ([[31], [32], [33]] : List VchType).get (f i)) = true) := by
  obtain ⟨fSuccess, hrun, -, hiff⟩ :=
    checkMultisig_matching (fun vchSig vchPubKey _ => vchSig == vchPubKey) [[31], [32], [33]]
      [[31], [33]] (by decide) (by decide) [3] [2] [] (by decide) (by decide) [[7]] twoOfThree rfl
  exact ⟨fSuccess, hrun, hiff⟩

def countedOut : EvalState where
  stack := [[1], [9], [1], [9], []]
  altstack := []
  vfExec := []
  nOpCount := 201
  codeHash := []

-- The keys count towards the limit of 201 operations: past it nothing is pushed or removed.
theorem checkMultisig_over_limit :
    ¬∀ (checkSig : VchType → VchType → CScript → Bool) (keys sigs : List VchType),
      sigs.length ≤ keys.length → keys.length ≤ 20 → ∀ vchKeys vchSigs dummy : VchType,
      castToBigNum vchKeys = some (keys.length : Int) →
      castToBigNum vchSigs = some (sigs.length : Int) → ∀ (rest : List VchType) (s : EvalState),
      s.stack = vchKeys :: (keys.reverse ++ vchSigs :: (sigs.reverse ++ dummy :: rest)) →
      ∃ (fSuccess : Bool) (s' : EvalState), multisigSteps checkSig false s = .ok s' ∧
        s'.stack = vchBool fSuccess :: s.stack.drop (keys.length + sigs.length + 3) := by
  intro h
  obtain ⟨fSuccess, s', hrun, -⟩ := h (fun _ _ _ => true) [[9]] [[9]] (by decide) (by decide) [1] [1]
    [] (by decide) (by decide) [] countedOut rfl
  have hstop : multisigSteps (fun _ _ _ => true) false countedOut = .error .returnFalse := by
    rfl
  rw [hstop] at hrun
  cases hrun

end Namecoin
