import Namecoin.Wallet.Coins

namespace Namecoin

def pushOp (op : Nat) : CScript := [UInt8.ofNat (op + (op1 - 1))]

def newScript (hash : VchType) : CScript :=
  pushOp opNameNew ++ pushData hash ++ ops [op2Drop]

def firstupdateScript (vchName vchRand vchValue : VchType) : CScript :=
  pushOp opNameFirstupdate ++ pushData vchName ++ pushData vchRand ++ pushData vchValue ++
    ops [op2Drop, op2Drop]

def updateScript (vchName vchValue : VchType) : CScript :=
  pushOp opNameUpdate ++ pushData vchName ++ pushData vchValue ++ ops [op2Drop, opDrop]

inductive NameArgs where
  | new (hash : VchType)
  | firstupdate (vchName vchRand vchValue : VchType)
  | update (vchName vchValue : VchType)
  deriving DecidableEq, Repr

namespace NameArgs

def op : NameArgs → Nat
  | new _ => opNameNew
  | firstupdate _ _ _ => opNameFirstupdate
  | update _ _ => opNameUpdate

def vvch : NameArgs → List VchType
  | new hash => [hash]
  | firstupdate vchName vchRand vchValue => [vchName, vchRand, vchValue]
  | update vchName vchValue => [vchName, vchValue]

def drops : NameArgs → List Nat
  | new _ => []
  | firstupdate _ _ _ => [op2Drop]
  | update _ _ => [opDrop]

def script : NameArgs → CScript
  | new hash => newScript hash
  | firstupdate vchName vchRand vchValue => firstupdateScript vchName vchRand vchValue
  | update vchName vchValue => updateScript vchName vchValue

theorem script_eq (a : NameArgs) :
    a.script = UInt8.ofNat (a.op + (op1 - 1)) ::
      (a.vvch.flatMap pushData ++ UInt8.ofNat op2Drop :: ops a.drops) := by
  cases a <;> simp [script, newScript, firstupdateScript, updateScript, pushOp, op, vvch,
    drops, ops]

theorem argCount_vvch (a : NameArgs) : argCount a.op a.vvch = true := by
  cases a <;> rfl

theorem drops_isDrop (a : NameArgs) : ∀ n ∈ a.drops, n < 256 ∧ isDropOrNop n = true := by
  cases a <;> simp [drops] <;> decide

theorem op_bounds (a : NameArgs) : 1 ≤ a.op ∧ a.op ≤ 3 := by
  cases a <;> simp [op, opNameNew, opNameFirstupdate, opNameUpdate]

end NameArgs

theorem isDropOrNop_low {n : Nat} (h : isDropOrNop n = true) : opPushdata4 < n := by
  simp only [isDropOrNop, Bool.or_eq_true, beq_iff_eq] at h
  unfold opPushdata4
  rcases h with (rfl | rfl) | rfl <;> decide

theorem getOp_ofNat {n : Nat} (hlow : opPushdata4 < n) (hhigh : n < 256) (rest : CScript) :
    getOp (UInt8.ofNat n :: rest) = some (n, [], rest) := by
  have hbyte : (UInt8.ofNat n).toNat = n := by
    rw [UInt8.toNat_ofNat']
    omega
  rw [getOp, hbyte, if_neg (by omega)]

theorem pushData_length_pos (b : VchType) : 0 < (pushData b).length := by
  unfold pushData
  split
  · simp
  · split
    · simp
    · split <;> simp

theorem flatMap_pushData_length (vvch : List VchType) :
    vvch.length ≤ (vvch.flatMap pushData).length := by
  induction vvch with
  | nil => simp
  | cons vch rest ih =>
    have hpos := pushData_length_pos vch
    rw [List.flatMap_cons, List.length_append, List.length_cons]
    omega

theorem getOp_arg {vch : VchType} (hlen : vch.length < 2 ^ 32) (rest : CScript) :
    ∃ opcode ≤ opPushdata4, isDropOrNop opcode = false ∧
      getOp (pushData vch ++ rest) = some (opcode, vch, rest) := by
  obtain ⟨opcode, hle, hop⟩ := getOp_pushData hlen rest
  refine ⟨opcode, hle, ?_, hop⟩
  by_contra hd
  have := isDropOrNop_low (Bool.eq_true_of_not_eq_false hd)
  omega

section Pushes

variable {vvch : List VchType} {n : Nat} {rest : CScript}

theorem readArgs_pushes {fuel : Nat} {acc : List VchType} (hlen : ∀ vch ∈ vvch, vch.length < 2 ^ 32)
    (hn : isDropOrNop n = true) (hhigh : n < 256) (hfuel : vvch.length < fuel) :
    readArgs fuel (vvch.flatMap pushData ++ UInt8.ofNat n :: rest) acc = (true, acc ++ vvch) := by
  induction vvch generalizing fuel acc with
  | nil =>
    obtain ⟨fuel, rfl⟩ := Nat.exists_eq_succ_of_ne_zero (Nat.pos_iff_ne_zero.mp hfuel)
    rw [List.flatMap_nil, List.nil_append, readArgs, getOp_ofNat (isDropOrNop_low hn) hhigh]
    simp [hn]
  | cons vch vvch ih =>
    obtain ⟨fuel, rfl⟩ := Nat.exists_eq_succ_of_ne_zero (Nat.ne_of_gt (Nat.zero_lt_of_lt hfuel))
    obtain ⟨opcode, hle, hpush, hop⟩ := getOp_arg (hlen vch List.mem_cons_self)
      (vvch.flatMap pushData ++ UInt8.ofNat n :: rest)
    rw [List.flatMap_cons, List.append_assoc, readArgs, hop]
    simp only [hpush, Bool.false_eq_true, if_false, hle, if_true]
    rw [ih (fun x hx => hlen x (List.mem_cons_of_mem _ hx)) (by simpa using hfuel),
      List.append_assoc, List.singleton_append]

theorem skipArgs_pushes {fuel : Nat} (hlen : ∀ vch ∈ vvch, vch.length < 2 ^ 32)
    (hn : isDropOrNop n = true) (hhigh : n < 256) (hfuel : vvch.length < fuel) :
    skipArgs fuel (vvch.flatMap pushData ++ UInt8.ofNat n :: rest) = rest := by
  induction vvch generalizing fuel with
  | nil =>
    obtain ⟨fuel, rfl⟩ := Nat.exists_eq_succ_of_ne_zero (Nat.pos_iff_ne_zero.mp hfuel)
    rw [List.flatMap_nil, List.nil_append, skipArgs, getOp_ofNat (isDropOrNop_low hn) hhigh]
    simp [hn]
  | cons vch vvch ih =>
    obtain ⟨fuel, rfl⟩ := Nat.exists_eq_succ_of_ne_zero (Nat.ne_of_gt (Nat.zero_lt_of_lt hfuel))
    obtain ⟨opcode, hle, hpush, hop⟩ := getOp_arg (hlen vch List.mem_cons_self)
      (vvch.flatMap pushData ++ UInt8.ofNat n :: rest)
    rw [List.flatMap_cons, List.append_assoc, skipArgs, hop]
    simp only [hpush, Bool.false_eq_true, if_false]
    exact ih (fun x hx => hlen x (List.mem_cons_of_mem _ hx)) (by simpa using hfuel)

end Pushes

theorem skipDrops_ops {drops : List Nat} {fuel opcode : Nat} {vch : VchType} {s rest : CScript}
    (hdrops : ∀ n ∈ drops, n < 256 ∧ isDropOrNop n = true) (hfuel : drops.length < fuel)
    (hop : getOp s = some (opcode, vch, rest)) (hnot : isDropOrNop opcode = false) :
    skipDrops fuel (ops drops ++ s) = rest := by
  induction drops generalizing fuel with
  | nil =>
    obtain ⟨fuel, rfl⟩ := Nat.exists_eq_succ_of_ne_zero (Nat.pos_iff_ne_zero.mp hfuel)
    rw [ops, List.map_nil, List.nil_append, skipDrops, hop]
    simp [hnot]
  | cons n drops ih =>
    obtain ⟨fuel, rfl⟩ := Nat.exists_eq_succ_of_ne_zero (Nat.ne_of_gt (Nat.zero_lt_of_lt hfuel))
    obtain ⟨hhigh, hn⟩ := hdrops n List.mem_cons_self
    rw [ops, List.map_cons, List.cons_append, skipDrops, getOp_ofNat (isDropOrNop_low hn) hhigh]
    simp only [hn, if_true]
    exact ih (fun x hx => hdrops x (List.mem_cons_of_mem _ hx)) (by simpa using hfuel)

namespace NameArgs

variable (a : NameArgs) (s : CScript)

theorem script_append : a.script ++ s = UInt8.ofNat (a.op + (op1 - 1)) ::
    (a.vvch.flatMap pushData ++ UInt8.ofNat op2Drop :: (ops a.drops ++ s)) := by
  rw [script_eq]
  simp

theorem getOp_script : getOp (a.script ++ s) = some (a.op + (op1 - 1), [],
    a.vvch.flatMap pushData ++ UInt8.ofNat op2Drop :: (ops a.drops ++ s)) := by
  obtain ⟨hmin, hmax⟩ := a.op_bounds
  have hop : op1 = 81 := rfl
  have hpush : opPushdata4 = 78 := rfl
  rw [script_append, getOp_ofNat (by omega) (by omega)]

theorem vvch_fuel : a.vvch.length <
    (a.vvch.flatMap pushData ++ UInt8.ofNat op2Drop :: (ops a.drops ++ s)).length := by
  have h := flatMap_pushData_length a.vvch
  rw [List.length_append, List.length_cons]
  omega

variable {a s}

theorem decode_script (hlen : ∀ vch ∈ a.vvch, vch.length < 2 ^ 32) (op : Nat) :
    decodeNameScript (a.script ++ s) op [] = ⟨true, a.op, a.vvch⟩ := by
  obtain ⟨hmin, hmax⟩ := a.op_bounds
  have hop1 : op1 = 81 := rfl
  have hop16 : op16 = 96 := rfl
  have hop : a.op + (op1 - 1) - op1 + 1 = a.op := by omega
  have hrange : ¬(a.op + (op1 - 1) < op1 ∨ op16 < a.op + (op1 - 1)) := by omega
  simp only [decodeNameScript, getOp_script, if_neg hrange, hop]
  rw [readArgs_pushes hlen (by decide) (by decide) (a.vvch_fuel s)]
  simp [a.argCount_vvch]

theorem rest_script {opcode : Nat} {vch : VchType} {rest : CScript}
    (hlen : ∀ vch ∈ a.vvch, vch.length < 2 ^ 32) (hop : getOp s = some (opcode, vch, rest))
    (hnot : isDropOrNop opcode = false) :
    nameScriptRest (a.script ++ s) =
      (a.script ++ s).drop ((a.script ++ s).length - rest.length - 1) := by
  have hfuel : a.vvch.length < (a.script ++ s).length := by
    have h := a.vvch_fuel s
    rw [script_append, List.length_cons]
    omega
  have hdrops : a.drops.length < (a.script ++ s).length := by
    rw [script_append, List.length_cons, List.length_append, List.length_cons, List.length_append,
      ops, List.length_map]
    omega
  have hafter : afterOp (a.script ++ s) =
      a.vvch.flatMap pushData ++ UInt8.ofNat op2Drop :: (ops a.drops ++ s) := by
    obtain ⟨hmin, hmax⟩ := a.op_bounds
    have hop1 : op1 = 81 := rfl
    have hpush : opPushdata4 = 78 := rfl
    have hbyte : (UInt8.ofNat (a.op + (op1 - 1))).toNat = a.op + (op1 - 1) := by
      rw [UInt8.toNat_ofNat']
      omega
    rw [script_append, afterOp, hbyte, if_neg (by omega)]
  rw [nameScriptRest, hafter, skipArgs_pushes hlen (by decide) (by decide) hfuel,
    skipDrops_ops a.drops_isDrop hdrops hop hnot]

end NameArgs

structure NameRoundTrip (a : NameArgs) (s : CScript) : Prop where
  decode : ∀ op, decodeNameScript (a.script ++ s) op [] = ⟨true, a.op, a.vvch⟩
  remove : removeNameScriptPrefix (a.script ++ s) = .ok s
  sign : rawScript (a.script ++ s) = s

theorem pushSize_lt {opcode nSize : Nat} {s s' : CScript} (h : pushSize opcode s = some (nSize, s')) :
    nSize < 2 ^ 32 := by
  unfold pushSize at h
  split at h
  · rename_i hlt
    cases h
    unfold opPushdata1 at hlt
    omega
  · dsimp only at h
    have hle : (if opcode = opPushdata1 then 1 else if opcode = opPushdata2 then 2 else 4) ≤ 4 := by
      split
      · decide
      · split <;> decide
    generalize (if opcode = opPushdata1 then 1 else if opcode = opPushdata2 then 2 else 4) = width
      at h hle
    split at h
    · cases h
    · cases h
      calc leNat (s.take width) < 256 ^ (s.take width).length := leNat_lt _
        _ ≤ 256 ^ 4 := Nat.pow_le_pow_right (by decide) ((List.length_take_le _ _).trans hle)
        _ = 2 ^ 32 := by decide

theorem getOp_vch_lt {s rest : CScript} {opcode : Nat} {vch : VchType}
    (h : getOp s = some (opcode, vch, rest)) : vch.length < 2 ^ 32 := by
  cases s with
  | nil => cases h
  | cons b s =>
    rw [getOp] at h
    split at h
    · split at h
      · cases h
      · rename_i nSize s' hpush
        have hsize := pushSize_lt hpush
        split at h
        · cases h
        · cases h
          exact (List.length_take_le _ _).trans_lt hsize
    · cases h
      decide

theorem readArgs_lt {fuel : Nat} {s : CScript} {acc : List VchType}
    (hacc : ∀ vch ∈ acc, vch.length < 2 ^ 32) :
    ∀ vch ∈ (readArgs fuel s acc).2, vch.length < 2 ^ 32 := by
  induction fuel generalizing s acc with
  | zero => exact hacc
  | succ fuel ih =>
    rw [readArgs]
    split
    · exact hacc
    · rename_i opcode vch s' hop
      split
      · exact hacc
      · split
        · apply ih
          intro x hx
          rcases List.mem_append.mp hx with hx | hx
          · exact hacc x hx
          · rw [List.mem_singleton.mp hx]
            exact getOp_vch_lt hop
        · exact hacc

theorem decode_vvch_lt (script : CScript) (op : Nat) :
    ∀ vch ∈ (decodeNameScript script op []).vvch, vch.length < 2 ^ 32 := by
  unfold decodeNameScript
  split
  · simp
  · dsimp only
    split
    · simp
    · exact readArgs_lt (by simp)

theorem getOp_length {s rest : CScript} {opcode : Nat} {vch : VchType}
    (h : getOp s = some (opcode, vch, rest)) : vch.length + rest.length < s.length := by
  cases s with
  | nil => cases h
  | cons b s =>
    rw [getOp] at h
    split at h
    · split at h
      · cases h
      · rename_i nSize s' hpush
        split at h
        · cases h
        · rename_i hle
          cases h
          have hdrop : s'.length ≤ s.length := by
            unfold pushSize at hpush
            split at hpush
            · cases hpush
              exact le_refl _
            · dsimp only at hpush
              generalize (if b.toNat = opPushdata1 then 1 else
                if b.toNat = opPushdata2 then 2 else 4) = width at hpush
              split at hpush
              · cases hpush
              · cases hpush
                rw [List.length_drop]
                omega
          rw [List.length_take, List.length_drop, List.length_cons]
          omega
    · cases h
      simp

theorem getOp_single {s rest : CScript} {opcode : Nat} {vch : VchType} (hlow : opPushdata4 < opcode)
    (h : getOp s = some (opcode, vch, rest)) : s.length = rest.length + 1 := by
  cases s with
  | nil => cases h
  | cons b s =>
    rw [getOp] at h
    split at h
    · rename_i hb
      split at h
      · cases h
      · split at h
        · cases h
        · cases h
          omega
    · cases h
      rfl

theorem solver_not_drop {script : CScript} {sol : Solution} (h : solver script = some sol) :
    ∃ opcode vch rest, getOp script = some (opcode, vch, rest) ∧ isDropOrNop opcode = false ∧
      ((33 ≤ vch.length ∧ ∃ vchPubKey, sol = [(opPubkey, vchPubKey)]) ∨
        (opPushdata4 < opcode ∧ ∃ vchHash, sol = [(opPubkeyhash, vchHash)])) := by
  obtain ⟨opcode, vch, rest, hop, ⟨hmin, -, hsol⟩ | ⟨hdup, vchHash, -, hsol⟩⟩ := solver_cases h
  · refine ⟨opcode, vch, rest, hop, ?_, .inl ⟨hmin, vch, hsol⟩⟩
    by_contra hd
    have hempty := getOp_opcode hop (isDropOrNop_low (Bool.eq_true_of_not_eq_false hd))
    rw [hempty, List.length_nil] at hmin
    omega
  · subst hdup
    exact ⟨opDup, vch, rest, hop, by decide, .inr ⟨by decide, vchHash, hsol⟩⟩

theorem name_scripts_round_trip_iff (a : NameArgs) {s : CScript} (hs : (solver s).isSome = true) :
    NameRoundTrip a s ↔ (∀ vch ∈ a.vvch, vch.length < 2 ^ 32) ∧
      ∃ vchHash, solver s = some [(opPubkeyhash, vchHash)] := by
  obtain ⟨sol, hsol⟩ := Option.isSome_iff_exists.mp hs
  obtain ⟨opcode, vch, rest, hop, hnot, hcase⟩ := solver_not_drop hsol
  have hname : (∀ vch ∈ a.vvch, vch.length < 2 ^ 32) → isNameScript (a.script ++ s) = true := by
    intro hlen
    rw [isNameScript, NameArgs.decode_script hlen 0]
  constructor
  · intro h
    have hlen : ∀ vch ∈ a.vvch, vch.length < 2 ^ 32 := by
      have hlt := decode_vvch_lt (a.script ++ s) 0
      rwa [h.decode 0] at hlt
    refine ⟨hlen, ?_⟩
    rcases hcase with ⟨hmin, -⟩ | ⟨-, vchHash, rfl⟩
    · have hsign := h.sign
      rw [rawScript, if_pos (hname hlen), NameArgs.rest_script hlen hop hnot] at hsign
      have hcut := congrArg List.length hsign
      have hinstr := getOp_length hop
      rw [List.length_drop, List.length_append] at hcut
      omega
    · exact ⟨vchHash, hsol⟩
  · rintro ⟨hlen, vchHash, hhash⟩
    have hrest : nameScriptRest (a.script ++ s) = s := by
      rcases hcase with ⟨-, vchPubKey, rfl⟩ | ⟨hlow, -⟩
      · rw [hsol] at hhash
        cases hhash
      · rw [NameArgs.rest_script hlen hop hnot]
        have hone := getOp_single hlow hop
        have hcut : (a.script ++ s).length - rest.length - 1 = a.script.length := by
          rw [List.length_append]
          omega
        rw [hcut, List.drop_left]
    refine ⟨NameArgs.decode_script hlen, ?_, ?_⟩
    · rw [removeNameScriptPrefix, if_pos (hname hlen), hrest]
    · rw [rawScript, if_pos (hname hlen), hrest]

theorem updateScript_round_trip :
    (solver (setBitcoinAddress uint160Null)).isSome = true ∧
      NameRoundTrip (.update [65] [90]) (setBitcoinAddress uint160Null) :=
  ⟨by decide, (name_scripts_round_trip_iff (.update [65] [90]) (by decide)).mpr
    ⟨by decide, uint160Null.val, solver_setBitcoinAddress uint160Null⟩⟩

theorem pubkeyScript_cut :
    (solver (payToPubkey (List.replicate 33 2))).isSome = true ∧
      isNameScript (updateScript [65] [90] ++ payToPubkey (List.replicate 33 2)) = true ∧
      removeNameScriptPrefix (updateScript [65] [90] ++ payToPubkey (List.replicate 33 2)) =
        .ok [2, UInt8.ofNat opChecksig] ∧
      ¬NameRoundTrip (.update [65] [90]) (payToPubkey (List.replicate 33 2)) := by
  have hremove : removeNameScriptPrefix
      (updateScript [65] [90] ++ payToPubkey (List.replicate 33 2)) =
        .ok [2, UInt8.ofNat opChecksig] := by decide +kernel
  refine ⟨by decide +kernel, by decide +kernel, hremove, ?_⟩
  intro h
  have hown := hremove.symm.trans h.remove
  revert hown
  decide +kernel

end Namecoin
