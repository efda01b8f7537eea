import Namecoin.Data.Bytes
import Namecoin.Name.Decode

namespace Namecoin

def opDup : Nat := 118
def opEqualverify : Nat := 136
def opHash160 : Nat := 169
def opPubkeyhash : Nat := 253
def opPubkey : Nat := 254

def pushData (b : VchType) : CScript :=
  if b.length < opPushdata1 then UInt8.ofNat b.length :: b
  else if b.length ≤ 0xff then UInt8.ofNat opPushdata1 :: leBytes 1 b.length ++ b
  else if b.length ≤ 0xffff then UInt8.ofNat opPushdata2 :: leBytes 2 b.length ++ b
  else UInt8.ofNat opPushdata4 :: leBytes 4 b.length ++ b

def ops (opcodes : List Nat) : CScript := opcodes.map UInt8.ofNat

def payToPubkey (vchPubKey : VchType) : CScript := pushData vchPubKey ++ ops [opChecksig]

def setBitcoinAddress (hash160 : Uint160) : CScript :=
  ops [opDup, opHash160] ++ pushData hash160.val ++ ops [opEqualverify, opChecksig]

def vTemplates : List CScript :=
  [ops [opPubkey, opChecksig], ops [opDup, opHash160, opPubkeyhash, opEqualverify, opChecksig]]

abbrev Solution := List (Nat × VchType)

def matchTemplate : Nat → CScript → CScript → Solution → Option Solution
  | _, [], [], vSolution => some vSolution.reverse
  | 0, _, _, _ => none
  | fuel + 1, script1, script2, vSolution =>
    match getOp script1, getOp script2 with
    | some (opcode1, vch1, rest1), some (opcode2, vch2, rest2) =>
      if opcode2 = opPubkey then
        if vch1.length < 33 ∨ 120 < vch1.length then none
        else matchTemplate fuel rest1 rest2 (vSolution ++ [(opcode2, vch1)])
      else if opcode2 = opPubkeyhash then
        if vch1.length ≠ 20 then none
        else matchTemplate fuel rest1 rest2 (vSolution ++ [(opcode2, vch1)])
      else if opcode1 ≠ opcode2 ∨ vch1 ≠ vch2 then none
      else matchTemplate fuel rest1 rest2 vSolution
    | _, _ => none

def solver (scriptPubKey : CScript) : Option Solution :=
  vTemplates.findSome? (fun script2 => matchTemplate script2.length scriptPubKey script2 [])

def extractHash160 (scriptPubKey : CScript) : Option Uint160 :=
  match solver scriptPubKey with
  | none => none
  | some vSolution =>
    (vSolution.find? (fun item => item.1 == opPubkeyhash)).map (fun item => uint160 item.2)

def extractPubKeyOnly (scriptPubKey : CScript) : Option VchType :=
  match solver scriptPubKey with
  | none => none
  | some vSolution => (vSolution.find? (fun item => item.1 == opPubkey)).map Prod.snd

def getBitcoinAddressHash160 (env : Env) (scriptPubKey : CScript) : Uint160 :=
  match extractHash160 scriptPubKey with
  | some hash160 => hash160
  | none =>
    match extractPubKeyOnly scriptPubKey with
    | some vch => env.hash160 vch
    | none => uint160Null

def afterPush (nSize : Nat) (s : CScript) : CScript := if s.length < nSize then s else s.drop nSize

def afterOp : CScript → CScript
  | [] => []
  | b :: s =>
    if b.toNat ≤ opPushdata4 then
      match pushSize b.toNat s with
      | none => s
      | some (nSize, s') => afterPush nSize s'
    else s

def skipArgs : Nat → CScript → CScript
  | 0, s => s
  | fuel + 1, s =>
    match getOp s with
    | none => s
    | some (opcode, _, s') => if isDropOrNop opcode then s' else skipArgs fuel s'

def skipDrops : Nat → CScript → CScript
  | 0, s => s
  | fuel + 1, s =>
    match getOp s with
    | none => afterOp s
    | some (opcode, _, s') => if isDropOrNop opcode then skipDrops fuel s' else s'

def nameScriptRest (script : CScript) : CScript :=
  let s := skipDrops script.length (skipArgs script.length (afterOp script))
  script.drop (script.length - s.length - 1)

def removeNameScriptPrefix (scriptIn : CScript) : Except Fault CScript :=
  if isNameScript scriptIn then .ok (nameScriptRest scriptIn)
  else .error (.exception "RemoveNameScriptPrefix() : could not decode name script")

theorem getOp_opcode {s rest : CScript} {opcode : Nat} {vch : VchType}
    (h : getOp s = some (opcode, vch, rest)) (hop : opPushdata4 < opcode) : vch = [] := by
  cases s with
  | nil => cases h
  | cons b s =>
    simp only [getOp] at h
    split at h
    · rename_i hb
      split at h
      · cases h
      · split at h
        · cases h
        · simp only [Option.some.injEq, Prod.mk.injEq] at h
          omega
    · simp only [Option.some.injEq, Prod.mk.injEq] at h
      exact h.2.1.symm

theorem matchTemplate_step {fuel : Nat} {script1 script2 rest2 : CScript} {opcode2 : Nat}
    {vch2 : VchType} {vSolution sol : Solution} (h2 : getOp script2 = some (opcode2, vch2, rest2))
    (h : matchTemplate (fuel + 1) script1 script2 vSolution = some sol) :
    ∃ opcode1 vch1 rest1, getOp script1 = some (opcode1, vch1, rest1) ∧
      ((opcode2 = opPubkey ∧ 33 ≤ vch1.length ∧ vch1.length ≤ 120 ∧
          matchTemplate fuel rest1 rest2 (vSolution ++ [(opcode2, vch1)]) = some sol) ∨
        (opcode2 = opPubkeyhash ∧ vch1.length = 20 ∧
          matchTemplate fuel rest1 rest2 (vSolution ++ [(opcode2, vch1)]) = some sol) ∨
        (opcode2 ≠ opPubkey ∧ opcode2 ≠ opPubkeyhash ∧ opcode1 = opcode2 ∧ vch1 = vch2 ∧
          matchTemplate fuel rest1 rest2 vSolution = some sol)) := by
  have hne : script2 ≠ [] := by
    rintro rfl
    cases h2
  rw [matchTemplate.eq_3 _ _ _ _ (by
    rintro - rfl
    exact hne rfl)] at h
  rw [h2] at h
  cases h1 : getOp script1 with
  | none => simp [h1] at h
  | some r =>
    obtain ⟨opcode1, vch1, rest1⟩ := r
    refine ⟨opcode1, vch1, rest1, rfl, ?_⟩
    simp only [h1] at h
    split at h
    · rename_i hpub
      split at h
      · cases h
      · exact .inl ⟨hpub, by omega, by omega, h⟩
    · rename_i hpub
      split at h
      · rename_i hhash
        split at h
        · cases h
        · rename_i hlen
          exact .inr (.inl ⟨hhash, not_not.mp hlen, h⟩)
      · rename_i hhash
        split at h
        · cases h
        · rename_i hsame
          push Not at hsame
          exact .inr (.inr ⟨hpub, hhash, hsame.1, hsame.2, h⟩)

theorem matchTemplate_end {fuel : Nat} {script1 : CScript} {vSolution sol : Solution}
    (h : matchTemplate fuel script1 [] vSolution = some sol) :
    script1 = [] ∧ sol = vSolution.reverse := by
  cases script1 with
  | nil =>
    rw [matchTemplate.eq_1] at h
    exact ⟨rfl, (Option.some.inj h).symm⟩
  | cons b s =>
    cases fuel with
    | zero => simp [matchTemplate] at h
    | succ fuel =>
      simp only [matchTemplate] at h
      split at h
      · rename_i hnone
        cases hnone
      · cases h

theorem matchTemplate_literal {fuel : Nat} {script1 script2 rest2 : CScript} {opcode2 : Nat}
    {vch2 : VchType} {vSolution sol : Solution} (h2 : getOp script2 = some (opcode2, vch2, rest2))
    (hpub : opcode2 ≠ opPubkey) (hhash : opcode2 ≠ opPubkeyhash)
    (h : matchTemplate (fuel + 1) script1 script2 vSolution = some sol) :
    ∃ rest1, getOp script1 = some (opcode2, vch2, rest1) ∧
      matchTemplate fuel rest1 rest2 vSolution = some sol := by
  obtain ⟨opcode1, vch1, rest1, hop, hcase⟩ := matchTemplate_step h2 h
  obtain ⟨he, -⟩ | ⟨he, -⟩ | ⟨-, -, rfl, rfl, hm⟩ := hcase
  · exact absurd he hpub
  · exact absurd he hhash
  · exact ⟨rest1, hop, hm⟩

theorem match_pubkey {script : CScript} {sol : Solution}
    (h : matchTemplate 2 script (ops [opPubkey, opChecksig]) [] = some sol) :
    ∃ opcode vch rest, getOp script = some (opcode, vch, rest) ∧ 33 ≤ vch.length ∧
      vch.length ≤ 120 ∧ sol = [(opPubkey, vch)] := by
  have hhead : getOp (ops [opPubkey, opChecksig]) = some (opPubkey, [], ops [opChecksig]) := rfl
  have hlast : getOp (ops [opChecksig]) = some (opChecksig, [], []) := rfl
  obtain ⟨opcode, vch, rest, hop, hcase⟩ := matchTemplate_step hhead h
  obtain ⟨-, hmin, hmax, hm⟩ | ⟨he, -⟩ | ⟨he, -⟩ := hcase
  · obtain ⟨rest', -, hm'⟩ := matchTemplate_literal hlast (by decide) (by decide) hm
    obtain ⟨-, rfl⟩ := matchTemplate_end hm'
    exact ⟨opcode, vch, rest, hop, hmin, hmax, rfl⟩
  · cases he
  · exact absurd rfl he

theorem match_pubkeyhash {script : CScript} {sol : Solution}
    (h : matchTemplate 5 script
      (ops [opDup, opHash160, opPubkeyhash, opEqualverify, opChecksig]) [] = some sol) :
    ∃ rest vchHash, getOp script = some (opDup, [], rest) ∧ vchHash.length = 20 ∧
      sol = [(opPubkeyhash, vchHash)] := by
  have hdup : getOp (ops [opDup, opHash160, opPubkeyhash, opEqualverify, opChecksig]) =
    some (opDup, [], ops [opHash160, opPubkeyhash, opEqualverify, opChecksig]) := rfl
  have hhash : getOp (ops [opHash160, opPubkeyhash, opEqualverify, opChecksig]) =
    some (opHash160, [], ops [opPubkeyhash, opEqualverify, opChecksig]) := rfl
  have hslot : getOp (ops [opPubkeyhash, opEqualverify, opChecksig]) =
    some (opPubkeyhash, [], ops [opEqualverify, opChecksig]) := rfl
  have hequal : getOp (ops [opEqualverify, opChecksig]) =
    some (opEqualverify, [], ops [opChecksig]) := rfl
  have hlast : getOp (ops [opChecksig]) = some (opChecksig, [], []) := rfl
  obtain ⟨rest, hop, h⟩ := matchTemplate_literal hdup (by decide) (by decide) h
  obtain ⟨rest2, -, h⟩ := matchTemplate_literal hhash (by decide) (by decide) h
  obtain ⟨opcode, vch, rest3, -, hcase⟩ := matchTemplate_step hslot h
  obtain ⟨he, -⟩ | ⟨-, hlen, h⟩ | ⟨-, he, -⟩ := hcase
  · cases he
  · obtain ⟨rest4, -, h⟩ := matchTemplate_literal hequal (by decide) (by decide) h
    obtain ⟨rest5, -, h⟩ := matchTemplate_literal hlast (by decide) (by decide) h
    obtain ⟨-, rfl⟩ := matchTemplate_end h
    exact ⟨rest, vch, hop, hlen, rfl⟩
  · exact absurd rfl he

theorem solver_cases {script : CScript} {sol : Solution} (h : solver script = some sol) :
    ∃ opcode vch rest, getOp script = some (opcode, vch, rest) ∧
      ((33 ≤ vch.length ∧ vch.length ≤ 120 ∧ sol = [(opPubkey, vch)]) ∨
        (opcode = opDup ∧ ∃ vchHash, vchHash.length = 20 ∧ sol = [(opPubkeyhash, vchHash)])) := by
  simp only [solver, vTemplates, List.findSome?_cons, List.findSome?_nil] at h
  split at h
  · rename_i sol' hm
    cases h
    obtain ⟨opcode, vch, rest, hop, hsol⟩ := match_pubkey hm
    exact ⟨opcode, vch, rest, hop, .inl hsol⟩
  · split at h
    · rename_i sol' hm
      cases h
      obtain ⟨rest, vchHash, hop, hlen, hsol⟩ := match_pubkeyhash hm
      exact ⟨opDup, [], rest, hop, .inr ⟨rfl, vchHash, hlen, hsol⟩⟩
    · cases h

theorem solver_nameScript {script : CScript} {op : Nat} {vvch : List VchType}
    (h : (decodeNameScript script op vvch).ok = true) : solver script = none := by
  have hint := decodeNameScript_op_of_ok h
  cases hs : solver script with
  | none => rfl
  | some sol =>
    obtain ⟨opcode, vch, rest, hop, hcase⟩ := solver_cases hs
    simp only [smallInt, hop] at hint
    split at hint
    · cases hint
    · rename_i hrange
      push Not at hrange
      have hempty : vch = [] := by
        apply getOp_opcode hop
        have := hrange.1
        unfold op1 at this
        unfold opPushdata4
        omega
      obtain ⟨hmin, -⟩ | ⟨rfl, -⟩ := hcase
      · rw [hempty, List.length_nil] at hmin
        omega
      · exact absurd hrange.2 (by decide)

theorem getOp_push {n : UInt8} {vch s : List UInt8} (hn : n.toNat = vch.length)
    (hlt : vch.length < opPushdata1) : getOp (n :: (vch ++ s)) = some (vch.length, vch, s) := by
  have hle : n.toNat ≤ opPushdata4 := by
    have : opPushdata1 ≤ opPushdata4 := by decide
    omega
  rw [getOp, if_pos hle, pushSize, if_pos (by omega)]
  simp [hn]

theorem getOp_wide {opcode width : Nat} {b rest : List UInt8} (hlow : opPushdata1 ≤ opcode)
    (hhigh : opcode ≤ opPushdata4)
    (hwidth : width = if opcode = opPushdata1 then 1 else if opcode = opPushdata2 then 2 else 4)
    (hlen : b.length < 256 ^ width) :
    getOp (UInt8.ofNat opcode :: (leBytes width b.length ++ b) ++ rest) = some (opcode, b, rest) := by
  have hbyte : (UInt8.ofNat opcode).toNat = opcode := by
    unfold opPushdata4 at hhigh
    rw [UInt8.toNat_ofNat']
    omega
  have hsize : pushSize opcode (leBytes width b.length ++ (b ++ rest)) = some (b.length, b ++ rest) := by
    rw [pushSize, if_neg (by omega)]
    simp only [← hwidth]
    rw [if_neg (by simp), List.take_left' (leBytes_length width _), leNat_leBytes_of_lt hlen,
      List.drop_left' (leBytes_length width _)]
  rw [List.cons_append, List.append_assoc, getOp, hbyte, if_pos hhigh, hsize]
  simp

theorem getOp_pushData {b : VchType} (hlen : b.length < 2 ^ 32) (rest : CScript) :
    ∃ opcode ≤ opPushdata4, getOp (pushData b ++ rest) = some (opcode, b, rest) := by
  unfold pushData
  split
  · rename_i hsmall
    have hbyte : (UInt8.ofNat b.length).toNat = b.length := by
      unfold opPushdata1 at hsmall
      rw [UInt8.toNat_ofNat']
      omega
    have hle : opPushdata1 ≤ opPushdata4 := by decide
    exact ⟨b.length, by omega, getOp_push hbyte hsmall⟩
  · split
    · exact ⟨opPushdata1, by decide, getOp_wide (by decide) (by decide) (by decide) (by omega)⟩
    · split
      · exact ⟨opPushdata2, by decide, getOp_wide (by decide) (by decide) (by decide) (by omega)⟩
      · exact ⟨opPushdata4, by decide, getOp_wide (by decide) (by decide) (by decide) (by omega)⟩

theorem pushData_length (b : VchType) : (pushData b).length ≤ b.length + 5 := by
  unfold pushData
  split
  · simp
  · split
    · simp
      omega
    · split
      · simp
        omega
      · simp
        omega

theorem solver_setBitcoinAddress (hash160 : Uint160) :
    solver (setBitcoinAddress hash160) = some [(opPubkeyhash, hash160.val)] := by
  have hlen := hash160.property
  let rest : CScript := 20 :: (hash160.val ++ ops [opEqualverify, opChecksig])
  have hscript : setBitcoinAddress hash160 =
      UInt8.ofNat opDup :: UInt8.ofNat opHash160 :: rest := by
    simp only [setBitcoinAddress, pushData, hlen]
    rfl
  have hpush : getOp rest = some (20, hash160.val, ops [opEqualverify, opChecksig]) := by
    rw [getOp_push (by rw [hlen]; rfl) (by rw [hlen]; decide), hlen]
  have hslot : getOp (ops [opPubkeyhash, opEqualverify, opChecksig]) =
      some (opPubkeyhash, [], ops [opEqualverify, opChecksig]) := rfl
  have hfirst : matchTemplate 2 (setBitcoinAddress hash160) (ops [opPubkey, opChecksig]) [] =
      none := by
    rw [hscript]
    rfl
  have hskip : matchTemplate 5 (setBitcoinAddress hash160)
      (ops [opDup, opHash160, opPubkeyhash, opEqualverify, opChecksig]) [] =
        matchTemplate 3 rest (ops [opPubkeyhash, opEqualverify, opChecksig]) [] := by
    rw [hscript]
    rfl
  have hrest : matchTemplate 3 rest (ops [opPubkeyhash, opEqualverify, opChecksig]) [] =
      some [(opPubkeyhash, hash160.val)] := by
    rw [matchTemplate.eq_3 _ _ _ _ (by simp [rest]), hpush, hslot]
    dsimp only
    rw [if_neg (by decide), if_pos rfl, if_neg (not_not.mpr hlen)]
    rfl
  have htwo : (ops [opPubkey, opChecksig]).length = 2 := rfl
  have hfive : (ops [opDup, opHash160, opPubkeyhash, opEqualverify, opChecksig]).length = 5 := rfl
  simp only [solver, vTemplates, List.findSome?_cons, htwo, hfive, hfirst, hskip, hrest]

end Namecoin
