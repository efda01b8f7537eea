import Namecoin.Name.Decode

namespace Namecoin

def decodedName (script : CScript) : Option (Nat × List VchType) :=
  let d := decodeNameScript script 0 []
  if d.ok then some (d.op, d.vvch) else none

def leftoverOp (scripts : List CScript) (op : Nat) : Nat :=
  scripts.foldl (fun op script => (smallInt script).getD op) op

structure OnlyName (scripts : List CScript) (k op : Nat) (vvch : List VchType) : Prop where
  at_k : (scripts[k]?).bind decodedName = some (op, vvch)
  unique : ∀ j script, scripts[j]? = some script → j ≠ k → decodedName script = none

theorem decodedName_isNameScript (script : CScript) :
    (decodedName script).isSome = isNameScript script := by
  unfold decodedName isNameScript
  dsimp only
  split <;> simp_all

theorem decodedName_op {script : CScript} {op : Nat} {vvch : List VchType}
    (h : decodedName script = some (op, vvch)) : smallInt script = some op := by
  unfold decodedName at h
  dsimp only at h
  split at h
  · rename_i hok
    obtain ⟨rfl, rfl⟩ := Prod.mk.inj (Option.some.inj h)
    exact decodeNameScript_op_of_ok hok
  · cases h

theorem decodedName_argCount {script : CScript} {op : Nat} {vvch : List VchType}
    (h : decodedName script = some (op, vvch)) : argCount op vvch = true := by
  unfold decodedName at h
  dsimp only at h
  split at h
  · rename_i hok
    obtain ⟨rfl, rfl⟩ := Prod.mk.inj (Option.some.inj h)
    exact decodeNameScript_args hok
  · cases h

theorem decodedName_of_ok {script : CScript} {op : Nat}
    (h : (decodeNameScript script op []).ok = true) :
    decodedName script =
      some ((decodeNameScript script op []).op, (decodeNameScript script op []).vvch) := by
  obtain ⟨hok, hv⟩ := decodeNameScript_indep script op 0 []
  have h0 : (decodeNameScript script 0 []).ok = true := by rw [← hok]; exact h
  have hop : (decodeNameScript script 0 []).op = (decodeNameScript script op []).op := by
    have h1 := decodeNameScript_op_of_ok h0
    rw [decodeNameScript_op_of_ok h] at h1
    exact (Option.some.inj h1).symm
  simp only [decodedName, h0, if_true, hop, hv]

theorem decodedName_of_not_ok {script : CScript} {op : Nat}
    (h : (decodeNameScript script op []).ok = false) : decodedName script = none := by
  have h0 : (decodeNameScript script 0 []).ok = false := by
    rw [← (decodeNameScript_indep script op 0 []).1]
    exact h
  simp [decodedName, h0]

theorem argCount_firstupdate {vvch : List VchType} (h : argCount opNameFirstupdate vvch = true) :
    vvch.length = 3 := by
  simpa [argCount, opNameNew, opNameFirstupdate, opNameUpdate] using h

theorem argCount_update {vvch : List VchType} (h : argCount opNameUpdate vvch = true) :
    vvch.length = 2 := by
  simpa [argCount, opNameNew, opNameFirstupdate, opNameUpdate] using h

theorem argCount_op {op : Nat} {vvch : List VchType} (h : argCount op vvch = true) :
    op = opNameNew ∨ op = opNameFirstupdate ∨ op = opNameUpdate := by
  simp only [argCount, Bool.or_eq_true, Bool.and_eq_true, beq_iff_eq] at h
  tauto

theorem argCount_ne_nil {op : Nat} {vvch : List VchType} (h : argCount op vvch = true) :
    vvch ≠ [] := by
  rintro rfl
  simp [argCount] at h

theorem scanNameScripts_op {strict : Bool} {scripts : List CScript} {i : Nat} {r r' : NameScan}
    (h : scanNameScripts strict scripts i r = some r') : r'.op = leftoverOp scripts r.op := by
  induction scripts generalizing i r with
  | nil =>
    obtain rfl : r = r' := by simpa [scanNameScripts] using h
    rfl
  | cons script rest ih =>
    have hop := decodeNameScript_op script r.op (if strict then [] else r.vvch)
    rw [scanNameScripts] at h
    generalize decodeNameScript script r.op (if strict then [] else r.vvch) = d at h hop
    rw [leftoverOp, List.foldl_cons, ← hop]
    split at h
    · split at h
      · cases h
      · exact ih h
    · exact ih h

theorem scanNameScripts_strict_some {scripts : List CScript} {i k : Nat} {r r' : NameScan}
    (hr : r.found = some k) (h : scanNameScripts true scripts i r = some r') :
    r'.found = some k ∧ r'.vvch = r.vvch ∧ ∀ script ∈ scripts, decodedName script = none := by
  induction scripts generalizing i r with
  | nil =>
    obtain rfl : r = r' := by simpa [scanNameScripts] using h
    exact ⟨hr, rfl, by simp⟩
  | cons script rest ih =>
    simp only [scanNameScripts, if_true, hr] at h
    split at h
    · cases h
    · rename_i hok
      obtain ⟨h1, h2, h3⟩ := ih (by rfl) h
      refine ⟨h1, h2, ?_⟩
      intro x hx
      rcases List.mem_cons.mp hx with rfl | hx
      · exact decodedName_of_not_ok (by simpa using hok)
      · exact h3 x hx

theorem scanNameScripts_strict_none {scripts : List CScript} {i : Nat} {r r' : NameScan}
    (hr : r.found = none) (h : scanNameScripts true scripts i r = some r') :
    (r'.found = none ∧ ∀ script ∈ scripts, decodedName script = none) ∨
      ∃ k op, r'.found = some (i + k) ∧ OnlyName scripts k op r'.vvch := by
  induction scripts generalizing i r with
  | nil =>
    obtain rfl : r = r' := by simpa [scanNameScripts] using h
    exact .inl ⟨hr, by simp⟩
  | cons script rest ih =>
    simp only [scanNameScripts, if_true, hr] at h
    split at h
    · rename_i hok
      obtain ⟨h1, h2, h3⟩ := scanNameScripts_strict_some rfl h
      refine .inr ⟨0, (decodeNameScript script r.op []).op, h1, ?_, ?_⟩
      · simp only [List.getElem?_cons_zero, Option.bind_some, h2]
        exact decodedName_of_ok hok
      · intro j x hj hne
        obtain ⟨m, rfl⟩ := Nat.exists_eq_succ_of_ne_zero hne
        exact h3 x (List.mem_of_getElem? hj)
    · rename_i hok
      have hnone : decodedName script = none := decodedName_of_not_ok (by simpa using hok)
      rcases ih (by rfl) h with ⟨h1, h2⟩ | ⟨k, op, h1, h2⟩
      · refine .inl ⟨h1, ?_⟩
        intro x hx
        rcases List.mem_cons.mp hx with rfl | hx
        · exact hnone
        · exact h2 x hx
      · refine .inr ⟨k + 1, op, ?_, ?_, ?_⟩
        · rw [h1]
          congr 1
          omega
        · simpa using h2.at_k
        · intro j x hj hne
          cases j with
          | zero =>
            obtain rfl : script = x := by simpa using hj
            exact hnone
          | succ m => exact h2.unique m x hj (by omega)

theorem scan_found {scripts : List CScript} {prev : NameScan} {k : Nat}
    (scan : scanNameScripts true scripts 0 NameScan.start = some prev)
    (hfound : prev.found = some k) : ∃ op, OnlyName scripts k op prev.vvch := by
  rcases scanNameScripts_strict_none rfl scan with ⟨h1, -⟩ | ⟨j, op, h1, honly⟩
  · simp [h1] at hfound
  · obtain rfl : j = k := by simpa [h1] using hfound
    exact ⟨op, honly⟩

theorem OnlyName.eq_index {scripts : List CScript} {k op j : Nat} {vvch : List VchType}
    {script : CScript} (h : OnlyName scripts k op vvch) (hj : scripts[j]? = some script)
    (hd : decodedName script ≠ none) : j = k := by
  by_contra hne
  exact hd (h.unique j script hj hne)

theorem OnlyName.of_scripts {scripts : List CScript} {k op : Nat} {vvch : List VchType}
    (hk : (scripts[k]?).bind decodedName = some (op, vvch))
    (h : ∀ j < scripts.length, j ≠ k → (scripts[j]?).bind decodedName = none) :
    OnlyName scripts k op vvch := by
  refine ⟨hk, ?_⟩
  intro j script hj hne
  have hd := h j (List.getElem?_eq_some_iff.mp hj).choose hne
  simpa [hj] using hd

theorem decodeNameTx_strict {env : Env} {tx : CTransaction} {nHeight : Nat} {d : NameTx}
    (hf : postLibcoinFork env nHeight = true) (h : decodeNameTx env tx nHeight = some d) :
    d.op = leftoverOp tx.outScripts 0 ∧
      ∃ op, OnlyName tx.outScripts d.nOut op d.vvch := by
  unfold decodeNameTx at h
  rw [hf] at h
  split at h
  · cases h
  · rename_i r hr
    obtain ⟨nOut, hfound, rfl⟩ := Option.map_eq_some_iff.mp h
    refine ⟨scanNameScripts_op hr, ?_⟩
    rcases scanNameScripts_strict_none rfl hr with ⟨h1, -⟩ | ⟨k, op, h1, h2⟩
    · simp [h1] at hfound
    · rw [h1] at hfound
      obtain rfl : k = nOut := by simpa using hfound
      exact ⟨op, h2⟩

end Namecoin
