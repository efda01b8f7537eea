import Mathlib

namespace Packing

structure Word (W : Type) (k : Nat) where
  zero : W
  get : W → Nat → Bool
  put : W → Nat → W
  get_zero : ∀ i, i < k → get zero i = false
  get_put : ∀ w i j, i < k → j < k → get (put w i) j = (decide (j = i) || get w j)

variable {W : Type} {k : Nat}

def wordCount (k n : Nat) : Nat := (n + (k - 1)) / k

def bitAt (o : Word W k) (words : List W) (i : Nat) : Bool :=
  o.get (words.getD (i / k) o.zero) (i % k)

def mark (o : Word W k) (words : List W) (i : Nat) : List W :=
  words.modify (i / k) (fun w => o.put w (i % k))

def packFrom (o : Word W k) (v : List Bool) (words : List W) (is : List Nat) : List W :=
  is.foldl (fun words i => if v.getD i false then mark o words i else words) words

def pack (o : Word W k) (v : List Bool) : List W :=
  packFrom o v (List.replicate (wordCount k v.length) o.zero) (List.range v.length)

def unpack (o : Word W k) (n : Nat) (words : List W) : List Bool :=
  (List.range n).map (bitAt o words)

theorem lt_wordCount (hk : 0 < k) {i n : Nat} (h : i < n) : i / k < wordCount k n := by
  rw [wordCount, Nat.div_lt_iff_lt_mul hk]
  have hmod := Nat.div_add_mod (n + (k - 1)) k
  have hlt := Nat.mod_lt (n + (k - 1)) hk
  rw [Nat.mul_comm] at hmod
  omega

theorem bitAt_mark (hk : 0 < k) (o : Word W k) {words : List W} {i : Nat}
    (h : i / k < words.length) (j : Nat) :
    bitAt o (mark o words i) j = (decide (j = i) || bitAt o words j) := by
  unfold bitAt mark
  rw [List.getD_eq_getElem?_getD, List.getD_eq_getElem?_getD, List.getElem?_modify]
  by_cases hword : i / k = j / k
  · have hpos : (j % k = i % k) ↔ j = i := by
      constructor
      · intro hmod
        rw [← Nat.div_add_mod j k, ← Nat.div_add_mod i k, hword, hmod]
      · rintro rfl
        rfl
    simp only [if_pos hword]
    rw [← hword, List.getElem?_eq_getElem h, Option.map_eq_map, Option.map_some, Option.getD_some,
      Option.getD_some, o.get_put _ _ _ (Nat.mod_lt i hk) (Nat.mod_lt j hk)]
    simp only [hpos]
  · have hne : j ≠ i := by
      rintro rfl
      exact hword rfl
    simp only [if_neg hword]
    rw [id_map', decide_eq_false hne, Bool.false_or]

theorem mark_length (o : Word W k) (words : List W) (i : Nat) :
    (mark o words i).length = words.length := List.length_modify _ _ _

theorem packFrom_length (o : Word W k) (v : List Bool) (words : List W) (is : List Nat) :
    (packFrom o v words is).length = words.length := by
  induction is generalizing words with
  | nil => rfl
  | cons i is ih =>
    rw [packFrom, List.foldl_cons]
    refine (ih _).trans ?_
    split
    · exact mark_length o words i
    · rfl

theorem bitAt_packFrom (hk : 0 < k) (o : Word W k) (v : List Bool) {words : List W}
    {is : List Nat} (h : ∀ i ∈ is, i / k < words.length) (j : Nat) :
    bitAt o (packFrom o v words is) j =
      ((decide (j ∈ is) && v.getD j false) || bitAt o words j) := by
  induction is generalizing words with
  | nil => simp [packFrom]
  | cons i is ih =>
    obtain ⟨hi, his⟩ := List.forall_mem_cons.mp h
    rw [packFrom, List.foldl_cons]
    change bitAt o (packFrom o v _ is) j = _
    cases hv : v.getD i false with
    | true =>
      rw [if_pos rfl, ih (by rwa [mark_length]), bitAt_mark hk o hi]
      by_cases hj : j = i
      · subst hj
        simp only [hv, decide_true, Bool.true_or, Bool.and_true, List.mem_cons_self, Bool.or_true]
      · simp [hj]
    | false =>
      rw [if_neg (by simp), ih his]
      by_cases hj : j = i
      · subst hj
        simp only [hv, Bool.and_false]
      · simp [hj]

theorem pack_length (o : Word W k) (v : List Bool) :
    (pack o v).length = wordCount k v.length := by
  rw [pack, packFrom_length, List.length_replicate]

theorem bitAt_zero (hk : 0 < k) (o : Word W k) (n j : Nat) :
    bitAt o (List.replicate n o.zero) j = false := by
  have hword : (List.replicate n o.zero).getD (j / k) o.zero = o.zero := by
    rw [List.getD_eq_getElem?_getD, List.getElem?_replicate]
    split <;> rfl
  rw [bitAt, hword, o.get_zero _ (Nat.mod_lt j hk)]

theorem unpack_pack (hk : 0 < k) (o : Word W k) (v : List Bool) :
    unpack o v.length (pack o v) = v := by
  apply List.ext_getElem
  · simp [unpack]
  · intro j hj hj'
    have hwords : ∀ i ∈ List.range v.length,
        i / k < (List.replicate (wordCount k v.length) o.zero).length := by
      intro i hi
      rw [List.length_replicate]
      exact lt_wordCount hk (List.mem_range.mp hi)
    simp only [unpack, List.getElem_map, List.getElem_range]
    rw [pack, bitAt_packFrom hk o v hwords, bitAt_zero hk, Bool.or_false,
      decide_eq_true (List.mem_range.mpr hj'), Bool.true_and, List.getD_eq_getElem _ _ hj']

end Packing
