import Namecoin.Data.Codec

namespace Namecoin

structure CDataStream where
  vch : List UInt8
  nReadPos : Nat
  inBuffer : nReadPos ≤ vch.length

namespace CDataStream

def empty : CDataStream := ⟨[], 0, Nat.le_refl 0⟩

def bytes (s : CDataStream) : List UInt8 := s.vch.drop s.nReadPos

def size (s : CDataStream) : Nat := s.vch.length - s.nReadPos

def append (s : CDataStream) (chunk : List UInt8) : CDataStream :=
  ⟨s.vch ++ chunk, s.nReadPos, by
    rw [List.length_append]
    exact Nat.le_add_right_of_le s.inBuffer⟩

def insert (s : CDataStream) (data : List UInt8) : CDataStream :=
  if data.length ≤ s.nReadPos then
    ⟨s.vch.take (s.nReadPos - data.length) ++ data ++ s.vch.drop s.nReadPos,
      s.nReadPos - data.length, by
        have h := s.inBuffer
        simp only [List.length_append, List.length_take]
        omega⟩
  else
    ⟨s.vch.take s.nReadPos ++ data ++ s.vch.drop s.nReadPos, s.nReadPos, by
      have h := s.inBuffer
      simp only [List.length_append, List.length_take]
      omega⟩

def erase (s : CDataStream) (n : Nat) : CDataStream :=
  if h : s.nReadPos + n < s.vch.length then ⟨s.vch, s.nReadPos + n, h.le⟩ else empty

def compact (s : CDataStream) : CDataStream := ⟨s.vch.drop s.nReadPos, 0, Nat.zero_le _⟩

def ignore (s : CDataStream) (nSize : Nat) : Option CDataStream :=
  if h : s.nReadPos + nSize < s.vch.length then some ⟨s.vch, s.nReadPos + nSize, h.le⟩
  else if s.nReadPos + nSize > s.vch.length then none
  else some empty

def read (s : CDataStream) (nSize : Nat) : Option (List UInt8 × CDataStream) :=
  (s.ignore nSize).map fun t => ((s.vch.drop s.nReadPos).take nSize, t)

@[simp]
theorem bytes_empty : empty.bytes = [] := rfl

theorem length_bytes (s : CDataStream) : s.bytes.length = s.size := List.length_drop

@[simp]
theorem bytes_append (s : CDataStream) (chunk : List UInt8) :
    (s.append chunk).bytes = s.bytes ++ chunk :=
  List.drop_append_of_le_length s.inBuffer

@[simp]
theorem bytes_compact (s : CDataStream) : s.compact.bytes = s.bytes := rfl

@[simp]
theorem bytes_insert (s : CDataStream) (data : List UInt8) :
    (s.insert data).bytes = data ++ s.bytes := by
  have hin := s.inBuffer
  unfold insert bytes
  split
  · dsimp only
    rw [List.append_assoc, List.drop_left' (by rw [List.length_take]; omega)]
  · dsimp only
    rw [List.append_assoc, List.drop_left' (by rw [List.length_take]; omega)]

theorem bytes_past {s : CDataStream} {n : Nat} (h : ¬ s.nReadPos + n < s.vch.length) :
    s.bytes.drop n = [] := by
  rw [bytes, List.drop_drop]
  exact List.drop_eq_nil_of_le (by omega)

@[simp]
theorem bytes_erase (s : CDataStream) (n : Nat) : (s.erase n).bytes = s.bytes.drop n := by
  unfold erase
  split
  · simp only [bytes, List.drop_drop]
  · next h => rw [bytes_past h, bytes_empty]

theorem ignore_some {s : CDataStream} {n : Nat} (h : n ≤ s.bytes.length) :
    ∃ t, s.ignore n = some t ∧ t.bytes = s.bytes.drop n := by
  have hin := s.inBuffer
  rw [length_bytes, size] at h
  unfold ignore
  split
  · exact ⟨_, rfl, by simp only [bytes, List.drop_drop]⟩
  · next hpast =>
    rw [if_neg (by omega)]
    exact ⟨empty, rfl, by rw [bytes_past hpast, bytes_empty]⟩

theorem read_some {s : CDataStream} {n : Nat} (h : n ≤ s.bytes.length) :
    ∃ t, s.read n = some (s.bytes.take n, t) ∧ t.bytes = s.bytes.drop n := by
  obtain ⟨t, ht, hbytes⟩ := ignore_some h
  exact ⟨t, by rw [read, ht]; rfl, hbytes⟩

end CDataStream

end Namecoin
