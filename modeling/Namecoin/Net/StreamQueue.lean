import Namecoin.Net.DataStream
import Namecoin.Lib.Simulation

namespace Namecoin

open Simulation

structure IoState where
  badbit : Bool
  failbit : Bool

def IoState.meets (a b : IoState) : Bool := (a.badbit && b.badbit) || (a.failbit && b.failbit)

structure IoStream extends CDataStream where
  state : IoState
  exceptmask : IoState

inductive StreamOutcome where
  | done (pch : List UInt8)
  | failed (what : String)
  | aborted
  deriving DecidableEq

def StreamOutcome.withoutBytes : StreamOutcome → StreamOutcome
  | .done _ => .done []
  | out => out

inductive StreamOp where
  | read (nSize : Nat)
  | ignore (nSize : Nat)
  | write (pch : List UInt8)
  | insertFront (data : List UInt8)
  | insertEnd (data : List UInt8)
  | fillFront (n : Nat) (x : UInt8)
  | fillEnd (n : Nat) (x : UInt8)
  | eraseFirst
  | eraseFront (n : Nat)
  | resize (n : Nat) (c : UInt8)
  | compact
  | plusAssign (b : IoStream)
  | shiftIn (b : IoStream)

namespace IoStream

def start (vch : List UInt8) : IoStream :=
  ⟨⟨vch, 0, Nat.zero_le _⟩, ⟨false, false⟩, ⟨true, true⟩⟩

variable (s : IoStream)

def withStream (t : CDataStream) : IoStream := ⟨t, s.state, s.exceptmask⟩

def setFail : IoStream := { s with state := { s.state with failbit := true } }

-- positions are unsigned int, so a sum wraps
def nReadPosNext (nSize : Nat) : Nat := (s.nReadPos + nSize) % 2 ^ 32

def take (what : String) (nSize : Nat) : StreamOutcome × IoStream :=
  if h : s.vch.length ≤ s.nReadPosNext nSize then
    if s.vch.length < s.nReadPosNext nSize then
      if s.setFail.state.meets s.exceptmask then (.failed what, s.setFail)
      else
        (.done (s.bytes ++ List.replicate (nSize - s.size) 0),
          s.setFail.withStream CDataStream.empty)
    else (.done (s.bytes.take nSize), s.withStream CDataStream.empty)
  else
    (.done (s.bytes.take nSize),
      s.withStream ⟨s.vch, s.nReadPosNext nSize, (Nat.lt_of_not_le h).le⟩)

def read (nSize : Nat) : StreamOutcome × IoStream := s.take "CDataStream::read() : end of data" nSize

def ignore (nSize : Nat) : StreamOutcome × IoStream :=
  let r := s.take "CDataStream::ignore() : end of data" nSize
  (r.1.withoutBytes, r.2)

def insertPlain (it : Nat) (data : List UInt8) : CDataStream :=
  ⟨s.vch.take it ++ data ++ s.vch.drop it, s.nReadPos, by
    have h := s.inBuffer
    simp only [List.length_append, List.length_take, List.length_drop]
    omega⟩

def insertRange (it : Nat) (data : List UInt8) : CDataStream :=
  if it = s.nReadPos ∧ data.length ≤ s.nReadPos then
    ⟨s.vch.take (s.nReadPos - data.length) ++ data ++ s.vch.drop s.nReadPos,
      s.nReadPos - data.length, by
        have h := s.inBuffer
        simp only [List.length_append, List.length_take]
        omega⟩
  else s.insertPlain it data

def eraseFirst : CDataStream :=
  if h : s.vch.length ≤ (s.nReadPos + 1) % 2 ^ 32 then CDataStream.empty
  else ⟨s.vch, (s.nReadPos + 1) % 2 ^ 32, (Nat.lt_of_not_le h).le⟩

def eraseFront (n : Nat) : CDataStream :=
  if h : s.vch.length ≤ s.nReadPos + n then CDataStream.empty
  else ⟨s.vch, (s.nReadPos + n) % 2 ^ 32, (Nat.mod_le _ _).trans (Nat.lt_of_not_le h).le⟩

def resize (n : Nat) (c : UInt8) : CDataStream :=
  ⟨s.vch.take (n + s.nReadPos) ++ List.replicate (n + s.nReadPos - s.vch.length) c, s.nReadPos, by
    simp only [List.length_append, List.length_take, List.length_replicate]
    omega⟩

-- write takes the number of bytes as an int and asserts that it is not negative
def serializeTo (b s : IoStream) : StreamOutcome × IoStream :=
  let nSize := b.vch.length % 2 ^ 32
  if nSize < 2 ^ 31 then (.done [], s.withStream (s.append (b.vch.take nSize))) else (.aborted, s)

def step : StreamOp → StreamOutcome × IoStream
  | .read nSize => s.read nSize
  | .ignore nSize => s.ignore nSize
  | .write pch => (.done [], s.withStream (s.append pch))
  | .insertFront data => (.done [], s.withStream (s.insertRange s.nReadPos data))
  | .insertEnd data => (.done [], s.withStream (s.insertRange s.vch.length data))
  | .fillFront n x => (.done [], s.withStream (s.insertPlain s.nReadPos (List.replicate n x)))
  | .fillEnd n x => (.done [], s.withStream (s.insertPlain s.vch.length (List.replicate n x)))
  | .eraseFirst => (.done [], s.withStream s.eraseFirst)
  | .eraseFront n => (.done [], s.withStream (s.eraseFront n))
  | .resize n c => (.done [], s.withStream (s.resize n c))
  | .compact => (.done [], s.withStream s.compact)
  | .plusAssign b => (.done [], s.withStream (s.append b.bytes))
  | .shiftIn b => b.serializeTo s

end IoStream

def queueTake (l : List UInt8) (what : String) (nSize : Nat) (pch : List UInt8) :
    StreamOutcome × List UInt8 :=
  if nSize ≤ l.length then (.done pch, l.drop nSize) else (.failed what, l)

def queueStep (l : List UInt8) : StreamOp → StreamOutcome × List UInt8
  | .read nSize => queueTake l "CDataStream::read() : end of data" nSize (l.take nSize)
  | .ignore nSize => queueTake l "CDataStream::ignore() : end of data" nSize []
  | .write pch => (.done [], l ++ pch)
  | .insertFront data => (.done [], data ++ l)
  | .insertEnd data => (.done [], l ++ data)
  | .fillFront n x => (.done [], List.replicate n x ++ l)
  | .fillEnd n x => (.done [], l ++ List.replicate n x)
  | .eraseFirst => (.done [], l.drop 1)
  | .eraseFront n => (.done [], l.drop n)
  | .resize n c => (.done [], l.take n ++ List.replicate (n - l.length) c)
  | .compact => (.done [], l)
  | .plusAssign b => (.done [], l ++ b.bytes)
  | .shiftIn b => (.done [], l ++ b.bytes)

namespace IoStream

def Plain (s : IoStream) : StreamOp → Prop
  | .read nSize => s.nReadPos + nSize < 2 ^ 32
  | .ignore nSize => s.nReadPos + nSize < 2 ^ 32
  | .eraseFirst => s.nReadPos + 1 < 2 ^ 32
  | .eraseFront n => s.nReadPos + n < 2 ^ 32 ∨ s.vch.length ≤ s.nReadPos + n
  | .shiftIn b => b.nReadPos = 0 ∧ b.vch.length < 2 ^ 31
  | _ => True

def Throws (s : IoStream) : Prop := s.exceptmask.failbit = true

variable {s : IoStream} {n : Nat} {c : UInt8} {data : List UInt8} {what : String}

@[simp]
theorem withStream_bytes (s : IoStream) (t : CDataStream) : (s.withStream t).bytes = t.bytes := rfl

@[simp]
theorem setFail_bytes (s : IoStream) : s.setFail.bytes = s.bytes := rfl

theorem setFail_meets (h : s.Throws) : s.setFail.state.meets s.exceptmask = true := by
  unfold Throws at h
  simp [setFail, IoState.meets, h]

theorem take_cases (what : String) (hthrow : s.Throws) (h : s.nReadPos + n < 2 ^ 32) :
    (n ≤ s.bytes.length ∧ (s.take what n).1 = .done (s.bytes.take n) ∧
        (s.take what n).2.bytes = s.bytes.drop n) ∨
      (s.bytes.length < n ∧ s.take what n = (.failed what, s.setFail)) := by
  have hin := s.inBuffer
  have hnext : s.nReadPosNext n = s.nReadPos + n := Nat.mod_eq_of_lt h
  have hlen : s.bytes.length = s.vch.length - s.nReadPos := CDataStream.length_bytes _
  rw [take, hlen]
  by_cases hend : s.vch.length ≤ s.nReadPosNext n
  · rw [dif_pos hend]
    by_cases hpast : s.vch.length < s.nReadPosNext n
    · right
      rw [if_pos hpast, if_pos (setFail_meets hthrow)]
      exact ⟨by omega, rfl⟩
    · left
      rw [if_neg hpast]
      refine ⟨by omega, rfl, ?_⟩
      rw [withStream_bytes, CDataStream.bytes_empty, CDataStream.bytes_past (by omega)]
  · left
    rw [dif_neg hend]
    refine ⟨by omega, rfl, ?_⟩
    rw [withStream_bytes, CDataStream.bytes, CDataStream.bytes, List.drop_drop]
    exact congrArg s.vch.drop hnext

theorem insertPlain_front (s : IoStream) (data : List UInt8) :
    (s.insertPlain s.nReadPos data).bytes = data ++ s.bytes := by
  have hin := s.inBuffer
  unfold insertPlain CDataStream.bytes
  dsimp only
  rw [List.append_assoc, List.drop_left' (by rw [List.length_take]; omega)]

theorem insertPlain_end (s : IoStream) (data : List UInt8) :
    (s.insertPlain s.vch.length data).bytes = s.bytes ++ data := by
  unfold insertPlain CDataStream.bytes
  dsimp only
  rw [List.take_length, List.drop_length, List.append_nil,
    List.drop_append_of_le_length s.inBuffer]

theorem insertRange_room (h : data.length ≤ s.nReadPos) :
    (s.insertRange s.nReadPos data).bytes = data ++ s.bytes := by
  have hin := s.inBuffer
  rw [insertRange, if_pos ⟨rfl, h⟩]
  unfold CDataStream.bytes
  dsimp only
  rw [List.append_assoc, List.drop_left' (by rw [List.length_take]; omega)]

theorem insertRange_front (s : IoStream) (data : List UInt8) :
    (s.insertRange s.nReadPos data).bytes = data ++ s.bytes := by
  by_cases h : data.length ≤ s.nReadPos
  · exact insertRange_room h
  · rw [insertRange, if_neg fun hroom => h hroom.2]
    exact insertPlain_front s data

-- an empty stream has its front at its end, so that the room in front may serve an insertion there
theorem insertRange_end (s : IoStream) (data : List UInt8) :
    (s.insertRange s.vch.length data).bytes = s.bytes ++ data := by
  by_cases h : s.vch.length = s.nReadPos ∧ data.length ≤ s.nReadPos
  · have hnil : s.bytes = [] := by
      rw [CDataStream.bytes, ← h.1, List.drop_length]
    rw [h.1, insertRange_room h.2, hnil, List.append_nil, List.nil_append]
  · rw [insertRange, if_neg h]
    exact insertPlain_end s data

theorem eraseFirst_bytes (h : s.nReadPos + 1 < 2 ^ 32) : s.eraseFirst.bytes = s.bytes.drop 1 := by
  have hnext := Nat.mod_eq_of_lt h
  rw [eraseFirst]
  split
  · next hend => rw [CDataStream.bytes_empty, CDataStream.bytes_past (by omega)]
  · rw [CDataStream.bytes, CDataStream.bytes, List.drop_drop]
    exact congrArg s.vch.drop hnext

theorem eraseFront_bytes (h : s.nReadPos + n < 2 ^ 32 ∨ s.vch.length ≤ s.nReadPos + n) :
    (s.eraseFront n).bytes = s.bytes.drop n := by
  rw [eraseFront]
  split
  · next hend => rw [CDataStream.bytes_empty, CDataStream.bytes_past (by omega)]
  · next hend =>
    rw [CDataStream.bytes, CDataStream.bytes, List.drop_drop]
    exact congrArg s.vch.drop (Nat.mod_eq_of_lt (h.resolve_right hend))

theorem resize_bytes (s : IoStream) (n : Nat) (c : UInt8) :
    (s.resize n c).bytes = s.bytes.take n ++ List.replicate (n - s.bytes.length) c := by
  have hin := s.inBuffer
  have hlen : s.bytes.length = s.vch.length - s.nReadPos := CDataStream.length_bytes _
  have hcount : n + s.nReadPos - s.vch.length = n - s.bytes.length := by omega
  change (s.vch.take (n + s.nReadPos) ++
    List.replicate (n + s.nReadPos - s.vch.length) c).drop s.nReadPos = _
  rw [hcount, List.drop_append_of_le_length (by rw [List.length_take]; omega), List.drop_take,
    Nat.add_sub_cancel, CDataStream.bytes]

theorem serializeTo_whole {b : IoStream} (hpos : b.nReadPos = 0) (hlen : b.vch.length < 2 ^ 31) :
    b.serializeTo s = (.done [], s.withStream (s.append b.bytes)) := by
  have hmod : b.vch.length % 2 ^ 32 = b.vch.length := Nat.mod_eq_of_lt (by omega)
  have hbytes : b.bytes = b.vch := by
    rw [CDataStream.bytes, hpos, List.drop_zero]
  rw [serializeTo, hmod, if_pos hlen, List.take_length, hbytes]

theorem take_queue (hthrow : s.Throws) (h : s.nReadPos + n < 2 ^ 32) :
    Prod.map id (fun t => t.bytes) (s.take what n) =
      queueTake s.bytes what n (s.bytes.take n) := by
  rcases take_cases what hthrow h with ⟨hle, hout, hbytes⟩ | ⟨hlt, htake⟩
  · rw [queueTake, if_pos hle]
    exact Prod.ext hout hbytes
  · rw [queueTake, if_neg (not_le.mpr hlt), htake]
    rfl

theorem ignore_queue (hthrow : s.Throws) (h : s.nReadPos + n < 2 ^ 32) :
    Prod.map id (fun t => t.bytes) (s.ignore n) =
      queueTake s.bytes "CDataStream::ignore() : end of data" n [] := by
  rcases take_cases "CDataStream::ignore() : end of data" hthrow h with
    ⟨hle, hout, hbytes⟩ | ⟨hlt, htake⟩
  · rw [queueTake, if_pos hle, ignore]
    refine Prod.ext ?_ hbytes
    exact congrArg StreamOutcome.withoutBytes hout
  · rw [queueTake, if_neg (not_le.mpr hlt), ignore, htake]
    rfl

theorem step_queue (op : StreamOp) (hthrow : s.Throws) (hok : s.Plain op) :
    Prod.map id (fun t => t.bytes) (s.step op) = queueStep s.bytes op := by
  cases op with
  | read nSize => exact take_queue hthrow hok
  | ignore nSize => exact ignore_queue hthrow hok
  | write pch => exact Prod.ext rfl (CDataStream.bytes_append _ pch)
  | insertFront data => exact Prod.ext rfl (insertRange_front s data)
  | insertEnd data => exact Prod.ext rfl (insertRange_end s data)
  | fillFront n x => exact Prod.ext rfl (insertPlain_front s _)
  | fillEnd n x => exact Prod.ext rfl (insertPlain_end s _)
  | eraseFirst => exact Prod.ext rfl (eraseFirst_bytes hok)
  | eraseFront n => exact Prod.ext rfl (eraseFront_bytes hok)
  | resize n c => exact Prod.ext rfl (resize_bytes s n c)
  | compact => rfl
  | plusAssign b => exact Prod.ext rfl (CDataStream.bytes_append _ b.bytes)
  | shiftIn b =>
    change Prod.map id _ (b.serializeTo s) = _
    rw [serializeTo_whole hok.1 hok.2]
    exact Prod.ext rfl (CDataStream.bytes_append _ b.bytes)

theorem take_exceptmask (s : IoStream) (what : String) (n : Nat) :
    (s.take what n).2.exceptmask = s.exceptmask := by
  unfold take
  split
  · split
    · split <;> rfl
    · rfl
  · rfl

theorem step_exceptmask (s : IoStream) (op : StreamOp) :
    (s.step op).2.exceptmask = s.exceptmask := by
  cases op with
  | read nSize => exact take_exceptmask s _ nSize
  | ignore nSize => exact take_exceptmask s _ nSize
  | shiftIn b =>
    change (b.serializeTo s).2.exceptmask = _
    rw [serializeTo]
    split <;> rfl
  | _ => rfl

theorem queue_simulates : Simulates step queueStep (fun s => s.bytes) Throws Plain where
  keeps s op hthrow _ := by
    rw [Throws, step_exceptmask]
    exact hthrow
  output s op hthrow hok := congrArg Prod.fst (step_queue op hthrow hok)
  state s op hthrow hok := congrArg Prod.snd (step_queue op hthrow hok)

theorem byte_queue (vch : List UInt8) (ops : List StreamOp)
    (h : Allowed step Plain (start vch) ops) :
    (trace step (start vch) ops).map (Prod.map id fun s => s.bytes) = trace queueStep vch ops ∧
      ∀ p ∈ trace step (start vch) ops, p.2.nReadPos ≤ p.2.vch.length :=
  ⟨queue_simulates.trace_eq rfl h, fun p _ => p.2.inBuffer⟩

def readOnce : IoStream := ((start [1, 2]).step (.read 1)).2

theorem byte_queue_concatenates :
    (trace step (start [7]) [.read 2, .plusAssign readOnce, .read 1, .insertFront [9]]).map
        (Prod.map id fun s => s.bytes) =
      [(.failed "CDataStream::read() : end of data", [7]), (.done [], [7, 2]), (.done [7], [2]),
        (.done [], [9, 2])] := by
  have hallowed : Allowed step Plain (start [7])
      [.read 2, .plusAssign readOnce, .read 1, .insertFront [9]] :=
    ⟨by change 0 + 2 < 2 ^ 32; decide, trivial, by change 0 + 1 < 2 ^ 32; decide, trivial, trivial⟩
  rw [(byte_queue [7] _ hallowed).1]
  rfl

theorem shift_repeats :
    readOnce.bytes = [2] ∧
      Prod.map id (fun s => s.bytes) ((start [7]).step (.shiftIn readOnce)) = (.done [], [7, 1, 2]) ∧
      queueStep [7] (.shiftIn readOnce) = (.done [], [7, 2]) :=
  ⟨rfl, rfl, rfl⟩

end IoStream

end Namecoin
