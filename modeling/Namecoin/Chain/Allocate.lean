import Namecoin.Chain.BlockFile

namespace Namecoin

def toUint (n : Int) : Nat := (n % (2 ^ 32 : Nat)).toNat

structure BlockStore where
  fileSize : Nat → Nat
  blkReserved : Nat → Option Nat
  nCurrentBlockFile : Nat

-- What the disk and the database do during one call, file by file.
structure DiskCall where
  diskSpace : Bool
  opens : Nat → Bool
  readOk : Nat → Bool
  seekOk : Nat → Bool
  extendOk : Nat → Bool
  grown : Nat → Nat
  writeOk : Nat → Bool

inductive Tried where
  | placed (pos : Nat)
  | next
  | error
  deriving DecidableEq, Repr

namespace BlockStore

def readBlockFileReserved (s : BlockStore) (readOk : Bool) (num : Nat) : Nat :=
  match s.blkReserved num with
  | none => 0
  | some res => if readOk then res else 0

def writeBlockFileReserved (s : BlockStore) (num size : Nat) : BlockStore :=
  { s with blkReserved := Function.update s.blkReserved num (some size) }

def grow (s : BlockStore) (num added : Nat) : BlockStore :=
  { s with fileSize := Function.update s.fileSize num (s.fileSize num + added) }

def seekEnd (s : BlockStore) (num : Nat) (offset : Int) : Option Nat :=
  if (s.fileSize num : Int) + offset < 0 then none else some ((s.fileSize num : Int) + offset).toNat

def place (s : BlockStore) (d : DiskCall) (size : Nat) (reserved : Int) : BlockStore × Tried :=
  let num := s.nCurrentBlockFile
  match s.seekEnd num (-reserved) with
  | none => (s, .error)
  | some pos =>
    if !d.seekOk num then (s, .error)
    else
      let reserved := toSigned 4 (toUint (reserved - size))
      if !d.writeOk num then (s, .error)
      else (s.writeBlockFileReserved num (toUint reserved), .placed pos)

def tryFile (s : BlockStore) (d : DiskCall) (size : Nat) : BlockStore × Tried :=
  let num := s.nCurrentBlockFile
  if num = uintMax ∨ !d.opens num then (s, .error)
  else
    let reserved := toSigned 4 (s.readBlockFileReserved (d.readOk num) num)
    if size ≤ toUint reserved then s.place d size reserved
    else
      let fileSize := toUint (s.fileSize num)
      if fileSize < toUint reserved then (s, .error)
      else
        let addedChunk := max blockfileChunkSize (toUint (size - reserved))
        if toUint (fileSize + addedChunk) ≤ blockfileMaxSize then
          if !d.extendOk num then (s.grow num (min (d.grown num) addedChunk), .error)
          else (s.grow num addedChunk).place d size (toSigned 4 (toUint (reserved + addedChunk)))
        else ({ s with nCurrentBlockFile := num + 1 }, .next)

def appendLoop (d : DiskCall) (size : Nat) : Nat → BlockStore → BlockStore × Option (Nat × Nat)
  | 0, s => (s, none)
  | fuel + 1, s =>
    match s.tryFile d size with
    | (s, .next) => appendLoop d size fuel s
    | (s, .error) => (s, none)
    | (s, .placed pos) => (s, some (s.nCurrentBlockFile, pos))

-- One turn for each file number that is left.
def appendBlockFile (s : BlockStore) (d : DiskCall) (size : Nat) : BlockStore × Option (Nat × Nat) :=
  if !d.diskSpace then (s, none) else appendLoop d size (uintMax + 1 - s.nCurrentBlockFile) s

def restart (s : BlockStore) : BlockStore := { s with nCurrentBlockFile := 1 }

end BlockStore

structure Allocation where
  nFile : Nat
  pos : Nat
  size : Nat
  deriving DecidableEq, Repr

namespace Allocation

def stop (a : Allocation) : Nat := a.pos + a.size

def Disjoint (a b : Allocation) : Prop := a.nFile = b.nFile → a.stop ≤ b.pos ∨ b.stop ≤ a.pos

end Allocation

namespace BlockStore

def Fresh (s : BlockStore) : Prop :=
  (∀ num, s.fileSize num ≤ blockfileMaxSize) ∧ (∀ num, s.blkReserved num = none) ∧
    s.nCurrentBlockFile = 1

inductive Run (start : BlockStore) : BlockStore → List Allocation → Prop
  | start : Run start start []
  | placed {s s' : BlockStore} {allocs : List Allocation} {d : DiskCall} {size nFile pos : Nat} :
    Run start s allocs → size ≤ maxBlockSize + 8 →
    s.appendBlockFile d size = (s', some (nFile, pos)) → Run start s' (⟨nFile, pos, size⟩ :: allocs)
  | failed {s s' : BlockStore} {allocs : List Allocation} {d : DiskCall} {size : Nat} :
    Run start s allocs → size ≤ maxBlockSize + 8 →
    s.appendBlockFile d size = (s', none) → Run start s' allocs
  | restart {s : BlockStore} {allocs : List Allocation} :
    Run start s allocs → Run start s.restart allocs

def reserved (s : BlockStore) (num : Nat) : Nat := (s.blkReserved num).getD 0

structure Sound (s : BlockStore) (allocs : List Allocation) : Prop where
  fileSize : ∀ num, s.fileSize num ≤ blockfileMaxSize
  reserved : ∀ num, s.reserved num ≤ s.fileSize num
  inFile : ∀ a ∈ allocs, a.stop + s.reserved a.nFile ≤ s.fileSize a.nFile
  disjoint : allocs.Pairwise Allocation.Disjoint

theorem toUint_of_lt {n : Nat} (h : n < 2 ^ 32) : toUint (n : Int) = n := by
  unfold toUint
  omega

theorem toSigned_of_lt {n : Nat} (h : n < 2 ^ 31) : toSigned 4 n = n := by
  rw [toSigned, if_pos h]

section Try

variable {s : BlockStore} {allocs : List Allocation} {d : DiskCall} {size : Nat}

theorem Sound.restart (h : s.Sound allocs) : s.restart.Sound allocs :=
  ⟨h.fileSize, h.reserved, h.inFile, h.disjoint⟩

theorem Sound.grow (h : s.Sound allocs) {num added : Nat}
    (hadded : s.fileSize num + added ≤ blockfileMaxSize) : (s.grow num added).Sound allocs := by
  have hsize : ∀ n, s.fileSize n ≤ (s.grow num added).fileSize n := by
    intro n
    simp only [BlockStore.grow, Function.update_apply]
    split
    · next heq =>
      rw [heq]
      omega
    · exact le_rfl
  refine ⟨fun n => ?_, fun n => (h.reserved n).trans (hsize n),
    fun a ha => (h.inFile a ha).trans (hsize a.nFile), h.disjoint⟩
  simp only [BlockStore.grow, Function.update_apply]
  split
  · exact hadded
  · exact h.fileSize n

theorem readBlockFileReserved_le (s : BlockStore) (readOk : Bool) (num : Nat) :
    s.readBlockFileReserved readOk num ≤ s.reserved num := by
  unfold readBlockFileReserved BlockStore.reserved
  cases s.blkReserved num with
  | none => exact le_rfl
  | some res =>
    dsimp only
    split
    · exact le_rfl
    · exact Nat.zero_le _

def TrySound (size : Nat) (allocs : List Allocation) : BlockStore × Tried → Prop
  | (s, .placed pos) => s.Sound (⟨s.nCurrentBlockFile, pos, size⟩ :: allocs)
  | (s, .next) => s.Sound allocs
  | (s, .error) => s.Sound allocs

-- Nothing wraps: the sizes and the reserve stay below the maximal file size.
theorem place_eq {r : Nat} (hsize : size ≤ r) (hr : r ≤ s.fileSize s.nCurrentBlockFile)
    (hmax : s.fileSize s.nCurrentBlockFile ≤ blockfileMaxSize) :
    s.place d size r =
      if !d.seekOk s.nCurrentBlockFile then (s, .error)
      else if !d.writeOk s.nCurrentBlockFile then (s, .error)
      else (s.writeBlockFileReserved s.nCurrentBlockFile (r - size),
        .placed (s.fileSize s.nCurrentBlockFile - r)) := by
  have hbound : blockfileMaxSize = 2130706432 := by decide
  have hseek : s.seekEnd s.nCurrentBlockFile (-(r : Int)) =
      some (s.fileSize s.nCurrentBlockFile - r) := by
    rw [seekEnd, if_neg (by omega)]
    exact congrArg some (by omega)
  have hleft : toUint ((r : Int) - size) = r - size := by
    rw [← Nat.cast_sub hsize]
    exact toUint_of_lt (by omega)
  simp only [place, hseek, hleft, toSigned_of_lt (show r - size < 2 ^ 31 by omega),
    toUint_of_lt (show r - size < 2 ^ 32 by omega)]

theorem tryFile_eq {r : Nat} (hsize : size ≤ maxBlockSize + 8)
    (hread : s.readBlockFileReserved (d.readOk s.nCurrentBlockFile) s.nCurrentBlockFile = r)
    (hr : r ≤ s.fileSize s.nCurrentBlockFile)
    (hmax : s.fileSize s.nCurrentBlockFile ≤ blockfileMaxSize) :
    s.tryFile d size =
      if s.nCurrentBlockFile = uintMax ∨ !d.opens s.nCurrentBlockFile then (s, .error)
      else if size ≤ r then s.place d size r
      else if s.fileSize s.nCurrentBlockFile + max blockfileChunkSize (size - r) ≤
          blockfileMaxSize then
        if !d.extendOk s.nCurrentBlockFile then
          (s.grow s.nCurrentBlockFile
            (min (d.grown s.nCurrentBlockFile) (max blockfileChunkSize (size - r))), .error)
        else (s.grow s.nCurrentBlockFile (max blockfileChunkSize (size - r))).place d size
          ((r + max blockfileChunkSize (size - r) : Nat) : Int)
      else ({ s with nCurrentBlockFile := s.nCurrentBlockFile + 1 }, .next) := by
  have hbound : blockfileMaxSize = 2130706432 := by decide
  have hchunk : blockfileChunkSize = 16777216 := by decide
  have hblock : maxBlockSize = 1000000 := rfl
  simp only [tryFile, hread]
  rw [toSigned_of_lt (show r < 2 ^ 31 by omega), toUint_of_lt (show r < 2 ^ 32 by omega),
    toUint_of_lt (show s.fileSize s.nCurrentBlockFile < 2 ^ 32 by omega)]
  split
  · rfl
  · split
    · rfl
    · have hmissing : toUint ((size : Int) - r) = size - r := by
        rw [← Nat.cast_sub (by omega)]
        exact toUint_of_lt (by omega)
      rw [if_neg (by omega), hmissing]
      generalize hadded : max blockfileChunkSize (size - r) = addedChunk
      have hadd : addedChunk ≤ blockfileChunkSize := by omega
      rw [← Nat.cast_add, toUint_of_lt (show s.fileSize s.nCurrentBlockFile + addedChunk < 2 ^ 32 by
        omega), ← Nat.cast_add, toUint_of_lt (show r + addedChunk < 2 ^ 32 by omega),
        toSigned_of_lt (show r + addedChunk < 2 ^ 31 by omega)]

-- The reserve r is what was read or what was added to it: never more than what lies free at the end.
theorem place_sound (h : s.Sound allocs) {r : Nat} (hsize : size ≤ r)
    (hr : r ≤ s.fileSize s.nCurrentBlockFile)
    (hfree : ∀ a ∈ allocs, a.nFile = s.nCurrentBlockFile → a.stop + r ≤ s.fileSize a.nFile) :
    TrySound size allocs (s.place d size r) := by
  rw [place_eq hsize hr (h.fileSize _)]
  split
  · exact h
  · split
    · exact h
    · have hkept : ∀ num, (s.writeBlockFileReserved s.nCurrentBlockFile (r - size)).reserved num =
          if num = s.nCurrentBlockFile then r - size else s.reserved num := by
        intro num
        simp only [BlockStore.reserved, writeBlockFileReserved, Function.update_apply]
        split <;> rfl
      refine ⟨h.fileSize, fun num => ?_, ?_, List.pairwise_cons.mpr ⟨?_, h.disjoint⟩⟩
      · rw [hkept]
        split
        · next hnum =>
          rw [hnum]
          exact (Nat.sub_le r size).trans hr
        · exact h.reserved num
      · intro a ha
        rw [hkept]
        rcases List.mem_cons.mp ha with rfl | ha
        · change s.fileSize s.nCurrentBlockFile - r + size +
            (if s.nCurrentBlockFile = s.nCurrentBlockFile then r - size else _) ≤
              s.fileSize s.nCurrentBlockFile
          rw [if_pos rfl]
          omega
        · split
          · next hfile =>
            have hlast := hfree a ha hfile
            simp only [writeBlockFileReserved]
            omega
          · exact h.inFile a ha
      · intro a ha hfile
        change s.nCurrentBlockFile = a.nFile at hfile
        have hlast := hfree a ha hfile.symm
        rw [← hfile] at hlast
        right
        change a.stop ≤ s.fileSize s.nCurrentBlockFile - r
        omega

theorem tryFile_sound (h : s.Sound allocs) (hsize : size ≤ maxBlockSize + 8) :
    TrySound size allocs (s.tryFile d size) := by
  have hread := s.readBlockFileReserved_le (d.readOk s.nCurrentBlockFile) s.nCurrentBlockFile
  generalize hr : s.readBlockFileReserved (d.readOk s.nCurrentBlockFile) s.nCurrentBlockFile = r
    at hread
  have hres := h.reserved s.nCurrentBlockFile
  have hfree : ∀ a ∈ allocs, a.nFile = s.nCurrentBlockFile → a.stop + r ≤ s.fileSize a.nFile := by
    intro a ha hfile
    have hin := h.inFile a ha
    rw [hfile] at hin ⊢
    omega
  rw [tryFile_eq hsize hr (hread.trans hres) (h.fileSize _)]
  generalize hadded : max blockfileChunkSize (size - r) = addedChunk
  split
  · exact h
  · split
    · next hfits => exact place_sound h hfits (hread.trans hres) hfree
    · split
      · next hroom =>
        split
        · exact h.grow (by omega)
        · have hfile : (s.grow s.nCurrentBlockFile addedChunk).fileSize s.nCurrentBlockFile =
              s.fileSize s.nCurrentBlockFile + addedChunk := Function.update_self ..
          refine place_sound (h.grow hroom) (by omega) ?_ (fun a ha hin => ?_)
          · change r + addedChunk ≤
              (s.grow s.nCurrentBlockFile addedChunk).fileSize s.nCurrentBlockFile
            omega
          · have hlast := hfree a ha hin
            change a.nFile = s.nCurrentBlockFile at hin
            rw [hin] at hlast ⊢
            omega
      · exact ⟨h.fileSize, h.reserved, h.inFile, h.disjoint⟩

theorem appendLoop_sound (hsize : size ≤ maxBlockSize + 8) (fuel : Nat) {s s' : BlockStore}
    (h : s.Sound allocs) {ret : Option (Nat × Nat)} (hrun : appendLoop d size fuel s = (s', ret)) :
    s'.Sound ((ret.map fun p => ⟨p.1, p.2, size⟩).toList ++ allocs) := by
  induction fuel generalizing s with
  | zero =>
    cases hrun
    exact h
  | succ fuel ih =>
    have htry := tryFile_sound (d := d) h hsize
    rw [appendLoop] at hrun
    generalize s.tryFile d size = p at htry hrun
    obtain ⟨t, o⟩ := p
    cases o with
    | next => exact ih htry hrun
    | error =>
      cases hrun
      exact htry
    | placed pos =>
      cases hrun
      exact htry

end Try

theorem Run.sound {start s : BlockStore} {allocs : List Allocation} (hstart : start.Fresh)
    (h : Run start s allocs) : s.Sound allocs := by
  have happend : ∀ {s s' : BlockStore} {allocs : List Allocation} {d : DiskCall} {size : Nat}
      {ret : Option (Nat × Nat)}, s.Sound allocs → size ≤ maxBlockSize + 8 →
      s.appendBlockFile d size = (s', ret) →
      s'.Sound ((ret.map fun p => ⟨p.1, p.2, size⟩).toList ++ allocs) := by
    intro s s' allocs d size ret hs hsize hrun
    unfold appendBlockFile at hrun
    split at hrun
    · cases hrun
      exact hs
    · exact appendLoop_sound hsize _ hs hrun
  induction h with
  | start =>
    refine ⟨hstart.1, fun num => ?_, nofun, .nil⟩
    rw [BlockStore.reserved, hstart.2.1]
    exact Nat.zero_le _
  | placed _ hsize hrun ih => exact happend ih hsize hrun
  | failed _ hsize hrun ih => exact happend ih hsize hrun
  | restart _ ih => exact ih.restart

theorem allocations_disjoint (start : BlockStore) (hstart : start.Fresh) (s : BlockStore)
    (allocs : List Allocation) (h : Run start s allocs) :
    allocs.Pairwise Allocation.Disjoint ∧
      (∀ a ∈ allocs, a.pos + a.size ≤ s.fileSize a.nFile) ∧
      (∀ num, s.fileSize num ≤ blockfileMaxSize) ∧
      (∀ a ∈ allocs, s.reserved a.nFile ≤ s.fileSize a.nFile - (a.pos + a.size)) ∧
      ∀ num, s.reserved num ≤ s.fileSize num := by
  have hsound := h.sound hstart
  refine ⟨hsound.disjoint, fun a ha => ?_, hsound.fileSize, fun a ha => ?_, hsound.reserved⟩
  · have hin := hsound.inFile a ha
    rw [Allocation.stop] at hin
    omega
  · have hin := hsound.inFile a ha
    rw [Allocation.stop] at hin
    omega

theorem Run.placed_call {start s : BlockStore} {allocs : List Allocation} (h : Run start s allocs)
    (d : DiskCall) (size : Nat) {p : Nat × Nat} (hsize : size ≤ maxBlockSize + 8)
    (hrun : (s.appendBlockFile d size).2 = some p) :
    Run start (s.appendBlockFile d size).1 (⟨p.1, p.2, size⟩ :: allocs) :=
  .placed h hsize (Prod.ext rfl hrun)

theorem Run.failed_call {start s : BlockStore} {allocs : List Allocation} (h : Run start s allocs)
    (d : DiskCall) (size : Nat) (hsize : size ≤ maxBlockSize + 8)
    (hrun : (s.appendBlockFile d size).2 = none) : Run start (s.appendBlockFile d size).1 allocs :=
  .failed h hsize (Prod.ext rfl hrun)

def emptyStore : BlockStore := ⟨fun _ => 0, fun _ => none, 1⟩

def goodDisk : DiskCall := ⟨true, fun _ => true, fun _ => true, fun _ => true, fun _ => true,
  fun _ => 0, fun _ => true⟩

def brokenDisk : DiskCall := { goodDisk with extendOk := fun _ => false, grown := fun _ => 100 }

theorem emptyStore_fresh : emptyStore.Fresh := ⟨fun _ => Nat.zero_le _, fun _ => rfl, rfl⟩

-- A failed extension leaves 100 bytes; the next call places its range behind them.
theorem allocations_after_failure :
    ∃ s, Run emptyStore s [⟨1, 300, 500⟩, ⟨1, 100, 200⟩] ∧
      ([⟨1, 300, 500⟩, ⟨1, 100, 200⟩] : List Allocation).Pairwise Allocation.Disjoint ∧
      ∀ num, s.reserved num ≤ s.fileSize num := by
  have hfailed := (Run.start : Run emptyStore emptyStore []).failed_call brokenDisk 7
    (by decide) (by decide +kernel)
  have hplaced := hfailed.placed_call goodDisk 200 (p := (1, 100)) (by decide)
    (by decide +kernel)
  have hrun := hplaced.restart.placed_call goodDisk 500 (p := (1, 300)) (by decide)
    (by decide +kernel)
  have hall := allocations_disjoint emptyStore emptyStore_fresh _ _ hrun
  exact ⟨_, hrun, hall.1, hall.2.2.2.2⟩

end BlockStore

end Namecoin
