import Namecoin.Lib.Framing
import Namecoin.Net.DataStream
import Namecoin.Chain.Search

namespace Namecoin

structure CMessageHeader where
  pchMessageStart : List UInt8
  pchCommand : List UInt8
  nMessageSize : Nat
  nChecksum : Nat

def headerSize (nVersion : Int) : Nat := 4 + 12 + 4 + if 209 ≤ nVersion then 4 else 0

def CMessageHeader.unserialize (nVersion : Int) (s : CDataStream) :
    Option (CMessageHeader × CDataStream) := do
  let (start, s) ← s.read 4
  let (command, s) ← s.read 12
  let (size, s) ← s.read 4
  if 209 ≤ nVersion then
    let (checksum, s) ← s.read 4
    some (⟨start, command, leNat size, leNat checksum⟩, s)
  else some (⟨start, command, leNat size, 0⟩, s)

def commandValid : List UInt8 → Bool
  | [] => true
  | c :: rest =>
    if c = 0 then rest.all (· == 0)
    else decide (0x20 ≤ c.toNat ∧ c.toNat ≤ 0x7e) && commandValid rest

def CMessageHeader.isValid (env : Env) (hdr : CMessageHeader) : Bool :=
  hdr.pchMessageStart == Namecoin.pchMessageStart env && commandValid hdr.pchCommand &&
    decide (hdr.nMessageSize ≤ maxSize)

def CMessageHeader.getCommand (hdr : CMessageHeader) : List UInt8 :=
  if hdr.pchCommand.getLast? = some 0 then hdr.pchCommand.takeWhile (· != 0) else hdr.pchCommand

structure Message where
  strCommand : List UInt8
  vMsg : List UInt8
  deriving DecidableEq, Repr

def checksumOf (env : Env) (data : List UInt8) : Nat := leNat ((serHash (env.hash data)).take 4)

inductive Received where
  | failure
  | wait (vRecv : CDataStream)
  | took (msg : Option Message) (vRecv : CDataStream)

def nextMessage (env : Env) (nVersion : Int) (vRecv : CDataStream) : Received :=
  let nHeaderSize := headerSize nVersion
  let pstart := (search (pchMessageStart env) vRecv.bytes 0).getD vRecv.size
  if vRecv.size - pstart < nHeaderSize then
    .wait (if nHeaderSize < vRecv.size then vRecv.erase (vRecv.size - nHeaderSize) else vRecv)
  else
    let vRecv := vRecv.erase pstart
    let vHeaderSave := vRecv.bytes.take nHeaderSize
    match CMessageHeader.unserialize nVersion vRecv with
    | none => .failure
    | some (hdr, vRecv) =>
      if hdr.isValid env = false then .took none vRecv
      else if maxSize < hdr.nMessageSize then .took none vRecv
      else if vRecv.size < hdr.nMessageSize then .wait (vRecv.insert vHeaderSave)
      else if 209 ≤ nVersion ∧
          checksumOf env (vRecv.bytes.take hdr.nMessageSize) ≠ hdr.nChecksum then
        .took none vRecv
      else
        let vMsg := vRecv.bytes.take hdr.nMessageSize
        match vRecv.ignore hdr.nMessageSize with
        | none => .failure
        | some vRecv => .took (some ⟨hdr.getCommand, vMsg⟩) vRecv

def messageLoop (env : Env) (nVersion : Int) : Nat → CDataStream → List Message × CDataStream
  | 0, vRecv => ([], vRecv)
  | fuel + 1, vRecv =>
    match nextMessage env nVersion vRecv with
    | .failure => ([], vRecv)
    | .wait vRecv => ([], vRecv)
    | .took msg vRecv =>
      let r := messageLoop env nVersion fuel vRecv
      (msg.toList ++ r.1, r.2)

def processMessages (env : Env) (nVersion : Int) (vRecv : CDataStream) :
    List Message × CDataStream :=
  if vRecv.size = 0 then ([], vRecv)
  else
    let r := messageLoop env nVersion (vRecv.size + 1) vRecv
    (r.1, r.2.compact)

def receive (env : Env) (nVersion : Int) (vRecv : CDataStream) :
    List (List UInt8) → List Message × CDataStream
  | [] => ([], vRecv)
  | chunk :: chunks =>
    let r := processMessages env nVersion (vRecv.append chunk)
    let t := receive env nVersion r.2 chunks
    (r.1 ++ t.1, t.2)

def headerOf (nVersion : Int) (r : List UInt8) : CMessageHeader :=
  ⟨r.take 4, (r.drop 4).take 12, leNat ((r.drop 16).take 4),
    if 209 ≤ nVersion then leNat ((r.drop 20).take 4) else 0⟩

def frameAt (env : Env) (nVersion : Int) (r : List UInt8) : Framing.Step UInt8 Message :=
  let hdr := headerOf nVersion r
  let body := r.drop (headerSize nVersion)
  if hdr.isValid env = false then .take none body
  else if body.length < hdr.nMessageSize then .wait r
  else if 209 ≤ nVersion ∧ checksumOf env (body.take hdr.nMessageSize) ≠ hdr.nChecksum then
    .take none body
  else .take (some ⟨hdr.getCommand, body.take hdr.nMessageSize⟩) (body.drop hdr.nMessageSize)

def startOf (env : Env) (b : List UInt8) : Nat := (search (pchMessageStart env) b 0).getD b.length

def frame (env : Env) (nVersion : Int) (b : List UInt8) : Framing.Step UInt8 Message :=
  if b.length - startOf env b < headerSize nVersion then
    .wait (b.drop (b.length - headerSize nVersion))
  else frameAt env nVersion (b.drop (startOf env b))

theorem headerSize_ge (nVersion : Int) : 20 ≤ headerSize nVersion := by
  unfold headerSize
  omega

theorem not_prefix_before_start {env : Env} {b : List UInt8} {q : Nat} (hq : q < startOf env b) :
    ¬ pchMessageStart env <+: b.drop q := by
  unfold startOf at hq
  cases h : search (pchMessageStart env) b 0 with
  | none => exact search_none h q
  | some p =>
    rw [h] at hq
    exact search_first h q hq

theorem prefix_at_start {env : Env} {b : List UInt8} (hlt : startOf env b < b.length) :
    pchMessageStart env <+: b.drop (startOf env b) := by
  unfold startOf at hlt ⊢
  cases h : search (pchMessageStart env) b 0 with
  | none =>
    rw [h] at hlt
    exact absurd hlt (Nat.lt_irrefl _)
  | some p =>
    obtain ⟨pre, post, hb, hp⟩ := search_some h
    have hpre : p = pre.length := by omega
    rw [hb, hpre, Option.getD_some, List.append_assoc, List.drop_left]
    exact List.prefix_append _ _

theorem startOf_eq {env : Env} {b : List UInt8} {p : Nat}
    (hat : pchMessageStart env <+: b.drop p)
    (hbefore : ∀ q < p, ¬ pchMessageStart env <+: b.drop q) : startOf env b = p := by
  have hlen := hat.length_le
  rw [pchMessageStart_length, List.length_drop] at hlen
  have hle : startOf env b ≤ p := by
    by_contra hgt
    exact not_prefix_before_start (by omega) hat
  have hfound := @prefix_at_start env b (by omega)
  by_contra hne
  exact hbefore _ (by omega) hfound

theorem startOf_le (env : Env) (b : List UInt8) : startOf env b ≤ b.length := by
  unfold startOf
  cases hs : search (pchMessageStart env) b 0 with
  | none => exact Nat.le_refl _
  | some p =>
    obtain ⟨pre, post, hb, hp⟩ := search_some hs
    rw [hb, Option.getD_some]
    simp only [List.length_append]
    omega

theorem startOf_none {env : Env} {b : List UInt8}
    (h : ∀ q < b.length, ¬ pchMessageStart env <+: b.drop q) : startOf env b = b.length := by
  have hle := startOf_le env b
  by_contra hne
  exact h _ (by omega) (prefix_at_start (by omega))

theorem startOf_drop {env : Env} {b : List UInt8} {d : Nat} (hd : d ≤ b.length)
    (hbefore : ∀ q < d, ¬ pchMessageStart env <+: b.drop q) :
    startOf env b = d + startOf env (b.drop d) := by
  have hall : ∀ q < d + startOf env (b.drop d), ¬ pchMessageStart env <+: b.drop q := by
    intro q hq
    by_cases hqd : q < d
    · exact hbefore q hqd
    · have hsplit : q = d + (q - d) := by omega
      rw [hsplit, ← List.drop_drop]
      exact not_prefix_before_start (by omega)
  by_cases hlt : startOf env (b.drop d) < (b.drop d).length
  · refine startOf_eq ?_ hall
    rw [← List.drop_drop]
    exact prefix_at_start hlt
  · have hend := startOf_le env (b.drop d)
    rw [List.length_drop] at hlt hend
    have hlen : d + startOf env (b.drop d) = b.length := by omega
    rw [hlen] at hall ⊢
    exact startOf_none hall

theorem prefix_of_append {env : Env} {b c : List UInt8} {q : Nat} (hq : q + 4 ≤ b.length)
    (h : pchMessageStart env <+: (b ++ c).drop q) : pchMessageStart env <+: b.drop q := by
  rw [List.drop_append_of_le_length (by omega)] at h
  refine List.prefix_of_prefix_length_le h (List.prefix_append _ _) ?_
  rw [pchMessageStart_length, List.length_drop]
  omega

theorem startOf_append {env : Env} {b : List UInt8} (c : List UInt8)
    (h : startOf env b + 4 ≤ b.length) : startOf env (b ++ c) = startOf env b := by
  refine startOf_eq ?_ ?_
  · rw [List.drop_append_of_le_length (by omega)]
    exact (prefix_at_start (by omega)).trans (List.prefix_append _ _)
  · intro q hq hpre
    exact not_prefix_before_start hq (prefix_of_append (by omega) hpre)

theorem headerOf_append {nVersion : Int} {r : List UInt8} (c : List UInt8)
    (h : headerSize nVersion ≤ r.length) : headerOf nVersion (r ++ c) = headerOf nVersion r := by
  have hge := headerSize_ge nVersion
  have hslice : ∀ d n, d + n ≤ r.length → ((r ++ c).drop d).take n = (r.drop d).take n := by
    intro d n hdn
    rw [List.drop_append_of_le_length (by omega),
      List.take_append_of_le_length (by rw [List.length_drop]; omega)]
  have hstart := hslice 0 4 (by omega)
  rw [List.drop_zero, List.drop_zero] at hstart
  unfold headerOf
  rw [hstart, hslice 4 12 (by omega), hslice 16 4 (by omega)]
  by_cases hversion : 209 ≤ nVersion
  · have hsize : headerSize nVersion = 24 := by simp [headerSize, hversion]
    rw [hslice 20 4 (by omega)]
  · rw [if_neg hversion, if_neg hversion]

theorem frameAt_wait {env : Env} {nVersion : Int} {r rest : List UInt8}
    (h : frameAt env nVersion r = .wait rest) : rest = r := by
  simp only [frameAt] at h
  repeat' split at h
  all_goals cases h
  rfl

theorem frameAt_stable {env : Env} {nVersion : Int} {r rest : List UInt8} {msg : Option Message}
    (c : List UInt8) (hr : headerSize nVersion ≤ r.length)
    (h : frameAt env nVersion r = .take msg rest) :
    frameAt env nVersion (r ++ c) = .take msg (rest ++ c) := by
  have hbody : (r ++ c).drop (headerSize nVersion) = r.drop (headerSize nVersion) ++ c :=
    List.drop_append_of_le_length hr
  simp only [frameAt] at h ⊢
  rw [headerOf_append c hr, hbody]
  generalize headerOf nVersion r = hdr at h ⊢
  generalize r.drop (headerSize nVersion) = body at h ⊢
  by_cases hvalid : hdr.isValid env = false
  · rw [if_pos hvalid] at h ⊢
    cases h
    rfl
  rw [if_neg hvalid] at h ⊢
  by_cases hshort : body.length < hdr.nMessageSize
  · rw [if_pos hshort] at h
    cases h
  rw [if_neg hshort] at h
  have hlong : ¬ (body ++ c).length < hdr.nMessageSize := by
    rw [List.length_append]
    omega
  rw [if_neg hlong, List.take_append_of_le_length (by omega),
    List.drop_append_of_le_length (by omega)]
  split at h
  · next hsum =>
    cases h
    rw [if_pos hsum]
  · next hsum =>
    cases h
    rw [if_neg hsum]

theorem frameAt_shrinks {env : Env} {nVersion : Int} {r rest : List UInt8} {msg : Option Message}
    (hr : headerSize nVersion ≤ r.length) (h : frameAt env nVersion r = .take msg rest) :
    rest.length < r.length := by
  have hge := headerSize_ge nVersion
  simp only [frameAt] at h
  repeat' split at h
  all_goals cases h
  all_goals simp only [List.length_drop]; omega

theorem frame_drop {env : Env} {nVersion : Int} {x : List UInt8} {d : Nat}
    (hd : d ≤ x.length - headerSize nVersion)
    (hbefore : ∀ q < d, ¬ pchMessageStart env <+: x.drop q) :
    frame env nVersion x = frame env nVersion (x.drop d) := by
  unfold frame
  rw [startOf_drop (by omega) hbefore, List.length_drop, List.drop_drop, List.drop_drop]
  have hleft : x.length - (d + startOf env (x.drop d)) =
      x.length - d - startOf env (x.drop d) := by omega
  have hkeep : d + (x.length - d - headerSize nVersion) = x.length - headerSize nVersion := by
    omega
  rw [hleft, hkeep]

theorem frame_take {env : Env} {nVersion : Int} {b rest : List UInt8} {msg : Option Message}
    (h : frame env nVersion b = .take msg rest) :
    startOf env b + headerSize nVersion ≤ b.length ∧
      frameAt env nVersion (b.drop (startOf env b)) = .take msg rest := by
  have hle := startOf_le env b
  unfold frame at h
  split at h
  · cases h
  · exact ⟨by omega, h⟩

theorem frame_stable {env : Env} {nVersion : Int} {b rest : List UInt8} {msg : Option Message}
    (c : List UInt8) (h : frame env nVersion b = .take msg rest) :
    frame env nVersion (b ++ c) = .take msg (rest ++ c) := by
  have hge := headerSize_ge nVersion
  obtain ⟨hlong, hat⟩ := frame_take h
  rw [frame, startOf_append c (by omega), if_neg (by rw [List.length_append]; omega),
    List.drop_append_of_le_length (by omega)]
  exact frameAt_stable c (by rw [List.length_drop]; omega) hat

theorem frame_resumes {env : Env} {nVersion : Int} {b rest : List UInt8} (c : List UInt8)
    (h : frame env nVersion b = .wait rest) :
    frame env nVersion (b ++ c) = frame env nVersion (rest ++ c) := by
  have hge := headerSize_ge nVersion
  obtain ⟨d, hstart, hd, rfl⟩ : ∃ d, d ≤ startOf env b ∧ d ≤ b.length - headerSize nVersion ∧
      rest = b.drop d := by
    unfold frame at h
    split at h
    · cases h
      exact ⟨b.length - headerSize nVersion, by omega, Nat.le_refl _, rfl⟩
    · exact ⟨startOf env b, Nat.le_refl _, by omega, frameAt_wait h⟩
  rw [← List.drop_append_of_le_length (by omega)]
  refine frame_drop (by rw [List.length_append]; omega) fun q hq hpre => ?_
  exact not_prefix_before_start (by omega) (prefix_of_append (by omega) hpre)

def messageFramer (env : Env) (nVersion : Int) : Framing.Framer UInt8 Message where
  next := frame env nVersion
  shrinks {b msg rest} h := by
    obtain ⟨hlong, hat⟩ := frame_take h
    have hlt := frameAt_shrinks (by rw [List.length_drop]; omega) hat
    rw [List.length_drop] at hlt
    omega
  stable c h := frame_stable c h
  resumes c h := frame_resumes c h

def Received.view : Received → Option (Framing.Step UInt8 Message)
  | .failure => none
  | .wait vRecv => some (.wait vRecv.bytes)
  | .took msg vRecv => some (.take msg vRecv.bytes)

theorem unserialize_headerOf {nVersion : Int} {s : CDataStream}
    (h : headerSize nVersion ≤ s.bytes.length) :
    ∃ t, CMessageHeader.unserialize nVersion s = some (headerOf nVersion s.bytes, t) ∧
      t.bytes = s.bytes.drop (headerSize nVersion) := by
  have hge := headerSize_ge nVersion
  obtain ⟨s₁, h₁, hb₁⟩ := CDataStream.read_some (by omega : 4 ≤ s.bytes.length)
  obtain ⟨s₂, h₂, hb₂⟩ := CDataStream.read_some
    (by rw [hb₁, List.length_drop]; omega : 12 ≤ s₁.bytes.length)
  rw [hb₁, List.drop_drop] at hb₂
  obtain ⟨s₃, h₃, hb₃⟩ := CDataStream.read_some
    (by rw [hb₂, List.length_drop]; omega : 4 ≤ s₂.bytes.length)
  rw [hb₂, List.drop_drop] at hb₃
  by_cases hversion : 209 ≤ nVersion
  · have hsize : headerSize nVersion = 24 := by simp [headerSize, hversion]
    obtain ⟨s₄, h₄, hb₄⟩ := CDataStream.read_some
      (by rw [hb₃, List.length_drop]; omega : 4 ≤ s₃.bytes.length)
    rw [hb₃, List.drop_drop] at hb₄
    refine ⟨s₄, ?_, by rw [hb₄, hsize]⟩
    simp [CMessageHeader.unserialize, headerOf, h₁, h₂, h₃, h₄, hb₁, hb₂, hb₃, hversion]
  · have hsize : headerSize nVersion = 20 := by simp [headerSize, hversion]
    refine ⟨s₃, ?_, by rw [hb₃, hsize]⟩
    simp [CMessageHeader.unserialize, headerOf, h₁, h₂, h₃, hb₁, hb₂, hversion]

theorem isValid_size {env : Env} {hdr : CMessageHeader} (h : ¬ hdr.isValid env = false) :
    ¬ maxSize < hdr.nMessageSize := by
  simp only [CMessageHeader.isValid, Bool.not_eq_false, Bool.and_eq_true, decide_eq_true_eq] at h
  omega

theorem nextMessage_view (env : Env) (nVersion : Int) (s : CDataStream) :
    (nextMessage env nVersion s).view = some (frame env nVersion s.bytes) := by
  have hlen := s.length_bytes
  have hle := startOf_le env s.bytes
  have hstart : (search (pchMessageStart env) s.bytes 0).getD s.size = startOf env s.bytes := by
    rw [startOf, hlen]
  simp only [nextMessage, frame]
  rw [hstart, ← hlen]
  split
  · by_cases hmore : headerSize nVersion < s.bytes.length
    · rw [if_pos hmore, Received.view, CDataStream.bytes_erase]
    · rw [if_neg hmore, Received.view, Nat.sub_eq_zero_of_le (by omega), List.drop_zero]
  · next hlong =>
    have hbytes := s.bytes_erase (startOf env s.bytes)
    have hroom : headerSize nVersion ≤ (s.erase (startOf env s.bytes)).bytes.length := by
      rw [hbytes, List.length_drop]
      omega
    obtain ⟨t, hhdr, htbytes⟩ := unserialize_headerOf hroom
    rw [hhdr, ← hbytes]
    generalize s.erase (startOf env s.bytes) = r at *
    simp only [frameAt]
    rw [← htbytes, ← t.length_bytes]
    generalize headerOf nVersion r.bytes = hdr
    by_cases hvalid : hdr.isValid env = false
    · rw [if_pos hvalid, if_pos hvalid, Received.view]
    rw [if_neg hvalid, if_neg hvalid, if_neg (isValid_size hvalid)]
    by_cases hshort : t.bytes.length < hdr.nMessageSize
    · rw [if_pos hshort, if_pos hshort, Received.view, CDataStream.bytes_insert, htbytes,
        List.take_append_drop]
    rw [if_neg hshort, if_neg hshort]
    by_cases hsum : 209 ≤ nVersion ∧
        checksumOf env (t.bytes.take hdr.nMessageSize) ≠ hdr.nChecksum
    · rw [if_pos hsum, if_pos hsum, Received.view]
    obtain ⟨u, hignore, hubytes⟩ :=
      CDataStream.ignore_some (by omega : hdr.nMessageSize ≤ t.bytes.length)
    rw [if_neg hsum, if_neg hsum, hignore, ← hubytes]
    rfl

theorem messageLoop_run {env : Env} {nVersion : Int} {fuel : Nat} {s : CDataStream}
    (hfuel : s.bytes.length < fuel) :
    (messageLoop env nVersion fuel s).1 = ((messageFramer env nVersion).run s.bytes).1 ∧
      (messageLoop env nVersion fuel s).2.bytes = ((messageFramer env nVersion).run s.bytes).2 := by
  induction fuel generalizing s with
  | zero => cases hfuel
  | succ fuel ih =>
    have hview := nextMessage_view env nVersion s
    rw [messageLoop]
    split
    · next hnext =>
      rw [hnext] at hview
      cases hview
    · next t hnext =>
      rw [hnext] at hview
      rw [(messageFramer env nVersion).run_wait (Option.some.inj hview).symm]
      exact ⟨rfl, rfl⟩
    · next msg t hnext =>
      rw [hnext] at hview
      have htake : (messageFramer env nVersion).next s.bytes = .take msg t.bytes :=
        (Option.some.inj hview).symm
      have hlt := (messageFramer env nVersion).shrinks htake
      obtain ⟨hmsgs, hrest⟩ := ih (by omega : t.bytes.length < fuel)
      rw [(messageFramer env nVersion).run_take htake]
      exact ⟨congrArg (msg.toList ++ ·) hmsgs, hrest⟩

theorem run_nil (env : Env) (nVersion : Int) : (messageFramer env nVersion).run [] = ([], []) := by
  have hge := headerSize_ge nVersion
  have hwait : (messageFramer env nVersion).next [] = .wait [] := by
    change frame env nVersion [] = .wait []
    rw [frame, List.length_nil, if_pos (by omega), List.drop_nil]
  exact (messageFramer env nVersion).run_wait hwait

theorem processMessages_run (env : Env) (nVersion : Int) (s : CDataStream) :
    (processMessages env nVersion s).1 = ((messageFramer env nVersion).run s.bytes).1 ∧
      (processMessages env nVersion s).2.bytes =
        ((messageFramer env nVersion).run s.bytes).2 := by
  have hlen := s.length_bytes
  unfold processMessages
  split
  · next hzero =>
    have hnil : s.bytes = [] := List.length_eq_zero_iff.mp (hlen.trans hzero)
    rw [hnil, run_nil]
    exact ⟨rfl, rfl⟩
  · exact messageLoop_run (by omega)

theorem receive_feed (env : Env) (nVersion : Int) (s : CDataStream) (chunks : List (List UInt8)) :
    (receive env nVersion s chunks).1 = ((messageFramer env nVersion).feed s.bytes chunks).1 := by
  induction chunks generalizing s with
  | nil => rfl
  | cons chunk chunks ih =>
    obtain ⟨hmsgs, hrest⟩ := processMessages_run env nVersion (s.append chunk)
    rw [CDataStream.bytes_append] at hmsgs hrest
    simp only [receive, Framing.Framer.feed]
    rw [ih, hmsgs, hrest]

theorem framing_independent (env : Env) (nVersion : Int) (chunks : List (List UInt8)) :
    (receive env nVersion CDataStream.empty chunks).1 =
      (processMessages env nVersion (CDataStream.empty.append chunks.flatten)).1 := by
  rw [receive_feed, (processMessages_run env nVersion _).1, CDataStream.bytes_append,
    CDataStream.bytes_empty,
    Framing.Framer.feed_eq_run (messageFramer env nVersion) (run_nil env nVersion)]

end Namecoin
