import Namecoin.Net.Locator
import Namecoin.Node.Readable

namespace Namecoin

-- The blocks that the loop hands to PushInventory, in their order.
structure BlocksReply where
  inventory : List Uint256
  hashContinue : Option Uint256

def BlocksReply.cons (hash : Uint256) (r : BlocksReply) : BlocksReply :=
  { r with inventory := hash :: r.inventory }

def CBlock.null : CBlock := ⟨⟨1, 0, 0, 0, 0, 0⟩, [], none⟩

section Serve

variable (s : NodeState)

def blockSize (pindex : CBlockIndex) : Nat :=
  ((s.disk.readBlock pindex.nFile pindex.nBlockPos).getD CBlock.null).getSerializeSize

def getBlockHeader (pindex : CBlockIndex) : Except Fault CBlock :=
  match s.disk.readBlock pindex.nFile pindex.nBlockPos with
  | none => .error (.exception "CBlock::ReadFromDisk failed while retrieving auxpow")
  | some b => .ok { b with vtx := [] }

def pushBlocks (hashStop : Uint256) (nHalf : Nat) :
    Nat → Option Uint256 → Int → Nat → Except Fault BlocksReply
  | 0, _, _, _ => .error .undefined
  | fuel + 1, pindex, nLimit, nBytes =>
    match pindex.bind s.mapBlockIndex with
    | none => .ok ⟨[], none⟩
    | some pindex =>
      if pindex.hashBlock = hashStop then .ok ⟨[], none⟩
      else
        let nBytes := (nBytes + blockSize s pindex) % 2 ^ 32
        if nLimit - 1 ≤ 0 ∨ nHalf ≤ nBytes then .ok ⟨[pindex.hashBlock], some pindex.hashBlock⟩
        else (pushBlocks hashStop nHalf fuel pindex.pnext (nLimit - 1) nBytes).map
          (BlocksReply.cons pindex.hashBlock)

def getblocks (nSendBuffer fuel : Nat) (vHave : List Uint256) (hashStop : Uint256) :
    Except Fault BlocksReply := do
  let pindex := (locatorIndex s vHave).bind (nextOf s.mapBlockIndex)
  let nDistance ← CBlockLocator.getDistanceBack s vHave
  let nLimit ← toInt (500 + nDistance)
  pushBlocks s hashStop (nSendBuffer / 2) fuel pindex nLimit 0

def pushHeaders (hashStop : Uint256) : Nat → Option Uint256 → Int → Except Fault (List CBlock)
  | 0, _, _ => .error .undefined
  | fuel + 1, pindex, nLimit =>
    match pindex.bind s.mapBlockIndex with
    | none => .ok []
    | some pindex => do
      let header ← getBlockHeader s pindex
      if nLimit - 1 ≤ 0 ∨ pindex.hashBlock = hashStop then .ok [header]
      else (pushHeaders hashStop fuel pindex.pnext (nLimit - 1)).map (List.cons header)

def getheaders (fuel : Nat) (vHave : List Uint256) (hashStop : Uint256) :
    Except Fault (Option (List CBlock)) :=
  -- If locator is null, return the hashStop block
  if vHave = [] ∧ s.mapBlockIndex hashStop = none then .ok none
  else do
    let pindex := if vHave = [] then some hashStop
      else (locatorIndex s vHave).bind (nextOf s.mapBlockIndex)
    let nDistance ← CBlockLocator.getDistanceBack s vHave
    let nLimit ← toInt (2000 + nDistance)
    (pushHeaders s hashStop fuel pindex nLimit).map some

end Serve

def upToStop (hashStop : Uint256) : List CBlockIndex → List CBlockIndex
  | [] => []
  | pindex :: rest =>
    if pindex.hashBlock = hashStop then [pindex] else pindex :: upToStop hashStop rest

structure Following (s : NodeState) (x : Uint256) (chain : List CBlockIndex) : Prop where
  mem : ∀ p, p ∈ chain ↔
    s.mapBlockIndex p.hashBlock = some p ∧ isInMainChain s p ∧ heightOf s.mapBlockIndex x < p.nHeight
  heights : chain.map CBlockIndex.nHeight =
    List.range' (heightOf s.mapBlockIndex x + 1) chain.length

def beforeStop (hashStop : Uint256) (chain : List CBlockIndex) : List CBlockIndex :=
  chain.takeWhile (fun pindex => decide (pindex.hashBlock ≠ hashStop))

def sentBytes (s : NodeState) (nBytes : Nat) (l : List CBlockIndex) : Nat :=
  (nBytes + (l.map (blockSize s)).sum) % 2 ^ 32

structure BlocksServed (s : NodeState) (nHalf nBytes : Nat) (nLimit : Int) (wanted : List CBlockIndex)
    (n : Nat) : Prop where
  limit : (n : Int) ≤ nLimit
  stops : n = wanted.length ∨ (n : Int) = nLimit ∨ nHalf ≤ sentBytes s nBytes (wanted.take n)
  earlier : ∀ m, 0 < m → m < n → sentBytes s nBytes (wanted.take m) < nHalf

def blockHeaderOf (s : NodeState) (pindex : CBlockIndex) : CBlock :=
  { (s.disk.readBlock pindex.nFile pindex.nBlockPos).getD CBlock.null with vtx := [] }

def PnextChain (m : BlockMap) : Option Uint256 → List CBlockIndex → Prop
  | h, [] => h.bind m = none
  | h, pindex :: rest => h.bind m = some pindex ∧ PnextChain m pindex.pnext rest

section Serve

variable {s : NodeState} {hashStop x : Uint256} {chain : List CBlockIndex} {nLimit : Int}
  {h : Option Uint256}

theorem sentBytes_cons (nBytes : Nat) (pindex : CBlockIndex) (l : List CBlockIndex) :
    sentBytes s nBytes (pindex :: l) = sentBytes s ((nBytes + blockSize s pindex) % 2 ^ 32) l := by
  rw [sentBytes, sentBytes, List.map_cons, List.sum_cons, Nat.mod_add_mod, Nat.add_assoc]

theorem BlocksServed.cons {nHalf nBytes n : Nat} {wanted : List CBlockIndex} {pindex : CBlockIndex}
    (hless : ¬nHalf ≤ (nBytes + blockSize s pindex) % 2 ^ 32)
    (hrest : BlocksServed s nHalf ((nBytes + blockSize s pindex) % 2 ^ 32) (nLimit - 1) wanted n) :
    BlocksServed s nHalf nBytes nLimit (pindex :: wanted) (n + 1) where
  limit := by
    have hlimit := hrest.limit
    omega
  stops := by
    rw [List.take_succ_cons, sentBytes_cons, List.length_cons]
    rcases hrest.stops with hall | hfull | hbytes
    · exact .inl (congrArg (· + 1) hall)
    · exact .inr (.inl (by omega))
    · exact .inr (.inr hbytes)
  earlier := by
    intro m hpos hlt
    obtain ⟨m, rfl⟩ : ∃ k, m = k + 1 := ⟨m - 1, by omega⟩
    rw [List.take_succ_cons, sentBytes_cons]
    rcases Nat.eq_zero_or_pos m with rfl | hm
    · rw [List.take_zero, sentBytes, List.map_nil, List.sum_nil, Nat.add_zero, Nat.mod_mod]
      exact Nat.lt_of_not_le hless
    · exact hrest.earlier m hm (by omega)

theorem pushBlocks_served {nHalf nBytes fuel : Nat} (hchain : PnextChain s.mapBlockIndex h chain)
    (hfuel : chain.length < fuel) (hlimit : 1 ≤ nLimit) :
    ∃ r n, pushBlocks s hashStop nHalf fuel h nLimit nBytes = .ok r ∧
      r.inventory = ((beforeStop hashStop chain).take n).map CBlockIndex.hashBlock ∧
      BlocksServed s nHalf nBytes nLimit (beforeStop hashStop chain) n := by
  induction chain generalizing h fuel nLimit nBytes with
  | nil =>
    obtain ⟨fuel, rfl⟩ : ∃ k, fuel = k + 1 := ⟨fuel - 1, by omega⟩
    have hnull : h.bind s.mapBlockIndex = none := hchain
    refine ⟨⟨[], none⟩, 0, by rw [pushBlocks, hnull], rfl, ⟨by omega, .inl rfl, ?_⟩⟩
    intro m hpos hlt
    omega
  | cons pindex rest ih =>
    obtain ⟨fuel, rfl⟩ : ∃ k, fuel = k + 1 := ⟨fuel - 1, by omega⟩
    obtain ⟨hpindex, hrest⟩ := hchain
    rw [pushBlocks, hpindex]
    dsimp only
    split
    · rename_i hstop
      have hnone : beforeStop hashStop (pindex :: rest) = [] :=
        List.takeWhile_cons_of_neg (by simp [hstop])
      rw [hnone]
      refine ⟨⟨[], none⟩, 0, rfl, rfl, ⟨by omega, .inl rfl, ?_⟩⟩
      intro m hpos hlt
      omega
    · rename_i hother
      have hmore : beforeStop hashStop (pindex :: rest) = pindex :: beforeStop hashStop rest :=
        List.takeWhile_cons_of_pos (by simp [hother])
      rw [hmore]
      split
      · rename_i hlast
        refine ⟨_, 1, rfl, by simp, ⟨by omega, ?_, fun m hpos hlt => absurd hlt (by omega)⟩⟩
        rcases hlast with hend | hfull
        · exact .inr (.inl (by omega))
        · refine .inr (.inr ?_)
          rw [List.take_succ_cons, List.take_zero, sentBytes_cons, sentBytes, List.map_nil,
            List.sum_nil, Nat.add_zero, Nat.mod_mod]
          exact hfull
      · rename_i hroom
        rw [not_or] at hroom
        have hnext : 1 ≤ nLimit - 1 := by omega
        obtain ⟨r, n, hrun, hinventory, hserved⟩ :=
          @ih (nLimit - 1) pindex.pnext ((nBytes + blockSize s pindex) % 2 ^ 32) fuel hrest
            (Nat.lt_of_succ_lt_succ hfuel) hnext
        refine ⟨r.cons pindex.hashBlock, n + 1, by rw [hrun]; rfl, ?_,
          hserved.cons hroom.2⟩
        rw [List.take_succ_cons, List.map_cons, ← hinventory]
        rfl

theorem getBlockHeader_eq {pindex : CBlockIndex}
    (h : (s.disk.readBlock pindex.nFile pindex.nBlockPos).isSome) :
    getBlockHeader s pindex = .ok (blockHeaderOf s pindex) := by
  obtain ⟨b, hb⟩ := Option.isSome_iff_exists.mp h
  rw [getBlockHeader, blockHeaderOf, hb]
  rfl

theorem pushHeaders_served {fuel : Nat} (hchain : PnextChain s.mapBlockIndex h chain)
    (hread : ∀ p ∈ chain, (s.disk.readBlock p.nFile p.nBlockPos).isSome)
    (hfuel : chain.length < fuel) (hlimit : 1 ≤ nLimit) :
    pushHeaders s hashStop fuel h nLimit =
      .ok (((upToStop hashStop chain).take nLimit.toNat).map (blockHeaderOf s)) := by
  induction chain generalizing h fuel nLimit with
  | nil =>
    obtain ⟨fuel, rfl⟩ : ∃ k, fuel = k + 1 := ⟨fuel - 1, by omega⟩
    have hnull : h.bind s.mapBlockIndex = none := hchain
    rw [pushHeaders, hnull, upToStop, List.take_nil]
    rfl
  | cons pindex rest ih =>
    obtain ⟨fuel, rfl⟩ : ∃ k, fuel = k + 1 := ⟨fuel - 1, by omega⟩
    obtain ⟨k, rfl⟩ : ∃ k : Nat, nLimit = k + 1 := ⟨(nLimit - 1).toNat, by omega⟩
    obtain ⟨hpindex, hrest⟩ := hchain
    have hk : ((k : Int) + 1).toNat = k + 1 := by omega
    rw [pushHeaders, hpindex, hk, upToStop]
    dsimp only
    rw [getBlockHeader_eq (hread pindex List.mem_cons_self)]
    change (if (k : Int) + 1 - 1 ≤ 0 ∨ pindex.hashBlock = hashStop then _ else _) = _
    split
    · rename_i hlast
      split
      · rw [List.take_succ_cons, List.take_nil]
        rfl
      · rename_i hother
        obtain rfl : k = 0 := by
          rcases hlast with hend | hstop
          · omega
          · exact absurd hstop hother
        rfl
    · rename_i hroom
      rw [not_or] at hroom
      rw [if_neg hroom.2, ih hrest (fun p hp => hread p (List.mem_cons_of_mem _ hp))
        (Nat.lt_of_succ_lt_succ hfuel) (by omega), show ((k : Int) + 1 - 1).toNat = k by omega]
      rfl

theorem TreeOk.following {genesis best : Uint256} (hok : TreeOk s.tree genesis best)
    (hx : Forest.Anc (parentOf s.mapBlockIndex) x best) :
    ∃ chain, PnextChain s.mapBlockIndex (nextOf s.mapBlockIndex x) chain ∧ Following s x chain ∧
      heightOf s.mapBlockIndex x + chain.length = heightOf s.mapBlockIndex best := by
  have hgraded : Forest.Graded (parentOf s.mapBlockIndex) (heightOf s.mapBlockIndex) :=
    hok.rooted.graded
  have hthread : Forest.Threaded (parentOf s.mapBlockIndex) (nextOf s.mapBlockIndex) best :=
    hok.threaded
  have hmain : ∀ p, s.mapBlockIndex p.hashBlock = some p →
      (isInMainChain s p ↔ Forest.Anc (parentOf s.mapBlockIndex) p.hashBlock best) :=
    fun p hp => hok.main_iff hp
  have hheight : ∀ p, s.mapBlockIndex p.hashBlock = some p →
      heightOf s.mapBlockIndex p.hashBlock = p.nHeight := by
    intro p hp
    simp [heightOf, hp]
  induction hn : heightOf s.mapBlockIndex best - heightOf s.mapBlockIndex x generalizing x with
  | zero =>
    have hle := hx.height_le hgraded
    obtain rfl := hx.eq_of_height hgraded (by omega)
    refine ⟨[], ?_, ⟨fun p => ?_, rfl⟩, Nat.add_zero _⟩
    · rw [hthread.top hgraded]
      rfl
    · simp only [List.not_mem_nil, false_iff]
      rintro ⟨hp, hin, hhigh⟩
      have hbelow := ((hmain p hp).mp hin).height_le hgraded
      rw [hheight p hp] at hbelow
      omega
  | succ n ih =>
    have hne : x ≠ best := by
      rintro rfl
      simp at hn
    obtain ⟨c, hc, hcx⟩ := hx.child hne
    have hup := hgraded _ _ hcx
    obtain ⟨chain, hlinks, hfollowing, hlen⟩ := ih hc (by omega)
    obtain ⟨pc, hpc⟩ := Option.isSome_iff_exists.mp (hok.rooted.anc_some hok.best_some hc)
    have hpc : s.mapBlockIndex c = some pc := hpc
    have hkey : pc.hashBlock = c := hok.rooted.keyed c pc hpc
    have hself : s.mapBlockIndex pc.hashBlock = some pc := by rw [hkey, hpc]
    have hpcHeight : pc.nHeight = heightOf s.mapBlockIndex x + 1 := by
      rw [← hheight pc hself, hkey, hup]
    have hnext : pc.pnext = nextOf s.mapBlockIndex c := by simp [nextOf, hpc]
    refine ⟨pc :: chain, ⟨?_, ?_⟩, ⟨fun p => ?_, ?_⟩, ?_⟩
    · rw [(hthread x c).mpr ⟨hc, hcx⟩]
      exact hpc
    · rw [hnext]
      exact hlinks
    · rw [List.mem_cons, hfollowing.mem]
      constructor
      · rintro (rfl | ⟨hp, hin, hhigh⟩)
        · refine ⟨hself, (hmain _ hself).mpr ?_, by omega⟩
          rwa [hkey]
        · exact ⟨hp, hin, by omega⟩
      · rintro ⟨hp, hin, hhigh⟩
        rcases Nat.lt_or_ge (heightOf s.mapBlockIndex c) p.nHeight with hmore | hedge
        · exact .inr ⟨hp, hin, hmore⟩
        · have hanc := (hmain p hp).mp hin
          have hsame : heightOf s.mapBlockIndex p.hashBlock = heightOf s.mapBlockIndex c := by
            rw [hheight p hp]
            omega
          have hhash : p.hashBlock = c := by
            rcases hanc.linear hc with hdown | hdown
            · exact hdown.eq_of_height hgraded hsame
            · exact (hdown.eq_of_height hgraded hsame.symm).symm
          rw [hhash, hpc] at hp
          exact .inl (Option.some.inj hp).symm
    · rw [List.map_cons, hfollowing.heights, List.length_cons, hpcHeight, hup, List.range'_succ]
    · rw [List.length_cons]
      omega

theorem locatorIndex_find (s : NodeState) (vHave : List Uint256) :
    locatorIndex s vHave =
      (vHave.find? (CBlockLocator.inMainChain s)).or s.pindexGenesisBlock := by
  induction vHave with
  | nil => rfl
  | cons hash rest ih =>
    rw [locatorIndex, List.find?_cons, CBlockLocator.inMainChain]
    cases hp : s.mapBlockIndex hash with
    | none => exact ih
    | some p =>
      dsimp only [Option.map_some, Option.getD_some]
      cases hmain : p.isInMainChain s with
      | true => rfl
      | false => exact ih

theorem inMainChain_iff {hash : Uint256} : CBlockLocator.inMainChain s hash = true ↔
    ∃ p, s.mapBlockIndex hash = some p ∧ isInMainChain s p := by
  rw [CBlockLocator.inMainChain]
  cases hp : s.mapBlockIndex hash with
  | none => simp
  | some p =>
    rw [Option.map_some, Option.getD_some, isInMainChain_iff]
    simp

theorem TreeOk.locator_start {genesis best : Uint256} (hok : TreeOk s.tree genesis best)
    (vHave : List Uint256) :
    locatorIndex s vHave =
      some ((vHave.find? (CBlockLocator.inMainChain s)).getD genesis) ∧
    Forest.Anc (parentOf s.mapBlockIndex)
      ((vHave.find? (CBlockLocator.inMainChain s)).getD genesis) best := by
  have hgenesis : s.pindexGenesisBlock = some genesis := hok.genesisBlock
  rw [locatorIndex_find, hgenesis]
  cases hfind : vHave.find? (CBlockLocator.inMainChain s) with
  | none => exact ⟨rfl, hok.rooted.genesis_anc hok.best_some⟩
  | some hash =>
    obtain ⟨p, hp, hmain⟩ := inMainChain_iff.mp (List.find?_some hfind)
    exact ⟨rfl, (hok.main_iff hp).mp hmain⟩

theorem getblocks_eq {vHave : List Uint256} {nDistance : Int} (hindex : locatorIndex s vHave = some x)
    (hdistance : CBlockLocator.getDistanceBack s vHave = .ok nDistance)
    (hlimit : toInt (500 + nDistance) = .ok (500 + nDistance)) (nSendBuffer fuel : Nat) :
    getblocks s nSendBuffer fuel vHave hashStop =
      pushBlocks s hashStop (nSendBuffer / 2) fuel (nextOf s.mapBlockIndex x) (500 + nDistance) 0 := by
  rw [getblocks, hindex, hdistance]
  change toInt (500 + nDistance) >>= _ = _
  rw [hlimit]
  rfl

theorem getheaders_eq {vHave : List Uint256} {nDistance : Int}
    (hdistance : CBlockLocator.getDistanceBack s vHave = .ok nDistance)
    (hlimit : toInt (2000 + nDistance) = .ok (2000 + nDistance))
    (hanswer : ¬(vHave = [] ∧ s.mapBlockIndex hashStop = none)) (fuel : Nat) :
    getheaders s fuel vHave hashStop =
      (pushHeaders s hashStop fuel (if vHave = [] then some hashStop
        else (locatorIndex s vHave).bind (nextOf s.mapBlockIndex)) (2000 + nDistance)).map some := by
  rw [getheaders, if_neg hanswer, hdistance]
  change toInt (2000 + nDistance) >>= _ = _
  rw [hlimit]
  rfl

theorem getheaders_null (hreadable : Readable s) (hkeyed : ∀ p, s.mapBlockIndex hashStop = some p →
    p.hashBlock = hashStop) {fuel : Nat} (hfuel : 0 < fuel) :
    getheaders s fuel [] hashStop =
      .ok ((s.mapBlockIndex hashStop).map (fun p => [blockHeaderOf s p])) := by
  cases hp : s.mapBlockIndex hashStop with
  | none => rw [getheaders, if_pos ⟨rfl, hp⟩, Option.map_none]
  | some p =>
    obtain ⟨fuel, rfl⟩ : ∃ k, fuel = k + 1 := ⟨fuel - 1, by omega⟩
    have hdistance : CBlockLocator.getDistanceBack s [] = .ok 0 := rfl
    have hanswer : ¬(([] : List Uint256) = [] ∧ s.mapBlockIndex hashStop = none) := by
      rw [hp]
      simp
    rw [getheaders_eq hdistance rfl hanswer, if_pos rfl, pushHeaders, Option.bind_some, hp,
      Option.map_some]
    dsimp only
    rw [getBlockHeader_eq (hreadable _ p hp)]
    change Except.map some (if _ then _ else _) = _
    rw [if_pos (.inr (hkeyed p hp))]
    rfl

end Serve

end Namecoin
