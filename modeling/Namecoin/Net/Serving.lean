import Namecoin.Net.Dispatch

namespace Namecoin

-- What the answer to getblocks leaves of a connection: PushInventory passes over known blocks.
def CNode.told (blocks : List CBlockIndex) (hashContinue : Option Uint256) (n : CNode) : CNode :=
  { n with
    vInventoryToSend := n.vInventoryToSend ++
      (blocks.map fun pindex => CInv.block pindex.hashBlock).filter fun inv =>
        decide (inv ∉ n.setInventoryKnown)
    hashContinue := hashContinue.getD n.hashContinue }

structure ServedWith (c : NetEnv) (s : NetNode) (i : Nat) (genesis : Uint256) (vHave : List Uint256)
    (hashStop : Uint256) (nDistance : Int) (chain : List CBlockIndex) : Prop where
  distance : CBlockLocator.getDistanceBack s.state vHave = .ok nDistance
  blocksLimit : 500 ≤ 500 + nDistance ∧ toInt (500 + nDistance) = .ok (500 + nDistance)
  headersLimit : 2000 ≤ 2000 + nDistance ∧ toInt (2000 + nDistance) = .ok (2000 + nDistance)
  following : Following s.state
    ((vHave.find? (CBlockLocator.inMainChain s.state)).getD genesis) chain
  blocks : ∃ n hashContinue, s.processMessage c i (.getblocks vHave hashStop) =
      s.onNode i (CNode.told ((beforeStop hashStop chain).take n) hashContinue) ∧
    BlocksServed s.state (c.nSendBufferSize / 2) 0 (500 + nDistance) (beforeStop hashStop chain) n
  headers : vHave ≠ [] → ∀ fuel : Nat, s.state.nBestHeight < fuel →
    getheaders s.state fuel vHave hashStop = .ok (some
      (((upToStop hashStop chain).take (2000 + nDistance).toNat).map (blockHeaderOf s.state)))
  headerOf : vHave = [] → ∀ fuel : Nat, 0 < fuel →
    getheaders s.state fuel vHave hashStop =
      .ok ((s.state.mapBlockIndex hashStop).map (fun p => [blockHeaderOf s.state p]))

def Served (c : NetEnv) (s : NetNode) (i : Nat) (genesis : Uint256) (vHave : List Uint256)
    (hashStop : Uint256) : Prop :=
  ∃ nDistance chain, ServedWith c s i genesis vHave hashStop nDistance chain

theorem NetNode.announce_told {r : BlocksReply} {blocks : List CBlockIndex}
    (h : r.inventory = blocks.map CBlockIndex.hashBlock) :
    NetNode.announce r = CNode.told blocks r.hashContinue := by
  funext n
  rw [NetNode.announce, h, NetNode.foldl_pushInventory, List.map_map]
  rfl

theorem served_iff {env : Env} {hashGenesisBlock : Uint256} {s0 : NodeState} {s : NetNode}
    (hstart : Started env hashGenesisBlock s0)
    (run : Relation.ReflTransGen (NodeStep env hashGenesisBlock) s0 s.state) (c : NetEnv) (i : Nat)
    (vHave : List Uint256) (hashStop : Uint256) :
    Served c s i hashGenesisBlock vHave hashStop ↔ CBlockLocator.missed s.state vHave ≤ 40 := by
  have hdistance := CBlockLocator.getDistanceBack_eq s.state vHave
  constructor
  · rintro ⟨nDistance, chain, hserved⟩
    by_contra hmore
    rw [if_neg hmore, hserved.distance] at hdistance
    cases hdistance
  · intro hfew
    rw [if_pos hfew] at hdistance
    obtain ⟨best, hok⟩ := treeOk_of_run hstart run
    have hreadable := readable_of_run hstart run
    obtain ⟨hindex, hanc⟩ := hok.locator_start vHave
    obtain ⟨chain, hlinks, hfollowing, hlen⟩ := hok.following hanc
    obtain ⟨pbest, hpbest, -, hbestHeight, -⟩ := hok.globals
    have hheight : s.state.nBestHeight = heightOf s.state.mapBlockIndex best := by
      have hp : s.state.mapBlockIndex best = some pbest := hpbest
      have hh : s.state.nBestHeight = pbest.nHeight := hbestHeight
      simp [heightOf, hp, hh]
    have hlow := (Doubling.back_strictMono (t := 10) (by decide)).monotone hfew
    have htop : Doubling.back 10 40 = 9 + 2 ^ 30 := by decide
    have hread : ∀ p ∈ chain, (s.state.disk.readBlock p.nFile p.nBlockPos).isSome :=
      fun p hp => hreadable _ p ((hfollowing.mem p).mp hp).1
    revert hdistance
    generalize hd : ((Doubling.back 10 (CBlockLocator.missed s.state vHave) : Nat) : Int) = nDistance
    intro hdistance
    have hblocks : toInt (500 + nDistance) = .ok (500 + nDistance) :=
      toInt_ok ⟨by omega, by omega⟩
    have hheaders : toInt (2000 + nDistance) = .ok (2000 + nDistance) :=
      toInt_ok ⟨by omega, by omega⟩
    refine ⟨nDistance, chain, hdistance, ⟨by omega, hblocks⟩, ⟨by omega, hheaders⟩, hfollowing,
      ?_, ?_, ?_⟩
    · obtain ⟨r, n, hrun, hinventory, hserved⟩ :=
        @pushBlocks_served s.state hashStop chain (500 + nDistance) _ (c.nSendBufferSize / 2) 0
          (s.state.nBestHeight.toNat + 1) hlinks (by omega) (by omega)
      refine ⟨n, r.hashContinue, ?_, hserved⟩
      rw [NetNode.processMessage, NetNode.processGetblocks, getblocks_eq hindex hdistance hblocks,
        hrun]
      dsimp only
      rw [NetNode.announce_told hinventory]
    · intro hne fuel hfuel
      have hrun := @pushHeaders_served s.state hashStop chain (2000 + nDistance) _ fuel hlinks hread
        (by omega) (by omega)
      rw [getheaders_eq hdistance hheaders (fun h => hne h.1), if_neg hne, hindex, Option.bind_some,
        hrun]
      rfl
    · rintro rfl fuel hfuel
      exact getheaders_null hreadable (fun p hp => hok.rooted.keyed _ p hp) hfuel

-- The first peer has told of block 18 before, or been told.
def climbedServer (n : Nat) : NetNode :=
  { relay := ⟨climbedNode n, fun _ => none, [], fun _ => false⟩
    memory := RelayMemory.empty
    times := ⟨fun _ => 0, 0⟩
    mapAlerts := []
    vNodes := [{CInv.block (chainHash 18)}, ∅].map fun setInventoryKnown =>
      ⟨38000, [], 1, ∅, 0, none, 0, setInventoryKnown, [], [], []⟩ }

theorem climbedServer_run (n : Nat) : Relation.ReflTransGen
    (NodeStep nonzeroEnv nonzeroNodeEnv.hashGenesisBlock) nonzeroNode (climbedServer n).state :=
  climbedNode_run n

def climbedNetEnv : NetEnv := ⟨nonzeroNodeEnv, fun _ => true, fun _ _ _ => true, 10000, 10000000⟩

def asksFrom17 (i : Nat) : NetNode :=
  (climbedServer 20).processMessage climbedNetEnv i (.getblocks [0, chainHash 17] 0)

theorem climbedServer_served :
    (∀ i, Served climbedNetEnv (climbedServer 20) i nonzeroNodeEnv.hashGenesisBlock
        [0, chainHash 17] 0) ∧
      (asksFrom17 0).vNodes.map CNode.vInventoryToSend =
        [[19, 20].map fun n => CInv.block (chainHash n), []] ∧
      (asksFrom17 1).vNodes.map CNode.vInventoryToSend =
        [[], [18, 19, 20].map fun n => CInv.block (chainHash n)] := by
  have hmissed : CBlockLocator.missed (climbedServer 20).state [0, chainHash 17] ≤ 40 := by
    decide +kernel
  have hserved := served_iff nonzeroNode_started (climbedServer_run 20) climbedNetEnv
  exact ⟨fun i => (hserved i [0, chainHash 17] 0).mpr hmissed, by decide +kernel, by decide +kernel⟩

theorem climbedServer_overflows : ¬Served climbedNetEnv (climbedServer 20) 0
    nonzeroNodeEnv.hashGenesisBlock (List.replicate 41 0) 0 := by
  rintro ⟨nDistance, chain, hserved⟩
  have hover : CBlockLocator.getDistanceBack (climbedServer 20).state (List.replicate 41 0) =
      .error .overflow := by
    decide +kernel
  have hdistance := hserved.distance
  rw [hover] at hdistance
  cases hdistance

end Namecoin
