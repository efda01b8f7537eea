import Namecoin.Node.Record

namespace Namecoin

open Act

structure LoadState where
  mapBlockIndex : BlockMap
  keys : List Uint256
  pindexGenesisBlock : Option Uint256

def CBlockIndex.null (hash : Uint256) : CBlockIndex where
  hashBlock := hash
  pprev := none
  pnext := none
  nFile := 0
  nBlockPos := 0
  nHeight := 0
  bnChainWork := 0
  nVersion := 0
  hashMerkleRoot := 0
  nTime := 0
  nBits := 0
  nNonce := 0

def pointerTo (hash : Uint256) : Option Uint256 := if hash = 0 then none else some hash

def LoadState.insertBlockIndex (hash : Uint256) (l : LoadState) : LoadState :=
  if hash = 0 ∨ (l.mapBlockIndex hash).isSome then l
  else
    { l with
      mapBlockIndex := Function.update l.mapBlockIndex hash (some (CBlockIndex.null hash))
      keys := hash :: l.keys }

def CDiskBlockIndex.header (d : CDiskBlockIndex) : CBlockHeader :=
  ⟨d.index.nVersion, d.hashPrev, d.index.hashMerkleRoot, d.index.nTime, d.index.nBits,
    d.index.nNonce⟩

def CDiskBlockIndex.getBlockHash (env : Env) (d : CDiskBlockIndex) : Uint256 :=
  d.header.getHash env

def CDiskBlockIndex.fill (d : CDiskBlockIndex) (pindexNew : CBlockIndex) : CBlockIndex :=
  { pindexNew with
    pprev := pointerTo d.hashPrev
    pnext := pointerTo d.hashNext
    nFile := d.index.nFile
    nBlockPos := d.index.nBlockPos
    nHeight := d.index.nHeight
    nVersion := d.index.nVersion
    hashMerkleRoot := d.index.hashMerkleRoot
    nTime := d.index.nTime
    nBits := d.index.nBits
    nNonce := d.index.nNonce }

def loadRecord (env : Env) (hashGenesisBlock : Uint256) (d : CDiskBlockIndex) (l : LoadState) :
    Except Fault LoadState :=
  let hash := d.getBlockHash env
  let l := ((l.insertBlockIndex hash).insertBlockIndex d.hashPrev).insertBlockIndex d.hashNext
  match l.mapBlockIndex hash with
  | none => .error .undefined
  | some pindexNew =>
    .ok { l with
      mapBlockIndex := Function.update l.mapBlockIndex hash (some (d.fill pindexNew))
      pindexGenesisBlock :=
        if l.pindexGenesisBlock = none ∧ hash = hashGenesisBlock then some hash
        else l.pindexGenesisBlock }

def loadRecords (env : Env) (hashGenesisBlock : Uint256) :
    List CDiskBlockIndex → LoadState → Except Fault LoadState
  | [], l => .ok l
  | d :: rest, l => do
    let l ← loadRecord env hashGenesisBlock d l
    loadRecords env hashGenesisBlock rest l

def computeWork : List Uint256 → BlockMap → BlockMap
  | [], m => m
  | h :: rest, m =>
    computeWork rest (Function.update m h ((m h).map (fun pindex => { pindex with
      bnChainWork := ((pindex.pprev.bind m).map CBlockIndex.bnChainWork).getD 0 +
        getBlockWork pindex.nBits })))

def sortedByHeight (addr : Uint256 → Nat) (l : LoadState) : List Uint256 :=
  l.keys.insertionSort (fun a b => heightOf l.mapBlockIndex a < heightOf l.mapBlockIndex b ∨
    heightOf l.mapBlockIndex a = heightOf l.mapBlockIndex b ∧ addr a ≤ addr b)

def CTxDB.readBlockIndex (env : Env) (hashGenesisBlock : Uint256) (addr : Uint256 → Nat)
    (records : List CDiskBlockIndex) (hashBestChain : Option Uint256) : Except Fault TreeView := do
  let l ← loadRecords env hashGenesisBlock records ⟨fun _ => none, [], none⟩
  let m := computeWork (sortedByHeight addr l) l.mapBlockIndex
  match hashBestChain with
  | none =>
    if l.pindexGenesisBlock = none then .ok ⟨m, none, none, 0, -1, 0⟩
    else .error (.reject "CTxDB::LoadBlockIndex() : hashBestChain not loaded")
  | some hash =>
    match m hash with
    | none => .error (.reject "CTxDB::LoadBlockIndex() : hashBestChain not found in the block index")
    | some pindexBest =>
      .ok ⟨m, l.pindexGenesisBlock, some hash, hash, pindexBest.nHeight, pindexBest.bnChainWork⟩

def withoutWork (p : CBlockIndex) : CBlockIndex := { p with bnChainWork := 0 }

section Work

variable {m : BlockMap} {genesis : Uint256}

theorem computeWork_eq (h : Rooted m genesis) {order : List Uint256}
    (hall : ∀ x, (m x).isSome → x ∈ order)
    (hsorted : order.Pairwise (fun a b => heightOf m a ≤ heightOf m b)) :
    computeWork order (fun x => (m x).map withoutWork) = m := by
  have hsteps : ∀ (suffix : List Uint256) (done : List Uint256) (t : BlockMap),
      order = done ++ suffix →
      (∀ x, t x = if x ∈ done then m x else (m x).map withoutWork) →
      computeWork suffix t = m := by
    intro suffix
    induction suffix with
    | nil =>
      intro done t hsplit ht
      funext x
      rw [computeWork, ht x]
      cases hx : m x with
      | none => simp
      | some p =>
        have hmem := hall x (by simp [hx])
        rw [hsplit, List.append_nil] at hmem
        rw [if_pos hmem]
    | cons y rest ih =>
      intro done t hsplit ht
      rw [computeWork]
      refine ih (done ++ [y]) _ (by rw [hsplit]; simp) ?_
      intro x
      by_cases hx : x = y
      · subst hx
        rw [Function.update_self, if_pos (by simp), ht x]
        cases hp : m x with
        | none => simp
        | some p =>
          have hwork := h.work x p hp
          have hprev : (p.pprev.bind t).map CBlockIndex.bnChainWork =
              (p.pprev.bind m).map CBlockIndex.bnChainWork := by
            cases hq : p.pprev with
            | none => rfl
            | some q =>
              have hparent : parentOf m x = some q := by simp [parentOf, hp, hq]
              have hheight := h.graded _ _ hparent
              obtain ⟨-, pq, -, -, hmq, -⟩ := h.parent_some hparent
              have hqin : q ∈ done := by
                have hmem := hall q (by simp [hmq])
                rw [hsplit] at hmem hsorted
                rcases List.mem_append.mp hmem with hin | hin
                · exact hin
                · rcases List.mem_cons.mp hin with rfl | hin
                  · omega
                  · have hle := (List.pairwise_cons.mp (List.pairwise_append.mp hsorted).2.1).1 q hin
                    omega
              rw [Option.bind_some, Option.bind_some, ht q, if_pos hqin]
          by_cases hdone : x ∈ done
          · simp only [if_pos hdone, Option.map_some, hprev, ← hwork]
          · simp only [if_neg hdone, Option.map_some, withoutWork, hprev, ← hwork]
      · rw [Function.update_of_ne hx, ht x]
        simp [hx]
  exact hsteps order [] _ rfl (fun x => by simp)

end Work

structure Loaded (s : NodeState) (genesis : Uint256) (done : List CDiskBlockIndex) (l : LoadState) :
    Prop where
  filled : ∀ h p, s.mapBlockIndex h = some p →
    (∃ r ∈ done, s.chain.dbset.blockindex h = some r) → l.mapBlockIndex h = some (withoutWork p)
  known : ∀ h, (l.mapBlockIndex h).isSome → (s.mapBlockIndex h).isSome
  fresh : ∀ h q, l.mapBlockIndex h = some q → q.hashBlock = h ∧ q.bnChainWork = 0
  keys : ∀ h, h ∈ l.keys ↔ (l.mapBlockIndex h).isSome
  genesisOnly : l.pindexGenesisBlock = none ∨ l.pindexGenesisBlock = some genesis
  genesisDone : (∃ r ∈ done, s.chain.dbset.blockindex genesis = some r) →
    l.pindexGenesisBlock = some genesis

theorem LoadState.insertBlockIndex_some {l : LoadState} {h hash : Uint256} {q : CBlockIndex}
    (hq : l.mapBlockIndex h = some q) : (l.insertBlockIndex hash).mapBlockIndex h = some q := by
  unfold LoadState.insertBlockIndex
  split
  · exact hq
  · next hno =>
    have hne : h ≠ hash := by
      rintro rfl
      exact hno (.inr (by simp [hq]))
    exact (Function.update_of_ne hne _ _).trans hq

theorem LoadState.insertBlockIndex_self {l : LoadState} {hash : Uint256} (hz : hash ≠ 0) :
    ((l.insertBlockIndex hash).mapBlockIndex hash).isSome := by
  unfold LoadState.insertBlockIndex
  split
  · next hyes => exact hyes.resolve_left hz
  · simp

section Load

variable {s : NodeState} {genesis : Uint256} {done : List CDiskBlockIndex} {l : LoadState}

theorem Loaded.insert (h : Loaded s genesis done l) {hash : Uint256}
    (hk : hash = 0 ∨ (s.mapBlockIndex hash).isSome) :
    Loaded s genesis done (l.insertBlockIndex hash) := by
  refine ⟨fun x p hp hr => LoadState.insertBlockIndex_some (h.filled x p hp hr), ?_, ?_, ?_, ?_, ?_⟩
  · intro x hx
    unfold LoadState.insertBlockIndex at hx
    split at hx
    · exact h.known x hx
    · next hno =>
      by_cases hxe : x = hash
      · subst hxe
        exact hk.resolve_left (fun h0 => hno (.inl h0))
      · exact h.known x (by simpa [hxe] using hx)
  · intro x q hq
    unfold LoadState.insertBlockIndex at hq
    split at hq
    · exact h.fresh x q hq
    · by_cases hxe : x = hash
      · subst hxe
        have hqe : CBlockIndex.null x = q := by simpa using hq
        subst hqe
        exact ⟨rfl, rfl⟩
      · exact h.fresh x q (by simpa [hxe] using hq)
  · intro x
    unfold LoadState.insertBlockIndex
    split
    · exact h.keys x
    · by_cases hxe : x = hash
      · subst hxe
        simp
      · simp [hxe, h.keys]
  · unfold LoadState.insertBlockIndex
    split <;> exact h.genesisOnly
  · unfold LoadState.insertBlockIndex
    split <;> exact h.genesisDone

theorem pointerTo_getD {x : Option Uint256} (hx : x ≠ some 0) : pointerTo (x.getD 0) = x := by
  unfold pointerTo
  cases x with
  | none => rfl
  | some h =>
    have hne : h ≠ 0 := fun h0 => hx (by rw [h0])
    exact if_neg hne

theorem Stores.getBlockHash {env : Env} {r : CDiskBlockIndex} {p : CBlockIndex} (h : Stores r p) :
    r.getBlockHash env = p.header.getHash env := by
  obtain ⟨hsame, hprev, -⟩ := h
  have hr := forgetNext_eq hsame
  unfold CDiskBlockIndex.getBlockHash CDiskBlockIndex.header CBlockIndex.header
  rw [hprev, hr]

theorem Stores.fill {r : CDiskBlockIndex} {p q : CBlockIndex} (h : Stores r p)
    (hprev : p.pprev ≠ some 0) (hnext : p.pnext ≠ some 0) (hhash : q.hashBlock = p.hashBlock)
    (hwork : q.bnChainWork = 0) : r.fill q = withoutWork p := by
  obtain ⟨hsame, hp, hn⟩ := h
  have hr := forgetNext_eq hsame
  unfold CDiskBlockIndex.fill withoutWork
  rw [hp, hn, pointerTo_getD hprev, pointerTo_getD hnext, hhash, hwork, hr]

structure Loadable (env : Env) (genesis : Uint256) (s : NodeState) : Prop where
  rooted : Rooted s.mapBlockIndex genesis
  saved : Saved env s
  next : ∀ h p q, s.mapBlockIndex h = some p → p.pnext = some q → (s.mapBlockIndex q).isSome
  null : s.mapBlockIndex 0 = none

theorem Loadable.prev_known {env : Env} (hs : Loadable env genesis s) {h : Uint256}
    {p : CBlockIndex} (hp : s.mapBlockIndex h = some p) {q : Uint256} (hq : p.pprev = some q) :
    (s.mapBlockIndex q).isSome := by
  have hparent : parentOf s.mapBlockIndex h = some q := by simp [parentOf, hp, hq]
  obtain ⟨-, pq, -, -, hmq, -⟩ := hs.rooted.parent_some hparent
  simp [hmq]

theorem Loadable.ne_zero {env : Env} (hs : Loadable env genesis s) {h : Uint256}
    (hh : (s.mapBlockIndex h).isSome) : h ≠ 0 := by
  rintro rfl
  rw [hs.null] at hh
  cases hh

theorem Loaded.record {env : Env} (hs : Loadable env genesis s) (h : Loaded s genesis done l)
    {x : Uint256} {r : CDiskBlockIndex} (hr : s.chain.dbset.blockindex x = some r) :
    ∃ l', loadRecord env genesis r l = .ok l' ∧ Loaded s genesis (done ++ [r]) l' := by
  have hrel := hs.saved.records x
  rw [hr] at hrel
  cases hm : s.mapBlockIndex x with
  | none =>
    rw [hm] at hrel
    cases hrel
  | some p =>
    rw [hm] at hrel
    obtain ⟨hstores⟩ := hrel
    have hsome : (s.mapBlockIndex x).isSome := by simp [hm]
    have hhash : r.getBlockHash env = x := hstores.getBlockHash.trans (hs.saved.hashed x p hm)
    have hprev0 : p.pprev ≠ some 0 := fun h0 => hs.ne_zero (hs.prev_known hm h0) rfl
    have hnext0 : p.pnext ≠ some 0 := fun h0 => hs.ne_zero (hs.next x p 0 hm h0) rfl
    have hprev : r.hashPrev = 0 ∨ (s.mapBlockIndex r.hashPrev).isSome := by
      rw [hstores.2.1]
      cases hq : p.pprev with
      | none => exact .inl rfl
      | some q => exact .inr (hs.prev_known hm hq)
    have hnext : r.hashNext = 0 ∨ (s.mapBlockIndex r.hashNext).isSome := by
      rw [hstores.2.2]
      cases hq : p.pnext with
      | none => exact .inl rfl
      | some q => exact .inr (hs.next x p q hm hq)
    have hl := ((h.insert (.inr hsome : x = 0 ∨ _)).insert hprev).insert hnext
    obtain ⟨q, hq⟩ := Option.isSome_iff_exists.mp
      (@LoadState.insertBlockIndex_self l x (hs.ne_zero hsome))
    have hq3 := @LoadState.insertBlockIndex_some _ x r.hashNext q
      (@LoadState.insertBlockIndex_some _ x r.hashPrev q hq)
    obtain ⟨hqhash, hqwork⟩ := hl.fresh x q hq3
    have hfill : r.fill q = withoutWork p :=
      hstores.fill hprev0 hnext0 (hqhash.trans (hs.rooted.keyed x p hm).symm) hqwork
    have honly : ∀ y p', s.mapBlockIndex y = some p' → s.chain.dbset.blockindex y = some r → y = x := by
      intro y p' hy hyr
      have hyrel := hs.saved.records y
      rw [hyr, hy] at hyrel
      obtain ⟨hystores⟩ := hyrel
      exact ((hystores.getBlockHash.trans (hs.saved.hashed y p' hy)).symm.trans hhash)
    unfold loadRecord
    simp only [hhash]
    rw [hq3]
    refine ⟨_, rfl, ?_, ?_, ?_, ?_, ?_, ?_⟩
    · intro y p' hy hdone
      by_cases hyx : y = x
      · subst hyx
        rw [hm] at hy
        cases hy
        rw [hfill]
        exact Function.update_self _ _ _
      · obtain ⟨r', hr', hyr⟩ := hdone
        rcases List.mem_append.mp hr' with hr' | hr'
        · exact (Function.update_of_ne hyx _ _).trans (hl.filled y p' hy ⟨r', hr', hyr⟩)
        · rw [List.mem_singleton] at hr'
          subst hr'
          exact absurd (honly y p' hy hyr) hyx
    · intro y hy
      by_cases hyx : y = x
      · subst hyx
        exact hsome
      · exact hl.known y (by simpa [hyx] using hy)
    · intro y q' hq'
      by_cases hyx : y = x
      · subst hyx
        have hqe : r.fill q = q' := by simpa using hq'
        subst hqe
        exact ⟨hqhash, hqwork⟩
      · exact hl.fresh y q' (by simpa [hyx] using hq')
    · intro y
      have hky := hl.keys y
      by_cases hyx : y = x
      · subst hyx
        rw [hky, hq3]
        simp
      · rw [hky]
        simp [hyx]
    · dsimp only
      split
      · next hgen => exact .inr (by rw [hgen.2])
      · exact hl.genesisOnly
    · rintro ⟨r', hr', hgr⟩
      dsimp only
      rcases List.mem_append.mp hr' with hr' | hr'
      · rw [hl.genesisDone ⟨r', hr', hgr⟩, if_neg (by simp)]
      · rw [List.mem_singleton] at hr'
        subst hr'
        obtain ⟨pg, hpg, -⟩ := hs.rooted.root
        have hgx := honly genesis pg hpg hgr
        rcases hl.genesisOnly with hn | hn
        · rw [hn, if_pos ⟨rfl, hgx.symm⟩, hgx]
        · rw [hn, if_neg (by simp)]

theorem loadRecords_loaded {env : Env} (hs : Loadable env genesis s) {records : List CDiskBlockIndex}
    (hrecords : ∀ r ∈ records, ∃ x, s.chain.dbset.blockindex x = some r)
    (h : Loaded s genesis done l) :
    ∃ l', loadRecords env genesis records l = .ok l' ∧ Loaded s genesis (done ++ records) l' := by
  induction records generalizing done l with
  | nil => exact ⟨l, rfl, by rwa [List.append_nil]⟩
  | cons r rest ih =>
    obtain ⟨x, hx⟩ := hrecords r List.mem_cons_self
    obtain ⟨l1, h1, hl1⟩ := h.record hs hx
    obtain ⟨l2, h2, hl2⟩ := ih (fun r' hr' => hrecords r' (List.mem_cons_of_mem _ hr')) hl1
    refine ⟨l2, ?_, by simpa using hl2⟩
    rw [loadRecords, h1]
    exact h2

theorem Loaded.complete {env : Env} (hs : Loadable env genesis s)
    (hall : ∀ x r, s.chain.dbset.blockindex x = some r → r ∈ done) (h : Loaded s genesis done l) :
    (l.mapBlockIndex = fun x => (s.mapBlockIndex x).map withoutWork) ∧
      l.pindexGenesisBlock = some genesis := by
  have hrecord : ∀ x p, s.mapBlockIndex x = some p →
      ∃ r ∈ done, s.chain.dbset.blockindex x = some r := by
    intro x p hp
    have hrel := hs.saved.records x
    rw [hp] at hrel
    cases hr : s.chain.dbset.blockindex x with
    | none =>
      rw [hr] at hrel
      cases hrel
    | some r => exact ⟨r, hall x r hr, rfl⟩
  refine ⟨?_, ?_⟩
  · funext x
    cases hp : s.mapBlockIndex x with
    | none =>
      cases hl : l.mapBlockIndex x with
      | none => rfl
      | some q =>
        have := h.known x (by simp [hl])
        rw [hp] at this
        cases this
    | some p => exact h.filled x p hp (hrecord x p hp)
  · obtain ⟨pg, hpg, -⟩ := hs.rooted.root
    exact h.genesisDone (hrecord genesis pg hpg)

end Load

theorem heightOf_withoutWork (m : BlockMap) :
    heightOf (fun x => (m x).map withoutWork) = heightOf m := by
  funext x
  unfold heightOf
  dsimp only
  cases m x <;> rfl

theorem sortedByHeight_sorted {addr : Uint256 → Nat} {l : LoadState} {m : BlockMap}
    (hm : l.mapBlockIndex = fun x => (m x).map withoutWork) :
    (sortedByHeight addr l).Pairwise (fun a b => heightOf m a ≤ heightOf m b) := by
  unfold sortedByHeight
  rw [hm, heightOf_withoutWork]
  have htotal : Std.Total (fun a b => heightOf m a < heightOf m b ∨
      heightOf m a = heightOf m b ∧ addr a ≤ addr b) := ⟨fun a b => by omega⟩
  have htrans : IsTrans Uint256 (fun a b => heightOf m a < heightOf m b ∨
      heightOf m a = heightOf m b ∧ addr a ≤ addr b) := ⟨fun a b c => by omega⟩
  refine (List.pairwise_insertionSort _ l.keys).imp ?_
  intro a b hab
  omega

def Cursor (d : RecordMap) (records : List CDiskBlockIndex) : Prop :=
  ∀ r, r ∈ records ↔ ∃ x, d x = some r

theorem SavedTree.loadable {env : Env} {genesis : Uint256} {s : NodeState}
    (h : SavedTree env genesis s) (hnull : ∀ header : CBlockHeader, header.getHash env ≠ 0) :
    Loadable env genesis s := by
  obtain ⟨⟨best, hok⟩, hsaved⟩ := h
  have hthread : Forest.Threaded (parentOf s.mapBlockIndex) (nextOf s.mapBlockIndex) best :=
    hok.threaded
  refine ⟨hok.rooted, hsaved, ?_, ?_⟩
  · intro x p q hp hq
    have hnext : nextOf s.mapBlockIndex x = some q := by simp [nextOf, hp, hq]
    have hmain := ((hthread x q).mp hnext).1
    exact hok.rooted.anc_some hok.best_some hmain
  · cases hz : s.mapBlockIndex 0 with
    | none => rfl
    | some p => exact absurd (hsaved.hashed 0 p hz) (hnull _)

theorem savedTree_of_run {env : Env} {hashGenesisBlock : Uint256} {s0 s : NodeState}
    (hstart : Started env hashGenesisBlock s0)
    (run : Relation.ReflTransGen (NodeStep env hashGenesisBlock) s0 s) :
    SavedTree env hashGenesisBlock s := by
  induction run with
  | refl => exact hstart.saved
  | tail _ hstep ih => exact hstep.saved ih

theorem readBlockIndex_tree {env : Env} {hashGenesisBlock : Uint256} {s0 s : NodeState}
    (hnull : ∀ header : CBlockHeader, header.getHash env ≠ 0)
    (hstart : Started env hashGenesisBlock s0)
    (run : Relation.ReflTransGen (NodeStep env hashGenesisBlock) s0 s) (addr : Uint256 → Nat)
    {records : List CDiskBlockIndex} (hcursor : Cursor s.chain.dbset.blockindex records) :
    CTxDB.readBlockIndex env hashGenesisBlock addr records s.chain.dbset.hashBestChain =
      .ok s.tree := by
  have hsaved := savedTree_of_run hstart run
  have hs := hsaved.loadable hnull
  obtain ⟨⟨best, hok⟩, -⟩ := hsaved
  have hempty : Loaded s hashGenesisBlock [] ⟨fun _ => none, [], none⟩ := by
    refine ⟨fun x p _ hr => ?_, fun x hx => ?_, fun x q hq => ?_, fun x => ?_, .inl rfl,
      fun hr => ?_⟩
    · obtain ⟨r, hr, -⟩ := hr
      cases hr
    · cases hx
    · cases hq
    · simp
    · obtain ⟨r, hr, -⟩ := hr
      cases hr
  obtain ⟨l, hload, hl⟩ := loadRecords_loaded hs (fun r hr => (hcursor r).mp hr) hempty
  obtain ⟨hmap, hgen⟩ := hl.complete hs (fun x r hr => (hcursor r).mpr ⟨x, hr⟩)
  have hwork : computeWork (sortedByHeight addr l) l.mapBlockIndex = s.mapBlockIndex := by
    rw [hmap]
    refine computeWork_eq hs.rooted (fun x hx => ?_) (sortedByHeight_sorted hmap)
    rw [sortedByHeight, List.mem_insertionSort, hl.keys, hmap]
    simpa using hx
  obtain ⟨p, hp, hhash, hheight, hbestWork⟩ := hok.globals
  have hp' : s.mapBlockIndex best = some p := hp
  have hhash' : s.hashBestChain = best := hhash
  have hgenesis : s.pindexGenesisBlock = some hashGenesisBlock := hok.genesisBlock
  have hbest : s.pindexBest = some best := hok.isBest
  have hheight' : s.nBestHeight = p.nHeight := hheight
  have hbestWork' : s.bnBestChainWork = p.bnChainWork := hbestWork
  unfold CTxDB.readBlockIndex
  rw [hload, hs.saved.best, hhash']
  simp only [bind, Except.bind, hwork, hp', hgen, NodeState.tree, hgenesis, hbest, hhash', hheight',
    hbestWork']

theorem cursor_of_keys {d : RecordMap} {keys : List Uint256}
    (h : ∀ x, (d x).isSome → x ∈ keys) : Cursor d (keys.filterMap d) := by
  intro r
  rw [List.mem_filterMap]
  constructor
  · rintro ⟨x, -, hx⟩
    exact ⟨x, hx⟩
  · rintro ⟨x, hx⟩
    exact ⟨x, h x (by simp [hx]), hx⟩

theorem RecordsOk.isSome_eq {m : BlockMap} {d : RecordMap} (h : RecordsOk m d) (x : Uint256) :
    (d x).isSome = (m x).isSome := by
  have hx := h x
  cases hd : d x <;> cases hm : m x <;> rw [hd, hm] at hx <;> first | rfl | cases hx

theorem Started.byPrev_nil {env : Env} {hashGenesisBlock : Uint256} {s : NodeState}
    (h : Started env hashGenesisBlock s) : s.mapOrphanBlocksByPrev = [] := by
  obtain ⟨e, genesis, wallet, disk, nFile, nBlockPos, rfl, rfl, -, hwork, hhash, hadd⟩ := h.added
  have hstate := @addToBlockIndex_genesis e genesis { NodeState.blank wallet with disk := disk } rfl
    hhash hwork nFile nBlockPos
  rw [hadd] at hstate
  cases hstate
  rfl

theorem Started.keys {env : Env} {hashGenesisBlock : Uint256} {s : NodeState}
    (h : Started env hashGenesisBlock s) {x : Uint256} (hx : (s.mapBlockIndex x).isSome) :
    x = hashGenesisBlock := by
  obtain ⟨e, genesis, wallet, disk, nFile, nBlockPos, rfl, rfl, -, hwork, hhash, hadd⟩ := h.added
  have hstate := @addToBlockIndex_genesis e genesis { NodeState.blank wallet with disk := disk } rfl
    hhash hwork nFile nBlockPos
  rw [hadd] at hstate
  cases hstate
  by_contra hne
  have hnone : Function.update (fun _ => none) (genesis.getHash e.env)
      (some (newBlockIndex e.env (NodeState.blank wallet) genesis nFile nBlockPos)) x = none :=
    Function.update_of_ne (fun hxe => hne (hxe.trans hhash)) _ _
  have hx' : (Function.update (fun _ => none) (genesis.getHash e.env)
      (some (newBlockIndex e.env (NodeState.blank wallet) genesis nFile nBlockPos)) x).isSome := hx
  rw [hnone] at hx'
  cases hx'

theorem processBlock_keys {e : NodeEnv} {b : CBlock} {s : NodeState}
    (hempty : s.mapOrphanBlocksByPrev = []) {x : Uint256}
    (hx : ((exec (processBlock e b) s).2.mapBlockIndex x).isSome) :
    (s.mapBlockIndex x).isSome ∨ x = b.getHash e.env := by
  let Within (t : NodeState) : Prop :=
    (t.mapBlockIndex x).isSome → (s.mapBlockIndex x).isSome ∨ x = b.getHash e.env
  revert hx
  show Within _
  unfold processBlock
  rw [exec_get_bind]
  refine after_raiseIf (P := Within) .inl (fun _ => ?_)
  refine after_raiseIf (P := Within) .inl (fun _ => ?_)
  refine after_fromExcept (P := Within) .inl (fun _ _ => ?_)
  split
  · exact .inl
  · have heff := acceptBlock_effect e b s
    rw [exec_bind]
    generalize exec (acceptBlock e b) s = r at heff
    cases heff with
    | refused fault => exact .inl
    | accepted s' hadds =>
      have hnil : s'.mapOrphanBlocksByPrev = [] := hadds.byPrev.trans hempty
      have hnone : s'.orphansOf (b.getHash e.env) = [] := by simp [NodeState.orphansOf, hnil]
      have hdep : acceptDependents e (s'.mapOrphanBlocksByPrev.length + 1) [b.getHash e.env] s' =
          s'.eraseOrphansByPrev (b.getHash e.env) := by
        rw [hnil, acceptDependents, hnone]
        rfl
      intro hx
      dsimp only at hx
      rw [exec_modify, hdep] at hx
      exact ((hadds.keys x).mp hx).symm
    | unconnected fault s' hadds hfails => exact fun hx => ((hadds.keys x).mp hx).symm

theorem processBlock_recordKeys {hashGenesisBlock : Uint256} {e : NodeEnv} {b : CBlock}
    {s : NodeState} (hgenesis : e.hashGenesisBlock = hashGenesisBlock)
    (hstart : Started e.env hashGenesisBlock s) {x : Uint256}
    (hx : ((exec (processBlock e b) s).2.chain.dbset.blockindex x).isSome) :
    x ∈ [hashGenesisBlock, b.getHash e.env] := by
  have hrun : Relation.ReflTransGen (NodeStep e.env hashGenesisBlock) s
      (exec (processBlock e b) s).2 := .single (.block e b rfl hgenesis)
  rw [(savedTree_of_run hstart hrun).2.records.isSome_eq] at hx
  rcases processBlock_keys hstart.byPrev_nil hx with hold | hnew
  · rw [hstart.keys hold]
    exact List.mem_cons_self
  · rw [hnew]
    exact List.mem_cons_of_mem _ List.mem_cons_self

def nonzeroEnv : Env :=
  { sampleEnv with hash := fun l => BitVec.ofNat 256 (sampleHash l + 1) }

theorem nonzeroEnv_getHash (header : CBlockHeader) : header.getHash nonzeroEnv ≠ 0 := by
  have hlt := sampleHash_lt header.serialize
  intro h0
  have hnat := congrArg BitVec.toNat h0
  have hval : (header.getHash nonzeroEnv).toNat = (sampleHash header.serialize + 1) % 2 ^ 256 :=
    BitVec.toNat_ofNat _ _
  rw [hval, Nat.mod_eq_of_lt (by omega)] at hnat
  cases hnat

def nonzeroBlock (hashPrevBlock : Uint256) (nTime : Nat) : CBlock :=
  let b : CBlock := ⟨⟨65537, hashPrevBlock, 0, nTime, 0x1d00ffff, 0⟩, [sampleCoinbase nTime], none⟩
  { b with hashMerkleRoot := b.buildMerkleTree nonzeroEnv }

def nonzeroGenesis : CBlock := nonzeroBlock 0 1

def nonzeroNodeEnv : NodeEnv :=
  { sampleNodeEnv with
    env := nonzeroEnv
    hashGenesisBlock := nonzeroGenesis.getHash nonzeroEnv }

def nonzeroNode : NodeState :=
  (exec (loadBlockIndex nonzeroNodeEnv nonzeroGenesis) (NodeState.blank sampleWallet)).2

theorem nonzeroNode_started : Started nonzeroEnv nonzeroNodeEnv.hashGenesisBlock nonzeroNode where
  loaded := by
    have hok : (exec (loadBlockIndex nonzeroNodeEnv nonzeroGenesis)
        (NodeState.blank sampleWallet)).1 = .ok () := by decide +kernel
    exact ⟨nonzeroNodeEnv, nonzeroGenesis, sampleWallet, rfl, rfl, rfl, by decide +kernel,
      exec_eta hok⟩

def nonzeroNext : CBlock := nonzeroBlock (nonzeroGenesis.getHash nonzeroEnv) 2

def grownNode : NodeState := (exec (processBlock nonzeroNodeEnv nonzeroNext) nonzeroNode).2

end Namecoin
