import Namecoin.Wallet.Balance
import Namecoin.Wallet.GroupHeap
import Namecoin.Wallet.NameQueries

namespace Namecoin

open Std (ExtTreeMap ExtTreeSet TreeMap)
open Components OrderedMap Relation

def extractDestination (env : Env) (scriptPubKey : CScript) : Option StdString :=
  let address := getBitcoinAddress env scriptPubKey
  if address = [] then none else some address

namespace Wallet

variable {env : Env} (w : Wallet env)

def prevTxOut (txin : CTxIn) : Option CTxOut :=
  (w.mapWallet[txin.prevout.hash]?).bind (fun prev => prev.merkle.tx.vout[txin.prevout.n]?)

def isMineTxIn (txin : CTxIn) : Bool :=
  match w.prevTxOut txin with
  | none => false
  | some txout => w.toCWallet.isMineTxOut txout

def inputAddress (txin : CTxIn) : Option StdString :=
  if w.isMineTxIn txin then
    (w.prevTxOut txin).bind (fun txout => extractDestination env txout.scriptPubKey)
  else none

def changeAddress (txout : CTxOut) : Option StdString :=
  if w.isChange txout then extractDestination env txout.scriptPubKey else none

def mineAddress (txout : CTxOut) : Option StdString :=
  if w.toCWallet.isMineTxOut txout then extractDestination env txout.scriptPubKey else none

def joinedAddresses (tx : CTransaction) : Grouping :=
  let grouping := insertSome w.inputAddress tx.vin ∅
  let any_mine := tx.vin.any (fun txin => (w.inputAddress txin).isSome)
  if any_mine then insertSome w.changeAddress tx.vout grouping else grouping

def groupTx (groupings : GroupingSet) (wtx : WalletTx) : GroupingSet :=
  let tx := wtx.merkle.tx
  let grouping := w.joinedAddresses tx
  let groupings := if 0 < grouping.size then groupings.insert grouping else groupings
  insertSome (fun txout => (w.mineAddress txout).map (fun a => (∅ : Grouping).insert a)) tx.vout
    groupings

def getAddressGroupings (alloc : Allocator) : Except Fault GroupingSet := do
  let groupings := w.txs.foldl w.groupTx ∅
  let s ← groupings.toList.foldlM (UnionState.mergeGrouping alloc) UnionState.empty
  s.collect s.uniqueGroupings.toList ∅

end Wallet

namespace Wallet

variable {env : Env} (w : Wallet env) {tx : CTransaction} {a b : StdString}

def OwnInput (tx : CTransaction) : Prop := ∃ txin ∈ tx.vin, w.isMineTxIn txin = true

def OwnInputAddress (tx : CTransaction) (a : StdString) : Prop :=
  ∃ txin ∈ tx.vin, w.inputAddress txin = some a

def ChangeAddress (tx : CTransaction) (a : StdString) : Prop :=
  ∃ txout ∈ tx.vout, w.changeAddress txout = some a

def MineAddress (tx : CTransaction) (a : StdString) : Prop :=
  ∃ txout ∈ tx.vout, w.mineAddress txout = some a

def Grouped (a : StdString) : Prop := ∃ wtx ∈ w.txs,
  w.MineAddress wtx.merkle.tx a ∨ (w.OwnInput wtx.merkle.tx ∧ w.ChangeAddress wtx.merkle.tx a)

def Joins (tx : CTransaction) (a : StdString) : Prop :=
  w.OwnInputAddress tx a ∨ ((∃ x, w.OwnInputAddress tx x) ∧ w.ChangeAddress tx a)

def Joined (a b : StdString) : Prop :=
  ∃ wtx ∈ w.txs, w.Joins wtx.merkle.tx a ∧ w.Joins wtx.merkle.tx b

def groupings : GroupingSet := w.txs.foldl w.groupTx ∅

variable {w}

theorem mem_joinedAddresses : a ∈ w.joinedAddresses tx ↔ w.Joins tx a := by
  unfold joinedAddresses Joins OwnInputAddress ChangeAddress
  have hany : tx.vin.any (fun txin => (w.inputAddress txin).isSome) = true ↔
      ∃ x, ∃ txin ∈ tx.vin, w.inputAddress txin = some x := by
    simp only [List.any_eq_true, Option.isSome_iff_exists]
    tauto
  dsimp only
  split
  · rename_i hmine
    rw [mem_insertSome, mem_insertSome]
    simp only [ExtTreeSet.not_mem_empty, false_or, hany.mp hmine, true_and]
  · rename_i hmine
    rw [hany] at hmine
    rw [mem_insertSome]
    simp only [ExtTreeSet.not_mem_empty, false_or, hmine, false_and, or_false]

theorem size_pos_iff {g : Grouping} : 0 < g.size ↔ ∃ a, a ∈ g := by
  rw [← ExtTreeSet.length_toList, List.length_pos_iff_exists_mem]
  simp only [ExtTreeSet.mem_toList]

theorem mem_singletonGroup : b ∈ (∅ : Grouping).insert a ↔ a = b := by
  rw [ExtTreeSet.mem_insert, Std.LawfulEqCmp.compare_eq_iff_eq]
  simp only [ExtTreeSet.not_mem_empty, or_false]

theorem mem_groupTx {groupings : GroupingSet} {wtx : WalletTx} {g : Grouping} :
    g ∈ w.groupTx groupings wtx ↔ g ∈ groupings ∨
      (g = w.joinedAddresses wtx.merkle.tx ∧ ∃ x, w.Joins wtx.merkle.tx x) ∨
      ∃ x, w.MineAddress wtx.merkle.tx x ∧ (∅ : Grouping).insert x = g := by
  have hlone : (∃ txout ∈ wtx.merkle.tx.vout,
      (w.mineAddress txout).map (fun x => (∅ : Grouping).insert x) = some g) ↔
        ∃ x, w.MineAddress wtx.merkle.tx x ∧ (∅ : Grouping).insert x = g := by
    simp only [MineAddress, Option.map_eq_some_iff]
    tauto
  have hsize : 0 < (w.joinedAddresses wtx.merkle.tx).size ↔ ∃ x, w.Joins wtx.merkle.tx x := by
    rw [size_pos_iff]
    simp only [mem_joinedAddresses]
  rw [groupTx, mem_insertSome, hlone, ← or_assoc]
  refine or_congr_left ?_
  split
  · rename_i hpos
    rw [ExtTreeSet.mem_insert, Std.LawfulEqCmp.compare_eq_iff_eq]
    simp only [hsize.mp hpos, and_true]
    tauto
  · rename_i hnone
    rw [hsize] at hnone
    simp only [hnone, and_false, or_false]

theorem mem_groupings {g : Grouping} : g ∈ w.groupings ↔ ∃ wtx ∈ w.txs,
    (g = w.joinedAddresses wtx.merkle.tx ∧ ∃ x, w.Joins wtx.merkle.tx x) ∨
      ∃ x, w.MineAddress wtx.merkle.tx x ∧ (∅ : Grouping).insert x = g := by
  have hrun : ∀ (l : List WalletTx) (groupings : GroupingSet), g ∈ l.foldl w.groupTx groupings ↔
      g ∈ groupings ∨ ∃ wtx ∈ l,
        (g = w.joinedAddresses wtx.merkle.tx ∧ ∃ x, w.Joins wtx.merkle.tx x) ∨
          ∃ x, w.MineAddress wtx.merkle.tx x ∧ (∅ : Grouping).insert x = g := by
    intro l
    induction l with
    | nil => simp
    | cons wtx l ih =>
      intro groupings
      rw [List.foldl_cons, ih, mem_groupTx, List.exists_mem_cons_iff, or_assoc]
  rw [groupings, hrun]
  simp only [ExtTreeSet.not_mem_empty, false_or]

theorem ownInput_mine (h : w.OwnInputAddress tx a) :
    ∃ wtx ∈ w.txs, w.MineAddress wtx.merkle.tx a := by
  obtain ⟨txin, -, haddress⟩ := h
  unfold inputAddress at haddress
  split at haddress
  · rename_i hmine
    unfold isMineTxIn at hmine
    obtain ⟨txout, hprev, hdest⟩ := Option.bind_eq_some_iff.mp haddress
    rw [hprev] at hmine
    obtain ⟨prev, hget, hout⟩ := Option.bind_eq_some_iff.mp hprev
    refine ⟨prev, mem_txs hget, txout, List.mem_of_getElem? hout, ?_⟩
    rw [mineAddress, if_pos hmine, hdest]
  · cases haddress

theorem change_mine (h : w.ChangeAddress tx a) : w.MineAddress tx a := by
  obtain ⟨txout, hout, haddress⟩ := h
  unfold changeAddress at haddress
  split at haddress
  · rename_i hchange
    exact ⟨txout, hout, by rw [mineAddress, if_pos (isMineTxOut_change hchange), haddress]⟩
  · cases haddress

theorem grouping_nonempty {g : Grouping} (h : g ∈ w.groupings) : ∃ x, x ∈ g := by
  obtain ⟨wtx, -, ⟨rfl, x, hx⟩ | ⟨x, -, rfl⟩⟩ := mem_groupings.mp h
  · exact ⟨x, mem_joinedAddresses.mpr hx⟩
  · exact ⟨x, mem_singletonGroup.mpr rfl⟩

theorem family_covers : (∃ h ∈ UnionState.family w.groupings.toList, a ∈ h) ↔ w.Grouped a := by
  constructor
  · rintro ⟨_, ⟨g, hg, rfl⟩, ha⟩
    obtain ⟨wtx, hwtx, ⟨rfl, -⟩ | ⟨x, hx, rfl⟩⟩ := mem_groupings.mp (ExtTreeSet.mem_toList.mp hg)
    · rcases mem_joinedAddresses.mp ha with hown | ⟨-, hchange⟩
      · obtain ⟨prev, hprev, hmine⟩ := ownInput_mine hown
        exact ⟨prev, hprev, .inl hmine⟩
      · exact ⟨wtx, hwtx, .inl (change_mine hchange)⟩
    · rw [← mem_singletonGroup.mp ha]
      exact ⟨wtx, hwtx, .inl hx⟩
  · rintro ⟨wtx, hwtx, hcase⟩
    have hmine : w.MineAddress wtx.merkle.tx a := by
      rcases hcase with hmine | ⟨-, hchange⟩
      · exact hmine
      · exact change_mine hchange
    refine ⟨_, ⟨(∅ : Grouping).insert a, ?_, rfl⟩, mem_singletonGroup.mpr rfl⟩
    exact ExtTreeSet.mem_toList.mpr (mem_groupings.mpr ⟨wtx, hwtx, .inr ⟨a, hmine, rfl⟩⟩)

theorem family_together : ReflTransGen (Together (UnionState.family w.groupings.toList)) a b ↔
    ReflTransGen w.Joined a b := by
  apply linked_or_eq
  · rintro x y ⟨wtx, hwtx, hx, hy⟩
    have hmem : w.joinedAddresses wtx.merkle.tx ∈ w.groupings :=
      mem_groupings.mpr ⟨wtx, hwtx, .inl ⟨rfl, x, hx⟩⟩
    exact ⟨_, ⟨_, ExtTreeSet.mem_toList.mpr hmem, rfl⟩, mem_joinedAddresses.mpr hx,
      mem_joinedAddresses.mpr hy⟩
  · rintro x y ⟨_, ⟨g, hg, rfl⟩, hx, hy⟩
    obtain ⟨wtx, hwtx, ⟨rfl, -⟩ | ⟨z, -, rfl⟩⟩ := mem_groupings.mp (ExtTreeSet.mem_toList.mp hg)
    · exact .inl ⟨wtx, hwtx, mem_joinedAddresses.mp hx, mem_joinedAddresses.mp hy⟩
    · exact .inr ((mem_singletonGroup.mp hx).symm.trans (mem_singletonGroup.mp hy))

theorem groups_run (w : Wallet env) (alloc : Allocator) : ∃ ret, w.getAddressGroupings alloc = .ok ret ∧
    Classes (UnionState.family w.groupings.toList) {h | ∃ g ∈ ret, h = {a | a ∈ g}} := by
  have hne : ∀ g ∈ w.groupings.toList, ∃ a, a ∈ g :=
    fun g hg => grouping_nonempty (ExtTreeSet.mem_toList.mp hg)
  have hempty : Classes ∅ UnionState.empty.blocks := by
    rw [UnionState.blocks_empty]
    exact Classes.empty
  obtain ⟨s, hrun, hs, hc⟩ := UnionState.mergeGroupings_run alloc hne UnionState.Sound.empty hempty
  rw [Set.empty_union] at hc
  have hd : s.uniqueGroupings.toList.Nodup :=
    ExtTreeSet.distinct_toList.imp fun hne heq => hne (Nat.compare_eq_eq.mpr heq)
  have hheap : ∀ p, p ∈ s.uniqueGroupings.toList ↔ ∃ g, s.heap[p]? = some g := by
    intro p
    rw [ExtTreeSet.mem_toList, hs.live, UnionState.mem_heap_iff]
  obtain ⟨ret, hcollect, hmem⟩ := UnionState.collect_run hd (fun p hp => (hheap p).mp hp) ∅
  have hblocks : {h : Set StdString | ∃ g ∈ ret, h = {a | a ∈ g}} = s.blocks := by
    ext h
    constructor
    · rintro ⟨g, hg, rfl⟩
      rcases (hmem g).mp hg with hnone | ⟨p, -, hp⟩
      · exact absurd hnone ExtTreeSet.not_mem_empty
      · exact ⟨p, g, hp, rfl⟩
    · rintro ⟨p, g, hp, rfl⟩
      exact ⟨g, (hmem g).mpr (.inr ⟨p, (hheap p).mpr ⟨g, hp⟩, hp⟩), rfl⟩
  refine ⟨ret, Except.bind_eq_ok.mpr ⟨s, hrun, hcollect⟩, ?_⟩
  rwa [hblocks]

theorem exists_block {ret : GroupingSet} {Q : Set StdString → Prop} :
    (∃ h ∈ {h : Set StdString | ∃ g ∈ ret, h = {a | a ∈ g}}, Q h) ↔ ∃ g ∈ ret, Q {a | a ∈ g} := by
  constructor
  · rintro ⟨_, ⟨g, hg, rfl⟩, hQ⟩
    exact ⟨g, hg, hQ⟩
  · rintro ⟨g, hg, hQ⟩
    exact ⟨_, ⟨g, hg, rfl⟩, hQ⟩

theorem addressGroupings_components (w : Wallet env) (alloc : Allocator) :
    ∃ ret, w.getAddressGroupings alloc = .ok ret ∧
      (∀ g ∈ ret, ∃ a, a ∈ g) ∧
      (∀ g ∈ ret, ∀ g' ∈ ret, (∃ a, a ∈ g ∧ a ∈ g') → g = g') ∧
      (∀ a, (∃ g ∈ ret, a ∈ g) ↔ w.Grouped a) ∧
      ∀ a b, (∃ g ∈ ret, a ∈ g ∧ b ∈ g) ↔ w.Grouped a ∧ ReflTransGen w.Joined a b := by
  obtain ⟨ret, hrun, hc⟩ := w.groups_run alloc
  refine ⟨ret, hrun, ?_, ?_, ?_, ?_⟩
  · intro g hg
    exact hc.nonempty _ ⟨g, hg, rfl⟩
  · rintro g hg g' hg' ⟨a, ha, ha'⟩
    have hsame := hc.disjoint _ ⟨g, hg, rfl⟩ _ ⟨g', hg', rfl⟩ a ha ha'
    exact ExtTreeSet.ext_mem fun x => Set.ext_iff.mp hsame x
  · intro a
    rw [← family_covers, ← hc.covers]
    exact (exists_block (Q := fun h => a ∈ h)).symm
  · intro a b
    rw [← family_covers, ← family_together, ← hc.same_iff]
    exact (exists_block (Q := fun h => a ∈ h ∧ b ∈ h)).symm

def JoinsAny (w : Wallet env) (tx : CTransaction) (a : StdString) : Prop :=
  w.OwnInput tx ∧ (w.OwnInputAddress tx a ∨ w.ChangeAddress tx a)

def JoinedAny (w : Wallet env) (a b : StdString) : Prop :=
  ∃ wtx ∈ w.txs, w.JoinsAny wtx.merkle.tx a ∧ w.JoinsAny wtx.merkle.tx b

end Wallet

section Watched

def topAllocator : Allocator where
  new heap := (heap.toList.map Prod.fst).sum + 1
  fresh heap := by
    intro hmem
    obtain ⟨g, hg⟩ := UnionState.mem_heap_iff.mp hmem
    have hle := List.le_sum_of_mem (List.mem_map_of_mem (f := Prod.fst)
      (ExtTreeMap.mem_toList_iff_getElem?_eq_some.mpr hg))
    omega

def watched (b : UInt8) : Uint160 := uint160 (List.replicate 20 b)

def watchedKeys : CKeyStore :=
  ((CKeyStore.empty.addAddress uint160Null).addAddress (watched 1)).addAddress (watched 2)

def bareWalletTx (tx : CTransaction) : WalletTx :=
  ⟨⟨⟨tx, 0, [], -1⟩, 0, false, []⟩, false, [], [], none, none, none, none⟩

def paidTx : CTransaction :=
  ⟨1, [⟨⟨5, 0⟩, [], uintMax⟩], [⟨10, setBitcoinAddress uint160Null⟩], 0⟩

def splitTx : CTransaction :=
  ⟨1, [⟨⟨paidTx.getHash sampleEnv, 0⟩, [], uintMax⟩],
    [⟨1, setBitcoinAddress (watched 1)⟩, ⟨1, setBitcoinAddress (watched 2)⟩], 0⟩

def watchedWallet : Wallet sampleEnv :=
  ((⟨watchedKeys, ∅, ∅, 0, keyed_empty _⟩ : Wallet sampleEnv).putTx (bareWalletTx paidTx)).putTx
    (bareWalletTx splitTx)

def watchedAddress (b : UInt8) : StdString := hash160ToAddress sampleEnv (watched b)

theorem watched_inputs : ∀ wtx ∈ watchedWallet.txs, ∀ txin ∈ wtx.merkle.tx.vin,
    watchedWallet.inputAddress txin = none := by
  decide +kernel

theorem watched_split : bareWalletTx splitTx ∈ watchedWallet.txs ∧
    (∃ txin ∈ splitTx.vin, watchedWallet.isMineTxIn txin = true) ∧
    splitTx.vout.map watchedWallet.changeAddress =
      [some (watchedAddress 1), some (watchedAddress 2)] ∧
    watchedAddress 1 ≠ watchedAddress 2 := by
  refine ⟨?_, by decide +kernel, by decide +kernel, by decide +kernel⟩
  exact Wallet.mem_txs TreeMap.getElem?_insert_self

theorem addressGroupings_watched : ¬ ∀ (w : Wallet sampleEnv) (alloc : Allocator),
    ∃ ret, w.getAddressGroupings alloc = .ok ret ∧
      (∀ g ∈ ret, ∃ a, a ∈ g) ∧
      (∀ g ∈ ret, ∀ g' ∈ ret, (∃ a, a ∈ g ∧ a ∈ g') → g = g') ∧
      (∀ a, (∃ g ∈ ret, a ∈ g) ↔ w.Grouped a) ∧
      ∀ a b, (∃ g ∈ ret, a ∈ g ∧ b ∈ g) ↔ w.Grouped a ∧ ReflTransGen w.JoinedAny a b := by
  intro hall
  obtain ⟨ret, hrun, -, -, -, hsame⟩ := hall watchedWallet topAllocator
  obtain ⟨ret', hrun', hc⟩ := watchedWallet.groups_run topAllocator
  rw [hrun] at hrun'
  cases hrun'
  obtain ⟨hsplit, hown, haddresses, hne⟩ := watched_split
  have hchange : ∀ a, some a ∈ splitTx.vout.map watchedWallet.changeAddress →
      watchedWallet.ChangeAddress splitTx a := by
    intro a ha
    obtain ⟨txout, hout, heq⟩ := List.mem_map.mp ha
    exact ⟨txout, hout, heq⟩
  rw [haddresses] at hchange
  have hfirst := hchange (watchedAddress 1) (by simp)
  have hsecond := hchange (watchedAddress 2) (by simp)
  have hjoined : watchedWallet.JoinedAny (watchedAddress 1) (watchedAddress 2) :=
    ⟨_, hsplit, ⟨hown, .inr hfirst⟩, ⟨hown, .inr hsecond⟩⟩
  have hgrouped : watchedWallet.Grouped (watchedAddress 1) := ⟨_, hsplit, .inr ⟨hown, hfirst⟩⟩
  obtain ⟨g, hg, hin⟩ := (hsame _ _).mpr ⟨hgrouped, .single hjoined⟩
  have hlinked := Wallet.family_together.mp (hc.linked _ ⟨g, hg, rfl⟩ _ hin.1 _ hin.2)
  -- no own input has an address, so no transaction of the wallet joins any two
  have hnone : ∀ a b, ¬ watchedWallet.Joined a b := by
    have hinput : ∀ wtx ∈ watchedWallet.txs, ∀ a, ¬ watchedWallet.OwnInputAddress wtx.merkle.tx a := by
      rintro wtx hwtx a ⟨txin, hin, haddress⟩
      rw [watched_inputs wtx hwtx txin hin] at haddress
      cases haddress
    rintro a b ⟨wtx, hwtx, hown | ⟨⟨x, hown⟩, -⟩, -⟩
    · exact hinput wtx hwtx a hown
    · exact hinput wtx hwtx x hown
  rcases hlinked.cases_head with heq | ⟨x, hstep, -⟩
  · exact hne heq
  · exact hnone _ _ hstep

end Watched

end Namecoin
