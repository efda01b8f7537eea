import Namecoin.Wallet.Balance
import Namecoin.Wallet.NameQueries
import Namecoin.Wallet.SpentFlags

namespace Namecoin

open Std (TreeMap)

structure NameReport where
  value : VchType
  address : StdString
  transferred : Bool
  deriving DecidableEq

structure JsonObject.Reports (o : JsonObject) (r : NameReport) : Prop where
  value : o.get "value" = some (.str r.value)
  address : o.get "address" = some (.str r.address)
  transferred : o.get "transferred" = if r.transferred then some (.int 1) else none

theorem JsonObject.Reports.unique {o : JsonObject} {r r' : NameReport} (h : o.Reports r)
    (h' : o.Reports r') : r = r' := by
  obtain ⟨value, address, transferred⟩ := r
  obtain ⟨value', address', transferred'⟩ := r'
  have hvalue := h.value.symm.trans h'.value
  have haddress := h.address.symm.trans h'.address
  have htransferred := h.transferred.symm.trans h'.transferred
  simp only [Option.some.injEq, JsonValue.str.injEq] at hvalue haddress
  subst hvalue haddress
  cases transferred <;> cases transferred' <;> simp_all

namespace Wallet

section Latest

variable {env : Env} (w : Wallet env) (e : NodeEnv) (s : NodeState)
  (nDecodeHeight : Uint256 → Nat) (vchNameUniq : VchType)

structure OnName (wtx : WalletTx) (vchName vchValue : VchType) : Prop where
  stored : wtx ∈ w.txs
  update : wtx.getNameUpdate nDecodeHeight env = .ok (some (vchName, vchValue))
  asked : vchNameUniq = [] ∨ vchNameUniq = vchName
  inMainChain : wtx.getHeightInMainChain e s ≠ -1

structure LastBy {κ : Type} [LE κ] (key : WalletTx → κ) (wtx : WalletTx)
    (vchName vchValue : VchType) : Prop where
  onName : w.OnName e s nDecodeHeight vchNameUniq wtx vchName vchValue
  last : ∀ other vchOther, w.OnName e s nDecodeHeight vchNameUniq other vchName vchOther →
    key other ≤ key wtx

def chainOrder (wtx : WalletTx) : Int ×ₗ Int :=
  toLex (wtx.getHeightInMainChain e s, wtx.merkle.nIndex)

def mapOrder (env : Env) (wtx : WalletTx) : Int ×ₗ Nat :=
  toLex (wtx.getHeightInMainChain e s, (wtx.merkle.tx.getHash env).toNat)

def nameReport (wtx : WalletTx) (vchValue : VchType) : NameReport where
  value := vchValue
  address := ((getNameAddress env wtx.merkle.tx).toOption.bind id).getD []
  transferred := !w.toCWallet.hookIsMineTx env wtx.merkle.tx

def ListsLatest (oRes : List JsonObject) : Prop :=
  ∀ wtx vchName vchValue, w.OnName e s nDecodeHeight vchNameUniq wtx vchName vchValue →
    ∃ oName ∈ oRes, oName.get "name" = some (.str vchName) ∧
      (∀ o ∈ oRes, o.get "name" = some (.str vchName) → o = oName) ∧
      (∃ last vchLast,
        w.LastBy e s nDecodeHeight vchNameUniq (chainOrder e s) last vchName vchLast) ∧
      ∀ last vchLast,
        w.LastBy e s nDecodeHeight vchNameUniq (chainOrder e s) last vchName vchLast →
          oName.Reports (w.nameReport last vchLast)

def Decodes : Prop := ∀ wtx ∈ w.txs, ∃ r, wtx.getNameUpdate nDecodeHeight env = .ok r

def TiesAgree : Prop :=
  ∀ last win vchName vchLast vchWin,
    w.LastBy e s nDecodeHeight vchNameUniq (chainOrder e s) last vchName vchLast →
    w.LastBy e s nDecodeHeight vchNameUniq (mapOrder e s env) win vchName vchWin →
      w.nameReport last vchLast = w.nameReport win vchWin

end Latest

section Fold

variable {env : Env} {w : Wallet env} {e : NodeEnv} {s : NodeState}
  {nDecodeHeight : Uint256 → Nat} {vchNameUniq : VchType} {wtx : WalletTx}
  {vchName vchValue : VchType} {oName : JsonObject}

theorem OnName.exists_lastBy {κ : Type} [LinearOrder κ] (key : WalletTx → κ)
    (h : w.OnName e s nDecodeHeight vchNameUniq wtx vchName vchValue) :
    ∃ last vchLast, w.LastBy e s nDecodeHeight vchNameUniq key last vchName vchLast := by
  let named : Set WalletTx :=
    {other | ∃ vchOther, w.OnName e s nDecodeHeight vchNameUniq other vchName vchOther}
  have hfin : named.Finite := by
    apply Set.Finite.subset (List.finite_toSet w.txs)
    rintro other ⟨vchOther, hother⟩
    exact hother.stored
  obtain ⟨last, ⟨vchLast, hlast⟩, hmax⟩ :=
    Set.exists_max_image named key hfin ⟨wtx, vchValue, h⟩
  exact ⟨last, vchLast, hlast, fun other vchOther hother => hmax other ⟨vchOther, hother⟩⟩

theorem nameListObject_ok (wtx : WalletTx) (vchName vchValue : VchType) :
    ∃ oName, w.nameListObject e s wtx vchName vchValue = .ok oName := by
  obtain ⟨strAddress, haddress⟩ := getNameAddress_ok env wtx.merkle.tx
  rw [nameListObject, haddress]
  exact ⟨_, rfl⟩

theorem nameListObject_reports (h : w.nameListObject e s wtx vchName vchValue = .ok oName) :
    oName.get "name" = some (.str vchName) ∧ oName.Reports (w.nameReport wtx vchValue) := by
  obtain ⟨strAddress, haddress, h⟩ := Except.bind_eq_ok.mp h
  cases h
  have hreport : w.nameReport wtx vchValue =
      ⟨vchValue, strAddress.getD [], !w.toCWallet.hookIsMineTx env wtx.merkle.tx⟩ := by
    rw [nameReport, haddress]
    rfl
  rw [hreport]
  cases w.toCWallet.hookIsMineTx env wtx.merkle.tx
  · exact ⟨rfl, rfl, rfl, rfl⟩
  · refine ⟨rfl, rfl, rfl, ?_⟩
    rw [expiredPair]
    split <;> rfl

theorem OnName.unique {wtx : WalletTx} {vchName vchValue vchName' vchValue' : VchType}
    (h : w.OnName e s nDecodeHeight vchNameUniq wtx vchName vchValue)
    (h' : w.OnName e s nDecodeHeight vchNameUniq wtx vchName' vchValue') :
    vchName = vchName' ∧ vchValue = vchValue' := by
  have hsame := h.update.symm.trans h'.update
  simpa using hsame

theorem nameListStep_cases {m m' : ListedNames} (hin : wtx ∈ w.txs)
    (h : w.nameListStep e s nDecodeHeight vchNameUniq m wtx = .ok m') :
    (m' = m ∧ ∀ vchName vchValue,
      ¬w.OnName e s nDecodeHeight vchNameUniq wtx vchName vchValue) ∨
    ∃ vchName vchValue oName, w.OnName e s nDecodeHeight vchNameUniq wtx vchName vchValue ∧
      w.nameListObject e s wtx vchName vchValue = .ok oName ∧
      m' = m.put vchName (wtx.getHeightInMainChain e s) oName := by
  obtain ⟨update, hupdate, h⟩ := Except.bind_eq_ok.mp h
  cases update with
  | none =>
    cases h
    refine .inl ⟨rfl, fun vchName vchValue hon => ?_⟩
    cases hupdate.symm.trans hon.update
  | some p =>
    obtain ⟨vchName, vchValue⟩ := p
    have hsame : ∀ n v, w.OnName e s nDecodeHeight vchNameUniq wtx n v → vchName = n := by
      intro n v hon
      have heq := hupdate.symm.trans hon.update
      simp only [Except.ok.injEq, Option.some.injEq, Prod.mk.injEq] at heq
      exact heq.1
    dsimp only at h
    split at h
    · rename_i hother
      cases h
      refine .inl ⟨rfl, fun n v hon => ?_⟩
      have hasked := hon.asked
      rw [← hsame n v hon] at hasked
      exact hasked.elim hother.1 hother.2
    · rename_i hasked
      split at h
      · rename_i hout
        cases h
        exact .inl ⟨rfl, fun n v hon => hon.inMainChain hout⟩
      · rename_i hinMain
        obtain ⟨oName, hobject, h⟩ := Except.bind_eq_ok.mp h
        cases h
        refine .inr ⟨vchName, vchValue, oName, ⟨hin, hupdate, ?_, hinMain⟩, hobject, rfl⟩
        exact or_iff_not_imp_left.mpr fun hne => not_not.mp fun hdiff => hasked ⟨hne, hdiff⟩

theorem nameListStep_ok (w : Wallet env) (e : NodeEnv) (s : NodeState) (vchNameUniq : VchType)
    (m : ListedNames)
    (h : ∃ r, wtx.getNameUpdate nDecodeHeight env = .ok r) :
    ∃ m', w.nameListStep e s nDecodeHeight vchNameUniq m wtx = .ok m' := by
  obtain ⟨update, hupdate⟩ := h
  rw [nameListStep, hupdate]
  cases update with
  | none => exact ⟨m, rfl⟩
  | some p =>
    obtain ⟨oName, hobject⟩ := nameListObject_ok (w := w) (e := e) (s := s) wtx p.1 p.2
    dsimp only [bind, Except.bind]
    split
    · exact ⟨m, rfl⟩
    · split
      · exact ⟨m, rfl⟩
      · rw [hobject]
        exact ⟨_, rfl⟩

theorem put_cases (m : ListedNames) (vchName : VchType) (nHeight : Int) (oName : JsonObject) :
    (∃ nLast oLast, m[vchName]? = some (nLast, oLast) ∧ nHeight < nLast ∧
      m.put vchName nHeight oName = m) ∨
    ((∀ nLast oLast, m[vchName]? = some (nLast, oLast) → nLast ≤ nHeight) ∧
      ∀ vchOther, (m.put vchName nHeight oName)[vchOther]? =
        if vchName = vchOther then some (nHeight, oName) else m[vchOther]?) := by
  have hinsert : ∀ vchOther, (m.insert vchName (nHeight, oName))[vchOther]? =
      if vchName = vchOther then some (nHeight, oName) else m[vchOther]? := by
    intro vchOther
    rw [TreeMap.getElem?_insert]
    simp only [Std.LawfulEqCmp.compare_eq_iff_eq]
  rw [ListedNames.put]
  cases hget : m[vchName]? with
  | none => exact .inr ⟨nofun, hinsert⟩
  | some p =>
    obtain ⟨nLast, oLast⟩ := p
    rcases lt_or_ge nHeight nLast with hlt | hge
    · exact .inl ⟨nLast, oLast, rfl, hlt, if_pos hlt⟩
    · refine .inr ⟨?_, ?_⟩
      · intro nLast' oLast' heq
        cases heq
        exact hge
      · dsimp only
        rw [if_neg (by omega)]
        exact hinsert

theorem mapOrder_of_lt {other : WalletTx}
    (h : other.getHeightInMainChain e s < wtx.getHeightInMainChain e s) :
    mapOrder e s env other ≤ mapOrder e s env wtx :=
  Prod.Lex.toLex_le_toLex.mpr (.inl h)

theorem mapOrder_of_le {other : WalletTx}
    (h : other.getHeightInMainChain e s ≤ wtx.getHeightInMainChain e s)
    (hhash : (other.merkle.tx.getHash env).toNat ≤ (wtx.merkle.tx.getHash env).toNat) :
    mapOrder e s env other ≤ mapOrder e s env wtx := by
  rcases h.lt_or_eq with hlt | heq
  · exact mapOrder_of_lt hlt
  · exact Prod.Lex.toLex_le_toLex.mpr (.inr ⟨heq, hhash⟩)

theorem chainOrder_of_index {other : WalletTx}
    (h : other.getHeightInMainChain e s = wtx.getHeightInMainChain e s)
    (hindex : other.merkle.nIndex ≤ wtx.merkle.nIndex) :
    chainOrder e s other ≤ chainOrder e s wtx :=
  Prod.Lex.toLex_le_toLex.mpr (.inr ⟨h, hindex⟩)

theorem height_of_mapOrder {other : WalletTx}
    (h : mapOrder e s env other ≤ mapOrder e s env wtx) :
    other.getHeightInMainChain e s ≤ wtx.getHeightInMainChain e s := by
  rcases Prod.Lex.toLex_le_toLex.mp h with hlt | ⟨heq, -⟩
  · exact le_of_lt hlt
  · exact le_of_eq heq

structure Listed (w : Wallet env) (e : NodeEnv) (s : NodeState) (nDecodeHeight : Uint256 → Nat)
    (vchNameUniq : VchType) (l : List WalletTx) (m : ListedNames) : Prop where
  every : ∀ wtx ∈ l, ∀ vchName vchValue,
    w.OnName e s nDecodeHeight vchNameUniq wtx vchName vchValue → (m[vchName]?).isSome
  last : ∀ vchName nHeight oName, m[vchName]? = some (nHeight, oName) →
    ∃ wtx ∈ l, ∃ vchValue, w.OnName e s nDecodeHeight vchNameUniq wtx vchName vchValue ∧
      nHeight = wtx.getHeightInMainChain e s ∧
      w.nameListObject e s wtx vchName vchValue = .ok oName ∧
      ∀ other ∈ l, ∀ vchOther, w.OnName e s nDecodeHeight vchNameUniq other vchName vchOther →
        mapOrder e s env other ≤ mapOrder e s env wtx

theorem Listed.keep {l : List WalletTx} {m : ListedNames}
    (h : w.Listed e s nDecodeHeight vchNameUniq l m)
    (hlow : ∀ vchName vchValue, w.OnName e s nDecodeHeight vchNameUniq wtx vchName vchValue →
      ∃ nLast oLast, m[vchName]? = some (nLast, oLast) ∧ wtx.getHeightInMainChain e s < nLast) :
    w.Listed e s nDecodeHeight vchNameUniq (l ++ [wtx]) m := by
  constructor
  · intro other hother n v hn
    rcases List.mem_append.mp hother with hold | hnew
    · exact h.every other hold n v hn
    · cases List.mem_singleton.mp hnew
      obtain ⟨nLast, oLast, hget, -⟩ := hlow n v hn
      rw [hget]
      rfl
  · intro n nHeight o hget
    obtain ⟨win, hwin, v, hwinOn, hheight, hobject, hmax⟩ := h.last n nHeight o hget
    refine ⟨win, List.mem_append_left _ hwin, v, hwinOn, hheight, hobject, ?_⟩
    intro other hother v' hn
    rcases List.mem_append.mp hother with hold | hnew
    · exact hmax other hold v' hn
    · cases List.mem_singleton.mp hnew
      obtain ⟨nLast, oLast, hlast, hlt⟩ := hlow n v' hn
      rw [hget] at hlast
      cases hlast
      exact mapOrder_of_lt (by rwa [← hheight])

theorem Listed.step {l : List WalletTx} {m m' : ListedNames}
    (h : w.Listed e s nDecodeHeight vchNameUniq l m) (hin : wtx ∈ w.txs)
    (hafter : ∀ other ∈ l,
      (other.merkle.tx.getHash env).toNat < (wtx.merkle.tx.getHash env).toNat)
    (hstep : w.nameListStep e s nDecodeHeight vchNameUniq m wtx = .ok m') :
    w.Listed e s nDecodeHeight vchNameUniq (l ++ [wtx]) m' := by
  rcases nameListStep_cases hin hstep with ⟨rfl, hnot⟩ | ⟨vchName, vchValue, oName, hon, hobject, rfl⟩
  · exact h.keep fun n v hn => absurd hn (hnot n v)
  · rcases put_cases m vchName (wtx.getHeightInMainChain e s) oName with
      ⟨nLast, oLast, hget, hlt, hsame⟩ | ⟨hle, hput⟩
    · rw [hsame]
      refine h.keep fun n v hn => ⟨nLast, oLast, ?_, hlt⟩
      rw [(hn.unique hon).1, hget]
    · constructor
      · intro other hother n v hn
        rw [hput]
        split
        · rfl
        · rename_i hne
          rcases List.mem_append.mp hother with hold | hnew
          · exact h.every other hold n v hn
          · cases List.mem_singleton.mp hnew
            exact absurd (hn.unique hon).1.symm hne
      · intro n nHeight o hn
        rw [hput] at hn
        split at hn
        · rename_i heq
          subst heq
          cases hn
          refine ⟨wtx, List.mem_append_right _ (List.mem_singleton_self _), vchValue, hon, rfl,
            hobject, ?_⟩
          intro other hother v' hother'
          rcases List.mem_append.mp hother with hold | hnew
          · obtain ⟨⟨nLast, oLast⟩, hget⟩ :=
              Option.isSome_iff_exists.mp (h.every other hold vchName v' hother')
            obtain ⟨win, -, v, -, hheight, -, hmax⟩ := h.last vchName nLast oLast hget
            have hwin := height_of_mapOrder (hmax other hold v' hother')
            have hlast := hle nLast oLast hget
            exact mapOrder_of_le (by omega) (hafter other hold).le
          · cases List.mem_singleton.mp hnew
            exact le_refl _
        · rename_i hne
          obtain ⟨win, hwin, v, hwinOn, hheight, hobj, hmax⟩ := h.last n nHeight o hn
          refine ⟨win, List.mem_append_left _ hwin, v, hwinOn, hheight, hobj, ?_⟩
          intro other hother v' hother'
          rcases List.mem_append.mp hother with hold | hnew
          · exact hmax other hold v' hother'
          · cases List.mem_singleton.mp hnew
            exact absurd (hother'.unique hon).1.symm hne

theorem nameListStep_decodes {m m' : ListedNames}
    (h : w.nameListStep e s nDecodeHeight vchNameUniq m wtx = .ok m') :
    ∃ r, wtx.getNameUpdate nDecodeHeight env = .ok r := by
  obtain ⟨update, hupdate, -⟩ := Except.bind_eq_ok.mp h
  exact ⟨update, hupdate⟩

def Ascending (env : Env) (l : List WalletTx) : Prop :=
  l.Pairwise (fun wtx wtx' => (wtx.merkle.tx.getHash env).toNat < (wtx'.merkle.tx.getHash env).toNat)

theorem txs_ascending (w : Wallet env) : Ascending env w.txs := by
  apply List.pairwise_map.mpr
  apply (TreeMap.ordered_keys_toList (t := w.mapWallet)).imp_of_mem
  intro p q hp hq hlt
  rw [w.keyed _ _ (TreeMap.mem_toList_iff_getElem?_eq_some.mp hp),
    w.keyed _ _ (TreeMap.mem_toList_iff_getElem?_eq_some.mp hq)]
  exact BitVec.lt_def.mp (compareOfLessAndEq_eq_lt.mp hlt)

theorem Listed.run {rest : List WalletTx} {m' : ListedNames} :
    ∀ {l : List WalletTx} {m : ListedNames}, w.Listed e s nDecodeHeight vchNameUniq l m →
      (∀ wtx ∈ rest, wtx ∈ w.txs) → Ascending env (l ++ rest) →
      rest.foldlM (w.nameListStep e s nDecodeHeight vchNameUniq) m = .ok m' →
        w.Listed e s nDecodeHeight vchNameUniq (l ++ rest) m' ∧
          ∀ wtx ∈ rest, ∃ r, wtx.getNameUpdate nDecodeHeight env = .ok r := by
  induction rest with
  | nil =>
    intro l m h _ _ hrun
    cases hrun
    rw [List.append_nil]
    exact ⟨h, by simp⟩
  | cons wtx rest ih =>
    intro l m h hin hasc hrun
    obtain ⟨hwtx, hrest⟩ := List.forall_mem_cons.mp hin
    rw [List.foldlM_cons] at hrun
    obtain ⟨m₁, hstep, hrun⟩ := Except.bind_eq_ok.mp hrun
    have hafter := (List.pairwise_append.mp hasc).2.2
    have hlisted := h.step hwtx (fun other hother => hafter other hother wtx List.mem_cons_self) hstep
    obtain ⟨hall, hdecode⟩ := ih hlisted hrest (by rwa [List.append_assoc]) hrun
    rw [List.append_assoc] at hall
    exact ⟨hall, List.forall_mem_cons.mpr ⟨nameListStep_decodes hstep, hdecode⟩⟩

theorem foldlM_nameListStep_ok (w : Wallet env) (e : NodeEnv) (s : NodeState)
    (vchNameUniq : VchType) {rest : List WalletTx} :
    ∀ m : ListedNames, (∀ wtx ∈ rest, ∃ r, wtx.getNameUpdate nDecodeHeight env = .ok r) →
      ∃ m', rest.foldlM (w.nameListStep e s nDecodeHeight vchNameUniq) m = .ok m' := by
  induction rest with
  | nil => exact fun m _ => ⟨m, rfl⟩
  | cons wtx rest ih =>
    intro m hdecode
    obtain ⟨hwtx, hrest⟩ := List.forall_mem_cons.mp hdecode
    obtain ⟨m₁, hstep⟩ :=
      nameListStep_ok w e s vchNameUniq m hwtx
    obtain ⟨m', hrun⟩ := ih m₁ hrest
    exact ⟨m', by rw [List.foldlM_cons, hstep]; exact hrun⟩

theorem Listed.empty : w.Listed e s nDecodeHeight vchNameUniq [] ∅ where
  every := by simp
  last := by simp

theorem nameList_listed {oRes : List JsonObject}
    (h : w.nameList e s nDecodeHeight vchNameUniq = .ok oRes) :
    w.Decodes nDecodeHeight ∧ ∃ vNames : ListedNames,
      w.Listed e s nDecodeHeight vchNameUniq w.txs vNames ∧
        oRes = vNames.toList.map (fun p => p.2.2) := by
  obtain ⟨vNames, hrun, h⟩ := Except.bind_eq_ok.mp h
  cases h
  obtain ⟨hlisted, hdecode⟩ :=
    Listed.empty.run (fun _ hin => hin) (by exact w.txs_ascending) hrun
  exact ⟨hdecode, vNames, hlisted, rfl⟩

theorem LastBy.win_unique {win win' : WalletTx} {vchWin vchWin' : VchType}
    (h : w.LastBy e s nDecodeHeight vchNameUniq (mapOrder e s env) win vchName vchWin)
    (h' : w.LastBy e s nDecodeHeight vchNameUniq (mapOrder e s env) win' vchName vchWin') :
    win = win' ∧ vchWin = vchWin' := by
  have hkey := le_antisymm (h'.last win vchWin h.onName) (h.last win' vchWin' h'.onName)
  have hhash : win.merkle.tx.getHash env = win'.merkle.tx.getHash env :=
    BitVec.eq_of_toNat_eq (congrArg (fun k => (ofLex k).2) hkey)
  have hget := mem_txs_iff.mp h.onName.stored
  rw [hhash, mem_txs_iff.mp h'.onName.stored] at hget
  cases hget
  exact ⟨rfl, (h.onName.unique h'.onName).2⟩

theorem Listed.lists {vNames : ListedNames}
    (h : w.Listed e s nDecodeHeight vchNameUniq w.txs vNames)
    (hon : w.OnName e s nDecodeHeight vchNameUniq wtx vchName vchValue) :
    ∃ win vchWin, w.LastBy e s nDecodeHeight vchNameUniq (mapOrder e s env) win vchName vchWin ∧
      ∃ oName ∈ vNames.toList.map (fun p => p.2.2), oName.get "name" = some (.str vchName) ∧
        (∀ o ∈ vNames.toList.map (fun p => p.2.2),
          o.get "name" = some (.str vchName) → o = oName) ∧
        oName.Reports (w.nameReport win vchWin) := by
  obtain ⟨⟨nHeight, oName⟩, hget⟩ :=
    Option.isSome_iff_exists.mp (h.every wtx hon.stored vchName vchValue hon)
  obtain ⟨win, -, vchWin, hwin, -, hobject, hmax⟩ := h.last vchName nHeight oName hget
  obtain ⟨hname, hreports⟩ := nameListObject_reports hobject
  refine ⟨win, vchWin, ⟨hwin, fun other v hother => hmax other hother.stored v hother⟩, oName,
    List.mem_map.mpr ⟨_, TreeMap.mem_toList_iff_getElem?_eq_some.mpr hget, rfl⟩, hname, ?_, hreports⟩
  intro o ho hsame
  obtain ⟨⟨n, nLast, oLast⟩, hpair, rfl⟩ := List.mem_map.mp ho
  have hlast := TreeMap.mem_toList_iff_getElem?_eq_some.mp hpair
  obtain ⟨_, -, _, -, -, hobj, -⟩ := h.last n nLast oLast hlast
  have hn : n = vchName := by
    have heq := (nameListObject_reports hobj).1.symm.trans hsame
    simpa using heq
  rw [hn, hget] at hlast
  cases hlast
  rfl

theorem nameList_latest_iff (w : Wallet env) (e : NodeEnv) (s : NodeState)
    (nDecodeHeight : Uint256 → Nat) (vchNameUniq : VchType) :
    (∃ oRes, w.nameList e s nDecodeHeight vchNameUniq = .ok oRes ∧
      w.ListsLatest e s nDecodeHeight vchNameUniq oRes) ↔
    w.Decodes nDecodeHeight ∧ w.TiesAgree e s nDecodeHeight vchNameUniq := by
  constructor
  · rintro ⟨oRes, hlist, hlatest⟩
    obtain ⟨hdecode, vNames, hlisted, rfl⟩ := nameList_listed hlist
    refine ⟨hdecode, fun last win vchName vchLast vchWin hlast hwin => ?_⟩
    obtain ⟨oName, hin, hname, -, -, hreports⟩ := hlatest last vchName vchLast hlast.onName
    obtain ⟨win', vchWin', hwin', oWin, hinWin, hnameWin, honly, hreportsWin⟩ :=
      hlisted.lists hlast.onName
    obtain ⟨rfl, rfl⟩ := hwin.win_unique hwin'
    have hshown := hreports last vchLast hlast
    rw [honly oName hin hname] at hshown
    exact hshown.unique hreportsWin
  · rintro ⟨hdecode, hties⟩
    obtain ⟨vNames, hrun⟩ := foldlM_nameListStep_ok w e s vchNameUniq ∅ hdecode
    have hlist : w.nameList e s nDecodeHeight vchNameUniq =
        .ok (vNames.toList.map (fun p => p.2.2)) := by
      rw [nameList, hrun]
      rfl
    refine ⟨_, hlist, fun wtx vchName vchValue hon => ?_⟩
    obtain ⟨-, vNames', hlisted, hsame⟩ := nameList_listed hlist
    obtain ⟨win, vchWin, hwin, oName, hin, hname, honly, hreports⟩ := hlisted.lists hon
    rw [hsame]
    refine ⟨oName, hin, hname, honly, hon.exists_lastBy _, fun last vchLast hlast => ?_⟩
    rw [hties last win vchName vchLast vchWin hlast hwin]
    exact hreports

end Fold

end Wallet

def updateTo (hash : Uint256) (n : Nat) (value : UInt8) : CTransaction :=
  sampleTx namecoinTxVersion [(hash, n)]
    [(cent, [UInt8.ofNat (op1 + 2), 1, 100, 1, value, UInt8.ofNat opDrop] ++
      setBitcoinAddress (sampleEnv.hash160 walletPubKey))]

def earlierTx : CTransaction := updateTo 5 1 106

def laterTx : CTransaction := updateTo (earlierTx.getHash sampleEnv) 0 101

def pairHeader : CBlockHeader :=
  ⟨65537, zeroBlock.getHash sampleEnv,
    1202112555179484224130954446221233421316991730103169191353002, 2, 0x1d00ffff, 0⟩

def pairIndex : CBlockIndex :=
  { sampleIndex 2000 1 ⟨pairHeader, [], none⟩ with pprev := some (zeroBlock.getHash sampleEnv) }

def pairNode : NodeState :=
  { zeroNode with
    mapBlockIndex := Function.update zeroNode.mapBlockIndex pairIndex.hashBlock (some pairIndex)
    pindexBest := some pairIndex.hashBlock
    nBestHeight := 1 }

def pairedIn (tx : CTransaction) (nIndex : Int) (vMerkleBranch : List Uint256) : WalletTx :=
  { plainTx with
    merkle := ⟨tx, pairIndex.hashBlock, vMerkleBranch, nIndex⟩
    fMerkleVerified := false }

def earlierWtx : WalletTx := pairedIn earlierTx 1
  [756112603469265085741632313539167322371107004699269120173685,
    1565592813368079991672290324948089642950081942003961119742938]

def laterWtx : WalletTx := pairedIn laterTx 2
  [965096937333080870672148546364281682367460593102135264753736,
    787368463370607161113850491437044516806144488305130338471683]

def pairWallet : Wallet sampleEnv := (blankWallet.putTx earlierWtx).putTx laterWtx

theorem same_block_earlier_listed :
    ¬ ∀ (env : Env) (w : Wallet env) (e : NodeEnv) (s : NodeState) (nDecodeHeight : Uint256 → Nat)
      (vchNameUniq : VchType), ∃ oRes, w.nameList e s nDecodeHeight vchNameUniq = .ok oRes ∧
        w.ListsLatest e s nDecodeHeight vchNameUniq oRes := by
  intro hall
  obtain ⟨oRes, hlist, hlatest⟩ := hall sampleEnv pairWallet sampleNodeEnv pairNode (fun _ => 1) []
  have hlater : pairWallet.OnName sampleNodeEnv pairNode (fun _ => 1) [] laterWtx [100] [101] :=
    ⟨Wallet.mem_txs TreeMap.getElem?_insert_self, by decide +kernel, .inl rfl,
      by decide +kernel⟩
  have hplaces : ∀ other ∈ pairWallet.txs, other.getHeightInMainChain sampleNodeEnv pairNode =
      laterWtx.getHeightInMainChain sampleNodeEnv pairNode ∧
      other.merkle.nIndex ≤ laterWtx.merkle.nIndex := by
    decide +kernel
  have hlast : pairWallet.LastBy sampleNodeEnv pairNode (fun _ => 1) []
      (Wallet.chainOrder sampleNodeEnv pairNode) laterWtx [100] [101] :=
    ⟨hlater, fun other _ hother =>
      have hplace := hplaces other hother.stored
      Wallet.chainOrder_of_index hplace.1 hplace.2⟩
  obtain ⟨oName, hin, -, -, -, hreports⟩ := hlatest laterWtx [100] [101] hlater
  have hvalue := (hreports laterWtx [101] hlast).value
  have hshown : (pairWallet.nameList sampleNodeEnv pairNode (fun _ => 1) []).toOption.map
      (fun oRes => decide (∀ o ∈ oRes, o.get "value" = some (.str [106]))) = some true := by
    decide +kernel
  rw [hlist] at hshown
  have hall106 := of_decide_eq_true (Option.some.inj hshown)
  rw [hall106 oName hin] at hvalue
  cases hvalue

end Namecoin
