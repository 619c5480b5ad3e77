import FalconLedger.Ledger.DirectoryPages
import FalconLedger.Data.LinkedRing

/-!
# The pages of a directory stay chained

`Chained`: the pages form a ring, in ascending order from the root, whose page `0` links back to the
last one; none has too many entries, and none but the root is empty. The operations keep it. So no
page is created twice, every link leads to a page, and no `logic_error` is thrown. Each operation is
described by what it makes of `listed`, the entries page by page.
-/

namespace FalconLedger.Directory

open scoped List

variable {K D : Type} {directory key : K} {d d' : Directory K D} {node : DirectoryNode K D}
  {p q : UInt64} {rest : List UInt64}

/-! ### What is read from the pages -/

/-- The forward link of a page. -/
def nextOf (d : Directory K D) (p : UInt64) : UInt64 := (d.lookup p).elim 0 DirectoryNode.next

/-- The backward link of a page. -/
def prevOf (d : Directory K D) (p : UInt64) : UInt64 := (d.lookup p).elim 0 DirectoryNode.previous

/-- The entries of a page. -/
def listed (d : Directory K D) (p : UInt64) : List K := (d.lookup p).elim [] DirectoryNode.indexes

/-- The entries of all pages. -/
def contents (d : Directory K D) : List K := d.entries.flatMap fun e => e.2.indexes

theorem nextOf_of_lookup (h : d.lookup p = some node) : nextOf d p = node.next := by
  rw [nextOf, h, Option.elim_some]

theorem prevOf_of_lookup (h : d.lookup p = some node) : prevOf d p = node.previous := by
  rw [prevOf, h, Option.elim_some]

theorem listed_of_lookup (h : d.lookup p = some node) : listed d p = node.indexes := by
  rw [listed, h, Option.elim_some]

theorem listed_of_none (h : d.lookup p = none) : listed d p = [] := by
  rw [listed, h, Option.elim_none]

private theorem elim_lookup_insert {β : Type} (b : β) (f : DirectoryNode K D → β) :
    (fun q => ((d.insert p node).lookup q).elim b f) =
      Function.update (fun q => (d.lookup q).elim b f) p (f node) := by
  funext q
  by_cases hq : q = p
  · subst hq
    simp
  · simp [hq, AList.lookup_insert_ne hq]

private theorem elim_lookup_erase {β : Type} (b : β) (f : DirectoryNode K D → β) :
    (fun q => ((d.erase p).lookup q).elim b f) =
      Function.update (fun q => (d.lookup q).elim b f) p b := by
  funext q
  by_cases hq : q = p
  · subst hq
    simp
  · simp [hq, AList.lookup_erase_ne hq]

@[simp] theorem nextOf_insert :
    nextOf (d.insert p node) = Function.update (nextOf d) p node.next := elim_lookup_insert _ _

@[simp] theorem prevOf_insert :
    prevOf (d.insert p node) = Function.update (prevOf d) p node.previous := elim_lookup_insert _ _

@[simp] theorem listed_insert :
    listed (d.insert p node) = Function.update (listed d) p node.indexes := elim_lookup_insert _ _

@[simp] theorem nextOf_erase : nextOf (d.erase p) = Function.update (nextOf d) p 0 :=
  elim_lookup_erase _ _

@[simp] theorem prevOf_erase : prevOf (d.erase p) = Function.update (prevOf d) p 0 :=
  elim_lookup_erase _ _

@[simp] theorem listed_erase : listed (d.erase p) = Function.update (listed d) p [] :=
  elim_lookup_erase _ _

theorem nextOf_insert_same (h : d.lookup p = some node) {node' : DirectoryNode K D}
    (hnext : node'.next = node.next) : nextOf (d.insert p node') = nextOf d := by
  rw [nextOf_insert, hnext, ← nextOf_of_lookup h, Function.update_eq_self]

theorem prevOf_insert_same (h : d.lookup p = some node) {node' : DirectoryNode K D}
    (hprev : node'.previous = node.previous) : prevOf (d.insert p node') = prevOf d := by
  rw [prevOf_insert, hprev, ← prevOf_of_lookup h, Function.update_eq_self]

/-- What a page holds beside its links. -/
def core (node : DirectoryNode K D) : K × List K := (node.rootIndex, node.indexes)

theorem listed_congr (h : (d'.lookup q).map core = (d.lookup q).map core) :
    listed d' q = listed d q := by
  have hlisted : ∀ o : Option (DirectoryNode K D),
      o.elim [] DirectoryNode.indexes = (o.map core).elim [] Prod.snd := fun o => by cases o <;> rfl
  rw [listed, listed, hlisted, hlisted, h]

theorem isSome_congr (h : (d'.lookup q).map core = (d.lookup q).map core) :
    (d'.lookup q).isSome = (d.lookup q).isSome := by
  rw [← Option.isSome_map, h, Option.isSome_map]

/-! ### The view -/

theorem peek_of_lookup (h : d.lookup p = some node) (e : DirectoryError) :
    d.peek p e = .ok node := by
  rw [peek, h]

theorem update_of_lookup (h : d.lookup p = some node)
    (f : DirectoryNode K D → DirectoryNode K D) : d.update p f = .ok (d.insert p (f node)) := by
  rw [update, peek_of_lookup h]
  rfl

theorem eraseNode_of_lookup (h : d.lookup p = some node) : d.eraseNode p = .ok (d.erase p) := by
  rw [eraseNode, peek_of_lookup h]
  rfl

theorem insertNode_of_none (h : d.lookup p = none) :
    d.insertNode p node = .ok (d.insert p node) := by
  simp [insertNode, h]

theorem update_indexNext (h : (d.lookup p).isSome) (n : UInt64) :
    ∃ d', d.update p (fun node => { node with indexNext := some n }) = .ok d' ∧
      nextOf d' = Function.update (nextOf d) p n ∧ prevOf d' = prevOf d ∧
      Table.SameOn core d d' := by
  obtain ⟨node, hp⟩ := Option.isSome_iff_exists.mp h
  exact ⟨_, update_of_lookup hp _, nextOf_insert, prevOf_insert_same hp rfl,
    (Table.SameOn.refl _ _).insert hp rfl⟩

theorem update_indexPrevious (h : (d.lookup p).isSome) (n : UInt64) :
    ∃ d', d.update p (fun node => { node with indexPrevious := some n }) = .ok d' ∧
      nextOf d' = nextOf d ∧ prevOf d' = Function.update (prevOf d) p n ∧
      Table.SameOn core d d' := by
  obtain ⟨node, hp⟩ := Option.isSome_iff_exists.mp h
  exact ⟨_, update_of_lookup hp _, nextOf_insert_same hp rfl, prevOf_insert,
    (Table.SameOn.refl _ _).insert hp rfl⟩

/-! ### The invariant -/

/-- The pages are the root and those of `rest`, linked in a ring in this order. -/
structure Chained (directory : K) (d : Directory K D) (rest : List UInt64) : Prop where
  ring : LinkedRing (nextOf d) (prevOf d) 0 rest
  ascending : (0 :: rest).Pairwise (· < ·)
  pages : ∀ p, (d.lookup p).isSome ↔ p ∈ 0 :: rest
  bounded : ∀ p, (listed d p).length ≤ kDirNodeMaxEntries
  nonempty : ∀ p ∈ rest, listed d p ≠ []
  rootIndex : ∀ p node, d.lookup p = some node → node.rootIndex = directory

/-- There are no pages, or they are chained. -/
def Intact (directory : K) (d : Directory K D) : Prop :=
  (∀ p, d.lookup p = none) ∨ ∃ rest, Chained directory d rest

theorem Chained.exists_node (h : Chained directory d rest) (hp : p ∈ 0 :: rest) :
    ∃ node, d.lookup p = some node :=
  Option.isSome_iff_exists.mp ((h.pages p).mpr hp)

theorem Chained.mem_of_lookup (h : Chained directory d rest) (hp : d.lookup p = some node) :
    p ∈ 0 :: rest :=
  (h.pages p).mp (by rw [hp, Option.isSome_some])

theorem Chained.setIndexes (h : Chained directory d rest) (hp : d.lookup p = some node)
    {l : List K} (hbound : l.length ≤ kDirNodeMaxEntries) (hne : p ≠ 0 → l ≠ []) :
    Chained directory (d.insert p { node with indexes := l }) rest := by
  refine ⟨?_, h.ascending, fun q => ?_, fun q => ?_, fun q hq => ?_, fun q node' hq => ?_⟩
  · rw [nextOf_insert_same hp (by rfl), prevOf_insert_same hp (by rfl)]
    exact h.ring
  · by_cases hqp : q = p
    · subst hqp
      simp [h.mem_of_lookup hp]
    · rw [AList.lookup_insert_ne hqp]
      exact h.pages q
  · rw [listed_insert, Function.update_apply]
    split
    · exact hbound
    · exact h.bounded q
  · rw [listed_insert, Function.update_apply]
    split
    · rename_i hqp
      refine hne fun hzero => ?_
      rw [hqp, hzero] at hq
      exact (List.nodup_cons.mp h.ring.nodup).1 hq
    · exact h.nonempty q hq
  · by_cases hqp : q = p
    · subst hqp
      rw [AList.lookup_insert, Option.some.injEq] at hq
      rw [← hq]
      exact h.rootIndex q node hp
    · rw [AList.lookup_insert_ne hqp] at hq
      exact h.rootIndex q node' hq

theorem Intact.keys_perm (h : Intact directory d) :
    d = ∅ ∨ ∃ rest, d.keys ~ 0 :: rest ∧ Chained directory d rest := by
  rcases h with hnone | ⟨rest, h⟩
  · refine .inl (AList.ext (List.eq_nil_iff_forall_not_mem.mpr fun e he => ?_))
    have hlookup : d.lookup e.1 = some e.2 := AList.mem_lookup_iff.mpr he
    rw [hnone] at hlookup
    cases hlookup
  · refine .inr ⟨rest, ?_, h⟩
    refine (List.perm_ext_iff_of_nodup d.keys_nodup h.ring.nodup).mpr fun p => ?_
    rw [← AList.mem_keys, ← AList.lookup_isSome, h.pages]

/-! ### Adding an entry -/

section Add

variable [LinearOrder K] {describe : D} {fixDirectoryLimit preserveOrder : Bool}

theorem withKey_of_notMem (preserveOrder : Bool) {l : List K} (h : key ∉ l) :
    ∃ l', withKey preserveOrder l key = .ok l' ∧ l' ~ key :: l := by
  cases preserveOrder with
  | true => exact ⟨l ++ [key], by simp [withKey, h], List.perm_append_singleton key l⟩
  | false =>
    have hsorted := List.perm_insertionSort (· ≤ ·) l
    set sorted := l.insertionSort (· ≤ ·) with hdef
    have hhead : (sorted.dropWhile fun k => decide (k < key)).head? ≠ some key := fun heq => by
      have hmem := (List.dropWhile_sublist _).subset (List.mem_of_head? heq)
      exact h (hsorted.mem_iff.mp hmem)
    refine ⟨sorted.takeWhile (fun k => decide (k < key)) ++
      key :: sorted.dropWhile fun k => decide (k < key), by simp [withKey, ← hdef, hhead], ?_⟩
    refine List.perm_middle.trans ?_
    rw [List.takeWhile_append_dropWhile]
    exact hsorted.cons key

theorem lt_add_one_of_ne_zero (h : p + 1 ≠ 0) : p < p + 1 := by
  have hne : (p + 1).toNat ≠ 0 := fun heq => h (UInt64.toNat_inj.mp (by simpa using heq))
  rw [UInt64.lt_iff_toNat_lt]
  rw [UInt64.toNat_add, UInt64.toNat_one] at hne ⊢
  have hlt := p.toNat_lt
  omega

omit [LinearOrder K] in
theorem Chained.lt_of_last_lt (h : Chained directory d rest) (hlt : prevOf d 0 < p)
    (hq : q ∈ 0 :: rest) : q < p := by
  rw [h.ring.prev_root] at hlt
  have hascending := h.ascending
  rw [← List.dropLast_append_getLast (List.cons_ne_nil 0 rest), List.pairwise_append] at hascending
  rw [← List.dropLast_append_getLast (List.cons_ne_nil 0 rest), List.mem_append,
    List.mem_singleton] at hq
  rcases hq with hq | rfl
  · exact UInt64.lt_trans (hascending.2.2 q hq _ List.mem_cons_self) hlt
  · exact hlt

omit [LinearOrder K] in
theorem insertPage_spec (key : K) (describe : D) (fixDirectoryLimit : Bool)
    (h : Chained directory d rest) {page : UInt64}
    (hpage : page = prevOf d 0) :
    d.insertPage page key directory describe fixDirectoryLimit = .ok none ∨
      ∃ d', d.insertPage page key directory describe fixDirectoryLimit =
          .ok (some (page + 1, d')) ∧
        Chained directory d' (rest ++ [page + 1]) ∧ page + 1 ∉ 0 :: rest ∧
        listed d' = Function.update (listed d) (page + 1) [key] := by
  by_cases hnew : page + 1 = 0
  · exact .inl (by simp only [insertPage, hnew, if_true])
  by_cases hlimit : !fixDirectoryLimit ∧ kDirNodeMaxPages ≤ page + 1
  · exact .inl (by simp only [insertPage, if_neg hnew, if_pos hlimit])
  right
  have hlt : prevOf d 0 < page + 1 := hpage ▸ lt_add_one_of_ne_zero hnew
  have hafter : ∀ q ∈ 0 :: rest, q < page + 1 := fun q hq => h.lt_of_last_lt hlt hq
  have hfresh : page + 1 ∉ 0 :: rest := fun hmem => UInt64.lt_irrefl _ (hafter _ hmem)
  have hnone : d.lookup (page + 1) = none := by
    rw [← Option.not_isSome_iff_eq_none, h.pages]
    exact hfresh
  obtain ⟨d₁, hd₁, hnext₁, hprev₁, hsame₁⟩ :=
    update_indexNext ((h.pages page).mpr (hpage ▸ h.ring.prev_root_mem)) (page + 1)
  have hroot₁ : (d₁.lookup 0).isSome := by
    rw [isSome_congr (hsame₁ 0), h.pages]
    exact List.mem_cons_self
  obtain ⟨d₂, hd₂, hnext₂, hprev₂, hsame₂⟩ := update_indexPrevious hroot₁ (page + 1)
  have hsame := hsame₁.trans hsame₂
  have hnone₂ : d₂.lookup (page + 1) = none := by
    rw [← Option.not_isSome_iff_eq_none, isSome_congr (hsame _), h.pages]
    exact hfresh
  have hprevious : (if page + 1 ≠ 1 then some (page + 1 - 1) else none).getD 0 = page := by
    rw [UInt64.add_sub_cancel]
    split
    · rfl
    · rename_i hone
      have hzero : page = 0 := by simpa using not_not.mp hone
      simpa using hzero.symm
  have hlisted : listed d₂ = listed d := funext fun q => listed_congr (hsame q)
  refine ⟨d₂.insert (page + 1) ⟨directory, [key], none,
      if page + 1 ≠ 1 then some (page + 1 - 1) else none, describe⟩, ?_,
    ⟨?_, ?_, fun q => ?_, fun q => ?_, fun q hq => ?_, fun q node hq => ?_⟩, hfresh, ?_⟩
  · simp only [insertPage, if_neg hnew, if_neg hlimit, hd₁, hd₂, insertNode_of_none hnone₂, bind,
      Except.bind, pure, Except.pure]
  · rw [nextOf_insert, prevOf_insert, hnext₂, hprev₂, hnext₁, hprev₁, DirectoryNode.next,
      DirectoryNode.previous, hprevious]
    have hring := h.ring.snoc hfresh
    rw [← hpage] at hring
    exact hring
  · rw [← List.cons_append, List.pairwise_append]
    refine ⟨h.ascending, List.pairwise_singleton _ _, fun q hq r hr => ?_⟩
    rw [List.mem_singleton.mp hr]
    exact hafter q hq
  · by_cases hq : q = page + 1
    · subst hq
      simp
    · rw [AList.lookup_insert_ne hq, isSome_congr (hsame q), h.pages]
      simp [hq]
  · rw [listed_insert, Function.update_apply]
    split
    · simp [kDirNodeMaxEntries]
    · rw [hlisted]
      exact h.bounded q
  · rw [listed_insert, Function.update_apply]
    split
    · exact List.cons_ne_nil _ _
    · rename_i hne
      rw [hlisted]
      refine h.nonempty q ((List.mem_append.mp hq).resolve_right ?_)
      simpa using hne
  · by_cases hqp : q = page + 1
    · subst hqp
      rw [AList.lookup_insert, Option.some.injEq] at hq
      rw [← hq]
    · rw [AList.lookup_insert_ne hqp] at hq
      obtain ⟨node', hnode', hcore⟩ := hsame.before hq
      exact (congrArg Prod.fst hcore).trans (h.rootIndex q node' hnode')
  · rw [listed_insert, hlisted]

theorem insertKey_spec (preserveOrder : Bool) (h : Chained directory d rest)
    (hp : d.lookup p = some node)
    (hroom : node.indexes.length < kDirNodeMaxEntries) (hfresh : key ∉ node.indexes) :
    ∃ d' l, d.insertKey node p preserveOrder key = .ok (p, d') ∧ Chained directory d' rest ∧
      l ~ key :: listed d p ∧ listed d' = Function.update (listed d) p l := by
  obtain ⟨l, hl, hperm⟩ := withKey_of_notMem preserveOrder hfresh
  have hlength : l.length = node.indexes.length + 1 := hperm.length_eq
  refine ⟨_, l, ?_, h.setIndexes hp (by omega) fun _ hnil => ?_, ?_, listed_insert⟩
  · rw [insertKey, hl]
    simp only [update_of_lookup hp, bind, Except.bind, pure, Except.pure]
  · simp [hnil] at hlength
  · rw [listed_of_lookup hp]
    exact hperm

omit [LinearOrder K] in
theorem createRoot_spec (directory key : K) (describe : D) (h : ∀ p, d.lookup p = none) :
    ∃ d', d.createRoot directory key describe = .ok (0, d') ∧ Chained directory d' [] ∧
      listed d' = Function.update (listed d) 0 [key] := by
  have hlookup : ∀ q, q ≠ 0 → (d.insert 0 (⟨directory, [key], none, none, describe⟩ :
      DirectoryNode K D)).lookup q = none := fun q hq => by rw [AList.lookup_insert_ne hq, h]
  refine ⟨d.insert 0 ⟨directory, [key], none, none, describe⟩, ?_,
    ⟨.single ?_ ?_, List.pairwise_singleton _ _, fun q => ?_, fun q => ?_, ?_, fun q node hq => ?_⟩,
    listed_insert⟩
  · rw [createRoot, insertNode_of_none (h 0)]
    rfl
  · simp [DirectoryNode.next]
  · simp [DirectoryNode.previous]
  · by_cases hq : q = 0
    · subst hq
      simp
    · simp [hlookup q hq, hq]
  · rw [listed_insert, Function.update_apply]
    split
    · simp [kDirNodeMaxEntries]
    · simp [listed_of_none (h q)]
  · simp
  · by_cases hq0 : q = 0
    · subst hq0
      rw [AList.lookup_insert, Option.some.injEq] at hq
      rw [← hq]
    · rw [hlookup q hq0] at hq
      cases hq

theorem dirAdd_spec (h : Intact directory d) (hfresh : ∀ p, key ∉ listed d p) :
    d.dirAdd preserveOrder directory key describe fixDirectoryLimit = .ok none ∨
      ∃ page d' l, d.dirAdd preserveOrder directory key describe fixDirectoryLimit =
          .ok (some (page, d')) ∧
        Intact directory d' ∧ l ~ key :: listed d page ∧
        listed d' = Function.update (listed d) page l := by
  unfold dirAdd
  rcases h with hnone | ⟨rest, h⟩
  · right
    obtain ⟨d', hd', hchained, hlisted⟩ := createRoot_spec directory key describe hnone
    refine ⟨0, d', [key], ?_, .inr ⟨_, hchained⟩, ?_, hlisted⟩
    · simp only [hnone 0, hd']
      rfl
    · rw [listed_of_none (hnone 0)]
  · obtain ⟨root, hroot⟩ := h.exists_node List.mem_cons_self
    obtain ⟨last, hlast⟩ := h.exists_node h.ring.prev_root_mem
    have hfind : d.findPreviousPage root = .ok (prevOf d 0, last) := by
      rw [findPreviousPage, ← prevOf_of_lookup hroot]
      split_ifs with hzero
      · rw [peek_of_lookup hlast]
        rfl
      · rw [not_not.mp hzero, hroot, Option.some.injEq] at hlast
        rw [hlast]
    simp only [hroot, hfind, bind, Except.bind]
    split_ifs with hroom
    · right
      have hkey : key ∉ last.indexes := listed_of_lookup hlast ▸ hfresh _
      obtain ⟨d', l, hd', hchained, hperm, hlisted⟩ :=
        insertKey_spec preserveOrder h hlast hroom hkey
      exact ⟨_, d', l, by rw [hd']; rfl, .inr ⟨_, hchained⟩, hperm, hlisted⟩
    · rcases insertPage_spec key describe fixDirectoryLimit h rfl with
        hnone | ⟨d', hd', hchained, hnew, hlisted⟩
      · exact .inl hnone
      · refine .inr ⟨_, d', [key], hd', .inr ⟨_, hchained⟩, ?_, hlisted⟩
        have hempty : d.lookup (prevOf d 0 + 1) = none := by
          rw [← Option.not_isSome_iff_eq_none, h.pages]
          exact hnew
        rw [listed_of_none hempty]

end Add

/-! ### Removing an entry -/

theorem Chained.erase_root (h : Chained directory d []) : Intact directory (d.erase 0) := by
  refine .inl fun q => ?_
  by_cases hq : q = 0
  · rw [hq, AList.lookup_erase]
  · rw [AList.lookup_erase_ne hq, ← Option.not_isSome_iff_eq_none, h.pages]
    simpa using hq

theorem listed_erase_of_empty (h : listed d p = []) : listed (d.erase p) = listed d := by
  rw [listed_erase, ← h, Function.update_eq_self]

theorem checkRoot_spec (h : Chained directory d rest) (hroot : d.lookup 0 = some node) :
    checkRoot node = .ok () := by
  have hnext := h.ring.next_root_eq_root_iff
  have hprev := h.ring.prev_root_eq_root_iff
  rw [nextOf_of_lookup hroot] at hnext
  rw [prevOf_of_lookup hroot] at hprev
  simp [checkRoot, hnext, hprev]

theorem dropLegacyPage_spec (h : Chained directory d rest) (hroot : d.lookup 0 = some node) :
    d.dropLegacyPage node = .ok (decide (rest = []), d) := by
  have hnext := h.ring.next_root_eq_root_iff
  have hprev := h.ring.prev_root_eq_root_iff
  have hmem := h.ring.prev_root_mem
  rw [nextOf_of_lookup hroot] at hnext
  rw [prevOf_of_lookup hroot] at hprev hmem
  unfold dropLegacyPage
  split_ifs with hlinks
  · rw [← hlinks.1] at hmem
    obtain ⟨last, hlast⟩ := h.exists_node hmem
    have hne := h.nonempty _ ((List.mem_cons.mp hmem).resolve_left hlinks.2)
    rw [listed_of_lookup hlast] at hne
    have hrest : rest ≠ [] := mt hnext.mpr hlinks.2
    simp [peek_of_lookup hlast, hne, hrest, bind, Except.bind, pure, Except.pure]
  · simp only [hnext, hprev, and_self]

theorem removeFromRoot_spec (keepRoot : Bool) (h : Chained directory d rest)
    (hroot : d.lookup 0 = some node) (hempty : node.indexes = []) :
    ∃ d', d.removeFromRoot node keepRoot = .ok d' ∧ Intact directory d' ∧
      listed d' = listed d := by
  simp only [removeFromRoot, checkRoot_spec h hroot, dropLegacyPage_spec h hroot, bind, Except.bind]
  split_ifs with hlone
  · obtain rfl : rest = [] := of_decide_eq_true hlone.2
    exact ⟨_, eraseNode_of_lookup hroot, h.erase_root,
      listed_erase_of_empty ((listed_of_lookup hroot).trans hempty)⟩
  · exact ⟨d, rfl, .inr ⟨rest, h⟩, rfl⟩

theorem emptyDirDelete_spec [DecidableEq K] (h : Intact directory d) :
    ∃ b d', d.emptyDirDelete directory = .ok (b, d') ∧ Intact directory d' ∧
      listed d' = listed d := by
  unfold emptyDirDelete
  rcases h with hnone | ⟨rest, h⟩
  · exact ⟨false, d, by simp only [hnone 0], .inl hnone, rfl⟩
  · obtain ⟨root, hroot⟩ := h.exists_node List.mem_cons_self
    simp only [hroot, h.rootIndex 0 root hroot, ne_eq, not_true_eq_false, if_false,
      checkRoot_spec h hroot, dropLegacyPage_spec h hroot, bind, Except.bind]
    split_ifs with hempty hlone
    · exact ⟨false, d, rfl, .inr ⟨rest, h⟩, rfl⟩
    · obtain rfl : rest = [] := of_decide_eq_true hlone
      rw [eraseNode_of_lookup hroot]
      refine ⟨true, _, rfl, h.erase_root, listed_erase_of_empty ?_⟩
      rw [listed_of_lookup hroot]
      simpa using hempty
    · exact ⟨_, d, rfl, .inr ⟨rest, h⟩, rfl⟩

theorem Chained.unlink {a b : List UInt64} (h : Chained directory d (a ++ p :: b))
    (hnext : ∀ q, q ≠ p → nextOf d' q = Function.update (nextOf d) (prevOf d p) (nextOf d p) q)
    (hprev : ∀ q, q ≠ p → prevOf d' q = Function.update (prevOf d) (nextOf d p) (prevOf d p) q)
    (hcore : ∀ q, q ≠ p → (d'.lookup q).map core = (d.lookup q).map core)
    (hp : d'.lookup p = none) : Chained directory d' (a ++ b) := by
  have hsub : (a ++ b).Sublist (a ++ p :: b) := (List.sublist_cons_self p b).append_left a
  have hnodup := h.ring.nodup
  have hmem : ∀ q ∈ 0 :: (a ++ b), q ≠ p := fun q hq heq => by
    subst heq
    simp only [List.nodup_cons, List.nodup_append, List.mem_append, List.mem_cons] at hnodup hq
    grind
  refine ⟨h.ring.unlink.congr (fun q hq => hnext q (hmem q hq)) fun q hq => hprev q (hmem q hq),
    h.ascending.sublist (hsub.cons_cons 0), fun q => ?_, fun q => ?_, fun q hq => ?_,
    fun q node hq => ?_⟩
  · by_cases hqp : q = p
    · subst hqp
      simpa [hp] using fun hq => hmem q hq rfl
    · rw [isSome_congr (hcore q hqp), h.pages]
      simp [hqp]
  · by_cases hqp : q = p
    · subst hqp
      simp [listed_of_none hp]
    · rw [listed_congr (hcore q hqp)]
      exact h.bounded q
  · rw [listed_congr (hcore q (hmem q (List.mem_cons_of_mem _ hq)))]
    exact h.nonempty q (hsub.subset hq)
  · have hqp : q ≠ p := fun heq => by
      rw [heq, hp] at hq
      cases hq
    have hmap := hcore q hqp
    rw [hq, Option.map_some, eq_comm, Option.map_eq_some_iff] at hmap
    obtain ⟨node', hnode', heq⟩ := hmap
    exact (congrArg Prod.fst heq).symm.trans (h.rootIndex q node' hnode')

theorem unlink_steps {a b : List UInt64} (h : Chained directory d (a ++ p :: b))
    (hp : d.lookup p = some node) {d₁ : Directory K D}
    (hd₁ : d₁ = d.insert p { node with indexes := [] }) :
    ∃ prev d₂ next d₃ d₄, d₁.lookup (prevOf d p) = some prev ∧
      d₁.update (prevOf d p) (fun n => { n with indexNext := some (nextOf d p) }) = .ok d₂ ∧
      d₂.lookup (nextOf d p) = some next ∧
      d₂.update (nextOf d p) (fun n => { n with indexPrevious := some (prevOf d p) }) = .ok d₃ ∧
      d₃.eraseNode p = .ok d₄ ∧ prev.indexes = listed d (prevOf d p) ∧
      next.indexes = listed d (nextOf d p) ∧ Chained directory d₄ (a ++ b) ∧
      listed d₄ = Function.update (listed d) p [] := by
  obtain ⟨⟨hprevMem, hprevNe⟩, hnextMem, hnextNe⟩ :=
    h.ring.neighbours_mem (List.mem_append_right _ List.mem_cons_self)
  have hcore₁ : ∀ q, q ≠ p → (d₁.lookup q).map core = (d.lookup q).map core := fun q hq => by
    rw [hd₁, AList.lookup_insert_ne hq]
  have hlinks₁ : nextOf d₁ = nextOf d ∧ prevOf d₁ = prevOf d := by
    rw [hd₁]
    exact ⟨nextOf_insert_same hp (by rfl), prevOf_insert_same hp (by rfl)⟩
  obtain ⟨prev, hprev⟩ := h.exists_node hprevMem
  have hprev₁ : d₁.lookup (prevOf d p) = some prev := by
    rw [hd₁, AList.lookup_insert_ne hprevNe, hprev]
  obtain ⟨d₂, hd₂, hnext₂, hprev₂, hsame₂⟩ :=
    update_indexNext (Option.isSome_iff_exists.mpr ⟨prev, hprev₁⟩) (nextOf d p)
  obtain ⟨next, hlookup₂⟩ : ∃ next, d₂.lookup (nextOf d p) = some next := by
    rw [← Option.isSome_iff_exists, isSome_congr (hsame₂ _), isSome_congr (hcore₁ _ hnextNe),
      h.pages]
    exact hnextMem
  obtain ⟨d₃, hd₃, hnext₃, hprev₃, hsame₃⟩ :=
    update_indexPrevious (Option.isSome_iff_exists.mpr ⟨next, hlookup₂⟩) (prevOf d p)
  obtain ⟨node₃, hnode₃⟩ : ∃ node₃, d₃.lookup p = some node₃ := by
    rw [← Option.isSome_iff_exists, isSome_congr ((hsame₂.trans hsame₃) p), hd₁,
      AList.lookup_insert]
    rfl
  have hcore₄ : ∀ q, q ≠ p → ((d₃.erase p).lookup q).map core = (d.lookup q).map core :=
    fun q hq => by rw [AList.lookup_erase_ne hq, (hsame₂.trans hsame₃) q, hcore₁ q hq]
  refine ⟨prev, d₂, next, d₃, d₃.erase p, hprev₁, hd₂, hlookup₂, hd₃, eraseNode_of_lookup hnode₃,
    (listed_of_lookup hprev).symm, ?_, h.unlink (fun q hq => ?_) (fun q hq => ?_) hcore₄ ?_, ?_⟩
  · rw [← listed_of_lookup hlookup₂, listed_congr (hsame₂ _), listed_congr (hcore₁ _ hnextNe)]
  · rw [nextOf_erase, Function.update_of_ne hq, hnext₃, hnext₂, hlinks₁.1]
  · rw [prevOf_erase, Function.update_of_ne hq, hprev₃, hprev₂, hlinks₁.2]
  · rw [AList.lookup_erase]
  · funext q
    by_cases hq : q = p
    · rw [hq, Function.update_self, listed_of_none (AList.lookup_erase _ _)]
    · rw [Function.update_of_ne hq, listed_congr (hcore₄ q hq)]

theorem removePage_spec (keepRoot : Bool) (h : Chained directory d rest) (hrest : p ∈ rest)
    (hp : d.lookup p = some node) {d₁ : Directory K D}
    (hd₁ : d₁ = d.insert p { node with indexes := [] }) :
    ∃ d', d₁.removePage p { node with indexes := [] } keepRoot = .ok d' ∧
      Intact directory d' ∧ listed d' = Function.update (listed d) p [] := by
  obtain ⟨⟨-, hprevNe⟩, hnextMem, hnextNe⟩ := h.ring.neighbours_mem hrest
  obtain ⟨a, b, rfl⟩ := List.append_of_mem hrest
  obtain ⟨prev, d₂, next, d₃, d₄, hprev, hd₂, hnext, hd₃, herase, hprevIndexes, hnextIndexes,
    hchained, hlisted⟩ := unlink_steps h hp hd₁
  -- the page that follows is the root, or has entries
  have hkept : d₄.dropEmptyLast (prevOf d p) (nextOf d p) next = .ok (nextOf d p, d₄) := by
    rw [dropEmptyLast, if_neg]
    rintro ⟨hzero, -, hempty⟩
    refine h.nonempty _ ((List.mem_cons.mp hnextMem).resolve_left hzero) ?_
    rw [← hnextIndexes]
    exact List.isEmpty_iff.mp hempty
  have hnodePrev : node.indexPrevious.getD 0 = prevOf d p := (prevOf_of_lookup hp).symm
  have hnodeNext : node.indexNext.getD 0 = nextOf d p := (nextOf_of_lookup hp).symm
  simp only [removePage, DirectoryNode.next, DirectoryNode.previous, hnodePrev, hnodeNext,
    if_neg hprevNe, if_neg hnextNe, peek_of_lookup hprev, hd₂, peek_of_lookup hnext, hd₃, herase,
    hkept, bind, Except.bind]
  split_ifs with hlone
  · obtain ⟨-, hnextZero, hprevZero, hempty⟩ := hlone
    obtain ⟨rfl, rfl⟩ := h.ring.eq_nil_of_neighbours hprevZero hnextZero
    obtain ⟨root, hroot⟩ := hchained.exists_node List.mem_cons_self
    have hroot' : listed d 0 = [] := by
      rw [← hprevZero, ← hprevIndexes]
      exact List.isEmpty_iff.mp hempty
    rw [hprevZero]
    refine ⟨_, eraseNode_of_lookup hroot, hchained.erase_root, ?_⟩
    rw [listed_erase_of_empty ?_, hlisted]
    rw [hlisted, Function.update_of_ne (hprevZero ▸ hprevNe), hroot']
  · exact ⟨d₄, rfl, .inr ⟨_, hchained⟩, hlisted⟩

section Remove

variable [DecidableEq K]

theorem dirRemove_of_notMem (keepRoot : Bool) (h : key ∉ listed d p) :
    d.dirRemove p key keepRoot = .ok (false, d) := by
  unfold dirRemove
  split
  · rfl
  · rename_i node hp
    rw [listed_of_lookup hp] at h
    rw [if_pos h]

theorem dirRemove_of_mem (keepRoot : Bool) (h : Intact directory d) (hkey : key ∈ listed d p) :
    ∃ d', d.dirRemove p key keepRoot = .ok (true, d') ∧ Intact directory d' ∧
      listed d' = Function.update (listed d) p ((listed d p).erase key) := by
  rcases h with hnone | ⟨rest, h⟩
  · rw [listed_of_none (hnone p)] at hkey
    cases hkey
  obtain ⟨node, hp⟩ : ∃ node, d.lookup p = some node := by
    rw [← Option.isSome_iff_exists, Option.isSome_iff_ne_none]
    intro hnone
    rw [listed_of_none hnone] at hkey
    cases hkey
  rw [listed_of_lookup hp] at hkey ⊢
  simp only [dirRemove, hp, if_neg (not_not.mpr hkey), update_of_lookup hp, bind, Except.bind]
  have hlength : (node.indexes.erase key).length ≤ kDirNodeMaxEntries :=
    List.length_erase_le.trans (listed_of_lookup hp ▸ h.bounded p)
  split_ifs with hentries hroot
  · have hne : node.indexes.erase key ≠ [] := by simpa using hentries
    exact ⟨_, rfl, .inr ⟨rest, h.setIndexes hp hlength fun _ => hne⟩, listed_insert⟩
  · subst hroot
    have hempty : node.indexes.erase key = [] := by
      rwa [Bool.not_eq_true', Bool.not_eq_false, List.isEmpty_iff] at hentries
    have hchained := h.setIndexes hp hlength fun hne => absurd rfl hne
    obtain ⟨d', hd', hintact, hlisted⟩ :=
      removeFromRoot_spec keepRoot hchained (AList.lookup_insert d) hempty
    exact ⟨d', by rw [hd']; rfl, hintact, hlisted.trans listed_insert⟩
  · have hempty : node.indexes.erase key = [] := by
      rwa [Bool.not_eq_true', Bool.not_eq_false, List.isEmpty_iff] at hentries
    have hrest : p ∈ rest := (List.mem_cons.mp (h.mem_of_lookup hp)).resolve_left hroot
    rw [hempty]
    obtain ⟨d', hd', hintact, hlisted⟩ := removePage_spec keepRoot h hrest hp rfl
    exact ⟨d', by rw [hd']; rfl, hintact, hlisted⟩

end Remove

/-! ### Removing the directory -/

theorem deleteFrom_of_none (h : d.lookup p = none) : (d.deleteFrom p).2.2 = d := by
  rw [deleteFrom]
  split
  · rfl
  · rename_i heq
    rw [h] at heq
    cases heq

theorem deleteFrom_of_lookup (h : d.lookup p = some node) :
    (d.deleteFrom p).2.2 =
      node.indexNext.elim (d.erase p) fun q => (deleteFrom (d.erase p) q).2.2 := by
  rw [deleteFrom]
  split
  · rename_i heq
    rw [h] at heq
    cases heq
  · rename_i node' heq
    rw [h, Option.some.injEq] at heq
    subst heq
    cases node.indexNext <;> rfl

/-- The loop of `dirDelete` follows the ring from `p` to the root, and erases the pages `p :: l`
on its way. -/
theorem lookup_deleteFrom {l : List UInt64}
    (h : (p :: l ++ [0]).IsChain (LinkedTo (nextOf d) (prevOf d))) (hnodup : (p :: l).Nodup)
    (hzero : 0 ∉ l) (hin : ∀ q ∈ p :: l, (d.lookup q).isSome) {e : Directory K D}
    (he : ∀ q ∈ p :: l, e.lookup q = d.lookup q) (hout : ∀ q, q ∉ p :: l → e.lookup q = none)
    (q : UInt64) : (e.deleteFrom p).2.2.lookup q = none := by
  obtain ⟨node, hnode⟩ := Option.isSome_iff_exists.mp (hin p List.mem_cons_self)
  rw [deleteFrom_of_lookup ((he p List.mem_cons_self).trans hnode)]
  have herased : ∀ r, r ∉ l → (e.erase p).lookup r = none := fun r hr => by
    by_cases hrp : r = p
    · rw [hrp, AList.lookup_erase]
    · rw [AList.lookup_erase_ne hrp]
      exact hout r (by simp [hrp, hr])
  induction l generalizing p e node with
  | nil =>
    have hlink : node.next = 0 := by
      rw [← nextOf_of_lookup hnode]
      exact (List.isChain_pair.mp h).1
    cases hnext : node.indexNext with
    | none => exact herased q (by simp)
    | some r =>
      rw [DirectoryNode.next, hnext, Option.getD_some] at hlink
      rw [Option.elim_some, deleteFrom_of_none (herased r (by simp))]
      exact herased q (by simp)
  | cons r l ih =>
    rw [List.cons_append, List.cons_append, List.isChain_cons_cons] at h
    have hlink : node.next = r := by
      rw [← nextOf_of_lookup hnode]
      exact h.1.1
    -- the link to a page other than the root is present
    have hnext : node.indexNext = some r := by
      cases hnext : node.indexNext with
      | none =>
        rw [DirectoryNode.next, hnext, Option.getD_none] at hlink
        exact absurd (by simp [← hlink]) hzero
      | some r' => rw [← hlink, DirectoryNode.next, hnext, Option.getD_some]
    have hnodup' := List.nodup_cons.mp hnodup
    obtain ⟨node', hnode'⟩ := Option.isSome_iff_exists.mp (hin r (by simp))
    have he' : ∀ s ∈ r :: l, (e.erase p).lookup s = d.lookup s := fun s hs => by
      rw [AList.lookup_erase_ne (ne_of_mem_of_not_mem hs hnodup'.1)]
      exact he s (List.mem_cons_of_mem _ hs)
    rw [hnext, Option.elim_some, deleteFrom_of_lookup ((he' r List.mem_cons_self).trans hnode')]
    refine ih h.2 hnodup'.2 (fun hmem => hzero (List.mem_cons_of_mem _ hmem))
      (fun s hs => hin s (List.mem_cons_of_mem _ hs)) he' herased node' hnode' fun s hs => ?_
    by_cases hsr : s = r
    · rw [hsr, AList.lookup_erase]
    · rw [AList.lookup_erase_ne hsr]
      exact herased s (by simp [hsr, hs])

theorem dirDelete_spec (h : Intact directory d) (q : UInt64) :
    d.dirDelete.2.2.lookup q = none := by
  rw [dirDelete]
  rcases h with hnone | ⟨rest, h⟩
  · rw [deleteFrom_of_none (hnone 0)]
    exact hnone q
  · refine lookup_deleteFrom h.ring.linked h.ring.nodup (List.nodup_cons.mp h.ring.nodup).1
      (fun r hr => (h.pages r).mpr hr) (fun r _ => rfl) (fun r hr => ?_) q
    rw [← Option.not_isSome_iff_eq_none, h.pages]
    exact hr

end FalconLedger.Directory
