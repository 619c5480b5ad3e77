import FalconLedger.Ledger.DirectoryWalk
import FalconLedger.Properties.DirectoryChains

/-!
# Deleting all entries of a directory

The walk of `cleanupOnAccountDelete` is at a page of the chain, or at the object of one that was
erased. `remaining` are the entries it has ahead. A step forward takes the first of them
(`internalDirNext_spec`), a removal behind the index leaves them all (`Standing.remove`). The pages
that follow are told from the entries: beside the root, those which list something, in order.
-/

namespace FalconLedger.Directory

open scoped List

variable {K D σ T : Type} {directory entry : K} {d d' : Directory K D} {node : DirectoryNode K D}
  {p q : UInt64} {rest rest' a b : List UInt64} {cursor : Cursor K D} {i : ℕ}

/-! ### The chain from its entries -/

theorem Chained.mem_rest_iff (h : Chained directory d rest) :
    q ∈ rest ↔ q ≠ 0 ∧ listed d q ≠ [] := by
  refine ⟨fun hq => ⟨?_, h.nonempty q hq⟩, fun hq => ?_⟩
  · rintro rfl
    exact (List.nodup_cons.mp h.ring.nodup).1 hq
  · have hsome : (d.lookup q).isSome := by
      rw [Option.isSome_iff_ne_none]
      exact fun hnone => hq.2 (listed_of_none hnone)
    exact (List.mem_cons.mp ((h.pages q).mp hsome)).resolve_left hq.1

theorem Chained.mem_of_listed_ne_nil (h : Chained directory d rest) (hq : listed d q ≠ []) :
    q ∈ 0 :: rest := by
  by_cases hzero : q = 0
  · exact hzero ▸ List.mem_cons_self
  · exact List.mem_cons_of_mem _ (h.mem_rest_iff.mpr ⟨hzero, hq⟩)

/-- Where no page comes to list something, the pages of the chain that still do remain. -/
theorem Chained.rest_eq_filter (h : Chained directory d rest) (h' : Chained directory d' rest')
    (hsub : ∀ q, listed d' q ≠ [] → listed d q ≠ []) :
    rest' = rest.filter fun q => !(listed d' q).isEmpty := by
  have hsorted := (List.pairwise_cons.mp h.ascending).2.filter fun q => !(listed d' q).isEmpty
  have hsorted' := (List.pairwise_cons.mp h'.ascending).2
  refine List.Perm.eq_of_pairwise (fun q r _ _ hqr hrq => ?_) hsorted' hsorted ?_
  · exact absurd (UInt64.lt_trans hqr hrq) (UInt64.lt_irrefl q)
  · have hnodup := (List.nodup_cons.mp h.ring.nodup).2
    have hnodup' := (List.nodup_cons.mp h'.ring.nodup).2
    refine (List.perm_ext_iff_of_nodup hnodup' (hnodup.filter _)).mpr fun q => ?_
    rw [List.mem_filter, h.mem_rest_iff, h'.mem_rest_iff]
    simp only [Bool.not_eq_true', List.isEmpty_eq_false_iff]
    exact ⟨fun hq => ⟨⟨hq.1, hsub q hq.2⟩, hq.2⟩, fun hq => ⟨hq.1.1, hq.2⟩⟩

theorem Chained.nextOf_eq (h : Chained directory d rest) (hcut : 0 :: rest = a ++ p :: b) :
    nextOf d p = b.headD 0 := by
  have hring : 0 :: rest ++ [0] = a ++ p :: (b ++ [0]) := by
    rw [hcut]
    simp
  have hafter := (h.ring.cut hring).2
  cases b with
  | nil => exact (List.isChain_pair.mp hafter).1
  | cons q b => exact (List.isChain_cons_cons.mp hafter).1.1

/-! ### The entries of all pages -/

private theorem flatMap_filter_nonempty {α β : Type} (f : α → List β) (l : List α) :
    (l.filter fun x => !(f x).isEmpty).flatMap f = l.flatMap f := by
  induction l with
  | nil => rfl
  | cons x l ih =>
    by_cases hx : f x = []
    · simp [hx, ih]
    · simp [hx, ih]

theorem contents_perm_flatMap {l : List UInt64} (hl : l.Nodup)
    (hall : ∀ q, listed d q ≠ [] → q ∈ l) : contents d ~ l.flatMap (listed d) := by
  have hkeys : contents d = d.keys.flatMap (listed d) := by
    rw [contents, AList.keys, List.keys, List.flatMap_map]
    refine List.flatMap_congr fun e he => ?_
    exact (listed_of_lookup (AList.mem_lookup_iff.mpr he)).symm
  rw [hkeys, ← flatMap_filter_nonempty _ d.keys, ← flatMap_filter_nonempty _ l]
  refine List.Perm.flatMap_right _ ?_
  refine (List.perm_ext_iff_of_nodup (d.keys_nodup.filter _) (hl.filter _)).mpr fun q => ?_
  simp only [List.mem_filter, Bool.not_eq_true', List.isEmpty_eq_false_iff]
  refine and_congr_left fun hq => ⟨fun _ => hall q hq, fun _ => ?_⟩
  rw [← AList.mem_keys, ← AList.lookup_isSome, Option.isSome_iff_ne_none]
  exact fun hnone => hq (listed_of_none hnone)

theorem Chained.contents_perm (h : Chained directory d rest) :
    contents d ~ (0 :: rest).flatMap (listed d) :=
  contents_perm_flatMap h.ring.nodup fun _ => h.mem_of_listed_ne_nil

/-! ### Where the walk stands -/

/-- The cursor is at a page of the chain, before the pages `b`. -/
structure AtPage (directory : K) (d : Directory K D) (cursor : Cursor K D) (b : List UInt64) :
    Prop where
  chained : ∃ a rest, Chained directory d rest ∧ 0 :: rest = a ++ cursor.page :: b
  object : d.lookup cursor.page = some cursor.object

/-- There are no pages left, or the chain ends with `b`. -/
def Ahead (directory : K) (d : Directory K D) (b : List UInt64) : Prop :=
  b = [] ∨ ∃ rest, Chained directory d rest ∧ b <:+ rest

/-- The cursor is at a page of the chain, or its object, empty, is all there is of its page. -/
inductive Standing (directory : K) (d : Directory K D) (cursor : Cursor K D) (b : List UInt64) :
    Prop
  | page (h : AtPage directory d cursor b)
  | erased (hindexes : cursor.object.indexes = []) (hnext : cursor.object.next = b.headD 0)
      (hahead : Ahead directory d b)

/-- The entries the walk has before it. -/
def remaining (d : Directory K D) (cursor : Cursor K D) (b : List UInt64) : List K :=
  cursor.object.indexes.drop cursor.index ++ b.flatMap (listed d)

/-- The entry is the one before the index. -/
def Cursor.Past (cursor : Cursor K D) (entry : K) : Prop :=
  ∃ i, cursor.index = i + 1 ∧ cursor.object.indexes[i]? = some entry

theorem Ahead.of_cut (h : Chained directory d rest) (hcut : 0 :: rest = a ++ p :: b) :
    Ahead directory d b := by
  refine .inr ⟨rest, h, ?_⟩
  cases a with
  | nil => exact (List.cons.inj hcut).2 ▸ List.suffix_refl _
  | cons r a =>
    rw [(List.cons.inj hcut).2]
    exact ⟨a ++ [p], by simp⟩

theorem Standing.next (h : Standing directory d cursor b) :
    cursor.object.next = b.headD 0 := by
  cases h with
  | page h =>
    obtain ⟨a, rest, hchained, hcut⟩ := h.chained
    rw [← nextOf_of_lookup h.object, hchained.nextOf_eq hcut]
  | erased hindexes hnext hahead => exact hnext

theorem Standing.ahead (h : Standing directory d cursor b) : Ahead directory d b := by
  cases h with
  | page h =>
    obtain ⟨a, rest, hchained, hcut⟩ := h.chained
    exact .of_cut hchained hcut
  | erased hindexes hnext hahead => exact hahead

theorem Ahead.head (h : Ahead directory d (q :: b)) :
    q ≠ 0 ∧ ∃ object, AtPage directory d ⟨q, object, 0⟩ b ∧ object.indexes ≠ [] := by
  rcases h with hnil | ⟨rest, hchained, a, rfl⟩
  · cases hnil
  · have hq : q ∈ a ++ q :: b := List.mem_append_right _ List.mem_cons_self
    obtain ⟨object, hobject⟩ := hchained.exists_node (List.mem_cons_of_mem _ hq)
    refine ⟨(hchained.mem_rest_iff.mp hq).1, object, ⟨⟨0 :: a, _, hchained, rfl⟩, hobject⟩, ?_⟩
    rw [← listed_of_lookup hobject]
    exact hchained.nonempty q hq

private theorem internalDirNext_here (h : AtPage directory d cursor b)
    (hentry : cursor.object.indexes[cursor.index]? = some entry) :
    ∃ cursor', (∀ n, d.internalDirNext (n + 1) cursor = .ok (some (entry, cursor'))) ∧
      AtPage directory d cursor' b ∧ cursor'.Past entry ∧
      remaining d cursor b = entry :: remaining d cursor' b := by
  refine ⟨{ cursor with index := cursor.index + 1 }, fun n => ?_, ⟨h.chained, h.object⟩,
    ⟨cursor.index, rfl, hentry⟩, ?_⟩
  · simp only [internalDirNext, hentry]
  · obtain ⟨hlt, rfl⟩ := List.getElem?_eq_some_iff.mp hentry
    rw [remaining, remaining, List.drop_eq_getElem_cons hlt, List.cons_append]

theorem internalDirNext_spec (h : Standing directory d cursor b) :
    (∀ n, d.internalDirNext (n + 2) cursor = .ok none) ∧ remaining d cursor b = [] ∨
      ∃ entry cursor' b', (∀ n, d.internalDirNext (n + 2) cursor = .ok (some (entry, cursor'))) ∧
        AtPage directory d cursor' b' ∧ cursor'.Past entry ∧
        remaining d cursor b = entry :: remaining d cursor' b' := by
  cases hentry : cursor.object.indexes[cursor.index]? with
  | some entry =>
    right
    cases h with
    | page h =>
      obtain ⟨cursor', hrun, hspec⟩ := internalDirNext_here h hentry
      exact ⟨entry, cursor', b, fun n => hrun (n + 1), hspec⟩
    | erased hindexes hnext hahead =>
      rw [hindexes, List.getElem?_nil] at hentry
      cases hentry
  | none =>
    have hdrop : cursor.object.indexes.drop cursor.index = [] :=
      List.drop_eq_nil_of_le (List.getElem?_eq_none_iff.mp hentry)
    have hnext := h.next
    cases b with
    | nil =>
      refine .inl ⟨fun n => ?_, ?_⟩
      · rw [List.headD_nil] at hnext
        simp only [internalDirNext, hentry, hnext, if_true]
      · rw [remaining, hdrop, List.flatMap_nil, List.append_nil]
    | cons q b =>
      right
      obtain ⟨hq, object, hpage, hne⟩ := h.ahead.head
      obtain ⟨first, hfirst⟩ : ∃ first, object.indexes[0]? = some first := by
        cases hindexes : object.indexes with
        | nil => exact absurd hindexes hne
        | cons first l => exact ⟨first, rfl⟩
      obtain ⟨cursor', hrun, hat, hpast, hremaining⟩ := internalDirNext_here hpage hfirst
      refine ⟨first, cursor', b, fun n => ?_, hat, hpast, ?_⟩
      · rw [List.headD_cons] at hnext
        subst hnext
        have hobject : d.lookup cursor.object.next = some object := hpage.object
        rw [internalDirNext, hentry]
        simp only [if_neg hq, hobject]
        exact hrun n
      · rw [← hremaining, remaining, hdrop, remaining, List.nil_append, List.flatMap_cons,
          List.drop_zero, listed_of_lookup hpage.object]

/-! ### Removing the entry behind the index -/

section Remove

variable [DecidableEq K]

omit [DecidableEq K] in
theorem Ahead.keep (h : Ahead directory d b) (hintact : Intact directory d')
    (hsub : ∀ q, listed d' q ≠ [] → listed d q ≠ []) (hkeep : ∀ q ∈ b, listed d' q ≠ []) :
    Ahead directory d' b := by
  rcases h with rfl | ⟨rest, hchained, c, rfl⟩
  · exact .inl rfl
  · rcases hintact with hnone | ⟨rest', hchained'⟩
    · refine .inl (List.eq_nil_iff_forall_not_mem.mpr fun q hq => ?_)
      exact hkeep q hq (listed_of_none (hnone q))
    · refine .inr ⟨rest', hchained', c.filter fun q => !(listed d' q).isEmpty, ?_⟩
      have hb : b.filter (fun q => !(listed d' q).isEmpty) = b :=
        List.filter_eq_self.mpr fun q hq => by simp [hkeep q hq]
      rw [hchained.rest_eq_filter hchained' hsub, List.filter_append, hb]

theorem Cursor.indexes_objectAfter (hobject : d.lookup cursor.page = some cursor.object)
    (hlisted : listed d' = Function.update (listed d) cursor.page
      ((listed d cursor.page).erase entry)) :
    (cursor.objectAfter d' entry).indexes = cursor.object.indexes.erase entry := by
  have hpage : listed d' cursor.page = cursor.object.indexes.erase entry := by
    rw [hlisted, Function.update_self, listed_of_lookup hobject]
  unfold Cursor.objectAfter
  split
  · rename_i object hlookup
    rw [← listed_of_lookup hlookup, hpage]
  · split_ifs <;> rfl

private theorem drop_erase {l : List K} (h : l[i]? = some entry) :
    (l.erase entry).drop i = l.drop (i + 1) := by
  induction l generalizing i with
  | nil => simp at h
  | cons k l ih =>
    by_cases hk : k = entry
    · subst hk
      rw [List.erase_cons_head, List.drop_succ_cons]
    · rw [List.erase_cons_tail (by simpa using hk)]
      cases i with
      | zero => exact absurd (Option.some.inj h) hk
      | succ i => rw [List.drop_succ_cons, List.drop_succ_cons, ih (by simpa using h)]

private theorem flatMap_update_erase (f : UInt64 → List K) (hnodup : (a ++ p :: b).Nodup)
    (hentry : entry ∈ f p) :
    (a ++ p :: b).flatMap f ~
      entry :: (a ++ p :: b).flatMap (Function.update f p ((f p).erase entry)) := by
  have hp : p ∉ a ∧ p ∉ b := by
    simp only [List.nodup_append, List.nodup_cons, List.mem_cons] at hnodup
    grind
  have hout : ∀ l : List UInt64, p ∉ l →
      l.flatMap (Function.update f p ((f p).erase entry)) = l.flatMap f := fun l hl =>
    List.flatMap_congr fun q hq => Function.update_of_ne (ne_of_mem_of_not_mem hq hl) _ _
  rw [List.flatMap_append, List.flatMap_append, List.flatMap_cons, List.flatMap_cons,
    hout a hp.1, hout b hp.2, Function.update_self]
  calc a.flatMap f ++ (f p ++ b.flatMap f)
      ~ a.flatMap f ++ (entry :: (f p).erase entry ++ b.flatMap f) :=
        ((List.perm_cons_erase hentry).append_right _).append_left _
    _ ~ entry :: (a.flatMap f ++ ((f p).erase entry ++ b.flatMap f)) := List.perm_middle

/-- The entry the walk has just passed is removed, and perhaps its page, the last page or the root
with it. The walk is left standing, and the entries ahead of it are the same. -/
theorem AtPage.remove (h : AtPage directory d cursor b) (hpast : cursor.Past entry)
    (keepRoot : Bool) :
    ∃ d', d.dirRemove cursor.page entry keepRoot = .ok (true, d') ∧ Intact directory d' ∧
      Standing directory d' ⟨cursor.page, cursor.objectAfter d' entry, cursor.index - 1⟩ b ∧
      remaining d' ⟨cursor.page, cursor.objectAfter d' entry, cursor.index - 1⟩ b =
        remaining d cursor b ∧
      contents d ~ entry :: contents d' := by
  obtain ⟨i, hi, hentry⟩ := hpast
  obtain ⟨a, rest, hchained, hcut⟩ := h.chained
  have hmem : entry ∈ listed d cursor.page := by
    rw [listed_of_lookup h.object]
    exact List.mem_of_getElem? hentry
  obtain ⟨d', hd', hintact, hlisted⟩ :=
    dirRemove_of_mem keepRoot (.inr ⟨rest, hchained⟩) hmem
  have hindexes := cursor.indexes_objectAfter h.object hlisted
  have hother : ∀ q, q ≠ cursor.page → listed d' q = listed d q := fun q hq => by
    rw [hlisted, Function.update_of_ne hq]
  have hsub : ∀ q, listed d' q ≠ [] → listed d q ≠ [] := fun q hq => by
    by_cases hpage : q = cursor.page
    · rw [hpage]
      exact List.ne_nil_of_mem hmem
    · rwa [← hother q hpage]
  have hnodup : (a ++ cursor.page :: b).Nodup := hcut ▸ hchained.ring.nodup
  have hb : ∀ q ∈ b, q ≠ cursor.page := fun q hq => by
    rintro rfl
    simp only [List.nodup_append, List.nodup_cons] at hnodup
    exact hnodup.2.1.1 hq
  have hahead : Ahead directory d b := .of_cut hchained hcut
  have hkeep : ∀ q ∈ b, listed d' q ≠ [] := fun q hq => by
    rw [hother q (hb q hq)]
    rcases hahead with rfl | ⟨rest', hchained', hsuffix⟩
    · cases hq
    · exact hchained'.nonempty q (hsuffix.subset hq)
  refine ⟨d', hd', hintact, ?_, ?_, ?_⟩
  · cases hlookup : d'.lookup cursor.page with
    | some object =>
      rcases hintact with hnone | ⟨rest', hchained'⟩
      · rw [hnone] at hlookup
        cases hlookup
      -- the page is still there, so the chain is the same
      have hrest : rest' = rest := by
        rw [hchained.rest_eq_filter hchained' hsub, List.filter_eq_self]
        intro q hq
        by_cases hpage : q = cursor.page
        · have hne : q ≠ 0 := (hchained.mem_rest_iff.mp hq).1
          have hq' :=
            (List.mem_cons.mp (hchained'.mem_of_lookup hlookup)).resolve_left (hpage ▸ hne)
          simp [hpage, hchained'.nonempty _ hq']
        · simp [hother q hpage, hchained.nonempty q hq]
      refine .page ⟨⟨a, rest', hchained', hrest ▸ hcut⟩, ?_⟩
      simp only [Cursor.objectAfter, hlookup]
    | none =>
      have hempty : cursor.object.indexes.erase entry = [] := by
        have hpage := listed_of_none hlookup
        rwa [hlisted, Function.update_self, listed_of_lookup h.object] at hpage
      refine .erased (hindexes.trans hempty) ?_ (hahead.keep hintact hsub hkeep)
      simp only [Cursor.objectAfter, hlookup]
      split_ifs with hroot
      · -- with the root gone there is nothing ahead
        rcases hintact with hnone | ⟨rest', hchained'⟩
        · have hnil : b = [] := List.eq_nil_iff_forall_not_mem.mpr fun q hq =>
            hkeep q hq (listed_of_none (hnone q))
          rw [hnil]
          rfl
        · obtain ⟨root, hroot'⟩ := hchained'.exists_node List.mem_cons_self
          rw [hroot, hroot'] at hlookup
          cases hlookup
      · exact (Standing.page h).next
  · rw [remaining, remaining, hindexes, hi, Nat.add_sub_cancel, drop_erase hentry]
    exact congrArg _ (List.flatMap_congr fun q hq => hother q (hb q hq))
  · have hcontents := hchained.contents_perm
    have hcontents' : contents d' ~ (a ++ cursor.page :: b).flatMap (listed d') :=
      contents_perm_flatMap hnodup fun q hq => hcut ▸ hchained.mem_of_listed_ne_nil (hsub q hq)
    rw [hcut] at hcontents
    rw [hlisted] at hcontents'
    exact (hcontents.trans (flatMap_update_erase _ hnodup hmem)).trans (hcontents'.symm.cons entry)

/-! ### The loop -/

variable (deleter : EntryDeleter K D σ T) (maxNodesToDelete : Option ℕ)

/-- The deleter is called with the entries `visited`, one after the other, on the pages and the view
that the call before has left. It asks to skip the entries `skipped` of them, and has each of the
others removed from the page that lists it. -/
inductive Deletes : Directory K D → σ → (visited skipped : List K) → Directory K D → σ → Prop
  | done (d : Directory K D) (view : σ) : Deletes d view [] [] d view
  | skip {d d' : Directory K D} {view view' final : σ} {entry : K} {keepRoot : Bool}
      {visited skipped : List K} (hitem : deleter.hasItem view entry = true)
      (hanswer : deleter.delete entry d view = .ok (.yes, keepRoot, view'))
      (rest : Deletes d view' visited skipped d' final) :
      Deletes d view (entry :: visited) (entry :: skipped) d' final
  | remove {d d' d'' : Directory K D} {view view' final : σ} {entry : K} {keepRoot : Bool}
      {page : UInt64} {visited skipped : List K} (hitem : deleter.hasItem view entry = true)
      (hanswer : deleter.delete entry d view = .ok (.no, keepRoot, view'))
      (hlisted : entry ∈ listed d page)
      (hremove : d.dirRemove page entry keepRoot = .ok (true, d'))
      (rest : Deletes d' view' visited skipped d'' final) :
      Deletes d view (entry :: visited) skipped d'' final

/-- How a call on the pages `d` and a view ends that had the entries `todo` before it and dealt with
`deleted` others: with all entries visited, or where the limit is used up, an entry has no item, or
the deleter fails. What it leaves is what the calls of the deleter until then make of `d`. -/
inductive Ended (d : Directory K D) (view : σ) (deleted : ℕ) (todo : List K)
    (r : Cleanup K D σ T) : Prop
  | finished (hter : r.ter = .tesSuccess) (hall : r.visited = todo)
      (hcalls : Deletes deleter d view r.visited r.skipped r.pages r.view)
  | limited (left : List K) (m : ℕ) (hter : r.ter = .tecIncomplete)
      (htodo : r.visited ++ left = todo) (hleft : left ≠ [])
      (hmax : maxNodesToDelete = some m) (hm : m ≤ deleted + r.visited.length)
      (hcalls : Deletes deleter d view r.visited r.skipped r.pages r.view)
  | missing (entry : K) (left : List K) (hter : r.ter = .tefBadLedger)
      (htodo : r.visited ++ entry :: left = todo) (hitem : deleter.hasItem r.view entry = false)
      (hcalls : Deletes deleter d view r.visited r.skipped r.pages r.view)
  | failed (ter : T) (before : List K) (entry : K) (left : List K) (hter : r.ter = .failed ter)
      (hvisited : r.visited = before ++ [entry]) (htodo : r.visited ++ left = todo)
      (hdelete : deleter.delete entry r.pages r.view = .error ter)
      (hcalls : Deletes deleter d view before r.skipped r.pages r.view)

/-- What a call makes of the pages `d`: they are intact, and where it ends well, those of the
visited entries are gone that were not skipped. -/
structure Cleaned (directory : K) (d : Directory K D) (r : Cleanup K D σ T) : Prop where
  intact : Intact directory r.pages
  removed : r.ter = .tesSuccess → ∃ removed, r.visited ~ removed ++ r.skipped ∧
    contents d ~ removed ++ contents r.pages

variable {deleter maxNodesToDelete} {view : σ}

/-- One entry: the loop stops for a reason, or goes on with the entries that remained. -/
theorem visitEntry_spec (h : AtPage directory d cursor b) (hpast : cursor.Past entry)
    (deleted : ℕ) :
    (∃ ter called, visitEntry deleter maxNodesToDelete deleted d view entry cursor =
        .ok (.stop ter called) ∧ ter ≠ .tesSuccess ∧
      Ended deleter maxNodesToDelete d view deleted (entry :: remaining d cursor b)
        ⟨ter, if called then [entry] else [], [], d, view⟩) ∨
    ∃ skip d' view' cursor', visitEntry deleter maxNodesToDelete deleted d view entry cursor =
        .ok (.go skip d' view' cursor') ∧ Intact directory d' ∧
      Standing directory d' cursor' b ∧ remaining d' cursor' b = remaining d cursor b ∧
      contents d ~ (if skip = .no then [entry] else []) ++ contents d' ∧
      ∀ {visited skipped d'' final}, Deletes deleter d' view' visited skipped d'' final →
        Deletes deleter d view (entry :: visited)
          ((if skip = .yes then [entry] else []) ++ skipped) d'' final := by
  obtain ⟨i, hi, hentry⟩ := id hpast
  have hindex : cursor.index ≠ 0 := by omega
  unfold visitEntry
  split_ifs with hmax hitem
  · cases maxNodesToDelete with
    | none => cases hmax
    | some m =>
      refine .inl ⟨_, _, rfl, by simp, .limited (entry :: remaining d cursor b) m rfl rfl
        (List.cons_ne_nil _ _) rfl ?_ (.done d view)⟩
      exact Nat.le_of_lt_succ (of_decide_eq_true hmax)
  · exact .inl ⟨_, _, rfl, by simp,
      .missing entry _ rfl rfl (by simpa using hitem) (.done d view)⟩
  · have hitem : deleter.hasItem view entry = true := by simpa using hitem
    cases hdelete : deleter.delete entry d view with
    | error ter =>
      exact .inl ⟨_, _, rfl, by simp, .failed ter [] entry _ rfl rfl rfl hdelete (.done d view)⟩
    | ok answer =>
      obtain ⟨skip, keepRoot, view'⟩ := answer
      right
      cases skip with
      | yes =>
        obtain ⟨a, rest, hchained, -⟩ := h.chained
        exact ⟨.yes, d, view', cursor, rfl, .inr ⟨rest, hchained⟩, .page h, rfl, .refl _,
          .skip hitem hdelete⟩
      | no =>
        obtain ⟨d', hd', hintact, hstanding, hremaining, hcontents⟩ := h.remove hpast keepRoot
        refine ⟨.no, d', view', _, by simp only [hd'], hintact, hstanding, hremaining, hcontents,
          .remove hitem hdelete ?_ hd'⟩
        rw [listed_of_lookup h.object]
        exact List.mem_of_getElem? hentry

theorem Ended.cons {view' : σ} {deleted : ℕ} {todo skipped : List K} {r : Cleanup K D σ T}
    (h : Ended deleter maxNodesToDelete d' view' (deleted + 1) todo r)
    (hcall : ∀ {visited l d'' final}, Deletes deleter d' view' visited l d'' final →
      Deletes deleter d view (entry :: visited) (skipped ++ l) d'' final) :
    Ended deleter maxNodesToDelete d view deleted (entry :: todo)
      { r with visited := entry :: r.visited, skipped := skipped ++ r.skipped } := by
  cases h with
  | finished hter hall hcalls =>
    exact .finished hter (congrArg (entry :: ·) hall) (hcall hcalls)
  | limited left m hter htodo hleft hmax hm hcalls =>
    refine .limited left m hter (congrArg (entry :: ·) htodo) hleft hmax ?_ (hcall hcalls)
    rw [List.length_cons]
    omega
  | missing next left hter htodo hitem hcalls =>
    exact .missing next left hter (congrArg (entry :: ·) htodo) hitem (hcall hcalls)
  | failed ter before last left hter hvisited htodo hdelete hcalls =>
    exact .failed ter (entry :: before) last left hter (congrArg (entry :: ·) hvisited)
      (congrArg (entry :: ·) htodo) hdelete (hcall hcalls)

theorem Ended.visited_of_success {deleted : ℕ} {todo : List K} {r : Cleanup K D σ T}
    (h : Ended deleter maxNodesToDelete d view deleted todo r) (hsuccess : r.ter = .tesSuccess) :
    r.visited = todo := by
  cases h with
  | finished hter hall => exact hall
  | limited left m hter => simp [hter] at hsuccess
  | missing next left hter => simp [hter] at hsuccess
  | failed ter before last left hter => simp [hter] at hsuccess

theorem cleanupFrom_spec (deleter : EntryDeleter K D σ T) (maxNodesToDelete : Option ℕ)
    (h : AtPage directory d cursor b) (hpast : cursor.Past entry) (deleted : ℕ) (view : σ) :
    ∃ r, (∀ n, (remaining d cursor b).length + 3 ≤ n →
        cleanupFrom deleter maxNodesToDelete n deleted d view entry cursor = .ok r) ∧
      Ended deleter maxNodesToDelete d view deleted (entry :: remaining d cursor b) r ∧
      Cleaned directory d r := by
  generalize htodo : entry :: remaining d cursor b = todo
  induction todo generalizing d cursor b entry view deleted with
  | nil => cases htodo
  | cons x todo ih =>
    rw [← htodo]
    have htail := (List.cons.inj htodo).2
    rcases visitEntry_spec h hpast deleted with
      ⟨ter, called, hvisit, hter, hended⟩ |
        ⟨skip, d', view', cursor', hvisit, hintact, hstanding, hremaining, hcontents, hcall⟩
    · obtain ⟨a, rest, hchained, -⟩ := h.chained
      refine ⟨_, fun n hn => ?_, hended, .inr ⟨rest, hchained⟩,
        fun hsuccess => absurd hsuccess hter⟩
      obtain ⟨m, rfl⟩ := Nat.exists_eq_add_of_le' (Nat.le_of_add_left_le hn)
      rw [cleanupFrom, hvisit]
      rfl
    · have hvisited : [entry] ~ (if skip = .no then [entry] else []) ++
          (if skip = .yes then [entry] else []) := by
        cases skip <;> simp
      rcases internalDirNext_spec hstanding with
        ⟨hrun, hnil⟩ | ⟨next, cursor'', b', hrun, hat, hpast', hcons⟩
      · refine ⟨⟨.tesSuccess, [entry], if skip = .yes then [entry] else [], d', view'⟩,
          fun n hn => ?_, .finished rfl ?_ ?_, hintact, fun _ => ⟨_, hvisited, hcontents⟩⟩
        · obtain ⟨m, rfl⟩ := Nat.exists_eq_add_of_le' (Nat.le_of_add_left_le hn)
          rw [cleanupFrom, hvisit]
          simp only [bind, Except.bind, hrun]
          rfl
        · rw [← hremaining, hnil]
        · simpa using hcall (.done d' view')
      · rw [hcons] at hremaining
        obtain ⟨r, hr, hended, hcleaned⟩ :=
          ih hat hpast' (deleted + 1) view' (hremaining.trans htail)
        refine ⟨{ r with
            visited := entry :: r.visited
            skipped := (if skip = .yes then [entry] else []) ++ r.skipped },
          fun n hn => ?_, htail ▸ hended.cons hcall, hcleaned.intact, fun hsuccess => ?_⟩
        · obtain ⟨m, rfl⟩ := Nat.exists_eq_add_of_le' (Nat.le_of_add_left_le hn)
          rw [← hremaining, List.length_cons] at hn
          rw [cleanupFrom, hvisit]
          simp only [bind, Except.bind, hrun, hr (m + 2) (by omega)]
          rfl
        · obtain ⟨removed, hperm, hrest⟩ := hcleaned.removed hsuccess
          refine ⟨(if skip = .no then [entry] else []) ++ removed, ?_, ?_⟩
          · cases skip with
            | no => exact hperm.cons entry
            | yes => exact (hperm.cons entry).trans List.perm_middle.symm
          · rw [List.append_assoc]
            exact hcontents.trans (hrest.append_left _)

/-- Nothing of the directory is left but, perhaps, its root without entries. -/
def Emptied (d : Directory K D) : Prop :=
  (∀ p, d.lookup p = none) ∨
    ∃ root, d.lookup 0 = some root ∧ root.indexes = [] ∧ ∀ p, p ≠ 0 → d.lookup p = none

omit [DecidableEq K] in
theorem Intact.emptied (h : Intact directory d) (hnil : contents d = []) : Emptied d := by
  rcases h with hnone | ⟨rest, hchained⟩
  · exact .inl hnone
  · have hlisted : ∀ q ∈ 0 :: rest, listed d q = [] := by
      have hperm := hchained.contents_perm
      rw [hnil] at hperm
      exact List.flatMap_eq_nil_iff.mp hperm.nil_eq.symm
    have hrest : rest = [] := List.eq_nil_iff_forall_not_mem.mpr fun q hq =>
      hchained.nonempty q hq (hlisted q (List.mem_cons_of_mem _ hq))
    obtain ⟨root, hroot⟩ := hchained.exists_node List.mem_cons_self
    refine .inr ⟨root, hroot, ?_, fun p hp => ?_⟩
    · rw [← listed_of_lookup hroot]
      exact hlisted 0 List.mem_cons_self
    · rw [← Option.not_isSome_iff_eq_none, hchained.pages, hrest, List.mem_singleton]
      exact hp

/-- For a deleter that removes the entry it is called with, or asks to skip it, the loop returns. It
calls the deleter with the entries one by one, and stops early only if the limit is used up, an item is
missing or the deleter fails; what is left are the skipped entries, or at most an empty root. -/
theorem cleanupOnAccountDelete_visits_all (deleter : EntryDeleter K D σ T)
    (maxNodesToDelete : Option ℕ) (view : σ) (h : Intact directory d) :
    ∃ r order, (∀ n, (contents d).length + 3 ≤ n →
        cleanupOnAccountDelete deleter maxNodesToDelete n d view = .ok r) ∧
      order ~ contents d ∧ Ended deleter maxNodesToDelete d view 0 order r ∧
      Intact directory r.pages ∧
      (r.ter = .tesSuccess → contents r.pages ~ r.skipped ∧
        (r.skipped = [] → Emptied r.pages)) := by
  rcases h with hnone | ⟨rest, hchained⟩
  · have hcontents : contents d = [] := List.eq_nil_iff_forall_not_mem.mpr fun k hk => by
      obtain ⟨e, he, -⟩ := List.mem_flatMap.mp hk
      have hlookup : d.lookup e.1 = some e.2 := AList.mem_lookup_iff.mpr he
      rw [hnone] at hlookup
      cases hlookup
    refine ⟨⟨.tesSuccess, [], [], d, view⟩, [], fun n _ => ?_, by rw [hcontents],
      .finished rfl rfl (.done d view), .inl hnone, fun _ => ⟨by rw [hcontents], fun _ => .inl hnone⟩⟩
    simp only [cleanupOnAccountDelete, internalDirFirst, hnone 0]
    rfl
  obtain ⟨root, hroot⟩ := hchained.exists_node List.mem_cons_self
  have hstanding : Standing directory d ⟨0, root, 0⟩ rest :=
    .page ⟨⟨[], rest, hchained, rfl⟩, hroot⟩
  have horder : remaining d ⟨0, root, 0⟩ rest ~ contents d := by
    refine .trans (.of_eq ?_) hchained.contents_perm.symm
    rw [remaining, List.drop_zero, List.flatMap_cons, listed_of_lookup hroot]
  rcases internalDirNext_spec hstanding with
    ⟨hrun, hnil⟩ | ⟨entry, cursor, b, hrun, hat, hpast, hcons⟩
  · rw [hnil] at horder
    refine ⟨⟨.tesSuccess, [], [], d, view⟩, [], fun n hn => ?_, horder,
      .finished rfl rfl (.done d view), .inr ⟨rest, hchained⟩, fun _ => ⟨horder.symm, fun _ => ?_⟩⟩
    · obtain ⟨m, rfl⟩ := Nat.exists_eq_add_of_le' (Nat.le_of_add_left_le hn)
      simp only [cleanupOnAccountDelete, internalDirFirst, hroot, hrun, bind, Except.bind]
      rfl
    · exact Intact.emptied (.inr ⟨rest, hchained⟩) horder.symm.eq_nil
  · obtain ⟨r, hr, hended, hcleaned⟩ :=
      cleanupFrom_spec deleter maxNodesToDelete hat hpast 0 view
    rw [hcons] at horder
    refine ⟨r, _, fun n hn => ?_, horder, hended, hcleaned.intact, fun hsuccess => ?_⟩
    · obtain ⟨m, rfl⟩ := Nat.exists_eq_add_of_le' (Nat.le_of_add_left_le hn)
      have hlength := horder.length_eq
      rw [List.length_cons] at hlength
      simp only [cleanupOnAccountDelete, internalDirFirst, hroot, hrun (m + 1), bind, Except.bind]
      exact hr _ (by omega)
    · have hleft : contents r.pages ~ r.skipped := by
        obtain ⟨removed, hvisited, hcontents⟩ := hcleaned.removed hsuccess
        have hall := hended.visited_of_success hsuccess
        rw [← hall] at horder
        exact (List.perm_append_left_iff removed).mp
          (hcontents.symm.trans (horder.symm.trans hvisited))
      refine ⟨hleft, fun hskipped => hcleaned.intact.emptied ?_⟩
      rw [hskipped] at hleft
      exact hleft.eq_nil

end Remove

/-- A root and one other page, of one entry each. -/
def twoPages : Directory ℕ Unit :=
  (AList.insert 0 ⟨7, [10], some 1, some 1, ()⟩ ∅ : Directory ℕ Unit).insert 1
    ⟨7, [20], some 0, none, ()⟩

theorem lookup_twoPages_ne {p : UInt64} (hzero : p ≠ 0) (hone : p ≠ 1) :
    twoPages.lookup p = none := by
  rw [twoPages, AList.lookup_insert_ne hone, AList.lookup_insert_ne hzero, AList.lookup_empty]

theorem twoPages_chained : Chained 7 twoPages [1] where
  ring := ⟨by decide, .cons_cons ⟨rfl, rfl⟩ (.cons_cons ⟨rfl, rfl⟩ (.singleton 0))⟩
  ascending := by decide
  pages p := by
    by_cases hone : p = 1
    · subst hone
      exact ⟨fun _ => by decide, fun _ => rfl⟩
    · by_cases hzero : p = 0
      · subst hzero
        exact ⟨fun _ => by decide, fun _ => rfl⟩
      · simp [lookup_twoPages_ne hzero hone, hzero, hone]
  bounded p := by
    rw [twoPages, listed_insert, listed_insert, Function.update_apply, Function.update_apply]
    split_ifs <;> simp [kDirNodeMaxEntries, listed]
  nonempty := by simp [twoPages]
  rootIndex p node h := by
    by_cases hone : p = 1
    · rw [hone] at h
      exact (Option.some.inj h) ▸ rfl
    · by_cases hzero : p = 0
      · rw [hzero] at h
        exact (Option.some.inj h) ▸ rfl
      · rw [lookup_twoPages_ne hzero hone] at h
        cases h

theorem cleanupOnAccountDelete_twoPages :
    ∃ r : Cleanup ℕ Unit Unit TER,
      cleanupOnAccountDelete ⟨fun _ _ => true, fun _ _ _ => .ok (.no, false, ())⟩ none 5 twoPages ()
        = .ok r ∧
      r.visited = [10, 20] ∧ Intact 7 r.pages := by
  obtain ⟨r, order, hr, -, -, hintact, -⟩ := cleanupOnAccountDelete_visits_all
    (⟨fun _ _ => true, fun _ _ _ => .ok (.no, false, ())⟩ : EntryDeleter ℕ Unit Unit TER) none ()
    (.inr ⟨[1], twoPages_chained⟩)
  have hrun := hr 5 (by decide)
  refine ⟨r, hrun, ?_, hintact⟩
  have hvisited : (cleanupOnAccountDelete
      (⟨fun _ _ => true, fun _ _ _ => .ok (.no, false, ())⟩ : EntryDeleter ℕ Unit Unit TER) none 5
      twoPages ()).map Cleanup.visited = .ok [10, 20] := by
    rfl
  rw [hrun] at hvisited
  exact Except.ok.inj hvisited

end FalconLedger.Directory
