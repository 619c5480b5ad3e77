import FalconLedger.Ledger.State
import Mathlib.Data.List.Sort

/-!
# Owner directories

`ApplyView::dirAdd` and `ApplyView::dirRemove` on the owner directory of an account: a chain
of pages, page `0` the root, whose back link names the last page. A broken link, or an entry
that is already on the page it would go to, is a `logic_error` in the source, which ends the
transaction with `tefEXCEPTION`.
-/

namespace FalconLedger

/-- Entries a directory page holds (`Protocol.h`). -/
def kDirNodeMaxEntries : Nat := 32

/-- Pages of a directory before `fixDirectoryLimit` (`Protocol.h`). -/
def kDirNodeMaxPages : UInt64 := 262144

namespace Ledger

/-- Write a directory page. -/
def setPage (s : Ledger) (owner : AccountID) (page : UInt64) (node : DirNode) : Ledger :=
  { s with dirs := s.dirs.insert (owner, page) node }

/-- Erase a directory page. -/
def erasePage (s : Ledger) (owner : AccountID) (page : UInt64) : Ledger :=
  { s with dirs := s.dirs.erase (owner, page) }

/-- Insert an entry into an owner directory and return its page, `none` when the directory
has no page left. Entries keep no order across pages; each page is kept sorted. -/
def dirInsert (s : Ledger) (owner : AccountID) (key : UInt256) :
    Except TER (Option (UInt64 × Ledger)) :=
  match s.dirs.lookup (owner, 0) with
  | none => .ok (some (0, s.setPage owner 0 ⟨[key], 0, 0⟩))
  | some root => do
    let page := root.indexPrevious
    let node ← orFail (s.dirs.lookup (owner, page)) .tefException
    if node.indexes.length < kDirNodeMaxEntries then
      failIf (key ∈ node.indexes) .tefException
      let indexes := (node.indexes.insertionSort (· ≤ ·)).orderedInsert (· ≤ ·) key
      return some (page, s.setPage owner page { node with indexes })
    else
      let newPage := page + 1
      if newPage = 0 ∨ (!s.rules.fixDirectoryLimit ∧ kDirNodeMaxPages ≤ newPage) then
        return none
      failIf (s.dirs.lookup (owner, newPage)).isSome .tefException
      -- link the new page to the end of the chain and to the root; they are one page when the
      -- root is the last one
      let s := s.setPage owner page { node with indexNext := newPage }
      let root ← orFail (s.dirs.lookup (owner, 0)) .tefException
      let s := s.setPage owner 0 { root with indexPrevious := newPage }
      return some (newPage, s.setPage owner newPage ⟨[key], 0, if newPage = 1 then 0 else page⟩)

/-- The root page has become empty, and one other page is left: erase that page too when it is
empty. Returns the root as it is now. -/
def dirDropOnlyPage (s : Ledger) (owner : AccountID) (node : DirNode) :
    Except TER (Ledger × DirNode) :=
  if node.indexNext = node.indexPrevious ∧ node.indexNext ≠ 0 then do
    let last ← orFail (s.dirs.lookup (owner, node.indexNext)) .tefException
    let root := { node with indexNext := 0, indexPrevious := 0 }
    return if last.indexes = [] then
        ((s.setPage owner 0 root).erasePage owner node.indexNext, root)
      else (s, node)
  else .ok (s, node)

/-- The root page has become empty: drop a trailing empty page, then the root if it is the
only page left and need not be kept. -/
def dirRemoveRoot (s : Ledger) (owner : AccountID) (node : DirNode) (keepRoot : Bool) :
    Except TER Ledger := do
  failIf (node.indexNext = 0 ∧ node.indexPrevious ≠ 0) .tefException
  failIf (node.indexPrevious = 0 ∧ node.indexNext ≠ 0) .tefException
  let (s, node) ← s.dirDropOnlyPage owner node
  return if !keepRoot ∧ node.indexNext = 0 ∧ node.indexPrevious = 0 then s.erasePage owner 0 else s

/-- A page has been unlinked between `node.indexPrevious` and `next`: when `next` is the last
page and empty, unlink and erase it too. Returns the page that now follows. -/
def dirDropLastPage (s : Ledger) (owner : AccountID) (node next : DirNode) :
    Except TER (Ledger × UInt64) :=
  if node.indexNext ≠ 0 ∧ next.indexNext = 0 ∧ next.indexes = [] then do
    let s := s.erasePage owner node.indexNext
    let prev ← orFail (s.dirs.lookup (owner, node.indexPrevious)) .tefException
    let s := s.setPage owner node.indexPrevious { prev with indexNext := 0 }
    let root ← orFail (s.dirs.lookup (owner, 0)) .tefException
    return (s.setPage owner 0 { root with indexPrevious := node.indexPrevious }, 0)
  else .ok (s, node.indexNext)

/-- A page other than the root has become empty: unlink and erase it, and with it a trailing
empty page and an empty root. -/
def dirRemovePage (s : Ledger) (owner : AccountID) (page : UInt64) (node : DirNode)
    (keepRoot : Bool) : Except TER Ledger := do
  failIf (node.indexNext = page) .tefException
  failIf (node.indexPrevious = page) .tefException
  let prev ← orFail (s.dirs.lookup (owner, node.indexPrevious)) .tefException
  let s := s.setPage owner node.indexPrevious { prev with indexNext := node.indexNext }
  let next ← orFail (s.dirs.lookup (owner, node.indexNext)) .tefException
  let s := s.setPage owner node.indexNext { next with indexPrevious := node.indexPrevious }
  let (s, nextPage) ← (s.erasePage owner page).dirDropLastPage owner node next
  return if !keepRoot ∧ nextPage = 0 ∧ node.indexPrevious = 0 ∧ prev.indexes = [] then
      s.erasePage owner 0
    else s

/-- Remove an entry from a page of an owner directory; `none` when it is not there. -/
def dirRemove (s : Ledger) (owner : AccountID) (page : UInt64) (key : UInt256)
    (keepRoot : Bool) : Except TER (Option Ledger) :=
  match s.dirs.lookup (owner, page) with
  | none => .ok none
  | some node =>
    if key ∈ node.indexes then do
      let node := { node with indexes := node.indexes.erase key }
      let s := s.setPage owner page node
      if node.indexes ≠ [] then return some s
      else if page = 0 then return some (← s.dirRemoveRoot owner node keepRoot)
      else return some (← s.dirRemovePage owner page node keepRoot)
    else .ok none

/-! ### A directory operation touches nothing but directory pages -/

/-- The two ledgers agree on everything outside the directories. -/
def SameButDirs (s s' : Ledger) : Prop := s' = { s with dirs := s'.dirs }

theorem SameButDirs.refl (s : Ledger) : SameButDirs s s := rfl

theorem SameButDirs.trans {s s' s'' : Ledger} (h : SameButDirs s s') (h' : SameButDirs s' s'') :
    SameButDirs s s'' := by
  unfold SameButDirs at *
  rw [h'] at *
  rw [h]

theorem SameButDirs.accounts {s s' : Ledger} (h : SameButDirs s s') : s'.accounts = s.accounts := by
  rw [h]

theorem SameButDirs.bonds {s s' : Ledger} (h : SameButDirs s s') : s'.bonds = s.bonds := by
  rw [h]

theorem SameButDirs.names {s s' : Ledger} (h : SameButDirs s s') : s'.names = s.names := by
  rw [h]

theorem SameButDirs.proposals {s s' : Ledger} (h : SameButDirs s s') :
    s'.proposals = s.proposals := by
  rw [h]

theorem SameButDirs.setPage {s s' : Ledger} (h : SameButDirs s s') (owner : AccountID)
    (page : UInt64) (node : DirNode) : SameButDirs s (s'.setPage owner page node) :=
  h.trans rfl

theorem SameButDirs.erasePage {s s' : Ledger} (h : SameButDirs s s') (owner : AccountID)
    (page : UInt64) : SameButDirs s (s'.erasePage owner page) :=
  h.trans rfl

theorem dirInsert_sameButDirs {s s' : Ledger} {owner : AccountID} {key : UInt256} {page : UInt64}
    (h : s.dirInsert owner key = .ok (some (page, s'))) : SameButDirs s s' := by
  have hs := SameButDirs.refl s
  unfold dirInsert at h
  split at h
  · obtain ⟨-, rfl⟩ : 0 = page ∧ _ = s' := by simpa using h
    exact hs.setPage _ _ _
  · simp only [Except.bind_eq_ok, orFail_eq_ok] at h
    obtain ⟨node, -, h⟩ := h
    split at h
    · simp only [Except.bind_eq_ok, failIf_eq_ok, Except.pure_eq_ok, Option.some.injEq,
        Prod.mk.injEq] at h
      obtain ⟨-, -, -, rfl⟩ := h
      exact hs.setPage _ _ _
    · split at h
      · simp at h
      · simp only [Except.bind_eq_ok, failIf_eq_ok, orFail_eq_ok, Except.pure_eq_ok,
          Option.some.injEq, Prod.mk.injEq] at h
        obtain ⟨-, -, -, -, -, rfl⟩ := h
        exact ((hs.setPage _ _ _).setPage _ _ _).setPage _ _ _

private theorem dirDropOnlyPage_sameButDirs {s s' : Ledger} {owner : AccountID}
    {node node' : DirNode} (h : s.dirDropOnlyPage owner node = .ok (s', node')) :
    SameButDirs s s' := by
  unfold dirDropOnlyPage at h
  split at h
  · simp only [Except.bind_eq_ok, orFail_eq_ok, Except.pure_eq_ok] at h
    obtain ⟨last, -, h⟩ := h
    split at h <;> obtain ⟨rfl, -⟩ := Prod.mk.inj h
    · exact ((SameButDirs.refl s).setPage _ _ _).erasePage _ _
    · exact .refl s
  · obtain ⟨rfl, -⟩ := Prod.mk.inj (Except.ok.inj h)
    exact .refl s

private theorem dirRemoveRoot_sameButDirs {s s' : Ledger} {owner : AccountID} {node : DirNode}
    {keepRoot : Bool} (h : s.dirRemoveRoot owner node keepRoot = .ok s') : SameButDirs s s' := by
  simp only [dirRemoveRoot, Except.bind_eq_ok, failIf_eq_ok, Except.pure_eq_ok] at h
  obtain ⟨-, -, -, -, ⟨t, node'⟩, ht, rfl⟩ := h
  have hst := dirDropOnlyPage_sameButDirs ht
  dsimp only
  split
  · exact hst.erasePage _ _
  · exact hst

private theorem dirDropLastPage_sameButDirs {s s' : Ledger} {owner : AccountID}
    {node next : DirNode} {page : UInt64}
    (h : s.dirDropLastPage owner node next = .ok (s', page)) : SameButDirs s s' := by
  unfold dirDropLastPage at h
  split at h
  · simp only [Except.bind_eq_ok, orFail_eq_ok, Except.pure_eq_ok, Prod.mk.injEq] at h
    obtain ⟨-, -, -, -, rfl, -⟩ := h
    exact (((SameButDirs.refl s).erasePage _ _).setPage _ _ _).setPage _ _ _
  · obtain ⟨rfl, -⟩ := Prod.mk.inj (Except.ok.inj h)
    exact .refl s

private theorem dirRemovePage_sameButDirs {s s' : Ledger} {owner : AccountID} {page : UInt64}
    {node : DirNode} {keepRoot : Bool} (h : s.dirRemovePage owner page node keepRoot = .ok s') :
    SameButDirs s s' := by
  simp only [dirRemovePage, Except.bind_eq_ok, failIf_eq_ok, orFail_eq_ok,
    Except.pure_eq_ok] at h
  obtain ⟨-, -, -, -, prev, -, next, -, ⟨t, nextPage⟩, ht, rfl⟩ := h
  have hst : SameButDirs s t := by
    refine SameButDirs.trans ?_ (dirDropLastPage_sameButDirs ht)
    exact (((SameButDirs.refl s).setPage _ _ _).setPage _ _ _).erasePage _ _
  dsimp only
  split
  · exact hst.erasePage _ _
  · exact hst

theorem dirRemove_sameButDirs {s s' : Ledger} {owner : AccountID} {page : UInt64} {key : UInt256}
    {keepRoot : Bool} (h : s.dirRemove owner page key keepRoot = .ok (some s')) :
    SameButDirs s s' := by
  have hs := SameButDirs.refl s
  unfold dirRemove at h
  split at h
  · simp at h
  · dsimp only at h
    split_ifs at h
    · simp only [Except.pure_eq_ok, Option.some.injEq] at h
      subst h
      exact hs.setPage _ _ _
    · simp only [Except.bind_eq_ok, Except.pure_eq_ok, Option.some.injEq] at h
      obtain ⟨_, ht, rfl⟩ := h
      exact (hs.setPage _ _ _).trans (dirRemoveRoot_sameButDirs ht)
    · simp only [Except.bind_eq_ok, Except.pure_eq_ok, Option.some.injEq] at h
      obtain ⟨_, ht, rfl⟩ := h
      exact (hs.setPage _ _ _).trans (dirRemovePage_sameButDirs ht)
    · cases h

/-! ### What a directory lists -/

/-- The entries on a page of an owner directory, none when there is no such page. -/
def listed (s : Ledger) (owner : AccountID) (page : UInt64) : List UInt256 :=
  (s.dirs.lookup (owner, page)).elim [] DirNode.indexes

section Listed

variable {s s' : Ledger} {owner o : AccountID} {page p : UInt64} {key : UInt256} {node : DirNode}

theorem listed_of_lookup (h : s.dirs.lookup (owner, page) = some node) :
    s.listed owner page = node.indexes := by
  simp [listed, h]

theorem listed_of_none (h : s.dirs.lookup (owner, page) = none) : s.listed owner page = [] := by
  simp [listed, h]

theorem listed_congr (h : s'.dirs = s.dirs) : s'.listed = s.listed := by
  funext o p
  simp only [listed, h]

@[simp] theorem listed_setPage_self (s : Ledger) (owner : AccountID) (page : UInt64)
    (node : DirNode) : (s.setPage owner page node).listed owner page = node.indexes := by
  simp [listed, setPage]

theorem listed_setPage_of_ne (h : (o, p) ≠ (owner, page)) :
    (s.setPage owner page node).listed o p = s.listed o p := by
  simp only [listed, setPage, AList.lookup_insert_ne h]

private theorem listed_setPage_links {node' : DirNode}
    (h : s.dirs.lookup (owner, page) = some node) (hlinks : node'.indexes = node.indexes) :
    (s.setPage owner page node').listed = s.listed := by
  funext o p
  by_cases hop : (o, p) = (owner, page)
  · obtain ⟨rfl, rfl⟩ := Prod.mk.inj hop
    rw [listed_setPage_self, hlinks, listed_of_lookup h]
  · exact listed_setPage_of_ne hop

private theorem listed_erasePage (h : s.listed owner page = []) :
    (s.erasePage owner page).listed = s.listed := by
  funext o p
  by_cases hop : (o, p) = (owner, page)
  · obtain ⟨rfl, rfl⟩ := Prod.mk.inj hop
    rw [h]
    simp [listed, erasePage]
  · simp only [listed, erasePage, AList.lookup_erase_ne hop]

/-- The key has joined the page, and no other page has changed. -/
structure PageGained (s : Ledger) (owner : AccountID) (key : UInt256) (page : UInt64)
    (s' : Ledger) : Prop where
  fresh : key ∉ s.listed owner page
  listed : (s'.listed owner page).Perm (key :: s.listed owner page)
  others : ∀ o p, (o, p) ≠ (owner, page) → s'.listed o p = s.listed o p

theorem PageGained.congr {t t' : Ledger} (h : PageGained s owner key page s')
    (hs : t.listed = s.listed) (hs' : t'.listed = s'.listed) : PageGained t owner key page t' := by
  refine ⟨?_, ?_, ?_⟩ <;> simp only [hs, hs']
  exacts [h.fresh, h.listed, h.others]

/-- An entry was inserted, and nothing outside the directories has changed. -/
structure DirAdded (s : Ledger) (owner : AccountID) (key : UInt256) (page : UInt64) (s' : Ledger) :
    Prop where
  same : SameButDirs s s'
  page : PageGained s owner key page s'

theorem dirInsert_ok (h : s.dirInsert owner key = .ok (some (page, s'))) :
    DirAdded s owner key page s' := by
  have hsame := dirInsert_sameButDirs h
  unfold dirInsert at h
  split at h
  · rename_i hnone
    obtain ⟨rfl, rfl⟩ : 0 = page ∧ _ = s' := by simpa using h
    have hempty : s.listed owner 0 = [] := listed_of_none hnone
    refine ⟨hsame, by simp [hempty], ?_, fun o p hop => listed_setPage_of_ne hop⟩
    rw [listed_setPage_self, hempty]
  · simp only [Except.bind_eq_ok, orFail_eq_ok] at h
    obtain ⟨node, hnode, h⟩ := h
    split at h
    · simp only [Except.bind_eq_ok, failIf_eq_ok, Except.pure_eq_ok, Option.some.injEq,
        Prod.mk.injEq] at h
      obtain ⟨-, hfresh, rfl, rfl⟩ := h
      rw [← listed_of_lookup hnode] at hfresh
      refine ⟨hsame, hfresh, ?_, fun o p hop => listed_setPage_of_ne hop⟩
      rw [listed_setPage_self, listed_of_lookup hnode]
      exact (List.perm_orderedInsert _ _ _).trans ((List.perm_insertionSort _ _).cons key)
    · split at h
      · simp at h
      · simp only [Except.bind_eq_ok, failIf_eq_ok, orFail_eq_ok, Except.pure_eq_ok,
          Option.some.injEq, Prod.mk.injEq, Option.not_isSome_iff_eq_none] at h
        obtain ⟨-, hfree, root', hroot', rfl, rfl⟩ := h
        have hempty := listed_of_none hfree
        refine ⟨hsame, by simp [hempty], ?_, fun o p hop => ?_⟩
        · rw [listed_setPage_self, hempty]
        · -- linking the new page to the last one and to the root keeps both listings
          refine (listed_setPage_of_ne hop).trans (congrFun (congrFun ?_ o) p)
          exact (listed_setPage_links hroot' (by rfl)).trans (listed_setPage_links hnode (by rfl))

/-- The key has left the page, and no other page has changed. -/
structure PageLost (s : Ledger) (owner : AccountID) (page : UInt64) (key : UInt256)
    (s' : Ledger) : Prop where
  found : key ∈ s.listed owner page
  listed : s'.listed owner page = (s.listed owner page).erase key
  others : ∀ o p, (o, p) ≠ (owner, page) → s'.listed o p = s.listed o p

theorem PageLost.congr {t t' : Ledger} (h : PageLost s owner page key s')
    (hs : t.listed = s.listed) (hs' : t'.listed = s'.listed) : PageLost t owner page key t' := by
  refine ⟨?_, ?_, ?_⟩ <;> simp only [hs, hs']
  exacts [h.found, h.listed, h.others]

/-- An entry was removed, and nothing outside the directories has changed. -/
structure DirRemoved (s : Ledger) (owner : AccountID) (page : UInt64) (key : UInt256)
    (s' : Ledger) : Prop where
  same : SameButDirs s s'
  page : PageLost s owner page key s'

private theorem dirDropOnlyPage_listed {node' : DirNode}
    (h : s.dirDropOnlyPage owner node = .ok (s', node'))
    (hnode : s.dirs.lookup (owner, 0) = some node) : s'.listed = s.listed := by
  unfold dirDropOnlyPage at h
  split at h
  · rename_i hlink
    simp only [Except.bind_eq_ok, orFail_eq_ok, Except.pure_eq_ok] at h
    obtain ⟨last, hlast, h⟩ := h
    split at h <;> obtain ⟨rfl, -⟩ := Prod.mk.inj h
    · rename_i hnil
      have hroot : (s.setPage owner 0 { node with indexNext := 0, indexPrevious := 0 }).listed =
          s.listed := listed_setPage_links hnode rfl
      refine (listed_erasePage ?_).trans hroot
      rw [hroot, listed_of_lookup hlast, hnil]
    · rfl
  · obtain ⟨rfl, -⟩ := Prod.mk.inj (Except.ok.inj h)
    rfl

private theorem dirRemoveRoot_listed {keepRoot : Bool}
    (h : s.dirRemoveRoot owner node keepRoot = .ok s')
    (hnode : s.dirs.lookup (owner, 0) = some node)
    (hempty : node.indexes = []) : s'.listed = s.listed := by
  simp only [dirRemoveRoot, Except.bind_eq_ok, failIf_eq_ok, Except.pure_eq_ok] at h
  obtain ⟨-, -, -, -, ⟨t, node'⟩, ht, rfl⟩ := h
  have hlisted := dirDropOnlyPage_listed ht hnode
  dsimp only
  split
  · rw [listed_erasePage, hlisted]
    rw [hlisted, listed_of_lookup hnode, hempty]
  · exact hlisted

private theorem dirDropLastPage_listed {next : DirNode} {nextPage : UInt64}
    (h : s.dirDropLastPage owner node next = .ok (s', nextPage))
    (hnext : s.listed owner node.indexNext = next.indexes) : s'.listed = s.listed := by
  unfold dirDropLastPage at h
  split at h
  · rename_i hlast
    simp only [Except.bind_eq_ok, orFail_eq_ok, Except.pure_eq_ok, Prod.mk.injEq] at h
    obtain ⟨prev, hprev, root, hroot, rfl, -⟩ := h
    rw [hlast.2.2] at hnext
    exact ((listed_setPage_links hroot (by rfl)).trans
      (listed_setPage_links hprev (by rfl))).trans (listed_erasePage hnext)
  · obtain ⟨rfl, -⟩ := Prod.mk.inj (Except.ok.inj h)
    rfl

private theorem dirRemovePage_listed {keepRoot : Bool}
    (h : s.dirRemovePage owner page node keepRoot = .ok s')
    (hempty : s.listed owner page = []) : s'.listed = s.listed := by
  simp only [dirRemovePage, Except.bind_eq_ok, failIf_eq_ok, orFail_eq_ok,
    Except.pure_eq_ok] at h
  obtain ⟨-, -, -, -, prev, hprev, next, hnext, ⟨t, nextPage⟩, ht, rfl⟩ := h
  have hfirst : (s.setPage owner node.indexPrevious
      { prev with indexNext := node.indexNext }).listed = s.listed :=
    listed_setPage_links hprev rfl
  have hlinked : ((s.setPage owner node.indexPrevious
      { prev with indexNext := node.indexNext }).setPage owner node.indexNext
        { next with indexPrevious := node.indexPrevious }).listed = s.listed :=
    (listed_setPage_links hnext (by rfl)).trans hfirst
  have herased := (listed_erasePage (hlinked ▸ hempty)).trans hlinked
  have hlisted : t.listed = s.listed := by
    refine (dirDropLastPage_listed ht ?_).trans herased
    rw [herased, ← hfirst]
    exact listed_of_lookup hnext
  dsimp only
  split
  · rename_i hroot
    rw [listed_erasePage, hlisted]
    rw [hlisted, ← hroot.2.2.1, listed_of_lookup hprev, hroot.2.2.2]
  · exact hlisted

theorem dirRemove_ok {keepRoot : Bool} (h : s.dirRemove owner page key keepRoot = .ok (some s')) :
    DirRemoved s owner page key s' := by
  have hsame := dirRemove_sameButDirs h
  unfold dirRemove at h
  split at h
  · simp at h
  · rename_i node hnode
    dsimp only at h
    have hfound : ∀ {k}, k ∈ node.indexes → k ∈ s.listed owner page := fun hk => by
      rwa [listed_of_lookup hnode]
    -- the page without the key, before empty pages are dropped
    have hwritten : ∀ t : Ledger, t.listed =
        (s.setPage owner page { node with indexes := node.indexes.erase key }).listed →
        t.listed owner page = (s.listed owner page).erase key ∧
          ∀ o p, (o, p) ≠ (owner, page) → t.listed o p = s.listed o p := fun t ht => by
      rw [ht, listed_setPage_self, listed_of_lookup hnode]
      exact ⟨rfl, fun o p hop => listed_setPage_of_ne hop⟩
    split_ifs at h with hmem hrest hroot
    · simp only [Except.pure_eq_ok, Option.some.injEq] at h
      subst h
      obtain ⟨hlisted, hothers⟩ := hwritten _ rfl
      exact ⟨hsame, hfound hmem, hlisted, hothers⟩
    · simp only [Except.bind_eq_ok, Except.pure_eq_ok, Option.some.injEq] at h
      obtain ⟨_, ht, rfl⟩ := h
      subst hroot
      have hkept := dirRemoveRoot_listed ht (by simp [setPage]) (not_not.mp hrest)
      obtain ⟨hlisted, hothers⟩ := hwritten _ hkept
      exact ⟨hsame, hfound hmem, hlisted, hothers⟩
    · simp only [Except.bind_eq_ok, Except.pure_eq_ok, Option.some.injEq] at h
      obtain ⟨_, ht, rfl⟩ := h
      have hkept := dirRemovePage_listed ht
        ((listed_setPage_self _ _ _ _).trans (not_not.mp hrest))
      obtain ⟨hlisted, hothers⟩ := hwritten _ hkept
      exact ⟨hsame, hfound hmem, hlisted, hothers⟩
    · cases h

end Listed

end Ledger

end FalconLedger
