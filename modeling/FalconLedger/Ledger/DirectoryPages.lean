import FalconLedger.Ledger.Directory

/-!
# The pages of one directory

`ApplyView::dirAppend`, `dirInsert`, `dirRemove`, `dirDelete` and `emptyDirDelete` on the pages of
one directory, named by their numbers (`keylet::page` gives every number a ledger key of its own).
Where the source throws, so does the model: at a broken link, at a double insertion, and where the
view is asked to insert a page that exists or to change one that does not.
-/

namespace FalconLedger

/-- The `logic_error`s of the directory code, and of the view below it. -/
inductive DirectoryError
  | rootBackPointerBroken
  | doubleInsertion
  | fwdLinkBroken
  | revLinkBroken
  | rootLinkBroken
  | invalidNode
  | pageExists
  | pageMissing
  deriving DecidableEq

/-- A page. The links are optional fields, and an absent one reads as `0`. -/
structure DirectoryNode (K D : Type) where
  rootIndex : K
  indexes : List K
  indexNext : Option UInt64
  indexPrevious : Option UInt64
  described : D

namespace DirectoryNode

variable {K D : Type}

/-- `getFieldU64(sfIndexNext)`. -/
def next (node : DirectoryNode K D) : UInt64 := node.indexNext.getD 0

/-- `getFieldU64(sfIndexPrevious)`. -/
def previous (node : DirectoryNode K D) : UInt64 := node.indexPrevious.getD 0

end DirectoryNode

/-- The pages of a directory by number. -/
abbrev Directory (K D : Type) := Table UInt64 (DirectoryNode K D)

namespace Directory

variable {K D : Type}

/-- Check out a page that has to be there. -/
def peek (d : Directory K D) (page : UInt64) (e : DirectoryError) :
    Except DirectoryError (DirectoryNode K D) :=
  match d.lookup page with
  | some node => .ok node
  | none => .error e

/-- `ApplyView::insert`: the page must not exist. -/
def insertNode (d : Directory K D) (page : UInt64) (node : DirectoryNode K D) :
    Except DirectoryError (Directory K D) :=
  if (d.lookup page).isSome then .error .pageExists else .ok (d.insert page node)

/-- `ApplyView::update`, with the change made to the page checked out. -/
def update (d : Directory K D) (page : UInt64)
    (f : DirectoryNode K D → DirectoryNode K D) : Except DirectoryError (Directory K D) := do
  let node ← d.peek page .pageMissing
  return d.insert page (f node)

/-- `ApplyView::erase`. -/
def eraseNode (d : Directory K D) (page : UInt64) : Except DirectoryError (Directory K D) := do
  let _ ← d.peek page .pageMissing
  return d.erase page

section Add

variable [LinearOrder K]

def createRoot (d : Directory K D) (directory key : K) (describe : D) :
    Except DirectoryError (UInt64 × Directory K D) := do
  let d ← d.insertNode 0 ⟨directory, [key], none, none, describe⟩
  return (0, d)

/-- The last page, which the back link of the root names. -/
def findPreviousPage (d : Directory K D) (start : DirectoryNode K D) :
    Except DirectoryError (UInt64 × DirectoryNode K D) :=
  if start.previous ≠ 0 then do
    let node ← d.peek start.previous .rootBackPointerBroken
    return (start.previous, node)
  else .ok (start.previous, start)

/-- The entries of a page with a new one: at the end, or, once the page is sorted, at the lower
bound of the key. -/
def withKey (preserveOrder : Bool) (indexes : List K) (key : K) :
    Except DirectoryError (List K) :=
  if preserveOrder then
    if key ∈ indexes then .error .doubleInsertion else .ok (indexes ++ [key])
  else
    let sorted := indexes.insertionSort (· ≤ ·)
    let above := sorted.dropWhile fun k => decide (k < key)
    if above.head? = some key then .error .doubleInsertion
    else .ok (sorted.takeWhile (fun k => decide (k < key)) ++ key :: above)

def insertKey (d : Directory K D) (node : DirectoryNode K D) (page : UInt64)
    (preserveOrder : Bool) (key : K) : Except DirectoryError (UInt64 × Directory K D) := do
  let indexes ← withKey preserveOrder node.indexes key
  let d ← d.update page fun node => { node with indexes }
  return (page, d)

/-- A new page after the last one; `none` when the page numbers are used up, or, before
`fixDirectoryLimit`, their old limit is reached. -/
def insertPage (d : Directory K D) (page : UInt64) (key directory : K) (describe : D)
    (fixDirectoryLimit : Bool) : Except DirectoryError (Option (UInt64 × Directory K D)) :=
  let newPage := page + 1
  if newPage = 0 then .ok none
  else if !fixDirectoryLimit ∧ kDirNodeMaxPages ≤ newPage then .ok none
  else do
    let d ← d.update page fun node => { node with indexNext := some newPage }
    let d ← d.update 0 fun node => { node with indexPrevious := some newPage }
    -- the back link is left out where it would be `0`
    let indexPrevious := if newPage ≠ 1 then some (newPage - 1) else none
    let d ← d.insertNode newPage ⟨directory, [key], none, indexPrevious, describe⟩
    return some (newPage, d)

/-- Add an entry, and return its page. -/
def dirAdd (d : Directory K D) (preserveOrder : Bool) (directory key : K) (describe : D)
    (fixDirectoryLimit : Bool) : Except DirectoryError (Option (UInt64 × Directory K D)) :=
  match d.lookup 0 with
  | none => some <$> d.createRoot directory key describe
  | some root => do
    let (page, node) ← d.findPreviousPage root
    if node.indexes.length < kDirNodeMaxEntries then
      some <$> d.insertKey node page preserveOrder key
    else d.insertPage page key directory describe fixDirectoryLimit

/-- Entries in the order of insertion. -/
def dirAppend (d : Directory K D) (directory key : K) (describe : D) (fixDirectoryLimit : Bool) :
    Except DirectoryError (Option (UInt64 × Directory K D)) :=
  d.dirAdd true directory key describe fixDirectoryLimit

/-- Entries sorted on each page. -/
def dirInsert (d : Directory K D) (directory key : K) (describe : D) (fixDirectoryLimit : Bool) :
    Except DirectoryError (Option (UInt64 × Directory K D)) :=
  d.dirAdd false directory key describe fixDirectoryLimit

end Add

/-- The root is empty. Where one other page is left and is empty as well, as older versions of the
code allowed, erase that page. Returns whether the root is now the only page. -/
def dropLegacyPage (d : Directory K D) (root : DirectoryNode K D) :
    Except DirectoryError (Bool × Directory K D) :=
  if root.next = root.previous ∧ root.next ≠ 0 then do
    let last ← d.peek root.next .fwdLinkBroken
    if last.indexes.isEmpty then
      let d ← d.update 0 fun node => { node with indexNext := some 0, indexPrevious := some 0 }
      let d ← d.eraseNode root.next
      return (true, d)
    else return (false, d)
  else .ok (decide (root.next = 0 ∧ root.previous = 0), d)

/-- The links of the root agree on whether there are other pages. -/
def checkRoot (root : DirectoryNode K D) : Except DirectoryError Unit :=
  if root.next = 0 ∧ root.previous ≠ 0 then .error .fwdLinkBroken
  else if root.previous = 0 ∧ root.next ≠ 0 then .error .revLinkBroken
  else .ok ()

/-- Remove the directory if it is empty. -/
def emptyDirDelete [DecidableEq K] (d : Directory K D) (directory : K) :
    Except DirectoryError (Bool × Directory K D) :=
  match d.lookup 0 with
  | none => .ok (false, d)
  | some root =>
    if root.rootIndex ≠ directory then .error .invalidNode
    else if !root.indexes.isEmpty then .ok (false, d)
    else do
      checkRoot root
      let (only, d') ← d.dropLegacyPage root
      if only then
        let d' ← d'.eraseNode 0
        return (true, d')
      -- the only other page still has entries
      else return (decide (root.next ≠ root.previous), d')

/-- The entry removed was the last one of the root page. -/
def removeFromRoot (d : Directory K D) (node : DirectoryNode K D) (keepRoot : Bool) :
    Except DirectoryError (Directory K D) := do
  checkRoot node
  let (only, d) ← d.dropLegacyPage node
  if !keepRoot ∧ only then d.eraseNode 0 else return d

/-- A page has been unlinked between `prevPage` and `nextPage`. Where the latter is the last page
and empty, unlink and erase it too. Returns the page that now follows `prevPage`. -/
def dropEmptyLast (d : Directory K D) (prevPage nextPage : UInt64) (next : DirectoryNode K D) :
    Except DirectoryError (UInt64 × Directory K D) :=
  if nextPage ≠ 0 ∧ next.next = 0 ∧ next.indexes.isEmpty then do
    let d ← d.eraseNode nextPage
    let d ← d.update prevPage fun node => { node with indexNext := some 0 }
    let _ ← d.peek 0 .rootLinkBroken
    let d ← d.update 0 fun node => { node with indexPrevious := some prevPage }
    return (0, d)
  else .ok (nextPage, d)

/-- The entry removed was the last one of a page other than the root. -/
def removePage (d : Directory K D) (page : UInt64) (node : DirectoryNode K D) (keepRoot : Bool) :
    Except DirectoryError (Directory K D) :=
  let prevPage := node.previous
  let nextPage := node.next
  if nextPage = page then .error .fwdLinkBroken
  else if prevPage = page then .error .revLinkBroken
  else do
    let prev ← d.peek prevPage .fwdLinkBroken
    let d ← d.update prevPage fun node => { node with indexNext := some nextPage }
    let next ← d.peek nextPage .revLinkBroken
    let d ← d.update nextPage fun node => { node with indexPrevious := some prevPage }
    let d ← d.eraseNode page
    let (nextPage, d) ← d.dropEmptyLast prevPage nextPage next
    if !keepRoot ∧ nextPage = 0 ∧ prevPage = 0 ∧ prev.indexes.isEmpty then d.eraseNode prevPage
    else return d

/-- Remove an entry from a page, and tell whether it was there. -/
def dirRemove [DecidableEq K] (d : Directory K D) (page : UInt64) (key : K) (keepRoot : Bool) :
    Except DirectoryError (Bool × Directory K D) :=
  match d.lookup page with
  | none => .ok (false, d)
  | some node =>
    if key ∉ node.indexes then .ok (false, d)
    else do
      let entries := node.indexes.erase key
      let d ← d.update page fun node => { node with indexes := entries }
      let node := { node with indexes := entries }
      if !entries.isEmpty then return (true, d)
      else if page = 0 then return (true, ← d.removeFromRoot node keepRoot)
      else return (true, ← d.removePage page node keepRoot)

/-- The loop of `dirDelete`, at page `pi`. The entries of all pages are handed to the callback. The
loop ends with `false` where a link leads to no page: after the last page, too, if its forward link
is present and `0`, for the root is gone by then. -/
def deleteFrom (d : Directory K D) (pi : UInt64) : Bool × List K × Directory K D :=
  match _h : d.lookup pi with
  | none => (false, [], d)
  | some page =>
    match page.indexNext with
    | none => (true, page.indexes, d.erase pi)
    | some nextPi =>
      let (deleted, called, d') := deleteFrom (d.erase pi) nextPi
      (deleted, page.indexes ++ called, d')
  termination_by d.keys.length
  decreasing_by
    have hmem : pi ∈ d.keys := AList.mem_keys.mp (AList.lookup_isSome.mp (by simp [_h]))
    have hlength := List.length_erase_of_mem hmem
    have hpos := List.length_pos_of_mem hmem
    rw [AList.keys_erase]
    omega

/-- Remove the directory, invoking the callback for every entry. -/
def dirDelete (d : Directory K D) : Bool × List K × Directory K D := d.deleteFrom 0

end Directory

end FalconLedger
