import FalconLedger.Ledger.DirectoryPages

/-!
# Walking a directory while its entries are deleted

`internalDirFirst`, `internalDirNext` and `cleanupOnAccountDelete`. The walk keeps a pointer to its
page, and the view hands out one object for a page: what `dirRemove` writes shows in the object the
walk holds, which it still holds after the page is erased.

A deleter fails, asks to skip the entry, or removes it with `dirRemove` on the page it is listed on.
The rest of the view and the failures are of any type.
-/

namespace FalconLedger.Directory

variable {K D σ T : Type}

/-- What keeps a walk from returning: the fuel of the model is used up, or the directory code
throws. -/
inductive WalkError
  | outOfFuel
  | thrown (e : DirectoryError)
  deriving DecidableEq

/-- The state of the iterator: the page, its object, and the index in it of the next entry. -/
structure Cursor (K D : Type) where
  page : UInt64
  object : DirectoryNode K D
  index : ℕ

/-- The next entry, if there is one, and the iterator past it. Where the entries of the page are
used up, its forward link names the page to go on with. -/
def internalDirNext (d : Directory K D) :
    ℕ → Cursor K D → Except WalkError (Option (K × Cursor K D))
  | 0, _ => .error .outOfFuel
  | fuel + 1, cursor =>
    match cursor.object.indexes[cursor.index]? with
    | some entry => .ok (some (entry, { cursor with index := cursor.index + 1 }))
    | none =>
      let next := cursor.object.next
      if next = 0 then .ok none
      else match d.lookup next with
        | none => .ok none
        | some object => d.internalDirNext fuel ⟨next, object, 0⟩

def internalDirFirst (d : Directory K D) (fuel : ℕ) : Except WalkError (Option (K × Cursor K D)) :=
  match d.lookup 0 with
  | none => .ok none
  | some object => d.internalDirNext fuel ⟨0, object, 0⟩

/-- The object of the page once `dirRemove` has taken the entry from it and left the pages `d`.
Where the page was erased its links are those it had when it was: a page other than the root is
unlinked by changes to its neighbours; the root is erased only with both links `0`. -/
def Cursor.objectAfter [DecidableEq K] (cursor : Cursor K D) (d : Directory K D) (entry : K) :
    DirectoryNode K D :=
  match d.lookup cursor.page with
  | some object => object
  | none =>
    let object := { cursor.object with indexes := cursor.object.indexes.erase entry }
    if cursor.page = 0 then { object with indexNext := some 0, indexPrevious := some 0 } else object

inductive SkipEntry
  | no
  | yes
  deriving DecidableEq

/-- An `EntryDeleter`, and the items it is called for. -/
structure EntryDeleter (K D σ T : Type) where
  /-- `view.peek(keylet::child(dirEntry))` finds the item of an entry. -/
  hasItem : σ → K → Bool
  /-- A failure, or the answer whether to skip the entry, with the `keepRoot` that `dirRemove` is
  called with where it is not skipped. -/
  delete : K → Directory K D → σ → Except T (SkipEntry × Bool × σ)

/-- What `cleanupOnAccountDelete` returns. -/
inductive CleanupTER (T : Type)
  | tesSuccess
  | tecIncomplete
  | tefBadLedger
  /-- The failure of the deleter. -/
  | failed (ter : T)

/-- What comes of one entry: the loop returns, having called the deleter or not, or it goes on. -/
inductive Visit (K D σ T : Type)
  | stop (ter : CleanupTER T) (called : Bool)
  | go (skip : SkipEntry) (pages : Directory K D) (view : σ) (cursor : Cursor K D)

/-- What a call of `cleanupOnAccountDelete` comes to: its result, the entries the deleter was called
with in order, those of them it asked to skip, the pages, and the rest of the view. -/
structure Cleanup (K D σ T : Type) where
  ter : CleanupTER T
  visited : List K
  skipped : List K
  pages : Directory K D
  view : σ

section Loop

variable [DecidableEq K] (deleter : EntryDeleter K D σ T) (maxNodesToDelete : Option ℕ)

/-- The body of the loop, at the entry before the index of the cursor. -/
def visitEntry (deleted : ℕ) (d : Directory K D) (view : σ) (entry : K) (cursor : Cursor K D) :
    Except WalkError (Visit K D σ T) :=
  if maxNodesToDelete.any (· < deleted + 1) then .ok (.stop .tecIncomplete false)
  else if !deleter.hasItem view entry then .ok (.stop .tefBadLedger false)
  else
    match deleter.delete entry d view with
    | .error ter => .ok (.stop (.failed ter) true)
    | .ok (.yes, _, view') =>
      if cursor.index = 0 then .ok (.stop .tefBadLedger true) else .ok (.go .yes d view' cursor)
    | .ok (.no, keepRoot, view') =>
      match d.dirRemove cursor.page entry keepRoot with
      | .error e => .error (.thrown e)
      -- a deleter that does not find the entry in the directory returns this code
      | .ok (false, _) => .ok (.stop .tefBadLedger true)
      | .ok (true, d') =>
        if cursor.index = 0 then .ok (.stop .tefBadLedger true)
        else
          .ok (.go .no d' view' ⟨cursor.page, cursor.objectAfter d' entry, cursor.index - 1⟩)

/-- The `do`-`while` loop, at an entry. `deleted` counts the entries before it. -/
def cleanupFrom : ℕ → ℕ → Directory K D → σ → K → Cursor K D →
    Except WalkError (Cleanup K D σ T)
  | 0, _, _, _, _, _ => .error .outOfFuel
  | fuel + 1, deleted, d, view, entry, cursor => do
    match ← visitEntry deleter maxNodesToDelete deleted d view entry cursor with
    | .stop ter called => return ⟨ter, if called then [entry] else [], [], d, view⟩
    | .go skip d view cursor =>
      let skipped := if skip = .yes then [entry] else []
      match ← d.internalDirNext fuel cursor with
      | none => return ⟨.tesSuccess, [entry], skipped, d, view⟩
      | some (next, cursor) =>
        let rest ← cleanupFrom fuel (deleted + 1) d view next cursor
        return { rest with
          visited := entry :: rest.visited, skipped := skipped ++ rest.skipped }

/-- Delete the entries of an owner directory. -/
def cleanupOnAccountDelete (fuel : ℕ) (d : Directory K D) (view : σ) :
    Except WalkError (Cleanup K D σ T) := do
  match ← d.internalDirFirst fuel with
  | none => return ⟨.tesSuccess, [], [], d, view⟩
  | some (entry, cursor) => cleanupFrom deleter maxNodesToDelete fuel 0 d view entry cursor

end Loop

end FalconLedger.Directory
