import FalconLedger.Data.KeyedMap
import FalconLedger.Protocol.STTx

/-!
# Pages of tokens

The tokens of an owner are kept on pages of up to 32. A page has a key of 96 bits, the last one the
greatest there is, and holds tokens whose low 96 bits are less; a page that is full is split, and
pages that have become small enough are merged. The pages are linked both ways.
-/

namespace FalconLedger

/-- A page, by the low 96 bits of its key; the others are those of its owner. Of the tokens only their
ids are modelled. -/
structure NFTokenPage where
  key : ℕ
  nfTokens : List UInt256
  previousPageMin : Option ℕ
  nextPageMin : Option ℕ
  deriving DecidableEq

/-- How an operation on tokens fails. -/
inductive NFTokenFailure
  | tecNoSuitableNftokenPage
  | tecNoEntry
  /-- An exception: a broken link, pages out of order, or an entry that exists. -/
  | exception
  deriving DecidableEq

/-- The pages of one owner, and what they add to its owner count. -/
structure NFTokenDirectory where
  pages : KeyedMap NFTokenPage.key
  ownerCount : ℤ

namespace NFToken

def kDirMaxTokensPerPage : ℕ := 32

/-- The low 96 bits: `id & kPAGE_MASK`. -/
def pageBits (id : UInt256) : ℕ := id.toNat % 2 ^ 96

/-- `keylet::nftpageMax`. -/
def nftpageMax : ℕ := 2 ^ 96 - 1

def compareTokens (a b : UInt256) : Bool :=
  if pageBits a ≠ pageBits b then pageBits a < pageBits b else a.toNat < b.toNat

/-- An order for sorting by `compareTokens`. -/
def notAfter (a b : UInt256) : Bool := !compareTokens b a

/-- Fail with an exception. -/
def throwIf (c : Prop) [Decidable c] : Except NFTokenFailure Unit :=
  if c then .error .exception else .ok ()

def orElse {α : Type} (o : Option α) (e : NFTokenFailure) : Except NFTokenFailure α :=
  match o with
  | some a => .ok a
  | none => .error e

/-- The first page after the token's bits, or else the last page. -/
def locatePage (d : NFTokenDirectory) (id : UInt256) : Option NFTokenPage :=
  d.pages.find ((d.pages.succ (pageBits id)).getD nftpageMax)

/-- Where a full page is split, if it can be. -/
def splitIndex (narr : List UInt256) (id : UInt256) : Option ℕ :=
  let cmp := pageBits (narr.getD (kDirMaxTokensPerPage / 2 - 1) 0)
  let half := kDirMaxTokensPerPage / 2
  let k := half + (narr.drop half).findIdx fun t => pageBits t ≠ cmp
  let k := if k = narr.length then narr.findIdx fun t => pageBits t = cmp else k
  if k = narr.length then none
  else if k = 0 then
    if pageBits id = cmp then none
    else if cmp < pageBits id then some narr.length
    else some 0
  else some k

/-- Link the page with this key, if there is one, to the next page. -/
def setNextOf (pages : KeyedMap NFTokenPage.key) (id : Option ℕ) (next : ℕ) :
    KeyedMap NFTokenPage.key :=
  match id.bind pages.find with
  | some p3 => pages.set { p3 with nextPageMin := some next }
  | none => pages

/-- The page for a token, split if it is full. -/
def getPageForToken (d : NFTokenDirectory) (id : UInt256) :
    Except NFTokenFailure (NFTokenDirectory × NFTokenPage) :=
  match locatePage d id with
  | none =>
    let cp : NFTokenPage := ⟨nftpageMax, [], none, none⟩
    .ok (⟨d.pages.set cp, d.ownerCount + 1⟩, cp)
  | some cp =>
    if cp.nfTokens.length ≠ kDirMaxTokensPerPage then .ok (d, cp)
    else do
      let k ← orElse (splitIndex cp.nfTokens id) .tecNoSuitableNftokenPage
      let narr := cp.nfTokens.take k
      let carr := cp.nfTokens.drop k
      let tokenIDForNewPage :=
        if narr.length = kDirMaxTokensPerPage then narr.getD (kDirMaxTokensPerPage - 1) 0 + 1
        else carr.headD 0
      let np : NFTokenPage := ⟨pageBits tokenIDForNewPage, narr, cp.previousPageMin, some cp.key⟩
      let pages := setNextOf d.pages cp.previousPageMin np.key
      throwIf (pages.find np.key).isSome
      let cp := { cp with nfTokens := carr, previousPageMin := some np.key }
      return (⟨(pages.set np).set cp, d.ownerCount + 1⟩, if pageBits id < np.key then np else cp)

/-- Insert the token in the owner's token directory. -/
def insertToken (d : NFTokenDirectory) (id : UInt256) : Except NFTokenFailure NFTokenDirectory := do
  let (d, page) ← getPageForToken d id
  return { d with
    pages := d.pages.set
      { page with nfTokens := (page.nfTokens ++ [id]).insertionSort fun a b => notAfter a b } }

/-- Merge two neighbouring pages into the second if their tokens fit; returns whether they did. -/
def mergePages (pages : KeyedMap NFTokenPage.key) (p1 p2 : NFTokenPage) :
    Except NFTokenFailure (Bool × KeyedMap NFTokenPage.key) := do
  throwIf (p2.key ≤ p1.key)
  throwIf (p1.nextPageMin ≠ some p2.key)
  throwIf (p2.previousPageMin ≠ some p1.key)
  if kDirMaxTokensPerPage < p1.nfTokens.length + p2.nfTokens.length then return (false, pages)
  else
    let x := List.merge p1.nfTokens p2.nfTokens notAfter
    match p1.previousPageMin with
    | none =>
      return (true, (pages.set { p2 with nfTokens := x, previousPageMin := none }).erase p1.key)
    | some ppm =>
      let p0 ← orElse (pages.find ppm) .exception
      let pages := pages.set { p0 with nextPageMin := some p2.key }
      return (true, (pages.set { p2 with nfTokens := x, previousPageMin := some ppm }).erase p1.key)

/-- Merge where there are two pages, as they are now. -/
def mergeIfBoth (pages : KeyedMap NFTokenPage.key) (p1 p2 : Option NFTokenPage) :
    Except NFTokenFailure (Bool × KeyedMap NFTokenPage.key) :=
  match p1, p2 with
  | some p1, some p2 => do
    let p1 ← orElse (pages.find p1.key) .exception
    let p2 ← orElse (pages.find p2.key) .exception
    mergePages pages p1 p2
  | _, _ => .ok (false, pages)

/-- The page a link points to. -/
def loadPage (pages : KeyedMap NFTokenPage.key) (link : Option ℕ) :
    Except NFTokenFailure (Option NFTokenPage) :=
  match link with
  | none => .ok none
  | some id => do
    let page ← orElse (pages.find id) .exception
    return some page

/-- Take an empty page out; the last page takes over what the page before it has. -/
def removePage (d : NFTokenDirectory) (curr : NFTokenPage) (prev next : Option NFTokenPage) :
    Except NFTokenFailure NFTokenDirectory :=
  match prev with
  | some prev =>
    if curr.key = nftpageMax then
      match prev.previousPageMin with
      | none =>
        let curr := { curr with nfTokens := prev.nfTokens, previousPageMin := none }
        .ok ⟨(d.pages.set curr).erase prev.key, d.ownerCount - 1⟩
      | some prevLink => do
        let newPrev ← orElse (d.pages.find prevLink) .exception
        let curr := { curr with nfTokens := prev.nfTokens, previousPageMin := some prevLink }
        let pages := d.pages.set { newPrev with nextPageMin := some curr.key }
        return ⟨(pages.set curr).erase prev.key, d.ownerCount - 1⟩
    else do
      let pages := d.pages.set { prev with nextPageMin := next.map NFTokenPage.key }
      let pages := match next with
        | some next => pages.set { next with previousPageMin := some prev.key }
        | none => pages
      let (merged, pages) ← mergeIfBoth (pages.erase curr.key) (some prev) next
      return ⟨pages, d.ownerCount - if merged then 2 else 1⟩
  | none =>
    let pages := match next with
      | some next => d.pages.set { next with previousPageMin := none }
      | none => d.pages
    .ok ⟨pages.erase curr.key, d.ownerCount - 1⟩

/-- Remove the token from the owner's token directory. The amendment `fixNFTokenPageLinks` is
enabled. -/
def removeToken (d : NFTokenDirectory) (nftokenID : UInt256) :
    Except NFTokenFailure NFTokenDirectory := do
  let curr ← orElse (locatePage d nftokenID) .tecNoEntry
  if !curr.nfTokens.contains nftokenID then .error .tecNoEntry
  else
    let arr := curr.nfTokens.erase nftokenID
    let prev ← loadPage d.pages curr.previousPageMin
    let next ← loadPage d.pages curr.nextPageMin
    if arr.isEmpty then removePage d { curr with nfTokens := arr } prev next
    else
      let curr := { curr with nfTokens := arr }
      let (first, pages) ← mergeIfBoth (d.pages.set curr) prev (some curr)
      let (second, pages) ← mergeIfBoth pages (some curr) next
      return ⟨pages, d.ownerCount - ((if first then 1 else 0) + if second then 1 else 0)⟩

/-! ### Runs -/

inductive TokenOp
  | insert (id : UInt256)
  | remove (id : UInt256)
  deriving DecidableEq

/-- The directory after an operation; when it fails, nothing is changed. -/
def perform (d : NFTokenDirectory) (op : TokenOp) : NFTokenDirectory × Option NFTokenFailure :=
  let result := match op with
    | .insert id => insertToken d id
    | .remove id => removeToken d id
  match result with
  | .ok d => (d, none)
  | .error e => (d, some e)

def findToken (d : NFTokenDirectory) (nftokenID : UInt256) : Option UInt256 :=
  (locatePage d nftokenID).bind fun page => page.nfTokens.find? fun t => t = nftokenID

end NFToken

end FalconLedger
