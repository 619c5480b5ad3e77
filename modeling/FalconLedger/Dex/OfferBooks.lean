import FalconLedger.Ledger.DirectoryPages
import FalconLedger.Protocol.STAmount
import FalconLedger.Tx.Tickets

/-!
# Offers and order books

`OfferCreate` from preflight to placement, `offerDelete`, and what crossing does to offers. An offer is
listed in the directory of its owner and in one directory of each book it is in; the quality of a
book directory is the low 64 bits of its key. What the payment engine does while an offer crosses is
an input, as the effects it leaves on offers and owner directories and the amounts that remain.
`none` stands for an exception.
-/

namespace FalconLedger.Dex

open Wire (AmountEnv)

/-- A key of 256 bits, as a number. -/
abbrev Key := ℕ

/-! ### Rates -/

/-- `noIssue` -/
def noIssue : Asset := .issue 1 1

/-- Drops and tokens. -/
def integral : Asset → Bool
  | .issue .. => false
  | _ => true

/-- The loops of `divide` on an integral amount. -/
def intoRange (value : ℕ) (offset : ℤ) : ℕ × ℤ :=
  if 0 < value ∧ value < Wire.STAmount.kMinValue then intoRange (value * 10) (offset - 1)
  else (value, offset)
termination_by Wire.STAmount.kMinValue - value
decreasing_by omega

def mantissaOf (a : Wire.STAmount) : ℕ × ℤ :=
  if integral a.asset then intoRange a.value a.offset else (a.value, a.offset)

/-- `divide`, to an amount of `noIssue`. -/
def quotient (env : AmountEnv) (num den : Wire.STAmount) : Option Wire.STAmount :=
  if den.value = 0 then none
  else if num.value = 0 then some (Wire.STAmount.zeroIssued ⟨noIssue, 0, 0, false⟩)
  else
    let (numVal, numOffset) := mantissaOf num
    let (denVal, denOffset) := mantissaOf den
    let ret := numVal * 10 ^ 17 / denVal
    -- `muldiv` throws
    if 2 ^ 64 ≤ ret then none
    else Wire.STAmount.canonicalize env ⟨noIssue, (ret + 5) % 2 ^ 64, numOffset - denOffset - 17,
      num.isNegative != den.isNegative⟩

def getRate (env : AmountEnv) (offerOut offerIn : Wire.STAmount) : UInt64 :=
  if offerOut.value = 0 then 0
  else match quotient env offerIn offerOut with
    -- a very bad offer
    | none => 0
    | some r =>
      if r.value = 0 then 0
      else UInt64.ofNat ((r.offset + 100) % 2 ^ 64).toNat <<< 56 ||| UInt64.ofNat r.value

/-- `Quality::round` -/
def roundQuality (value : UInt64) (digits : ℕ) : UInt64 :=
  let modulus := UInt64.ofNat (10 ^ (16 - digits))
  let exponent := value >>> 56
  let mantissa := (value &&& 0x00ffffffffffffff) + (modulus - 1)
  exponent <<< 56 ||| (mantissa - mantissa % modulus)

def amountFromQuality (env : AmountEnv) (rate : UInt64) : Option Wire.STAmount :=
  if rate = 0 then some (Wire.STAmount.zeroIssued ⟨noIssue, 0, 0, false⟩)
  else Wire.STAmount.canonicalize env
    ⟨noIssue, (rate &&& 0x00ffffffffffffff).toNat, (rate >>> 56).toNat - 100, false⟩

/-! ### Keys -/

/-- `Book`, with the asset that takers pay first. -/
structure Book where
  takerPays : Asset
  takerGets : Asset
  domain : Option UInt256
  deriving DecidableEq

/-- The keys that are hashes. -/
structure Keylets where
  offer : AccountID → UInt32 → Key
  ownerDir : AccountID → Key
  book : Book → Key

/-- `keylet::quality`: the quality takes the last eight bytes. -/
def quality (k : Key) (q : UInt64) : Key := k / 2 ^ 64 * 2 ^ 64 + q.toNat

def getQuality (k : Key) : UInt64 := UInt64.ofNat (k % 2 ^ 64)

/-! ### The ledger -/

/-- What a page of a book directory says of the book. -/
structure BookInfo where
  takerPays : Asset
  takerGets : Asset
  exchangeRate : UInt64
  domainID : Option UInt256
  deriving DecidableEq

/-- An offer; `additionalBooks` has the directory and the page of each other book. -/
structure Offer where
  account : AccountID
  sequence : UInt32
  takerPays : Wire.STAmount
  takerGets : Wire.STAmount
  bookDirectory : Key
  bookNode : UInt64
  ownerNode : UInt64
  expiration : Option UInt32
  domainID : Option UInt256
  passive : Bool
  sell : Bool
  hybrid : Bool
  additionalBooks : List (Key × UInt64)
  deriving DecidableEq

/-- The book directories of an offer, and the page in each, in the order of removal. -/
def Offer.books (o : Offer) : List (Key × UInt64) := (o.bookDirectory, o.bookNode) :: o.additionalBooks

/-- Offers and directories. Of accounts there is the owner count; of objects that are no offers the
page of the owner directory that lists them, and whether they are counted. -/
structure Books where
  accounts : Table AccountID UInt32
  offers : Table Key Offer
  ownerDirs : AccountID → Directory Key AccountID
  bookDirs : Key → Directory Key BookInfo
  others : Table (AccountID × Key) (UInt64 × Bool)
  /-- Sequence numbers and tickets that are used up. -/
  used : List (AccountID × UInt32)

namespace Books

def adjustOwnerCount (s : Books) (id : AccountID) (f : UInt32 → UInt32) : Books :=
  match s.accounts.lookup id with
  | some n => { s with accounts := s.accounts.insert id (f n) }
  | none => s

/-- `confineOwnerCount` by `1` and by `-1`. -/
def oneMore (n : UInt32) : UInt32 := confineOwnerCount n 1

def oneLess (n : UInt32) : UInt32 := if n = 0 then 0 else n - 1

def setOwnerDir (s : Books) (id : AccountID) (pages : Directory Key AccountID) : Books :=
  { s with ownerDirs := Function.update s.ownerDirs id pages }

def setBookDir (s : Books) (dir : Key) (pages : Directory Key BookInfo) : Books :=
  { s with bookDirs := Function.update s.bookDirs dir pages }

/-- `dirInsert` into an owner directory, described as such. -/
def ownerInsert (K : Keylets) (fixDirectoryLimit : Bool) (s : Books) (id : AccountID) (key : Key) :
    Option (Option (UInt64 × Books)) := do
  let added ← ((s.ownerDirs id).dirInsert (K.ownerDir id) key id fixDirectoryLimit).toOption
  return added.map fun (page, pages) => (page, s.setOwnerDir id pages)

/-- `dirAppend` to a book directory. -/
def bookAppend (fixDirectoryLimit : Bool) (s : Books) (dir key : Key) (info : BookInfo) :
    Option (Option (UInt64 × Books)) := do
  let added ← ((s.bookDirs dir).dirAppend dir key info fixDirectoryLimit).toOption
  return added.map fun (page, pages) => (page, s.setBookDir dir pages)

def ownerRemove (s : Books) (id : AccountID) (page : UInt64) (key : Key) : Option (Bool × Books) := do
  let (found, pages) ← ((s.ownerDirs id).dirRemove page key false).toOption
  return (found, s.setOwnerDir id pages)

/-- Remove an entry from the book directories named, up to one that does not have it. -/
def booksRemove (s : Books) (key : Key) : List (Key × UInt64) → Option (Bool × Books)
  | [] => some (true, s)
  | (dir, page) :: rest => do
    let (found, pages) ← ((s.bookDirs dir).dirRemove page key false).toOption
    let s := s.setBookDir dir pages
    if found then booksRemove s key rest else return (false, s)

def offerDelete (s : Books) (key : Key) : Option (TER × Books) :=
  match s.offers.lookup key with
  | none => some (.tesSuccess, s)
  | some offer => do
    let (found, s) ← s.ownerRemove offer.account offer.ownerNode key
    if !found then return (.tefBadLedger, s)
    let (found, s) ← s.booksRemove key offer.books
    if !found then return (.tefBadLedger, s)
    let s := s.adjustOwnerCount offer.account oneLess
    return (.tesSuccess, { s with offers := s.offers.erase key })

end Books

/-! ### Crossing -/

/-- What transactions do to offers and owner directories, other than placing offers. -/
inductive Effect
  /-- An offer is taken in part. -/
  | consume (key : Key) (takerPays takerGets : Wire.STAmount)
  | delete (key : Key)
  /-- An object of another type, such as a trust line, comes under an owner. -/
  | link (owner : AccountID) (key : Key) (counted : Bool)
  | unlink (owner : AccountID) (key : Key)
  deriving DecidableEq

namespace Books

variable (K : Keylets) (fixDirectoryLimit : Bool)

def link (s : Books) (owner : AccountID) (key : Key) (counted : Bool) : Option Books := do
  if (s.others.lookup (owner, key)).isSome then return s
  let some (page, s) ← s.ownerInsert K fixDirectoryLimit owner key | return s
  let s := { s with others := s.others.insert (owner, key) (page, counted) }
  return if counted then s.adjustOwnerCount owner oneMore else s

def unlink (s : Books) (owner : AccountID) (key : Key) : Option Books :=
  match s.others.lookup (owner, key) with
  | none => some s
  | some (page, counted) => do
    let (found, s) ← s.ownerRemove owner page key
    if !found then return s
    let s := { s with others := s.others.erase (owner, key) }
    return if counted then s.adjustOwnerCount owner oneLess else s

def applyEffect (s : Books) : Effect → Option Books
  | .consume key takerPays takerGets =>
    match s.offers.lookup key with
    | none => some s
    | some o => some { s with offers := s.offers.insert key { o with takerPays, takerGets } }
  | .delete key => (·.2) <$> s.offerDelete key
  | .link owner key counted => s.link K fixDirectoryLimit owner key counted
  | .unlink owner key => s.unlink owner key

def applyEffects (s : Books) : List Effect → Option Books
  | [] => some s
  | effect :: rest => do
    let s ← s.applyEffect K fixDirectoryLimit effect
    applyEffects s rest

end Books

/-- What `flow` has done, and what is left of the offer. -/
structure Crossing where
  result : TER
  effects : List Effect
  /-- `removableOffers` -/
  stale : List Key
  placeIn : Wire.STAmount
  placeOut : Wire.STAmount

/-! ### Transactions -/

/-- The transaction, with its flags by name and its sequence number or ticket. -/
structure OfferCreate where
  account : AccountID
  sequence : UInt32
  takerPays : Wire.STAmount
  takerGets : Wire.STAmount
  offerSequence : Option UInt32
  expiration : Option UInt32
  domainID : Option UInt256
  passive : Bool
  immediateOrCancel : Bool
  fillOrKill : Bool
  sell : Bool
  hybrid : Bool

/-- What the transaction reads elsewhere, and the arithmetic of amounts that rounding to a tick uses. -/
structure Env where
  amounts : AmountEnv
  multiply : Wire.STAmount → Wire.STAmount → Asset → Option Wire.STAmount
  divide : Wire.STAmount → Wire.STAmount → Asset → Option Wire.STAmount
  tickSize : AccountID → Option ℕ
  parentCloseTime : UInt32
  fees : Reserves
  preFeeBalance : Int
  fixDirectoryLimit : Bool

/-- The checks of `preflight` on what the other steps read. -/
def preflight (tx : OfferCreate) : Bool :=
  !(tx.hybrid && tx.domainID.isNone) && !(tx.immediateOrCancel && tx.fillOrKill) &&
    tx.expiration != some 0 && tx.offerSequence != some 0 &&
    !(tx.takerPays.asset == .xrp && tx.takerGets.asset == .xrp) &&
    !(tx.takerPays.isNegative || tx.takerPays.value == 0) &&
    !(tx.takerGets.isNegative || tx.takerGets.value == 0) &&
    tx.takerPays.asset != tx.takerGets.asset

def kMaxTickSize : ℕ := 16

/-- The tick size so far, and that of an issuer. -/
def withIssuer (e : Env) (uTickSize : ℕ) : Asset → ℕ
  | .issue _ issuer => (e.tickSize issuer).elim uTickSize (min uTickSize)
  | _ => uTickSize

def uTickSize (e : Env) (tx : OfferCreate) : ℕ :=
  withIssuer e (withIssuer e kMaxTickSize tx.takerPays.asset) tx.takerGets.asset

/-- The amounts of an offer, and the rate it will be placed at. -/
structure Rounded where
  takerPays : Wire.STAmount
  takerGets : Wire.STAmount
  uRate : UInt64

/-- Round the side that is not exact to the tick size. -/
def roundToTick (e : Env) (tx : OfferCreate) : Option Rounded :=
  let uRate := getRate e.amounts tx.takerGets tx.takerPays
  if uTickSize e tx < kMaxTickSize then do
    let rate ← amountFromQuality e.amounts (roundQuality uRate (uTickSize e tx))
    let saTakerPays ←
      match tx.sell, tx.takerPays.asset with
      | false, _ => some tx.takerPays
      | true, .mpt _ => some tx.takerPays
      | true, asset => e.multiply tx.takerGets rate asset
    let saTakerGets ←
      match tx.sell, tx.takerGets.asset with
      | true, _ => some tx.takerGets
      | false, .mpt _ => some tx.takerGets
      | false, asset => e.divide saTakerPays rate asset
    return ⟨saTakerPays, saTakerGets, getRate e.amounts saTakerGets saTakerPays⟩
  else some ⟨tx.takerPays, tx.takerGets, uRate⟩

/-- The rate of an offer at its creation. -/
def rate (e : Env) (tx : OfferCreate) : UInt64 := (roundToTick e tx).elim 0 Rounded.uRate

def hasExpired (e : Env) (tx : OfferCreate) : Bool :=
  tx.expiration.any fun exp => decide (exp ≤ e.parentCloseTime)

namespace Books

/-- Remove the offers named. -/
def offersDelete (s : Books) : List Key → Option Books
  | [] => some s
  | key :: rest => do
    let (_, s) ← s.offerDelete key
    s.offersDelete rest

variable (K : Keylets) (e : Env)

/-- `flowCross`, on the two views. An exception is caught here. -/
def flowCross (sb sbCancel : Books) (c : Crossing) : TER × Books × Books :=
  match do (← sb.applyEffects K e.fixDirectoryLimit c.effects).offersDelete c.stale,
    sbCancel.offersDelete c.stale with
  | some sb, some sbCancel => (c.result, sb, sbCancel)
  | _, _ => (.tecInternal, sb, sbCancel)

/-- Put a hybrid offer into the open book as well. -/
def applyHybrid (sb : Books) (offer : Offer) (offerKey : Key) (uRate : UInt64) :
    Option (TER × Books × Offer) := do
  if offer.domainID.isNone then return (.tecInternal, sb, offer)
  let offer := { offer with hybrid := true }
  let dir := quality (K.book ⟨offer.takerPays.asset, offer.takerGets.asset, none⟩)
    (getRate e.amounts offer.takerGets offer.takerPays)
  let some (bookNode, sb) ← sb.bookAppend e.fixDirectoryLimit dir offerKey
    ⟨offer.takerPays.asset, offer.takerGets.asset, uRate, none⟩ | return (.tecDirFull, sb, offer)
  return (.tesSuccess, sb, { offer with additionalBooks := [(dir, bookNode)] })

/-- The last part of `applyGuts`: the remainder of the offer is put into its book. -/
def placeOffer (sb : Books) (tx : OfferCreate) (saTakerPays saTakerGets : Wire.STAmount) (uRate : UInt64) :
    Option (TER × Books) := do
  let offerIndex := K.offer tx.account tx.sequence
  let some (ownerNode, sb) ← sb.ownerInsert K e.fixDirectoryLimit tx.account offerIndex
    | return (.tecDirFull, sb)
  let sb := sb.adjustOwnerCount tx.account oneMore
  let dir := quality (K.book ⟨saTakerPays.asset, saTakerGets.asset, tx.domainID⟩) uRate
  let some (bookNode, sb) ← sb.bookAppend e.fixDirectoryLimit dir offerIndex
    ⟨saTakerPays.asset, saTakerGets.asset, uRate, tx.domainID⟩ | return (.tecDirFull, sb)
  let sleOffer : Offer := ⟨tx.account, tx.sequence, saTakerPays, saTakerGets, dir, bookNode, ownerNode,
    tx.expiration, tx.domainID, tx.passive, tx.sell, false, []⟩
  let (res, sb, sleOffer) ←
    if tx.hybrid then sb.applyHybrid K e sleOffer offerIndex uRate
    else some (.tesSuccess, sb, sleOffer)
  if !res.isTesSuccess then return (res, sb)
  -- `insert` must not find the key
  if (sb.offers.lookup offerIndex).isSome then none
  return (.tesSuccess, { sb with offers := sb.offers.insert offerIndex sleOffer })

/-- `tecINSUF_RESERVE_OFFER` -/
def insufReserveOffer : TER := .otherTec 123

/-- `applyGuts` once the offer has crossed, with the view that is kept. -/
def afterCrossing (sb sbCancel : Books) (tx : OfferCreate) (c : Crossing) (r : Rounded) :
    Option (TER × Books) :=
  let crossed : Bool := (r.takerGets, r.takerPays) ≠ (c.placeIn, c.placeOut)
  if c.placeIn.isNegative ∨ c.placeOut.isNegative then some (.tefInternal, sb)
  else if c.placeIn.value = 0 ∨ c.placeOut.value = 0 then some (.tesSuccess, sb)
  else if tx.fillOrKill then some (.tecKilled, sbCancel)
  else if tx.immediateOrCancel then
    some (if crossed then (.tesSuccess, sb) else (.tecKilled, sbCancel))
  else match sb.accounts.lookup tx.account with
    | none => some (.tefInternal, sbCancel)
    | some ownerCount =>
      if e.preFeeBalance < e.fees.accountReserve (ownerCount + 1) then
        some (if crossed then .tesSuccess else insufReserveOffer, sb)
      else sb.placeOffer K e tx c.placeOut c.placeIn r.uRate

/-- The cancellation that comes with an offer. -/
def cancelFirst (s : Books) (tx : OfferCreate) : Option (TER × Books) :=
  match tx.offerSequence with
  | some cancelSequence => s.offerDelete (K.offer tx.account cancelSequence)
  | none => some (.tesSuccess, s)

def applyGuts (s : Books) (tx : OfferCreate) (c : Crossing) : Option (TER × Books) := do
  let (result, sb) ← s.cancelFirst K tx
  if hasExpired e tx then return (.tecExpired, sb)
  if !result.isTesSuccess then return (result, sb)
  let r ← roundToTick e tx
  if r.takerGets.value = 0 ∨ r.takerPays.value = 0 then return (result, sb)
  let (result, sb, sbCancel) := flowCross K e sb s c
  if !result.isTesSuccess then return (result, sb)
  sb.afterCrossing K e sbCancel tx c r

/-! ### Runs -/

def kUnfundedOfferRemoveLimit : ℕ := 1000

def removeUnfundedOffers (s : Books) : List Key → ℕ → Option Books
  | [], _ => some s
  | _, 0 => some s
  | key :: rest, left + 1 =>
    if (s.offers.lookup key).isSome then do
      let (_, s) ← s.offerDelete key
      s.removeUnfundedOffers rest left
    else s.removeUnfundedOffers rest (left + 1)

/-- The offers that are gone from a view. -/
def removedOffers (s view : Books) : List Key :=
  (s.offers.keys.filter fun key => (view.offers.lookup key).isNone).insertionSort (· ≤ ·)

def use (s : Books) (tx : OfferCreate) : Books := { s with used := (tx.account, tx.sequence) :: s.used }

/-- The transaction from end to end. When a fee is claimed the view is given up, but for the removal of
the offers found unfunded by a transaction that is killed. -/
def create (s : Books) (tx : OfferCreate) (c : Crossing) : TER × Books :=
  if (tx.account, tx.sequence) ∈ s.used then (.tefPastSeq, s)
  else if !preflight tx then (.temMalformed, s)
  else match s.applyGuts K e tx c with
    | none => (.tefException, s)
    | some (ter, view) =>
      if ter.isTesSuccess then (ter, view.use tx)
      else if ter.isTecClaim then
        let unfunded := if ter = .tecKilled then removedOffers s view else []
        match s.removeUnfundedOffers unfunded kUnfundedOfferRemoveLimit with
        | some s => (ter, s.use tx)
        | none => (.tefException, s)
      else (ter, s)

end Books

/-- The ledger, and on record the rate at which each offer was created. -/
structure History where
  books : Books
  rates : Key → UInt64

/-- A transaction that creates an offer, or what any other one does to offers. -/
inductive Step
  | create (tx : OfferCreate) (e : Env) (c : Crossing)
  | elsewhere (effects : List Effect) (fixDirectoryLimit : Bool)

/-- The effects that one transaction leaves, or none. -/
def elsewhere (K : Keylets) (fixDirectoryLimit : Bool) (s : Books) (effects : List Effect) : Books :=
  (s.applyEffects K fixDirectoryLimit effects).getD s

def step (K : Keylets) (h : History) : Step → History × TER
  | .create tx e c =>
    let (ter, books) := h.books.create K e tx c
    let key := K.offer tx.account tx.sequence
    let placed := (books.offers.lookup key).isSome && (h.books.offers.lookup key).isNone
    (⟨books, if placed then Function.update h.rates key (rate e tx) else h.rates⟩, ter)
  | .elsewhere effects fixDirectoryLimit =>
    (⟨elsewhere K fixDirectoryLimit h.books effects, h.rates⟩, .tesSuccess)

end FalconLedger.Dex
