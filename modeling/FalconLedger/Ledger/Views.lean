import FalconLedger.Data.KeyedMap

/-!
# Views of the ledger state

The objects of a ledger, each under its key, and the two tables that hold changes to them until they
are applied, `RawStateTable` below an open ledger and `ApplyStateTable` below a transaction. `none`
stands for the `std::logic_error` an operation throws, and for a null pointer that is followed. The
loops of `succ` and of a scan are bounded by a number of rounds, and give `none` if it is too small.
-/

namespace FalconLedger.Views

/-! ### Objects -/

def ltANY : ℕ := 0

def ltCHILD : ℕ := 0x1CD2

def ltDIR_NODE : ℕ := 0x0064

/-- `STLedgerEntry`: the key of an object never changes. -/
structure SLE (K V : Type*) where
  key : K
  type : ℕ
  fields : V

structure Keylet (K : Type*) where
  type : ℕ
  key : K

variable {K V : Type*} [LinearOrder K]

/-- `Keylet::check`. -/
def Keylet.check (k : Keylet K) (sle : SLE K V) : Bool :=
  if k.type = ltANY then true
  else if k.type = ltCHILD then sle.type != ltDIR_NODE
  else sle.type == k.type && sle.key == k.key

/-! ### Views -/

/-- The objects of a view are listed by ascending key. -/
structure ReadView (K V : Type*) [LinearOrder K] where
  sles : List (SLE K V)
  slesUpperBound : K → List (SLE K V)
  succ : K → Option K → Option K
  read : Keylet K → Option (SLE K V)
  exists_ : Keylet K → Bool
  sles_ascending : Ascending SLE.key sles
  slesUpperBound_eq : ∀ key, slesUpperBound key = sles.filter fun sle => key < sle.key
  succ_isNext : ∀ key last, IsNext {k | ∃ sle ∈ sles, sle.key = k} key last (succ key last)
  read_iff : ∀ k sle, read k = some sle ↔ sle ∈ sles ∧ sle.key = k.key ∧ k.check sle = true
  /-- A view may answer without a look at the type of the object. -/
  exists_iff : ∀ k : Keylet K, (∀ sle ∈ sles, sle.key = k.key → k.check sle = true) →
    (exists_ k = true ↔ ∃ sle ∈ sles, sle.key = k.key)

/-- A closed ledger: the state map and the drops of the header. -/
structure Ledger (K V : Type*) [LinearOrder K] where
  stateMap : KeyedMap (SLE.key (K := K) (V := V))
  drops : ℤ

namespace Ledger

def succ (ledger : Ledger K V) (key : K) (last : Option K) : Option K :=
  match (ledger.stateMap.upperBound key).head? with
  | none => none
  | some item => if ∃ l ∈ last, l ≤ item.key then none else some item.key

def read (ledger : Ledger K V) (k : Keylet K) : Option (SLE K V) :=
  (ledger.stateMap.find k.key).filter k.check

/-- Not a look at the type. -/
def exists_ (ledger : Ledger K V) (k : Keylet K) : Bool := (ledger.stateMap.find k.key).isSome

theorem succ_isNext (ledger : Ledger K V) (key : K) (last : Option K) :
    IsNext {k | ∃ sle ∈ ledger.stateMap.toList, sle.key = k} key last (ledger.succ key last) := by
  have hmem : ∀ sle ∈ ledger.stateMap.toList, key < sle.key →
      sle ∈ ledger.stateMap.upperBound key := fun sle hsle hlt =>
    List.mem_filter.mpr ⟨hsle, decide_eq_true hlt⟩
  unfold succ
  cases hhead : (ledger.stateMap.upperBound key).head? with
  | none =>
    rintro _ ⟨sle, hsle, rfl⟩ hbetween
    rw [List.head?_eq_none_iff] at hhead
    exact List.not_mem_nil (hhead ▸ hmem sle hsle hbetween.1)
  | some item =>
    have hleast : ∀ sle ∈ ledger.stateMap.toList, key < sle.key → item.key ≤ sle.key :=
      fun sle hsle hlt =>
        (ledger.stateMap.upperBound_ascending key).head?_le hhead (hmem sle hsle hlt)
    obtain ⟨hitem, hlt⟩ := List.mem_filter.mp (List.mem_of_head? hhead)
    dsimp only
    split_ifs with hlast
    · rintro _ ⟨sle, hsle, rfl⟩ hbetween
      obtain ⟨l, hl, hle⟩ := hlast
      exact absurd (hbetween.2 l hl) (not_lt.mpr (hle.trans (hleast sle hsle hbetween.1)))
    · refine ⟨⟨⟨item, hitem, rfl⟩, of_decide_eq_true hlt, fun l hl => ?_⟩, ?_⟩
      · exact not_le.mp fun hle => hlast ⟨l, hl, hle⟩
      · rintro _ ⟨⟨sle, hsle, rfl⟩, hbetween⟩
        exact hleast sle hsle hbetween.1

/-- A ledger as a view. -/
def view (ledger : Ledger K V) : ReadView K V where
  sles := ledger.stateMap.toList
  slesUpperBound := ledger.stateMap.upperBound
  succ := ledger.succ
  read := ledger.read
  exists_ := ledger.exists_
  sles_ascending := ledger.stateMap.toList_ascending
  slesUpperBound_eq _ := rfl
  succ_isNext := ledger.succ_isNext
  read_iff k sle := by
    unfold read
    rw [Option.filter_eq_some_iff, ledger.stateMap.mem_toList]
    constructor
    · rintro ⟨hfind, hcheck⟩
      have hkey := ledger.stateMap.key_eq k.key sle hfind
      exact ⟨hkey ▸ hfind, hkey, hcheck⟩
    · rintro ⟨hfind, hkey, hcheck⟩
      exact ⟨hkey ▸ hfind, hcheck⟩
  exists_iff k _ := ledger.stateMap.mem_domain k.key

def rawErase (ledger : Ledger K V) (sle : SLE K V) : Option (Ledger K V) :=
  match ledger.stateMap.find sle.key with
  | none => none
  | some _ => some { ledger with stateMap := ledger.stateMap.erase sle.key }

def rawInsert (ledger : Ledger K V) (sle : SLE K V) : Option (Ledger K V) :=
  match ledger.stateMap.find sle.key with
  | none => some { ledger with stateMap := ledger.stateMap.set sle }
  | some _ => none

def rawReplace (ledger : Ledger K V) (sle : SLE K V) : Option (Ledger K V) :=
  match ledger.stateMap.find sle.key with
  | none => none
  | some _ => some { ledger with stateMap := ledger.stateMap.set sle }

def rawDestroyXRP (ledger : Ledger K V) (fee : ℤ) : Ledger K V :=
  { ledger with drops := ledger.drops - fee }

end Ledger

/-! ### The next key over a table -/

section Succ

variable {A : Type*} {key : A → K}

/-- The first loop of `succ`: the next key of the base that the table does not erase. -/
def baseSucc (base : ReadView K V) (erased : K → Bool) (last : Option K) :
    ℕ → K → Option (Option K)
  | 0, _ => none
  | rounds + 1, k =>
    match base.succ k last with
    | none => some none
    | some next => if erased next then baseSucc base erased last rounds next else some (some next)

/-- Found both, the lower key. -/
def lowerKey (next : Option K) (item : Option K) : Option K :=
  match next, item with
  | next, none => next
  | none, some k => some k
  | some n, some k => if k < n then some k else some n

/-- `RawStateTable::succ` and `ApplyStateTable::succ`. -/
def overlaySucc (base : ReadView K V) (items : KeyedMap key) (erases : A → Bool) (rounds : ℕ)
    (k : K) (last : Option K) : Option (Option K) :=
  match baseSucc base (fun k => (items.find k).any erases) last rounds k with
  | none => none
  | some next =>
    let item := (items.upperBound k).find? fun item => !erases item
    let next := lowerKey next (item.map key)
    some (next.filter fun n => ∀ l ∈ last, n < l)

end Succ

/-! ### `RawStateTable` -/

inductive RawAction
  | erase
  | insert
  | replace
  deriving DecidableEq

structure SleAction (K V : Type*) where
  action : RawAction
  sle : SLE K V

/-- The key of an item is the key of its object. -/
def SleAction.key (item : SleAction K V) : K := item.sle.key

structure RawStateTable (K V : Type*) [LinearOrder K] where
  items : KeyedMap (SleAction.key (K := K) (V := V))
  dropsDestroyed : ℤ

namespace RawStateTable

def empty : RawStateTable K V := ⟨.empty, 0⟩

def erase (table : RawStateTable K V) (sle : SLE K V) : Option (RawStateTable K V) :=
  match table.items.find sle.key with
  | none => some { table with items := table.items.set ⟨.erase, sle⟩ }
  | some item =>
    match item.action with
    | .erase => none
    | .insert => some { table with items := table.items.erase sle.key }
    | .replace => some { table with items := table.items.set ⟨.erase, sle⟩ }

def insert (table : RawStateTable K V) (sle : SLE K V) : Option (RawStateTable K V) :=
  match table.items.find sle.key with
  | none => some { table with items := table.items.set ⟨.insert, sle⟩ }
  | some item =>
    match item.action with
    | .erase => some { table with items := table.items.set ⟨.replace, sle⟩ }
    | .insert => none
    | .replace => none

def replace (table : RawStateTable K V) (sle : SLE K V) : Option (RawStateTable K V) :=
  match table.items.find sle.key with
  | none => some { table with items := table.items.set ⟨.replace, sle⟩ }
  | some item =>
    match item.action with
    | .erase => none
    | .insert => some { table with items := table.items.set ⟨.insert, sle⟩ }
    | .replace => some { table with items := table.items.set ⟨.replace, sle⟩ }

def destroyXRP (table : RawStateTable K V) (fee : ℤ) : RawStateTable K V :=
  { table with dropsDestroyed := table.dropsDestroyed + fee }

def erases (item : SleAction K V) : Bool := item.action = .erase

def read (table : RawStateTable K V) (base : ReadView K V) (k : Keylet K) : Option (SLE K V) :=
  match table.items.find k.key with
  | none => base.read k
  | some item => if erases item then none else if k.check item.sle then some item.sle else none

def exists_ (table : RawStateTable K V) (base : ReadView K V) (k : Keylet K) : Bool :=
  match table.items.find k.key with
  | none => base.exists_ k
  | some item => if erases item then false else k.check item.sle

def succ (table : RawStateTable K V) (base : ReadView K V) (rounds : ℕ) (key : K)
    (last : Option K) : Option (Option K) :=
  overlaySucc base table.items erases rounds key last

/-- What `apply` does for an item. -/
def applyItem (target : Ledger K V) (item : SleAction K V) : Option (Ledger K V) :=
  match item.action with
  | .erase => target.rawErase item.sle
  | .insert => target.rawInsert item.sle
  | .replace => target.rawReplace item.sle

def apply (table : RawStateTable K V) (target : Ledger K V) : Option (Ledger K V) :=
  table.items.toList.foldlM applyItem (target.rawDestroyXRP table.dropsDestroyed)

/-! #### The iterator -/

/-- `SlesIterImpl`: what is left of the base and of the table. `sle0_` and `sle1_` are the heads,
null at the end. -/
structure SlesIter (K V : Type*) where
  iter0 : List (SLE K V)
  iter1 : List (SleAction K V)

namespace SlesIter

/-- Drop the objects at the front that the table erases. -/
def skip : List (SLE K V) → List (SleAction K V) → Option (SlesIter K V)
  | iter0, [] => some ⟨iter0, []⟩
  | iter0, item :: iter1 =>
    if item.action = .erase then
      match iter0 with
      | [] => none
      | sle0 :: rest0 =>
        if sle0.key = item.key then
          match rest0 with
          | [] => some ⟨[], iter1⟩
          | _ :: _ => skip rest0 iter1
        else some ⟨sle0 :: rest0, item :: iter1⟩
    else some ⟨iter0, item :: iter1⟩

/-- The constructor. -/
def make (iter0 : List (SLE K V)) (iter1 : List (SleAction K V)) : Option (SlesIter K V) :=
  match iter1 with
  | [] => some ⟨iter0, []⟩
  | item :: rest1 => skip iter0 (item :: rest1)

def increment (it : SlesIter K V) : Option (SlesIter K V) :=
  match it.iter1, it.iter0 with
  | [], [] => none
  | _ :: rest1, [] => some ⟨[], rest1⟩
  | [], _ :: rest0 => some ⟨rest0, []⟩
  | item :: rest1, sle0 :: rest0 =>
    if item.key = sle0.key then skip rest0 rest1
    else if item.key < sle0.key then skip (sle0 :: rest0) rest1
    else skip rest0 (item :: rest1)

def dereference (it : SlesIter K V) : Option (SLE K V) :=
  match it.iter1, it.iter0 with
  | [], [] => none
  | [], sle0 :: _ => some sle0
  | item :: _, [] => some item.sle
  | item :: _, sle0 :: _ => if item.key ≤ sle0.key then some item.sle else some sle0

/-- `equal`, to the iterator of `slesEnd`. -/
def atEnd (it : SlesIter K V) : Bool := it.iter1.isEmpty && it.iter0.isEmpty

/-- A loop over the objects from an iterator to the end. -/
def scan : ℕ → SlesIter K V → Option (List (SLE K V))
  | 0, _ => none
  | rounds + 1, it =>
    if it.atEnd then some []
    else
      match it.dereference, it.increment with
      | some sle, some it => (scan rounds it).map (sle :: ·)
      | _, _ => none

end SlesIter

def slesBegin (table : RawStateTable K V) (base : ReadView K V) : Option (SlesIter K V) :=
  SlesIter.make base.sles table.items.toList

def slesUpperBound (table : RawStateTable K V) (base : ReadView K V) (key : K) :
    Option (SlesIter K V) :=
  SlesIter.make (base.slesUpperBound key) (table.items.upperBound key)

end RawStateTable

/-! ### `ApplyStateTable` -/

inductive Action
  | cache
  | erase
  | insert
  | modify
  deriving DecidableEq

/-- An item holds a pointer to its object. `ref` is the address, `sle` what is there. -/
structure ApplyItem (K V : Type*) where
  action : Action
  ref : ℕ
  sle : SLE K V

def ApplyItem.key (item : ApplyItem K V) : K := item.sle.key

structure ApplyStateTable (K V : Type*) [LinearOrder K] where
  items : KeyedMap (ApplyItem.key (K := K) (V := V))
  dropsDestroyed : ℤ

namespace ApplyStateTable

def empty : ApplyStateTable K V := ⟨.empty, 0⟩

def erases (item : ApplyItem K V) : Bool := item.action = .erase

def exists_ (table : ApplyStateTable K V) (base : ReadView K V) (k : Keylet K) : Bool :=
  match table.items.find k.key with
  | none => base.exists_ k
  | some item => if erases item then false else k.check item.sle

def succ (table : ApplyStateTable K V) (base : ReadView K V) (rounds : ℕ) (key : K)
    (last : Option K) : Option (Option K) :=
  overlaySucc base table.items erases rounds key last

def read (table : ApplyStateTable K V) (base : ReadView K V) (k : Keylet K) : Option (SLE K V) :=
  match table.items.find k.key with
  | none => base.read k
  | some item => if erases item then none else if k.check item.sle then some item.sle else none

/-- `ref` is the address of the copy, if one is made. -/
def peek (table : ApplyStateTable K V) (base : ReadView K V) (k : Keylet K) (ref : ℕ) :
    ApplyStateTable K V × Option ℕ :=
  match table.items.find k.key with
  | none =>
    match base.read k with
    | none => (table, none)
    | some sle => ({ table with items := table.items.set ⟨.cache, ref, sle⟩ }, some ref)
  | some item =>
    (table, if erases item then none else if k.check item.sle then some item.ref else none)

def erase (table : ApplyStateTable K V) (ref : ℕ) (sle : SLE K V) : Option (ApplyStateTable K V) :=
  match table.items.find sle.key with
  | none => none
  | some item =>
    if item.ref ≠ ref then none
    else
      match item.action with
      | .erase => none
      | .insert => some { table with items := table.items.erase sle.key }
      | .cache | .modify => some { table with items := table.items.set ⟨.erase, ref, sle⟩ }

def rawErase (table : ApplyStateTable K V) (ref : ℕ) (sle : SLE K V) :
    Option (ApplyStateTable K V) :=
  match table.items.find sle.key with
  | none => some { table with items := table.items.set ⟨.erase, ref, sle⟩ }
  | some item =>
    match item.action with
    | .erase => none
    | .insert => some { table with items := table.items.erase sle.key }
    | .cache | .modify => some { table with items := table.items.set ⟨.erase, ref, sle⟩ }

/-- Also `rawInsert`. -/
def insert (table : ApplyStateTable K V) (ref : ℕ) (sle : SLE K V) :
    Option (ApplyStateTable K V) :=
  match table.items.find sle.key with
  | none => some { table with items := table.items.set ⟨.insert, ref, sle⟩ }
  | some item =>
    match item.action with
    | .cache | .insert | .modify => none
    | .erase => some { table with items := table.items.set ⟨.modify, ref, sle⟩ }

/-- `rawReplace`. -/
def replace (table : ApplyStateTable K V) (ref : ℕ) (sle : SLE K V) :
    Option (ApplyStateTable K V) :=
  match table.items.find sle.key with
  | none => some { table with items := table.items.set ⟨.modify, ref, sle⟩ }
  | some item =>
    match item.action with
    | .erase => none
    | .cache => some { table with items := table.items.set ⟨.modify, ref, sle⟩ }
    | action => some { table with items := table.items.set ⟨action, ref, sle⟩ }

/-- `sle` is what the caller has made of the object at `ref`. -/
def update (table : ApplyStateTable K V) (ref : ℕ) (sle : SLE K V) :
    Option (ApplyStateTable K V) :=
  match table.items.find sle.key with
  | none => none
  | some item =>
    if item.ref ≠ ref then none
    else
      match item.action with
      | .erase => none
      | .cache => some { table with items := table.items.set ⟨.modify, ref, sle⟩ }
      | action => some { table with items := table.items.set ⟨action, ref, sle⟩ }

def destroyXRP (table : ApplyStateTable K V) (fee : ℤ) : ApplyStateTable K V :=
  { table with dropsDestroyed := table.dropsDestroyed + fee }

/-- What `apply` does for an item. -/
def applyItem (target : Ledger K V) (item : ApplyItem K V) : Option (Ledger K V) :=
  match item.action with
  | .cache => some target
  | .erase => target.rawErase item.sle
  | .insert => target.rawInsert item.sle
  | .modify => target.rawReplace item.sle

def apply (table : ApplyStateTable K V) (target : Ledger K V) : Option (Ledger K V) :=
  table.items.toList.foldlM applyItem (target.rawDestroyXRP table.dropsDestroyed)

/-- What `apply` does for an item when the target is an open ledger. -/
def applyItemTo (target : RawStateTable K V) (item : ApplyItem K V) :
    Option (RawStateTable K V) :=
  match item.action with
  | .cache => some target
  | .erase => target.erase item.sle
  | .insert => target.insert item.sle
  | .modify => target.replace item.sle

/-- `apply` to an open ledger, for which no metadata is made. -/
def applyTo (table : ApplyStateTable K V) (target : RawStateTable K V) :
    Option (RawStateTable K V) :=
  table.items.toList.foldlM applyItemTo (target.destroyXRP table.dropsDestroyed)

end ApplyStateTable

end FalconLedger.Views
