import Mathlib.Algebra.Order.Ring.Nat

/-!
# The ancestry trie of ledgers

`LedgerTrie`: a compressed trie of validated ledgers by their ancestry. A node spans part of the history
of a ledger; its tip support is the number of validations of the last ledger of the span, its branch
support counts its descendants as well. Children are owned by their parents, so a trie is a tree here;
the link from a node to its parent, which the code sets by hand, is kept as an address.
-/

namespace FalconLedger.Consensus

/-- The ledgers a trie is instantiated with. A ledger has a unique history: the id of a ledger identifies
it, and with it all its ancestors. -/
structure LedgerTraits where
  Ledger : Type
  ID : Type
  [order : LinearOrder ID]
  /-- `MakeGenesis`. -/
  genesis : Ledger
  seq : Ledger → ℕ
  /-- `operator[]`. -/
  ancestor : Ledger → ℕ → ID
  /-- The sequence number of the first ancestor in which two ledgers differ. -/
  mismatch : Ledger → Ledger → ℕ
  seq_genesis : seq genesis = 0
  ancestor_genesis : ∀ a, ancestor a 0 = ancestor genesis 0
  unique : ∀ a b s t, s ≤ seq a → t ≤ seq b → ancestor a s = ancestor b t →
    s = t ∧ ∀ p ≤ s, ancestor a p = ancestor b p
  agree_of_lt_mismatch : ∀ a b p, p < mismatch a b →
    p ≤ seq a ∧ p ≤ seq b ∧ ancestor a p = ancestor b p
  differ_at_mismatch : ∀ a b, mismatch a b ≤ seq a → mismatch a b ≤ seq b →
    ancestor a (mismatch a b) ≠ ancestor b (mismatch a b)

namespace LedgerTraits

variable (T : LedgerTraits)

instance : LinearOrder T.ID := T.order

/-- `id`. -/
def id (l : T.Ledger) : T.ID := T.ancestor l (T.seq l)

end LedgerTraits

/-- Sums of `std::uint32_t`. -/
def add32 (a b : ℕ) : ℕ := (a + b) % 2 ^ 32

def sub32 (a b : ℕ) : ℕ := (a + 2 ^ 32 - b) % 2 ^ 32

/-! ### Spans -/

/-- The part of the history of a ledger in a half-open interval. -/
structure Span (T : LedgerTraits) where
  start : ℕ
  «end» : ℕ
  ledger : T.Ledger

namespace Span

variable {T : LedgerTraits}

/-- The span of the genesis ledger. -/
def genesis : Span T := ⟨0, 1, T.genesis⟩

/-- All of the history of a ledger. -/
def ofLedger (l : T.Ledger) : Span T := ⟨0, T.seq l + 1, l⟩

def clamp (s : Span T) (val : ℕ) : ℕ := min (max s.start val) s.end

def sub (s : Span T) («from» «to» : ℕ) : Option (Span T) :=
  let newFrom := s.clamp «from»
  let newTo := s.clamp «to»
  if newFrom < newTo then some ⟨newFrom, newTo, s.ledger⟩ else none

def «from» (s : Span T) (spot : ℕ) : Option (Span T) := s.sub spot s.end

def before (s : Span T) (spot : ℕ) : Option (Span T) := s.sub s.start spot

def startID (s : Span T) : T.ID := T.ancestor s.ledger s.start

/-- The sequence number of the first possible difference between a span and a ledger. -/
def diff (s : Span T) (o : T.Ledger) : ℕ := s.clamp (T.mismatch s.ledger o)

/-- The id of the tip. -/
def tipID (s : Span T) : T.ID := T.ancestor s.ledger (s.end - 1)

/-- The combined span, with the ledger of the higher one. -/
def merge (a b : Span T) : Span T :=
  if a.end < b.end then ⟨min a.start b.start, b.end, b.ledger⟩
  else ⟨min a.start b.start, a.end, a.ledger⟩

end Span

/-! ### Nodes -/

inductive Node (T : LedgerTraits)
  | mk (address : ℕ) (span : Span T) (tipSupport branchSupport : ℕ) (children : List (Node T))
    (parent : Option ℕ)

namespace Node

variable {T : LedgerTraits}

def address : Node T → ℕ
  | mk address _ _ _ _ _ => address

def span : Node T → Span T
  | mk _ span _ _ _ _ => span

def tipSupport : Node T → ℕ
  | mk _ _ tipSupport _ _ _ => tipSupport

def branchSupport : Node T → ℕ
  | mk _ _ _ branchSupport _ _ => branchSupport

def children : Node T → List (Node T)
  | mk _ _ _ _ children _ => children

def parent : Node T → Option ℕ
  | mk _ _ _ _ _ parent => parent

def setParent (parent : ℕ) : Node T → Node T
  | mk address span tipSupport branchSupport children _ =>
    mk address span tipSupport branchSupport children (some parent)

/-! ### Looking up -/

mutual

/-- The node with the longest common ancestry with a ledger, and where they first differ. -/
def find (ledger : T.Ledger) : Node T → Node T × ℕ
  | mk address span tipSupport branchSupport children parent =>
    let pos := span.diff ledger
    -- search for a better span as long as the whole of this one matches
    if pos = span.end then
      (findAmong ledger pos children).getD
        (mk address span tipSupport branchSupport children parent, pos)
    else (mk address span tipSupport branchSupport children parent, pos)

/-- The first child that matches more. -/
def findAmong (ledger : T.Ledger) (pos : ℕ) : List (Node T) → Option (Node T × ℕ)
  | [] => none
  | child :: rest =>
    if pos < child.span.diff ledger then some (find ledger child) else findAmong ledger pos rest

end

mutual

/-- The node whose tip has an id, searching all nodes. -/
def findByLedgerID (id : T.ID) : Node T → Option (Node T)
  | mk address span tipSupport branchSupport children parent =>
    if id = span.tipID then some (mk address span tipSupport branchSupport children parent)
    else findByLedgerIDAmong id children

def findByLedgerIDAmong (id : T.ID) : List (Node T) → Option (Node T)
  | [] => none
  | child :: rest => (findByLedgerID id child).or (findByLedgerIDAmong id rest)

end

/-! ### Inserting -/

/-- What is done at the node found: it is cut where the ledger leaves it, what is below the cut becomes a
child that takes over, and the rest of the ledger another child; the support goes to the ledger's node. -/
def insertHere (ledger : T.Ledger) (count next diffSeq : ℕ) : Node T → Node T
  | mk address span tipSupport branchSupport children parent =>
    let newSuffix := (Span.ofLedger ledger).from diffSeq
    let loc :=
      match span.from diffSeq with
      | some oldSuffix =>
        let newNode := mk next oldSuffix tipSupport branchSupport (children.map (setParent next))
          (some address)
        ((span.before diffSeq).getD span, 0, [newNode])
      | none => (span, tipSupport, children)
    match newSuffix with
    | some suffix =>
      let newNode := mk (next + 1) suffix (add32 0 count) (add32 0 count) [] (some address)
      mk address loc.1 loc.2.1 (add32 branchSupport count) (loc.2.2 ++ [newNode]) parent
    | none =>
      mk address loc.1 (add32 loc.2.1 count) (add32 branchSupport count) loc.2.2 parent

mutual

/-- Go where `find` goes, insert there, and add the support on the way back to the root. -/
def insert (ledger : T.Ledger) (count next : ℕ) : Node T → Node T
  | mk address span tipSupport branchSupport children parent =>
    let pos := span.diff ledger
    if pos = span.end then
      match insertAmong ledger count next pos children with
      | some children' => mk address span tipSupport (add32 branchSupport count) children' parent
      | none =>
        insertHere ledger count next pos
          (mk address span tipSupport branchSupport children parent)
    else
      insertHere ledger count next pos (mk address span tipSupport branchSupport children parent)

def insertAmong (ledger : T.Ledger) (count next pos : ℕ) : List (Node T) → Option (List (Node T))
  | [] => none
  | child :: rest =>
    if pos < child.span.diff ledger then some (insert ledger count next child :: rest)
    else (insertAmong ledger count next pos rest).map (child :: ·)

end

/-! ### Removing -/

/-- `erase`: the last child takes the place of the one erased. -/
def eraseFirst : List (Node T) → List (Node T)
  | [] => []
  | _ :: rest =>
    match rest.getLast? with
    | some last => last :: rest.dropLast
    | none => []

/-- One turn of the loop that compresses: the first of the children, which lost support, is erased or
combined with its only child; whether the loop goes on with the parent. -/
def compress (parentAddress : ℕ) (loc : Node T) (rest : List (Node T)) : List (Node T) × Bool :=
  if loc.tipSupport = 0 then
    match loc.children with
    | [] => (eraseFirst (loc :: rest), true)
    | [mk address span tipSupport branchSupport children _] =>
      (mk address (loc.span.merge span) tipSupport branchSupport children (some parentAddress) :: rest,
        true)
    | _ => (loc :: rest, false)
  else (loc :: rest, false)

mutual

/-- Take support from the node found by id and from all nodes on the way to the root, and compress; whether
the loop goes on with this node. -/
def removeTip (id : T.ID) (count : ℕ) : Node T → Option (Node T × Bool)
  | mk address span tipSupport branchSupport children parent =>
    if id = span.tipID then
      some (mk address span (sub32 tipSupport count) (sub32 branchSupport count) children parent, true)
    else
      (removeTipAmong id count address children).map fun found =>
        (mk address span tipSupport (sub32 branchSupport count) found.1 parent, found.2)

def removeTipAmong (id : T.ID) (count parentAddress : ℕ) :
    List (Node T) → Option (List (Node T) × Bool)
  | [] => none
  | child :: rest =>
    match removeTip id count child with
    | some (child', true) => some (compress parentAddress child' rest)
    | some (child', false) => some (child' :: rest, false)
    | none => (removeTipAmong id count parentAddress rest).map fun found => (child :: found.1, found.2)

end

end Node

/-! ### Supports by sequence -/

/-- `std::map<Seq, std::uint32_t>`, in the order of the sequence numbers. -/
abbrev SeqSupport := List (ℕ × ℕ)

namespace SeqSupport

def find (seq : ℕ) : SeqSupport → Option ℕ
  | [] => none
  | e :: rest => if e.1 = seq then some e.2 else find seq rest

/-- `seqSupport_[seq] += count`. -/
def add (seq count : ℕ) : SeqSupport → SeqSupport
  | [] => [(seq, add32 0 count)]
  | e :: rest =>
    if seq < e.1 then (seq, add32 0 count) :: e :: rest
    else if e.1 = seq then (seq, add32 e.2 count) :: rest
    else e :: add seq count rest

/-- Take support from an entry, which is erased when none is left. -/
def sub (seq count : ℕ) : SeqSupport → SeqSupport
  | [] => []
  | e :: rest =>
    if e.1 = seq then if sub32 e.2 count = 0 then rest else (seq, sub32 e.2 count) :: rest
    else e :: sub seq count rest

end SeqSupport

/-! ### The trie -/

structure LedgerTrie (T : LedgerTraits) where
  root : Node T
  seqSupport : SeqSupport
  /-- The first address that was not given to a node. -/
  next : ℕ

namespace LedgerTrie

variable {T : LedgerTraits}

def empty : LedgerTrie T := ⟨.mk 0 Span.genesis 0 0 [] none, [], 1⟩

def insert (trie : LedgerTrie T) (ledger : T.Ledger) (count : ℕ) : LedgerTrie T :=
  ⟨trie.root.insert ledger count trie.next, trie.seqSupport.add (T.seq ledger) count, trie.next + 2⟩

def remove (trie : LedgerTrie T) (ledger : T.Ledger) (count : ℕ) : LedgerTrie T × Bool :=
  match trie.root.findByLedgerID (T.id ledger) with
  | none => (trie, false)
  | some loc =>
    -- must be exact match with tip support
    if loc.tipSupport = 0 then (trie, false)
    else
      let count := min count loc.tipSupport
      match trie.root.removeTip (T.id ledger) count with
      | none => (trie, false)
      | some (root, _) => (⟨root, trie.seqSupport.sub (T.seq ledger) count, trie.next⟩, true)

def tipSupport (trie : LedgerTrie T) (ledger : T.Ledger) : ℕ :=
  ((trie.root.findByLedgerID (T.id ledger)).map Node.tipSupport).getD 0

def branchSupport (trie : LedgerTrie T) (ledger : T.Ledger) : ℕ :=
  match trie.root.findByLedgerID (T.id ledger) with
  | some loc => loc.branchSupport
  | none =>
    let found := trie.root.find ledger
    -- the ledger is a proper prefix of the node found
    if T.seq ledger < found.2 ∧ T.seq ledger < found.1.span.end then found.1.branchSupport else 0

end LedgerTrie

end FalconLedger.Consensus
