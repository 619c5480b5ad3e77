import FalconLedger.Data.Table
import FalconLedger.Ledger.Entries

/-!
# Skip lists

Every ledger remembers the hashes of its ancestors in two kinds of `ltLEDGER_HASHES` entries: those of
the last 256 ledgers (`keylet::skip()`), and those of every 256th ledger, in pages by the high sixteen
bits of the sequence number (`keylet::skip(seq)`). `Ledger::updateSkipList` writes them when a ledger
is built, one ledger late: what it adds is the hash of the parent.
-/

namespace FalconLedger

/-- The fields of an `ltLEDGER_HASHES` entry. -/
structure LedgerHashes where
  hashes : List UInt256
  lastLedgerSequence : UInt32
  deriving DecidableEq

/-- What the skip lists need of a ledger. -/
structure LinkedLedger where
  seq : UInt32
  hash : UInt256
  parentHash : UInt256
  /-- `keylet::skip()`. -/
  skip : Option LedgerHashes
  /-- `keylet::skip(seq)`, by what the key is taken of. -/
  pages : Table UInt32 LedgerHashes

namespace LinkedLedger

/-- The record of every 256th ledger. -/
def addToPage (pages : Table UInt32 LedgerHashes) (prevIndex : UInt32) (parentHash : UInt256) :
    Table UInt32 LedgerHashes :=
  if prevIndex &&& 0xff = 0 then
    let hashes := ((pages.lookup (prevIndex >>> 16)).map LedgerHashes.hashes).getD []
    pages.insert (prevIndex >>> 16) ⟨hashes ++ [parentHash], prevIndex⟩
  else pages

/-- The record of the last 256 ledgers. -/
def addToRecent (skip : Option LedgerHashes) (prevIndex : UInt32) (parentHash : UInt256) :
    LedgerHashes :=
  let hashes := (skip.map LedgerHashes.hashes).getD []
  let hashes := if hashes.length = 256 then hashes.tail else hashes
  ⟨hashes ++ [parentHash], prevIndex⟩

/-- Remember the parent's hash. -/
def updateSkipList (ledger : LinkedLedger) : LinkedLedger :=
  if ledger.seq = 0 then ledger
  else
    { ledger with
      pages := addToPage ledger.pages (ledger.seq - 1) ledger.parentHash
      skip := some (addToRecent ledger.skip (ledger.seq - 1) ledger.parentHash) }

/-- The first ledger. -/
def genesis (hash : UInt256) : LinkedLedger := ⟨1, hash, 0, none, ∅⟩

/-- The successor of a ledger, with the hash it gets when it is closed. -/
def successor (prevLedger : LinkedLedger) (hash : UInt256) : LinkedLedger :=
  updateSkipList
    { prevLedger with
      seq := prevLedger.seq + 1
      hash := hash
      parentHash := prevLedger.hash }

/-- The hash in the list of the last ledgers, so many back. The difference is an `int`: where it is
negative it compares as a size larger than any list. -/
def recentHash (ledger : LinkedLedger) (seq : UInt32) : Option UInt256 :=
  let diff := (ledger.seq - seq).toInt32.toInt
  if diff ≤ 256 then do
    let hashIndex ← ledger.skip
    if 0 ≤ diff ∧ diff ≤ hashIndex.hashes.length then
      hashIndex.hashes[hashIndex.hashes.length - diff.toNat]?
    else none
  else none

/-- The hash in the page of a 256th ledger. -/
def pageHash (ledger : LinkedLedger) (seq : UInt32) : Option UInt256 := do
  let hashIndex ← ledger.pages.lookup (seq >>> 16)
  let diff := ((hashIndex.lastLedgerSequence - seq) >>> 8).toNat
  if diff < hashIndex.hashes.length then
    hashIndex.hashes[hashIndex.hashes.length - diff - 1]?
  else none

def hashOfSeq (ledger : LinkedLedger) (seq : UInt32) : Option UInt256 :=
  if ledger.seq < seq then none
  else if seq = ledger.seq then some ledger.hash
  else if seq = ledger.seq - 1 then some ledger.parentHash
  else
    (ledger.recentHash seq).or (if seq &&& 0xff ≠ 0 then none else ledger.pageHash seq)

/-- The chain of ledgers with these hashes, from the first one on; the `n`-th has the sequence number
`n + 1`. -/
def chain (hash : ℕ → UInt256) : ℕ → LinkedLedger
  | 0 => genesis (hash 0)
  | n + 1 => successor (chain hash n) (hash (n + 1))

/-- The ledger of the chain with a sequence number. -/
def ledgerAt (hash : ℕ → UInt256) (seq : UInt32) : LinkedLedger := chain hash (seq.toNat - 1)

end LinkedLedger

end FalconLedger
