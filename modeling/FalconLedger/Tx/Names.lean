import FalconLedger.Tx.Validators

/-!
# Account names

The transactors `NameSet`, `NameUnbond` and `NameRelease`: a name is bound to an account
against a bond, enters a release period on request and gives the bond back when that is over.
-/

namespace FalconLedger

namespace AccountNames

/-- `std::tolower` in the "C" locale. -/
def tolower (c : UInt8) : UInt8 := if 65 ≤ c ∧ c ≤ 90 then c + 32 else c

/-- The loop of `normalizeName` from position `i`, after a dot or not. -/
def normalizeFrom (size : Nat) : Nat → Bool → Blob → Option Blob
  | _, _, [] => some []
  | i, prevDot, c :: cs =>
    let lower := tolower c
    if (97 ≤ lower ∧ lower ≤ 122) ∨ (48 ≤ lower ∧ lower ≤ 57) then
      (normalizeFrom size (i + 1) false cs).map (lower :: ·)
    else if lower = 46 then
      if i = 0 ∨ i + 1 = size ∨ prevDot then none
      else (normalizeFrom size (i + 1) true cs).map (46 :: ·)
    else none

/-- The lowercase form of a valid name: 3 to 32 letters, digits and inner single dots. -/
def normalizeName (raw : Blob) : Option Blob :=
  if raw = [] ∨ raw.length < kNameMinLen ∨ kNameMaxLen < raw.length then none
  else
    (normalizeFrom raw.length 0 false raw).filter fun out =>
      decide (kNameMinLen ≤ out.length ∧ out.length ≤ kNameMaxLen)

/-- Whether a submitted name is valid and already in normal form. -/
def isNormalized (raw : Blob) : Bool := decide (normalizeName raw = some raw)

theorem normalizeName_length {raw name : Blob} (h : normalizeName raw = some name) :
    name.length ≤ kNameMaxLen := by
  unfold normalizeName at h
  split_ifs at h
  simp only [Option.filter_eq_some_iff, decide_eq_true_eq] at h
  exact h.2.2

end AccountNames

open AccountNames

variable {H : Services} {s : Ledger} {tx : STTx} {a : Applied}

namespace NameSet

def preflight (rules : Rules) (name : Option Blob) : Except TER Unit := do
  failIf (!rules.accountNames) .temDisabled
  let raw ← orFail name .temMalformed
  failIf (!isNormalized raw) .temMalformed

def preclaim (H : Services) (s : Ledger) (tx : STTx) (name : Option Blob) : Except TER Unit := do
  let name ← orFail (normalizeName (name.getD [])) .tefException
  failIf (s.names.lookup (H.accountNameKey name)).isSome .tecDuplicate
  let root ← orFail (s.accounts.lookup tx.account) .terNoAccount
  failIf root.accountName.isSome .tecDuplicate
  failIf (root.balance < kNameBondDrops) .tecUnfunded

/-- The name object of a name that has just been set. -/
def newName (seq : UInt32) (tx : STTx) (name : Blob) (page : UInt64) : AccountName where
  name := name
  account := tx.account
  bondedAmount := kNameBondDrops
  nameStatus := .active
  unbondingStartLedger := none
  ownerNode := page
  previousTxnID := tx.transactionID
  previousTxnLgrSeq := seq

def doApply (H : Services) (s : Ledger) (tx : STTx) (name : Option Blob) : Except TER Applied := do
  let name ← orFail (normalizeName (name.getD [])) .tefException
  let key := H.accountNameKey name
  let root ← orFail (s.accounts.lookup tx.account) .tefInternal
  failIf (root.balance < kNameBondDrops) .tecUnfunded
  let (page, s) ← orFail (← s.dirInsert tx.account key) .tecDirFull
  failIf (s.names.lookup key).isSome .tefException
  let s := { s with names := s.names.insert key (newName s.seq tx name page) }
  let root :=
    { root with
      balance := root.balance - kNameBondDrops
      accountName := some key
      ownerCount := root.ownerCount + 1 }
  return { view := s.setAccount tx.account root }

theorem doApply_ok {raw : Option Blob} (h : doApply H s tx raw = .ok a) :
    ∃ name page s₁ root, normalizeName (raw.getD []) = some name ∧
      s.DirAdded tx.account (H.accountNameKey name) page s₁ ∧
      s.accounts.lookup tx.account = some root ∧ kNameBondDrops ≤ root.balance ∧
      s.names.lookup (H.accountNameKey name) = none ∧
      a = { view :=
              { s₁ with
                names := s.names.insert (H.accountNameKey name)
                  (newName s.seq tx name page) }.setAccount tx.account
                { root with
                  balance := root.balance - kNameBondDrops
                  accountName := some (H.accountNameKey name)
                  ownerCount := root.ownerCount + 1 } } := by
  simp only [doApply, Except.bind_eq_ok, orFail_eq_ok, failIf_eq_ok, Except.pure_eq_ok] at h
  obtain ⟨name, hname, root, hroot, -, hfund, _, hdir, ⟨page, s₁⟩, rfl, -, hnew, rfl⟩ := h
  have hadded := Ledger.dirInsert_ok hdir
  have hnames : s₁.names = s.names := by rw [hadded.same]
  have hseq : s₁.seq = s.seq := by rw [hadded.same]
  refine ⟨name, page, s₁, root, hname, hadded, hroot, not_lt.mp hfund, ?_, ?_⟩
  · simpa [hnames] using hnew
  · simp [hseq, hnames]

end NameSet

namespace NameUnbond

def preflight (rules : Rules) (name : Option Blob) : Except TER Unit := do
  failIf (!rules.accountNames) .temDisabled
  failIf (name.any fun raw => !isNormalized raw) .temMalformed

/-- The name the transaction gives, else the one the account holds. -/
def resolveNameKeylet (H : Services) (s : Ledger) (tx : STTx) (name : Option Blob) :
    Option UInt256 :=
  match name with
  | some raw => (normalizeName raw).map H.accountNameKey
  | none => (s.accounts.lookup tx.account).bind AccountRoot.accountName

def preclaim (H : Services) (s : Ledger) (tx : STTx) (name : Option Blob) : Except TER Unit := do
  let key ← orFail (resolveNameKeylet H s tx name) .tecNoEntry
  let entry ← orFail (s.names.lookup key) .tecNoEntry
  failIf (entry.account ≠ tx.account) .tecNoPermission
  failIf (entry.nameStatus ≠ .active) .tecNoPermission

def doApply (H : Services) (s : Ledger) (tx : STTx) (name : Option Blob) : Except TER Applied := do
  let key ← orFail (resolveNameKeylet H s tx name) .tefInternal
  let entry ← orFail (s.names.lookup key) .tefInternal
  let entry :=
    { entry with
      nameStatus := .releasing
      unbondingStartLedger := some s.seq
      previousTxnID := tx.transactionID
      previousTxnLgrSeq := s.seq }
  return { view := { s with names := s.names.insert key entry } }

theorem doApply_ok {raw : Option Blob} (h : doApply H s tx raw = .ok a) :
    ∃ key entry, resolveNameKeylet H s tx raw = some key ∧ s.names.lookup key = some entry ∧
      a = { view :=
              { s with
                names := s.names.insert key
                  { entry with
                    nameStatus := .releasing
                    unbondingStartLedger := some s.seq
                    previousTxnID := tx.transactionID
                    previousTxnLgrSeq := s.seq } } } := by
  simp only [doApply, Except.bind_eq_ok, orFail_eq_ok, Except.pure_eq_ok] at h
  obtain ⟨key, hkey, entry, hentry, rfl⟩ := h
  exact ⟨key, entry, hkey, hentry, rfl⟩

end NameUnbond

namespace NameRelease

def preflight (rules : Rules) (name : Option Blob) : Except TER Unit := NameSet.preflight rules name

def preclaim (H : Services) (s : Ledger) (name : Option Blob) : Except TER Unit := do
  let name ← orFail (normalizeName (name.getD [])) .tefException
  let entry ← orFail (s.names.lookup (H.accountNameKey name)) .tecNoEntry
  failIf (entry.nameStatus ≠ .releasing) .tecNoPermission
  failIf (s.seq < entry.unbondingStartLedger.getD 0 + kNameUnbondLedgers) .tecTooSoon

/-- The owner's account once its name is released. The back pointer goes only if it still
points at this name. -/
def releaseName (root : AccountRoot) (key : UInt256) (bondedAmount : Int) : AccountRoot :=
  { root.release bondedAmount with
    accountName := if root.accountName = some key then none else root.accountName }

def doApply (H : Services) (s : Ledger) (name : Option Blob) : Except TER Applied := do
  let name ← orFail (normalizeName (name.getD [])) .tefException
  let key := H.accountNameKey name
  let entry ← orFail (s.names.lookup key) .tefInternal
  let root ← orFail (s.accounts.lookup entry.account) .tefInternal
  let s ← orFail (← s.dirRemove entry.account entry.ownerNode key false) .tefBadLedger
  let s := s.setAccount entry.account (releaseName root key entry.bondedAmount)
  return { view := { s with names := s.names.erase key } }

theorem doApply_ok {raw : Option Blob} (h : doApply H s raw = .ok a) :
    ∃ name entry root s₁, normalizeName (raw.getD []) = some name ∧
      s.DirRemoved entry.account entry.ownerNode (H.accountNameKey name) s₁ ∧
      s.names.lookup (H.accountNameKey name) = some entry ∧
      s.accounts.lookup entry.account = some root ∧
      a = { view :=
              { s₁.setAccount entry.account
                  (releaseName root (H.accountNameKey name) entry.bondedAmount) with
                names := s.names.erase (H.accountNameKey name) } } := by
  simp only [doApply, Except.bind_eq_ok, orFail_eq_ok, Except.pure_eq_ok] at h
  obtain ⟨name, hname, entry, hentry, root, hroot, _, hdir, s₁, rfl, rfl⟩ := h
  have hremoved := Ledger.dirRemove_ok hdir
  have hnames : s₁.names = s.names := by rw [hremoved.same]
  refine ⟨name, entry, root, s₁, hname, hremoved, hentry, hroot, ?_⟩
  simp [Ledger.setAccount, hnames]

end NameRelease

end FalconLedger
