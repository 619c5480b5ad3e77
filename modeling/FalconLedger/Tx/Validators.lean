import FalconLedger.Ledger.Directory
import FalconLedger.Tx.ApplyContext

/-!
# Validator bonds

The transactors `ValidatorRegister`, `ValidatorBond`, `ValidatorUnbond`, `ValidatorSlash` and
`ReleaseBond`. A stage that returns a failure code throws it; `doApply` returns the view it
leaves on success. Inserting an entry whose key is taken is a `logic_error` in the source,
caught as `tefEXCEPTION`.
-/

namespace FalconLedger

variable {H : Services} {s : Ledger} {tx : STTx} {a : Applied}

/-- The owner's account once a bonded object is released: the amount comes back and the object
no longer counts. -/
def AccountRoot.release (root : AccountRoot) (bondedAmount : Int) : AccountRoot :=
  { root with
    balance := if 0 < bondedAmount then root.balance + bondedAmount else root.balance
    ownerCount := if 0 < root.ownerCount then root.ownerCount - 1 else root.ownerCount }

namespace ValidatorRegister

def preflight (rules : Rules) (publicKey consensusKey : Blob) : Except TER Unit := do
  failIf (!rules.proofOfParticipation) .temDisabled
  failIf (!isValidNodeKey publicKey) .temInvalidFlag
  failIf (!isValidNodeKey consensusKey) .temInvalidFlag
  failIf (publicKey ≠ consensusKey) .temInvalidFlag

def preclaim (H : Services) (s : Ledger) (consensusKey : Blob) : Except TER Unit :=
  failIf (s.bonds.lookup (H.calcValidatorBondID consensusKey)).isSome .tecDuplicate

/-- The bond object of a validator that has just registered. -/
def newBond (seq : UInt32) (tx : STTx) (publicKey consensusKey : Blob) (page : UInt64) :
    FalconLedger.ValidatorBond where
  account := tx.account
  publicKey := publicKey
  consensusKey := consensusKey
  bondedAmount := 0
  bondStatus := .registered
  uptimeBps := none
  voteAccuracyBps := none
  latencyScoreBps := none
  consistencyBps := none
  slashMultiplier := kBpsDenom
  compositeScore := none
  slashCount := none
  lastClaimedEpoch := none
  unbondingStartLedger := none
  ownerNode := page
  previousTxnID := tx.transactionID
  previousTxnLgrSeq := seq

def doApply (H : Services) (s : Ledger) (tx : STTx) (publicKey consensusKey : Blob) :
    Except TER Applied := do
  let id := H.calcValidatorBondID consensusKey
  let (page, s) ← orFail (← s.dirInsert tx.account (H.validatorBondKey id)) .tecDirFull
  failIf (s.bonds.lookup id).isSome .tefException
  let s := s.setBond id (newBond s.seq tx publicKey consensusKey page)
  let root ← orFail (s.accounts.lookup tx.account) .tefInternal
  return { view := s.setAccount tx.account { root with ownerCount := root.ownerCount + 1 } }

theorem doApply_ok {publicKey consensusKey : Blob}
    (h : doApply H s tx publicKey consensusKey = .ok a) :
    ∃ page s₁ root,
      s.DirAdded tx.account (H.validatorBondKey (H.calcValidatorBondID consensusKey)) page s₁ ∧
      s.accounts.lookup tx.account = some root ∧
      s.bonds.lookup (H.calcValidatorBondID consensusKey) = none ∧
      a = { view := (s₁.setBond (H.calcValidatorBondID consensusKey)
              (newBond s.seq tx publicKey consensusKey page)).setAccount tx.account
              { root with ownerCount := root.ownerCount + 1 } } := by
  simp only [doApply, Except.bind_eq_ok, orFail_eq_ok, failIf_eq_ok, Except.pure_eq_ok] at h
  obtain ⟨_, hdir, ⟨page, s₁⟩, rfl, -, hnew, root, hroot, rfl⟩ := h
  have hadded := Ledger.dirInsert_ok hdir
  have hsame := hadded.same
  have hacc : s₁.accounts = s.accounts := by rw [hsame]
  have hbonds : s₁.bonds = s.bonds := by rw [hsame]
  have hseq : s₁.seq = s.seq := by rw [hsame]
  refine ⟨page, s₁, root, hadded, ?_, ?_, ?_⟩
  · rwa [Ledger.setBond, hacc] at hroot
  · simpa [hbonds] using hnew
  · simp [hseq]

end ValidatorRegister

namespace ValidatorBond

def preflight (rules : Rules) (consensusKey : Blob) (bondedAmount : Int) : Except TER Unit := do
  failIf (!rules.proofOfParticipation) .temDisabled
  failIf (!isValidNodeKey consensusKey) .temInvalidFlag
  failIf (bondedAmount ≤ 0) .temBadAmount
  failIf (bondedAmount < kQxrpMinBondDrops) .temBadAmount

def preclaim (H : Services) (s : Ledger) (tx : STTx) (consensusKey : Blob) : Except TER Unit := do
  let bond ← orFail (s.bonds.lookup (H.calcValidatorBondID consensusKey)) .tecNoEntry
  failIf (bond.account ≠ tx.account) .tecNoPermission
  failIf (bond.bondStatus ≠ .registered) .tecNoPermission

def doApply (H : Services) (s : Ledger) (tx : STTx) (consensusKey : Blob) (bondedAmount : Int) :
    Except TER Applied := do
  let id := H.calcValidatorBondID consensusKey
  let root ← orFail (s.accounts.lookup tx.account) .tefInternal
  failIf (root.balance < bondedAmount) .tecUnfunded
  let s := s.setAccount tx.account { root with balance := root.balance - bondedAmount }
  let bond ← orFail (s.bonds.lookup id) .tefInternal
  let s := s.setBond id
    { bond with
      bondedAmount
      bondStatus := .bonded
      previousTxnID := tx.transactionID
      previousTxnLgrSeq := s.seq }
  return { view := s }

theorem doApply_ok {consensusKey : Blob} {bondedAmount : Int}
    (h : doApply H s tx consensusKey bondedAmount = .ok a) :
    ∃ root bond, s.accounts.lookup tx.account = some root ∧
      s.bonds.lookup (H.calcValidatorBondID consensusKey) = some bond ∧
      bondedAmount ≤ root.balance ∧
      a = { view := (s.setAccount tx.account
              { root with balance := root.balance - bondedAmount }).setBond
              (H.calcValidatorBondID consensusKey)
              { bond with
                bondedAmount
                bondStatus := .bonded
                previousTxnID := tx.transactionID
                previousTxnLgrSeq := s.seq } } := by
  simp only [doApply, Except.bind_eq_ok, orFail_eq_ok, failIf_eq_ok, Except.pure_eq_ok] at h
  obtain ⟨root, hroot, -, hfund, bond, hbond, rfl⟩ := h
  exact ⟨root, bond, hroot, hbond, not_lt.mp hfund, rfl⟩

end ValidatorBond

namespace ValidatorUnbond

def preflight (rules : Rules) (consensusKey : Blob) : Except TER Unit := do
  failIf (!rules.proofOfParticipation) .temDisabled
  failIf (!isValidNodeKey consensusKey) .temInvalidFlag

def preclaim (H : Services) (s : Ledger) (tx : STTx) (consensusKey : Blob) : Except TER Unit := do
  let bond ← orFail (s.bonds.lookup (H.calcValidatorBondID consensusKey)) .tecNoEntry
  failIf (bond.account ≠ tx.account) .tecNoPermission
  failIf (bond.bondStatus ≠ .bonded) .tecNoPermission

def doApply (H : Services) (s : Ledger) (tx : STTx) (consensusKey : Blob) :
    Except TER Applied := do
  let id := H.calcValidatorBondID consensusKey
  let bond ← orFail (s.bonds.lookup id) .tefInternal
  let s := s.setBond id
    { bond with
      bondStatus := .unbonding
      unbondingStartLedger := some s.seq
      previousTxnID := tx.transactionID
      previousTxnLgrSeq := s.seq }
  return { view := s }

theorem doApply_ok {consensusKey : Blob} (h : doApply H s tx consensusKey = .ok a) :
    ∃ bond, s.bonds.lookup (H.calcValidatorBondID consensusKey) = some bond ∧
      a = { view := s.setBond (H.calcValidatorBondID consensusKey)
              { bond with
                bondStatus := .unbonding
                unbondingStartLedger := some s.seq
                previousTxnID := tx.transactionID
                previousTxnLgrSeq := s.seq } } := by
  simp only [doApply, Except.bind_eq_ok, orFail_eq_ok, Except.pure_eq_ok] at h
  obtain ⟨bond, hbond, rfl⟩ := h
  exact ⟨bond, hbond, rfl⟩

end ValidatorUnbond

namespace ValidatorSlash

def parseValidationEvidence (H : Services) (blob : Blob) : Option STValidation :=
  if blob = [] then none else H.parseValidation blob

/-- Two validations of one key for different ledgers of one sequence number, the key being
that of the bond. -/
def verifyDoubleSignEvidence (H : Services) (evidence1 evidence2 : Blob) (slashTarget : AccountID)
    (bond : FalconLedger.ValidatorBond) : Bool :=
  match parseValidationEvidence H evidence1, parseValidationEvidence H evidence2 with
  | some v1, some v2 =>
    decide (v1.signerPublic ≠ []) && decide (v1.signerPublic = v2.signerPublic) &&
      decide (bond.consensusKey = v1.signerPublic) &&
      decide (H.calcValidatorBondID v1.signerPublic = slashTarget) &&
      decide (v1.ledgerSequence = v2.ledgerSequence) && decide (v1.ledgerHash ≠ v2.ledgerHash)
  | _, _ => false

def preflight (rules : Rules) (slashOffense : UInt32) (slashEvidence1 slashEvidence2 : Option Blob) :
    Except TER Unit := do
  failIf (!rules.proofOfParticipation) .temDisabled
  failIf (slashOffense < kSlashOffenseDoubleSign ∨ kSlashOffenseInvalidVote < slashOffense)
    .temMalformed
  failIf (slashOffense ≠ kSlashOffenseDoubleSign) .temDisabled
  failIf (slashEvidence1 = none ∨ slashEvidence2 = none) .temMalformed
  failIf (slashEvidence1.getD [] = slashEvidence2.getD []) .temMalformed

def preclaim (H : Services) (s : Ledger) (slashTarget : AccountID) (slashOffense : UInt32)
    (slashEvidence1 slashEvidence2 : Option Blob) : Except TER Unit := do
  let bond ← orFail (s.bonds.lookup slashTarget) .tecNoEntry
  failIf (bond.bondStatus = .unbonding) .tecDuplicate
  failIf (slashOffense ≠ kSlashOffenseDoubleSign) .temDisabled
  let e1 := slashEvidence1.getD []
  let e2 := slashEvidence2.getD []
  failIf (!verifyDoubleSignEvidence H e1 e2 slashTarget bond) .tecNoPermission

def doApply (H : Services) (s : Ledger) (tx : STTx) (slashTarget : AccountID)
    (slashOffense : UInt32) (slashEvidence1 slashEvidence2 : Option Blob) :
    Except TER Applied := do
  let bond ← orFail (s.bonds.lookup slashTarget) .tefInternal
  failIf (slashOffense ≠ kSlashOffenseDoubleSign) .temDisabled
  let e1 := slashEvidence1.getD []
  let e2 := slashEvidence2.getD []
  failIf (!verifyDoubleSignEvidence H e1 e2 slashTarget bond) .tecNoPermission
  let target ← orFail (s.accounts.lookup bond.account) .tefInternal
  let bondedDrops := bond.bondedAmount
  let slashedDrops := (bondedDrops * kSlashDoubleSignBps.toNat).tdiv kBpsDenom.toNat
  let remainderDrops := bondedDrops - slashedDrops
  let s := s.setBond slashTarget
    { bond with
      bondedAmount := remainderDrops
      bondStatus := .unbonding
      unbondingStartLedger := some s.seq
      slashMultiplier := if 1000 ≤ bond.slashMultiplier then bond.slashMultiplier - 1000 else 0
      slashCount := some (bond.slashCount.getD 0 + 1)
      previousTxnID := tx.transactionID
      previousTxnLgrSeq := s.seq }
  let s := if 0 < slashedDrops then ApplyContext.burnXRP s slashedDrops else s
  let s := if 0 < remainderDrops then
      s.setAccount bond.account { target with balance := target.balance + remainderDrops }
    else s
  return { view := s, slashed := if 0 < slashedDrops then slashedDrops else 0 }

/-- The bond as a slash leaves it. -/
def slashedBond (seq : UInt32) (tx : STTx) (bond : FalconLedger.ValidatorBond) :
    FalconLedger.ValidatorBond :=
  { bond with
    bondedAmount := 0
    bondStatus := .unbonding
    unbondingStartLedger := some seq
    slashMultiplier := if 1000 ≤ bond.slashMultiplier then bond.slashMultiplier - 1000 else 0
    slashCount := some (bond.slashCount.getD 0 + 1)
    previousTxnID := tx.transactionID
    previousTxnLgrSeq := seq }

/-- A double sign costs the whole bond: no remainder is returned, and what is burned is the
bond, unless it was not positive. -/
theorem doApply_ok {slashTarget : AccountID} {slashOffense : UInt32}
    {slashEvidence1 slashEvidence2 : Option Blob}
    (h : doApply H s tx slashTarget slashOffense slashEvidence1 slashEvidence2 = .ok a) :
    ∃ bond, s.bonds.lookup slashTarget = some bond ∧
      a = { view := (s.setBond slashTarget (slashedBond s.seq tx bond)).rawDestroyXRP
              (max bond.bondedAmount 0)
            slashed := max bond.bondedAmount 0 } := by
  simp only [doApply, Except.bind_eq_ok, orFail_eq_ok, failIf_eq_ok, Except.pure_eq_ok] at h
  obtain ⟨bond, hbond, -, -, -, -, target, -, rfl⟩ := h
  have hwhole : (bond.bondedAmount * kSlashDoubleSignBps.toNat).tdiv kBpsDenom.toNat =
      bond.bondedAmount := Int.mul_tdiv_cancel _ (by decide)
  refine ⟨bond, hbond, ?_⟩
  simp only [hwhole, sub_self, lt_irrefl, if_false]
  rcases lt_or_ge 0 bond.bondedAmount with hpos | hneg
  · simp only [hpos, if_true, ApplyContext.burnXRP, not_le.mpr hpos, if_false, max_eq_left hpos.le]
    rfl
  · simp only [not_lt.mpr hneg, if_false, max_eq_right hneg, Ledger.rawDestroyXRP, sub_zero]
    rfl

end ValidatorSlash

namespace ReleaseBond

def preflight (rules : Rules) : Except TER Unit :=
  failIf (!rules.proofOfParticipation) .temDisabled

def preclaim (s : Ledger) (slashTarget : AccountID) : Except TER Unit := do
  let bond ← orFail (s.bonds.lookup slashTarget) .tecNoEntry
  failIf (bond.bondStatus ≠ .unbonding) .tecNoPermission
  failIf (s.seq < bond.unbondingStartLedger.getD 0 + kUnbondingLockLedgers) .tecTooSoon

def doApply (H : Services) (s : Ledger) (slashTarget : AccountID) : Except TER Applied := do
  let bond ← orFail (s.bonds.lookup slashTarget) .tefInternal
  let root ← orFail (s.accounts.lookup bond.account) .tefInternal
  let key := H.validatorBondKey slashTarget
  let s ← orFail (← s.dirRemove bond.account bond.ownerNode key false) .tefBadLedger
  let s := s.setAccount bond.account (root.release bond.bondedAmount)
  return { view := { s with bonds := s.bonds.erase slashTarget } }

theorem doApply_ok {slashTarget : AccountID} (h : doApply H s slashTarget = .ok a) :
    ∃ bond root s₁,
      s.DirRemoved bond.account bond.ownerNode (H.validatorBondKey slashTarget) s₁ ∧
      s.bonds.lookup slashTarget = some bond ∧ s.accounts.lookup bond.account = some root ∧
      a = { view := { s₁.setAccount bond.account (root.release bond.bondedAmount) with
              bonds := s.bonds.erase slashTarget } } := by
  simp only [doApply, Except.bind_eq_ok, orFail_eq_ok, Except.pure_eq_ok] at h
  obtain ⟨bond, hbond, root, hroot, _, hdir, s₁, rfl, rfl⟩ := h
  have hremoved := Ledger.dirRemove_ok hdir
  have hbonds : s₁.bonds = s.bonds := by rw [hremoved.same]
  refine ⟨bond, root, s₁, hremoved, hbond, hroot, ?_⟩
  simp [Ledger.setAccount, hbonds]

end ReleaseBond

end FalconLedger
