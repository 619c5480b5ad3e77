import FalconLedger.Ledger.State
import FalconLedger.Protocol.WideArith

/-!
# The context a transaction is applied in

What a transactor can call on: the services outside this model, the flags of the application, and
`ApplyContext`'s two ways of destroying drops. `burnXRP` destroys an amount whole; `destroyXRP`
splits a fee into a burnt share and a credit to the treasury.
-/

namespace FalconLedger

/-- What the evidence for a slash is read for. -/
structure STValidation where
  signerPublic : Blob
  ledgerSequence : UInt32
  ledgerHash : UInt256
  deriving DecidableEq

/-- Checks of the common preflight and preclaim that lie outside this model. -/
inductive ExternalCheck
  | preflight0
  | signingKey
  | preflight2
  | priorTxAndLastLedger
  | permission
  | sign
  deriving DecidableEq

/-- The code a transactor calls that is not modelled: hashing, signatures, the invariant
checkers about entries the fork does not touch, the size of the metadata, ledger hashes. -/
structure Services extends Hashes where
  /-- `some code` when the check refuses the transaction. -/
  externalCheck : ExternalCheck → Ledger → STTx → Option Nat
  /-- The validation serialized in a blob, if it parses and its signature is good. -/
  parseValidation : Blob → Option STValidation
  otherInvariants : Ledger → Ledger → STTx → TER → Int → Bool
  /-- Whether the transaction changes more entries than its metadata may list. -/
  oversize : Ledger → STTx → Bool
  ledgerHash : Ledger → UInt256

/-- The flags the application of a transaction is asked for with. -/
structure ApplyFlags where
  retry : Bool
  failHard : Bool
  dryRun : Bool
  deriving DecidableEq

/-- What a successful `doApply` leaves: the view, the drops it burned and the drops it paid
out of the treasury. -/
structure Applied where
  view : Ledger
  slashed : Int := 0
  paid : Int := 0

/-- Falcon-512 and Falcon-1024 keys, told by their first byte (`PQPublicKey.h`). -/
def isValidNodeKey (key : Blob) : Bool := key.head? = some 0xFB || key.head? = some 0xFC

namespace Ledger

/-- Take drops out of existence. -/
def rawDestroyXRP (s : Ledger) (amount : Int) : Ledger := { s with drops := s.drops - amount }

end Ledger

namespace ApplyContext

def burnXRP (s : Ledger) (amount : Int) : Ledger :=
  if amount ≤ 0 then s else s.rawDestroyXRP amount

/-- The share of a fee that is burnt: the one stored in the epoch object while it is in range,
else the default. -/
def burnBps (s : Ledger) : UInt32 :=
  match s.epoch with
  | some epoch =>
    let stored := epoch.currentBurnBps
    if kFeeBurnMinBps ≤ stored ∧ stored ≤ kFeeBurnMaxBps then stored else kFeeBurnDefaultBps
  | none => kFeeBurnDefaultBps

/-- Burn a share of the fee and credit the rest to the treasury; without a treasury account the
rest is burnt too. -/
def destroyXRP (H : Hashes) (s : Ledger) (fee : Int) : Ledger :=
  if fee ≤ 0 then s
  else
    let burnDrops := muldiv64 fee (burnBps s) kBpsDenom
    let treasuryDrops := fee - burnDrops
    let s := s.rawDestroyXRP burnDrops
    if 0 < treasuryDrops then
      match s.accounts.lookup H.getTreasuryAccountID with
      | some treasury =>
        s.setAccount H.getTreasuryAccountID
          { treasury with balance := treasury.balance + treasuryDrops }
      | none => s.rawDestroyXRP treasuryDrops
    else s

/-- The drops `destroyXRP` takes out of existence. -/
def feeBurned (H : Hashes) (s : Ledger) (fee : Int) : Int :=
  if fee ≤ 0 then 0
  else if s.accounts.lookup H.getTreasuryAccountID = none then fee
  else muldiv64 fee (burnBps s) kBpsDenom

variable {H : Hashes} {s : Ledger} {fee : Int}

theorem burnBps_mem (s : Ledger) : kFeeBurnMinBps ≤ burnBps s ∧ burnBps s ≤ kFeeBurnMaxBps := by
  unfold burnBps
  split
  · dsimp only
    split_ifs with h
    · exact h
    · decide
  · decide

/-- At most seven tenths of a fee are burnt, so a positive fee always leaves the treasury
something. -/
theorem burnDrops_lt (s : Ledger) (h : 0 < fee) : muldiv64 fee (burnBps s) kBpsDenom < fee := by
  have hmax : (burnBps s).toNat ≤ 7000 := UInt32.le_iff_toNat_le.mp (burnBps_mem s).2
  have hmul : fee * (burnBps s).toNat ≤ fee * 7000 :=
    mul_le_mul_of_nonneg_left (by exact_mod_cast hmax) h.le
  have hden : (kBpsDenom.toNat : Int) = 10000 := rfl
  rw [muldiv64_eq_ediv h.le (by decide), hden]
  omega

theorem burnDrops_nonneg (s : Ledger) (h : 0 ≤ fee) :
    0 ≤ muldiv64 fee (burnBps s) kBpsDenom :=
  muldiv64_nonneg h (by decide)

theorem destroyXRP_of_nonpos (h : fee ≤ 0) : destroyXRP H s fee = s := if_pos h

theorem destroyXRP_of_missing (h : 0 < fee)
    (hm : s.accounts.lookup H.getTreasuryAccountID = none) :
    destroyXRP H s fee = s.rawDestroyXRP fee := by
  have hburn := burnDrops_lt s h
  simp only [destroyXRP, not_le.mpr h, if_false, Ledger.rawDestroyXRP, hm, sub_pos, hburn,
    if_true]
  congr 1
  ring

theorem destroyXRP_of_treasury (h : 0 < fee) {treasury : AccountRoot}
    (ht : s.accounts.lookup H.getTreasuryAccountID = some treasury) :
    destroyXRP H s fee =
      (s.rawDestroyXRP (muldiv64 fee (burnBps s) kBpsDenom)).setAccount H.getTreasuryAccountID
        { treasury with
          balance := treasury.balance + (fee - muldiv64 fee (burnBps s) kBpsDenom) } := by
  have hburn := burnDrops_lt s h
  simp only [destroyXRP, not_le.mpr h, if_false, Ledger.rawDestroyXRP, ht, sub_pos, hburn,
    if_true]

/-- What a split can do: nothing, burn all, or burn a share and credit the treasury. -/
theorem destroyXRP_cases (H : Hashes) (s : Ledger) (fee : Int) :
    (fee ≤ 0 ∧ feeBurned H s fee = 0 ∧ destroyXRP H s fee = s) ∨
    (0 < fee ∧ feeBurned H s fee = fee ∧ destroyXRP H s fee = s.rawDestroyXRP fee) ∨
    (0 < fee ∧ ∃ treasury, s.accounts.lookup H.getTreasuryAccountID = some treasury ∧
      0 ≤ feeBurned H s fee ∧ feeBurned H s fee < fee ∧
      destroyXRP H s fee = (s.rawDestroyXRP (feeBurned H s fee)).setAccount
        H.getTreasuryAccountID
        { treasury with balance := treasury.balance + (fee - feeBurned H s fee) }) := by
  rcases le_or_gt fee 0 with h | h
  · exact .inl ⟨h, if_pos h, destroyXRP_of_nonpos h⟩
  · rcases hm : s.accounts.lookup H.getTreasuryAccountID with _ | treasury
    · refine .inr (.inl ⟨h, ?_, destroyXRP_of_missing h hm⟩)
      simp [feeBurned, not_le.mpr h, hm]
    · have hb : feeBurned H s fee = muldiv64 fee (burnBps s) kBpsDenom := by
        simp [feeBurned, not_le.mpr h, hm]
      rw [hb]
      exact .inr (.inr ⟨h, treasury, rfl, burnDrops_nonneg s h.le, burnDrops_lt s h,
        destroyXRP_of_treasury h hm⟩)

theorem destroyXRP_eq (H : Hashes) (s : Ledger) (fee : Int) : destroyXRP H s fee =
    { s with
      drops := s.drops - feeBurned H s fee
      accounts := (destroyXRP H s fee).accounts } := by
  rcases destroyXRP_cases H s fee with ⟨-, hb, hd⟩ | ⟨-, hb, hd⟩ | ⟨-, _, -, -, -, hd⟩
  · rw [hd, hb, sub_zero]
  · rw [hd, hb]
    rfl
  · rw [hd]
    rfl

theorem destroyXRP_held (h : 0 ≤ fee) :
    (destroyXRP H s fee).held = s.held + (fee - feeBurned H s fee) := by
  rcases destroyXRP_cases H s fee with ⟨h', hb, hd⟩ | ⟨-, hb, hd⟩ | ⟨-, t, ht, -, -, hd⟩
  · rw [hd, hb]
    omega
  · rw [hd, hb, sub_self, add_zero]
    rfl
  · have hw : Table.weightAt AccountRoot.balance s.accounts H.getTreasuryAccountID = t.balance :=
      Table.weightAt_of_lookup ht
    rw [hd]
    simp only [Ledger.rawDestroyXRP, Ledger.held, Ledger.setAccount, Table.total_insert, hw]
    ring

theorem le_balanceOf_destroyXRP (H : Hashes) (s : Ledger) (fee : Int) (id : AccountID) :
    s.balanceOf id ≤ (destroyXRP H s fee).balanceOf id := by
  rcases destroyXRP_cases H s fee with ⟨-, -, hd⟩ | ⟨-, -, hd⟩ | ⟨-, t, ht, -, hlt, hd⟩ <;>
    rw [hd]
  · exact le_rfl
  · by_cases hid : id = H.getTreasuryAccountID
    · subst hid
      rw [Ledger.balanceOf_setAccount_self, Ledger.balanceOf_of_lookup ht]
      dsimp only
      omega
    · rw [Ledger.balanceOf_setAccount_of_ne hid]
      exact le_rfl

end ApplyContext

end FalconLedger
