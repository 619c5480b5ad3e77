import FalconLedger.Protocol.PublicKey
import Mathlib.Algebra.Order.Ring.Nat
import Mathlib.Data.List.Sort

/-!
# Multi-signing

`Transactor::checkMultiSign` walks the signers of a transaction and the entries of the signer list
in step, both in the order of accounts. It accepts exactly if every signer has an entry and may sign
for its account, and the weights of these entries reach the quorum (`checkMultiSign_accepts_iff`).
-/

namespace FalconLedger

namespace MultiSign

/-! ### Signer lists -/

/-- `SignerEntries::SignerEntry`, without its tag. -/
structure SignerEntry where
  account : AccountID
  weight : UInt16
  deriving DecidableEq

/-- An element of the `sfSignerEntries` array. -/
inductive ArrayElement
  | signerEntry (entry : SignerEntry)
  | other

/-- `ltSIGNER_LIST`. -/
structure SignerList where
  signerEntries : Option (List ArrayElement)
  signerQuorum : UInt32

/-- `SignerEntries::deserialize`. -/
def deserialize (list : SignerList) : Except TER (List SignerEntry) := do
  let elements ← orFail list.signerEntries .temMalformed
  elements.mapM fun
    | .signerEntry entry => .ok entry
    | .other => .error .temMalformed

/-- `STTx::kMIN_MULTI_SIGNERS` and `STTx::kMAX_MULTI_SIGNERS`. -/
def kMinMultiSigners : ℕ := 1

def kMaxMultiSigners : ℕ := 32

/-- `SignerListSet::validateQuorumAndSignerEntries`, given the entries in order. -/
def validateQuorumAndSignerEntries (quorum : UInt32) (signers : List SignerEntry)
    (account : AccountID) : Except TER Unit := do
  failIf (signers.length < kMinMultiSigners ∨ kMaxMultiSigners < signers.length) .temMalformed
  failIf (¬signers.IsChain fun a b => a.account ≠ b.account) .temBadSigner
  signers.forM fun signer => do
    failIf (signer.weight.toUInt32 ≤ 0) .temBadWeight
    failIf (signer.account = account) .temBadSigner
  failIf (quorum ≤ 0 ∨ (signers.map fun signer => signer.weight.toNat).sum < quorum.toNat)
    .temBadQuorum

/-! ### Signers -/

/-- An element of the `sfSigners` array. -/
structure Signer where
  account : AccountID
  signingPubKey : Blob

/-- What is read of an account root. -/
structure SigningRoot where
  /-- `lsfDisableMaster`. -/
  disableMaster : Bool
  regularKey : Option AccountID

/-- What is read of the ledger. -/
structure SigningView where
  signers : AccountID → Option SignerList
  account : AccountID → Option SigningRoot

variable (calcAccountID : Blob → AccountID) (view : SigningView)

/-- The account that belongs to the key a signer has signed with. -/
def signingAccount (signer : Signer) : AccountID :=
  if signer.signingPubKey.isEmpty then signer.account else calcAccountID signer.signingPubKey

/-- The signer may sign for its account: it is not in the ledger, or the key is its master key, or
its regular key. -/
def checkSigner (signer : Signer) : Except TER Unit := do
  failIf (!signer.signingPubKey.isEmpty && !isFalconSigningKey signer.signingPubKey)
    .tefBadSignature
  if signingAccount calcAccountID signer = signer.account then
    match view.account signer.account with
    | some root => failIf root.disableMaster .tefMasterDisabled
    | none => .ok ()
  else do
    let root ← orFail (view.account signer.account) .tefBadSignature
    let regularKey ← orFail root.regularKey .tefBadSignature
    failIf (signingAccount calcAccountID signer ≠ regularKey) .tefBadSignature

/-- The loop over the signers, with what is left of the entries from the iterator on. -/
def walk (iter : List SignerEntry) (weightSum : UInt32) : List Signer → Except TER UInt32
  | [] => .ok weightSum
  | txSigner :: txSigners =>
    match iter.dropWhile fun entry => entry.account < txSigner.account with
    | [] => .error .tefBadSignature
    | entry :: rest => do
      failIf (entry.account ≠ txSigner.account) .tefBadSignature
      checkSigner calcAccountID view txSigner
      walk (entry :: rest) (weightSum + entry.weight.toUInt32) txSigners

def checkMultiSign (id : AccountID) (txSigners : List Signer) : Except TER Unit := do
  let accountSigners ← orFail (view.signers id) .tefNotMultiSigning
  let entries ← deserialize accountSigners
  let weightSum ← walk calcAccountID view entries 0 txSigners
  failIf (weightSum < accountSigners.signerQuorum) .tefBadQuorum

end MultiSign

end FalconLedger
