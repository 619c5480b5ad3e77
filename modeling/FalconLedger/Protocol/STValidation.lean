import FalconLedger.Data.Bytes
import FalconLedger.Protocol.PQPublicKey
import FalconLedger.Tx.ApplyContext

/-!
# Validations from bytes

The constructor of `STValidation` that reads a validation a peer or a transaction supplies, and the
check of its signature. How the fields are read and what is hashed for signing are parameters.
-/

namespace FalconLedger

open Bytes

/-- Objects of the format `STValidation::validationFormat`, with their required fields. -/
structure ValidationCodec where
  Object : Type
  /-- `STObject(validationFormat(), sit, sfValidation)`, unless it throws. -/
  read : Blob → Option Object
  signingPubKey : Object → Blob
  signature : Object → Blob
  ledgerSequence : Object → UInt32
  getLedgerHash : Object → UInt256
  getSigningHash : Object → UInt256

namespace STValidation

variable (C : ValidationCodec) (V : Verifiers)

/-- The key of the signer. What is not a Falcon key throws. -/
def signingPubKeyOf (spk : Blob) : Option PublicKey :=
  if isFalconSigningKey spk then PublicKey.ofSlice? spk else none

/-- What is signed. -/
def signedBytes (obj : C.Object) : Blob := toBE 32 (C.getSigningHash obj).toNat

/-- Classical validations are not valid. -/
def isValid (obj : C.Object) (signer : PublicKey) : Bool :=
  if isFalconSigningKey signer.slice then
    verify V signer.slice (signedBytes C obj) (C.signature obj)
  else false

/-- The constructor from serialized data. -/
def construct (checkSignature : Bool) (blob : Blob) : Option (C.Object × PublicKey) := do
  let obj ← C.read blob
  let signer ← signingPubKeyOf (C.signingPubKey obj)
  if checkSignature && !isValid C V obj signer then none else some (obj, signer)

/-- The evidence in bytes that are not empty: its signature is looked at a second time. -/
def evidence (blob : Blob) : Option STValidation := do
  let val ← construct C V true blob
  if isValid C V val.1 val.2 then
    some ⟨val.2.slice, C.ledgerSequence val.1, C.getLedgerHash val.1⟩
  else none

end STValidation

/-- Services that read validations so. -/
def Services.withValidations (H : Services) (C : ValidationCodec) (V : Verifiers) : Services :=
  { H with parseValidation := STValidation.evidence C V }

end FalconLedger
