import FalconLedger.Protocol.PublicKey

/-!
# Falcon keys

`PQPublicKey`, which is made of bytes only if their length is that of the kind the first byte names,
and the functions of `PublicKey.cpp` that route a key to its verifier. A key is told by the first byte
wherever no `PQPublicKey` is made of it.
-/

namespace FalconLedger

/-- `kFALCON512_PUBKEY_BYTES` and `kFALCON1024_PUBKEY_BYTES`. -/
def kFalcon512PubkeyBytes : ℕ := 897

def kFalcon1024PubkeyBytes : ℕ := 1793

/-- A prefix byte and a raw key of the length that goes with it. -/
def PQPublicKey.WellFormed (type : KeyType) (blob : Blob) : Prop :=
  type = .falcon512 ∧ blob.head? = some kFalcon512Prefix ∧ blob.length = kFalcon512PubkeyBytes + 1 ∨
    type = .falcon1024 ∧ blob.head? = some kFalcon1024Prefix ∧
      blob.length = kFalcon1024PubkeyBytes + 1

structure PQPublicKey where
  type : KeyType
  blob : Blob
  wellFormed : PQPublicKey.WellFormed type blob

/-- The constructor from bytes, with the message of its exception. -/
def PQPublicKey.ofSlice (s : Blob) : Except String PQPublicKey :=
  if s = [] then .error "PQPublicKey: empty slice"
  else if h : s.head? = some kFalcon512Prefix then
    if hl : s.length ≠ kFalcon512PubkeyBytes + 1 then
      .error "PQPublicKey: bad Falcon-512 length"
    else .ok ⟨.falcon512, s, .inl ⟨rfl, h, not_not.mp hl⟩⟩
  else if h : s.head? = some kFalcon1024Prefix then
    if hl : s.length ≠ kFalcon1024PubkeyBytes + 1 then
      .error "PQPublicKey: bad Falcon-1024 length"
    else .ok ⟨.falcon1024, s, .inr ⟨rfl, h, not_not.mp hl⟩⟩
  else .error "PQPublicKey: unknown prefix byte"

/-- `PublicKey::isPQ`: a key longer than the classical ones. -/
def PublicKey.isPQ (k : PublicKey) : Bool := decide (33 < k.slice.length)

/-- The signature schemes. -/
structure Verifiers where
  falcon : PQPublicKey → Blob → Blob → Bool
  ed25519 : PublicKey → Blob → Blob → Bool
  secp256k1 : PublicKey → Blob → Blob → Bool

variable (V : Verifiers)

/-- `verifyFalcon(PQPublicKey(..), m, sig)`, where an exception is a failed verification. -/
def verifyFalcon (key m sig : Blob) : Bool :=
  match PQPublicKey.ofSlice key with
  | .ok k => V.falcon k m sig
  | .error _ => false

/-- `verify(PublicKey const&, ..)`. -/
def PublicKey.verify (k : PublicKey) (m sig : Blob) : Bool :=
  match publicKeyType k.slice with
  | some .secp256k1 => V.secp256k1 k m sig
  | some .ed25519 => V.ed25519 k m sig
  | some .falcon512 | some .falcon1024 => verifyFalcon V k.slice m sig
  | none => false

/-- `verify(Slice const&, ..)`. -/
def verify (key m sig : Blob) : Bool :=
  if (pqPublicKeyType key).isSome then verifyFalcon V key m sig
  else
    match PublicKey.ofSlice? key with
    | some k => k.verify V m sig
    | none => false

/-- `parseValidatorPublicKey`, with the hex decoder. -/
def parseValidatorPublicKey (strUnHex : String → Option Blob) (token : String) : Option PublicKey :=
  if token = "" then none
  else
    match strUnHex token with
    | some hex => if (pqPublicKeyType hex).isSome then PublicKey.ofSlice? hex else none
    | none => none

end FalconLedger
