import FalconLedger.Protocol.STTx

/-!
# Public keys

The kinds of keys are told by the first byte and, for the classical ones, by the length.
-/

namespace FalconLedger

inductive KeyType
  | secp256k1
  | ed25519
  | falcon512
  | falcon1024
  deriving DecidableEq

/-- `PQPublicKey::kFALCON512_PREFIX` and `PQPublicKey::kFALCON1024_PREFIX`. -/
def kFalcon512Prefix : UInt8 := 0xFB

def kFalcon1024Prefix : UInt8 := 0xFC

def pqPublicKeyType (s : Blob) : Option KeyType :=
  if s.head? = some kFalcon512Prefix then some .falcon512
  else if s.head? = some kFalcon1024Prefix then some .falcon1024
  else none

def publicKeyType (s : Blob) : Option KeyType :=
  if s.length = 33 ∧ s.head? = some 0xED then some .ed25519
  else if s.length = 33 ∧ (s.head? = some 0x02 ∨ s.head? = some 0x03) then some .secp256k1
  else pqPublicKeyType s

def signingPubKeyType (s : Blob) : Option KeyType :=
  match publicKeyType s with
  | some classical => some classical
  | none => pqPublicKeyType s

def isFalconSigningKey (s : Blob) : Bool :=
  match signingPubKeyType s with
  | some t => t = .falcon512 || t = .falcon1024
  | none => false

/-- The bytes of a key. -/
structure PublicKey where
  slice : Blob
  isSome_type : (publicKeyType slice).isSome

instance : DecidableEq PublicKey := fun a b =>
  decidable_of_iff (a.slice = b.slice) ⟨fun h => by cases a; cases b; simp_all, congrArg _⟩

/-- A key made of bytes, if they are one. -/
def PublicKey.ofSlice? (s : Blob) : Option PublicKey :=
  if h : (publicKeyType s).isSome then some ⟨s, h⟩ else none

@[simp] theorem PublicKey.ofSlice?_slice (k : PublicKey) : ofSlice? k.slice = some k := by
  rw [ofSlice?, dif_pos k.isSome_type]

theorem PublicKey.slice_injective : Function.Injective PublicKey.slice := by
  rintro ⟨a, ha⟩ ⟨b, hb⟩ rfl
  rfl

end FalconLedger
