import FalconLedger.Data.Table
import FalconLedger.Protocol.PublicKey

/-!
# Manifests

A manifest binds a master key to a signing key, or revokes the master key with the highest sequence
number. `applyManifest` takes its lock twice: it checks the manifest, signature included, under the
read lock; then, under the write lock, it checks it again, without the signature, and stores it.
Other threads may write in between, so the two halves are two actions.
-/

namespace FalconLedger

/-! ### A manifest -/

/-- What a manifest holds, by `kMANIFEST_FORMAT`. -/
structure ManifestFields where
  publicKey : Blob
  masterSignature : Blob
  sequence : UInt32
  version : Option UInt16
  domain : Option Blob
  signingPubKey : Option Blob
  signature : Option Blob

/-- The reading of a serialized manifest, the form of a domain, and signatures: whether a key has signed
the manifest that holds some fields. -/
structure ManifestCodec where
  fields : Blob → Option ManifestFields
  isProperlyFormedTomlDomain : Blob → Bool
  verify : ManifestFields → PublicKey → Blob → Bool

/-- `Manifest::revoked(sequence)` -/
def revokedSequence (sequence : UInt32) : Bool := sequence = 0xFFFFFFFF

/-- A manifest, as `deserializeManifest` makes it. -/
structure Manifest where
  serialized : Blob
  masterKey : PublicKey
  signingKey : Option PublicKey
  sequence : UInt32
  domain : Blob
  signingKey_ne : signingKey ≠ some masterKey
  signingKey_eq_none : signingKey = none ↔ revokedSequence sequence = true
  deriving DecidableEq

namespace Manifest

def revoked (m : Manifest) : Bool := revokedSequence m.sequence

/-- `Manifest::verify` -/
def verify (C : ManifestCodec) (m : Manifest) : Bool :=
  match C.fields m.serialized with
  | none => false
  | some st =>
    if m.revoked then C.verify st m.masterKey st.masterSignature
    else
      match m.signingKey, st.signature with
      | some signingKey, some signature =>
        C.verify st signingKey signature && C.verify st m.masterKey st.masterSignature
      | _, _ => false

end Manifest

/-- The key in a field, if it can sign. -/
def signingKeyOf (pk : Blob) : Option PublicKey :=
  if (signingPubKeyType pk).isSome then PublicKey.ofSlice? pk else none

/-- `deserializeManifest` -/
def deserializeManifest (C : ManifestCodec) (s : Blob) : Option Manifest :=
  if s = [] then none
  else do
    let st ← C.fields s
    if st.version.getD 0 ≠ 0 then none
    else
      let masterKey ← signingKeyOf st.publicKey
      let domain := st.domain.getD []
      if st.domain.isSome ∧ ¬C.isProperlyFormedTomlDomain domain then none
      else if hrevoked : revokedSequence st.sequence then
        if st.signingPubKey.isSome then none
        else if st.signature.isSome then none
        else some ⟨s, masterKey, none, st.sequence, domain, nofun, iff_of_true rfl hrevoked⟩
      else
        let spk ← st.signingPubKey
        let _ ← st.signature
        let signingKey ← signingKeyOf spk
        if hsame : signingKey = masterKey then none
        else some ⟨s, masterKey, some signingKey, st.sequence, domain,
          fun h => hsame (Option.some.inj h), iff_of_false nofun hrevoked⟩

/-! ### The cache -/

inductive ManifestDisposition
  | accepted
  | stale
  | badMasterKey
  | badEphemeralKey
  | invalid
  deriving DecidableEq

structure ManifestCache where
  map : Table PublicKey Manifest
  signingToMasterKeys : Table PublicKey PublicKey
  seq : ℕ

namespace ManifestCache

def empty : ManifestCache := ⟨∅, ∅, 0⟩

/-- The manifest of a master key that is not revoked. -/
def current (c : ManifestCache) (pk : PublicKey) : Option Manifest :=
  (c.map.lookup pk).filter fun m => !m.revoked

def getSigningKey (c : ManifestCache) (pk : PublicKey) : Option PublicKey :=
  match c.current pk with
  | some m => m.signingKey
  | none => some pk

def getMasterKey (c : ManifestCache) (pk : PublicKey) : PublicKey :=
  (c.signingToMasterKeys.lookup pk).getD pk

def revoked (c : ManifestCache) (pk : PublicKey) : Bool := (c.map.lookup pk).any (·.revoked)

/-- `prewriteCheck`; `verified` tells whether the signature is in order, or not looked at. -/
def prewriteCheck (c : ManifestCache) (m : Manifest) (verified : Bool) :
    Option ManifestDisposition :=
  if (c.map.lookup m.masterKey).any fun old => m.sequence ≤ old.sequence then some .stale
  else if ¬verified then some .invalid
  else if (c.signingToMasterKeys.lookup m.masterKey).isSome then some .badMasterKey
  else if m.revoked then none
  else
    match m.signingKey with
    | none => some .invalid
    | some signingKey =>
      if (c.signingToMasterKeys.lookup signingKey).isSome then some .badEphemeralKey
      else if (c.map.lookup signingKey).isSome then some .badEphemeralKey
      else none

/-- `emplace` leaves a key that is there as it is. -/
def emplace {V : Type} (t : Table PublicKey V) (k : PublicKey) (v : V) : Table PublicKey V :=
  if (t.lookup k).isSome then t else t.insert k v

/-- What a manifest that has passed the checks does to the maps. -/
def write (c : ManifestCache) (m : Manifest) : ManifestCache :=
  let signing := match c.map.lookup m.masterKey with
    | none => c.signingToMasterKeys
    | some old =>
      match old.signingKey with
      | none => c.signingToMasterKeys
      | some signingKey => c.signingToMasterKeys.erase signingKey
  { map := c.map.insert m.masterKey m
    signingToMasterKeys := match m.signingKey with
      | none => signing
      | some signingKey => emplace signing signingKey m.masterKey
    seq := c.seq + 1 }

/-- The write-locked half of `applyManifest`. -/
def store (c : ManifestCache) (m : Manifest) : ManifestCache × ManifestDisposition :=
  match c.prewriteCheck m true with
  | some d => (c, d)
  | none => (c.write m, .accepted)

/-- `applyManifest`, with no other thread in between. -/
def applyManifest (C : ManifestCodec) (c : ManifestCache) (m : Manifest) :
    ManifestCache × ManifestDisposition :=
  match c.prewriteCheck m (m.verify C) with
  | some d => (c, d)
  | none => c.store m

/-! ### Threads -/

/-- The cache, and for each thread the manifest that it has checked and not yet stored. -/
structure Threads where
  cache : ManifestCache
  checked : Table ℕ Manifest

def Threads.empty : Threads := ⟨.empty, ∅⟩

inductive Action
  /-- A thread calls `applyManifest`: the check under the read lock. -/
  | check (thread : ℕ) (m : Manifest)
  /-- The thread gets the write lock. -/
  | store (thread : ℕ)

/-- A step, and what the call returns if it ends here. -/
def step (C : ManifestCodec) (s : Threads) : Action → Threads × Option ManifestDisposition
  | .check thread m =>
    -- a thread is in one call at a time
    if (s.checked.lookup thread).isSome then (s, none)
    else
      match s.cache.prewriteCheck m (m.verify C) with
      | some d => (s, some d)
      | none => ({ s with checked := s.checked.insert thread m }, none)
  | .store thread =>
    match s.checked.lookup thread with
    | none => (s, none)
    | some m =>
      let (cache, d) := s.cache.store m
      (⟨cache, s.checked.erase thread⟩, some d)

end ManifestCache

end FalconLedger
