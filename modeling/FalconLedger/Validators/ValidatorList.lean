import FalconLedger.Validators.ManifestCache
import Mathlib.Data.List.Sort

/-!
# Validator lists

`ValidatorList.cpp`: publishers that are configured sign lists of validators. Each publisher has a current
list and lists that are to become current later; `keyListings` counts on how many lists a validator is, and
those on enough of them, and not revoked, are trusted. A publisher's signing key comes from its manifests.

An exception ends the call and leaves the state as it is by then; `none` stands for it. The tables are gone
through in the order of their entries.
-/

namespace FalconLedger

/-- The bytes of a key, as they are compared. -/
def PublicKey.bytes (k : PublicKey) : List ℕ := k.slice.map UInt8.toNat

instance : LT PublicKey := ⟨fun k k' => k.bytes < k'.bytes⟩

instance : LE PublicKey := ⟨fun k k' => k.bytes ≤ k'.bytes⟩

instance (k k' : PublicKey) : Decidable (k < k') := inferInstanceAs (Decidable (k.bytes < k'.bytes))

instance (k k' : PublicKey) : Decidable (k ≤ k') := inferInstanceAs (Decidable (k.bytes ≤ k'.bytes))

theorem PublicKey.eq_of_not_lt {k k' : PublicKey} (h : ¬k < k') (h' : ¬k' < k) : k = k' := by
  have hbytes : k.bytes = k'.bytes := le_antisymm (not_lt.mp h') (not_lt.mp h)
  exact PublicKey.slice_injective
    (List.map_injective_iff.mpr (fun _ _ => UInt8.toNat_inj.mp) hbytes)

/-! ### Lists as they are sent -/

/-- An entry of `validators`: its key and its manifest, where they are texts. -/
structure ValidatorJson where
  validationPublicKey : Option Blob
  manifest : Option Blob

/-- A list in JSON: the members that are integers, and the entries if they are an array. For `effective`
the outer `none` says that it is no member. -/
structure ListJson where
  sequence : Option ℤ
  expiration : Option ℤ
  effective : Option (Option ℤ)
  validators : Option (List ValidatorJson)

/-- `json::Value::asUInt` of an integer, which throws where it is negative. -/
def asUInt (n : ℤ) : Option ℕ := if 0 ≤ n then some n.toNat else none

/-- Decodings, the check of a blob's signature, and the JSON reader. -/
structure ListCodec extends ManifestCodec where
  base64Decode : Blob → Blob
  strUnHex : Blob → Option Blob
  verifyBlob : PublicKey → Blob → Blob → Bool
  parse : Blob → Option ListJson

structure ValidatorBlobInfo where
  blob : Blob
  signature : Blob
  manifest : Option Blob

/-! ### The state -/

inductive ListDisposition
  | accepted
  | expired
  | pending
  | sameSequence
  | knownSequence
  | stale
  | untrusted
  | unsupportedVersion
  | invalid
  deriving DecidableEq

/-- The better dispositions have lower values. -/
def ListDisposition.rank : ListDisposition → ℕ
  | accepted => 0
  | expired => 1
  | pending => 2
  | sameSequence => 3
  | knownSequence => 4
  | stale => 5
  | untrusted => 6
  | unsupportedVersion => 7
  | invalid => 8

inductive PublisherStatus
  | available
  | expired
  | unavailable
  | revoked
  deriving DecidableEq

structure PublisherList where
  list : List PublicKey
  manifests : List Blob
  sequence : ℕ
  validFrom : ℕ
  validUntil : ℕ
  deriving DecidableEq

def PublisherList.empty : PublisherList := ⟨[], [], 0, 0, 0⟩

/-- The lists to come, in the order of their sequence numbers. -/
abbrev Remaining := List (ℕ × PublisherList)

namespace Remaining

def find (r : Remaining) (sequence : ℕ) : Option PublisherList :=
  (r.find? fun e => e.1 = sequence).map Prod.snd

def erase (r : Remaining) (sequence : ℕ) : Remaining := r.filter fun e => e.1 ≠ sequence

def set (r : Remaining) (sequence : ℕ) (list : PublisherList) : Remaining :=
  r.filter (fun e => e.1 < sequence) ++ (sequence, list) :: r.filter fun e => sequence < e.1

end Remaining

structure PublisherListCollection where
  status : PublisherStatus
  current : PublisherList
  remaining : Remaining
  maxSequence : Option ℕ
  deriving DecidableEq

structure ValidatorList where
  validatorManifests : ManifestCache
  publisherManifests : ManifestCache
  publisherLists : Table PublicKey PublisherListCollection
  keyListings : Table PublicKey ℕ
  trustedMasterKeys : Finset PublicKey
  listThreshold : ℕ
  trustedSigningKeys : Finset PublicKey
  localPubKey : Option PublicKey
  localPublisherList : List PublicKey

namespace ValidatorList

variable (P : ListCodec)

/-! ### Counting -/

/-- The count of a key; `operator[]` makes it zero where there is none. -/
def listings (t : Table PublicKey ℕ) (k : PublicKey) : ℕ := (t.lookup k).getD 0

def enlist (t : Table PublicKey ℕ) (k : PublicKey) : Table PublicKey ℕ :=
  t.insert k (listings t k + 1)

def delist (t : Table PublicKey ℕ) (k : PublicKey) : Table PublicKey ℕ :=
  if listings t k ≤ 1 then t.erase k else t.insert k (listings t k - 1)

/-- The loop of `updatePublisherList` over the new list and the old one. -/
def mergeListings : List PublicKey → List PublicKey → Table PublicKey ℕ → Table PublicKey ℕ
  | [], [], t => t
  | iNew :: publisherList, [], t => mergeListings publisherList [] (enlist t iNew)
  | [], iOld :: oldList, t => mergeListings [] oldList (delist t iOld)
  | iNew :: publisherList, iOld :: oldList, t =>
    if iNew < iOld then mergeListings publisherList (iOld :: oldList) (enlist t iNew)
    else if iOld < iNew then mergeListings (iNew :: publisherList) oldList (delist t iOld)
    else mergeListings publisherList oldList t
termination_by publisherList oldList => publisherList.length + oldList.length

/-- One manifest of a validator on a list. -/
def applyValidatorManifest (L : ValidatorList) (valManifest : Blob) : ValidatorList :=
  match deserializeManifest P.toManifestCodec (P.base64Decode valManifest) with
  | none => L
  | some m =>
    if (L.keyListings.lookup m.masterKey).isNone then L
    else
      let (cache, _) := L.validatorManifests.applyManifest P.toManifestCodec m
      { L with validatorManifests := cache }

def updatePublisherList (L : ValidatorList) (current : PublisherList) (oldList : List PublicKey) :
    ValidatorList :=
  current.manifests.foldl (applyValidatorManifest P)
    { L with keyListings := mergeListings current.list oldList L.keyListings }

def removePublisherList (L : ValidatorList) (publisherKey : PublicKey) (reason : PublisherStatus) :
    ValidatorList :=
  match L.publisherLists.lookup publisherKey with
  | none => L
  | some collection =>
    { L with
      keyListings := collection.current.list.foldl
        (fun t val => if (t.lookup val).isNone then t else delist t val) L.keyListings
      publisherLists := L.publisherLists.insert publisherKey
        { collection with current := { collection.current with list := [] }, status := reason } }

/-! ### A signed list -/

/-- `publisherLists_[masterPubKey].remaining.clear()` -/
def clearRemaining (L : ValidatorList) (publisherKey : PublicKey) : ValidatorList :=
  match L.publisherLists.lookup publisherKey with
  | none => L
  | some collection =>
    { L with publisherLists := L.publisherLists.insert publisherKey { collection with remaining := [] } }

/-- What `verify` makes of a list whose signature is in order. -/
def disposition (now : ℕ) (collection : PublisherListCollection) (list : ListJson) :
    Option ListDisposition :=
  match list.sequence, list.expiration, list.effective.getD (some 0), list.validators with
  | some sequence, some expiration, some effective, some _ => do
    let sequence ← asUInt sequence
    let validFrom ← asUInt effective
    let validUntil ← asUInt expiration
    if validUntil ≤ validFrom then return .invalid
    if sequence < collection.current.sequence then return .stale
    if sequence = collection.current.sequence then return .sameSequence
    if validUntil ≤ now then return .expired
    if now < validFrom then
      match collection.maxSequence with
      | none => return .pending
      | some maxSequence =>
        if maxSequence < sequence then return .pending
        if (collection.remaining.find sequence).isSome then return .knownSequence
        -- `at` throws where the sequence number is not there
        let last ← collection.remaining.find maxSequence
        if validFrom < last.validFrom then return .pending else return .knownSequence
    else return .accepted
  | _, _, _, _ => some .invalid

/-- The part of `verify` after the manifest: what becomes of the blob, and the list in it. -/
def verifyBlobOf (L : ValidatorList) (now : ℕ) (masterPubKey : PublicKey)
    (signingKey : PublicKey) (blob signature : Blob) : Option (ListDisposition × Option ListJson) :=
  match P.strUnHex signature with
  | none => some (.invalid, none)
  | some sig =>
    if ¬P.verifyBlob signingKey (P.base64Decode blob) sig then some (.invalid, none)
    else
      match P.parse (P.base64Decode blob), L.publisherLists.lookup masterPubKey with
      | some list, some collection => (disposition now collection list).map fun d => (d, some list)
      | _, _ => some (.invalid, none)

/-- The part of `verify` that applies the manifest. -/
def applyPublisherManifest (L : ValidatorList) (m : Manifest) :
    ValidatorList × ManifestDisposition :=
  let (cache, result) := L.publisherManifests.applyManifest P.toManifestCodec m
  let L := { L with publisherManifests := cache }
  if m.revoked ∧ result = ManifestDisposition.accepted then
    ((L.removePublisherList m.masterKey .revoked).clearRemaining m.masterKey, result)
  else (L, result)

/-- `verify`: the disposition, the publisher if it is configured, and the list. -/
def verify (L : ValidatorList) (now : ℕ) (m : Manifest) (blob signature : Blob) :
    ValidatorList × Option (ListDisposition × Option PublicKey × Option ListJson) :=
  if (L.publisherLists.lookup m.masterKey).isNone then (L, some (.untrusted, none, none))
  else
    let (L, result) := applyPublisherManifest P L m
    match L.publisherManifests.getSigningKey m.masterKey with
    | none => (L, some (.untrusted, some m.masterKey, none))
    | some signingKey =>
      if m.revoked ∨ result = .invalid then (L, some (.untrusted, some m.masterKey, none))
      else (L, (verifyBlobOf P L now m.masterKey signingKey blob signature).map fun r =>
        (r.1, some m.masterKey, r.2))

/-! ### Applying lists -/

structure PublisherListStats where
  dispositions : List ListDisposition
  publisherKey : Option PublicKey
  status : PublisherStatus
  sequence : ℕ
  deriving DecidableEq

/-- `bestDisposition`, as a rank. -/
def PublisherListStats.best (s : PublisherListStats) : ℕ :=
  (s.dispositions.map ListDisposition.rank).foldl min ListDisposition.invalid.rank

/-- The keys on a list. -/
def keysOf (validators : List ValidatorJson) : List PublicKey :=
  validators.filterMap fun val => do
    PublicKey.ofSlice? (← P.strUnHex (← val.validationPublicKey))

/-- A publisher's list made of one that is sent; the manifests of the list before stay. -/
def publisherListOf (old : PublisherList) (sequence : ℕ) (list : ListJson) : PublisherList where
  list := (keysOf P (list.validators.getD [])).insertionSort (· ≤ ·)
  manifests := old.manifests ++ (list.validators.getD []).filterMap (·.manifest)
  sequence
  validFrom := ((list.effective.getD (some 0)).getD 0).toNat
  validUntil := (list.expiration.getD 0).toNat

/-- What `applyList` does to the collection of the publisher, and the old list. -/
def collect (collection : PublisherListCollection) (result : ListDisposition) (list : ListJson) :
    PublisherListCollection × List PublicKey :=
  let sequence := (list.sequence.getD 0).toNat
  let accepted := result = ListDisposition.accepted ∨ result = ListDisposition.expired
  let collection := { collection with
    status :=
      if accepted then if result = ListDisposition.accepted then .available else .expired else collection.status
    maxSequence := some (max (collection.maxSequence.getD 0) sequence) }
  if accepted then
    match collection.remaining.find sequence with
    | some publisher =>
      ({ collection with
          current := publisher, remaining := collection.remaining.erase sequence },
        collection.current.list)
    | none =>
      ({ collection with current := publisherListOf P collection.current sequence list },
        collection.current.list)
  else
    let old := (collection.remaining.find sequence).getD .empty
    ({ collection with
        remaining := collection.remaining.set sequence (publisherListOf P old sequence list) },
      old.list)

/-- The part of `applyList` that is reached by a list that is good now or later. -/
def acceptList (L : ValidatorList) (pubKey : PublicKey) (collection : PublisherListCollection)
    (result : ListDisposition) (list : ListJson) : ValidatorList × PublisherListStats :=
  let (collection, oldList) := collect P collection result list
  let L := { L with publisherLists := L.publisherLists.insert pubKey collection }
  let L := if result = .accepted ∨ result = .expired then
      updatePublisherList P L collection.current oldList
    else L
  (L, ⟨[result], some pubKey, collection.status, collection.maxSequence.getD 0⟩)

def PublisherListStats.of (d : ListDisposition) : PublisherListStats := ⟨[d], none, .unavailable, 0⟩

def applyList (L : ValidatorList) (now : ℕ) (globalManifest : Blob) (info : ValidatorBlobInfo) :
    ValidatorList × Option PublisherListStats :=
  match deserializeManifest P.toManifestCodec
    (P.base64Decode (info.manifest.getD globalManifest)) with
  | none => (L, some (.of .invalid))
  | some m =>
    match verify P L now m info.blob info.signature with
    | (L, none) => (L, none)
    | (L, some (result, none, _)) => (L, some (.of result))
    | (L, some (result, some pubKey, list)) =>
      match L.publisherLists.lookup pubKey with
      | none => (L, some (.of result))
      | some collection =>
        if ListDisposition.pending.rank < result.rank then
          match collection.maxSequence with
          | some maxSequence =>
            if result = .sameSequence ∨ result = .knownSequence then
              (L, some ⟨[result], some pubKey, collection.status, maxSequence⟩)
            else (L, some (.of result))
          | none => (L, some (.of result))
        else
          match list with
          | none => (L, some (.of result))
          | some list =>
            let (L, stats) := acceptList P L pubKey collection result list
            (L, some stats)

/-- The state of the loop of `applyLists`; the result is `none` after an exception. -/
structure Loop where
  lists : ValidatorList
  result : Option PublisherListStats

/-- One blob, in the loop of `applyLists`. -/
def applyBlob (now : ℕ) (globalManifest : Blob) (s : Loop) (info : ValidatorBlobInfo) :
    Loop × Unit :=
  match s.result with
  | none => (s, ())
  | some result =>
    match applyList P s.lists now globalManifest info with
    | (L, none) => (⟨L, none⟩, ())
    | (L, some stats) =>
      let dispositions := stats.dispositions ++ result.dispositions
      if stats.best < result.best ∨ (stats.best = result.best ∧ result.sequence < stats.sequence) then
        (⟨L, some { stats with dispositions }⟩, ())
      else (⟨L, some { result with dispositions }⟩, ())

/-- The lists to come, less those that the current one or the next one supersedes. -/
def tidy (sequence : ℕ) : Remaining → Remaining
  | [] => []
  | e :: rest =>
    if e.1 ≤ sequence ∨ rest.head?.any (fun next => next.2.validFrom ≤ e.2.validFrom) then
      tidy sequence rest
    else e :: tidy sequence rest

/-- The end of `applyLists`. -/
def cleanUp (s : Loop) : ValidatorList :=
  match s.result.bind (·.publisherKey) with
  | none => s.lists
  | some pubKey =>
    match s.lists.publisherLists.lookup pubKey with
    | none => s.lists
    | some collection =>
      { s.lists with
        publisherLists := s.lists.publisherLists.insert pubKey
          { collection with remaining := tidy collection.current.sequence collection.remaining } }

def kSupportedListVersions : List ℕ := [1, 2]

def Loop.start (L : ValidatorList) : Loop := ⟨L, some ⟨[], none, .unavailable, 0⟩⟩

def applyLists (L : ValidatorList) (now : ℕ) (manifest : Blob) (version : ℕ)
    (blobs : List ValidatorBlobInfo) : ValidatorList :=
  if version ∉ kSupportedListVersions then L
  else cleanUp (blobs.foldl (fun s info => (applyBlob P now manifest s info).1) (.start L))

/-! ### Trust -/

/-- The first part of the loop of `updateTrusted`: the last list that is due becomes current. -/
def rotate (closeTime : ℕ) (pubKey : PublicKey) (L : ValidatorList)
    (collection : PublisherListCollection) : ValidatorList :=
  match (collection.remaining.takeWhile fun e => e.2.validFrom ≤ closeTime).getLast? with
  | none => L
  | some (_, candidate) =>
    let current :=
      if candidate.validUntil ≤ closeTime then { candidate with list := [] } else candidate
    let remaining := collection.remaining.dropWhile fun e => e.2.validFrom ≤ closeTime
    updatePublisherList P
      { L with
        publisherLists := L.publisherLists.insert pubKey
          { collection with status := .available, current, remaining } }
      current collection.current.list

/-- The second part: a list that has expired is removed. -/
def expire (closeTime : ℕ) (pubKey : PublicKey) (L : ValidatorList) : ValidatorList :=
  match L.publisherLists.lookup pubKey with
  | none => L
  | some collection =>
    if collection.status = .available ∧ collection.current.validUntil ≤ closeTime then
      L.removePublisherList pubKey .expired
    else L

def refresh (closeTime : ℕ) (L : ValidatorList) (pubKey : PublicKey) : ValidatorList :=
  match L.publisherLists.lookup pubKey with
  | none => L
  | some collection => expire closeTime pubKey (rotate P closeTime pubKey L collection)

def refreshAll (closeTime : ℕ) (L : ValidatorList) : ValidatorList :=
  L.publisherLists.keys.foldl (refresh P closeTime) L

/-- Whether a key is on enough lists, and not revoked. -/
def qualifies (L : ValidatorList) (k : PublicKey) : Bool :=
  (L.keyListings.lookup k).any (fun n => L.listThreshold ≤ n) && !L.validatorManifests.revoked k

structure TrustChanges where
  added : Finset PublicKey
  removed : Finset PublicKey

def trustChanges (L : ValidatorList) : TrustChanges where
  removed := L.trustedMasterKeys.filter fun k => !L.qualifies k
  added := L.keyListings.keys.toFinset.filter fun k => L.qualifies k ∧ k ∉ L.trustedMasterKeys

/-- The signing keys of validators; those that are trusted have one. -/
def signingKeysOf (manifests : ManifestCache) (keys : Finset PublicKey) : Finset PublicKey :=
  keys.image fun k => (manifests.getSigningKey k).getD k

/-- What `updateTrusted` does after its loop. -/
def trust (L : ValidatorList) : ValidatorList :=
  let changes := L.trustChanges
  let trustedMasterKeys := (L.trustedMasterKeys.filter fun k => L.qualifies k) ∪ changes.added
  { L with
    trustedMasterKeys
    trustedSigningKeys :=
      if changes.added ≠ ∅ ∨ changes.removed ≠ ∅ then
        signingKeysOf L.validatorManifests trustedMasterKeys
      else L.trustedSigningKeys }

/-- The time `updateTrusted` goes by. -/
def trustTime (closeTime now : ℕ) : ℕ := if closeTime + 30 < now then now else closeTime

def updateTrusted (L : ValidatorList) (closeTime now : ℕ) : ValidatorList :=
  (refreshAll P (trustTime closeTime now) L).trust

/-! ### Loading -/

/-- The configuration: this node's key, the keys of validators and publishers as they are read, and the
threshold, which is positive if it is set. -/
structure Config where
  localSigningKey : Option PublicKey
  configKeys : List PublicKey
  publisherKeys : List PublicKey
  listThreshold : Option ℕ+

def loadPublisher (publisherManifests : ManifestCache)
    (t : Table PublicKey PublisherListCollection) (id : PublicKey) :
    Table PublicKey PublisherListCollection :=
  if (t.lookup id).isSome then t
  else t.insert id
    ⟨if publisherManifests.revoked id then .revoked else .unavailable, .empty, [], none⟩

def loadKey (localSigningKey : Option PublicKey) (L : ValidatorList) (id : PublicKey) :
    ValidatorList :=
  if some id = L.localPubKey ∨ some id = localSigningKey then L
  else if (L.keyListings.lookup id).isSome then L
  else { L with
    keyListings := L.keyListings.insert id L.listThreshold
    localPublisherList := L.localPublisherList ++ [id] }

/-- The threshold: as it is set, or by the number of publishers. -/
def thresholdOf (listThreshold : Option ℕ+) (size : ℕ) : ℕ :=
  match listThreshold with
  | some n => n
  | none => if size < 3 then 1 else size / 2 + 1

/-- The first part of `load`, into an empty list with two caches: the publishers and this node's key. -/
def loadPublishers (validatorManifests publisherManifests : ManifestCache) (config : Config) :
    ValidatorList :=
  let publisherLists := config.publisherKeys.foldl (loadPublisher publisherManifests) ∅
  let listThreshold := thresholdOf config.listThreshold publisherLists.keys.length
  let localPubKey := config.localSigningKey.map validatorManifests.getMasterKey
  { validatorManifests, publisherManifests, publisherLists, listThreshold, localPubKey
    keyListings := localPubKey.elim ∅ fun k => (∅ : Table PublicKey ℕ).insert k listThreshold
    trustedMasterKeys := ∅
    trustedSigningKeys := ∅
    localPublisherList := [] }

/-- `load` -/
def load (validatorManifests publisherManifests : ManifestCache) (config : Config) :
    ValidatorList :=
  config.configKeys.foldl (loadKey config.localSigningKey)
    (loadPublishers validatorManifests publisherManifests config)

/-! ### Runs -/

inductive Action
  | applyLists (now : ℕ) (manifest : Blob) (version : ℕ) (blobs : List ValidatorBlobInfo)
  | updateTrusted (closeTime now : ℕ)

def step (L : ValidatorList) : Action → ValidatorList × Unit
  | .applyLists now manifest version blobs => (applyLists P L now manifest version blobs, ())
  | .updateTrusted closeTime now => (updateTrusted P L closeTime now, ())

end ValidatorList

end FalconLedger
