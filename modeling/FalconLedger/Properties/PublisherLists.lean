import FalconLedger.Properties.ManifestDirectory
import FalconLedger.Validators.ValidatorList

/-!
# What changes the lists of publishers

Whatever is done to a `ValidatorList` between two trust updates puts another collection in the place
of a publisher's, and moves the counts by what that does to the publisher's current list: `Moves`.

`Counted` is the invariant of the counts: a key has its share from the configuration and one for each time
it occurs in the current list of a publisher.
-/

namespace FalconLedger.ValidatorList

variable {P : ListCodec} {L L' : ValidatorList} {t : Table PublicKey ℕ} {p k x : PublicKey}

/-! ### Counts -/

theorem listings_insert (n : ℕ) : listings (t.insert k n) x = if x = k then n else listings t x := by
  rw [listings, listings]
  split_ifs with h
  · rw [h, AList.lookup_insert, Option.getD_some]
  · rw [AList.lookup_insert_ne h]

theorem listings_enlist (t : Table PublicKey ℕ) (k x : PublicKey) :
    listings (enlist t k) x = listings t x + if k == x then 1 else 0 := by
  rw [enlist, listings_insert]
  by_cases h : x = k
  · subst h
    simp
  · simp [h, Ne.symm h]

theorem listings_delist (t : Table PublicKey ℕ) (k x : PublicKey) :
    listings (delist t k) x = listings t x - if k == x then 1 else 0 := by
  rw [delist]
  by_cases hx : x = k
  · subst hx
    by_cases hle : listings t x ≤ 1
    · rw [if_pos hle, listings, AList.lookup_erase, Option.getD_none, beq_self_eq_true, if_pos rfl]
      omega
    · rw [if_neg hle, listings_insert, if_pos rfl, beq_self_eq_true, if_pos rfl]
  · have hne : (k == x) = false := by simpa using Ne.symm hx
    rw [hne]
    by_cases hle : listings t k ≤ 1
    · rw [if_pos hle, listings, AList.lookup_erase_ne hx]
      rfl
    · rw [if_neg hle, listings_insert, if_neg hx]
      rfl

theorem listings_mergeListings (publisherList oldList : List PublicKey) (t : Table PublicKey ℕ)
    (h : oldList.count k ≤ listings t k) :
    listings (mergeListings publisherList oldList t) k + oldList.count k =
      listings t k + publisherList.count k := by
  induction publisherList, oldList, t using mergeListings.induct with
  | case1 t => rw [mergeListings]
  | case2 iNew publisherList t ih =>
    have henlist := listings_enlist t iNew k
    rw [mergeListings, ih (Nat.zero_le _), henlist, List.count_cons]
    omega
  | case3 iOld oldList t ih =>
    have hdelist := listings_delist t iOld k
    rw [List.count_cons] at h ⊢
    have hih := ih (by omega)
    rw [mergeListings]
    omega
  | case4 iNew publisherList iOld oldList t hlt ih =>
    have henlist := listings_enlist t iNew k
    have hih := ih (by omega)
    rw [mergeListings, if_pos hlt]
    rw [List.count_cons (l := publisherList)]
    omega
  | case5 iNew publisherList iOld oldList t hlt hlt' ih =>
    have hdelist := listings_delist t iOld k
    rw [List.count_cons (l := oldList)] at h ⊢
    have hih := ih (by omega)
    rw [mergeListings, if_neg hlt, if_pos hlt']
    omega
  | case6 iNew publisherList iOld oldList t hlt hlt' ih =>
    obtain rfl := PublicKey.eq_of_not_lt hlt hlt'
    rw [List.count_cons] at h
    have hih := ih (by omega)
    rw [mergeListings, if_neg hlt, if_neg hlt', List.count_cons, List.count_cons]
    omega

theorem listings_remove (list : List PublicKey) (t : Table PublicKey ℕ)
    (h : list.count k ≤ listings t k) :
    listings (list.foldl (fun t val => if (t.lookup val).isNone then t else delist t val) t) k +
      list.count k = listings t k := by
  induction list generalizing t with
  | nil => rfl
  | cons val list ih =>
    have hcount : listings (if (t.lookup val).isNone then t else delist t val) k =
        listings t k - if val == k then 1 else 0 := by
      by_cases hnone : (t.lookup val).isNone
      · rw [if_pos hnone]
        by_cases hk : val = k
        · subst hk
          rw [listings, Option.isNone_iff_eq_none.mp hnone, Option.getD_none, Nat.zero_sub]
        · simp [hk]
      · rw [if_neg hnone]
        exact listings_delist t val k
    rw [List.count_cons] at h
    rw [List.foldl_cons, List.count_cons]
    have hih := ih (if (t.lookup val).isNone then t else delist t val) (by omega)
    omega

/-! ### One collection for another -/

/-- What only loading and trust updates set, and the manifests of the publishers. -/
structure Frame (L L' : ValidatorList) : Prop where
  publisherManifests : L'.publisherManifests = L.publisherManifests
  trustedMasterKeys : L'.trustedMasterKeys = L.trustedMasterKeys
  trustedSigningKeys : L'.trustedSigningKeys = L.trustedSigningKeys
  listThreshold : L'.listThreshold = L.listThreshold
  localPubKey : L'.localPubKey = L.localPubKey
  localPublisherList : L'.localPublisherList = L.localPublisherList

/-- The collection of a publisher is exchanged, and the counts follow. -/
structure Moves (p : PublicKey) (c c' : PublisherListCollection) (L L' : ValidatorList) : Prop
    extends Frame L L' where
  before : L.publisherLists.lookup p = some c
  lists : L'.publisherLists = L.publisherLists.insert p c'
  counts : ∀ k, c.current.list.count k ≤ listings L.keyListings k →
    listings L'.keyListings k + c.current.list.count k =
      listings L.keyListings k + c'.current.list.count k

variable {c c' : PublisherListCollection}

/-- The manifests of the validators are all that the end of `updatePublisherList` changes. -/
theorem foldl_applyValidatorManifest (manifests : List Blob) (L : ValidatorList) :
    ∃ cache, manifests.foldl (applyValidatorManifest P) L = { L with validatorManifests := cache } := by
  induction manifests generalizing L with
  | nil => exact ⟨_, rfl⟩
  | cons valManifest manifests ih =>
    have hone : ∃ cache, applyValidatorManifest P L valManifest =
        { L with validatorManifests := cache } := by
      rw [applyValidatorManifest]
      split
      · exact ⟨_, rfl⟩
      · split_ifs <;> exact ⟨_, rfl⟩
    obtain ⟨cache, hcache⟩ := hone
    rw [List.foldl_cons, hcache]
    exact ih _

theorem updatePublisherList_eq (L : ValidatorList) (current : PublisherList)
    (oldList : List PublicKey) :
    ∃ cache, updatePublisherList P L current oldList =
      { L with
        validatorManifests := cache
        keyListings := mergeListings current.list oldList L.keyListings } := by
  obtain ⟨cache, hcache⟩ := foldl_applyValidatorManifest (P := P) current.manifests
    { L with keyListings := mergeListings current.list oldList L.keyListings }
  exact ⟨cache, hcache⟩

theorem Moves.update (hp : L.publisherLists.lookup p = some c) (c' : PublisherListCollection) :
    Moves p c c' L (updatePublisherList P
      { L with publisherLists := L.publisherLists.insert p c' } c'.current c.current.list) := by
  obtain ⟨cache, hcache⟩ := updatePublisherList_eq (P := P)
    { L with publisherLists := L.publisherLists.insert p c' } c'.current c.current.list
  rw [hcache]
  exact ⟨⟨rfl, rfl, rfl, rfl, rfl, rfl⟩, hp, rfl, fun k h => listings_mergeListings _ _ _ h⟩

theorem Moves.keep (hp : L.publisherLists.lookup p = some c) (hc : c'.current.list = c.current.list) :
    Moves p c c' L { L with publisherLists := L.publisherLists.insert p c' } :=
  ⟨⟨rfl, rfl, rfl, rfl, rfl, rfl⟩, hp, rfl, fun k _ => by rw [hc]⟩

/-- The collection of a publisher whose list is removed. -/
def removed (c : PublisherListCollection) (reason : PublisherStatus) : PublisherListCollection :=
  { c with current := { c.current with list := [] }, status := reason }

theorem Moves.remove (hp : L.publisherLists.lookup p = some c) (reason : PublisherStatus) :
    Moves p c (removed c reason) L (L.removePublisherList p reason) := by
  rw [removePublisherList, hp]
  exact ⟨⟨rfl, rfl, rfl, rfl, rfl, rfl⟩, hp, rfl, fun k h => listings_remove _ _ h⟩

theorem Moves.clear (hp : L.publisherLists.lookup p = some c) :
    Moves p c { c with remaining := [] } L (L.clearRemaining p) := by
  rw [clearRemaining, hp]
  exact .keep hp rfl

theorem Moves.after (h : Moves p c c' L L') : L'.publisherLists.lookup p = some c' := by
  rw [h.lists, AList.lookup_insert]

/-! ### The steps -/

theorem collect_accepted (c : PublisherListCollection) {result : ListDisposition}
    (h : result = .accepted ∨ result = .expired) (list : ListJson) :
    (collect P c result list).2 = c.current.list := by
  rw [collect]
  dsimp only
  rw [if_pos h]
  split <;> rfl

theorem collect_pending (c : PublisherListCollection) {result : ListDisposition}
    (h : ¬(result = .accepted ∨ result = .expired)) (list : ListJson) :
    (collect P c result list).1.current = c.current := by
  rw [collect]
  dsimp only
  rw [if_neg h]

theorem Moves.accept (hp : L.publisherLists.lookup p = some c) (result : ListDisposition)
    (list : ListJson) :
    Moves p c (collect P c result list).1 L (acceptList P L p c result list).1 := by
  rw [acceptList]
  by_cases h : result = .accepted ∨ result = .expired
  · simp only [if_pos h, collect_accepted c h list]
    exact .update hp _
  · simp only [if_neg h]
    exact .keep hp (by rw [collect_pending c h list])

/-- The collection of a publisher once a list that was to come is current. -/
def rotated (closeTime : ℕ) (c : PublisherListCollection) (candidate : PublisherList) :
    PublisherListCollection :=
  { c with
    status := .available
    current := if candidate.validUntil ≤ closeTime then { candidate with list := [] } else candidate
    remaining := c.remaining.dropWhile fun e => e.2.validFrom ≤ closeTime }

theorem rotate_cases (closeTime : ℕ) (hp : L.publisherLists.lookup p = some c) :
    (rotate P closeTime p L c = L ∧
        c.remaining.takeWhile (fun e => e.2.validFrom ≤ closeTime) = []) ∨
      ∃ e, (c.remaining.takeWhile fun e => e.2.validFrom ≤ closeTime).getLast? = some e ∧
        Moves p c (rotated closeTime c e.2) L (rotate P closeTime p L c) := by
  rw [rotate]
  cases hlast : (c.remaining.takeWhile fun e => decide (e.2.validFrom ≤ closeTime)).getLast? with
  | none => exact .inl ⟨rfl, List.getLast?_eq_none_iff.mp hlast⟩
  | some e => exact .inr ⟨e, rfl, .update hp (rotated closeTime c e.2)⟩

theorem mem_of_due {closeTime : ℕ} {r : Remaining} {e : ℕ × PublisherList}
    (h : (r.takeWhile fun e => e.2.validFrom ≤ closeTime).getLast? = some e) : e ∈ r :=
  (List.takeWhile_prefix _).subset (List.mem_of_getLast? h)

theorem expire_cases (closeTime : ℕ) (hp : L.publisherLists.lookup p = some c) :
    (expire closeTime p L = L ∧
        ¬(c.status = .available ∧ c.current.validUntil ≤ closeTime)) ∨
      (c.status = .available ∧ Moves p c (removed c .expired) L (expire closeTime p L)) := by
  rw [expire, hp]
  dsimp only
  split_ifs with h
  · exact .inr ⟨h.1, .remove hp .expired⟩
  · exact .inl ⟨rfl, h⟩

theorem cleanUp_cases (s : Loop) :
    cleanUp s = s.lists ∨ ∃ p c, Moves p c
      { c with remaining := tidy c.current.sequence c.remaining } s.lists (cleanUp s) := by
  rw [cleanUp]
  cases s.result.bind (·.publisherKey) with
  | none => exact .inl rfl
  | some p =>
    dsimp only
    cases hp : s.lists.publisherLists.lookup p with
    | none => exact .inl rfl
    | some c => exact .inr ⟨p, c, .keep hp rfl⟩

/-! ### A manifest of a publisher -/

theorem applyManifest_cases (C : ManifestCodec) (cache : ManifestCache) (m : Manifest) :
    (cache.applyManifest C m).2 = .accepted ∧ (cache.applyManifest C m).1 = cache.write m ∨
      (cache.applyManifest C m).2 ≠ .accepted ∧ (cache.applyManifest C m).1 = cache := by
  have hne : ∀ d verified, cache.prewriteCheck m verified = some d → d ≠ .accepted := by
    intro d verified h
    rw [ManifestCache.prewriteCheck] at h
    split_ifs at h <;> first | cases h; decide | skip
    cases hs : m.signingKey with
    | none =>
      simp only [hs] at h
      cases h
      decide
    | some s =>
      simp only [hs] at h
      split_ifs at h <;> cases h <;> decide
  rw [ManifestCache.applyManifest]
  cases hcheck : cache.prewriteCheck m (m.verify C) with
  | some d => exact .inr ⟨hne d _ hcheck, rfl⟩
  | none =>
    rw [ManifestCache.store]
    cases hcheck' : cache.prewriteCheck m true with
    | some d => exact .inr ⟨hne d _ hcheck', rfl⟩
    | none => exact .inl ⟨rfl, rfl⟩

theorem revoked_write {cache : ManifestCache} {m : Manifest} (hk : x ≠ m.masterKey) :
    (cache.write m).revoked x = cache.revoked x := by
  rw [ManifestCache.revoked, ManifestCache.revoked, ManifestCache.write, AList.lookup_insert_ne hk]

theorem revoked_write_self {cache : ManifestCache} {m : Manifest} :
    (cache.write m).revoked m.masterKey = m.revoked := by
  rw [ManifestCache.revoked, ManifestCache.write, AList.lookup_insert]
  rfl

/-- What the manifest in front of a list does: nothing but to the manifests, or a publisher is revoked and
its lists go. -/
theorem applyPublisherManifest_cases {m : Manifest}
    (hp : L.publisherLists.lookup m.masterKey = some c) :
    (∃ cache, (applyPublisherManifest P L m).1 = { L with publisherManifests := cache } ∧
      (∀ x, L.publisherManifests.revoked x = true → cache.revoked x = true) ∧
      ((m.revoked = false ∨ cache = L.publisherManifests) ∧
        ∀ x, cache.revoked x = true → L.publisherManifests.revoked x = true)) ∨
    ∃ cache, m.revoked = true ∧
      (∀ x, L.publisherManifests.revoked x = true → cache.revoked x = true) ∧
      (∀ x, x ≠ m.masterKey → cache.revoked x = L.publisherManifests.revoked x) ∧
      Moves m.masterKey c { removed c .revoked with remaining := [] }
        { L with publisherManifests := cache } (applyPublisherManifest P L m).1 := by
  have hcases := applyManifest_cases P.toManifestCodec L.publisherManifests m
  have hnewer : ∀ x, L.publisherManifests.revoked x = true →
      (L.publisherManifests.applyManifest P.toManifestCodec m).1.revoked x = true := by
    intro x hx
    obtain ⟨old, hold, hrevoked⟩ := ManifestCache.revoked_eq_true.mp hx
    refine ManifestCache.revoked_eq_true.mpr ⟨old, ?_, hrevoked⟩
    rw [ManifestCache.applyManifest]
    cases L.publisherManifests.prewriteCheck m (m.verify P.toManifestCodec) with
    | some d => exact hold
    | none => exact (ManifestCache.newer_store _ m).revoked hold hrevoked
  rw [applyPublisherManifest]
  generalize L.publisherManifests.applyManifest P.toManifestCodec m = r at hcases hnewer
  obtain ⟨cache, result⟩ := r
  dsimp only at hcases hnewer ⊢
  by_cases h : m.revoked = true ∧ result = .accepted
  · right
    have hcache : cache = L.publisherManifests.write m :=
      hcases.elim (fun h => h.2) fun hne => absurd h.2 hne.1
    rw [if_pos h]
    refine ⟨cache, h.1, hnewer, fun x hx => by rw [hcache, revoked_write hx], ?_⟩
    have hremove := Moves.remove (L := { L with publisherManifests := cache }) hp .revoked
    rw [clearRemaining, hremove.after]
    refine ⟨⟨hremove.publisherManifests, hremove.trustedMasterKeys, hremove.trustedSigningKeys,
      hremove.listThreshold, hremove.localPubKey, hremove.localPublisherList⟩, hp, ?_,
      hremove.counts⟩
    change (removePublisherList { L with publisherManifests := cache } _ _).publisherLists.insert _ _ = _
    rw [hremove.lists, AList.insert_insert]
  · left
    rw [if_neg h]
    refine ⟨cache, rfl, hnewer, ?_⟩
    rcases hcases with ⟨haccepted, hcache⟩ | ⟨-, hcache⟩
    · have hrevoked : m.revoked = false := by
        rw [Bool.eq_false_iff]
        exact fun hm => h ⟨hm, haccepted⟩
      refine ⟨.inl hrevoked, fun x hx => ?_⟩
      by_cases hk : x = m.masterKey
      · rw [hk, hcache, revoked_write_self, hrevoked] at hx
        cases hx
      · rwa [hcache, revoked_write hk] at hx
    · exact ⟨.inr hcache, fun x hx => by rwa [hcache] at hx⟩

/-! ### A signed list -/

/-- The manifest that comes with a blob. -/
def manifestOf (P : ListCodec) (globalManifest : Blob) (info : ValidatorBlobInfo) : Option Manifest :=
  deserializeManifest P.toManifestCodec (P.base64Decode (info.manifest.getD globalManifest))

/-- A key has signed a blob. -/
def SignedBy (P : ListCodec) (info : ValidatorBlobInfo) (key : PublicKey) : Prop :=
  ∃ sig, P.strUnHex info.signature = some sig ∧
    P.verifyBlob key (P.base64Decode info.blob) sig = true

/-- A list is taken up: the state after its manifest, the publisher's collection there, what the list is
found to be, and the list. -/
structure TakesUp (P : ListCodec) (now : ℕ) (globalManifest : Blob) (info : ValidatorBlobInfo)
    (L : ValidatorList) (m : Manifest) (c : PublisherListCollection) (d : ListDisposition)
    (list : ListJson) : Prop where
  manifest : manifestOf P globalManifest info = some m
  current : m.revoked = false
  signed : ∃ key, L.publisherManifests.getSigningKey m.masterKey = some key ∧ SignedBy P info key
  parsed : P.parse (P.base64Decode info.blob) = some list
  collection : L.publisherLists.lookup m.masterKey = some c
  disposition : disposition now c list = some d
  good : d.rank ≤ ListDisposition.pending.rank

theorem verifyBlobOf_spec {now : ℕ} {master key : PublicKey} {info : ValidatorBlobInfo}
    {d : ListDisposition} {list : Option ListJson}
    (h : verifyBlobOf P L now master key info.blob info.signature = some (d, list))
    (hd : d.rank ≤ ListDisposition.pending.rank) (hp : L.publisherLists.lookup master = some c) :
    SignedBy P info key ∧ ∃ list', list = some list' ∧
      P.parse (P.base64Decode info.blob) = some list' ∧ disposition now c list' = some d := by
  have hinvalid : some (ListDisposition.invalid, (none : Option ListJson)) ≠ some (d, list) := by
    intro heq
    cases heq
    exact absurd hd (by decide)
  rw [verifyBlobOf] at h
  cases hsig : P.strUnHex info.signature with
  | none =>
    rw [hsig] at h
    exact absurd h hinvalid
  | some sig =>
    rw [hsig] at h
    dsimp only at h
    by_cases hverify : P.verifyBlob key (P.base64Decode info.blob) sig = true
    · rw [if_neg (not_not.mpr hverify), hp] at h
      cases hparse : P.parse (P.base64Decode info.blob) with
      | none =>
        rw [hparse] at h
        exact absurd h hinvalid
      | some list' =>
        rw [hparse] at h
        obtain ⟨d', hd', heq⟩ := Option.map_eq_some_iff.mp h
        cases heq
        exact ⟨⟨sig, hsig, hverify⟩, list', rfl, rfl, hd'⟩
    · rw [if_pos hverify] at h
      exact absurd h hinvalid

theorem lookup_applyPublisherManifest {m : Manifest}
    (hp : L.publisherLists.lookup m.masterKey = some c) :
    ∃ c', (applyPublisherManifest P L m).1.publisherLists.lookup m.masterKey = some c' := by
  rcases applyPublisherManifest_cases (P := P) hp with ⟨cache, heq, -⟩ | ⟨cache, -, -, -, hmoves⟩
  · exact ⟨c, by rw [heq, hp]⟩
  · exact ⟨_, hmoves.after⟩

/-- The list that a blob brings, and its publisher, if it is good now or later. -/
def taken (P : ListCodec) (L : ValidatorList) (now : ℕ) (globalManifest : Blob)
    (info : ValidatorBlobInfo) : Option (PublicKey × ListJson) := do
  let m ← manifestOf P globalManifest info
  let (d, pubKey, list) ← (verify P L now m info.blob info.signature).2
  if d.rank ≤ ListDisposition.pending.rank then return (← pubKey, ← list) else none

theorem verifyBlobOf_eq_none {now : ℕ} {master key : PublicKey} {info : ValidatorBlobInfo}
    (h : verifyBlobOf P L now master key info.blob info.signature = none)
    (hp : L.publisherLists.lookup master = some c) :
    SignedBy P info key ∧ ∃ list, P.parse (P.base64Decode info.blob) = some list ∧
      disposition now c list = none := by
  rw [verifyBlobOf] at h
  cases hsig : P.strUnHex info.signature with
  | none =>
    rw [hsig] at h
    cases h
  | some sig =>
    rw [hsig] at h
    dsimp only at h
    by_cases hverify : P.verifyBlob key (P.base64Decode info.blob) sig = true
    · rw [if_neg (not_not.mpr hverify), hp] at h
      cases hparse : P.parse (P.base64Decode info.blob) with
      | none =>
        rw [hparse] at h
        cases h
      | some list =>
        rw [hparse] at h
        exact ⟨⟨sig, hsig, hverify⟩, list, rfl, Option.map_eq_none_iff.mp h⟩
    · rw [if_pos hverify] at h
      cases h

/-- A blob is refused, or its list has no disposition, which is an exception, or it is taken up. -/
theorem applyList_spec (L : ValidatorList) (now : ℕ) (globalManifest : Blob)
    (info : ValidatorBlobInfo) :
    (taken P L now globalManifest info = none ∧ ∃ stats,
        (applyList P L now globalManifest info).2 = some stats ∧
        ListDisposition.pending.rank < stats.best ∧
        ((applyList P L now globalManifest info).1 = L ∨ ∃ m c,
          manifestOf P globalManifest info = some m ∧ L.publisherLists.lookup m.masterKey = some c ∧
          (applyList P L now globalManifest info).1 = (applyPublisherManifest P L m).1)) ∨
    (∃ m c₀ c key list, manifestOf P globalManifest info = some m ∧
      L.publisherLists.lookup m.masterKey = some c₀ ∧
      (applyList P L now globalManifest info).1 = (applyPublisherManifest P L m).1 ∧
      (applyPublisherManifest P L m).1.publisherManifests.getSigningKey m.masterKey = some key ∧
      SignedBy P info key ∧ P.parse (P.base64Decode info.blob) = some list ∧
      (applyPublisherManifest P L m).1.publisherLists.lookup m.masterKey = some c ∧
      disposition now c list = none) ∨
    ∃ m c c' d list, L.publisherLists.lookup m.masterKey = some c ∧
      taken P L now globalManifest info = some (m.masterKey, list) ∧
      TakesUp P now globalManifest info (applyPublisherManifest P L m).1 m c' d list ∧
      applyList P L now globalManifest info =
        ((acceptList P (applyPublisherManifest P L m).1 m.masterKey c' d list).1,
          some (acceptList P (applyPublisherManifest P L m).1 m.masterKey c' d list).2) := by
  rw [applyList, taken, manifestOf]
  cases hm : deserializeManifest P.toManifestCodec
    (P.base64Decode (info.manifest.getD globalManifest)) with
  | none => exact .inl ⟨rfl, _, rfl, by decide, .inl rfl⟩
  | some m =>
    simp only [Option.bind_eq_bind, Option.bind_some]
    rw [verify]
    cases hp : L.publisherLists.lookup m.masterKey with
    | none => exact .inl ⟨rfl, _, rfl, by decide, .inl rfl⟩
    | some c =>
      obtain ⟨c', hp'⟩ := lookup_applyPublisherManifest (P := P) hp
      simp only [Option.isNone_some, Bool.false_eq_true, if_false]
      cases hkey : (applyPublisherManifest P L m).1.publisherManifests.getSigningKey m.masterKey with
      | none =>
        simp only [hp', Option.bind_some]
        rw [if_neg (by decide), if_pos (by decide)]
        refine .inl ⟨rfl, ?_⟩
        cases c'.maxSequence <;> exact ⟨_, rfl, by decide, .inr ⟨m, c, rfl, hp, rfl⟩⟩
      | some key =>
        by_cases huntrusted : m.revoked = true ∨ (applyPublisherManifest P L m).2 = .invalid
        · simp only [if_pos huntrusted, hp', Option.bind_some]
          rw [if_neg (by decide), if_pos (by decide)]
          refine .inl ⟨rfl, ?_⟩
          cases c'.maxSequence <;> exact ⟨_, rfl, by decide, .inr ⟨m, c, rfl, hp, rfl⟩⟩
        · have hrevoked : m.revoked = false := by
            rw [Bool.eq_false_iff]
            exact fun h => huntrusted (.inl h)
          simp only [if_neg huntrusted]
          cases hblob : verifyBlobOf P (applyPublisherManifest P L m).1 now m.masterKey key info.blob
            info.signature with
          | none =>
            obtain ⟨hsigned, list, hparse, hdisp⟩ := verifyBlobOf_eq_none hblob hp'
            exact .inr (.inl ⟨m, c, c', key, list, rfl, hp, rfl, hkey, hsigned, hparse, hp', hdisp⟩)
          | some r =>
            obtain ⟨d, list⟩ := r
            simp only [Option.map_some, hp', Option.bind_some]
            by_cases hd : ListDisposition.pending.rank < d.rank
            · rw [if_neg (not_le.mpr hd), if_pos hd]
              refine .inl ⟨rfl, ?_⟩
              have hbest : ∀ key status sequence, ListDisposition.pending.rank <
                  PublisherListStats.best ⟨[d], key, status, sequence⟩ := fun _ _ _ =>
                lt_min (by decide) hd
              cases c'.maxSequence with
              | none => exact ⟨_, rfl, hbest _ _ _, .inr ⟨m, c, rfl, hp, rfl⟩⟩
              | some maxSequence =>
                dsimp only
                split_ifs
                · exact ⟨_, rfl, hbest _ _ _, .inr ⟨m, c, rfl, hp, rfl⟩⟩
                · exact ⟨_, rfl, hbest _ _ _, .inr ⟨m, c, rfl, hp, rfl⟩⟩
            · obtain ⟨hsigned, list', rfl, hparse, hdisp⟩ :=
                verifyBlobOf_spec hblob (not_lt.mp hd) hp'
              rw [if_pos (not_lt.mp hd), if_neg hd]
              exact .inr (.inr ⟨m, c, c', d, list', hp, rfl,
                ⟨hm, hrevoked, ⟨key, hkey, hsigned⟩, hparse, hp', hdisp, not_lt.mp hd⟩, rfl⟩)

/-- A blob does nothing, or no more than its manifest does, or its list is taken up. -/
theorem applyList_cases (L : ValidatorList) (now : ℕ) (globalManifest : Blob)
    (info : ValidatorBlobInfo) :
    (applyList P L now globalManifest info).1 = L ∨
      ∃ m c, L.publisherLists.lookup m.masterKey = some c ∧
        ((applyList P L now globalManifest info).1 = (applyPublisherManifest P L m).1 ∨
          ∃ c' d list, TakesUp P now globalManifest info (applyPublisherManifest P L m).1 m c' d list ∧
            (applyList P L now globalManifest info).1 =
              (acceptList P (applyPublisherManifest P L m).1 m.masterKey c' d list).1) := by
  rcases applyList_spec (P := P) L now globalManifest info with
    ⟨-, _, -, -, heq | ⟨m, c, -, hp, heq⟩⟩ | ⟨m, c, -, -, -, -, hp, heq, -⟩ |
    ⟨m, c, c', d, list, hp, -, htakes, heq⟩
  · exact .inl heq
  · exact .inr ⟨m, c, hp, .inl heq⟩
  · exact .inr ⟨m, c, hp, .inl heq⟩
  · exact .inr ⟨m, c, hp, .inr ⟨c', d, list, htakes, by rw [heq]⟩⟩

/-! ### Invariants of the lists -/

/-- An invariant that says, of each publisher, something of its collection and of whether its key is
revoked. -/
def Each (Q : Bool → PublisherListCollection → Prop) (L : ValidatorList) : Prop :=
  ∀ p c, L.publisherLists.lookup p = some c → Q (L.publisherManifests.revoked p) c

variable {Q : Bool → PublisherListCollection → Prop}

theorem Each.moves (h : Each Q L) (hmoves : Moves p c c' L L')
    (hc : Q (L.publisherManifests.revoked p) c → Q (L.publisherManifests.revoked p) c') :
    Each Q L' := by
  intro x cx hx
  rw [hmoves.lists] at hx
  rw [hmoves.publisherManifests]
  by_cases hxp : x = p
  · subst hxp
    rw [AList.lookup_insert] at hx
    rw [← Option.some.inj hx]
    exact hc (h x c hmoves.before)
  · rw [AList.lookup_insert_ne hxp] at hx
    exact h x cx hx

theorem applyLists_eq (L : ValidatorList) (now : ℕ) (manifest : Blob) (version : ℕ)
    (blobs : List ValidatorBlobInfo) :
    version ∉ kSupportedListVersions ∧ applyLists P L now manifest version blobs = L ∨
      version ∈ kSupportedListVersions ∧ applyLists P L now manifest version blobs =
        cleanUp (Run.final (applyBlob P now manifest) (.start L) blobs) := by
  have hfold : ∀ s, blobs.foldl (fun s info => (applyBlob P now manifest s info).1) s =
      Run.final (applyBlob P now manifest) s blobs := by
    induction blobs with
    | nil => exact fun s => rfl
    | cons info blobs ih => exact fun s => ih _
  rw [applyLists]
  by_cases h : version ∈ kSupportedListVersions
  · rw [if_neg (not_not.mpr h), hfold]
    exact .inr ⟨h, rfl⟩
  · rw [if_pos h]
    exact .inl ⟨h, rfl⟩

theorem applyBlob_lists (now : ℕ) (manifest : Blob) (s : Loop) (info : ValidatorBlobInfo) :
    (applyBlob P now manifest s info).1.lists = s.lists ∨ s.result.isSome ∧
      (applyBlob P now manifest s info).1.lists = (applyList P s.lists now manifest info).1 := by
  rw [applyBlob]
  cases s.result with
  | none => exact .inl rfl
  | some result =>
    right
    cases applyList P s.lists now manifest info with
    | mk L' stats =>
      cases stats with
      | none => exact ⟨rfl, rfl⟩
      | some stats =>
        refine ⟨rfl, ?_⟩
        dsimp only
        split_ifs <;> rfl

/-- A condition on the blobs of a call, each in the state it comes to. -/
def BlobsMeet (P : ListCodec) (C : ℕ → Blob → ValidatorList → ValidatorBlobInfo → Prop)
    (L : ValidatorList) : Action → Prop
  | .applyLists now manifest version blobs => version ∈ kSupportedListVersions →
    Run.Always (applyBlob P now manifest)
      (fun s info => s.result.isSome → C now manifest s.lists info) (.start L) blobs
  | .updateTrusted _ _ => True

/-- What blobs that meet a condition keep, and what becomes of the collections otherwise. -/
structure KeptByLists (P : ListCodec) (C : ℕ → Blob → ValidatorList → ValidatorBlobInfo → Prop)
    (Inv : ValidatorList → Prop) : Prop where
  blob : ∀ {L now manifest info}, Inv L → C now manifest L info →
    Inv (applyList P L now manifest info).1
  rotate : ∀ {L L' p c closeTime e}, Inv L → e ∈ c.remaining →
    Moves p c (rotated closeTime c e.2) L L' → Inv L'
  expire : ∀ {L L' p c}, Inv L → c.status = .available → Moves p c (removed c .expired) L L' → Inv L'
  tidy : ∀ {L L' p c}, Inv L →
    Moves p c { c with remaining := tidy c.current.sequence c.remaining } L L' → Inv L'

/-- It is kept by what `updateTrusted` does after its loop as well. -/
structure Kept (P : ListCodec) (C : ℕ → Blob → ValidatorList → ValidatorBlobInfo → Prop)
    (Inv : ValidatorList → Prop) : Prop extends KeptByLists P C Inv where
  trust : ∀ {L}, Inv L → Inv L.trust

variable {C : ℕ → Blob → ValidatorList → ValidatorBlobInfo → Prop} {Inv : ValidatorList → Prop}

theorem KeptByLists.refresh (h : KeptByLists P C Inv) (hL : Inv L) (closeTime : ℕ)
    (p : PublicKey) : Inv (refresh P closeTime L p) := by
  rw [ValidatorList.refresh]
  cases hp : L.publisherLists.lookup p with
  | none => exact hL
  | some c =>
    have hrotate : Inv (ValidatorList.rotate P closeTime p L c) ∧
        ∃ c', (ValidatorList.rotate P closeTime p L c).publisherLists.lookup p = some c' := by
      rcases rotate_cases (P := P) closeTime hp with ⟨heq, -⟩ | ⟨e, he, hmoves⟩
      · rw [heq]
        exact ⟨hL, c, hp⟩
      · exact ⟨h.rotate hL (mem_of_due he) hmoves, _, hmoves.after⟩
    obtain ⟨hrotated, c', hp'⟩ := hrotate
    dsimp only
    rcases expire_cases closeTime hp' with ⟨heq, -⟩ | ⟨hstatus, hmoves⟩
    · rwa [heq]
    · exact h.expire hrotated hstatus hmoves

theorem KeptByLists.refreshAll (h : KeptByLists P C Inv) (hL : Inv L) (closeTime : ℕ) :
    Inv (refreshAll P closeTime L) := by
  rw [ValidatorList.refreshAll]
  generalize L.publisherLists.keys = keys
  induction keys generalizing L with
  | nil => exact hL
  | cons p keys ih => exact ih (h.refresh hL closeTime p)

theorem KeptByLists.applyLists (h : KeptByLists P C Inv) (hL : Inv L) {now version : ℕ}
    {manifest : Blob} {blobs : List ValidatorBlobInfo}
    (ha : BlobsMeet P C L (.applyLists now manifest version blobs)) :
    Inv (applyLists P L now manifest version blobs) := by
  rcases applyLists_eq (P := P) L now manifest version blobs with ⟨-, heq⟩ | ⟨hversion, heq⟩
  · rwa [heq]
  · rw [heq]
    have hloop : Inv (Run.final (applyBlob P now manifest) (.start L) blobs).lists := by
      refine Run.invariant (fun s : Loop => Inv s.lists) ?_ hL (ha hversion)
      intro s info hs hinfo
      rcases applyBlob_lists (P := P) now manifest s info with heq | ⟨hresult, heq⟩
      · rwa [heq]
      · rw [heq]
        exact h.blob hs (hinfo hresult)
    rcases cleanUp_cases (Run.final (applyBlob P now manifest) (.start L) blobs) with heq |
      ⟨p, c, hmoves⟩
    · rwa [heq]
    · exact h.tidy hloop hmoves

theorem Kept.step (h : Kept P C Inv) (hL : Inv L) {a : Action} (ha : BlobsMeet P C L a) :
    Inv (step P L a).1 := by
  cases a with
  | applyLists now manifest version blobs => exact h.applyLists hL ha
  | updateTrusted closeTime now => exact h.trust (h.refreshAll hL _)

theorem Kept.final (h : Kept P C Inv) (hL : Inv L) {actions : List Action}
    (ha : Run.Always (ValidatorList.step P) (BlobsMeet P C) L actions) :
    Inv (Run.final (ValidatorList.step P) L actions) :=
  Run.invariant Inv (fun _ _ hL ha => h.step hL ha) hL ha

theorem blobsMeet_true (L : ValidatorList) (a : Action) :
    BlobsMeet P (fun _ _ _ _ => True) L a := by
  cases a with
  | applyLists now manifest version blobs =>
    exact fun _ => Run.always_of_forall fun _ _ _ => trivial
  | updateTrusted closeTime now => trivial

/-! ### The counts -/

/-- What the configuration gives to a key. -/
def base (L : ValidatorList) (k : PublicKey) : ℕ :=
  if some k = L.localPubKey ∨ k ∈ L.localPublisherList then L.listThreshold else 0

/-- How often a key is on a current list. -/
def occurs (k : PublicKey) (c : PublisherListCollection) : ℤ := c.current.list.count k

/-- The counts are what the configuration and the current lists say. -/
def Counted (L : ValidatorList) : Prop :=
  ∀ k, (listings L.keyListings k : ℤ) = base L k + Table.total (occurs k) L.publisherLists

theorem base_frame (h : Frame L L') : base L' = base L := by
  funext k
  rw [base, base, h.listThreshold, h.localPubKey, h.localPublisherList]

theorem listings_empty : listings ∅ k = 0 := rfl

theorem Counted.count_le (h : Counted L) (hp : L.publisherLists.lookup p = some c)
    (k : PublicKey) : c.current.list.count k ≤ listings L.keyListings k := by
  have hle := Table.weightAt_le_total (w := occurs k) (fun c => Int.natCast_nonneg _)
    L.publisherLists p
  rw [Table.weightAt_of_lookup hp, occurs] at hle
  have hk := h k
  omega

theorem Counted.moves (h : Counted L) (hmoves : Moves p c c' L L') : Counted L' := by
  intro k
  have hcounts := hmoves.counts k (h.count_le hmoves.before k)
  have hk := h k
  rw [base_frame hmoves.toFrame, hmoves.lists, Table.total_insert,
    Table.weightAt_of_lookup hmoves.before, occurs, occurs]
  omega

theorem Counted.manifest {m : Manifest} (h : Counted L)
    (hp : L.publisherLists.lookup m.masterKey = some c) :
    Counted (applyPublisherManifest P L m).1 := by
  rcases applyPublisherManifest_cases (P := P) hp with ⟨cache, heq, -⟩ | ⟨cache, -, -, -, hmoves⟩
  · rw [heq]
    exact h
  · exact Counted.moves (L := { L with publisherManifests := cache }) h hmoves

theorem Counted.applyList (h : Counted L) (now : ℕ) (manifest : Blob) (info : ValidatorBlobInfo) :
    Counted (applyList P L now manifest info).1 := by
  rcases applyList_cases (P := P) L now manifest info with heq | ⟨m, c, hp, heq | ⟨c', d, list,
    htakes, heq⟩⟩
  · rwa [heq]
  · rw [heq]
    exact h.manifest hp
  · rw [heq]
    exact (h.manifest hp).moves (.accept htakes.collection d list)

theorem counted_kept : Kept P C Counted where
  blob h _ := h.applyList _ _ _
  rotate h _ hmoves := h.moves hmoves
  expire h _ hmoves := h.moves hmoves
  tidy h hmoves := h.moves hmoves
  trust h := h

theorem Counted.final (h : Counted L) (actions : List Action) :
    Counted (Run.final (step P) L actions) :=
  counted_kept.final h (Run.always_of_forall blobsMeet_true)

/-! ### Loading -/

variable {validatorManifests publisherManifests : ManifestCache} {config : Config}

theorem lookup_loadPublishers (keys : List PublicKey) (t : Table PublicKey PublisherListCollection)
    (ht : ∀ p c, t.lookup p = some c →
      c = ⟨if publisherManifests.revoked p then .revoked else .unavailable, .empty, [], none⟩)
    (hp : (keys.foldl (loadPublisher publisherManifests) t).lookup p = some c) :
    c = ⟨if publisherManifests.revoked p then .revoked else .unavailable, .empty, [], none⟩ := by
  induction keys generalizing t with
  | nil => exact ht p c hp
  | cons id keys ih =>
    refine ih (loadPublisher publisherManifests t id) (fun p c hpc => ?_) hp
    rw [loadPublisher] at hpc
    by_cases hid : (t.lookup id).isSome
    · rw [if_pos hid] at hpc
      exact ht p c hpc
    · rw [if_neg hid] at hpc
      by_cases hpid : p = id
      · subst hpid
        rw [AList.lookup_insert] at hpc
        exact (Option.some.inj hpc).symm
      · rw [AList.lookup_insert_ne hpid] at hpc
        exact ht p c hpc

theorem foldl_loadKey (localSigningKey : Option PublicKey) (keys : List PublicKey)
    (hL : ∀ k, listings L.keyListings k = base L k) :
    (∀ k, listings (keys.foldl (loadKey localSigningKey) L).keyListings k =
      base (keys.foldl (loadKey localSigningKey) L) k) ∧
      ∃ keyListings localPublisherList, keys.foldl (loadKey localSigningKey) L =
        { L with keyListings, localPublisherList } := by
  induction keys generalizing L with
  | nil => exact ⟨hL, _, _, rfl⟩
  | cons id keys ih =>
    have hone : (∀ k, listings (loadKey localSigningKey L id).keyListings k =
        base (loadKey localSigningKey L id) k) ∧ ∃ keyListings localPublisherList,
          loadKey localSigningKey L id = { L with keyListings, localPublisherList } := by
      rw [loadKey]
      split_ifs with hlocal hlisted
      · exact ⟨hL, _, _, rfl⟩
      · exact ⟨hL, _, _, rfl⟩
      · refine ⟨fun k => ?_, _, _, rfl⟩
        have hk := hL k
        rw [base] at hk ⊢
        rw [listings_insert, hk]
        by_cases hkid : k = id <;> simp [hkid]
    obtain ⟨hcounts, hlistings, hlist, heq⟩ := hone
    obtain ⟨hcounts', hlistings', hlist', heq'⟩ := ih hcounts
    refine ⟨hcounts', hlistings', hlist', ?_⟩
    rw [List.foldl_cons, heq', heq]

theorem thresholdOf_pos (listThreshold : Option ℕ+) (size : ℕ) :
    0 < thresholdOf listThreshold size := by
  cases listThreshold with
  | some n => exact n.pos
  | none =>
    rw [thresholdOf]
    split_ifs
    · exact Nat.one_pos
    · exact Nat.succ_pos _

theorem load_spec (validatorManifests publisherManifests : ManifestCache) (config : Config) :
    (∀ k, listings (load validatorManifests publisherManifests config).keyListings k =
      base (load validatorManifests publisherManifests config) k) ∧
    (∀ p c, (load validatorManifests publisherManifests config).publisherLists.lookup p = some c →
      c = ⟨if publisherManifests.revoked p then .revoked else .unavailable, .empty, [], none⟩) ∧
    (load validatorManifests publisherManifests config).publisherManifests = publisherManifests ∧
    (load validatorManifests publisherManifests config).validatorManifests = validatorManifests ∧
    (load validatorManifests publisherManifests config).trustedMasterKeys = ∅ ∧
    (load validatorManifests publisherManifests config).trustedSigningKeys = ∅ ∧
    0 < (load validatorManifests publisherManifests config).listThreshold := by
  have hstart : ∀ k, listings (loadPublishers validatorManifests publisherManifests config).keyListings k
      = base (loadPublishers validatorManifests publisherManifests config) k := by
    intro k
    rw [base, loadPublishers]
    dsimp only
    cases config.localSigningKey.map validatorManifests.getMasterKey with
    | none => simp [listings_empty]
    | some localPubKey =>
      rw [Option.elim_some, listings_insert, listings_empty]
      simp
  obtain ⟨hcounts, keyListings, localPublisherList, heq⟩ :=
    foldl_loadKey config.localSigningKey config.configKeys hstart
  refine ⟨hcounts, ?_⟩
  rw [load, heq]
  refine ⟨fun p c hp => ?_, rfl, rfl, rfl, rfl, ?_⟩
  · exact lookup_loadPublishers config.publisherKeys ∅ (fun _ _ h => by cases h) hp
  · exact thresholdOf_pos _ _

theorem counted_load : Counted (load validatorManifests publisherManifests config) := by
  obtain ⟨hcounts, hlists, -⟩ := load_spec validatorManifests publisherManifests config
  intro k
  rw [hcounts, Table.total_eq_zero, add_zero]
  intro p c hp
  rw [occurs, hlists p c hp]
  rfl

/-! ### A small configuration -/

/-- The key of thirty-two equal bytes. -/
def Sample.key (n : UInt8) : PublicKey :=
  ⟨0xED :: List.replicate 32 n, by simp [publicKeyType]⟩

/-- A manifest that gives a signing key to a key. -/
def Sample.regular (master signing : PublicKey) (sequence : UInt32) : ManifestFields :=
  ⟨master.slice, master.slice, sequence, none, none, some signing.slice, some signing.slice⟩

/-- A manifest of a publisher and its revocation, and two manifests of a validator. -/
def Sample.manifest : Blob → Option ManifestFields
  | [1] => some (Sample.regular (key 0) (key 1) 1)
  | [2] => some ⟨(key 0).slice, (key 0).slice, 0xFFFFFFFF, none, none, none, none⟩
  | [3] => some (Sample.regular (key 5) (key 6) 1)
  | [4] => some (Sample.regular (key 5) (key 7) 2)
  | _ => none

/-- A list of entries, good until the hundredth second. -/
def Sample.list (sequence : ℤ) (entries : List (PublicKey × Option Blob)) : ListJson :=
  ⟨some sequence, some 100, none, some (entries.map fun e => ⟨some e.1.slice, e.2⟩)⟩

/-- A validator, the same one twice, and the same one with the one manifest and with the other. -/
def Sample.parse : Blob → Option ListJson
  | [9] => some (Sample.list 1 [(key 5, none)])
  | [10] => some (Sample.list 1 [(key 5, none), (key 5, none)])
  | [11] => some (Sample.list 1 [(key 5, some [3])])
  | [12] => some (Sample.list 2 [(key 5, some [4])])
  | _ => none

/-- Encodings that change nothing, and keys that sign with their own bytes. -/
def Sample.codec : ListCodec where
  fields := Sample.manifest
  isProperlyFormedTomlDomain _ := true
  verify _ key signature := signature = key.slice
  base64Decode := id
  strUnHex := some
  verifyBlob key _ signature := signature = key.slice
  parse := Sample.parse

/-- A list, signed by a key and sent with a manifest. -/
def Sample.send (now : ℕ) (manifest list : Blob) (signer : PublicKey) : Action :=
  .applyLists now manifest 1 [⟨list, signer.slice, none⟩]

end FalconLedger.ValidatorList
