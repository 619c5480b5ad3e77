import FalconLedger.Properties.PublisherLists

/-!
# Revoked publishers

A revocation takes a publisher's lists away. The signing key that the cache gives for a revoked
master key is the master key itself, and an old manifest is stale and not invalid, so that a list
signed with the revoked master key is taken up.
-/

namespace FalconLedger.ValidatorList

variable {P : ListCodec} {L L' : ValidatorList} {p k x : PublicKey} {c c' : PublisherListCollection}

/-- Nothing is left of a publisher. -/
structure Gone (c : PublisherListCollection) : Prop where
  status : c.status = .revoked
  list : c.current.list = []
  remaining : c.remaining = []

/-- Nothing is left of the publishers whose keys are revoked. -/
def RevokedGone : ValidatorList → Prop := Each fun revoked c => revoked = true → Gone c

/-- A blob that comes with a manifest that is no revocation, signed with a master key that is revoked. -/
def Forged (P : ListCodec) (globalManifest : Blob) (L : ValidatorList) (info : ValidatorBlobInfo) :
    Prop :=
  ∃ m, manifestOf P globalManifest info = some m ∧ m.revoked = false ∧
    L.publisherManifests.revoked m.masterKey = true ∧ SignedBy P info m.masterKey

theorem getSigningKey_of_revoked {cache : ManifestCache} (h : cache.revoked k = true) :
    cache.getSigningKey k = some k := by
  obtain ⟨m, hm, hrevoked⟩ := ManifestCache.revoked_eq_true.mp h
  have hcurrent : cache.current k = none := by
    rw [ManifestCache.current, hm, Option.filter_some, hrevoked]
    rfl
  rw [ManifestCache.getSigningKey, hcurrent]

theorem RevokedGone.manifest {m : Manifest} (h : RevokedGone L)
    (hp : L.publisherLists.lookup m.masterKey = some c) :
    RevokedGone (applyPublisherManifest P L m).1 := by
  rcases applyPublisherManifest_cases (P := P) hp with ⟨cache, heq, -, -, hold⟩ |
    ⟨cache, -, -, hother, hmoves⟩
  · rw [heq]
    exact fun x cx hx hrevoked => h x cx hx (hold x hrevoked)
  · intro x cx hx hrevoked
    rw [hmoves.lists] at hx
    rw [hmoves.publisherManifests] at hrevoked
    by_cases hxp : x = m.masterKey
    · subst hxp
      rw [AList.lookup_insert] at hx
      rw [← Option.some.inj hx]
      exact ⟨rfl, rfl, rfl⟩
    · rw [AList.lookup_insert_ne hxp] at hx
      exact h x cx hx ((hother x hxp).symm.trans hrevoked)

theorem not_revoked_of_takesUp {now : ℕ} {manifest : Blob} {info : ValidatorBlobInfo} {m : Manifest}
    {d : ListDisposition} {list : ListJson} (hp : L.publisherLists.lookup m.masterKey = some c)
    (hforged : ¬Forged P manifest L info)
    (h : TakesUp P now manifest info (applyPublisherManifest P L m).1 m c' d list) :
    (applyPublisherManifest P L m).1.publisherManifests.revoked m.masterKey ≠ true := by
  intro hrevoked
  obtain ⟨key, hkey, hsigned⟩ := h.signed
  rw [getSigningKey_of_revoked hrevoked] at hkey
  obtain rfl := Option.some.inj hkey
  rcases applyPublisherManifest_cases (P := P) hp with ⟨cache, heq, -, -, hold⟩ | ⟨cache, hm, -⟩
  · rw [heq] at hrevoked
    exact hforged ⟨m, h.manifest, h.current, hold _ hrevoked, hsigned⟩
  · rw [h.current] at hm
    cases hm

theorem RevokedGone.applyList (h : RevokedGone L) (now : ℕ) {manifest : Blob}
    {info : ValidatorBlobInfo} (hforged : ¬Forged P manifest L info) :
    RevokedGone (applyList P L now manifest info).1 := by
  rcases applyList_cases (P := P) L now manifest info with heq | ⟨m, c, hp, heq | ⟨c', d, list,
    htakes, heq⟩⟩
  · rwa [heq]
  · rw [heq]
    exact h.manifest hp
  · rw [heq]
    have hnot := not_revoked_of_takesUp hp hforged htakes
    exact Each.moves (h.manifest hp) (.accept htakes.collection d list)
      fun _ hrevoked => absurd hrevoked hnot

/-- No blob of a call is forged, in the state it comes to. -/
def Unforged (P : ListCodec) : ValidatorList → Action → Prop :=
  BlobsMeet P fun _ manifest L info => ¬Forged P manifest L info

theorem revokedGone_kept :
    Kept P (fun _ manifest L info => ¬Forged P manifest L info) RevokedGone where
  blob h hforged := h.applyList _ hforged
  rotate h he hmoves := by
    refine Each.moves h hmoves fun hgone hrevoked => ?_
    rw [(hgone hrevoked).remaining] at he
    cases he
  expire h hstatus hmoves := by
    refine Each.moves h hmoves fun hgone hrevoked => ?_
    rw [(hgone hrevoked).status] at hstatus
    cases hstatus
  tidy h hmoves := by
    refine Each.moves h hmoves fun hgone hrevoked => ?_
    obtain ⟨hstatus, hlist, hremaining⟩ := hgone hrevoked
    exact ⟨hstatus, hlist, by simp only [hremaining, tidy]⟩
  trust h := h

/-! ### Revocations stay -/

/-- A key that is revoked stays revoked, and no publisher is taken off the configuration. -/
structure Later (L L' : ValidatorList) : Prop where
  revoked : ∀ x, L.publisherManifests.revoked x = true → L'.publisherManifests.revoked x = true
  configured : ∀ x, (L.publisherLists.lookup x).isSome → (L'.publisherLists.lookup x).isSome

theorem Later.refl (L : ValidatorList) : Later L L := ⟨fun _ h => h, fun _ h => h⟩

theorem Later.trans {L'' : ValidatorList} (h : Later L L') (h' : Later L' L'') : Later L L'' :=
  ⟨fun x hx => h'.revoked x (h.revoked x hx), fun x hx => h'.configured x (h.configured x hx)⟩

theorem Moves.later (h : Moves p c c' L L') : Later L L' := by
  refine ⟨fun x hx => by rwa [h.publisherManifests], fun x hx => ?_⟩
  rw [h.lists]
  by_cases hxp : x = p
  · subst hxp
    rw [AList.lookup_insert]
    rfl
  · rwa [AList.lookup_insert_ne hxp]

theorem later_manifest {m : Manifest} (hp : L.publisherLists.lookup m.masterKey = some c) :
    Later L (applyPublisherManifest P L m).1 := by
  rcases applyPublisherManifest_cases (P := P) hp with ⟨cache, heq, hnew, -⟩ |
    ⟨cache, -, hnew, -, hmoves⟩
  · rw [heq]
    exact ⟨hnew, fun _ h => h⟩
  · have hkept : Later L { L with publisherManifests := cache } := ⟨hnew, fun _ h => h⟩
    exact hkept.trans hmoves.later

theorem later_applyList (L : ValidatorList) (now : ℕ) (manifest : Blob) (info : ValidatorBlobInfo) :
    Later L (applyList P L now manifest info).1 := by
  rcases applyList_cases (P := P) L now manifest info with heq | ⟨m, c, hp, heq | ⟨c', d, list,
    htakes, heq⟩⟩
  · rw [heq]
    exact .refl L
  · rw [heq]
    exact later_manifest hp
  · rw [heq]
    exact (later_manifest hp).trans (Moves.accept htakes.collection d list).later

theorem later_kept (L : ValidatorList) : Kept P (fun _ _ _ _ => True) (Later L) where
  blob h _ := h.trans (later_applyList _ _ _ _)
  rotate h _ hmoves := h.trans hmoves.later
  expire h _ hmoves := h.trans hmoves.later
  tidy h hmoves := h.trans hmoves.later
  trust h := ⟨h.revoked, h.configured⟩

theorem later_final (L : ValidatorList) (actions : List Action) :
    Later L (Run.final (step P) L actions) :=
  (later_kept L).final (.refl L) (Run.always_of_forall blobsMeet_true)

/-! ### Revocation is final -/

theorem revokedGone_load (validatorManifests publisherManifests : ManifestCache) (config : Config) :
    RevokedGone (load validatorManifests publisherManifests config) := by
  obtain ⟨-, hlists, hmanifests, -⟩ := load_spec validatorManifests publisherManifests config
  intro p c hp hrevoked
  rw [hmanifests] at hrevoked
  rw [hlists p c hp, hrevoked]
  exact ⟨rfl, rfl, rfl⟩

/-- A revocation is final: in a run without forged blobs, a publisher whose key is revoked at some time is
revoked from then on, has no list and no list to come, and none of its keys is counted. -/
theorem revocation_run (P : ListCodec) (validatorManifests publisherManifests : ManifestCache)
    (config : Config) (before after : List Action) (p : PublicKey)
    (hrun : Run.Always (step P) (Unforged P) (load validatorManifests publisherManifests config)
      (before ++ after)) :
    let L₀ := load validatorManifests publisherManifests config
    let L₁ := Run.final (step P) L₀ before
    let L₂ := Run.final (step P) L₀ (before ++ after)
    (L₁.publisherLists.lookup p).isSome → L₁.publisherManifests.revoked p = true →
      ∃ c, L₂.publisherLists.lookup p = some c ∧ c.status = .revoked ∧ c.current.list = [] ∧
        c.remaining = [] ∧ L₂.publisherManifests.revoked p = true ∧
        ∀ k, (listings L₂.keyListings k : ℤ) =
          base L₂ k + Table.total (occurs k) (L₂.publisherLists.erase p) := by
  intro L₀ L₁ L₂ hconfigured hrevoked
  have hlater : Later L₁ L₂ := by
    have h := later_final (P := P) L₁ after
    rwa [← Run.final_append] at h
  obtain ⟨c, hc⟩ := Option.isSome_iff_exists.mp (hlater.configured p hconfigured)
  have hgone : RevokedGone L₂ := revokedGone_kept.final (revokedGone_load _ _ _) hrun
  obtain ⟨hstatus, hlist, hremaining⟩ := hgone p c hc (hlater.revoked p hrevoked)
  refine ⟨c, hc, hstatus, hlist, hremaining, hlater.revoked p hrevoked, fun k => ?_⟩
  have hcounted : Counted L₂ := counted_load.final _
  rw [hcounted k, Table.total_erase, Table.weightAt_of_lookup hc, occurs, hlist]
  simp

/-- After the revocation a list that is signed with the signing key is refused. -/
theorem revocation_run_refused : ∃ c,
    (Run.final (step Sample.codec) (load .empty .empty ⟨none, [], [Sample.key 0], none⟩)
      ([Sample.send 10 [2] [9] (Sample.key 1)] ++ [Sample.send 10 [1] [9] (Sample.key 1)])).publisherLists.lookup
        (Sample.key 0) = some c ∧ c.status = .revoked ∧ c.current.list = [] := by
  have hunsigned : ∀ L, L.publisherManifests.revoked (Sample.key 1) = false → ∀ manifest,
      ¬Forged Sample.codec manifest L ⟨[9], (Sample.key 1).slice, none⟩ := by
    rintro L hL manifest ⟨m, -, -, hrevoked, sig, hsig, hverify⟩
    obtain rfl := Option.some.inj hsig
    rw [← PublicKey.slice_injective (of_decide_eq_true hverify), hL] at hrevoked
    cases hrevoked
  obtain ⟨c, hc, hstatus, hlist, -⟩ := revocation_run Sample.codec .empty .empty
    ⟨none, [], [Sample.key 0], none⟩ [Sample.send 10 [2] [9] (Sample.key 1)]
    [Sample.send 10 [1] [9] (Sample.key 1)] (Sample.key 0)
    ⟨fun _ => ⟨fun _ => hunsigned _ (by decide +kernel) _, trivial⟩,
      fun _ => ⟨fun _ => hunsigned _ (by decide +kernel) _, trivial⟩, trivial⟩
    (by decide +kernel) (by decide +kernel)
  exact ⟨c, hc, hstatus, hlist⟩

/-- After the revocation a list that is signed with the revoked key and comes with the old manifest is
taken up, and the publisher is available. -/
theorem revocation_run_forged :
    let L₁ := Run.final (step Sample.codec)
      (load .empty .empty ⟨none, [], [Sample.key 0], none⟩) [Sample.send 10 [2] [9] (Sample.key 0)]
    let L₂ := Run.final (step Sample.codec) L₁ [Sample.send 10 [1] [9] (Sample.key 0)]
    L₁.publisherManifests.revoked (Sample.key 0) = true ∧
      (L₁.publisherLists.lookup (Sample.key 0)).map (·.status) = some .revoked ∧
      L₂.publisherManifests.revoked (Sample.key 0) = true ∧
      (L₂.publisherLists.lookup (Sample.key 0)).map (·.status) = some .available ∧
      listings L₂.keyListings (Sample.key 5) = 1 := by
  decide +kernel

end FalconLedger.ValidatorList
