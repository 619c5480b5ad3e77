import FalconLedger.Properties.PublisherLists

/-!
# Listings and trust

The count of a key is a count of occurrences. It is a count of publishers where no list names a key
twice and no list is taken up that has expired already; the second leaves a list counted that is not
available.
-/

namespace FalconLedger.ValidatorList

variable {P : ListCodec} {L L' : ValidatorList} {p k x : PublicKey} {c c' : PublisherListCollection}

/-! ### One listing for each publisher -/

/-- A collection whose lists name each key once, and which has no list unless it is available. -/
structure Plain (c : PublisherListCollection) : Prop where
  nodup : c.current.list.Nodup
  later : ∀ e ∈ c.remaining, e.2.list.Nodup
  unavailable : c.status ≠ .available → c.current.list = []

/-- All collections are plain. -/
def AllPlain : ValidatorList → Prop := Each fun _ c => Plain c

/-- A list that is taken up has not expired, and names each key once, or else is known already. -/
def Proper (P : ListCodec) (now : ℕ) (manifest : Blob) (L : ValidatorList)
    (info : ValidatorBlobInfo) : Prop :=
  ∀ m c d list, TakesUp P now manifest info (applyPublisherManifest P L m).1 m c d list →
    d ≠ .expired ∧ ((keysOf P (list.validators.getD [])).Nodup ∨
      d = .accepted ∧ (c.remaining.find (list.sequence.getD 0).toNat).isSome)

theorem mem_of_find {r : Remaining} {sequence : ℕ} {l : PublisherList}
    (h : r.find sequence = some l) : ∃ e ∈ r, e.2 = l := by
  obtain ⟨e, he, rfl⟩ := Option.map_eq_some_iff.mp h
  exact ⟨e, List.mem_of_find?_eq_some he, rfl⟩

theorem mem_tidy {sequence : ℕ} {r : Remaining} {e : ℕ × PublisherList} (h : e ∈ tidy sequence r) :
    e ∈ r := by
  induction r with
  | nil => exact h
  | cons first rest ih =>
    rw [tidy] at h
    split_ifs at h
    · exact List.mem_cons_of_mem first (ih h)
    · rcases List.mem_cons.mp h with rfl | h
      · exact List.mem_cons_self
      · exact List.mem_cons_of_mem first (ih h)

theorem nodup_publisherListOf (old : PublisherList) (sequence : ℕ) {list : ListJson}
    (h : (keysOf P (list.validators.getD [])).Nodup) :
    (publisherListOf P old sequence list).list.Nodup :=
  (List.perm_insertionSort _ _).nodup_iff.mpr h

theorem Plain.collect (h : Plain c) {d : ListDisposition} {list : ListJson} (hd : d ≠ .expired)
    (hlist : (keysOf P (list.validators.getD [])).Nodup ∨
      d = .accepted ∧ (c.remaining.find (list.sequence.getD 0).toNat).isSome) :
    Plain (collect P c d list).1 := by
  rw [ValidatorList.collect]
  dsimp only
  by_cases haccepted : d = .accepted
  · rw [if_pos (.inl haccepted)]
    cases hfind : c.remaining.find (list.sequence.getD 0).toNat with
    | some publisher =>
      obtain ⟨e, he, rfl⟩ := mem_of_find hfind
      refine ⟨h.later e he, fun e' he' => ?_, fun hstatus => absurd ?_ hstatus⟩
      · exact h.later e' (List.mem_of_mem_filter he')
      · simp [haccepted]
    | none =>
      rw [hfind] at hlist
      have hnodup := hlist.resolve_right fun h => absurd h.2 Bool.false_ne_true
      refine ⟨nodup_publisherListOf _ _ hnodup, h.later, fun hstatus => absurd ?_ hstatus⟩
      simp [haccepted]
  · have hnot : ¬(d = .accepted ∨ d = .expired) := not_or.mpr ⟨haccepted, hd⟩
    have hnodup := hlist.resolve_right fun h => haccepted h.1
    simp only [if_neg hnot]
    refine ⟨h.nodup, fun e he => ?_, h.unavailable⟩
    rw [Remaining.set, List.mem_append, List.mem_cons] at he
    rcases he with he | rfl | he
    · exact h.later e (List.mem_of_mem_filter he)
    · exact nodup_publisherListOf _ _ hnodup
    · exact h.later e (List.mem_of_mem_filter he)

theorem plain_removed (h : Plain c) (reason : PublisherStatus) : Plain (removed c reason) :=
  ⟨List.nodup_nil, h.later, fun _ => rfl⟩

theorem Plain.rotated (h : Plain c) (closeTime : ℕ) {e : ℕ × PublisherList} (he : e ∈ c.remaining) :
    Plain (rotated closeTime c e.2) := by
  refine ⟨?_, fun e' he' => h.later e' ((List.dropWhile_suffix _).subset he'),
    fun hstatus => absurd rfl hstatus⟩
  rw [ValidatorList.rotated]
  dsimp only
  split_ifs
  · exact List.nodup_nil
  · exact h.later e he

theorem AllPlain.manifest {m : Manifest} (h : AllPlain L)
    (hp : L.publisherLists.lookup m.masterKey = some c) :
    AllPlain (applyPublisherManifest P L m).1 := by
  rcases applyPublisherManifest_cases (P := P) hp with ⟨cache, heq, -⟩ | ⟨cache, -, -, -, hmoves⟩
  · rw [heq]
    exact h
  · refine Each.moves (L := { L with publisherManifests := cache }) h hmoves fun _ => ?_
    exact ⟨List.nodup_nil, fun _ he => absurd he List.not_mem_nil, fun _ => rfl⟩

theorem allPlain_kept : Kept P (Proper P) AllPlain where
  blob {L now manifest info} h hproper := by
    rcases applyList_cases (P := P) L now manifest info with heq | ⟨m, c, hp, heq | ⟨c', d, list,
      htakes, heq⟩⟩
    · rwa [heq]
    · rw [heq]
      exact h.manifest hp
    · rw [heq]
      obtain ⟨hd, hlist⟩ := hproper m c' d list htakes
      exact Each.moves (h.manifest hp) (.accept htakes.collection d list)
        fun hplain => hplain.collect hd hlist
  rotate h he hmoves := Each.moves h hmoves fun hplain => hplain.rotated _ he
  expire h _ hmoves := Each.moves h hmoves fun hplain => plain_removed hplain _
  tidy h hmoves := Each.moves h hmoves fun hplain =>
    ⟨hplain.nodup, fun e he => hplain.later e (mem_tidy he), hplain.unavailable⟩
  trust h := h

/-! ### Counting publishers -/

/-- The publishers that are available and list a key. -/
def availableOn (L : ValidatorList) (k : PublicKey) : ℕ :=
  (L.publisherLists.entries.filter fun e =>
    e.2.status = .available ∧ k ∈ e.2.current.list).length

theorem Plain.occurs (h : Plain c) (k : PublicKey) :
    occurs k c = if c.status = .available ∧ k ∈ c.current.list then 1 else 0 := by
  rw [ValidatorList.occurs, h.nodup.count]
  by_cases hstatus : c.status = .available
  · simp [hstatus]
  · simp [hstatus, h.unavailable hstatus]

theorem total_occurs (h : AllPlain L) (k : PublicKey) :
    Table.total (occurs k) L.publisherLists = availableOn L k := by
  have hrow : ∀ e ∈ L.publisherLists.entries,
      occurs k e.2 = if e.2.status = .available ∧ k ∈ e.2.current.list then 1 else 0 := by
    intro e he
    exact (h e.1 e.2 (AList.mem_lookup_iff.mpr he)).occurs k
  rw [Table.total, availableOn]
  generalize L.publisherLists.entries = rows at hrow
  induction rows with
  | nil => rfl
  | cons e rows ih =>
    obtain ⟨he, hrow⟩ := List.forall_mem_cons.mp hrow
    rw [List.map_cons, List.sum_cons, he, ih hrow, List.filter_cons]
    by_cases hlisted : e.2.status = .available ∧ k ∈ e.2.current.list
    · simp [hlisted]
      omega
    · simp [hlisted]

/-! ### The trusted keys -/

/-- A key of the configuration, this node's own included. -/
def Configured (L : ValidatorList) (k : PublicKey) : Prop :=
  some k = L.localPubKey ∨ k ∈ L.localPublisherList

instance (L : ValidatorList) (k : PublicKey) : Decidable (L.Configured k) :=
  inferInstanceAs (Decidable (_ ∨ _))

/-- Some key enters or leaves the trusted set. -/
def Changes (L : ValidatorList) : Prop := L.trustChanges.added ≠ ∅ ∨ L.trustChanges.removed ≠ ∅

instance (L : ValidatorList) : Decidable L.Changes := inferInstanceAs (Decidable (_ ∨ _))

theorem qualifies_iff (hpos : 0 < L.listThreshold) :
    L.qualifies k = true ↔
      L.listThreshold ≤ listings L.keyListings k ∧ L.validatorManifests.revoked k = false := by
  rw [qualifies, listings, Bool.and_eq_true, Bool.not_eq_true']
  cases L.keyListings.lookup k with
  | none => simp; omega
  | some n => simp

theorem mem_trust : k ∈ L.trust.trustedMasterKeys ↔ L.qualifies k = true := by
  change k ∈ (L.trustedMasterKeys.filter fun k => L.qualifies k) ∪
    L.keyListings.keys.toFinset.filter (fun k => L.qualifies k ∧ k ∉ L.trustedMasterKeys) ↔ _
  rw [Finset.mem_union, Finset.mem_filter, Finset.mem_filter, List.mem_toFinset]
  constructor
  · rintro (⟨-, h⟩ | ⟨-, h, -⟩) <;> exact h
  · intro h
    by_cases htrusted : k ∈ L.trustedMasterKeys
    · exact .inl ⟨htrusted, h⟩
    · refine .inr ⟨?_, h, htrusted⟩
      rw [qualifies, Bool.and_eq_true, Option.any_eq_true] at h
      obtain ⟨⟨n, hn, -⟩, -⟩ := h
      exact Table.mem_keys_of_lookup hn

theorem trust_of_not_changes (h : ¬L.Changes) : L.trust.trustedMasterKeys = L.trustedMasterKeys := by
  simp only [Changes, not_or, not_not] at h
  have hremoved : ∀ k ∈ L.trustedMasterKeys, L.qualifies k = true := by
    intro k hk
    have hnot := Finset.filter_eq_empty_iff.mp h.2 hk
    simpa using hnot
  change (L.trustedMasterKeys.filter fun k => L.qualifies k) ∪ L.trustChanges.added = _
  rw [h.1, Finset.union_empty, Finset.filter_true_of_mem hremoved]

theorem trust_signingKeys :
    L.trust.trustedSigningKeys = if L.Changes then
      signingKeysOf L.validatorManifests L.trust.trustedMasterKeys else L.trustedSigningKeys := rfl

/-! ### Signing keys that stay -/

/-- A list, and the manifests by which its trusted signing keys were last computed. -/
abbrev Tracked := ValidatorList × ManifestCache

def trackedStep (P : ListCodec) (s : Tracked) (a : Action) : Tracked × Unit :=
  (((step P s.1 a).1, match a with
    | .applyLists _ _ _ _ => s.2
    | .updateTrusted closeTime now =>
      let L := refreshAll P (trustTime closeTime now) s.1
      if L.Changes then L.validatorManifests else s.2), ())

/-- Where no key enters or leaves, the trusted keys have the signing keys they had when these were last
computed. -/
def SigningKeysKept (P : ListCodec) (s : Tracked) : Action → Prop
  | .applyLists _ _ _ _ => True
  | .updateTrusted closeTime now =>
    let L := refreshAll P (trustTime closeTime now) s.1
    ¬L.Changes → ∀ k ∈ L.trustedMasterKeys,
      L.validatorManifests.getSigningKey k = s.2.getSigningKey k

theorem final_trackedStep (s : Tracked) (actions : List Action) :
    (Run.final (trackedStep P) s actions).1 = Run.final (step P) s.1 actions := by
  induction actions generalizing s with
  | nil => rfl
  | cons a actions ih => exact ih _

/-- The trusted keys of both kinds are those of another list. -/
def SameTrust (L₀ L : ValidatorList) : Prop :=
  L.trustedMasterKeys = L₀.trustedMasterKeys ∧ L.trustedSigningKeys = L₀.trustedSigningKeys

theorem Frame.sameTrust {L₀ : ValidatorList} (h : Frame L L') (hL : SameTrust L₀ L) :
    SameTrust L₀ L' :=
  ⟨h.trustedMasterKeys.trans hL.1, h.trustedSigningKeys.trans hL.2⟩

theorem sameTrust_manifest {L₀ : ValidatorList} {m : Manifest} (h : SameTrust L₀ L)
    (hp : L.publisherLists.lookup m.masterKey = some c) :
    SameTrust L₀ (applyPublisherManifest P L m).1 := by
  rcases applyPublisherManifest_cases (P := P) hp with ⟨cache, heq, -⟩ | ⟨cache, -, -, -, hmoves⟩
  · rw [heq]
    exact h
  · exact Frame.sameTrust (L := { L with publisherManifests := cache }) hmoves.toFrame h

theorem sameTrust_kept (L₀ : ValidatorList) :
    KeptByLists P (fun _ _ _ _ => True) (SameTrust L₀) where
  blob {L now manifest info} h _ := by
    rcases applyList_cases (P := P) L now manifest info with heq | ⟨m, c, hp, heq | ⟨c', d, list,
      htakes, heq⟩⟩
    · rwa [heq]
    · rw [heq]
      exact sameTrust_manifest h hp
    · rw [heq]
      exact (Moves.accept htakes.collection d list).sameTrust (sameTrust_manifest h hp)
  rotate h _ hmoves := hmoves.sameTrust h
  expire h _ hmoves := hmoves.sameTrust h
  tidy h hmoves := hmoves.sameTrust h

/-- The trusted signing keys are those of the trusted keys, by the manifests of that time. -/
def Synced (s : Tracked) : Prop :=
  s.1.trustedSigningKeys = signingKeysOf s.2 s.1.trustedMasterKeys

theorem Synced.step {s : Tracked} (h : Synced s) (a : Action) : Synced (trackedStep P s a).1 := by
  cases a with
  | applyLists now manifest version blobs =>
    obtain ⟨hmaster, hsigning⟩ := (sameTrust_kept (P := P) s.1).applyLists (L := s.1) ⟨rfl, rfl⟩
      (blobsMeet_true s.1 (.applyLists now manifest version blobs))
    change (applyLists P s.1 now manifest version blobs).trustedSigningKeys =
      signingKeysOf s.2 (applyLists P s.1 now manifest version blobs).trustedMasterKeys
    rw [hmaster, hsigning]
    exact h
  | updateTrusted closeTime now =>
    obtain ⟨hmaster, hsigning⟩ := (sameTrust_kept (P := P) s.1).refreshAll (L := s.1) ⟨rfl, rfl⟩
      (trustTime closeTime now)
    change (refreshAll P (trustTime closeTime now) s.1).trust.trustedSigningKeys = signingKeysOf
      (if (refreshAll P (trustTime closeTime now) s.1).Changes then
        (refreshAll P (trustTime closeTime now) s.1).validatorManifests else s.2)
      (refreshAll P (trustTime closeTime now) s.1).trust.trustedMasterKeys
    rw [trust_signingKeys]
    by_cases hchanges : (refreshAll P (trustTime closeTime now) s.1).Changes
    · rw [if_pos hchanges, if_pos hchanges]
    · rw [if_neg hchanges, if_neg hchanges, trust_of_not_changes hchanges, hmaster, hsigning]
      exact h

theorem Synced.current {s : Tracked} (h : Synced s) {closeTime now : ℕ}
    (hkept : SigningKeysKept P s (.updateTrusted closeTime now)) :
    (updateTrusted P s.1 closeTime now).trustedSigningKeys =
      signingKeysOf (updateTrusted P s.1 closeTime now).validatorManifests
        (updateTrusted P s.1 closeTime now).trustedMasterKeys := by
  have hsynced := h.step (P := P) (.updateTrusted closeTime now)
  change (updateTrusted P s.1 closeTime now).trustedSigningKeys = signingKeysOf
    (if (refreshAll P (trustTime closeTime now) s.1).Changes then
      (refreshAll P (trustTime closeTime now) s.1).validatorManifests else s.2)
    (updateTrusted P s.1 closeTime now).trustedMasterKeys at hsynced
  rw [hsynced]
  by_cases hchanges : (refreshAll P (trustTime closeTime now) s.1).Changes
  · rw [if_pos hchanges]
    rfl
  · rw [if_neg hchanges]
    apply Finset.image_congr
    intro k hk
    rw [Finset.mem_coe, updateTrusted, trust_of_not_changes hchanges] at hk
    dsimp only
    rw [← hkept hchanges k hk]
    rfl

/-! ### Runs -/

theorem positive_kept : Kept P (fun _ _ _ _ => True) fun L => 0 < L.listThreshold where
  blob {L now manifest info} h _ := by
    have hmanifest : ∀ {m : Manifest} {c}, L.publisherLists.lookup m.masterKey = some c →
        0 < (applyPublisherManifest P L m).1.listThreshold := by
      intro m c hp
      rcases applyPublisherManifest_cases (P := P) hp with ⟨cache, heq, -⟩ | ⟨cache, -, -, -, hmoves⟩
      · rw [heq]
        exact h
      · rw [hmoves.listThreshold]
        exact h
    rcases applyList_cases (P := P) L now manifest info with heq | ⟨m, c, hp, heq | ⟨c', d, list,
      htakes, heq⟩⟩
    · rwa [heq]
    · rw [heq]
      exact hmanifest hp
    · rw [heq, (Moves.accept htakes.collection d list).listThreshold]
      exact hmanifest hp
  rotate h _ hmoves := by rwa [hmoves.listThreshold]
  expire h _ hmoves := by rwa [hmoves.listThreshold]
  tidy h hmoves := by rwa [hmoves.listThreshold]
  trust h := h

theorem allPlain_load (validatorManifests publisherManifests : ManifestCache) (config : Config) :
    AllPlain (load validatorManifests publisherManifests config) := by
  intro p c hp
  rw [(load_spec validatorManifests publisherManifests config).2.1 p c hp]
  exact ⟨List.nodup_nil, fun _ he => absurd he List.not_mem_nil, fun _ => rfl⟩

/-- The conditions on a run: lists that are taken up are proper, and signing keys stay where the trusted set
does. -/
def InOrder (P : ListCodec) (s : Tracked) (a : Action) : Prop :=
  BlobsMeet P (Proper P) s.1 a ∧ SigningKeysKept P s a

theorem counted_available (h : Counted L) (hplain : AllPlain L) (k : PublicKey) :
    listings L.keyListings k = base L k + availableOn L k := by
  have hk := h k
  rw [total_occurs hplain k] at hk
  exact_mod_cast hk

theorem mem_trust_iff (h : Counted L) (hplain : AllPlain L) (hpos : 0 < L.listThreshold) :
    k ∈ L.trust.trustedMasterKeys ↔ L.validatorManifests.revoked k = false ∧
      (L.Configured k ∨ L.listThreshold ≤ availableOn L k) := by
  rw [mem_trust, qualifies_iff hpos, counted_available h hplain, base, and_comm]
  apply and_congr_right
  intro _
  rw [Configured]
  by_cases hconfigured : some k = L.localPubKey ∨ k ∈ L.localPublisherList
  · rw [if_pos hconfigured]
    exact iff_of_true (Nat.le_add_right _ _) (.inl hconfigured)
  · rw [if_neg hconfigured, Nat.zero_add]
    exact ⟨.inr, fun h => h.resolve_left hconfigured⟩

/-- One publisher, one listing. Where every list that is taken up is proper, the count of a key is its
share from the configuration and the number of available publishers that list it; and where signing
keys stay as the trusted set does, what `updateTrusted` leaves is trusted as counts and manifests say. -/
theorem listings_run (P : ListCodec) (validatorManifests publisherManifests : ManifestCache)
    (config : Config) (actions : List Action)
    (hrun : Run.Always (trackedStep P) (InOrder P)
      (load validatorManifests publisherManifests config, validatorManifests) actions) :
    let L := Run.final (step P) (load validatorManifests publisherManifests config) actions
    (∀ k, listings L.keyListings k =
      (if L.Configured k then L.listThreshold else 0) + availableOn L k) ∧
    ∀ before closeTime now, actions = before ++ [.updateTrusted closeTime now] →
      (∀ k, k ∈ L.trustedMasterKeys ↔ L.validatorManifests.revoked k = false ∧
        (L.Configured k ∨ L.listThreshold ≤ availableOn L k)) ∧
      L.trustedSigningKeys = signingKeysOf L.validatorManifests L.trustedMasterKeys := by
  intro L
  have hplainOf : ∀ as, Run.Always (trackedStep P) (InOrder P)
      (load validatorManifests publisherManifests config, validatorManifests) as →
      AllPlain (Run.final (step P) (load validatorManifests publisherManifests config) as) := by
    intro as has
    have h := Run.invariant (fun s : Tracked => AllPlain s.1)
      (fun s a hs ha => allPlain_kept.step hs ha.1)
      (allPlain_load validatorManifests publisherManifests config) has
    rwa [final_trackedStep] at h
  refine ⟨fun k => counted_available (counted_load.final actions) (hplainOf actions hrun) k, ?_⟩
  rintro before closeTime now rfl
  obtain ⟨hbefore, hlast, -⟩ := Run.always_append.mp hrun
  have hfinal : L = updateTrusted P (Run.final (step P)
      (load validatorManifests publisherManifests config) before) closeTime now := by
    change Run.final _ _ _ = _
    rw [Run.final_append]
    rfl
  have hsynced : Synced (Run.final (trackedStep P)
      (load validatorManifests publisherManifests config, validatorManifests) before) := by
    obtain ⟨-, -, -, -, hmaster, hsigning, -⟩ :=
      load_spec validatorManifests publisherManifests config
    refine Run.invariant (P := fun _ _ => True) Synced (fun s a hs _ => hs.step a) ?_
      (Run.always_of_forall fun _ _ => trivial)
    change (load validatorManifests publisherManifests config).trustedSigningKeys = signingKeysOf _
      (load validatorManifests publisherManifests config).trustedMasterKeys
    rw [hmaster, hsigning]
    rfl
  have hcurrent := hsynced.current hlast.2
  rw [final_trackedStep] at hcurrent
  rw [hfinal]
  refine ⟨fun k => ?_, hcurrent⟩
  set L₁ := Run.final (step P) (load validatorManifests publisherManifests config) before
  have hplain : AllPlain (refreshAll P (trustTime closeTime now) L₁) :=
    allPlain_kept.refreshAll (hplainOf before hbefore) _
  have hcounted : Counted (refreshAll P (trustTime closeTime now) L₁) :=
    (counted_kept (P := P) (C := fun _ _ _ _ => True)).refreshAll (counted_load.final before) _
  have hpos : 0 < (refreshAll P (trustTime closeTime now) L₁).listThreshold := by
    refine (positive_kept (P := P)).refreshAll (positive_kept.final (P := P) ?_
      (Run.always_of_forall blobsMeet_true)) _
    exact (load_spec validatorManifests publisherManifests config).2.2.2.2.2.2
  exact mem_trust_iff hcounted hplain hpos

/-- Three publishers, of which two must list a validator. -/
def Sample.three : Config := ⟨none, [], [Sample.key 0, Sample.key 2, Sample.key 3], none⟩

/-- One publisher, whose list is enough. -/
def Sample.one : Config := ⟨none, [], [Sample.key 0], none⟩

/-- The state after a run. -/
def Sample.after (config : Config) (actions : List Action) : ValidatorList :=
  Run.final (step Sample.codec) (load .empty .empty config) actions

theorem listings_run_one :
    let L := Sample.after Sample.one
      [Sample.send 10 [1] [9] (Sample.key 1), .updateTrusted 20 20]
    listings L.keyListings (Sample.key 5) =
        (if L.Configured (Sample.key 5) then L.listThreshold else 0) +
          availableOn L (Sample.key 5) ∧
      L.trustedSigningKeys = signingKeysOf L.validatorManifests L.trustedMasterKeys ∧
      Sample.key 5 ∈ L.trustedMasterKeys := by
  intro L
  have hproper : ∀ L', Proper Sample.codec 10 [1] L' ⟨[9], (Sample.key 1).slice, none⟩ := by
    intro L' m c d list htakes
    obtain rfl : Sample.list 1 [(Sample.key 5, none)] = list := Option.some.inj htakes.parsed
    refine ⟨?_, .inl (by decide +kernel)⟩
    rintro rfl
    have hdisposition := htakes.disposition
    simp only [disposition, Sample.list, asUInt] at hdisposition
    revert hdisposition
    simp
    split_ifs <;> simp
  have hchanges : (refreshAll Sample.codec (trustTime 20 20) (Run.final (trackedStep Sample.codec)
      (load .empty .empty Sample.one, .empty)
      [Sample.send 10 [1] [9] (Sample.key 1)]).1).Changes := by decide +kernel
  obtain ⟨hcounts, hlast⟩ := listings_run Sample.codec .empty .empty Sample.one
    [Sample.send 10 [1] [9] (Sample.key 1), .updateTrusted 20 20]
    ⟨⟨fun _ => ⟨fun _ => hproper _, trivial⟩, trivial⟩,
      ⟨trivial, fun hnot => absurd hchanges hnot⟩, trivial⟩
  obtain ⟨-, hsigning⟩ := hlast [Sample.send 10 [1] [9] (Sample.key 1)] 20 20 rfl
  exact ⟨hcounts (Sample.key 5), hsigning, by decide +kernel⟩

/-- A list that names a key twice counts for two publishers and makes the key trusted; a list that has
expired when it comes is counted; and a trusted validator's new signing key is not among the trusted ones. -/
theorem listings_run_loose :
    (let L := Sample.after Sample.three
      [Sample.send 10 [1] [10] (Sample.key 1), .updateTrusted 20 20]
    listings L.keyListings (Sample.key 5) = 2 ∧ availableOn L (Sample.key 5) = 1 ∧
      ¬L.Configured (Sample.key 5) ∧ L.listThreshold = 2 ∧ Sample.key 5 ∈ L.trustedMasterKeys) ∧
    (let L := Sample.after Sample.one
      [Sample.send 200 [1] [9] (Sample.key 1), .updateTrusted 200 200]
    listings L.keyListings (Sample.key 5) = 1 ∧ availableOn L (Sample.key 5) = 0 ∧
      ¬L.Configured (Sample.key 5) ∧ Sample.key 5 ∈ L.trustedMasterKeys) ∧
    let L := Sample.after Sample.one
      [Sample.send 10 [1] [11] (Sample.key 1), .updateTrusted 20 20,
        Sample.send 20 [1] [12] (Sample.key 1), .updateTrusted 20 20]
    L.trustedSigningKeys ≠ signingKeysOf L.validatorManifests L.trustedMasterKeys := by
  decide +kernel

end FalconLedger.ValidatorList
