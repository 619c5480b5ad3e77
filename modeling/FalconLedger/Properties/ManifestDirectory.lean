import FalconLedger.Data.Run
import FalconLedger.Validators.ManifestCache

/-!
# The manifest cache as a directory of keys

`Directory` is what the two maps of the cache are to each other: the signing keys lead back to the
master keys whose newest manifest names them, and no key is of both kinds. Storing a manifest keeps
it, since the check is made again under the write lock. A write leaves the manifest of a master key
or takes one of a higher sequence number (`Newer`).
-/

namespace FalconLedger

/-! ### Manifests -/

namespace Manifest

variable {m m' : Manifest}

theorem revoked_iff : m.revoked = true ↔ m.sequence = 0xFFFFFFFF := by
  simp [revoked, revokedSequence]

theorem exists_signingKey (h : m.revoked = false) : ∃ s, m.signingKey = some s := by
  apply Option.ne_none_iff_exists'.mp
  intro hnone
  rw [revoked, m.signingKey_eq_none.mp hnone] at h
  cases h

theorem revoked_of_signingKey {s : PublicKey} (h : m.signingKey = some s) : m.revoked = false := by
  rw [revoked, Bool.eq_false_iff]
  intro hrevoked
  rw [m.signingKey_eq_none.mpr hrevoked] at h
  cases h

theorem not_lt_of_revoked (h : m.revoked = true) : ¬m.sequence < m'.sequence := by
  rw [revoked_iff.mp h, UInt32.lt_iff_toNat_lt]
  have hlt := m'.sequence.toNat_lt
  simp only [UInt32.reduceToNat]
  omega

end Manifest

namespace ManifestCache

variable {c : ManifestCache} {m : Manifest} {C : ManifestCodec}

/-! ### The check -/

/-- What a manifest that passes the check is like. -/
structure Passes (c : ManifestCache) (m : Manifest) : Prop where
  newer : ∀ old, c.map.lookup m.masterKey = some old → old.sequence < m.sequence
  masterKey : c.signingToMasterKeys.lookup m.masterKey = none
  unsigned : ∀ s, m.signingKey = some s → c.signingToMasterKeys.lookup s = none
  unstored : ∀ s, m.signingKey = some s → c.map.lookup s = none

theorem passes_of_prewriteCheck {verified : Bool} (h : c.prewriteCheck m verified = none) :
    verified = true ∧ Passes c m := by
  rw [prewriteCheck] at h
  by_cases hstale : (c.map.lookup m.masterKey).any fun old => decide (m.sequence ≤ old.sequence)
  · rw [if_pos hstale] at h
    cases h
  rw [if_neg hstale] at h
  by_cases hverified : verified = true
  swap
  · rw [if_pos hverified] at h
    cases h
  rw [if_neg (not_not.mpr hverified)] at h
  by_cases hmaster : (c.signingToMasterKeys.lookup m.masterKey).isSome
  · rw [if_pos hmaster] at h
    cases h
  rw [if_neg hmaster] at h
  have hnewer : ∀ old, c.map.lookup m.masterKey = some old → old.sequence < m.sequence := by
    intro old hold
    rw [hold, Option.any_some, decide_eq_true_iff, UInt32.not_le] at hstale
    exact hstale
  rw [Option.not_isSome_iff_eq_none] at hmaster
  refine ⟨hverified, hnewer, hmaster, fun s hs => ?_, fun s hs => ?_⟩
  all_goals
    rw [if_neg (by rw [Manifest.revoked_of_signingKey hs]; exact Bool.false_ne_true)] at h
    simp only [hs] at h
    split_ifs at h with hsigned hstored
  · exact Option.not_isSome_iff_eq_none.mp hsigned
  · exact Option.not_isSome_iff_eq_none.mp hstored

/-! ### The directory -/

structure Directory (c : ManifestCache) : Prop where
  keyed : ∀ k m, c.map.lookup k = some m → m.masterKey = k
  signs : ∀ s k, c.signingToMasterKeys.lookup s = some k ↔
    ∃ m, c.map.lookup k = some m ∧ m.signingKey = some s
  apart : ∀ s k, c.signingToMasterKeys.lookup s = some k → c.map.lookup s = none

theorem Directory.empty : Directory empty where
  keyed _ _ h := by cases h
  signs s k := by
    constructor
    · intro h
      cases h
    · rintro ⟨_, h, -⟩
      cases h
  apart _ _ h := by cases h

theorem lookup_emplace {t : Table PublicKey PublicKey} {k v x : PublicKey} (h : t.lookup k = none) :
    (emplace t k v).lookup x = if x = k then some v else t.lookup x := by
  rw [emplace, h]
  simp only [Option.isSome_none, Bool.false_eq_true, if_false]
  split_ifs with hx
  · rw [hx, AList.lookup_insert]
  · rw [AList.lookup_insert_ne hx]

theorem Directory.lookup_erased (hc : Directory c) {k s : PublicKey} {old : Manifest}
    (hold : c.map.lookup k = some old) (hs : old.signingKey = some s) (x k' : PublicKey) :
    (c.signingToMasterKeys.erase s).lookup x = some k' ↔
      k' ≠ k ∧ c.signingToMasterKeys.lookup x = some k' := by
  have hsk : c.signingToMasterKeys.lookup s = some k := (hc.signs s k).mpr ⟨old, hold, hs⟩
  by_cases hx : x = s
  · subst hx
    rw [AList.lookup_erase, hsk]
    simp only [reduceCtorEq, Option.some.injEq, false_iff, not_and]
    exact fun hne heq => hne heq.symm
  · rw [AList.lookup_erase_ne hx]
    refine ⟨fun h => ⟨?_, h⟩, And.right⟩
    rintro rfl
    obtain ⟨m, hm, hmx⟩ := (hc.signs x k').mp h
    obtain rfl := Option.some.inj (hm.symm.trans hold)
    exact hx (Option.some.inj (hmx.symm.trans hs))

/-- The signing keys that are left when a manifest is stored. -/
def kept (c : ManifestCache) (k : PublicKey) : Table PublicKey PublicKey :=
  match c.map.lookup k with
  | none => c.signingToMasterKeys
  | some old =>
    match old.signingKey with
    | none => c.signingToMasterKeys
    | some signingKey => c.signingToMasterKeys.erase signingKey

theorem Directory.lookup_kept (hc : Directory c) (k x k' : PublicKey) :
    (c.kept k).lookup x = some k' ↔ k' ≠ k ∧ c.signingToMasterKeys.lookup x = some k' := by
  have hother : (∀ m, c.map.lookup k = some m → m.signingKey = none) →
      c.signingToMasterKeys.lookup x = some k' → k' ≠ k := by
    rintro hnone h rfl
    obtain ⟨m, hm, hmx⟩ := (hc.signs x k').mp h
    rw [hnone m hm] at hmx
    cases hmx
  rw [kept]
  cases hold : c.map.lookup k with
  | none =>
    have hne := hother fun m hm => by rw [hold] at hm; cases hm
    exact ⟨fun h => ⟨hne h, h⟩, And.right⟩
  | some old =>
    cases hs : old.signingKey with
    | none =>
      have hne := hother fun m hm => by rw [hold] at hm; cases hm; exact hs
      simp only [hs]
      exact ⟨fun h => ⟨hne h, h⟩, And.right⟩
    | some s =>
      simp only [hs]
      exact hc.lookup_erased hold hs x k'

theorem Directory.write (hc : Directory c) (hm : Passes c m) : Directory (c.write m) := by
  have hkeyed : ∀ k m', (c.write m).map.lookup k = some m' → m'.masterKey = k := by
    intro k m' h
    by_cases hk : k = m.masterKey
    · subst hk
      rw [ManifestCache.write, AList.lookup_insert] at h
      rw [← Option.some.inj h]
    · rw [ManifestCache.write, AList.lookup_insert_ne hk] at h
      exact hc.keyed k m' h
  -- what the new manifest adds to the signing keys that are left
  have hsigning : ∀ x k', (c.write m).signingToMasterKeys.lookup x = some k' ↔
      (m.signingKey = some x ∧ k' = m.masterKey) ∨
        (k' ≠ m.masterKey ∧ c.signingToMasterKeys.lookup x = some k') := by
    intro x k'
    rw [← hc.lookup_kept m.masterKey x k']
    change (match m.signingKey with
      | none => c.kept m.masterKey
      | some s => emplace (c.kept m.masterKey) s m.masterKey).lookup x = some k' ↔ _
    cases hs : m.signingKey with
    | none => simp
    | some s =>
      have hfree : (c.kept m.masterKey).lookup s = none := by
        rw [Option.eq_none_iff_forall_ne_some]
        intro k'' h
        have h := ((hc.lookup_kept m.masterKey s k'').mp h).2
        rw [hm.unsigned s hs] at h
        cases h
      dsimp only
      rw [lookup_emplace hfree]
      split_ifs with hx
      · subst hx
        simp [hfree, eq_comm]
      · simp [Ne.symm hx]
  refine ⟨hkeyed, fun s k => ?_, fun s k h => ?_⟩
  · rw [hsigning]
    by_cases hk : k = m.masterKey
    · subst hk
      simp [ManifestCache.write]
    · simp [ManifestCache.write, hk, AList.lookup_insert_ne hk, hc.signs]
  · rcases (hsigning s k).mp h with ⟨hs, rfl⟩ | ⟨-, h⟩
    · have hne : s ≠ m.masterKey := fun heq => m.signingKey_ne (heq ▸ hs)
      rw [ManifestCache.write, AList.lookup_insert_ne hne]
      exact hm.unstored s hs
    · have hne : s ≠ m.masterKey := by
        rintro rfl
        rw [hm.masterKey] at h
        cases h
      rw [ManifestCache.write, AList.lookup_insert_ne hne]
      exact hc.apart s k h

theorem Directory.store (hc : Directory c) (m : Manifest) : Directory (c.store m).1 := by
  rw [ManifestCache.store]
  cases hcheck : c.prewriteCheck m true with
  | some d => exact hc
  | none => exact hc.write (passes_of_prewriteCheck hcheck).2

/-! ### Newer manifests -/

/-- The manifest of each master key is kept, or one with a higher sequence number takes its place. -/
def Newer (c c' : ManifestCache) : Prop :=
  ∀ k m, c.map.lookup k = some m →
    c'.map.lookup k = some m ∨ ∃ m', c'.map.lookup k = some m' ∧ m.sequence < m'.sequence

theorem Newer.refl (c : ManifestCache) : Newer c c := fun _ _ h => .inl h

theorem Newer.trans {c₁ c₂ c₃ : ManifestCache} (h : Newer c₁ c₂) (h' : Newer c₂ c₃) :
    Newer c₁ c₃ := by
  intro k m hm
  rcases h k m hm with hm | ⟨m', hm', hlt⟩
  · exact h' k m hm
  · rcases h' k m' hm' with hm' | ⟨m'', hm'', hlt'⟩
    · exact .inr ⟨m', hm', hlt⟩
    · exact .inr ⟨m'', hm'', UInt32.lt_trans hlt hlt'⟩

theorem Newer.revoked {c' : ManifestCache} (h : Newer c c') {k : PublicKey}
    (hm : c.map.lookup k = some m) (hrevoked : m.revoked = true) : c'.map.lookup k = some m := by
  rcases h k m hm with hm | ⟨m', -, hlt⟩
  · exact hm
  · exact absurd hlt (Manifest.not_lt_of_revoked hrevoked)

theorem newer_store (c : ManifestCache) (m : Manifest) : Newer c (c.store m).1 := by
  rw [store]
  cases hcheck : c.prewriteCheck m true with
  | some d => exact Newer.refl c
  | none =>
    intro k old hold
    by_cases hk : k = m.masterKey
    · subst hk
      exact .inr ⟨m, AList.lookup_insert _, (passes_of_prewriteCheck hcheck).2.newer old hold⟩
    · exact .inl (by rw [write, AList.lookup_insert_ne hk, hold])

theorem revoked_eq_true {k : PublicKey} :
    c.revoked k = true ↔ ∃ m, c.map.lookup k = some m ∧ m.revoked = true := by
  rw [revoked]
  cases c.map.lookup k <;> simp

/-! ### Runs -/

variable {s : Threads}

theorem step_cache (s : Threads) (a : Action) :
    (step C s a).1.cache = s.cache ∨ ∃ m, (step C s a).1.cache = (s.cache.store m).1 := by
  cases a with
  | check thread m =>
    left
    rw [step]
    split_ifs
    · rfl
    · cases s.cache.prewriteCheck m (m.verify C) <;> rfl
  | store thread =>
    rw [step]
    cases s.checked.lookup thread with
    | none => exact .inl rfl
    | some m => exact .inr ⟨m, rfl⟩

theorem Directory.step (h : Directory s.cache) (a : Action) :
    Directory (ManifestCache.step C s a).1.cache := by
  rcases step_cache (C := C) s a with hcache | ⟨m, hcache⟩
  · rwa [hcache]
  · rw [hcache]
    exact h.store m

theorem Directory.final (h : Directory s.cache) (actions : List Action) :
    Directory (Run.final (ManifestCache.step C) s actions).cache :=
  Run.invariant (P := fun _ _ => True) (fun s : Threads => Directory s.cache) (fun _ a hs _ => hs.step a) h
    (Run.always_of_forall fun _ _ => trivial)

theorem newer_final (s : Threads) (actions : List Action) :
    Newer s.cache (Run.final (step C) s actions).cache := by
  refine Run.invariant (P := fun _ _ => True) (fun t : Threads => Newer s.cache t.cache) ?_ (Newer.refl _)
    (Run.always_of_forall fun _ _ => trivial)
  intro t a ht _
  rcases step_cache (C := C) t a with hcache | ⟨m, hcache⟩
  · rwa [hcache]
  · rw [hcache]
    exact ht.trans (newer_store _ m)

theorem Directory.getMasterKey_getSigningKey (hc : Directory c) {k : PublicKey}
    (hm : c.map.lookup k = some m) (hrevoked : m.revoked = false) :
    ∃ s, c.getSigningKey k = some s ∧ c.getMasterKey s = k := by
  obtain ⟨s, hs⟩ := m.exists_signingKey hrevoked
  refine ⟨s, ?_, ?_⟩
  · have hcurrent : c.current k = some m := by
      rw [current, hm, Option.filter_some, hrevoked]
      rfl
    rw [getSigningKey, hcurrent]
    exact hs
  · rw [getMasterKey, (hc.signs s k).mpr ⟨m, hm, hs⟩, Option.getD_some]

/-- The cache is a directory, in every state any interleaving of any threads leads to: the signing keys
that it knows are those of the manifests it holds that are not revoked; no key is of both kinds, and none
signs for two; what it holds of a master key changes to higher sequence numbers only, until it is
revoked; and the lookups agree. -/
theorem manifest_cache_run (C : ManifestCodec) (actions later : List Action) :
    let c := (Run.final (step C) Threads.empty actions).cache
    let c' := (Run.final (step C) Threads.empty (actions ++ later)).cache
    (∀ s k, c.signingToMasterKeys.lookup s = some k ↔
      ∃ m, c.map.lookup k = some m ∧ m.revoked = false ∧ m.signingKey = some s) ∧
    (∀ s, (c.signingToMasterKeys.lookup s).isSome → c.map.lookup s = none) ∧
    (∀ k m k' m' s, c.map.lookup k = some m → c.map.lookup k' = some m' →
      m.signingKey = some s → m'.signingKey = some s → k = k') ∧
    (∀ k m, c.map.lookup k = some m →
      c'.map.lookup k = some m ∨ ∃ m', c'.map.lookup k = some m' ∧ m.sequence < m'.sequence) ∧
    (∀ k, c.revoked k = true → c'.revoked k = true) ∧
    ∀ k m, c.map.lookup k = some m → m.revoked = false →
      ∃ s, c.getSigningKey k = some s ∧ c.getMasterKey s = k := by
  intro c c'
  have hc : Directory c := Directory.empty.final actions
  have hnewer : Newer c c' := by
    have h := newer_final (C := C) (Run.final (step C) Threads.empty actions) later
    rwa [← Run.final_append] at h
  refine ⟨fun s k => ?_, fun s hs => ?_, fun k m k' m' s hm hm' hs hs' => ?_, hnewer,
    fun k hk => ?_, fun k m hm hrevoked => hc.getMasterKey_getSigningKey hm hrevoked⟩
  · rw [hc.signs]
    constructor
    · rintro ⟨m, hm, hs⟩
      exact ⟨m, hm, Manifest.revoked_of_signingKey hs, hs⟩
    · rintro ⟨m, hm, -, hs⟩
      exact ⟨m, hm, hs⟩
  · obtain ⟨k, hk⟩ := Option.isSome_iff_exists.mp hs
    exact hc.apart s k hk
  · have hk := (hc.signs s k).mpr ⟨m, hm, hs⟩
    exact Option.some.inj (hk.symm.trans ((hc.signs s k').mpr ⟨m', hm', hs'⟩))
  · obtain ⟨m, hm, hrevoked⟩ := revoked_eq_true.mp hk
    exact revoked_eq_true.mpr ⟨m, hnewer.revoked hm hrevoked, hrevoked⟩

end ManifestCache

end FalconLedger
