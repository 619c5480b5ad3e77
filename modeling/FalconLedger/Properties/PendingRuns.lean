import FalconLedger.Properties.PendingLists

/-!
# When waiting lists go live

`Orderly` says when the clean-up of a call of `applyLists` is enough: the lists it takes up are of
one publisher, no negative number ends it early, no publisher is revoked while lists of it wait, no
good list is stored as one to come, and no superseded list is left. In a run of such calls and of
trust updates the waiting lists go live in order and on time.
-/

namespace FalconLedger.ValidatorList

variable {P : ListCodec} {L L' : ValidatorList} {p k q : PublicKey} {c c' : PublisherListCollection}
  {t T now : ℕ} {H : PublicKey × ListJson → Prop} {manifest : Blob} {info : ValidatorBlobInfo}
  {list : ListJson}

/-! ### A blob -/

/-- A manifest leaves a publisher's lists alone, or it is the publisher's revocation. -/
theorem lookup_manifest (L : ValidatorList) (m : Manifest) (x : PublicKey) :
    (applyPublisherManifest P L m).1.publisherLists.lookup x = L.publisherLists.lookup x ∨
      x = m.masterKey ∧ m.revoked = true ∧
        (L.publisherManifests.applyManifest P.toManifestCodec m).2 = .accepted ∧
        ∃ c, L.publisherLists.lookup x = some c ∧
          (applyPublisherManifest P L m).1.publisherLists.lookup x =
            some { removed c .revoked with remaining := [] } := by
  rw [applyPublisherManifest]
  generalize L.publisherManifests.applyManifest P.toManifestCodec m = r
  obtain ⟨cache, result⟩ := r
  dsimp only
  by_cases h : m.revoked = true ∧ result = .accepted
  · rw [if_pos h]
    dsimp only
    cases hp : L.publisherLists.lookup m.masterKey with
    | none =>
      left
      have hnone : removePublisherList { L with publisherManifests := cache } m.masterKey .revoked =
          { L with publisherManifests := cache } := by
        simp only [removePublisherList, hp]
      simp only [hnone, clearRemaining, hp]
    | some c =>
      have hmoves := Moves.remove (L := { L with publisherManifests := cache }) hp .revoked
      have hclear := Moves.clear hmoves.after
      by_cases hx : x = m.masterKey
      · subst hx
        exact .inr ⟨rfl, h.1, h.2, c, hp, hclear.after⟩
      · exact .inl ((hclear.lookup_ne hx).trans (hmoves.lookup_ne hx))
  · rw [if_neg h]
    exact .inl rfl

/-- What makes a blob harmless to the order of the waiting lists of `q`. -/
structure Fair (P : ListCodec) (q : PublicKey) (now : ℕ) (globalManifest : Blob) (L : ValidatorList)
    (info : ValidatorBlobInfo) : Prop where
  unrevoked : ∀ m c, manifestOf P globalManifest info = some m → m.revoked = true →
    (L.publisherManifests.applyManifest P.toManifestCodec m).2 = .accepted →
    L.publisherLists.lookup m.masterKey = some c → c.remaining = []
  natural : ∀ m key list, manifestOf P globalManifest info = some m →
    (L.publisherLists.lookup m.masterKey).isSome →
    (applyPublisherManifest P L m).1.publisherManifests.getSigningKey m.masterKey = some key →
    SignedBy P info key → P.parse (P.base64Decode info.blob) = some list → list.Natural
  publisher : ∀ r, taken P L now globalManifest info = some r → r.1 = q
  effective : ∀ r c l, taken P L now globalManifest info = some r →
    L.publisherLists.lookup r.1 = some c → c.remaining.find r.2.number = some l → r.2.start ≤ now →
    l.validFrom ≤ now

/-! ### A call -/

theorem foldl_min_le {a n : ℕ} (l : List ℕ) : l.foldl min a ≤ n ↔ a ≤ n ∨ ∃ x ∈ l, x ≤ n := by
  induction l generalizing a with
  | nil => simp
  | cons x l ih => simp only [List.foldl_cons, ih, min_le_iff, List.mem_cons, exists_eq_or_imp, or_assoc]

theorem best_le_pending (stats : PublisherListStats) :
    stats.best ≤ ListDisposition.pending.rank ↔
      ∃ d ∈ stats.dispositions, d.rank ≤ ListDisposition.pending.rank := by
  rw [PublisherListStats.best, foldl_min_le, or_iff_right (by decide)]
  simp only [List.mem_map, exists_exists_and_eq_and]

/-- The better one of the results so far is kept, with what became of all the lists. -/
theorem applyBlob_result {s : Loop} {result stats : PublisherListStats} (hs : s.result = some result)
    (happly : applyList P s.lists now manifest info = (L', some stats)) :
    ∃ best, (applyBlob P now manifest s info).1 = ⟨L', some best⟩ ∧
      (best.best ≤ ListDisposition.pending.rank ↔
        stats.best ≤ ListDisposition.pending.rank ∨ result.best ≤ ListDisposition.pending.rank) ∧
      (best.publisherKey = stats.publisherKey ∧ stats.best ≤ result.best ∨
        best.publisherKey = result.publisherKey ∧ result.best ≤ stats.best) := by
  have hmerged : ∀ key status sequence,
      PublisherListStats.best ⟨stats.dispositions ++ result.dispositions, key, status, sequence⟩ ≤
        ListDisposition.pending.rank ↔ stats.best ≤ ListDisposition.pending.rank ∨
          result.best ≤ ListDisposition.pending.rank := by
    intro key status sequence
    rw [best_le_pending, best_le_pending, best_le_pending]
    simp only [List.mem_append, or_and_right, exists_or]
  rw [applyBlob, hs]
  dsimp only
  rw [happly]
  dsimp only
  split_ifs with hbetter
  · exact ⟨_, rfl, hmerged _ _ _, .inl ⟨rfl, by omega⟩⟩
  · exact ⟨_, rfl, hmerged _ _ _, .inr ⟨rfl, by omega⟩⟩

/-- What the loop of a call keeps, where `q` is the publisher whose lists it takes up. -/
def LoopHeld (P : ListCodec) (q : PublicKey) (now : ℕ) (H : PublicKey × ListJson → Prop)
    (s : Loop) : Prop :=
  ∃ result, s.result = some result ∧
    (result.best ≤ ListDisposition.pending.rank → result.publisherKey = some q) ∧
    ∀ p c, s.lists.publisherLists.lookup p = some c → Held P (fun list => H (p, list)) now c ∧
      (WaitingInOrder c ∨ p = q ∧ result.best ≤ ListDisposition.pending.rank)

theorem held_manifest {m : Manifest} (hfair : Fair P q now manifest L info)
    (hm : manifestOf P manifest info = some m) {Q : Prop}
    (h : ∀ c, L.publisherLists.lookup p = some c →
      Held P (fun list => H (p, list)) T c ∧ (WaitingInOrder c ∨ Q))
    (hp : (applyPublisherManifest P L m).1.publisherLists.lookup p = some c) :
    Held P (fun list => H (p, list)) T c ∧ (WaitingInOrder c ∨ Q) := by
  rcases lookup_manifest (P := P) L m p with heq | ⟨rfl, hrevoked, haccepted, c₀, hc, hlookup⟩
  · exact h c (heq ▸ hp)
  · obtain rfl := Option.some.inj (hlookup.symm.trans hp)
    have hnone := hfair.unrevoked m c₀ hm hrevoked haccepted hc
    have hsame : ({ removed c₀ .revoked with remaining := [] } : PublisherListCollection) =
        removed c₀ .revoked := by
      rw [removed, hnone]
    rw [hsame]
    exact (h c₀ hc).imp (fun h => h.removed _) fun h => h.imp_left fun h => h.removed _

theorem held_taken {m : Manifest} {d : ListDisposition} (hfair : Fair P q now manifest L info)
    (hheld : Held P (fun list => H (m.masterKey, list)) now c)
    (hp : L.publisherLists.lookup m.masterKey = some c)
    (htaken : taken P L now manifest info = some (m.masterKey, list))
    (htakes : TakesUp P now manifest info (applyPublisherManifest P L m).1 m c d list) :
    Held P (fun l => H (m.masterKey, l) ∨ l = list) now (collect P c d list).1 :=
  hheld.collect le_rfl htakes.disposition htakes.good fun hstart l hl =>
    hfair.effective _ c l htaken hp hl hstart

theorem LoopHeld.blob {s : Loop} (h : LoopHeld P q now H s)
    (hfair : s.result.isSome → Fair P q now manifest s.lists info) :
    LoopHeld P q now (fun r => H r ∨ s.result.isSome ∧ taken P s.lists now manifest info = some r)
      (applyBlob P now manifest s info).1 := by
  obtain ⟨result, hresult, hkey, hlists⟩ := h
  have hsome : s.result.isSome := by rw [hresult]; rfl
  have hfair := hfair hsome
  rcases applyList_spec (P := P) s.lists now manifest info with ⟨hnone, stats, hstats, hbest, hcases⟩ |
    ⟨m, c₀, c, key, list, hm, hconfigured, -, hsigning, hsigned, hparse, hc, hthrows⟩ |
    ⟨m, c, c', d, list, hp, htaken, htakes, heq⟩
  · have happly : applyList P s.lists now manifest info = (_, some stats) := Prod.ext rfl hstats
    obtain ⟨best, hblob, hle, hkeys⟩ := applyBlob_result hresult happly
    rw [hblob]
    refine ⟨best, rfl, fun hbest' => ?_, fun p c hp => ?_⟩
    · have hold := (hle.mp hbest').resolve_left (not_le.mpr hbest)
      rcases hkeys with ⟨-, hless⟩ | ⟨heq, -⟩
      · omega
      · rw [heq, hkey hold]
    · have hheld : Held P (fun list => H (p, list)) now c ∧
          (WaitingInOrder c ∨ p = q ∧ result.best ≤ ListDisposition.pending.rank) := by
        rcases hcases with heq | ⟨m, c₀, hm, -, heq⟩
        · exact hlists p c (heq ▸ hp)
        · exact held_manifest hfair hm (hlists p) (heq ▸ hp)
      refine ⟨hheld.1.congr fun list => ?_, hheld.2.imp_right fun h => ⟨h.1, hle.mpr (.inr h.2)⟩⟩
      rw [hnone]
      exact ⟨.inl, fun h => h.resolve_right fun h => by cases h.2⟩
  · have hheld := held_manifest hfair hm (hlists m.masterKey) hc
    exact absurd hthrows (disposition_ne_none
      (hfair.natural m key list hm (by rw [hconfigured]; rfl) hsigning hsigned hparse) fun _ => hheld.1.found)
  · have hq : m.masterKey = q := hfair.publisher _ htaken
    have hsame : c' = c := by
      rcases lookup_manifest (P := P) s.lists m m.masterKey with heq | ⟨-, hrevoked, -⟩
      · exact Option.some.inj ((htakes.collection.symm.trans heq).trans hp)
      · rw [htakes.current] at hrevoked
        cases hrevoked
    subst hsame
    obtain ⟨best, hblob, hle, hkeys⟩ := applyBlob_result hresult heq
    have hstats : PublisherListStats.best (acceptList P (applyPublisherManifest P s.lists m).1
        m.masterKey c' d list).2 ≤ ListDisposition.pending.rank :=
      (best_le_pending _).mpr ⟨d, List.mem_singleton_self d, htakes.good⟩
    rw [hblob]
    refine ⟨best, rfl, fun _ => ?_, fun p c hc => ?_⟩
    · rcases hkeys with ⟨heq, -⟩ | ⟨heq, hless⟩
      · rw [heq, ← hq]
        rfl
      · rw [heq, hkey (hless.trans hstats)]
    · have hmoves := Moves.accept (P := P) htakes.collection d list
      by_cases hpm : p = m.masterKey
      · subst hpm
        obtain rfl := Option.some.inj (hmoves.after.symm.trans hc)
        refine ⟨(held_taken hfair (hlists _ _ hp).1 hp htaken htakes).congr fun l => ?_,
          .inr ⟨hq, hle.mpr (.inl hstats)⟩⟩
        rw [htaken]
        refine or_congr_right ⟨?_, ?_⟩
        · rintro rfl
          exact ⟨hsome, rfl⟩
        · rintro ⟨-, h⟩
          exact (congrArg Prod.snd (Option.some.inj h)).symm
      · rw [hmoves.lookup_ne hpm] at hc
        have hheld := held_manifest hfair htakes.manifest (hlists p) hc
        refine ⟨hheld.1.congr fun l => ?_, hheld.2.imp_right fun h => ⟨h.1, hle.mpr (.inr h.2)⟩⟩
        rw [htaken]
        refine ⟨.inl, fun h => h.resolve_right fun h => ?_⟩
        exact hpm (congrArg Prod.fst (Option.some.inj h.2)).symm

theorem LoopHeld.cleanUp {s : Loop} (h : LoopHeld P q now H s)
    (hfollowed : ∀ c, s.lists.publisherLists.lookup q = some c →
      Followed c.current.sequence c.remaining)
    (hp : (cleanUp s).publisherLists.lookup p = some c) :
    Held P (fun list => H (p, list)) now c ∧ WaitingInOrder c := by
  obtain ⟨result, hresult, hkey, hlists⟩ := h
  rw [ValidatorList.cleanUp, hresult, Option.bind_some] at hp
  cases hcleaned : result.publisherKey with
  | none =>
    rw [hcleaned] at hp
    refine (hlists p c hp).imp_right fun h => h.resolve_right fun h => ?_
    rw [hkey h.2] at hcleaned
    cases hcleaned
  | some k =>
    rw [hcleaned] at hp
    dsimp only at hp
    have hbest : ∀ c, s.lists.publisherLists.lookup p = some c →
        Held P (fun list => H (p, list)) now c ∧ (WaitingInOrder c ∨ p = q ∧ k = q) := fun c hc =>
      (hlists p c hc).imp_right fun h => h.imp_right fun h =>
        ⟨h.1, Option.some.inj (hcleaned.symm.trans (hkey h.2))⟩
    cases hk : s.lists.publisherLists.lookup k with
    | none =>
      rw [hk] at hp
      refine (hbest c hp).imp_right fun h => h.resolve_right fun h => ?_
      rw [h.2, ← h.1, hp] at hk
      cases hk
    | some c₀ =>
      rw [hk] at hp
      dsimp only at hp
      by_cases hpk : p = k
      · subst hpk
        rw [AList.lookup_insert] at hp
        obtain rfl := Option.some.inj hp
        obtain ⟨hheld, horder⟩ := hbest c₀ hk
        refine ⟨hheld.tidy, hheld.inOrder_tidy ?_⟩
        rcases horder with horder | ⟨rfl, -⟩
        · exact followed_of_inOrder horder
        · exact hfollowed c₀ hk
      · rw [AList.lookup_insert_ne hpk] at hp
        exact (hbest c hp).imp_right fun h => h.resolve_right fun h => hpk (h.1.trans h.2.symm)

/-! ### Runs -/

/-- When an action is taken. -/
def Action.time : Action → ℕ
  | .applyLists now _ _ _ => now
  | .updateTrusted closeTime now => trustTime closeTime now

/-- A list of a publisher is taken up in a call. -/
def TakenUp (P : ListCodec) (r : PublicKey × ListJson) (L : ValidatorList) : Action → Prop
  | .applyLists now manifest version blobs => version ∈ kSupportedListVersions ∧
    Run.Sometime (applyBlob P now manifest)
      (fun s info => s.result.isSome ∧ taken P s.lists now manifest info = some r) (.start L) blobs
  | .updateTrusted _ _ => False

/-- The blobs of a call are harmless to the lists of one publisher, and when the clean-up of its waiting
lists begins, each that is superseded is directly followed by one that supersedes it. -/
def Orderly (P : ListCodec) (L : ValidatorList) : Action → Prop
  | .applyLists now manifest version blobs => version ∈ kSupportedListVersions → ∃ q,
    Run.Always (applyBlob P now manifest)
      (fun s info => s.result.isSome → Fair P q now manifest s.lists info) (.start L) blobs ∧
    ∀ c, (Run.final (applyBlob P now manifest) (.start L) blobs).lists.publisherLists.lookup q = some c →
      Followed c.current.sequence c.remaining
  | .updateTrusted _ _ => True

/-- No lookup fails in a call, and a trust update leaves the newest list current of those taken up. -/
def Sound (P : ListCodec) (H : PublicKey × ListJson → Prop) (L : ValidatorList) : Action → Prop
  | .applyLists now manifest version blobs => version ∈ kSupportedListVersions →
    (Run.final (applyBlob P now manifest) (.start L) blobs).result ≠ none
  | .updateTrusted closeTime now =>
    ∀ p c, (updateTrusted P L closeTime now).publisherLists.lookup p = some c →
      Newest P (fun list => H (p, list)) (trustTime closeTime now) c

/-- The lists that have been taken up are held, and those that wait are in order. -/
def Scheduled (P : ListCodec) (H : PublicKey × ListJson → Prop) (T : ℕ) (L : ValidatorList) : Prop :=
  ∀ p c, L.publisherLists.lookup p = some c → Held P (fun list => H (p, list)) T c ∧ WaitingInOrder c

theorem Scheduled.mono (h : Scheduled P H T L) (hT : T ≤ t) : Scheduled P H t L :=
  fun p c hp => (h p c hp).imp_left fun h => h.mono hT

theorem Scheduled.congr {H' : PublicKey × ListJson → Prop} (h : Scheduled P H T L)
    (hH : ∀ r, H r ↔ H' r) : Scheduled P H' T L :=
  fun p c hp => (h p c hp).imp_left fun h => h.congr fun list => hH (p, list)

theorem Scheduled.loop (h : Scheduled P H now L) {blobs : List ValidatorBlobInfo}
    (hblobs : Run.Always (applyBlob P now manifest)
      (fun s info => s.result.isSome → Fair P q now manifest s.lists info) (.start L) blobs) :
    LoopHeld P q now
      (fun r => H r ∨ Run.Sometime (applyBlob P now manifest)
        (fun s info => s.result.isSome ∧ taken P s.lists now manifest info = some r) (.start L) blobs)
      (Run.final (applyBlob P now manifest) (.start L) blobs) := by
  refine Run.invariant_history (LoopHeld P q now) (fun H s info h hfair => h.blob hfair) ?_ hblobs
  exact ⟨_, rfl, fun hbest => absurd hbest (by decide), fun p c hp => (h p c hp).imp_right .inl⟩

theorem Scheduled.step (h : Scheduled P H T L) {a : Action} (hT : T ≤ a.time) (ha : Orderly P L a) :
    Scheduled P (fun r => H r ∨ TakenUp P r L a) a.time (step P L a).1 ∧ Sound P H L a := by
  cases a with
  | applyLists now manifest version blobs =>
    have hmono : Scheduled P H now L := h.mono hT
    rcases applyLists_eq (P := P) L now manifest version blobs with ⟨hversion, heq⟩ | ⟨hversion, heq⟩
    · refine ⟨?_, fun hsupported => absurd hsupported hversion⟩
      rw [ValidatorList.step, heq]
      exact hmono.congr fun r => ⟨.inl, fun h => h.resolve_right fun h => hversion h.1⟩
    · obtain ⟨q, hblobs, hfollowed⟩ := ha hversion
      have hloop := hmono.loop hblobs
      refine ⟨?_, fun _ => ?_⟩
      · rw [ValidatorList.step, heq]
        intro p c hp
        refine (hloop.cleanUp hfollowed hp).imp_left fun hheld => hheld.congr fun list => ?_
        exact or_congr_right ⟨fun h => ⟨hversion, h⟩, And.right⟩
      · obtain ⟨result, hresult, -⟩ := hloop
        rw [hresult]
        exact Option.some_ne_none _
  | updateTrusted closeTime now =>
    have hspec : ∀ p c, (updateTrusted P L closeTime now).publisherLists.lookup p = some c →
        Held P (fun list => H (p, list)) (trustTime closeTime now) c ∧ WaitingInOrder c ∧
          Settled (trustTime closeTime now) c :=
      fun p c hp => refreshAll_spec (h p) hT hp
    refine ⟨Scheduled.congr (fun p c hp => ?_) fun r => by rw [TakenUp, or_false], fun p c hp => ?_⟩
    · exact ⟨(hspec p c hp).1, (hspec p c hp).2.1⟩
    · exact (hspec p c hp).1.newest (hspec p c hp).2.2

theorem Scheduled.run (h : Scheduled P H 0 L) {actions : List Action}
    (htimes : actions.Pairwise fun a b => a.time ≤ b.time)
    (hrun : Run.Always (ValidatorList.step P) (Orderly P) L actions) (hT : ∀ a ∈ actions, a.time ≤ T) :
    Scheduled P (fun r => H r ∨ Run.Sometime (ValidatorList.step P) (TakenUp P r) L actions) T
      (Run.final (ValidatorList.step P) L actions) := by
  induction actions using List.reverseRecOn generalizing T with
  | nil => exact (h.mono (Nat.zero_le T)).congr fun r => by rw [Run.Sometime, or_false]
  | append_singleton actions a ih =>
    obtain ⟨hbefore, -, hlast⟩ := List.pairwise_append.mp htimes
    obtain ⟨hrun, hlastRun⟩ := Run.always_append.mp hrun
    have hstep := (ih hbefore hrun fun b hb => hlast b hb a List.mem_cons_self).step le_rfl hlastRun.1
    rw [Run.final_append]
    refine (hstep.1.mono (hT a (by simp))).congr fun r => ?_
    rw [Run.sometime_concat, or_assoc]

variable {validatorManifests publisherManifests : ManifestCache} {config : Config}

theorem scheduled_load :
    Scheduled P (fun _ => False) 0 (load validatorManifests publisherManifests config) := by
  intro p c hp
  obtain ⟨-, hlists, -⟩ := load_spec validatorManifests publisherManifests config
  rw [hlists p c hp]
  exact ⟨⟨.nil, by simp, .inl rfl, by simp, by simp, fun _ h => h.elim, fun _ h => h.elim⟩,
    ⟨.nil, by simp, .nil, by simp⟩⟩

/-- Waiting lists go live in order and on time: in an orderly run with times that do not decrease, after
each action a publisher's waiting lists are in order, no call is ended by a lookup that fails, and after a
trust update the current list is the newest of those taken up that have taken effect. -/
theorem pending_lists_run (P : ListCodec) (validatorManifests publisherManifests : ManifestCache)
    (config : Config) (before : List Action) (a : Action)
    (htimes : (before ++ [a]).Pairwise fun a b => a.time ≤ b.time)
    (hrun : Run.Always (step P) (Orderly P) (load validatorManifests publisherManifests config)
      (before ++ [a])) :
    let L₀ := load validatorManifests publisherManifests config
    let L := Run.final (step P) L₀ before
    (∀ p c, (step P L a).1.publisherLists.lookup p = some c → WaitingInOrder c) ∧
      Sound P (fun r => Run.Sometime (step P) (TakenUp P r) L₀ before) L a := by
  intro L₀ L
  obtain ⟨hbefore, -, hlast⟩ := List.pairwise_append.mp htimes
  obtain ⟨hrun, hlastRun⟩ := Run.always_append.mp hrun
  have hscheduled := scheduled_load.run hbefore hrun fun b hb => hlast b hb a List.mem_cons_self
  have hnone : Scheduled P (fun r => Run.Sometime (step P) (TakenUp P r) L₀ before) a.time L :=
    hscheduled.congr fun r => by rw [false_or]
  obtain ⟨hafter, hsound⟩ := hnone.step le_rfl hlastRun.1
  exact ⟨fun p c hp => (hafter p c hp).2, hsound⟩

/-! ### Three lists -/

/-- A list without validators that takes effect at a time, and is good until the hundredth second. -/
def Sample.dated (sequence start : ℤ) : ListJson := ⟨some sequence, some 100, some (some start), some []⟩

def Sample.schedule : Blob → Option ListJson
  | [21] => some (dated 1 0)
  | [22] => some (dated 2 20)
  | [23] => some (dated 3 30)
  | [24] => some (dated 4 10)
  | _ => none

def Sample.scheduleCodec : ListCodec := { Sample.codec with parse := Sample.schedule }

def Sample.publishers : ValidatorList := load .empty .empty ⟨none, [], [Sample.key 0], none⟩

/-- Lists of the publisher, sent in one call. -/
def Sample.sendAll (now : ℕ) (lists : List Blob) : Action :=
  .applyLists now [1] 1 (lists.map fun list => ⟨list, (Sample.key 1).slice, none⟩)

theorem Sample.fair_second :
    Fair Sample.scheduleCodec (Sample.key 0) 5 [1] Sample.publishers
      ⟨[22], (Sample.key 1).slice, none⟩ where
  unrevoked m c hm hrevoked := by
    have hregular : (manifestOf Sample.scheduleCodec [1] ⟨[22], (Sample.key 1).slice, none⟩).map
        Manifest.revoked = some false := by decide +kernel
    rw [hm, Option.map_some, hrevoked] at hregular
    cases hregular
  natural m key list _ _ _ _ hparse := by
    obtain rfl := Option.some.inj hparse
    refine ⟨?_, ?_, ?_⟩ <;> rintro n ⟨⟩ <;> decide
  publisher r hr := by
    have hkey : (taken Sample.scheduleCodec Sample.publishers 5 [1]
        ⟨[22], (Sample.key 1).slice, none⟩).map Prod.fst = some (Sample.key 0) := by decide +kernel
    rw [hr] at hkey
    exact Option.some.inj hkey
  effective r c l _ hc hl := by
    obtain ⟨-, hlists, -⟩ := load_spec .empty .empty ⟨none, [], [Sample.key 0], none⟩
    rw [hlists r.1 c hc] at hl
    cases hl

theorem pending_lists_run_one : ∃ c,
    (step Sample.scheduleCodec (Run.final (step Sample.scheduleCodec) Sample.publishers
      [Sample.sendAll 5 [[22]]]) (.updateTrusted 20 20)).1.publisherLists.lookup (Sample.key 0) = some c ∧
    WaitingInOrder c ∧ c.current.sequence = 2 ∧
    Newest Sample.scheduleCodec (fun list => Run.Sometime (step Sample.scheduleCodec)
      (TakenUp Sample.scheduleCodec (Sample.key 0, list)) Sample.publishers [Sample.sendAll 5 [[22]]])
      20 c := by
  have horderly : Orderly Sample.scheduleCodec Sample.publishers (Sample.sendAll 5 [[22]]) := by
    refine fun _ => ⟨Sample.key 0, ⟨fun _ => Sample.fair_second, trivial⟩, fun c hc => ?_⟩
    have hone : ((Run.final (applyBlob Sample.scheduleCodec 5 [1]) (.start Sample.publishers)
        [⟨[22], (Sample.key 1).slice, none⟩]).lists.publisherLists.lookup (Sample.key 0)).map
          (fun c => c.remaining.length) = some 1 := by decide +kernel
    have hlength : c.remaining.length = 1 := Option.some.inj ((congrArg _ hc).symm.trans hone)
    rintro e rest hsuffix - ⟨f, hf, -⟩
    have hle := hsuffix.length_le
    rw [List.length_cons, hlength] at hle
    rw [List.length_eq_zero_iff.mp (by omega : rest.length = 0)] at hf
    cases hf
  obtain ⟨horder, hsound⟩ := pending_lists_run Sample.scheduleCodec .empty .empty
    ⟨none, [], [Sample.key 0], none⟩ [Sample.sendAll 5 [[22]]] (.updateTrusted 20 20)
    (by decide) ⟨horderly, trivial, trivial⟩
  have hcurrent : ((step Sample.scheduleCodec (Run.final (step Sample.scheduleCodec) Sample.publishers
      [Sample.sendAll 5 [[22]]]) (.updateTrusted 20 20)).1.publisherLists.lookup (Sample.key 0)).map
        (fun c => c.current.sequence) = some 2 := by decide +kernel
  obtain ⟨c, hc, hsequence⟩ := Option.map_eq_some_iff.mp hcurrent
  exact ⟨c, hc, horder _ c hc, hsequence, hsound _ c hc⟩

/-- A fourth list that takes effect before the second and the third leaves the second one waiting in front
of it, and is not made current at its time. -/
theorem pending_lists_run_late :
    let L₁ := Run.final (step Sample.scheduleCodec) Sample.publishers
      [Sample.sendAll 5 [[21], [22], [23]], Sample.sendAll 6 [[24]]]
    let L₂ := (step Sample.scheduleCodec L₁ (.updateTrusted 12 12)).1
    (L₁.publisherLists.lookup (Sample.key 0)).map
        (fun c => c.remaining.map fun e => (e.1, e.2.validFrom)) = some [(2, 20), (4, 10)] ∧
      (L₂.publisherLists.lookup (Sample.key 0)).map
        (fun c => (c.current.sequence, c.remaining.map Prod.fst)) = some (1, [2, 4]) := by
  decide +kernel

end FalconLedger.ValidatorList
