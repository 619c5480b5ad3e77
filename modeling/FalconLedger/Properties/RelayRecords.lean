import FalconLedger.Properties.BridgeOut
import FalconLedger.Properties.DepositRecords
import FalconLedger.Properties.RelayMints

/-!
# What the relays have in their records

The withdraw relay moves its last ledger to that of the newest payment it has released. It has
released every payment below, as long as no poll that releases one misses an older one (`InOrder`).
-/

namespace FalconLedger.WithdrawRelay

variable {W : Type} {H : Setup W} {b b' : Bridge W} [DecidableEq W]

/-! ### Releases of a poll -/

/-- The releases that a poll tries, and whether they succeed. -/
def tried (H : Setup W) (dryRun : Bool) :
    List Candidate → List W → List Outcome → List (Candidate × Bool)
  | [], _, _ => []
  | _ :: _, _, [] => []
  | c :: rest, released, outcome :: outcomes =>
    if c.wid H ∈ released then tried H dryRun rest released (outcome :: outcomes)
    else if dryRun || outcome.success then
      (c, true) :: tried H dryRun rest (released ++ [c.wid H]) outcomes
    else (c, false) :: tried H dryRun rest released outcomes

/-- What the server sends for a poll. -/
def Bridge.response (b : Bridge W) (sends : Entry → Bool) : List Entry :=
  b.ledger.filter fun e => decide (b.memory.lastLedger ≤ e.ledgerIndex) && sends e

/-- Transactions come ledger by ledger, and a poll that releases a payment has been sent every older one
that is not below the last ledger, and fails to release none of them. -/
def InOrder (H : Setup W) (b : Bridge W) : Action → Prop
  | .applied entry => ∀ e ∈ b.ledger, e.ledgerIndex ≤ entry.ledgerIndex
  | .poll dryRun sends outcomes =>
    ∀ candidates, fetchWithdrawalCandidates H (b.response sends) = some candidates →
      ∀ t ∈ tried H dryRun candidates b.memory.releasedWithdrawals outcomes, t.2 = true →
        ∀ e ∈ b.ledger, ∀ c, candidateOf H e = some (some c) →
          b.memory.lastLedger ≤ e.ledgerIndex → e.ledgerIndex < t.1.ledgerIndex →
          sends e = true ∧
            (c, false) ∉ tried H dryRun candidates b.memory.releasedWithdrawals outcomes
  | .restart => True

/-- Each payment in a ledger below the last one has been released. -/
structure Saved.Covers (H : Setup W) (ledger : List Entry) (s : Saved W) : Prop where
  released : ∀ e ∈ ledger, ∀ c, candidateOf H e = some (some c) → e.ledgerIndex < s.lastLedger →
    c.wid H ∈ s.releasedWithdrawals
  within : s.lastLedger = 0 ∨ ∃ e ∈ ledger, s.lastLedger ≤ e.ledgerIndex

/-- More has been released, and the last ledger is the same. -/
structure Saved.Grows (s s' : Saved W) : Prop where
  lastLedger : s'.lastLedger = s.lastLedger
  released : s.releasedWithdrawals ⊆ s'.releasedWithdrawals

/-- What a poll changes while it releases. -/
structure Bridge.Releases (b b' : Bridge W) : Prop where
  ledger : b'.ledger = b.ledger
  memory : b.memory.Grows b'.memory
  file : b'.file = b.file ∨ b.memory.Grows b'.file

variable {s s' s'' : Saved W} {ledger : List Entry}

omit [DecidableEq W] in
theorem Saved.Grows.refl (s : Saved W) : s.Grows s := ⟨rfl, List.Subset.refl _⟩

omit [DecidableEq W] in
theorem Saved.Grows.trans (h : s.Grows s') (h' : s'.Grows s'') : s.Grows s'' :=
  ⟨h'.lastLedger.trans h.lastLedger, List.Subset.trans h.released h'.released⟩

omit [DecidableEq W] in
theorem Saved.Grows.covers (h : s.Grows s') (hs : s.Covers H ledger) : s'.Covers H ledger where
  released e he c hc hlt := h.released (hs.released e he c hc (h.lastLedger ▸ hlt))
  within := by
    rw [h.lastLedger]
    exact hs.within

omit [DecidableEq W] in
theorem Bridge.Releases.refl (b : Bridge W) : b.Releases b := ⟨rfl, .refl _, .inl rfl⟩

omit [DecidableEq W] in
theorem Bridge.Releases.trans {b'' : Bridge W} (h : b.Releases b') (h' : b'.Releases b'') :
    b.Releases b'' where
  ledger := h'.ledger.trans h.ledger
  memory := h.memory.trans h'.memory
  file := by
    rcases h'.file with heq | hgrows
    · rw [heq]
      exact h.file
    · exact .inr (h.memory.trans hgrows)

omit [DecidableEq W] in
theorem releases_recorded (paid : List (W × ℕ)) (wid : W) (save : Bool) :
    b.Releases { b with
      paid
      memory := ⟨b.memory.releasedWithdrawals ++ [wid], b.memory.lastLedger⟩
      file := if save then ⟨b.memory.releasedWithdrawals ++ [wid], b.memory.lastLedger⟩ else b.file } where
  ledger := rfl
  memory := ⟨rfl, List.subset_append_left _ _⟩
  file := by
    cases save
    · exact .inl rfl
    · exact .inr ⟨rfl, List.subset_append_left _ _⟩

theorem releaseAll_cons (dryRun : Bool) (c : Candidate) (rest : List Candidate) (outcome : Outcome)
    (outcomes : List Outcome) (maxLedger : ℕ) (hnew : c.wid H ∉ b.memory.releasedWithdrawals) :
    ∃ b₁ : Bridge W, b.Releases b₁ ∧
      ((dryRun || outcome.success) = true ∧
          b₁.memory.releasedWithdrawals = b.memory.releasedWithdrawals ++ [c.wid H] ∧
          (releaseAll H dryRun (c :: rest) (outcome :: outcomes) maxLedger b =
              releaseAll H dryRun rest outcomes (max maxLedger c.ledgerIndex) b₁ ∨
            releaseAll H dryRun (c :: rest) (outcome :: outcomes) maxLedger b = (b₁, none)) ∨
        (dryRun || outcome.success) = false ∧
          b₁.memory.releasedWithdrawals = b.memory.releasedWithdrawals ∧
          releaseAll H dryRun (c :: rest) (outcome :: outcomes) maxLedger b =
            releaseAll H dryRun rest outcomes maxLedger b₁) := by
  rw [releaseAll, if_neg hnew, releaseOnSepolia]
  cases dryRun with
  | true =>
    exact ⟨_, releases_recorded b.paid (c.wid H) false, .inl ⟨rfl, rfl, .inl rfl⟩⟩
  | false =>
    cases hsuccess : outcome.success with
    | false =>
      simp only [Bool.false_eq_true, if_false]
      exact ⟨{ b with paid := lockPays b.paid (c.wid H) c.amountRaw outcome },
        ⟨rfl, .refl _, .inl rfl⟩, .inr ⟨rfl, rfl, rfl⟩⟩
    | true =>
      simp only [Bool.false_eq_true, if_false, if_true]
      cases hsaved : outcome.saved with
      | false =>
        exact ⟨_, releases_recorded (lockPays b.paid (c.wid H) c.amountRaw outcome) (c.wid H) false,
          .inl ⟨rfl, rfl, .inr rfl⟩⟩
      | true =>
        exact ⟨_, releases_recorded (lockPays b.paid (c.wid H) c.amountRaw outcome) (c.wid H) true,
          .inl ⟨rfl, rfl, .inl rfl⟩⟩

theorem releaseAll_releases (dryRun : Bool) (candidates : List Candidate) (outcomes : List Outcome)
    (maxLedger : ℕ) : b.Releases (releaseAll H dryRun candidates outcomes maxLedger b).1 := by
  induction candidates generalizing outcomes maxLedger b with
  | nil => exact .refl b
  | cons c rest ih =>
    cases outcomes with
    | nil => exact .refl b
    | cons outcome outcomes =>
      by_cases hdone : c.wid H ∈ b.memory.releasedWithdrawals
      · rw [releaseAll, if_pos hdone]
        exact ih _ _
      · obtain ⟨b₁, hb₁, ⟨-, -, heq | heq⟩ | ⟨-, -, heq⟩⟩ :=
          releaseAll_cons dryRun c rest outcome outcomes maxLedger hdone
        · rw [heq]
          exact hb₁.trans (ih _ _)
        · rw [heq]
          exact hb₁
        · rw [heq]
          exact hb₁.trans (ih _ _)

/-- A loop that comes to its end has released each candidate or failed to, and the ledger it has reached
is where it was or that of a release. -/
theorem releaseAll_done (dryRun : Bool) (candidates : List Candidate) (outcomes : List Outcome)
    {maxLedger reached : ℕ}
    (h : releaseAll H dryRun candidates outcomes maxLedger b = (b', some reached)) :
    (∀ c ∈ candidates, c.wid H ∈ b'.memory.releasedWithdrawals ∨
      (c, false) ∈ tried H dryRun candidates b.memory.releasedWithdrawals outcomes) ∧
    (reached = maxLedger ∨ ∃ t ∈ tried H dryRun candidates b.memory.releasedWithdrawals outcomes,
      t.2 = true ∧ reached = t.1.ledgerIndex) := by
  induction candidates generalizing outcomes maxLedger b with
  | nil =>
    cases h
    exact ⟨List.forall_mem_nil _, .inl rfl⟩
  | cons c rest ih =>
    cases outcomes with
    | nil => cases h
    | cons outcome outcomes =>
      have hreleases := releaseAll_releases (H := H) (b := b) dryRun (c :: rest) (outcome :: outcomes)
        maxLedger
      rw [h] at hreleases
      by_cases hdone : c.wid H ∈ b.memory.releasedWithdrawals
      · rw [releaseAll, if_pos hdone] at h
        obtain ⟨hall, hreached⟩ := ih _ h
        rw [tried, if_pos hdone]
        exact ⟨List.forall_mem_cons.mpr ⟨.inl (hreleases.memory.released hdone), hall⟩, hreached⟩
      · obtain ⟨b₁, -, ⟨hsuccess, hreleased, heq | heq⟩ | ⟨hsuccess, hreleased, heq⟩⟩ :=
          releaseAll_cons dryRun c rest outcome outcomes maxLedger hdone
        · rw [heq] at h
          have hgrown := releaseAll_releases (H := H) (b := b₁) dryRun rest outcomes
            (max maxLedger c.ledgerIndex)
          rw [h] at hgrown
          obtain ⟨hall, hreached⟩ := ih _ h
          rw [tried, if_neg hdone, if_pos hsuccess, ← hreleased]
          refine ⟨List.forall_mem_cons.mpr ⟨.inl (hgrown.memory.released ?_), fun c' hc' =>
            (hall c' hc').imp_right (List.mem_cons_of_mem _)⟩, ?_⟩
          · rw [hreleased]
            exact List.mem_append_right _ List.mem_cons_self
          · rcases hreached with heq | ⟨t, ht, htrue⟩
            · rcases max_choice maxLedger c.ledgerIndex with hmax | hmax
              · exact .inl (heq.trans hmax)
              · exact .inr ⟨(c, true), List.mem_cons_self, rfl, heq.trans hmax⟩
            · exact .inr ⟨t, List.mem_cons_of_mem _ ht, htrue⟩
        · rw [heq] at h
          cases h
        · rw [heq] at h
          obtain ⟨hall, hreached⟩ := ih _ h
          rw [tried, if_neg hdone, if_neg (by rw [hsuccess]; exact Bool.false_ne_true), ← hreleased]
          refine ⟨List.forall_mem_cons.mpr ⟨.inr List.mem_cons_self, fun c' hc' =>
            (hall c' hc').imp_right (List.mem_cons_of_mem _)⟩, ?_⟩
          rcases hreached with heq | ⟨t, ht, htrue⟩
          · exact .inl heq
          · exact .inr ⟨t, List.mem_cons_of_mem _ ht, htrue⟩

/-! ### Polls -/

omit [DecidableEq W] in
theorem mem_candidates {response : List Entry} {candidates : List Candidate} {e : Entry} {c : Candidate}
    (h : fetchWithdrawalCandidates H response = some candidates) (he : e ∈ response)
    (hc : candidateOf H e = some (some c)) : c ∈ candidates := by
  obtain ⟨found, hfound, rfl⟩ := Option.map_eq_some_iff.mp h
  refine List.mem_filterMap.mpr ⟨some c, ?_, rfl⟩
  clear h
  induction response generalizing found with
  | nil => cases he
  | cons e' rest ih =>
    simp only [List.mapM_cons, Option.bind_eq_bind, Option.bind_eq_some_iff, Option.pure_def,
      Option.some.injEq] at hfound
    obtain ⟨z, hz, found', hfound', rfl⟩ := hfound
    rcases List.mem_cons.mp he with rfl | he
    · rw [hc] at hz
      rw [← Option.some.inj hz]
      exact List.mem_cons_self
    · exact List.mem_cons_of_mem _ (ih he found' hfound')

omit [DecidableEq W] in
theorem candidateOf_ledgerIndex {e : Entry} {c : Candidate} (h : candidateOf H e = some (some c)) :
    c.ledgerIndex = e.ledgerIndex := by
  rw [candidateOf] at h
  split at h
  · cases h
  split at h
  · cases h
  split at h
  · cases h
  split at h
  · cases h
  split at h
  · cases h
  obtain ⟨raw, -, heq⟩ := Option.map_eq_some_iff.mp h
  cases heq
  rfl

theorem mem_of_mem_tried {dryRun : Bool} {candidates : List Candidate} {released : List W}
    {outcomes : List Outcome} {t : Candidate × Bool}
    (h : t ∈ tried H dryRun candidates released outcomes) : t.1 ∈ candidates := by
  induction candidates generalizing released outcomes with
  | nil => cases h
  | cons c rest ih =>
    cases outcomes with
    | nil => cases h
    | cons outcome outcomes =>
      rw [tried] at h
      split_ifs at h
      · exact List.mem_cons_of_mem _ (ih h)
      · rcases List.mem_cons.mp h with rfl | h
        · exact List.mem_cons_self
        · exact List.mem_cons_of_mem _ (ih h)
      · rcases List.mem_cons.mp h with rfl | h
        · exact List.mem_cons_self
        · exact List.mem_cons_of_mem _ (ih h)

/-- The memory and the file of the relay cover the ledger. -/
def Bridge.Covered (H : Setup W) (b : Bridge W) : Prop :=
  b.memory.Covers H b.ledger ∧ b.file.Covers H b.ledger

omit [DecidableEq W] in
theorem Bridge.Covered.releases (h : b.Covered H) (hb : b.Releases b') : b'.Covered H := by
  rw [Bridge.Covered, hb.ledger]
  refine ⟨hb.memory.covers h.1, ?_⟩
  rcases hb.file with heq | hgrows
  · rw [heq]
    exact h.2
  · exact hgrows.covers h.1

theorem Bridge.Covered.poll (h : b.Covered H) (dryRun : Bool) (sends : Entry → Bool)
    (outcomes : List Outcome) (horder : InOrder H b (.poll dryRun sends outcomes)) :
    (processWithdrawals H b dryRun sends outcomes).Covered H := by
  have horder := horder
  simp only [InOrder, Bridge.response] at horder
  simp only [processWithdrawals]
  split
  · exact h
  next candidates hfetch =>
    have hreleases := releaseAll_releases (H := H) (b := b) dryRun candidates outcomes
      b.memory.lastLedger
    split
    · next b' heq =>
      rw [heq] at hreleases
      exact h.releases hreleases
    · next b' reached heq =>
      rw [heq] at hreleases
      have hcovered : b'.Covered H := h.releases hreleases
      by_cases hmoved : b.memory.lastLedger < reached
      swap
      · rw [if_neg hmoved]
        exact hcovered
      rw [if_pos hmoved]
      obtain ⟨hall, hreached⟩ := releaseAll_done dryRun candidates outcomes heq
      obtain ⟨t, ht, htrue, rfl⟩ := hreached.resolve_left hmoved.ne'
      have hmemory : Saved.Covers H b'.ledger { b'.memory with lastLedger := t.1.ledgerIndex } := by
        constructor
        · intro e he c hc hlt
          rw [hreleases.ledger] at he
          rcases lt_or_ge e.ledgerIndex b.memory.lastLedger with hbelow | habove
          · exact hreleases.memory.released (h.1.released e he c hc hbelow)
          · obtain ⟨hsent, hnot⟩ := horder candidates hfetch t ht htrue e he c hc habove hlt
            have hresponse : e ∈ b.ledger.filter fun e =>
                decide (b.memory.lastLedger ≤ e.ledgerIndex) && sends e := by
              refine List.mem_filter.mpr ⟨he, ?_⟩
              rw [hsent, Bool.and_true]
              exact decide_eq_true habove
            exact (hall c (mem_candidates hfetch hresponse hc)).resolve_right hnot
        · obtain ⟨e, he, hcandidate⟩ := mem_fetchWithdrawalCandidates hfetch (mem_of_mem_tried ht)
          rw [hreleases.ledger]
          exact .inr ⟨e, (List.mem_filter.mp he).1, (candidateOf_ledgerIndex hcandidate).le⟩
      cases dryRun with
      | true => exact ⟨hmemory, hcovered.2⟩
      | false => exact ⟨hmemory, hmemory⟩

omit [DecidableEq W] in
theorem Saved.Covers.applied {entry : Entry} (h : s.Covers H ledger)
    (hlast : ∀ e ∈ ledger, e.ledgerIndex ≤ entry.ledgerIndex) : s.Covers H (entry :: ledger) where
  released e he c hc hlt := by
    rcases List.mem_cons.mp he with rfl | he
    · rcases h.within with hzero | ⟨e', he', hle⟩
      · exact absurd (hzero ▸ hlt) (Nat.not_lt_zero _)
      · exact absurd (hlt.trans_le (hle.trans (hlast e' he'))) (lt_irrefl _)
    · exact h.released e he c hc hlt
  within := h.within.imp_right fun ⟨e, he, hle⟩ => ⟨e, List.mem_cons_of_mem _ he, hle⟩

theorem Bridge.Covered.step (h : b.Covered H) (a : Action) (ha : InOrder H b a) :
    (step H b a).1.Covered H := by
  cases a with
  | applied entry => exact ⟨h.1.applied ha, h.2.applied ha⟩
  | poll dryRun sends outcomes => exact h.poll dryRun sends outcomes ha
  | restart => exact ⟨h.2, h.2⟩

theorem run_covered {actions : List Action} (h : b.Covered H)
    (hactions : Run.Always (step H) (InOrder H) b actions) :
    (Run.final (step H) b actions).Covered H :=
  Run.invariant (Bridge.Covered H) (fun _ a hb ha => hb.step a ha) h hactions

theorem inOrder_of_one {b : Bridge W} (e : Entry) (h : b.ledger = [e]) {dryRun : Bool}
    {sends : Entry → Bool} {outcomes : List Outcome} : InOrder H b (.poll dryRun sends outcomes) := by
  intro candidates hfetch t ht _ e' he' c _ _ hlt
  obtain ⟨e'', he'', hcandidate⟩ := mem_fetchWithdrawalCandidates hfetch (mem_of_mem_tried ht)
  have he'' : e'' ∈ b.ledger := (List.mem_filter.mp he'').1
  rw [h] at he' he''
  rw [candidateOf_ledgerIndex hcandidate, List.mem_singleton.mp he', List.mem_singleton.mp he''] at hlt
  exact absurd hlt (lt_irrefl _)

/-- A payment that is released. -/
def Sample.released : List Action :=
  [.applied (Sample.payment 1000), .poll false (fun _ => true) [⟨true, true, true⟩]]

end FalconLedger.WithdrawRelay

namespace FalconLedger

open Program Minting

namespace DepositRelay.Sample

/-- A poll in which the trust line of a deposit is missing. -/
def untrusted : List (Act Fate Event Args) :=
  .env (.block [log]) :: .start ⟨1, false⟩ :: answered 8 ++ .resume .fails :: answered 5

/-- A poll in which a mint is refused. -/
def refused : List (Act Fate Event Args) :=
  .env (.block [log]) :: upToSubmit ++ .resume .refused :: answered 3

end DepositRelay.Sample

end FalconLedger
