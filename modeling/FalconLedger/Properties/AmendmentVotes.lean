import FalconLedger.Consensus.AmendmentTable
import FalconLedger.Data.Run
import Mathlib.Algebra.BigOperators.Group.Finset.Basic

/-!
# One vote for each trusted validator

What the table has on record is compared with the history of the calls: for every trusted validator
its latest validation since it was last trusted, and when that was seen. A validator votes for what
the latest validation lists while that has not expired.
-/

namespace FalconLedger

namespace AmendmentTable

variable {K : Type} [DecidableEq K]

/-! ### The history -/

/-- What has been seen of the validators that are trusted now. -/
structure History (K : Type) where
  trusted : Finset K
  /-- The choices in the latest validation, and the close time of the round it was seen in. -/
  latest : K → Option (List UInt256 × ℕ)
  now : ℕ

namespace History

def empty : History K := ⟨∅, fun _ => none, 0⟩

/-- What was seen of a validator that stays trusted is kept. -/
def trustChanged (h : History K) (allTrusted : List K) : History K :=
  { h with
    trusted := allTrusted.toFinset
    latest := fun v => if v ∈ h.trusted ∧ v ∈ allTrusted then h.latest v else none }

/-- A validation of a trusted validator is seen. -/
def see (closeTime : ℕ) (h : History K) (val : STValidation K) : History K :=
  if val.signerPublic ∈ h.trusted then
    { h with
      latest := Function.update h.latest val.signerPublic
        (some (val.amendments.getD [], closeTime)) }
  else h

def record (h : History K) : Event K → History K
  | .trustChanged allTrusted => h.trustChanged allTrusted
  | .doVoting round => { round.valSet.foldl (see round.closeTime) h with now := round.closeTime }

/-- The latest validation of a validator, if it has not expired. -/
def unexpired (h : History K) (v : K) : Option (List UInt256 × ℕ) :=
  (h.latest v).filter fun seen => h.now ≤ seen.2 + kExpiresAfter

/-- The trusted validators that have a latest validation which has not expired. -/
def available (h : History K) : Finset K := h.trusted.filter fun v => (h.unexpired v).isSome

/-- Those whose latest validation lists the amendment. -/
def voters (h : History K) (amendment : UInt256) : Finset K :=
  h.trusted.filter fun v => (h.unexpired v).any fun seen => seen.1.contains amendment

omit [DecidableEq K] in
theorem voters_subset (h : History K) (amendment : UInt256) :
    h.voters amendment ⊆ h.available := by
  intro v hv
  obtain ⟨htrusted, hany⟩ := Finset.mem_filter.mp hv
  refine Finset.mem_filter.mpr ⟨htrusted, ?_⟩
  cases hseen : h.unexpired v with
  | none => simp [hseen] at hany
  | some seen => rfl

theorem unexpired_trustChanged (h : History K) (allTrusted : List K) (v : K) :
    (h.trustChanged allTrusted).unexpired v =
      if v ∈ h.trusted ∧ v ∈ allTrusted then h.unexpired v else none := by
  change Option.filter _ (if v ∈ h.trusted ∧ v ∈ allTrusted then h.latest v else none) = _
  split_ifs
  · rfl
  · rfl

theorem unexpired_doVoting (h : History K) (round : Round K) (v : K) :
    (h.record (.doVoting round)).unexpired v =
      ((round.valSet.foldl (see round.closeTime) h).latest v).filter fun seen =>
        round.closeTime ≤ seen.2 + kExpiresAfter := rfl

end History

/-! ### The record and the history -/

/-- What the record says of a validator, given what the history says. -/
def recordOf : Option (List UInt256 × ℕ) → UpvotesAndTimeout
  | none => ⟨[], none⟩
  | some seen => ⟨seen.1, some (seen.2 + kExpiresAfter)⟩

/-- The record is that of the trusted validators, and of what has not expired. -/
structure Records (t : TrustedVotes K) (h : History K) : Prop where
  lookup_eq : ∀ v, t.lookup v = if v ∈ h.trusted then some (recordOf (h.unexpired v)) else none
  untrusted : ∀ v, v ∉ h.trusted → h.latest v = none

theorem records_empty : Records (∅ : TrustedVotes K) History.empty :=
  ⟨fun v => (if_neg (Finset.notMem_empty v)).symm, fun _ _ => rfl⟩

section Records

variable {t : TrustedVotes K} {h : History K}

private theorem lookup_foldl_insert (f : K → UpvotesAndTimeout) (l : List K)
    (t : TrustedVotes K) (v : K) :
    (l.foldl (fun t trusted => t.insert trusted (f trusted)) t).lookup v =
      if v ∈ l then some (f v) else t.lookup v := by
  induction l generalizing t with
  | nil => rw [if_neg List.not_mem_nil, List.foldl_nil]
  | cons a l ih =>
    rw [List.foldl_cons, ih]
    by_cases hl : v ∈ l
    · rw [if_pos hl, if_pos (List.mem_cons_of_mem a hl)]
    · rw [if_neg hl]
      by_cases ha : v = a
      · rw [ha, AList.lookup_insert, if_pos List.mem_cons_self]
      · rw [AList.lookup_insert_ne ha, if_neg (by simp [ha, hl])]

theorem Records.trustChanged (hr : Records t h) (allTrusted : List K) :
    Records (trustChanged t allTrusted) (h.trustChanged allTrusted) := by
  refine ⟨fun v => ?_, fun v hv => ?_⟩
  · rw [AmendmentTable.trustChanged, lookup_foldl_insert, hr.lookup_eq]
    change _ = if v ∈ allTrusted.toFinset then _ else none
    by_cases hv : v ∈ allTrusted
    · rw [if_pos hv, if_pos (List.mem_toFinset.mpr hv), History.unexpired_trustChanged]
      by_cases hold : v ∈ h.trusted
      · rw [if_pos hold, Option.getD_some, if_pos ⟨hold, hv⟩]
      · rw [if_neg hold, Option.getD_none, if_neg (fun hboth => hold hboth.1)]
        rfl
    · rw [if_neg hv, if_neg (mt List.mem_toFinset.mp hv)]
      rfl
  · have hv' : v ∉ allTrusted := mt List.mem_toFinset.mpr hv
    exact if_neg fun hboth => hv' hboth.2

/-- In the midst of a round, what has not been seen in it is as it was before. -/
private structure Seeing (closeTime : ℕ) (h₀ : History K) (t : TrustedVotes K) (h : History K) :
    Prop where
  trusted_eq : h.trusted = h₀.trusted
  untrusted : ∀ v, v ∉ h.trusted → h.latest v = none ∧ t.lookup v = none
  seen : ∀ v ∈ h.trusted,
    (∃ choices, h.latest v = some (choices, closeTime) ∧
      t.lookup v = some ⟨choices, some (closeTime + kExpiresAfter)⟩) ∨
    (h.latest v = h₀.latest v ∧ t.lookup v = some (recordOf (h₀.unexpired v)))

private theorem Seeing.see {closeTime : ℕ} {h₀ : History K} (hs : Seeing closeTime h₀ t h)
    (val : STValidation K) :
    Seeing closeTime h₀ (recordVote (closeTime + kExpiresAfter) t val)
      (h.see closeTime val) := by
  by_cases htrusted : val.signerPublic ∈ h.trusted
  · have hlookup : ∃ votes, t.lookup val.signerPublic = some votes := by
      rcases hs.seen _ htrusted with ⟨choices, -, heq⟩ | ⟨-, heq⟩
      · exact ⟨_, heq⟩
      · exact ⟨_, heq⟩
    obtain ⟨votes, hvotes⟩ := hlookup
    rw [recordVote, hvotes, History.see, if_pos htrusted]
    refine ⟨hs.trusted_eq, fun v hv => ?_, fun v hv => ?_⟩
    · have hne : v ≠ val.signerPublic := fun heq => hv (heq ▸ htrusted)
      dsimp only
      rw [Function.update_of_ne hne, AList.lookup_insert_ne hne]
      exact hs.untrusted v hv
    · dsimp only
      by_cases heq : v = val.signerPublic
      · rw [heq, Function.update_self, AList.lookup_insert]
        exact .inl ⟨_, rfl, rfl⟩
      · rw [Function.update_of_ne heq, AList.lookup_insert_ne heq]
        exact hs.seen v hv
  · rw [recordVote, (hs.untrusted _ htrusted).2, History.see, if_neg htrusted]
    exact hs

private theorem Seeing.foldl {closeTime : ℕ} {h₀ : History K} (hs : Seeing closeTime h₀ t h)
    (valSet : List (STValidation K)) :
    Seeing closeTime h₀ (valSet.foldl (recordVote (closeTime + kExpiresAfter)) t)
      (valSet.foldl (History.see closeTime) h) := by
  induction valSet generalizing t h with
  | nil => exact hs
  | cons val valSet ih => exact ih (hs.see val)

theorem Records.doVoting (hr : Records t h) (round : Round K) (htime : h.now ≤ round.closeTime)
    (hclock : round.closeTime + kExpiresAfter < 2 ^ 32) :
    Records (recordVotes t round.valSet round.closeTime) (h.record (.doVoting round)) := by
  have hstart : Seeing round.closeTime h t h := by
    refine ⟨rfl, fun v hv => ⟨hr.untrusted v hv, by rw [hr.lookup_eq, if_neg hv]⟩, fun v hv => ?_⟩
    exact .inr ⟨rfl, by rw [hr.lookup_eq, if_pos hv]⟩
  have hs := hstart.foldl round.valSet
  refine ⟨fun v => ?_, fun v hv => (hs.untrusted v hv).1⟩
  rw [recordVotes, Nat.mod_eq_of_lt hclock, Table.lookup_mapValues]
  change _ = if v ∈ (round.valSet.foldl (History.see round.closeTime) h).trusted then _ else none
  by_cases hv : v ∈ (round.valSet.foldl (History.see round.closeTime) h).trusted
  · rw [if_pos hv]
    rcases hs.seen v hv with ⟨choices, hlatest, hlookup⟩ | ⟨hlatest, hlookup⟩
    · rw [hlookup, Option.map_some, History.unexpired_doVoting, hlatest,
        Option.filter_some_pos (by simp), expire]
      dsimp only
      rw [if_neg (by omega)]
      rfl
    · rw [hlookup, Option.map_some, History.unexpired_doVoting, hlatest, History.unexpired]
      cases hold : h.latest v with
      | none => rfl
      | some seen =>
        by_cases hkept : h.now ≤ seen.2 + kExpiresAfter
        · rw [Option.filter_some_pos (by simpa using hkept), recordOf, expire]
          dsimp only
          by_cases hexpired : seen.2 + kExpiresAfter < round.closeTime
          · rw [if_pos hexpired, Option.filter_some_neg (by simpa using hexpired)]
            rfl
          · rw [if_neg hexpired, Option.filter_some_pos (by simpa using hexpired)]
            rfl
        · -- what has expired once stays expired
          rw [Option.filter_some_neg (by simpa using hkept),
            Option.filter_some_neg (by simp; omega)]
          rfl
  · rw [if_neg hv, (hs.untrusted v hv).2]
    rfl

/-! ### Counting -/

private theorem lookup_countVotes (upVotes : List UInt256) (ret : Table UInt256 ℕ) (a : UInt256) :
    ((upVotes.foldl countVote ret).lookup a).getD 0 = (ret.lookup a).getD 0 + upVotes.count a := by
  induction upVotes generalizing ret with
  | nil => rfl
  | cons b upVotes ih =>
    rw [List.foldl_cons, ih, countVote, List.count_cons]
    by_cases hb : a = b
    · rw [hb, AList.lookup_insert, Option.getD_some, if_pos (beq_self_eq_true b)]
      omega
    · rw [AList.lookup_insert_ne hb, if_neg (by simpa using Ne.symm hb)]
      omega

omit [DecidableEq K] in
private theorem getVotes_foldl (l : List (Sigma fun _ : K => UpvotesAndTimeout)) (n : ℕ)
    (ret : Table UInt256 ℕ) (a : UInt256) :
    (l.foldl (fun acc validatorVotes =>
        (if validatorVotes.2.timeout.isSome then acc.1 + 1 else acc.1,
          validatorVotes.2.upVotes.foldl countVote acc.2)) (n, ret)).1 =
        n + (l.filter fun e => e.2.timeout.isSome).length ∧
      (((l.foldl (fun acc validatorVotes =>
        (if validatorVotes.2.timeout.isSome then acc.1 + 1 else acc.1,
          validatorVotes.2.upVotes.foldl countVote acc.2)) (n, ret)).2.lookup a).getD 0) =
        (ret.lookup a).getD 0 + (l.map fun e => e.2.upVotes.count a).sum := by
  induction l generalizing n ret with
  | nil => exact ⟨rfl, rfl⟩
  | cons e l ih =>
    rw [List.foldl_cons]
    obtain ⟨havailable, hvotes⟩ := ih (if e.2.timeout.isSome then n + 1 else n)
      (e.2.upVotes.foldl countVote ret)
    refine ⟨havailable.trans ?_, hvotes.trans ?_⟩
    · by_cases he : e.2.timeout.isSome
      · rw [if_pos he, List.filter_cons, if_pos he, List.length_cons]
        omega
      · rw [if_neg he, List.filter_cons, if_neg he]
    · rw [lookup_countVotes, List.map_cons, List.sum_cons]
      omega

private theorem Records.length_filter (hr : Records t h) (p : UpvotesAndTimeout → Bool) :
    (t.entries.filter fun e => p e.2).length =
      (h.trusted.filter fun v => p (recordOf (h.unexpired v))).card := by
  have hnodup : ((t.entries.filter fun e => p e.2).map Sigma.fst).Nodup :=
    (List.filter_sublist.map _).nodup t.nodupKeys
  rw [← List.length_map (f := Sigma.fst), ← List.toFinset_card_of_nodup hnodup]
  congr 1
  ext v
  rw [List.mem_toFinset, List.mem_map, Finset.mem_filter]
  have hlookup := hr.lookup_eq v
  constructor
  · rintro ⟨e, he, rfl⟩
    obtain ⟨hmem, hp⟩ := List.mem_filter.mp he
    have hrow : t.lookup e.1 = some e.2 := AList.mem_lookup_iff.mpr hmem
    rw [hrow] at hlookup
    split_ifs at hlookup with htrusted
    exact ⟨htrusted, by rw [← Option.some.inj hlookup]; exact hp⟩
  · rintro ⟨htrusted, hp⟩
    rw [if_pos htrusted] at hlookup
    exact ⟨⟨v, _⟩, List.mem_filter.mpr ⟨AList.mem_lookup_iff.mp hlookup, hp⟩, rfl⟩

theorem Records.trustedValidations_eq (hr : Records t h) :
    (AmendmentSet.ofVotes t).trustedValidations = h.available.card := by
  have hcount := (getVotes_foldl t.entries 0 ∅ 0).1
  rw [Nat.zero_add, hr.length_filter fun votes => votes.timeout.isSome] at hcount
  refine hcount.trans (congrArg Finset.card (Finset.filter_congr fun v _ => ?_))
  cases h.unexpired v <;> rfl

omit [DecidableEq K] in
theorem votes_eq_sum (t : TrustedVotes K) (a : UInt256) :
    (AmendmentSet.ofVotes t).votes a = (t.entries.map fun e => e.2.upVotes.count a).sum := by
  have hcount := (getVotes_foldl t.entries 0 ∅ a).2
  rwa [AList.lookup_empty, Option.getD_none, Nat.zero_add] at hcount

private theorem card_voters (hr : Records t h) (a : UInt256) :
    (h.voters a).card = (t.entries.map fun e => if a ∈ e.2.upVotes then 1 else 0).sum := by
  have hfilter : h.voters a =
      h.trusted.filter fun v => (recordOf (h.unexpired v)).upVotes.contains a := by
    refine Finset.filter_congr fun v _ => ?_
    cases h.unexpired v with
    | none => simp [recordOf]
    | some seen => simp [recordOf]
  rw [hfilter, ← hr.length_filter fun votes => votes.upVotes.contains a]
  induction t.entries with
  | nil => rfl
  | cons e l ih =>
    rw [List.map_cons, List.sum_cons, List.filter_cons]
    by_cases he : a ∈ e.2.upVotes
    · rw [if_pos (by simpa using he), if_pos he, List.length_cons, ih, Nat.add_comm]
    · rw [if_neg (by simpa using he), if_neg he, ih, Nat.zero_add]

/-- No latest validation that counts lists an amendment more than once. -/
def ListsOnce (h : History K) : Prop :=
  ∀ v ∈ h.trusted, ∀ seen, h.unexpired v = some seen → seen.1.Nodup

private theorem listsOnce_iff (hr : Records t h) :
    ListsOnce h ↔ ∀ e ∈ t.entries, ∀ a, e.2.upVotes.count a ≤ 1 := by
  constructor
  · intro honce e he a
    have hlookup := hr.lookup_eq e.1
    rw [AList.mem_lookup_iff.mpr he] at hlookup
    split_ifs at hlookup with htrusted
    rw [Option.some.inj hlookup]
    cases hseen : h.unexpired e.1 with
    | none => exact Nat.zero_le _
    | some seen => exact List.nodup_iff_count_le_one.mp (honce _ htrusted seen hseen) a
  · intro hcount v hv seen hseen
    have hlookup := hr.lookup_eq v
    rw [if_pos hv, hseen] at hlookup
    exact List.nodup_iff_count_le_one.mpr (hcount ⟨v, _⟩ (AList.mem_lookup_iff.mp hlookup))

/-- The votes for every amendment are those of its voters, if no list repeats it, and more
otherwise. -/
theorem Records.votes_eq_iff (hr : Records t h) :
    (∀ a, (AmendmentSet.ofVotes t).votes a = (h.voters a).card) ↔ ListsOnce h := by
  have hle : ∀ (l : List (Sigma fun _ : K => UpvotesAndTimeout)) (a : UInt256),
      (l.map fun e => if a ∈ e.2.upVotes then 1 else 0).sum ≤
        (l.map fun e => e.2.upVotes.count a).sum := fun l a =>
    List.sum_le_sum fun e _ => by
      split_ifs with hmem
      · exact List.count_pos_iff.mpr hmem
      · exact Nat.zero_le _
  rw [listsOnce_iff hr]
  simp only [votes_eq_sum, card_voters hr]
  constructor
  · intro heq e he a
    by_contra hlt
    obtain ⟨l₁, l₂, hsplit⟩ := List.append_of_mem he
    have hsum := heq a
    rw [hsplit, List.map_append, List.map_append, List.sum_append, List.sum_append, List.map_cons,
      List.map_cons, List.sum_cons, List.sum_cons] at hsum
    have hmem : a ∈ e.2.upVotes := List.count_pos_iff.mp (by omega)
    rw [if_pos hmem] at hsum
    have h₁ := hle l₁ a
    have h₂ := hle l₂ a
    omega
  · intro hcount a
    refine congrArg List.sum (List.map_congr_left fun e he => ?_)
    split_ifs with hmem
    · exact le_antisymm (hcount e he a) (List.count_pos_iff.mpr hmem)
    · exact List.count_eq_zero.mpr hmem

end Records

/-! ### Runs -/

/-- The close times of the rounds, in order. -/
def closeTimes (events : List (Event K)) : List ℕ :=
  events.filterMap fun event =>
    match event with
    | .trustChanged _ => none
    | .doVoting round => some round.closeTime

theorem records_run {majorityTime : ℕ} {t : TrustedVotes K} {h : History K}
    (events : List (Event K)) (hr : Records t h) (hnow : ∀ c ∈ closeTimes events, h.now ≤ c)
    (htimes : (closeTimes events).Pairwise (· ≤ ·))
    (hclock : ∀ c ∈ closeTimes events, c + kExpiresAfter < 2 ^ 32) :
    Records (Run.final (step majorityTime) t events) (events.foldl History.record h) := by
  induction events generalizing t h with
  | nil => exact hr
  | cons event events ih =>
    cases event with
    | trustChanged allTrusted => exact ih (hr.trustChanged allTrusted) hnow htimes hclock
    | doVoting round =>
      have hcons : closeTimes (.doVoting round :: events) = round.closeTime :: closeTimes events :=
        rfl
      rw [hcons] at hnow htimes hclock
      obtain ⟨hlater, htimes'⟩ := List.pairwise_cons.mp htimes
      exact ih (hr.doVoting round (hnow _ List.mem_cons_self) (hclock _ List.mem_cons_self)) hlater
        htimes' fun c hc => hclock c (List.mem_cons_of_mem _ hc)

/-- Every amendment has one vote for each of its voters, and passes only with more than 80% of those
that could vote, or with the only one. -/
structure VotesCounted (h : History K) (set : AmendmentSet) : Prop where
  votes_eq : ∀ a, set.votes a = (h.voters a).card
  votes_le : ∀ a, set.votes a ≤ set.trustedValidations
  passes : ∀ a, set.passes a = true → 4 * h.available.card < 5 * (h.voters a).card ∨
    h.available.card = 1 ∧ (h.voters a).card = 1

theorem Records.votesCounted_iff {t : TrustedVotes K} {h : History K} (hr : Records t h) :
    VotesCounted h (AmendmentSet.ofVotes t) ↔ ListsOnce h := by
  rw [← hr.votes_eq_iff]
  refine ⟨VotesCounted.votes_eq, fun heq => ?_⟩
  have hle : ∀ a, (h.voters a).card ≤ h.available.card := fun a =>
    Finset.card_le_card (h.voters_subset a)
  refine ⟨heq, fun a => by rw [heq, hr.trustedValidations_eq]; exact hle a, fun a hpasses => ?_⟩
  have hthreshold : (AmendmentSet.ofVotes t).threshold =
      Max.max 1 ((AmendmentSet.ofVotes t).trustedValidations * 4 / 5) := rfl
  have hvotes := heq a
  have hle' := hle a
  rw [AmendmentSet.votes] at hvotes
  rw [AmendmentSet.passes] at hpasses
  cases hlookup : (AmendmentSet.ofVotes t).votes_.lookup a with
  | none => simp [hlookup] at hpasses
  | some count =>
    rw [hlookup, Option.getD_some] at hvotes
    rw [hlookup] at hpasses
    dsimp only at hpasses
    rw [hthreshold, hr.trustedValidations_eq] at hpasses
    split_ifs at hpasses with hone
    · have := of_decide_eq_true hpasses
      exact .inr ⟨hone, by omega⟩
    · have := of_decide_eq_true hpasses
      exact .inl (by omega)

theorem enabled_of_action {majorityTime : ℕ} {t : TrustedVotes K} {round : Round K} {a : UInt256}
    (h : (a, 0) ∈ (doVoting majorityTime t round).2.2) :
    (doVoting majorityTime t round).2.1.passes a = true ∧
      ∃ time, round.majorityAmendments.lookup a = some time ∧
        time + majorityTime ≤ round.closeTime := by
  obtain ⟨entry, -, hentry⟩ := List.mem_filterMap.mp h
  obtain ⟨flags, hflags, heq⟩ := Option.map_eq_some_iff.mp hentry
  obtain ⟨rfl, rfl⟩ := Prod.mk.inj heq
  rw [action] at hflags
  cases hmajority : round.majorityAmendments.lookup entry.1 with
  | none =>
    simp only [hmajority] at hflags
    split_ifs at hflags
    exact absurd (Option.some.inj hflags) (by decide)
  | some time =>
    simp only [hmajority] at hflags
    split_ifs at hflags with henabled hpasses htime
    · exact absurd (Option.some.inj hflags) (by decide)
    · rw [Bool.not_eq_true', Bool.not_eq_false] at hpasses
      exact ⟨hpasses, time, rfl, htime.1⟩

/-- **Amendment votes are one for each trusted validator, if no validation repeats an amendment.**
After any calls, with close times that do not decrease and are a day or more before the end of the
clock: every amendment has one vote for each trusted validator whose latest unexpired validation lists
it, and passes only with more than 80% of the available ones or with the only one, exactly if none of
these validations lists an amendment twice; and it is enabled only after a long enough majority. -/
theorem amendment_votes_run (majorityTime : ℕ) (events : List (Event K))
    (htimes : (closeTimes events).Pairwise (· ≤ ·))
    (hclock : ∀ c ∈ closeTimes events, c + kExpiresAfter < 2 ^ 32) :
    (VotesCounted (events.foldl History.record History.empty)
        (AmendmentSet.ofVotes (Run.final (step majorityTime) ∅ events)) ↔
      ListsOnce (events.foldl History.record History.empty)) ∧
    ∀ round set actions, some (round, set, actions) ∈ Run.outputs (step majorityTime) ∅ events →
      ∀ a, (a, 0) ∈ actions → set.passes a = true ∧
        ∃ time, round.majorityAmendments.lookup a = some time ∧
          time + majorityTime ≤ round.closeTime := by
  have hr : Records (Run.final (step majorityTime) ∅ events)
      (events.foldl History.record History.empty) :=
    records_run events records_empty (fun _ _ => Nat.zero_le _) htimes hclock
  refine ⟨hr.votesCounted_iff, fun round set actions hmem a ha => ?_⟩
  obtain ⟨t, event, houtput⟩ := Run.exists_of_mem_outputs hmem
  cases event with
  | trustChanged allTrusted => cases houtput
  | doVoting round' =>
    obtain ⟨rfl, heq⟩ : round = round' ∧ (set, actions) = (doVoting majorityTime t round').2 := by
      simpa [step] using houtput
    obtain ⟨rfl, rfl⟩ := Prod.mk.inj heq
    exact enabled_of_action ha

/-- Five trusted validators, of which all are heard but one alone votes, for the amendment `7`. -/
def fiveValidators (choices : List UInt256) : List (Event ℕ) :=
  [.trustChanged [0, 1, 2, 3, 4],
    .doVoting ⟨0, [], ∅, ⟨0, some choices⟩ :: [1, 2, 3, 4].map fun v => ⟨v, none⟩, ∅⟩]

theorem amendment_votes_run_fiveValidators :
    VotesCounted ((fiveValidators [7]).foldl History.record History.empty)
      (AmendmentSet.ofVotes (Run.final (step 0) ∅ (fiveValidators [7]))) := by
  refine (amendment_votes_run 0 (fiveValidators [7]) (List.pairwise_singleton _ _)
    (by decide)).1.mpr ?_
  have hall : ∀ v ∈ ((fiveValidators [7]).foldl History.record History.empty).trusted,
      (((fiveValidators [7]).foldl History.record History.empty).unexpired v).all
        fun seen => decide seen.1.Nodup := by decide
  intro v hv seen hseen
  have hnodup := hall v hv
  rw [hseen] at hnodup
  exact of_decide_eq_true hnodup

/-- One validator of five gives an amendment a majority by listing it five times. -/
theorem amendment_passes_repeated :
    (AmendmentSet.ofVotes (Run.final (step 0) ∅ (fiveValidators [7, 7, 7, 7, 7]))).passes 7 = true ∧
      (AmendmentSet.ofVotes (Run.final (step 0) ∅ (fiveValidators [7, 7, 7, 7, 7]))).votes 7 = 5 ∧
      (((fiveValidators [7, 7, 7, 7, 7]).foldl History.record History.empty).voters 7).card = 1 := by
  decide

end AmendmentTable

end FalconLedger
