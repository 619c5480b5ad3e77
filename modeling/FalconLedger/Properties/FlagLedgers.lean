import FalconLedger.Consensus.FlagLedgers
import FalconLedger.Properties.AmendmentVotes

/-!
# What is voted at flag ledgers

What a node votes for is allowed by the entry it votes on (`allowed_of_voted`), so the transactions
that the next ledger takes over fail only where two of them are about the same amendment.

The fields of an entry for fees are those of one form, and say what the fees are (`FeeVote.Holds`).
-/

namespace FalconLedger

namespace AmendmentTable

variable {K : Type} [DecidableEq K]

/-! ### The entry -/

/-- The amendments that have a majority. -/
def pending (sle : Option AmendmentsEntry) : List UInt256 := (majorities sle).map Prod.fst

theorem mem_pending {sle : Option AmendmentsEntry} {a : UInt256} :
    a ∈ pending sle ↔ ∃ t, (a, t) ∈ majorities sle := by
  simp [pending]

/-- An amendment is listed once, as enabled or with its majority, and an empty list of majorities is
absent. -/
structure WellFormed (sle : Option AmendmentsEntry) : Prop where
  enabled_nodup : (getEnabledAmendments sle).Nodup
  pending_nodup : (pending sle).Nodup
  disjoint : ∀ a ∈ pending sle, a ∉ getEnabledAmendments sle
  present : sle.bind AmendmentsEntry.majorities ≠ some []

theorem wellFormed_genesis {amendments : List UInt256} (h : amendments.Nodup) :
    WellFormed (genesis amendments) := by
  have hpending : pending (genesis amendments) = [] := by
    unfold genesis
    split_ifs <;> rfl
  refine ⟨?_, ?_, ?_, ?_⟩
  · unfold genesis
    split_ifs
    · exact List.nodup_nil
    · exact h
  · rw [hpending]
    exact List.nodup_nil
  · simp [hpending]
  · unfold genesis
    split_ifs <;> simp

private theorem lookup_insertAll (l : List (UInt256 × ℕ)) (h : (l.map Prod.fst).Nodup)
    (t : Table UInt256 ℕ) (a : UInt256) :
    (l.foldl (fun ret m => ret.insert m.1 m.2) t).lookup a =
      ((l.find? fun m => m.1 = a).map Prod.snd).or (t.lookup a) := by
  induction l generalizing t with
  | nil => rfl
  | cons m l ih =>
    obtain ⟨hm, hl⟩ := List.nodup_cons.mp h
    rw [List.foldl_cons, ih hl]
    by_cases ha : m.1 = a
    · have hnone : l.find? (fun m => m.1 = a) = none := by
        rw [List.find?_eq_none]
        intro m' hm' heq
        exact hm (List.mem_map.mpr ⟨m', hm', (of_decide_eq_true heq).trans ha.symm⟩)
      simp [hnone, ha]
    · rw [AList.lookup_insert_ne (Ne.symm ha), List.find?_cons_of_neg (by simpa using ha)]

/-- `getMajorityAmendments` has the majorities of the entry. -/
theorem WellFormed.lookup_eq_some_iff {sle : Option AmendmentsEntry} (h : WellFormed sle)
    {a : UInt256} {t : ℕ} :
    (getMajorityAmendments sle).lookup a = some t ↔ (a, t) ∈ majorities sle := by
  have hnodup := h.pending_nodup
  rw [pending] at hnodup
  rw [getMajorityAmendments, lookup_insertAll _ hnodup, AList.lookup_empty, Option.or_none]
  constructor
  · intro hfind
    obtain ⟨m, hm, rfl⟩ := Option.map_eq_some_iff.mp hfind
    have heq : m.1 = a := by simpa using List.find?_some hm
    exact heq ▸ List.mem_of_find?_eq_some hm
  · intro hmem
    cases hfind : (majorities sle).find? fun m => m.1 = a with
    | none => simpa using List.find?_eq_none.mp hfind _ hmem
    | some m =>
      have heq : m.1 = a := by simpa using List.find?_some hfind
      have hsame : m = (a, t) := List.inj_on_of_nodup_map hnodup (List.mem_of_find?_eq_some hfind)
        hmem heq
      rw [hsame, Option.map_some]

theorem WellFormed.lookup_eq_none_iff {sle : Option AmendmentsEntry} (h : WellFormed sle)
    {a : UInt256} : (getMajorityAmendments sle).lookup a = none ↔ a ∉ pending sle := by
  rw [← not_iff_not, not_not, ← ne_eq, Option.ne_none_iff_exists', mem_pending]
  simp only [h.lookup_eq_some_iff]

/-! ### The transaction -/

section Transaction

variable {parentCloseTime : ℕ} {sle : Option AmendmentsEntry} {a : UInt256} {flags : UInt32}

/-- The entry allows the transaction. -/
structure Allowed (sle : Option AmendmentsEntry) (a : UInt256) (flags : UInt32) : Prop where
  notEnabled : a ∉ getEnabledAmendments sle
  notBoth : ¬(flags &&& tfGotMajority ≠ 0 ∧ flags &&& tfLostMajority ≠ 0)
  got : flags &&& tfGotMajority ≠ 0 → a ∉ pending sle
  lost : flags &&& tfLostMajority ≠ 0 → a ∈ pending sle

/-- What an allowed transaction makes of the majorities. -/
def newMajorities (parentCloseTime : ℕ) (sle : Option AmendmentsEntry) (a : UInt256)
    (flags : UInt32) : List (UInt256 × ℕ) :=
  ((majorities sle).filter fun majority => majority.1 ≠ a) ++
    if flags &&& tfGotMajority ≠ 0 then [(a, parentCloseTime)] else []

/-- What an allowed transaction makes of the entry. -/
structure Applies (parentCloseTime : ℕ) (sle : Option AmendmentsEntry) (a : UInt256)
    (flags : UInt32) (sle' : Option AmendmentsEntry) : Prop where
  enabled_eq : getEnabledAmendments sle' = getEnabledAmendments sle ++
    if flags &&& tfGotMajority = 0 ∧ flags &&& tfLostMajority = 0 then [a] else []
  majorities_eq : majorities sle' = newMajorities parentCloseTime sle a flags
  present : sle'.bind AmendmentsEntry.majorities ≠ some []

/-- A transaction is applied if the entry allows it, and has no effect otherwise. -/
theorem applyTx_spec (parentCloseTime : ℕ) (sle : Option AmendmentsEntry) (a : UInt256)
    (flags : UInt32) :
    (Allowed sle a flags ∧ (applyTx parentCloseTime sle (a, flags)).2 = none ∧
      Applies parentCloseTime sle a flags (applyTx parentCloseTime sle (a, flags)).1) ∨
    (¬Allowed sle a flags ∧ (applyTx parentCloseTime sle (a, flags)).2 ≠ none ∧
      (applyTx parentCloseTime sle (a, flags)).1 = sle) := by
  have henabled : (sle.getD ⟨[], none⟩).amendments = getEnabledAmendments sle := by
    cases sle <;> rfl
  have hmajorities : (sle.getD ⟨[], none⟩).majorities.getD [] = majorities sle := by
    cases sle <;> rfl
  have hfound : ((majorities sle).any fun majority => majority.1 = a) = true ↔
      a ∈ pending sle := by
    simp [pending]
  unfold applyTx applyAmendment
  simp only [henabled, hmajorities, hfound]
  -- the checks, in the order in which they are made
  by_cases hin : (getEnabledAmendments sle).contains a
  · rw [if_pos hin]
    exact .inr ⟨fun h => h.notEnabled (by simpa using hin), by simp, rfl⟩
  rw [if_neg hin]
  by_cases hboth : flags &&& tfGotMajority ≠ 0 ∧ flags &&& tfLostMajority ≠ 0
  · rw [if_pos hboth]
    exact .inr ⟨fun h => h.notBoth hboth, by simp, rfl⟩
  rw [if_neg hboth]
  by_cases hgot : a ∈ pending sle ∧ flags &&& tfGotMajority ≠ 0
  · rw [if_pos hgot]
    exact .inr ⟨fun h => h.got hgot.2 hgot.1, by simp, rfl⟩
  rw [if_neg hgot]
  by_cases hlost : a ∉ pending sle ∧ flags &&& tfLostMajority ≠ 0
  · rw [if_pos hlost]
    exact .inr ⟨fun h => hlost.1 (h.lost hlost.2), by simp, rfl⟩
  rw [if_neg hlost]
  refine .inl ⟨⟨by simpa using hin, hboth, fun h hmem => hgot ⟨hmem, h⟩, fun h => ?_⟩, rfl, ?_⟩
  · by_contra hmem
    exact hlost ⟨hmem, h⟩
  have hnew : (if flags &&& tfGotMajority ≠ 0 then
      ((majorities sle).filter fun majority => majority.1 ≠ a) ++ [(a, parentCloseTime)]
      else (majorities sle).filter fun majority => majority.1 ≠ a) =
      newMajorities parentCloseTime sle a flags := by
    unfold newMajorities
    split_ifs
    · rfl
    · rw [List.append_nil]
  simp only [hnew]
  refine ⟨?_, ?_, ?_⟩
  · simp only [getEnabledAmendments, Option.elim_some, not_not]
    split_ifs
    · rfl
    · rw [List.append_nil]
  · simp only [majorities, Option.bind_some]
    split_ifs with hempty
    · rw [List.isEmpty_iff.mp hempty]
      rfl
    · rfl
  · simp only [Option.bind_some]
    split_ifs with hempty
    · simp
    · simpa using hempty

theorem Applies.mem_majorities {sle' : Option AmendmentsEntry}
    (h : Applies parentCloseTime sle a flags sle') {b : UInt256} {t : ℕ} :
    (b, t) ∈ majorities sle' ↔ ((b, t) ∈ majorities sle ∧ b ≠ a) ∨
      (flags &&& tfGotMajority ≠ 0 ∧ b = a ∧ t = parentCloseTime) := by
  rw [h.majorities_eq, newMajorities, List.mem_append, List.mem_filter]
  split_ifs with hgot <;> simp [hgot]

theorem Applies.mem_pending {sle' : Option AmendmentsEntry}
    (h : Applies parentCloseTime sle a flags sle') {b : UInt256} :
    b ∈ pending sle' ↔ (b ∈ pending sle ∧ b ≠ a) ∨ (flags &&& tfGotMajority ≠ 0 ∧ b = a) := by
  simp only [AmendmentTable.mem_pending, h.mem_majorities]
  constructor
  · rintro ⟨t, ⟨hmem, hne⟩ | ⟨hgot, heq, -⟩⟩
    · exact .inl ⟨⟨t, hmem⟩, hne⟩
    · exact .inr ⟨hgot, heq⟩
  · rintro (⟨⟨t, hmem⟩, hne⟩ | ⟨hgot, heq⟩)
    · exact ⟨t, .inl ⟨hmem, hne⟩⟩
    · exact ⟨parentCloseTime, .inr ⟨hgot, heq, rfl⟩⟩

theorem Applies.mem_enabled {sle' : Option AmendmentsEntry}
    (h : Applies parentCloseTime sle a flags sle') {b : UInt256} :
    b ∈ getEnabledAmendments sle' ↔ b ∈ getEnabledAmendments sle ∨
      (flags &&& tfGotMajority = 0 ∧ flags &&& tfLostMajority = 0 ∧ b = a) := by
  rw [h.enabled_eq, List.mem_append]
  split_ifs with hnone
  · rw [List.mem_singleton]
    exact or_congr_right ⟨fun heq => ⟨hnone.1, hnone.2, heq⟩, fun h => h.2.2⟩
  · exact or_congr_right ⟨fun h => absurd h List.not_mem_nil, fun h => absurd ⟨h.1, h.2.1⟩ hnone⟩

theorem WellFormed.applies {sle' : Option AmendmentsEntry} (hw : WellFormed sle)
    (hallowed : Allowed sle a flags) (h : Applies parentCloseTime sle a flags sle') :
    WellFormed sle' := by
  refine ⟨?_, ?_, fun b hb hmem => ?_, h.present⟩
  · rw [h.enabled_eq]
    split_ifs
    · rw [← List.concat_eq_append]
      exact hw.enabled_nodup.concat hallowed.notEnabled
    · rw [List.append_nil]
      exact hw.enabled_nodup
  · have hsub : (((majorities sle).filter fun majority => majority.1 ≠ a).map Prod.fst).Nodup :=
      (List.filter_sublist.map _).nodup hw.pending_nodup
    rw [pending, h.majorities_eq, newMajorities, List.map_append]
    split_ifs
    · rw [List.map_singleton, ← List.concat_eq_append]
      refine hsub.concat fun hmem => ?_
      obtain ⟨m, hm, heq⟩ := List.mem_map.mp hmem
      exact of_decide_eq_true (List.mem_filter.mp hm).2 heq
    · rw [List.map_nil, List.append_nil]
      exact hsub
  · rcases h.mem_pending.mp hb with ⟨hb, hne⟩ | ⟨hgot, rfl⟩ <;>
      rcases h.mem_enabled.mp hmem with hmem | ⟨hnone, -, heq⟩
    · exact hw.disjoint b hb hmem
    · exact hne heq
    · exact hallowed.notEnabled hmem
    · exact hgot hnone

theorem WellFormed.applyTx (hw : WellFormed sle) (tx : UInt256 × UInt32) :
    WellFormed (applyTx parentCloseTime sle tx).1 := by
  rcases applyTx_spec parentCloseTime sle tx.1 tx.2 with ⟨hallowed, -, h⟩ | ⟨-, -, heq⟩
  · exact hw.applies hallowed h
  · rw [show (AmendmentTable.applyTx parentCloseTime sle tx).1 = sle from heq]
    exact hw

end Transaction

/-! ### The vote -/

/-- By the votes that a node counts the amendment passes, and it votes for it itself. -/
def Ballot.Supports (ballot : Ballot K) (parentCloseTime : ℕ) (a : UInt256) : Prop :=
  (AmendmentSet.ofVotes
      (recordVotes ballot.recordedVotes ballot.valSet parentCloseTime)).passes a = true ∧
    ballot.amendmentMap.lookup a = some .up

/-- What a node goes by in each of its actions. -/
inductive Decided (majorityTime : ℕ) (sle : Option AmendmentsEntry) (parentCloseTime : ℕ)
    (ballot : Ballot K) (a : UInt256) : UInt32 → Prop
  | got (hsupports : ballot.Supports parentCloseTime a) (hpending : a ∉ pending sle) :
    Decided majorityTime sle parentCloseTime ballot a tfGotMajority
  | lost (hpending : a ∈ pending sle) :
    Decided majorityTime sle parentCloseTime ballot a tfLostMajority
  | held {t : ℕ} (hsupports : ballot.Supports parentCloseTime a) (hmem : (a, t) ∈ majorities sle)
      (htime : t + majorityTime ≤ parentCloseTime) :
    Decided majorityTime sle parentCloseTime ballot a 0

section Vote

variable {majorityTime parentCloseTime : ℕ} {sle : Option AmendmentsEntry} {ballot : Ballot K}
  {a : UInt256} {flags : UInt32}

theorem decided_of_mem_actions (hw : WellFormed sle)
    (h : (a, flags) ∈ (ballot.actions majorityTime sle parentCloseTime).2) :
    a ∉ getEnabledAmendments sle ∧
      Decided majorityTime sle parentCloseTime ballot a flags := by
  obtain ⟨entry, hentry, hmap⟩ := List.mem_filterMap.mp h
  obtain ⟨flags', hflags, heq⟩ := Option.map_eq_some_iff.mp hmap
  obtain ⟨rfl, rfl⟩ := Prod.mk.inj heq
  have hown : ballot.amendmentMap.lookup entry.1 = some entry.2 := AList.mem_lookup_iff.mpr hentry
  rw [action] at hflags
  split_ifs at hflags with henabled
  refine ⟨by simpa using henabled, ?_⟩
  cases hmajority : (getMajorityAmendments sle).lookup entry.1 with
  | none =>
    simp only [hmajority] at hflags
    split_ifs at hflags with hpasses
    rw [← Option.some.inj hflags]
    exact .got ⟨hpasses.1, hown.trans (congrArg some hpasses.2)⟩
      (hw.lookup_eq_none_iff.mp hmajority)
  | some t =>
    have hmem := hw.lookup_eq_some_iff.mp hmajority
    simp only [hmajority] at hflags
    split_ifs at hflags with hpasses htime
    · rw [← Option.some.inj hflags]
      exact .lost (mem_pending.mpr ⟨t, hmem⟩)
    · rw [← Option.some.inj hflags]
      rw [Bool.not_eq_true', Bool.not_eq_false] at hpasses
      exact .held ⟨hpasses, hown.trans (congrArg some htime.2)⟩ hmem htime.1

theorem Decided.allowed (h : Decided majorityTime sle parentCloseTime ballot a flags)
    (henabled : a ∉ getEnabledAmendments sle) : Allowed sle a flags := by
  cases h with
  | got _ hpending =>
    exact ⟨henabled, by decide, fun _ => hpending, fun hlost => absurd rfl hlost⟩
  | lost hpending => exact ⟨henabled, by decide, fun hgot => absurd rfl hgot, fun _ => hpending⟩
  | held _ hmem _ =>
    exact ⟨henabled, by decide, fun hgot => absurd rfl hgot, fun hlost => absurd rfl hlost⟩

/-- The flags of a vote are those of one of the actions. -/
def IsAction (flags : UInt32) : Prop :=
  flags = tfGotMajority ∨ flags = tfLostMajority ∨ flags = 0

theorem Decided.isAction (h : Decided majorityTime sle parentCloseTime ballot a flags) :
    IsAction flags := by
  cases h with
  | got => exact .inl rfl
  | lost => exact .inr (.inl rfl)
  | held => exact .inr (.inr rfl)

theorem decided_of_voted {L : FlagLedger K} (hw : WellFormed sle)
    (h : Voted majorityTime sle L) (hmem : (a, flags) ∈ L.txs) :
    a ∉ getEnabledAmendments sle ∧ ∃ ballot ∈ L.ballots,
      Decided majorityTime sle L.parentCloseTime ballot a flags := by
  obtain ⟨ballot, hballot, haction⟩ := h _ hmem
  obtain ⟨henabled, hdecided⟩ := decided_of_mem_actions hw haction
  exact ⟨henabled, ballot, hballot, hdecided⟩

end Vote

/-! ### One ledger -/

section Ledger

variable {parentCloseTime : ℕ} {sle : Option AmendmentsEntry} {txs : List (UInt256 × UInt32)}
  {a b : UInt256} {flags : UInt32} {t : ℕ}

/-- A transaction about one amendment leaves alone what is allowed for another. -/
theorem Allowed.of_applies {sle' : Option AmendmentsEntry} {flags' : UInt32}
    (h : Allowed sle b flags') (happlies : Applies parentCloseTime sle a flags sle')
    (hne : b ≠ a) : Allowed sle' b flags' := by
  refine ⟨fun hmem => ?_, h.notBoth, fun hgot hmem => ?_, fun hlost => ?_⟩
  · rcases happlies.mem_enabled.mp hmem with hmem | ⟨-, -, heq⟩
    · exact h.notEnabled hmem
    · exact hne heq
  · rcases happlies.mem_pending.mp hmem with ⟨hmem, -⟩ | ⟨-, heq⟩
    · exact h.got hgot hmem
    · exact hne heq
  · exact happlies.mem_pending.mpr (.inl ⟨h.lost hlost, hne⟩)

/-- Allowed transactions about different amendments are all applied. -/
theorem outputs_eq_none (hallowed : ∀ tx ∈ txs, Allowed sle tx.1 tx.2)
    (hnodup : (txs.map Prod.fst).Nodup) :
    ∀ refusal ∈ Run.outputs (applyTx parentCloseTime) sle txs, refusal = none := by
  induction txs generalizing sle with
  | nil => simp
  | cons tx txs ih =>
    obtain ⟨htx, hrest⟩ := List.nodup_cons.mp hnodup
    rcases applyTx_spec parentCloseTime sle tx.1 tx.2 with ⟨-, hnone, happlies⟩ | ⟨hnot, -⟩
    · intro refusal hmem
      rcases List.mem_cons.mp hmem with rfl | hmem
      · exact hnone
      · refine ih (fun tx' htx' => ?_) hrest refusal hmem
        exact (hallowed tx' (List.mem_cons_of_mem tx htx')).of_applies happlies
          fun heq => htx (List.mem_map.mpr ⟨tx', htx', heq⟩)
    · exact absurd (hallowed tx List.mem_cons_self) hnot

private theorem mem_majorities_applyTx (hw : WellFormed sle) (hflags : IsAction flags)
    (h : (b, t) ∈ majorities (applyTx parentCloseTime sle (a, flags)).1) :
    ((b, t) ∈ majorities sle ∧ (b, tfLostMajority) ≠ (a, flags)) ∨
      ((b, tfGotMajority) = (a, flags) ∧ t = parentCloseTime) := by
  rcases applyTx_spec parentCloseTime sle a flags with ⟨-, -, happlies⟩ | ⟨hnot, -, heq⟩
  · rcases happlies.mem_majorities.mp h with ⟨hmem, hne⟩ | ⟨hgot, rfl, rfl⟩
    · exact .inl ⟨hmem, fun heq => hne (Prod.mk.inj heq).1⟩
    · rcases hflags with rfl | rfl | rfl
      · exact .inr ⟨rfl, rfl⟩
      · exact absurd rfl hgot
      · exact absurd rfl hgot
  · rw [heq] at h
    refine .inl ⟨h, fun hlost => hnot ?_⟩
    -- what has a majority and is not enabled could have lost it
    obtain ⟨rfl, rfl⟩ := Prod.mk.inj hlost
    have hpending : b ∈ pending sle := mem_pending.mpr ⟨t, h⟩
    exact ⟨hw.disjoint b hpending, by decide, fun hgot => absurd rfl hgot, fun _ => hpending⟩

/-- A majority after the transactions has not been lost by them, or is new. -/
theorem mem_majorities_final (hw : WellFormed sle) (hflags : ∀ tx ∈ txs, IsAction tx.2)
    (h : (b, t) ∈ majorities (Run.final (applyTx parentCloseTime) sle txs)) :
    ((b, t) ∈ majorities sle ∧ (b, tfLostMajority) ∉ txs) ∨
      ((b, tfGotMajority) ∈ txs ∧ t = parentCloseTime) := by
  induction txs generalizing sle with
  | nil => exact .inl ⟨h, List.not_mem_nil⟩
  | cons tx txs ih =>
    -- a majority that a later transaction records is new, whatever this one does
    rcases ih (hw.applyTx tx) (fun tx' h' => hflags tx' (List.mem_cons_of_mem tx h')) h with
      ⟨hmem, hlost⟩ | ⟨hgot, ht⟩
    · rcases mem_majorities_applyTx hw (hflags tx List.mem_cons_self) hmem with
        ⟨hmem, hne⟩ | ⟨heq, ht⟩
      · exact .inl ⟨hmem, fun h' => (List.mem_cons.mp h').elim hne hlost⟩
      · exact .inr ⟨List.mem_cons.mpr (.inl heq), ht⟩
    · exact .inr ⟨List.mem_cons_of_mem tx hgot, ht⟩

/-- What the transactions enable. -/
theorem mem_enabled_final (hflags : ∀ tx ∈ txs, IsAction tx.2)
    (h : b ∈ getEnabledAmendments (Run.final (applyTx parentCloseTime) sle txs)) :
    b ∈ getEnabledAmendments sle ∨ (b, 0) ∈ txs := by
  induction txs generalizing sle with
  | nil => exact .inl h
  | cons tx txs ih =>
    rcases ih (fun tx' h' => hflags tx' (List.mem_cons_of_mem tx h')) h with hmem | hzero
    · rcases applyTx_spec parentCloseTime sle tx.1 tx.2 with ⟨-, -, happlies⟩ | ⟨-, -, heq⟩
      · rcases happlies.mem_enabled.mp hmem with hmem | ⟨hgot, hlost, rfl⟩
        · exact .inl hmem
        · rcases hflags tx List.mem_cons_self with heq | heq | heq
          · exact absurd (heq ▸ hgot) (by decide)
          · exact absurd (heq ▸ hlost) (by decide)
          · exact .inr (List.mem_cons.mpr (.inl (Prod.ext rfl heq.symm)))
      · rw [show (applyTx parentCloseTime sle tx).1 = sle from heq] at hmem
        exact .inl hmem
    · exact .inr (List.mem_cons_of_mem tx hzero)

theorem enabled_grows (parentCloseTime : ℕ) (sle : Option AmendmentsEntry)
    (txs : List (UInt256 × UInt32)) : getEnabledAmendments sle <+:
      getEnabledAmendments (Run.final (applyTx parentCloseTime) sle txs) := by
  induction txs generalizing sle with
  | nil => exact List.prefix_rfl
  | cons tx txs ih =>
    refine List.IsPrefix.trans ?_ (ih (applyTx parentCloseTime sle tx).1)
    rcases applyTx_spec parentCloseTime sle tx.1 tx.2 with ⟨-, -, happlies⟩ | ⟨-, -, heq⟩
    · rw [happlies.enabled_eq]
      exact List.prefix_append _ _
    · rw [show (applyTx parentCloseTime sle tx).1 = sle from heq]

theorem wellFormed_final (hw : WellFormed sle) :
    WellFormed (Run.final (applyTx parentCloseTime) sle txs) :=
  Run.invariant WellFormed (fun _ tx h _ => h.applyTx tx) hw
    (Run.always_of_forall (P := fun _ _ => True) fun _ _ => trivial)

end Ledger

/-! ### Runs -/

/-- The majority was recorded by one of the ledgers, for a node that supports the amendment, and has
not been lost since. -/
def Held (ls : List (FlagLedger K)) (a : UInt256) (t : ℕ) : Prop :=
  ∃ ls₁ L ls₂, ls = ls₁ ++ L :: ls₂ ∧ (a, tfGotMajority) ∈ L.txs ∧ t = L.closeTime ∧
    (∃ ballot ∈ L.ballots, ballot.Supports L.parentCloseTime a) ∧
    ∀ L' ∈ ls₂, (a, tfLostMajority) ∉ L'.txs

/-- The amendment was enabled by one of the ledgers, for a node that supports it, when its majority
had been held for long enough. -/
def EnabledBy (majorityTime : ℕ) (ls : List (FlagLedger K)) (a : UInt256) : Prop :=
  ∃ ls₁ L ls₂ t, ls = ls₁ ++ L :: ls₂ ∧ (a, 0) ∈ L.txs ∧
    (∃ ballot ∈ L.ballots, ballot.Supports L.parentCloseTime a) ∧
    Held ls₁ a t ∧ t + majorityTime ≤ L.parentCloseTime

section Runs

variable {majorityTime : ℕ} {ls : List (FlagLedger K)} {a : UInt256} {t : ℕ}

theorem Held.concat (h : Held ls a t) {L : FlagLedger K} (hlost : (a, tfLostMajority) ∉ L.txs) :
    Held (ls ++ [L]) a t := by
  obtain ⟨ls₁, L₁, ls₂, rfl, hgot, ht, hsupports, hkept⟩ := h
  refine ⟨ls₁, L₁, ls₂ ++ [L], by simp, hgot, ht, hsupports, fun L' hL' => ?_⟩
  rcases List.mem_append.mp hL' with hL' | hL'
  · exact hkept L' hL'
  · rw [List.mem_singleton.mp hL']
    exact hlost

theorem EnabledBy.concat (h : EnabledBy majorityTime ls a) (L : FlagLedger K) :
    EnabledBy majorityTime (ls ++ [L]) a := by
  obtain ⟨ls₁, L₁, ls₂, t, rfl, hrest⟩ := h
  exact ⟨ls₁, L₁, ls₂ ++ [L], t, by simp, hrest⟩

/-- What is known of the entry after the ledgers. -/
structure Accounted (majorityTime : ℕ) (amendments : List UInt256) (ls : List (FlagLedger K))
    (sle : Option AmendmentsEntry) : Prop where
  wellFormed : WellFormed sle
  held : ∀ a t, (a, t) ∈ majorities sle → Held ls a t
  enabled : ∀ a ∈ getEnabledAmendments sle, a ∈ amendments ∨ EnabledBy majorityTime ls a

theorem Accounted.build {amendments : List UInt256} {sle : Option AmendmentsEntry}
    (h : Accounted majorityTime amendments ls sle) {L : FlagLedger K}
    (hvoted : Voted majorityTime sle L) :
    Accounted majorityTime amendments (ls ++ [L]) (build sle L).1 := by
  have hflags : ∀ tx ∈ L.txs, IsAction tx.2 := fun tx htx =>
    have ⟨_, _, _, hdecided⟩ := decided_of_voted h.wellFormed hvoted htx
    hdecided.isAction
  refine ⟨wellFormed_final h.wellFormed, fun a t hmem => ?_, fun a hmem => ?_⟩
  · rcases mem_majorities_final h.wellFormed hflags hmem with ⟨hmem, hlost⟩ | ⟨hgot, rfl⟩
    · exact (h.held a t hmem).concat hlost
    · obtain ⟨-, ballot, hballot, hdecided⟩ := decided_of_voted h.wellFormed hvoted hgot
      cases hdecided with
      | got hsupports => exact ⟨ls, L, [], rfl, hgot, rfl, ⟨ballot, hballot, hsupports⟩, by simp⟩
  · rcases mem_enabled_final hflags hmem with hmem | hzero
    · exact (h.enabled a hmem).imp_right fun henabled => henabled.concat L
    · obtain ⟨-, ballot, hballot, hdecided⟩ := decided_of_voted h.wellFormed hvoted hzero
      cases hdecided with
      | held hsupports hmem htime =>
        exact .inr ⟨ls, L, [], _, rfl, hzero, ⟨ballot, hballot, hsupports⟩, h.held a _ hmem, htime⟩

theorem accounted_run {amendments : List UInt256} (hnodup : amendments.Nodup)
    (ls : List (FlagLedger K))
    (hvoted : Run.Always build (Voted majorityTime) (genesis amendments) ls) :
    Accounted majorityTime amendments ls (Run.final build (genesis amendments) ls) := by
  -- the ledgers so far are what `Held` and `EnabledBy` speak of, so the last one is split off
  induction ls using List.reverseRecOn with
  | nil =>
    have hgenesis : getEnabledAmendments (genesis amendments) = amendments ∧
        majorities (genesis amendments) = [] := by
      unfold genesis
      split_ifs with hempty
      · exact ⟨(List.isEmpty_iff.mp hempty).symm, rfl⟩
      · exact ⟨rfl, rfl⟩
    refine ⟨wellFormed_genesis hnodup, fun a t hmem => ?_, fun a hmem => .inl ?_⟩
    · rw [Run.final_nil, hgenesis.2] at hmem
      cases hmem
    · rwa [Run.final_nil, hgenesis.1] at hmem
  | append_singleton ls L ih =>
    obtain ⟨hls, hL, -⟩ := Run.always_append.mp hvoted
    rw [Run.final_append]
    exact (ih hls).build hL

/-- **An amendment is enabled by a majority that was held for long enough.** From the first ledger
on, whatever each ledger takes over from the votes of the nodes: an amendment is never listed twice,
and one that is enabled stays so. A majority has been recorded when a node counted enough votes, and
what is enabled was so from the first, or has held its majority for that time. Transactions about
different amendments are never refused. -/
theorem amendments_run (majorityTime : ℕ) (amendments : List UInt256) (hnodup : amendments.Nodup)
    (ls : List (FlagLedger K))
    (hvoted : Run.Always build (Voted majorityTime) (genesis amendments) ls) :
    Accounted majorityTime amendments ls (Run.final build (genesis amendments) ls) ∧
    (∀ ls₁ ls₂, ls = ls₁ ++ ls₂ →
      getEnabledAmendments (Run.final build (genesis amendments) ls₁) <+:
        getEnabledAmendments (Run.final build (genesis amendments) ls)) ∧
    Run.Always build (fun sle L => (L.txs.map Prod.fst).Nodup →
      ∀ refusal ∈ (build sle L).2, refusal = none) (genesis amendments) ls := by
  refine ⟨accounted_run hnodup ls hvoted, ?_, ?_⟩
  · rintro ls₁ ls₂ rfl
    rw [Run.final_append]
    generalize Run.final build (genesis amendments) ls₁ = sle
    clear hvoted
    induction ls₂ generalizing sle with
    | nil => exact List.prefix_rfl
    | cons L ls₂ ih => exact (enabled_grows L.closeTime sle L.txs).trans (ih _)
  · refine Run.always_of_invariant WellFormed (fun _ L h _ => wellFormed_final h)
      (fun sle L h hL hdistinct => ?_) (wellFormed_genesis hnodup) hvoted
    refine outputs_eq_none (fun tx htx => ?_) hdistinct
    obtain ⟨henabled, _, -, hdecided⟩ := decided_of_voted h hL htx
    exact hdecided.allowed henabled

/-- The one validator there is votes for the amendment `7`, which is enabled ten seconds later. -/
def sevenEnabled : List (FlagLedger ℕ) :=
  [⟨3, 4, [⟨AList.insert 0 ⟨[], none⟩ ∅, [⟨0, some [7]⟩], AList.insert 7 .up ∅⟩],
      [(7, tfGotMajority)]⟩,
    ⟨14, 15, [⟨AList.insert 0 ⟨[], none⟩ ∅, [⟨0, some [7]⟩], AList.insert 7 .up ∅⟩], [(7, 0)]⟩]

theorem amendments_run_sevenEnabled : EnabledBy 10 sevenEnabled 7 := by
  have hrun :=
    (amendments_run 10 [1] (List.nodup_singleton 1) sevenEnabled (by decide)).1
  exact (hrun.enabled 7 (by decide)).resolve_left (by decide)

end Runs

/-! ### Validations of nodes that run this code -/

theorem doValidation_nodup (enabled : List UInt256)
    (amendmentMap : Table UInt256 AmendmentState) : (doValidation enabled amendmentMap).Nodup :=
  (List.perm_insertionSort _ _).nodup_iff.mpr
    ((List.filter_sublist.map _).nodup amendmentMap.nodupKeys)

/-- No latest validation repeats an amendment, whether it has expired or not. -/
private def Unrepeated (h : History K) : Prop := ∀ v seen, h.latest v = some seen → seen.1.Nodup

private theorem Unrepeated.see {h : History K} (hh : Unrepeated h) {closeTime : ℕ}
    {val : STValidation K} (hval : (val.amendments.getD []).Nodup) :
    Unrepeated (h.see closeTime val) := by
  intro v seen hseen
  unfold History.see at hseen
  split_ifs at hseen
  · dsimp only at hseen
    by_cases hv : v = val.signerPublic
    · subst hv
      rw [Function.update_self] at hseen
      rwa [← Option.some.inj hseen]
    · rw [Function.update_of_ne hv] at hseen
      exact hh v seen hseen
  · exact hh v seen hseen

private theorem Unrepeated.record {h : History K} (hh : Unrepeated h) {event : Event K}
    (hevent : ∀ round, event = .doVoting round →
      ∀ val ∈ round.valSet, (val.amendments.getD []).Nodup) : Unrepeated (h.record event) := by
  cases event with
  | trustChanged allTrusted =>
    intro v seen hseen
    simp only [History.record, History.trustChanged] at hseen
    split_ifs at hseen
    exact hh v seen hseen
  | doVoting round =>
    have hfold : ∀ (valSet : List (STValidation K)) (h : History K),
        (∀ val ∈ valSet, (val.amendments.getD []).Nodup) → Unrepeated h →
        Unrepeated (valSet.foldl (History.see round.closeTime) h) := by
      intro valSet
      induction valSet with
      | nil => exact fun h _ hh => hh
      | cons val valSet ih =>
        intro h hval hh
        exact ih _ (fun val' h' => hval val' (List.mem_cons_of_mem val h'))
          (hh.see (hval val List.mem_cons_self))
    exact hfold round.valSet h (hevent round rfl) hh

/-- **Validators that run this code are counted once each.** After any calls, with close times that
do not decrease and are a day or more before the end of the clock, and validations that list what
`doValidation` gives, each amendment has as many votes as there are trusted validators whose latest
unexpired validation lists it, and passes only with more than 80% of those available, or the only one. -/
theorem votes_counted_of_doValidation (majorityTime : ℕ) (events : List (Event K))
    (htimes : (closeTimes events).Pairwise (· ≤ ·))
    (hclock : ∀ c ∈ closeTimes events, c + kExpiresAfter < 2 ^ 32)
    (hvalidations : ∀ round, Event.doVoting round ∈ events → ∀ val ∈ round.valSet,
      ∃ enabled amendmentMap, val.amendments.getD [] = doValidation enabled amendmentMap) :
    VotesCounted (events.foldl History.record History.empty)
      (AmendmentSet.ofVotes (Run.final (step majorityTime) ∅ events)) := by
  have hunrepeated : Unrepeated (events.foldl History.record History.empty) := by
    have hempty : Unrepeated (History.empty : History K) := fun _ _ hseen => nomatch hseen
    clear htimes hclock
    generalize (History.empty : History K) = h at hempty
    induction events generalizing h with
    | nil => exact hempty
    | cons event events ih =>
      refine ih (fun round hround => hvalidations round (List.mem_cons_of_mem event hround)) _
        (hempty.record fun round heq val hval => ?_)
      subst heq
      obtain ⟨enabled, amendmentMap, hlist⟩ := hvalidations round List.mem_cons_self val hval
      rw [hlist]
      exact doValidation_nodup enabled amendmentMap
  refine (records_run events records_empty (fun _ _ => Nat.zero_le _) htimes
    hclock).votesCounted_iff.mpr fun v _ seen hseen => ?_
  exact hunrepeated v seen (Option.filter_eq_some_iff.mp hseen).1

theorem votes_counted_of_doValidation_fiveValidators :
    VotesCounted ((fiveValidators [7]).foldl History.record History.empty)
      (AmendmentSet.ofVotes (Run.final (step 0) ∅ (fiveValidators [7]))) := by
  refine votes_counted_of_doValidation 0 _ (List.pairwise_singleton _ _) (by decide)
    fun round hround val hval => ?_
  simp only [fiveValidators, List.mem_cons, reduceCtorEq, Event.doVoting.injEq, List.not_mem_nil,
    or_false, false_or] at hround
  subst hround
  rcases List.mem_cons.mp hval with rfl | hval
  · exact ⟨[], AList.insert 7 ⟨.up, true⟩ ∅, rfl⟩
  · obtain ⟨v, -, rfl⟩ := List.mem_map.mp hval
    exact ⟨[], ∅, rfl⟩

end AmendmentTable

/-! ### Fees -/

namespace FeeVote

namespace VotableValue

variable {value : VotableValue}

/-- No vote between the present fee and the target has more. -/
def Chosen (value : VotableValue) (vote : ℤ) : Prop :=
  vote ∈ value.votes ∧ value.Between vote ∧ ∀ key ∈ value.votes, value.Between key →
    value.votes.count key ≤ value.votes.count vote

theorem foldl_take (l : List ℤ) (best : ℤ × ℕ)
    (hbest : best.2 = 0 ∨ value.Between best.1 ∧ best.2 = value.votes.count best.1) :
    let last := l.foldl value.take best
    (last.2 = 0 ∨ value.Between last.1 ∧ last.2 = value.votes.count last.1) ∧
      best.2 ≤ last.2 ∧ ∀ key ∈ l, value.Between key → value.votes.count key ≤ last.2 := by
  induction l generalizing best with
  | nil => exact ⟨hbest, le_rfl, by simp⟩
  | cons key l ih =>
    have htake : best.2 ≤ (value.take best key).2 ∧
        (value.Between key → value.votes.count key ≤ (value.take best key).2) := by
      unfold take
      split_ifs with htaken
      · exact ⟨htaken.2.le, fun _ => le_rfl⟩
      · exact ⟨le_rfl, fun h => not_lt.mp fun hless => htaken ⟨h, hless⟩⟩
    obtain ⟨hlast, hle, hall⟩ := ih (value.take best key) (by
      unfold take
      split_ifs with htaken
      exacts [.inr ⟨htaken.1, rfl⟩, hbest])
    exact ⟨hlast, htake.1.trans hle,
      List.forall_mem_cons.mpr ⟨fun h => (htake.2 h).trans hle, hall⟩⟩

theorem getVotes_chosen (htarget : value.target ∈ value.votes) :
    value.Chosen value.getVotes.1 := by
  have hmem : ∀ key ∈ value.votes, key ∈ value.votes.dedup.insertionSort (· ≤ ·) :=
    fun key h => (List.mem_insertionSort _).mpr (List.mem_dedup.mpr h)
  obtain ⟨hlast, -, hall⟩ := @foldl_take value
    (value.votes.dedup.insertionSort (· ≤ ·)) (value.current, 0) (.inl rfl)
  have hpos := (List.count_pos_iff.mpr htarget).trans_le
    (hall _ (hmem _ htarget) ⟨le_max_left _ _, min_le_left _ _⟩)
  obtain ⟨hbetween, hcount⟩ := hlast.resolve_left hpos.ne'
  rw [hcount] at hpos hall
  exact ⟨List.count_pos_iff.mp hpos, hbetween, fun key h => hall key (hmem key h)⟩

end VotableValue

section Runs

variable {lo hi fees target : Fees} {xrpFees : Bool} {sle : FeeSettings} {tx : FeeTx}

theorem votable_spec (xrpFees : Bool) (fees target : Fees) (set : List FeeValidation) (fee : Fee) :
    let value := votable xrpFees fees target set fee
    value.current = fees fee ∧ value.target = target fee ∧ value.target ∈ value.votes := by
  refine List.foldlRecOn _ doVote (motive := fun value => value.current = fees fee ∧
    value.target = target fee ∧ value.target ∈ value.votes) ?_ fun value h field _ => ?_
  · exact ⟨rfl, rfl, List.mem_singleton_self _⟩
  · unfold doVote
    split <;> exact ⟨h.1, h.2.1, List.mem_cons_of_mem _ h.2.2⟩

def Within (lo hi fees : Fees) : Prop := ∀ fee, lo fee ≤ fees fee ∧ fees fee ≤ hi fee

theorem Within.dropsAs (h : Within lo hi fees)
    (hwidth : ∀ fee, 0 ≤ lo fee ∧ hi fee < 2 ^ fee.width) (fee : Fee) :
    ∃ n : ℕ, dropsAs fee.width (fees fee) = some n ∧ (n : ℤ) = fees fee := by
  have hlo := (hwidth fee).1.trans (h fee).1
  exact ⟨_, if_pos ⟨(h fee).2.trans_lt (hwidth fee).2, hlo⟩, Int.toNat_of_nonneg hlo⟩

theorem doVoting_spec {set : List FeeValidation} (hfees : Within lo hi fees)
    (htarget : Within lo hi target)
    (hwidth : xrpFees = false → ∀ fee, 0 ≤ lo fee ∧ hi fee < 2 ^ fee.width)
    (h : doVoting xrpFees fees target set = some tx) :
    (∀ sle, (applyFee xrpFees sle tx).isSome) ∧ Within lo hi tx.fees ∧
      ∀ fee, (votable xrpFees fees target set fee).Chosen (tx.fees fee) := by
  have hchosen fee := VotableValue.getVotes_chosen (votable_spec xrpFees fees target set fee).2.2
  have hwithin : Within lo hi fun fee => (votable xrpFees fees target set fee).getVotes.1 := by
    intro fee
    obtain ⟨-, ⟨hmax, hmin⟩, -⟩ := hchosen fee
    rw [(votable_spec ..).1, (votable_spec ..).2.1] at hmax hmin
    exact ⟨(le_min (htarget fee).1 (hfees fee).1).trans hmin,
      hmax.trans (max_le (htarget fee).2 (hfees fee).2)⟩
  obtain rfl := Option.some.inj (Option.ite_none_right_eq_some.mp h).2
  cases xrpFees with
  | true => exact ⟨fun _ => rfl, hwithin, hchosen⟩
  | false =>
    refine ⟨fun _ => rfl, fun fee => ?_, fun fee => ?_⟩ <;>
      obtain ⟨n, hn, heq⟩ := hwithin.dropsAs (hwidth rfl) fee
    · simpa [FeeTx.fees, hn, heq] using hwithin fee
    · simpa [FeeTx.fees, hn, heq] using hchosen fee

/-- The fields of the one form or of the other say what the fees are. -/
def Holds (xrpFees : Bool) (sle : FeeSettings) (fees : Fees) : Prop :=
  (xrpFees = true ∧ sle = ⟨fun fee => some (fees fee), fun _ => none⟩) ∨
    ∃ old : Fee → ℕ, (fees = fun fee => (old fee : ℤ)) ∧
      sle = ⟨fun _ => none, fun fee => some (old fee)⟩

theorem Holds.applyFee (h : Holds xrpFees sle fees) (hform : (applyFee xrpFees sle tx).isSome) :
    Holds xrpFees ((FeeVote.applyFee xrpFees sle tx).getD sle) tx.fees := by
  cases tx <;> cases xrpFees
  case drops.true fees' => exact .inl ⟨rfl, rfl⟩
  case old.false fees' =>
    obtain ⟨old, -, rfl⟩ := h.resolve_left fun h => Bool.false_ne_true h.1
    exact .inr ⟨fees', rfl, rfl⟩
  all_goals exact (Bool.false_ne_true hform).elim

theorem Holds.foldl {txs : List FeeTx} (h : Holds xrpFees sle fees)
    (hform : ∀ tx ∈ txs, ∀ sle, (FeeVote.applyFee xrpFees sle tx).isSome) :
    Holds xrpFees (txs.foldl (fun sle tx => (FeeVote.applyFee xrpFees sle tx).getD sle) sle)
      (txs.getLast?.elim fees FeeTx.fees) := by
  induction txs using List.reverseRecOn with
  | nil => exact h
  | append_singleton txs tx ih =>
    rw [List.foldl_append, List.getLast?_concat]
    exact (ih fun tx htx => hform tx (by simp [htx])).applyFee (hform tx (by simp) _)

theorem Holds.setup (h : Holds xrpFees sle fees) (xrpFees' : Bool)
    (hstays : xrpFees = true → xrpFees' = true) (fees' : Fees) :
    setup xrpFees' fees' sle = (fees, true) := by
  rcases h with ⟨hx, rfl⟩ | ⟨old, rfl, rfl⟩
  · simp [FeeVote.setup, Fee.all, hstays hx]
  · simp [FeeVote.setup, Fee.all]

/-- What every ledger of a run keeps. -/
structure Sound (lo hi : Fees) (s : FeeState) : Prop where
  holds : Holds s.xrpFees s.sle s.fees
  within : Within lo hi s.fees
  width : s.xrpFees = false → ∀ fee, 0 ≤ lo fee ∧ hi fee < 2 ^ fee.width

theorem sound_genesis (hfees : Within lo hi fees)
    (hwidth : xrpFees = false → ∀ fee, 0 ≤ lo fee ∧ hi fee < 2 ^ fee.width) :
    Sound lo hi (genesis xrpFees fees) := by
  refine ⟨?_, hfees, hwidth⟩
  cases xrpFees with
  | true => exact .inl ⟨rfl, rfl⟩
  | false =>
    choose old hold heq using hfees.dropsAs (hwidth rfl)
    exact .inr ⟨old, funext fun fee => (heq fee).symm, congrArg (FeeSettings.mk _) (funext hold)⟩

theorem Sound.build {s : FeeState} {L : FeeLedger} (h : Sound lo hi s) (hvoted : Voted s L)
    (htargets : ∀ ballot ∈ L.ballots, Within lo hi ballot.target) :
    Sound lo hi (build s L).1 ∧ (build s L).2 = true ∧
      (build s L).1.fees = L.txs.getLast?.elim s.fees FeeTx.fees := by
  have hspec : ∀ tx ∈ L.txs, (∀ sle, (FeeVote.applyFee s.xrpFees sle tx).isSome) ∧
      Within lo hi tx.fees := fun tx htx => by
    obtain ⟨ballot, hballot, hvote⟩ := hvoted tx htx
    exact (doVoting_spec h.within (htargets ballot hballot) h.width hvote).imp_right And.left
  have hholds := h.holds.foldl fun tx htx => (hspec tx htx).1
  have hsetup := hholds.setup (s.xrpFees || L.enablesXRPFees) (by simp +contextual) s.fees
  simp only [FeeVote.build, hsetup]
  refine ⟨⟨hholds.imp_left fun h => ⟨by simp [h.1], h.2⟩, ?_,
    fun hx => h.width (Bool.or_eq_false_iff.mp hx).1⟩, trivial, trivial⟩
  cases hlast : L.txs.getLast? with
  | none => exact h.within
  | some tx => exact (hspec tx (List.mem_of_getLast? hlast)).2

/-- **No vote takes a fee beyond the targets of the nodes.** From the first ledger on, whatever the
nodes have counted, every fee stays between bounds on the first fees and on these targets, and the
entry says what the fees are. No transaction is refused. Each of its values has been voted for, lies
between the fee and the target of the node, and has the most votes of those that do. -/
theorem fees_run (xrpFees : Bool) (fees lo hi : Fees) (hfees : Within lo hi fees)
    (hwidth : xrpFees = false → ∀ fee, 0 ≤ lo fee ∧ hi fee < 2 ^ fee.width)
    (ls : List FeeLedger) (hvoted : Run.Always build Voted (genesis xrpFees fees) ls)
    (htargets : ∀ L ∈ ls, ∀ ballot ∈ L.ballots, Within lo hi ballot.target) :
    Within lo hi (Run.final build (genesis xrpFees fees) ls).fees ∧
    (∀ ok ∈ Run.outputs build (genesis xrpFees fees) ls, ok = true) ∧
    Run.Always build (fun s L =>
      (build s L).1.fees = L.txs.getLast?.elim s.fees FeeTx.fees ∧
      ∀ tx ∈ L.txs, (∀ sle, (applyFee s.xrpFees sle tx).isSome) ∧ ∃ ballot ∈ L.ballots,
        ∀ fee, (votable s.xrpFees s.fees ballot.target ballot.set fee).Chosen (tx.fees fee))
      (genesis xrpFees fees) ls := by
  have hstart := sound_genesis hfees hwidth
  have hsteps := Run.always_and hvoted (Run.always_of_mem htargets)
  have hkept : ∀ s L, Sound lo hi s →
      (Voted s L ∧ ∀ ballot ∈ L.ballots, Within lo hi ballot.target) → Sound lo hi (build s L).1 :=
    fun s L h hL => (h.build hL.1 hL.2).1
  refine ⟨(Run.invariant _ hkept hstart hsteps).within,
    Run.outputs_of_invariant _ hkept (fun s L h hL => (h.build hL.1 hL.2).2.1) hstart hsteps,
    Run.always_of_invariant _ hkept (fun s L h hL => ⟨(h.build hL.1 hL.2).2.2, fun tx htx => ?_⟩)
      hstart hsteps⟩
  obtain ⟨ballot, hballot, hvote⟩ := hL.1 tx htx
  obtain ⟨hform, -, hchosen⟩ := doVoting_spec h.within (hL.2 ballot hballot) h.width hvote
  exact ⟨hform, ballot, hballot, hchosen⟩

/-- The older fields, and a validator that asks for more than the node does. -/
def raised : List FeeLedger :=
  let set := [⟨true, fun _ => none, fun _ => some 30⟩]
  [⟨[⟨fun _ => 20, set⟩], (doVoting false (fun _ => 10) (fun _ => 20) set).toList, true⟩]

theorem fees_run_raised : (Run.final build (genesis false fun _ => 10) raised).fees .base ≤ 20 :=
  ((fees_run false (fun _ => 10) (fun _ => 10) (fun _ => 20) (by simp [Within])
    (fun _ fee => by cases fee <;> decide) raised
    ⟨fun tx htx => ⟨_, List.mem_cons_self, Option.mem_toList.mp htx⟩, trivial⟩
    (by simp [raised, Within])).1 .base).2

end Runs

end FeeVote

end FalconLedger
