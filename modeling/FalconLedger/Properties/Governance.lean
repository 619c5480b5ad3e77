import FalconLedger.Ledger.Formats
import FalconLedger.Properties.EpochPool

/-!
# Governance

A proposal is tallied only while its key is in the epoch object's list, and a rollover builds that
object anew without a list. Since voting lasts as long as an epoch does, no proposal survives a
rollover; `proposal_tracked_run` is what holds as long as none is lost in this way.

The tally writes a ratified rate to the governance parameters, and nothing reads them: fees are
split at the rate in the epoch object. `ratified_rate_run` says when the two agree.
-/

namespace FalconLedger

open Transactor Ledger BuildLedger

variable {H : Services} {s s' : Ledger} {tx : STTx} {a : Applied} {key : UInt256}

/-- The state of a proposal, if there is one under this key. -/
def Ledger.proposalState (s : Ledger) (key : UInt256) : Option ProposalState :=
  (s.proposals.lookup key).map GovernanceProposal.proposalState

/-! ### Transactions -/

/-- What a transaction does to proposals: those there are keep their state and their expiry,
and the list keeps its keys. -/
structure ProposalsKept (s s' : Ledger) : Prop where
  proposals : ∀ key proposal, s.proposals.lookup key = some proposal →
    ∃ proposal', s'.proposals.lookup key = some proposal' ∧
      proposal'.proposalState = proposal.proposalState ∧
      proposal'.proposalExpiry = proposal.proposalExpiry
  listed : ∀ key ∈ proposalKeys s, key ∈ proposalKeys s'
  seq : s'.seq = s.seq
  rules : s'.rules = s.rules

private theorem ProposalsKept.of_eq (hproposals : s'.proposals = s.proposals)
    (hlisted : proposalKeys s' = proposalKeys s) (hseq : s'.seq = s.seq)
    (hrules : s'.rules = s.rules) : ProposalsKept s s' := by
  refine ⟨fun key proposal h => ⟨proposal, ?_, rfl, rfl⟩, fun key h => ?_, hseq, hrules⟩
  · rw [hproposals]
    exact h
  · rw [hlisted]
    exact h

private theorem ProposalsKept.trans {s'' : Ledger} (h : ProposalsKept s s')
    (h' : ProposalsKept s' s'') : ProposalsKept s s'' := by
  refine ⟨fun key proposal hlookup => ?_, fun key hkey => h'.listed key (h.listed key hkey),
    h'.seq.trans h.seq, h'.rules.trans h.rules⟩
  obtain ⟨proposal', hlookup', hstate', hexpiry'⟩ := h.proposals key proposal hlookup
  obtain ⟨proposal'', hlookup'', hstate'', hexpiry''⟩ := h'.proposals key proposal' hlookup'
  exact ⟨proposal'', hlookup'', hstate''.trans hstate', hexpiry''.trans hexpiry'⟩

private theorem proposalKeys_listProposal (hepoch : s'.epoch = s.epoch.map
    (GovernanceProposal.listProposal s.seq tx key)) (k : UInt256) (hk : k ∈ proposalKeys s) :
    k ∈ proposalKeys s' := by
  unfold proposalKeys at hk ⊢
  rw [hepoch]
  cases hs : s.epoch with
  | none => simp [hs] at hk
  | some epoch =>
    rw [hs] at hk
    simp only [Option.bind_some, Option.map_some, GovernanceProposal.listProposal,
      Option.getD_some, List.mem_append] at hk ⊢
    exact .inl hk

private theorem doApply_proposalsKept (h : doApply H s tx = .ok a) : ProposalsKept s a.view := by
  cases doApply_effect h with
  | registry hview =>
    refine .of_eq ?_ ?_ ?_ ?_ <;> rw [hview]
    rfl
  | slash => exact .of_eq rfl rfl rfl rfl
  | nothing => exact .of_eq rfl rfl rfl rfl
  | claim _ hepoch _ hpay =>
    obtain ⟨_, _, -, -, -, -, -, rfl⟩ := payClaim_ok hpay
    refine .of_eq rfl ?_ rfl rfl
    simp [proposalKeys, payOut, hepoch]
  | proposal hsame hroot hnew =>
    refine ⟨fun k proposal hlookup => ⟨proposal, ?_, rfl, rfl⟩,
      proposalKeys_listProposal rfl, ?_, ?_⟩
    · -- the new key was free, so no proposal is overwritten
      have hne : k ≠ GovernanceProposal.proposalKey H.toHashes tx := by
        rintro rfl
        rw [hnew] at hlookup
        cases hlookup
      exact (AList.lookup_insert_ne hne).trans hlookup
    · simp only [setAccount]
      rw [hsame]
    · simp only [setAccount]
      rw [hsame]
  | @vote proposalID proposal bondID voteYes weight hproposal =>
    refine ⟨fun k p hlookup => ?_, fun k hk => hk, rfl, rfl⟩
    by_cases hk : k = proposalID
    · subst hk
      rw [hproposal] at hlookup
      obtain rfl := Option.some.inj hlookup
      exact ⟨_, AList.lookup_insert _, rfl, rfl⟩
    · exact ⟨p, (AList.lookup_insert_ne hk).trans hlookup, rfl, rfl⟩

private theorem ProposalsKept.of_sameButAccounts (h : SameButAccounts s s') :
    ProposalsKept s s' := by
  refine .of_eq ?_ ?_ ?_ ?_ <;> rw [h]
  rfl

private theorem ProposalsKept.destroyXRP (h : ProposalsKept s s') (fee : Int) :
    ProposalsKept s (ApplyContext.destroyXRP H.toHashes s' fee) := by
  refine h.trans (.of_eq ?_ ?_ ?_ ?_) <;> rw [ApplyContext.destroyXRP_eq]
  rfl

theorem Transactor.Outcome.proposalsKept {r : Ledger × Receipt} (h : Outcome H s tx r) :
    ProposalsKept s r.1 := by
  cases h with
  | unapplied => exact .of_eq rfl rfl rfl rfl
  | feeOnly hreset => exact (ProposalsKept.of_sameButAccounts (reset_ok hreset).same).destroyXRP _
  | success hflight hclaim hcharge happly =>
    have hcharged := charge_ok hcharge (account_ne_none_of_preclaim hclaim)
    exact ((ProposalsKept.of_sameButAccounts hcharged.same).trans
      (doApply_proposalsKept happly)).destroyXRP _

/-! ### Closing a ledger -/

/-- The proposal under `key` after a tally that has it on the list. -/
def GovernanceTally.tallied (seq aggregate : UInt32) (key : UInt256)
    (proposal : FalconLedger.GovernanceProposal) : FalconLedger.GovernanceProposal :=
  if proposal.proposalState ≠ .open ∨ seq < proposal.proposalExpiry then proposal
  else
    GovernanceTally.resolve seq key
      (GovernanceTally.passes (proposal.votedFor.getD 0) aggregate) proposal

open GovernanceTally

private theorem tallied_proposalState (seq aggregate : UInt32) (key : UInt256)
    {proposal : GovernanceProposal} (hopen : proposal.proposalState = .open)
    (hexpiry : proposal.proposalExpiry ≤ seq) :
    (tallied seq aggregate key proposal).proposalState =
      if passes (proposal.votedFor.getD 0) aggregate then .passed else .rejected := by
  have hlt : ¬seq < proposal.proposalExpiry := UInt32.not_lt.mpr hexpiry
  simp [tallied, hopen, hlt, resolve]

private theorem tallied_of_ne {seq aggregate : UInt32} {key : UInt256}
    {proposal : GovernanceProposal} (h : proposal.proposalState ≠ .open) :
    tallied seq aggregate key proposal = proposal := if_pos (.inl h)

private theorem tallied_tallied (seq aggregate : UInt32) (key : UInt256)
    (proposal : GovernanceProposal) :
    tallied seq aggregate key (tallied seq aggregate key proposal) =
      tallied seq aggregate key proposal := by
  by_cases h : proposal.proposalState ≠ .open ∨ seq < proposal.proposalExpiry
  · have hkeep : tallied seq aggregate key proposal = proposal := if_pos h
    rw [hkeep, hkeep]
  · have hstate : (tallied seq aggregate key proposal).proposalState ≠ .open := by
      rw [tallied, if_neg h, resolve]
      dsimp only
      split_ifs <;> decide
    exact tallied_of_ne hstate

/-- Tallying a proposal writes it as `tallied`, or not at all if that is what it is already. -/
private theorem tally_proposals {seq aggregate : UInt32} {s : Ledger} {key : UInt256}
    {proposal : GovernanceProposal} (h : s.proposals.lookup key = some proposal) :
    (tally seq aggregate s key).proposals = s.proposals ∧
        tallied seq aggregate key proposal = proposal ∨
      (tally seq aggregate s key).proposals =
        s.proposals.insert key (tallied seq aggregate key proposal) := by
  have hparams : (writeParams s seq key proposal).proposals = s.proposals := by
    unfold writeParams
    split_ifs <;> rfl
  unfold tally
  rw [h]
  dsimp only
  by_cases hskip : proposal.proposalState ≠ .open ∨ seq < proposal.proposalExpiry
  · rw [if_pos hskip]
    exact .inl ⟨rfl, if_pos hskip⟩
  · rw [if_neg hskip, tallied, if_neg hskip]
    split_ifs with hpass
    · refine .inr ?_
      dsimp only
      rw [hpass, hparams]
    · exact .inr rfl

private theorem lookup_tally (seq aggregate : UInt32) (s : Ledger) (key k : UInt256) :
    (tally seq aggregate s key).proposals.lookup k =
      if k = key then (s.proposals.lookup k).map (tallied seq aggregate key)
      else s.proposals.lookup k := by
  cases hlookup : s.proposals.lookup key with
  | none =>
    have htally : tally seq aggregate s key = s := by rw [tally, hlookup]
    rw [htally]
    split_ifs with hk
    · rw [hk, hlookup]
      rfl
    · rfl
  | some proposal =>
    rcases tally_proposals hlookup with ⟨hsame, hkeep⟩ | hwrite
    · rw [hsame]
      split_ifs with hk
      · rw [hk, hlookup, Option.map_some, hkeep]
      · rfl
    · rw [hwrite]
      split_ifs with hk
      · rw [hk, hlookup, AList.lookup_insert, Option.map_some]
      · exact AList.lookup_insert_ne hk

private theorem lookup_foldl_tally (seq aggregate : UInt32) (keys : List UInt256) (s : Ledger)
    (k : UInt256) :
    (keys.foldl (tally seq aggregate) s).proposals.lookup k =
      if k ∈ keys then (s.proposals.lookup k).map (tallied seq aggregate k)
      else s.proposals.lookup k := by
  induction keys generalizing s with
  | nil => simp
  | cons key keys ih =>
    rw [List.foldl_cons, ih, lookup_tally]
    by_cases hk : k = key
    · subst hk
      simp only [if_true, List.mem_cons, true_or]
      split_ifs
      · -- a key that is listed twice is tallied twice
        rw [Option.map_map]
        congr 1
        funext proposal
        exact tallied_tallied seq aggregate k proposal
      · rfl
    · simp [hk]

theorem lookup_applyGovernanceTally {rules : Rules} (hrules : rules.proofOfParticipation = true)
    (s : Ledger) (seq : UInt32) (keys : List UInt256) (k : UInt256) :
    (applyGovernanceTally s seq rules keys).proposals.lookup k =
      if k ∈ keys then (s.proposals.lookup k).map (tallied seq (aggregateScore s) k)
      else s.proposals.lookup k := by
  unfold applyGovernanceTally
  split_ifs with hnone hk hk
  · simp only [hrules, Bool.not_true, Bool.false_eq_true, false_or] at hnone
    simp [hnone] at hk
  · rfl
  · rw [lookup_foldl_tally, if_pos hk]
  · rw [lookup_foldl_tally, if_neg hk]

theorem mem_proposalKeys_pruneProposals {s : Ledger} {k : UInt256} (hk : k ∈ proposalKeys s)
    (hopen : stillOpen s k = true) : k ∈ proposalKeys (pruneProposals s (proposalKeys s)) := by
  unfold pruneProposals
  dsimp only
  split_ifs with hsame
  · exact hk
  · cases hepoch : s.epoch with
    | none => simp [proposalKeys, hepoch] at hk
    | some epoch =>
      have hmem : k ∈ (proposalKeys s).filter (stillOpen s) := List.mem_filter.mpr ⟨hk, hopen⟩
      simpa only [proposalKeys, hepoch, Option.map_some, Option.bind_some, Option.getD_some]
        using hmem

theorem applyValidatorScoring_proposals (H : Hashes) (store : Validations)
    (s parent : Ledger) (seq : UInt32) (rules : Rules) :
    (applyValidatorScoring H store s parent seq rules).proposals = s.proposals ∧
      proposalKeys (applyValidatorScoring H store s parent seq rules) = proposalKeys s := by
  unfold applyValidatorScoring
  split
  · exact ⟨rfl, rfl⟩
  · dsimp only
    rw [writeBonds_eq]
    refine ⟨rfl, ?_⟩
    cases hepoch : s.epoch <;> simp [proposalKeys, hepoch]

/-- The keys the tally and the pruning of a close work on. -/
def Chain.keysAtClose (H : Services) (c : Chain) : List UInt256 :=
  if c.rollsOver H then [] else proposalKeys c.view

theorem Chain.applyRewardEpoch_proposals (H : Services) (c : Chain) :
    (applyRewardEpoch H.toHashes c.view c.view.seq c.view.rules).proposals = c.view.proposals ∧
      proposalKeys (applyRewardEpoch H.toHashes c.view c.view.seq c.view.rules) =
        c.keysAtClose H := by
  rcases hroll : c.rollsOver H with _ | _
  · rw [applyRewardEpoch_of_not hroll, Chain.keysAtClose, hroll]
    exact ⟨rfl, rfl⟩
  · rw [applyRewardEpoch_of_rollsOver hroll, Chain.keysAtClose, hroll]
    exact ⟨rfl, rfl⟩

/-- The score sum the tally of a close measures votes against. -/
def Chain.aggregateAtClose (H : Services) (c : Chain) (store : Validations) : UInt32 :=
  aggregateScore (applyValidatorScoring H.toHashes store
    (applyRewardEpoch H.toHashes c.view c.view.seq c.view.rules) c.parent c.view.seq c.view.rules)

/-- What a close does to proposals: it tallies those on the list, and keeps on the list what is
then still open. -/
structure TallyStep (H : Services) (c : Chain) (store : Validations) (s' : Ledger) : Prop where
  proposals : ∀ k, s'.proposals.lookup k =
    if k ∈ c.keysAtClose H then
      (c.view.proposals.lookup k).map (tallied c.view.seq (c.aggregateAtClose H store) k)
    else c.view.proposals.lookup k
  listed : ∀ k ∈ c.keysAtClose H, s'.proposalState k = some .open → k ∈ proposalKeys s'
  rules : s'.rules = c.view.rules

theorem Chain.close_tallyStep {c : Chain} (hrules : c.view.rules.proofOfParticipation = true)
    (store : Validations) : TallyStep H c store (c.step H (.close store)).1.view := by
  let s₁ := applyRewardEpoch H.toHashes c.view c.view.seq c.view.rules
  let s₂ := applyValidatorScoring H.toHashes store s₁ c.parent c.view.seq c.view.rules
  let s₃ := applyGovernanceTally s₂ c.view.seq c.view.rules (proposalKeys s₂)
  let s₄ := pruneProposals s₃ (proposalKeys s₂)
  have hroll : s₁.proposals = c.view.proposals ∧ proposalKeys s₁ = c.keysAtClose H :=
    c.applyRewardEpoch_proposals H
  obtain ⟨hproposals, hkeys⟩ := applyValidatorScoring_proposals H.toHashes store s₁ c.parent
    c.view.seq c.view.rules
  have hkeys₂ : proposalKeys s₂ = c.keysAtClose H := hkeys.trans hroll.2
  have hepoch₃ : proposalKeys s₃ = proposalKeys s₂ := by
    simp only [s₃]
    rw [applyGovernanceTally_eq]
    rfl
  have hprune : s₄.proposals = s₃.proposals := by
    simp only [s₄, pruneProposals]
    split_ifs <;> rfl
  have hview : (c.step H (.close store)).1.view =
      openNext (updateSkipList s₄ (H.ledgerHash c.parent)) := rfl
  have hlookup : ∀ k, (c.step H (.close store)).1.view.proposals.lookup k =
      s₃.proposals.lookup k := fun k => by
    rw [hview]
    exact congrArg (AList.lookup k) hprune
  refine ⟨fun k => ?_, fun k hk hopen => ?_, ?_⟩
  · rw [hlookup, ← hroll.1, ← hproposals, ← hkeys₂]
    exact lookup_applyGovernanceTally hrules s₂ c.view.seq (proposalKeys s₂) k
  · have hstill : stillOpen s₃ k = true := by
      rw [Ledger.proposalState, hlookup] at hopen
      obtain ⟨proposal, hproposal, hstate⟩ := Option.map_eq_some_iff.mp hopen
      simp [stillOpen, hproposal, hstate]
    rw [← hkeys₂, ← hepoch₃] at hk
    have hmem := mem_proposalKeys_pruneProposals hk hstill
    rw [hepoch₃] at hmem
    exact hmem
  · have hsame := (closeHooks_sameButScores H.toHashes store c.parent c.view c.view.seq
      c.view.rules).same
    have hrules₁ : s₁.rules = c.view.rules := by
      simp only [s₁, applyRewardEpoch]
      split_ifs <;> rfl
    exact (congrArg Ledger.rules hsame).trans hrules₁

theorem Chain.lookup_proposals_close (H : Services) (c : Chain) (store : Validations)
    (k : UInt256) :
    (c.step H (.close store)).1.view.proposals.lookup k = c.view.proposals.lookup k ∨
      (c.step H (.close store)).1.view.proposals.lookup k = (c.view.proposals.lookup k).map
        (tallied c.view.seq (c.aggregateAtClose H store) k) := by
  rcases hrules : c.view.rules.proofOfParticipation with _ | _
  · -- without the amendment the tally does nothing
    have hoff : (closeHooks H.toHashes store c.parent c.view c.view.seq c.view.rules).proposals =
        c.view.proposals := by
      simp only [closeHooks, applyGovernanceTally, hrules, Bool.not_false, true_or, if_true,
        pruneProposals]
      split_ifs <;>
        exact (applyValidatorScoring_proposals ..).1.trans (c.applyRewardEpoch_proposals H).1
    exact .inl (congrArg (AList.lookup k) hoff)
  · rw [(Chain.close_tallyStep hrules store).proposals k]
    split_ifs
    · exact .inr rfl
    · exact .inl rfl

/-! ### The life of a proposal -/

/-- No listed proposal is open when a close starts an epoch. -/
def NoneLost (H : Services) (c : Chain) : Step → Prop
  | .close _ => c.rollsOver H = true →
      ∀ key ∈ proposalKeys c.view, c.view.proposalState key ≠ some .open
  | _ => True

instance (H : Services) (c : Chain) : ∀ st, Decidable (NoneLost H c st)
  | .close _ => inferInstanceAs (Decidable (_ → ∀ key ∈ proposalKeys c.view, _))
  | .tx .. | .outside .. => inferInstanceAs (Decidable True)

/-- What a step looks up and no step before it in the same ledger has written, it constructs from the
bytes of the last closed ledger; an entry that holds an explicit default throws there. -/
def ReadsParent (c : Chain) : Prop := c.parent.Readable

instance (c : Chain) : Decidable (ReadsParent c) := inferInstanceAs (Decidable c.parent.Readable)

/-- The condition on a step: the entries of the last closed ledger can be read, and no open proposal is
lost. -/
def KeepsProposals (H : Services) (c : Chain) (st : Step) : Prop := ReadsParent c ∧ NoneLost H c st

instance (H : Services) (c : Chain) (st : Step) : Decidable (KeepsProposals H c st) :=
  inferInstanceAs (Decidable (_ ∧ _))

/-- What is known of a proposal with this expiry at every moment of its life: it exists, and
while it is open it is on the list. -/
structure Tracked (key : UInt256) (expiry : UInt32) (c : Chain) : Prop where
  rules : c.view.rules.proofOfParticipation = true
  listed : ∃ proposal, c.view.proposals.lookup key = some proposal ∧
    proposal.proposalExpiry = expiry ∧
    (proposal.proposalState = .open → key ∈ proposalKeys c.view)

/-- What a step does to a tracked proposal. It is on the list while it is open; a close before
its expiry leaves it open, and one at or after its expiry resolves it by the vote; once it is
resolved, it stays as it is. -/
structure ProposalStep (H : Services) (key : UInt256) (expiry : UInt32) (c : Chain) (st : Step) :
    Prop where
  listed : c.view.proposalState key = some .open → key ∈ proposalKeys c.view
  waits : ∀ store, st = .close store → c.view.proposalState key = some .open →
    c.view.seq < expiry → (c.step H st).1.view.proposalState key = some .open
  resolves : ∀ store, st = .close store → c.view.proposalState key = some .open →
    expiry ≤ c.view.seq → ∃ proposal, c.view.proposals.lookup key = some proposal ∧
      (c.step H st).1.view.proposalState key = some
        (if passes (proposal.votedFor.getD 0) (c.aggregateAtClose H store) then .passed
          else .rejected)
  once : c.view.proposalState key ≠ some .open →
    (c.step H st).1.view.proposalState key = c.view.proposalState key

private theorem Chain.step_proposalsKept (c : Chain) (st : Step) (h : ∀ store, st ≠ .close store) :
    ProposalsKept c.view (c.step H st).1.view := by
  cases st with
  | tx flags tx => exact (applyTransaction_outcome H flags c.view tx).proposalsKept
  | close store => exact absurd rfl (h store)
  | outside accounts holdings => exact .of_eq rfl rfl rfl rfl

private theorem Tracked.mem_keysAtClose {key : UInt256} {expiry : UInt32} {c : Chain}
    {proposal : GovernanceProposal} (h : Tracked key expiry c) {store : Validations}
    (hlost : NoneLost H c (.close store)) (hlookup : c.view.proposals.lookup key = some proposal)
    (hopen : proposal.proposalState = .open) : key ∈ c.keysAtClose H := by
  obtain ⟨proposal', hlookup', -, hlisted⟩ := h.listed
  rw [hlookup] at hlookup'
  obtain rfl := Option.some.inj hlookup'
  have hmem := hlisted hopen
  have hroll : c.rollsOver H = false := by
    by_contra hne
    refine hlost (Bool.not_eq_false _ ▸ hne) key hmem ?_
    simp [Ledger.proposalState, hlookup, hopen]
  rw [Chain.keysAtClose, hroll]
  exact hmem

private theorem Tracked.step {key : UInt256} {expiry : UInt32} {c : Chain} {st : Step}
    (h : Tracked key expiry c) (hst : NoneLost H c st) : Tracked key expiry (c.step H st).1 := by
  obtain ⟨proposal, hlookup, hexpiry, hlisted⟩ := h.listed
  by_cases hclose : ∃ store, st = .close store
  · obtain ⟨store, rfl⟩ := hclose
    have hclosed := Chain.close_tallyStep (H := H) h.rules store
    refine ⟨hclosed.rules ▸ h.rules, ?_⟩
    have hproposal := hclosed.proposals key
    rw [hlookup, Option.map_some] at hproposal
    split_ifs at hproposal with hmem
    · refine ⟨_, hproposal, ?_, fun hopen => ?_⟩
      · rw [tallied]
        split_ifs
        · exact hexpiry
        · exact hexpiry
      · refine hclosed.listed key hmem ?_
        rw [Ledger.proposalState, hproposal, Option.map_some, hopen]
    · -- what the tally does not see is not open, since nothing open was lost
      exact ⟨proposal, hproposal, hexpiry,
        fun hopen => absurd (h.mem_keysAtClose hst hlookup hopen) hmem⟩
  · have hkept := Chain.step_proposalsKept (H := H) c st
      fun store heq => hclose ⟨store, heq⟩
    obtain ⟨proposal', hlookup', hstate', hexpiry'⟩ := hkept.proposals key proposal hlookup
    refine ⟨hkept.rules ▸ h.rules, proposal', hlookup', hexpiry'.trans hexpiry, fun hopen => ?_⟩
    exact hkept.listed key (hlisted (hstate' ▸ hopen))

private theorem Tracked.proposalStep {key : UInt256} {expiry : UInt32} {c : Chain} {st : Step}
    (h : Tracked key expiry c) (hst : NoneLost H c st) : ProposalStep H key expiry c st := by
  obtain ⟨proposal, hlookup, hexpiry, hlisted⟩ := h.listed
  have hstate : c.view.proposalState key = some proposal.proposalState := by
    rw [Ledger.proposalState, hlookup, Option.map_some]
  -- an open proposal goes through the tally at a close
  have htally : ∀ store, st = .close store → proposal.proposalState = .open →
      (c.step H st).1.view.proposalState key =
        some (tallied c.view.seq (c.aggregateAtClose H store) key proposal).proposalState := by
    rintro store rfl hopen
    have hclosed := (Chain.close_tallyStep (H := H) h.rules store).proposals key
    rw [if_pos (h.mem_keysAtClose hst hlookup hopen), hlookup] at hclosed
    rw [Ledger.proposalState, hclosed]
    rfl
  refine ⟨fun hopen => ?_, fun store heq hopen hlt => ?_, fun store heq hopen hle => ?_,
    fun hne => ?_⟩
  · rw [hstate] at hopen
    exact hlisted (Option.some.inj hopen)
  · rw [hstate] at hopen
    have hkeep : tallied c.view.seq (c.aggregateAtClose H store) key proposal = proposal :=
      if_pos (.inr (hexpiry ▸ hlt))
    rw [htally store heq (Option.some.inj hopen), hkeep]
    exact hopen
  · rw [hstate] at hopen
    refine ⟨proposal, hlookup, ?_⟩
    rw [htally store heq (Option.some.inj hopen),
      tallied_proposalState _ _ _ (Option.some.inj hopen) (hexpiry ▸ hle)]
  · have hresolved : proposal.proposalState ≠ .open := fun hopen => hne (by rw [hstate, hopen])
    by_cases hclose : ∃ store, st = .close store
    · obtain ⟨store, rfl⟩ := hclose
      have hclosed := (Chain.close_tallyStep (H := H) h.rules store).proposals key
      rw [hlookup, Option.map_some, tallied_of_ne hresolved, ite_self] at hclosed
      rw [Ledger.proposalState, hclosed, hstate]
      rfl
    · have hkept := Chain.step_proposalsKept (H := H) c st
        fun store heq => hclose ⟨store, heq⟩
      obtain ⟨proposal', hlookup', hstate', -⟩ := hkept.proposals key proposal hlookup
      rw [Ledger.proposalState, hlookup', Option.map_some, hstate', hstate]

private theorem doApply_proposal {consensusKey : Blob} {type value : UInt32}
    (hbody : tx.body = .governanceProposal consensusKey type value) (h : doApply H s tx = .ok a)
    (hepoch : s.epoch ≠ none) :
    (∃ proposal, a.view.proposals.lookup (GovernanceProposal.proposalKey H.toHashes tx) =
        some proposal ∧ proposal.proposalState = .open ∧
        proposal.proposalExpiry = s.seq + kGovernanceVotingLedgers) ∧
      GovernanceProposal.proposalKey H.toHashes tx ∈ proposalKeys a.view := by
  simp only [doApply, hbody] at h
  obtain ⟨page, s₁, root, -, -, -, rfl⟩ := GovernanceProposal.doApply_ok h
  refine ⟨⟨_, AList.lookup_insert _, rfl, rfl⟩, ?_⟩
  obtain ⟨epoch, hepoch'⟩ := Option.ne_none_iff_exists'.mp hepoch
  simp [proposalKeys, hepoch', GovernanceProposal.listProposal]

private theorem tracked_of_created {c : Chain} {flags : ApplyFlags} {consensusKey : Blob}
    {type value : UInt32} (hbody : tx.body = .governanceProposal consensusKey type value)
    (happlied : (applyTransaction H flags c.view tx).2.applied = true)
    (hter : (applyTransaction H flags c.view tx).2.ter = .tesSuccess)
    (hepoch : c.view.epoch ≠ none) :
    (c.step H (.tx flags tx)).1.view.proposalState (GovernanceProposal.proposalKey H.toHashes tx) =
        some .open ∧
      Tracked (GovernanceProposal.proposalKey H.toHashes tx)
        (c.view.seq + kGovernanceVotingLedgers) (c.step H (.tx flags tx)).1 := by
  have hout := applyTransaction_outcome H flags c.view tx
  have hkept := hout.proposalsKept
  obtain ⟨s₁, a, hflight, hclaim, hcharge, happly, -, hview⟩ := hout.of_success happlied hter
  have hsame := (charge_ok hcharge (account_ne_none_of_preclaim hclaim)).same
  have hepoch₁ : s₁.epoch ≠ none := by
    rw [hsame]
    exact hepoch
  have hseq : s₁.seq = c.view.seq := by rw [hsame]
  obtain ⟨⟨proposal, hlookup, hopen, hexpiry⟩, hlisted⟩ := doApply_proposal hbody happly hepoch₁
  -- the split of the fee that follows leaves the proposal alone
  have hsplit : ProposalsKept a.view (ApplyContext.destroyXRP H.toHashes a.view tx.fee) :=
    (ProposalsKept.of_eq rfl rfl rfl rfl).destroyXRP _
  obtain ⟨proposal', hlookup', hstate', hexpiry'⟩ := hsplit.proposals _ _ hlookup
  have hmem := hsplit.listed _ hlisted
  rw [← hview] at hlookup' hmem
  -- the amendment is enabled, or preflight would have refused
  have hrules : c.view.rules.proofOfParticipation = true := by
    simp only [invokePreflight, Except.bind_eq_ok, failIf_eq_ok, featureEnabled, hbody] at hflight
    obtain ⟨-, henabled, -⟩ := hflight
    simpa using henabled
  refine ⟨?_, ?_, proposal', hlookup', ?_, fun _ => hmem⟩
  · simp only [Chain.step, Ledger.proposalState, hlookup', Option.map_some, hstate', hopen]
  · rw [Chain.step, hkept.rules]
    exact hrules
  · rw [hexpiry', hexpiry, hseq]

/-- **No proposal is lost while it can be read and no epoch starts over its head.** From the
transaction that creates a proposal, along every run in which every step can read the last closed
ledger and no listed proposal is open at a rollover: while it is open it is on the list, the first
close at or after its expiry resolves it by the vote, and it is never written again after that. -/
theorem proposal_tracked_run (H : Services) (c : Chain) (flags : ApplyFlags) (tx : STTx)
    (consensusKey : Blob) (type value : UInt32) (steps : List Step)
    (hbody : tx.body = .governanceProposal consensusKey type value)
    (happlied : (applyTransaction H flags c.view tx).2.applied = true)
    (hter : (applyTransaction H flags c.view tx).2.ter = .tesSuccess)
    (hepoch : c.view.epoch ≠ none)
    (hsteps : Run.Always (Chain.step H) (KeepsProposals H) (c.step H (.tx flags tx)).1 steps) :
    let key := GovernanceProposal.proposalKey H.toHashes tx
    let created := (c.step H (.tx flags tx)).1
    let last := Run.final (Chain.step H) created steps
    created.view.proposalState key = some .open ∧
      Run.Always (Chain.step H) (ProposalStep H key (c.view.seq + kGovernanceVotingLedgers))
        created steps ∧
      (last.view.proposalState key = some .open → key ∈ proposalKeys last.view) := by
  intro key created last
  obtain ⟨hopen, htracked⟩ := tracked_of_created hbody happlied hter hepoch
  have hstep : ∀ (c' : Chain) st, Tracked key (c.view.seq + kGovernanceVotingLedgers) c' →
      KeepsProposals H c' st →
        Tracked key (c.view.seq + kGovernanceVotingLedgers) (c'.step H st).1 :=
    fun _ _ h hst => h.step hst.2
  have hlast : Tracked key (c.view.seq + kGovernanceVotingLedgers) last :=
    Run.invariant _ hstep htracked hsteps
  refine ⟨hopen, Run.always_of_invariant _ hstep (fun _ _ h hst => h.proposalStep hst.2) htracked
    hsteps, fun hstate => ?_⟩
  obtain ⟨proposal, hlookup, -, hlisted⟩ := hlast.listed
  refine hlisted ?_
  rw [Ledger.proposalState, hlookup, Option.map_some] at hstate
  exact Option.some.inj hstate

namespace Sample

def epochSeven : Chain :=
  .start { ledger with
    epoch := some (RewardEpoch.newEpoch services.toHashes ledger (7 * kQxrpLedgersPerEpoch)) }

def proposal : STTx := ⟨1, alice, none, 10, .seq 1, .governanceProposal aliceKey 1 6000⟩

def proposalKey : UInt256 := GovernanceProposal.proposalKey services.toHashes proposal

end Sample

/-- In the middle of an epoch a proposal stays listed: it gets a vote for and one against in the ledger
it was made in, so that it can be read when the next one closes. -/
theorem proposal_tracked_vote_close :
    let created := Chain.step Sample.services (Sample.chain.rolledOver Sample.services .empty)
      (.tx Sample.flags Sample.proposal)
    let steps := [Sample.send Sample.bob 1 (.governanceVote Sample.bobKey Sample.proposalKey 1),
      Sample.send Sample.alice 2 (.governanceVote Sample.aliceKey Sample.proposalKey 0),
      .close .empty, .close .empty]
    let last := Run.final (Chain.step Sample.services) created.1 steps
    last.view.proposalState Sample.proposalKey = some .open ∧
      Sample.proposalKey ∈ proposalKeys last.view := by
  intro created steps last
  have hopen : last.view.proposalState Sample.proposalKey = some .open := by decide +kernel
  have h := proposal_tracked_run Sample.services (Sample.chain.rolledOver Sample.services .empty)
    Sample.flags Sample.proposal Sample.aliceKey 1 6000 steps rfl (by decide +kernel)
    (by decide +kernel) (by decide +kernel) (by decide +kernel)
  exact ⟨hopen, h.2.2 hopen⟩

/-- A proposal of the last ledger of an epoch is on the list; the close of that ledger leaves it
open and takes it off. -/
theorem proposal_lost_at_rollover :
    let created := (Sample.epochSeven.step Sample.services (.tx Sample.flags Sample.proposal)).1
    let closed := (created.step Sample.services (.close .empty)).1
    Sample.proposalKey ∈ proposalKeys created.view ∧
      closed.view.proposalState Sample.proposalKey = some .open ∧
      Sample.proposalKey ∉ proposalKeys closed.view := by
  decide +kernel

/-! ### The rate that is charged -/

/-- The burn share a fee was split at, if one was. -/
def Event.splitBps (e : Event) : Option UInt32 := e.bind fun x => x.2.splitBps

/-- Closing the open ledger resolves a burn-share proposal as passed. -/
def Ratifies (H : Services) (c : Chain) (store : Validations) (key : UInt256)
    (proposal : GovernanceProposal) : Prop :=
  c.view.proposals.lookup key = some proposal ∧ proposal.proposalType = kProposalTypeBurnBps ∧
    proposal.proposalState = .open ∧
    (c.step H (.close store)).1.view.proposalState key = some .passed

/-- The treasury's balance lies in the band of `v`: from 5500 the share rises by one basis point
with every 196 million units, up to 7000. The remainder mod `2 ^ 32` is that of a cast, and idle
for every 64-bit balance. -/
def InBand (v : UInt32) (treasuryDrops : Int) : Prop :=
  v.toNat = min 7000 (5500 + treasuryDrops.toNat / 19600000000000 % 2 ^ 32 / 10)

/-- If the step starts an epoch, the treasury's balance is in the band of `v`. -/
def RolloverInBand (H : Services) (v : UInt32) (c : Chain) : Step → Prop
  | .close _ => c.rollsOver H = true → InBand v (c.view.balanceOf H.getTreasuryAccountID)
  | _ => True

instance (v : UInt32) (treasuryDrops : Int) : Decidable (InBand v treasuryDrops) :=
  inferInstanceAs (Decidable (_ = _))

instance (H : Services) (v : UInt32) (c : Chain) : ∀ st, Decidable (RolloverInBand H v c st)
  | .close _ => inferInstanceAs (Decidable (_ → _))
  | .tx .. | .outside .. => inferInstanceAs (Decidable True)

theorem fillBurnBps_toNat (treasuryDrops : Int) : (RewardEpoch.fillBurnBps treasuryDrops).toNat =
    min 7000 (5500 + treasuryDrops.toNat / 19600000000000 % 2 ^ 32 / 10) := by
  have hmin : kFeeBurnMinBps.toNat = 4000 := rfl
  have hmax : kFeeBurnMaxBps.toNat = 7000 := rfl
  have hdefault : kFeeBurnDefaultBps.toNat = 5500 := rfl
  have hsens : kFeeTreasurySensitivityBps.toNat = 1000 := rfl
  have hden : kBpsDenom.toNat = 10000 := rfl
  have hper : RewardEpoch.kTreasuryPerBps.toNat = 19600000000000 := by decide
  simp only [RewardEpoch.fillBurnBps, toNat_max, toNat_min, UInt32.toNat_add, UInt32.toNat_ofNat',
    hmin, hmax, hdefault, hsens, hden, hper]
  omega

theorem inBand_iff (v : UInt32) (treasuryDrops : Int) :
    InBand v treasuryDrops ↔ RewardEpoch.fillBurnBps treasuryDrops = v := by
  rw [InBand, ← fillBurnBps_toNat, ← UInt32.toNat_inj, eq_comm]

theorem burnBps_of_fixedTerms (h : s'.fixedTerms = s.fixedTerms) :
    ApplyContext.burnBps s' = ApplyContext.burnBps s := by
  have hrate := map_epoch_of_fixedTerms RewardEpoch.currentBurnBps (fun _ => rfl) h
  unfold ApplyContext.burnBps
  cases hs : s.epoch <;> cases hs' : s'.epoch <;> simp_all

theorem Transactor.Outcome.splitBps_eq {r : Ledger × Receipt} (h : Outcome H s tx r) {b : UInt32}
    (hb : r.2.splitBps = some b) : b = ApplyContext.burnBps s := by
  have hsplit : ∀ (a : Applied) ter fee, (receipt H a ter fee).splitBps = some b →
      b = ApplyContext.burnBps a.view := fun a ter fee h => by
    simp only [receipt] at h
    split_ifs at h
    exact (Option.some.inj h).symm
  have hsame : ∀ v, v.fixedTerms = s.fixedTerms → ApplyContext.burnBps v = ApplyContext.burnBps s :=
    fun _ => burnBps_of_fixedTerms
  cases h with
  | unapplied => cases hb
  | feeOnly hreset =>
    rw [hsplit _ _ _ hb]
    refine hsame _ ?_
    rw [Ledger.fixedTerms, (reset_ok hreset).same, Ledger.fixedTerms]
  | @success s₁ a hflight hclaim hcharge happly hpass =>
    have hsame₁ := (charge_ok hcharge (account_ne_none_of_preclaim hclaim)).same
    rw [hsplit _ _ _ hb]
    refine hsame _ ((doApply_poolStep happly).terms.trans ?_)
    rw [Ledger.fixedTerms, hsame₁, Ledger.fixedTerms]

private theorem Chain.splitBps_step {c : Chain} {st : Step} {b : UInt32}
    (h : Event.splitBps (c.step H st).2 = some b) : b = ApplyContext.burnBps c.view := by
  cases st with
  | tx flags tx => exact (applyTransaction_outcome H flags c.view tx).splitBps_eq h
  | close store => cases h
  | outside accounts holdings => cases h

theorem Chain.burnBps_rolledOver {c : Chain} (hroll : c.rollsOver H = true) (store : Validations) :
    ApplyContext.burnBps (c.rolledOver H store).view =
      RewardEpoch.fillBurnBps (c.view.balanceOf H.getTreasuryAccountID) := by
  obtain ⟨epoch, hepoch, heq⟩ := Option.map_eq_some_iff.mp (Chain.terms_rolledOver hroll store)
  have hrate : epoch.currentBurnBps =
      RewardEpoch.fillBurnBps (c.view.balanceOf H.getTreasuryAccountID) :=
    congrArg RewardEpoch.currentBurnBps heq
  have hfill := fillBurnBps_toNat (c.view.balanceOf H.getTreasuryAccountID)
  -- the stored rate is in range, so the split does not fall back on the default
  have hrange : kFeeBurnMinBps ≤ epoch.currentBurnBps ∧ epoch.currentBurnBps ≤ kFeeBurnMaxBps := by
    have hmin : kFeeBurnMinBps.toNat = 4000 := rfl
    have hmax : kFeeBurnMaxBps.toNat = 7000 := rfl
    rw [UInt32.le_iff_toNat_le, UInt32.le_iff_toNat_le, hrate]
    omega
  rw [ApplyContext.burnBps, hepoch]
  simp only [hrange, and_self, if_true]
  exact hrate

private theorem Chain.burnBps_step {c : Chain} {st : Step} (hst : StaysInEpoch H c st) :
    ApplyContext.burnBps (c.step H st).1.view = ApplyContext.burnBps c.view :=
  burnBps_of_fixedTerms (c.poolStep st hst).terms

/-- While every rollover finds the treasury in the band of `v`, `v` stays in force. -/
private theorem Chain.burnBps_eq_step {v : UInt32} {c : Chain} {st : Step}
    (h : ApplyContext.burnBps c.view = v) (hst : RolloverInBand H v c st) :
    ApplyContext.burnBps (c.step H st).1.view = v := by
  by_cases hstay : StaysInEpoch H c st
  · rw [Chain.burnBps_step hstay]
    exact h
  · cases st with
    | tx flags tx => exact absurd trivial hstay
    | outside accounts holdings => exact absurd trivial hstay
    | close store =>
      have hroll : c.rollsOver H = true := by
        rw [← Bool.not_eq_false]
        exact hstay
      exact (Chain.burnBps_rolledOver hroll store).trans ((inBand_iff v _).mp (hst hroll))

private theorem splits_of_burnBps {P : Chain → Step → Prop} {v : UInt32} {c : Chain}
    {steps : List Step}
    (hstep : ∀ (c : Chain) st, ApplyContext.burnBps c.view = v → P c st →
      ApplyContext.burnBps (c.step H st).1.view = v)
    (h : ApplyContext.burnBps c.view = v) (hsteps : Run.Always (Chain.step H) P c steps) :
    ∀ e ∈ Run.outputs (Chain.step H) c steps, ∀ b, Event.splitBps e = some b → b = v := by
  induction steps generalizing c with
  | nil =>
    intro e he
    cases he
  | cons st steps ih =>
    intro e he b hb
    rcases List.mem_cons.mp he with rfl | he
    · rw [Chain.splitBps_step hb, h]
    · exact ih (hstep c st h hsteps.1) hsteps.2 e he b hb

/-- **A ratified rate is charged as far as the treasury happens to give it.** After a close that
passes a proposal for the burn share `v`, take any run to the next rollover and on. If every rollover
finds the treasury in the band of `v`, all fees are split at `v`. If the first does not, none is. -/
theorem ratified_rate_run (H : Services) (c : Chain) (store store' : Validations) (key : UInt256)
    (proposal : GovernanceProposal) (_hratified : Ratifies H c store key proposal)
    (between steps : List Step)
    (hroll : (Run.final (Chain.step H) (c.step H (.close store)).1 between).rollsOver H = true) :
    let v := proposal.proposalValue
    let last := Run.final (Chain.step H) (c.step H (.close store)).1 between
    let splits := (Run.outputs (Chain.step H) (last.rolledOver H store') steps).map Event.splitBps
    (Run.Always (Chain.step H) (RolloverInBand H v) last (.close store' :: steps) →
        ∀ b, some b ∈ splits → b = v) ∧
      (¬InBand v (last.view.balanceOf H.getTreasuryAccountID) →
        Run.Always (Chain.step H) (StaysInEpoch H) (last.rolledOver H store') steps →
        some v ∉ splits) := by
  intro v last splits
  have hrate := Chain.burnBps_rolledOver hroll store'
  constructor
  · intro hband b hb
    obtain ⟨e, he, hsplit⟩ := List.mem_map.mp hb
    have hv : ApplyContext.burnBps (last.rolledOver H store').view = v :=
      hrate.trans ((inBand_iff v _).mp (hband.1 hroll))
    exact splits_of_burnBps (fun _ _ h hst => Chain.burnBps_eq_step h hst) hv hband.2 e he b hsplit
  · intro hout hstay hv
    obtain ⟨e, he, hsplit⟩ := List.mem_map.mp hv
    have heq := splits_of_burnBps (fun _ _ h hst => (Chain.burnBps_step hst).trans h) hrate hstay e
      he v hsplit
    exact hout ((inBand_iff v _).mpr heq.symm)

namespace Sample

/-- A proposal for `v` of a ledger, on which two bonds have voted, one for it and one against it, and
seven tenths of the scores are behind it. -/
def votedProposal (seq v : UInt32) : GovernanceProposal :=
  { GovernanceProposal.newProposal seq proposal 1 v 0 with
    votedFor := some 7000
    votedAgainst := some 1000
    voterList := some (GovernanceVote.accountIDBytes (services.calcValidatorBondID aliceKey) ++
      GovernanceVote.accountIDBytes (services.calcValidatorBondID bobKey)) }

def laterKey : UInt256 := services.governanceProposalKey alice 2

/-- The last ledger but one before epoch 8. The previous boundary found the treasury empty, so
the epoch object is still that of epoch 6, with two proposals on its list: one that has expired and a
later one. -/
def voted (v : UInt32) : Chain :=
  .start { ledger with
    seq := 8 * kQxrpLedgersPerEpoch - 2
    epoch := some
      { RewardEpoch.newEpoch services.toHashes ledger (6 * kQxrpLedgersPerEpoch) with
        aggregateCompositeScore := some 10000
        proposals := some [proposalKey, laterKey] }
    proposals := (AList.insert proposalKey (votedProposal (6 * kQxrpLedgersPerEpoch + 1) v) ∅).insert
      laterKey (votedProposal (7 * kQxrpLedgersPerEpoch + 2) v) }

/-- The ledger whose close starts epoch 8, after the close that passed the proposal. -/
def ratified (v : UInt32) : Chain := ((voted v).step services (.close .empty)).1

end Sample

/-- A ratified share of 5500 bps is what an almost empty treasury gives anyway. -/
theorem ratified_rate_default :
    let splits := (Run.outputs (Chain.step Sample.services)
      ((Sample.ratified 5500).rolledOver Sample.services .empty)
      [Sample.send Sample.alice 1 (.claimReward Sample.aliceKey)]).map Event.splitBps
    splits = [some 5500] ∧ ∀ b, some b ∈ splits → b = 5500 := by
  intro splits
  have hratified : Ratifies Sample.services (Sample.voted 5500) .empty Sample.proposalKey
      (Sample.votedProposal (6 * kQxrpLedgersPerEpoch + 1) 5500) :=
    ⟨by decide +kernel, rfl, rfl, by decide +kernel⟩
  have h := ratified_rate_run Sample.services (Sample.voted 5500) .empty .empty Sample.proposalKey
    (Sample.votedProposal (6 * kQxrpLedgersPerEpoch + 1) 5500) hratified []
    [Sample.send Sample.alice 1 (.claimReward Sample.aliceKey)] (by decide +kernel)
  exact ⟨by decide +kernel, h.1 (by decide +kernel)⟩

/-- A share of 4000 bps is ratified and written to the parameters; after the rollover the next
fee is split at 5500. Both ledgers that are built on can be read. -/
theorem ratified_rate_ignored :
    ReadsParent (Sample.voted 4000) ∧ ReadsParent (Sample.ratified 4000) ∧
      Ratifies Sample.services (Sample.voted 4000) .empty Sample.proposalKey
        (Sample.votedProposal (6 * kQxrpLedgersPerEpoch + 1) 4000) ∧
      (Sample.ratified 4000).view.params.bind GovernanceParams.currentBurnBps = some 4000 ∧
      (Sample.ratified 4000).rollsOver Sample.services = true ∧
      (Run.outputs (Chain.step Sample.services)
        ((Sample.ratified 4000).rolledOver Sample.services .empty)
        [Sample.send Sample.alice 1 (.claimReward Sample.aliceKey)]).map Event.splitBps =
          [some 5500] :=
  ⟨by decide +kernel, by decide +kernel, ⟨by decide +kernel, rfl, rfl, by decide +kernel⟩,
    by decide +kernel, by decide +kernel, by decide +kernel⟩

end FalconLedger
