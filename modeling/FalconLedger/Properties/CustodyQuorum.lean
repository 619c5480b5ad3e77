import FalconLedger.Data.Run
import FalconLedger.Properties.CustodyCalls
import Mathlib.Data.Finset.Card

/-!
# The quorum of the custody contract

Confirmations are counted, and the count of an operation keeps those of owners that have been removed
since. As long as no owner is removed that has another confirmation pending, the count of a pending
operation is the number of owners that have confirmed it (`Counted.step`).
-/

namespace FalconLedger.CollateralLock

variable {B T : Type} [DecidableEq B] (D : Deployment B T)

/-- The confirmation a call makes, if it is not reverted. -/
def confirmedBy (s : Contract B T) (c : Call B) : Option (Address × Operation B) :=
  match call D s c with
  | .ok _ => c.method.operation.map fun op => (c.sender, op)
  | .error _ => none

/-- The call executes the operation. -/
def ExecutedBy (s : Contract B T) (c : Call B) (op : Operation B) : Prop :=
  c.method.operation = some op ∧ .operationExecuted (D.opHash op) ∈ (step D s c).2

/-- When the last confirmation of a removal is made, the owner to be removed has not confirmed any other
operation that is still pending. -/
def NothingPending (s : Contract B T) (c : Call B) : Prop :=
  ∀ owner, c.method = .confirm (.removeOwner owner) →
    s.required ≤ s.confirmationCount (D.opHash (.removeOwner owner)) + 1 →
    ∀ h, h ≠ D.opHash (.removeOwner owner) → s.executed h = false → s.confirmations h owner = false

/-- Each confirmation of a pending operation is by an owner, has been counted and is on record. -/
structure Counted (s : Contract B T) (record : List (Address × Operation B)) : Prop where
  counts : ∀ h, s.executed h = false → ∃ voters : Finset Address,
    voters.card = s.confirmationCount h ∧ ∀ a, a ∈ voters ↔ s.confirmations h a = true
  owners : ∀ h, s.executed h = false → ∀ a, s.confirmations h a = true → s.isOwner a = true
  recorded : ∀ op a, s.confirmations (D.opHash op) a = true → (a, op) ∈ record

variable {D} {s s' : Contract B T} {c : Call B} {op : Operation B} {events : List (Event B)}
  {sender : Address} {record : List (Address × Operation B)}

omit [DecidableEq B] in
theorem deploy_counted {usdcToken : Address} {initialOwners : List Address} {required : ℕ} {usdc : T}
    (h : deploy usdcToken initialOwners required usdc = .ok s) : Counted D s [] := by
  simp only [deploy, Revertible.bind_eq_ok, require_eq_ok, Revertible.pure_eq_ok] at h
  obtain ⟨_, -, _, -, _, -, _, -, rfl⟩ := h
  refine ⟨fun _ _ => ⟨∅, rfl, by simp⟩, fun _ _ _ ha => ?_, fun _ _ ha => ?_⟩
  · cases ha
  · cases ha

/-! ### One step -/

theorem confirmed_confirmations {h h' : B} {a : Address} :
    (s.confirmed h sender).confirmations h' a = true ↔
      h' = h ∧ a = sender ∨ s.confirmations h' a = true := by
  simp only [Contract.confirmed]
  by_cases hh : h' = h
  · subst hh
    by_cases ha : a = sender
    · subst ha
      simp
    · simp [ha]
  · simp [hh]

theorem Counted.confirmed (hcounted : Counted D s record) (hinj : Function.Injective D.opHash)
    (howner : s.isOwner sender = true) (hfresh : s.confirmations (D.opHash op) sender = false) :
    Counted D (s.confirmed (D.opHash op) sender) (record ++ [(sender, op)]) where
  counts h hpending := by
    obtain ⟨voters, hcard, hmem⟩ := hcounted.counts h hpending
    by_cases hh : h = D.opHash op
    · subst hh
      have hnew : sender ∉ voters := fun hin => by
        rw [hmem, hfresh] at hin
        cases hin
      refine ⟨insert sender voters, ?_, fun a => ?_⟩
      · rw [Finset.card_insert_of_notMem hnew, hcard]
        simp only [Contract.confirmed, Function.update_self]
      · rw [Finset.mem_insert, hmem, confirmed_confirmations]
        simp
    · refine ⟨voters, ?_, fun a => ?_⟩
      · rw [hcard]
        simp only [Contract.confirmed, Function.update_of_ne hh]
      · rw [hmem, confirmed_confirmations]
        simp [hh]
  owners h hpending a ha := by
    rcases confirmed_confirmations.mp ha with ⟨-, rfl⟩ | ha
    · exact howner
    · exact hcounted.owners h hpending a ha
  recorded op' a ha := by
    rcases confirmed_confirmations.mp ha with ⟨hh, rfl⟩ | ha
    · rw [hinj hh]
      exact List.mem_append_right _ (List.mem_singleton.mpr rfl)
    · exact List.mem_append_left _ (hcounted.recorded op' a ha)

theorem Executes.same (h : Executes D op s s' events) :
    s'.confirmations = s.confirmations ∧ s'.confirmationCount = s.confirmationCount ∧
      s'.executed = s.executed ∧
      ∀ a, s.isOwner a = true → s'.isOwner a = true ∨ op = .removeOwner a := by
  cases h with
  | withdraw | release | changeRequirement => exact ⟨rfl, rfl, rfl, fun _ ha => .inl ha⟩
  | addOwner =>
    refine ⟨rfl, rfl, rfl, fun a ha => .inl ?_⟩
    simp only [Function.update_apply]
    split_ifs
    · rfl
    · exact ha
  | removeOwner =>
    rename_i ownerToRemove
    refine ⟨rfl, rfl, rfl, fun a ha => ?_⟩
    by_cases hown : a = ownerToRemove
    · exact .inr (congrArg _ hown.symm)
    · exact .inl ((Function.update_of_ne hown ..).trans ha)

theorem Counted.quorum (hcounted : Counted D s record) (hinj : Function.Injective D.opHash)
    (hconfirmation : Confirmation D op s sender s' events)
    (henough : s.required ≤ s.confirmationCount (D.opHash op) + 1) :
    ∃ voters : Finset Address, s.required ≤ voters.card ∧
      ∀ a ∈ voters, s.isOwner a = true ∧ (a, op) ∈ record ++ [(sender, op)] := by
  have hnext : Counted D (s.confirmed (D.opHash op) sender) (record ++ [(sender, op)]) :=
    hcounted.confirmed hinj hconfirmation.owner hconfirmation.fresh
  obtain ⟨voters, hcard, hmem⟩ := hnext.counts (D.opHash op) hconfirmation.pending
  have hcount : (s.confirmed (D.opHash op) sender).confirmationCount (D.opHash op) =
      s.confirmationCount (D.opHash op) + 1 := Function.update_self ..
  refine ⟨voters, by omega, fun a ha => ⟨?_, ?_⟩⟩
  · exact hnext.owners _ hconfirmation.pending a ((hmem a).mp ha)
  · exact hnext.recorded op a ((hmem a).mp ha)

theorem Counted.confirmation (hcounted : Counted D s record) (hinj : Function.Injective D.opHash)
    (hremoval : ∀ owner, op = .removeOwner owner →
      s.required ≤ s.confirmationCount (D.opHash op) + 1 →
      ∀ h, h ≠ D.opHash op → s.executed h = false → s.confirmations h owner = false)
    (hconfirmation : Confirmation D op s sender s' events) :
    Counted D s' (record ++ [(sender, op)]) := by
  have hnext : Counted D (s.confirmed (D.opHash op) sender) (record ++ [(sender, op)]) :=
    hcounted.confirmed hinj hconfirmation.owner hconfirmation.fresh
  cases hconfirmation.confirms with
  | waiting => exact hnext
  | executed henough hexecutes =>
    obtain ⟨hconfirmations, hcount, hexecuted, howners⟩ := hexecutes.same
    have hother : ∀ h, s'.executed h = false → h ≠ D.opHash op ∧ s.executed h = false := by
      intro h hpending
      simp only [hexecuted, Contract.marked, Function.update_apply] at hpending
      split_ifs at hpending with hh
      exact ⟨hh, hpending⟩
    refine ⟨fun h hpending => ?_, fun h hpending a ha => ?_, fun op' a ha => ?_⟩
    · rw [hconfirmations, hcount]
      exact hnext.counts h (hother h hpending).2
    · rw [hconfirmations] at ha
      obtain ⟨hne, hpending⟩ := hother h hpending
      rcases howners a (hnext.owners h hpending a ha) with ha' | hop
      · exact ha'
      · -- the owner that goes has confirmed nothing else
        rcases confirmed_confirmations.mp ha with ⟨hh, -⟩ | ha
        · exact absurd hh hne
        · rw [hremoval a hop henough h hne hpending] at ha
          cases ha
    · rw [hconfirmations] at ha
      exact hnext.recorded op' a ha

theorem Counted.deposited {amount : ℕ} {falconAccount : Blob} (hcounted : Counted D s record)
    (h : Deposited D s sender amount falconAccount s' events) : Counted D s' record := by
  obtain ⟨usdc, -, rfl⟩ := h.moves
  exact ⟨hcounted.counts, hcounted.owners, hcounted.recorded⟩

theorem Counted.step (hcounted : Counted D s record) (hinj : Function.Injective D.opHash)
    (hpending : NothingPending D s c) :
    Counted D (step D s c).1 (record ++ (confirmedBy D s c).toList) := by
  rw [confirmedBy]
  cases hcall : call D s c with
  | error message =>
    rw [CollateralLock.step, hcall, Option.toList_none, List.append_nil]
    exact hcounted
  | ok r =>
    obtain ⟨s', events⟩ := r
    rw [CollateralLock.step, hcall]
    dsimp only
    rcases call_cases hcall with ⟨amount, falconAccount, hmethod, hdeposited⟩ | ⟨op, hop, hconfirmation⟩
    · rw [hmethod]
      simpa [Method.operation] using hcounted.deposited hdeposited
    · rw [hop]
      refine hcounted.confirmation hinj (fun owner howner => ?_) hconfirmation
      subst howner
      refine hpending owner ?_
      obtain ⟨sender, method⟩ := c
      cases method with
      | confirm op => exact congrArg _ (Option.some.inj hop)
      | deposit | withdraw | release => cases hop

/-- **Custody quorum.** In a run in which no owner is removed while another of its confirmations is
pending, an operation is executed only when as many distinct addresses as are required, all of them
owners at that moment, have confirmed that very operation. -/
theorem quorum_run (D : Deployment B T) (hinj : Function.Injective D.opHash)
    {usdcToken : Address} {initialOwners : List Address} {required : ℕ} {usdc : T} {s₀ : Contract B T}
    (hdeploy : deploy usdcToken initialOwners required usdc = .ok s₀) (calls : List (Call B))
    (hpending : Run.Always (CollateralLock.step D) (NothingPending D) s₀ calls) (c : Call B)
    (op : Operation B) (hexecuted : ExecutedBy D (Run.final (CollateralLock.step D) s₀ calls) c op) :
    ∃ voters : Finset Address,
      (Run.final (CollateralLock.step D) s₀ calls).required ≤ voters.card ∧
      ∀ a ∈ voters, (Run.final (CollateralLock.step D) s₀ calls).isOwner a = true ∧
        (a, op) ∈ Run.record (CollateralLock.step D) (confirmedBy D) s₀ (calls ++ [c]) := by
  have hcounted : Counted D (Run.final (CollateralLock.step D) s₀ calls)
      ([] ++ Run.record (CollateralLock.step D) (confirmedBy D) s₀ calls) :=
    Run.invariant_record (Counted D) (fun _ _ _ h hp => h.step hinj hp) (deploy_counted hdeploy)
      hpending
  rw [List.nil_append] at hcounted
  rw [Run.record_concat]
  obtain ⟨hop, hevent⟩ := hexecuted
  rcases step_cases D (Run.final (CollateralLock.step D) s₀ calls) c with hreverted | hcall
  · rw [hreverted] at hevent
    cases hevent
  · have hby : confirmedBy D (Run.final (CollateralLock.step D) s₀ calls) c = some (c.sender, op) := by
      rw [confirmedBy, hcall, hop]
      rfl
    rw [hby]
    generalize CollateralLock.step D (Run.final (CollateralLock.step D) s₀ calls) c = next
      at hevent hcall
    obtain ⟨s', events⟩ := next
    rcases call_cases hcall with ⟨amount, falconAccount, hmethod, -⟩ | ⟨op', hop', hconfirmation⟩
    · rw [hmethod] at hop
      cases hop
    · obtain rfl := Option.some.inj (hop.symm.trans hop')
      cases hconfirmation.confirms with
      | waiting => simp at hevent
      | executed henough => exact hcounted.quorum hinj hconfirmation henough

theorem quorum_run_two_owners :
    ∃ voters : Finset Address, 2 ≤ voters.card ∧ ∀ a ∈ voters, Sample.lock.isOwner a = true ∧
      (a, Sample.payout) ∈ Run.record (step (plainDeployment 9)) (confirmedBy (plainDeployment 9))
        Sample.lock [Sample.fund, ⟨1, .confirm Sample.payout⟩, ⟨2, .confirm Sample.payout⟩] := by
  have h := quorum_run (plainDeployment 9) Digest.ofOperation_injective Sample.deploy_lock
    [Sample.fund, ⟨1, .confirm Sample.payout⟩]
    ⟨fun _ h => (by cases h), fun _ h => (by cases h), trivial⟩ ⟨2, .confirm Sample.payout⟩
    Sample.payout ⟨rfl, by decide +kernel⟩
  exact h

/-- The first owner confirms a withdrawal and is removed by the other two; the second owner's
confirmation then executes the withdrawal. -/
theorem quorum_run_removed_owner :
    let D := plainDeployment 9
    let calls : List (Call Digest) := [Sample.fund, ⟨1, .confirm Sample.payout⟩,
      ⟨2, .confirm (.removeOwner 1)⟩, ⟨3, .confirm (.removeOwner 1)⟩]
    let s := Run.final (step D) Sample.lock calls
    deploy 8 [1, 2, 3] 2 Sample.lock.usdc = .ok Sample.lock ∧
      ExecutedBy D s ⟨2, .confirm Sample.payout⟩ Sample.payout ∧ s.required = 2 ∧
      ¬∃ voters : Finset Address, 2 ≤ voters.card ∧ ∀ a ∈ voters, s.isOwner a = true ∧
        (a, Sample.payout) ∈ Run.record (step D) (confirmedBy D) Sample.lock
          (calls ++ [⟨2, .confirm Sample.payout⟩]) := by
  intro D calls s
  refine ⟨rfl, ⟨rfl, by decide +kernel⟩, by decide +kernel, ?_⟩
  rintro ⟨voters, hcard, hvoters⟩
  have hrecord : Run.record (step D) (confirmedBy D) Sample.lock
      (calls ++ [⟨2, .confirm Sample.payout⟩]) =
      [(1, Sample.payout), (2, .removeOwner 1), (3, .removeOwner 1), (2, Sample.payout)] := by
    decide +kernel
  have honly : voters ⊆ {2} := fun a ha => by
    obtain ⟨howner, hmem⟩ := hvoters a ha
    rw [hrecord] at hmem
    simp only [Sample.payout, List.mem_cons, Prod.mk.injEq, reduceCtorEq, and_false, and_true,
      List.not_mem_nil, or_false, false_or] at hmem
    rcases hmem with rfl | rfl
    · have hgone : s.isOwner 1 = false := by decide +kernel
      rw [hgone] at howner
      cases howner
    · exact Finset.mem_singleton_self 2
  have hle := Finset.card_le_card honly
  rw [Finset.card_singleton] at hle
  omega

end FalconLedger.CollateralLock
