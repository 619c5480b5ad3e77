import FalconLedger.Data.Run
import FalconLedger.Properties.CustodyCalls
import Mathlib.Data.List.Flatten
import Mathlib.Data.List.Nodup

/-!
# The books of the custody contract

The owners are listed, deposits and withdrawals are paid out once, and what the contract holds is what
it has received less what it has paid to others. A payment to the contract itself leaves it where it is.
-/

namespace FalconLedger.CollateralLock

variable {B T : Type} [DecidableEq B]

/-! ### Owners -/

/-- `owners` lists those with `isOwner`, each once, and the threshold is within their number. -/
structure OwnersListed (s : Contract B T) : Prop where
  nodup : s.owners.Nodup
  mem_iff : ∀ a, a ∈ s.owners ↔ s.isOwner a = true
  one_le : 1 ≤ s.required
  le_length : s.required ≤ s.owners.length

variable {D : Deployment B T} {s s' : Contract B T} {c : Call B} {op : Operation B}
  {events : List (Event B)} {sender : Address}

theorem removeFrom_perm {owner : Address} {owners : List Address} (h : owner ∈ owners) :
    (removeFrom owner owners).Perm (owners.erase owner) := by
  obtain ⟨l, r, rfl, hnot⟩ := List.eq_append_cons_of_mem h
  have hidx : (l ++ owner :: r).idxOf? owner = some l.length := by
    refine List.idxOf?_eq_some_iff.mpr ⟨by simp, by simp, fun j hj => ?_⟩
    rw [List.getElem_append_left hj]
    exact fun heq => hnot (heq ▸ List.getElem_mem hj)
  rw [removeFrom, hidx, List.erase_append_right _ hnot, List.erase_cons_head]
  dsimp only
  rw [List.set_append_right _ _ le_rfl, Nat.sub_self, List.set_cons_zero]
  rcases List.eq_nil_or_concat r with rfl | ⟨r', last, rfl⟩
  · simp
  · have hlast : (l ++ owner :: r'.concat last).getLast?.getD 0 = last := by
      rw [List.concat_eq_append, ← List.cons_append, ← List.append_assoc, List.getLast?_concat]
      rfl
    rw [hlast, List.concat_eq_append, ← List.cons_append, ← List.append_assoc, List.dropLast_concat]
    exact List.Perm.append_left l (List.perm_append_singleton last r').symm

omit [DecidableEq B] in
theorem deploy_ownersListed {usdcToken : Address} {initialOwners : List Address} {required : ℕ}
    {usdc : T} (h : deploy usdcToken initialOwners required usdc = .ok s) : OwnersListed s := by
  simp only [deploy, Revertible.bind_eq_ok, require_eq_ok, Revertible.pure_eq_ok] at h
  obtain ⟨_, -, _, -, _, ⟨hone, hle⟩, owners, howners, rfl⟩ := h
  have hlisted : ∀ (rest before after : List Address),
      (rest.foldlM (fun (owners : List Address) o => do
        require (o ≠ 0) "zero owner"
        require (o ∉ owners) "duplicate owner"
        return owners ++ [o]) before : Revertible (List Address)) = .ok after →
      before.Nodup → after.Nodup ∧ after = before ++ rest := by
    intro rest
    induction rest with
    | nil =>
      intro before after hfold hnodup
      cases hfold
      exact ⟨hnodup, (List.append_nil _).symm⟩
    | cons o rest ih =>
      intro before after hfold hnodup
      simp only [List.foldlM_cons, Revertible.bind_eq_ok, require_eq_ok, Revertible.pure_eq_ok] at hfold
      obtain ⟨_, ⟨_, -, _, hnew, rfl⟩, hfold⟩ := hfold
      obtain ⟨hafter, rfl⟩ := ih _ after hfold (by simpa using hnodup.concat hnew)
      exact ⟨hafter, by simp⟩
  obtain ⟨hnodup, rfl⟩ := hlisted initialOwners [] owners howners List.nodup_nil
  exact ⟨hnodup, fun a => by simp, hone, by simpa using hle⟩

theorem OwnersListed.executes (h : OwnersListed s) (hallowed : Allowed s op)
    (hexecutes : Executes D op s s' events) : OwnersListed s' := by
  cases hexecutes with
  | withdraw | release => exact ⟨h.nodup, h.mem_iff, h.one_le, h.le_length⟩
  | addOwner =>
    rename_i newOwner
    have hnew : newOwner ∉ s.owners := fun hin => by
      have hfree : s.isOwner newOwner = false := hallowed
      rw [h.mem_iff, hfree] at hin
      cases hin
    refine ⟨?_, fun a => ?_, h.one_le, ?_⟩
    · simpa using h.nodup.concat hnew
    · simp only [List.mem_append, List.mem_singleton, h.mem_iff, Function.update_apply]
      split_ifs with ha <;> simp [ha]
    · have := h.le_length
      simp only [List.length_append, List.length_singleton]
      omega
  | removeOwner =>
    rename_i owner
    obtain ⟨howner, hspare⟩ := hallowed
    have hperm := removeFrom_perm ((h.mem_iff owner).mpr howner)
    refine ⟨hperm.nodup_iff.mpr (h.nodup.erase owner), fun a => ?_, h.one_le, ?_⟩
    · simp only [hperm.mem_iff, h.nodup.mem_erase_iff, h.mem_iff, Function.update_apply]
      split_ifs with ha <;> simp [ha]
    · rw [hperm.length_eq, List.length_erase_of_mem ((h.mem_iff owner).mpr howner)]
      dsimp only
      omega
  | changeRequirement => exact ⟨h.nodup, h.mem_iff, hallowed.1, hallowed.2⟩

theorem Allowed.of_confirmed (h : Allowed s op) :
    Allowed ((s.confirmed (D.opHash op) sender).marked (D.opHash op)) op := by
  cases op <;> exact h

theorem OwnersListed.step (h : OwnersListed s) (c : Call B) : OwnersListed (step D s c).1 := by
  rcases step_cases D s c with hreverted | hcall
  · rw [hreverted]
    exact h
  · generalize CollateralLock.step D s c = next at hcall ⊢
    obtain ⟨s', events⟩ := next
    rcases call_cases hcall with ⟨_, _, -, hdeposited⟩ | ⟨op, -, hconfirmation⟩
    · obtain ⟨usdc, -, rfl⟩ := hdeposited.moves
      exact ⟨h.nodup, h.mem_iff, h.one_le, h.le_length⟩
    · have hsame : OwnersListed ((s.confirmed (D.opHash op) c.sender).marked (D.opHash op)) :=
        ⟨h.nodup, h.mem_iff, h.one_le, h.le_length⟩
      cases hconfirmation.confirms with
      | waiting => exact ⟨h.nodup, h.mem_iff, h.one_le, h.le_length⟩
      | executed _ hexecutes => exact hsame.executes hconfirmation.allowed.of_confirmed hexecutes

/-! ### Books -/

namespace Event

/-- The deposit that is made. -/
def created : Event B → Option (B × ℕ)
  | depositCreated depositId _ amount _ => some (depositId, amount)
  | _ => none

/-- The deposit that is released. -/
def released : Event B → Option (B × ℕ)
  | depositReleased depositId _ amount => some (depositId, amount)
  | _ => none

/-- The withdrawal that is paid. -/
def withdrawn : Event B → Option B
  | withdrawalReleased withdrawalId _ _ _ _ => some withdrawalId
  | _ => none

/-- What is received. -/
def received : Event B → ℕ
  | depositCreated _ _ amount _ => amount
  | _ => 0

/-- What is paid. -/
def paidOut : Event B → ℕ
  | depositReleased _ _ amount => amount
  | withdrawalReleased _ _ amount _ _ => amount
  | _ => 0

/-- What is paid to others than the contract. -/
def paid (this : Address) : Event B → ℕ
  | depositReleased _ recipient amount => if recipient = this then 0 else amount
  | withdrawalReleased _ recipient amount _ _ => if recipient = this then 0 else amount
  | _ => 0

end Event

/-- What the contract has on record of the events so far. -/
structure Books (D : Deployment B T) (opening : ℕ) (s : Contract B T) (log : List (Event B)) : Prop where
  hashed : ∀ d ∈ log.filterMap Event.created, ∃ key, d.1 = D.depositHash key ∧
    key.nonce < s.nextDepositNonce ∧ (s.deposits d.1).amount = d.2
  created_of_amount : ∀ id, 0 < (s.deposits id).amount →
    (id, (s.deposits id).amount) ∈ log.filterMap Event.created
  created_nodup : ((log.filterMap Event.created).map Prod.fst).Nodup
  released : ∀ d ∈ log.filterMap Event.released,
    (s.deposits d.1).released = true ∧ d ∈ log.filterMap Event.created
  released_nodup : ((log.filterMap Event.released).map Prod.fst).Nodup
  processed : ∀ id ∈ log.filterMap Event.withdrawn, s.processedWithdrawals id = true
  withdrawn_nodup : (log.filterMap Event.withdrawn).Nodup
  balance : D.usdc.balanceOf s.usdc D.this + (log.map (Event.paid D.this)).sum =
    opening + (log.map Event.received).sum

theorem moved_out {balances : Address → ℕ} {this : Address} {amount : ℕ} (recipient : Address)
    (hle : amount ≤ balances this) :
    moved balances this recipient amount this + (if recipient = this then 0 else amount) =
      balances this := by
  simp only [moved]
  split_ifs with h
  · subst h
    rw [Function.update_self, Function.update_self]
    omega
  · rw [Function.update_of_ne (Ne.symm h), Function.update_self]
    omega

theorem moved_in {balances : Address → ℕ} {this src : Address} {amount : ℕ} (h : src ≠ this) :
    moved balances src this amount this = balances this + amount := by
  simp only [moved, Function.update_self, Function.update_of_ne h.symm]

variable {opening : ℕ} {log : List (Event B)}

omit [DecidableEq B] in
theorem deploy_books {usdcToken : Address} {initialOwners : List Address} {required : ℕ} {usdc : T}
    (h : deploy usdcToken initialOwners required usdc = .ok s) :
    Books D (D.usdc.balanceOf usdc D.this) s [] := by
  simp only [deploy, Revertible.bind_eq_ok, require_eq_ok, Revertible.pure_eq_ok] at h
  obtain ⟨_, -, _, -, _, -, _, -, rfl⟩ := h
  exact ⟨by simp, fun _ h => absurd h (lt_irrefl 0), by simp, by simp, by simp, by simp, by simp, rfl⟩

omit [DecidableEq B] in
theorem Books.quiet (h : Books D opening s log) (hdeposits : s'.deposits = s.deposits)
    (hnonce : s'.nextDepositNonce = s.nextDepositNonce)
    (hprocessed : s'.processedWithdrawals = s.processedWithdrawals) (husdc : s'.usdc = s.usdc)
    (hquiet : ∀ e ∈ events, e.created = none ∧ e.released = none ∧ e.withdrawn = none ∧
      e.received = 0 ∧ e.paid D.this = 0) :
    Books D opening s' (log ++ events) := by
  have hcreated : events.filterMap Event.created = [] :=
    List.filterMap_eq_nil_iff.mpr fun e he => (hquiet e he).1
  have hreleased : events.filterMap Event.released = [] :=
    List.filterMap_eq_nil_iff.mpr fun e he => (hquiet e he).2.1
  have hwithdrawn : events.filterMap Event.withdrawn = [] :=
    List.filterMap_eq_nil_iff.mpr fun e he => (hquiet e he).2.2.1
  have hreceived : (events.map Event.received).sum = 0 :=
    List.sum_eq_zero fun x hx => by
      obtain ⟨e, he, rfl⟩ := List.mem_map.mp hx
      exact (hquiet e he).2.2.2.1
  have hpaid : (events.map (Event.paid D.this)).sum = 0 :=
    List.sum_eq_zero fun x hx => by
      obtain ⟨e, he, rfl⟩ := List.mem_map.mp hx
      exact (hquiet e he).2.2.2.2
  constructor <;> simp only [List.filterMap_append, hcreated, hreleased, hwithdrawn, List.append_nil,
    List.map_append, List.sum_append, hreceived, hpaid, Nat.add_zero, hdeposits, hnonce, hprocessed,
    husdc]
  · exact h.hashed
  · exact h.created_of_amount
  · exact h.created_nodup
  · exact h.released
  · exact h.released_nodup
  · exact h.processed
  · exact h.withdrawn_nodup
  · exact h.balance

theorem Books.deposited {amount : ℕ} {falconAccount : Blob} (h : Books D opening s log)
    (hinj : Function.Injective D.depositHash) (hsender : sender ≠ D.this)
    (hdeposited : Deposited D s sender amount falconAccount s' events) :
    Books D opening s' (log ++ events) := by
  obtain ⟨usdc, hmoves, rfl⟩ := hdeposited.moves
  rw [hdeposited.events_eq]
  set id := D.depositHash ⟨s.nextDepositNonce, sender, amount, falconAccount⟩ with hid
  have hnew : ∀ d ∈ log.filterMap Event.created, d.1 ≠ id := by
    intro d hd heq
    obtain ⟨key, hkey, hlt, -⟩ := h.hashed d hd
    have := hinj (hkey.symm.trans heq)
    rw [this] at hlt
    exact lt_irrefl _ hlt
  have hcreated : (log ++ [Event.depositCreated id sender amount falconAccount]).filterMap
      Event.created = log.filterMap Event.created ++ [(id, amount)] := by
    simp [Event.created]
  have hreleased : (log ++ [Event.depositCreated id sender amount falconAccount]).filterMap
      Event.released = log.filterMap Event.released := by
    simp [Event.released]
  have hwithdrawn : (log ++ [Event.depositCreated id sender amount falconAccount]).filterMap
      Event.withdrawn = log.filterMap Event.withdrawn := by
    simp [Event.withdrawn]
  constructor
  · intro d hd
    rw [hcreated, List.mem_append, List.mem_singleton] at hd
    rcases hd with hd | rfl
    · obtain ⟨key, hkey, hlt, hamount⟩ := h.hashed d hd
      refine ⟨key, hkey, Nat.lt_succ_of_lt hlt, ?_⟩
      simpa only [Function.update_of_ne (hnew d hd)] using hamount
    · exact ⟨_, hid, Nat.lt_succ_self _, by simp only [Function.update_self]⟩
  · intro id' hamount
    rw [hcreated, List.mem_append, List.mem_singleton]
    by_cases hsame : id' = id
    · subst hsame
      exact .inr (by simp only [Function.update_self])
    · simp only [Function.update_of_ne hsame] at hamount ⊢
      exact .inl (h.created_of_amount id' hamount)
  · rw [hcreated, List.map_append, List.map_singleton]
    refine List.nodup_append.mpr ⟨h.created_nodup, List.nodup_singleton _, fun a ha b hb => ?_⟩
    obtain ⟨d, hd, rfl⟩ := List.mem_map.mp ha
    rw [List.mem_singleton.mp hb]
    exact hnew d hd
  · intro d hd
    rw [hreleased] at hd
    obtain ⟨hflag, hmem⟩ := h.released d hd
    rw [hcreated]
    refine ⟨?_, List.mem_append_left _ hmem⟩
    simpa only [Function.update_of_ne (hnew d hmem)] using hflag
  · rw [hreleased]
    exact h.released_nodup
  · rw [hwithdrawn]
    exact h.processed
  · rw [hwithdrawn]
    exact h.withdrawn_nodup
  · obtain ⟨-, hbalances⟩ := D.usdc.transferFrom_spec _ _ _ _ _ _ hmoves
    have hbalance := h.balance
    rw [List.map_append, List.map_append, List.sum_append, List.sum_append, hbalances,
      moved_in hsender]
    simp only [List.map_singleton, List.sum_singleton, Event.paid, Event.received]
    omega

theorem Books.withdraw {amount : ℕ} {recipient : Address} {withdrawalId : B}
    {falconAccount falconTxHash : Blob} (h : Books D opening s log)
    (hfirst : s.processedWithdrawals withdrawalId = false)
    (hexecutes : Executes D (.withdraw amount recipient withdrawalId falconAccount falconTxHash) s s'
      events) : Books D opening s' (log ++ events) := by
  cases hexecutes with
  | withdraw hpaid =>
    have hnew : withdrawalId ∉ log.filterMap Event.withdrawn := fun hin => by
      rw [h.processed _ hin] at hfirst
      cases hfirst
    have hwithdrawn : (log ++ [Event.withdrawalReleased withdrawalId recipient amount falconAccount
        falconTxHash]).filterMap Event.withdrawn =
        log.filterMap Event.withdrawn ++ [withdrawalId] := by
      simp [Event.withdrawn]
    have hcreated : (log ++ [Event.withdrawalReleased withdrawalId recipient amount falconAccount
        falconTxHash]).filterMap Event.created = log.filterMap Event.created := by
      simp [Event.created]
    have hreleased : (log ++ [Event.withdrawalReleased withdrawalId recipient amount falconAccount
        falconTxHash]).filterMap Event.released = log.filterMap Event.released := by
      simp [Event.released]
    constructor
    · rw [hcreated]
      exact h.hashed
    · rw [hcreated]
      exact h.created_of_amount
    · rw [hcreated]
      exact h.created_nodup
    · rw [hreleased, hcreated]
      exact h.released
    · rw [hreleased]
      exact h.released_nodup
    · intro id hid
      rw [hwithdrawn, List.mem_append, List.mem_singleton] at hid
      simp only [Function.update_apply]
      split_ifs with hsame
      · rfl
      · exact h.processed id (hid.resolve_right hsame)
    · rw [hwithdrawn]
      exact List.nodup_append.mpr ⟨h.withdrawn_nodup, List.nodup_singleton _, fun a ha b hb heq =>
        hnew (List.mem_singleton.mp hb ▸ heq ▸ ha)⟩
    · obtain ⟨hle, hbalances⟩ := D.usdc.transfer_spec _ _ _ _ _ hpaid
      have hbalance := h.balance
      have hout := moved_out recipient hle
      rw [List.map_append, List.map_append, List.sum_append, List.sum_append, hbalances]
      simp only [List.map_singleton, List.sum_singleton, Event.paid, Event.received]
      omega

theorem Books.release {depositId : B} {recipient : Address} (h : Books D opening s log)
    (hamount : 0 < (s.deposits depositId).amount) (hfirst : (s.deposits depositId).released = false)
    (hexecutes : Executes D (.release depositId recipient) s s' events) :
    Books D opening s' (log ++ events) := by
  cases hexecutes with
  | release hpaid =>
    set amount := (s.deposits depositId).amount with hdef
    have hnew : ∀ d ∈ log.filterMap Event.released, d.1 ≠ depositId := fun d hd heq => by
      have hflag := (h.released d hd).1
      rw [heq, hfirst] at hflag
      cases hflag
    have hreleased : (log ++ [Event.depositReleased depositId recipient amount]).filterMap
        Event.released = log.filterMap Event.released ++ [(depositId, amount)] := by
      simp [Event.released]
    have hcreated : (log ++ [Event.depositReleased depositId recipient amount]).filterMap
        Event.created = log.filterMap Event.created := by
      simp [Event.created]
    have hwithdrawn : (log ++ [Event.depositReleased depositId recipient amount]).filterMap
        Event.withdrawn = log.filterMap Event.withdrawn := by
      simp [Event.withdrawn]
    have hamounts : ∀ id, (Function.update s.deposits depositId
        { s.deposits depositId with released := true } id).amount = (s.deposits id).amount := by
      intro id
      rw [Function.update_apply]
      split_ifs with hsame
      · rw [hsame]
      · rfl
    constructor
    · intro d hd
      rw [hcreated] at hd
      obtain ⟨key, hkey, hlt, heq⟩ := h.hashed d hd
      exact ⟨key, hkey, hlt, (hamounts d.1).trans heq⟩
    · intro id hpos
      rw [hcreated]
      simp only [hamounts] at hpos ⊢
      exact h.created_of_amount id hpos
    · rw [hcreated]
      exact h.created_nodup
    · intro d hd
      rw [hreleased, List.mem_append, List.mem_singleton] at hd
      rw [hcreated]
      rcases hd with hd | rfl
      · obtain ⟨hflag, hmem⟩ := h.released d hd
        refine ⟨?_, hmem⟩
        simpa only [Function.update_of_ne (hnew d hd)] using hflag
      · exact ⟨by simp only [Function.update_self], h.created_of_amount depositId hamount⟩
    · rw [hreleased, List.map_append, List.map_singleton]
      refine List.nodup_append.mpr ⟨h.released_nodup, List.nodup_singleton _, fun a ha b hb => ?_⟩
      obtain ⟨d, hd, rfl⟩ := List.mem_map.mp ha
      rw [List.mem_singleton.mp hb]
      exact hnew d hd
    · rw [hwithdrawn]
      exact h.processed
    · rw [hwithdrawn]
      exact h.withdrawn_nodup
    · obtain ⟨hle, hbalances⟩ := D.usdc.transfer_spec _ _ _ _ _ hpaid
      have hbalance := h.balance
      have hout := moved_out recipient hle
      rw [List.map_append, List.map_append, List.sum_append, List.sum_append, hbalances]
      simp only [List.map_singleton, List.sum_singleton, Event.paid, Event.received]
      omega

theorem Books.executes (h : Books D opening s log) (hallowed : Allowed s op)
    (hexecutes : Executes D op s s' events) : Books D opening s' (log ++ events) := by
  cases op with
  | withdraw => exact h.withdraw hallowed.2 hexecutes
  | release => exact h.release hallowed.1 hallowed.2 hexecutes
  | addOwner =>
    cases hexecutes
    exact h.quiet rfl rfl rfl rfl (by simp [Event.created, Event.released, Event.withdrawn,
      Event.received, Event.paid])
  | removeOwner =>
    cases hexecutes
    exact h.quiet rfl rfl rfl rfl (by simp [Event.created, Event.released, Event.withdrawn,
      Event.received, Event.paid])
  | changeRequirement =>
    cases hexecutes
    exact h.quiet rfl rfl rfl rfl (by simp [Event.created, Event.released, Event.withdrawn,
      Event.received, Event.paid])

theorem Books.step (h : Books D opening s log) (hinj : Function.Injective D.depositHash)
    (hsender : c.sender ≠ D.this) : Books D opening (step D s c).1 (log ++ (step D s c).2) := by
  rcases step_cases D s c with hreverted | hcall
  · rw [hreverted, List.append_nil]
    exact h
  · generalize CollateralLock.step D s c = next at hcall ⊢
    obtain ⟨s', events⟩ := next
    rcases call_cases hcall with ⟨_, _, -, hdeposited⟩ | ⟨op, -, hconfirmation⟩
    · exact h.deposited hinj hsender hdeposited
    · have hquiet : ∀ e ∈ [Event.operationConfirmed (D.opHash op) c.sender
          (s.confirmationCount (D.opHash op) + 1), .operationExecuted (D.opHash op)],
          e.created = none ∧ e.released = none ∧ e.withdrawn = none ∧ e.received = 0 ∧
            e.paid D.this = 0 := by
        simp [Event.created, Event.released, Event.withdrawn, Event.received, Event.paid]
      cases hconfirmation.confirms with
      | waiting => exact h.quiet rfl rfl rfl rfl fun e he => hquiet e (List.mem_cons.mpr
          (.inl (List.mem_singleton.mp he)))
      | executed _ hexecutes =>
        have hmarked : Books D opening ((s.confirmed (D.opHash op) c.sender).marked (D.opHash op))
            (log ++ [.operationConfirmed (D.opHash op) c.sender
              (s.confirmationCount (D.opHash op) + 1), .operationExecuted (D.opHash op)]) :=
          h.quiet rfl rfl rfl rfl hquiet
        simpa using hmarked.executes hconfirmation.allowed.of_confirmed hexecutes

/-- **Custody books.** Over every run of calls by others than the contract: `owners` lists exactly
those with `isOwner`, the threshold is between one and their number, each deposit is released at most
once and for its amount, each withdrawal is paid at most once, a reverted call changes nothing, and what
the contract holds and has paid is what it has received and held to begin with. -/
theorem accounts_run (D : Deployment B T) (hinj : Function.Injective D.depositHash)
    {usdcToken : Address} {initialOwners : List Address} {required : ℕ} {usdc : T} {s₀ : Contract B T}
    (hdeploy : deploy usdcToken initialOwners required usdc = .ok s₀) (calls : List (Call B))
    (hsender : ∀ c ∈ calls, c.sender ≠ D.this) :
    let s := Run.final (CollateralLock.step D) s₀ calls
    let log := (Run.outputs (CollateralLock.step D) s₀ calls).flatten
    (s.owners.Nodup ∧ (∀ a, a ∈ s.owners ↔ s.isOwner a = true) ∧ 1 ≤ s.required ∧
      s.required ≤ s.owners.length) ∧
    ((log.filterMap Event.created).map Prod.fst).Nodup ∧
    ((log.filterMap Event.released).map Prod.fst).Nodup ∧
    (∀ d ∈ log.filterMap Event.released, d ∈ log.filterMap Event.created) ∧
    (log.filterMap Event.withdrawn).Nodup ∧
    (∀ c message, call D s c = .error message → CollateralLock.step D s c = (s, [])) ∧
    D.usdc.balanceOf s.usdc D.this + (log.map (Event.paid D.this)).sum =
      D.usdc.balanceOf usdc D.this + (log.map Event.received).sum := by
  intro s log
  have howners : OwnersListed s :=
    Run.invariant OwnersListed (P := fun _ _ => True) (fun _ _ h _ => h.step _)
      (deploy_ownersListed hdeploy) (Run.always_of_forall fun _ _ => trivial)
  have hothers : Run.Always (CollateralLock.step D) (fun _ c => c.sender ≠ D.this) s₀ calls :=
    Run.always_of_mem hsender
  have hbooks : Books D (D.usdc.balanceOf usdc D.this) s log := by
    have h := Run.invariant_outputs (l := [])
      (fun s l => Books D (D.usdc.balanceOf usdc D.this) s l.flatten)
      (fun s c l h hc => by simpa using h.step hinj hc) (deploy_books hdeploy) hothers
    exact h
  refine ⟨⟨howners.nodup, howners.mem_iff, howners.one_le, howners.le_length⟩, hbooks.created_nodup,
    hbooks.released_nodup, fun d hd => (hbooks.released d hd).2, hbooks.withdrawn_nodup,
    fun c message hcall => ?_, hbooks.balance⟩
  rw [CollateralLock.step, hcall]

theorem accounts_run_payout :
    let calls : List (Call Digest) :=
      [Sample.fund, ⟨1, .confirm Sample.payout⟩, ⟨2, .confirm Sample.payout⟩]
    let log := (Run.outputs (step (plainDeployment 9)) Sample.lock calls).flatten
    (Run.final (step (plainDeployment 9)) Sample.lock calls).usdc.1 9 +
        (log.map (Event.paid 9)).sum = 0 + (log.map Event.received).sum :=
  (accounts_run (plainDeployment 9) (fun _ _ h => Digest.deposit.inj h) Sample.deploy_lock
    [Sample.fund, ⟨1, .confirm Sample.payout⟩, ⟨2, .confirm Sample.payout⟩]
    (by decide)).2.2.2.2.2.2

/-- A deposit is withdrawn to the contract itself: it is paid, and still there. -/
theorem accounts_run_paid_to_itself :
    let D := plainDeployment 9
    let calls : List (Call Digest) :=
      [Sample.fund, ⟨1, .confirm Sample.payoutToItself⟩, ⟨2, .confirm Sample.payoutToItself⟩]
    let s := Run.final (step D) Sample.lock calls
    let log := (Run.outputs (step D) Sample.lock calls).flatten
    deploy 8 [1, 2, 3] 2 Sample.usdc = .ok Sample.lock ∧ Sample.usdc.1 9 = 0 ∧
      s.usdc.1 9 = 100 ∧ (log.map Event.paidOut).sum = 100 ∧
      (log.map Event.received).sum ≠ s.usdc.1 9 + (log.map Event.paidOut).sum := by
  intro D calls s log
  exact ⟨rfl, by decide +kernel, by decide +kernel, by decide +kernel, by decide +kernel⟩

end FalconLedger.CollateralLock
