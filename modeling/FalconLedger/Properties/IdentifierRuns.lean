import FalconLedger.Close.BuildLedger
import FalconLedger.Data.Run
import FalconLedger.Properties.AccountLife

/-!
# No identifier is used twice

Whatever becomes of a transaction that is applied, it uses up its number, and what its transactor
does besides keeps `IdentifiersSound`.
-/

namespace FalconLedger

open AccountTransactor

variable {G : AccountServices} {flags : ApplyFlags} {s s' view : Ledger} {tx : AccountTx}
  {used : List (AccountID × UInt32)}

/-! ### What becomes of a transaction -/

/-- The views of a transaction that are committed. -/
inductive Committable (G : AccountServices) (s : Ledger) (tx : AccountTx) : Ledger → Prop
  /-- All it does. -/
  | all {view : Ledger} (hflight : invokePreflight G s tx = .ok ())
      (hclaim : invokePreclaim G s tx = .ok ()) (happly : AccountTransactor.apply G s tx = .ok view) :
      Committable G s tx view
  /-- Only its fee is charged. -/
  | fee {view : Ledger} {fee charged : Int}
      (hreset : Transactor.reset G.toServices s tx.common fee = .ok (view, charged)) :
      Committable G s tx view
  /-- Its fee is charged, and what it has found to be of no use is removed. -/
  | expired {view : Ledger} {fee charged : Int} (ter : TER)
      (hreset : Transactor.reset G.toServices s tx.common fee = .ok (view, charged)) :
      Committable G s tx (G.removeExpired view tx ter)

inductive AccountOutcome (G : AccountServices) (s : Ledger) (tx : AccountTx) :
    Ledger × Receipt → Prop
  | notApplied (ter : TER) : AccountOutcome G s tx (notApplied s ter)
  | applied {view : Ledger} (ter : TER) (fee : Int) (h : Committable G s tx view) :
      AccountOutcome G s tx
        (ApplyContext.destroyXRP G.toHashes view fee, { ter, applied := true, fee })

theorem commit_outcome {checked : TER} {fee : Int} (h : Committable G s tx view) :
    AccountOutcome G s tx (commit G flags s view checked fee) := by
  rw [commit]
  split_ifs
  · exact .notApplied _
  · exact .notApplied _
  · exact .applied _ _ h
  · exact .notApplied _

theorem finish_outcome {result : TER} {fee : Int} (h : Committable G s tx view) :
    AccountOutcome G s tx (finish G flags s view tx result fee) := by
  rw [finish]
  split_ifs
  · cases hreset : Transactor.reset G.toServices s tx.common fee with
    | error ter => exact .notApplied ter
    | ok p => exact commit_outcome (.fee hreset)
  · exact commit_outcome h

theorem claimFee_outcome {result : TER} :
    AccountOutcome G s tx (claimFee G flags s tx result) := by
  rw [claimFee]
  cases hreset : Transactor.reset G.toServices s tx.common tx.fee with
  | error ter => exact .notApplied ter
  | ok p => exact finish_outcome (.expired result hreset)

theorem operatorCall_outcome {outcome : Except TER Ledger}
    (h : ∀ view, outcome = .ok view → Committable G s tx view) :
    AccountOutcome G s tx (operatorCall G flags s tx outcome) := by
  unfold operatorCall
  dsimp only
  split_ifs
  · exact .notApplied _
  · exact claimFee_outcome
  · cases houtcome : outcome with
    | error ter => exact .notApplied _
    | ok view => exact finish_outcome (h view houtcome)

theorem applyAccountTx_outcome :
    (applyAccountTx G flags s tx).2.applied = false ∧ (applyAccountTx G flags s tx).1 = s ∨
      Transactor.checkSeqProxy s tx.common = .ok () ∧
        AccountOutcome G s tx (applyAccountTx G flags s tx) := by
  rw [applyAccountTx]
  cases hflight : invokePreflight G s tx with
  | error ter => exact .inl ⟨rfl, rfl⟩
  | ok _ =>
    dsimp only
    cases hclaim : invokePreclaim G s tx with
    | ok _ =>
      have hcheck : Transactor.checkSeqProxy s tx.common = .ok () := by
        rw [invokePreclaim] at hclaim
        obtain ⟨_, hcheck, -⟩ := Except.bind_eq_ok.mp hclaim
        exact hcheck
      exact .inr ⟨hcheck, operatorCall_outcome fun view => .all hflight hclaim⟩
    | error ter =>
      dsimp only
      split_ifs with htec
      · refine .inr ⟨?_, operatorCall_outcome fun view hview => by cases hview⟩
        cases hcheck : Transactor.checkSeqProxy s tx.common with
        | ok _ => rfl
        | error e =>
          rw [invokePreclaim, hcheck] at hclaim
          cases hclaim
          rw [Transactor.checkSeqProxy_not_tec hcheck] at htec
          cases htec
      · exact .inl ⟨rfl, rfl⟩

/-! ### What is committed -/

/-- The sequence numbers of the accounts stay away from the end of the 32-bit numbers. -/
def Ledger.Low (s : Ledger) : Prop :=
  Table.All (fun root : AccountRoot => root.sequence.toNat < 4294967040) s.accounts

theorem Ledger.Low.next (h : s.Low) (id : AccountID) (root : AccountRoot)
    (hroot : s.accounts.lookup id = some root) : root.sequence.toNat + 1 < 4294967296 := by
  have hlt : root.sequence.toNat < 4294967040 := h id root hroot
  omega

theorem Ledger.found_of_checkSeqProxy {t : STTx} (h : Transactor.checkSeqProxy s t = .ok ()) :
    s.accounts.lookup t.account ≠ none := by
  rw [Transactor.checkSeqProxy] at h
  obtain ⟨root, hroot, -⟩ := Except.bind_eq_ok.mp h
  rw [orFail_eq_ok.mp hroot]
  exact Option.some_ne_none root

theorem Ledger.inTurn_of_checkSeqProxy {t : STTx} (h : Transactor.checkSeqProxy s t = .ok ()) :
    s.InTurn t := by
  intro n hseq root hroot
  simp only [Transactor.checkSeqProxy, hroot, hseq, Except.bind_eq_ok, orFail_eq_ok,
    failIf_eq_ok] at h
  obtain ⟨root', hroot', _, -, heq⟩ := h
  obtain rfl := Option.some.inj hroot'
  exact (not_not.mp heq).symm

/-- The number of tickets after a `TicketCreate`, which the check has computed with 32 bits. -/
theorem TicketCreate.few_of_preclaim {ticketCount : UInt32}
    (hflight : TicketCreate.preflight ticketCount = .ok ())
    (hclaim : TicketCreate.preclaim s tx ticketCount = .ok ()) {root : AccountRoot}
    (hroot : s.accounts.lookup tx.account = some root)
    (hfew : (root.ticketCount.getD 0).toNat ≤ 250) :
    (root.ticketCount.getD 0).toNat + ticketCount.toNat ≤
      250 + if tx.seqProxy.isTicket = true then 1 else 0 := by
  simp only [TicketCreate.preflight, failIf_eq_ok, not_or] at hflight
  simp only [TicketCreate.preclaim, hroot, Except.bind_eq_ok, orFail_eq_ok, failIf_eq_ok] at hclaim
  obtain ⟨root', hroot', hle⟩ := hclaim
  obtain rfl := Option.some.inj hroot'
  have hmin : 1 ≤ ticketCount.toNat := UInt32.le_iff_toNat_le.mp (UInt32.not_lt.mp hflight.1)
  have hmax : ticketCount.toNat ≤ 250 := UInt32.le_iff_toNat_le.mp (UInt32.not_lt.mp hflight.2)
  have hadd := UInt32.toNat_add (root.ticketCount.getD 0) ticketCount
  rw [Nat.mod_eq_of_lt (by omega)] at hadd
  split_ifs at hle ⊢
  · have hsub := UInt32.toNat_sub_of_le (root.ticketCount.getD 0 + ticketCount) 1
      (UInt32.le_iff_toNat_le.mpr (by
        rw [hadd]
        exact hmin.trans (Nat.le_add_left _ _)))
    have hle := UInt32.le_iff_toNat_le.mp (UInt32.not_lt.mp hle)
    rw [hsub, hadd] at hle
    have hle : (root.ticketCount.getD 0).toNat + ticketCount.toNat - 1 ≤ 250 := hle
    omega
  · have hle := UInt32.le_iff_toNat_le.mp (UInt32.not_lt.mp hle)
    rw [UInt32.sub_zero, hadd] at hle
    exact hle

section Keys

variable (hkeys : Function.Injective2 G.ticketKey) (hG : G.Sound)

include hkeys hG in
theorem Committable.sound (hs : IdentifiersSound G.toServices s used) (hlow : s.Low)
    (hcheck : Transactor.checkSeqProxy s tx.common = .ok ()) (h : Committable G s tx view) :
    IdentifiersSound G.toServices view (used ++ [tx.common.identifier]) := by
  have hturn := Ledger.inTurn_of_checkSeqProxy hcheck
  have hnext := hlow.next tx.common.account
  cases h with
  | fee hreset => exact (hs.reset hkeys hturn hnext hreset).sound
  | expired ter hreset =>
    exact (hG.removeExpired _ tx ter).sound (hs.reset hkeys hturn hnext hreset).sound
  | all hflight hclaim happly =>
    simp only [AccountTransactor.apply, Except.bind_eq_ok] at happly
    obtain ⟨charged, hcharge, happly⟩ := happly
    have hcharged := hs.charge hkeys hturn hnext (Ledger.found_of_checkSeqProxy hcheck) hcharge
    have hbefore := hcharged.before
    simp only [invokePreflight, Except.bind_eq_ok] at hflight
    simp only [invokePreclaim, Except.bind_eq_ok] at hclaim
    obtain ⟨_, -, hflight⟩ := hflight
    obtain ⟨_, -, _, -, _, -, _, -, _, -, hclaim⟩ := hclaim
    rw [doApply] at happly
    rw [preflight] at hflight
    rw [preclaim] at hclaim
    cases hbody : tx.body with
    | ticketCreate ticketCount =>
      simp only [hbody] at happly hflight hclaim
      refine TicketCreate.doApply_sound hcharged.sound (fun root' hroot' => ?_) happly
      obtain ⟨root, hroot, hle, hcount⟩ := hbefore _ root' hroot'
      have hfew := TicketCreate.few_of_preclaim hflight hclaim hroot (hs.few _ root hroot)
      have hroom : root.sequence.toNat < 4294967040 := hlow _ root hroot
      have hmax : ticketCount.toNat ≤ 250 := by
        simp only [TicketCreate.preflight, failIf_eq_ok, not_or] at hflight
        exact UInt32.le_iff_toNat_le.mp (UInt32.not_lt.mp hflight.2)
      have hproxy : tx.common.seqProxy = tx.seqProxy := rfl
      have hid : tx.common.account = tx.account := rfl
      simp only [hproxy, hid, true_and] at hcount
      constructor <;> omega
    | accountDelete destination =>
      simp only [hbody] at happly hclaim
      refine AccountDelete.doApply_sound hkeys hG hcharged.sound (fun root' hroot' => ?_) happly
      obtain ⟨root, hroot, hle, -⟩ := hbefore _ root' hroot'
      simp only [AccountDelete.preclaim, Except.bind_eq_ok, orFail_eq_ok, failIf_eq_ok] at hclaim
      obtain ⟨_, -, _, -, root₀, hroot₀, _, -, _, hsoon, -⟩ := hclaim
      obtain rfl := Option.some.inj (hroot.symm.trans hroot₀)
      have hroom : root.sequence.toNat < 4294967040 := hlow _ root hroot
      have hadd := UInt32.toNat_add root.sequence AccountDelete.kSeqDelta
      rw [show AccountDelete.kSeqDelta.toNat = 255 from rfl, Nat.mod_eq_of_lt (by omega)] at hadd
      rw [UInt32.not_lt, UInt32.le_iff_toNat_le, hadd] at hsoon
      rw [hcharged.seq]
      omega
    | payment destination amount =>
      simp only [hbody] at happly
      have hcreated : IdentifiersSound G.toServices (Payment.createDestination charged destination)
          (used ++ [tx.common.identifier]) := Payment.createDestination_sound hcharged.sound
      exact (hG.pay _ tx _ happly).sound hcreated
    | other blocker =>
      simp only [hbody] at happly
      exact (hG.otherDoApply _ tx _ happly).sound hcharged.sound

include hkeys hG in
theorem AccountOutcome.sound {p : Ledger × Receipt} (hs : IdentifiersSound G.toServices s used)
    (hlow : s.Low) (hcheck : Transactor.checkSeqProxy s tx.common = .ok ())
    (h : AccountOutcome G s tx p) :
    IdentifiersSound G.toServices p.1
      (used ++ if p.2.applied = true then [tx.common.identifier] else []) := by
  cases h with
  | notApplied ter =>
    rw [AccountTransactor.notApplied, if_neg Bool.false_ne_true, List.append_nil]
    exact hs
  | applied ter fee hview =>
    rw [if_pos rfl]
    exact (SameIdentifiers.destroyXRP _ fee).sound (hview.sound hkeys hG hs hlow hcheck)

/-! ### Whole runs -/

/-- The next ledger has no smaller sequence number. -/
def AccountStep.Follows (s : Ledger) : AccountStep → Prop
  | .close seq => s.seq ≤ seq
  | .tx _ _ => True

instance (s : Ledger) : (st : AccountStep) → Decidable (st.Follows s)
  | .close seq => inferInstanceAs (Decidable (s.seq ≤ seq))
  | .tx _ _ => .isTrue trivial

/-- The numbers that transactions use up. -/
def identifiers (txs : List AccountTx) : List (AccountID × UInt32) :=
  txs.map fun tx => tx.common.identifier

theorem IdentifiersSound.close {H : Services} {seq : UInt32} (hs : IdentifiersSound H s used)
    (hle : s.seq ≤ seq) : IdentifiersSound H { s with seq } used where
  listed := hs.listed
  below := hs.below
  counted := hs.counted
  few := hs.few
  nodup := hs.nodup
  spent k hk :=
    ⟨(hs.spent k hk).1, (hs.spent k hk).2.root, fun hgone =>
      ((hs.spent k hk).2.gone hgone).trans_le (UInt32.le_iff_toNat_le.mp hle)⟩

include hkeys hG in
theorem IdentifiersSound.step {txs : List AccountTx} {st : AccountStep}
    (hs : IdentifiersSound G.toServices s (identifiers txs)) (hlow : s.Low) (hst : st.Follows s) :
    IdentifiersSound G.toServices (accountStep G s st).1
      (identifiers (txs ++ (appliedTx G s st).toList)) := by
  cases st with
  | close seq =>
    rw [appliedTx, Option.toList_none, List.append_nil]
    exact hs.close hst
  | tx flags tx =>
    have hlist : identifiers (txs ++ (appliedTx G s (.tx flags tx)).toList) = identifiers txs ++
        if (applyAccountTx G flags s tx).2.applied = true then [tx.common.identifier] else [] := by
      rw [appliedTx, identifiers, List.map_append]
      split_ifs <;> rfl
    rw [hlist, accountStep]
    rcases @applyAccountTx_outcome G flags s tx with
      ⟨hno, hsame⟩ | ⟨hcheck, houtcome⟩
    · rw [hno, hsame, if_neg Bool.false_ne_true, List.append_nil]
      exact hs
    · exact houtcome.sound hkeys hG hs hlow hcheck

theorem TicketsSound.of_none {H : Services} (htickets : s.tickets = ∅)
    (hcounts : Table.All (fun root : AccountRoot => root.ticketCount = none) s.accounts) :
    TicketsSound H s := by
  have hnone : ∀ id v ticket, s.tickets.lookup (id, v) ≠ some ticket := fun id v ticket h => by
    rw [htickets] at h
    cases h
  refine ⟨fun id v ticket h => absurd h (hnone id v ticket), fun id v ticket h =>
    absurd h (hnone id v ticket), fun id root hroot => ?_, fun id root hroot => ?_⟩
  · rw [hcounts id root hroot, Ledger.ticketsOf, htickets]
    rfl
  · rw [hcounts id root hroot]
    exact Nat.zero_le _

include hkeys hG in
/-- **Identifiers.** In every run from a ledger without tickets, while the sequence numbers of the
accounts stay below 2^32 - 256, no number of an account is used by two transactions that are applied:
none is applied twice, and no key made of account and number repeats. The tickets are below the
sequence numbers of their owners, and are counted. -/
theorem identifiers_never_repeat {steps : List AccountStep} (htickets : s.tickets = ∅)
    (hcounts : Table.All (fun root : AccountRoot => root.ticketCount = none) s.accounts)
    (hrun : Run.Always (accountStep G) (fun s st => s.Low ∧ st.Follows s) s steps) :
    let applied := Run.record (accountStep G) (appliedTx G) s steps
    let last := Run.final (accountStep G) s steps
    (identifiers applied).Nodup ∧ applied.Nodup ∧
      (∀ key : AccountID → UInt32 → UInt256, Function.Injective2 key →
        (applied.map fun tx => key tx.account tx.seqProxy.value).Nodup) ∧
      (∀ id v ticket, last.tickets.lookup (id, v) = some ticket →
        ∃ root, last.accounts.lookup id = some root ∧ v.toNat < root.sequence.toNat) ∧
      ∀ id root, last.accounts.lookup id = some root →
        (root.ticketCount.getD 0).toNat = last.ticketsOf id := by
  intro applied last
  have hstart : IdentifiersSound G.toServices s (identifiers []) :=
    ⟨.of_none htickets hcounts, List.nodup_nil, fun k hk => absurd hk List.not_mem_nil⟩
  have hfinal : IdentifiersSound G.toServices last (identifiers applied) :=
    Run.invariant_record (fun s txs => IdentifiersSound G.toServices s (identifiers txs))
      (fun s st txs hs hst => hs.step hkeys hG hst.1 hst.2) hstart hrun
  refine ⟨hfinal.nodup, hfinal.nodup.of_map _, fun key hkey => ?_, hfinal.below, hfinal.counted⟩
  have hmap : (applied.map fun tx => key tx.account tx.seqProxy.value) =
      (identifiers applied).map fun k => key k.1 k.2 := by
    rw [identifiers, List.map_map]
    rfl
  rw [hmap]
  exact hfinal.nodup.map fun k k' heq => Prod.ext (hkey heq).1 (hkey heq).2

end Keys

/-! ### An account that comes back -/

namespace Sample

def pay (s : Ledger) (tx : AccountTx) : Except TER Ledger :=
  match tx.body with
  | .payment destination (some drops) => do
    let src ← orFail (s.accounts.lookup tx.account) .tefInternal
    let s := s.setAccount tx.account { src with balance := src.balance - drops }
    let dst ← orFail (s.accounts.lookup destination) .tefInternal
    return s.setAccount destination { dst with balance := dst.balance + drops }
  | _ => .ok s

def accountServices : AccountServices :=
  { services with
    fees := ⟨10, 2⟩
    accountCheck := fun _ _ _ => .ok ()
    pay := pay
    deleteObject := fun _ _ _ => .error .tefBadLedger
    removeExpired := fun s _ _ => s
    otherDoApply := fun s _ => .ok s
    accountInvariants := fun _ _ _ result _ => result
    accountOversize := fun _ _ => false }

theorem accountServices_sound : accountServices.Sound where
  pay s tx s' h := by
    have h : pay s tx = .ok s' := h
    rw [pay] at h
    cases hbody : tx.body with
    | payment destination amount =>
      cases amount with
      | none =>
        simp only [hbody] at h
        cases h
        exact .refl s
      | some drops =>
        simp only [hbody, Except.bind_eq_ok, orFail_eq_ok, Except.pure_eq_ok] at h
        obtain ⟨src, hsrc, dst, hdst, rfl⟩ := h
        have hfirst : SameIdentifiers accountServices.toServices s
            (s.setAccount tx.account { src with balance := src.balance - drops }) :=
          .setAccount hsrc rfl rfl
        exact hfirst.trans (.setAccount hdst rfl rfl)
    | ticketCreate ticketCount | accountDelete destination | other blocker =>
      simp only [hbody] at h
      cases h
      exact .refl s
  deleteObject s id entry s' h := by cases h
  removeExpired s _ _ := .refl s
  otherDoApply s _ s' h := by
    cases h
    exact .refl s

theorem ticketKey_injective2 : Function.Injective2 accountServices.ticketKey := by
  intro account account' v v' heq
  have heq : BitVec.ofNat 256 (2 ^ 201 + 2 ^ 32 * account.toNat + v.toNat) =
      BitVec.ofNat 256 (2 ^ 201 + 2 ^ 32 * account'.toNat + v'.toNat) := heq
  have heq := congrArg BitVec.toNat heq
  rw [BitVec.toNat_ofNat, BitVec.toNat_ofNat] at heq
  have haccount := account.isLt
  have haccount' := account'.isLt
  have hv := v.toNat_lt
  have hv' := v'.toNat_lt
  rw [Nat.mod_eq_of_lt (by omega), Nat.mod_eq_of_lt (by omega)] at heq
  exact ⟨BitVec.eq_of_toNat_eq (by omega), UInt32.toNat_inj.mp (by omega)⟩

def submit (account : AccountID) (seqProxy : SeqProxy) (body : AccountBody) : AccountStep :=
  .tx Sample.flags ⟨0, account, none, 10, seqProxy, body⟩

/-- Alice makes two tickets, uses the second one and deletes her account. Bob's payment makes it anew,
and Alice uses it. -/
def comeBack : List AccountStep :=
  [submit alice (.seq 1) (.ticketCreate 2), submit alice (.ticket 3) (.other false),
    submit alice (.seq 4) (.accountDelete bob), .close (8 * kQxrpLedgersPerEpoch + 1),
    submit bob (.seq 1) (.payment alice (some 1000)),
    submit alice (.seq (8 * kQxrpLedgersPerEpoch + 1)) (.other false)]

theorem comeBack_identifiers :
    identifiers (Run.record (accountStep accountServices) (appliedTx accountServices) ledger
      comeBack) =
      [(alice, 1), (alice, 3), (alice, 4), (bob, 1), (alice, 8 * kQxrpLedgersPerEpoch + 1)] := by
  decide +kernel

end Sample

theorem identifiers_never_repeat_comeBack :
    [(Sample.alice, 1), (Sample.alice, 3), (Sample.alice, 4), (Sample.bob, 1),
      (Sample.alice, 8 * kQxrpLedgersPerEpoch + 1)].Nodup ∧
      ∀ id root, (Run.final (accountStep Sample.accountServices) Sample.ledger
        Sample.comeBack).accounts.lookup id = some root →
          (root.ticketCount.getD 0).toNat = (Run.final (accountStep Sample.accountServices)
            Sample.ledger Sample.comeBack).ticketsOf id := by
  have hcounts : ∀ e ∈ Sample.ledger.accounts.entries, e.2.ticketCount = none := by
    decide +kernel
  have hlow : Run.Always (accountStep Sample.accountServices)
      (fun s st => (∀ e ∈ s.accounts.entries, e.2.sequence.toNat < 4294967040) ∧ st.Follows s)
      Sample.ledger Sample.comeBack := by
    decide +kernel
  have hrun : Run.Always (accountStep Sample.accountServices) (fun s st => s.Low ∧ st.Follows s)
      Sample.ledger Sample.comeBack :=
    Run.always_of_invariant (fun _ => True) (fun _ _ _ _ => trivial)
      (fun s st _ h => ⟨Table.all_of_entries h.1, h.2⟩) trivial hlow
  have hall := identifiers_never_repeat Sample.ticketKey_injective2 Sample.accountServices_sound
    rfl (Table.all_of_entries hcounts) hrun
  rw [← Sample.comeBack_identifiers]
  exact ⟨hall.1, hall.2.2.2.2⟩

end FalconLedger
