import FalconLedger.Properties.EpochPool
import Mathlib.Algebra.BigOperators.Ring.Finset
import Mathlib.Algebra.Order.BigOperators.Group.Finset

/-!
# What holders can still claim

A liquidity provider is paid the *part* of a basket that the holding stands for when the claim is
made. The *open part* of a basket (`openPart`) is that of all holders who have not claimed in the
epoch. A claim takes its part out of it, so that payouts stay within the basket (`sum_paidBy_le`)
until something else than a claim raises the open part.
-/

namespace FalconLedger

open Transactor Ledger

/-- The accounts that hold a token or have a trust line. -/
def Holdings.holders (h : Holdings) : Finset AccountID :=
  (h.mptokens.keys.map Prod.snd ++ h.lines.keys.flatMap fun key => [key.1, key.2.1]).toFinset

/-- The vaults and pools that holders claim for. -/
def Holdings.venues (h : Holdings) : Finset UInt256 := (h.vaults.keys ++ h.amms.keys).toFinset

/-- A basket of the epoch that liquidity providers claim from. -/
structure Basket where
  kind : STTx → Bool
  drops : RewardEpoch → ℕ
  /-- The vault or pool a transaction claims for. -/
  key : STTx → UInt256
  /-- What an account's holding in a vault or pool stands for. -/
  part : Ledger → RewardEpoch → AccountID → UInt256 → ℚ
  /-- The accounts whose drops weigh in. -/
  weighed : Holdings → List AccountID

/-- The part of the basket that those who have not claimed in the epoch stand for. -/
def Ledger.openPart (b : Basket) (s : Ledger) : ℚ :=
  s.epoch.elim 0 fun epoch => ∑ p ∈ s.holdings.holders ×ˢ s.holdings.venues,
    if s.lpClaimedThrough p.1 p.2 epoch.epochNumber then 0 else b.part s epoch p.1 p.2

variable {H : Services} {b : Basket} {s s₁ s' : Ledger} {tx : STTx} {a : Applied}
  {epoch epoch' : RewardEpoch}

/-- Nothing that a part is computed from has changed. -/
structure Basket.Quiet (b : Basket) (s s' : Ledger) : Prop where
  holdings : s'.holdings = s.holdings
  terms : s'.fixedTerms = s.fixedTerms
  accounts : ∀ id ∈ b.weighed s.holdings, s'.accounts.lookup id = s.accounts.lookup id

theorem Basket.Quiet.trans {s'' : Ledger} (h : b.Quiet s s') (h' : b.Quiet s' s'') :
    b.Quiet s s'' :=
  ⟨h'.holdings.trans h.holdings, h'.terms.trans h.terms, fun id hid =>
    (h'.accounts id (h.holdings ▸ hid)).trans (h.accounts id hid)⟩

/-- The transactor pays what its basket says. -/
structure Basket.Lawful (H : Services) (b : Basket) : Prop where
  part_nonneg : ∀ s epoch account key, 0 ≤ b.part s epoch account key
  drops_fixed : ∀ epoch, b.drops epoch.fixedTerms = b.drops epoch
  part_congr : ∀ {s s' epoch epoch'}, b.Quiet s s' → epoch'.fixedTerms = epoch.fixedTerms →
    b.part s' epoch' = b.part s epoch
  unclaimed : ∀ {s tx epoch}, b.kind tx = true → preclaim H s tx = .ok () →
    s.epoch = some epoch → s.lpClaimedThrough tx.account (b.key tx) epoch.epochNumber = false
  settles : ∀ {s tx a}, b.kind tx = true → doApply H s tx = .ok a →
    ∃ epoch share, s.epoch = some epoch ∧ settleLpClaim H s tx epoch (b.key tx) share = .ok a ∧
      (share : ℚ) ≤ b.drops epoch * b.part s epoch tx.account (b.key tx) ∧
      (0 < share → tx.account ∈ s.holdings.holders ∧ b.key tx ∈ s.holdings.venues)

/-- None of the accounts that a claim moves drops of weighs in. -/
def Basket.Apart (H : Services) (b : Basket) (s : Ledger) (tx : STTx) : Prop :=
  ∀ id ∈ b.weighed s.holdings,
    id ≠ tx.account ∧ id ≠ tx.getFeePayer ∧ id ≠ H.getTreasuryAccountID

instance (H : Services) (b : Basket) (s : Ledger) (tx : STTx) : Decidable (b.Apart H s tx) :=
  List.decidableBAll _ _

/-! ### The open part -/

theorem openPart_of_epoch (b : Basket) (h : s.epoch = some epoch) :
    s.openPart b = ∑ p ∈ s.holdings.holders ×ˢ s.holdings.venues,
      if s.lpClaimedThrough p.1 p.2 epoch.epochNumber then 0 else b.part s epoch p.1 p.2 := by
  rw [openPart, h]
  rfl

theorem Basket.Quiet.exists_epoch (h : b.Quiet s s') (hepoch : s.epoch = some epoch) :
    ∃ epoch', s'.epoch = some epoch' ∧ epoch'.fixedTerms = epoch.fixedTerms := by
  have hterms := h.terms
  rw [Ledger.fixedTerms, Ledger.fixedTerms, hepoch] at hterms
  exact Option.map_eq_some_iff.mp hterms

theorem epochNumber_of_terms (h : epoch'.fixedTerms = epoch.fixedTerms) :
    epoch'.epochNumber = epoch.epochNumber :=
  show epoch'.fixedTerms.epochNumber = epoch.fixedTerms.epochNumber by rw [h]

variable (hb : b.Lawful H)

include hb

theorem openPart_nonneg (s : Ledger) : 0 ≤ s.openPart b := by
  unfold openPart
  cases s.epoch with
  | none => exact le_rfl
  | some epoch =>
    refine Finset.sum_nonneg fun p _ => ?_
    split_ifs
    · exact le_rfl
    · exact hb.part_nonneg _ _ _ _

theorem openPart_quiet (hq : b.Quiet s s') (hstates : s'.lpStates = s.lpStates) :
    s'.openPart b = s.openPart b := by
  cases hepoch : s.epoch with
  | none =>
    have hterms := hq.terms
    rw [Ledger.fixedTerms, Ledger.fixedTerms, hepoch, Option.map_none, Option.map_eq_none_iff] at hterms
    rw [openPart, openPart, hepoch, hterms]
    rfl
  | some epoch =>
    obtain ⟨epoch', hepoch', hterms⟩ := hq.exists_epoch hepoch
    rw [openPart_of_epoch b hepoch, openPart_of_epoch b hepoch', hq.holdings,
      hb.part_congr hq hterms, epochNumber_of_terms hterms]
    simp only [lpClaimedThrough, hstates]
    rfl

/-- A claim that is marked takes its part out of the open part. -/
theorem openPart_add_le (hq : b.Quiet s s') {account : AccountID} {key : UInt256}
    (hepoch : s.epoch = some epoch) (haccount : account ∈ s.holdings.holders)
    (hkey : key ∈ s.holdings.venues)
    (hbefore : s.lpClaimedThrough account key epoch.epochNumber = false)
    (hafter : s'.lpClaimedThrough account key epoch.epochNumber = true)
    (hother : ∀ p : AccountID × UInt256, p ≠ (account, key) →
      s'.lpStates.lookup p = s.lpStates.lookup p) :
    b.part s epoch account key + s'.openPart b ≤ s.openPart b := by
  obtain ⟨epoch', hepoch', hterms⟩ := hq.exists_epoch hepoch
  have hmem : (account, key) ∈ s.holdings.holders ×ˢ s.holdings.venues :=
    Finset.mem_product.mpr ⟨haccount, hkey⟩
  rw [openPart_of_epoch b hepoch, openPart_of_epoch b hepoch', hq.holdings,
    hb.part_congr hq hterms, epochNumber_of_terms hterms, ← Finset.add_sum_erase _ _ hmem,
    ← Finset.add_sum_erase _ _ hmem, hbefore, hafter, if_pos rfl, zero_add]
  refine le_of_eq (congrArg _ (Finset.sum_congr rfl fun p hp => ?_))
  rw [lpClaimedThrough, lpClaimedThrough, hother p (Finset.ne_of_mem_erase hp)]

/-! ### One claim -/

omit hb in
private theorem settleLpClaim_paid {key : UInt256} {share : ℕ}
    (h : settleLpClaim H s tx epoch key share = .ok a) : a.paid ≤ share := by
  rcases settleLpClaim_ok h with ⟨hzero, rfl⟩ | ⟨-, s₁, pay, hpay, rfl⟩
  · exact Int.natCast_nonneg _
  · obtain ⟨-, -, -, -, -, hmin, -⟩ := payClaim_ok hpay
    rw [hmin]
    exact min_le_left _ _

/-- The transactor pays at most what it takes out of the open part. -/
theorem doApply_openPart (hkind : b.kind tx = true) (hapart : b.Apart H s tx)
    (hepoch : s.epoch = some epoch)
    (hunclaimed : s.lpClaimedThrough tx.account (b.key tx) epoch.epochNumber = false)
    (h : doApply H s tx = .ok a) :
    b.Quiet s a.view ∧
      (a.paid : ℚ) + b.drops epoch * a.view.openPart b ≤ b.drops epoch * s.openPart b := by
  obtain ⟨epoch₁, share, hepoch₁, hsettle, hshare, hholder⟩ := hb.settles hkind h
  obtain rfl : epoch = epoch₁ := Option.some.inj (hepoch.symm.trans hepoch₁)
  have hpaid := settleLpClaim_paid hsettle
  rcases settleLpClaim_ok hsettle with ⟨-, rfl⟩ | ⟨hpos, s₂, pay, hpay, rfl⟩
  · exact ⟨⟨rfl, rfl, fun _ _ => rfl⟩, by simp⟩
  · obtain ⟨treasury, root, -, -, -, -, -, rfl⟩ := payClaim_ok hpay
    set view := (s.payOut H.toHashes tx epoch treasury root pay).markLpClaimed tx epoch (b.key tx)
      with hview
    have hquiet : b.Quiet s view := by
      refine ⟨rfl, ?_, fun id hid => ?_⟩
      · simp [view, Ledger.fixedTerms, RewardEpoch.fixedTerms, markLpClaimed, payOut, hepoch,
          RewardEpoch.terms]
      · obtain ⟨haccount, -, htreasury⟩ := hapart id hid
        simp only [view, markLpClaimed, payOut, setAccount]
        rw [AList.lookup_insert_ne haccount, AList.lookup_insert_ne htreasury]
    have hmark : ∃ state : PopLpState, state.lastClaimedEpoch = some epoch.epochNumber ∧
        view.lpStates = s.lpStates.insert (tx.account, b.key tx) state := by
      refine ⟨_, ?_, rfl⟩
      split <;> rfl
    obtain ⟨state, hclaimed, hstates⟩ := hmark
    obtain ⟨haccount, hkey⟩ := hholder hpos
    have htaken := openPart_add_le hb hquiet hepoch haccount hkey hunclaimed
      (by simp [lpClaimedThrough, hstates, hclaimed])
      fun p hp => by rw [hstates, AList.lookup_insert_ne hp]
    refine ⟨hquiet, ?_⟩
    have hbound : ((pay : Int) : ℚ) ≤ b.drops epoch * b.part s epoch tx.account (b.key tx) :=
      le_trans (by exact_mod_cast hpaid) hshare
    have hmul := mul_le_mul_of_nonneg_left htaken (Nat.cast_nonneg' (α := ℚ) (b.drops epoch))
    rw [mul_add] at hmul
    dsimp only
    linarith

omit hb

private theorem lookup_setAccount_of_ne {id id' : AccountID} (h : id' ≠ id) (root : AccountRoot) :
    (s.setAccount id root).accounts.lookup id' = s.accounts.lookup id' :=
  AList.lookup_insert_ne h

private theorem consumeSeqProxy_lookup (h : consumeSeqProxy H s tx = .ok s') {id : AccountID}
    (hid : id ≠ tx.account) : s'.accounts.lookup id = s.accounts.lookup id := by
  unfold consumeSeqProxy at h
  split at h
  · simp only [Except.bind_eq_ok, orFail_eq_ok, Except.pure_eq_ok] at h
    obtain ⟨root, -, rfl⟩ := h
    exact lookup_setAccount_of_ne hid _
  · simp only [ticketDelete, Except.bind_eq_ok, orFail_eq_ok, Except.pure_eq_ok] at h
    obtain ⟨entry, -, _, hdir, s₁, rfl, root, -, count, -, rfl⟩ := h
    have haccounts : s₁.accounts = s.accounts := by rw [dirRemove_sameButDirs hdir]
    rw [← haccounts]
    exact lookup_setAccount_of_ne hid _

/-- Charging a transaction writes two accounts at most. -/
private theorem charge_lookup (h : charge H s tx = .ok s') {id : AccountID} (hid : id ≠ tx.account)
    (hpayer : id ≠ tx.getFeePayer) : s'.accounts.lookup id = s.accounts.lookup id := by
  unfold charge at h
  split at h
  · rw [← Except.ok.inj h]
  · simp only [Except.bind_eq_ok, payFee, orFail_eq_ok, Except.pure_eq_ok] at h
    obtain ⟨s₁, hseq, _, ⟨payer, -, rfl⟩, rfl⟩ := h
    rw [← consumeSeqProxy_lookup hseq hid, ← lookup_setAccount_of_ne (s := s₁) hpayer]
    unfold setAccountTxnID
    split
    · split_ifs
      · exact lookup_setAccount_of_ne hid _
      · rfl
    · rfl

private theorem reset_lookup {fee fee' : Int} (h : reset H s tx fee = .ok (s', fee'))
    {id : AccountID} (hid : id ≠ tx.account) (hpayer : id ≠ tx.getFeePayer) :
    s'.accounts.lookup id = s.accounts.lookup id := by
  simp only [reset, Except.bind_eq_ok, failIf_eq_ok, orFail_eq_ok, Except.pure_eq_ok,
    Prod.mk.injEq] at h
  obtain ⟨-, -, payer, -, s₁, hseq, rfl, -⟩ := h
  rw [consumeSeqProxy_lookup hseq hid]
  exact lookup_setAccount_of_ne hpayer _

private theorem quiet_destroyXRP (s : Ledger) (fee : Int)
    (h : ∀ id ∈ b.weighed s.holdings, id ≠ H.getTreasuryAccountID) :
    b.Quiet s (ApplyContext.destroyXRP H.toHashes s fee) := by
  refine ⟨?_, ?_, fun id hid => ?_⟩
  · rw [ApplyContext.destroyXRP_eq]
  · rw [ApplyContext.destroyXRP_eq]
    rfl
  · rcases ApplyContext.destroyXRP_cases H.toHashes s fee with
      ⟨-, -, heq⟩ | ⟨-, -, heq⟩ | ⟨-, _, -, -, -, heq⟩
    · rw [heq]
    · rw [heq]
      rfl
    · rw [heq]
      exact lookup_setAccount_of_ne (h id hid) _

private theorem lpStates_destroyXRP (s : Ledger) (fee : Int) :
    (ApplyContext.destroyXRP H.toHashes s fee).lpStates = s.lpStates := by
  rw [ApplyContext.destroyXRP_eq]

private theorem quiet_of_same (h : SameButAccounts s s')
    (haccounts : ∀ id ∈ b.weighed s.holdings, s'.accounts.lookup id = s.accounts.lookup id) :
    b.Quiet s s' :=
  ⟨by rw [h], by rw [h]; rfl, haccounts⟩

include hb

/-- A claim is paid at most what it takes out of the open part. -/
theorem Transactor.Outcome.openPart_add_le {r : Ledger × Receipt} (h : Outcome H s tx r)
    (hkind : b.kind tx = true) (hapart : b.Apart H s tx) (hepoch : s.epoch = some epoch) :
    (r.2.paid : ℚ) + b.drops epoch * r.1.openPart b ≤ b.drops epoch * s.openPart b := by
  cases h with
  | unapplied => simp
  | @feeOnly view feeIn fee ter hreset =>
    have hsame := (reset_ok hreset).same
    have hholdings : view.holdings = s.holdings := by rw [hsame]
    have hquiet : b.Quiet s view := quiet_of_same hsame fun id hid =>
      reset_lookup hreset (hapart id hid).1 (hapart id hid).2.1
    have hburnt : b.Quiet view (ApplyContext.destroyXRP H.toHashes view fee) :=
      quiet_destroyXRP view fee fun id hid => (hapart id (hholdings ▸ hid)).2.2
    rw [openPart_quiet hb hburnt (lpStates_destroyXRP _ _),
      openPart_quiet hb hquiet (by rw [hsame])]
    simp [receipt]
  | @success s₁ a hflight hclaim hcharge happly =>
    have hsame := (charge_ok hcharge (account_ne_none_of_preclaim hclaim)).same
    have hholdings : s₁.holdings = s.holdings := by rw [hsame]
    have hstates : s₁.lpStates = s.lpStates := by rw [hsame]
    have hepochs : s₁.epoch = s.epoch := by rw [hsame]
    have hquiet : b.Quiet s s₁ := quiet_of_same hsame fun id hid =>
      charge_lookup hcharge (hapart id hid).1 (hapart id hid).2.1
    have hopen := hb.unclaimed hkind (preclaim_of_invokePreclaim hclaim) hepoch
    obtain ⟨hsettled, hpaid⟩ := doApply_openPart hb hkind
      (fun id hid => hapart id (hholdings ▸ hid)) (hepochs.trans hepoch)
      (by rw [lpClaimedThrough, hstates]; exact hopen) happly
    have hburnt : b.Quiet a.view (ApplyContext.destroyXRP H.toHashes a.view tx.fee) :=
      quiet_destroyXRP _ _ fun id hid =>
        (hapart id (hholdings ▸ hsettled.holdings ▸ hid)).2.2
    rw [openPart_quiet hb hburnt (lpStates_destroyXRP _ _), ← openPart_quiet hb hquiet hstates]
    exact hpaid

/-! ### Runs -/

omit hb

/-- The step pays a claim from the basket. -/
def Basket.Pays (H : Services) (b : Basket) (c : Chain) (st : Step) : Prop :=
  0 < Event.paidBy b.kind (c.step H st).2

/-- The holders stand for no more than the whole basket, and a claim moves no drops that weigh in. -/
def Basket.Fits (H : Services) (b : Basket) (c : Chain) (st : Step) : Prop :=
  c.view.openPart b ≤ 1 ∧
    match st with
    | .tx _ tx => b.kind tx = true → b.Apart H c.view tx
    | _ => True

/-- Unless it is a claim, the step does not raise what those who have not claimed stand for. -/
def Basket.Keeps (H : Services) (b : Basket) (c : Chain) (st : Step) : Prop :=
  match st with
  | .tx _ tx => b.kind tx = true ∨ (c.step H st).1.view.openPart b ≤ c.view.openPart b
  | _ => (c.step H st).1.view.openPart b ≤ c.view.openPart b

instance (H : Services) (b : Basket) (c : Chain) (st : Step) : Decidable (b.Pays H c st) :=
  inferInstanceAs (Decidable (_ < _))

instance (H : Services) (b : Basket) (c : Chain) : ∀ st, Decidable (b.Fits H c st)
  | .tx _ tx => inferInstanceAs (Decidable (_ ∧ (b.kind tx = true → b.Apart H c.view tx)))
  | .close _ => inferInstanceAs (Decidable (_ ∧ True))
  | .outside _ _ => inferInstanceAs (Decidable (_ ∧ True))

instance (H : Services) (b : Basket) (c : Chain) : ∀ st, Decidable (b.Keeps H c st)
  | .tx _ tx => inferInstanceAs (Decidable (b.kind tx = true ∨ _ ≤ _))
  | .close _ => inferInstanceAs (Decidable (_ ≤ _))
  | .outside _ _ => inferInstanceAs (Decidable (_ ≤ _))

/-- What has been paid and what is open stay within what was open. -/
theorem Chain.paidBy_add_openPart_le (hb : b.Lawful H) {c : Chain} {st : Step}
    (hfits : b.Fits H c st) (hkeeps : b.Keeps H c st) (hepoch : c.view.epoch = some epoch) :
    ((Event.paidBy b.kind (c.step H st).2 : Int) : ℚ) +
        b.drops epoch * (c.step H st).1.view.openPart b ≤ b.drops epoch * c.view.openPart b := by
  have hrest : (c.step H st).1.view.openPart b ≤ c.view.openPart b →
      ((0 : Int) : ℚ) + b.drops epoch * (c.step H st).1.view.openPart b ≤
        b.drops epoch * c.view.openPart b := fun hle => by
    rw [Int.cast_zero, zero_add]
    exact mul_le_mul_of_nonneg_left hle (Nat.cast_nonneg' _)
  cases st with
  | tx flags tx =>
    by_cases hkind : b.kind tx = true
    · have hout := (applyTransaction_outcome H flags c.view tx).openPart_add_le hb hkind
        (hfits.2 hkind) hepoch
      simpa [Chain.step, Event.paidBy, hkind] using hout
    · have hle := hkeeps.resolve_left hkind
      simpa [Chain.step, Event.paidBy, hkind] using hrest hle
  | close store => exact hrest hkeeps
  | outside accounts holdings => exact hrest hkeeps

/-- The basket and the number of the epoch stay what they are within it. -/
private theorem exists_epoch_step (hb : b.Lawful H) {c : Chain} {st : Step}
    (hstay : StaysInEpoch H c st) (hepoch : c.view.epoch = some epoch) :
    ∃ epoch', (c.step H st).1.view.epoch = some epoch' ∧ b.drops epoch' = b.drops epoch := by
  have hdrops := map_epoch_of_fixedTerms b.drops hb.drops_fixed (c.poolStep st hstay).terms
  rw [hepoch, Option.map_some] at hdrops
  exact Option.map_eq_some_iff.mp hdrops

/-- **Claims are paid at most the open part** of a state after which nothing else raises it. -/
theorem sum_paidBy_le_openPart (hb : b.Lawful H) {c : Chain} {steps : List Step}
    (hepoch : c.view.epoch = some epoch)
    (hstay : Run.Always (Chain.step H) (StaysInEpoch H) c steps)
    (hfits : Run.Always (Chain.step H) (b.Fits H) c steps)
    (hkeeps : Run.Always (Chain.step H) (b.Keeps H) c steps) :
    ((((Run.outputs (Chain.step H) c steps).map (Event.paidBy b.kind)).sum : Int) : ℚ) ≤
      b.drops epoch * c.view.openPart b := by
  induction steps generalizing c epoch with
  | nil =>
    rw [Run.outputs_nil, List.map_nil, List.sum_nil, Int.cast_zero]
    exact mul_nonneg (Nat.cast_nonneg' _) (openPart_nonneg hb _)
  | cons st steps ih =>
    have hhead := Chain.paidBy_add_openPart_le hb hfits.1 hkeeps.1 hepoch
    obtain ⟨epoch', hepoch', hdrops⟩ := exists_epoch_step hb hstay.1 hepoch
    have htail := ih hepoch' hstay.2 hfits.2 hkeeps.2
    rw [hdrops] at htail
    rw [Run.outputs_cons, List.map_cons, List.sum_cons, Int.cast_add]
    linarith

/-- **A basket caps its claims** when, once it has paid, no step other than a claim raises what those
who have not claimed stand for. -/
theorem Basket.sum_paidBy_le (hb : b.Lawful H) {c : Chain} {steps : List Step}
    (hepoch : c.view.epoch = some epoch)
    (hstay : Run.Always (Chain.step H) (StaysInEpoch H) c steps)
    (hfits : Run.Always (Chain.step H) (b.Fits H) c steps)
    (hkeeps : Run.Since (Chain.step H) (b.Pays H) (b.Keeps H) c steps) :
    ((Run.outputs (Chain.step H) c steps).map (Event.paidBy b.kind)).sum ≤ b.drops epoch := by
  induction steps generalizing c epoch with
  | nil => exact Int.natCast_nonneg _
  | cons st steps ih =>
    by_cases hpays : b.Pays H c st
    · -- only a claim pays, and from here on the open part does not grow
      have hclaim : b.Keeps H c st := by
        cases st with
        | tx flags tx =>
          refine .inl (by_contra fun hno => ?_)
          simp [Basket.Pays, Chain.step, Event.paidBy, hno] at hpays
        | close store => exact absurd hpays (lt_irrefl 0)
        | outside accounts holdings => exact absurd hpays (lt_irrefl 0)
      have hsum := sum_paidBy_le_openPart hb hepoch hstay hfits ⟨hclaim, hkeeps.1 hpays⟩
      have hwhole : (b.drops epoch : ℚ) * c.view.openPart b ≤ b.drops epoch :=
        mul_le_of_le_one_right (Nat.cast_nonneg' _) hfits.1.1
      exact_mod_cast hsum.trans hwhole
    · obtain ⟨epoch', hepoch', hdrops⟩ := exists_epoch_step hb hstay.1 hepoch
      have htail := ih hepoch' hstay.2 hfits.2 hkeeps.2
      rw [Run.outputs_cons, List.map_cons, List.sum_cons, ← hdrops]
      have hzero := not_lt.mp hpays
      omega

/-! ### The vault basket -/

def STTx.isClaimLp (tx : STTx) : Bool :=
  match tx.body with
  | .claimLpReward .. => true
  | _ => false

def STTx.isClaimAmmLp (tx : STTx) : Bool :=
  match tx.body with
  | .claimAmmLpReward .. => true
  | _ => false

theorem mem_venues_of_vaults {h : Holdings} {key : UInt256} {vault : Vault}
    (hvault : h.vaults.lookup key = some vault) : key ∈ h.venues :=
  List.mem_toFinset.mpr (List.mem_append_left _ (Table.mem_keys_of_lookup hvault))

theorem mem_venues_of_amms {h : Holdings} {key : UInt256} {amm : Amm}
    (hamm : h.amms.lookup key = some amm) : key ∈ h.venues :=
  List.mem_toFinset.mpr (List.mem_append_right _ (Table.mem_keys_of_lookup hamm))

theorem mem_holders_of_shares {h : Holdings} {id : MPTID} {account : AccountID} {shares : UInt64}
    (hshares : h.mptokens.lookup (id, account) = some shares) : account ∈ h.holders :=
  List.mem_toFinset.mpr (List.mem_append_left _ (List.mem_map.mpr
    ⟨(id, account), Table.mem_keys_of_lookup hshares, rfl⟩))

theorem mem_holders_of_line {h : Holdings} {account issuer : AccountID} {currency : Currency}
    {line : RippleState} (hline : h.lines.lookup (lineKey account issuer currency) = some line) :
    account ∈ h.holders := by
  refine List.mem_toFinset.mpr (List.mem_append_right _ (List.mem_flatMap.mpr
    ⟨_, Table.mem_keys_of_lookup hline, ?_⟩))
  unfold lineKey
  split_ifs <;> simp

namespace ClaimLPReward

/-- The account's shares of a vault over the shares a claim is measured against. -/
def part (s : Ledger) (epoch : RewardEpoch) (account : AccountID) (key : UInt256) : ℚ :=
  match s.holdings.vaults.lookup key with
  | some vault =>
    (((s.holdings.mptokens.lookup (vault.shareMPTID, account)).getD 0).toNat : ℚ) /
      (denom s epoch).toNat
  | none => 0

def basket : Basket where
  kind := STTx.isClaimLp
  drops := lpPoolDrops
  key tx :=
    match tx.body with
    | .claimLpReward vaultID => vaultID.getD 0
    | _ => 0
  part := part
  weighed _ := []

theorem basket_lawful (H : Services) : basket.Lawful H where
  part_nonneg s epoch account key := by
    simp only [basket, part]
    split <;> positivity
  drops_fixed _ := rfl
  part_congr {s s' epoch epoch'} hq hterms := by
    have hshares : epoch'.aggregateLPShares = epoch.aggregateLPShares :=
      show epoch'.fixedTerms.aggregateLPShares = epoch.fixedTerms.aggregateLPShares by rw [hterms]
    funext account key
    simp only [basket, part, denom, liveAggregateVaultShareSupply, hq.holdings, hshares]
  unclaimed {s tx epoch} hkind hpre hepoch := by
    cases hbody : tx.body <;> simp only [basket, STTx.isClaimLp, hbody, Bool.false_eq_true] at hkind
    simp only [preclaim, Transactor.preclaim, hbody, Except.bind_eq_ok, orFail_eq_ok,
      failIf_eq_ok, hepoch, Option.some.injEq] at hpre
    obtain ⟨_, -, _, rfl, -, -, -, -, -, -, hmark⟩ := hpre
    simpa only [basket, hbody, Bool.not_eq_true] using hmark
  settles {s tx a} hkind h := by
    cases hbody : tx.body <;> simp only [basket, STTx.isClaimLp, hbody, Bool.false_eq_true] at hkind
    rename_i vaultID
    simp only [Transactor.doApply, hbody] at h
    obtain ⟨vault, epoch, userShares, hvault, hepoch, hshares, -, hsettle⟩ := doApply_ok h
    refine ⟨epoch, shareDrops s epoch userShares, hepoch, ?_, ?_, fun _ =>
      ⟨mem_holders_of_shares hshares, ?_⟩⟩
    · simpa only [basket, hbody] using hsettle
    · simp only [basket, hbody, part, hvault, hshares, Option.getD_some]
      exact muldivU64_le_mul_div _ _ _
    · simpa only [basket, hbody] using mem_venues_of_vaults hvault

end ClaimLPReward

/-! ### The basket for pool tokens -/

namespace ClaimAmmLpReward

/-- The pool's part of the weight of all pools, times the mantissa of the account's tokens over the
mantissa of the pool's supply. -/
def part (H : Services) (s : Ledger) (epoch : RewardEpoch) (account : AccountID) (key : UInt256) :
    ℚ :=
  match s.holdings.amms.lookup key with
  | some amm =>
    ((nativeAmmTvlDrops s amm).toNat : ℚ) / (tvlDenom s epoch).toNat *
      (((positiveMantissa (ammLPHolds H s amm account)).toNat : ℚ) /
        (positiveMantissa amm.lpTokenBalance).toNat)
  | none => 0

def basket (H : Services) : Basket where
  kind := STTx.isClaimAmmLp
  drops := ammBasket
  key tx :=
    match tx.body with
    | .claimAmmLpReward asset asset2 => H.ammKey (asset.getD .xrp) (asset2.getD .xrp)
    | _ => 0
  part := part H
  weighed h := (Table.values h.amms).map Amm.account

private theorem nativeAmmTvlDrops_congr {amm : Amm}
    (h : s'.accounts.lookup amm.account = s.accounts.lookup amm.account) :
    nativeAmmTvlDrops s' amm = nativeAmmTvlDrops s amm := by
  simp only [nativeAmmTvlDrops, h]

private theorem tvlDenom_congr (hq : (basket H).Quiet s s')
    (hterms : epoch'.fixedTerms = epoch.fixedTerms) : tvlDenom s' epoch' = tvlDenom s epoch := by
  have htvl : epoch'.aggregateAmmTvlDrops = epoch.aggregateAmmTvlDrops :=
    show epoch'.fixedTerms.aggregateAmmTvlDrops = epoch.fixedTerms.aggregateAmmTvlDrops by
      rw [hterms]
  have hlive : liveAggregateNativeAmmTvl s' = liveAggregateNativeAmmTvl s := by
    simp only [liveAggregateNativeAmmTvl, hq.holdings]
    refine List.foldl_ext _ _ _ fun tvl amm hamm => ?_
    rw [nativeAmmTvlDrops_congr (hq.accounts _ (List.mem_map_of_mem hamm))]
  rw [tvlDenom, tvlDenom, htvl, hlive]

private theorem ammLPHolds_congr {amm : Amm} (hholdings : s'.holdings = s.holdings)
    (h : s'.accounts.lookup amm.account = s.accounts.lookup amm.account) (account : AccountID) :
    ammLPHolds H s' amm account = ammLPHolds H s amm account := by
  simp only [ammLPHolds, isFrozen, hholdings, h]

private theorem positiveMantissa_of_no_line {amm : Amm} {account : AccountID}
    (h : s.holdings.lines.lookup
      (lineKey account amm.account (H.ammLptCurrency amm.asset amm.asset2)) = none) :
    positiveMantissa (ammLPHolds H s amm account) = 0 := by
  simp [ammLPHolds, h, positiveMantissa]

theorem basket_lawful (H : Services) : (basket H).Lawful H where
  part_nonneg s epoch account key := by
    simp only [basket, part]
    split <;> positivity
  drops_fixed _ := rfl
  part_congr {s s' epoch epoch'} hq hterms := by
    funext account key
    simp only [basket, part, hq.holdings, tvlDenom_congr hq hterms]
    cases hamm : s.holdings.amms.lookup key with
    | none => rfl
    | some amm =>
      have hmem : amm ∈ Table.values s.holdings.amms :=
        List.mem_map.mpr ⟨_, AList.mem_lookup_iff.mp hamm, rfl⟩
      have haccount := hq.accounts _ (List.mem_map_of_mem hmem)
      dsimp only
      rw [nativeAmmTvlDrops_congr haccount, ammLPHolds_congr hq.holdings haccount]
  unclaimed {s tx epoch} hkind hpre hepoch := by
    cases hbody : tx.body <;>
      simp only [basket, STTx.isClaimAmmLp, hbody, Bool.false_eq_true] at hkind
    simp only [preclaim, Transactor.preclaim, hbody, Except.bind_eq_ok, orFail_eq_ok,
      failIf_eq_ok, hepoch, Option.some.injEq] at hpre
    obtain ⟨_, -, _, -, _, rfl, -, -, -, -, -, -, -, -, hmark⟩ := hpre
    simpa only [basket, hbody, Bool.not_eq_true] using hmark
  settles {s tx a} hkind h := by
    cases hbody : tx.body <;>
      simp only [basket, STTx.isClaimAmmLp, hbody, Bool.false_eq_true] at hkind
    rename_i asset asset2
    simp only [Transactor.doApply, hbody] at h
    obtain ⟨amm, epoch, hamm, hepoch, -, -, hsettle⟩ := doApply_ok h
    refine ⟨epoch, shareDrops s epoch amm (positiveMantissa (ammLPHolds H s amm tx.account)), hepoch,
      ?_, ?_, fun hpos => ⟨?_, ?_⟩⟩
    · simpa only [basket, hbody] using hsettle
    · simp only [basket, hbody, part, hamm]
      -- two roundings: first to the pool's part of the basket, then to the claimant's part of it
      refine (muldivU64_le_mul_div _ _ _).trans ?_
      rw [← mul_assoc]
      exact mul_le_mul_of_nonneg_right (muldivU64_le_mul_div _ _ _) (by positivity)
    · cases hline : s.holdings.lines.lookup
          (lineKey tx.account amm.account (H.ammLptCurrency amm.asset amm.asset2)) with
      | some line => exact mem_holders_of_line hline
      | none =>
        have hle := muldivU64_le_div (muldivU64 (ammBasket epoch) (nativeAmmTvlDrops s amm).toNat
          (tvlDenom s epoch).toNat) 0 (positiveMantissa amm.lpTokenBalance).toNat
        rw [mul_zero, Nat.zero_div] at hle
        rw [shareDrops, positiveMantissa_of_no_line hline] at hpos
        exact absurd hpos (not_lt.mpr hle)
    · simpa only [basket, hbody] using mem_venues_of_amms hamm

end ClaimAmmLpReward

end FalconLedger
