import FalconLedger.Data.Deferred
import FalconLedger.Ledger.PaymentSandbox

/-!
# Funds received in a payment cannot be spent in it

Every table of a stack of sandboxes notes, for an account and its issuer, the debits and the balance it
first saw: a journal in the sense of `Deferred`. Whatever is paid, opened, applied or dropped, what the
hooks report is the balance before the outermost sandbox less what the account has sent since.
-/

namespace FalconLedger

open DeferredCredits Deferred

namespace PaymentSandbox

/-! ### Tables as journals -/

/-- What a table notes for an account on a line. -/
def entryIOU (a i : AccountID) (c : Currency) (tab : DeferredCredits) : Entry ℚ :=
  (tab.adjustmentsIOU a i c).map fun adj => (adj.debits, adj.origBalance)

/-- What a table notes for a holder of a token. -/
def entryMPT (m : MPTID) (a : AccountID) (tab : DeferredCredits) : Entry ℤ :=
  ((tab.creditsMPT m).bind fun v => v.holders a).map fun h => (h.debit, h.origBalance)

/-- No XRP balance is negative. -/
def clamp (issuer : AccountID) (x : ℚ) : ℚ := if issuer = xrpAccount ∧ x < 0 then 0 else x

theorem balanceHookIOU_eq (tabs : Tables) (a i : AccountID) (c : Currency) (b : ℚ) :
    balanceHookIOU tabs a i c b = clamp i (spendable (tabs.map (entryIOU a i c)) b) := by
  have hlook : (fun acc tab => look acc (entryIOU a i c tab)) = lookIOU a i c := by
    funext acc tab
    unfold entryIOU lookIOU
    cases tab.adjustmentsIOU a i c with
    | none => rfl
    | some adj =>
      simp only [Option.map_some, look]
      congr 2
      rcases lt_trichotomy adj.origBalance acc.2.2 with h | h | h
      · rw [if_pos h, min_eq_left h.le]
      · rw [if_neg h.not_lt, min_eq_right h.ge]
      · rw [if_neg h.not_gt, min_eq_right h.le]
  unfold balanceHookIOU spendable clamp
  rw [List.foldl_map, hlook]

theorem foldl_lookMPT {m : MPTID} {a : AccountID} (ha : a ≠ m.getIssuer) (tabs : Tables)
    {acc : ℤ × ℤ × ℤ} (hacc : acc.2.2 ≤ acc.2.1) :
    tabs.foldl (lookMPT a m) acc = (tabs.map (entryMPT m a)).foldl look acc := by
  induction tabs generalizing acc with
  | nil => rfl
  | cons tab tabs ih =>
    have hstep : lookMPT a m acc tab = look acc (entryMPT m a tab) ∧
        (look acc (entryMPT m a tab)).2.2 ≤ (look acc (entryMPT m a tab)).2.1 := by
      unfold lookMPT entryMPT adjustmentsMPT
      cases tab.creditsMPT m with
      | none => exact ⟨rfl, hacc⟩
      | some v =>
        simp only [lookAt, if_pos ha, Option.bind_some]
        cases v.holders a with
        | none =>
          refine ⟨?_, hacc⟩
          simp only [Option.map_none, look, min_eq_right hacc]
        | some h => exact ⟨rfl, min_le_left _ _⟩
    rw [List.map_cons, List.foldl_cons, List.foldl_cons, hstep.1]
    exact ih hstep.2

theorem balanceHookMPT_eq (tabs : Tables) {m : MPTID} {a : AccountID} (ha : a ≠ m.getIssuer) (b : ℤ) :
    balanceHookMPT tabs a m b = max 0 (spendable (tabs.map (entryMPT m a)) b) := by
  unfold balanceHookMPT spendable
  rw [foldl_lookMPT ha tabs le_rfl]
  simp only
  split_ifs with h
  · exact (max_eq_right h.le).symm
  · exact (max_eq_left (not_lt.mp h)).symm

/-! ### Noting a payment -/

theorem makeKeyIOU_comm (a i : AccountID) (c : Currency) : makeKeyIOU a i c = makeKeyIOU i a c := by
  unfold makeKeyIOU
  split_ifs with h h' h'
  · exact absurd (BitVec.lt_trans h h') (BitVec.lt_irrefl a)
  · rfl
  · rfl
  · rw [BitVec.le_antisymm (BitVec.not_lt.mp h) (BitVec.not_lt.mp h')]

theorem makeKeyIOU_eq_iff {a i s r : AccountID} {c c' : Currency} :
    makeKeyIOU a i c = makeKeyIOU s r c' ↔ c = c' ∧ (a = s ∧ i = r ∨ a = r ∧ i = s) := by
  constructor
  · unfold makeKeyIOU
    split_ifs <;> simp only [Prod.mk.injEq] <;> rintro ⟨rfl, rfl, rfl⟩ <;> simp
  · rintro ⟨rfl, ⟨rfl, rfl⟩ | ⟨rfl, rfl⟩⟩
    · rfl
    · exact makeKeyIOU_comm a i c

theorem balance_comm (f : Funds) {a i : AccountID} (c : Currency) (hne : a ≠ i) :
    f.balance a i c = -f.balance i a c := by
  unfold Funds.balance
  rw [makeKeyIOU_comm a i c]
  rcases lt_or_gt_of_ne (fun h => hne (BitVec.eq_of_toNat_eq h) : a.toNat ≠ i.toNat) with h | h
  · rw [if_pos (BitVec.lt_def.mpr h), if_neg (BitVec.lt_asymm (BitVec.lt_def.mpr h)), neg_neg]
  · rw [if_pos (BitVec.lt_def.mpr h), if_neg (BitVec.lt_asymm (BitVec.lt_def.mpr h))]

variable {f : Funds} {tab : DeferredCredits} {a i s r : AccountID} {c c' : Currency} {amount : ℚ}

theorem balance_pay (hne : s ≠ r) :
    (f.pay s r c amount).balance s r c = f.balance s r c - amount ∧
      (f.pay s r c amount).balance r s c = f.balance r s c + amount ∧
      (makeKeyIOU a i c' ≠ makeKeyIOU s r c → (f.pay s r c amount).balance a i c' = f.balance a i c') := by
  have hsender : (f.pay s r c amount).balance s r c = f.balance s r c - amount := by
    simp only [Funds.balance, Funds.pay, Function.update_self]
    split_ifs
    · rfl
    · rw [neg_add, sub_eq_add_neg]
  refine ⟨hsender, ?_, fun hkey => ?_⟩
  · rw [balance_comm _ c hne.symm, hsender, balance_comm f c hne.symm, neg_sub, sub_eq_add_neg, add_comm]
  · simp only [Funds.balance, Funds.pay, Function.update_of_ne hkey]

theorem entryIOU_creditIOU (hne : s ≠ r) {pre : ℚ} :
    entryIOU s r c (tab.creditIOU s r c amount pre) = charge pre amount (entryIOU s r c tab) ∧
      entryIOU r s c (tab.creditIOU s r c amount pre) = touch (-pre) (entryIOU r s c tab) ∧
      (makeKeyIOU a i c' ≠ makeKeyIOU s r c →
        entryIOU a i c' (tab.creditIOU s r c amount pre) = entryIOU a i c' tab) := by
  refine ⟨?_, ?_, fun hkey => ?_⟩
  · simp only [entryIOU, adjustmentsIOU, creditIOU, Function.update_self]
    cases tab.creditsIOU (makeKeyIOU s r c) with
    | none =>
      by_cases hlt : s < r
      · simp [hlt, charge]
      · simp [hlt, charge]
    | some v =>
      by_cases hlt : s < r
      · simp [hlt, charge]
      · simp [hlt, charge]
  · simp only [entryIOU, adjustmentsIOU, creditIOU, makeKeyIOU_comm r s c, Function.update_self]
    have hlt : s < r ↔ ¬r < s := by
      rw [BitVec.not_lt]
      exact ⟨BitVec.le_of_lt, fun h => BitVec.lt_def.mpr
        (lt_of_le_of_ne (BitVec.le_def.mp h) fun heq => hne (BitVec.eq_of_toNat_eq heq))⟩
    cases tab.creditsIOU (makeKeyIOU s r c) with
    | none =>
      by_cases hrs : r < s
      · simp [hlt, hrs, touch]
      · simp [hlt, hrs, touch]
    | some v =>
      by_cases hrs : r < s
      · simp [hlt, hrs, touch]
      · simp [hlt, hrs, touch]
  · simp only [entryIOU, adjustmentsIOU, creditIOU, Function.update_of_ne hkey]

theorem entryIOU_apply (tab' : DeferredCredits) :
    entryIOU a i c (tab.apply tab') = merge (entryIOU a i c tab) (entryIOU a i c tab') := by
  simp only [entryIOU, adjustmentsIOU, DeferredCredits.apply]
  cases tab.creditsIOU (makeKeyIOU a i c) with
  | none => cases tab'.creditsIOU (makeKeyIOU a i c) <;> rfl
  | some v =>
    cases tab'.creditsIOU (makeKeyIOU a i c) with
    | none => rfl
    | some v' =>
      by_cases hlt : a < i
      · simp [emplace, applyIOU, merge, hlt]
      · simp [emplace, applyIOU, merge, hlt]

section Tokens

variable {m m' : MPTID} {holder : AccountID} {value pre available : ℤ}

theorem entryMPT_issue :
    entryMPT m holder (tab.creditMPT m.getIssuer holder m value pre available) =
        touch pre (entryMPT m holder tab) ∧
      (¬(m' = m ∧ a = holder) →
        entryMPT m' a (tab.creditMPT m.getIssuer holder m value pre available) = entryMPT m' a tab) := by
  simp only [entryMPT, creditMPT, if_true]
  refine ⟨?_, fun hne => ?_⟩
  · rw [Function.update_self]
    cases hv : tab.creditsMPT m with
    | none => simp [touch]
    | some v =>
      cases hh : v.holders holder with
      | none => simp [touch, hh]
      | some h => simp [touch, hh]
  · by_cases hm : m' = m
    · subst hm
      have ha : a ≠ holder := fun ha => hne ⟨rfl, ha⟩
      rw [Function.update_self]
      cases hv : tab.creditsMPT m' with
      | none => simp [Function.update_of_ne ha]
      | some v =>
        cases hh : v.holders holder with
        | none => simp [hh, Function.update_of_ne ha]
        | some h => simp [hh]
    · rw [Function.update_of_ne hm]

theorem entryMPT_redeem (hholder : holder ≠ m.getIssuer) :
    entryMPT m holder (tab.creditMPT holder m.getIssuer m value pre available) =
        charge pre value (entryMPT m holder tab) ∧
      (¬(m' = m ∧ a = holder) →
        entryMPT m' a (tab.creditMPT holder m.getIssuer m value pre available) = entryMPT m' a tab) := by
  simp only [entryMPT, creditMPT, if_neg hholder]
  refine ⟨?_, fun hne => ?_⟩
  · rw [Function.update_self]
    cases hv : tab.creditsMPT m with
    | none => simp [charge]
    | some v =>
      cases hh : v.holders holder with
      | none => simp [charge, hh]
      | some h => simp [charge, hh]
  · by_cases hm : m' = m
    · subst hm
      have ha : a ≠ holder := fun ha => hne ⟨rfl, ha⟩
      rw [Function.update_self]
      cases hv : tab.creditsMPT m' with
      | none => simp [Function.update_of_ne ha]
      | some v => simp [Function.update_of_ne ha]
    · rw [Function.update_of_ne hm]

theorem entryMPT_selfDebit : entryMPT m' a (tab.issuerSelfDebitMPT m value pre) = entryMPT m' a tab := by
  simp only [entryMPT, issuerSelfDebitMPT]
  by_cases hm : m' = m
  · subst hm
    rw [Function.update_self]
    cases tab.creditsMPT m' <;> rfl
  · rw [Function.update_of_ne hm]

theorem entryMPT_apply (tab' : DeferredCredits) :
    entryMPT m a (tab.apply tab') = merge (entryMPT m a tab) (entryMPT m a tab') := by
  simp only [entryMPT, DeferredCredits.apply]
  cases tab.creditsMPT m with
  | none => cases tab'.creditsMPT m <;> rfl
  | some v =>
    cases tab'.creditsMPT m with
    | none => simp only [emplace, Option.bind_some, Option.bind_none, Option.map_none]; cases v.holders a <;> rfl
    | some v' =>
      simp only [emplace, applyMPT, Option.bind_some]
      cases v.holders a with
      | none => cases v'.holders a <;> rfl
      | some h => cases v'.holders a <;> rfl

end Tokens

/-! ### The funds under a stack of sandboxes -/

/-- The tables track every balance against what it was at the start. -/
structure Sound (begin : Funds) (levels : List Level) (funds : Funds) : Prop where
  lines : ∀ a i c, Tracks (begin.balance a i c) (funds.balance a i c) (funds.sentIOU a i c)
    (levels.map fun level => entryIOU a i c level.tab)
  tokens : ∀ m a, Tracks (begin.tokens m a) (funds.tokens m a) (funds.sentMPT m a)
    (levels.map fun level => entryMPT m a level.tab)
  xrp : ∀ a c, 0 ≤ funds.balance a xrpAccount c
  held : ∀ m a, 0 ≤ funds.tokens m a

/-- So do the tables that were there when a sandbox was opened, with the funds of then. -/
def AllSound (begin : Funds) : List Level → Funds → Prop
  | [], _ => True
  | top :: rest, funds => Sound begin (top :: rest) funds ∧ AllSound begin rest top.before

variable {begin : Funds} {top : Level} {rest : List Level}

theorem pay_cases (a i s r : AccountID) (c' c : Currency) :
    (a = s ∧ i = r ∧ c' = c) ∨ (a = r ∧ i = s ∧ c' = c) ∨
      makeKeyIOU a i c' ≠ makeKeyIOU s r c := by
  by_cases hkey : makeKeyIOU a i c' = makeKeyIOU s r c
  · obtain ⟨hc, ⟨ha, hi⟩ | ⟨ha, hi⟩⟩ := makeKeyIOU_eq_iff.mp hkey
    · exact .inl ⟨ha, hi, hc⟩
    · exact .inr (.inl ⟨ha, hi, hc⟩)
  · exact .inr (.inr hkey)

theorem sentIOU_pay_of_ne (h : ¬(a = s ∧ i = r ∧ c' = c)) :
    (f.pay s r c amount).sentIOU a i c' = f.sentIOU a i c' := if_neg h

theorem Sound.pay (h : Sound begin (top :: rest) f) (hne : s ≠ r) (hamount : 0 ≤ amount)
    (hxrp : r = xrpAccount → amount ≤ f.balance s r c) :
    Sound begin ({ top with tab := top.tab.creditIOU s r c amount (f.balance s r c) } :: rest)
      (f.pay s r c amount) where
  lines := fun a i c' => by
    have htracks := h.lines a i c'
    simp only [List.map_cons] at htracks ⊢
    obtain ⟨hfrom, hto, hother⟩ := @entryIOU_creditIOU top.tab a i s r c c' amount hne (f.balance s r c)
    obtain ⟨hsender, hreceiver, hbystander⟩ := @balance_pay f a i s r c c' amount hne
    rcases pay_cases a i s r c' c with ⟨rfl, rfl, rfl⟩ | ⟨rfl, rfl, rfl⟩ | hkey
    · have hsent : (f.pay a i c' amount).sentIOU a i c' = f.sentIOU a i c' + amount :=
        if_pos ⟨rfl, rfl, rfl⟩
      rw [hfrom, hsender, hsent]
      exact htracks.debit hamount
    · rw [hto, hreceiver, sentIOU_pay_of_ne fun hsame => hne hsame.1.symm, ← balance_comm f c' hne.symm]
      exact htracks.credit hamount
    · rw [hother hkey, hbystander hkey, sentIOU_pay_of_ne]
      · exact htracks
      · rintro ⟨rfl, rfl, rfl⟩
        exact hkey rfl
  tokens := h.tokens
  xrp := fun a c' => by
    obtain ⟨hsender, hreceiver, hbystander⟩ := @balance_pay f a xrpAccount s r c c' amount hne
    have hold := h.xrp a c'
    rcases pay_cases a xrpAccount s r c' c with ⟨rfl, rfl, rfl⟩ | ⟨rfl, rfl, rfl⟩ | hkey
    · rw [hsender]
      exact sub_nonneg.mpr (hxrp rfl)
    · rw [hreceiver]
      exact add_nonneg hold hamount
    · rw [hbystander hkey]
      exact hold
  held := h.held

section Tokens

variable {m : MPTID} {holder : AccountID} {value available : ℤ}

theorem Sound.issue (h : Sound begin (top :: rest) f) (hvalue : 0 ≤ value) :
    Sound begin
      ({ top with
          tab := top.tab.creditMPT m.getIssuer holder m value (f.tokens m holder) available } :: rest)
      (f.issue m holder value) where
  lines := h.lines
  tokens := fun m' a => by
    have htracks := h.tokens m' a
    simp only [List.map_cons] at htracks ⊢
    obtain ⟨hholder, hother⟩ :=
      @entryMPT_issue top.tab a m m' holder value (f.tokens m holder) available
    by_cases hsame : m' = m ∧ a = holder
    · have htokens : (f.issue m holder value).tokens m' a = f.tokens m' a + value := if_pos hsame
      obtain ⟨rfl, rfl⟩ := hsame
      rw [htokens, hholder]
      exact htracks.credit hvalue
    · have htokens : (f.issue m holder value).tokens m' a = f.tokens m' a := if_neg hsame
      rw [htokens, hother hsame]
      exact htracks
  xrp := h.xrp
  held := fun m' a => by
    have hold := h.held m' a
    simp only [Funds.issue]
    split_ifs
    · exact add_nonneg hold hvalue
    · exact hold

theorem Sound.redeem (h : Sound begin (top :: rest) f) (hholder : holder ≠ m.getIssuer)
    (hvalue : 0 ≤ value) (henough : value ≤ f.tokens m holder) :
    Sound begin
      ({ top with
          tab := top.tab.creditMPT holder m.getIssuer m value (f.tokens m holder) available } :: rest)
      (f.redeem m holder value) where
  lines := h.lines
  tokens := fun m' a => by
    have htracks := h.tokens m' a
    simp only [List.map_cons] at htracks ⊢
    obtain ⟨hcharge, hother⟩ :=
      @entryMPT_redeem top.tab a m m' holder value (f.tokens m holder) available hholder
    by_cases hsame : m' = m ∧ a = holder
    · have htokens : (f.redeem m holder value).tokens m' a = f.tokens m' a - value := if_pos hsame
      have hsent : (f.redeem m holder value).sentMPT m' a = f.sentMPT m' a + value := if_pos hsame
      obtain ⟨rfl, rfl⟩ := hsame
      rw [htokens, hsent, hcharge]
      exact htracks.debit hvalue
    · have htokens : (f.redeem m holder value).tokens m' a = f.tokens m' a := if_neg hsame
      have hsent : (f.redeem m holder value).sentMPT m' a = f.sentMPT m' a := if_neg hsame
      rw [htokens, hsent, hother hsame]
      exact htracks
  xrp := h.xrp
  held := fun m' a => by
    have hold := h.held m' a
    simp only [Funds.redeem]
    split_ifs with hsame
    · obtain ⟨rfl, rfl⟩ := hsame
      exact sub_nonneg.mpr henough
    · exact hold

end Tokens

theorem Sound.push (h : Sound begin rest f) : Sound begin ({ before := f } :: rest) f where
  lines := fun a i c => (h.lines a i c).push
  tokens := fun m a => (h.tokens m a).push
  xrp := h.xrp
  held := h.held

theorem Sound.apply {next : Level} (h : Sound begin (top :: next :: rest) f) :
    Sound begin ({ next with tab := top.tab.apply next.tab } :: rest) f where
  lines := fun a i c => by
    have htracks := (h.lines a i c).apply
    rwa [← entryIOU_apply] at htracks
  tokens := fun m a => by
    have htracks := (h.tokens m a).apply
    rwa [← entryMPT_apply] at htracks
  xrp := h.xrp
  held := h.held

/-- **Every step keeps the tables true to the funds.** -/
theorem AllSound.step {s s' : State} (h : AllSound begin s.levels s.funds) (hstep : Step s s') :
    AllSound begin s'.levels s'.funds := by
  cases hstep with
  | nest top rest funds => exact ⟨h.1.push, h⟩
  | discard top next rest funds => exact h.2
  | apply top next rest funds => exact ⟨h.1.apply, h.2.2⟩
  | pay top rest funds sender receiver currency amount hne hamount hxrp =>
    exact ⟨h.1.pay hne hamount hxrp, h.2⟩
  | issue top rest funds mptID holder amount available hne hamount =>
    exact ⟨h.1.issue hamount, h.2⟩
  | redeem top rest funds mptID holder amount available hne hamount henough =>
    exact ⟨h.1.redeem hne hamount henough, h.2⟩
  | selfDebit top rest funds mptID amount origBalance =>
    refine ⟨⟨h.1.lines, fun m a => ?_, h.1.xrp, h.1.held⟩, h.2⟩
    have htracks := h.1.tokens m a
    rwa [List.map_cons, ← @entryMPT_selfDebit top.tab a mptID m amount origBalance] at htracks
  | ownerCount top rest funds id cur next => exact ⟨⟨h.1.lines, h.1.tokens, h.1.xrp, h.1.held⟩, h.2⟩

/-! ### Whole payments -/

variable {lines : KeyIOU → ℚ} {tokens : MPTID → AccountID → ℤ}

/-- No account has less than no XRP, and no holder less than no tokens. -/
structure Solvent (funds : Funds) : Prop where
  xrp : ∀ a c, 0 ≤ funds.balance a xrpAccount c
  held : ∀ m a, 0 ≤ funds.tokens m a

theorem allSound_start (h : Solvent (start lines tokens).funds) :
    AllSound (start lines tokens).funds (start lines tokens).levels (start lines tokens).funds :=
  ⟨⟨fun _ _ _ => tracks_nil, fun _ _ => tracks_nil, h.xrp, h.held⟩, trivial⟩

theorem allSound_run (h : Solvent (start lines tokens).funds) {s : State}
    (hrun : Relation.ReflTransGen Step (start lines tokens) s) :
    AllSound (start lines tokens).funds s.levels s.funds := by
  induction hrun with
  | refl => exact allSound_start h
  | tail _ hstep ih => exact ih.step hstep

theorem levels_ne_nil {s : State} (hrun : Relation.ReflTransGen Step (start lines tokens) s) :
    s.levels ≠ [] := by
  cases hrun with
  | refl => exact List.cons_ne_nil _ _
  | tail _ hstep => cases hstep <;> exact List.cons_ne_nil _ _

theorem Sound.reports {levels : List Level} (h : Sound begin levels f) :
    (∀ a i c, balanceHookIOU (levels.map Level.tab) a i c (f.balance a i c) =
        clamp i (begin.balance a i c - f.sentIOU a i c)) ∧
      ∀ m a, a ≠ m.getIssuer → balanceHookMPT (levels.map Level.tab) a m (f.tokens m a) =
        max 0 (begin.tokens m a - f.sentMPT m a) := by
  refine ⟨fun a i c => ?_, fun m a ha => ?_⟩
  · rw [balanceHookIOU_eq, List.map_map]
    exact congrArg (clamp i) (h.lines a i c).spendable_eq
  · rw [balanceHookMPT_eq _ ha, List.map_map]
    exact congrArg (max 0) (h.tokens m a).spendable_eq

theorem clamp_of_ne {issuer : AccountID} (h : issuer ≠ xrpAccount) (x : ℚ) : clamp issuer x = x :=
  if_neg fun hx => h hx.1

theorem clamp_xrpAccount (x : ℚ) : clamp xrpAccount x = max 0 x := by
  unfold clamp
  split_ifs with h
  · exact (max_eq_left h.2.le).symm
  · exact (max_eq_right (not_lt.mp fun hx => h ⟨rfl, hx⟩)).symm

/-- **Funds received inside a payment cannot be spent inside it.** However the sandboxes nest, what is
reported is no more than the balance before the outermost sandbox less what the account has sent since
(for XRP and tokens not below nothing), no more than the balance there is, and the same when the
innermost sandbox is applied to its parent. -/
theorem received_funds_deferred (hsolvent : Solvent (start lines tokens).funds) {s : State}
    (hrun : Relation.ReflTransGen Step (start lines tokens) s) :
    (∀ a i c, i ≠ xrpAccount → balanceHookIOU s.tabs a i c (s.funds.balance a i c) ≤
        (start lines tokens).funds.balance a i c - s.funds.sentIOU a i c) ∧
      (∀ a c, balanceHookIOU s.tabs a xrpAccount c (s.funds.balance a xrpAccount c) ≤
        max 0 ((start lines tokens).funds.balance a xrpAccount c - s.funds.sentIOU a xrpAccount c)) ∧
      (∀ m a, a ≠ m.getIssuer → balanceHookMPT s.tabs a m (s.funds.tokens m a) ≤
        max 0 (tokens m a - s.funds.sentMPT m a)) ∧
      (∀ a i c, balanceHookIOU s.tabs a i c (s.funds.balance a i c) ≤ s.funds.balance a i c) ∧
      (∀ m a, a ≠ m.getIssuer → balanceHookMPT s.tabs a m (s.funds.tokens m a) ≤ s.funds.tokens m a) ∧
      ∀ top next rest, s.levels = top :: next :: rest →
        (∀ a i c, balanceHookIOU (top.tab.apply next.tab :: rest.map Level.tab) a i c
            (s.funds.balance a i c) = balanceHookIOU s.tabs a i c (s.funds.balance a i c)) ∧
          ∀ m a, a ≠ m.getIssuer →
            balanceHookMPT (top.tab.apply next.tab :: rest.map Level.tab) a m (s.funds.tokens m a) =
              balanceHookMPT s.tabs a m (s.funds.tokens m a) := by
  have hall := allSound_run hsolvent hrun
  obtain ⟨levels, funds⟩ := s
  cases levels with
  | nil => exact absurd rfl (levels_ne_nil hrun)
  | cons top rest =>
  obtain ⟨hsound, -⟩ := hall
  obtain ⟨hIOU, hMPT⟩ := hsound.reports
  refine ⟨fun a i c hi => ?_, fun a c => ?_, fun m a ha => (hMPT m a ha).le, fun a i c => ?_,
    fun m a ha => ?_, fun top' next rest' hlevels => ?_⟩
  · exact ((hIOU a i c).trans (clamp_of_ne hi _)).le
  · exact ((hIOU a xrpAccount c).trans (clamp_xrpAccount _)).le
  · refine (hIOU a i c).le.trans ?_
    by_cases hi : i = xrpAccount
    · subst hi
      rw [clamp_xrpAccount]
      exact max_le (hsound.xrp a c) (hsound.lines a xrpAccount c).le
    · rw [clamp_of_ne hi]
      exact (hsound.lines a i c).le
  · exact (hMPT m a ha).le.trans (max_le (hsound.held m a) (hsound.tokens m a).le)
  · obtain ⟨rfl, rfl⟩ := List.cons.inj hlevels
    obtain ⟨hIOU', hMPT'⟩ := hsound.apply.reports
    exact ⟨fun a i c => (hIOU' a i c).trans (hIOU a i c).symm,
      fun m a ha => (hMPT' m a ha).trans (hMPT m a ha).symm⟩

/-- Account 2 has a hundred with account 1. -/
def hundred : KeyIOU → ℚ := fun k => if k = makeKeyIOU 2 1 5 then -100 else 0

/-- It is sent fifty more; in a sandbox of its own, it sends thirty. -/
def sentThirty : State :=
  let s₀ := start hundred fun _ _ => 0
  let s₁ := s₀.funds.pay 1 2 5 50
  let tab : DeferredCredits := {}
  ⟨[⟨tab.creditIOU 2 1 5 30 (s₁.balance 2 1 5), s₁⟩,
      ⟨tab.creditIOU 1 2 5 50 (s₀.funds.balance 1 2 5), s₀.funds⟩],
    s₁.pay 2 1 5 30⟩

theorem sentThirty_reachable :
    Relation.ReflTransGen Step (start hundred fun _ _ => 0) sentThirty := by
  have hcredit := Step.pay { before := (start hundred fun _ _ => 0).funds } []
    (start hundred fun _ _ => 0).funds 1 2 5 50 (by decide) (by decide +kernel)
    fun h => absurd h (by decide)
  have hdebit := Step.pay { before := (start hundred fun _ _ => 0).funds.pay 1 2 5 50 }
    [⟨({} : DeferredCredits).creditIOU 1 2 5 50 ((start hundred fun _ _ => 0).funds.balance 1 2 5),
      (start hundred fun _ _ => 0).funds⟩]
    ((start hundred fun _ _ => 0).funds.pay 1 2 5 50) 2 1 5 30 (by decide) (by decide +kernel)
    fun h => absurd h (by decide)
  exact ((Relation.ReflTransGen.single hcredit).tail (.nest _ _ _)).tail hdebit

theorem solvent_hundred : Solvent (start hundred fun _ _ => 0).funds where
  xrp := fun a c => by
    have hline : hundred (makeKeyIOU a xrpAccount c) = 0 := by
      refine if_neg fun h => ?_
      obtain ⟨-, ⟨-, h⟩ | ⟨-, h⟩⟩ := makeKeyIOU_eq_iff.mp h
      · exact absurd h (by decide)
      · exact absurd h (by decide)
    simp [start, Funds.balance, hline]
  held := fun m a => le_rfl

theorem received_funds_deferred_recorded :
    sentThirty.funds.balance 2 1 5 = 120 ∧
      balanceHookIOU sentThirty.tabs 2 1 5 (sentThirty.funds.balance 2 1 5) ≤
        (start hundred fun _ _ => 0).funds.balance 2 1 5 - sentThirty.funds.sentIOU 2 1 5 ∧
      (start hundred fun _ _ => 0).funds.balance 2 1 5 - sentThirty.funds.sentIOU 2 1 5 = 70 := by
  refine ⟨?_, (received_funds_deferred solvent_hundred sentThirty_reachable).1 2 1 5 (by decide), ?_⟩
  · decide +kernel
  · decide +kernel

/-- Account 2, with no XRP at the start, is sent ten and sends ten. -/
def sentXRP : State :=
  let s₀ := start (fun _ => 0) fun _ _ => 0
  let s₁ := s₀.funds.pay xrpAccount 2 0 10
  let tab : DeferredCredits := {}
  ⟨[⟨(tab.creditIOU xrpAccount 2 0 10 (s₀.funds.balance xrpAccount 2 0)).creditIOU 2 xrpAccount 0 10
      (s₁.balance 2 xrpAccount 0), s₀.funds⟩], s₁.pay 2 xrpAccount 0 10⟩

/-- What is reported of an XRP balance is no less than nothing, and so more than the difference where the
account has sent what it was sent. -/
theorem sent_xrp_reported :
    Relation.ReflTransGen Step (start (fun _ => 0) fun _ _ => 0) sentXRP ∧
      ¬balanceHookIOU sentXRP.tabs 2 xrpAccount 0 (sentXRP.funds.balance 2 xrpAccount 0) ≤
        (start (fun _ => 0) fun _ _ => 0).funds.balance 2 xrpAccount 0 -
          sentXRP.funds.sentIOU 2 xrpAccount 0 := by
  have hcredit := Step.pay { before := (start (fun _ => 0) fun _ _ => 0).funds } []
    (start (fun _ => 0) fun _ _ => 0).funds xrpAccount 2 0 10 (by decide) (by decide +kernel)
    fun h => absurd h (by decide)
  refine ⟨(Relation.ReflTransGen.single hcredit).tail
    (.pay _ _ _ 2 xrpAccount 0 10 (by decide) (by decide +kernel) fun _ => ?_), ?_⟩
  · decide +kernel
  · decide +kernel

end PaymentSandbox

end FalconLedger
