import FalconLedger.Ledger.MPTokens
import FalconLedger.Data.Run

/-!
# The supply of a multi-purpose token

What is outstanding is what the holders have and what is locked for them. A send to or from the
issuer moves both by the same amount; every other send, to one receiver or to several, is made of
such sends.
-/

namespace FalconLedger.MPT

open Wire

/-! ### Results -/

section Ends

variable {α β : Type} {P : α → Prop} {Q : β → Prop} {E : Stop → Prop}

/-- A result that meets `P`, or a stop that meets `E`. -/
def Ends (P : α → Prop) (E : Stop → Prop) : Result α → Prop
  | .ok a => P a
  | .error e => E e

theorem Ends.bind {r : Result α} {f : α → Result β} (h : Ends P E r)
    (hf : ∀ a, P a → Ends Q E (f a)) : Ends Q E (r >>= f) := by
  rcases r with e | a
  · exact h
  · exact hf a h

theorem Ends.mono {P' : α → Prop} {E' : Stop → Prop} {r : Result α} (h : Ends P E r)
    (hP : ∀ a, P a → P' a) (hE : ∀ e, E e → E' e) : Ends P' E' r := by
  rcases r with e | a
  · exact hE e h
  · exact hP a h

theorem ends_check {c : Prop} [Decidable c] {e : Stop} (h : ¬c → E e) :
    Ends (fun _ => c) E (check c e) := by
  unfold check
  split
  · assumption
  · exact h ‹_›

theorem ends_add64 {a b : ℕ} (h : a + b < 2 ^ 64) : Ends (· = a + b) E (add64 a b) := by
  rw [add64, if_pos h]
  rfl

theorem ends_stAmount {n : ℕ} (h : E .throws) :
    Ends (fun a : Amount => (a : ℕ) = n) E (stAmount n) := by
  unfold stAmount
  split
  · rfl
  · exact h

theorem ends_plus {a b : Amount} (h : STAmount.kMaxMPTokenAmount < (a : ℕ) + b → E .wraps) :
    Ends (fun c : Amount => (c : ℕ) = a + b) E (plus a b) := by
  unfold plus
  split
  · rfl
  · exact h (by omega)

end Ends

/-- A stop at a wrap or at a counter has an excuse. -/
def Stop.Excused (wrap counter : Prop) (e : Stop) : Prop :=
  (e = .wraps → wrap) ∧ (e = .tecINTERNAL .outstanding ∨ e = .tecINTERNAL .locked → counter)

theorem Stop.Excused.mono {p q p' q' : Prop} {e : Stop} (h : e.Excused p q) (hp : p → p')
    (hq : q → q') : e.Excused p' q' :=
  ⟨fun he => hp (h.1 he), fun he => hq (h.2 he)⟩

theorem canAdd_eq (a b : Amount) :
    canAdd a b = true ↔ (a : ℕ) + b ≤ STAmount.kMaxMPTokenAmount := by
  have ha := a.isLt
  have hb := b.isLt
  simp only [canAdd, Bool.or_eq_true, decide_eq_true_eq, Bool.not_eq_true', decide_eq_false_iff_not,
    Fin.ext_iff, Fin.lt_def, Fin.val_zero]
  omega

theorem canSubtract_eq (a b : Amount) : canSubtract a b = true ↔ b ≤ a := by
  simp only [canSubtract, Bool.or_eq_true, decide_eq_true_eq, Bool.not_eq_true',
    decide_eq_false_iff_not, Fin.ext_iff, Fin.lt_def, Fin.le_def, Fin.val_zero]
  omega

/-! ### The records and the sums -/

namespace MPToken

def locked (t : MPToken) : ℕ := t.lockedAmount.getD 0

def held (t : MPToken) : ℕ := t.mptAmount + t.locked

end MPToken

variable {A : Type}

namespace View

def totalHeld (v : View A) : ℤ := Table.total (fun t => (t.held : ℤ)) v.tokens

def totalLocked (v : View A) : ℤ := Table.total (fun t => (t.locked : ℤ)) v.tokens

/-- What the issuance records is more than the sums by `x` and `y`. -/
structure Off (v : View A) (x y : ℤ) : Prop where
  outstanding : (v.issuance.outstandingAmount : ℤ) = v.totalHeld + x
  locked : ((v.issuance.lockedAmount.getD 0 : ℕ) : ℤ) = v.totalLocked + y

/-- The issuance records the sums, in its 64 bits. -/
structure Conserved (v : View A) : Prop where
  outstanding : (v.issuance.outstandingAmount : ℤ) = v.totalHeld
  locked : ((v.issuance.lockedAmount.getD 0 : ℕ) : ℤ) = v.totalLocked
  fits : v.issuance.outstandingAmount < 2 ^ 64

variable {v v' : View A} {x y : ℤ} {a : A} {t : MPToken}

theorem Conserved.off (h : v.Conserved) : v.Off 0 0 :=
  ⟨by rw [h.outstanding, add_zero], by rw [h.locked, add_zero]⟩

theorem Off.conserved (h : v.Off x y) (hx : x = 0) (hy : y = 0)
    (hfits : v.issuance.outstandingAmount < 2 ^ 64) : v.Conserved :=
  ⟨by rw [h.outstanding, hx, add_zero], by rw [h.locked, hy, add_zero], hfits⟩

theorem Off.setOutstanding (h : v.Off x y) (n : ℕ) :
    (v.setOutstanding n).Off (x + (n - v.issuance.outstandingAmount)) y := by
  refine ⟨?_, h.locked⟩
  have hout := h.outstanding
  change (n : ℤ) = v.totalHeld + _
  omega

theorem Off.setLocked (h : v.Off x y) (n : Option ℕ) :
    (v.setLocked n).Off x (y + ((n.getD 0 : ℕ) - (v.issuance.lockedAmount.getD 0 : ℕ))) := by
  refine ⟨h.outstanding, ?_⟩
  have hlocked := h.locked
  change ((n.getD 0 : ℕ) : ℤ) = v.totalLocked + _
  omega

theorem Conserved.locked_le_outstanding (h : v.Conserved) :
    v.issuance.lockedAmount.getD 0 ≤ v.issuance.outstandingAmount := by
  have hle : v.totalLocked ≤ v.totalHeld := by
    refine List.sum_le_sum fun e _ => ?_
    simp only [MPToken.held]
    omega
  have hout := h.outstanding
  have hlock := h.locked
  omega

variable [DecidableEq A]

/-- What is locked for an account. -/
def lockedOf (v : View A) (a : A) : ℕ := ((v.tokens.lookup a).map MPToken.locked).getD 0

/-- Nothing is outstanding. -/
structure Fresh (v : View A) : Prop where
  outstanding : v.issuance.outstandingAmount = 0
  locked : v.issuance.lockedAmount = none
  tokens : Table.All (fun t => t.held = 0) v.tokens

theorem Off.setToken (h : v.Off x y) (ht : v.tokens.lookup a = some t) (t' : MPToken) :
    (v.setToken a t').Off (x + t.held - t'.held) (y + t.locked - t'.locked) := by
  have hheld : (v.setToken a t').totalHeld = v.totalHeld - t.held + t'.held := by
    simp only [totalHeld, View.setToken]
    rw [Table.total_insert, Table.weightAt_of_lookup ht]
  have hlock : (v.setToken a t').totalLocked = v.totalLocked - t.locked + t'.locked := by
    simp only [totalLocked, View.setToken]
    rw [Table.total_insert, Table.weightAt_of_lookup ht]
  refine ⟨?_, ?_⟩
  · have hout := h.outstanding
    change (v.issuance.outstandingAmount : ℤ) = _
    omega
  · have hlocked := h.locked
    change ((v.issuance.lockedAmount.getD 0 : ℕ) : ℤ) = _
    omega

theorem Fresh.conserved (h : v.Fresh) : v.Conserved := by
  have hheld : v.totalHeld = 0 :=
    Table.total_eq_zero fun a t ht => by exact_mod_cast h.tokens a t ht
  have hlocked : v.totalLocked = 0 := Table.total_eq_zero fun a t ht => by
    have hzero := h.tokens a t ht
    simp only [MPToken.held] at hzero
    omega
  refine ⟨?_, ?_, ?_⟩
  · rw [h.outstanding, hheld, Nat.cast_zero]
  · rw [h.locked, hlocked]
    rfl
  · rw [h.outstanding]
    decide

theorem Conserved.amount_le (h : v.Conserved) (ht : v.tokens.lookup a = some t) :
    t.mptAmount + v.issuance.lockedAmount.getD 0 ≤ v.issuance.outstandingAmount := by
  have hrest : Table.total (fun t => (t.locked : ℤ)) (v.tokens.erase a) ≤
      Table.total (fun t => (t.held : ℤ)) (v.tokens.erase a) := by
    refine List.sum_le_sum fun e _ => ?_
    simp only [MPToken.held]
    omega
  have hheld := Table.total_eq_erase_add (fun t : MPToken => (t.held : ℤ)) v.tokens a
  have hlocked := Table.total_eq_erase_add (fun t : MPToken => (t.locked : ℤ)) v.tokens a
  rw [Table.weightAt_of_lookup ht] at hheld hlocked
  have hout := h.outstanding
  have hlock := h.locked
  rw [totalHeld, hheld, MPToken.held] at hout
  rw [totalLocked, hlocked] at hlock
  omega

theorem Conserved.locked_le (h : v.Conserved) (a : A) :
    v.lockedOf a ≤ v.issuance.lockedAmount.getD 0 := by
  have hle := Table.weightAt_le_total (w := fun t : MPToken => (t.locked : ℤ)) (by simp) v.tokens a
  have hlock := h.locked
  rw [totalLocked] at hlock
  cases ht : v.tokens.lookup a with
  | none => simp [lockedOf, ht]
  | some t =>
    rw [Table.weightAt_of_lookup ht] at hle
    simp only [lockedOf, ht, Option.map_some, Option.getD_some]
    omega

theorem lockedOf_congr (h : Table.SameOn MPToken.locked v.tokens v'.tokens) (a : A) :
    v'.lockedOf a = v.lockedOf a := by
  rw [lockedOf, h a, lockedOf]

end View

/-! ### One side of a send -/

variable [DecidableEq A] {env : Env A} {v : View A} {amt : Amount} {sender receiver : A}

theorem takeFrom_issuer : Ends (fun v₁ => v.issuance.outstandingAmount + amt < 2 ^ 64 ∧
    v₁ = v.setOutstanding (v.issuance.outstandingAmount + amt)) (Stop.Excused False False)
    (takeFrom env env.issuer amt v) := by
  rw [takeFrom, if_pos rfl]
  refine Ends.bind (ends_check (by simp [Stop.Excused])) fun _ hover => ?_
  have hfits : v.issuance.outstandingAmount + amt < 2 ^ 64 := by
    have hamt := amt.isLt
    simp only [isMPTOverflow, Bool.not_eq_true', Bool.or_eq_false_iff, decide_eq_false_iff_not,
      STAmount.kMaxMPTokenAmount] at hover hamt
    omega
  refine Ends.bind (ends_add64 hfits) fun n hn => ?_
  exact ⟨hfits, by rw [hn]⟩

theorem takeFrom_holder (hs : sender ≠ env.issuer) : Ends (fun v₁ => ∃ t,
    v.tokens.lookup sender = some t ∧ (amt : ℕ) ≤ t.mptAmount ∧
      v₁ = v.setToken sender { t with mptAmount := t.mptAmount - amt }) (Stop.Excused False False)
    (takeFrom env sender amt v) := by
  rw [takeFrom, if_neg hs]
  cases ht : v.tokens.lookup sender with
  | none => simp [Ends, Stop.Excused]
  | some t =>
    exact Ends.bind (ends_check (by simp [Stop.Excused])) fun _ hle => ⟨t, rfl, hle, rfl⟩

theorem giveTo_issuer {outstanding : ℕ} (h : (amt : ℕ) ≤ outstanding) :
    Ends (fun v₁ => v₁ = v.setOutstanding (outstanding - amt)) (Stop.Excused False False)
      (giveTo env env.issuer outstanding amt v) := by
  rw [giveTo, if_pos rfl]
  exact Ends.bind (ends_check fun hlt => absurd h hlt) fun _ _ => rfl

theorem giveTo_holder {outstanding : ℕ} (hr : receiver ≠ env.issuer)
    (hfits : ∀ t, v.tokens.lookup receiver = some t → t.mptAmount + amt < 2 ^ 64) :
    Ends (fun v₁ => ∃ t, v.tokens.lookup receiver = some t ∧
      v₁ = v.setToken receiver { t with mptAmount := t.mptAmount + amt }) (Stop.Excused False False)
      (giveTo env receiver outstanding amt v) := by
  rw [giveTo, if_neg hr]
  cases ht : v.tokens.lookup receiver with
  | none => simp [Ends, Stop.Excused]
  | some t =>
    refine Ends.bind (ends_add64 (hfits t ht)) fun n hn => ⟨t, rfl, ?_⟩
    rw [hn]

/-! ### Sends to and from the issuer -/

theorem directSendNoFeeMPT_issue (h : v.Conserved) (hr : receiver ≠ env.issuer) :
    Ends (fun v' => v'.Conserved ∧ v'.issuance =
      { v.issuance with outstandingAmount := v.issuance.outstandingAmount + amt })
      (Stop.Excused False False) (directSendNoFeeMPT env env.issuer receiver amt v) := by
  refine Ends.bind takeFrom_issuer ?_
  rintro _ ⟨hfits, rfl⟩
  refine (giveTo_holder hr fun t ht => ?_).mono ?_ fun _ he => he
  · have hle := h.amount_le ht
    omega
  · rintro _ ⟨t, ht, rfl⟩
    refine ⟨((h.off.setOutstanding _).setToken ht _).conserved ?_ ?_ hfits, rfl⟩
    · simp only [MPToken.held, MPToken.locked]
      push_cast
      ring
    · simp only [MPToken.locked]
      ring

theorem directSendNoFeeMPT_redeem (h : v.Conserved) (hs : sender ≠ env.issuer) :
    Ends (fun v' => v'.Conserved ∧ v'.issuance =
      { v.issuance with outstandingAmount := v.issuance.outstandingAmount - amt })
      (Stop.Excused False False) (directSendNoFeeMPT env sender env.issuer amt v) := by
  refine Ends.bind (takeFrom_holder hs) ?_
  rintro _ ⟨t, ht, hamt, rfl⟩
  have hle := h.amount_le ht
  refine (giveTo_issuer (by omega)).mono ?_ fun _ he => he
  rintro _ rfl
  have hfits : v.issuance.outstandingAmount - amt < 2 ^ 64 := by
    have := h.fits
    omega
  refine ⟨((h.off.setToken ht _).setOutstanding _).conserved ?_ ?_ hfits, rfl⟩
  · simp only [MPToken.held, MPToken.locked, View.setToken]
    omega
  · simp only [MPToken.locked]
    ring

/-! ### Sends -/

/-- The records are kept, and the maximum. -/
def View.Keeps (v v' : View A) : Prop :=
  v'.Conserved ∧ v'.issuance.maximumAmount = v.issuance.maximumAmount

omit [DecidableEq A] in
theorem View.Keeps.trans {v v' v'' : View A} (h : v.Keeps v') (h' : v'.Keeps v'') : v.Keeps v'' :=
  ⟨h'.1, h'.2.trans h.2⟩

theorem maxMPTAmount_congr {i i' : Issuance} (h : i'.maximumAmount = i.maximumAmount) :
    i'.maxMPTAmount = i.maxMPTAmount := by
  rw [Issuance.maxMPTAmount, h, Issuance.maxMPTAmount]

omit [DecidableEq A] in
theorem saActual_stops (waiveFee : WaiveTransferFee) {p q : Prop} :
    Ends (fun cost => saActual env waiveFee amt = .ok cost) (Stop.Excused p q)
      (saActual env waiveFee amt) := by
  unfold saActual
  split
  · rfl
  · cases env.multiply amt with
    | none => simp [Ends, Stop.Excused]
    | some cost => rfl

theorem accountSendMPT_spec (h : v.Conserved) (waiveFee : WaiveTransferFee)
    (allowOverflow : AllowMPTOverflow) :
    Ends (fun v' => v.Keeps v' ∧ (sender = env.issuer → allowOverflow = .no →
      v'.issuance.outstandingAmount ≤ v'.issuance.maxMPTAmount ∨ v' = v)) (Stop.Excused False False)
      (accountSendMPT env sender receiver amt waiveFee allowOverflow v) := by
  unfold accountSendMPT
  split
  · exact ⟨⟨h, rfl⟩, fun _ _ => .inr rfl⟩
  · next hsend =>
    unfold directSendNoLimitMPT
    split
    · next hside =>
      refine Ends.bind (ends_check (by simp [Stop.Excused])) fun _ hover => ?_
      by_cases hs : sender = env.issuer
      · subst hs
        have hr : receiver ≠ env.issuer := fun heq => hsend (.inr heq.symm)
        refine (directSendNoFeeMPT_issue h hr).mono ?_ fun _ he => he
        rintro v' ⟨hv', heq⟩
        refine ⟨⟨hv', by rw [heq]⟩, fun _ hno => .inl ?_⟩
        have hlimit := hover rfl
        subst hno
        simp only [isMPTOverflow, Bool.not_eq_true', Bool.or_eq_false_iff, decide_eq_false_iff_not,
          Fin.lt_def] at hlimit
        rw [maxMPTAmount_congr (i := v.issuance) (by rw [heq]), heq]
        dsimp only
        omega
      · obtain rfl : receiver = env.issuer := hside.resolve_left hs
        refine (directSendNoFeeMPT_redeem h hs).mono ?_ fun _ he => he
        rintro v' ⟨hv', heq⟩
        exact ⟨⟨hv', by rw [heq]⟩, fun hs' => absurd hs' hs⟩
    · next hside =>
      have hs : sender ≠ env.issuer := fun heq => hside (.inl heq)
      refine Ends.bind (saActual_stops waiveFee) fun cost _ => ?_
      refine Ends.bind (directSendNoFeeMPT_issue h fun heq => hside (.inr heq)) ?_
      rintro v₁ ⟨hv₁, heq₁⟩
      refine (directSendNoFeeMPT_redeem hv₁ hs).mono ?_ fun _ he => he
      rintro v' ⟨hv', heq⟩
      exact ⟨⟨hv', by rw [heq, heq₁]⟩, fun hs' => absurd hs' hs⟩

/-! ### Sends to several receivers -/

/-- What one receiver costs a holder. -/
def charge (env : Env A) (sender : A) (waiveFee : WaiveTransferFee) (d : A × Amount) : ℕ :=
  if d.2 = 0 ∨ sender = d.1 then 0
  else if d.1 = env.issuer then d.2
  else match saActual env waiveFee d.2 with
    | .ok cost => cost
    | .error _ => 0

def charges (env : Env A) (sender : A) (waiveFee : WaiveTransferFee) (receivers : List (A × Amount)) :
    ℕ :=
  (receivers.map (charge env sender waiveFee)).sum

theorem sendEach_issuer (waiveFee : WaiveTransferFee) {first : Issuance}
    (receivers : List (A × Amount)) {sums : Sums} (h : v.Conserved)
    (hmax : v.issuance.maximumAmount = first.maximumAmount)
    (hout : v.issuance.outstandingAmount = first.outstandingAmount + sums.totalSendAmount)
    (hactual : (sums.actual : ℕ) = sums.totalSendAmount) :
    Ends (fun r => v.Keeps r.2 ∧
      (r.2.issuance.outstandingAmount ≤ r.2.issuance.maxMPTAmount ∨ r.2 = v))
      (Stop.Excused False False) (sendEach env env.issuer waiveFee first receivers sums v) := by
  induction receivers generalizing sums v with
  | nil => exact ⟨⟨h, rfl⟩, .inr rfl⟩
  | cons d receivers ih =>
    obtain ⟨receiver, amount⟩ := d
    rw [sendEach]
    by_cases hskip : amount = 0 ∨ env.issuer = receiver
    · rw [if_pos hskip]
      exact ih h hmax hout hactual
    · rw [if_neg hskip, if_pos rfl]
      refine Ends.bind (ends_check (by simp [Stop.Excused])) fun _ hover => ?_
      have hlt := first.maxMPTAmount.isLt
      refine Ends.bind (directSendNoFeeMPT_issue h fun heq => hskip (.inr heq.symm)) ?_
      rintro v₁ ⟨hv₁, heq₁⟩
      refine Ends.bind (ends_plus fun hwrap => ?_) fun actual hact => ?_
      · omega
      · have hkeeps : v.Keeps v₁ := ⟨hv₁, by rw [heq₁]⟩
        have hout₁ : v₁.issuance.outstandingAmount =
            first.outstandingAmount + (sums.totalSendAmount + amount) := by
          rw [heq₁]
          dsimp only
          omega
        have hmax₁ := hkeeps.2.trans hmax
        refine (ih hv₁ hmax₁ hout₁ (by dsimp only; omega)).mono ?_ fun _ he => he
        rintro r ⟨hkept, hle | rfl⟩
        · exact ⟨hkeeps.trans hkept, .inl hle⟩
        · refine ⟨hkeeps, .inl ?_⟩
          rw [maxMPTAmount_congr hmax₁, hout₁]
          omega

theorem sendEach_holder (waiveFee : WaiveTransferFee) {first : Issuance}
    (hs : sender ≠ env.issuer) (receivers : List (A × Amount)) {sums : Sums} (h : v.Conserved)
    (htake : sums.takeFromSender ≤ sums.actual) :
    Ends (fun r => v.Keeps r.2)
      (Stop.Excused (STAmount.kMaxMPTokenAmount < sums.actual + charges env sender waiveFee receivers)
        False)
      (sendEach env sender waiveFee first receivers sums v) := by
  induction receivers generalizing sums v with
  | nil => exact ⟨h, rfl⟩
  | cons d receivers ih =>
    have hcharges : charges env sender waiveFee (d :: receivers) =
        charge env sender waiveFee d + charges env sender waiveFee receivers := by
      simp [charges]
    obtain ⟨receiver, amount⟩ := d
    have hexcuse : ∀ (p : Prop) (e : Stop), e.Excused False False → e.Excused p False :=
      fun p e he => he.mono False.elim id
    rw [sendEach, hcharges, charge]
    by_cases hskip : amount = 0 ∨ sender = receiver
    · rw [if_pos hskip, if_pos hskip, zero_add]
      exact ih h htake
    rw [if_neg hskip, if_neg hskip, if_neg hs]
    by_cases hissuer : receiver = env.issuer
    · rw [if_pos hissuer, if_pos hissuer]
      subst hissuer
      dsimp only
      refine Ends.bind ((directSendNoFeeMPT_redeem h hs).mono (fun _ h => h) (hexcuse _)) ?_
      rintro v₁ ⟨hv₁, heq₁⟩
      refine Ends.bind (ends_plus fun hwrap => ⟨fun _ => by omega, by simp⟩) fun actual hact => ?_
      have hkeeps : v.Keeps v₁ := ⟨hv₁, by rw [heq₁]⟩
      refine (ih hv₁ ?_).mono (fun _ hkept => hkeeps.trans hkept)
        fun e he => he.mono (fun hlt => ?_) id
      · rw [Fin.le_def] at htake ⊢
        dsimp only
        omega
      · dsimp only at hlt ⊢
        omega
    · rw [if_neg hissuer, if_neg hissuer]
      refine Ends.bind (saActual_stops waiveFee) fun cost hcost => ?_
      rw [hcost]
      dsimp only
      refine Ends.bind (ends_plus fun hwrap => ⟨fun _ => by omega, by simp⟩) fun actual hact => ?_
      rw [Fin.le_def] at htake
      refine Ends.bind (ends_plus fun hwrap => ⟨fun _ => by omega, by simp⟩) fun take hact' => ?_
      refine Ends.bind ((directSendNoFeeMPT_issue h hissuer).mono (fun _ h => h) (hexcuse _)) ?_
      rintro v₁ ⟨hv₁, heq₁⟩
      have hkeeps : v.Keeps v₁ := ⟨hv₁, by rw [heq₁]⟩
      refine (ih hv₁ ?_).mono (fun _ hkept => hkeeps.trans hkept)
        fun e he => he.mono (fun hlt => ?_) id
      · rw [Fin.le_def]
        dsimp only
        omega
      · dsimp only at hlt
        omega

theorem accountSendMultiMPT_spec (h : v.Conserved) (receivers : List (A × Amount))
    (waiveFee : WaiveTransferFee) :
    Ends (fun v' => v.Keeps v' ∧ (sender = env.issuer →
      v'.issuance.outstandingAmount ≤ v'.issuance.maxMPTAmount ∨ v' = v))
      (Stop.Excused (sender ≠ env.issuer ∧
        STAmount.kMaxMPTokenAmount < charges env sender waiveFee receivers) False)
      (accountSendMultiMPT env sender receivers waiveFee v) := by
  by_cases hs : sender = env.issuer
  · subst hs
    refine Ends.bind ((sendEach_issuer waiveFee receivers h rfl (by simp) (by simp)).mono
      (fun _ h => h) fun e he => he.mono False.elim id) ?_
    rintro ⟨sums, v'⟩ ⟨hkept, hle⟩
    dsimp only
    rw [if_neg (by simp)]
    exact ⟨hkept, fun _ => hle⟩
  · refine Ends.bind ((sendEach_holder waiveFee hs receivers h (by simp)).mono
      (fun _ h => h) fun e he => he.mono (fun hlt => ⟨hs, by simpa using hlt⟩) id) ?_
    rintro ⟨sums, v'⟩ hkept
    dsimp only
    split_ifs with htake
    · refine (directSendNoFeeMPT_redeem hkept.1 hs).mono ?_ fun e he => he.mono False.elim id
      rintro v'' ⟨hv'', heq⟩
      exact ⟨hkept.trans ⟨hv'', by rw [heq]⟩, fun hs' => absurd hs' hs⟩
    · exact ⟨hkept, fun hs' => absurd hs' hs⟩

/-! ### Escrows -/

theorem lockEscrowMPT_spec (h : v.Conserved) :
    Ends v.Keeps (Stop.Excused False (STAmount.kMaxMPTokenAmount < v.issuance.outstandingAmount))
      (lockEscrowMPT env sender amt v) := by
  unfold lockEscrowMPT
  split
  · simp [Ends, Stop.Excused]
  cases ht : v.tokens.lookup sender with
  | none => simp [Ends, Stop.Excused]
  | some t =>
    have hheld := h.amount_le ht
    have hlocked := h.locked_le sender
    simp only [View.lockedOf, ht, Option.map_some, Option.getD_some, MPToken.locked] at hlocked
    refine Ends.bind (ends_stAmount (by simp [Stop.Excused])) fun a ha => ?_
    refine Ends.bind (ends_check (by simp [Stop.Excused])) fun _ hpay => ?_
    rw [canSubtract_eq, Fin.le_def, ha] at hpay
    refine Ends.bind (ends_stAmount (by simp [Stop.Excused])) fun l hl => ?_
    refine Ends.bind (ends_check fun hover => ⟨by simp, fun _ => ?_⟩) fun _ _ => ?_
    · rw [canAdd_eq] at hover
      omega
    refine Ends.bind (ends_stAmount (by simp [Stop.Excused])) fun i hi => ?_
    refine Ends.bind (ends_check fun hover => ⟨by simp, fun _ => ?_⟩) fun _ _ => ?_
    · rw [canAdd_eq] at hover
      omega
    refine ⟨((h.off.setToken ht _).setLocked _).conserved ?_ ?_ h.fits, rfl⟩
    · simp only [MPToken.held, MPToken.locked, Option.getD_some]
      omega
    · simp only [MPToken.locked, Option.getD_some, View.setToken]
      omega

theorem unlockFrom_spec (locked : Option ℕ) :
    Ends (fun n : Option ℕ => n.getD 0 + amt = locked.getD 0)
      (Stop.Excused False (locked = none ∨ locked.getD 0 < amt)) (unlockFrom locked amt) := by
  cases locked with
  | none => simp [Ends, Stop.Excused, unlockFrom]
  | some n =>
    refine Ends.bind (ends_stAmount (by simp [Stop.Excused])) fun a ha => ?_
    refine Ends.bind (ends_check fun hlt => ⟨by simp, fun _ => .inr ?_⟩) fun _ hle => ?_
    · rw [canSubtract_eq, Fin.le_def, ha] at hlt
      exact not_le.mp hlt
    · rw [canSubtract_eq, Fin.le_def, ha] at hle
      change (lockedLeft (n - amt)).getD 0 + (amt : ℕ) = n
      unfold lockedLeft
      split_ifs <;> simp only [Option.getD_none, Option.getD_some] <;> omega

omit [DecidableEq A] in
theorem redeemOutstanding_spec :
    Ends (fun v' => (amt : ℕ) ≤ v.issuance.outstandingAmount ∧
      v' = v.setOutstanding (v.issuance.outstandingAmount - amt))
      (Stop.Excused False (v.issuance.outstandingAmount < amt)) (redeemOutstanding amt v) := by
  refine Ends.bind (ends_stAmount (by simp [Stop.Excused])) fun a ha => ?_
  refine Ends.bind (ends_check fun hlt => ⟨by simp, fun _ => ?_⟩) fun _ hle => ?_
  · rw [canSubtract_eq, Fin.le_def, ha] at hlt
    exact not_le.mp hlt
  · rw [canSubtract_eq, Fin.le_def, ha] at hle
    exact ⟨hle, rfl⟩

theorem release_spec {x y : ℤ} (h : v.Off x y) :
    Ends (fun v' => v'.Off (x - amt) y ∧ Table.SameOn MPToken.locked v.tokens v'.tokens ∧
      v.issuance.outstandingAmount ≤ v'.issuance.outstandingAmount + amt ∧
      v'.issuance.outstandingAmount ≤ v.issuance.outstandingAmount ∧
      v'.issuance.maximumAmount = v.issuance.maximumAmount)
      (Stop.Excused False (v.issuance.outstandingAmount < amt)) (release env receiver amt v) := by
  unfold release
  split
  · cases ht : v.tokens.lookup receiver with
    | none => simp [Ends, Stop.Excused]
    | some t =>
      refine Ends.bind (ends_stAmount (by simp [Stop.Excused])) fun a ha => ?_
      refine Ends.bind (ends_check (by simp [Stop.Excused])) fun _ _ => ?_
      refine ⟨?_, (Table.SameOn.refl _ _).insert ht rfl, Nat.le_add_right _ _, le_rfl, rfl⟩
      have hoff := h.setToken ht { t with mptAmount := t.mptAmount + amt }
      convert hoff using 1
      · simp only [MPToken.held, MPToken.locked]
        omega
      · simp only [MPToken.locked]
        omega
  · refine redeemOutstanding_spec.mono ?_ fun _ he => he
    rintro _ ⟨hle, rfl⟩
    refine ⟨?_, Table.SameOn.refl _ _, ?_, Nat.sub_le _ _, rfl⟩
    · have hoff := h.setOutstanding (v.issuance.outstandingAmount - amt)
      convert hoff using 1
      omega
    · simp only [View.setOutstanding]
      omega

theorem unlockEscrowMPT_spec {net gross : Amount} (h : v.Conserved) (hfee : net ≤ gross) :
    Ends v.Keeps (Stop.Excused False ¬(0 < gross ∧ (gross : ℕ) ≤ v.lockedOf sender))
      (unlockEscrowMPT env sender receiver net gross v) := by
  have hlocked := h.locked_le sender
  have hout := h.locked_le_outstanding
  rw [Fin.le_def] at hfee
  refine Ends.bind ((unlockFrom_spec _).mono (fun _ h => h) fun e he => he.mono id ?_)
    fun escrowed hescrowed => ?_
  · rintro (hnone | hlt) ⟨hpos, hle⟩
    · rw [hnone] at hlocked
      rw [Fin.lt_def, Fin.val_zero] at hpos
      simp only [Option.getD_none] at hlocked
      omega
    · omega
  refine Ends.bind ((release_spec (h.off.setLocked escrowed)).mono (fun _ h => h)
    fun e he => he.mono id ?_) ?_
  · rintro hlt ⟨hpos, hle⟩
    simp only [View.setLocked] at hlt
    omega
  rintro v₂ ⟨hoff, hsame, hge, hle, hmax⟩
  simp only [View.setLocked] at hge hle hmax
  split
  · simp [Ends, Stop.Excused]
  cases ht : v₂.tokens.lookup sender with
  | none => simp [Ends, Stop.Excused]
  | some t =>
    have hof : t.locked = v.lockedOf sender := by
      rw [← View.lockedOf_congr (v := v) hsame sender, View.lockedOf, ht]
      rfl
    refine Ends.bind ((unlockFrom_spec _).mono (fun _ h => h) fun e he => he.mono id ?_)
      fun locked hlock => ?_
    · rw [MPToken.locked] at hof
      rintro (hnone | hlt) ⟨hpos, hle'⟩
      · rw [hnone] at hof
        rw [Fin.lt_def, Fin.val_zero] at hpos
        simp only [Option.getD_none] at hof
        omega
      · omega
    have hdiff : ((gross - net : Amount) : ℕ) = gross - net := Fin.sub_val_of_le hfee
    have hoff₃ := hoff.setToken ht { t with lockedAmount := locked }
    simp only [MPToken.held, MPToken.locked] at hoff₃
    have hfits := h.fits
    split_ifs with hzero
    · refine redeemOutstanding_spec.mono ?_ fun e he => he.mono id ?_
      · rintro _ ⟨hle', rfl⟩
        refine ⟨(hoff₃.setOutstanding _).conserved ?_ ?_ ?_, hmax⟩
        · simp only [View.setToken] at hle' ⊢
          omega
        · omega
        · simp only [View.setToken, View.setOutstanding]
          omega
      · rintro hlt ⟨hpos, hle'⟩
        simp only [View.setToken] at hlt
        omega
    · rw [not_not, Fin.ext_iff, hdiff, Fin.val_zero] at hzero
      refine ⟨hoff₃.conserved ?_ ?_ ?_, hmax⟩
      · omega
      · omega
      · simp only [View.setToken]
        omega

/-! ### Runs -/

namespace Op

/-- A holder's send to several receivers that costs more than an amount can be. -/
def Overdrawn (env : Env A) : Op A → Prop
  | .sendMulti sender receivers waiveFee =>
    sender ≠ env.issuer ∧ STAmount.kMaxMPTokenAmount < charges env sender waiveFee receivers
  | _ => False

/-- An unlock takes something that is locked, and a lock finds no more outstanding than an amount can
be. -/
def InHand (v : View A) : Op A → Prop
  | .lock _ _ => v.issuance.outstandingAmount ≤ STAmount.kMaxMPTokenAmount
  | .unlock sender _ _ gross _ => 0 < gross ∧ (gross : ℕ) ≤ v.lockedOf sender
  | _ => True

/-- A send of the issuer without `AllowMPTOverflow`. -/
def Capped (env : Env A) : Op A → Prop
  | .send sender _ _ _ allowOverflow => sender = env.issuer ∧ allowOverflow = .no
  | .sendMulti sender _ _ => sender = env.issuer
  | _ => False

theorem apply_spec (env : Env A) (op : Op A) (h : v.Conserved) :
    Ends (fun v' => v.Keeps v' ∧ (op.Capped env →
      v'.issuance.outstandingAmount ≤ v'.issuance.maxMPTAmount ∨ v' = v))
      (Stop.Excused (op.Overdrawn env) ¬op.InHand v) (op.apply env v) := by
  cases op with
  | send sender receiver amt waiveFee allowOverflow =>
    refine (accountSendMPT_spec h waiveFee allowOverflow).mono ?_ fun e he =>
      he.mono False.elim False.elim
    exact fun v' hv' => ⟨hv'.1, fun hcap => hv'.2 hcap.1 hcap.2⟩
  | sendMulti sender receivers waiveFee =>
    exact (accountSendMultiMPT_spec h receivers waiveFee).mono (fun _ hv' => hv') fun e he =>
      he.mono id False.elim
  | lock sender amt =>
    exact (lockEscrowMPT_spec h).mono (fun v' hv' => ⟨hv', False.elim⟩) fun e he =>
      he.mono False.elim fun hlt => not_le.mpr hlt
  | unlock sender receiver net gross fee =>
    exact (unlockEscrowMPT_spec h fee).mono (fun v' hv' => ⟨hv', False.elim⟩) fun e he =>
      he.mono False.elim id

end Op

theorem step_keeps (op : Op A) (h : v.Conserved) : v.Keeps (step env v op).1 := by
  have hspec := op.apply_spec env h
  unfold step
  cases heq : op.apply env v with
  | error e => exact ⟨h, rfl⟩
  | ok v' =>
    rw [heq] at hspec
    exact hspec.1

theorem run_keeps (env : Env A) (ops : List (Op A)) (h : v.Conserved) :
    v.Keeps (Run.final (step env) v ops) :=
  Run.invariant (P := fun _ _ => True) v.Keeps (fun _ op hkept _ => hkept.trans (step_keeps op hkept.1))
    ⟨h, rfl⟩ (Run.always_of_forall fun _ _ => trivial)

theorem availableMPTAmount_eq {i : Issuance}
    (h : i.outstandingAmount ≤ (i.maxMPTAmount : ℕ) + 2 ^ 63) :
    i.availableMPTAmount = (i.maxMPTAmount : ℕ) - i.outstandingAmount := by
  have hmax : (i.maxMPTAmount : ℕ) < 2 ^ 63 := i.maxMPTAmount.isLt
  exact Int.bmod_eq_of_le (by omega) (by omega)

/-- In every run from an issuance with nothing outstanding the records are what the holders have. -/
theorem supply_conserved (env : Env A) (v : View A) (h : v.Fresh) (ops : List (Op A)) :
    ∀ v', v' = Run.final (step env) v ops →
      v'.Conserved ∧
      (v'.issuance.outstandingAmount ≤ (v'.issuance.maxMPTAmount : ℕ) + 2 ^ 63 →
        v'.issuance.availableMPTAmount =
          (v'.issuance.maxMPTAmount : ℕ) - v'.issuance.outstandingAmount) ∧
      ∀ op : Op A,
        (op.apply env v' = .error .wraps → op.Overdrawn env) ∧
        (op.InHand v' → op.apply env v' ≠ .error (.tecINTERNAL .outstanding) ∧
          op.apply env v' ≠ .error (.tecINTERNAL .locked)) ∧
        (∀ v'', op.apply env v' = .ok v'' → op.Capped env →
          v''.issuance.outstandingAmount ≤ v''.issuance.maxMPTAmount ∨ v'' = v') := by
  rintro v' rfl
  obtain ⟨hconserved, -⟩ := run_keeps env ops h.conserved
  refine ⟨hconserved, availableMPTAmount_eq, fun op => ?_⟩
  have hspec := op.apply_spec env hconserved
  refine ⟨fun heq => ?_, fun hin => ⟨fun heq => ?_, fun heq => ?_⟩, fun v'' heq hcap => ?_⟩
  · rw [heq] at hspec
    exact hspec.1 rfl
  · rw [heq] at hspec
    exact hspec.2 (.inl rfl) hin
  · rw [heq] at hspec
    exact hspec.2 (.inr rfl) hin
  · rw [heq] at hspec
    exact hspec.2 hcap

namespace Sample

def fees : Env ℕ where
  issuer := 0
  multiply amt := (stAmount ((amt : ℕ) * 5 / 4)).toOption

def tokens : Table ℕ MPToken := (AList.insert 1 ⟨0, none⟩ ∅).insert 2 ⟨0, none⟩

def start (maximumAmount : Amount) : View ℕ where
  issuance := ⟨0, some maximumAmount, none⟩
  tokens := tokens

def ops : List (Op ℕ) :=
  [.send 0 1 100 .no .no, .sendMulti 1 [(2, 40), (0, 10)] .no, .lock 1 20,
    .unlock 1 2 8 10 (by decide)]

theorem start_fresh (maximumAmount : Amount) : (start maximumAmount).Fresh :=
  ⟨rfl, rfl, Table.all_of_entries (t := tokens) (by decide +kernel)⟩

end Sample

theorem supply_conserved_four :
    (Run.final (step Sample.fees) (Sample.start 1000) Sample.ops).issuance =
      ⟨78, some 1000, some 10⟩ ∧
    (Run.final (step Sample.fees) (Sample.start 1000) Sample.ops).Conserved :=
  ⟨by decide +kernel,
    (supply_conserved Sample.fees (Sample.start 1000) (Sample.start_fresh 1000) Sample.ops _ rfl).1⟩

/-- After sends with `AllowMPTOverflow`, a send of nothing succeeds above the maximum, and a lock can
come to more than an amount can be. -/
theorem supply_conserved_overflow :
    (∀ v, v = Run.final (step Sample.fees) (Sample.start 10)
        [.send 0 1 10 .no .yes, .send 0 1 10 .no .yes] →
      ((Op.send 0 1 0 .no .no).apply Sample.fees v).map (fun v' => v'.issuance) =
        .ok ⟨20, some 10, none⟩) ∧
    ∀ v, v = Run.final (step Sample.fees) (Sample.start (Fin.last _))
        [.send 0 1 (Fin.last _) .no .yes, .send 0 2 (Fin.last _) .no .yes, .lock 1 (Fin.last _)] →
      ((Op.lock 2 1).apply Sample.fees v).map (fun v' => v'.issuance) =
        .error (.tecINTERNAL .locked) := by
  refine ⟨?_, ?_⟩
  · rintro v rfl
    decide +kernel
  · rintro v rfl
    decide +kernel

end FalconLedger.MPT
