import FalconLedger.Custody.WithdrawRelay
import FalconLedger.Data.Run
import FalconLedger.Data.Sums
import Mathlib.Algebra.Order.Field.Basic
import Mathlib.Data.List.TakeWhile

/-!
# What is released and what was received

The relay releases what the `Amount` of a payment says, and a partial payment delivers less. Where every
payment delivers its `Amount`, what the lock has paid is backed by what the issuer has received: each
withdrawal id is paid once, and stands for a payment of its own.
-/

namespace FalconLedger.WithdrawRelay

/-! ### What a text says -/

/-- A text without an exponent. -/
def plainValue (text : List Char) : Option ℚ := do
  let whole ← intOrZero (wholePart text)
  let frac ← intOrZero (fracPart text)
  return whole + frac / 10 ^ (fracPart text).length

/-- A power of ten. -/
def powerOfTen (text : List Char) : Option ℚ :=
  match text with
  | '-' :: digits => (pyInt digits).map fun n => 1 / 10 ^ n
  | digits => (pyInt digits).map fun n => 10 ^ n

/-- The number that `STAmount::getText` writes as `text`: decimal, or an integer with an exponent. -/
def decimalValue (text : List Char) : Option ℚ :=
  if 'e' ∈ text then do
    let mantissa ← pyInt (text.takeWhile (· ≠ 'e'))
    let power ← powerOfTen (text.dropWhile (· ≠ 'e')).tail
    return mantissa * power
  else plainValue text

theorem pyInt_eq_some {text : List Char} {n : ℕ} (h : pyInt text = some n) :
    text.all Char.isDigit = true ∧ n = Numeral.value 10 (text.map fun c => c.toNat - 48) := by
  rw [pyInt] at h
  split_ifs at h with hdigits
  exact ⟨hdigits.2, (Option.some.inj h).symm⟩

theorem intOrZero_eq_some {text : List Char} {n : ℕ} (h : intOrZero text = some n) :
    text.all Char.isDigit = true ∧ n = Numeral.value 10 (text.map fun c => c.toNat - 48) := by
  rw [intOrZero] at h
  split_ifs at h with hempty
  · subst hempty
    exact ⟨rfl, (Option.some.inj h).symm⟩
  · exact pyInt_eq_some h

theorem value_take_le (ds : List ℕ) (k : ℕ) :
    (Numeral.value 10 ((ds ++ List.replicate (k - ds.length) 0).take k) : ℚ) ≤
      Numeral.value 10 ds / 10 ^ ds.length * 10 ^ k := by
  rcases le_total k ds.length with hle | hle
  · obtain ⟨a, b, rfl, rfl⟩ : ∃ a b, ds = a ++ b ∧ k = a.length :=
      ⟨ds.take k, ds.drop k, (List.take_append_drop k ds).symm, by simp [hle]⟩
    rw [Nat.sub_eq_zero_of_le hle, List.replicate_zero, List.append_nil, List.take_left,
      Numeral.value_append, List.length_append, pow_add]
    push_cast
    have hpow : (0 : ℚ) < 10 ^ a.length * 10 ^ b.length := by positivity
    rw [div_mul_eq_mul_div, le_div_iff₀ hpow]
    have hrest : (0 : ℚ) ≤ Numeral.value 10 b * 10 ^ a.length := by positivity
    linarith
  · have hlength : (ds ++ List.replicate (k - ds.length) 0).length = k := by simp; omega
    have hzero : Numeral.value 10 (List.replicate (k - ds.length) 0) = 0 := by
      have h := Numeral.value_append_of_zero (b := 10)
        (fun x (hx : x ∈ List.replicate (k - ds.length) 0) => List.eq_of_mem_replicate hx) []
      rwa [List.append_nil] at h
    rw [List.take_of_length_le hlength.le, Numeral.value_append, hzero, List.length_replicate,
      add_zero]
    have hpow : (10 : ℚ) ^ k = 10 ^ ds.length * 10 ^ (k - ds.length) := by
      rw [← pow_add, Nat.add_sub_cancel' hle]
    rw [hpow]
    push_cast
    have hpos : (0 : ℚ) < 10 ^ ds.length := by positivity
    rw [div_mul_eq_mul_div, le_div_iff₀ hpos]
    apply le_of_eq
    ring

theorem amountToRaw_of_exponent {text : List Char} {mantissa : ℕ} (he : 'e' ∈ text)
    (h : pyInt (text.takeWhile (· ≠ 'e')) = some mantissa) : amountToRaw text = none := by
  have hdigits := (pyInt_eq_some h).1
  have hsplit : text = text.takeWhile (· ≠ 'e') ++ text.dropWhile (· ≠ 'e') :=
    (List.takeWhile_append_dropWhile).symm
  obtain ⟨rest, hrest⟩ : ∃ rest, text.dropWhile (· ≠ 'e') = 'e' :: rest := by
    cases hdrop : text.dropWhile (· ≠ 'e') with
    | nil =>
      rw [hsplit, hdrop, List.append_nil] at he
      simpa using List.mem_takeWhile_imp he
    | cons c rest =>
      have hc := List.head?_dropWhile_not (fun c => decide (c ≠ 'e')) text
      rw [hdrop] at hc
      simp at hc
      exact ⟨rest, by rw [hc]⟩
  have hwhole : 'e' ∈ wholePart text := by
    rw [wholePart, hsplit, hrest, List.takeWhile_append_of_pos]
    · simp
    · intro c hc
      have hdigit := List.all_eq_true.mp hdigits c hc
      have hne : c ≠ '.' := by rintro rfl; exact absurd hdigit (by decide)
      simpa using hne
  have hnone : intOrZero (wholePart text) = none := by
    cases hcase : intOrZero (wholePart text) with
    | none => rfl
    | some n => exact absurd (List.all_eq_true.mp (intOrZero_eq_some hcase).1 'e' hwhole) (by decide)
  rw [amountToRaw, hnone]
  rfl

theorem amountToRaw_le {text : List Char} {raw : ℕ} {v : ℚ} (hraw : amountToRaw text = some raw)
    (hv : decimalValue text = some v) : (raw : ℚ) ≤ v * 10 ^ decimals := by
  rw [decimalValue] at hv
  split_ifs at hv with he
  · simp only [Option.bind_eq_bind, Option.bind_eq_some_iff] at hv
    obtain ⟨mantissa, hmantissa, -⟩ := hv
    rw [amountToRaw_of_exponent he hmantissa] at hraw
    cases hraw
  · simp only [plainValue, Option.bind_eq_bind, Option.bind_eq_some_iff, Option.pure_def,
      Option.some.injEq] at hv
    simp only [amountToRaw, Option.bind_eq_bind, Option.bind_eq_some_iff, Option.pure_def,
      Option.some.injEq] at hraw
    obtain ⟨whole, hwhole, frac, hfrac, rfl⟩ := hv
    obtain ⟨whole', hwhole', cut, hcut, rfl⟩ := hraw
    obtain rfl := Option.some.inj (hwhole.symm.trans hwhole')
    have hle := value_take_le ((fracPart text).map fun c : Char => c.toNat - 48) decimals
    rw [List.length_map, ← (intOrZero_eq_some hfrac).2] at hle
    have hmap : cut = Numeral.value 10 (((fracPart text).map (fun c : Char => c.toNat - 48) ++
        List.replicate (decimals - (fracPart text).length) 0).take decimals) := by
      rw [(intOrZero_eq_some hcut).2, List.map_take, List.map_append, List.map_replicate]
      rfl
    rw [← hmap] at hle
    push_cast
    rw [add_mul]
    linarith

/-! ### Each release stands for a payment -/

variable {W : Type} {H : Setup W} {b : Bridge W} {c : Candidate}

/-- A payment of the bridged currency to the issuer that succeeds delivers at least what its `Amount`
says. -/
def InFull (H : Setup W) (e : Entry) : Prop :=
  e.transactionResult = "tesSUCCESS" → e.transactionType = "Payment" → e.destination = H.issuer →
    ∀ amount ∈ e.amount, amount.currency = H.currency → amount.issuer = H.issuer →
      ∃ v, decimalValue amount.value = some v ∧ v ≤ e.delivered

/-- What the lock has paid, once for each id, is what a transaction on the ledger asks for. -/
structure Backed (H : Setup W) (b : Bridge W) : Prop where
  once : (b.paid.map Prod.fst).Nodup
  stands : ∀ p ∈ b.paid, ∃ e ∈ b.ledger, ∃ c, candidateOf H e = some (some c) ∧ c.wid H = p.1 ∧
    c.amountRaw = p.2

theorem Backed.empty : Backed H Bridge.empty :=
  ⟨List.nodup_nil, fun _ hp => absurd hp List.not_mem_nil⟩

theorem candidateOf_spec {e : Entry} (h : candidateOf H e = some (some c)) :
    e.transactionResult = "tesSUCCESS" ∧ e.transactionType = "Payment" ∧
      e.destination = H.issuer ∧ ∃ amount ∈ e.amount, amount.currency = H.currency ∧
        amount.issuer = H.issuer ∧ amountToRaw amount.value = some c.amountRaw := by
  rw [candidateOf] at h
  by_cases hskip : e.validated = some false ∨ e.transactionResult ≠ "tesSUCCESS" ∨
      e.transactionType ≠ "Payment" ∨ e.destination ≠ H.issuer
  · rw [if_pos hskip] at h
    cases h
  rw [if_neg hskip] at h
  simp only [not_or, not_not] at hskip
  cases hamount : e.amount with
  | none => simp [hamount] at h
  | some amount =>
    simp only [hamount] at h
    by_cases hother : amount.currency ≠ H.currency ∨ amount.issuer ≠ H.issuer
    · rw [if_pos hother] at h
      cases h
    rw [if_neg hother] at h
    simp only [not_or, not_not] at hother
    cases hmemo : parseSepoliaMemo H e.memos with
    | none => simp [hmemo] at h
    | some evm =>
      simp only [hmemo] at h
      by_cases hhash : e.hash = ""
      · rw [if_pos hhash] at h
        cases h
      rw [if_neg hhash] at h
      obtain ⟨raw, hraw, heq⟩ := Option.map_eq_some_iff.mp h
      cases heq
      exact ⟨hskip.2.1, hskip.2.2.1, hskip.2.2.2, amount, rfl, hother.1, hother.2, hraw⟩

theorem exists_of_mem_mapM {α β : Type} {f : α → Option β} {l : List α} {found : List β} {y : β}
    (h : l.mapM f = some found) (hy : y ∈ found) : ∃ x ∈ l, f x = some y := by
  induction l generalizing found with
  | nil =>
    simp only [List.mapM_nil] at h
    cases h
    cases hy
  | cons x l ih =>
    simp only [List.mapM_cons, Option.bind_eq_bind, Option.bind_eq_some_iff, Option.pure_def,
      Option.some.injEq] at h
    obtain ⟨z, hz, rest, hrest, rfl⟩ := h
    rcases List.mem_cons.mp hy with rfl | hy
    · exact ⟨x, List.mem_cons_self, hz⟩
    · obtain ⟨x', hx', hf⟩ := ih hrest hy
      exact ⟨x', List.mem_cons_of_mem x hx', hf⟩

theorem mem_fetchWithdrawalCandidates {response : List Entry} {candidates : List Candidate}
    (h : fetchWithdrawalCandidates H response = some candidates) (hc : c ∈ candidates) :
    ∃ e ∈ response, candidateOf H e = some (some c) := by
  obtain ⟨found, hfound, rfl⟩ := Option.map_eq_some_iff.mp h
  rw [List.mem_filterMap] at hc
  obtain ⟨_, hmem, rfl⟩ := hc
  exact exists_of_mem_mapM hfound hmem

variable [DecidableEq W]

theorem Backed.pays (h : Backed H b) (outcome : Outcome)
    (hc : ∃ e ∈ b.ledger, candidateOf H e = some (some c)) :
    Backed H { b with paid := lockPays b.paid (c.wid H) c.amountRaw outcome } := by
  rw [lockPays]
  split_ifs with hpays
  · refine ⟨?_, fun p hp => ?_⟩
    · rw [List.map_cons, List.nodup_cons]
      exact ⟨hpays.1, h.once⟩
    · rcases List.mem_cons.mp hp with rfl | hp
      · obtain ⟨e, he, hcandidate⟩ := hc
        exact ⟨e, he, c, hcandidate, rfl, rfl⟩
      · exact h.stands p hp
  · exact h

omit [DecidableEq W] in
/-- What the lock has paid does not depend on the state of the relay. -/
theorem Backed.remember (h : Backed H b) (memory file : Saved W) :
    Backed H { b with memory, file } := ⟨h.once, h.stands⟩

theorem Backed.release (h : Backed H b) (dryRun : Bool) (outcome : Outcome)
    (hc : ∃ e ∈ b.ledger, candidateOf H e = some (some c)) :
    Backed H (releaseOnSepolia H b c dryRun outcome).1 := by
  rw [releaseOnSepolia]
  split_ifs
  · exact h
  · exact h.pays outcome hc

theorem releaseOnSepolia_ledger (dryRun : Bool) (outcome : Outcome) :
    (releaseOnSepolia H b c dryRun outcome).1.ledger = b.ledger := by
  rw [releaseOnSepolia]
  split_ifs <;> rfl

theorem Backed.releases (h : Backed H b) (dryRun : Bool) (candidates : List Candidate)
    (outcomes : List Outcome) (maxLedger : ℕ)
    (hcandidates : ∀ c ∈ candidates, ∃ e ∈ b.ledger, candidateOf H e = some (some c)) :
    Backed H (releaseAll H dryRun candidates outcomes maxLedger b).1 := by
  induction candidates generalizing outcomes maxLedger b with
  | nil =>
    rw [releaseAll]
    exact h
  | cons c rest ih =>
    obtain ⟨hc, hrest⟩ := List.forall_mem_cons.mp hcandidates
    cases outcomes with
    | nil => exact h
    | cons outcome outcomes =>
      rw [releaseAll]
      by_cases hdone : c.wid H ∈ b.memory.releasedWithdrawals
      · rw [if_pos hdone]
        exact ih h _ _ hrest
      · rw [if_neg hdone]
        have hreleased := h.release dryRun outcome hc
        have hledger := releaseOnSepolia_ledger (H := H) (b := b) (c := c) dryRun outcome
        generalize releaseOnSepolia H b c dryRun outcome = r at hreleased hledger ⊢
        obtain ⟨b', success⟩ := r
        dsimp only at hreleased hledger ⊢
        split_ifs
        · apply ih (hreleased.remember _ _)
          rwa [hledger]
        · apply ih (hreleased.remember _ _)
          rwa [hledger]
        · exact hreleased.remember _ _
        · apply ih hreleased
          rwa [hledger]

theorem Backed.poll (h : Backed H b) (dryRun : Bool) (sends : Entry → Bool)
    (outcomes : List Outcome) : Backed H (processWithdrawals H b dryRun sends outcomes) := by
  rw [processWithdrawals]
  dsimp only
  split
  · exact h
  · next candidates hfetch =>
    have hall := h.releases dryRun candidates outcomes b.memory.lastLedger fun c hc => by
      obtain ⟨e, he, hcandidate⟩ := mem_fetchWithdrawalCandidates hfetch hc
      exact ⟨e, (List.mem_filter.mp he).1, hcandidate⟩
    split
    · next b' heq =>
      rw [heq] at hall
      exact hall
    · next b' maxLedger heq =>
      rw [heq] at hall
      have hall : Backed H b' := hall
      split_ifs
      · exact hall.remember _ _
      · exact hall.remember _ _
      · exact hall

theorem releaseAll_ledger (dryRun : Bool) (candidates : List Candidate) (outcomes : List Outcome)
    (maxLedger : ℕ) : (releaseAll H dryRun candidates outcomes maxLedger b).1.ledger = b.ledger := by
  induction candidates generalizing outcomes maxLedger b with
  | nil => rfl
  | cons c rest ih =>
    cases outcomes with
    | nil => rfl
    | cons outcome outcomes =>
      rw [releaseAll]
      by_cases hdone : c.wid H ∈ b.memory.releasedWithdrawals
      · rw [if_pos hdone, ih]
      · rw [if_neg hdone]
        have hledger := releaseOnSepolia_ledger (H := H) (b := b) (c := c) dryRun outcome
        generalize releaseOnSepolia H b c dryRun outcome = r at hledger ⊢
        obtain ⟨b', success⟩ := r
        dsimp only at hledger ⊢
        split_ifs
        · rw [ih]; exact hledger
        · rw [ih]; exact hledger
        · exact hledger
        · rw [ih, hledger]

theorem processWithdrawals_ledger (dryRun : Bool) (sends : Entry → Bool) (outcomes : List Outcome) :
    (processWithdrawals H b dryRun sends outcomes).ledger = b.ledger := by
  rw [processWithdrawals]
  dsimp only
  split
  · rfl
  · next candidates hfetch =>
    have hledger := releaseAll_ledger (H := H) (b := b) dryRun candidates outcomes
      b.memory.lastLedger
    split
    · next b' heq =>
      rw [heq] at hledger
      exact hledger
    · next b' maxLedger heq =>
      rw [heq] at hledger
      have hledger : b'.ledger = b.ledger := hledger
      split_ifs <;> exact hledger

theorem Backed.step (h : Backed H b) (a : Action) : Backed H (step H b a).1 := by
  cases a with
  | applied entry =>
    refine ⟨h.once, fun p hp => ?_⟩
    obtain ⟨e, he, hstands⟩ := h.stands p hp
    exact ⟨e, List.mem_cons_of_mem entry he, hstands⟩
  | poll dryRun sends outcomes => exact h.poll dryRun sends outcomes
  | restart => exact h.remember _ _

theorem Backed.final (h : Backed H b) (actions : List Action) :
    Backed H (Run.final (WithdrawRelay.step H) b actions) :=
  Run.invariant (P := fun _ _ => True) (Backed H) (fun _ a hb _ => hb.step a) h
    (Run.always_of_forall fun _ _ => trivial)

theorem mem_ledger_final {actions : List Action} {e : Entry}
    (he : e ∈ (Run.final (WithdrawRelay.step H) b actions).ledger) :
    e ∈ b.ledger ∨ Action.applied e ∈ actions := by
  induction actions generalizing b with
  | nil => exact .inl he
  | cons a actions ih =>
    rcases ih he with he | he
    · cases a with
      | applied entry =>
        rcases List.mem_cons.mp he with rfl | he
        · exact .inr List.mem_cons_self
        · exact .inl he
      | poll dryRun sends outcomes =>
        rw [WithdrawRelay.step, processWithdrawals_ledger] at he
        exact .inl he
      | restart => exact .inl he
    · exact .inr (List.mem_cons_of_mem a he)

/-! ### What is released is backed -/

/-- What the bridge issuer has received, in raw units. -/
def Bridge.received (b : Bridge W) : ℚ :=
  (b.ledger.dedup.map fun e => (e.delivered : ℚ) * 10 ^ decimals).sum

/-- What the lock has paid, in raw units. -/
def Bridge.released (b : Bridge W) : ℚ := (b.paid.map fun p => (p.2 : ℚ)).sum

/-- Bridge-out is backed: in every run in which the payments deliver what their `Amount` says, no more is
released than was received, each release stands for a payment on the ledger and each payment for at
most one release. -/
theorem bridge_out_backed (H : Setup W) (actions : List Action)
    (hfull : ∀ e, Action.applied e ∈ actions → InFull H e) :
    let b := Run.final (WithdrawRelay.step H) Bridge.empty actions
    b.released ≤ b.received ∧
      (∀ p ∈ b.paid, ∃ e ∈ b.ledger, ∃ c, candidateOf H e = some (some c) ∧
        p = (c.wid H, c.amountRaw)) ∧
      ∀ e ∈ b.ledger, ∀ c, candidateOf H e = some (some c) →
        (b.paid.filter fun p => p.1 = c.wid H).length ≤ 1 := by
  intro b
  have hb : Backed H b := Backed.empty.final actions
  have hstands : ∀ p ∈ b.paid, ∃ e ∈ b.ledger, ∃ c, candidateOf H e = some (some c) ∧
      p = (c.wid H, c.amountRaw) := by
    intro p hp
    obtain ⟨e, he, c, hcandidate, hwid, hraw⟩ := hb.stands p hp
    exact ⟨e, he, c, hcandidate, Prod.ext hwid.symm hraw.symm⟩
  refine ⟨?_, hstands, fun e he c _ => ?_⟩
  · have hbacked : ∀ p ∈ b.paid, ∃ e ∈ b.ledger.dedup, InFull H e ∧
        ∃ c, candidateOf H e = some (some c) ∧ p = (c.wid H, c.amountRaw) := by
      intro p hp
      obtain ⟨e, he, c, hc⟩ := hstands p hp
      have happlied := (mem_ledger_final he).resolve_left List.not_mem_nil
      exact ⟨e, List.mem_dedup.mpr he, hfull e happlied, c, hc⟩
    have hnonneg : ∀ e : Entry, (0 : ℚ) ≤ e.delivered * 10 ^ decimals := fun e =>
      mul_nonneg e.delivered.2 (by positivity)
    refine List.sum_le_of_backed hnonneg ?_ (hb.once.of_map.imp fun hne e hp hp' => hne ?_) hbacked
    · rintro p e ⟨hdelivers, c, hcandidate, rfl⟩
      obtain ⟨hresult, htype, hdestination, amount, hamount, hcurrency, hissuer, hraw⟩ :=
        candidateOf_spec hcandidate
      obtain ⟨v, hv, hle⟩ := hdelivers hresult htype hdestination amount hamount hcurrency hissuer
      calc (c.amountRaw : ℚ) ≤ v * 10 ^ decimals := amountToRaw_le hraw hv
        _ ≤ e.delivered * 10 ^ decimals := by gcongr
    · obtain ⟨-, c, hc, rfl⟩ := hp
      obtain ⟨-, c', hc', rfl⟩ := hp'
      obtain rfl := Option.some.inj (Option.some.inj (hc.symm.trans hc'))
      rfl
  · have hcount := List.nodup_iff_count_le_one.mp hb.once (c.wid H)
    rw [List.count, List.countP_map, List.countP_eq_length_filter] at hcount
    exact hcount

/-- A relay whose withdrawal ids are the texts themselves. -/
def Sample.setup : Setup String where
  issuer := "rIssuer"
  currency := "QUC"
  hexToUtf8 hex :=
    if hex = "7365706F6C69612D7769746864726177" then "sepolia-withdraw"
    else if hex = "307861626162616261626162616261626162616261626162616261626162616261626162616261626162" then
      "0xabababababababababababababababababababab"
    else ""
  strip := id
  lower := id
  sha256 := id

/-- A payment of 1000 that delivers what is given. -/
def Sample.payment (delivered : NNRat) : Entry where
  hash := "E1"
  validated := some true
  transactionResult := "tesSUCCESS"
  transactionType := "Payment"
  account := "rSender"
  destination := "rIssuer"
  amount := some ⟨"QUC", "rIssuer", ['1', '0', '0', '0']⟩
  memos := [⟨"7365706F6C69612D7769746864726177",
    "307861626162616261626162616261626162616261626162616261626162616261626162616261626162"⟩]
  ledgerIndex := 7
  delivered

def Sample.run (delivered : NNRat) : Bridge String :=
  Run.final (WithdrawRelay.step Sample.setup) Bridge.empty
    [.applied (Sample.payment delivered), .poll false (fun _ => true) [⟨true, true, true⟩]]

theorem bridge_out_backed_full : (Sample.run 1000).released ≤ (Sample.run 1000).received ∧
    (Sample.run 1000).released = 1000000000 := by
  refine ⟨(bridge_out_backed Sample.setup _ ?_).1, by decide +kernel⟩
  intro e he
  rcases List.mem_cons.mp he with heq | he
  · obtain rfl := Action.applied.inj heq
    intro _ _ _ amount hamount _ _
    obtain rfl := Option.some.inj hamount
    exact ⟨1000, by decide +kernel, le_refl _⟩
  · simp at he

theorem bridge_out_backed_partial : ¬(Sample.run 1).released ≤ (Sample.run 1).received := by
  decide +kernel

end FalconLedger.WithdrawRelay
