import FalconLedger.Data.History
import FalconLedger.Properties.PublisherLists

/-!
# Lists that wait

A publisher's lists that are to come wait in the order of their sequence numbers. `Held` is what any
call keeps of them: a list that has been taken up is not newer than the current one, or a waiting
one is as new and takes effect no later. The clean-up goes through the waiting lists once, so that a
superseded one can be left; `Followed` says that none is, and then the dates increase.
-/

namespace FalconLedger

/-! ### The numbers of a list -/

namespace ListJson

def number (list : ListJson) : ℕ := (list.sequence.getD 0).toNat

/-- When it takes effect. -/
def start (list : ListJson) : ℕ := ((list.effective.getD (some 0)).getD 0).toNat

/-- None of the numbers is negative. -/
def Natural (list : ListJson) : Prop :=
  (∀ n, list.sequence = some n → 0 ≤ n) ∧ (∀ n, list.expiration = some n → 0 ≤ n) ∧
    ∀ n, list.effective = some (some n) → 0 ≤ n

end ListJson

namespace Remaining

variable {r : Remaining} {s : ℕ} {l : PublisherList} {e : ℕ × PublisherList}

/-- The waiting lists are in the order of their sequence numbers. -/
def Ordered (r : Remaining) : Prop := r.Pairwise fun e f => e.1 < f.1

/-- They take effect one after another. -/
def Dated (r : Remaining) : Prop := r.Pairwise fun e f => e.2.validFrom < f.2.validFrom

theorem mem_of_find (h : r.find s = some l) : (s, l) ∈ r := by
  obtain ⟨e, he, rfl⟩ := Option.map_eq_some_iff.mp h
  have hs := List.find?_some he
  rw [← of_decide_eq_true hs]
  exact List.mem_of_find?_eq_some he

theorem exists_find (h : e ∈ r) : ∃ l, r.find e.1 = some l := by
  cases hfind : r.find? fun f => f.1 = e.1 with
  | none => exact absurd (decide_eq_true rfl) (List.find?_eq_none.mp hfind e h)
  | some f => exact ⟨f.2, by rw [find, hfind, Option.map_some]⟩

theorem mem_erase : e ∈ r.erase s ↔ e ∈ r ∧ e.1 ≠ s := by
  rw [erase, List.mem_filter, decide_eq_true_iff]

theorem erase_eq_self (h : r.find s = none) : r = r.erase s := by
  symm
  rw [erase, List.filter_eq_self]
  intro e he
  rw [decide_eq_true_iff]
  rintro rfl
  obtain ⟨l, hl⟩ := exists_find he
  rw [h] at hl
  cases hl

theorem Ordered.erase (h : r.Ordered) (s : ℕ) : (r.erase s).Ordered := h.filter _

theorem mem_set : e ∈ r.set s l ↔ e = (s, l) ∨ e ∈ r ∧ e.1 ≠ s := by
  rw [set, List.mem_append, List.mem_cons, List.mem_filter, List.mem_filter, decide_eq_true_iff,
    decide_eq_true_iff, or_left_comm, ← and_or_left, ← ne_iff_lt_or_gt]

theorem Ordered.set (h : r.Ordered) (s : ℕ) (l : PublisherList) : (r.set s l).Ordered := by
  rw [Ordered, Remaining.set, List.pairwise_append]
  refine ⟨h.filter _, List.pairwise_cons.mpr ⟨fun f hf => ?_, h.filter _⟩, fun e he f hf => ?_⟩
  · exact of_decide_eq_true (List.mem_filter.mp hf).2
  · have hes : e.1 < s := of_decide_eq_true (List.mem_filter.mp he).2
    rcases List.mem_cons.mp hf with rfl | hf
    · exact hes
    · exact hes.trans (of_decide_eq_true (List.mem_filter.mp hf).2)

end Remaining

namespace ValidatorList

variable {P : ListCodec} {L L' : ValidatorList} {p k q : PublicKey} {c c' : PublisherListCollection}
  {A A' : ListJson → Prop} {t T : ℕ} {sequence : ℕ} {r : Remaining}

/-! ### The clean-up -/

/-- Each waiting list that a later one supersedes is directly followed by one that does. -/
def Followed (sequence : ℕ) (r : Remaining) : Prop :=
  ∀ e rest, e :: rest <:+ r → sequence < e.1 → (∃ f ∈ rest, f.2.validFrom ≤ e.2.validFrom) →
    rest.head?.any (fun next => next.2.validFrom ≤ e.2.validFrom)

theorem tidy_sublist (sequence : ℕ) (r : Remaining) : (tidy sequence r).Sublist r := by
  induction r with
  | nil => exact .refl _
  | cons e rest ih =>
    rw [tidy]
    split_ifs
    · exact ih.cons e
    · exact ih.cons_cons e

theorem lt_of_mem_tidy {e : ℕ × PublisherList} (h : e ∈ tidy sequence r) : sequence < e.1 := by
  induction r with
  | nil => cases h
  | cons f rest ih =>
    rw [tidy] at h
    split_ifs at h with hout
    · exact ih h
    · rcases List.mem_cons.mp h with rfl | h
      · exact not_le.mp fun hle => hout (.inl hle)
      · exact ih h

theorem covered_tidy (hordered : r.Ordered) {e : ℕ × PublisherList} (he : e ∈ r) :
    e.1 ≤ sequence ∨ ∃ f ∈ tidy sequence r, e.1 ≤ f.1 ∧ f.2.validFrom ≤ e.2.validFrom := by
  induction r generalizing e with
  | nil => cases he
  | cons g rest ih =>
    obtain ⟨hg, hrest⟩ := List.pairwise_cons.mp hordered
    rw [tidy]
    split_ifs with hout
    · rcases List.mem_cons.mp he with rfl | he
      · rcases hout with hle | hnext
        · exact .inl hle
        · obtain ⟨next, hhead, hdate⟩ := (Option.any_eq_true _ _).mp hnext
          have hmem : next ∈ rest := List.mem_of_head? hhead
          have hdate := of_decide_eq_true hdate
          rcases ih hrest hmem with hle | ⟨f, hf, hle, hdate'⟩
          · exact .inl ((hg next hmem).le.trans hle)
          · exact .inr ⟨f, hf, (hg next hmem).le.trans hle, hdate'.trans hdate⟩
      · exact ih hrest he
    · rcases List.mem_cons.mp he with rfl | he
      · exact .inr ⟨e, List.mem_cons_self, le_rfl, le_rfl⟩
      · exact (ih hrest he).imp_right fun ⟨f, hf, h⟩ => ⟨f, List.mem_cons_of_mem g hf, h⟩

theorem Followed.dated (h : Followed sequence r) : (tidy sequence r).Dated := by
  induction r with
  | nil => exact .nil
  | cons e rest ih =>
    have hrest := ih fun f rest' hsuffix => h f rest' (hsuffix.trans (List.suffix_cons e rest))
    rw [tidy]
    split_ifs with hout
    · exact hrest
    · refine List.pairwise_cons.mpr ⟨fun f hf => ?_, hrest⟩
      by_contra hdate
      have hlt : sequence < e.1 := not_le.mp fun hle => hout (.inl hle)
      exact hout (.inr (h e rest (List.suffix_refl _) hlt
        ⟨f, (tidy_sublist sequence rest).subset hf, not_lt.mp hdate⟩))

/-! ### What a call keeps -/

/-- A publisher's list is made of one that has been sent; its keys may have been taken away since. -/
structure Fits (P : ListCodec) (l : PublisherList) (list : ListJson) : Prop where
  sequence : l.sequence = list.number
  validFrom : l.validFrom = list.start
  keys : l.list = [] ∨ l.list = (keysOf P (list.validators.getD [])).insertionSort (· ≤ ·)

/-- What any call keeps of a publisher whose lists `A` have been taken up, at the times up to `T`. -/
structure Held (P : ListCodec) (A : ListJson → Prop) (T : ℕ) (c : PublisherListCollection) : Prop where
  ordered : c.remaining.Ordered
  waiting : ∀ e ∈ c.remaining, e.2.sequence = e.1 ∧ ∃ list, A list ∧ Fits P e.2 list
  current : c.current.sequence = 0 ∨
    c.current.validFrom ≤ T ∧ ∃ list, A list ∧ Fits P c.current list
  known : ∀ e ∈ c.remaining, e.1 ≤ c.maxSequence.getD 0
  last : ∀ m, c.maxSequence = some m → m ≤ c.current.sequence ∨ ∃ e ∈ c.remaining, e.1 = m
  positive : ∀ list, A list → 0 < list.number
  covered : ∀ list, A list → list.number ≤ c.current.sequence ∨
    ∃ e ∈ c.remaining, list.number ≤ e.1 ∧ e.2.validFrom ≤ list.start

/-- The lists of a publisher that are to come are newer than the current one, in order, and take effect in
this order; the last one that is known of is current or among them. -/
structure WaitingInOrder (c : PublisherListCollection) : Prop where
  ordered : c.remaining.Ordered
  newer : ∀ e ∈ c.remaining, c.current.sequence < e.1
  dated : c.remaining.Dated
  found : ∀ m, c.maxSequence = some m → c.current.sequence < m → ∃ l, c.remaining.find m = some l

theorem Held.mono (h : Held P A T c) (hT : T ≤ t) : Held P A t c :=
  { h with current := h.current.imp_right fun hc => ⟨hc.1.trans hT, hc.2⟩ }

theorem Held.congr (h : Held P A T c) (hA : ∀ list, A list ↔ A' list) : Held P A' T c := by
  obtain rfl : A = A' := funext fun list => propext (hA list)
  exact h

theorem Held.found (h : Held P A T c) {m : ℕ} (hm : c.maxSequence = some m)
    (hlt : c.current.sequence < m) : ∃ l, c.remaining.find m = some l := by
  rcases h.last m hm with hle | ⟨e, he, rfl⟩
  · omega
  · exact Remaining.exists_find he

theorem Held.removed (h : Held P A T c) (reason : PublisherStatus) :
    Held P A T (removed c reason) :=
  { h with current := h.current.imp_right fun ⟨hT, list, hlist, hfits⟩ =>
      ⟨hT, list, hlist, hfits.sequence, hfits.validFrom, .inl rfl⟩ }

theorem WaitingInOrder.removed (h : WaitingInOrder c) (reason : PublisherStatus) :
    WaitingInOrder (ValidatorList.removed c reason) :=
  ⟨h.ordered, h.newer, h.dated, h.found⟩

theorem Held.tidy (h : Held P A T c) :
    Held P A T { c with remaining := tidy c.current.sequence c.remaining } where
  ordered := h.ordered.sublist (tidy_sublist _ _)
  waiting e he := h.waiting e ((tidy_sublist _ _).subset he)
  current := h.current
  known e he := h.known e ((tidy_sublist _ _).subset he)
  positive := h.positive
  last := by
    intro m hm
    rcases h.last m hm with hle | ⟨e, he, rfl⟩
    · exact .inl hle
    · refine (covered_tidy h.ordered he).imp_right fun ⟨f, hf, hle, _⟩ => ⟨f, hf, ?_⟩
      have hknown := h.known f ((tidy_sublist _ _).subset hf)
      rw [hm, Option.getD_some] at hknown
      exact le_antisymm hknown hle
  covered := by
    intro list hlist
    rcases h.covered list hlist with hle | ⟨e, he, hle, hdate⟩
    · exact .inl hle
    · exact (covered_tidy h.ordered he).imp hle.trans
        fun ⟨f, hf, hle', hdate'⟩ => ⟨f, hf, hle.trans hle', hdate'.trans hdate⟩

theorem Held.inOrder_tidy (h : Held P A T c) (hfollowed : Followed c.current.sequence c.remaining) :
    WaitingInOrder { c with remaining := ValidatorList.tidy c.current.sequence c.remaining } where
  ordered := h.tidy.ordered
  newer _ he := lt_of_mem_tidy he
  dated := hfollowed.dated
  found _ hm hlt := h.tidy.found hm hlt

theorem followed_of_inOrder (h : WaitingInOrder c) : Followed c.current.sequence c.remaining := by
  rintro e rest hsuffix - ⟨f, hf, hdate⟩
  have hdated := (List.pairwise_cons.mp (h.dated.sublist hsuffix.sublist)).1 f hf
  exact absurd hdate (not_le.mpr hdated)

/-! ### A list that is taken up -/

variable {d : ListDisposition} {list : ListJson} {now : ℕ}

theorem toNat_of_asUInt {n : ℤ} {m : ℕ} (h : asUInt n = some m) : n.toNat = m := by
  rw [asUInt] at h
  split_ifs at h
  exact Option.some.inj h

theorem disposition_cases (h : disposition now c list = some d)
    (hd : d.rank ≤ ListDisposition.pending.rank) :
    c.current.sequence < list.number ∧
      (d = .pending ∧ (∀ m, c.maxSequence = some m → m < list.number ∨
          c.remaining.find list.number = none) ∨
        (d = .accepted ∨ d = .expired) ∧ list.start ≤ now) := by
  rw [disposition] at h
  split at h
  case h_2 => cases h; exact absurd hd (by decide)
  case h_1 sequence expiration effective validators hsequence hexpiration heffective hvalidators =>
    obtain ⟨n, hn, h⟩ := Option.bind_eq_some_iff.mp h
    obtain ⟨validFrom, hfrom, h⟩ := Option.bind_eq_some_iff.mp h
    obtain ⟨validUntil, huntil, h⟩ := Option.bind_eq_some_iff.mp h
    have hnumber : list.number = n := by
      rw [ListJson.number, hsequence, Option.getD_some, toNat_of_asUInt hn]
    have hstart : list.start = validFrom := by
      rw [ListJson.start, heffective, Option.getD_some, toNat_of_asUInt hfrom]
    rw [hnumber, hstart]
    by_cases hinvalid : validUntil ≤ validFrom
    · rw [if_pos hinvalid] at h
      cases h
      exact absurd hd (by decide)
    rw [if_neg hinvalid] at h
    by_cases hstale : n < c.current.sequence
    · rw [if_pos hstale] at h
      cases h
      exact absurd hd (by decide)
    rw [if_neg hstale] at h
    by_cases hsame : n = c.current.sequence
    · rw [if_pos hsame] at h
      cases h
      exact absurd hd (by decide)
    rw [if_neg hsame] at h
    refine ⟨by omega, ?_⟩
    by_cases hexpired : validUntil ≤ now
    · rw [if_pos hexpired] at h
      cases h
      exact .inr ⟨.inr rfl, by omega⟩
    rw [if_neg hexpired] at h
    by_cases hpending : now < validFrom
    · rw [if_pos hpending] at h
      left
      cases hmax : c.maxSequence with
      | none =>
        rw [hmax] at h
        cases h
        exact ⟨rfl, fun m hm => by cases hm⟩
      | some maxSequence =>
        rw [hmax] at h
        dsimp only at h
        split_ifs at h with hlater hknown
        · cases h
          exact ⟨rfl, fun m hm => .inl (by rwa [← Option.some.inj hm])⟩
        · cases h
          exact absurd hd (by decide)
        · obtain ⟨last, -, h⟩ := Option.bind_eq_some_iff.mp h
          split_ifs at h
          · cases h
            exact ⟨rfl, fun _ _ => .inr (Option.not_isSome_iff_eq_none.mp hknown)⟩
          · cases h
            exact absurd hd (by decide)
    · rw [if_neg hpending] at h
      cases h
      exact .inr ⟨.inl rfl, by omega⟩

theorem asUInt_of_nonneg {n : ℤ} (h : 0 ≤ n) : asUInt n = some n.toNat := by
  rw [asUInt, if_pos h]

theorem disposition_ne_none (hnatural : list.Natural)
    (hfound : ∀ m, c.maxSequence = some m → c.current.sequence < m → ∃ l, c.remaining.find m = some l) :
    disposition now c list ≠ none := by
  rw [disposition]
  split
  case h_2 => exact Option.some_ne_none _
  case h_1 sequence expiration effective validators hsequence hexpiration heffective hvalidators =>
    have heffective' : 0 ≤ effective := by
      cases h : list.effective with
      | none =>
        rw [h] at heffective
        exact (Option.some.inj heffective).le
      | some e =>
        rw [h, Option.getD_some] at heffective
        exact hnatural.2.2 effective (by rw [h, heffective])
    simp only [asUInt_of_nonneg (hnatural.1 _ hsequence), asUInt_of_nonneg heffective',
      asUInt_of_nonneg (hnatural.2.1 _ hexpiration), Option.bind_eq_bind, Option.bind_some]
    by_cases hold : sequence.toNat ≤ c.current.sequence
    · have hsame : ¬sequence.toNat < c.current.sequence → sequence.toNat = c.current.sequence := by omega
      split_ifs with _ hstale h
      · exact Option.some_ne_none _
      · exact Option.some_ne_none _
      · exact Option.some_ne_none _
      all_goals exact absurd (hsame hstale) h
    · rw [if_neg (by omega : ¬sequence.toNat < _), if_neg (by omega : ¬sequence.toNat = _)]
      cases hmax : c.maxSequence with
      | none => split_ifs <;> exact Option.some_ne_none _
      | some maxSequence =>
        dsimp only
        by_cases hlater : maxSequence < sequence.toNat
        · simp only [if_pos hlater]
          split_ifs <;> exact Option.some_ne_none _
        · obtain ⟨l, hl⟩ := hfound maxSequence hmax (by omega)
          simp only [hl, Option.bind_some]
          split_ifs <;> exact Option.some_ne_none _

theorem fits_publisherListOf (old : PublisherList) :
    Fits P (publisherListOf P old list.number list) list :=
  ⟨rfl, rfl, .inr rfl⟩

variable {status : PublisherStatus}

theorem Held.wait (h : Held P A T c) (hnew : c.current.sequence < list.number)
    (hfind : c.remaining.find list.number = none) {l : PublisherList} (hl : Fits P l list) :
    Held P (fun x => A x ∨ x = list) T
      ⟨status, c.current, c.remaining.set list.number l,
        some (max (c.maxSequence.getD 0) list.number)⟩ where
  ordered := h.ordered.set _ _
  waiting e he := by
    rcases Remaining.mem_set.mp he with rfl | ⟨he, -⟩
    · exact ⟨hl.sequence, list, .inr rfl, hl⟩
    · obtain ⟨hs, x, hx, hfits⟩ := h.waiting e he
      exact ⟨hs, x, .inl hx, hfits⟩
  current := h.current.imp_right fun ⟨hT, x, hx, hfits⟩ => ⟨hT, x, .inl hx, hfits⟩
  known e he := by
    rw [Option.getD_some]
    rcases Remaining.mem_set.mp he with rfl | ⟨he, -⟩
    · exact le_max_right _ _
    · exact (h.known e he).trans (le_max_left _ _)
  last m hm := by
    obtain rfl := Option.some.inj hm
    right
    rcases le_total (c.maxSequence.getD 0) list.number with hle | hle
    · exact ⟨_, Remaining.mem_set.mpr (.inl rfl), (max_eq_right hle).symm⟩
    · rw [max_eq_left hle]
      cases hmax : c.maxSequence with
      | none =>
        rw [hmax, Option.getD_none] at hle
        omega
      | some m =>
        rw [hmax, Option.getD_some] at hle
        rw [Option.getD_some]
        rcases h.last m hmax with hold | ⟨e, he, rfl⟩
        · omega
        · refine ⟨e, Remaining.mem_set.mpr (.inr ⟨he, fun heq => ?_⟩), rfl⟩
          obtain ⟨l', hl'⟩ := Remaining.exists_find he
          rw [heq, hfind] at hl'
          cases hl'
  positive x hx := by
    rcases hx with hx | rfl
    · exact h.positive x hx
    · omega
  covered x hx := by
    rcases hx with hx | rfl
    · refine (h.covered x hx).imp_right fun ⟨e, he, hle, hdate⟩ => ⟨e, ?_, hle, hdate⟩
      refine Remaining.mem_set.mpr (.inr ⟨he, fun heq => ?_⟩)
      obtain ⟨l', hl'⟩ := Remaining.exists_find he
      rw [heq, hfind] at hl'
      cases hl'
    · exact .inr ⟨_, Remaining.mem_set.mpr (.inl rfl), le_rfl, hl.validFrom.le⟩

theorem Held.goLive (h : Held P A T c) (hnew : c.current.sequence < list.number)
    {l : PublisherList} (hsequence : l.sequence = list.number) (hT : l.validFrom ≤ T)
    (hl : ∃ x, (A x ∨ x = list) ∧ Fits P l x) {r : Remaining} (hr : r = c.remaining.erase list.number) :
    Held P (fun x => A x ∨ x = list) T
      ⟨status, l, r, some (max (c.maxSequence.getD 0) list.number)⟩ where
  ordered := by
    rw [hr]
    exact h.ordered.erase _
  waiting e he := by
    rw [hr] at he
    obtain ⟨hs, x, hx, hfits⟩ := h.waiting e (Remaining.mem_erase.mp he).1
    exact ⟨hs, x, .inl hx, hfits⟩
  current := .inr ⟨hT, hl⟩
  known e he := by
    rw [hr] at he
    exact (h.known e (Remaining.mem_erase.mp he).1).trans (le_max_left _ _)
  last m hm := by
    obtain rfl := Option.some.inj hm
    rw [hsequence, hr]
    rcases le_or_gt (c.maxSequence.getD 0) list.number with hle | hlt
    · exact .inl (max_eq_right hle).le
    · rw [max_eq_left hlt.le]
      cases hmax : c.maxSequence with
      | none =>
        rw [hmax, Option.getD_none] at hlt
        omega
      | some m =>
        rw [hmax, Option.getD_some] at hlt
        rw [Option.getD_some]
        rcases h.last m hmax with hold | ⟨e, he, rfl⟩
        · omega
        · exact .inr ⟨e, Remaining.mem_erase.mpr ⟨he, hlt.ne'⟩, rfl⟩
  positive x hx := by
    rcases hx with hx | rfl
    · exact h.positive x hx
    · omega
  covered x hx := by
    rw [hsequence, hr]
    rcases hx with hx | rfl
    · rcases h.covered x hx with hle | ⟨e, he, hle, hdate⟩
      · exact .inl (hle.trans hnew.le)
      · by_cases heq : e.1 = list.number
        · exact .inl (heq ▸ hle)
        · exact .inr ⟨e, Remaining.mem_erase.mpr ⟨he, heq⟩, hle, hdate⟩
    · exact .inl le_rfl

theorem Held.collect (h : Held P A T c) (hT : T ≤ now)
    (hdisposition : disposition now c list = some d) (hd : d.rank ≤ ListDisposition.pending.rank)
    (hwaiting : list.start ≤ now → ∀ l, c.remaining.find list.number = some l → l.validFrom ≤ now) :
    Held P (fun x => A x ∨ x = list) now (collect P c d list).1 := by
  obtain ⟨hnew, hcase⟩ := disposition_cases hdisposition hd
  rw [ValidatorList.collect]
  dsimp only
  rcases hcase with ⟨rfl, hfresh⟩ | ⟨hlive, hstart⟩
  · have hfind : c.remaining.find list.number = none := by
      rw [Option.eq_none_iff_forall_ne_some]
      intro l hl
      have hknown := (h.known _ (Remaining.mem_of_find hl))
      cases hmax : c.maxSequence with
      | none =>
        rw [hmax, Option.getD_none] at hknown
        omega
      | some m =>
        rw [hmax, Option.getD_some] at hknown
        rcases hfresh m hmax with hlt | hnone
        · exact absurd hlt (not_lt.mpr hknown)
        · rw [hl] at hnone
          cases hnone
    rw [if_neg (by decide)]
    exact (h.mono hT).wait hnew hfind (fits_publisherListOf _)
  · rw [if_pos hlive]
    split
    case h_1 l hl =>
      obtain ⟨hs, x, hx, hfits⟩ := h.waiting _ (Remaining.mem_of_find hl)
      exact (h.mono hT).goLive hnew hs (hwaiting hstart l hl) ⟨x, .inl hx, hfits⟩ rfl
    case h_2 hnone =>
      exact (h.mono hT).goLive hnew rfl hstart ⟨list, .inr rfl, fits_publisherListOf _⟩
        (Remaining.erase_eq_self hnone)

/-! ### A trust update -/

/-- No waiting list has taken effect by `t`. -/
def Settled (t : ℕ) (c : PublisherListCollection) : Prop := ∀ e ∈ c.remaining, t < e.2.validFrom

theorem settled_dropWhile (h : r.Dated) {e : ℕ × PublisherList}
    (he : e ∈ r.dropWhile fun e => e.2.validFrom ≤ t) : t < e.2.validFrom := by
  induction r with
  | nil => cases he
  | cons f rest ih =>
    obtain ⟨hf, hrest⟩ := List.pairwise_cons.mp h
    rw [List.dropWhile_cons] at he
    by_cases hdue : f.2.validFrom ≤ t
    · rw [if_pos (decide_eq_true hdue)] at he
      exact ih hrest he
    · rw [if_neg (by simpa using hdue)] at he
      rcases List.mem_cons.mp he with rfl | he
      · exact not_le.mp hdue
      · exact (not_le.mp hdue).trans (hf e he)

theorem Held.rotate (h : Held P A T c) (horder : WaitingInOrder c) {e : ℕ × PublisherList}
    (he : (c.remaining.takeWhile fun e => e.2.validFrom ≤ t).getLast? = some e) :
    Held P A t (rotated t c e.2) ∧ WaitingInOrder (rotated t c e.2) ∧ Settled t (rotated t c e.2) := by
  have hmem := mem_of_due he
  have hdue : e.2.validFrom ≤ t :=
    of_decide_eq_true (List.all_eq_true.mp List.all_takeWhile e (List.mem_of_getLast? he))
  obtain ⟨hs, x, hx, hfits⟩ := h.waiting e hmem
  have hsequence : (rotated t c e.2).current.sequence = e.1 := by
    rw [rotated]
    dsimp only
    split_ifs <;> exact hs
  have hsub : (rotated t c e.2).remaining.Sublist c.remaining := List.dropWhile_sublist _
  obtain ⟨due, hsplit⟩ := List.getLast?_eq_some_iff.mp he
  have hall : c.remaining = due ++ e :: (rotated t c e.2).remaining := by
    conv_lhs => rw [← List.takeWhile_append_dropWhile (p := fun e => e.2.validFrom ≤ t) (l := c.remaining)]
    rw [hsplit, List.append_assoc]
    rfl
  have hordered := h.ordered
  rw [Remaining.Ordered, hall, List.pairwise_append] at hordered
  have hcases : ∀ f ∈ c.remaining, f.1 ≤ e.1 ∨ f ∈ (rotated t c e.2).remaining := by
    intro f hf
    rw [hall] at hf
    rcases List.mem_append.mp hf with hf | hf
    · exact .inl (hordered.2.2 f hf e List.mem_cons_self).le
    · rcases List.mem_cons.mp hf with rfl | hf
      · exact .inl le_rfl
      · exact .inr hf
  have hheld : Held P A t (rotated t c e.2) := by
    refine ⟨h.ordered.sublist hsub, fun f hf => h.waiting f (hsub.subset hf), .inr ?_,
      fun f hf => h.known f (hsub.subset hf), fun m hm => ?_, h.positive, fun list hlist => ?_⟩
    · rw [rotated]
      dsimp only
      split_ifs
      · exact ⟨hdue, x, hx, hfits.sequence, hfits.validFrom, .inl rfl⟩
      · exact ⟨hdue, x, hx, hfits⟩
    · rw [hsequence]
      rcases h.last m hm with hle | ⟨f, hf, rfl⟩
      · exact .inl (hle.trans (horder.newer e hmem).le)
      · exact (hcases f hf).imp_right fun hf => ⟨f, hf, rfl⟩
    · rw [hsequence]
      rcases h.covered list hlist with hle | ⟨f, hf, hle, hdate⟩
      · exact .inl (hle.trans (horder.newer e hmem).le)
      · exact (hcases f hf).imp hle.trans fun hf => ⟨f, hf, hle, hdate⟩
  refine ⟨hheld, ⟨hheld.ordered, fun f hf => ?_, horder.dated.sublist hsub, fun m => hheld.found⟩,
    fun f hf => settled_dropWhile horder.dated hf⟩
  rw [hsequence]
  exact (List.pairwise_cons.mp hordered.2.1).1 f hf

theorem refresh_self (hp : L.publisherLists.lookup p = some c) (h : Held P A T c)
    (horder : WaitingInOrder c) (hT : T ≤ t) :
    ∃ c', (refresh P t L p).publisherLists.lookup p = some c' ∧
      Held P A t c' ∧ WaitingInOrder c' ∧ Settled t c' := by
  have hrotate : ∃ c', (rotate P t p L c).publisherLists.lookup p = some c' ∧
      Held P A t c' ∧ WaitingInOrder c' ∧ Settled t c' := by
    rcases rotate_cases (P := P) t hp with ⟨heq, hnone⟩ | ⟨e, he, hmoves⟩
    · rw [heq]
      refine ⟨c, hp, h.mono hT, horder, fun e he => settled_dropWhile horder.dated ?_⟩
      have hsplit := List.takeWhile_append_dropWhile (p := fun e => e.2.validFrom ≤ t) (l := c.remaining)
      rw [hnone, List.nil_append] at hsplit
      rwa [hsplit]
    · exact ⟨_, hmoves.after, h.rotate horder he⟩
  obtain ⟨c₁, hp₁, hheld, horder₁, hsettled⟩ := hrotate
  rw [refresh, hp]
  dsimp only
  rcases expire_cases t hp₁ with ⟨heq, -⟩ | ⟨-, hmoves⟩
  · rw [heq]
    exact ⟨c₁, hp₁, hheld, horder₁, hsettled⟩
  · exact ⟨_, hmoves.after, hheld.removed _, horder₁.removed _, hsettled⟩

theorem Moves.lookup_ne {x : PublicKey} (h : Moves p c c' L L') (hx : x ≠ p) :
    L'.publisherLists.lookup x = L.publisherLists.lookup x := by
  rw [h.lists, AList.lookup_insert_ne hx]

theorem refresh_other {x : PublicKey} (hx : x ≠ p) :
    (refresh P t L p).publisherLists.lookup x = L.publisherLists.lookup x := by
  rw [refresh]
  cases hp : L.publisherLists.lookup p with
  | none => rfl
  | some c =>
    dsimp only
    have hrotate : (rotate P t p L c).publisherLists.lookup x = L.publisherLists.lookup x ∧
        ∃ c', (rotate P t p L c).publisherLists.lookup p = some c' := by
      rcases rotate_cases (P := P) t hp with ⟨heq, -⟩ | ⟨e, -, hmoves⟩
      · rw [heq]
        exact ⟨rfl, c, hp⟩
      · exact ⟨hmoves.lookup_ne hx, _, hmoves.after⟩
    obtain ⟨hlookup, c', hp'⟩ := hrotate
    rcases expire_cases t hp' with ⟨heq, -⟩ | ⟨-, hmoves⟩
    · rw [heq, hlookup]
    · rw [hmoves.lookup_ne hx, hlookup]

theorem foldl_refresh (keys : List PublicKey) (hp : L.publisherLists.lookup p = some c)
    (h : Held P A t c) (horder : WaitingInOrder c) (hsettled : Settled t c ∨ p ∈ keys) :
    ∃ c', (keys.foldl (refresh P t) L).publisherLists.lookup p = some c' ∧
      Held P A t c' ∧ WaitingInOrder c' ∧ Settled t c' := by
  induction keys generalizing L c with
  | nil =>
    exact ⟨c, hp, h, horder, hsettled.resolve_right List.not_mem_nil⟩
  | cons k keys ih =>
    by_cases hk : p = k
    · subst hk
      obtain ⟨c', hp', h', horder', hsettled'⟩ := refresh_self hp h horder le_rfl
      exact ih hp' h' horder' (.inl hsettled')
    · refine ih (hp ▸ refresh_other hk) h horder (hsettled.imp_right fun hmem => ?_)
      exact (List.mem_cons.mp hmem).resolve_left hk

theorem foldl_refresh_other (keys : List PublicKey) (hp : p ∉ keys) :
    (keys.foldl (refresh P t) L).publisherLists.lookup p = L.publisherLists.lookup p := by
  induction keys generalizing L with
  | nil => rfl
  | cons k keys ih =>
    obtain ⟨hk, hkeys⟩ := not_or.mp (List.mem_cons.not.mp hp)
    rw [List.foldl_cons, ih hkeys, refresh_other hk]

theorem refreshAll_spec (h : ∀ c, L.publisherLists.lookup p = some c → Held P A T c ∧ WaitingInOrder c)
    (hT : T ≤ t) (hp : (refreshAll P t L).publisherLists.lookup p = some c') :
    Held P A t c' ∧ WaitingInOrder c' ∧ Settled t c' := by
  rw [refreshAll] at hp
  by_cases hkey : p ∈ L.publisherLists.keys
  · obtain ⟨c, hc⟩ := Option.isSome_iff_exists.mp (AList.lookup_isSome.mpr (AList.mem_keys.mpr hkey))
    obtain ⟨hheld, horder⟩ := h c hc
    obtain ⟨c₁, hp₁, hspec⟩ := foldl_refresh _ hc (hheld.mono hT) horder (.inr hkey)
    rw [hp₁] at hp
    rwa [← Option.some.inj hp]
  · rw [foldl_refresh_other _ hkey, AList.lookup_eq_none.mpr hkey] at hp
    cases hp

/-- The current list is the newest of those that have been taken up and have taken effect. -/
def Newest (P : ListCodec) (A : ListJson → Prop) (t : ℕ) (c : PublisherListCollection) : Prop :=
  (∀ list, A list → list.start ≤ t → list.number ≤ c.current.sequence) ∧
    ((∃ list, A list ∧ list.start ≤ t) → ∃ list, A list ∧ list.start ≤ t ∧ Fits P c.current list)

theorem Held.newest (h : Held P A t c) (hsettled : Settled t c) : Newest P A t c := by
  have hle : ∀ list, A list → list.start ≤ t → list.number ≤ c.current.sequence := by
    intro list hlist hstart
    rcases h.covered list hlist with hle | ⟨e, he, -, hdate⟩
    · exact hle
    · have hlt := hsettled e he
      omega
  refine ⟨hle, fun ⟨list, hlist, hstart⟩ => ?_⟩
  rcases h.current with hzero | ⟨ht, x, hx, hfits⟩
  · have hpos := h.positive list hlist
    have hnumber := hle list hlist hstart
    omega
  · exact ⟨x, hx, hfits.validFrom ▸ ht, hfits⟩

end ValidatorList

end FalconLedger
