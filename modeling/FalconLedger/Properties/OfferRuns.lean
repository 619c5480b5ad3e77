import FalconLedger.Data.Run
import FalconLedger.Properties.OfferPlacement
import Mathlib.Data.Nat.Pairing

/-!
# Order books over runs

Over any run, each offer is listed once in the directory of its owner and once in each book it names.
The quality of these directories is that of the offer when it was created as long as no hybrid offer is
placed with amounts of another rate (`KeepsRate`).
-/

namespace FalconLedger.Dex

open Directory

variable {K : Keylets} {s s' : Books} {h : History} {e : Env} {tx : OfferCreate} {c : Crossing}

/-! ### A step -/

theorem Placed.use (h : Placed K s) (tx : OfferCreate) : Placed K (s.use tx) where
  owner := h.owner
  book := h.book
  books_nodup := h.books_nodup
  additional := h.additional
  keyed key o ho := ⟨(h.keyed key o ho).1, List.mem_cons_of_mem _ (h.keyed key o ho).2⟩
  others := h.others
  counted := h.counted

theorem applyGuts_spec {ter : TER} (h : Placed K s) (hK : K.Distinct)
    (hroom : Room s (c.effects.length + 1)) (hkeys : ∀ effect ∈ c.effects, NoOffer K effect)
    (hunused : (tx.account, tx.sequence) ∉ s.used) (hdomain : tx.hybrid = true → tx.domainID ≠ none)
    (hs : s.applyGuts K e tx c = some (ter, s')) (hter : ter.isTesSuccess = true) :
    ∃ t, Kept K s t ∧ (s' = t ∨ Leaves tx c ∧ ∃ r, roundToTick e tx = some r ∧
      ∃ o, PutOn K e tx c.placeOut c.placeIn r.uRate t s' o) := by
  obtain ⟨⟨result, sb⟩, hcancel, hs⟩ := Option.bind_eq_some_iff.mp hs
  have hsb : Kept K s sb ∧ Room sb (c.effects.length + 1) := by
    unfold Books.cancelFirst at hcancel
    split at hcancel
    · obtain ⟨hkept, hrooms⟩ := offerDelete_kept h hcancel
      exact ⟨hkept, hrooms _ hroom⟩
    · cases hcancel
      exact ⟨.refl h, hroom⟩
  dsimp only at hs
  split at hs
  · cases hs
    cases hter
  split at hs
  · cases hs
    exact ⟨s', hsb.1, .inl rfl⟩
  obtain ⟨r, hr, hs⟩ := Option.bind_eq_some_iff.mp hs
  split at hs
  · cases hs
    exact ⟨s', hsb.1, .inl rfl⟩
  cases hcross : sb.flowCross K e s c with
  | mk result' views =>
    obtain ⟨t, t'⟩ := views
    simp only [hcross] at hs
    cases hresult : result'.isTesSuccess with
    | false =>
      simp only [hresult, Bool.not_false, if_true] at hs
      cases hs
      rw [hresult] at hter
      cases hter
    | true =>
      simp only [hresult, Bool.not_true, Bool.false_eq_true, if_false] at hs
      obtain ⟨rfl, hkept, hroomt, -⟩ := flowCross_kept hsb.1.placed h hsb.2 hkeys hcross hresult
      have hused : (tx.account, tx.sequence) ∉ t.used := by rwa [hkept.used, hsb.1.used]
      refine ⟨t, hsb.1.trans hkept, ?_⟩
      rcases afterCrossing_spec hkept.placed hK hroomt hused hdomain hresult hs hter with
        hsame | ⟨hleaves, o, ho⟩
      · exact .inl hsame
      · exact .inr ⟨hleaves, r, hr, o, ho⟩

theorem domain_of_preflight (h : preflight tx = true) (hhybrid : tx.hybrid = true) :
    tx.domainID ≠ none := fun hnone => by
  simp [preflight, hhybrid, hnone] at h

theorem create_spec (h : Placed K s) (hK : K.Distinct) (hroom : Room s (c.effects.length + 1))
    (hkeys : ∀ effect ∈ c.effects, NoOffer K effect) :
    (s.create K e tx c).2 = s ∨ ∃ t, Kept K s t ∧ ((s.create K e tx c).2 = t.use tx ∨
      (tx.account, tx.sequence) ∉ s.used ∧ Leaves tx c ∧ ∃ r, roundToTick e tx = some r ∧
      ∃ t' o, PutOn K e tx c.placeOut c.placeIn r.uRate t t' o ∧
        (s.create K e tx c).2 = t'.use tx) := by
  unfold Books.create
  split_ifs with hused hpre
  · exact .inl rfl
  · exact .inl rfl
  have hpreflight : preflight tx = true := by simpa using hpre
  cases hguts : s.applyGuts K e tx c with
  | none => exact .inl rfl
  | some result =>
    obtain ⟨ter, view⟩ := result
    dsimp only
    generalize (if ter = .tecKilled then Books.removedOffers s view else []) = unfunded
    split_ifs with hter htec
    · obtain ⟨t, hkept, rfl | ⟨hleaves, r, hr, o, ho⟩⟩ :=
        applyGuts_spec h hK hroom hkeys hused (domain_of_preflight hpreflight) hguts hter
      · exact .inr ⟨view, hkept, .inl rfl⟩
      · exact .inr ⟨t, hkept, .inr ⟨hused, hleaves, r, hr, view, o, ho, rfl⟩⟩
    · split
      · rename_i s' hs'
        exact .inr ⟨s', removeUnfundedOffers_kept h hs', .inl rfl⟩
      · exact .inl rfl
    · exact .inl rfl

/-! ### Qualities -/

/-- Every book directory is described with its quality, and an offer is in directories of the quality it
was created with. -/
structure Priced (h : History) : Prop where
  exchange : ∀ dir, Described (fun info => info.exchangeRate = getQuality dir) (h.books.bookDirs dir)
  quality : ∀ key o, h.books.offers.lookup key = some o → ∀ b ∈ o.books, getQuality b.1 = h.rates key

/-- What the rest of the ledger sees to: keys of other objects are not those of offers, and no owner count
comes near the greatest there is. -/
def Legal (K : Keylets) (h : History) : Step → Prop
  | .create _ _ c => (∀ effect ∈ c.effects, NoOffer K effect) ∧ Room h.books (c.effects.length + 1)
  | .elsewhere effects _ => (∀ effect ∈ effects, NoOffer K effect) ∧ Room h.books effects.length

/-- A hybrid offer that is placed has the rate it had before it crossed. -/
def KeepsRate (_ : History) : Step → Prop
  | .create tx e c => tx.hybrid = true → Leaves tx c →
      getRate e.amounts c.placeIn c.placeOut = rate e tx
  | .elsewhere .. => True

theorem Priced.kept (hpriced : Priced h) (hkept : Kept K h.books s) : Priced ⟨s, h.rates⟩ where
  exchange := hkept.described _ hpriced.exchange
  quality key o ho b hb := by
    obtain ⟨o₀, ho₀, heq⟩ := hkept.offers key o ho
    exact hpriced.quality key o₀ ho₀ b (heq ▸ hb)

theorem Priced.put {r : Rounded} {o : Offer} {pays gets : Wire.STAmount} (hpriced : Priced ⟨s, h.rates⟩)
    (ho : PutOn K e tx pays gets r.uRate s s' o)
    (hrate : tx.hybrid = true → getRate e.amounts gets pays = r.uRate) :
    Priced ⟨s'.use tx, Function.update h.rates (K.offer tx.account tx.sequence) r.uRate⟩ := by
  have hquality : ∀ b ∈ o.books, getQuality b.1 = r.uRate := fun b hb => by
    rcases ho.qualities b hb with heq | ⟨hhybrid, heq⟩
    · exact heq
    · rw [heq, hrate hhybrid]
  refine ⟨ho.described _ hpriced.exchange fun b hb info hinfo => ?_, fun key o' ho' b hb => ?_⟩
  · rw [hinfo, hquality b hb]
  · change s'.offers.lookup key = some o' at ho'
    rw [ho.offers] at ho'
    change getQuality b.1 = Function.update h.rates (K.offer tx.account tx.sequence) r.uRate key
    by_cases hkey : key = K.offer tx.account tx.sequence
    · subst hkey
      rw [AList.lookup_insert, Option.some.injEq] at ho'
      rw [Function.update_self]
      exact hquality b (ho' ▸ hb)
    · rw [AList.lookup_insert_ne hkey] at ho'
      rw [Function.update_of_ne hkey]
      exact hpriced.quality key o' ho' b hb

theorem elsewhere_kept {effects : List Effect} (hplaced : Placed K s) (hroom : Room s effects.length)
    (hkeys : ∀ effect ∈ effects, NoOffer K effect) (fixDirectoryLimit : Bool) :
    Kept K s (elsewhere K fixDirectoryLimit s effects) := by
  unfold elsewhere
  cases heffects : s.applyEffects K fixDirectoryLimit effects with
  | none => exact .refl hplaced
  | some t => exact (applyEffects_kept (n := 0) hplaced hroom hkeys heffects).1

theorem step_placed (hK : K.Distinct) (hplaced : Placed K h.books) {a : Step} (hlegal : Legal K h a) :
    Placed K (step K h a).1.books := by
  cases a with
  | create tx e c =>
    change Placed K (h.books.create K e tx c).2
    rcases create_spec hplaced hK hlegal.2 hlegal.1 with
      hsame | ⟨t, hkept, huse | ⟨-, -, r, -, t', o, ho, huse⟩⟩
    · rwa [hsame]
    · rw [huse]
      exact hkept.placed.use tx
    · rw [huse]
      exact ho.placed
  | elsewhere effects fixDirectoryLimit =>
    exact (elsewhere_kept hplaced hlegal.2 hlegal.1 fixDirectoryLimit).placed

theorem step_priced (hK : K.Distinct) (hplaced : Placed K h.books) (hpriced : Priced h) {a : Step}
    (hlegal : Legal K h a) (hrate : KeepsRate h a) : Priced (step K h a).1 := by
  cases a with
  | create tx e c =>
    let key := K.offer tx.account tx.sequence
    have hstep : (step K h (.create tx e c)).1 = ⟨(h.books.create K e tx c).2,
        if ((h.books.create K e tx c).2.offers.lookup key).isSome &&
          (h.books.offers.lookup key).isNone then Function.update h.rates key (rate e tx)
        else h.rates⟩ := rfl
    rw [hstep]
    rcases create_spec hplaced hK hlegal.2 hlegal.1 with
      hsame | ⟨t, hkept, huse | ⟨hunused, hleaves, r, hr, t', o, ho, huse⟩⟩
    · rw [hsame]
      cases hlookup : h.books.offers.lookup key with
      | none => simpa [hlookup] using hpriced
      | some o => simpa [hlookup] using hpriced
    · rw [huse]
      have hnew : ((t.offers.lookup key).isSome && (h.books.offers.lookup key).isNone) = false := by
        cases ht : t.offers.lookup key with
        | none => rfl
        | some o =>
          obtain ⟨o₀, ho₀, -⟩ := hkept.offers key o ht
          rw [ho₀]
          rfl
      change Priced ⟨t.use tx, if ((t.offers.lookup key).isSome &&
        (h.books.offers.lookup key).isNone) = true then _ else _⟩
      rw [hnew, if_neg Bool.false_ne_true]
      exact ⟨(hpriced.kept hkept).exchange, (hpriced.kept hkept).quality⟩
    · have hrateOf : rate e tx = r.uRate := by rw [rate, hr, Option.elim_some]
      have hfresh := hplaced.fresh_offer hK hunused
      have hnew : ((t'.offers.lookup key).isSome && (h.books.offers.lookup key).isNone) = true := by
        rw [ho.offers, AList.lookup_insert, hfresh]
        rfl
      rw [huse]
      change Priced ⟨t'.use tx, if ((t'.offers.lookup key).isSome &&
        (h.books.offers.lookup key).isNone) = true then _ else _⟩
      rw [hnew, if_pos rfl, hrateOf]
      exact (hpriced.kept hkept).put (h := h) ho fun hhybrid => hrateOf ▸ hrate hhybrid hleaves
  | elsewhere effects fixDirectoryLimit =>
    exact hpriced.kept (elsewhere_kept hplaced hlegal.2 hlegal.1 fixDirectoryLimit)

/-! ### Runs -/

/-- Accounts that own nothing, and no offers. -/
def start (ids : List AccountID) : History where
  books :=
    { accounts := ids.foldr (fun id accounts => accounts.insert id 0) ∅
      offers := ∅
      ownerDirs := fun _ => ∅
      bookDirs := fun _ => ∅
      others := ∅
      used := [] }
  rates := fun _ => 0

theorem start_placed (K : Keylets) (ids : List AccountID) : Placed K (start ids).books where
  owner a := by
    have hnone : ownerAt (∅ : Table Key Offer) ∅ a = fun _ => none := by
      funext key
      rw [ownerAt, AList.lookup_empty, AList.lookup_empty]
      rfl
    change Holds (K.ownerDir a) ∅ (ownerAt ∅ ∅ a)
    rw [hnone]
    exact Holds.empty _
  book dir := by
    have hnone : bookAt (∅ : Table Key Offer) dir = fun _ => none := by
      funext key
      rw [bookAt, AList.lookup_empty, Option.bind_none]
    change Holds dir ∅ (bookAt ∅ dir)
    rw [hnone]
    exact Holds.empty _
  books_nodup key o ho := by cases (AList.lookup_empty key).symm.trans ho
  additional key o ho := by cases (AList.lookup_empty key).symm.trans ho
  keyed key o ho := by cases (AList.lookup_empty key).symm.trans ho
  others a key hsome := by
    change ((∅ : Table (AccountID × Key) (UInt64 × Bool)).lookup (a, key)).isSome at hsome
    rw [AList.lookup_empty] at hsome
    cases hsome
  counted := by
    have hzero : ∀ ids : List AccountID, Table.All (fun n : UInt32 => n = 0)
        (ids.foldr (fun id accounts => accounts.insert id 0) (∅ : Table AccountID UInt32)) := by
      intro ids
      induction ids with
      | nil => exact fun k v hv => by cases (AList.lookup_empty k).symm.trans hv
      | cons id rest ih => exact ih.insert rfl
    intro a n hn
    rw [hzero ids a n hn]
    rfl

theorem start_priced (ids : List AccountID) : Priced (start ids) where
  exchange _ := described_empty
  quality key o ho := by cases (AList.lookup_empty key).symm.trans ho

theorem placed_run (hK : K.Distinct) {h : History} {steps : List Step} (hplaced : Placed K h.books)
    (hlegal : Run.Always (step K) (Legal K) h steps) :
    Placed K (Run.final (step K) h steps).books :=
  Run.invariant (fun h => Placed K h.books) (fun _ _ hp hl => step_placed hK hp hl) hplaced hlegal

/-- **Offers are listed once, at the rate they were created with.** After any run in which no hybrid
offer is placed with amounts of another rate than it had before it crossed: each offer is once in the
directory of its owner and in each book directory it names, and in no other; the rate in these keys and
on their pages is that at its creation; no directory lists an offer that is not there; and the owner
counts are right. -/
theorem offers_listed_run (K : Keylets) (hK : K.Distinct) (ids : List AccountID) (steps : List Step)
    (hlegal : Run.Always (step K) (Legal K) (start ids) steps)
    (hrate : Run.Always (step K) KeepsRate (start ids) steps) :
    let h := Run.final (step K) (start ids) steps
    let s := h.books
    (∀ key o, s.offers.lookup key = some o →
      (∀ a, (contents (s.ownerDirs a)).count key = if o.account = a then 1 else 0) ∧
      (∀ dir, (contents (s.bookDirs dir)).count key =
        if dir ∈ o.books.map Prod.fst then 1 else 0) ∧
      o.books.length = (if o.hybrid then 2 else 1) ∧ (o.books.map Prod.fst).Nodup ∧
      ∀ b ∈ o.books, getQuality b.1 = h.rates key ∧
        ∀ page node, (s.bookDirs b.1).lookup page = some node →
          node.described.exchangeRate = h.rates key) ∧
    (∀ dir, ∀ key ∈ contents (s.bookDirs dir), key ∈ s.offers) ∧
    (∀ a, ∀ key ∈ contents (s.ownerDirs a), key ∈ s.offers ∨
      (a, key) ∈ s.others ∧ ∀ b q, key ≠ K.offer b q) ∧
    ∀ a n, s.accounts.lookup a = some n → (n.toNat : ℤ) = units s.offers s.others a := by
  intro h s
  have hplaced : Placed K s := placed_run hK (start_placed K ids) hlegal
  have hpriced : Priced h := (Run.invariant (fun h => Placed K h.books ∧ Priced h)
    (fun _ _ hp hl => ⟨step_placed hK hp.1 hl.1, step_priced hK hp.1 hp.2 hl.1 hl.2⟩)
    ⟨start_placed K ids, start_priced ids⟩ (Run.always_and hlegal hrate)).2
  refine ⟨fun key o ho => ⟨fun a => ?_, fun dir => ?_, ?_, hplaced.books_nodup key o ho,
    fun b hb => ⟨hpriced.quality key o ho b hb, fun page node hnode => ?_⟩⟩, fun dir key hkey => ?_,
    fun a key hkey => ?_, hplaced.counted⟩
  · rw [(hplaced.owner a).count, Placed.ownerAt_self ho]
    by_cases ha : o.account = a
    · rw [if_pos ha, if_pos ha, Option.isSome_some, if_pos rfl]
    · rw [if_neg ha, if_neg ha, Option.isSome_none, if_neg Bool.false_ne_true]
  · rw [(hplaced.book dir).count, Placed.bookAt_self ho]
    refine if_congr ?_ rfl rfl
    rw [List.lookup_isSome_iff, List.mem_map]
    exact exists_congr fun b => and_congr_right fun _ => beq_iff_eq.trans eq_comm
  · rw [Offer.books, List.length_cons, hplaced.additional key o ho]
    split_ifs <;> rfl
  · rw [← hpriced.quality key o ho b hb]
    exact hpriced.exchange b.1 page node hnode
  · rw [(hplaced.book dir).mem_contents, bookAt] at hkey
    rw [← AList.lookup_isSome]
    exact Option.isSome_of_isSome_bind hkey
  · rw [(hplaced.owner a).mem_contents, ownerAt] at hkey
    cases ho : s.offers.lookup key with
    | some o => exact .inl (AList.lookup_isSome.mp (by rw [ho]; rfl))
    | none =>
      rw [ho, Option.elim_none, Option.isSome_map] at hkey
      exact .inr ⟨AList.lookup_isSome.mp hkey, hplaced.others a key hkey⟩

/-! ### Samples -/

namespace Sample

def assetCode : Asset → ℕ
  | .xrp => 0
  | .issue currency account => Nat.pair currency.toNat account.toNat * 2 + 1
  | .mpt id => id.toNat * 2 + 2

def keylets : Keylets where
  offer account sequence := account.toNat * 2 ^ 32 + sequence.toNat
  ownerDir account := account.toNat
  book b := Nat.pair (Nat.pair (assetCode b.takerPays) (assetCode b.takerGets))
    (b.domain.elim 0 fun d => d.toNat + 1) * 2 ^ 64

theorem assetCode_inj {a b : Asset} (h : assetCode a = assetCode b) : a = b := by
  cases a <;> cases b <;> simp only [assetCode] at h
  case xrp.xrp => rfl
  case issue.issue currency account currency' account' =>
    have hpair : Nat.pair currency.toNat account.toNat = Nat.pair currency'.toNat account'.toNat := by
      omega
    obtain ⟨hcurrency, haccount⟩ := Nat.pair_eq_pair.mp hpair
    rw [BitVec.eq_of_toNat_eq hcurrency, BitVec.eq_of_toNat_eq haccount]
  case mpt.mpt id id' =>
    have heq : id.toNat = id'.toNat := by omega
    rw [BitVec.eq_of_toNat_eq heq]
  all_goals omega

theorem keylets_distinct : keylets.Distinct where
  offer a q a' q' h := by
    have hkey : a.toNat * 2 ^ 32 + q.toNat = a'.toNat * 2 ^ 32 + q'.toNat := h
    have hq : q.toNat < 2 ^ 32 := q.toNat_lt
    have hq' : q'.toNat < 2 ^ 32 := q'.toNat_lt
    have ha : a.toNat = a'.toNat := by omega
    have hseq : q.toNat = q'.toNat := by omega
    exact ⟨BitVec.eq_of_toNat_eq ha, UInt32.toNat_inj.mp hseq⟩
  book b b' h := by
    obtain ⟨pays, gets, domain⟩ := b
    obtain ⟨pays', gets', domain'⟩ := b'
    simp only [keylets, Nat.mul_div_left _ (by decide : 0 < 2 ^ 64)] at h
    obtain ⟨hassets, hdomain⟩ := Nat.pair_eq_pair.mp h
    obtain ⟨hpays, hgets⟩ := Nat.pair_eq_pair.mp hassets
    rw [assetCode_inj hpays, assetCode_inj hgets]
    cases domain <;> cases domain' <;>
      simp only [Option.elim_none, Option.elim_some, Nat.add_right_cancel_iff] at hdomain
    case none.none => rfl
    case some.some d d' => rw [BitVec.eq_of_toNat_eq hdomain]
    all_goals omega

def usd (value : ℕ) : Wire.STAmount := ⟨.issue 5 9, value * 10 ^ 15, -15, false⟩

def drops (value : ℕ) : Wire.STAmount := ⟨.xrp, value, 0, false⟩

def env : Env where
  amounts := ⟨false, ⟨.towardsZero, .small⟩⟩
  multiply _ _ _ := none
  divide _ _ _ := none
  tickSize _ := none
  parentCloseTime := 100
  fees := ⟨10, 2⟩
  preFeeBalance := 1000
  fixDirectoryLimit := true

def offer (account : AccountID) (takerPays takerGets : Wire.STAmount) (hybrid : Bool) : OfferCreate :=
  ⟨account, 7, takerPays, takerGets, none, none, some 3, false, false, false, false, hybrid⟩

def maker : Step := .create (offer 2 (drops 3) (usd 1) false) env ⟨.tesSuccess, [], [], usd 1, drops 3⟩

def hybrid : Step := .create (offer 1 (usd 3) (drops 10) true) env ⟨.tesSuccess, [], [], drops 10, usd 3⟩

/-- The same after it has crossed the offer of `maker`: 2 dollars are left to buy, for 6 2/3 drops, rounded
up. -/
def taker : Step := .create (offer 1 (usd 3) (drops 10) true) env
  ⟨.tesSuccess, [.delete (keylets.offer 2 7)], [], drops 7, usd 2⟩

end Sample

theorem room_of_entries {n : ℕ}
    (h : (s.accounts.entries.all fun e => decide (e.2.toNat + n < 2 ^ 32)) = true) : Room s n :=
  fun a m hm => of_decide_eq_true (List.all_eq_true.mp h ⟨a, m⟩ (AList.mem_lookup_iff.mp hm))

theorem offers_listed_run_hybrid :
    Run.Always (step Sample.keylets) KeepsRate (start [1, 2]) [Sample.hybrid] ∧
    ((Run.final (step Sample.keylets) (start [1, 2]) [Sample.hybrid]).books.offers.lookup
        (Sample.keylets.offer 1 7)).isSome = true ∧
    ∀ o, (Run.final (step Sample.keylets) (start [1, 2]) [Sample.hybrid]).books.offers.lookup
        (Sample.keylets.offer 1 7) = some o →
      ∀ b ∈ o.books, getQuality b.1 = (Run.final (step Sample.keylets) (start [1, 2])
        [Sample.hybrid]).rates (Sample.keylets.offer 1 7) := by
  have hrate : Run.Always (step Sample.keylets) KeepsRate (start [1, 2]) [Sample.hybrid] :=
    ⟨fun _ _ => by decide +kernel, trivial⟩
  have hlegal : Run.Always (step Sample.keylets) (Legal Sample.keylets) (start [1, 2])
      [Sample.hybrid] :=
    ⟨⟨List.forall_mem_nil _, room_of_entries (by decide +kernel)⟩, trivial⟩
  exact ⟨hrate, by decide +kernel, fun o ho b hb => (((offers_listed_run _ Sample.keylets_distinct _ _ hlegal hrate).1 _ o
    ho).2.2.2.2 b hb).1⟩

/-- A hybrid offer that has crossed is in the open book at another rate than in that of its domain, and
the directory there is described with the latter. -/
theorem offers_listed_run_drifted :
    Run.Always (step Sample.keylets) (Legal Sample.keylets) (start [1, 2])
      [Sample.maker, Sample.taker] ∧
    ((Run.final (step Sample.keylets) (start [1, 2]) [Sample.maker, Sample.taker]).books.offers.lookup
        (Sample.keylets.offer 1 7)).map (fun o => o.books.map fun b => getQuality b.1) =
      some [6055837899185946624, 6055695042043089481] ∧
    (Run.final (step Sample.keylets) (start [1, 2]) [Sample.maker, Sample.taker]).rates
        (Sample.keylets.offer 1 7) = 6055837899185946624 ∧
    ((Run.final (step Sample.keylets) (start [1, 2]) [Sample.maker, Sample.taker]).books.offers.lookup
        (Sample.keylets.offer 1 7)).map (fun o => o.books.map fun b =>
          (((Run.final (step Sample.keylets) (start [1, 2])
            [Sample.maker, Sample.taker]).books.bookDirs b.1).lookup 0).map
              fun node => node.described.exchangeRate) =
      some [some 6055837899185946624, some 6055837899185946624] := by
  refine ⟨⟨⟨List.forall_mem_nil _, room_of_entries (by decide +kernel)⟩,
    ⟨fun effect hmem => ?_, room_of_entries (by decide +kernel)⟩, trivial⟩, by decide +kernel,
    by decide +kernel, by decide +kernel⟩
  rw [List.mem_singleton.mp hmem]
  trivial

end FalconLedger.Dex
