import FalconLedger.Properties.OfferDirectories

/-!
# Placing an offer

What is left of an offer goes into the directory of its owner and into its books, once each
(`PutOn`). The directory in the book of the offer has the quality taken before the offer crossed; the
one in the open book of a hybrid offer has that of the amounts left, while both are described with the
former.
-/

namespace FalconLedger.Dex

open Directory

variable {K : Keylets} {s s' t : Books} {key : Key} {o : Offer} {a : AccountID}
  {e : Env} {tx : OfferCreate} {pays gets : Wire.STAmount} {uRate : UInt64} {ter : TER}

/-- No two keys of offers, and no two of books above the quality, are the same. -/
structure Keylets.Distinct (K : Keylets) : Prop where
  offer : ∀ a q a' q', K.offer a q = K.offer a' q' → a = a' ∧ q = q'
  book : ∀ b b', K.book b / 2 ^ 64 = K.book b' / 2 ^ 64 → b = b'

theorem quality_div (k : Key) (q : UInt64) : quality k q / 2 ^ 64 = k / 2 ^ 64 := by
  have hlt : q.toNat < 2 ^ 64 := q.toNat_lt
  rw [quality, add_comm, Nat.add_mul_div_right _ _ (by decide), Nat.div_eq_of_lt hlt, zero_add]

@[simp] theorem getQuality_quality (k : Key) (q : UInt64) : getQuality (quality k q) = q := by
  have hlt : q.toNat < 2 ^ 64 := q.toNat_lt
  have hmod : quality k q % 2 ^ 64 = q.toNat := by
    unfold quality
    omega
  rw [getQuality, hmod, UInt64.ofNat_toNat]

theorem Keylets.Distinct.quality_ne (h : K.Distinct) {b b' : Book} (hne : b ≠ b') (q q' : UInt64) :
    quality (K.book b) q ≠ quality (K.book b') q' := fun heq => by
  have hdiv := congrArg (· / 2 ^ 64) heq
  simp only [quality_div] at hdiv
  exact hne (h.book b b' hdiv)

/-! ### Putting an entry into books -/

theorem bookAppend_spec {g : Key → Key → Option UInt64} {l : List (Key × UInt64)} {dir : Key}
    (fixDirectoryLimit : Bool)
    (h : ∀ d, Holds d (s.bookDirs d) (Function.update (g d) key (l.lookup d)))
    (hdir : l.lookup dir = none) (info : BookInfo) :
    s.bookAppend fixDirectoryLimit dir key info = some none ∨
      ∃ page pages, s.bookAppend fixDirectoryLimit dir key info =
          some (some (page, s.setBookDir dir pages)) ∧
        (∀ d, Holds d ((s.setBookDir dir pages).bookDirs d)
          (Function.update (g d) key ((l ++ [(dir, page)]).lookup d))) ∧
        ∀ P : Key → BookInfo → Prop, (∀ d, Described (P d) (s.bookDirs d)) → P dir info →
          ∀ d, Described (P d) ((s.setBookDir dir pages).bookDirs d) := by
  have hfree : Function.update (g dir) key (l.lookup dir) key = none := by
    rw [Function.update_self, hdir]
  rcases (h dir).dirAdd hfree true info fixDirectoryLimit with hfull | ⟨page, pages, hpages, hholds⟩
  · refine .inl ?_
    rw [Books.bookAppend, dirAppend, hfull]
    rfl
  refine .inr ⟨page, pages, ?_, fun d => ?_, fun P hP hinfo d => ?_⟩
  · rw [Books.bookAppend, dirAppend, hpages]
    rfl
  · by_cases hd : d = dir
    · subst hd
      rw [Function.update_idem] at hholds
      rw [setBookDir_bookDirs, Function.update_self, List.lookup_append, hdir, Option.none_or,
        List.lookup_cons_self]
      exact hholds
    · have hsingle : [(dir, page)].lookup d = none := by
        rw [List.lookup_cons, beq_eq_false_iff_ne.mpr hd, List.lookup_nil]
      rw [setBookDir_bookDirs, Function.update_of_ne hd, List.lookup_append, hsingle, Option.or_none]
      exact h d
  · by_cases hd : d = dir
    · subst hd
      rw [setBookDir_bookDirs, Function.update_self]
      exact dirAdd_described (hP d) hinfo hpages
    · rw [setBookDir_bookDirs, Function.update_of_ne hd]
      exact hP d

/-- An offer joins the others once the directories list it and its owner has one more unit. -/
theorem Placed.insert_offer (h : Placed K s) (tx : OfferCreate) (hfresh : s.offers.lookup key = none)
    (hoffers : t.offers = s.offers) (hothers : t.others = s.others) (hused : t.used = s.used)
    (howner : ∀ a, Holds (K.ownerDir a) (t.ownerDirs a)
      (Function.update (ownerAt s.offers s.others a) key
        (if o.account = a then some o.ownerNode else none)))
    (hbook : ∀ d, Holds d (t.bookDirs d) (Function.update (bookAt s.offers d) key (o.books.lookup d)))
    (hcounts : Counts t fun a => units s.offers s.others a + if o.account = a then 1 else 0)
    (hnodup : (o.books.map Prod.fst).Nodup)
    (hadditional : o.additionalBooks.length = if o.hybrid then 1 else 0)
    (hkey : key = K.offer o.account o.sequence) (haccount : o.account = tx.account)
    (hsequence : o.sequence = tx.sequence) :
    Placed K (Books.use { t with offers := t.offers.insert key o } tx) := by
  have hlookup : ∀ k o', (s.offers.insert key o).lookup k = some o' →
      k = key ∧ o' = o ∨ s.offers.lookup k = some o' := by
    intro k o' hk
    by_cases heq : k = key
    · rw [heq, AList.lookup_insert, Option.some.injEq] at hk
      exact .inl ⟨heq, hk.symm⟩
    · rw [AList.lookup_insert_ne heq] at hk
      exact .inr hk
  rw [hoffers]
  refine ⟨fun a => ?_, fun d => ?_, fun k o' hk => ?_, fun k o' hk => ?_, fun k o' hk => ?_, ?_, ?_⟩
  · simp only [Books.use, hothers, ownerAt_insert]
    exact howner a
  · simp only [Books.use, bookAt_insert]
    exact hbook d
  · rcases hlookup k o' hk with ⟨-, rfl⟩ | hold
    · exact hnodup
    · exact h.books_nodup k o' hold
  · rcases hlookup k o' hk with ⟨-, rfl⟩ | hold
    · exact hadditional
    · exact h.additional k o' hold
  · simp only [Books.use, hused]
    rcases hlookup k o' hk with ⟨rfl, rfl⟩ | hold
    · refine ⟨hkey, ?_⟩
      rw [haccount, hsequence]
      exact List.mem_cons_self
    · obtain ⟨hold, hmem⟩ := h.keyed k o' hold
      exact ⟨hold, List.mem_cons_of_mem _ hmem⟩
  · simp only [Books.use, hothers]
    exact h.others
  · intro a n hn
    simp only [Books.use, hothers]
    rw [units_insert hfresh]
    exact hcounts a n hn

/-- An offer has been put into its directories. Those of its books have the quality `uRate`, but for the
open book of a hybrid offer, and all of them are described with `uRate`. -/
structure PutOn (K : Keylets) (e : Env) (tx : OfferCreate) (pays gets : Wire.STAmount)
    (uRate : UInt64) (s s' : Books) (o : Offer) : Prop where
  fresh : s.offers.lookup (K.offer tx.account tx.sequence) = none
  offers : s'.offers = s.offers.insert (K.offer tx.account tx.sequence) o
  placed : Placed K (s'.use tx)
  qualities : ∀ b ∈ o.books, getQuality b.1 = uRate ∨
    tx.hybrid = true ∧ getQuality b.1 = getRate e.amounts gets pays
  described : ∀ P : Key → BookInfo → Prop, (∀ dir, Described (P dir) (s.bookDirs dir)) →
    (∀ b ∈ o.books, ∀ info : BookInfo, info.exchangeRate = uRate → P b.1 info) →
    ∀ dir, Described (P dir) (s'.bookDirs dir)

/-- The offer that `placeOffer` makes, but for its other books. -/
def newOffer (K : Keylets) (tx : OfferCreate) (pays gets : Wire.STAmount) (uRate : UInt64)
    (bookNode ownerNode : UInt64) : Offer :=
  ⟨tx.account, tx.sequence, pays, gets, quality (K.book ⟨pays.asset, gets.asset, tx.domainID⟩) uRate,
    bookNode, ownerNode, tx.expiration, tx.domainID, tx.passive, tx.sell, false, []⟩

theorem Placed.fresh_offer (h : Placed K s) (hK : K.Distinct)
    (hunused : (tx.account, tx.sequence) ∉ s.used) :
    s.offers.lookup (K.offer tx.account tx.sequence) = none := by
  by_contra hsome
  obtain ⟨o, ho⟩ := Option.ne_none_iff_exists'.mp hsome
  obtain ⟨hkey, hmem⟩ := h.keyed _ o ho
  obtain ⟨haccount, hsequence⟩ := hK.offer _ _ _ _ hkey
  rw [← haccount, ← hsequence] at hmem
  exact hunused hmem

/-- The open book of a hybrid offer, at the rate of the amounts it is placed with. -/
def openDirectory (K : Keylets) (e : Env) (offer : Offer) : Key :=
  quality (K.book ⟨offer.takerPays.asset, offer.takerGets.asset, none⟩)
    (getRate e.amounts offer.takerGets offer.takerPays)

theorem applyHybrid_spec {g : Key → Key → Option UInt64} (offer : Offer)
    (hhold : ∀ d, Holds d (s.bookDirs d)
      (Function.update (g d) key ([(offer.bookDirectory, offer.bookNode)].lookup d)))
    (hdomain : offer.domainID ≠ none) (hne : openDirectory K e offer ≠ offer.bookDirectory)
    (hs : s.applyHybrid K e offer key uRate = some (ter, s', o)) (hter : ter.isTesSuccess = true) :
    ∃ node pages, o = { offer with
        hybrid := true
        additionalBooks := [(openDirectory K e offer, node)] } ∧
      s' = s.setBookDir (openDirectory K e offer) pages ∧
      (∀ d, Holds d (s'.bookDirs d) (Function.update (g d) key (o.books.lookup d))) ∧
      ∀ P : Key → BookInfo → Prop, (∀ d, Described (P d) (s.bookDirs d)) →
        (∀ info : BookInfo, info.exchangeRate = uRate → P (openDirectory K e offer) info) →
        ∀ d, Described (P d) (s'.bookDirs d) := by
  have hopen : [(offer.bookDirectory, offer.bookNode)].lookup (openDirectory K e offer) = none := by
    rw [List.lookup_cons, beq_eq_false_iff_ne.mpr hne, List.lookup_nil]
  have hisNone : offer.domainID.isNone = false := by
    rwa [Option.isNone_eq_false_iff, Option.isSome_iff_ne_none]
  simp only [Books.applyHybrid, hisNone, Bool.false_eq_true, if_false] at hs
  rcases bookAppend_spec e.fixDirectoryLimit hhold hopen
    ⟨offer.takerPays.asset, offer.takerGets.asset, uRate, none⟩ with
    hfull | ⟨node, pages, hbook, hhold', hdescribed⟩
  · rw [openDirectory] at hfull
    rw [hfull] at hs
    cases hs
    cases hter
  · rw [openDirectory] at hbook
    rw [hbook] at hs
    cases hs
    exact ⟨node, pages, rfl, rfl, hhold', fun P hP hinfo => hdescribed P hP (hinfo _ rfl)⟩

/-- The directory of the owner once it lists the offer, and the owner count. -/
theorem Placed.list_offer (h : Placed K s) (hroom : Room s 1)
    (hfresh : s.offers.lookup (K.offer tx.account tx.sequence) = none) (fixDirectoryLimit : Bool) :
    s.ownerInsert K fixDirectoryLimit tx.account (K.offer tx.account tx.sequence) = some none ∨
      ∃ node pages, s.ownerInsert K fixDirectoryLimit tx.account (K.offer tx.account tx.sequence) =
          some (some (node, s.setOwnerDir tx.account pages)) ∧
        (∀ a, Holds (K.ownerDir a) (Function.update s.ownerDirs tx.account pages a)
          (Function.update (ownerAt s.offers s.others a) (K.offer tx.account tx.sequence)
            (if tx.account = a then some node else none))) ∧
        Counts ((s.setOwnerDir tx.account pages).adjustOwnerCount tx.account Books.oneMore)
          fun a => units s.offers s.others a + if tx.account = a then 1 else 0 := by
  have hfree : ∀ a, ownerAt s.offers s.others a (K.offer tx.account tx.sequence) = none := fun a => by
    have hother : s.others.lookup (a, K.offer tx.account tx.sequence) = none := by
      by_contra hsome
      exact h.others _ _ (Option.isSome_iff_ne_none.mpr hsome) _ _ rfl
    rw [ownerAt, hfresh, Option.elim_none, hother, Option.map_none]
  rcases ownerInsert_spec fixDirectoryLimit (h.owner tx.account) (hfree tx.account) with
    hfull | ⟨node, pages, hpages, hpagesHold⟩
  · exact .inl hfull
  refine .inr ⟨node, pages, hpages, fun a => ?_, ?_⟩
  · by_cases ha : a = tx.account
    · subst ha
      rwa [Function.update_self, if_pos rfl]
    · have hsame := Function.update_eq_self (K.offer tx.account tx.sequence)
        (ownerAt s.offers s.others a)
      rw [hfree a] at hsame
      rw [Function.update_of_ne ha, if_neg (Ne.symm ha), hsame]
      exact h.owner a
  · exact Counts.oneMore (s := s.setOwnerDir tx.account pages) h.counted hroom tx.account

theorem placeOffer_spec (h : Placed K s) (hK : K.Distinct) (hroom : Room s 1)
    (hunused : (tx.account, tx.sequence) ∉ s.used) (hdomain : tx.hybrid = true → tx.domainID ≠ none)
    (hs : s.placeOffer K e tx pays gets uRate = some (ter, s')) (hter : ter.isTesSuccess = true) :
    ∃ o, PutOn K e tx pays gets uRate s s' o := by
  have hfresh := h.fresh_offer hK hunused
  rw [Books.placeOffer] at hs
  rcases h.list_offer hroom hfresh e.fixDirectoryLimit with
    hfull | ⟨ownerNode, pages, hpages, howner, hcounts⟩
  · rw [hfull] at hs
    cases hs
    cases hter
  simp only [hpages, Option.bind_eq_bind, Option.bind_some] at hs
  have hbooks₁ := adjustOwnerCount_bookDirs (s.setOwnerDir tx.account pages) tx.account Books.oneMore
  have hoffers₁ := adjustOwnerCount_offers (s.setOwnerDir tx.account pages) tx.account Books.oneMore
  have hothers₁ := adjustOwnerCount_others (s.setOwnerDir tx.account pages) tx.account Books.oneMore
  have hused₁ := adjustOwnerCount_used (s.setOwnerDir tx.account pages) tx.account Books.oneMore
  have howner₁ :=
    adjustOwnerCount_ownerDirs (s.setOwnerDir tx.account pages) tx.account Books.oneMore
  generalize (s.setOwnerDir tx.account pages).adjustOwnerCount tx.account Books.oneMore = s₁ at *
  have hhold₁ : ∀ d, Holds d (s₁.bookDirs d) (Function.update (bookAt s.offers d)
      (K.offer tx.account tx.sequence) (([] : List (Key × UInt64)).lookup d)) := fun d => by
    have hsame := Function.update_eq_self (K.offer tx.account tx.sequence) (bookAt s.offers d)
    rw [bookAt, hfresh, Option.bind_none] at hsame
    rw [hbooks₁, List.lookup_nil, hsame]
    exact h.book d
  have hdescribed₁ : ∀ P : Key → BookInfo → Prop, (∀ d, Described (P d) (s.bookDirs d)) →
      ∀ d, Described (P d) (s₁.bookDirs d) := fun P hP d => by
    rw [hbooks₁]
    exact hP d
  rcases bookAppend_spec e.fixDirectoryLimit hhold₁ rfl
    ⟨pays.asset, gets.asset, uRate, tx.domainID⟩ with
    hfull | ⟨bookNode, bookPages, hbook, hhold₂, hdescribed₂⟩
  · rw [hfull] at hs
    cases hs
    cases hter
  simp only [hbook, Option.bind_some] at hs
  generalize hs₂ : s₁.setBookDir _ bookPages = s₂ at hs hhold₂ hdescribed₂
  have hoffers₂ : s₂.offers = s.offers := hs₂ ▸ hoffers₁
  have hothers₂ : s₂.others = s.others := hs₂ ▸ hothers₁
  have hused₂ : s₂.used = s.used := hs₂ ▸ hused₁
  have howner₂ : s₂.ownerDirs = Function.update s.ownerDirs tx.account pages := hs₂ ▸ howner₁
  have hcounts₂ : Counts s₂ fun a =>
      units s.offers s.others a + if tx.account = a then 1 else 0 := by
    rw [← hs₂]
    exact hcounts
  cases hhybrid : tx.hybrid with
  | false =>
    simp only [hhybrid, Bool.false_eq_true, if_false, TER.isTesSuccess, Bool.not_true, hoffers₂,
      hfresh, Option.isSome_none] at hs
    cases hs
    let o := newOffer K tx pays gets uRate bookNode ownerNode
    refine ⟨o, hfresh, rfl, ?_, fun b hb => .inl ?_, fun P hP hinfo =>
      hdescribed₂ P (hdescribed₁ P hP) (hinfo _ List.mem_cons_self _ rfl)⟩
    · have hplaced := h.insert_offer (o := o) tx hfresh hoffers₂ hothers₂ hused₂
        (fun a => howner₂ ▸ howner a) hhold₂ hcounts₂ (List.nodup_singleton _) rfl rfl rfl rfl
      rwa [hoffers₂] at hplaced
    · rw [List.mem_singleton.mp hb]
      exact getQuality_quality _ _
  | true =>
    simp only [hhybrid, if_true] at hs
    obtain ⟨⟨res, s₃, o⟩, hopen, hs⟩ := Option.bind_eq_some_iff.mp hs
    have hres : res.isTesSuccess = true := by
      by_contra hres
      simp only [eq_false_of_ne_true hres, Bool.not_false, if_true] at hs
      cases hs
      exact hres hter
    have hne : openDirectory K e (newOffer K tx pays gets uRate bookNode ownerNode) ≠
        quality (K.book ⟨pays.asset, gets.asset, tx.domainID⟩) uRate :=
      hK.quality_ne (fun heq => hdomain hhybrid (congrArg Book.domain heq).symm) _ _
    obtain ⟨openNode, openPages, rfl, rfl, hhold₃, hdescribed₃⟩ := applyHybrid_spec
      (newOffer K tx pays gets uRate bookNode ownerNode) hhold₂ (hdomain hhybrid) hne hopen hres
    simp only [hres, Bool.not_true, Bool.false_eq_true, if_false, Books.setBookDir, hoffers₂, hfresh,
      Option.isSome_none] at hs
    cases hs
    refine ⟨_, hfresh, rfl, ?_, fun b hb => ?_, fun P hP hinfo => hdescribed₃ P
      (hdescribed₂ P (hdescribed₁ P hP) (hinfo _ List.mem_cons_self _ rfl))
      (hinfo (_, openNode) (List.mem_cons_of_mem _ List.mem_cons_self))⟩
    · have hplaced := h.insert_offer tx hfresh
        (t := s₂.setBookDir (openDirectory K e (newOffer K tx pays gets uRate bookNode ownerNode)) openPages)
        hoffers₂ hothers₂ hused₂ (fun a => howner₂ ▸ howner a) hhold₃ hcounts₂ ?_ rfl rfl rfl rfl
      · rwa [show (s₂.setBookDir _ openPages).offers = s.offers from hoffers₂] at hplaced
      · exact List.nodup_cons.mpr
          ⟨fun hmem => hne (List.mem_singleton.mp hmem).symm, List.nodup_singleton _⟩
    · rcases List.mem_cons.mp hb with rfl | hb
      · exact .inl (getQuality_quality _ _)
      · rw [List.mem_singleton.mp hb]
        exact .inr ⟨hhybrid, getQuality_quality _ _⟩

/-! ### The transaction -/

variable {c : Crossing} {r : Rounded} {sbCancel : Books}

theorem flowCross_kept {n : ℕ} {t' : Books} (h : Placed K s) (hcancel : Placed K sbCancel)
    (hroom : Room s (c.effects.length + n)) (hkeys : ∀ effect ∈ c.effects, NoOffer K effect)
    (hs : s.flowCross K e sbCancel c = (ter, t, t')) (hter : ter.isTesSuccess = true) :
    ter = c.result ∧ Kept K s t ∧ Room t n ∧ Kept K sbCancel t' := by
  unfold Books.flowCross at hs
  split at hs
  · rename_i sb sb' hsb hsb'
    cases hs
    obtain ⟨s₁, hs₁, hsb⟩ := Option.bind_eq_some_iff.mp hsb
    obtain ⟨hcrossed, hroom₁⟩ := applyEffects_kept h hroom hkeys hs₁
    obtain ⟨hstale, hroom₂⟩ := offersDelete_kept hcrossed.placed hsb
    exact ⟨rfl, hcrossed.trans hstale, hroom₂ n hroom₁, (offersDelete_kept hcancel hsb').1⟩
  · cases hs
    cases hter

/-- Amounts are left that an offer is placed with, and the flags let it be placed. -/
def Leaves (tx : OfferCreate) (c : Crossing) : Prop :=
  c.result.isTesSuccess = true ∧ ¬c.placeIn.isNegative ∧ ¬c.placeOut.isNegative ∧
    c.placeIn.value ≠ 0 ∧ c.placeOut.value ≠ 0 ∧ ¬tx.fillOrKill ∧ ¬tx.immediateOrCancel

theorem afterCrossing_spec (h : Placed K s) (hK : K.Distinct) (hroom : Room s 1)
    (hunused : (tx.account, tx.sequence) ∉ s.used) (hdomain : tx.hybrid = true → tx.domainID ≠ none)
    (hresult : c.result.isTesSuccess = true)
    (hs : s.afterCrossing K e sbCancel tx c r = some (ter, s')) (hter : ter.isTesSuccess = true) :
    s' = s ∨ Leaves tx c ∧ ∃ o, PutOn K e tx c.placeOut c.placeIn r.uRate s s' o := by
  simp only [Books.afterCrossing] at hs
  by_cases hnegative : c.placeIn.isNegative ∨ c.placeOut.isNegative
  · rw [if_pos hnegative] at hs
    cases hs
    cases hter
  by_cases hzero : c.placeIn.value = 0 ∨ c.placeOut.value = 0
  · rw [if_neg hnegative, if_pos hzero] at hs
    cases hs
    exact .inl rfl
  by_cases hkill : tx.fillOrKill
  · rw [if_neg hnegative, if_neg hzero, if_pos hkill] at hs
    cases hs
    cases hter
  by_cases hcancel : tx.immediateOrCancel
  · rw [if_neg hnegative, if_neg hzero, if_neg hkill, if_pos hcancel] at hs
    split at hs
    · cases hs
      exact .inl rfl
    · cases hs
      cases hter
  rw [if_neg hnegative, if_neg hzero, if_neg hkill, if_neg hcancel] at hs
  split at hs
  · cases hs
    cases hter
  · split at hs
    · split at hs
      · cases hs
        exact .inl rfl
      · cases hs
        cases hter
    · rw [not_or] at hnegative hzero
      exact .inr ⟨⟨hresult, hnegative.1, hnegative.2, hzero.1, hzero.2, hkill, hcancel⟩,
        placeOffer_spec h hK hroom hunused hdomain hs hter⟩

end FalconLedger.Dex
