import FalconLedger.Dex.OfferBooks
import FalconLedger.Properties.DirectoryHoldings

/-!
# Offers and the directories that list them

`Placed`: every directory lists the offers that name it, each on the page the offer gives, and no other
offer; owner counts are the numbers of offers and counted objects. Deleting an offer, taking it in
part and the coming and going of other objects keep this, and leave the books of the offers that
stay alone (`Kept`).
-/

namespace FalconLedger.Dex

open Directory

variable {K : Keylets} {s s' : Books} {key : Key} {o : Offer} {a : AccountID} {n : ℕ}
  {fixDirectoryLimit : Bool}

/-- The page of an owner's directory that an object is on. -/
def ownerAt (offers : Table Key Offer) (others : Table (AccountID × Key) (UInt64 × Bool))
    (a : AccountID) (key : Key) : Option UInt64 :=
  (offers.lookup key).elim ((others.lookup (a, key)).map Prod.fst) fun o =>
    if o.account = a then some o.ownerNode else none

/-- The page of a book directory that an offer is on. -/
def bookAt (offers : Table Key Offer) (dir key : Key) : Option UInt64 :=
  (offers.lookup key).bind fun o => o.books.lookup dir

/-- Offers, and counted objects of other types, of one owner. -/
def units (offers : Table Key Offer) (others : Table (AccountID × Key) (UInt64 × Bool))
    (a : AccountID) : ℤ :=
  Table.total (fun o => if o.account = a then 1 else 0) offers +
    Table.sumRows (fun k v => if k.1 = a ∧ v.2 then 1 else 0) others

/-- Every owner count is the number given. -/
def Counts (s : Books) (count : AccountID → ℤ) : Prop :=
  ∀ a n, s.accounts.lookup a = some n → (n.toNat : ℤ) = count a

/-- No directory lists anything but the offers, each where it says, and objects of other types. -/
structure Placed (K : Keylets) (s : Books) : Prop where
  owner : ∀ a, Holds (K.ownerDir a) (s.ownerDirs a) (ownerAt s.offers s.others a)
  book : ∀ dir, Holds dir (s.bookDirs dir) (bookAt s.offers dir)
  books_nodup : ∀ key o, s.offers.lookup key = some o → (o.books.map Prod.fst).Nodup
  additional : ∀ key o, s.offers.lookup key = some o →
    o.additionalBooks.length = if o.hybrid then 1 else 0
  keyed : ∀ key o, s.offers.lookup key = some o →
    key = K.offer o.account o.sequence ∧ (o.account, o.sequence) ∈ s.used
  others : ∀ a key, (s.others.lookup (a, key)).isSome → ∀ b q, key ≠ K.offer b q
  counted : Counts s (units s.offers s.others)

/-- No owner count is within `n` of the greatest there is. -/
def Room (s : Books) (n : ℕ) : Prop := ∀ a m, s.accounts.lookup a = some m → m.toNat + n < 2 ^ 32

/-- Offers may have gone or shrunk; those left are in the books they were in. -/
structure Kept (K : Keylets) (s s' : Books) : Prop where
  placed : Placed K s'
  used : s'.used = s.used
  offers : ∀ key o', s'.offers.lookup key = some o' → ∃ o, s.offers.lookup key = some o ∧
    o'.books = o.books
  described : ∀ (P : Key → BookInfo → Prop), (∀ dir, Described (P dir) (s.bookDirs dir)) →
    ∀ dir, Described (P dir) (s'.bookDirs dir)

theorem Kept.refl (h : Placed K s) : Kept K s s :=
  ⟨h, rfl, fun _ o ho => ⟨o, ho, rfl⟩, fun _ hP => hP⟩

theorem Kept.trans {s'' : Books} (h : Kept K s s') (h' : Kept K s' s'') : Kept K s s'' where
  placed := h'.placed
  used := h'.used.trans h.used
  offers key o'' ho'' := by
    obtain ⟨o', ho', heq'⟩ := h'.offers key o'' ho''
    obtain ⟨o, ho, heq⟩ := h.offers key o' ho'
    exact ⟨o, ho, heq'.trans heq⟩
  described P hP := h'.described P (h.described P hP)

/-! ### Reading tables that have changed -/

theorem ownerAt_insert (offers : Table Key Offer) (others : Table (AccountID × Key) (UInt64 × Bool))
    (a : AccountID) (key : Key) (o : Offer) :
    ownerAt (offers.insert key o) others a =
      Function.update (ownerAt offers others a) key (if o.account = a then some o.ownerNode else none) := by
  funext k
  by_cases hk : k = key
  · subst hk
    rw [Function.update_self, ownerAt, AList.lookup_insert, Option.elim_some]
  · rw [Function.update_of_ne hk, ownerAt, ownerAt, AList.lookup_insert_ne hk]

theorem ownerAt_erase {offers : Table Key Offer} {others : Table (AccountID × Key) (UInt64 × Bool)}
    {a : AccountID} {key : Key} (h : others.lookup (a, key) = none) :
    ownerAt (offers.erase key) others a = Function.update (ownerAt offers others a) key none := by
  funext k
  by_cases hk : k = key
  · subst hk
    rw [Function.update_self, ownerAt, AList.lookup_erase, Option.elim_none, h, Option.map_none]
  · rw [Function.update_of_ne hk, ownerAt, ownerAt, AList.lookup_erase_ne hk]

theorem bookAt_insert (offers : Table Key Offer) (dir key : Key) (o : Offer) :
    bookAt (offers.insert key o) dir =
      Function.update (bookAt offers dir) key (o.books.lookup dir) := by
  funext k
  by_cases hk : k = key
  · subst hk
    rw [Function.update_self, bookAt, AList.lookup_insert, Option.bind_some]
  · rw [Function.update_of_ne hk, bookAt, bookAt, AList.lookup_insert_ne hk]

theorem bookAt_erase (offers : Table Key Offer) (dir key : Key) :
    bookAt (offers.erase key) dir = Function.update (bookAt offers dir) key none := by
  funext k
  by_cases hk : k = key
  · subst hk
    rw [Function.update_self, bookAt, AList.lookup_erase, Option.bind_none]
  · rw [Function.update_of_ne hk, bookAt, bookAt, AList.lookup_erase_ne hk]

theorem Placed.not_other (h : Placed K s) (ho : s.offers.lookup key = some o) (a : AccountID) :
    s.others.lookup (a, key) = none := by
  by_contra hsome
  exact h.others a key (Option.isSome_iff_ne_none.mpr hsome) _ _ (h.keyed key o ho).1

theorem Placed.ownerAt_self (ho : s.offers.lookup key = some o) (a : AccountID) :
    ownerAt s.offers s.others a key = if o.account = a then some o.ownerNode else none := by
  rw [ownerAt, ho, Option.elim_some]

theorem Placed.bookAt_self (ho : s.offers.lookup key = some o) (dir : Key) :
    bookAt s.offers dir key = o.books.lookup dir := by
  rw [bookAt, ho, Option.bind_some]

/-! ### Owner counts -/

theorem lookup_adjustOwnerCount (s : Books) (id a : AccountID) (f : UInt32 → UInt32) :
    (s.adjustOwnerCount id f).accounts.lookup a =
      (s.accounts.lookup a).map fun n => if a = id then f n else n := by
  unfold Books.adjustOwnerCount
  cases hid : s.accounts.lookup id with
  | none =>
    dsimp only
    by_cases h : a = id
    · rw [h, hid, Option.map_none]
    · simp only [h, if_false, Option.map_id']
  | some n =>
    dsimp only
    by_cases h : a = id
    · rw [h, AList.lookup_insert, hid, Option.map_some, if_pos rfl]
    · simp only [AList.lookup_insert_ne h, h, if_false, Option.map_id']

@[simp] theorem adjustOwnerCount_offers (s : Books) (id : AccountID) (f : UInt32 → UInt32) :
    (s.adjustOwnerCount id f).offers = s.offers := by
  unfold Books.adjustOwnerCount
  split <;> rfl

@[simp] theorem adjustOwnerCount_others (s : Books) (id : AccountID) (f : UInt32 → UInt32) :
    (s.adjustOwnerCount id f).others = s.others := by
  unfold Books.adjustOwnerCount
  split <;> rfl

@[simp] theorem adjustOwnerCount_ownerDirs (s : Books) (id : AccountID) (f : UInt32 → UInt32) :
    (s.adjustOwnerCount id f).ownerDirs = s.ownerDirs := by
  unfold Books.adjustOwnerCount
  split <;> rfl

@[simp] theorem adjustOwnerCount_bookDirs (s : Books) (id : AccountID) (f : UInt32 → UInt32) :
    (s.adjustOwnerCount id f).bookDirs = s.bookDirs := by
  unfold Books.adjustOwnerCount
  split <;> rfl

@[simp] theorem adjustOwnerCount_used (s : Books) (id : AccountID) (f : UInt32 → UInt32) :
    (s.adjustOwnerCount id f).used = s.used := by
  unfold Books.adjustOwnerCount
  split <;> rfl

theorem toNat_oneMore {m : UInt32} (h : m.toNat + 1 < 2 ^ 32) :
    (Books.oneMore m).toNat = m.toNat + 1 := by
  have hadd : (m + 1).toNat = m.toNat + 1 := by
    rw [UInt32.toNat_add]
    exact Nat.mod_eq_of_lt h
  have hle : ¬m + 1 < m := by
    rw [UInt32.lt_iff_toNat_lt, hadd]
    omega
  rw [Books.oneMore, confineOwnerCount, if_neg hle, hadd]

theorem toNat_oneLess {m : UInt32} : (Books.oneLess m).toNat = m.toNat - 1 := by
  unfold Books.oneLess
  split_ifs with h
  · rw [h]
    rfl
  · have hne : m.toNat ≠ 0 := fun h0 => h (UInt32.toNat_inj.mp h0)
    have hle : (1 : UInt32) ≤ m := UInt32.le_iff_toNat_le.mpr (Nat.one_le_iff_ne_zero.mpr hne)
    rw [UInt32.toNat_sub_of_le m 1 hle]
    rfl

theorem Room.mono {m : ℕ} (h : Room s n) (hm : m ≤ n) : Room s m := fun a c hc =>
  (Nat.add_le_add_left hm _).trans_lt (h a c hc)

theorem Room.oneMore (h : Room s (n + 1)) (id : AccountID) :
    Room (s.adjustOwnerCount id Books.oneMore) n := by
  intro a c hc
  rw [lookup_adjustOwnerCount] at hc
  obtain ⟨m, hm, rfl⟩ := Option.map_eq_some_iff.mp hc
  have hlt := h a m hm
  split_ifs
  · rw [toNat_oneMore (by omega)]
    omega
  · omega

theorem Room.oneLess (h : Room s n) (id : AccountID) :
    Room (s.adjustOwnerCount id Books.oneLess) n := by
  intro a c hc
  rw [lookup_adjustOwnerCount] at hc
  obtain ⟨m, hm, rfl⟩ := Option.map_eq_some_iff.mp hc
  have hlt := h a m hm
  split_ifs
  · rw [toNat_oneLess]
    omega
  · omega

theorem Counts.oneMore {count : AccountID → ℤ} (h : Counts s count) (hroom : Room s 1)
    (id : AccountID) : Counts (s.adjustOwnerCount id Books.oneMore)
      fun a => count a + if id = a then 1 else 0 := by
  intro a c hc
  rw [lookup_adjustOwnerCount] at hc
  obtain ⟨m, hm, rfl⟩ := Option.map_eq_some_iff.mp hc
  have hcount := h a m hm
  simp only [eq_comm (a := id)]
  split_ifs
  · rw [toNat_oneMore (hroom a m hm)]
    omega
  · omega

theorem Counts.oneLess {count : AccountID → ℤ} {id : AccountID} (h : Counts s count)
    (hpos : 0 < count id) : Counts (s.adjustOwnerCount id Books.oneLess)
      fun a => count a - if id = a then 1 else 0 := by
  intro a c hc
  rw [lookup_adjustOwnerCount] at hc
  obtain ⟨m, hm, rfl⟩ := Option.map_eq_some_iff.mp hc
  have hcount := h a m hm
  simp only [eq_comm (a := id)]
  split_ifs with ha
  · rw [ha] at hcount
    rw [ha, toNat_oneLess]
    omega
  · omega

theorem units_insert {offers : Table Key Offer} (h : offers.lookup key = none)
    (others : Table (AccountID × Key) (UInt64 × Bool)) (o : Offer) (a : AccountID) :
    units (offers.insert key o) others a =
      units offers others a + if o.account = a then 1 else 0 := by
  rw [units, units, Table.total_insert_of_none h]
  ring

theorem units_erase {offers : Table Key Offer} (h : offers.lookup key = some o)
    (others : Table (AccountID × Key) (UInt64 × Bool)) (a : AccountID) :
    units (offers.erase key) others a =
      units offers others a - if o.account = a then 1 else 0 := by
  rw [units, units, Table.total_erase, Table.weightAt_of_lookup h]
  ring

theorem others_nonneg (others : Table (AccountID × Key) (UInt64 × Bool)) (a : AccountID) :
    0 ≤ Table.sumRows (fun (k : AccountID × Key) (v : UInt64 × Bool) =>
      if k.1 = a ∧ v.2 then (1 : ℤ) else 0) others :=
  List.sum_nonneg fun x hx => by
    obtain ⟨e, -, rfl⟩ := List.mem_map.mp hx
    dsimp only
    split_ifs <;> omega

theorem units_nonneg (offers : Table Key Offer) (others : Table (AccountID × Key) (UInt64 × Bool))
    (a : AccountID) : 0 ≤ units offers others a := by
  refine add_nonneg (Table.total_nonneg fun o => ?_) (others_nonneg others a)
  split_ifs <;> omega

theorem units_pos {offers : Table Key Offer} (h : offers.lookup key = some o)
    (others : Table (AccountID × Key) (UInt64 × Bool)) : 0 < units offers others o.account := by
  have herase := units_erase h others o.account
  have hnonneg := units_nonneg (offers.erase key) others o.account
  rw [herase, if_pos rfl] at hnonneg
  omega

/-! ### Removals -/

@[simp] theorem setBookDir_bookDirs (s : Books) (dir : Key) (pages : Directory Key BookInfo) :
    (s.setBookDir dir pages).bookDirs = Function.update s.bookDirs dir pages := rfl

theorem ownerRemove_spec {page : UInt64} {f : Key → Option UInt64}
    (h : Holds (K.ownerDir a) (s.ownerDirs a) f) (hkey : f key = some page) :
    ∃ pages, s.ownerRemove a page key = some (true, s.setOwnerDir a pages) ∧
      Holds (K.ownerDir a) pages (Function.update f key none) := by
  obtain ⟨pages, hpages, hholds⟩ := h.dirRemove hkey false
  refine ⟨pages, ?_, hholds⟩
  rw [Books.ownerRemove, hpages]
  rfl

theorem booksRemove_spec {l : List (Key × UInt64)} {g : Key → Key → Option UInt64}
    (h : ∀ dir, Holds dir (s.bookDirs dir) (g dir)) (hl : ∀ dir, g dir key = l.lookup dir)
    (hnodup : (l.map Prod.fst).Nodup) :
    ∃ dirs, s.booksRemove key l = some (true, { s with bookDirs := dirs }) ∧
      (∀ dir, Holds dir (dirs dir) (Function.update (g dir) key none)) ∧
      ∀ P : Key → BookInfo → Prop, (∀ dir, Described (P dir) (s.bookDirs dir)) →
        ∀ dir, Described (P dir) (dirs dir) := by
  induction l generalizing s g with
  | nil =>
    refine ⟨s.bookDirs, rfl, fun dir => ?_, fun _ hP => hP⟩
    have hsame := Function.update_eq_self key (g dir)
    rw [hl dir, List.lookup_nil] at hsame
    rw [hsame]
    exact h dir
  | cons e rest ih =>
    obtain ⟨dir, page⟩ := e
    obtain ⟨hnotMem, hnodup⟩ := List.nodup_cons.mp hnodup
    have hpage : g dir key = some page := by rw [hl, List.lookup_cons_self]
    obtain ⟨pages, hpages, hholds⟩ := (h dir).dirRemove hpage false
    have hrest : ∀ d, Holds d ((s.setBookDir dir pages).bookDirs d)
        (Function.update g dir (Function.update (g dir) key none) d) := fun d => by
      by_cases heq : d = dir
      · subst heq
        rwa [setBookDir_bookDirs, Function.update_self, Function.update_self]
      · rw [setBookDir_bookDirs, Function.update_of_ne heq, Function.update_of_ne heq]
        exact h d
    have hlrest : ∀ d, Function.update g dir (Function.update (g dir) key none) d key =
        rest.lookup d := fun d => by
      by_cases heq : d = dir
      · subst heq
        rw [Function.update_self, Function.update_self]
        refine (List.lookup_eq_none_iff.mpr fun e he => ?_).symm
        rw [bne_iff_ne]
        intro hd
        rw [hd] at hnotMem
        exact hnotMem (List.mem_map.mpr ⟨e, he, rfl⟩)
      · rw [Function.update_of_ne heq, hl, List.lookup_cons, (beq_eq_false_iff_ne).mpr heq]
    obtain ⟨dirs, hdirs, hdirsHold, hdescribed⟩ := ih hrest hlrest hnodup
    refine ⟨dirs, ?_, fun d => ?_, fun P hP => hdescribed P fun d => ?_⟩
    · rw [Books.booksRemove, hpages]
      exact hdirs
    · have hd := hdirsHold d
      by_cases heq : d = dir
      · subst heq
        rwa [Function.update_self, Function.update_idem] at hd
      · rwa [Function.update_of_ne heq] at hd
    · by_cases heq : d = dir
      · subst heq
        rw [setBookDir_bookDirs, Function.update_self]
        exact dirRemove_described (hP d) hpages
      · rw [setBookDir_bookDirs, Function.update_of_ne heq]
        exact hP d

theorem offerDelete_spec (h : Placed K s) (ho : s.offers.lookup key = some o) :
    ∃ s', s.offerDelete key = some (.tesSuccess, s') ∧ Kept K s s' ∧
      s'.offers = s.offers.erase key ∧ ∀ n, Room s n → Room s' n := by
  have howner : ownerAt s.offers s.others o.account key = some o.ownerNode := by
    rw [Placed.ownerAt_self ho, if_pos rfl]
  obtain ⟨pages, hpages, hpagesHold⟩ := ownerRemove_spec (h.owner o.account) howner
  obtain ⟨dirs, hdirs, hdirsHold, hdescribed⟩ := booksRemove_spec (s := s.setOwnerDir o.account pages)
    (g := bookAt s.offers) h.book (Placed.bookAt_self ho) (h.books_nodup key o ho)
  let t : Books := { s.setOwnerDir o.account pages with bookDirs := dirs }
  have hlookup : ∀ k o', (s.offers.erase key).lookup k = some o' → s.offers.lookup k = some o' := by
    intro k o' hk
    by_cases heq : k = key
    · rw [heq, AList.lookup_erase] at hk
      cases hk
    · rwa [AList.lookup_erase_ne heq] at hk
  refine ⟨{ t.adjustOwnerCount o.account Books.oneLess with offers := s.offers.erase key }, ?_,
    ⟨⟨fun a => ?_, fun dir => ?_, fun k o' hk => h.books_nodup k o' (hlookup k o' hk),
      fun k o' hk => h.additional k o' (hlookup k o' hk), fun k o' hk => ?_, ?_, ?_⟩, ?_,
      fun k o' hk => ⟨o', hlookup k o' hk, rfl⟩, fun P hP dir => ?_⟩, rfl, fun n hn => ?_⟩
  · rw [Books.offerDelete, ho]
    simp only [hpages, hdirs, Option.bind_eq_bind, Option.bind_some, Bool.not_true, Bool.false_eq_true,
      if_false, adjustOwnerCount_offers]
    rfl
  · simp only [adjustOwnerCount_ownerDirs, adjustOwnerCount_others]
    change Holds _ (Function.update s.ownerDirs o.account pages a) (ownerAt _ s.others a)
    rw [ownerAt_erase (h.not_other ho a)]
    by_cases ha : a = o.account
    · subst ha
      rwa [Function.update_self]
    · have hsame := Function.update_eq_self key (ownerAt s.offers s.others a)
      rw [Placed.ownerAt_self ho, if_neg (Ne.symm ha)] at hsame
      rw [Function.update_of_ne ha, hsame]
      exact h.owner a
  · simp only [adjustOwnerCount_bookDirs]
    rw [bookAt_erase]
    exact hdirsHold dir
  · simp only [adjustOwnerCount_used]
    exact h.keyed k o' (hlookup k o' hk)
  · simp only [adjustOwnerCount_others]
    exact h.others
  · have hcount : Counts t (units s.offers s.others) := h.counted
    have hless := hcount.oneLess (units_pos ho s.others)
    simp only [adjustOwnerCount_others]
    intro a n hn
    rw [hless a n hn]
    exact (units_erase ho s.others a).symm
  · simp only [adjustOwnerCount_used]
    rfl
  · simp only [adjustOwnerCount_bookDirs]
    exact hdescribed P hP dir
  · have hroom : Room t n := hn
    exact hroom.oneLess o.account

theorem offerDelete_kept {ter : TER} (h : Placed K s) (hs : s.offerDelete key = some (ter, s')) :
    Kept K s s' ∧ ∀ n, Room s n → Room s' n := by
  cases ho : s.offers.lookup key with
  | none =>
    rw [Books.offerDelete, ho] at hs
    cases hs
    exact ⟨.refl h, fun _ hn => hn⟩
  | some o =>
    obtain ⟨t, ht, hkept, -, hroom⟩ := offerDelete_spec h ho
    rw [ht] at hs
    cases hs
    exact ⟨hkept, hroom⟩

theorem offersDelete_kept {keys : List Key} (h : Placed K s) (hs : s.offersDelete keys = some s') :
    Kept K s s' ∧ ∀ n, Room s n → Room s' n := by
  induction keys generalizing s with
  | nil =>
    cases hs
    exact ⟨.refl h, fun _ hn => hn⟩
  | cons key rest ih =>
    obtain ⟨⟨ter, t⟩, ht, hs⟩ := Option.bind_eq_some_iff.mp hs
    obtain ⟨hfirst, hroom⟩ := offerDelete_kept h ht
    obtain ⟨hrest, hroom'⟩ := ih hfirst.placed hs
    exact ⟨hfirst.trans hrest, fun n hn => hroom' n (hroom n hn)⟩

theorem removeUnfundedOffers_kept {keys : List Key} {left : ℕ} (h : Placed K s)
    (hs : s.removeUnfundedOffers keys left = some s') : Kept K s s' := by
  induction keys generalizing s left with
  | nil =>
    cases hs
    exact .refl h
  | cons key rest ih =>
    cases left with
    | zero =>
      cases hs
      exact .refl h
    | succ left =>
      rw [Books.removeUnfundedOffers] at hs
      split_ifs at hs
      · obtain ⟨⟨ter, t⟩, ht, hs⟩ := Option.bind_eq_some_iff.mp hs
        have hfirst := (offerDelete_kept h ht).1
        exact hfirst.trans (ih hfirst.placed hs)
      · exact ih h hs

/-! ### Other effects -/

theorem consume_kept (h : Placed K s) (ho : s.offers.lookup key = some o)
    (takerPays takerGets : Wire.STAmount) :
    Kept K s { s with offers := s.offers.insert key { o with takerPays, takerGets } } := by
  have hlookup : ∀ k o', (s.offers.insert key { o with takerPays, takerGets }).lookup k = some o' →
      ∃ o₀, s.offers.lookup k = some o₀ ∧ o' = { o₀ with
        takerPays := o'.takerPays, takerGets := o'.takerGets } := by
    intro k o' hk
    by_cases heq : k = key
    · rw [heq, AList.lookup_insert, Option.some.injEq] at hk
      rw [heq]
      exact ⟨o, ho, hk ▸ rfl⟩
    · rw [AList.lookup_insert_ne heq] at hk
      exact ⟨o', hk, rfl⟩
  have hbooks : ∀ k o', (s.offers.insert key { o with takerPays, takerGets }).lookup k = some o' →
      ∃ o₀, s.offers.lookup k = some o₀ ∧ o'.books = o₀.books := fun k o' hk => by
    obtain ⟨o₀, ho₀, heq⟩ := hlookup k o' hk
    exact ⟨o₀, ho₀, heq ▸ rfl⟩
  refine ⟨⟨fun a => ?_, fun dir => ?_, fun k o' hk => ?_, fun k o' hk => ?_, fun k o' hk => ?_,
    h.others, fun a n hn => ?_⟩, rfl, hbooks, fun _ hP => hP⟩
  · have hsame := Function.update_eq_self key (ownerAt s.offers s.others a)
    rw [Placed.ownerAt_self ho] at hsame
    simp only [ownerAt_insert, hsame]
    exact h.owner a
  · have hsame := Function.update_eq_self key (bookAt s.offers dir)
    rw [Placed.bookAt_self ho] at hsame
    simp only [bookAt_insert]
    change Holds dir (s.bookDirs dir)
      (Function.update (bookAt s.offers dir) key (o.books.lookup dir))
    rw [hsame]
    exact h.book dir
  · obtain ⟨o₀, ho₀, heq⟩ := hbooks k o' hk
    rw [heq]
    exact h.books_nodup k o₀ ho₀
  · obtain ⟨o₀, ho₀, heq⟩ := hlookup k o' hk
    rw [heq]
    exact h.additional k o₀ ho₀
  · obtain ⟨o₀, ho₀, heq⟩ := hlookup k o' hk
    rw [heq]
    exact h.keyed k o₀ ho₀
  · have htotal : Table.total (fun o' => if o'.account = a then 1 else 0)
        (s.offers.insert key { o with takerPays, takerGets }) =
          Table.total (fun o' => if o'.account = a then 1 else 0) s.offers :=
      Table.total_insert_of_eq ho rfl
    rw [h.counted a n hn, units, units, htotal]

theorem ownerInsert_spec {f : Key → Option UInt64} (fixDirectoryLimit : Bool)
    (h : Holds (K.ownerDir a) (s.ownerDirs a) f) (hkey : f key = none) :
    s.ownerInsert K fixDirectoryLimit a key = some none ∨
      ∃ page pages, s.ownerInsert K fixDirectoryLimit a key =
          some (some (page, s.setOwnerDir a pages)) ∧
        Holds (K.ownerDir a) pages (Function.update f key (some page)) := by
  rcases h.dirAdd hkey false a fixDirectoryLimit with hnone | ⟨page, pages, hpages, hholds⟩
  · refine .inl ?_
    rw [Books.ownerInsert, dirInsert, hnone]
    rfl
  · refine .inr ⟨page, pages, ?_, hholds⟩
    rw [Books.ownerInsert, dirInsert, hpages]
    rfl

theorem ownerAt_insert_other {offers : Table Key Offer}
    {others : Table (AccountID × Key) (UInt64 × Bool)} (h : offers.lookup key = none)
    (a b : AccountID) (v : UInt64 × Bool) :
    ownerAt offers (others.insert (b, key) v) a =
      if a = b then Function.update (ownerAt offers others a) key (some v.1)
      else ownerAt offers others a := by
  funext k
  split_ifs with ha
  · subst ha
    by_cases hk : k = key
    · subst hk
      rw [Function.update_self, ownerAt, h, Option.elim_none, AList.lookup_insert, Option.map_some]
    · have hne : (a, k) ≠ (a, key) := fun heq => hk (Prod.mk.inj heq).2
      rw [Function.update_of_ne hk, ownerAt, ownerAt, AList.lookup_insert_ne hne]
  · have hne : (a, k) ≠ (b, key) := fun heq => ha (Prod.mk.inj heq).1
    rw [ownerAt, ownerAt, AList.lookup_insert_ne hne]

theorem ownerAt_erase_other {offers : Table Key Offer}
    {others : Table (AccountID × Key) (UInt64 × Bool)} (h : offers.lookup key = none)
    (a b : AccountID) :
    ownerAt offers (others.erase (b, key)) a =
      if a = b then Function.update (ownerAt offers others a) key none
      else ownerAt offers others a := by
  funext k
  split_ifs with ha
  · subst ha
    by_cases hk : k = key
    · subst hk
      rw [Function.update_self, ownerAt, h, Option.elim_none, AList.lookup_erase, Option.map_none]
    · have hne : (a, k) ≠ (a, key) := fun heq => hk (Prod.mk.inj heq).2
      rw [Function.update_of_ne hk, ownerAt, ownerAt, AList.lookup_erase_ne hne]
  · have hne : (a, k) ≠ (b, key) := fun heq => ha (Prod.mk.inj heq).1
    rw [ownerAt, ownerAt, AList.lookup_erase_ne hne]

theorem Placed.not_offer (h : Placed K s) (hkey : ∀ a q, key ≠ K.offer a q) :
    s.offers.lookup key = none := by
  by_contra hsome
  obtain ⟨o, ho⟩ := Option.ne_none_iff_exists'.mp hsome
  exact hkey _ _ (h.keyed key o ho).1

theorem Placed.with_others {others : Table (AccountID × Key) (UInt64 × Bool)} {t : Books}
    (h : Placed K s) (howner : ∀ a, Holds (K.ownerDir a) (t.ownerDirs a) (ownerAt s.offers others a))
    (hbooks : t.bookDirs = s.bookDirs) (hused : t.used = s.used) (hoffers : t.offers = s.offers)
    (hothers : ∀ a k, (others.lookup (a, k)).isSome → ∀ b q, k ≠ K.offer b q)
    (hcounted : Counts t (units s.offers others)) (htothers : t.others = others) : Kept K s t := by
  refine ⟨⟨fun a => ?_, fun dir => ?_, ?_, ?_, ?_, ?_, ?_⟩, hused, fun k o hk => ?_, fun P hP => ?_⟩
  · rw [hoffers, htothers]
    exact howner a
  · rw [hbooks, hoffers]
    exact h.book dir
  · rw [hoffers]
    exact h.books_nodup
  · rw [hoffers]
    exact h.additional
  · rw [hoffers, hused]
    exact h.keyed
  · rw [htothers]
    exact hothers
  · rw [hoffers, htothers]
    exact hcounted
  · rw [hoffers] at hk
    exact ⟨o, hk, rfl⟩
  · rw [hbooks]
    exact hP

theorem link_kept {counted : Bool} (h : Placed K s) (hroom : Room s (n + 1))
    (hkey : ∀ b q, key ≠ K.offer b q)
    (hs : s.link K fixDirectoryLimit a key counted = some s') : Kept K s s' ∧ Room s' n := by
  have hoffer := h.not_offer hkey
  rw [Books.link] at hs
  by_cases hold : (s.others.lookup (a, key)).isSome
  · rw [if_pos hold] at hs
    cases hs
    exact ⟨.refl h, hroom.mono (by omega)⟩
  rw [if_neg hold] at hs
  have hnew : s.others.lookup (a, key) = none := Option.not_isSome_iff_eq_none.mp hold
  have hfree : ownerAt s.offers s.others a key = none := by
    rw [ownerAt, hoffer, Option.elim_none, hnew, Option.map_none]
  rcases ownerInsert_spec fixDirectoryLimit (h.owner a) hfree with
    hfull | ⟨page, pages, hpages, hholds⟩
  · rw [hfull] at hs
    cases hs
    exact ⟨.refl h, hroom.mono (by omega)⟩
  rw [hpages] at hs
  have hothers : ∀ b k, ((s.others.insert (a, key) (page, counted)).lookup (b, k)).isSome →
      ∀ c q, k ≠ K.offer c q := fun b k hk => by
    by_cases heq : (b, k) = (a, key)
    · obtain ⟨-, rfl⟩ := Prod.mk.inj heq
      exact hkey
    · rw [AList.lookup_insert_ne heq] at hk
      exact h.others b k hk
  have howner : ∀ b, Holds (K.ownerDir b) (Function.update s.ownerDirs a pages b)
      (ownerAt s.offers (s.others.insert (a, key) (page, counted)) b) := fun b => by
    rw [ownerAt_insert_other hoffer]
    by_cases hb : b = a
    · subst hb
      rwa [if_pos rfl, Function.update_self]
    · rw [if_neg hb, Function.update_of_ne hb]
      exact h.owner b
  have hunits : ∀ b, units s.offers (s.others.insert (a, key) (page, counted)) b =
      units s.offers s.others b + if a = b ∧ counted then 1 else 0 := fun b => by
    rw [units, units, Table.sumRows_insert, hnew, Option.elim_none]
    ring
  let t : Books := { s.setOwnerDir a pages with others := s.others.insert (a, key) (page, counted) }
  cases counted with
  | false =>
    obtain rfl : t = s' := Option.some.inj hs
    refine ⟨h.with_others howner rfl rfl rfl hothers (fun b m hb => ?_) rfl, hroom.mono (by omega)⟩
    rw [hunits]
    simpa using h.counted b m hb
  | true =>
    obtain rfl : t.adjustOwnerCount a Books.oneMore = s' := Option.some.inj hs
    have hroomt : Room t (n + 1) := hroom
    have hcounts : Counts t (units s.offers s.others) := h.counted
    refine ⟨h.with_others ?_ ?_ ?_ ?_ hothers (fun b m hb => ?_) ?_, hroomt.oneMore a⟩
    · rw [adjustOwnerCount_ownerDirs]
      exact howner
    · exact adjustOwnerCount_bookDirs t a _
    · exact adjustOwnerCount_used t a _
    · exact adjustOwnerCount_offers t a _
    · rw [hunits, hcounts.oneMore (hroomt.mono (by omega)) a b m hb]
      simp
    · exact adjustOwnerCount_others t a _

theorem unlink_kept (h : Placed K s) (hroom : Room s n) (hs : s.unlink a key = some s') :
    Kept K s s' ∧ Room s' n := by
  cases hold : s.others.lookup (a, key) with
  | none =>
    rw [Books.unlink, hold] at hs
    cases hs
    exact ⟨.refl h, hroom⟩
  | some v =>
    obtain ⟨page, counted⟩ := v
    have hoffer : s.offers.lookup key = none :=
      h.not_offer (h.others a key (by rw [hold]; rfl))
    have hheld : ownerAt s.offers s.others a key = some page := by
      rw [ownerAt, hoffer, Option.elim_none, hold, Option.map_some]
    obtain ⟨pages, hpages, hholds⟩ := ownerRemove_spec (h.owner a) hheld
    rw [Books.unlink, hold] at hs
    simp only [hpages, Option.bind_eq_bind, Option.bind_some] at hs
    have hothers : ∀ b k, ((s.others.erase (a, key)).lookup (b, k)).isSome →
        ∀ c q, k ≠ K.offer c q := fun b k hk => by
      by_cases heq : (b, k) = (a, key)
      · rw [heq, AList.lookup_erase] at hk
        cases hk
      · rw [AList.lookup_erase_ne heq] at hk
        exact h.others b k hk
    have howner : ∀ b, Holds (K.ownerDir b) (Function.update s.ownerDirs a pages b)
        (ownerAt s.offers (s.others.erase (a, key)) b) := fun b => by
      rw [ownerAt_erase_other hoffer]
      by_cases hb : b = a
      · subst hb
        rwa [if_pos rfl, Function.update_self]
      · rw [if_neg hb, Function.update_of_ne hb]
        exact h.owner b
    have hunits : ∀ b, units s.offers (s.others.erase (a, key)) b =
        units s.offers s.others b - if a = b ∧ counted then 1 else 0 := fun b => by
      rw [units, units, Table.sumRows_erase, hold, Option.elim_some]
      ring
    let t : Books := { s.setOwnerDir a pages with others := s.others.erase (a, key) }
    cases counted with
    | false =>
      obtain rfl : t = s' := Option.some.inj hs
      refine ⟨h.with_others howner rfl rfl rfl hothers (fun b m hb => ?_) rfl, hroom⟩
      rw [hunits]
      simpa using h.counted b m hb
    | true =>
      obtain rfl : t.adjustOwnerCount a Books.oneLess = s' := Option.some.inj hs
      have hroomt : Room t n := hroom
      have hcounts : Counts t (units s.offers s.others) := h.counted
      have hpos : 0 < units s.offers s.others a := by
        have hle := hunits a
        have hnonneg := units_nonneg s.offers (s.others.erase (a, key)) a
        rw [hle, if_pos ⟨rfl, rfl⟩] at hnonneg
        omega
      refine ⟨h.with_others ?_ ?_ ?_ ?_ hothers (fun b m hb => ?_) ?_, hroomt.oneLess a⟩
      · rw [adjustOwnerCount_ownerDirs]
        exact howner
      · exact adjustOwnerCount_bookDirs t a _
      · exact adjustOwnerCount_used t a _
      · exact adjustOwnerCount_offers t a _
      · rw [hunits, hcounts.oneLess hpos b m hb]
        simp
      · exact adjustOwnerCount_others t a _

/-- The key of an object that is no offer is no offer's key. -/
def NoOffer (K : Keylets) : Effect → Prop
  | .link _ key _ => ∀ a q, key ≠ K.offer a q
  | _ => True

theorem applyEffect_kept {effect : Effect} (h : Placed K s) (hroom : Room s (n + 1))
    (hkey : NoOffer K effect) (hs : s.applyEffect K fixDirectoryLimit effect = some s') :
    Kept K s s' ∧ Room s' n := by
  cases effect with
  | consume key takerPays takerGets =>
    rw [Books.applyEffect] at hs
    split at hs
    · cases hs
      exact ⟨.refl h, hroom.mono (by omega)⟩
    · rename_i o ho
      cases hs
      exact ⟨consume_kept h ho takerPays takerGets, hroom.mono (by omega)⟩
  | delete key =>
    obtain ⟨⟨ter, t⟩, ht, rfl⟩ := Option.map_eq_some_iff.mp hs
    obtain ⟨hkept, hrooms⟩ := offerDelete_kept h ht
    exact ⟨hkept, hrooms n (hroom.mono (by omega))⟩
  | link owner key counted => exact link_kept h hroom hkey hs
  | unlink owner key => exact unlink_kept h (hroom.mono (by omega)) hs

theorem applyEffects_kept {effects : List Effect} (h : Placed K s)
    (hroom : Room s (effects.length + n)) (hkeys : ∀ e ∈ effects, NoOffer K e)
    (hs : s.applyEffects K fixDirectoryLimit effects = some s') : Kept K s s' ∧ Room s' n := by
  induction effects generalizing s with
  | nil =>
    cases hs
    exact ⟨.refl h, hroom.mono (by simp)⟩
  | cons e rest ih =>
    obtain ⟨t, ht, hs⟩ := Option.bind_eq_some_iff.mp hs
    have hroom' : Room s (rest.length + n + 1) := hroom.mono (by simp only [List.length_cons]; omega)
    obtain ⟨hfirst, hroomt⟩ := applyEffect_kept h hroom' (hkeys e List.mem_cons_self) ht
    obtain ⟨hrest, hroom''⟩ :=
      ih hfirst.placed hroomt (fun e' he' => hkeys e' (List.mem_cons_of_mem e he')) hs
    exact ⟨hfirst.trans hrest, hroom''⟩

end FalconLedger.Dex
