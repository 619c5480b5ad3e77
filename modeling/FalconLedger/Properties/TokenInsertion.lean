import FalconLedger.Properties.TokenShelves
import Mathlib.Data.List.GetD

/-!
# Inserting tokens

A full page is split between two tokens of different low bits, or before or after all of them when
all have the same; so there is room for the new token unless it has these bits as well.
-/

namespace FalconLedger

namespace NFToken

/-! ### The split -/

/-- Where the tokens of a full page are split for a new one, and under which key the first part goes. -/
structure SplitsAt (ts : List UInt256) (id : UInt256) (k key : ℕ) : Prop where
  newKey : pageBits (if (ts.take k).length = kDirMaxTokensPerPage
    then (ts.take k).getD (kDirMaxTokensPerPage - 1) 0 + 1 else (ts.drop k).headD 0) = key
  before : ∀ t ∈ ts.take k, pageBits t < key
  after : ∀ t ∈ ts.drop k, key ≤ pageBits t
  bound : (∃ t ∈ ts, key ≤ pageBits t) ∨ key ≤ pageBits id
  pos : (∃ t ∈ ts, pageBits t < key) ∨ pageBits id < key
  room : pageBits id < key → (ts.take k).length < kDirMaxTokensPerPage
  room' : key ≤ pageBits id → (ts.drop k).length < kDirMaxTokensPerPage
  rest : pageBits id < key → ts.drop k ≠ []
  rest' : key ≤ pageBits id → ts.take k ≠ []

theorem InOrder.bits_le {ts : List UInt256} (h : InOrder ts) {i j : ℕ} (hij : i ≤ j)
    (hj : j < ts.length) : pageBits (ts.getD i 0) ≤ pageBits (ts.getD j 0) := by
  rw [List.getD_eq_getElem _ _ hj, List.getD_eq_getElem _ _ (hij.trans_lt hj)]
  rcases hij.eq_or_lt with rfl | hlt
  · exact le_rfl
  · have hcompare := List.pairwise_iff_getElem.mp h i j (hij.trans_lt hj) hj hlt
    rw [compareTokens_iff] at hcompare
    omega

theorem pageBits_succ {id : UInt256} (h : pageBits id < nftpageMax) :
    pageBits (id + 1) = pageBits id + 1 := by
  rw [pageBits, nftpageMax] at h
  have hone : (1 : UInt256).toNat = 1 := rfl
  rw [pageBits, pageBits, BitVec.toNat_add, hone]
  omega

theorem mem_take_getD {ts : List UInt256} {k : ℕ} {t : UInt256} (h : t ∈ ts.take k) :
    ∃ i, i < k ∧ i < ts.length ∧ ts.getD i 0 = t := by
  obtain ⟨i, hi, rfl⟩ := List.mem_take_iff_getElem.mp h
  exact ⟨i, by omega, by omega, List.getD_eq_getElem _ _ _⟩

theorem mem_drop_getD {ts : List UInt256} {k : ℕ} {t : UInt256} (h : t ∈ ts.drop k) :
    ∃ i, k ≤ i ∧ i < ts.length ∧ ts.getD i 0 = t := by
  obtain ⟨i, hi, rfl⟩ := List.mem_drop_iff_getElem.mp h
  exact ⟨k + i, by omega, by omega, List.getD_eq_getElem _ _ _⟩

theorem getD_mem {ts : List UInt256} {i : ℕ} (h : i < ts.length) : ts.getD i 0 ∈ ts := by
  rw [List.getD_eq_getElem _ _ h]
  exact List.getElem_mem h

theorem findIdx_drop_spec (p : UInt256 → Bool) (ts : List UInt256) (n : ℕ) :
    (∀ i, n ≤ i → i < n + (ts.drop n).findIdx p → i < ts.length → p (ts.getD i 0) = false) ∧
      (n + (ts.drop n).findIdx p < ts.length → p (ts.getD (n + (ts.drop n).findIdx p) 0) = true) ∧
        (ts.drop n).findIdx p ≤ ts.length - n := by
  refine ⟨fun i hn hi hlen => ?_, fun hlt => ?_, ?_⟩
  · have hnot := List.not_of_lt_findIdx (show i - n < (ts.drop n).findIdx p by omega)
    rw [List.getElem_drop] at hnot
    rw [List.getD_eq_getElem _ _ hlen]
    simpa [show n + (i - n) = i by omega] using hnot
  · have hfound := @List.findIdx_getElem _ p (ts.drop n) (by
      rw [List.length_drop]
      omega)
    rw [List.getElem_drop] at hfound
    rw [List.getD_eq_getElem _ _ hlt]
    exact hfound
  · rw [← List.length_drop]
    exact List.findIdx_le_length

theorem SplitsAt.between {ts : List UInt256} {id : UInt256} {k : ℕ} (horder : InOrder ts)
    (hfull : ts.length = kDirMaxTokensPerPage) (hpos : 0 < k) (hk : k < kDirMaxTokensPerPage)
    (hlt : pageBits (ts.getD (k - 1) 0) < pageBits (ts.getD k 0)) :
    SplitsAt ts id k (pageBits (ts.getD k 0)) where
  newKey := by
    have htake : (ts.take k).length ≠ kDirMaxTokensPerPage := by
      rw [List.length_take]
      omega
    have hhead : (ts.drop k).headD 0 = ts.getD k 0 := by
      rw [List.headD_eq_head?_getD, List.head?_drop, List.getD_eq_getElem?_getD]
    rw [if_neg htake, hhead]
  before t ht := by
    obtain ⟨i, hik, -, rfl⟩ := mem_take_getD ht
    exact (horder.bits_le (by omega) (by omega)).trans_lt hlt
  after t ht := by
    obtain ⟨i, hki, hi, rfl⟩ := mem_drop_getD ht
    exact horder.bits_le hki hi
  bound := .inl ⟨_, getD_mem (by omega), le_rfl⟩
  pos := .inl ⟨_, getD_mem (by omega), hlt⟩
  room _ := by
    rw [List.length_take]
    omega
  room' _ := by
    rw [List.length_drop]
    omega
  rest _ := List.ne_nil_of_length_pos (by
    rw [List.length_drop]
    omega)
  rest' _ := List.ne_nil_of_length_pos (by
    rw [List.length_take]
    omega)

theorem SplitsAt.behind {ts : List UInt256} {id : UInt256} {bits : ℕ}
    (hfull : ts.length = kDirMaxTokensPerPage) (hall : ∀ t ∈ ts, pageBits t = bits)
    (hlt : bits < pageBits id) (hid : pageBits id < nftpageMax) :
    SplitsAt ts id kDirMaxTokensPerPage (bits + 1) where
  newKey := by
    have hmem : ts.getD (kDirMaxTokensPerPage - 1) 0 ∈ ts :=
      getD_mem (by rw [hfull]; exact Nat.lt_of_sub_eq_succ rfl)
    have hbits := hall _ hmem
    rw [List.take_of_length_le hfull.le, if_pos hfull, pageBits_succ (by omega), hbits]
  before t ht := by
    rw [hall t (List.mem_of_mem_take ht)]
    exact Nat.lt_succ_self bits
  after t ht := by
    rw [List.drop_of_length_le hfull.le] at ht
    exact absurd ht List.not_mem_nil
  bound := .inr hlt
  pos := .inl ⟨_, getD_mem (i := 0) (by rw [hfull]; exact Nat.zero_lt_succ _), by
    rw [hall _ (getD_mem (by rw [hfull]; exact Nat.zero_lt_succ _))]
    exact Nat.lt_succ_self bits⟩
  room h := by omega
  room' _ := by
    rw [List.drop_of_length_le hfull.le]
    exact Nat.zero_lt_succ _
  rest h := by omega
  rest' _ := List.ne_nil_of_length_pos (by
    rw [List.take_of_length_le hfull.le, hfull]
    exact Nat.zero_lt_succ _)

theorem SplitsAt.ahead {ts : List UInt256} {id : UInt256} {bits : ℕ}
    (hfull : ts.length = kDirMaxTokensPerPage) (hall : ∀ t ∈ ts, pageBits t = bits)
    (hlt : pageBits id < bits) : SplitsAt ts id 0 bits where
  newKey := by
    cases ts with
    | nil => cases hfull
    | cons t ts => exact hall t List.mem_cons_self
  before t ht := absurd ht List.not_mem_nil
  after t ht := (hall t ht).ge
  bound := .inl ⟨_, getD_mem (i := 0) (by rw [hfull]; exact Nat.zero_lt_succ _), by
    rw [hall _ (getD_mem (by rw [hfull]; exact Nat.zero_lt_succ _))]⟩
  pos := .inr hlt
  room _ := Nat.zero_lt_succ _
  room' h := by omega
  rest _ := List.ne_nil_of_length_pos (by
    rw [List.drop_zero, hfull]
    exact Nat.zero_lt_succ _)
  rest' h := by omega

theorem splitIndex_spec {ts : List UInt256} {id : UInt256} (horder : InOrder ts)
    (hfull : ts.length = kDirMaxTokensPerPage) (hid : pageBits id < nftpageMax) :
    (splitIndex ts id = none ∧ ∀ t ∈ ts, pageBits t = pageBits id) ∨
      ∃ k key, splitIndex ts id = some k ∧ SplitsAt ts id k key := by
  have hone : kDirMaxTokensPerPage = 32 := rfl
  rw [hone] at hfull
  set cmp := pageBits (ts.getD 15 0) with hcmp
  have hdef : splitIndex ts id =
      let k := 16 + (ts.drop 16).findIdx fun t => pageBits t ≠ cmp
      let k := if k = ts.length then ts.findIdx fun t => pageBits t = cmp else k
      if k = ts.length then none
      else if k = 0 then
        if pageBits id = cmp then none
        else if cmp < pageBits id then some ts.length
        else some 0
      else some k := rfl
  obtain ⟨hsame, hfound, hle⟩ := findIdx_drop_spec (fun t => decide (pageBits t ≠ cmp)) ts 16
  set k₁ := 16 + (ts.drop 16).findIdx fun t => decide (pageBits t ≠ cmp)
  by_cases hk₁ : k₁ = ts.length
  · -- all tokens from the middle on have the same low bits
    have hupper : ∀ i, 15 ≤ i → i < 32 → pageBits (ts.getD i 0) = cmp := fun i hi hi' => by
      rcases hi.eq_or_lt with rfl | hlt
      · rfl
      · simpa using hsame i hlt (by omega) (by omega)
    obtain ⟨hother, hfirst, hle'⟩ := findIdx_drop_spec (fun t => decide (pageBits t = cmp)) ts 0
    simp only [List.drop_zero, Nat.zero_add, Nat.sub_zero] at hother hfirst hle'
    set k₂ := ts.findIdx fun t => decide (pageBits t = cmp)
    have hk₂ : k₂ ≤ 15 := by
      by_contra hnot
      have hne := hother 15 (Nat.zero_le _) (by omega) (by omega)
      simp [hcmp] at hne
    have hbits : pageBits (ts.getD k₂ 0) = cmp := by simpa using hfirst (by omega)
    by_cases hzero : k₂ = 0
    · -- so have all
      rw [hzero] at hbits
      have hall : ∀ t ∈ ts, pageBits t = cmp := fun t ht => by
        obtain ⟨i, -, hi, rfl⟩ := mem_drop_getD (k := 0) (by rwa [List.drop_zero])
        have hlow := horder.bits_le (Nat.zero_le i) hi
        have hhigh := horder.bits_le (show i ≤ 31 by omega) (by omega)
        have h31 := hupper 31 (by omega) (by omega)
        omega
      by_cases heq : pageBits id = cmp
      · refine .inl ⟨?_, fun t ht => (hall t ht).trans heq.symm⟩
        rw [hdef]
        simp only [hk₁, if_true, hzero, heq]
        rw [if_neg (by omega)]
      · by_cases hgt : cmp < pageBits id
        · refine .inr ⟨32, cmp + 1, ?_, ?_⟩
          · rw [hdef]
            simp only [hk₁, if_true, hzero, heq, hgt, if_false]
            rw [if_neg (by omega), hfull]
          · exact .behind hfull hall hgt hid
        · refine .inr ⟨0, cmp, ?_, ?_⟩
          · rw [hdef]
            simp only [hk₁, if_true, hzero, heq, hgt, if_false]
            rw [if_neg (by omega)]
          · exact .ahead hfull hall (by omega)
    · refine .inr ⟨k₂, _, ?_, SplitsAt.between horder hfull (by omega) (by omega) ?_⟩
      · rw [hdef]
        simp only [hk₁, if_true, hzero, if_false]
        rw [if_neg (by omega)]
      · have hle := horder.bits_le (show k₂ - 1 ≤ k₂ by omega) (by omega)
        have hne := hother (k₂ - 1) (Nat.zero_le _) (by omega) (by omega)
        simp only [decide_eq_false_iff_not] at hne
        omega
  · refine .inr ⟨k₁, _, ?_, SplitsAt.between horder hfull (by omega) (by omega) ?_⟩
    · rw [hdef]
      simp only [hk₁, if_false]
      rw [if_neg (by omega)]
    · have hlt : k₁ < ts.length := by omega
      have hle := horder.bits_le (show 15 ≤ k₁ by omega) hlt
      have hle' := horder.bits_le (show k₁ - 1 ≤ k₁ by omega) hlt
      have hne := hfound hlt
      simp only [ne_eq, decide_not, Bool.not_eq_true', decide_eq_false_iff_not] at hne
      have hbefore : pageBits (ts.getD (k₁ - 1) 0) = cmp := by
        by_cases h16 : k₁ = 16
        · rw [h16]
        · simpa using hsame (k₁ - 1) (by omega) (by omega) (by omega)
      omega

/-! ### The pages -/

variable {d d' : NFTokenDirectory} {l l' : List Shelf} {k : ℕ} {ts : List UInt256} {id : UInt256}

theorem SplitsAt.key_bounds {j key low : ℕ} (h : SplitsAt ts id j key)
    (hts : ∀ t ∈ ts, low ≤ pageBits t ∧ pageBits t < k) (hlow : low ≤ pageBits id)
    (hhigh : pageBits id < k) : low < key ∧ key < k := by
  constructor
  · rcases h.pos with ⟨t, ht, hlt⟩ | hlt
    · exact (hts t ht).1.trans_lt hlt
    · exact hlow.trans_lt hlt
  · rcases h.bound with ⟨t, ht, hle⟩ | hle
    · exact hle.trans_lt (hts t ht).2
    · exact hle.trans_lt hhigh

theorem split_pages {m : KeyedMap NFTokenPage.key} {key : ℕ} {narr carr : List UInt256}
    (h : m.toList = linked none none (l ++ (k, ts) :: l'))
    (hshelved : Shelved 0 (l ++ (k, ts) :: l')) (hlow : lastKey 0 l < key) (hhigh : key < k) :
    (setNextOf m (lastOf l none) key).find key = none ∧
      (((setNextOf m (lastOf l none) key).set ⟨key, narr, lastOf l none, some k⟩).set
        ⟨k, carr, some key, firstOf l' none⟩).toList =
          linked none none (l ++ (key, narr) :: (k, carr) :: l') := by
  rw [linked_mid] at h
  have hlinked := set_nextOf h key
  obtain ⟨hbefore, hrest⟩ := shelved_append.mp hshelved
  obtain ⟨-, -, -, hrest⟩ := hrest
  have hleft : ∀ p ∈ linked none (some key) l, p.key < key := fun p hp => by
    obtain ⟨e, he, heq⟩ := key_of_mem_linked hp
    exact heq ▸ (hbefore.key_le_lastKey e he).trans_lt hlow
  have hright : ∀ p ∈ (⟨k, ts, lastOf l none, firstOf l' none⟩ : NFTokenPage) ::
      linked (some k) none l', key < p.key := fun p hp => by
    rcases List.mem_cons.mp hp with rfl | hp
    · exact hhigh
    · obtain ⟨e, he, heq⟩ := key_of_mem_linked hp
      exact heq ▸ hhigh.trans (hrest.lt_key e he)
  refine ⟨?_, ?_⟩
  · rw [KeyedMap.find_eq_none_iff, hlinked]
    intro p hp
    rcases List.mem_append.mp hp with hp | hp
    · exact (hleft p hp).ne
    · exact (hright p hp).ne'
  · have hnew := KeyedMap.toList_set_between (a := (⟨key, narr, lastOf l none, some k⟩ :
      NFTokenPage)) hlinked hleft hright
    rw [← List.singleton_append, ← List.append_assoc] at hnew
    have hset := KeyedMap.toList_set_mid (b := (⟨k, carr, some key, firstOf l' none⟩ :
      NFTokenPage)) hnew rfl
    rw [hset, linked_mid, List.append_assoc]
    rfl

/-- There is a page for the token, with room on it. -/
structure RoomFor (d : NFTokenDirectory) (page : NFTokenPage) (id : UInt256) (l : List Shelf)
    (k : ℕ) (ts : List UInt256) (l' : List Shelf) : Prop where
  page_eq : page = ⟨k, ts, lastOf l none, firstOf l' none⟩
  pages : d.pages.toList = linked none none (l ++ (k, ts) :: l')
  shelved : Shelved 0 (l ++ (k, ts) :: l')
  last : ∀ e ∈ (l ++ (k, ts) :: l').getLast?, e.1 = nftpageMax
  filled : ∀ e ∈ l ++ l', e.2 ≠ [] ∧ e.2.length ≤ kDirMaxTokensPerPage
  room : ts.length < kDirMaxTokensPerPage
  count : d.ownerCount = (l ++ (k, ts) :: l').length
  low : lastKey 0 l ≤ pageBits id
  high : pageBits id < k

theorem SplitsAt.shelved {j key : ℕ} (h : SplitsAt ts id j key)
    (hshelved : Shelved 0 (l ++ (k, ts) :: l')) (hlow : lastKey 0 l ≤ pageBits id)
    (hhigh : pageBits id < k) :
    Shelved 0 (l ++ (key, ts.take j) :: (k, ts.drop j) :: l') := by
  obtain ⟨hbefore, hkey, hts, horder, hrest⟩ := shelved_append.mp hshelved
  obtain ⟨hlowKey, hhighKey⟩ := h.key_bounds hts hlow hhigh
  exact shelved_append.mpr ⟨hbefore, hlowKey,
    fun t ht => ⟨(hts t (List.mem_of_mem_take ht)).1, h.before t ht⟩,
    List.Pairwise.sublist (List.take_sublist j ts) horder, hhighKey,
    fun t ht => ⟨h.after t ht, (hts t (List.mem_of_mem_drop ht)).2⟩,
    List.Pairwise.sublist (List.drop_sublist j ts) horder, hrest⟩

theorem getPageForToken_split {j key : ℕ} {prev next : Option ℕ}
    (hlocate : locatePage d id = some ⟨k, ts, prev, next⟩)
    (hfull : ts.length = kDirMaxTokensPerPage) (hsplit : splitIndex ts id = some j)
    (h : SplitsAt ts id j key) (hfree : (setNextOf d.pages prev key).find key = none) :
    getPageForToken d id = .ok
      (⟨((setNextOf d.pages prev key).set ⟨key, ts.take j, prev, some k⟩).set
        ⟨k, ts.drop j, some key, next⟩, d.ownerCount + 1⟩,
        if pageBits id < key then ⟨key, ts.take j, prev, some k⟩
        else ⟨k, ts.drop j, some key, next⟩) := by
  rw [getPageForToken, hlocate]
  dsimp only
  rw [if_neg (not_not.mpr hfull), hsplit]
  have hthrow : throwIf ((setNextOf d.pages prev key).find key).isSome = .ok () := by
    rw [hfree]
    rfl
  simp only [orElse, h.newKey, hthrow, bind, Except.bind, pure, Except.pure]

theorem getPageForToken_spec {shelves : List Shelf} (h : Holds d shelves)
    (hid : pageBits id < nftpageMax) :
    (getPageForToken d id = .error .tecNoSuitableNftokenPage ∧
        ∃ e ∈ shelves, e.2.length = kDirMaxTokensPerPage ∧ ∀ t ∈ e.2, pageBits t = pageBits id) ∨
      ∃ d' page l k ts l', getPageForToken d id = .ok (d', page) ∧
        RoomFor d' page id l k ts l' ∧ tokensOf (l ++ (k, ts) :: l') = tokensOf shelves := by
  rcases h.locatePage hid with ⟨rfl, hlocate⟩ | ⟨l, k, ts, l', rfl, hlow, hhigh, hlocate⟩
  · -- the first page
    have hempty : d.pages.toList = [] ++ [] := h.pages
    refine .inr ⟨_, _, [], nftpageMax, [], [], by rw [getPageForToken, hlocate], ?_, rfl⟩
    exact ⟨rfl, KeyedMap.toList_set_between hempty (fun _ hp => absurd hp List.not_mem_nil)
      (fun _ hp => absurd hp List.not_mem_nil), by simp [Shelved, InOrder, nftpageMax], by simp,
      fun _ he => absurd he List.not_mem_nil, Nat.zero_lt_succ _, by simp [h.count],
      Nat.zero_le _, hid⟩
  · obtain ⟨hbefore, hrest⟩ := shelved_append.mp h.shelved
    obtain ⟨hkey, hts, horder, hrest⟩ := hrest
    have hother : ∀ e ∈ l ++ l', e.2 ≠ [] ∧ e.2.length ≤ kDirMaxTokensPerPage := fun e he =>
      h.filled e (by
        rcases List.mem_append.mp he with he | he
        · exact List.mem_append_left _ he
        · exact List.mem_append_right _ (List.mem_cons_of_mem _ he))
    have hmem : (k, ts) ∈ l ++ (k, ts) :: l' := List.mem_append_right _ List.mem_cons_self
    by_cases hfull : ts.length = kDirMaxTokensPerPage
    · rcases splitIndex_spec horder hfull hid with ⟨hnone, hsame⟩ | ⟨j, key, hsplit, hs⟩
      · refine .inl ⟨?_, (k, ts), hmem, hfull, hsame⟩
        rw [getPageForToken, hlocate]
        dsimp only
        rw [if_neg (not_not.mpr hfull), hnone]
        rfl
      · obtain ⟨hlowKey, hhighKey⟩ := hs.key_bounds hts hlow hhigh
        obtain ⟨hfree, hpages⟩ := @split_pages l l' k ts d.pages key (ts.take j) (ts.drop j) h.pages
          h.shelved hlowKey hhighKey
        have hget := getPageForToken_split hlocate hfull hsplit hs hfree
        have htokens : tokensOf (l ++ (key, ts.take j) :: (k, ts.drop j) :: l') =
            tokensOf (l ++ (k, ts) :: l') := by
          simp only [tokensOf, List.flatMap_append, List.flatMap_cons]
          rw [← List.append_assoc (ts.take j), List.take_append_drop]
        have hcount : d.ownerCount + 1 =
            (l ++ (key, ts.take j) :: (k, ts.drop j) :: l').length := by
          rw [h.count]
          simp
          omega
        have hshelved := hs.shelved h.shelved hlow hhigh
        have hlast : ∀ e ∈ (l ++ (key, ts.take j) :: (k, ts.drop j) :: l').getLast?,
            e.1 = nftpageMax := by
          rw [last_mid, lastKey_cons]
          exact last_mid.mp h.last
        have htake : (ts.take j).length ≤ kDirMaxTokensPerPage :=
          (List.length_take_le' j ts).trans hfull.le
        have hdrop : (ts.drop j).length ≤ kDirMaxTokensPerPage := by
          rw [List.length_drop]
          omega
        by_cases hside : pageBits id < key
        · rw [if_pos hside] at hget
          refine .inr ⟨_, _, l, key, ts.take j, (k, ts.drop j) :: l', hget,
            ⟨rfl, hpages, hshelved, hlast, fun e he => ?_, hs.room hside, hcount, hlow, hside⟩,
            htokens⟩
          rcases List.mem_append.mp he with he | he
          · exact hother e (List.mem_append_left _ he)
          · rcases List.mem_cons.mp he with rfl | he
            · exact ⟨hs.rest hside, hdrop⟩
            · exact hother e (List.mem_append_right _ he)
        · have hle : key ≤ pageBits id := Nat.le_of_not_lt hside
          rw [if_neg hside] at hget
          have happend : l ++ (key, ts.take j) :: (k, ts.drop j) :: l' =
              (l ++ [(key, ts.take j)]) ++ (k, ts.drop j) :: l' := by simp
          rw [happend] at hpages hshelved hlast hcount htokens
          refine .inr ⟨_, _, l ++ [(key, ts.take j)], k, ts.drop j, l', hget,
            ⟨by rw [lastOf_concat], hpages, hshelved, hlast, fun e he => ?_, hs.room' hle, hcount,
              by rw [lastKey_concat]; exact hle, hhigh⟩, htokens⟩
          rcases List.mem_append.mp he with he | he
          · rcases List.mem_append.mp he with he | he
            · exact hother e (List.mem_append_left _ he)
            · obtain rfl := List.mem_singleton.mp he
              exact ⟨hs.rest' hle, htake⟩
          · exact hother e (List.mem_append_right _ he)
    · have hget : getPageForToken d id = .ok (d, ⟨k, ts, lastOf l none, firstOf l' none⟩) := by
        rw [getPageForToken, hlocate]
        dsimp only
        rw [if_pos hfull]
      exact .inr ⟨d, _, l, k, ts, l', hget, ⟨rfl, h.pages, h.shelved, h.last, hother,
        lt_of_le_of_ne (h.filled (k, ts) hmem).2 hfull, h.count, hlow, hhigh⟩, rfl⟩

/-- A token that is not held is put on the page for it, or cannot be since a page is full of tokens
with the same low bits. -/
theorem insertToken_spec {shelves : List Shelf} (h : Holds d shelves)
    (hid : pageBits id < nftpageMax) (hnew : id ∉ tokensOf shelves) :
    (insertToken d id = .error .tecNoSuitableNftokenPage ∧
        ∃ e ∈ shelves, e.2.length = kDirMaxTokensPerPage ∧ ∀ t ∈ e.2, pageBits t = pageBits id) ∨
      ∃ d' shelves', insertToken d id = .ok d' ∧ Holds d' shelves' ∧
        (tokensOf shelves').Perm (id :: tokensOf shelves) := by
  rcases getPageForToken_spec h hid with ⟨hget, hsame⟩ |
    ⟨d', page, l, k, ts, l', hget, hroom, htokens⟩
  · refine .inl ⟨?_, hsame⟩
    rw [insertToken, hget]
    rfl
  · have hsorted : ((ts ++ [id]).insertionSort fun a b => notAfter a b).Perm (id :: ts) :=
      (List.perm_insertionSort _ _).trans (List.perm_append_singleton id ts)
    have hids : id ∉ ts := fun hmem => hnew (by
      rw [← htokens]
      simp [tokensOf, hmem])
    obtain ⟨hbefore, hrest⟩ := shelved_append.mp hroom.shelved
    obtain ⟨hkey, hts, horder, hrest⟩ := hrest
    refine .inr ⟨{ d' with
      pages := d'.pages.set
        { page with nfTokens := (page.nfTokens ++ [id]).insertionSort fun a b => notAfter a b } },
      l ++ (k, (ts ++ [id]).insertionSort fun a b => notAfter a b) :: l', ?_,
      ⟨?_, ?_, ?_, ?_, ?_⟩, ?_⟩
    · rw [insertToken, hget]
      rfl
    · rw [hroom.page_eq]
      exact set_tokens hroom.pages _
    · refine shelved_append.mpr ⟨hbefore, hkey, fun t ht => ?_, horder.insert hids, hrest⟩
      rcases List.mem_cons.mp (hsorted.mem_iff.mp ht) with rfl | ht
      · exact ⟨hroom.low, hroom.high⟩
      · exact hts t ht
    · rw [last_mid]
      exact last_mid.mp hroom.last
    · intro e he
      rcases List.mem_append.mp he with he | he
      · exact hroom.filled e (List.mem_append_left _ he)
      · rcases List.mem_cons.mp he with rfl | he
        · refine ⟨fun hnil => ?_, ?_⟩
          · rw [show ((ts ++ [id]).insertionSort fun a b => notAfter a b) = [] from hnil] at hsorted
            exact absurd hsorted.length_eq (by simp)
          · rw [hsorted.length_eq]
            exact hroom.room
        · exact hroom.filled e (List.mem_append_right _ he)
    · rw [hroom.count]
      simp
    · rw [← htokens]
      simp only [tokensOf, List.flatMap_append, List.flatMap_cons]
      exact ((hsorted.append_right _).append_left _).trans List.perm_middle

end NFToken

end FalconLedger
