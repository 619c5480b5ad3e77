import FalconLedger.Properties.TokenShelves

/-!
# Removing tokens

A page that has lost a token takes over the page before it, and is taken over by the page after it,
where their tokens fit on one page; an empty page goes, and the last page takes over what the page
before it has.
-/

namespace FalconLedger

namespace NFToken

variable {d : NFTokenDirectory} {m : KeyedMap NFTokenPage.key} {l l' : List Shelf} {k k₁ k₂ : ℕ}
  {ts t₁ t₂ : List UInt256} {c : ℤ} {id : UInt256} {shelves : List Shelf}

/-! ### Two pages become one -/

theorem absorb_linked {p : NFTokenPage} {prev : Option ℕ} {x : List UInt256}
    (h : m.toList = linked none (some k₂) l ++ ⟨k₁, t₁, lastOf l none, some k₂⟩ ::
      ⟨k₂, t₂, some k₁, firstOf l' none⟩ :: linked (some k₂) none l')
    (hp : p = ⟨k₂, x, prev, firstOf l' none⟩) (hprev : prev = lastOf l none) :
    ((m.set p).erase k₁).toList = linked none none (l ++ (k₂, x) :: l') := by
  subst hp hprev
  have hfirst : m.toList = (linked none (some k₂) l ++ [⟨k₁, t₁, lastOf l none, some k₂⟩]) ++
      ⟨k₂, t₂, some k₁, firstOf l' none⟩ :: linked (some k₂) none l' := by
    rw [h, List.append_assoc]
    rfl
  have hset := KeyedMap.toList_set_mid (b := (⟨k₂, x, lastOf l none, firstOf l' none⟩ :
    NFTokenPage)) hfirst rfl
  rw [List.append_assoc] at hset
  rw [linked_mid]
  exact KeyedMap.toList_erase_mid hset

theorem linked_both (l l' : List Shelf) (k₁ k₂ : ℕ) (t₁ t₂ : List UInt256) :
    linked none none (l ++ (k₁, t₁) :: (k₂, t₂) :: l') =
      linked none (some k₁) l ++ ⟨k₁, t₁, lastOf l none, some k₂⟩ ::
        ⟨k₂, t₂, some k₁, firstOf l' none⟩ :: linked (some k₂) none l' := by
  rw [linked_mid]
  rfl

theorem absorb_first {x : List UInt256}
    (h : m.toList = linked none none (l ++ (k₁, t₁) :: (k₂, t₂) :: l'))
    (hprev : lastOf l none = none) :
    ((m.set ⟨k₂, x, none, firstOf l' none⟩).erase k₁).toList =
      linked none none (l ++ (k₂, x) :: l') := by
  obtain rfl := lastOf_eq_none hprev
  exact absorb_linked (l := []) h rfl rfl

theorem absorb_second {x : List UInt256} {k₀ : ℕ}
    (h : m.toList = linked none none (l ++ (k₁, t₁) :: (k₂, t₂) :: l'))
    (hprev : lastOf l none = some k₀) :
    ∃ p₀, m.find k₀ = some p₀ ∧
      (((m.set { p₀ with nextPageMin := some k₂ }).set
        ⟨k₂, x, some k₀, firstOf l' none⟩).erase k₁).toList =
          linked none none (l ++ (k₂, x) :: l') := by
  rw [linked_both] at h
  obtain ⟨p₀, hfind, -, hset⟩ := set_next h hprev (some k₂)
  exact ⟨p₀, hfind, absorb_linked hset rfl hprev.symm⟩

theorem mergePages_spec (h : m.toList = linked none none (l ++ (k₁, t₁) :: (k₂, t₂) :: l'))
    (hlt : k₁ < k₂) :
    (kDirMaxTokensPerPage < t₁.length + t₂.length ∧
      mergePages m ⟨k₁, t₁, lastOf l none, some k₂⟩ ⟨k₂, t₂, some k₁, firstOf l' none⟩ =
        .ok (false, m)) ∨
    (t₁.length + t₂.length ≤ kDirMaxTokensPerPage ∧ ∃ m',
      mergePages m ⟨k₁, t₁, lastOf l none, some k₂⟩ ⟨k₂, t₂, some k₁, firstOf l' none⟩ =
        .ok (true, m') ∧
      m'.toList = linked none none (l ++ (k₂, List.merge t₁ t₂ notAfter) :: l')) := by
  have h₁ : throwIf (k₂ ≤ k₁) = .ok () := if_neg (by omega)
  have h₂ : throwIf (some k₂ ≠ some k₂) = .ok () := if_neg (by simp)
  have h₃ : throwIf (some k₁ ≠ some k₁) = .ok () := if_neg (by simp)
  by_cases hfit : kDirMaxTokensPerPage < t₁.length + t₂.length
  · refine .inl ⟨hfit, ?_⟩
    simp only [mergePages, h₁, h₂, h₃, bind, Except.bind, pure, Except.pure]
    rw [if_pos hfit]
  · refine .inr ⟨by omega, ?_⟩
    cases hprev : lastOf l none with
    | none =>
      refine ⟨_, ?_, absorb_first h hprev⟩
      simp only [mergePages, h₁, h₂, h₃, bind, Except.bind, pure, Except.pure]
      rw [if_neg hfit]
    | some k₀ =>
      obtain ⟨p₀, hfind, hpages⟩ := @absorb_second m l l' k₁ k₂ t₁ t₂
        (List.merge t₁ t₂ notAfter) k₀ h hprev
      refine ⟨_, ?_, hpages⟩
      simp only [mergePages, h₁, h₂, h₃, hfind, orElse, bind, Except.bind, pure, Except.pure]
      rw [if_neg hfit]

theorem Shelved.merge (h : Shelved 0 (l ++ (k₁, t₁) :: (k₂, t₂) :: l')) :
    Shelved 0 (l ++ (k₂, List.merge t₁ t₂ notAfter) :: l') := by
  obtain ⟨hbefore, hlow, ht₁, ho₁, hlt, ht₂, ho₂, hrest⟩ := shelved_append.mp h
  refine shelved_append.mpr ⟨hbefore, hlow.trans hlt, fun t ht => ?_, ho₁.merge ho₂ ?_, hrest⟩
  · rcases List.mem_append.mp ((List.merge_perm_append _).mem_iff.mp ht) with ht | ht
    · exact ⟨(ht₁ t ht).1, (ht₁ t ht).2.trans hlt⟩
    · exact ⟨hlow.le.trans (ht₂ t ht).1, (ht₂ t ht).2⟩
  · intro t ht ht'
    have hbelow := (ht₁ t ht).2
    have habove := (ht₂ t ht').1
    omega

theorem mergeIfBoth_spec {q₁ q₂ : NFTokenPage}
    (h : Holds ⟨m, c⟩ (l ++ (k₁, t₁) :: (k₂, t₂) :: l')) (hq₁ : q₁.key = k₁) (hq₂ : q₂.key = k₂) :
    ∃ b m' l₁ x, mergeIfBoth m (some q₁) (some q₂) = .ok (b, m') ∧
      Holds ⟨m', c - if b = true then 1 else 0⟩ (l₁ ++ (k₂, x) :: l') ∧
      (tokensOf (l₁ ++ (k₂, x) :: l')).Perm (tokensOf (l ++ (k₁, t₁) :: (k₂, t₂) :: l')) := by
  have hpages : m.toList = linked none none (l ++ (k₁, t₁) :: (k₂, t₂) :: l') := h.pages
  have hlt : k₁ < k₂ := (shelved_append.mp h.shelved).2.2.2.2.1
  have hboth := hpages
  rw [linked_both] at hboth
  have hfind₁ : m.find k₁ = _ := KeyedMap.find_mid hboth
  have hsecond : m.toList = (linked none (some k₁) l ++ [⟨k₁, t₁, lastOf l none, some k₂⟩]) ++
      ⟨k₂, t₂, some k₁, firstOf l' none⟩ :: linked (some k₂) none l' := by
    rw [hboth, List.append_assoc]
    rfl
  have hfind₂ : m.find k₂ = _ := KeyedMap.find_mid hsecond
  have hcall : mergeIfBoth m (some q₁) (some q₂) =
      mergePages m ⟨k₁, t₁, lastOf l none, some k₂⟩ ⟨k₂, t₂, some k₁, firstOf l' none⟩ := by
    simp only [mergeIfBoth, hq₁, hq₂, hfind₁, hfind₂, orElse, bind, Except.bind]
  rcases mergePages_spec hpages hlt with ⟨-, hmerge⟩ | ⟨hfit, m', hmerge, hlist⟩
  · refine ⟨false, m, l ++ [(k₁, t₁)], t₂, hcall.trans hmerge, ?_, ?_⟩
    · rw [if_neg Bool.false_ne_true, Int.sub_zero, List.append_assoc]
      exact h
    · rw [List.append_assoc]
      exact .refl _
  · refine ⟨true, m', l, _, hcall.trans hmerge, ⟨hlist, h.shelved.merge, ?_, fun e he => ?_, ?_⟩, ?_⟩
    · have hlast := h.last
      rw [last_mid, lastKey_cons] at hlast
      exact last_mid.mpr hlast
    · rcases List.mem_append.mp he with he | he
      · exact h.filled e (List.mem_append_left _ he)
      · rcases List.mem_cons.mp he with rfl | he
        · have hlength : (List.merge t₁ t₂ notAfter).length = t₁.length + t₂.length := by
            rw [(List.merge_perm_append _).length_eq, List.length_append]
          have hfilled := (h.filled (k₁, t₁) (by simp)).1
          refine ⟨List.ne_nil_of_length_pos ?_, hlength.trans_le hfit⟩
          have hpos := List.length_pos_iff.mpr hfilled
          dsimp only at hpos ⊢
          omega
        · exact h.filled e (by simp [he])
    · have hcount := h.count
      simp only [List.length_append, List.length_cons, if_true] at hcount ⊢
      omega
    · simp only [tokensOf, List.flatMap_append, List.flatMap_cons]
      rw [← List.append_assoc t₁]
      exact ((List.merge_perm_append _).append_right _).append_left _

/-- The page before page `k`, if there is one. -/
inductive PageBefore (k : ℕ) : List Shelf → Option NFTokenPage → Prop
  | none : PageBefore k [] none
  | some (l : List Shelf) (k₀ : ℕ) (t₀ : List UInt256) :
      PageBefore k (l ++ [(k₀, t₀)]) (some ⟨k₀, t₀, lastOf l .none, .some k⟩)

/-- The page after page `k`, if there is one. -/
inductive PageAfter (k : ℕ) : List Shelf → Option NFTokenPage → Prop
  | none : PageAfter k [] none
  | some (k₂ : ℕ) (t₂ : List UInt256) (l' : List Shelf) :
      PageAfter k ((k₂, t₂) :: l') (some ⟨k₂, t₂, .some k, firstOf l' .none⟩)

theorem mergeBefore_spec {prev : Option NFTokenPage} {q : NFTokenPage}
    (h : Holds ⟨m, c⟩ (l ++ (k, ts) :: l')) (hprev : PageBefore k l prev) (hq : q.key = k) :
    ∃ b m' l₁ x, mergeIfBoth m prev (some q) = .ok (b, m') ∧
      Holds ⟨m', c - if b = true then 1 else 0⟩ (l₁ ++ (k, x) :: l') ∧
      (tokensOf (l₁ ++ (k, x) :: l')).Perm (tokensOf (l ++ (k, ts) :: l')) := by
  cases hprev with
  | none =>
    exact ⟨false, m, [], ts, rfl, by rw [if_neg Bool.false_ne_true, Int.sub_zero]; exact h, .refl _⟩
  | some l₀ k₀ t₀ =>
    rw [List.append_assoc] at h ⊢
    exact mergeIfBoth_spec h rfl hq

theorem mergeAfter_spec {next : Option NFTokenPage} {q : NFTokenPage}
    (h : Holds ⟨m, c⟩ (l ++ (k, ts) :: l')) (hnext : PageAfter k₁ l' next) (hq : q.key = k) :
    ∃ b m' shelves, mergeIfBoth m (some q) next = .ok (b, m') ∧
      Holds ⟨m', c - if b = true then 1 else 0⟩ shelves ∧
      (tokensOf shelves).Perm (tokensOf (l ++ (k, ts) :: l')) := by
  cases hnext with
  | none =>
    exact ⟨false, m, _, rfl, by rw [if_neg Bool.false_ne_true, Int.sub_zero]; exact h, .refl _⟩
  | some k₂ t₂ l₂ =>
    have hq₂ : (⟨k₂, t₂, some k₁, firstOf l₂ none⟩ : NFTokenPage).key = k₂ := rfl
    obtain ⟨b, m', l₁, x, hmerge, hholds, hperm⟩ := mergeIfBoth_spec h hq hq₂
    exact ⟨b, m', _, hmerge, hholds, hperm⟩

/-! ### A page goes -/

theorem Shelved.remove (h : Shelved 0 (l ++ (k, ts) :: l')) : Shelved 0 (l ++ l') := by
  obtain ⟨hbefore, hlow, -, -, hrest⟩ := shelved_append.mp h
  exact shelved_append.mpr ⟨hbefore, hrest.mono hlow.le⟩

theorem loadPage_before (h : m.toList = linked none none (l ++ (k, ts) :: l')) :
    ∃ prev, loadPage m (lastOf l none) = .ok prev ∧ PageBefore k l prev := by
  cases l using List.reverseRecOn with
  | nil => exact ⟨none, rfl, .none⟩
  | append_singleton l e =>
    obtain ⟨k₀, t₀⟩ := e
    rw [List.append_assoc, List.singleton_append, linked_both] at h
    have hfind : m.find k₀ = _ := KeyedMap.find_mid h
    refine ⟨_, ?_, .some l k₀ t₀⟩
    rw [lastOf_concat, loadPage, hfind]
    rfl

theorem loadPage_after (h : m.toList = linked none none (l ++ (k, ts) :: l')) :
    ∃ next, loadPage m (firstOf l' none) = .ok next ∧ PageAfter k l' next := by
  cases l' with
  | nil => exact ⟨none, rfl, .none⟩
  | cons e l' =>
    obtain ⟨k₂, t₂⟩ := e
    have hsecond : m.toList = (linked none (some k) l ++ [⟨k, ts, lastOf l none, some k₂⟩]) ++
        ⟨k₂, t₂, some k, firstOf l' none⟩ :: linked (some k₂) none l' := by
      rw [h, linked_both, List.append_assoc]
      rfl
    have hfind : m.find k₂ = _ := KeyedMap.find_mid hsecond
    refine ⟨_, ?_, .some k₂ t₂ l'⟩
    rw [show firstOf ((k₂, t₂) :: l') none = some k₂ from rfl, loadPage, hfind]
    rfl

theorem removePage_last {k₀ : ℕ} {t₀ : List UInt256} {next : Option NFTokenPage}
    (hpages : d.pages.toList = linked none none (l ++ (k₀, t₀) :: [(k, ts)]))
    (hlast : k = nftpageMax) :
    ∃ m', removePage d ⟨k, [], some k₀, none⟩ (some ⟨k₀, t₀, lastOf l none, some k⟩) next =
        .ok ⟨m', d.ownerCount - 1⟩ ∧ m'.toList = linked none none (l ++ [(k, t₀)]) := by
  cases hprev : lastOf l none with
  | none =>
    refine ⟨_, ?_, absorb_first hpages hprev⟩
    rw [removePage]
    dsimp only
    rw [if_pos hlast]
    rfl
  | some k₁ =>
    obtain ⟨p₀, hfind, hset⟩ := @absorb_second d.pages l [] k₀ k t₀ ts t₀ k₁ hpages hprev
    refine ⟨_, ?_, hset⟩
    rw [removePage]
    dsimp only
    rw [if_pos hlast, hfind]
    rfl

theorem removePage_between {k₀ : ℕ} {t₀ : List UInt256}
    (hpages : d.pages.toList = linked none none (l ++ (k₀, t₀) :: (k, ts) :: (k₂, t₂) :: l'))
    (hne : k ≠ nftpageMax) :
    ∃ m', m'.toList = linked none none (l ++ (k₀, t₀) :: (k₂, t₂) :: l') ∧
      ∀ merged pages, mergeIfBoth m' (some ⟨k₀, t₀, lastOf l none, some k⟩)
        (some ⟨k₂, t₂, some k, firstOf l' none⟩) = .ok (merged, pages) →
          removePage d ⟨k, [], some k₀, some k₂⟩ (some ⟨k₀, t₀, lastOf l none, some k⟩)
            (some ⟨k₂, t₂, some k, firstOf l' none⟩) =
              .ok ⟨pages, d.ownerCount - if merged then 2 else 1⟩ := by
  have hthree : d.pages.toList = linked none (some k₀) l ++ ⟨k₀, t₀, lastOf l none, some k⟩ ::
      ⟨k, ts, some k₀, some k₂⟩ :: ⟨k₂, t₂, some k, firstOf l' none⟩ ::
        linked (some k₂) none l' := by
    rw [hpages, linked_mid]
    rfl
  have hnext := KeyedMap.toList_set_mid (b := (⟨k₀, t₀, lastOf l none, some k₂⟩ : NFTokenPage))
    hthree rfl
  rw [List.append_cons, List.append_cons] at hnext
  have hback := KeyedMap.toList_set_mid (b := (⟨k₂, t₂, some k₀, firstOf l' none⟩ : NFTokenPage))
    hnext rfl
  rw [List.append_assoc, List.singleton_append] at hback
  refine ⟨((d.pages.set ⟨k₀, t₀, lastOf l none, some k₂⟩).set
    ⟨k₂, t₂, some k₀, firstOf l' none⟩).erase k, ?_, fun merged pages hmerge => ?_⟩
  · rw [linked_both, List.append_cons]
    exact KeyedMap.toList_erase_mid hback
  · rw [removePage]
    dsimp only [Option.map_some]
    rw [if_neg hne, hmerge]
    rfl

theorem removePage_spec {prev next : Option NFTokenPage}
    (hpages : d.pages.toList = linked none none (l ++ (k, ts) :: l'))
    (hshelved : Shelved 0 (l ++ (k, ts) :: l'))
    (hlast : ∀ e ∈ (l ++ (k, ts) :: l').getLast?, e.1 = nftpageMax)
    (hfilled : ∀ e ∈ l ++ l', e.2 ≠ [] ∧ e.2.length ≤ kDirMaxTokensPerPage)
    (hcount : d.ownerCount = (l ++ (k, ts) :: l').length)
    (hprev : PageBefore k l prev) (hnext : PageAfter k l' next) :
    ∃ d' shelves, removePage d ⟨k, [], lastOf l none, firstOf l' none⟩ prev next = .ok d' ∧
      Holds d' shelves ∧ (tokensOf shelves).Perm (tokensOf (l ++ l')) := by
  have hlastKey := last_mid.mp hlast
  have hrest := (shelved_append.mp hshelved).2.2.2.2
  cases hprev with
  | none =>
    cases hnext with
    | none =>
      refine ⟨⟨d.pages.erase k, d.ownerCount - 1⟩, [], rfl, ⟨?_, trivial, by simp,
        fun _ he => absurd he List.not_mem_nil, by rw [hcount]; rfl⟩, .refl _⟩
      have hone : d.pages.toList = [] ++ ⟨k, ts, none, none⟩ :: [] := hpages
      exact KeyedMap.toList_erase_mid hone
    | some k₂ t₂ l₂ =>
      have hfirst : d.pages.toList = [⟨k, ts, none, some k₂⟩] ++
          linked (some k) none ((k₂, t₂) :: l₂) := hpages
      have herased := set_prev hfirst none
      refine ⟨⟨(d.pages.set ⟨k₂, t₂, none, firstOf l₂ none⟩).erase k, d.ownerCount - 1⟩,
        (k₂, t₂) :: l₂, rfl, ⟨?_, hshelved.remove (l := []), ?_, hfilled, ?_⟩, .refl _⟩
      · exact KeyedMap.toList_erase_mid (l := []) herased
      · rw [lastKey_cons] at hlastKey
        exact last_mid (l := []) |>.mpr hlastKey
      · rw [hcount]
        simp
  | some l₀ k₀ t₀ =>
    by_cases hmax : k = nftpageMax
    · have hnil : l' = [] := by
        cases l' with
        | nil => rfl
        | cons e l' =>
          have hlt := hrest.lt_key e List.mem_cons_self
          have hle := hrest.key_le_lastKey e List.mem_cons_self
          omega
      subst hnil
      cases hnext
      have hpages' : d.pages.toList = linked none none (l₀ ++ (k₀, t₀) :: [(k, ts)]) := by
        rw [hpages, List.append_assoc]
        rfl
      obtain ⟨m', hremove, hlist⟩ := @removePage_last d l₀ k ts k₀ t₀ none hpages' hmax
      refine ⟨_, l₀ ++ [(k, t₀)], hremove, ⟨hlist, ?_, ?_, fun e he => ?_, ?_⟩, ?_⟩
      · rw [List.append_assoc] at hshelved
        obtain ⟨hbefore, hlow, ht₀, ho₀, hlt, -⟩ := shelved_append.mp hshelved
        exact shelved_append.mpr ⟨hbefore, hlow.trans hlt,
          fun t ht => ⟨(ht₀ t ht).1, (ht₀ t ht).2.trans hlt⟩, ho₀, trivial⟩
      · exact last_mid.mpr hmax
      · rcases List.mem_append.mp he with he | he
        · exact hfilled e (by simp [he])
        · obtain rfl := List.mem_singleton.mp he
          exact hfilled (k₀, t₀) (by simp)
      · rw [hcount]
        simp
        omega
      · simp [tokensOf]
    · cases hnext with
      | none => exact absurd hlastKey hmax
      | some k₂ t₂ l₂ =>
        rw [List.append_assoc] at hpages
        obtain ⟨m', hlist, hremove⟩ := removePage_between hpages hmax
        have hremoved := hshelved.remove
        rw [List.append_assoc] at hremoved hfilled ⊢
        have hholds : Holds ⟨m', d.ownerCount - 1⟩ (l₀ ++ (k₀, t₀) :: (k₂, t₂) :: l₂) := by
          refine ⟨hlist, hremoved, ?_, hfilled, ?_⟩
          · rw [last_mid, lastKey_cons, ← lastKey_cons k (k₂, t₂)]
            exact hlastKey
          · rw [hcount]
            simp
            omega
        have hq₁ : (⟨k₀, t₀, lastOf l₀ none, some k⟩ : NFTokenPage).key = k₀ := rfl
        have hq₂ : (⟨k₂, t₂, some k, firstOf l₂ none⟩ : NFTokenPage).key = k₂ := rfl
        obtain ⟨b, m'', l₁, x, hmerge, hmerged, hperm⟩ := mergeIfBoth_spec hholds hq₁ hq₂
        refine ⟨_, _, ?_, hmerged, hperm⟩
        rw [lastOf_concat]
        refine (hremove b m'' hmerge).trans ?_
        cases b with
        | false => rw [if_neg Bool.false_ne_true, if_neg Bool.false_ne_true, Int.sub_zero]
        | true =>
          rw [if_pos rfl, if_pos rfl, Int.sub_sub]
          rfl

/-! ### A token goes -/

theorem Holds.lost (h : Holds d (l ++ (k, ts) :: l')) (hne : ts.erase id ≠ []) :
    Holds ⟨d.pages.set ⟨k, ts.erase id, lastOf l none, firstOf l' none⟩, d.ownerCount⟩
      (l ++ (k, ts.erase id) :: l') := by
  obtain ⟨hbefore, hlow, hts, horder, hrest⟩ := shelved_append.mp h.shelved
  refine ⟨set_tokens h.pages _, shelved_append.mpr ⟨hbefore, hlow, fun t ht =>
    hts t (List.mem_of_mem_erase ht), horder.sublist List.erase_sublist, hrest⟩, ?_,
    fun e he => ?_, ?_⟩
  · exact last_mid.mpr (last_mid.mp h.last)
  · rcases List.mem_append.mp he with he | he
    · exact h.filled e (List.mem_append_left _ he)
    · rcases List.mem_cons.mp he with rfl | he
      · exact ⟨hne, List.length_erase_le.trans (h.filled (k, ts) (by simp)).2⟩
      · exact h.filled e (by simp [he])
  · rw [h.count]
    simp

theorem tokensOf_erase (h : id ∈ ts) :
    (id :: tokensOf (l ++ (k, ts.erase id) :: l')).Perm (tokensOf (l ++ (k, ts) :: l')) := by
  simp only [tokensOf, List.flatMap_append, List.flatMap_cons]
  refine List.perm_middle.symm.trans (.append_left _ ?_)
  exact (List.perm_cons_erase h).symm.append_right _

theorem removeToken_spec (h : Holds d shelves) :
    (id ∉ tokensOf shelves ∧ removeToken d id = .error .tecNoEntry) ∨
      id ∈ tokensOf shelves ∧ ∃ d' shelves', removeToken d id = .ok d' ∧ Holds d' shelves' ∧
        (id :: tokensOf shelves').Perm (tokensOf shelves) := by
  by_cases hmem : id ∈ tokensOf shelves
  · refine .inr ⟨hmem, ?_⟩
    obtain ⟨l, k, ts, l', rfl, hid, hlocate⟩ := h.locatePage_of_mem hmem
    obtain ⟨prev, hloadPrev, hprev⟩ := loadPage_before h.pages
    obtain ⟨next, hloadNext, hnext⟩ := loadPage_after h.pages
    have hcontains : ts.contains id = true := List.contains_iff_mem.mpr hid
    by_cases hempty : ts.erase id = []
    · have hisEmpty : (ts.erase id).isEmpty = true := by rw [hempty]; rfl
      have hcall : removeToken d id =
          removePage d ⟨k, ts.erase id, lastOf l none, firstOf l' none⟩ prev next := by
        rw [removeToken, hlocate]
        simp only [orElse, hcontains, hloadPrev, hloadNext, hisEmpty, bind, Except.bind]
        rfl
      have hothers : ∀ e ∈ l ++ l', e.2 ≠ [] ∧ e.2.length ≤ kDirMaxTokensPerPage :=
        fun e he => h.filled e (by
          rcases List.mem_append.mp he with he | he
          · exact List.mem_append_left _ he
          · exact List.mem_append_right _ (List.mem_cons_of_mem _ he))
      obtain ⟨d', shelves', hremove, hholds, hperm⟩ := removePage_spec h.pages h.shelved h.last
        hothers h.count hprev hnext
      rw [hcall, hempty]
      refine ⟨d', shelves', hremove, hholds, ?_⟩
      have hone : (id :: tokensOf (l ++ l')).Perm (tokensOf (l ++ (k, ts) :: l')) := by
        have herase := @tokensOf_erase l l' k ts id hid
        rw [hempty] at herase
        refine .trans (.of_eq ?_) herase
        simp [tokensOf]
      exact (hperm.cons id).trans hone
    · have hlost := h.lost hempty
      obtain ⟨b₁, m₁, l₁, x₁, hfirst, hholds₁, hperm₁⟩ := mergeBefore_spec (q :=
        ⟨k, ts.erase id, lastOf l none, firstOf l' none⟩) hlost hprev rfl
      obtain ⟨b₂, m₂, shelves', hsecond, hholds₂, hperm₂⟩ := mergeAfter_spec (q :=
        ⟨k, ts.erase id, lastOf l none, firstOf l' none⟩) hholds₁ hnext rfl
      have hisEmpty : (ts.erase id).isEmpty = false := by simpa using hempty
      have hcall : removeToken d id = .ok ⟨m₂, d.ownerCount -
          ((if b₁ = true then 1 else 0) + if b₂ = true then 1 else 0)⟩ := by
        rw [removeToken, hlocate]
        simp only [orElse, hcontains, hloadPrev, hloadNext, hisEmpty, hfirst, hsecond, bind,
          Except.bind]
        rfl
      rw [Int.sub_sub] at hholds₂
      exact ⟨_, shelves', hcall, hholds₂,
        ((hperm₂.trans hperm₁).cons id).trans (tokensOf_erase hid)⟩
  · refine .inl ⟨hmem, ?_⟩
    rw [removeToken]
    cases hlocate : locatePage d id with
    | none => rfl
    | some page =>
      have hcontains : page.nfTokens.contains id = false := by
        rw [Bool.eq_false_iff, ne_eq, List.contains_iff_mem]
        exact fun ht => hmem (h.mem_of_locatePage hlocate ht)
      simp only [orElse, hcontains, bind, Except.bind]
      rfl

theorem findToken_iff (h : Holds d shelves) :
    findToken d id = some id ↔ id ∈ tokensOf shelves := by
  rw [findToken]
  constructor
  · intro hfind
    obtain ⟨page, hlocate, hfound⟩ := Option.bind_eq_some_iff.mp hfind
    exact h.mem_of_locatePage hlocate (List.mem_of_find?_eq_some hfound)
  · intro hmem
    obtain ⟨l, k, ts, l', rfl, hid, hlocate⟩ := h.locatePage_of_mem hmem
    rw [hlocate, Option.bind_some]
    cases hfound : ts.find? fun t => t = id with
    | none =>
      have hnot := List.find?_eq_none.mp hfound id hid
      simp at hnot
    | some t =>
      have ht : t = id := by simpa using List.find?_some hfound
      rw [ht]

end NFToken

end FalconLedger
