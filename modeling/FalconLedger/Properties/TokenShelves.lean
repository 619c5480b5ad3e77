import FalconLedger.Ledger.NFTokenPages
import Mathlib.Data.List.TakeWhile

/-!
# Shelves of tokens

Pages without their links: keys, and the tokens filed under each. `Shelved` says that keys and
tokens are in order, and `linked` puts the links back.
-/

namespace FalconLedger

namespace NFToken

/-! ### The order of tokens -/

theorem compareTokens_iff {a b : UInt256} : compareTokens a b = true ↔
    pageBits a < pageBits b ∨ pageBits a = pageBits b ∧ a.toNat < b.toNat := by
  rw [compareTokens]
  split_ifs with h
  · simp [h]
  · simp [not_not.mp h]

theorem notAfter_iff {a b : UInt256} : notAfter a b = true ↔
    pageBits a < pageBits b ∨ pageBits a = pageBits b ∧ a.toNat ≤ b.toNat := by
  rw [notAfter, Bool.not_eq_true', Bool.eq_false_iff, ne_eq, compareTokens_iff]
  omega

theorem notAfter_trans (a b c : UInt256) (hab : notAfter a b = true) (hbc : notAfter b c = true) :
    notAfter a c = true := by
  rw [notAfter_iff] at hab hbc ⊢
  omega

theorem notAfter_total (a b : UInt256) : (notAfter a b || notAfter b a) = true := by
  rw [Bool.or_eq_true, notAfter_iff, notAfter_iff]
  omega

/-- Strictly in order. -/
def InOrder (ts : List UInt256) : Prop := ts.Pairwise fun a b => compareTokens a b = true

theorem InOrder.nodup {ts : List UInt256} (h : InOrder ts) : ts.Nodup :=
  List.Pairwise.imp (fun {a b} hab heq => by
    rw [heq, compareTokens_iff] at hab
    omega) h

theorem InOrder.of_notAfter {ts : List UInt256}
    (h : ts.Pairwise fun a b => notAfter a b = true) (hnodup : ts.Nodup) : InOrder ts := by
  refine List.Pairwise.imp ?_ (h.and hnodup)
  rintro a b ⟨hab, hne⟩
  rw [notAfter_iff] at hab
  rw [compareTokens_iff]
  have hne : a.toNat ≠ b.toNat := fun heq => hne (BitVec.eq_of_toNat_eq heq)
  omega

theorem InOrder.notAfter {ts : List UInt256} (h : InOrder ts) :
    ts.Pairwise fun a b => NFToken.notAfter a b = true :=
  List.Pairwise.imp (fun {a b} hab => by
    rw [compareTokens_iff] at hab
    rw [notAfter_iff]
    omega) h

theorem InOrder.insert {ts : List UInt256} {id : UInt256} (h : InOrder ts) (hid : id ∉ ts) :
    InOrder ((ts ++ [id]).insertionSort fun a b => NFToken.notAfter a b) := by
  have htotal : Std.Total fun a b => NFToken.notAfter a b = true :=
    ⟨fun a b => by simpa using notAfter_total a b⟩
  have htrans : IsTrans UInt256 fun a b => NFToken.notAfter a b = true := ⟨notAfter_trans⟩
  refine .of_notAfter (List.pairwise_insertionSort _ _)
    ((List.perm_insertionSort _ _).nodup_iff.mpr ?_)
  rw [← List.concat_eq_append]
  exact List.Nodup.concat hid h.nodup

theorem InOrder.merge {ts ts' : List UInt256} (h : InOrder ts) (h' : InOrder ts')
    (hdisjoint : ts.Disjoint ts') : InOrder (List.merge ts ts' NFToken.notAfter) :=
  .of_notAfter (List.pairwise_merge notAfter_trans notAfter_total _ _ h.notAfter h'.notAfter)
    ((List.merge_perm_append _).nodup_iff.mpr
      (List.nodup_append'.mpr ⟨h.nodup, h'.nodup, hdisjoint⟩))

/-! ### Shelves -/

/-- A key and the tokens filed under it. -/
abbrev Shelf := ℕ × List UInt256

/-- The keys ascend, and the tokens of each are in order, below it and not below the key before. -/
def Shelved : ℕ → List Shelf → Prop
  | _, [] => True
  | low, (k, ts) :: rest =>
    low < k ∧ (∀ t ∈ ts, low ≤ pageBits t ∧ pageBits t < k) ∧ InOrder ts ∧ Shelved k rest

/-- The last key of a list, or `low`. -/
def lastKey (low : ℕ) (l : List Shelf) : ℕ := (l.getLast?.map Prod.fst).getD low

@[simp] theorem lastKey_nil (low : ℕ) : lastKey low [] = low := rfl

@[simp] theorem lastKey_concat (low : ℕ) (l : List Shelf) (e : Shelf) :
    lastKey low (l ++ [e]) = e.1 := by
  simp [lastKey]

theorem lastKey_cons (low : ℕ) (e : Shelf) (l : List Shelf) :
    lastKey low (e :: l) = lastKey e.1 l := by
  cases l using List.reverseRecOn with
  | nil => rfl
  | append_singleton l e' =>
    rw [← List.cons_append, lastKey_concat, lastKey_concat]

theorem shelved_append {low : ℕ} {l l' : List Shelf} :
    Shelved low (l ++ l') ↔ Shelved low l ∧ Shelved (lastKey low l) l' := by
  induction l generalizing low with
  | nil => simp [Shelved]
  | cons e l ih =>
    obtain ⟨k, ts⟩ := e
    rw [List.cons_append, Shelved, Shelved, ih, lastKey_cons]
    simp only [and_assoc]

theorem Shelved.mono {low low' : ℕ} {l : List Shelf} (h : Shelved low l) (hle : low' ≤ low) :
    Shelved low' l := by
  cases l with
  | nil => trivial
  | cons e l =>
    obtain ⟨hlow, hts, horder, hrest⟩ := h
    exact ⟨hle.trans_lt hlow, fun t ht => ⟨hle.trans (hts t ht).1, (hts t ht).2⟩, horder, hrest⟩

theorem Shelved.lt_key {low : ℕ} {l : List Shelf} (h : Shelved low l) : ∀ e ∈ l, low < e.1 := by
  induction l generalizing low with
  | nil => exact fun e he => absurd he List.not_mem_nil
  | cons e l ih =>
    obtain ⟨hlow, -, -, hrest⟩ := h
    intro e' he'
    rcases List.mem_cons.mp he' with rfl | he'
    · exact hlow
    · exact hlow.trans (ih hrest e' he')

theorem Shelved.le_bits {low : ℕ} {l : List Shelf} (h : Shelved low l) :
    ∀ e ∈ l, ∀ t ∈ e.2, low ≤ pageBits t := by
  induction l generalizing low with
  | nil => exact fun e he => absurd he List.not_mem_nil
  | cons e l ih =>
    obtain ⟨hlow, hts, -, hrest⟩ := h
    intro e' he' t ht
    rcases List.mem_cons.mp he' with rfl | he'
    · exact (hts t ht).1
    · exact hlow.le.trans (ih hrest e' he' t ht)

theorem Shelved.key_le_lastKey {low : ℕ} {l : List Shelf} (h : Shelved low l) :
    ∀ e ∈ l, e.1 ≤ lastKey low l := by
  induction l generalizing low with
  | nil => exact fun e he => absurd he List.not_mem_nil
  | cons e l ih =>
    obtain ⟨-, -, -, hrest⟩ := h
    intro e' he'
    rw [lastKey_cons]
    rcases List.mem_cons.mp he' with rfl | he'
    · cases l with
      | nil => exact le_rfl
      | cons e l => exact (hrest.lt_key e List.mem_cons_self).le.trans (ih hrest e List.mem_cons_self)
    · exact ih hrest e' he'

theorem lastKey_le {low x : ℕ} {l : List Shelf} (hlow : low ≤ x) (h : ∀ e ∈ l, e.1 ≤ x) :
    lastKey low l ≤ x := by
  cases l using List.reverseRecOn with
  | nil => exact hlow
  | append_singleton l e =>
    rw [lastKey_concat]
    exact h e (by simp)

theorem Shelved.bits_lt_lastKey {low : ℕ} {l : List Shelf} (h : Shelved low l) :
    ∀ e ∈ l, ∀ t ∈ e.2, pageBits t < lastKey low l := by
  induction l generalizing low with
  | nil => exact fun e he => absurd he List.not_mem_nil
  | cons e l ih =>
    have hkeys := h.key_le_lastKey
    obtain ⟨-, hts, -, hrest⟩ := h
    intro e' he' t ht
    rw [lastKey_cons]
    rcases List.mem_cons.mp he' with rfl | he'
    · have hle := hkeys _ List.mem_cons_self
      rw [lastKey_cons] at hle
      exact (hts t ht).2.trans_le hle
    · exact ih hrest e' he' t ht

/-! ### Links -/

/-- The pages of a list of shelves, between two others. -/
def linked (prev next : Option ℕ) : List Shelf → List NFTokenPage
  | [] => []
  | (k, ts) :: rest =>
    ⟨k, ts, prev, (rest.head?.map Prod.fst).or next⟩ :: linked (some k) next rest

/-- The links of a list to the lists around it. -/
def firstOf (l : List Shelf) (next : Option ℕ) : Option ℕ := (l.head?.map Prod.fst).or next

def lastOf (l : List Shelf) (prev : Option ℕ) : Option ℕ := (l.getLast?.map Prod.fst).or prev

theorem lastOf_cons (e : Shelf) (l : List Shelf) (prev : Option ℕ) :
    lastOf (e :: l) prev = lastOf l (some e.1) := by
  cases l using List.reverseRecOn with
  | nil => rfl
  | append_singleton l e' =>
    rw [← List.cons_append, lastOf, lastOf, List.getLast?_concat, List.getLast?_concat]
    rfl

@[simp] theorem lastOf_concat (l : List Shelf) (e : Shelf) (prev : Option ℕ) :
    lastOf (l ++ [e]) prev = some e.1 := by
  simp [lastOf]

theorem firstOf_append (l l' : List Shelf) (next : Option ℕ) :
    firstOf (l ++ l') next = firstOf l (firstOf l' next) := by
  cases l <;> simp [firstOf]

theorem linked_append (prev next : Option ℕ) (l l' : List Shelf) :
    linked prev next (l ++ l') =
      linked prev (firstOf l' next) l ++ linked (lastOf l prev) next l' := by
  induction l generalizing prev with
  | nil => rfl
  | cons e l ih =>
    obtain ⟨k, ts⟩ := e
    have hfirst := firstOf_append l l' next
    rw [firstOf, firstOf] at hfirst
    rw [List.cons_append, linked, linked, ih, lastOf_cons, hfirst]
    rfl

theorem map_key_linked (prev next : Option ℕ) (l : List Shelf) :
    (linked prev next l).map NFTokenPage.key = l.map Prod.fst := by
  induction l generalizing prev with
  | nil => rfl
  | cons e l ih =>
    obtain ⟨k, ts⟩ := e
    rw [linked, List.map_cons, ih, List.map_cons]

theorem key_of_mem_linked {prev next : Option ℕ} {l : List Shelf} {p : NFTokenPage}
    (h : p ∈ linked prev next l) : ∃ e ∈ l, e.1 = p.key := by
  have hkey := @List.mem_map_of_mem _ _ _ _ NFTokenPage.key h
  rw [map_key_linked] at hkey
  exact List.mem_map.mp hkey

theorem linked_mid (prev next : Option ℕ) (l l' : List Shelf) (k : ℕ) (ts : List UInt256) :
    linked prev next (l ++ (k, ts) :: l') = linked prev (some k) l ++
      ⟨k, ts, lastOf l prev, firstOf l' next⟩ :: linked (some k) next l' := by
  rw [linked_append, linked]
  rfl

/-! ### A directory -/

/-- The tokens on all shelves. -/
def tokensOf (shelves : List Shelf) : List UInt256 := shelves.flatMap Prod.snd

/-- The pages of the directory are these shelves, the last of which is the greatest there is; none is
empty or holds more than it may. -/
structure Holds (d : NFTokenDirectory) (shelves : List Shelf) : Prop where
  pages : d.pages.toList = linked none none shelves
  shelved : Shelved 0 shelves
  last : ∀ e ∈ shelves.getLast?, e.1 = nftpageMax
  filled : ∀ e ∈ shelves, e.2 ≠ [] ∧ e.2.length ≤ kDirMaxTokensPerPage
  count : d.ownerCount = shelves.length

theorem Holds.key_le {d : NFTokenDirectory} {shelves : List Shelf} (h : Holds d shelves) :
    ∀ e ∈ shelves, e.1 ≤ nftpageMax := by
  intro e he
  have hle := h.shelved.key_le_lastKey e he
  cases shelves using List.reverseRecOn with
  | nil => exact absurd he List.not_mem_nil
  | append_singleton l e' =>
    rw [lastKey_concat, h.last e' (by simp)] at hle
    exact hle

theorem last_mid {l l' : List Shelf} {k key : ℕ} {ts : List UInt256} :
    (∀ e ∈ (l ++ (k, ts) :: l').getLast?, e.1 = key) ↔ lastKey k l' = key := by
  cases l' using List.reverseRecOn with
  | nil => simp
  | append_singleton l' e =>
    rw [← List.cons_append, ← List.append_assoc, List.getLast?_concat, lastKey_concat]
    simp

theorem Holds.locatePage {d : NFTokenDirectory} {shelves : List Shelf} (h : Holds d shelves)
    {id : UInt256} (hid : pageBits id < nftpageMax) :
    shelves = [] ∧ NFToken.locatePage d id = none ∨
      ∃ l k ts l', shelves = l ++ (k, ts) :: l' ∧ lastKey 0 l ≤ pageBits id ∧ pageBits id < k ∧
        NFToken.locatePage d id = some ⟨k, ts, lastOf l none, firstOf l' none⟩ := by
  have hsplit : shelves = shelves.takeWhile (fun e => e.1 ≤ pageBits id) ++
      shelves.dropWhile fun e => e.1 ≤ pageBits id := (List.takeWhile_append_dropWhile).symm
  have hbefore : ∀ e ∈ shelves.takeWhile (fun e => e.1 ≤ pageBits id), e.1 ≤ pageBits id :=
    fun e he => by simpa using List.mem_takeWhile_imp he
  cases hdrop : shelves.dropWhile fun e => e.1 ≤ pageBits id with
  | nil =>
    refine .inl ?_
    rw [hdrop, List.append_nil] at hsplit
    have hnil : shelves = [] := by
      cases hl : shelves using List.reverseRecOn with
      | nil => rfl
      | append_singleton l e =>
        have hlast := h.last e (by simp [hl])
        have hle := hbefore e (by rw [← hsplit, hl]; simp)
        omega
    refine ⟨hnil, ?_⟩
    have hempty : d.pages.toList = [] := by rw [h.pages, hnil, linked]
    rw [NFToken.locatePage, KeyedMap.find_eq_none_iff, hempty]
    exact fun p hp => absurd hp List.not_mem_nil
  | cons e l' =>
    obtain ⟨k, ts⟩ := e
    have hafter : pageBits id < k := by
      have hnot := List.head?_dropWhile_not (fun e : Shelf => decide (e.1 ≤ pageBits id)) shelves
      rw [hdrop] at hnot
      simpa using hnot
    refine .inr ⟨_, k, ts, l', hdrop ▸ hsplit, ?_, ?_, ?_⟩
    · exact lastKey_le (Nat.zero_le _) hbefore
    · exact hafter
    · have hpages := h.pages
      rw [hsplit, hdrop, linked_mid] at hpages
      have hsucc : d.pages.succ (pageBits id) = some k :=
        KeyedMap.succ_eq_some hpages (fun p hp => by
          obtain ⟨e, he, heq⟩ := key_of_mem_linked hp
          exact heq ▸ hbefore e he) hafter
      rw [NFToken.locatePage, hsucc]
      exact KeyedMap.find_mid hpages

/-! ### Held tokens -/

theorem mem_tokensOf_mid {l l' : List Shelf} {k : ℕ} {ts : List UInt256} {id : UInt256}
    (h : Shelved 0 (l ++ (k, ts) :: l')) (hlow : lastKey 0 l ≤ pageBits id)
    (hhigh : pageBits id < k) : id ∈ tokensOf (l ++ (k, ts) :: l') ↔ id ∈ ts := by
  obtain ⟨hbefore, -, -, -, hrest⟩ := shelved_append.mp h
  refine ⟨fun hmem => ?_, fun hmem => by simp [tokensOf, hmem]⟩
  obtain ⟨e, he, hid⟩ := List.mem_flatMap.mp hmem
  rcases List.mem_append.mp he with he | he
  · have hlt := hbefore.bits_lt_lastKey e he id hid
    omega
  · rcases List.mem_cons.mp he with rfl | he
    · exact hid
    · have hle := hrest.le_bits e he id hid
      omega

theorem Holds.locatePage_of_mem {d : NFTokenDirectory} {shelves : List Shelf} (h : Holds d shelves)
    {id : UInt256} (hmem : id ∈ tokensOf shelves) :
    ∃ l k ts l', shelves = l ++ (k, ts) :: l' ∧ id ∈ ts ∧
      NFToken.locatePage d id = some ⟨k, ts, lastOf l none, firstOf l' none⟩ := by
  obtain ⟨e, he, hid⟩ := List.mem_flatMap.mp hmem
  have hlt : pageBits id < nftpageMax := (h.shelved.bits_lt_lastKey e he id hid).trans_le
    (lastKey_le (Nat.zero_le _) h.key_le)
  rcases h.locatePage hlt with ⟨rfl, -⟩ | ⟨l, k, ts, l', rfl, hlow, hhigh, hlocate⟩
  · exact absurd he List.not_mem_nil
  · exact ⟨l, k, ts, l', rfl, (mem_tokensOf_mid h.shelved hlow hhigh).mp hmem, hlocate⟩

theorem shelf_of_mem_linked {prev next : Option ℕ} {l : List Shelf} {p : NFTokenPage}
    (h : p ∈ linked prev next l) : (p.key, p.nfTokens) ∈ l := by
  induction l generalizing prev with
  | nil => exact absurd h List.not_mem_nil
  | cons e l ih =>
    rcases List.mem_cons.mp h with rfl | h
    · exact List.mem_cons_self
    · exact List.mem_cons_of_mem _ (ih h)

theorem Holds.mem_of_locatePage {d : NFTokenDirectory} {shelves : List Shelf} (h : Holds d shelves)
    {id t : UInt256} {page : NFTokenPage} (hlocate : NFToken.locatePage d id = some page)
    (ht : t ∈ page.nfTokens) : t ∈ tokensOf shelves := by
  have hkey := d.pages.key_eq _ _ hlocate
  have hmem : page ∈ d.pages.toList := (d.pages.mem_toList page).mpr (hkey.symm ▸ hlocate)
  rw [h.pages] at hmem
  exact List.mem_flatMap.mpr ⟨_, shelf_of_mem_linked hmem, ht⟩

/-! ### Changes of the links -/

variable {m : KeyedMap NFTokenPage.key} {l : List Shelf} {pages : List NFTokenPage}

theorem set_next {next : Option ℕ} {k : ℕ} (h : m.toList = linked none next l ++ pages)
    (hlast : lastOf l none = some k) (next' : Option ℕ) :
    ∃ p, m.find k = some p ∧ p.key = k ∧
      (m.set { p with nextPageMin := next' }).toList = linked none next' l ++ pages := by
  cases l using List.reverseRecOn with
  | nil => cases hlast
  | append_singleton l e =>
    obtain ⟨k', ts⟩ := e
    rw [lastOf_concat] at hlast
    obtain rfl := Option.some.inj hlast
    rw [linked_mid, List.append_assoc] at h
    refine ⟨_, KeyedMap.find_mid h, rfl, ?_⟩
    rw [linked_mid, List.append_assoc]
    exact KeyedMap.toList_set_mid h rfl

theorem lastOf_eq_none {prev : Option ℕ} (h : lastOf l prev = none) : l = [] := by
  cases l using List.reverseRecOn with
  | nil => rfl
  | append_singleton l e =>
    rw [lastOf_concat] at h
    cases h

theorem set_nextOf {next : Option ℕ} (h : m.toList = linked none next l ++ pages) (next' : ℕ) :
    (setNextOf m (lastOf l none) next').toList = linked none (some next') l ++ pages := by
  rw [setNextOf]
  cases hlast : lastOf l none with
  | none =>
    obtain rfl := lastOf_eq_none hlast
    exact h
  | some k =>
    obtain ⟨p, hfind, -, hset⟩ := set_next h hlast (some next')
    rw [Option.bind_some, hfind]
    exact hset

theorem set_tokens {l' : List Shelf} {k : ℕ} {ts : List UInt256}
    (h : m.toList = linked none none (l ++ (k, ts) :: l')) (ts' : List UInt256) :
    (m.set ⟨k, ts', lastOf l none, firstOf l' none⟩).toList =
      linked none none (l ++ (k, ts') :: l') := by
  rw [linked_mid] at h ⊢
  exact KeyedMap.toList_set_mid h rfl

theorem set_prev {prev : Option ℕ} {k : ℕ} {ts : List UInt256}
    (h : m.toList = pages ++ linked prev none ((k, ts) :: l)) (prev' : Option ℕ) :
    (m.set ⟨k, ts, prev', firstOf l none⟩).toList = pages ++ linked prev' none ((k, ts) :: l) :=
  KeyedMap.toList_set_mid h rfl

end NFToken

end FalconLedger
