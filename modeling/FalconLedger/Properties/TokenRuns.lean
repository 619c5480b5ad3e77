import FalconLedger.Data.Run
import FalconLedger.Properties.TokenInsertion
import FalconLedger.Properties.TokenRemoval

/-!
# The pages over a run

Whatever tokens are inserted and removed, the pages stay a sorted, doubly linked list in which every
held token is found (`token_pages_run`).
-/

namespace FalconLedger

namespace NFToken

variable {d : NFTokenDirectory} {shelves : List Shelf} {held : List UInt256}

def emptyDirectory : NFTokenDirectory := ⟨KeyedMap.empty, 0⟩

/-- The tokens that are held, after an operation with this result. -/
def heldAfter (held : List UInt256) : TokenOp → Option NFTokenFailure → List UInt256
  | .insert id, none => id :: held
  | .remove id, none => held.erase id
  | _, some _ => held

/-- The directory, beside the tokens the operations have left with the owner. -/
def stepHeld (s : NFTokenDirectory × List UInt256) (op : TokenOp) :
    (NFTokenDirectory × List UInt256) × Option NFTokenFailure :=
  (((perform s.1 op).1, heldAfter s.2 op (perform s.1 op).2), (perform s.1 op).2)

/-- Only tokens that are not held are inserted, and none whose low bits are all ones. -/
def Admissible (s : NFTokenDirectory × List UInt256) : TokenOp → Prop
  | .insert id => id ∉ s.2 ∧ pageBits id < nftpageMax
  | .remove _ => True

instance (s : NFTokenDirectory × List UInt256) : (op : TokenOp) → Decidable (Admissible s op)
  | .insert id => inferInstanceAs (Decidable (id ∉ s.2 ∧ pageBits id < nftpageMax))
  | .remove _ => .isTrue trivial

/-- How an operation may end. -/
def Ends (held : List UInt256) : TokenOp → Option NFTokenFailure → Prop
  | .insert id, result => result = none ∨ result = some .tecNoSuitableNftokenPage ∧
      ∃ ts, ts ⊆ held ∧ ts.Nodup ∧ ts.length = kDirMaxTokensPerPage ∧
        ∀ t ∈ ts, pageBits t = pageBits id
  | .remove id, result => id ∈ held ∧ result = none ∨ id ∉ held ∧ result = some .tecNoEntry

/-- The pages are a sorted, doubly linked list of the held tokens. -/
structure Searchable (d : NFTokenDirectory) (held : List UInt256) : Prop where
  linked : d.pages.toList.IsChain fun p q =>
    p.nextPageMin = some q.key ∧ q.previousPageMin = some p.key
  first : ∀ p ∈ d.pages.toList.head?, p.previousPageMin = none
  last : ∀ p ∈ d.pages.toList.getLast?, p.nextPageMin = none ∧ p.key = nftpageMax
  size : ∀ p ∈ d.pages.toList, 1 ≤ p.nfTokens.length ∧ p.nfTokens.length ≤ kDirMaxTokensPerPage
  sorted : ∀ p ∈ d.pages.toList, p.nfTokens.Pairwise fun a b => compareTokens a b = true
  below : ∀ p ∈ d.pages.toList, ∀ t ∈ p.nfTokens, pageBits t < p.key
  above : d.pages.toList.IsChain fun p q => ∀ t ∈ q.nfTokens, p.key ≤ pageBits t
  ownerCount : d.ownerCount = d.pages.toList.length
  found : ∀ id, findToken d id = if id ∈ held then some id else none

theorem isChain_linked {prev next : Option ℕ} (l : List Shelf) :
    (linked prev next l).IsChain fun p q =>
      p.nextPageMin = some q.key ∧ q.previousPageMin = some p.key := by
  induction l generalizing prev with
  | nil => exact .nil
  | cons e l ih =>
    obtain ⟨k, ts⟩ := e
    cases l with
    | nil => exact .singleton _
    | cons e l => exact List.isChain_cons_cons.mpr ⟨⟨rfl, rfl⟩, ih⟩

theorem isChain_above {low : ℕ} {prev next : Option ℕ} {l : List Shelf} (h : Shelved low l) :
    (linked prev next l).IsChain fun p q => ∀ t ∈ q.nfTokens, p.key ≤ pageBits t := by
  induction l generalizing low prev with
  | nil => exact .nil
  | cons e l ih =>
    obtain ⟨-, -, -, hrest⟩ := h
    cases l with
    | nil => exact .singleton _
    | cons e l =>
      have htokens := hrest.2.1
      exact List.isChain_cons_cons.mpr ⟨fun t ht => (htokens t ht).1, ih hrest⟩

theorem Shelved.each {low : ℕ} {l : List Shelf} (h : Shelved low l) :
    ∀ e ∈ l, InOrder e.2 ∧ ∀ t ∈ e.2, pageBits t < e.1 := by
  induction l generalizing low with
  | nil => exact fun e he => absurd he List.not_mem_nil
  | cons e l ih =>
    obtain ⟨-, hts, horder, hrest⟩ := h
    intro e' he'
    rcases List.mem_cons.mp he' with rfl | he'
    · exact ⟨horder, fun t ht => (hts t ht).2⟩
    · exact ih hrest e' he'

theorem Holds.searchable (h : Holds d shelves) (hheld : ∀ id, id ∈ held ↔ id ∈ tokensOf shelves) :
    Searchable d held := by
  have hpages := h.pages
  refine ⟨hpages ▸ isChain_linked shelves, fun p hp => ?_, fun p hp => ?_, fun p hp => ?_,
    fun p hp => ?_, fun p hp => ?_, hpages ▸ isChain_above h.shelved, ?_, fun id => ?_⟩
  · rw [hpages] at hp
    cases shelves with
    | nil => cases hp
    | cons e l =>
      obtain rfl := Option.some.inj hp
      rfl
  · rw [hpages] at hp
    cases shelves using List.reverseRecOn with
    | nil => cases hp
    | append_singleton l e =>
      obtain ⟨k, ts⟩ := e
      rw [linked_mid, linked, List.getLast?_concat] at hp
      obtain rfl := Option.some.inj hp
      exact ⟨rfl, h.last (k, ts) (by simp)⟩
  · obtain ⟨hne, hle⟩ := h.filled _ (shelf_of_mem_linked (hpages ▸ hp))
    exact ⟨List.length_pos_iff.mpr hne, hle⟩
  · exact (h.shelved.each _ (shelf_of_mem_linked (hpages ▸ hp))).1
  · exact (h.shelved.each _ (shelf_of_mem_linked (hpages ▸ hp))).2
  · have hlength := congrArg List.length (map_key_linked none none shelves)
    rw [List.length_map, List.length_map] at hlength
    rw [hpages, h.count, hlength]
  · split_ifs with hid
    · exact (findToken_iff h).mpr ((hheld id).mp hid)
    · rw [findToken, Option.bind_eq_none_iff]
      intro page hlocate
      refine List.find?_eq_none.mpr fun t ht heq => ?_
      have ht := h.mem_of_locatePage hlocate ht
      rw [of_decide_eq_true heq] at ht
      exact hid ((hheld id).mpr ht)

/-! ### Operations -/

/-- The directory holds the tokens that the operations have left. -/
def Keeps (s : NFTokenDirectory × List UInt256) : Prop :=
  ∃ shelves, Holds s.1 shelves ∧ s.2.Perm (tokensOf shelves)

theorem keeps_empty : Keeps (emptyDirectory, []) :=
  ⟨[], ⟨KeyedMap.toList_empty, trivial, by simp, by simp, rfl⟩, .refl _⟩

theorem Keeps.perform {s : NFTokenDirectory × List UInt256} {op : TokenOp} (h : Keeps s)
    (hop : Admissible s op) :
    Ends s.2 op (NFToken.perform s.1 op).2 ∧ Keeps (stepHeld s op).1 := by
  obtain ⟨shelves, hholds, hperm⟩ := h
  cases op with
  | insert id =>
    obtain ⟨hid, hbits⟩ := hop
    have hnew : id ∉ tokensOf shelves := fun hmem => hid (hperm.mem_iff.mpr hmem)
    rcases insertToken_spec hholds hbits hnew with ⟨hfail, e, he, hlength, hsame⟩ |
      ⟨d', shelves', hok, hholds', hperm'⟩
    · have hresult : NFToken.perform s.1 (.insert id) = (s.1, some .tecNoSuitableNftokenPage) := by
        simp only [NFToken.perform, hfail]
      rw [stepHeld, hresult]
      refine ⟨.inr ⟨rfl, e.2, fun t ht => ?_, ?_, hlength, hsame⟩, shelves, hholds, hperm⟩
      · exact hperm.mem_iff.mpr (List.mem_flatMap.mpr ⟨e, he, ht⟩)
      · exact (hholds.shelved.each e he).1.nodup
    · have hresult : NFToken.perform s.1 (.insert id) = (d', none) := by
        simp only [NFToken.perform, hok]
      rw [stepHeld, hresult]
      exact ⟨.inl rfl, shelves', hholds', (hperm.cons id).trans hperm'.symm⟩
  | remove id =>
    rcases @removeToken_spec s.1 id shelves hholds with ⟨hid, hfail⟩ |
      ⟨hid, d', shelves', hok, hholds', hperm'⟩
    · have hresult : NFToken.perform s.1 (.remove id) = (s.1, some .tecNoEntry) := by
        simp only [NFToken.perform, hfail]
      rw [stepHeld, hresult]
      exact ⟨.inr ⟨fun hmem => hid (hperm.mem_iff.mp hmem), rfl⟩, shelves, hholds, hperm⟩
    · have hresult : NFToken.perform s.1 (.remove id) = (d', none) := by
        simp only [NFToken.perform, hok]
      rw [stepHeld, hresult]
      refine ⟨.inl ⟨hperm.mem_iff.mpr hid, rfl⟩, shelves', hholds', ?_⟩
      have herased := (hperm.trans hperm'.symm).erase id
      rwa [List.erase_cons_head] at herased

/-- **Token pages.** Over every run of insertions and removals, of tokens whose low bits are not all
ones, the pages are a doubly linked list in the order of their keys, each with 1 to 32 tokens in order
that belong there; the owner count is their number, and exactly the held tokens are found. An insertion
fails only when 32 tokens with the same low bits are held, a removal only when the token is not held. -/
theorem token_pages_run {ops : List TokenOp}
    (hrun : Run.Always stepHeld Admissible (emptyDirectory, []) ops) :
    let s := Run.final stepHeld (emptyDirectory, []) ops
    Searchable s.1 s.2 ∧ ∀ op, Admissible s op → Ends s.2 op (perform s.1 op).2 ∧
      ((perform s.1 op).2 ≠ none → (perform s.1 op).1 = s.1) := by
  intro s
  have hkeeps : Keeps s :=
    Run.invariant Keeps (fun s op hs hop => (hs.perform hop).2) keeps_empty hrun
  refine ⟨?_, fun op hop => ⟨(hkeeps.perform hop).1, fun hfailed => ?_⟩⟩
  · obtain ⟨shelves, hholds, hperm⟩ := hkeeps
    exact hholds.searchable fun id => hperm.mem_iff
  · cases op with
    | insert id =>
      cases hresult : insertToken s.1 id with
      | ok d => simp [perform, hresult] at hfailed
      | error e => simp only [perform, hresult]
    | remove id =>
      cases hresult : removeToken s.1 id with
      | ok d => simp [perform, hresult] at hfailed
      | error e => simp only [perform, hresult]

/-! ### What does not hold -/

/-- Tokens inserted in order. -/
def ascendingInserts (n : ℕ) : List TokenOp :=
  (List.range n).map fun i => .insert (BitVec.ofNat 256 i)

/-- Tokens whose low bits are all ones. -/
def allOnesInserts (n : ℕ) : List TokenOp :=
  (List.range n).map fun i => .insert (BitVec.ofNat 256 (i * 2 ^ 96 + nftpageMax))

/-- What operations lead to from an empty directory. -/
def after (ops : List TokenOp) : NFTokenDirectory × List UInt256 :=
  Run.final stepHeld (emptyDirectory, []) ops

/-- After 49 insertions in order, two neighbouring pages have 16 tokens each. After 16 insertions in
order and 16 of tokens whose low bits are all ones, the page cannot be split: the key of the new page
would be that of the last one. -/
theorem full_pages_split :
    ((after (ascendingInserts 49)).1.pages.find 16).map
        (fun p => (p.nfTokens.length, p.nextPageMin)) = some (16, some 32) ∧
      ((after (ascendingInserts 49)).1.pages.find 32).map (fun p => p.nfTokens.length) = some 16 ∧
      (after (ascendingInserts 16 ++ allOnesInserts 16)).2.length = 32 ∧
      16 ∉ (after (ascendingInserts 16 ++ allOnesInserts 16)).2 ∧
      (perform (after (ascendingInserts 16 ++ allOnesInserts 16)).1 (.insert 16)).2 =
        some .exception := by
  decide +kernel

theorem token_pages_run_ascending :
    Searchable (after (ascendingInserts 49)).1 (after (ascendingInserts 49)).2 := by
  have hrun : Run.Always stepHeld Admissible (emptyDirectory, []) (ascendingInserts 49) := by
    decide +kernel
  exact (token_pages_run hrun).1

end NFToken

end FalconLedger
