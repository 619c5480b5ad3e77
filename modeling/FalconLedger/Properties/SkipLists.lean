import FalconLedger.Close.BuildLedger
import FalconLedger.Ledger.SkipList

/-!
# Skip lists identify ancestors

The two kinds of lists along a chain: the last 256 hashes are those of the last 256 ancestors, and
the page of a 256th ledger counts back from the last one entered in steps of 256.
-/

namespace FalconLedger

namespace LinkedLedger

/-! ### Bits of a sequence number -/

theorem and_ff_iff (x : UInt32) : x &&& 0xff = 0 ↔ x.toNat % 256 = 0 := by
  rw [← UInt32.toNat_inj, UInt32.toNat_and, show (0xff : UInt32).toNat = 2 ^ 8 - 1 from rfl,
    Nat.and_two_pow_sub_one_eq_mod]
  rfl

theorem toNat_shiftRight_16 (x : UInt32) : (x >>> 16).toNat = x.toNat / 65536 := by
  rw [UInt32.toNat_shiftRight, show (16 : UInt32).toNat % 32 = 16 from rfl, Nat.shiftRight_eq_div_pow]

theorem toNat_shiftRight_8 (x : UInt32) : (x >>> 8).toNat = x.toNat / 256 := by
  rw [UInt32.toNat_shiftRight, show (8 : UInt32).toNat % 32 = 8 from rfl, Nat.shiftRight_eq_div_pow]

theorem page_eq_iff (x y : UInt32) : x >>> 16 = y >>> 16 ↔ x.toNat / 65536 = y.toNat / 65536 := by
  rw [← UInt32.toNat_inj, toNat_shiftRight_16, toNat_shiftRight_16]

/-! ### Along the chain -/

/-- The page of a 256th ledger `s`: it counts back from the last one entered. -/
def PageHolds (hash : ℕ → UInt256) (n : ℕ) (pages : Table UInt32 LedgerHashes) (s : ℕ) : Prop :=
  ∃ entry, pages.lookup (UInt32.ofNat s >>> 16) = some entry ∧
    s ≤ entry.lastLedgerSequence.toNat ∧ entry.lastLedgerSequence.toNat ≤ n ∧
    entry.lastLedgerSequence.toNat % 256 = 0 ∧
    (n / 65536 = s / 65536 → n - entry.lastLedgerSequence.toNat < 256) ∧
    (entry.lastLedgerSequence.toNat - s) / 256 < entry.hashes.length ∧
    entry.hashes[entry.hashes.length - (entry.lastLedgerSequence.toNat - s) / 256 - 1]? =
      some (hash (s - 1))

/-- The hashes of the last 256 of `n` ledgers. -/
def window (hash : ℕ → UInt256) (n : ℕ) : List UInt256 := ((List.range n).drop (n - 256)).map hash

/-- The `n`-th ledger of a chain. -/
structure Linked (hash : ℕ → UInt256) (n : ℕ) (ledger : LinkedLedger) : Prop where
  seq : ledger.seq.toNat = n + 1
  own : ledger.hash = hash n
  parent : 0 < n → ledger.parentHash = hash (n - 1)
  start : n = 0 → ledger.skip = none
  skip : 0 < n → ∃ last, ledger.skip = some ⟨window hash n, last⟩
  pages : ∀ s, 0 < s → s ≤ n → s % 256 = 0 → PageHolds hash n ledger.pages s

variable {hash : ℕ → UInt256} {n : ℕ} {ledger : LinkedLedger}

theorem linked_genesis : Linked hash 0 (genesis (hash 0)) where
  seq := rfl
  own := rfl
  parent := fun h => absurd h (lt_irrefl 0)
  start := fun _ => rfl
  skip := fun h => absurd h (lt_irrefl 0)
  pages := fun s hpos hle => by omega

theorem length_window : (window hash n).length = min n 256 := by
  rw [window, List.length_map, List.length_drop, List.length_range]
  omega

theorem window_succ :
    window hash (n + 1) =
      (if (window hash n).length = 256 then (window hash n).tail else window hash n) ++ [hash n] := by
  rw [length_window]
  unfold window
  by_cases hn : n < 256
  · have hfew : n - 256 = 0 := by omega
    have hfew' : n + 1 - 256 = 0 := Nat.sub_eq_zero_of_le hn
    rw [if_neg (by omega), hfew, hfew', List.drop_zero, List.drop_zero, List.range_succ,
      List.map_append, List.map_singleton]
  · have hmany : n + 1 - 256 = n - 256 + 1 := by omega
    rw [if_pos (by omega), hmany, List.range_succ, List.drop_append_of_le_length (by simp; omega),
      List.map_append, ← List.map_tail, List.tail_drop, List.map_singleton]

theorem addToPage_holds {pages : Table UInt32 LedgerHashes} {prevIndex : UInt32}
    (hprev : prevIndex.toNat = n + 1)
    (h : ∀ s, 0 < s → s ≤ n → s % 256 = 0 → PageHolds hash n pages s) {s : ℕ} (hpos : 0 < s)
    (hle : s ≤ n + 1) (hmult : s % 256 = 0) :
    PageHolds hash (n + 1) (addToPage pages prevIndex (hash n)) s := by
  have hlt : n + 1 < 2 ^ 32 := hprev ▸ prevIndex.toNat_lt
  have hofNat : (UInt32.ofNat s).toNat = s := UInt32.toNat_ofNat_of_lt' (Nat.lt_of_le_of_lt hle hlt)
  unfold addToPage
  by_cases hnew : prevIndex &&& 0xff = 0
  · rw [if_pos hnew]
    rw [and_ff_iff, hprev] at hnew
    by_cases hpage : UInt32.ofNat s >>> 16 = prevIndex >>> 16
    · -- the page that has grown
      refine ⟨_, by rw [hpage]; exact AList.lookup_insert _, ?_⟩
      rw [page_eq_iff, hofNat, hprev] at hpage
      simp only [hprev, List.length_append, List.length_singleton]
      rcases Nat.lt_or_ge n s with hlast | hold
      · obtain rfl : s = n + 1 := by omega
        refine ⟨le_rfl, le_rfl, hnew, fun _ => by omega, by omega, ?_⟩
        rw [Nat.sub_self, Nat.zero_div, Nat.sub_zero, Nat.add_sub_cancel, List.getElem?_concat_length]
        rfl
      · obtain ⟨entry, hentry, h1, h2, h3, h4, h5, h6⟩ := h s hpos hold hmult
        have hprevLast : entry.lastLedgerSequence.toNat + 256 = n + 1 := by omega
        have hstep : (n + 1 - s) / 256 = (entry.lastLedgerSequence.toNat - s) / 256 + 1 := by omega
        have hlookup : pages.lookup (prevIndex >>> 16) = some entry := by
          rw [← hentry]
          congr 1
          rw [page_eq_iff, hofNat, hprev]
          exact hpage.symm
        simp only [hlookup, Option.map_some, Option.getD_some, hstep]
        refine ⟨by omega, le_rfl, hnew, fun _ => by omega, by omega, ?_⟩
        rw [← h6, List.getElem?_append_left (by omega)]
        congr 1
        omega
    · -- another page
      have hpage' := hpage
      rw [page_eq_iff, hofNat, hprev] at hpage'
      obtain ⟨entry, hentry, h1, h2, h3, h4, h5, h6⟩ := h s hpos (by
        rcases Nat.lt_or_ge n s with hlast | hold
        · exact absurd (by rw [show s = n + 1 by omega]) hpage'
        · exact hold) hmult
      refine ⟨entry, ?_, h1, by omega, h3, fun hsame => absurd hsame.symm hpage', h5, h6⟩
      rw [AList.lookup_insert_ne hpage]
      exact hentry
  · rw [if_neg hnew]
    rw [and_ff_iff, hprev] at hnew
    -- no page has changed, and the new ledger is not a 256th one
    have hold : s ≤ n := by
      rcases Nat.lt_or_ge n s with hlast | hold
      · exact absurd (show s = n + 1 by omega ▸ hmult) hnew
      · exact hold
    obtain ⟨entry, hentry, h1, h2, h3, h4, h5, h6⟩ := h s hpos hold hmult
    exact ⟨entry, hentry, h1, by omega, h3, fun hpage => by omega, h5, h6⟩

/-- **One more ledger** keeps both kinds of lists. -/
theorem Linked.successor (h : Linked hash n ledger) (hn : n + 2 < 2 ^ 32) :
    Linked hash (n + 1) (successor ledger (hash (n + 1))) := by
  have hseq : (ledger.seq + 1).toNat = n + 2 := by
    rw [UInt32.toNat_add, h.seq, show (1 : UInt32).toNat = 1 from rfl]
    omega
  have hne : ¬ledger.seq + 1 = 0 := by
    intro h0
    rw [h0] at hseq
    exact absurd hseq (by simp)
  have hprev : ledger.seq + 1 - 1 = ledger.seq := UInt32.add_sub_cancel _ _
  unfold LinkedLedger.successor updateSkipList
  simp only [if_neg hne, hprev, h.own]
  refine ⟨hseq, rfl, fun _ => rfl, fun h0 => absurd h0 n.succ_ne_zero, fun _ => ⟨ledger.seq, ?_⟩,
    fun s hpos hle hmult => addToPage_holds h.seq h.pages hpos hle hmult⟩
  have hrecent : (ledger.skip.map LedgerHashes.hashes).getD [] = window hash n := by
    rcases Nat.eq_zero_or_pos n with rfl | hpos
    · rw [h.start rfl]
      simp [window]
    · obtain ⟨last, hlast⟩ := h.skip hpos
      rw [hlast, Option.map_some, Option.getD_some]
  simp only [addToRecent, hrecent, window_succ]

theorem linked_chain (hash : ℕ → UInt256) (n : ℕ) (hn : n + 1 < 2 ^ 32) :
    Linked hash n (chain hash n) := by
  induction n with
  | zero => exact linked_genesis
  | succ n ih => exact (ih (by omega)).successor hn

/-! ### Reading the lists -/

theorem getElem?_window {d : ℕ} (hpos : 0 < d) (hd : d ≤ 256) (hn : d ≤ n) :
    (window hash n)[(window hash n).length - d]? = some (hash (n - d)) := by
  rw [length_window, window, List.getElem?_map, List.getElem?_drop,
    List.getElem?_range (by omega), Option.map_some]
  congr 2
  omega

theorem toInt_toInt32 (x : UInt32) :
    x.toInt32.toInt = if x.toNat < 2 ^ 31 then (x.toNat : Int) else x.toNat - 2 ^ 32 := by
  have hx : x.toInt32.toInt = x.toBitVec.toInt := rfl
  rw [hx, BitVec.toInt_eq_toNat_cond, UInt32.toNat_toBitVec]
  split_ifs <;> omega

theorem Linked.recentHash (h : Linked hash n ledger) {seq : UInt32} (hpos : 0 < seq.toNat)
    (hlt : seq.toNat < n + 1) :
    ledger.recentHash seq =
      if n + 1 - seq.toNat ≤ 256 then some (hash (seq.toNat - 1)) else none := by
  have hdiff : (ledger.seq - seq).toNat = n + 1 - seq.toNat := by
    rw [UInt32.toNat_sub_of_le _ _ (UInt32.le_iff_toNat_le.mpr (by rw [h.seq]; omega)), h.seq]
  have hbound : n + 1 < 2 ^ 32 := h.seq ▸ ledger.seq.toNat_lt
  obtain ⟨last, hskip⟩ := h.skip (by omega)
  have hlen := @length_window hash n
  unfold LinkedLedger.recentHash
  simp only [hskip, toInt_toInt32, hdiff, bind, Option.bind]
  by_cases hnear : n + 1 - seq.toNat ≤ 256
  · have hsmall : n + 1 - seq.toNat < 2 ^ 31 := by omega
    have hback : n - (n + 1 - seq.toNat) = seq.toNat - 1 := by omega
    rw [if_pos hsmall, if_pos (by omega), if_pos ⟨by omega, by omega⟩, if_pos hnear, Int.toNat_natCast,
      getElem?_window (by omega) hnear (by omega), hback]
  · rw [if_neg hnear]
    -- a difference so large that it is negative as an `int` is no size of a list either
    by_cases hsmall : n + 1 - seq.toNat < 2 ^ 31
    · rw [if_pos hsmall, if_neg (by omega)]
    · rw [if_neg hsmall, if_pos (by omega), if_neg (by omega)]

theorem Linked.pageHash (h : Linked hash n ledger) {seq : UInt32} (hpos : 0 < seq.toNat)
    (hle : seq.toNat ≤ n) (hmult : seq.toNat % 256 = 0) :
    ledger.pageHash seq = some (hash (seq.toNat - 1)) := by
  obtain ⟨entry, hentry, h1, -, -, -, h5, h6⟩ := h.pages seq.toNat hpos hle hmult
  have hdiff : ((entry.lastLedgerSequence - seq) >>> 8).toNat =
      (entry.lastLedgerSequence.toNat - seq.toNat) / 256 := by
    rw [toNat_shiftRight_8, UInt32.toNat_sub_of_le _ _ (UInt32.le_iff_toNat_le.mpr h1)]
  rw [UInt32.ofNat_toNat] at hentry
  unfold LinkedLedger.pageHash
  simp only [hentry, bind, Option.bind, hdiff]
  rw [if_pos h5, h6]

/-- **`hashOfSeq` answers with the ancestor's hash** for the last 256 ancestors and for every 256th, and
otherwise not at all. -/
theorem Linked.hashOfSeq (h : Linked hash n ledger) {seq : UInt32} (hpos : 0 < seq.toNat)
    (hle : seq.toNat ≤ n + 1) :
    ledger.hashOfSeq seq =
      if n + 1 - seq.toNat ≤ 256 ∨ seq.toNat % 256 = 0 then some (hash (seq.toNat - 1)) else none := by
  unfold LinkedLedger.hashOfSeq
  have hnlt : ¬ledger.seq < seq := by
    rw [UInt32.lt_iff_toNat_lt, h.seq]
    omega
  rw [if_neg hnlt]
  by_cases hself : seq = ledger.seq
  · rw [if_pos hself, h.own, hself, h.seq, if_pos (.inl (by omega))]
    rfl
  rw [if_neg hself]
  have hlt : seq.toNat < n + 1 := by
    rw [← UInt32.toNat_inj, h.seq] at hself
    omega
  by_cases hparent : seq = ledger.seq - 1
  · have hn : seq.toNat = n := by
      rw [hparent, UInt32.toNat_sub_of_le _ _ (UInt32.le_iff_toNat_le.mpr (by rw [h.seq]; simp)), h.seq]
      simp
    rw [if_pos hparent, h.parent (by omega), hn, if_pos (.inl (by omega))]
  rw [if_neg hparent, h.recentHash hpos hlt]
  by_cases hnear : n + 1 - seq.toNat ≤ 256
  · rw [if_pos hnear, Option.some_or, if_pos (Or.inl hnear)]
  rw [if_neg hnear, Option.none_or]
  by_cases hmult : seq.toNat % 256 = 0
  · rw [if_neg (not_not.mpr ((and_ff_iff seq).mpr hmult)), h.pageHash hpos (by omega) hmult,
      if_pos (Or.inr hmult)]
  · rw [if_pos (mt (and_ff_iff seq).mp hmult), if_neg (not_or.mpr ⟨hnear, hmult⟩)]

theorem linked_ledgerAt (hash : ℕ → UInt256) {seq : UInt32} (hseq : 0 < seq.toNat) :
    Linked hash (seq.toNat - 1) (ledgerAt hash seq) :=
  linked_chain hash _ (by have := seq.toNat_lt; omega)

theorem seq_ledgerAt (hash : ℕ → UInt256) {seq : UInt32} (hseq : 0 < seq.toNat) :
    (ledgerAt hash seq).seq = seq := by
  rw [← UInt32.toNat_inj, (linked_ledgerAt hash hseq).seq]
  omega

theorem scored_ancestor {hash : ℕ → UInt256} {seq : UInt32} {parent : Ledger} {rules : Rules}
    {ancestors : List UInt256}
    (hskip : parent.skip = (ledgerAt hash (seq - 1)).skip.map LedgerHashes.hashes)
    (hwindow : ValidatorScoring.windowOf parent seq rules = some ancestors) {i : ℕ}
    (hi : i < ancestors.length) :
    (ledgerAt hash (seq - 2 - UInt32.ofNat i)).seq = seq - 2 - UInt32.ofNat i ∧
      ancestors.getD (ancestors.length - 1 - i) 0 =
        (ledgerAt hash (seq - 2 - UInt32.ofNat i)).hash := by
  unfold ValidatorScoring.windowOf at hwindow
  split_ifs at hwindow with hflag
  rw [Option.filter_eq_some_iff, decide_eq_true_eq] at hwindow
  obtain ⟨hancestors, hlong⟩ := hwindow
  -- a flag ledger is not one of the first two
  have hmod : seq.toNat % 256 = 0 := by
    have := congrArg UInt32.toNat hflag.2.2
    rwa [UInt32.toNat_mod] at this
  have hpos : 0 < seq.toNat := by
    rcases Nat.eq_zero_or_pos seq.toNat with h0 | hpos
    · exact absurd (UInt32.toNat_inj.mp h0) hflag.2.1
    · exact hpos
  have hone : (1 : UInt32) ≤ seq := UInt32.le_iff_toNat_le.mpr hpos
  have hparent : (seq - 1).toNat = seq.toNat - 1 := UInt32.toNat_sub_of_le _ _ hone
  have hlinked := linked_ledgerAt hash (show 0 < (seq - 1).toNat by omega)
  obtain ⟨last, hlast⟩ := hlinked.skip (by omega)
  simp only [hskip, hlast, Option.map_some, Option.some.injEq] at hancestors
  subst hancestors
  have hlen := @length_window hash ((seq - 1).toNat - 1)
  have hinterval : kFlagLedgerInterval.toNat = 256 := rfl
  rw [hinterval] at hlong
  -- the number of the ancestor does not wrap
  have hofNat : (UInt32.ofNat i).toNat = i := UInt32.toNat_ofNat_of_lt' (by
    show i < 2 ^ 32
    omega)
  have htwoLe : (2 : UInt32) ≤ seq := UInt32.le_iff_toNat_le.mpr (show 2 ≤ seq.toNat by omega)
  have htwo : (seq - 2).toNat = seq.toNat - 2 := UInt32.toNat_sub_of_le _ _ htwoLe
  have hanc : (seq - 2 - UInt32.ofNat i).toNat = seq.toNat - 2 - i := by
    rw [UInt32.toNat_sub_of_le _ _ (UInt32.le_iff_toNat_le.mpr (by rw [htwo, hofNat]; omega)), htwo,
      hofNat]
  have hancPos : 0 < (seq - 2 - UInt32.ofNat i).toNat := by omega
  refine ⟨seq_ledgerAt hash hancPos, ?_⟩
  have hentry : (window hash ((seq - 1).toNat - 1))[(window hash ((seq - 1).toNat - 1)).length -
      (i + 1)]? = some (hash ((seq - 1).toNat - 1 - (i + 1))) :=
    getElem?_window (Nat.succ_pos i) (by omega) (by omega)
  have hindex : (window hash ((seq - 1).toNat - 1)).length - 1 - i =
      (window hash ((seq - 1).toNat - 1)).length - (i + 1) := by omega
  have hnumber : (seq - 1).toNat - 1 - (i + 1) = (seq - 2 - UInt32.ofNat i).toNat - 1 := by omega
  rw [(linked_ledgerAt hash hancPos).own, List.getD_eq_getElem?_getD, hindex, hentry, hnumber,
    Option.getD_some]

/-- **Skip lists identify ancestors.** In every chain from the first ledger on, `hashOfSeq` answers with
the hash of the ancestor that was asked for, and it does answer for the last 256 ancestors and for every
256th; and the window that a ledger is scored on has, counted from its end, the hashes of the ledgers
before the parent. -/
theorem skip_lists_identify_ancestors (hash : ℕ → UInt256) (seq s : UInt32) (hs : 1 ≤ s)
    (hle : s ≤ seq) :
    (ledgerAt hash seq).seq = seq ∧ (ledgerAt hash s).seq = s ∧
      (∀ h, (ledgerAt hash seq).hashOfSeq s = some h → h = (ledgerAt hash s).hash) ∧
      (seq - s ≤ 256 ∨ s % 256 = 0 → ((ledgerAt hash seq).hashOfSeq s).isSome) ∧
      ∀ parent rules ancestors,
        parent.skip = (ledgerAt hash (seq - 1)).skip.map LedgerHashes.hashes →
        ValidatorScoring.windowOf parent seq rules = some ancestors → ∀ i < ancestors.length,
          (ledgerAt hash (seq - 2 - UInt32.ofNat i)).seq = seq - 2 - UInt32.ofNat i ∧
            ancestors.getD (ancestors.length - 1 - i) 0 =
              (ledgerAt hash (seq - 2 - UInt32.ofNat i)).hash := by
  have hpos : 0 < s.toNat := UInt32.le_iff_toNat_le.mp hs
  have hle' : s.toNat ≤ seq.toNat := UInt32.le_iff_toNat_le.mp hle
  have hlinked := linked_ledgerAt hash (show 0 < seq.toNat by omega)
  have hanswer := hlinked.hashOfSeq hpos (by omega)
  refine ⟨seq_ledgerAt hash (by omega), seq_ledgerAt hash hpos, fun h hh => ?_, fun hnear => ?_,
    fun parent rules ancestors hskip hwindow i hi => scored_ancestor hskip hwindow hi⟩
  · rw [hanswer, Option.ite_none_right_eq_some, Option.some.injEq] at hh
    rw [← hh.2, (linked_ledgerAt hash hpos).own]
  · have hcond : seq.toNat - 1 + 1 - s.toNat ≤ 256 ∨ s.toNat % 256 = 0 := by
      rcases hnear with hnear | hmult
      · have hdiff := UInt32.le_iff_toNat_le.mp hnear
        rw [UInt32.toNat_sub_of_le _ _ hle] at hdiff
        exact .inl (by have : (256 : UInt32).toNat = 256 := rfl; omega)
      · have hmod := congrArg UInt32.toNat hmult
        rw [UInt32.toNat_mod] at hmod
        exact .inr hmod
    rw [hanswer, if_pos hcond, Option.isSome_some]

theorem skip_lists_identify_ancestors_recorded :
    ((ledgerAt (BitVec.ofNat 256) 70000).hashOfSeq 65536).isSome ∧
      ((ledgerAt (BitVec.ofNat 256) 70000).hashOfSeq 69900).isSome :=
  ⟨(skip_lists_identify_ancestors _ 70000 65536 (by decide) (by decide)).2.2.2.1 (.inr (by decide)),
    (skip_lists_identify_ancestors _ 70000 69900 (by decide) (by decide)).2.2.2.1 (.inl (by decide))⟩

end LinkedLedger

end FalconLedger
