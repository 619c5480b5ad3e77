import FalconLedger.Close.BuildLedger

/-!
# Building a ledger and the validation store

Every input of `buildLedgerImpl` but the validation store is agreed on by the network.
`buildLedgerImpl_eq_iff` says when the store has no influence: exactly when scoring does not run at
this ledger, or has no bonded validator to score. For the converse, the empty store is compared with
one that holds a single full validation for the newest ledger of the window.
-/

namespace FalconLedger

open ValidatorScoring BuildLedger

variable {H : Hashes} {store : Validations}

/-! ### What scoring writes to a bond -/

private theorem lookup_applyValidatorScoring {s parent : Ledger} {seq : UInt32} {rules : Rules}
    {hashes : List UInt256} {id : AccountID} {bond : ValidatorBond}
    (hwindow : windowOf parent seq rules = some hashes) (hmem : (id, bond) ∈ targets s) :
    (applyValidatorScoring H store s parent seq rules).bonds.lookup id =
      some (scoreBond (statsFor H (windowStats H store seq hashes (targets s)) bond) seq bond) := by
  unfold applyValidatorScoring
  rw [hwindow]
  dsimp only
  refine lookup_writeBonds s ?_ (List.mem_map.mpr ⟨(id, bond), hmem, rfl⟩)
  rw [List.map_map]
  exact targets_nodup s

/-! ### The statistics of two stores -/

private theorem lookup_initialStats {ts : List (AccountID × ValidatorBond)}
    {t : AccountID × ValidatorBond} (hmem : t ∈ ts) :
    (initialStats H ts).lookup (H.calcNodeID t.2.consensusKey) = some .absent := by
  -- whatever is inserted is `absent`, so the order of the insertions does not matter
  have hfold : ∀ (stats : Table NodeID WindowStats) (n : NodeID),
      (stats.lookup n = some .absent ∨ ∃ t ∈ ts, H.calcNodeID t.2.consensusKey = n) →
      (ts.foldl (fun stats t => stats.insert (H.calcNodeID t.2.consensusKey) .absent) stats).lookup
        n = some .absent := by
    clear hmem
    induction ts with
    | nil => simp
    | cons t ts ih =>
      intro stats n h
      rw [List.foldl_cons]
      refine ih _ n ?_
      by_cases hn : n = H.calcNodeID t.2.consensusKey
      · subst hn
        exact .inl (AList.lookup_insert _)
      · rw [AList.lookup_insert_ne hn]
        refine h.imp_right ?_
        rintro ⟨t', ht', rfl⟩
        rcases List.mem_cons.mp ht' with rfl | ht'
        · exact absurd rfl hn
        · exact ⟨t', ht', rfl⟩
  exact hfold ∅ _ (.inr ⟨t, hmem, rfl⟩)

private theorem countLedger_of_nil {seq : UInt32} {hashes : List UInt256}
    {stats : Table NodeID WindowStats} {i : ℕ}
    (hseq : store.getFullForSequence (seq - 2 - UInt32.ofNat i) = [])
    (hledger : ∀ hash, store.byLedger.lookup hash = none) :
    countLedger store seq hashes stats i = stats := by
  simp [countLedger, hseq, Validations.getFullForLedger, hledger]

private theorem windowStats_empty (seq : UInt32) (hashes : List UInt256)
    (ts : List (AccountID × ValidatorBond)) :
    windowStats H .empty seq hashes ts = initialStats H ts := by
  unfold windowStats
  have hcount : ∀ stats i, countLedger .empty seq hashes stats i = stats := fun stats i =>
    countLedger_of_nil rfl fun _ => rfl
  induction List.range kFlagLedgerInterval.toNat with
  | nil => rfl
  | cons i is ih => rw [List.foldl_cons, hcount, ih]

/-- The store that holds one full validation, for the newest ledger of the window. -/
def oneValidation (seq : UInt32) (nodeID : NodeID) : Validations where
  bySequence := AList.insert (seq - 2) [⟨nodeID, seq - 2, 0, true, 0⟩] ∅
  byLedger := ∅

/-- The statistics of a validator that was seen once, in the newest ledger. -/
def seenOnce : WindowStats :=
  { WindowStats.absent with presenceCount := 1, present := WindowStats.absent.present.set 0 true }

private theorem countLedger_oneValidation {seq : UInt32} {n : NodeID} {hashes : List UInt256}
    {stats : Table NodeID WindowStats} (h : stats.lookup n = some .absent) :
    countLedger (oneValidation seq n) seq hashes stats 0 = stats.insert n seenOnce := by
  have hseq : (oneValidation seq n).getFullForSequence (seq - 2 - UInt32.ofNat 0) =
      [⟨n, seq - 2, 0, true, 0⟩] := by
    have hzero : seq - 2 - UInt32.ofNat 0 = seq - 2 := by simp
    rw [hzero, Validations.getFullForSequence, oneValidation, AList.lookup_insert]
    rfl
  have hledger : ∀ hash q, (oneValidation seq n).getFullForLedger hash q = [] := fun _ _ => rfl
  simp only [countLedger, hseq, hledger, List.foldl_cons, List.foldl_nil, markPresent, h]
  rfl

private theorem windowStats_oneValidation {seq : UInt32} {n : NodeID} {hashes : List UInt256}
    {ts : List (AccountID × ValidatorBond)} (h : (initialStats H ts).lookup n = some .absent) :
    windowStats H (oneValidation seq n) seq hashes ts = (initialStats H ts).insert n seenOnce := by
  have hrange : List.range kFlagLedgerInterval.toNat = 0 :: (List.range 255).map Nat.succ :=
    List.range_succ_eq_map
  have hnil : ∀ i ∈ (List.range 255).map Nat.succ,
      (oneValidation seq n).getFullForSequence (seq - 2 - UInt32.ofNat i) = [] := by
    intro i hi
    obtain ⟨j, hj, rfl⟩ := List.mem_map.mp hi
    have hj' : j < 255 := List.mem_range.mp hj
    -- the window is shorter than the range of sequence numbers, so it does not wrap onto itself
    have hne : seq - 2 - UInt32.ofNat j.succ ≠ seq - 2 := by
      intro heq
      have hzero : UInt32.ofNat j.succ = 0 := by grind
      have hnat := congrArg UInt32.toNat hzero
      simp only [UInt32.toNat_ofNat', UInt32.toNat_zero] at hnat
      omega
    have hlookup : (oneValidation seq n).bySequence.lookup (seq - 2 - UInt32.ofNat j.succ) =
        none := (AList.lookup_insert_ne hne).trans rfl
    rw [Validations.getFullForSequence, hlookup]
    rfl
  unfold windowStats
  rw [hrange, List.foldl_cons, countLedger_oneValidation h]
  generalize (List.range 255).map Nat.succ = is at hnil
  induction is with
  | nil => rfl
  | cons i is ih =>
    rw [List.foldl_cons, countLedger_of_nil (hnil i (List.mem_cons_self ..)) fun _ => rfl]
    exact ih fun j hj => hnil j (List.mem_cons_of_mem i hj)

private theorem statsFor_empty {seq : UInt32} {hashes : List UInt256}
    {ts : List (AccountID × ValidatorBond)} {id : AccountID} {bond : ValidatorBond}
    (hmem : (id, bond) ∈ ts) : statsFor H (windowStats H .empty seq hashes ts) bond = .absent := by
  rw [windowStats_empty, statsFor, lookup_initialStats hmem]
  rfl

private theorem statsFor_oneValidation {seq : UInt32} {hashes : List UInt256}
    {ts : List (AccountID × ValidatorBond)} {id : AccountID} {bond : ValidatorBond}
    (hmem : (id, bond) ∈ ts) :
    statsFor H (windowStats H (oneValidation seq (H.calcNodeID bond.consensusKey)) seq hashes ts)
      bond = seenOnce := by
  rw [windowStats_oneValidation (lookup_initialStats hmem), statsFor, AList.lookup_insert]
  rfl

private theorem uptimeBps_seenOnce : uptimeBps seenOnce = 39 ∧ uptimeBps .absent = 0 := by
  decide +kernel

/-! ### Building a ledger -/

private theorem bonds_buildLedgerImpl (H : Services) (parent : Ledger)
    (applyTxs : Ledger → Ledger) (store : Validations) :
    (buildLedgerImpl H parent applyTxs store).bonds =
      (applyValidatorScoring H.toHashes store
        (applyRewardEpoch H.toHashes (applyTxs (openNext parent)) (openNext parent).seq
          (openNext parent).rules) parent (openNext parent).seq (openNext parent).rules).bonds := by
  have hprune : ∀ s keys, (pruneProposals s keys).bonds = s.bonds := fun s keys => by
    unfold pruneProposals
    dsimp only
    split_ifs <;> rfl
  simp only [buildLedgerImpl, closeHooks, updateSkipList, hprune]
  rw [applyGovernanceTally_eq]

private theorem targets_applyRewardEpoch (H : Hashes) (s : Ledger) (seq : UInt32) (rules : Rules) :
    targets (applyRewardEpoch H s seq rules) = targets s := by
  unfold applyRewardEpoch
  split_ifs <;> rfl

/-- Scoring has nothing to do when the ledger after `parent` is built with these transactions:
it is not run at this ledger, or no bonded validator is there to be scored. -/
def ScoringIdle (parent : Ledger) (applyTxs : Ledger → Ledger) : Prop :=
  windowOf parent (openNext parent).seq (openNext parent).rules = none ∨
    targets (applyTxs (openNext parent)) = []

private theorem exists_buildLedgerImpl_ne (H : Services) {parent : Ledger}
    {applyTxs : Ledger → Ledger} (h : ¬ScoringIdle parent applyTxs) :
    ∃ store, buildLedgerImpl H parent applyTxs .empty ≠ buildLedgerImpl H parent applyTxs store := by
  obtain ⟨hwindow, htargets⟩ := not_or.mp h
  obtain ⟨hashes, hashes_eq⟩ := Option.ne_none_iff_exists'.mp hwindow
  obtain ⟨⟨id, bond⟩, hmem⟩ := List.exists_mem_of_ne_nil _ htargets
  rw [← targets_applyRewardEpoch H.toHashes _ (openNext parent).seq (openNext parent).rules] at hmem
  refine ⟨oneValidation (openNext parent).seq (H.calcNodeID bond.consensusKey), fun heq => ?_⟩
  -- read the bond in both ledgers and compare the uptime written to it
  have hbond := congrArg (fun s : Ledger => (s.bonds.lookup id).bind ValidatorBond.uptimeBps) heq
  simp only [bonds_buildLedgerImpl, lookup_applyValidatorScoring hashes_eq hmem, Option.bind_some,
    statsFor_empty hmem, statsFor_oneValidation hmem] at hbond
  simp only [scoreBond, uptimeBps_seenOnce.1, uptimeBps_seenOnce.2] at hbond
  exact absurd hbond (by decide)

private theorem applyValidatorScoring_idle (H : Hashes) {s parent : Ledger} {seq : UInt32}
    {rules : Rules} (h : windowOf parent seq rules = none ∨ targets s = [])
    (store₁ store₂ : Validations) :
    applyValidatorScoring H store₁ s parent seq rules =
      applyValidatorScoring H store₂ s parent seq rules := by
  unfold applyValidatorScoring
  rcases h with hwindow | htargets
  · rw [hwindow]
  · split
    · rfl
    · rw [htargets]
      simp only [List.map_nil]

/-- **Building a ledger is a function of agreed inputs exactly when scoring is idle.** -/
theorem buildLedgerImpl_eq_iff (H : Services) (parent : Ledger) (applyTxs : Ledger → Ledger) :
    (∀ store₁ store₂,
      buildLedgerImpl H parent applyTxs store₁ = buildLedgerImpl H parent applyTxs store₂) ↔
      ScoringIdle parent applyTxs := by
  constructor
  · intro heq
    by_contra hidle
    obtain ⟨store, hne⟩ := exists_buildLedgerImpl_ne H hidle
    exact hne (heq .empty store)
  · intro hidle store₁ store₂
    have hscoring : windowOf parent (openNext parent).seq (openNext parent).rules = none ∨
        targets (applyRewardEpoch H.toHashes (applyTxs (openNext parent)) (openNext parent).seq
          (openNext parent).rules) = [] := by
      rw [targets_applyRewardEpoch]
      exact hidle
    simp only [buildLedgerImpl, closeHooks]
    rw [applyValidatorScoring_idle H.toHashes hscoring store₁ store₂]

/-- On one parent and without transactions, a node that holds one validation of `alice` and a
node that holds none write different scores, and a different aggregate. -/
theorem buildLedgerImpl_forks :
    let build := buildLedgerImpl Sample.services Sample.ledger id
    let one := oneValidation (openNext Sample.ledger).seq
      (Sample.services.calcNodeID Sample.aliceKey)
    let aliceBond := fun s : Ledger =>
      s.bonds.lookup (Sample.services.calcValidatorBondID Sample.aliceKey)
    ((aliceBond (build .empty)).map ValidatorBond.uptimeBps = some none ∧
      (aliceBond (build one)).map ValidatorBond.uptimeBps = some (some 39)) ∧
    ((build .empty).epoch.bind RewardEpoch.aggregateCompositeScore = some 13000 ∧
      (build one).epoch.bind RewardEpoch.aggregateCompositeScore = some 13006) ∧
    build .empty ≠ build one := by
  intro build one aliceBond
  have hbond : (aliceBond (build .empty)).map ValidatorBond.uptimeBps = some none ∧
      (aliceBond (build one)).map ValidatorBond.uptimeBps = some (some 39) := by
    decide +kernel
  refine ⟨hbond, by decide +kernel, fun heq => ?_⟩
  have h := hbond.1
  rw [heq, hbond.2] at h
  cases h

end FalconLedger
