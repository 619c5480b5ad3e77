import FalconLedger.Consensus.NegativeUNL
import FalconLedger.Data.Run
import Mathlib.Data.List.Permutation

/-!
# The life of the negative UNL

The voter works out from the parent ledger what the list will be, and the flag ledger makes the
pending changes first and only then takes the new transactions: the list that a transaction is
checked against is the one that it was voted on with (`mem_negUnlKeys_iff`).
-/

namespace FalconLedger

namespace NegativeUNL

/-- The keys of the disabled validators. -/
def disabled (sle : Option Entry) : List Blob :=
  ((sle.bind Entry.disabledValidators).getD []).filterMap DisabledValidator.publicKey

/-- The key that is to be disabled, and the one that is to be re-enabled. -/
def toDisable (sle : Option Entry) : Option Blob := sle.bind Entry.validatorToDisable

def toReEnable (sle : Option Entry) : Option Blob := sle.bind Entry.validatorToReEnable

/-- The members of the UNL that are disabled or about to be. -/
def listed (unl : List PublicKey) (sle : Option Entry) : ℕ :=
  unl.countP fun k => k.slice ∈ disabled sle ∨ toDisable sle = some k.slice

/-- What holds of the entry. -/
structure Sound (unl : List PublicKey) (sle : Option Entry) : Prop where
  nodup : (disabled sle).Nodup
  toDisable_notMem : ∀ b, toDisable sle = some b → b ∉ disabled sle
  toReEnable_mem : ∀ b, toReEnable sle = some b → b ∈ disabled sle
  listed_le : listed unl sle ≤ maxNegativeListed unl.length

/-- All keys in the entry are those of members of the UNL. -/
structure Members (unl : List PublicKey) (sle : Option Entry) : Prop where
  disabled : ∀ b ∈ disabled sle, ∃ k ∈ unl, k.slice = b
  toDisable : ∀ b, toDisable sle = some b → ∃ k ∈ unl, k.slice = b

section Update

variable {sle : Option Entry} {seq : ℕ} {unl : List PublicKey}

theorem mem_negativeUNL {k : PublicKey} : k ∈ negativeUNL sle ↔ k.slice ∈ disabled sle := by
  rw [negativeUNL, disabled, List.mem_filterMap, List.mem_filterMap]
  refine exists_congr fun v => and_congr_right fun _ => ?_
  constructor
  · intro h
    obtain ⟨b, hb, hk⟩ := Option.bind_eq_some_iff.mp h
    rw [PublicKey.ofSlice?] at hk
    split_ifs at hk with htype
    rw [hb, ← Option.some.inj hk]
  · intro h
    rw [h, Option.bind_some, PublicKey.ofSlice?_slice]

private theorem bind_ofSlice?_eq {o : Option Blob} {k : PublicKey} :
    o.bind PublicKey.ofSlice? = some k ↔ o = some k.slice := by
  constructor
  · intro h
    obtain ⟨b, hb, hk⟩ := Option.bind_eq_some_iff.mp h
    rw [PublicKey.ofSlice?] at hk
    split_ifs at hk with htype
    rw [hb, ← Option.some.inj hk]
  · rintro rfl
    rw [Option.bind_some, PublicKey.ofSlice?_slice]

private theorem filterMap_kept (validators : List DisabledValidator) (reEnabled : Option Blob) :
    (validators.filter fun v => !(v.publicKey.isSome && v.publicKey == reEnabled)).filterMap
        DisabledValidator.publicKey =
      (validators.filterMap DisabledValidator.publicKey).filter
        (fun b => reEnabled ≠ some b) := by
  induction validators with
  | nil => rfl
  | cons v rest ih =>
    obtain ⟨publicKey, first⟩ := v
    cases publicKey with
    | none => simpa using ih
    | some b =>
      by_cases hb : reEnabled = some b
      · simpa [hb] using ih
      · have hne : ¬ some b = reEnabled := fun h => hb h.symm
        simpa [hb, hne] using ih

theorem disabled_updateNegativeUNL :
    disabled (updateNegativeUNL seq sle) =
      (disabled sle).filter (fun b => toReEnable sle ≠ some b) ++ (toDisable sle).toList := by
  cases sle with
  | none => rfl
  | some entry =>
    rw [updateNegativeUNL]
    dsimp only
    split_ifs with hidle hempty
    · rw [Bool.and_eq_true, Option.isNone_iff_eq_none, Option.isNone_iff_eq_none] at hidle
      have hdisable : toDisable (some entry) = none := hidle.1
      have hreEnable : toReEnable (some entry) = none := hidle.2
      rw [hdisable, hreEnable]
      simp
    · rw [List.isEmpty_iff, List.append_eq_nil_iff, List.map_eq_nil_iff] at hempty
      have hkept := filterMap_kept (entry.disabledValidators.getD []) entry.validatorToReEnable
      rw [hempty.1] at hkept
      exact (congrArg₂ (· ++ ·) hkept.symm hempty.2).symm
    · have hnew : (entry.validatorToDisable.toList.map fun validator =>
          (⟨some validator, seq⟩ : DisabledValidator)).filterMap DisabledValidator.publicKey =
          entry.validatorToDisable.toList := by
        cases entry.validatorToDisable <;> rfl
      have hkept := filterMap_kept (entry.disabledValidators.getD []) entry.validatorToReEnable
      refine (List.filterMap_append).trans ?_
      rw [hnew, hkept]
      rfl

theorem toDisable_updateNegativeUNL : toDisable (updateNegativeUNL seq sle) = none := by
  cases sle with
  | none => rfl
  | some entry =>
    rw [updateNegativeUNL]
    dsimp only
    split_ifs with hidle
    · rw [Bool.and_eq_true, Option.isNone_iff_eq_none] at hidle
      exact hidle.1
    · rfl
    · rfl

theorem toReEnable_updateNegativeUNL : toReEnable (updateNegativeUNL seq sle) = none := by
  cases sle with
  | none => rfl
  | some entry =>
    rw [updateNegativeUNL]
    dsimp only
    split_ifs with hidle
    · rw [Bool.and_eq_true, Option.isNone_iff_eq_none, Option.isNone_iff_eq_none] at hidle
      exact hidle.2
    · rfl
    · rfl

end Update

/-! ### One transaction -/

section Apply

variable {seq : ℕ} {sle : Option Entry} {k : PublicKey}

/-- The transactions that a vote can lead to. -/
def disableTx (seq : ℕ) (k : PublicKey) : UNLModify := ⟨some 1, some seq, some k.slice⟩

def reEnableTx (seq : ℕ) (k : PublicKey) : UNLModify := ⟨some 0, some seq, some k.slice⟩

private theorem any_publicKey_eq (b : Blob) :
    (((sle.getD ⟨none, none, none⟩).disabledValidators.getD []).any fun v =>
      v.publicKey == some b) = decide (b ∈ disabled sle) := by
  have hvalidators : (sle.getD ⟨none, none, none⟩).disabledValidators =
      sle.bind Entry.disabledValidators := by
    cases sle <;> rfl
  rw [hvalidators, disabled, Bool.eq_iff_iff, List.any_eq_true, decide_eq_true_iff,
    List.mem_filterMap]
  simp only [beq_iff_eq]

private theorem getD_validatorToDisable :
    (sle.getD ⟨none, none, none⟩).validatorToDisable = toDisable sle := by
  cases sle <;> rfl

private theorem getD_validatorToReEnable :
    (sle.getD ⟨none, none, none⟩).validatorToReEnable = toReEnable sle := by
  cases sle <;> rfl

theorem applyUNLModify_disableTx (hseq : isFlagLedger seq = true) (hnone : toDisable sle = none)
    (hother : toReEnable sle ≠ some k.slice) (hnot : k.slice ∉ disabled sle) :
    ∃ entry, applyUNLModify seq sle (disableTx seq k) = .ok entry ∧
      disabled (some entry) = disabled sle ∧ toDisable (some entry) = some k.slice ∧
      toReEnable (some entry) = toReEnable sle := by
  refine ⟨{ sle.getD ⟨none, none, none⟩ with validatorToDisable := some k.slice }, ?_, ?_, rfl, ?_⟩
  · have htype := Option.isSome_iff_ne_none.mp k.isSome_type
    simp only [applyUNLModify, disableTx, Except.bind_eq_ok, failIf_eq_ok, orFail_eq_ok,
      any_publicKey_eq, getD_validatorToDisable, getD_validatorToReEnable]
    simp [hseq, hnone, hother, hnot, htype, failIf]
  · cases sle <;> rfl
  · exact getD_validatorToReEnable

theorem applyUNLModify_reEnableTx (hseq : isFlagLedger seq = true) (hnone : toReEnable sle = none)
    (hother : toDisable sle ≠ some k.slice) (hmem : k.slice ∈ disabled sle) :
    ∃ entry, applyUNLModify seq sle (reEnableTx seq k) = .ok entry ∧
      disabled (some entry) = disabled sle ∧ toDisable (some entry) = toDisable sle ∧
      toReEnable (some entry) = some k.slice := by
  refine ⟨{ sle.getD ⟨none, none, none⟩ with validatorToReEnable := some k.slice }, ?_, ?_, ?_, rfl⟩
  · have htype := Option.isSome_iff_ne_none.mp k.isSome_type
    simp only [applyUNLModify, reEnableTx, Except.bind_eq_ok, failIf_eq_ok, orFail_eq_ok,
      any_publicKey_eq, getD_validatorToDisable, getD_validatorToReEnable]
    simp [hseq, hnone, hother, hmem, htype, failIf]
  · cases sle <;> rfl
  · exact getD_validatorToDisable

end Apply

/-! ### One vote -/

theorem choose_mem {hash : UInt256} {candidates : List NodeID} {n : NodeID}
    (h : choose hash candidates = some n) : n ∈ candidates := by
  cases candidates with
  | nil => cases h
  | cons first rest =>
    rw [choose, Option.some_inj] at h
    rw [← h]
    refine List.foldlRecOn rest _ List.mem_cons_self fun best hbest c hc => ?_
    split_ifs with hless
    · exact List.mem_cons_of_mem _ hc
    · exact hbest

section Vote

variable {calcNodeID : PublicKey → NodeID} {unl : List PublicKey} {sle : Option Entry}

/-- A map from identifiers to the keys in a list that have them. -/
def MapsTo (calcNodeID : PublicKey → NodeID) (keys : List PublicKey)
    (map : Table NodeID PublicKey) : Prop :=
  ∀ n k, map.lookup n = some k → k ∈ keys ∧ calcNodeID k = n

theorem MapsTo.emplace {keys : List PublicKey} {map : Table NodeID PublicKey} {k : PublicKey}
    (h : MapsTo calcNodeID keys map) (hk : k ∈ keys) :
    MapsTo calcNodeID keys (emplace map (calcNodeID k) k) := by
  intro n k' hlookup
  rw [NegativeUNL.emplace] at hlookup
  split_ifs at hlookup with hsome
  · exact h n k' hlookup
  · by_cases hn : n = calcNodeID k
    · subst hn
      rw [AList.lookup_insert, Option.some_inj] at hlookup
      exact hlookup ▸ ⟨hk, rfl⟩
    · rw [AList.lookup_insert_ne hn] at hlookup
      exact h n k' hlookup

theorem MapsTo.foldl_emplace {keys more : List PublicKey} {map : Table NodeID PublicKey}
    (h : MapsTo calcNodeID keys map) (hmore : ∀ k ∈ more, k ∈ keys) :
    MapsTo calcNodeID keys (more.foldl (fun map k => NegativeUNL.emplace map (calcNodeID k) k) map) :=
  List.foldlRecOn more _ h fun _ hmap k hk => hmap.emplace (hmore k hk)

/-- The list that the voter expects. -/
def predicted (sle : Option Entry) : List PublicKey :=
  ((negativeUNL sle) ++ (validatorToDisable sle).toList).filter
    fun k => validatorToReEnable sle ≠ some k

theorem mem_predicted {seq : ℕ} {k : PublicKey} (h : Sound unl sle) :
    k ∈ predicted sle ↔ k.slice ∈ disabled (updateNegativeUNL seq sle) := by
  have hdisable : validatorToDisable sle = some k ↔ toDisable sle = some k.slice :=
    bind_ofSlice?_eq
  have hreEnable : validatorToReEnable sle = some k ↔ toReEnable sle = some k.slice :=
    bind_ofSlice?_eq
  rw [predicted, List.mem_filter, List.mem_append, Option.mem_toList, mem_negativeUNL,
    disabled_updateNegativeUNL, List.mem_append, List.mem_filter, Option.mem_toList,
    hdisable, decide_eq_true_iff, decide_eq_true_iff, ne_eq, ne_eq,
    hreEnable]
  constructor
  · rintro ⟨hmem | hpending, hkeep⟩
    · exact .inl ⟨hmem, hkeep⟩
    · exact .inr hpending
  · rintro (⟨hmem, hkeep⟩ | hpending)
    · exact ⟨.inl hmem, hkeep⟩
    · refine ⟨.inr hpending, fun hre => ?_⟩
      exact h.toDisable_notMem _ hpending (h.toReEnable_mem _ hre)

/-- What a vote can be: at most one key to disable, which is not expected to be listed and finds room,
and at most one to re-enable, which is expected to be listed. -/
structure Ballot (unl : List PublicKey) (sle : Option Entry) (d r : Option PublicKey) : Prop where
  disable_mem : ∀ k, d = some k → k ∈ unl
  disable_notMem : ∀ k, d = some k → k ∉ predicted sle
  disable_room : d.isSome →
    (unl.countP fun k => k ∈ predicted sle) < maxNegativeListed unl.length
  reEnable_mem : ∀ k, r = some k → k ∈ predicted sle

private theorem countP_ids (hinj : Set.InjOn calcNodeID {k | k ∈ unl}) (hunl : unl.Nodup)
    {keys : List PublicKey} (hkeys : ∀ k ∈ keys, k ∈ unl) :
    (unl.map calcNodeID).dedup.length = unl.length ∧
      ((unl.map calcNodeID).dedup.countP fun n => n ∈ (keys.map calcNodeID).dedup) =
        unl.countP fun k => k ∈ keys := by
  have hids : (unl.map calcNodeID).dedup = unl.map calcNodeID :=
    List.dedup_eq_self.mpr (hunl.map_on fun a ha b hb hab => hinj ha hb hab)
  rw [hids, List.length_map, List.countP_map]
  refine ⟨rfl, List.countP_congr fun k hk => ?_⟩
  rw [Function.comp_apply, decide_eq_true_iff, decide_eq_true_iff, List.mem_dedup, List.mem_map]
  constructor
  · rintro ⟨k', hk', heq⟩
    exact hinj (hkeys k' hk') hk heq ▸ hk'
  · exact fun h => ⟨k, h, rfl⟩

theorem mem_toDisable {newValidators : Table NodeID ℕ} {unl negUnl : List NodeID}
    {scoreTable : List (NodeID × ℕ)} {n : NodeID}
    (h : n ∈ (findAllCandidates newValidators unl negUnl scoreTable).toDisable) :
    n ∉ negUnl ∧ (unl.countP fun n => n ∈ negUnl) < maxNegativeListed unl.length := by
  obtain ⟨x, hx, rfl⟩ := List.mem_map.mp h
  have hvoted := (List.mem_filter.mp hx).2
  simp only [Bool.and_eq_true, decide_eq_true_iff] at hvoted
  exact ⟨hvoted.1.2, hvoted.1.1.1⟩

theorem mem_toReEnable {newValidators : Table NodeID ℕ} {unl negUnl : List NodeID}
    {scoreTable : List (NodeID × ℕ)} {n : NodeID}
    (h : n ∈ (findAllCandidates newValidators unl negUnl scoreTable).toReEnable) : n ∈ negUnl := by
  rw [findAllCandidates] at h
  dsimp only at h
  split_ifs at h
  · exact (List.mem_filter.mp h).1
  · obtain ⟨x, hx, rfl⟩ := List.mem_map.mp h
    have hvoted := (List.mem_filter.mp hx).2
    rw [Bool.and_eq_true, decide_eq_true_iff, decide_eq_true_iff] at hvoted
    exact hvoted.2

private theorem flatMap_lookup {map : Table NodeID PublicKey} {o : Option NodeID}
    {f : PublicKey → UNLModify} :
    o.toList.flatMap (fun n => (map.lookup n).toList.map f) = (o.bind map.lookup).toList.map f := by
  cases o with
  | none => rfl
  | some n => exact List.flatMap_singleton _ n

theorem doVoting_ballot (hinj : Set.InjOn calcNodeID {k | k ∈ unl}) (hunl : unl.Nodup)
    (hkeys : ∀ k ∈ predicted sle, k ∈ unl) (voter : Voter) (prevSeq : ℕ) (prevHash : UInt256) :
    ∃ d r, doVoting calcNodeID voter prevSeq prevHash sle unl =
        d.toList.map (disableTx (prevSeq + 1)) ++ r.toList.map (reEnableTx (prevSeq + 1)) ∧
      Ballot unl sle d r := by
  obtain ⟨hlength, hcount⟩ := countP_ids hinj hunl hkeys
  rw [doVoting]
  dsimp only
  cases hscore : buildScoreTable voter (unl.map calcNodeID).dedup with
  | none => exact ⟨none, none, rfl, ⟨by simp, by simp, by simp, by simp⟩⟩
  | some scoreTable =>
    dsimp only
    have hempty : MapsTo calcNodeID unl ∅ := by
      intro n k h
      rw [AList.lookup_empty] at h
      cases h
    have hmap := (hempty.foldl_emplace fun k (hk : k ∈ unl) => hk).foldl_emplace hkeys
    rw [flatMap_lookup, flatMap_lookup]
    refine ⟨_, _, rfl, fun k hk => ?_, fun k hk hmem => ?_, fun hsome => ?_, fun k hk => ?_⟩
    · obtain ⟨n, -, hlookup⟩ := Option.bind_eq_some_iff.mp hk
      exact (hmap n k hlookup).1
    · obtain ⟨n, hn, hlookup⟩ := Option.bind_eq_some_iff.mp hk
      refine (mem_toDisable (choose_mem hn)).1 (List.mem_dedup.mpr ?_)
      exact List.mem_map.mpr ⟨k, hmem, (hmap n k hlookup).2⟩
    · obtain ⟨k, hk⟩ := Option.isSome_iff_exists.mp hsome
      obtain ⟨n, hn, -⟩ := Option.bind_eq_some_iff.mp hk
      have hroom := (mem_toDisable (choose_mem hn)).2
      rw [hlength] at hroom
      exact hcount ▸ hroom
    · obtain ⟨n, hn, hlookup⟩ := Option.bind_eq_some_iff.mp hk
      obtain ⟨k', hk', heq⟩ := List.mem_map.mp (List.mem_dedup.mp (mem_toReEnable (choose_mem hn)))
      obtain ⟨hmem, hid⟩ := hmap n k hlookup
      exact hinj (hkeys k' hk') hmem (heq.trans hid.symm) ▸ hk'

end Vote

/-! ### One flag ledger -/

/-- What a flag ledger makes of a vote. -/
structure Applied (before after : Option Entry) (d r : Option PublicKey) : Prop where
  disabled : disabled after = disabled before
  toDisable : toDisable after = d.map PublicKey.slice
  toReEnable : toReEnable after = r.map PublicKey.slice

section Ledger

variable {seq : ℕ} {sle : Option Entry} {d r : Option PublicKey}

theorem applyAll_cons {tx : UNLModify} {txs : List UNLModify} {entry : Entry}
    (h : applyUNLModify seq sle tx = .ok entry) :
    applyAll seq sle (tx :: txs) =
      ((applyAll seq (some entry) txs).1, none :: (applyAll seq (some entry) txs).2) := by
  rw [applyAll, h]

theorem applyAll_ballot (hseq : isFlagLedger seq = true) (hd : toDisable sle = none)
    (hr : toReEnable sle = none) (hnot : ∀ k, d = some k → k.slice ∉ disabled sle)
    (hmem : ∀ k, r = some k → k.slice ∈ disabled sle) {txs : List UNLModify}
    (hperm : txs.Perm (d.toList.map (disableTx seq) ++ r.toList.map (reEnableTx seq))) :
    (∀ o ∈ (applyAll seq sle txs).2, o = none) ∧ Applied sle (applyAll seq sle txs).1 d r := by
  cases d with
  | none =>
    cases r with
    | none =>
      rw [List.Perm.eq_nil hperm]
      exact ⟨by simp [applyAll], rfl, hd, hr⟩
    | some k =>
      obtain ⟨entry, hok, h1, h2, h3⟩ :=
        applyUNLModify_reEnableTx hseq hr (hd ▸ Option.some_ne_none k.slice |>.symm) (hmem k rfl)
      rw [List.perm_singleton.mp hperm, applyAll_cons hok]
      exact ⟨by simp [applyAll], h1, h2.trans hd, h3⟩
  | some k =>
    obtain ⟨entry, hok, h1, h2, h3⟩ :=
      applyUNLModify_disableTx hseq hd (hr ▸ (Option.some_ne_none k.slice).symm) (hnot k rfl)
    cases r with
    | none =>
      rw [List.perm_singleton.mp hperm, applyAll_cons hok]
      exact ⟨by simp [applyAll], h1, h2, h3.trans hr⟩
    | some l =>
      have hne : k.slice ≠ l.slice := fun h => hnot k rfl (h ▸ hmem l rfl)
      rcases List.perm_pair.mp hperm with rfl | rfl
      · obtain ⟨entry', hok', h1', h2', h3'⟩ :=
          applyUNLModify_reEnableTx hseq (h3.trans hr)
            (by rw [h2]; exact fun h => hne (Option.some.inj h)) (h1 ▸ hmem l rfl)
        rw [applyAll_cons hok, applyAll_cons hok']
        exact ⟨by simp [applyAll], h1'.trans h1, h2'.trans h2, h3'⟩
      · obtain ⟨first, hfirst, f1, f2, f3⟩ :=
          applyUNLModify_reEnableTx hseq hr (hd ▸ (Option.some_ne_none l.slice).symm) (hmem l rfl)
        obtain ⟨entry', hok', h1', h2', h3'⟩ :=
          applyUNLModify_disableTx hseq (f2.trans hd)
            (by rw [f3]; exact fun h => hne (Option.some.inj h).symm) (f1 ▸ hnot k rfl)
        rw [applyAll_cons hfirst, applyAll_cons hok']
        exact ⟨by simp [applyAll], h1'.trans f1, h2', h3'.trans f3⟩

end Ledger

/-! ### Runs -/

/-- What holds at every flag ledger. -/
structure Inv (unl : List PublicKey) (s : State) : Prop where
  flag : isFlagLedger s.seq = true
  sound : Sound unl s.sle
  members : Members unl s.sle

/-- What one flag ledger does: all transactions are accepted, the entry stays sound, the pending
changes of the last one are made and no others, and what is pending now is what has been voted. -/
structure Turn (unl : List PublicKey) (calcNodeID : PublicKey → NodeID) (s : State)
    (round : Round) : Prop where
  accepted : ∀ o ∈ (step calcNodeID unl s round).2, o = none
  sound : Sound unl (step calcNodeID unl s round).1.sle
  mem_disabled : ∀ b, b ∈ disabled (step calcNodeID unl s round).1.sle ↔
    b ∈ disabled s.sle ∧ toReEnable s.sle ≠ some b ∨ toDisable s.sle = some b
  toDisable : ∀ b, toDisable (step calcNodeID unl s round).1.sle = some b ↔
    (⟨some 1, some (s.seq + kFlagLedgerInterval), some b⟩ : UNLModify) ∈
      voted calcNodeID unl s round
  toReEnable : ∀ b, toReEnable (step calcNodeID unl s round).1.sle = some b ↔
    (⟨some 0, some (s.seq + kFlagLedgerInterval), some b⟩ : UNLModify) ∈
      voted calcNodeID unl s round

section Runs

variable {calcNodeID : PublicKey → NodeID} {unl : List PublicKey} {s : State} {seq : ℕ}

theorem mem_disabled_updateNegativeUNL {sle : Option Entry} {b : Blob} :
    b ∈ disabled (updateNegativeUNL seq sle) ↔
      b ∈ disabled sle ∧ toReEnable sle ≠ some b ∨ toDisable sle = some b := by
  rw [disabled_updateNegativeUNL, List.mem_append, List.mem_filter, Option.mem_toList,
    decide_eq_true_iff]

theorem Inv.predicted_mem (h : Inv unl s) {k : PublicKey} (hk : k ∈ predicted s.sle) : k ∈ unl := by
  have hmem : k.slice ∈ disabled (updateNegativeUNL 0 s.sle) := (mem_predicted h.sound).mp hk
  obtain ⟨k', hk', heq⟩ : ∃ k' ∈ unl, k'.slice = k.slice := by
    rcases mem_disabled_updateNegativeUNL.mp hmem with ⟨hold, -⟩ | hpending
    · exact h.members.disabled _ hold
    · exact h.members.toDisable _ hpending
  exact PublicKey.slice_injective heq ▸ hk'

theorem isFlagLedger_add (h : isFlagLedger seq = true) :
    isFlagLedger (seq + kFlagLedgerInterval) = true := by
  rw [isFlagLedger, decide_eq_true_iff] at h ⊢
  rw [Nat.add_mod_right, h]

theorem step_ballot (hinj : Set.InjOn calcNodeID {k | k ∈ unl}) (hunl : unl.Nodup)
    (h : Inv unl s) (round : Round) :
    ∃ d r, Ballot unl s.sle d r ∧
      voted calcNodeID unl s round =
        d.toList.map (disableTx (s.seq + kFlagLedgerInterval)) ++
          r.toList.map (reEnableTx (s.seq + kFlagLedgerInterval)) ∧
      (∀ o ∈ (step calcNodeID unl s round).2, o = none) ∧
      Applied (updateNegativeUNL (s.seq + kFlagLedgerInterval) s.sle)
        (step calcNodeID unl s round).1.sle d r := by
  obtain ⟨d, r, hvoted, hballot⟩ := doVoting_ballot hinj hunl (fun k hk => h.predicted_mem hk)
    round.voter (s.seq + kFlagLedgerInterval - 1) round.prevHash
  have hseq : s.seq + kFlagLedgerInterval - 1 + 1 = s.seq + kFlagLedgerInterval := by
    rw [kFlagLedgerInterval]
    omega
  rw [hseq] at hvoted
  refine ⟨d, r, hballot, hvoted, applyAll_ballot (isFlagLedger_add h.flag)
    toDisable_updateNegativeUNL toReEnable_updateNegativeUNL ?_ ?_ ?_⟩
  · exact fun k hk hmem => hballot.disable_notMem k hk ((mem_predicted h.sound).mpr hmem)
  · exact fun k hk => (mem_predicted h.sound).mp (hballot.reEnable_mem k hk)
  · exact hvoted ▸ round.order_perm _

theorem listed_eq {sle : Option Entry} {d : Option PublicKey}
    (hd : toDisable sle = d.map PublicKey.slice) :
    listed unl sle = unl.countP fun k => k.slice ∈ disabled sle ∨ d = some k := by
  refine List.countP_congr fun k _ => ?_
  rw [decide_eq_true_iff, decide_eq_true_iff, hd, Option.map_eq_some_iff]
  refine or_congr_right ⟨?_, fun h => ⟨k, h, rfl⟩⟩
  rintro ⟨k', rfl, heq⟩
  rw [PublicKey.slice_injective heq]

theorem countP_or_le (hunl : unl.Nodup) (p : PublicKey → Bool) (k : PublicKey) :
    (unl.countP fun l => p l ∨ some k = some l) ≤ unl.countP p + 1 := by
  induction unl with
  | nil => simp
  | cons first rest ih =>
    obtain ⟨hnot, hrest⟩ := List.nodup_cons.mp hunl
    rw [List.countP_cons, List.countP_cons]
    by_cases hfirst : k = first
    · have hsame : (rest.countP fun l => p l ∨ some k = some l) = rest.countP p := by
        refine List.countP_congr fun l hl => ?_
        have hne : k ≠ l := fun h => hnot (hfirst ▸ h ▸ hl)
        simp [hne]
      rw [hsame]
      split_ifs <;> omega
    · have := ih hrest
      simp only [Option.some_inj, hfirst, or_false, Bool.decide_eq_true] at this ⊢
      omega

theorem Sound.nodup_update (h : Sound unl s.sle) :
    (disabled (updateNegativeUNL seq s.sle)).Nodup := by
  rw [disabled_updateNegativeUNL]
  have hone : (toDisable s.sle).toList.Nodup := by
    cases toDisable s.sle <;> simp
  refine (h.nodup.filter _).append hone fun b hb hpending => ?_
  exact h.toDisable_notMem b (Option.mem_toList.mp hpending) (List.mem_filter.mp hb).1

theorem Sound.countP_predicted_le (h : Sound unl s.sle) :
    (unl.countP fun k => k ∈ predicted s.sle) ≤ maxNegativeListed unl.length := by
  refine le_trans (List.countP_mono_left fun k _ hk => ?_) h.listed_le
  have hmem : k.slice ∈ disabled (updateNegativeUNL 0 s.sle) :=
    (mem_predicted h).mp (decide_eq_true_iff.mp hk)
  rw [decide_eq_true_iff]
  exact (mem_disabled_updateNegativeUNL.mp hmem).imp_left And.left

theorem Ballot.listed_le {after : Option Entry} {d r : Option PublicKey} (hunl : unl.Nodup)
    (h : Sound unl s.sle) (hballot : Ballot unl s.sle d r)
    (happlied : Applied (updateNegativeUNL seq s.sle) after d r) :
    listed unl after ≤ maxNegativeListed unl.length := by
  rw [listed_eq happlied.toDisable, happlied.disabled]
  have hpredicted (k : PublicKey) :
      k.slice ∈ disabled (updateNegativeUNL seq s.sle) ↔ k ∈ predicted s.sle :=
    (mem_predicted h).symm
  simp only [hpredicted]
  cases d with
  | none => simpa using h.countP_predicted_le
  | some k =>
    have hmore := countP_or_le hunl (fun l => decide (l ∈ predicted s.sle)) k
    have hroom := hballot.disable_room rfl
    simp only [decide_eq_true_iff] at hmore
    omega

theorem Inv.sound_step (hunl : unl.Nodup) {after : Option Entry} {d r : Option PublicKey}
    (h : Inv unl s) (hballot : Ballot unl s.sle d r)
    (happlied : Applied (updateNegativeUNL seq s.sle) after d r) : Sound unl after where
  nodup := happlied.disabled ▸ h.sound.nodup_update
  toDisable_notMem := by
    intro b hb hmem
    rw [happlied.toDisable] at hb
    obtain ⟨k, hk, rfl⟩ := Option.map_eq_some_iff.mp hb
    exact hballot.disable_notMem k hk ((mem_predicted h.sound).mpr (happlied.disabled ▸ hmem))
  toReEnable_mem := by
    intro b hb
    rw [happlied.toReEnable] at hb
    obtain ⟨k, hk, rfl⟩ := Option.map_eq_some_iff.mp hb
    exact happlied.disabled ▸ (mem_predicted h.sound).mp (hballot.reEnable_mem k hk)
  listed_le := hballot.listed_le hunl h.sound happlied

theorem Inv.members_step {after : Option Entry} {d r : Option PublicKey} (h : Inv unl s)
    (hballot : Ballot unl s.sle d r)
    (happlied : Applied (updateNegativeUNL seq s.sle) after d r) : Members unl after where
  disabled := by
    intro b hb
    rw [happlied.disabled] at hb
    rcases mem_disabled_updateNegativeUNL.mp hb with ⟨hold, -⟩ | hpending
    · exact h.members.disabled b hold
    · exact h.members.toDisable b hpending
  toDisable := by
    intro b hb
    rw [happlied.toDisable] at hb
    obtain ⟨k, hk, rfl⟩ := Option.map_eq_some_iff.mp hb
    exact ⟨k, hballot.disable_mem k hk, rfl⟩

theorem Inv.step (hinj : Set.InjOn calcNodeID {k | k ∈ unl}) (hunl : unl.Nodup)
    (h : Inv unl s) (round : Round) : Inv unl (NegativeUNL.step calcNodeID unl s round).1 := by
  obtain ⟨d, r, hballot, -, -, happlied⟩ := step_ballot hinj hunl h round
  exact ⟨isFlagLedger_add h.flag, h.sound_step hunl hballot happlied,
    h.members_step hballot happlied⟩

private theorem mem_disableTxs {d r : Option PublicKey} {b : Blob} :
    (⟨some 1, some seq, some b⟩ : UNLModify) ∈
        d.toList.map (disableTx seq) ++ r.toList.map (reEnableTx seq) ↔
      d.map PublicKey.slice = some b := by
  cases d <;> cases r <;> simp [disableTx, reEnableTx, eq_comm]

private theorem mem_reEnableTxs {d r : Option PublicKey} {b : Blob} :
    (⟨some 0, some seq, some b⟩ : UNLModify) ∈
        d.toList.map (disableTx seq) ++ r.toList.map (reEnableTx seq) ↔
      r.map PublicKey.slice = some b := by
  cases d <;> cases r <;> simp [disableTx, reEnableTx, eq_comm]

theorem Inv.turn (hinj : Set.InjOn calcNodeID {k | k ∈ unl}) (hunl : unl.Nodup)
    (h : Inv unl s) (round : Round) : Turn unl calcNodeID s round := by
  obtain ⟨d, r, hballot, hvoted, haccepted, happlied⟩ := step_ballot hinj hunl h round
  refine ⟨haccepted, h.sound_step hunl hballot happlied, fun b => ?_, fun b => ?_, fun b => ?_⟩
  · rw [happlied.disabled, mem_disabled_updateNegativeUNL]
  · rw [happlied.toDisable, hvoted, mem_disableTxs]
  · rw [happlied.toReEnable, hvoted, mem_reEnableTxs]

theorem inv_none (hseq : isFlagLedger seq = true) : Inv unl ⟨seq, none⟩ where
  flag := hseq
  sound :=
    { nodup := List.nodup_nil
      toDisable_notMem := fun _ h => nomatch h
      toReEnable_mem := fun _ h => nomatch h
      listed_le := by
        have hnone : listed unl none = 0 :=
          List.countP_eq_zero.mpr fun k _ => by simp [disabled, NegativeUNL.toDisable]
        exact hnone ▸ Nat.zero_le _ }
  members :=
    { disabled := fun _ h => nomatch h
      toDisable := fun _ h => nomatch h }

/-- The life of the negative UNL: from the ledger that has none on, whatever the nodes have seen and
in whatever order the transactions come, every flag ledger does what it should. -/
theorem negativeUNL_run (hinj : Set.InjOn calcNodeID {k | k ∈ unl}) (hunl : unl.Nodup)
    (hseq : isFlagLedger seq = true) (rounds : List Round) :
    Run.Always (NegativeUNL.step calcNodeID unl) (Turn unl calcNodeID) ⟨seq, none⟩ rounds :=
  Run.always_of_invariant (P := fun _ _ => True) (Inv unl)
    (fun _ round h _ => h.step hinj hunl round)
    (fun _ round h _ => h.turn hinj hunl round) (inv_none hseq)
    (Run.always_of_forall fun _ _ => trivial)

/-- Two nodes, one of which has been silent and comes back. -/
private def twoKeys : List PublicKey := [⟨[kFalcon512Prefix, 1], rfl⟩, ⟨[kFalcon512Prefix, 2], rfl⟩]

private def lastByte (k : PublicKey) : NodeID := BitVec.ofNat 160 (k.slice.getLastD 0).toNat

private def seen (second : ℕ) : Round where
  voter :=
    { myId := 1
      hasHistory := true
      validations := fun n => if n = 1 then 256 else second
      newValidators := ∅ }
  prevHash := 0
  order := List.reverse
  order_perm := List.reverse_perm

theorem negativeUNL_run_twoKeys :
    Run.Always (NegativeUNL.step lastByte twoKeys) (Turn twoKeys lastByte) ⟨256, none⟩
        [seen 0, seen 256, seen 256] ∧
      (Run.final (NegativeUNL.step lastByte twoKeys) ⟨256, none⟩ [seen 0, seen 256]).sle =
        some ⟨some [⟨some [kFalcon512Prefix, 2], 768⟩], none, some [kFalcon512Prefix, 2]⟩ := by
  refine ⟨negativeUNL_run (fun a ha b hb hab => ?_) (by decide) rfl _, by decide⟩
  simp only [twoKeys, List.mem_cons, List.not_mem_nil, or_false, Set.mem_ofPred_eq] at ha hb
  rcases ha with rfl | rfl <;> rcases hb with rfl | rfl
  · rfl
  · exact absurd hab (by decide)
  · exact absurd hab (by decide)
  · rfl

end Runs

end NegativeUNL

end FalconLedger
