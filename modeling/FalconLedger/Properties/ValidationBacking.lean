import FalconLedger.Consensus.Validations

/-!
# Who is counted, and on what grounds

A node that is counted for a ledger, or waits for one, has a current trusted validation, as long as
no node loses its current validation while it is counted for another ledger, or to an untrusted one.
-/

namespace FalconLedger.Consensus

variable {T : LedgerTraits} {NodeID : Type} [DecidableEq NodeID]

namespace Validations

variable {env : Env T NodeID} {s s' : Validations T NodeID} {n m nodeID : NodeID}
  {key k : ℕ × T.ID} {val v : Validation T} {ledger l : T.Ledger}

/-- The node waits for a ledger to be acquired. -/
def Waits (s : Validations T NodeID) (key : ℕ × T.ID) (nodeID : NodeID) : Prop :=
  ∃ nodes, s.acquiring.lookup key = some nodes ∧ nodeID ∈ nodes

/-! ### What the parts of an operation do -/

/-- The operation leaves the current validations and the enforcers alone. -/
structure KeepsNodes (s s' : Validations T NodeID) : Prop where
  current : s'.current = s.current
  seqEnforcers : s'.seqEnforcers = s.seqEnforcers

omit [DecidableEq NodeID] in
theorem KeepsNodes.refl (s : Validations T NodeID) : KeepsNodes s s := ⟨rfl, rfl⟩

omit [DecidableEq NodeID] in
theorem KeepsNodes.trans {s'' : Validations T NodeID} (h : KeepsNodes s s')
    (h' : KeepsNodes s' s'') : KeepsNodes s s'' :=
  ⟨h'.current.trans h.current, h'.seqEnforcers.trans h.seqEnforcers⟩

theorem stopAcquiring_frame (s : Validations T NodeID) (key : ℕ × T.ID) (nodeID : NodeID) :
    KeepsNodes s (s.stopAcquiring key nodeID) ∧
      (s.stopAcquiring key nodeID).trie = s.trie ∧
      (s.stopAcquiring key nodeID).lastLedger = s.lastLedger := by
  unfold stopAcquiring
  split
  · exact ⟨.refl s, rfl, rfl⟩
  · exact ⟨⟨rfl, rfl⟩, rfl, rfl⟩

theorem waits_stopAcquiring :
    Waits (s.stopAcquiring key nodeID) k n ↔ Waits s k n ∧ ¬(k = key ∧ n = nodeID) := by
  unfold stopAcquiring
  split
  · rename_i hnone
    refine ⟨fun h => ⟨h, ?_⟩, fun h => h.1⟩
    rintro ⟨rfl, -⟩
    obtain ⟨nodes, hnodes, -⟩ := h
    rw [hnone] at hnodes
    cases hnodes
  · rename_i nodes hnodes
    by_cases hk : k = key
    · subst hk
      have hiff : (∃ rest, (if nodes.filter (· ≠ nodeID) = [] then s.acquiring.erase k
          else s.acquiring.insert k (nodes.filter (· ≠ nodeID))).lookup k = some rest ∧ n ∈ rest) ↔
          n ∈ nodes ∧ n ≠ nodeID := by
        split_ifs with hempty
        · rw [AList.lookup_erase]
          have hn : n ∉ nodes.filter (· ≠ nodeID) := hempty ▸ List.not_mem_nil
          simpa [List.mem_filter] using hn
        · simp [AList.lookup_insert]
      simpa [Waits, hnodes] using hiff
    · have hlookup : (if nodes.filter (· ≠ nodeID) = [] then s.acquiring.erase key
          else s.acquiring.insert key (nodes.filter (· ≠ nodeID))).lookup k =
          s.acquiring.lookup k := by
        split_ifs
        · exact AList.lookup_erase_ne hk
        · exact AList.lookup_insert_ne hk
      simp only [Waits, hlookup, hk, false_and, not_false_eq_true, and_true]

@[simp] theorem lastLedger_updateLedger (s : Validations T NodeID) (nodeID : NodeID)
    (ledger : T.Ledger) :
    (s.updateLedger nodeID ledger).lastLedger = s.lastLedger.insert nodeID ledger := rfl

theorem updateLedger_keepsNodes (s : Validations T NodeID) (nodeID : NodeID) (ledger : T.Ledger) :
    KeepsNodes s (s.updateLedger nodeID ledger) := ⟨rfl, rfl⟩

theorem foldl_updateLedger (nodes : List NodeID) (ledger : T.Ledger) (s : Validations T NodeID) :
    let s' := nodes.foldl (fun s nodeID => s.updateLedger nodeID ledger) s
    KeepsNodes s s' ∧ s'.acquiring = s.acquiring ∧
      ∀ n, s'.lastLedger.lookup n = if n ∈ nodes then some ledger else s.lastLedger.lookup n := by
  induction nodes generalizing s with
  | nil => exact ⟨.refl s, rfl, fun n => by simp⟩
  | cons a nodes ih =>
    obtain ⟨hkeeps, hacquiring, hlast⟩ := ih (s.updateLedger a ledger)
    refine ⟨(updateLedger_keepsNodes s a ledger).trans hkeeps, hacquiring, fun n => ?_⟩
    rw [List.foldl_cons, hlast, lastLedger_updateLedger]
    by_cases hn : n ∈ nodes
    · simp [hn]
    · by_cases hna : n = a
      · subst hna
        simp [hn]
      · simp [hn, hna, AList.lookup_insert_ne hna]

theorem checkKey_cases (env : Env T NodeID) (s : Validations T NodeID) (key : ℕ × T.ID) :
    s.checkKey env key = s ∨ ∃ nodes ledger, s.acquiring.lookup key = some nodes ∧
      env.acquire key.2 = some ledger ∧ KeepsNodes s (s.checkKey env key) ∧
      (s.checkKey env key).acquiring = s.acquiring.erase key ∧
      ∀ n, (s.checkKey env key).lastLedger.lookup n =
        if n ∈ nodes then some ledger else s.lastLedger.lookup n := by
  unfold checkKey
  split
  · rename_i nodes ledger hnodes hledger
    obtain ⟨hkeeps, hacquiring, hlast⟩ := foldl_updateLedger (env.nodeOrder nodes) ledger s
    refine .inr ⟨nodes, ledger, hnodes, hledger, ⟨hkeeps.current, hkeeps.seqEnforcers⟩, ?_,
      fun n => ?_⟩
    · dsimp only
      rw [hacquiring]
    · dsimp only
      rw [hlast]
      simp only [(env.nodeOrder_perm nodes).mem_iff]
  · exact .inl rfl

theorem checkAcquired_invariant (P : Validations T NodeID → Prop)
    (hstep : ∀ s key, P s → P (s.checkKey env key)) (h : P s) : P (s.checkAcquired env) :=
  List.foldlRecOn _ _ h fun s hs key _ => hstep s key hs

theorem checkAcquired_keepsNodes (env : Env T NodeID) (s : Validations T NodeID) :
    KeepsNodes s (s.checkAcquired env) := by
  refine checkAcquired_invariant (KeepsNodes s) (fun s' key h => ?_) (.refl s)
  rcases checkKey_cases env s' key with heq | ⟨nodes, ledger, -, -, hkeeps, -, -⟩
  · rw [heq]
    exact h
  · exact h.trans hkeeps

theorem waits_checkKey (h : Waits (s.checkKey env key) k n) : Waits s k n := by
  rcases checkKey_cases env s key with heq | ⟨nodes, ledger, -, -, -, hacquiring, -⟩
  · rwa [heq] at h
  · obtain ⟨nodes', hnodes', hn⟩ := h
    rw [hacquiring] at hnodes'
    by_cases hk : k = key
    · rw [hk, AList.lookup_erase] at hnodes'
      cases hnodes'
    · rw [AList.lookup_erase_ne hk] at hnodes'
      exact ⟨nodes', hnodes', hn⟩

theorem waits_checkAcquired (h : Waits (s.checkAcquired env) k n) : Waits s k n := by
  have hinvariant : Waits (s.checkAcquired env) k n → Waits s k n := by
    refine checkAcquired_invariant (fun s' => Waits s' k n → Waits s k n)
      (fun s' key h hwaits => ?_) id
    exact h (waits_checkKey hwaits)
  exact hinvariant h

/-! ### Who is counted -/

/-- What is recorded of a node rests on its current validation, which is trusted: the node is
counted for its ledger, or waits for it; and it waits for no other. -/
structure BackedAt (s : Validations T NodeID) (n : NodeID) : Prop where
  last : ∀ ledger, s.lastLedger.lookup n = some ledger →
    ∃ v, s.current.lookup n = some v ∧ v.trusted = true ∧
      (T.id ledger = v.ledgerID ∨ Waits s v.key n)
  waits : ∀ key, Waits s key n → ∃ v, s.current.lookup n = some v ∧ v.trusted = true ∧ key = v.key

/-- If the node is counted, it is for the ledger of its current validation. -/
def Settled (s : Validations T NodeID) (n : NodeID) : Prop :=
  ∀ v ledger, s.current.lookup n = some v → s.lastLedger.lookup n = some ledger →
    T.id ledger = v.ledgerID

/-- The node is neither counted nor does it wait. -/
structure Clear (s : Validations T NodeID) (n : NodeID) : Prop where
  last : s.lastLedger.lookup n = none
  waits : ∀ key, ¬Waits s key n

theorem Clear.backedAt (h : Clear s n) : BackedAt s n where
  last ledger hledger := by
    rw [h.last] at hledger
    cases hledger
  waits key hwaits := absurd hwaits (h.waits key)

theorem Clear.settled (h : Clear s n) : Settled s n := fun v ledger _ hledger => by
  rw [h.last] at hledger
  cases hledger

theorem BackedAt.clear_of_untrusted (h : BackedAt s n)
    (huntrusted : ∀ v, s.current.lookup n = some v → v.trusted = false) : Clear s n where
  last := by
    cases hlast : s.lastLedger.lookup n with
    | none => rfl
    | some ledger =>
      obtain ⟨v, hv, htrusted, -⟩ := h.last ledger hlast
      rw [huntrusted v hv] at htrusted
      cases htrusted
  waits key hwaits := by
    obtain ⟨v, hv, htrusted, -⟩ := h.waits key hwaits
    rw [huntrusted v hv] at htrusted
    cases htrusted

theorem BackedAt.congr (h : BackedAt s n) (hcurrent : s'.current.lookup n = s.current.lookup n)
    (hlast : s'.lastLedger.lookup n = s.lastLedger.lookup n)
    (hwaits : ∀ key, Waits s' key n ↔ Waits s key n) : BackedAt s' n where
  last ledger hledger := by
    rw [hlast] at hledger
    simpa only [hcurrent, hwaits] using h.last ledger hledger
  waits key hkey := by
    rw [hcurrent]
    exact h.waits key ((hwaits key).mp hkey)

theorem Settled.congr (h : Settled s n) (hcurrent : s'.current.lookup n = s.current.lookup n)
    (hlast : s'.lastLedger.lookup n = s.lastLedger.lookup n) : Settled s' n :=
  fun v ledger hv hledger => h v ledger (hcurrent ▸ hv) (hlast ▸ hledger)

theorem BackedAt.checkKey (h : BackedAt s n) (env : Env T NodeID) (key : ℕ × T.ID) :
    BackedAt (s.checkKey env key) n ∧ (Settled s n → Settled (s.checkKey env key) n) := by
  rcases checkKey_cases env s key with heq | ⟨nodes, ledger, hnodes, hledger, hkeeps, hacquiring,
    hlast⟩
  · rw [heq]
    exact ⟨h, id⟩
  have hwaits : ∀ k, Waits (s.checkKey env key) k n ↔ Waits s k n ∧ k ≠ key := fun k => by
    by_cases hk : k = key
    · subst hk
      simp [Waits, hacquiring, AList.lookup_erase]
    · simp [Waits, hacquiring, hk, AList.lookup_erase_ne hk]
  by_cases hn : n ∈ nodes
  · obtain ⟨v, hv, htrusted, rfl⟩ := h.waits key ⟨nodes, hnodes, hn⟩
    have hid : T.id ledger = v.ledgerID := env.acquire_id hledger
    have hnow : (s.checkKey env v.key).lastLedger.lookup n = some ledger := by rw [hlast, if_pos hn]
    refine ⟨⟨fun l hl => ?_, fun k hk => ?_⟩, fun _ v' l hv' hl => ?_⟩
    · rw [hnow, Option.some.injEq] at hl
      subst hl
      exact ⟨v, hkeeps.current ▸ hv, htrusted, .inl hid⟩
    · rw [hkeeps.current]
      exact h.waits k ((hwaits k).mp hk).1
    · rw [hkeeps.current, hv, Option.some.injEq] at hv'
      rw [hnow, Option.some.injEq] at hl
      rw [← hv', ← hl, hid]
  · have hsame : (s.checkKey env key).lastLedger.lookup n = s.lastLedger.lookup n := by
      rw [hlast, if_neg hn]
    have hcurrent : (s.checkKey env key).current.lookup n = s.current.lookup n := by
      rw [hkeeps.current]
    refine ⟨h.congr hcurrent hsame fun k => ?_, fun hsettled => hsettled.congr hcurrent hsame⟩
    rw [hwaits]
    refine ⟨fun hk => hk.1, fun hk => ⟨hk, ?_⟩⟩
    rintro rfl
    obtain ⟨nodes', hnodes', hn'⟩ := hk
    rw [hnodes, Option.some.injEq] at hnodes'
    exact hn (hnodes' ▸ hn')

theorem BackedAt.checkAcquired (h : BackedAt s n) (env : Env T NodeID) :
    BackedAt (s.checkAcquired env) n ∧ (Settled s n → Settled (s.checkAcquired env) n) := by
  refine checkAcquired_invariant (fun s' => BackedAt s' n ∧ (Settled s n → Settled s' n))
    (fun s' key h' => ?_) ⟨h, id⟩
  have hkey := h'.1.checkKey env key
  exact ⟨hkey.1, fun hsettled => hkey.2 (h'.2 hsettled)⟩

theorem BackedAt.stopAcquiring (h : BackedAt s n) (key : ℕ × T.ID) (hne : n ≠ nodeID) :
    BackedAt (s.stopAcquiring key nodeID) n := by
  obtain ⟨hkeeps, -, hlast⟩ := stopAcquiring_frame s key nodeID
  exact h.congr (by rw [hkeeps.current]) (by rw [hlast]) fun k => by
    simp [waits_stopAcquiring, hne]

theorem countOrWait_cases (env : Env T NodeID) (s : Validations T NodeID) (nodeID : NodeID)
    (val : Validation T) :
    (∃ ledger, T.id ledger = val.ledgerID ∧
      s.countOrWait env nodeID val = s.updateLedger nodeID ledger) ∨
    ∃ nodes, s.countOrWait env nodeID val =
        { s with acquiring := s.acquiring.insert val.key nodes } ∧
      ∀ n, n ∈ nodes ↔ n = nodeID ∨ Waits s val.key n := by
  unfold countOrWait
  split
  · rename_i nodes hnodes
    refine .inr ⟨_, rfl, fun n => ?_⟩
    simp [Waits, hnodes]
  · rename_i hnone
    split
    · rename_i ledger hledger
      exact .inl ⟨ledger, env.acquire_id hledger, rfl⟩
    · refine .inr ⟨_, rfl, fun n => ?_⟩
      simp [Waits, hnone]

omit [DecidableEq NodeID] in
theorem waits_insert {nodes : List NodeID} (hnodes : ∀ n, n ∈ nodes ↔ n = nodeID ∨ Waits s key n) :
    Waits { s with acquiring := s.acquiring.insert key nodes } k n ↔
      Waits s k n ∨ k = key ∧ n = nodeID := by
  by_cases hk : k = key
  · subst hk
    simp [Waits, AList.lookup_insert]
    rw [hnodes]
    simp [Waits, or_comm]
  · simp [Waits, AList.lookup_insert_ne hk, hk]

theorem countOrWait_keepsNodes (env : Env T NodeID) (s : Validations T NodeID) (nodeID : NodeID)
    (val : Validation T) : KeepsNodes s (s.countOrWait env nodeID val) := by
  rcases countOrWait_cases env s nodeID val with ⟨ledger, -, heq⟩ | ⟨nodes, heq, -⟩
  · rw [heq]
    exact updateLedger_keepsNodes s nodeID ledger
  · rw [heq]
    exact ⟨rfl, rfl⟩

theorem countOrWait_self (hcurrent : s.current.lookup nodeID = some val)
    (htrusted : val.trusted = true) (honly : ∀ k, Waits s k nodeID → k = val.key) :
    BackedAt (s.countOrWait env nodeID val) nodeID := by
  rcases countOrWait_cases env s nodeID val with ⟨ledger, hid, heq⟩ | ⟨nodes, heq, hnodes⟩
  · rw [heq]
    refine ⟨fun l hl => ⟨val, hcurrent, htrusted, .inl ?_⟩,
      fun k hk => ⟨val, hcurrent, htrusted, honly k hk⟩⟩
    rw [lastLedger_updateLedger, AList.lookup_insert, Option.some.injEq] at hl
    rw [← hl, hid]
  · rw [heq]
    have hwaits := (waits_insert hnodes).mpr (.inr ⟨rfl, rfl⟩)
    refine ⟨fun l _ => ⟨val, hcurrent, htrusted, .inr hwaits⟩,
      fun k hk => ⟨val, hcurrent, htrusted, ?_⟩⟩
    rcases (waits_insert hnodes).mp hk with hk | ⟨rfl, -⟩
    · exact honly k hk
    · rfl

theorem BackedAt.countOrWait (h : BackedAt s n) (env : Env T NodeID) (val : Validation T)
    (hne : n ≠ nodeID) :
    BackedAt (s.countOrWait env nodeID val) n ∧
      (Settled s n → Settled (s.countOrWait env nodeID val) n) := by
  have hkeeps := countOrWait_keepsNodes env s nodeID val
  have hlast : (s.countOrWait env nodeID val).lastLedger.lookup n = s.lastLedger.lookup n := by
    rcases countOrWait_cases env s nodeID val with ⟨ledger, -, heq⟩ | ⟨nodes, heq, -⟩
    · rw [heq, lastLedger_updateLedger, AList.lookup_insert_ne hne]
    · rw [heq]
  have hwaits : ∀ k, Waits (s.countOrWait env nodeID val) k n ↔ Waits s k n := fun k => by
    rcases countOrWait_cases env s nodeID val with ⟨ledger, -, heq⟩ | ⟨nodes, heq, hnodes⟩
    · rw [heq]
      rfl
    · rw [heq, waits_insert hnodes]
      simp [hne]
  exact ⟨h.congr (by rw [hkeeps.current]) hlast hwaits,
    fun hsettled => hsettled.congr (by rw [hkeeps.current]) hlast⟩

theorem updateTrie_keepsNodes (env : Env T NodeID) (s : Validations T NodeID) (nodeID : NodeID)
    (val : Validation T) (prior : Option (ℕ × T.ID)) :
    KeepsNodes s (s.updateTrie env nodeID val prior) := by
  unfold updateTrie
  cases prior with
  | none =>
    exact (checkAcquired_keepsNodes env s).trans (countOrWait_keepsNodes env _ nodeID val)
  | some key =>
    exact (stopAcquiring_frame s key nodeID).1.trans ((checkAcquired_keepsNodes env _).trans
      (countOrWait_keepsNodes env _ nodeID val))

theorem updateTrie_self {prior : Option (ℕ × T.ID)} (hcurrent : s.current.lookup nodeID = some val)
    (htrusted : val.trusted = true) (honly : ∀ k, Waits s k nodeID → k = val.key ∨ prior = some k) :
    BackedAt (s.updateTrie env nodeID val prior) nodeID := by
  unfold updateTrie
  cases prior with
  | none =>
    refine countOrWait_self ?_ htrusted fun k hk => ?_
    · rw [(checkAcquired_keepsNodes env s).current]
      exact hcurrent
    · exact (honly k (waits_checkAcquired hk)).resolve_right nofun
  | some key =>
    refine countOrWait_self ?_ htrusted fun k hk => ?_
    · dsimp only
      rw [(checkAcquired_keepsNodes env _).current, (stopAcquiring_frame s key nodeID).1.current]
      exact hcurrent
    · obtain ⟨hwaits, hne⟩ := waits_stopAcquiring.mp (waits_checkAcquired hk)
      refine (honly k hwaits).resolve_right fun heq => hne ⟨?_, rfl⟩
      exact (Option.some.inj heq).symm

theorem BackedAt.updateTrie (h : BackedAt s n) (env : Env T NodeID) (val : Validation T)
    (prior : Option (ℕ × T.ID)) (hne : n ≠ nodeID) :
    BackedAt (s.updateTrie env nodeID val prior) n ∧
      (Settled s n → Settled (s.updateTrie env nodeID val prior) n) := by
  unfold Validations.updateTrie
  cases prior with
  | none =>
    have hcheck := h.checkAcquired env
    have hcount := hcheck.1.countOrWait env val hne
    exact ⟨hcount.1, fun hsettled => hcount.2 (hcheck.2 hsettled)⟩
  | some key =>
    obtain ⟨hkeeps, -, hlast⟩ := stopAcquiring_frame s key nodeID
    have hcheck := (h.stopAcquiring key hne).checkAcquired env
    have hcount := hcheck.1.countOrWait env val hne
    refine ⟨hcount.1, fun hsettled => hcount.2 (hcheck.2 (hsettled.congr ?_ ?_))⟩
    · rw [hkeeps.current]
    · rw [hlast]

theorem removeTrie_keepsNodes (s : Validations T NodeID) (nodeID : NodeID) (val : Validation T) :
    KeepsNodes s (s.removeTrie nodeID val) := by
  obtain ⟨hkeeps, -, -⟩ := stopAcquiring_frame s val.key nodeID
  unfold removeTrie
  dsimp only
  split
  · exact hkeeps
  · split_ifs
    · exact ⟨hkeeps.current, hkeeps.seqEnforcers⟩
    · exact hkeeps

theorem lastLedger_removeTrie (s : Validations T NodeID) (nodeID : NodeID) (val : Validation T) :
    (s.removeTrie nodeID val).acquiring = (s.stopAcquiring val.key nodeID).acquiring ∧
      (s.removeTrie nodeID val).lastLedger =
        match s.lastLedger.lookup nodeID with
        | none => s.lastLedger
        | some ledger =>
          if T.id ledger = val.ledgerID then s.lastLedger.erase nodeID else s.lastLedger := by
  obtain ⟨-, -, hlast⟩ := stopAcquiring_frame s val.key nodeID
  cases hlookup : s.lastLedger.lookup nodeID with
  | none => simp only [removeTrie, hlast, hlookup, and_self]
  | some ledger =>
    by_cases hid : T.id ledger = val.ledgerID
    · simp only [removeTrie, hlast, hlookup, if_pos hid, and_self]
    · simp only [removeTrie, hlast, hlookup, if_neg hid, and_self]

theorem clear_removeTrie
    (hledger : ∀ ledger, s.lastLedger.lookup n = some ledger → T.id ledger = val.ledgerID)
    (honly : ∀ k, Waits s k n → k = val.key) : Clear (s.removeTrie n val) n := by
  obtain ⟨hacquiring, hlast⟩ := lastLedger_removeTrie s n val
  refine ⟨?_, fun k hk => ?_⟩
  · rw [hlast]
    split
    · assumption
    · rename_i ledger hlookup
      rw [if_pos (hledger ledger hlookup), AList.lookup_erase]
  · have hwaits : Waits (s.stopAcquiring val.key n) k n := by
      rwa [Waits, hacquiring] at hk
    obtain ⟨hwaits, hne⟩ := waits_stopAcquiring.mp hwaits
    exact hne ⟨honly k hwaits, rfl⟩

theorem BackedAt.only (h : BackedAt s n) (hcurrent : s.current.lookup n = some v) (k : ℕ × T.ID)
    (hk : Waits s k n) : k = v.key := by
  obtain ⟨v', hv', -, rfl⟩ := h.waits k hk
  rw [hcurrent, Option.some.injEq] at hv'
  rw [hv']

theorem BackedAt.removeTrie (h : BackedAt s n) (val : Validation T) (hne : n ≠ nodeID) :
    BackedAt (s.removeTrie nodeID val) n ∧ (Settled s n → Settled (s.removeTrie nodeID val) n) := by
  have hkeeps := removeTrie_keepsNodes s nodeID val
  obtain ⟨hacquiring, hlast⟩ := lastLedger_removeTrie s nodeID val
  have hsame : (s.removeTrie nodeID val).lastLedger.lookup n = s.lastLedger.lookup n := by
    rw [hlast]
    split
    · rfl
    · split_ifs
      · exact AList.lookup_erase_ne hne
      · rfl
  have hcurrent : (s.removeTrie nodeID val).current.lookup n = s.current.lookup n := by
    rw [hkeeps.current]
  refine ⟨h.congr hcurrent hsame fun k => ?_, fun hsettled => hsettled.congr hcurrent hsame⟩
  have hwaits : Waits (s.removeTrie nodeID val) k n ↔
      Waits (s.stopAcquiring val.key nodeID) k n := by
    rw [Waits, Waits, hacquiring]
  rw [hwaits, waits_stopAcquiring]
  simp [hne]

/-! ### Who is counted after an operation -/

/-- Every node that is recorded is backed. -/
def Backed (s : Validations T NodeID) : Prop := ∀ n, BackedAt s n

theorem foldl_forall (f : Validations T NodeID → NodeID → Validations T NodeID)
    (P : Validations T NodeID → NodeID → Prop) (hself : ∀ s n, P s n → P (f s n) n)
    (hother : ∀ s nodeID n, P s n → n ≠ nodeID → P (f s nodeID) n) (nodes : List NodeID)
    (h : ∀ n, P s n) (n : NodeID) : P (nodes.foldl f s) n := by
  refine List.foldlRecOn nodes f (motive := fun s => ∀ n, P s n) h (fun s hs nodeID _ n => ?_) n
  by_cases hne : n = nodeID
  · subst hne
    exact hself s n (hs n)
  · exact hother s nodeID n (hs n) hne

/-- A validation that is no longer current. -/
def Stale (env : Env T NodeID) (v : Validation T) : Prop :=
  isCurrent env.parms env.now v.signTime v.seenTime = false

/-- No node with a stale validation is counted for another ledger. -/
def StaleSettled (env : Env T NodeID) (s : Validations T NodeID) : Prop :=
  ∀ n v, s.current.lookup n = some v → Stale env v → Settled s n

theorem flush_cases (env : Env T NodeID) (s : Validations T NodeID) (nodeID : NodeID) :
    s.flush env nodeID = s ∨ ∃ v, s.current.lookup nodeID = some v ∧ Stale env v ∧
      s.flush env nodeID =
        { s.removeTrie nodeID v with current := (s.removeTrie nodeID v).current.erase nodeID } := by
  unfold flush
  split
  · exact .inl rfl
  · rename_i v hv
    split_ifs with hcurrent
    · exact .inl rfl
    · exact .inr ⟨v, hv, by rwa [Bool.not_eq_true] at hcurrent, rfl⟩

theorem Backed.queryCurrent (h : Backed s) (hstale : StaleSettled env s) :
    Backed (s.queryCurrent env) := by
  have hall := foldl_forall (s := s) (flush env)
    (fun s n => BackedAt s n ∧ ∀ v, s.current.lookup n = some v → Stale env v → Settled s n)
    (fun s n hs => ?_) (fun s nodeID n hs hne => ?_) (env.nodeOrder s.current.keys)
    fun n => ⟨h n, hstale n⟩
  · exact fun n => (hall n).1
  · rcases flush_cases env s n with heq | ⟨v, hv, hstale, heq⟩
    · rw [heq]
      exact hs
    · have hclear : Clear (s.removeTrie n v) n :=
        clear_removeTrie (fun ledger => hs.2 v hv hstale v ledger hv) (hs.1.only hv)
      have hclear' : Clear (s.flush env n) n := by
        rw [heq]
        exact ⟨hclear.last, hclear.waits⟩
      exact ⟨hclear'.backedAt, fun _ _ _ => hclear'.settled⟩
  · rcases flush_cases env s nodeID with heq | ⟨v, hv, -, heq⟩
    · rw [heq]
      exact hs
    · obtain ⟨hbacked, hsettled⟩ := hs.1.removeTrie v hne
      have hcurrent : (s.flush env nodeID).current.lookup n =
          (s.removeTrie nodeID v).current.lookup n := by
        rw [heq]
        exact AList.lookup_erase_ne hne
      have hlast : (s.flush env nodeID).lastLedger.lookup n =
          (s.removeTrie nodeID v).lastLedger.lookup n := by rw [heq]
      refine ⟨hbacked.congr hcurrent hlast fun k => by rw [heq]; rfl, fun w hw hstale => ?_⟩
      rw [hcurrent, (removeTrie_keepsNodes s nodeID v).current] at hw
      exact (hsettled (hs.2 w hw hstale)).congr hcurrent hlast

theorem Backed.checkAcquired (h : Backed s) : Backed (s.checkAcquired env) :=
  fun n => ((h n).checkAcquired env).1

theorem Backed.withTrie (h : Backed s) (hstale : StaleSettled env s) :
    Backed (s.withTrie env) := (h.queryCurrent hstale).checkAcquired

theorem BackedAt.setCurrent (h : BackedAt s n) (val : Validation T) (hne : n ≠ nodeID) :
    BackedAt { s with current := s.current.insert nodeID val } n ∧
      (Settled s n → Settled { s with current := s.current.insert nodeID val } n) := by
  have hcurrent : (s.current.insert nodeID val).lookup n = s.current.lookup n :=
    AList.lookup_insert_ne hne
  exact ⟨h.congr hcurrent rfl fun _ => Iff.rfl, fun hsettled => hsettled.congr hcurrent rfl⟩

theorem trustNode_self {added removed : List NodeID} (h : BackedAt s n)
    (hsettled : n ∈ removed → n ∉ added → Settled s n) :
    BackedAt (s.trustNode env added removed n) n ∧
      (n ∈ removed → n ∉ added → Settled (s.trustNode env added removed n) n) := by
  unfold trustNode
  split
  · exact ⟨h, hsettled⟩
  · rename_i v hv
    split_ifs with hadded hremoved
    · refine ⟨updateTrie_self (AList.lookup_insert _) rfl fun k hk => .inl ?_,
        fun _ hnot => absurd hadded hnot⟩
      exact h.only hv k hk
    · have hclear : Clear (Validations.removeTrie
          { s with current := s.current.insert n { v with trusted := false } } n
          { v with trusted := false }) n :=
        clear_removeTrie (fun ledger => hsettled hremoved hadded v ledger hv)
          fun k hk => h.only hv k hk
      exact ⟨hclear.backedAt, fun _ _ => hclear.settled⟩
    · exact ⟨h, hsettled⟩

theorem trustNode_other {added removed : List NodeID} (h : BackedAt s n)
    (hsettled : n ∈ removed → n ∉ added → Settled s n) (hne : n ≠ nodeID) :
    BackedAt (s.trustNode env added removed nodeID) n ∧
      (n ∈ removed → n ∉ added → Settled (s.trustNode env added removed nodeID) n) := by
  unfold trustNode
  split
  · exact ⟨h, hsettled⟩
  · rename_i v hv
    split_ifs
    · obtain ⟨hset, hsetSettled⟩ := h.setCurrent { v with trusted := true } hne
      obtain ⟨hupdate, hupdateSettled⟩ := hset.updateTrie env { v with trusted := true } none hne
      exact ⟨hupdate, fun hr ha => hupdateSettled (hsetSettled (hsettled hr ha))⟩
    · obtain ⟨hset, hsetSettled⟩ := h.setCurrent { v with trusted := false } hne
      obtain ⟨hremove, hremoveSettled⟩ := hset.removeTrie { v with trusted := false } hne
      exact ⟨hremove, fun hr ha => hremoveSettled (hsetSettled (hsettled hr ha))⟩
    · exact ⟨h, hsettled⟩

theorem Backed.trustChanged {added removed : List NodeID} (h : Backed s)
    (hsettled : ∀ n ∈ removed, n ∉ added → Settled s n) :
    Backed (s.trustChanged env added removed) := by
  have hall := foldl_forall (s := s) (trustNode env added removed)
    (fun s n => BackedAt s n ∧ (n ∈ removed → n ∉ added → Settled s n))
    (fun s n hs => trustNode_self hs.1 hs.2)
    (fun s nodeID n hs hne => trustNode_other hs.1 hs.2 hne) (env.nodeOrder s.current.keys)
    fun n => ⟨h n, hsettled n⟩
  exact fun n => (hall n).1.congr rfl rfl fun _ => Iff.rfl

theorem Backed.storeCurrent (h : Backed s)
    (htrust : val.trusted = true ∨ ∀ v, s.current.lookup nodeID = some v → v.trusted = false) :
    Backed (s.storeCurrent env nodeID val).2 := by
  intro n
  -- the state once the validation is the current one of its node
  have hset : n ≠ nodeID → BackedAt { s with current := s.current.insert nodeID val } n :=
    fun hne => ((h n).setCurrent val hne).1
  have hself : val.trusted = false →
      BackedAt { s with current := s.current.insert nodeID val } nodeID := fun hfalse => by
    have hclear := (h nodeID).clear_of_untrusted (htrust.resolve_left (by simp [hfalse]))
    exact Clear.backedAt ⟨hclear.last, hclear.waits⟩
  have hbacked : ∀ prior, (∀ k, Waits s k nodeID → prior = some k) →
      BackedAt (if val.trusted then
        Validations.updateTrie env { s with current := s.current.insert nodeID val } nodeID val
          prior
        else { s with current := s.current.insert nodeID val }) n := fun prior honly => by
    by_cases hne : n = nodeID
    · subst hne
      split_ifs with htrusted
      · exact updateTrie_self (AList.lookup_insert _) htrusted fun k hk => .inr (honly k hk)
      · exact hself (by simpa using htrusted)
    · split_ifs
      · exact ((hset hne).updateTrie env val prior hne).1
      · exact hset hne
  unfold Validations.storeCurrent
  split
  · rename_i hnone
    refine hbacked none fun k hk => ?_
    obtain ⟨v, hv, -⟩ := (h nodeID).waits k hk
    rw [hnone] at hv
    cases hv
  · rename_i v hv
    by_cases hnewer : v.signTime < val.signTime
    · rw [if_pos hnewer]
      exact hbacked (some v.key) fun k hk => by rw [(h nodeID).only hv k hk]
    · rw [if_neg hnewer]
      exact h n

/-- What the operations that only file validations leave alone. -/
theorem Backed.congr (h : Backed s) (hcurrent : s'.current = s.current)
    (hlast : s'.lastLedger = s.lastLedger) (hacquiring : s'.acquiring = s.acquiring) :
    Backed s' := fun n => (h n).congr (by rw [hcurrent]) (by rw [hlast]) fun k => by
  rw [Waits, Waits, hacquiring]

theorem Backed.add (h : Backed s)
    (htrust : val.trusted = true ∨ ∀ v, s.current.lookup nodeID = some v → v.trusted = false) :
    Backed (s.add env nodeID val).2 := by
  unfold Validations.add
  split_ifs with hcurrent
  · dsimp only
    split_ifs with htaken
    · refine Backed.storeCurrent ?_ htrust
      exact h.congr rfl rfl rfl
    · exact h.congr rfl rfl rfl
  · exact h

theorem Backed.refresh (h : Backed s) (env : Env T NodeID) : Backed (s.refresh env) := by
  unfold Validations.refresh
  split
  · exact h
  · split_ifs
    · exact h.congr rfl rfl rfl
    · exact h

theorem Backed.expire (h : Backed s) : Backed (s.expire env) :=
  (h.refresh env).congr rfl rfl rfl

theorem Backed.queryByLedger {ledgerID : T.ID} (h : Backed s) :
    Backed (s.queryByLedger env ledgerID) := by
  unfold Validations.queryByLedger
  split
  · exact h
  · exact h.congr rfl rfl rfl

end Validations

end FalconLedger.Consensus
