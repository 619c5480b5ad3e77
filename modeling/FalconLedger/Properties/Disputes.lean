import FalconLedger.Consensus.Rounds

/-!
# Disputes are exact

Whatever the order of proposals, transaction sets and timer calls: our set has a disputed transaction
just when we vote for it, the votes recorded are those of the peers we hear and what their sets say, the
counts are right, and no difference between our set and the set of a peer goes undisputed.
-/

namespace FalconLedger.Consensus

variable {T : Traits}

/-! ### Votes on one transaction -/

/-- The number of votes for, or against. -/
def tally (vote : Bool) (votes : Table T.NodeID Bool) : ℤ :=
  votes.total fun v => if v = vote then 1 else 0

namespace DisputedTx

/-- The counts are those of the votes. -/
structure Counted (d : DisputedTx T) : Prop where
  yays : d.yays = tally true d.votes
  nays : d.nays = tally false d.votes

theorem tally_insert (vote v : Bool) (votes : Table T.NodeID Bool) (peer : T.NodeID) :
    tally vote (votes.insert peer v) =
      tally vote votes - ((votes.lookup peer).elim 0 fun w => if w = vote then 1 else 0) +
        if v = vote then 1 else 0 := by
  unfold tally
  rw [Table.total_insert]
  rfl

theorem tally_erase (vote : Bool) (votes : Table T.NodeID Bool) (peer : T.NodeID) :
    tally vote (votes.erase peer) =
      tally vote votes - (votes.lookup peer).elim 0 fun w => if w = vote then 1 else 0 := by
  unfold tally
  rw [Table.total_erase]
  rfl

variable {d : DisputedTx T} {peer n : T.NodeID} {v : Bool}

theorem lookup_setVote :
    (d.setVote peer v).votes.lookup n = if n = peer then some v else d.votes.lookup n := by
  unfold setVote
  by_cases hn : n = peer
  · subst hn
    cases hlookup : d.votes.lookup n with
    | none => cases v <;> simp
    | some w => cases v <;> cases w <;> simp [hlookup]
  · cases hlookup : d.votes.lookup peer with
    | none => cases v <;> simp [hn, AList.lookup_insert_ne hn]
    | some w => cases v <;> cases w <;> simp [hn, AList.lookup_insert_ne hn]

theorem lookup_unVote :
    (d.unVote peer).votes.lookup n = if n = peer then none else d.votes.lookup n := by
  unfold unVote
  by_cases hn : n = peer
  · subst hn
    cases hlookup : d.votes.lookup n with
    | none => simp [hlookup]
    | some w => cases w <;> simp [AList.lookup_erase]
  · cases hlookup : d.votes.lookup peer with
    | none => simp [hn]
    | some w => cases w <;> simp [hn, AList.lookup_erase_ne hn]

theorem Counted.setVote (h : d.Counted) : (d.setVote peer v).Counted := by
  obtain ⟨hyays, hnays⟩ := h
  unfold DisputedTx.setVote
  cases hlookup : d.votes.lookup peer with
  | none =>
    cases v <;> constructor <;> simp [tally_insert, hlookup, hyays, hnays]
  | some w =>
    cases v <;> cases w <;> constructor <;> simp [tally_insert, hlookup, hyays, hnays]

theorem Counted.unVote (h : d.Counted) : (d.unVote peer).Counted := by
  obtain ⟨hyays, hnays⟩ := h
  unfold DisputedTx.unVote
  cases hlookup : d.votes.lookup peer with
  | none => exact ⟨hyays, hnays⟩
  | some w => cases w <;> constructor <;> simp [tally_erase, hlookup, hyays, hnays]

@[simp] theorem setVote_ourVote : (d.setVote peer v).ourVote = d.ourVote := by
  unfold setVote
  split <;> split_ifs <;> rfl

@[simp] theorem setVote_tx : (d.setVote peer v).tx = d.tx := by
  unfold setVote
  split <;> split_ifs <;> rfl

@[simp] theorem unVote_ourVote : (d.unVote peer).ourVote = d.ourVote := by
  unfold unVote
  split
  · rfl
  · split_ifs <;> rfl

@[simp] theorem unVote_tx : (d.unVote peer).tx = d.tx := by
  unfold unVote
  split
  · rfl
  · split_ifs <;> rfl

theorem updateVote_spec (d : DisputedTx T) (percentTime : ℤ) (proposing : Bool) :
    (d.updateVote percentTime proposing).1.votes = d.votes ∧
      (d.updateVote percentTime proposing).1.yays = d.yays ∧
      (d.updateVote percentTime proposing).1.nays = d.nays ∧
      (d.updateVote percentTime proposing).1.tx = d.tx ∧
      ((d.updateVote percentTime proposing).2 = false →
        (d.updateVote percentTime proposing).1.ourVote = d.ourVote) := by
  unfold updateVote
  split_ifs
  · exact ⟨rfl, rfl, rfl, rfl, fun _ => rfl⟩
  · exact ⟨rfl, rfl, rfl, rfl, fun _ => rfl⟩
  all_goals
    dsimp only
    split
    · refine ⟨?_, ?_, ?_, ?_, ?_⟩ <;> split <;> first | rfl | exact fun _ => rfl
    · refine ⟨?_, ?_, ?_, ?_, nofun⟩ <;> split <;> rfl

end DisputedTx

/-! ### The votes of all peers on one transaction -/

section SetVotes

variable {acquired : Table T.SetID T.TxSet} {t : T.TxID} {n : T.NodeID}

private abbrev ballot (acquired : Table T.SetID T.TxSet) (t : T.TxID) (d : DisputedTx T)
    (e : Σ _ : T.NodeID, Proposal T) : DisputedTx T :=
  match acquired.lookup e.2.position with
  | some set => d.setVote e.1 (T.exists set t)
  | none => d

private theorem ballot_cases (d : DisputedTx T) (e : Σ _ : T.NodeID, Proposal T) :
    (acquired.lookup e.2.position = none ∧ ballot acquired t d e = d) ∨
      ∃ set, acquired.lookup e.2.position = some set ∧
        ballot acquired t d e = d.setVote e.1 (T.exists set t) := by
  unfold ballot
  cases acquired.lookup e.2.position with
  | none => exact .inl ⟨rfl, rfl⟩
  | some set => exact .inr ⟨set, rfl, rfl⟩

private theorem foldl_ballot_keeps (l : List (Σ _ : T.NodeID, Proposal T)) (d : DisputedTx T) :
    (l.foldl (ballot acquired t) d).ourVote = d.ourVote ∧
      (l.foldl (ballot acquired t) d).tx = d.tx ∧
      (d.Counted → (l.foldl (ballot acquired t) d).Counted) := by
  induction l generalizing d with
  | nil => exact ⟨rfl, rfl, fun h => h⟩
  | cons e l ih =>
    obtain ⟨hvote, htx, hcounted⟩ := ih (ballot acquired t d e)
    rw [List.foldl_cons, hvote, htx]
    rcases @ballot_cases T acquired t d e with ⟨-, hd⟩ | ⟨set, -, hd⟩
    · rw [hd] at hcounted ⊢
      exact ⟨rfl, rfl, hcounted⟩
    · rw [hd] at hcounted ⊢
      exact ⟨DisputedTx.setVote_ourVote, DisputedTx.setVote_tx, fun h => hcounted h.setVote⟩

private theorem foldl_ballot_voter {l : List (Σ _ : T.NodeID, Proposal T)} {d : DisputedTx T} {v : Bool}
    (h : (l.foldl (ballot acquired t) d).votes.lookup n = some v) :
    (∃ p, ⟨n, p⟩ ∈ l) ∨ d.votes.lookup n = some v := by
  induction l generalizing d with
  | nil => exact .inr h
  | cons e l ih =>
    rcases ih h with ⟨p, hp⟩ | hv
    · exact .inl ⟨p, List.mem_cons_of_mem _ hp⟩
    · rcases @ballot_cases T acquired t d e with ⟨-, hd⟩ | ⟨set, -, hd⟩
      · rw [hd] at hv
        exact .inr hv
      · rw [hd, DisputedTx.lookup_setVote] at hv
        by_cases hn : n = e.1
        · subst hn
          exact .inl ⟨e.2, List.mem_cons_self⟩
        · rw [if_neg hn] at hv
          exact .inr hv

private theorem foldl_ballot_vote {l : List (Σ _ : T.NodeID, Proposal T)} {d : DisputedTx T}
    {p : Proposal T} {set : T.TxSet} (hset : acquired.lookup p.position = some set)
    (honly : ∀ p', ⟨n, p'⟩ ∈ l → p' = p)
    (hin : ⟨n, p⟩ ∈ l ∨ d.votes.lookup n = some (T.exists set t)) :
    (l.foldl (ballot acquired t) d).votes.lookup n = some (T.exists set t) := by
  induction l generalizing d with
  | nil => exact hin.resolve_left List.not_mem_nil
  | cons e l ih =>
    refine ih (fun p' hp' => honly p' (List.mem_cons_of_mem _ hp')) ?_
    obtain ⟨k, q⟩ := e
    by_cases hk : n = k
    · -- the head is this peer's
      subst hk
      obtain rfl : q = p := honly q List.mem_cons_self
      refine .inr ?_
      unfold ballot
      rw [hset]
      exact DisputedTx.lookup_setVote.trans (if_pos rfl)
    · rcases hin with hin | hin
      · rcases List.mem_cons.mp hin with heq | hin
        · exact absurd (congrArg Sigma.fst heq) hk
        · exact .inl hin
      · refine .inr ?_
        rcases @ballot_cases T acquired t d ⟨k, q⟩ with ⟨-, hd⟩ | ⟨s, -, hd⟩
        · rw [hd]
          exact hin
        · rw [hd, DisputedTx.lookup_setVote, if_neg hk]
          exact hin

end SetVotes

/-- A new dispute has the votes of the peers whose sets are there, and of no one else. -/
theorem setVotes_spec {positions : Positions T} {acquired : Table T.SetID T.TxSet} {t : T.TxID}
    {tx : T.Tx} {ourVote : Bool} {d : DisputedTx T}
    (hd : d = setVotes positions acquired t { tx := tx, ourVote := ourVote }) :
    d.ourVote = ourVote ∧ d.tx = tx ∧ d.Counted ∧
      (∀ n v, d.votes.lookup n = some v → (positions.lookup n).isSome) ∧
      ∀ n p set, positions.lookup n = some p → acquired.lookup p.position = some set →
        d.votes.lookup n = some (T.exists set t) := by
  obtain ⟨hvote, htx, hcounted⟩ := @foldl_ballot_keeps T acquired t positions.entries
    { tx := tx, ourVote := ourVote }
  subst hd
  refine ⟨hvote, htx, hcounted ⟨rfl, rfl⟩, fun n v hv => ?_, fun n p set hp hset => ?_⟩
  · rcases foldl_ballot_voter hv with ⟨p, hp⟩ | hv
    · exact Option.isSome_iff_exists.mpr ⟨p, AList.mem_lookup_iff.mpr hp⟩
    · exact absurd hv (by simp)
  · refine foldl_ballot_vote hset (fun p' hp' => ?_) (.inl (AList.mem_lookup_iff.mp hp))
    exact Option.some_injective _ ((AList.mem_lookup_iff.mpr hp').symm.trans hp)

/-! ### What holds of a result -/

/-- What is kept of a disputed transaction: our vote is whether it is in our set, only peers with a
position vote, and the counts are right. -/
structure Kept (positions : Positions T) (txns : T.TxSet) (t : T.TxID) (d : DisputedTx T) : Prop where
  txId : T.txId d.tx = t
  ourVote : T.exists txns t = d.ourVote
  voters : ∀ n v, d.votes.lookup n = some v → (positions.lookup n).isSome
  counted : d.Counted

/-- The vote of a peer, if its set is there, is what the set says. -/
def VoteOf (positions : Positions T) (acquired : Table T.SetID T.TxSet) (n : T.NodeID) (t : T.TxID)
    (d : DisputedTx T) : Prop :=
  ∀ p set, positions.lookup n = some p → acquired.lookup p.position = some set →
    d.votes.lookup n = some (T.exists set t)

/-- What holds of a result whatever the peers: in particular, the sets that were compared with ours
differ from it in disputed transactions only. -/
structure Base (positions : Positions T) (acquired : Table T.SetID T.TxSet) (r : Result T) : Prop where
  ours : (acquired.lookup (T.setId r.txns)).isSome
  kept : ∀ t d, r.disputes.lookup t = some d → Kept positions r.txns t d
  compared : ∀ set, r.compares (T.setId set) = true → ∀ t, T.exists r.txns t ≠ T.exists set t →
    (r.disputes.lookup t).isSome

/-- What holds of a result and one peer: its set, if it is there, was compared with ours, and its votes
are what the set says. -/
structure Heard (positions : Positions T) (acquired : Table T.SetID T.TxSet) (r : Result T)
    (n : T.NodeID) : Prop where
  compared : ∀ p set, positions.lookup n = some p → acquired.lookup p.position = some set →
    r.compares p.position = true
  votes : ∀ t d, r.disputes.lookup t = some d → VoteOf positions acquired n t d

/-- Disputes are added, each with the votes of all peers. -/
structure Grows (positions : Positions T) (acquired : Table T.SetID T.TxSet) (r r' : Result T) :
    Prop where
  txns : r'.txns = r.txns
  compares : ∀ i, r.compares i = true → r'.compares i = true
  keeps : ∀ t d, r.disputes.lookup t = some d → r'.disputes.lookup t = some d
  adds : ∀ t d, r'.disputes.lookup t = some d → r.disputes.lookup t = some d ∨
    Kept positions r.txns t d ∧ ∀ n, VoteOf positions acquired n t d

section

variable {positions : Positions T} {acquired : Table T.SetID T.TxSet} {r r' r'' : Result T}
  {o : T.TxSet} {n : T.NodeID}

theorem Grows.refl (r : Result T) : Grows positions acquired r r :=
  ⟨rfl, fun _ h => h, fun _ _ h => h, fun _ _ h => .inl h⟩

theorem Grows.trans (h : Grows positions acquired r r') (h' : Grows positions acquired r' r'') :
    Grows positions acquired r r'' where
  txns := h'.txns.trans h.txns
  compares := fun i hi => h'.compares i (h.compares i hi)
  keeps := fun t d hd => h'.keeps t d (h.keeps t d hd)
  adds := fun t d hd => by
    rcases h'.adds t d hd with hd | hd
    · exact h.adds t d hd
    · exact .inr (h.txns ▸ hd)

theorem Heard.grows (h : Heard positions acquired r n) (hg : Grows positions acquired r r') :
    Heard positions acquired r' n where
  compared := fun p set hp hset => hg.compares _ (h.compared p set hp hset)
  votes := fun t d hd => by
    rcases hg.adds t d hd with hd | hd
    · exact h.votes t d hd
    · exact hd.2 n

theorem createDispute_spec (x : T.TxID × Bool) :
    Grows positions acquired r (createDispute positions acquired o r x) ∧
      (createDispute positions acquired o r x).compares = r.compares ∧
      ((if x.2 then T.exists r.txns x.1 else T.exists o x.1) = true →
        ((createDispute positions acquired o r x).disputes.lookup x.1).isSome) := by
  have hfind : (if x.2 then T.find r.txns x.1 else T.find o x.1).isSome =
      if x.2 then T.exists r.txns x.1 else T.exists o x.1 := by
    split_ifs
    · exact T.isSome_find _ _
    · exact T.isSome_find _ _
  unfold createDispute
  split
  next hnone =>
    rw [hnone] at hfind
    exact ⟨Grows.refl r, rfl, fun h => absurd (hfind.trans h) nofun⟩
  next tx htx =>
    have htxId : T.txId tx = x.1 := by
      split_ifs at htx
      · exact T.txId_of_find _ _ _ htx
      · exact T.txId_of_find _ _ _ htx
    dsimp only
    rw [htxId]
    by_cases hthere : (r.disputes.lookup x.1).isSome
    · rw [if_pos hthere]
      exact ⟨Grows.refl r, rfl, fun _ => hthere⟩
    · rw [if_neg hthere]
      have hnone : r.disputes.lookup x.1 = none := Option.not_isSome_iff_eq_none.mp hthere
      refine ⟨⟨rfl, fun _ h => h, fun t d hd => ?_, fun t d hd => ?_⟩, rfl, fun _ => ?_⟩
      · rw [AList.lookup_insert_ne]
        · exact hd
        · rintro rfl
          exact absurd (hnone.symm.trans hd) nofun
      · by_cases ht : t = x.1
        · subst ht
          rw [AList.lookup_insert] at hd
          obtain ⟨hvote, htx', hcounted, hvoters, hvotes⟩ := setVotes_spec (Option.some.inj hd).symm
          exact .inr ⟨⟨htx' ▸ htxId, hvote.symm, hvoters, hcounted⟩, hvotes⟩
        · rw [AList.lookup_insert_ne ht] at hd
          exact .inl hd
      · rw [AList.lookup_insert]
        rfl

theorem foldl_createDispute (l : List (T.TxID × Bool)) :
    Grows positions acquired r (l.foldl (createDispute positions acquired o) r) ∧
      (l.foldl (createDispute positions acquired o) r).compares = r.compares ∧
      ∀ x ∈ l, (if x.2 then T.exists r.txns x.1 else T.exists o x.1) = true →
        ((l.foldl (createDispute positions acquired o) r).disputes.lookup x.1).isSome := by
  induction l generalizing r with
  | nil => exact ⟨Grows.refl r, rfl, nofun⟩
  | cons y l ih =>
    obtain ⟨hgrows, hcompares, hhead⟩ := @createDispute_spec T positions acquired r o y
    obtain ⟨hgrows', hcompares', htail⟩ := @ih (createDispute positions acquired o r y)
    rw [List.foldl_cons]
    refine ⟨hgrows.trans hgrows', hcompares'.trans hcompares, fun x hx hin => ?_⟩
    rcases List.mem_cons.mp hx with rfl | hx
    · obtain ⟨d, hd⟩ := Option.isSome_iff_exists.mp (hhead hin)
      exact Option.isSome_iff_exists.mpr ⟨d, hgrows'.keeps _ d hd⟩
    · exact htail x hx (hgrows.txns ▸ hin)

theorem createDisputes_spec (h : r.compares (T.setId o) = false) :
    Grows positions acquired r (createDisputes positions acquired r o) ∧
      (∀ i, (createDisputes positions acquired r o).compares i = true ↔
        i = T.setId o ∨ r.compares i = true) ∧
      ∀ t, T.exists r.txns t ≠ T.exists o t →
        ((createDisputes positions acquired r o).disputes.lookup t).isSome := by
  unfold createDisputes
  rw [h, if_neg Bool.false_ne_true]
  have hnoted : Grows positions acquired r
      { r with compares := fun id => decide (id = T.setId o) || r.compares id } :=
    ⟨rfl, fun i hi => Bool.or_eq_true_iff.mpr (.inr hi), fun _ _ h => h, fun _ _ h => .inl h⟩
  have hcompares : ∀ i, (decide (i = T.setId o) || r.compares i) = true ↔
      i = T.setId o ∨ r.compares i = true := fun i => by
    rw [Bool.or_eq_true, decide_eq_true_iff]
  dsimp only
  split_ifs with hsame
  · -- nothing to dispute if we agree
    exact ⟨hnoted, hcompares, fun t ht => absurd (T.exists_of_setId _ _ hsame t) ht⟩
  · obtain ⟨hgrows, heq, hall⟩ := @foldl_createDispute T positions acquired
      { r with compares := fun id => decide (id = T.setId o) || r.compares id } o
      (T.compare r.txns o)
    refine ⟨hnoted.trans hgrows, fun i => ?_, fun t ht => ?_⟩
    · rw [heq]
      exact hcompares i
    · have hmem : (t, T.exists r.txns t) ∈ T.compare r.txns o := by
        refine (T.mem_compare _ _ _ _).mpr ⟨rfl, ?_⟩
        revert ht
        cases T.exists r.txns t <;> cases T.exists o t <;> simp
      refine hall _ hmem ?_
      revert ht
      cases T.exists r.txns t <;> cases T.exists o t <;> simp

theorem Base.createDisputes (h : Base positions acquired r) :
    Base positions acquired (createDisputes positions acquired r o) := by
  cases hnew : r.compares (T.setId o) with
  | true =>
    rw [Consensus.createDisputes, hnew, if_pos rfl]
    exact h
  | false =>
    obtain ⟨hgrows, hcompares, hall⟩ := @createDisputes_spec T positions acquired r o hnew
    refine ⟨hgrows.txns ▸ h.ours, fun t d hd => ?_, fun set hset t ht => ?_⟩
    · rw [hgrows.txns]
      rcases hgrows.adds t d hd with hd | hd
      · exact h.kept t d hd
      · exact hd.1
    · rw [hgrows.txns] at ht
      rcases (hcompares _).mp hset with hid | hset
      · exact hall t (T.exists_of_setId _ _ hid t ▸ ht)
      · obtain ⟨d, hd⟩ := Option.isSome_iff_exists.mp (h.compared set hset t ht)
        exact Option.isSome_iff_exists.mpr ⟨d, hgrows.keeps t d hd⟩

theorem grows_createDisputes :
    Grows positions acquired r (createDisputes positions acquired r o) ∧
      (createDisputes positions acquired r o).compares (T.setId o) = true := by
  cases hnew : r.compares (T.setId o) with
  | true =>
    rw [createDisputes, hnew, if_pos rfl]
    exact ⟨Grows.refl r, hnew⟩
  | false =>
    obtain ⟨hgrows, hcompares, -⟩ := @createDisputes_spec T positions acquired r o hnew
    exact ⟨hgrows, (hcompares _).mpr (.inl rfl)⟩

/-! ### The votes of one peer -/

/-- A peer's votes on all disputes. -/
private abbrev Result.setVotes (r : Result T) (node : T.NodeID) (other : T.TxSet) : Result T :=
  { r with
    disputes := r.disputes.mapValues fun _ d => d.setVote node (T.exists other (T.txId d.tx)) }

private theorem Base.setVotes (h : Base positions acquired r) (hn : (positions.lookup n).isSome) :
    Base positions acquired (r.setVotes n o) where
  ours := h.ours
  kept := fun t d hd => by
    rw [Table.lookup_mapValues] at hd
    obtain ⟨d₀, hd₀, rfl⟩ := Option.map_eq_some_iff.mp hd
    obtain ⟨htx, hour, hvoters, hcounted⟩ := h.kept t d₀ hd₀
    refine ⟨?_, hour.trans DisputedTx.setVote_ourVote.symm, fun m v hv => ?_, hcounted.setVote⟩
    · rw [DisputedTx.setVote_tx]
      exact htx
    rw [DisputedTx.lookup_setVote] at hv
    split_ifs at hv with hm
    · exact hm ▸ hn
    · exact hvoters m v hv
  compared := fun set hset t ht => by
    rw [Table.lookup_mapValues, Option.isSome_map]
    exact h.compared set hset t ht

private theorem heard_setVotes (h : Base positions acquired r) {p : Proposal T} {m : T.NodeID}
    (hp : positions.lookup n = some p) (ho : acquired.lookup p.position = some o)
    (hcompared : r.compares p.position = true)
    (hm : m = n ∨ Heard positions acquired r m) :
    Heard positions acquired (r.setVotes n o) m := by
  refine ⟨fun q set hq hset => ?_, fun t d hd q set hq hset => ?_⟩
  · rcases hm with rfl | hm
    · obtain rfl := Option.some.inj (hp.symm.trans hq)
      exact hcompared
    · exact hm.compared q set hq hset
  · rw [Table.lookup_mapValues] at hd
    obtain ⟨d₀, hd₀, rfl⟩ := Option.map_eq_some_iff.mp hd
    rw [DisputedTx.lookup_setVote, (h.kept t d₀ hd₀).txId]
    split_ifs with hmn
    · subst hmn
      obtain rfl := Option.some.inj (hp.symm.trans hq)
      rw [Option.some.inj (ho.symm.trans hset)]
    · exact (hm.resolve_left hmn).votes t d₀ hd₀ q set hq hset

/-- **A peer's position is taken into account.** -/
theorem updateDisputes_spec (h : Base positions acquired r) {p : Proposal T}
    (hp : positions.lookup n = some p) (ho : acquired.lookup p.position = some o)
    (hid : T.setId o = p.position) :
    Base positions acquired (updateDisputes positions acquired r n o) ∧
      ∀ m, m = n ∨ Heard positions acquired r m →
        Heard positions acquired (updateDisputes positions acquired r n o) m := by
  have hn : (positions.lookup n).isSome := Option.isSome_iff_exists.mpr ⟨p, hp⟩
  unfold updateDisputes
  split_ifs with hcompared
  · rw [hid] at hcompared
    exact ⟨h.setVotes hn, fun m hm => heard_setVotes h hp ho hcompared hm⟩
  · obtain ⟨hgrows, hcompared⟩ := @grows_createDisputes T positions acquired r o
    have hbase := @Base.createDisputes T positions acquired r o h
    rw [hid] at hcompared
    exact ⟨hbase.setVotes hn, fun m hm =>
      heard_setVotes hbase hp ho hcompared (hm.imp_right fun hm => hm.grows hgrows)⟩

private theorem foldl_updateDisputes {set : T.TxSet} (hset : acquired.lookup (T.setId set) = some set)
    (l : List (Σ _ : T.NodeID, Proposal T)) (hl : ∀ e ∈ l, positions.lookup e.1 = some e.2)
    (h : Base positions acquired r) :
    let r' := l.foldl
      (fun r e =>
        if e.2.position = T.setId set then updateDisputes positions acquired r e.1 set else r)
      r
    Base positions acquired r' ∧
      ∀ m, Heard positions acquired r m ∨ (∃ p, ⟨m, p⟩ ∈ l ∧ p.position = T.setId set) →
        Heard positions acquired r' m := by
  induction l generalizing r with
  | nil => exact ⟨h, fun m hm => hm.resolve_right fun ⟨_, hp, _⟩ => List.not_mem_nil hp⟩
  | cons e l ih =>
    have hl' : ∀ e ∈ l, positions.lookup e.1 = some e.2 := fun e he => hl e (List.mem_cons_of_mem _ he)
    have hhead := hl e List.mem_cons_self
    rw [List.foldl_cons]
    by_cases hpos : e.2.position = T.setId set
    · rw [if_pos hpos]
      obtain ⟨hbase, hheard⟩ := updateDisputes_spec h hhead (hpos ▸ hset) hpos.symm
      obtain ⟨hbase', hheard'⟩ := ih hl' hbase
      refine ⟨hbase', fun m hm => hheard' m ?_⟩
      rcases hm with hm | ⟨p, hp, hpset⟩
      · exact .inl (hheard m (.inr hm))
      · rcases List.mem_cons.mp hp with rfl | hp
        · exact .inl (hheard m (.inl rfl))
        · exact .inr ⟨p, hp, hpset⟩
    · rw [if_neg hpos]
      obtain ⟨hbase', hheard'⟩ := ih hl' h
      refine ⟨hbase', fun m hm => hheard' m (hm.imp_right fun hp => ?_)⟩
      obtain ⟨p, hp, hpset⟩ := hp
      rcases List.mem_cons.mp hp with rfl | hp
      · exact absurd hpset hpos
      · exact ⟨p, hp, hpset⟩

theorem heard_of_absent (h : positions.lookup n = none) : Heard positions acquired r n :=
  ⟨fun _ _ hp => absurd (h.symm.trans hp) nofun, fun _ _ _ _ _ hp => absurd (h.symm.trans hp) nofun⟩

/-- **A set that has just arrived is taken into account for all peers that propose it.** -/
theorem updateDisputesOf_spec (h : Base positions acquired r) {set : T.TxSet}
    (hset : acquired.lookup (T.setId set) = some set)
    (hheard : ∀ m p, positions.lookup m = some p → p.position ≠ T.setId set →
      Heard positions acquired r m) :
    Base positions acquired (updateDisputesOf positions acquired set r) ∧
      ∀ m, Heard positions acquired (updateDisputesOf positions acquired set r) m := by
  obtain ⟨hbase, hall⟩ := foldl_updateDisputes hset positions.entries
    (fun e he => AList.mem_lookup_iff.mpr he) h
  refine ⟨hbase, fun m => ?_⟩
  cases hm : positions.lookup m with
  | none => exact heard_of_absent hm
  | some p =>
    refine hall m ?_
    by_cases hpos : p.position = T.setId set
    · exact .inr ⟨p, AList.mem_lookup_iff.mp hm, hpos⟩
    · exact .inl (hheard m p hm hpos)

/-! ### Peers that leave -/

theorem Base.unVote (h : Base positions acquired r) :
    Base (positions.erase n) acquired (r.unVote n) where
  ours := h.ours
  kept := fun t d hd => by
    rw [Result.unVote, Table.lookup_mapValues] at hd
    obtain ⟨d₀, hd₀, rfl⟩ := Option.map_eq_some_iff.mp hd
    obtain ⟨htx, hour, hvoters, hcounted⟩ := h.kept t d₀ hd₀
    refine ⟨?_, hour.trans DisputedTx.unVote_ourVote.symm, fun m v hv => ?_, hcounted.unVote⟩
    · rw [DisputedTx.unVote_tx]
      exact htx
    rw [DisputedTx.lookup_unVote] at hv
    split_ifs at hv with hm
    rw [AList.lookup_erase_ne hm]
    exact hvoters m v hv
  compared := fun set hset t ht => by
    rw [Result.unVote, Table.lookup_mapValues, Option.isSome_map]
    exact h.compared set hset t ht

theorem Heard.unVote {m : T.NodeID} (h : Heard positions acquired r m) :
    Heard (positions.erase n) acquired (r.unVote n) m := by
  by_cases hm : m = n
  · subst hm
    exact heard_of_absent (AList.lookup_erase _ _)
  · refine ⟨fun p set hp hset => ?_, fun t d hd p set hp hset => ?_⟩
    · rw [AList.lookup_erase_ne hm] at hp
      exact h.compared p set hp hset
    · rw [AList.lookup_erase_ne hm] at hp
      rw [Result.unVote, Table.lookup_mapValues] at hd
      obtain ⟨d₀, hd₀, rfl⟩ := Option.map_eq_some_iff.mp hd
      rw [DisputedTx.lookup_unVote, if_neg hm]
      exact h.votes t d₀ hd₀ p set hp hset

/-! ### Sets and positions that arrive -/

theorem Base.insertSet (h : Base positions acquired r) {i : T.SetID} {set : T.TxSet} :
    Base positions (acquired.insert i set) r := by
  refine ⟨?_, h.kept, h.compared⟩
  by_cases hi : T.setId r.txns = i
  · rw [hi, AList.lookup_insert]
    rfl
  · rw [AList.lookup_insert_ne hi]
    exact h.ours

theorem Heard.insertSet (h : Heard positions acquired r n) {i : T.SetID} {set : T.TxSet}
    (hne : ∀ p, positions.lookup n = some p → p.position ≠ i) :
    Heard positions (acquired.insert i set) r n := by
  refine ⟨fun p set hp hset => ?_, fun t d hd p set hp hset => ?_⟩
  · rw [AList.lookup_insert_ne (hne p hp)] at hset
    exact h.compared p set hp hset
  · rw [AList.lookup_insert_ne (hne p hp)] at hset
    exact h.votes t d hd p set hp hset

theorem arrived_spec (h : Base positions acquired r) (hheard : ∀ m, Heard positions acquired r m)
    (set : T.TxSet) :
    let acquired' := acquired.insert (T.setId set) set
    Base positions acquired' (updateDisputesOf positions acquired' set r) ∧
      ∀ m, Heard positions acquired' (updateDisputesOf positions acquired' set r) m := by
  refine updateDisputesOf_spec h.insertSet (AList.lookup_insert _) fun m p hp hpos => ?_
  refine (hheard m).insertSet fun q hq => ?_
  rw [Option.some.inj (hq.symm.trans hp)]
  exact hpos

theorem Base.insertPosition (h : Base positions acquired r) {p : Proposal T} :
    Base (positions.insert n p) acquired r := by
  refine ⟨h.ours, fun t d hd => ?_, h.compared⟩
  obtain ⟨htx, hour, hvoters, hcounted⟩ := h.kept t d hd
  refine ⟨htx, hour, fun m v hv => ?_, hcounted⟩
  by_cases hm : m = n
  · rw [hm, AList.lookup_insert]
    rfl
  · rw [AList.lookup_insert_ne hm]
    exact hvoters m v hv

theorem Heard.insertPosition {m : T.NodeID} (h : Heard positions acquired r m) {p : Proposal T}
    (hm : m ≠ n) : Heard (positions.insert n p) acquired r m := by
  refine ⟨fun q set hq hset => ?_, fun t d hd q set hq hset => ?_⟩
  · rw [AList.lookup_insert_ne hm] at hq
    exact h.compared q set hq hset
  · rw [AList.lookup_insert_ne hm] at hq
    exact h.votes t d hd q set hq hset

theorem heard_of_unacquired {p : Proposal T} (hp : acquired.lookup p.position = none) :
    Heard (positions.insert n p) acquired r n := by
  refine ⟨fun q set hq hset => ?_, fun t d _ q set hq hset => ?_⟩
  · rw [AList.lookup_insert] at hq
    obtain rfl := Option.some.inj hq
    exact absurd (hp.symm.trans hset) nofun
  · rw [AList.lookup_insert] at hq
    obtain rfl := Option.some.inj hq
    exact absurd (hp.symm.trans hset) nofun

end

/-! ### The state of consensus -/

/-- **The disputes are exact.** -/
structure Exact (c : State T) : Prop where
  keys : ∀ n p, c.currPeerPositions.lookup n = some p → p.nodeID = n
  ids : ∀ i set, c.acquired.lookup i = some set → T.setId set = i
  base : ∀ r, c.result = some r → Base c.currPeerPositions c.acquired r
  heard : ∀ r, c.result = some r → ∀ n, Heard c.currPeerPositions c.acquired r n

section

variable {c : State T}

theorem ids_insert (h : ∀ i set, c.acquired.lookup i = some set → T.setId set = i) (txSet : T.TxSet) :
    ∀ i set, (c.acquired.insert (T.setId txSet) txSet).lookup i = some set → T.setId set = i := by
  intro i set hset
  by_cases hi : i = T.setId txSet
  · subst hi
    rw [AList.lookup_insert] at hset
    rw [Option.some.inj hset]
  · rw [AList.lookup_insert_ne hi] at hset
    exact h i set hset

theorem Exact.gotTxSet (h : Exact c) (now : ℤ) (txSet : T.TxSet) :
    Exact (Consensus.gotTxSet c now txSet) := by
  unfold Consensus.gotTxSet
  split_ifs
  · exact h
  · split
    · exact ⟨h.keys, h.ids, h.base, h.heard⟩
    · refine ⟨h.keys, ids_insert h.ids txSet, fun r hr => ?_, fun r hr => ?_⟩
      · obtain ⟨r₀, hr₀, rfl⟩ := Option.map_eq_some_iff.mp hr
        exact (arrived_spec (h.base r₀ hr₀) (h.heard r₀ hr₀) txSet).1
      · obtain ⟨r₀, hr₀, rfl⟩ := Option.map_eq_some_iff.mp hr
        exact (arrived_spec (h.base r₀ hr₀) (h.heard r₀ hr₀) txSet).2

theorem keys_erase {positions : Positions T} (h : ∀ n p, positions.lookup n = some p → p.nodeID = n)
    (peer : T.NodeID) : ∀ n p, (positions.erase peer).lookup n = some p → p.nodeID = n := by
  intro n p hp
  by_cases hn : n = peer
  · subst hn
    rw [AList.lookup_erase] at hp
    exact nomatch hp
  · rw [AList.lookup_erase_ne hn] at hp
    exact h n p hp

theorem Exact.peerProposalInternal (h : Exact c) (a : Adaptor T) (now : ℤ) (p : Proposal T) :
    Exact (Consensus.peerProposalInternal a c now p) := by
  unfold Consensus.peerProposalInternal
  have hnow : Exact { c with now := now } := ⟨h.keys, h.ids, h.base, h.heard⟩
  dsimp only
  split_ifs
  · exact h
  · exact hnow
  · exact hnow
  · exact hnow
  · -- the peer bows out
    refine ⟨keys_erase h.keys p.nodeID, h.ids, fun r hr => ?_, fun r hr n => ?_⟩
    · obtain ⟨r₀, hr₀, rfl⟩ := Option.map_eq_some_iff.mp hr
      exact (h.base r₀ hr₀).unVote
    · obtain ⟨r₀, hr₀, rfl⟩ := Option.map_eq_some_iff.mp hr
      exact (h.heard r₀ hr₀ n).unVote
  · have hkeys : ∀ n q, (c.currPeerPositions.insert p.nodeID p).lookup n = some q → q.nodeID = n := by
      intro n q hq
      by_cases hn : n = p.nodeID
      · subst hn
        rw [AList.lookup_insert] at hq
        rw [Option.some.inj hq]
      · rw [AList.lookup_insert_ne hn] at hq
        exact h.keys n q hq
    split
    next hnone =>
      have hnew : Exact { c with
          now := now, currPeerPositions := c.currPeerPositions.insert p.nodeID p } := by
        refine ⟨hkeys, h.ids, fun r hr => (h.base r hr).insertPosition, fun r hr n => ?_⟩
        by_cases hn : n = p.nodeID
        · subst hn
          exact heard_of_unacquired hnone
        · exact (h.heard r hr n).insertPosition hn
      split
      · exact hnew.gotTxSet now _
      · exact hnew
    next set hset =>
      refine ⟨hkeys, h.ids, fun r hr => ?_, fun r hr n => ?_⟩
      · obtain ⟨r₀, hr₀, rfl⟩ := Option.map_eq_some_iff.mp hr
        exact (updateDisputes_spec (h.base r₀ hr₀).insertPosition (AList.lookup_insert _) hset
          (h.ids _ _ hset)).1
      · obtain ⟨r₀, hr₀, rfl⟩ := Option.map_eq_some_iff.mp hr
        refine (updateDisputes_spec (h.base r₀ hr₀).insertPosition (AList.lookup_insert _) hset
          (h.ids _ _ hset)).2 n ?_
        by_cases hn : n = p.nodeID
        · exact .inl hn
        · exact .inr ((h.heard r₀ hr₀ n).insertPosition hn)

theorem Exact.peerProposal (h : Exact c) (a : Adaptor T) (now : ℤ) (p : Proposal T) :
    Exact (Consensus.peerProposal a c now p) := by
  unfold Consensus.peerProposal
  refine Exact.peerProposalInternal ?_ a now p
  exact ⟨h.keys, h.ids, h.base, h.heard⟩

theorem Exact.playbackProposals (h : Exact c) (a : Adaptor T) :
    Exact (Consensus.playbackProposals a c) := by
  unfold Consensus.playbackProposals
  generalize (c.recentPeerPositions.entries.flatMap fun e => e.2) = l
  induction l generalizing c with
  | nil => exact h
  | cons p l ih =>
    rw [List.foldl_cons]
    split_ifs
    · exact ih (h.peerProposalInternal a c.now p)
    · exact ih h

/-! ### Taking a position -/

private theorem foldl_createDisputes {positions : Positions T} {acquired : Table T.SetID T.TxSet}
    (hids : ∀ i set, acquired.lookup i = some set → T.setId set = i)
    (l : List (Σ _ : T.NodeID, Proposal T)) {r : Result T} (h : Base positions acquired r) :
    let r' := l.foldl
      (fun r e =>
        match acquired.lookup e.2.position with
        | some set => createDisputes positions acquired r set
        | none => r)
      r
    Base positions acquired r' ∧ Grows positions acquired r r' ∧
      ∀ e ∈ l, (acquired.lookup e.2.position).isSome → r'.compares e.2.position = true := by
  induction l generalizing r with
  | nil => exact ⟨h, Grows.refl r, nofun⟩
  | cons e l ih =>
    rw [List.foldl_cons]
    cases hset : acquired.lookup e.2.position with
    | none =>
      obtain ⟨hbase, hgrows, hall⟩ := ih h
      refine ⟨hbase, hgrows, fun e' he' hsome => ?_⟩
      rcases List.mem_cons.mp he' with rfl | he'
      · rw [hset] at hsome
        exact nomatch hsome
      · exact hall e' he' hsome
    | some set =>
      obtain ⟨hgrown, hcompared⟩ := @grows_createDisputes T positions acquired r set
      obtain ⟨hbase, hgrows, hall⟩ := ih h.createDisputes
      refine ⟨hbase, hgrown.trans hgrows, fun e' he' hsome => ?_⟩
      rcases List.mem_cons.mp he' with rfl | he'
      · exact hgrows.compares _ (hids _ _ hset ▸ hcompared)
      · exact hall e' he' hsome

theorem Exact.closeLedger (h : Exact c) (onClose : T.TxSet) :
    Exact (Consensus.closeLedger c onClose) := by
  unfold Consensus.closeLedger
  dsimp only
  generalize hacquired : (if (c.acquired.lookup (T.setId onClose)).isSome then c.acquired
    else c.acquired.insert (T.setId onClose) onClose) = acquired
  have hids : ∀ i set, acquired.lookup i = some set → T.setId set = i := by
    rw [← hacquired]
    split_ifs
    · exact h.ids
    · exact ids_insert h.ids onClose
  have hfresh : Base c.currPeerPositions acquired ({ txns := onClose } : Result T) := by
    refine ⟨?_, fun t d hd => absurd hd (by simp), fun set hset => absurd hset nofun⟩
    rw [← hacquired]
    split_ifs with hours
    · exact hours
    · rw [AList.lookup_insert]
      rfl
  obtain ⟨hbase, hgrows, hall⟩ := foldl_createDisputes hids c.currPeerPositions.entries hfresh
  refine ⟨h.keys, hids, fun r hr => ?_, fun r hr n => ?_⟩
  · obtain rfl := Option.some.inj hr
    exact hbase
  · obtain rfl := Option.some.inj hr
    refine ⟨fun p set hp hset => ?_, fun t d hd => ?_⟩
    · exact hall ⟨n, p⟩ (AList.mem_lookup_iff.mp hp) (Option.isSome_iff_exists.mpr ⟨set, hset⟩)
    · -- every dispute is a new one
      rcases hgrows.adds t d hd with hd | hd
      · exact absurd hd (by simp)
      · exact hd.2 n

/-! ### Changing it -/

private theorem foldl_dropStale (cutoff : ℤ) {acquired : Table T.SetID T.TxSet}
    (l : List (Σ _ : T.NodeID, Proposal T)) (hl : ∀ e ∈ l, e.2.nodeID = e.1)
    {acc : Positions T × Result T} (hkeys : ∀ n p, acc.1.lookup n = some p → p.nodeID = n)
    (h : Base acc.1 acquired acc.2) (hheard : ∀ n, Heard acc.1 acquired acc.2 n) :
    let acc' := l.foldl
      (fun acc e =>
        if e.2.isStale cutoff then (acc.1.erase e.1, acc.2.unVote e.2.nodeID) else acc)
      acc
    (∀ n p, acc'.1.lookup n = some p → p.nodeID = n) ∧ Base acc'.1 acquired acc'.2 ∧
      ∀ n, Heard acc'.1 acquired acc'.2 n := by
  induction l generalizing acc with
  | nil => exact ⟨hkeys, h, hheard⟩
  | cons e l ih =>
    have hl' : ∀ e ∈ l, e.2.nodeID = e.1 := fun e he => hl e (List.mem_cons_of_mem _ he)
    rw [List.foldl_cons]
    split_ifs
    · rw [hl e List.mem_cons_self]
      exact ih hl' (keys_erase hkeys e.1) h.unVote fun n => (hheard n).unVote
    · exact ih hl' hkeys h hheard

theorem dropStale_spec (h : Exact c) {r : Result T} (hr : c.result = some r) (cutoff : ℤ) :
    let fresh := dropStale cutoff c.currPeerPositions r
    (∀ n p, fresh.1.lookup n = some p → p.nodeID = n) ∧ Base fresh.1 c.acquired fresh.2 ∧
      ∀ n, Heard fresh.1 c.acquired fresh.2 n :=
  foldl_dropStale cutoff c.currPeerPositions.entries
    (fun e he => h.keys e.1 e.2 (AList.mem_lookup_iff.mpr he)) h.keys (h.base r hr) (h.heard r hr)

section MutableSet

variable {percentTime : ℤ} {proposing : Bool} {txns : T.TxSet}

private abbrev flip (percentTime : ℤ) (proposing : Bool) (txns : T.TxSet) (set : Option T.TxSet)
    (e : Σ _ : T.TxID, DisputedTx T) : Option T.TxSet :=
  let updated := e.2.updateVote percentTime proposing
  if updated.2 then
    if updated.1.ourVote then some (T.insert (set.getD txns) updated.1.tx)
    else some (T.erase (set.getD txns) e.1)
  else set

/-- One dispute: the set has the transaction just when our updated vote is for it, and is otherwise
unchanged. -/
private theorem exists_flip {set : Option T.TxSet} {e : Σ _ : T.TxID, DisputedTx T}
    (hvote : T.exists (set.getD txns) e.1 = e.2.ourVote) (htx : T.txId e.2.tx = e.1) (t : T.TxID) :
    T.exists ((flip percentTime proposing txns set e).getD txns) t =
      if t = e.1 then (e.2.updateVote percentTime proposing).1.ourVote
      else T.exists (set.getD txns) t := by
  obtain ⟨-, -, -, htx', hsame⟩ := e.2.updateVote_spec percentTime proposing
  unfold flip
  dsimp only
  by_cases hchanged : (e.2.updateVote percentTime proposing).2 = true
  · rw [if_pos hchanged]
    by_cases hyes : (e.2.updateVote percentTime proposing).1.ourVote = true
    · rw [if_pos hyes, Option.getD_some, hyes, htx', Bool.eq_iff_iff, T.exists_insert, htx]
      split_ifs with ht
      · simp [ht]
      · simp [ht]
    · rw [if_neg hyes, Option.getD_some, Bool.eq_iff_iff, T.exists_erase]
      split_ifs with ht
      · simp [ht, hyes]
      · simp [ht]
  · rw [if_neg hchanged]
    split_ifs with ht
    · rw [ht, hvote, hsame (Bool.not_eq_true _ ▸ hchanged)]
    · rfl

private theorem foldl_flip (l : List (Σ _ : T.TxID, DisputedTx T)) (hl : l.NodupKeys)
    {set : Option T.TxSet}
    (h : ∀ e ∈ l, T.exists (set.getD txns) e.1 = e.2.ourVote ∧ T.txId e.2.tx = e.1) :
    (∀ e ∈ l, T.exists ((l.foldl (flip percentTime proposing txns) set).getD txns) e.1 =
        (e.2.updateVote percentTime proposing).1.ourVote) ∧
      ∀ t, (∀ e ∈ l, e.1 ≠ t) →
        T.exists ((l.foldl (flip percentTime proposing txns) set).getD txns) t =
          T.exists (set.getD txns) t := by
  induction l generalizing set with
  | nil => exact ⟨nofun, fun _ _ => rfl⟩
  | cons e l ih =>
    obtain ⟨hfresh, hl⟩ := List.nodupKeys_cons.mp hl
    obtain ⟨hvote, htx⟩ := h e List.mem_cons_self
    have hflip := @exists_flip T percentTime proposing txns set e hvote htx
    have hne : ∀ e' ∈ l, e'.1 ≠ e.1 := fun e' he' heq => hfresh (heq ▸ List.mem_keys_of_mem he')
    obtain ⟨hall, hother⟩ := @ih hl (flip percentTime proposing txns set e) fun e' he' => by
      obtain ⟨hvote', htx'⟩ := h e' (List.mem_cons_of_mem _ he')
      rw [hflip, if_neg (hne e' he')]
      exact ⟨hvote', htx'⟩
    rw [List.foldl_cons]
    refine ⟨fun e' he' => ?_, fun t ht => ?_⟩
    · rcases List.mem_cons.mp he' with rfl | he'
      · rw [hother _ hne, hflip, if_pos rfl]
      · exact hall e' he'
    · rw [hother t fun e' he' => ht e' (List.mem_cons_of_mem _ he'), hflip,
        if_neg (ht e List.mem_cons_self).symm]

/-- **Our set has a disputed transaction just when our updated vote is for it, and all others as before.** -/
theorem exists_mutableSet {positions : Positions T} {acquired : Table T.SetID T.TxSet} {r : Result T}
    (h : Base positions acquired r) :
    (∀ t d, r.disputes.lookup t = some d →
        T.exists ((mutableSet r percentTime proposing).getD r.txns) t =
          (d.updateVote percentTime proposing).1.ourVote) ∧
      ∀ t, r.disputes.lookup t = none →
        T.exists ((mutableSet r percentTime proposing).getD r.txns) t = T.exists r.txns t := by
  obtain ⟨hall, hother⟩ := @foldl_flip T percentTime proposing r.txns r.disputes.entries
    r.disputes.nodupKeys none fun e he => by
      have hkept := h.kept e.1 e.2 (AList.mem_lookup_iff.mpr he)
      exact ⟨hkept.ourVote, hkept.txId⟩
  refine ⟨fun t d hd => hall ⟨t, d⟩ (AList.mem_lookup_iff.mp hd), fun t ht => hother t fun e he heq => ?_⟩
  have hlookup : r.disputes.lookup e.1 = some e.2 := AList.mem_lookup_iff.mpr he
  rw [heq] at hlookup
  exact absurd (ht.symm.trans hlookup) nofun

end MutableSet

/-- Our votes are updated, and our set with them; only the new set is not there yet. -/
theorem updateVotes_spec {positions : Positions T} {acquired : Table T.SetID T.TxSet} {r : Result T}
    (h : Base positions acquired r) (percentTime : ℤ) (proposing : Bool) (r' : Result T)
    (htxns : ∀ t, T.exists r'.txns t =
      T.exists ((mutableSet r percentTime proposing).getD r.txns) t)
    (hdisputes : r'.disputes = r.disputes.mapValues fun _ d => (d.updateVote percentTime proposing).1)
    (hcompares : r'.compares = r.compares) (hours : (acquired.lookup (T.setId r'.txns)).isSome) :
    Base positions acquired r' ∧ ∀ n, Heard positions acquired r n → Heard positions acquired r' n := by
  obtain ⟨hflipped, hother⟩ := @exists_mutableSet T percentTime proposing positions acquired r h
  have hlookup : ∀ t d, r'.disputes.lookup t = some d →
      ∃ d₀, r.disputes.lookup t = some d₀ ∧ (d₀.updateVote percentTime proposing).1 = d := by
    intro t d hd
    rw [hdisputes, Table.lookup_mapValues] at hd
    exact Option.map_eq_some_iff.mp hd
  refine ⟨⟨hours, fun t d hd => ?_, fun set hset t ht => ?_⟩, fun n hn => ⟨?_, fun t d hd => ?_⟩⟩
  · obtain ⟨d₀, hd₀, rfl⟩ := hlookup t d hd
    obtain ⟨htx, -, hvoters, hcounted⟩ := h.kept t d₀ hd₀
    obtain ⟨hvotes, hyays, hnays, htx', -⟩ := d₀.updateVote_spec percentTime proposing
    refine ⟨htx'.symm ▸ htx, (htxns t).trans (hflipped t d₀ hd₀), ?_, ⟨?_, ?_⟩⟩
    · rw [hvotes]
      exact hvoters
    · rw [hyays, hvotes]
      exact hcounted.yays
    · rw [hnays, hvotes]
      exact hcounted.nays
  · rw [hdisputes, Table.lookup_mapValues, Option.isSome_map]
    cases hd : r.disputes.lookup t with
    | some d => rfl
    | none =>
      rw [hcompares] at hset
      rw [htxns, hother t hd] at ht
      rw [← hd]
      exact h.compared set hset t ht
  · intro p set hp hset
    rw [hcompares]
    exact hn.compared p set hp hset
  · obtain ⟨d₀, hd₀, rfl⟩ := hlookup t d hd
    obtain ⟨hvotes, -⟩ := d₀.updateVote_spec percentTime proposing
    intro p set hp hset
    rw [hvotes]
    exact hn.votes t d₀ hd₀ p set hp hset

theorem Exact.updateOurPositions (h : Exact c) {r : Result T} (hr : c.result = some r) (t : Tick T) :
    Exact (Consensus.updateOurPositions t c r) := by
  obtain ⟨hkeys, hbase, hheard⟩ := dropStale_spec h hr (c.now - proposeFreshness)
  unfold Consensus.updateOurPositions
  dsimp only at hkeys hbase hheard ⊢
  generalize dropStale (c.now - proposeFreshness) c.currPeerPositions r = fresh
    at hkeys hbase hheard ⊢
  obtain ⟨positions, r⟩ := fresh
  dsimp only at hkeys hbase hheard ⊢
  split
  next hchanged =>
    -- nothing changed
    have hnone : mutableSet r c.convergePercent (decide (c.mode = .Proposing)) = none := by
      rw [← Option.not_isSome_iff_eq_none]
      intro hsome
      rw [if_pos hsome] at hchanged
      rw [hchanged] at hsome
      exact nomatch hsome
    obtain ⟨hbase', hheard'⟩ := updateVotes_spec hbase c.convergePercent (decide (c.mode = .Proposing))
      { r with disputes := r.disputes.mapValues fun _ d =>
        (d.updateVote c.convergePercent (decide (c.mode = .Proposing))).1 }
      (fun t => by rw [hnone]; rfl) rfl rfl hbase.ours
    refine ⟨hkeys, h.ids, fun r' hr' => ?_, fun r' hr' n => ?_⟩
    · exact Option.some.inj hr' ▸ hbase'
    · exact Option.some.inj hr' ▸ hheard' n (hheard n)
  next ourNewSet hchanged =>
    have hnew : ourNewSet =
        (mutableSet r c.convergePercent (decide (c.mode = .Proposing))).getD r.txns := by
      split_ifs at hchanged with hsome hrefresh
      · rw [hchanged, Option.getD_some]
      · rw [Option.not_isSome_iff_eq_none.mp hsome, Option.getD_none]
        exact (Option.some.inj hchanged).symm
    split
    next set hset =>
      -- a peer proposes our new set
      obtain ⟨hbase', hheard'⟩ :=
        updateVotes_spec hbase c.convergePercent (decide (c.mode = .Proposing))
          { r with
            txns := ourNewSet
            disputes := r.disputes.mapValues fun _ d =>
              (d.updateVote c.convergePercent (decide (c.mode = .Proposing))).1 }
          (fun t => by rw [hnew]) rfl rfl (Option.isSome_iff_exists.mpr ⟨set, hset⟩)
      refine ⟨hkeys, h.ids, fun r' hr' => ?_, fun r' hr' n => ?_⟩
      · exact Option.some.inj hr' ▸ hbase'
      · exact Option.some.inj hr' ▸ hheard' n (hheard n)
    next hnone =>
      obtain ⟨hbase', hheard'⟩ :=
        updateVotes_spec (@Base.insertSet T _ _ r hbase (T.setId ourNewSet) ourNewSet) c.convergePercent
          (decide (c.mode = .Proposing))
          { r with
            txns := ourNewSet
            disputes := r.disputes.mapValues fun _ d =>
              (d.updateVote c.convergePercent (decide (c.mode = .Proposing))).1 }
          (fun t => by rw [hnew]) rfl rfl
          (Option.isSome_iff_exists.mpr ⟨ourNewSet, AList.lookup_insert _⟩)
      have hall := updateDisputesOf_spec hbase' (AList.lookup_insert _) fun m p hp hpos =>
        hheard' m ((hheard m).insertSet fun q hq => by
          rw [Option.some.inj (hq.symm.trans hp)]
          exact hpos)
      refine ⟨hkeys, ids_insert h.ids ourNewSet, fun r' hr' => ?_, fun r' hr' n => ?_⟩
      · exact Option.some.inj hr' ▸ hall.1
      · exact Option.some.inj hr' ▸ hall.2 n

/-! ### The timer and the rounds -/

theorem Exact.leaveConsensus (h : Exact c) : Exact (Consensus.leaveConsensus c) := by
  unfold Consensus.leaveConsensus
  split_ifs
  · exact ⟨h.keys, h.ids, h.base, h.heard⟩
  · exact h

theorem Exact.phaseOpen (h : Exact c) (t : Tick T) : Exact (Consensus.phaseOpen t c) := by
  unfold Consensus.phaseOpen
  split_ifs
  · exact h.closeLedger t.onClose
  · exact h

theorem Exact.phaseEstablish (h : Exact c) (t : Tick T) : Exact (Consensus.phaseEstablish t c) := by
  unfold Consensus.phaseEstablish
  split
  · exact h
  next r hr =>
    have hticked : Exact { c with convergePercent := t.convergePercent } :=
      ⟨h.keys, h.ids, h.base, h.heard⟩
    have hupdated := hticked.updateOurPositions hr t
    dsimp only
    generalize Consensus.updateOurPositions t { c with convergePercent := t.convergePercent } r = c'
      at hupdated ⊢
    have hleft := hupdated.leaveConsensus
    split_ifs
    · exact hticked
    · exact hupdated
    · exact hleft
    · exact hupdated
    · exact ⟨hleft.keys, hleft.ids, hleft.base, hleft.heard⟩
    · exact ⟨hupdated.keys, hupdated.ids, hupdated.base, hupdated.heard⟩

theorem exact_of_empty (hresult : c.result = none) (hpositions : c.currPeerPositions = ∅)
    (hacquired : c.acquired = ∅) : Exact c := by
  refine ⟨fun n p hp => ?_, fun i set hset => ?_, fun r hr => ?_, fun r hr => ?_⟩
  · rw [hpositions, AList.lookup_empty] at hp
    exact nomatch hp
  · rw [hacquired, AList.lookup_empty] at hset
    exact nomatch hset
  · exact absurd (hresult.symm.trans hr) nofun
  · exact absurd (hresult.symm.trans hr) nofun

theorem exact_startRoundInternal (a : Adaptor T) {timer : State T → State T}
    (htimer : ∀ c, Exact c → Exact (timer c)) (now : ℤ) (prevLedgerID prevLedger : T.LedgerID)
    (mode : ConsensusMode) :
    Exact (startRoundInternal a timer c now prevLedgerID prevLedger mode) := by
  unfold startRoundInternal
  dsimp only
  have hopen : Exact { c with
      phase := .Open, mode := mode, now := now, prevLedgerID := prevLedgerID,
      previousLedger := prevLedger, result := none, convergePercent := 0, currPeerPositions := ∅,
      acquired := ∅, deadNodes := fun _ => false } := exact_of_empty rfl rfl rfl
  have hplayed := hopen.playbackProposals a
  split_ifs
  · exact htimer _ hplayed
  · exact hplayed

theorem Exact.handleWrongLedger (h : Exact c) (t : Tick T) {timer : State T → State T}
    (htimer : ∀ c, Exact c → Exact (timer c)) (lgrId : T.LedgerID) :
    Exact (Consensus.handleWrongLedger t timer c lgrId) := by
  have hleft := h.leaveConsensus
  unfold Consensus.handleWrongLedger
  generalize Consensus.leaveConsensus c = left at hleft ⊢
  have hswitched : Exact (if left.prevLedgerID ≠ lgrId then
      Consensus.playbackProposals t.toAdaptor
        { left with
          prevLedgerID := lgrId
          result := left.result.map fun r => { r with disputes := ∅, compares := fun _ => false }
          currPeerPositions := ∅
          deadNodes := fun _ => false }
      else left) := by
    split_ifs
    · refine Exact.playbackProposals ?_ _
      refine ⟨fun n p hp => ?_, hleft.ids, fun r hr => ?_, fun r hr n => ?_⟩
      · rw [AList.lookup_empty] at hp
        exact nomatch hp
      · -- our set stays where it is; the disputes and the comparisons start over
        obtain ⟨r₀, hr₀, rfl⟩ := Option.map_eq_some_iff.mp hr
        refine ⟨(hleft.base r₀ hr₀).ours, fun t d hd => absurd hd (by simp), fun set hset => ?_⟩
        exact nomatch hset
      · exact heard_of_absent (AList.lookup_empty n)
    · exact hleft
  dsimp only
  generalize (if left.prevLedgerID ≠ lgrId then _ else left) = switched at hswitched ⊢
  split_ifs
  · exact hswitched
  · exact exact_startRoundInternal _ htimer _ _ _ _
  · exact ⟨hswitched.keys, hswitched.ids, hswitched.base, hswitched.heard⟩

theorem Exact.checkLedger (h : Exact c) (t : Tick T) {timer : State T → State T}
    (htimer : ∀ c, Exact c → Exact (timer c)) : Exact (Consensus.checkLedger t timer c) := by
  unfold Consensus.checkLedger
  split_ifs
  · exact h.handleWrongLedger t htimer t.netLgr
  · exact h.handleWrongLedger t htimer t.netLgr
  · exact h

theorem Exact.timerEntry (h : Exact c) (ticks : List (Tick T)) :
    Exact (Consensus.timerEntry ticks c) := by
  -- a new round calls the timer again: the induction is on the calls
  induction ticks generalizing c with
  | nil => exact h
  | cons t ticks ih =>
    unfold Consensus.timerEntry
    split_ifs
    · exact h
    · have hnow : Exact { c with now := t.now } := ⟨h.keys, h.ids, h.base, h.heard⟩
      have hchecked := hnow.checkLedger t fun c hc => ih hc
      dsimp only
      split
      · exact hchecked.phaseOpen t
      · exact hchecked.phaseEstablish t
      · exact hchecked

theorem exact_startRound (a : Adaptor T) (ticks : List (Tick T)) (now : ℤ)
    (prevLedgerID prevLedger : T.LedgerID) (haveLedger : Bool) (nowUntrusted : List T.NodeID)
    (proposing : Bool) :
    Exact (startRound a ticks c now prevLedgerID prevLedger haveLedger nowUntrusted proposing) := by
  have htimer : ∀ c, Exact c → Exact (timerEntry ticks c) := fun c hc => hc.timerEntry ticks
  unfold startRound
  dsimp only
  split_ifs <;> exact exact_startRoundInternal a htimer _ _ _ _

/-- **Every call keeps the disputes exact.** -/
theorem Exact.step (h : Exact c) (call : Call T) : Exact (Consensus.step c call) := by
  cases call with
  | startRound a ticks now prevLedgerID prevLedger haveLedger nowUntrusted proposing =>
    exact exact_startRound a ticks now prevLedgerID prevLedger haveLedger nowUntrusted proposing
  | peerProposal a now newPeerPos => exact h.peerProposal a now newPeerPos
  | gotTxSet now txSet => exact h.gotTxSet now txSet
  | timerEntry ticks => exact h.timerEntry ticks

theorem Exact.run (h : Exact c) (calls : List (Call T)) : Exact (calls.foldl Consensus.step c) := by
  induction calls generalizing c with
  | nil => exact h
  | cons call calls ih => exact ih (h.step call)

end

/-- **Disputes are exact.** After any calls, in any order, and with a position taken: our set has a
disputed transaction just when our vote on it is yes; a peer's vote is what the set of its current
position says; the counts are the numbers of votes; and every transaction in which our set differs from
that of a peer is disputed. -/
theorem disputes_exact (prevLedgerID previousLedger : T.LedgerID) (calls : List (Call T)) {c : State T}
    {r : Result T} (hrun : c = calls.foldl step ({ prevLedgerID, previousLedger } : State T))
    (hr : c.result = some r) :
    (∀ t d, r.disputes.lookup t = some d →
        (T.exists r.txns t = true ↔ d.ourVote = true) ∧
        (∀ n v, d.votes.lookup n = some v → ∃ p, c.currPeerPositions.lookup n = some p ∧
          ∀ set, c.acquired.lookup p.position = some set → v = T.exists set t) ∧
        (∀ n p set, c.currPeerPositions.lookup n = some p → c.acquired.lookup p.position = some set →
          d.votes.lookup n = some (T.exists set t)) ∧
        d.yays = tally true d.votes ∧ d.nays = tally false d.votes) ∧
      ∀ n p set, c.currPeerPositions.lookup n = some p → c.acquired.lookup p.position = some set →
        ∀ t, T.exists r.txns t ≠ T.exists set t → (r.disputes.lookup t).isSome := by
  have hexact : Exact c := by
    rw [hrun]
    exact Exact.run (exact_of_empty rfl rfl rfl) calls
  have hbase := hexact.base r hr
  have hheard := hexact.heard r hr
  refine ⟨fun t d hd => ?_, fun n p set hp hset t ht => ?_⟩
  · obtain ⟨-, hour, hvoters, hcounted⟩ := hbase.kept t d hd
    refine ⟨by rw [hour], fun n v hv => ?_, fun n => (hheard n).votes t d hd, hcounted.yays,
      hcounted.nays⟩
    obtain ⟨p, hp⟩ := Option.isSome_iff_exists.mp (hvoters n v hv)
    refine ⟨p, hp, fun set hset => ?_⟩
    exact Option.some.inj (hv.symm.trans ((hheard n).votes t d hd p set hp hset))
  · have hcompared := (hheard n).compared p set hp hset
    rw [← hexact.ids _ _ hset] at hcompared
    exact hbase.compared set hcompared t ht

/-- Sets of numbers, written as lists. -/
def listTraits : Traits where
  NodeID := ℕ
  LedgerID := ℕ
  Tx := ℕ
  TxID := ℕ
  TxSet := List ℕ
  SetID := List ℕ
  txId := fun tx => tx
  «exists» := fun s t => s.elem t
  find := fun s t => if s.elem t then some t else none
  setId := fun s => s
  compare := fun s s' =>
    ((s.filter fun t => !s'.elem t).map fun t => (t, true)) ++
      (s'.filter fun t => !s.elem t).map fun t => (t, false)
  insert := fun s tx => tx :: s
  erase := fun s t => s.filter fun t' => t' != t
  isSome_find := fun s t => by
    by_cases h : s.elem t
    · rw [if_pos h, h]
      rfl
    · rw [if_neg h, Bool.eq_false_iff.mpr h]
      rfl
  txId_of_find := fun s t tx h => by
    split_ifs at h
    exact (Option.some.inj h).symm
  exists_of_setId := fun s s' h t => by rw [h]
  mem_compare := fun s s' t b => by
    cases b with
    | false => simp [and_comm]
    | true => simp
  exists_insert := fun s tx t => by simp
  exists_erase := fun s t' t => by simp [and_comm]

/-- A round on ledger 0 in which peer 1 proposes `[7]` and we close with `[5]`. -/
def sampleCalls : List (Call listTraits) :=
  let peer : Adaptor listTraits := ⟨fun p => some p.position, fun _ _ h => (Option.some.inj h).symm⟩
  [.startRound peer [] 0 (0 : ℕ) (0 : ℕ) true [] true,
    .peerProposal peer 1 ⟨(0 : ℕ), ([7] : List ℕ), 0, 1, (1 : ℕ)⟩,
    .timerEntry [{ peer with
      now := 2, netLgr := (0 : ℕ), haveLedger := true, shouldClose := true, onClose := ([5] : List ℕ),
      convergePercent := 0, settled := false, refresh := false, paused := false, consensus := false,
      expired := false, haveCloseTimeConsensus := false }]]

theorem disputes_exact_recorded :
    ∃ r : Result listTraits,
      (sampleCalls.foldl step { prevLedgerID := (0 : ℕ), previousLedger := (0 : ℕ) }).result = some r ∧
        (r.disputes.lookup (7 : ℕ)).isSome := by
  refine ⟨_, rfl, ?_⟩
  exact (disputes_exact (T := listTraits) (0 : ℕ) (0 : ℕ) sampleCalls rfl rfl).2 (1 : ℕ)
    ⟨(0 : ℕ), ([7] : List ℕ), 0, 1, (1 : ℕ)⟩ ([7] : List ℕ) rfl rfl (7 : ℕ) (by decide)

end FalconLedger.Consensus
