import FalconLedger.Properties.RelayMints

/-!
# The claims of the bitcoin relay

The server and the relay each read the file of claims, change it and write it back. A claim the server has
accepted stays in the file until it is minted, as long as neither writes over what the other has written
since it read the file (`claims_kept`).
-/

namespace FalconLedger.BtcRelay

open Program Minting

/-! ### Texts -/

theorem strip_eq_self {text : List Char} (h : ∀ c ∈ text, isSpace c = false) :
    strip text = text := by
  have hdrop : ∀ l : List Char, (∀ c ∈ l, isSpace c = false) →
      l.dropWhile isSpace = l := by
    intro l hl
    cases l with
    | nil => rfl
    | cons c rest => rw [List.dropWhile_cons_of_neg (by rw [hl c List.mem_cons_self]; decide)]
  rw [strip, hdrop text h, hdrop _ fun c hc => h c (List.mem_reverse.mp hc), List.reverse_reverse]

theorem char_cases {c : Char} (p : Char → Prop) (m n : ℕ) (hm : m ≤ c.toNat) (hn : c.toNat ≤ n)
    (h : ∀ k ∈ List.range' m (n + 1 - m), p (Char.ofNat k)) : p c := by
  rw [← Char.ofNat_toNat c]
  exact h _ (List.mem_range'_1.mpr ⟨hm, by omega⟩)

theorem txid_digit {c : Char} (h : (c.isDigit || ('a' ≤ c && c ≤ 'f')) = true) :
    c.toLower = c ∧ isSpace c = false := by
  rw [Bool.or_eq_true] at h
  rcases h with h | h
  · simp only [Char.isDigit, Bool.and_eq_true, decide_eq_true_eq] at h
    exact char_cases (fun c => c.toLower = c ∧ isSpace c = false) 48 57 h.1 h.2 (by decide)
  · simp only [Bool.and_eq_true, decide_eq_true_eq] at h
    exact char_cases (fun c => c.toLower = c ∧ isSpace c = false) 97 102 h.1 h.2 (by decide)

theorem lower_strip_txid {text : List Char} (h : isTxid text = true) :
    text ≠ [] ∧ lower (strip text) = text := by
  rw [isTxid, Bool.and_eq_true, List.all_eq_true, decide_eq_true_eq] at h
  constructor
  · rintro rfl
    exact absurd h.1 (by decide)
  · rw [strip_eq_self fun c hc => (txid_digit (h.2 c hc)).2, lower,
      List.map_congr_left fun c hc => (txid_digit (h.2 c hc)).1, List.map_id']

theorem strip_falconAccount {text : List Char} (h : isFalconAccount text = true) :
    strip text ≠ [] := by
  rcases text with _ | ⟨c, rest⟩
  · cases h
  have hblank : ∀ d ∈ c :: rest, isSpace d = false := by
    rw [isFalconAccount.eq_def] at h
    split at h
    · next rest' heq =>
      obtain ⟨rfl, rfl⟩ := List.cons.inj heq
      simp only [Bool.and_eq_true, List.all_eq_true] at h
      refine List.forall_mem_cons.mpr ⟨by decide, fun d hd => ?_⟩
      have hd := h.2 d hd
      simp only [Bool.or_eq_true, Bool.and_eq_true, decide_eq_true_eq] at hd
      have hvisible : ∀ m n, m ≤ d.toNat → d.toNat ≤ n → 33 ≤ m → n ≤ 126 → isSpace d = false :=
        fun m n hm hn h33 h126 => char_cases (fun d => isSpace d = false) 33 126
          (h33.trans hm) (hn.trans h126) (by decide)
      rcases hd with ((((h | h) | h) | h) | h) | h
      all_goals exact hvisible _ _ h.1 h.2 (by decide) (by decide)
    · cases h
  rw [strip_eq_self hblank]
  exact List.cons_ne_nil c rest

/-! ### The invariant -/

/-- A claim as the server makes it: none that the relay skips as bad. -/
structure Formed (e : Txid × Claim) : Prop where
  txid : lower (strip e.2.btcTxid) = e.1
  txid_ne : e.1 ≠ []
  account : strip e.2.falconAccount ≠ []
  amount : 0 < e.2.amountSats

/-- The files hold what the server makes, and every accepted claim is in the file or has been minted. -/
structure Around.Kept (w : Around) : Prop where
  claims : ∀ e ∈ w.claims, Formed e
  server : ∀ loaded claim, w.server = some (loaded, claim) →
    (∀ e ∈ loaded, Formed e) ∧ Formed (claim.btcTxid, claim)
  answered : ∀ txid ∈ w.answered, txid ∈ w.claims.txids ∨ txid ∈ w.state.mintedTxids

/-- The relay saves the claims over the file it has loaded. -/
def Unchanged : Op Txid Own → World Txid Around → Fate → Prop
  | .own (.saveClaims loaded _), w, _ => w.rest.claims = loaded
  | _, _, _ => True

/-- The server saves the claims over the file it has loaded. -/
def SavesUnchanged (w : World Txid Around) : Event → Prop
  | .postSave => ∀ loaded ∈ w.rest.server.map Prod.fst, w.rest.claims = loaded
  | _ => True

instance : ∀ (o : Op Txid Own) (w : World Txid Around) (c : Fate), Decidable (Unchanged o w c)
  | .own (.saveClaims loaded _), w, _ => inferInstanceAs (Decidable (w.rest.claims = loaded))
  | .own .loadClaims, _, _ | .own .loadState, _, _ | .own (.explorerGet _), _, _
  | .own (.saveState _), _, _ | .accountInfo _, _, _ | .accountExists _, _, _ | .hasTrustLine _, _, _
  | .serverInfo, _, _ | .sign _, _, _ | .submit _, _, _ | .tx _ _, _, _ => .isTrue trivial

instance : ∀ (w : World Txid Around) (e : Event), Decidable (SavesUnchanged w e)
  | w, .postSave =>
    inferInstanceAs (Decidable (∀ loaded ∈ w.rest.server.map Prod.fst, w.rest.claims = loaded))
  | _, .node _ | _, .postLoad _ | _, .serverStops => .isTrue trivial

theorem formed_claim {body : Request} {claim : Claim} (h : body.claim = some claim) :
    Formed (claim.btcTxid, claim) := by
  simp only [Request.claim] at h
  split_ifs at h with hfalcon htxid hamount
  obtain rfl := Option.some.inj h
  rw [Bool.not_eq_true', Bool.not_eq_false] at hfalcon htxid
  obtain ⟨hne, hlower⟩ := lower_strip_txid htxid
  exact ⟨hlower, hne, strip_falconAccount hfalcon, by show 0 < body.amountSats; omega⟩

theorem mem_txids_without {pending : Pending} {resolved : List Txid} {txid : Txid}
    (h : txid ∈ pending.txids) (hnew : txid ∉ resolved) : txid ∈ (pending.without resolved).txids := by
  obtain ⟨e, he, rfl⟩ := List.mem_map.mp h
  exact List.mem_map.mpr ⟨e, List.mem_filter.mpr ⟨he, decide_eq_true hnew⟩, rfl⟩

/-! ### Polls -/

/-- Safety for the claims. -/
abbrev KeepsClaims {α : Type} (chain : Chain) (m : Poll α) (Q : α → World Txid Around → Prop)
    (w : World Txid Around) : Prop :=
  Safe (exec (execOwn chain)) (fun w => w.rest.Kept) (fun w w' => SameState w.rest w'.rest)
    Unchanged m Q w

variable {chain : Chain} {w : World Txid Around}

/-- In a run that is not dry, the file holds the state of the relay, and what is resolved is minted. -/
def Follows (dryRun : Bool) (state : State) (resolved : List Txid) (s : State) : Prop :=
  dryRun = false → s = state ∧ ∀ txid ∈ resolved, txid ∈ state.mintedTxids

theorem Follows.resolve {dryRun : Bool} {state s : State} {resolved : List Txid} {txid : Txid}
    (h : Follows dryRun state resolved s) (htxid : txid ∈ state.mintedTxids) :
    Follows dryRun state (resolved ++ [txid]) s := by
  intro hdry
  refine ⟨(h hdry).1, fun txid' hmem => ?_⟩
  rcases List.mem_append.mp hmem with hmem | hmem
  · exact (h hdry).2 txid' hmem
  · rw [List.mem_singleton.mp hmem]
    exact htxid

theorem keepsClaims_verify {txid : Txid} {minSats : ℤ} {P : State → Prop} (hw : P w.rest.state) :
    KeepsClaims chain (verifyBtcDeposit chain txid minSats) (fun _ w => P w.rest.state) w := by
  rw [verifyBtcDeposit]
  split
  · exact safe_pure hw
  refine safe_bind (safe_mono (fun tx w₁ hw₁ => ?_) (safe_node_info (P := OfState P)
    (stable_ofState P) (fun _ c => by cases c <;> rfl) hw))
  rcases tx with _ | ⟨vouts, confirmed⟩
  · exact safe_pure hw₁
  · dsimp only
    split
    · exact safe_pure hw₁
    · exact safe_pure hw₁

theorem Around.Kept.saveState {w : Around} (h : w.Kept) {s : State}
    (hs : ∀ txid ∈ w.state.mintedTxids, txid ∈ s.mintedTxids) : Around.Kept { w with state := s } :=
  ⟨h.claims, h.server, fun txid htxid => (h.answered txid htxid).imp_right (hs txid)⟩

theorem keepsClaims_saveState {dryRun : Bool} {state : State} {resolved : List Txid} {txid : Txid}
    {tx : Option (Payment Txid)} (hw : Follows dryRun state resolved w.rest.state) :
    KeepsClaims chain (saveUnlessDry dryRun (.saveState (state.minted txid tx)) rfl)
      (fun _ w => Follows dryRun (state.minted txid tx) (resolved ++ [txid]) w.rest.state) w := by
  cases dryRun with
  | true => exact safe_pure nofun
  | false =>
    obtain ⟨hstate, hresolved⟩ := hw rfl
    have hgrown : ∀ txid' ∈ state.mintedTxids, txid' ∈ (state.minted txid tx).mintedTxids :=
      fun txid' hmem => (State.mem_minted state txid tx).mpr (.inr hmem)
    refine safe_bind (safe_op fun w' hsame hI c _ => ?_)
    have hstate' : w'.rest.state = state := hsame.trans hstate
    cases c
    case answered =>
      refine ⟨hI.saveState (hstate' ▸ hgrown), safe_orRaise fun _ _ _ => ⟨rfl, fun txid' hmem => ?_⟩⟩
      rcases List.mem_append.mp hmem with hmem | hmem
      · exact hgrown txid' (hresolved txid' hmem)
      · rw [List.mem_singleton.mp hmem]
        exact (State.mem_minted state txid tx).mpr (.inl rfl)
    all_goals exact ⟨hI, safe_raise⟩

theorem keepsClaims_processAll {dryRun requireConfirmed : Bool} (items : Pending) (state : State)
    (resolved : List Txid) (hitems : ∀ e ∈ items, Formed e)
    (hw : Follows dryRun state resolved w.rest.state) :
    KeepsClaims chain (processAll chain dryRun requireConfirmed items state resolved)
      (fun resolved w => ∃ state, Follows dryRun state resolved w.rest.state) w := by
  induction items generalizing state resolved w with
  | nil => exact safe_pure ⟨state, hw⟩
  | cons e rest ih =>
    obtain ⟨claimId, claim⟩ := e
    obtain ⟨⟨htxid, htxidne, haccount, hamount⟩, hrest⟩ := List.forall_mem_cons.mp hitems
    have hstable := stable_ofState (Follows dryRun state resolved)
    have hnext : ∀ {w : World Txid Around}, Follows dryRun state resolved w.rest.state →
        KeepsClaims chain (processAll chain dryRun requireConfirmed rest state resolved)
          (fun resolved w => ∃ state, Follows dryRun state resolved w.rest.state) w :=
      fun h => ih state resolved hrest h
    rw [processAll, htxid]
    split
    · next hbad => exact absurd hbad (not_or.mpr ⟨htxidne, not_or.mpr ⟨haccount, hamount.not_ge⟩⟩)
    split
    · next hminted => exact ih state _ hrest (hw.resolve hminted)
    refine safe_bind (safe_mono (fun verified w₁ hw₁ => ?_) (keepsClaims_verify hw))
    rcases verified with _ | ⟨sats, confirmed⟩
    · exact hnext hw₁
    dsimp only
    split
    · exact hnext hw₁
    refine safe_bind (safe_mono (fun exists' w₂ hw₂ => ?_)
      (safe_node_info hstable (fun _ _ => rfl) hw₁))
    cases exists' with
    | false => exact hnext hw₂
    | true =>
      refine safe_bind (safe_mono (fun trusted w₃ hw₃ => ?_)
        (safe_node_info hstable (fun _ _ => rfl) hw₂))
      cases trusted with
      | false => exact hnext hw₃
      | true =>
        refine safe_bind (safe_mono (fun success w₄ h₄ => ?_)
          (safe_mint_ok False hstable (fun h => h.elim) hw₃))
        cases success with
        | none => exact hnext h₄.1
        | some tx =>
          exact safe_bind (safe_mono (fun _ _ hw₅ => ih _ _ hrest hw₅) (keepsClaims_saveState h₄.1))

theorem Around.Kept.saveClaims {w : Around} (h : w.Kept) {resolved : List Txid}
    (hresolved : ∀ txid ∈ resolved, txid ∈ w.state.mintedTxids) :
    Around.Kept { w with claims := w.claims.without resolved } where
  claims e he := h.claims e (List.mem_of_mem_filter he)
  server := h.server
  answered txid htxid := by
    by_cases hmem : txid ∈ resolved
    · exact .inr (hresolved txid hmem)
    · exact (h.answered txid htxid).imp_left fun hclaim => mem_txids_without hclaim hmem

theorem keepsClaims_processClaims (args : Args) :
    KeepsClaims chain (processClaims chain args.dryRun args.requireConfirmed) (fun _ _ => True) w := by
  obtain ⟨dryRun, requireConfirmed⟩ := args
  have hloadClaims : KeepsClaims chain (own Own.loadClaims)
      (fun (r : Option Pending) _ => ∀ pending, r = some pending → ∀ e ∈ pending, Formed e) w := by
    refine safe_op fun w' _ hI c _ => ⟨hI, fun pending hpending => ?_⟩
    cases c
    case answered =>
      rw [← Option.some.inj hpending]
      exact hI.claims
    all_goals cases hpending
  refine safe_bind (safe_mono (fun claims w₁ hclaims => ?_) hloadClaims)
  refine safe_bind (safe_orRaise fun pending hpending => ?_)
  split
  · exact safe_pure trivial
  have hloadState : KeepsClaims chain (own Own.loadState)
      (fun (r : Option State) w => ∀ state, r = some state → Follows dryRun state [] w.rest.state)
      w₁ := by
    refine safe_op fun w' _ hI c _ => ⟨hI, fun state hstate => ?_⟩
    cases c
    case answered => exact fun _ => ⟨Option.some.inj hstate, List.forall_mem_nil _⟩
    all_goals cases hstate
  refine safe_bind (safe_mono (fun r w₂ hr => ?_) hloadState)
  refine safe_bind (safe_orRaise fun state hstate => ?_)
  refine safe_bind (safe_mono (fun resolved w₃ h₃ => ?_)
    (keepsClaims_processAll pending state [] (hclaims pending hpending) (hr state hstate)))
  obtain ⟨state', hfollows⟩ := h₃
  split
  · exact safe_pure trivial
  cases dryRun with
  | true => exact safe_pure trivial
  | false =>
    refine safe_bind (safe_op fun w' hsame hI c hpre => ?_)
    have hloaded : w'.rest.claims = pending := hpre
    cases c
    case answered =>
      have hsaved := hI.saveClaims (fun txid hmem => by
        obtain ⟨hs, hresolved⟩ := hfollows rfl
        rw [hsame, hs]
        exact hresolved txid hmem)
      rw [hloaded] at hsaved
      exact ⟨hsaved, safe_orRaise fun _ _ => trivial⟩
    all_goals exact ⟨hI, safe_raise⟩

/-! ### Runs -/

theorem env_kept (w : World Txid Around) (e : Event) (hw : w.rest.Kept) (he : SavesUnchanged w e) :
    (env w e).rest.Kept ∧ SameState w.rest (env w e).rest := by
  cases e with
  | node e => exact ⟨hw, rfl⟩
  | serverStops => exact ⟨⟨hw.claims, fun _ _ h => (by cases h), hw.answered⟩, rfl⟩
  | postLoad body =>
    simp only [env]
    split
    · next claim _ hclaim =>
      split_ifs with hmem
      · exact ⟨⟨hw.claims, hw.server, List.forall_mem_cons.mpr ⟨.inl hmem, hw.answered⟩⟩, rfl⟩
      · refine ⟨⟨hw.claims, fun loaded claim' heq => ?_, hw.answered⟩, rfl⟩
        obtain ⟨rfl, rfl⟩ := Prod.mk.inj (Option.some.inj heq)
        exact ⟨hw.claims, formed_claim hclaim⟩
    · exact ⟨hw, rfl⟩
  | postSave =>
    simp only [env]
    split
    · next loaded claim hserver =>
      obtain ⟨hloaded, hformed⟩ := hw.server loaded claim hserver
      have hsame : w.rest.claims = loaded := he loaded (by rw [hserver]; rfl)
      refine ⟨⟨?_, fun _ _ h => (by cases h), ?_⟩, rfl⟩
      · intro e hmem
        rcases List.mem_append.mp hmem with hmem | hmem
        · exact hloaded e hmem
        · rw [List.mem_singleton.mp hmem]
          exact hformed
      · refine List.forall_mem_cons.mpr ⟨.inl ?_, fun txid htxid => ?_⟩
        · exact List.mem_map.mpr ⟨_, List.mem_append_right _ List.mem_cons_self, rfl⟩
        · refine (hw.answered txid htxid).imp_left fun hclaim => ?_
          rw [hsame] at hclaim
          obtain ⟨e, hmem, rfl⟩ := List.mem_map.mp hclaim
          exact List.mem_map.mpr ⟨e, List.mem_append_left _ hmem, rfl⟩
    · exact ⟨hw, rfl⟩

/-- In runs of the server and the relay in which whoever saves the claims finds the file as it loaded
it. -/
theorem claims_kept (chain : Chain) (node : Node Txid) (as : List (Act Fate Event Args))
    (has : Run.Always (relay chain).step (Machine.Allowed Unchanged SavesUnchanged)
      (start node, .ret ()) as) :
    ∀ w, w = (Run.final (relay chain).step (start node, .ret ()) as).1.rest →
      ∀ txid ∈ w.answered, txid ∈ w.claims.txids ∨ txid ∈ w.state.mintedTxids := by
  rintro w rfl
  have hstart : (start node).rest.Kept := ⟨nofun, nofun, nofun⟩
  exact (Machine.invariant (I := fun w : World Txid Around => w.rest.Kept)
    (R := fun w w' : World Txid Around => SameState w.rest w'.rest) (fun h h' => h'.trans h) (fun _ => rfl) env_kept (fun _ hw => hw)
    (fun args _ _ => keepsClaims_processClaims args) hstart has).answered

/-- A second claim, of another transaction. -/
def Sample.other : Txid := List.replicate 64 '1'

/-- Two claims, of which the first is minted. -/
def Sample.both : List (Act Fate Event Args) :=
  Sample.claimed ++ [.env (.postLoad ⟨Sample.account, Sample.other, 1000⟩), .env .postSave]

/-- The second claim is accepted while the first is being minted. -/
def Sample.meanwhile : List (Act Fate Event Args) :=
  Sample.claimed.dropLast ++
    [.env (.postLoad ⟨Sample.account, Sample.other, 1000⟩), .env .postSave, .resume .answered]

theorem claims_kept_both :
    Run.Always (relay Sample.chain).step (Machine.Allowed Unchanged SavesUnchanged)
      (start Sample.node, .ret ()) Sample.both ∧
    ∀ txid ∈ (Run.final (relay Sample.chain).step (start Sample.node, .ret ())
        Sample.both).1.rest.answered,
      txid ∈ (Run.final (relay Sample.chain).step (start Sample.node, .ret ())
        Sample.both).1.rest.claims.txids ∨
      txid ∈ (Run.final (relay Sample.chain).step (start Sample.node, .ret ())
        Sample.both).1.rest.state.mintedTxids := by
  have has : Run.Always (relay Sample.chain).step (Machine.Allowed Unchanged SavesUnchanged)
      (start Sample.node, .ret ()) Sample.both := by
    decide +kernel
  exact ⟨has, claims_kept _ _ _ has _ rfl⟩

/-- A claim that is accepted during a poll is gone after it, and is not minted. -/
theorem claims_kept_meanwhile :
    (Run.final (relay Sample.chain).step (start Sample.node, .ret ())
      Sample.meanwhile).1.rest.answered = [Sample.other, Sample.txid] ∧
    (Run.final (relay Sample.chain).step (start Sample.node, .ret ())
      Sample.meanwhile).1.rest.claims = [] ∧
    (Run.final (relay Sample.chain).step (start Sample.node, .ret ())
      Sample.meanwhile).1.rest.state.mintedTxids = [Sample.txid] := by
  refine ⟨?_, ?_, ?_⟩ <;> decide +kernel

end FalconLedger.BtcRelay
