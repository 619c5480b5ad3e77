import FalconLedger.Custody.Minting

/-!
# What a mint leaves

The issuer's sequence is read from a validated ledger, so that of the Payments a relay has in flight
for one thing at most one can still be validated, as long as none had been validated when the sequence
was read (`safe_mint`).
-/

namespace FalconLedger.Minting

open Program

variable {K F W : Type} {R : F → Type}

/-! ### The node -/

/-- What has been minted. -/
def Node.keys (n : Node K) : List K := n.validated.map Payment.key

/-- Each thing is minted once, and the Payments that can still be validated are for others. -/
structure Node.Once (n : Node K) (Vouched : Payment K → Prop) : Prop where
  nodup : n.keys.Nodup
  past : ∀ p ∈ n.pool, p.sequence ≤ n.sequence
  dead : ∀ p ∈ n.pool, p.key ∈ n.keys → p.sequence < n.sequence
  submitted : ∀ p ∈ n.validated, p ∈ n.pool
  vouched : ∀ p ∈ n.pool, Vouched p

/-- A later state of the node: what has been minted since has taken up a sequence. -/
structure Node.Later (n n' : Node K) : Prop where
  sequence : n.sequence ≤ n'.sequence
  keys : ∀ k ∈ n'.keys, k ∈ n.keys ∨ n.sequence < n'.sequence

/-- A sequence under which a thing would not be minted a second time. -/
def Node.Unspent (n : Node K) (key : K) (seq : ℕ) : Prop :=
  seq ≤ n.sequence ∧ (key ∈ n.keys → seq < n.sequence)

variable {n n' : Node K} {key : K} {seq : ℕ} {Vouched : Payment K → Prop}

theorem Node.Later.refl (n : Node K) : n.Later n := ⟨le_rfl, fun _ h => .inl h⟩

theorem Node.Later.trans {n'' : Node K} (h : n.Later n') (h' : n'.Later n'') : n.Later n'' where
  sequence := h.sequence.trans h'.sequence
  keys k hk := by
    rcases h'.keys k hk with hk | hlt
    · exact (h.keys k hk).imp_right fun hlt => hlt.trans_le h'.sequence
    · exact .inr (h.sequence.trans_lt hlt)

theorem Node.Unspent.later (h : n.Unspent key seq) (hl : n.Later n') : n'.Unspent key seq := by
  refine ⟨h.1.trans hl.sequence, fun hk => ?_⟩
  rcases hl.keys key hk with hk | hlt
  · exact (h.2 hk).trans_le hl.sequence
  · exact h.1.trans_lt hlt

theorem Node.Later.of_eq (hs : n.sequence ≤ n'.sequence) (hk : n'.validated = n.validated) :
    n.Later n' where
  sequence := hs
  keys k h := by
    rw [Node.keys, hk] at h
    exact .inl h

theorem Node.Once.forward (h : n.Once Vouched) (hs : n.sequence ≤ n'.sequence)
    (hp : n'.pool = n.pool) (hk : n'.validated = n.validated) : n'.Once Vouched := by
  constructor
  · rw [Node.keys, hk]
    exact h.nodup
  · intro p hmem
    rw [hp] at hmem
    exact (h.past p hmem).trans hs
  · intro p hmem hkey
    rw [hp] at hmem
    rw [Node.keys, hk] at hkey
    exact (h.dead p hmem hkey).trans_le hs
  · rw [hp, hk]
    exact h.submitted
  · rw [hp]
    exact h.vouched

theorem Node.Once.validates (h : n.Once Vouched) {p : Payment K} (hp : p ∈ n.pool)
    (hseq : p.sequence = n.sequence) :
    Node.Once { n with sequence := n.sequence + 1, validated := p :: n.validated } Vouched where
  nodup := List.nodup_cons.mpr ⟨fun hk => (h.dead p hp hk).ne hseq, h.nodup⟩
  past q hq := (h.past q hq).trans (Nat.le_succ _)
  dead q hq _ := Nat.lt_succ_of_le (h.past q hq)
  submitted q hq := (List.mem_cons.mp hq).elim (fun heq => heq ▸ hp) (h.submitted q)
  vouched := h.vouched

theorem Node.Once.accept (h : n.Once Vouched) {p : Payment K} (hp : n.Unspent p.key p.sequence)
    (hv : Vouched p) : (n.accept p).Once Vouched where
  nodup := h.nodup
  past q hq := (List.mem_cons.mp hq).elim (fun heq => heq ▸ hp.1) (h.past q)
  dead q hq := (List.mem_cons.mp hq).elim (fun heq => heq ▸ hp.2) (h.dead q)
  submitted q hq := List.mem_cons_of_mem _ (h.submitted q hq)
  vouched q hq := (List.mem_cons.mp hq).elim (fun heq => heq ▸ hv) (h.vouched q)

theorem Node.Once.vouch (h : n.Once Vouched) {Vouched' : Payment K → Prop}
    (hv : ∀ p, Vouched p → Vouched' p) : n.Once Vouched' :=
  ⟨h.nodup, h.past, h.dead, h.submitted, fun p hp => hv p (h.vouched p hp)⟩

variable [DecidableEq K]

theorem Node.event_later (n : Node K) (e : NodeEvent K) : n.Later (n.event e) := by
  cases e with
  | ledger => exact .of_eq le_rfl rfl
  | used => exact .of_eq (Nat.le_succ _) rfl
  | validates p success =>
    simp only [Node.event]
    split_ifs
    · exact ⟨Nat.le_succ _, fun _ _ => .inr (Nat.lt_succ_self _)⟩
    · exact .of_eq (Nat.le_succ _) rfl
    · exact .refl n

theorem Node.Once.event (h : n.Once Vouched) (e : NodeEvent K) : (n.event e).Once Vouched := by
  cases e with
  | ledger => exact h.forward le_rfl rfl rfl
  | used => exact h.forward (Nat.le_succ _) rfl rfl
  | validates p success =>
    simp only [Node.event]
    split_ifs with hp
    · exact h.validates hp.1 hp.2.1
    · exact h.forward (Nat.le_succ _) rfl rfl
    · exact h

/-! ### A mint -/

section Mint

variable (execOwn : (f : F) → W → Fate → W × R f) (J : W → Prop) (S : W → W → Prop)
  (OnRecord : W → Payment K → Prop) (Vouches : W → Payment K → Prop)

/-- The invariant of a relay: that of the node, and one of its own. -/
def Sound (w : World K W) : Prop := w.node.Once (Vouches w.rest) ∧ J w.rest

/-- How the surroundings move between two calls. -/
def Moves (w w' : World K W) : Prop := w.node.Later w'.node ∧ S w.rest w'.rest

/-- When a live mint begins, the relay has on record what has been validated for the same thing. -/
def Informed : Op K F → World K W → Fate → Prop
  | .accountInfo (some key), w, _ => ∀ p ∈ w.node.validated, p.key = key → OnRecord w.rest p
  | _, _, _ => True

instance Informed.decidable [∀ w p, Decidable (OnRecord w p)] :
    ∀ (o : Op K F) (w : World K W) (c : Fate), Decidable (Informed OnRecord o w c)
  | .accountInfo (some key), w, _ =>
    inferInstanceAs (Decidable (∀ p ∈ w.node.validated, p.key = key → OnRecord w.rest p))
  | .accountInfo none, _, _ | .accountExists _, _, _ | .hasTrustLine _, _, _ | .serverInfo, _, _
  | .sign _, _, _ | .submit _, _, _ | .tx _ _, _, _ | .own _, _, _ => .isTrue trivial

variable {execOwn J S OnRecord Vouches} {w : World K W} {P : W → Prop} {A : World K W → Prop}
  {tx : Payment K}

theorem safe_ask {o : Op K F} {Q : o.Reply R → World K W → Prop}
    (hA : ∀ w w', Moves S w w' → A w → A w')
    (hasks : ∀ w c, (exec execOwn o w c).1 = w) (hw : A w)
    (h : ∀ w, Sound J Vouches w → A w → ∀ c, Informed OnRecord o w c →
      Q (exec execOwn o w c).2 w) :
    Safe (exec execOwn) (Sound J Vouches) (Moves S) (Informed OnRecord) (call o) Q w := by
  refine safe_op fun w' hmoved hI c hpre => ?_
  rw [hasks]
  exact ⟨hI, h w' hI (hA _ _ hmoved hw) c hpre⟩

theorem safe_asks {o : Op K F} (hA : ∀ w w', Moves S w w' → A w → A w')
    (hasks : ∀ w c, (exec execOwn o w c).1 = w) (hw : A w) :
    Safe (exec execOwn) (Sound J Vouches) (Moves S) (Informed OnRecord) (call o)
      (fun (_ : o.Reply R) w => A w) w :=
  safe_ask hA hasks hw fun _ _ hA _ _ => hA

theorem safe_accountInfo {live : Option K} (hA : ∀ w w', Moves S w w' → A w → A w') (hw : A w) :
    Safe (exec execOwn) (Sound J Vouches) (Moves S) (Informed OnRecord) (accountInfo live)
      (fun seq w => A w ∧ seq = w.node.sequence ∧ J w.rest ∧
        ∀ key, live = some key → ∀ p ∈ w.node.validated, p.key = key → OnRecord w.rest p) w := by
  refine safe_bind (safe_ask hA (fun _ _ => rfl) hw fun w' hI hA' c hpre => ?_)
  refine safe_orRaise fun seq hseq => ?_
  have hseq : (if c = .answered then some w'.node.sequence else none) = some seq := hseq
  refine ⟨hA', ?_, hI.2, ?_⟩
  · split_ifs at hseq
    exact (Option.some.inj hseq).symm
  · rintro key rfl
    exact hpre

theorem safe_serverInfo (hA : ∀ w w', Moves S w w' → A w → A w') (hw : A w) :
    Safe (exec execOwn) (Sound J Vouches) (Moves S) (Informed OnRecord) serverInfo
      (fun _ w => A w) w :=
  safe_bind (safe_ask hA (fun _ _ => rfl) hw fun _ _ hA' _ _ => safe_orRaise fun _ _ => hA')

theorem safe_sign (hA : ∀ w w', Moves S w w' → A w → A w') (hw : A w) :
    Safe (exec execOwn) (Sound J Vouches) (Moves S) (Informed OnRecord) (sign tx)
      (fun _ w => A w) w :=
  safe_bind (safe_ask hA (fun _ _ => rfl) hw fun _ _ hA' _ _ => safe_orRaise fun _ _ => hA')

omit [DecidableEq K] in
theorem Sound.accept (h : Sound J Vouches w) (hunspent : w.node.Unspent tx.key tx.sequence)
    (hvouched : Vouches w.rest tx) : Sound J Vouches { w with node := w.node.accept tx } :=
  ⟨h.1.accept hunspent hvouched, h.2⟩

theorem safe_submit (hP : ∀ rest rest', S rest rest' → P rest → P rest')
    (hvouched : ∀ rest, J rest → P rest → Vouches rest tx) (hw : P w.rest)
    (hunspent : w.node.Unspent tx.key tx.sequence) :
    Safe (exec execOwn) (Sound J Vouches) (Moves S) (Informed OnRecord) (submit tx)
      (fun _ w => P w.rest) w := by
  refine safe_bind (safe_op fun w' hmoved hI c _ => ?_)
  have hP' : P w'.rest := hP _ _ hmoved.2 hw
  have haccept := Sound.accept hI (hunspent.later hmoved.1) (hvouched _ hI.2 hP')
  cases c
  case fails => exact ⟨hI, safe_orRaise fun _ _ => hP'⟩
  case refused => exact ⟨hI, safe_orRaise fun _ _ => hP'⟩
  all_goals exact ⟨haccept, safe_orRaise fun _ _ => hP'⟩

theorem safe_waitValidated (hA : ∀ w w', Moves S w w' → A w → A w') (left : ℕ) (hw : A w) :
    Safe (exec execOwn) (Sound J Vouches) (Moves S) (Informed OnRecord) (waitValidated tx left)
      (fun _ w => A w) w := by
  induction left generalizing w with
  | zero => exact safe_pure hw
  | succ left ih =>
    refine safe_bind (safe_mono (fun r w' hw' => ?_) (safe_asks hA (fun _ _ => rfl) hw))
    cases r with
    | some result => exact safe_pure hw'
    | none => exact ih hw'

theorem safe_mint {key : K} {destination : String} {value : ℚ} {dryRun : Bool}
    (hP : ∀ rest rest', S rest rest' → P rest → P rest')
    (hnew : ∀ rest, J rest → P rest → ∀ p : Payment K, p.key = key → ¬OnRecord rest p)
    (hvouched : ∀ rest, J rest → P rest → ∀ seq last,
      Vouches rest ⟨key, destination, value, seq, last⟩)
    (hw : P w.rest) :
    Safe (exec execOwn) (Sound J Vouches) (Moves S) (Informed OnRecord)
      (mint key destination value dryRun) (fun _ w => P w.rest) w := by
  have hPmoves : ∀ w w' : World K W, Moves S w w' → P w.rest → P w'.rest :=
    fun _ _ hmoved => hP _ _ hmoved.2
  refine safe_bind (safe_mono (fun seq w₁ h₁ => ?_) (safe_accountInfo hPmoves hw))
  obtain ⟨hw₁, rfl, hJ, hinformed⟩ := h₁
  cases dryRun with
  | true => exact safe_bind (safe_mono (fun _ _ hw₂ => safe_pure hw₂) (safe_serverInfo hPmoves hw₁))
  | false =>
    -- the sequence that was read is not spent on the same thing
    have hunspent : w₁.node.Unspent key w₁.node.sequence := by
      refine ⟨le_rfl, fun hkey => ?_⟩
      obtain ⟨p, hp, hpk⟩ := List.mem_map.mp hkey
      exact absurd (hinformed key rfl p hp hpk) (hnew _ hJ hw₁ p hpk)
    have hmoves : ∀ w w' : World K W, Moves S w w' →
        P w.rest ∧ w.node.Unspent key w₁.node.sequence →
        P w'.rest ∧ w'.node.Unspent key w₁.node.sequence :=
      fun _ _ hmoved h => ⟨hP _ _ hmoved.2 h.1, h.2.later hmoved.1⟩
    refine safe_bind (safe_mono (fun ledger w₂ h₂ => ?_) (safe_serverInfo hmoves ⟨hw₁, hunspent⟩))
    refine safe_bind (safe_mono (fun signed w₃ h₃ => ?_) (safe_sign hmoves h₂))
    cases signed with
    | false => exact safe_pure h₃.1
    | true =>
      refine safe_bind (safe_mono (fun result w₄ hw₄ => ?_)
        (safe_submit hP (fun rest hJ hw => hvouched rest hJ hw _ _) h₃.1 h₃.2))
      cases result with
      | false => exact safe_pure hw₄
      | true =>
        refine safe_bind (safe_mono (fun final w₅ hw₅ => ?_) (safe_waitValidated hPmoves 30 hw₄))
        split_ifs
        · exact safe_pure hw₅
        · exact safe_pure hw₅

end Mint

/-! ### Failures -/

/-- What an operation says of the mint it is for. -/
def Op.payment : Op K F → Option (Payment K)
  | .sign p | .submit p | .tx p _ => some p
  | _ => none

/-- Replies with which a mint fails. -/
def Op.Fails : (o : Op K F) → o.Reply R → Prop
  | .sign _, r | .submit _, r => r = some false
  | .tx _ left, r => r = some false ∨ (r = none ∧ left = 0)
  | _, _ => False

instance Op.Fails.decidable : ∀ (o : Op K F) (r : o.Reply R), Decidable (o.Fails r)
  | .sign _, (r : Option Bool) => inferInstanceAs (Decidable (r = some false))
  | .submit _, (r : Option Bool) => inferInstanceAs (Decidable (r = some false))
  | .tx _ left, (r : Option Bool) =>
    inferInstanceAs (Decidable (r = some false ∨ (r = none ∧ left = 0)))
  | .accountExists _, _ | .hasTrustLine _, _ | .accountInfo _, _ | .serverInfo, _ | .own _, _ =>
    .isFalse fun h => h

section Failures

variable {execOwn : (f : F) → W → Fate → W × R f} {J : W → Prop} {S : W → W → Prop}
  {pre : Op K F → World K W → Fate → Prop} {w : World K W} {P : W → Prop} {ok : Prop} {key : K}

/-- A call to the node leaves the rest alone, and does not fail where failures are excluded. -/
theorem safe_node {o : Op K F} {tx : Payment K} {Q : o.Reply R → World K W → Prop}
    (hP : ∀ rest rest', S rest rest' → P rest → P rest')
    (hrest : ∀ w c, (exec execOwn o w c).1.rest = w.rest) (ho : o.payment = some tx)
    (hsucceeds : ok → ∀ o w c, pre o w c → P w.rest → ∀ tx, o.payment = some tx → tx.key = key →
      ¬o.Fails (exec execOwn o w c).2) (htx : tx.key = key) (hw : P w.rest)
    (hQ : ∀ r w, P w.rest → (ok → ¬o.Fails r) → Q r w) :
    Safe (exec execOwn) (fun w => J w.rest) (fun w w' => S w.rest w'.rest) pre (call o) Q w := by
  refine safe_op fun w' hmoved hJ c hpre => ?_
  have hw' : P w'.rest := hP _ _ hmoved hw
  refine ⟨?_, hQ _ _ ?_ fun hok => hsucceeds hok o w' c hpre hw' tx ho htx⟩
  · rw [hrest]
    exact hJ
  · rw [hrest]
    exact hw'

theorem safe_node_info {o : Op K F} (hP : ∀ rest rest', S rest rest' → P rest → P rest')
    (hrest : ∀ w c, (exec execOwn o w c).1.rest = w.rest) (hw : P w.rest) :
    Safe (exec execOwn) (fun w => J w.rest) (fun w w' => S w.rest w'.rest) pre (call o)
      (fun (_ : o.Reply R) w => P w.rest) w := by
  refine safe_op fun w' hmoved hJ c _ => ?_
  rw [hrest]
  exact ⟨hJ, hP _ _ hmoved hw⟩

theorem exec_submit_rest (tx : Payment K) (w : World K W) (c : Fate) :
    (exec execOwn (.submit tx) w c).1.rest = w.rest := by
  cases c <;> rfl

theorem safe_waitValidated_ok {tx : Payment K}
    (hP : ∀ rest rest', S rest rest' → P rest → P rest')
    (hsucceeds : ok → ∀ o w c, pre o w c → P w.rest → ∀ tx, o.payment = some tx → tx.key = key →
      ¬o.Fails (exec execOwn o w c).2) (htx : tx.key = key) (left : ℕ) (hw : P w.rest) :
    Safe (exec execOwn) (fun w => J w.rest) (fun w w' => S w.rest w'.rest) pre
      (waitValidated tx (left + 1)) (fun r w => P w.rest ∧ (ok → r = some true)) w := by
  induction left generalizing w with
  | zero =>
    refine safe_bind (safe_node hP (fun _ _ => rfl) rfl hsucceeds htx hw fun r w' hw' hr => ?_)
    rcases r with _ | _ | _
    · exact safe_pure ⟨hw', fun hok => absurd (.inr ⟨rfl, rfl⟩) (hr hok)⟩
    · exact safe_pure ⟨hw', fun hok => absurd (.inl rfl) (hr hok)⟩
    · exact safe_pure ⟨hw', fun _ => rfl⟩
  | succ left ih =>
    refine safe_bind (safe_node hP (fun _ _ => rfl) rfl hsucceeds htx hw fun r w' hw' hr => ?_)
    rcases r with _ | _ | _
    · exact ih hw'
    · exact safe_pure ⟨hw', fun hok => absurd (.inl rfl) (hr hok)⟩
    · exact safe_pure ⟨hw', fun _ => rfl⟩

/-- A mint leaves the rest alone, and succeeds where failures are excluded. -/
theorem safe_mint_ok (ok : Prop) {destination : String} {value : ℚ} {dryRun : Bool}
    (hP : ∀ rest rest', S rest rest' → P rest → P rest')
    (hsucceeds : ok → ∀ o w c, pre o w c → P w.rest → ∀ tx, o.payment = some tx → tx.key = key →
      ¬o.Fails (exec execOwn o w c).2) (hw : P w.rest) :
    Safe (exec execOwn) (fun w => J w.rest) (fun w w' => S w.rest w'.rest) pre
      (mint key destination value dryRun) (fun r w => P w.rest ∧ (ok → r ≠ none)) w := by
  refine safe_bind (safe_bind (safe_mono (fun _ w₁ hw₁ => safe_orRaise fun seq _ => ?_)
    (safe_node_info hP (fun _ _ => rfl) hw)))
  refine safe_bind (safe_bind (safe_mono (fun _ w₂ hw₂ => safe_orRaise fun ledger _ => ?_)
    (safe_node_info hP (fun _ _ => rfl) hw₁)))
  cases dryRun with
  | true => exact safe_pure ⟨hw₂, fun _ => nofun⟩
  | false =>
    refine safe_bind (safe_bind (safe_node hP (fun _ _ => rfl) rfl hsucceeds rfl hw₂
      fun sign w₃ hw₃ hsign => safe_orRaise fun signed hsigned => ?_))
    subst hsigned
    cases signed with
    | false => exact safe_pure ⟨hw₃, fun hok => absurd rfl (hsign hok)⟩
    | true =>
      refine safe_bind (safe_bind (safe_node hP (exec_submit_rest _) rfl hsucceeds rfl hw₃
        fun sub w₄ hw₄ hsub => safe_orRaise fun result hresult => ?_))
      subst hresult
      cases result with
      | false => exact safe_pure ⟨hw₄, fun hok => absurd rfl (hsub hok)⟩
      | true =>
        refine safe_bind (safe_mono (fun final w₅ h₅ => ?_)
          (safe_waitValidated_ok hP hsucceeds rfl 29 hw₄))
        split_ifs with hfinal
        · exact safe_pure ⟨h₅.1, fun _ => nofun⟩
        · exact safe_pure ⟨h₅.1, fun hok => absurd (h₅.2 hok) hfinal⟩

end Failures

end FalconLedger.Minting
