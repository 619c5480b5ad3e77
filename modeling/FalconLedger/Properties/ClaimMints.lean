import FalconLedger.Custody.BtcRelay
import FalconLedger.Properties.Mints

/-!
# The mints of the bitcoin relay

The relay mints for a transaction what it pays into custody, and not for one that its state has on
record.
-/

namespace FalconLedger.BtcRelay

open Program Minting

variable {chain : Chain} {w : World Txid Around} {P : Around → Prop}

/-! ### The invariant -/

/-- What is on record as a mint is also among the txids. -/
def State.Recorded (s : State) : Prop := ∀ e ∈ s.mints, e.1 ∈ s.mintedTxids

/-- The state is the relay's own. -/
def SameState (w w' : Around) : Prop := w'.state = w.state

/-- What a mint for a transaction is worth. -/
def mintValue (chain : Chain) (txid : Txid) : ℚ :=
  printed 8 (amountHuman 8 (credited chain.custody (chain.vouts txid)))

def Vouches (chain : Chain) (_ : Around) (p : Payment Txid) : Prop := p.value = mintValue chain p.key

def OnRecord (w : Around) (p : Payment Txid) : Prop := (p.key, some p) ∈ w.state.mints

theorem State.mem_minted (s : State) (txid : Txid) (tx : Option (Payment Txid)) {txid' : Txid} :
    txid' ∈ (s.minted txid tx).mintedTxids ↔ txid' = txid ∨ txid' ∈ s.mintedTxids := by
  simp only [State.minted]
  split_ifs with hmem
  · exact ⟨.inr, fun h => h.elim (fun heq => heq ▸ hmem) fun h => h⟩
  · rw [List.mem_append, List.mem_singleton, or_comm]

theorem State.Recorded.minted {s : State} (h : s.Recorded) (txid : Txid)
    (tx : Option (Payment Txid)) : (s.minted txid tx).Recorded := by
  intro e he
  rw [State.mem_minted]
  rcases List.mem_append.mp he with he | he
  · exact .inr (h e he)
  · exact .inl (congrArg Prod.fst (List.mem_singleton.mp he))

/-- Safety for the invariant of the relay. -/
abbrev Keeps {α : Type} (chain : Chain) (m : Poll α) (Q : α → World Txid Around → Prop)
    (w : World Txid Around) : Prop :=
  Safe (exec (execOwn chain)) (Sound (fun rest => rest.state.Recorded) (Vouches chain))
    (Moves SameState) (Informed OnRecord) m Q w

/-- What depends on the state alone. -/
def OfState (P : State → Prop) (rest : Around) : Prop := P rest.state

theorem stable_ofState (P : State → Prop) :
    ∀ rest rest', SameState rest rest' → OfState P rest → OfState P rest' :=
  fun _ _ hsame h => Eq.mpr (congrArg P hsame) h

/-! ### Polls -/

theorem safe_verifyBtcDeposit {txid : Txid} {minSats : ℤ} {P : State → Prop} (hw : P w.rest.state) :
    Keeps chain (verifyBtcDeposit chain txid minSats) (fun r w => P w.rest.state ∧
      ∀ c, r = some c → c.1 = credited chain.custody (chain.vouts txid)) w := by
  have hmoves : ∀ w w' : World Txid Around, Moves SameState w w' → P w.rest.state →
      P w'.rest.state := fun w w' hmoved => stable_ofState P w.rest w'.rest hmoved.2
  rw [verifyBtcDeposit]
  split
  · exact safe_pure ⟨hw, nofun⟩
  refine safe_bind (safe_ask hmoves (fun _ c => by cases c <;> rfl) hw
    fun w' _ hw' c _ => ?_)
  have hshown : ∀ confirmed : Bool, Keeps chain (do
      let sats := credited chain.custody (chain.vouts txid)
      if sats = 0 ∨ (sats : ℤ) < minSats then pure none else pure (some (sats, confirmed)))
      (fun r w => P w.rest.state ∧
        ∀ c, r = some c → c.1 = credited chain.custody (chain.vouts txid)) w' := by
    intro confirmed
    dsimp only
    split_ifs
    · exact safe_pure ⟨hw', nofun⟩
    · refine safe_pure ⟨hw', fun c hc => ?_⟩
      rw [← Option.some.inj hc]
  cases c
  case answered => exact hshown true
  case kept => exact hshown false
  all_goals exact safe_pure ⟨hw', nofun⟩

/-- The state in the file is part of the one that the relay works with. -/
def Behind (state : State) (s : State) : Prop :=
  state.Recorded ∧ ∀ txid ∈ s.mintedTxids, txid ∈ state.mintedTxids

theorem safe_mint_claim {txid : Txid} {destination : String} {sats : ℕ} {dryRun : Bool}
    {P : State → Prop} (hsats : sats = credited chain.custody (chain.vouts txid))
    (hnew : ∀ s, P s → txid ∉ s.mintedTxids) (hw : P w.rest.state) :
    Keeps chain (mint txid destination (printed 8 (amountHuman 8 sats)) dryRun)
      (fun _ w => P w.rest.state) w := by
  refine safe_mint (stable_ofState P) ?_ ?_ hw
  · rintro rest hJ hrest p rfl hrecord
    exact hnew _ hrest (hJ _ hrecord)
  · rintro rest - - seq last
    rw [Vouches, mintValue, hsats]

theorem safe_saveState {dryRun : Bool} {state : State} {txid : Txid} {tx : Option (Payment Txid)}
    (hw : Behind state w.rest.state) :
    Keeps chain (saveUnlessDry dryRun (.saveState (state.minted txid tx)) rfl)
      (fun _ w => Behind (state.minted txid tx) w.rest.state) w := by
  have hgrown : ∀ {s}, Behind state s → Behind (state.minted txid tx) s := fun h =>
    ⟨h.1.minted txid tx, fun id hid => (State.mem_minted state txid tx).mpr (.inr (h.2 id hid))⟩
  cases dryRun with
  | true => exact safe_pure (hgrown hw)
  | false =>
    refine safe_bind (safe_op fun w' hmoved hI c _ => ?_)
    cases c
    case answered =>
      exact ⟨⟨hI.1, hw.1.minted txid tx⟩, safe_orRaise fun _ _ => ⟨hw.1.minted txid tx, fun _ h => h⟩⟩
    all_goals exact ⟨hI, safe_raise⟩

theorem safe_processAll {dryRun requireConfirmed : Bool} (items : Pending) (state : State)
    (resolved : List Txid) (hw : Behind state w.rest.state) :
    Keeps chain (processAll chain dryRun requireConfirmed items state resolved)
      (fun _ _ => True) w := by
  induction items generalizing state resolved w with
  | nil => exact safe_pure trivial
  | cons e rest ih =>
    obtain ⟨claimId, claim⟩ := e
    have hmoves : ∀ w w' : World Txid Around, Moves SameState w w' → Behind state w.rest.state →
        Behind state w'.rest.state :=
      fun w w' hmoved => stable_ofState (Behind state) w.rest w'.rest hmoved.2
    rw [processAll]
    split
    · exact ih _ _ hw
    split
    · exact ih _ _ hw
    rename_i hminted
    refine safe_bind (safe_mono (fun verified w₁ h₁ => ?_) (safe_verifyBtcDeposit hw))
    rcases verified with _ | ⟨sats, confirmed⟩
    · exact ih _ _ h₁.1
    dsimp only
    split
    · exact ih _ _ h₁.1
    refine safe_bind (safe_mono (fun exists' w₂ hw₂ => ?_) (safe_asks hmoves (fun _ _ => rfl) h₁.1))
    cases exists' with
    | false => exact ih _ _ hw₂
    | true =>
      refine safe_bind (safe_mono (fun trusted w₃ hw₃ => ?_) (safe_asks hmoves (fun _ _ => rfl) hw₂))
      cases trusted with
      | false => exact ih _ _ hw₃
      | true =>
        refine safe_bind (safe_mono (fun success w₄ hw₄ => ?_) (safe_mint_claim (h₁.2 _ rfl)
          (fun s h hmem => hminted (h.2 _ hmem)) hw₃))
        cases success with
        | none => exact ih _ _ hw₄
        | some tx => exact safe_bind (safe_mono (fun _ w₅ hw₅ => ih _ _ hw₅) (safe_saveState hw₄))

theorem safe_processClaims (args : Args) :
    Keeps chain (processClaims chain args.dryRun args.requireConfirmed) (fun _ _ => True) w := by
  have htrue : ∀ w w' : World Txid Around, Moves SameState w w' → True → True := fun _ _ _ h => h
  refine safe_bind (safe_mono (fun _ w₁ _ => ?_) (safe_asks htrue (fun _ _ => rfl) trivial))
  refine safe_bind (safe_orRaise fun pending _ => ?_)
  split
  · exact safe_pure trivial
  have hloaded : ∀ w : World Txid Around, Keeps chain (own Own.loadState)
      (fun (r : Option State) w => ∀ state, r = some state → Behind state w.rest.state) w := by
    intro w
    refine safe_ask htrue (fun _ _ => rfl) trivial fun w' hI _ c _ state hstate => ?_
    cases c
    case answered =>
      rw [← Option.some.inj hstate]
      exact ⟨hI.2, fun _ h => h⟩
    all_goals cases hstate
  refine safe_bind (safe_mono (fun r w₂ h₂ => ?_) (hloaded w₁))
  refine safe_bind (safe_orRaise fun state hstate => ?_)
  refine safe_bind (safe_mono (fun resolved w₃ _ => ?_) (safe_processAll _ _ _ (h₂ state hstate)))
  split
  · exact safe_pure trivial
  cases args.dryRun with
  | true => exact safe_pure trivial
  | false =>
    refine safe_bind (safe_op fun w' _ hI c _ => ?_)
    cases c
    case answered => exact ⟨hI, safe_orRaise fun _ _ => trivial⟩
    all_goals exact ⟨hI, safe_raise⟩

/-! ### Runs -/

theorem env_sound (w : World Txid Around) (e : Event)
    (hw : Sound (fun rest => rest.state.Recorded) (Vouches chain) w) :
    Sound (fun rest => rest.state.Recorded) (Vouches chain) (env w e) ∧
      Moves SameState w (env w e) := by
  have hrefl : Moves SameState w w := ⟨.refl _, rfl⟩
  cases e with
  | node e => exact ⟨⟨hw.1.event e, hw.2⟩, w.node.event_later e, rfl⟩
  | postLoad body =>
    simp only [env]
    split
    · split_ifs
      · exact ⟨hw, .refl _, rfl⟩
      · exact ⟨hw, .refl _, rfl⟩
    · exact ⟨hw, hrefl⟩
  | postSave =>
    simp only [env]
    split
    · exact ⟨hw, .refl _, rfl⟩
    · exact ⟨hw, hrefl⟩
  | serverStops => exact ⟨hw, .refl _, rfl⟩

/-- Before the first poll: nothing is claimed or minted. -/
def start (node : Node Txid) : World Txid Around :=
  ⟨{ node with pool := [], validated := [], failed := [] }, ⟨[], ⟨[], []⟩, none, []⟩⟩

theorem run_sound {node : Node Txid} {as : List (Act Fate Event Args)}
    (has : Run.Always (relay chain).step (Machine.Allowed (Informed OnRecord) fun _ _ => True)
      (start node, .ret ()) as) :
    Sound (fun rest => rest.state.Recorded) (Vouches chain)
      (Run.final (relay chain).step (start node, .ret ()) as).1 := by
  have hstart : Sound (fun rest => rest.state.Recorded) (Vouches chain) (start node) :=
    ⟨⟨List.nodup_nil, nofun, nofun, nofun, nofun⟩, nofun⟩
  exact Machine.invariant (fun h h' => ⟨h.1.trans h'.1, h'.2.trans h.2⟩) (fun w => ⟨.refl _, rfl⟩)
    (fun w e hw _ => env_sound w e hw) (fun w hw => hw) (fun args w _ => safe_processClaims args)
    hstart has

end FalconLedger.BtcRelay
