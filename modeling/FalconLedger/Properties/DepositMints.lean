import FalconLedger.Custody.DepositRelay
import FalconLedger.Properties.Mints

/-!
# The mints of the deposit relay

What the relay mints are deposits that the lock contract has logged (`Backs`), and what it has on
record it does not mint again.
-/

namespace FalconLedger.DepositRelay

open Program Minting

/-! ### The invariant -/

/-- A deposit into the lock, and the amount the relay takes it for. -/
def Backs (decimals : ℕ) (logs : List Log) (id destination : String) (human : ℚ) : Prop :=
  ∃ log ∈ logs, ∃ dep, decodeDepositLog log = some dep ∧ dep.depositId = id ∧
    dep.falconAccount = destination ∧ amountHuman decimals dep.amount = human

/-- What is on record as a mint is also among the ids, and what is queued is a deposit. -/
structure State.Kept (decimals : ℕ) (logs : List Log) (s : State) : Prop where
  recorded : ∀ e ∈ s.mints, e.1 ∈ s.mintedDeposits
  backed : ∀ e ∈ s.pendingDeposits, Backs decimals logs e.1 e.2.falconAccount e.2.amountHuman

def Around.Kept (decimals : ℕ) (w : Around) : Prop :=
  w.memory.Kept decimals w.logs ∧ w.file.Kept decimals w.logs

/-- The other chain grows. -/
structure Around.Grows (w w' : Around) : Prop where
  memory : w'.memory = w.memory
  file : w'.file = w.file
  head : w.head ≤ w'.head
  logs : w.logs ⊆ w'.logs

/-- A Payment has the amount and the destination of a deposit. -/
def Vouches (decimals : ℕ) (w : Around) (p : Payment String) : Prop :=
  ∃ human, Backs decimals w.logs p.key p.destination human ∧ p.value = amountStr decimals human

def OnRecord (w : Around) (p : Payment String) : Prop := (p.key, some p) ∈ w.memory.mints

variable {decimals : ℕ} {logs logs' : List Log} {s : State} {w : World String Around}

theorem Backs.mono {id destination : String} {human : ℚ} (h : Backs decimals logs id destination human)
    (hlogs : logs ⊆ logs') : Backs decimals logs' id destination human := by
  obtain ⟨log, hlog, hdep⟩ := h
  exact ⟨log, hlogs hlog, hdep⟩

theorem State.Kept.mono (h : s.Kept decimals logs) (hlogs : logs ⊆ logs') : s.Kept decimals logs' :=
  ⟨h.recorded, fun e he => (h.backed e he).mono hlogs⟩

theorem State.empty_kept : State.empty.Kept decimals logs := ⟨nofun, nofun⟩

theorem State.mem_minted (s : State) (id : String) (tx : Option (Payment String)) {id' : String} :
    id' ∈ (s.minted id tx).mintedDeposits ↔ id' = id ∨ id' ∈ s.mintedDeposits := by
  simp only [State.minted]
  split_ifs with hmem
  · exact ⟨.inr, fun h => h.elim (fun heq => heq ▸ hmem) fun h => h⟩
  · rw [List.mem_append, List.mem_singleton, or_comm]

theorem State.Kept.minted (h : s.Kept decimals logs) (id : String) (tx : Option (Payment String)) :
    (s.minted id tx).Kept decimals logs where
  recorded e he := by
    rw [State.mem_minted]
    rcases List.mem_append.mp he with he | he
    · exact .inr (h.recorded e he)
    · exact .inl (congrArg Prod.fst (List.mem_singleton.mp he))
  backed := h.backed

theorem State.Kept.popPending (h : s.Kept decimals logs) (ids : List String) :
    (s.popPending ids).Kept decimals logs :=
  ⟨h.recorded, fun e he => h.backed e (List.mem_of_mem_filter he)⟩

theorem State.Kept.queuePending (h : s.Kept decimals logs) {log : Log} (hlog : log ∈ logs)
    {dep : Deposit} (hdep : decodeDepositLog log = some dep) :
    (s.queuePending decimals dep).Kept decimals logs := by
  rw [State.queuePending]
  split_ifs
  · exact h
  · refine ⟨h.recorded, fun e he => ?_⟩
    rcases List.mem_append.mp he with he | he
    · exact h.backed e he
    · rw [List.mem_singleton.mp he]
      exact ⟨log, hlog, dep, hdep, rfl, rfl, rfl⟩

theorem Around.Grows.refl (w : Around) : w.Grows w := ⟨rfl, rfl, le_rfl, List.Subset.refl _⟩

theorem Around.Grows.trans {w w' w'' : Around} (h : w.Grows w') (h' : w'.Grows w'') : w.Grows w'' :=
  ⟨h'.memory.trans h.memory, h'.file.trans h.file, h.head.trans h'.head,
    List.Subset.trans h.logs h'.logs⟩

/-! ### Calls -/

/-- Safety for the invariant of the relay. -/
abbrev Keeps {α : Type} (decimals : ℕ) (m : Poll α) (Q : α → World String Around → Prop)
    (w : World String Around) : Prop :=
  Safe (exec execOwn) (Sound (Around.Kept decimals) (Vouches decimals)) (Moves Around.Grows)
    (Informed OnRecord) m Q w

variable {P : Around → Prop}

/-- What the surroundings do not undo. -/
def Stable (P : Around → Prop) : Prop := ∀ rest rest', Around.Grows rest rest' → P rest → P rest'

theorem Stable.moves (hP : Stable P) :
    ∀ w w' : World String Around, Moves Around.Grows w w' → P w.rest → P w'.rest :=
  fun _ _ hmoved => hP _ _ hmoved.2

theorem safe_getState (hP : Stable P) (hw : P w.rest) :
    Keeps decimals getState (fun s w => P w.rest ∧ w.rest.memory = s) w :=
  safe_ask hP.moves (fun _ _ => rfl) hw fun _ _ hP' _ _ => ⟨hP', rfl⟩

theorem safe_modifyState {f : State → State} (hP : Stable P) (hw : P w.rest)
    (hkept : ∀ rest : Around, rest.Kept decimals → P rest → (f rest.memory).Kept decimals rest.logs)
    (h : ∀ rest : Around, P rest → P { rest with memory := f rest.memory }) :
    Keeps decimals (modifyState f) (fun _ w => P w.rest) w := by
  refine safe_bind (safe_mono (fun s w₁ h₁ => ?_) (safe_getState hP hw))
  refine safe_op fun w₂ hmoved hI _ _ => ?_
  obtain ⟨hw₁, rfl⟩ := h₁
  have hw₂ : P w₂.rest := hP _ _ hmoved.2 hw₁
  rw [← hmoved.2.memory]
  exact ⟨⟨hI.1, hkept _ hI.2 hw₂, hI.2.2⟩, h _ hw₂⟩

theorem safe_saveUnlessDry {dryRun : Bool} (hP : Stable P) (hw : P w.rest)
    (hsave : ∀ rest : Around, P rest → P { rest with file := rest.memory }) :
    Keeps decimals (saveUnlessDry dryRun) (fun _ w => P w.rest) w := by
  cases dryRun with
  | true => exact safe_pure hw
  | false =>
    refine safe_bind (safe_op fun w' hmoved hI c _ => ?_)
    have hw' : P w'.rest := hP _ _ hmoved.2 hw
    have hsaved : P { w'.rest with file := w'.rest.memory } := hsave _ hw'
    cases c
    case answered => exact ⟨⟨hI.1, hI.2.1, hI.2.1⟩, safe_orRaise fun _ _ => hsaved⟩
    all_goals exact ⟨hI, safe_raise⟩

theorem safe_blockNumber (hP : Stable P) (hw : P w.rest) :
    Keeps decimals blockNumber (fun _ w => P w.rest) w :=
  safe_bind (safe_ask hP.moves (fun _ _ => rfl) hw fun _ _ hP' _ _ => safe_orRaise fun _ _ => hP')

theorem safe_accountExists {address : String} (hP : Stable P) (hw : P w.rest) :
    Keeps decimals (accountExists address) (fun _ w => P w.rest) w :=
  safe_asks hP.moves (fun _ _ => rfl) hw

theorem safe_hasTrustLine {address : String} (hP : Stable P) (hw : P w.rest) :
    Keeps decimals (hasTrustLine address) (fun _ w => P w.rest) w :=
  safe_asks hP.moves (fun _ _ => rfl) hw

theorem safe_getLogs {fromBlock toBlock : ℕ} (hP : Stable P) (hw : P w.rest) :
    Keeps decimals (own (Own.getLogs fromBlock toBlock)) (fun (r : Option (List Log)) w =>
      P w.rest ∧ ∀ logs, r = some logs → logs ⊆ w.rest.logs) w := by
  refine safe_ask hP.moves (fun _ _ => rfl) hw fun w' _ hP' c _ => ⟨hP', fun logs hlogs => ?_⟩
  cases c
  case answered =>
    rw [← Option.some.inj hlogs]
    exact List.filter_subset_self _
  all_goals cases hlogs

/-! ### Polls -/

/-- What is left of the queue when it is worked through. -/
def AllBacked (decimals : ℕ) (items : List (String × Pending)) (rest : Around) : Prop :=
  ∀ e ∈ items, Backs decimals rest.logs e.1 e.2.falconAccount e.2.amountHuman

theorem stable_allBacked (items : List (String × Pending)) : Stable (AllBacked decimals items) :=
  fun _ _ hgrows h e he => (h e he).mono hgrows.logs

theorem stable_logs (logs : List Log) : Stable fun rest => logs ⊆ rest.logs :=
  fun _ _ hgrows h => List.Subset.trans h hgrows.logs

theorem stable_fresh (id : String) : Stable fun rest => id ∉ rest.memory.mintedDeposits := by
  intro rest rest' hgrows h
  rw [hgrows.memory]
  exact h

theorem Stable.and {P' : Around → Prop} (hP : Stable P) (hP' : Stable P') :
    Stable fun rest => P rest ∧ P' rest :=
  fun _ _ hgrows h => ⟨hP _ _ hgrows h.1, hP' _ _ hgrows h.2⟩

theorem safe_mint_deposit {id destination : String} {human : ℚ} {dryRun : Bool} (hP : Stable P)
    (hbacks : ∀ rest, P rest → Backs decimals rest.logs id destination human)
    (hfresh : id ∉ w.rest.memory.mintedDeposits) (hw : P w.rest) :
    Keeps decimals (mint id destination (amountStr decimals human) dryRun) (fun _ w => P w.rest) w := by
  have hstable := hP.and (stable_fresh id)
  refine safe_mono (fun _ _ h => h.1) (safe_mint hstable ?_ ?_ (show _ ∧ _ from ⟨hw, hfresh⟩))
  · rintro rest hJ ⟨-, hid⟩ p rfl hrecord
    exact hid (hJ.1.recorded _ hrecord)
  · rintro rest - ⟨hrest, -⟩ seq last
    exact ⟨human, hbacks rest hrest, rfl⟩

theorem safe_retryAll {dryRun : Bool} (items : List (String × Pending)) (resolved : List String)
    (hw : AllBacked decimals items w.rest) :
    Keeps decimals (retryAll decimals dryRun items resolved) (fun _ _ => True) w := by
  induction items generalizing resolved w with
  | nil => exact safe_pure trivial
  | cons e rest ih =>
    obtain ⟨id, dep⟩ := e
    have hstable : Stable (AllBacked decimals ((id, dep) :: rest)) := stable_allBacked _
    have hnext : ∀ {w : World String Around}, AllBacked decimals ((id, dep) :: rest) w.rest →
        ∀ resolved, Keeps decimals (retryAll decimals dryRun rest resolved) (fun _ _ => True) w :=
      fun h resolved => ih resolved fun e he => h e (List.mem_cons_of_mem _ he)
    refine safe_bind (safe_mono (fun state w₁ h₁ => ?_) (safe_getState hstable hw))
    obtain ⟨hw₁, rfl⟩ := h₁
    split_ifs with hminted
    · exact hnext hw₁ _
    have hboth := hstable.and (stable_fresh id)
    refine safe_bind (safe_mono (fun exists' w₂ h₂ => ?_)
      (safe_accountExists hboth (show _ ∧ _ from ⟨hw₁, hminted⟩)))
    cases exists' with
    | false => exact hnext h₂.1 _
    | true =>
      refine safe_bind (safe_mono (fun trusted w₃ h₃ => ?_) (safe_hasTrustLine hboth h₂))
      cases trusted with
      | false => exact hnext h₃.1 _
      | true =>
        refine safe_bind (safe_mono (fun success w₄ hw₄ => ?_)
          (safe_mint_deposit hstable (fun _ h => h _ List.mem_cons_self) h₃.2 h₃.1))
        cases success with
        | none => exact hnext hw₄ _
        | some tx =>
          refine safe_bind (safe_mono (fun _ w₅ hw₅ => ?_) (safe_modifyState hstable hw₄
            (fun _ hkept _ => hkept.1.minted id tx) (fun _ h => h)))
          refine safe_bind (safe_mono (fun _ w₆ hw₆ => ?_)
            (safe_saveUnlessDry hstable hw₅ fun _ h => h))
          exact hnext hw₆ _

theorem stable_true : Stable fun _ => True := fun _ _ _ _ => trivial

theorem safe_retryPending {dryRun : Bool} :
    Keeps decimals (retryPending decimals dryRun) (fun _ _ => True) w := by
  have hstart : Keeps decimals getState
      (fun s w => AllBacked decimals s.pendingDeposits w.rest) w :=
    safe_ask stable_true.moves (fun _ _ => rfl) trivial fun _ hI _ _ _ => hI.2.1.backed
  refine safe_bind (safe_mono (fun state w₁ hw₁ => ?_) hstart)
  refine safe_bind (safe_mono (fun resolved w₂ _ => ?_) (safe_retryAll _ _ hw₁))
  refine safe_bind (safe_mono (fun _ w₃ _ => ?_) (safe_modifyState stable_true trivial
    (fun _ hkept _ => hkept.1.popPending resolved) (fun _ h => h)))
  split_ifs
  · exact safe_pure trivial
  · exact safe_saveUnlessDry stable_true trivial fun _ h => h

theorem safe_processLogs {dryRun : Bool} (items : List Log) (hw : items ⊆ w.rest.logs) :
    Keeps decimals (processLogs decimals dryRun items) (fun _ _ => True) w := by
  induction items generalizing w with
  | nil => exact safe_pure trivial
  | cons raw rest ih =>
    have hstable := stable_logs (raw :: rest)
    have hnext : ∀ {w : World String Around}, raw :: rest ⊆ w.rest.logs →
        Keeps decimals (processLogs decimals dryRun rest) (fun _ _ => True) w :=
      fun h => ih fun l hl => h (List.mem_cons_of_mem _ hl)
    rw [processLogs]
    cases hdep : decodeDepositLog raw with
    | none => exact hnext hw
    | some dep =>
      have hqueue : ∀ {w : World String Around}, raw :: rest ⊆ w.rest.logs →
          Keeps decimals (do
            modifyState fun state => state.queuePending decimals dep
            processLogs decimals dryRun rest) (fun _ _ => True) w := by
        intro w hw
        refine safe_bind (safe_mono (fun _ w₁ hw₁ => hnext hw₁) (safe_modifyState hstable hw
          (fun _ hkept h => hkept.1.queuePending (h List.mem_cons_self) hdep) (fun _ h => h)))
      refine safe_bind (safe_mono (fun state w₁ h₁ => ?_) (safe_getState hstable hw))
      obtain ⟨hw₁, rfl⟩ := h₁
      split_ifs with hminted
      · exact hnext hw₁
      have hboth := hstable.and (stable_fresh dep.depositId)
      refine safe_bind (safe_mono (fun exists' w₂ h₂ => ?_)
        (safe_accountExists hboth (show _ ∧ _ from ⟨hw₁, hminted⟩)))
      cases exists' with
      | false => exact hqueue h₂.1
      | true =>
        refine safe_bind (safe_mono (fun trusted w₃ h₃ => ?_) (safe_hasTrustLine hboth h₂))
        cases trusted with
        | false => exact hqueue h₃.1
        | true =>
          refine safe_bind (safe_mono (fun success w₄ hw₄ => ?_) (safe_mint_deposit hstable
            (fun _ h => ⟨raw, h List.mem_cons_self, dep, hdep, rfl, rfl, rfl⟩) h₃.2 h₃.1))
          cases success with
          | none => exact hnext hw₄
          | some tx =>
            refine safe_bind (safe_mono (fun _ w₅ hw₅ => ?_) (safe_modifyState hstable hw₄
              (fun _ hkept _ => (hkept.1.popPending _).minted dep.depositId tx) (fun _ h => h)))
            refine safe_bind (safe_mono (fun _ w₆ hw₆ => ?_)
              (safe_saveUnlessDry hstable hw₅ fun _ h => h))
            exact hnext hw₆

theorem safe_processDeposits {dryRun : Bool} {fromBlock toBlock : ℕ} :
    Keeps decimals (processDeposits decimals dryRun fromBlock toBlock) (fun _ _ => True) w := by
  refine safe_bind (safe_mono (fun r w₁ h₁ => ?_) (safe_getLogs stable_true trivial))
  refine safe_bind (safe_orRaise fun logs hlogs => ?_)
  refine safe_bind (safe_mono (fun _ w₂ _ => ?_) (safe_processLogs logs (h₁.2 logs hlogs)))
  refine safe_bind (safe_mono (fun _ w₃ _ => ?_) (safe_modifyState stable_true trivial
    (fun _ hkept _ => ⟨hkept.1.recorded, hkept.1.backed⟩) (fun _ h => h)))
  exact safe_saveUnlessDry stable_true trivial fun _ h => h

theorem safe_scan {dryRun : Bool} (pieces : List (ℕ × ℕ)) :
    Keeps decimals (scan decimals dryRun pieces) (fun _ _ => True) w := by
  induction pieces generalizing w with
  | nil => exact safe_pure trivial
  | cons piece rest ih =>
    exact safe_bind (safe_mono (fun _ _ _ => ih) safe_processDeposits)

theorem safe_firstBlock {argsFromBlock : ℕ} :
    Keeps decimals (firstBlock argsFromBlock) (fun _ _ => True) w := by
  refine safe_bind (safe_mono (fun state w₁ _ => ?_) (safe_getState stable_true trivial))
  split
  · exact safe_pure trivial
  split
  · exact safe_pure trivial
  · split
    · exact safe_pure trivial
    · refine safe_bind (safe_mono (fun head w₂ _ => ?_) (safe_blockNumber stable_true trivial))
      exact safe_bind (safe_mono (fun _ _ _ => safe_pure trivial) (safe_modifyState stable_true
        trivial (fun _ hkept _ => ⟨hkept.1.recorded, hkept.1.backed⟩) (fun _ h => h)))

theorem safe_pollOnce (args : Args) :
    Keeps decimals (pollOnce decimals args) (fun _ _ => True) w := by
  refine safe_bind (safe_mono (fun fb w₁ _ => ?_) safe_firstBlock)
  refine safe_bind (safe_mono (fun head w₂ _ => ?_) (safe_blockNumber stable_true trivial))
  refine safe_bind (safe_mono (fun _ w₃ _ => ?_) safe_retryPending)
  split_ifs
  · exact safe_pure trivial
  · exact safe_scan _

/-! ### Runs -/

theorem env_sound (w : World String Around) (e : Event)
    (hw : Sound (Around.Kept decimals) (Vouches decimals) w) :
    Sound (Around.Kept decimals) (Vouches decimals) (env w e) ∧ Moves Around.Grows w (env w e) := by
  cases e with
  | node e => exact ⟨⟨hw.1.event e, hw.2⟩, w.node.event_later e, .refl _⟩
  | block logs =>
    simp only [env]
    split_ifs
    · have hlogs : w.rest.logs ⊆ w.rest.logs ++ logs := List.subset_append_left _ _
      refine ⟨⟨hw.1.vouch fun p hp => ?_, hw.2.1.mono hlogs, hw.2.2.mono hlogs⟩, .refl _, rfl, rfl,
        Nat.le_succ _, hlogs⟩
      obtain ⟨human, hbacks, hvalue⟩ := hp
      exact ⟨human, hbacks.mono hlogs, hvalue⟩
    · exact ⟨hw, .refl _, .refl _⟩

/-- Before the first poll, with any chain. -/
def start (node : Node String) (head : ℕ) (logs : List Log) : World String Around :=
  ⟨{ node with pool := [], validated := [], failed := [] }, ⟨head, logs, .empty, .empty⟩⟩

theorem run_sound {node : Node String} {head : ℕ} {as : List (Act Fate Event Args)}
    (has : Run.Always (relay decimals).step (Machine.Allowed (Informed OnRecord) fun _ _ => True)
      (start node head logs, .ret ()) as) :
    Sound (Around.Kept decimals) (Vouches decimals)
      (Run.final (relay decimals).step (start node head logs, .ret ()) as).1 := by
  have hstart : Sound (Around.Kept decimals) (Vouches decimals) (start node head logs) :=
    ⟨⟨List.nodup_nil, nofun, nofun, nofun, nofun⟩, State.empty_kept, State.empty_kept⟩
  exact Machine.invariant (fun h h' => ⟨h.1.trans h'.1, h.2.trans h'.2⟩)
    (fun w => ⟨.refl _, .refl _⟩) (fun w e hw _ => env_sound w e hw)
    (fun w hw => ⟨hw.1, hw.2.2, hw.2.2⟩) (fun args w _ => safe_pollOnce args) hstart has

end FalconLedger.DepositRelay
