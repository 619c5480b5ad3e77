import FalconLedger.Custody.DepositRelay
import FalconLedger.Properties.Mints

/-!
# What the deposit relay has in its records

Each deposit up to the last block is minted or queued, as long as no mint of a deposit that is not queued
fails (`run_covered`): such a deposit is passed over, and not looked at again.
-/

namespace FalconLedger.DepositRelay

open Program Minting

/-! ### The invariant -/

/-- A deposit is minted or queued. -/
def State.Handles (s : State) (id : String) : Prop := id ∈ s.mintedDeposits ∨ id ∈ s.pendingIds

/-- Each deposit in a block up to the last one is minted or queued. -/
def State.Covers (s : State) (logs : List Log) : Prop :=
  ∀ last, s.lastBlock = some last → ∀ log ∈ logs, log.blockNumber ≤ last →
    ∀ dep, decodeDepositLog log = some dep → s.Handles dep.depositId

/-- The last block is one of the chain. -/
def State.Within (s : State) (head : ℕ) : Prop := ∀ last, s.lastBlock = some last → last ≤ head

structure Around.Covered (w : Around) : Prop where
  memory : w.memory.Covers w.logs
  file : w.file.Covers w.logs
  memory_within : w.memory.Within w.head
  file_within : w.file.Within w.head

/-- The other chain grows, by blocks above its head. -/
structure Around.Extends (w w' : Around) : Prop where
  memory : w'.memory = w.memory
  file : w'.file = w.file
  head : w.head ≤ w'.head
  logs : ∀ l ∈ w'.logs, l ∈ w.logs ∨ w.head < l.blockNumber

/-- The first blocks the relay looks at are not preceded by deposits it does not know of, and no mint fails
of a deposit that is not queued. -/
def Careful : Op String Own → World String Around → Fate → Prop
  | .own (.getLogs fromBlock _), w, _ =>
    w.rest.memory.lastBlock.getD 0 = 0 → ∀ log ∈ w.rest.logs, log.blockNumber < fromBlock →
      ∀ dep, decodeDepositLog log = some dep → w.rest.memory.Handles dep.depositId
  | o, w, c => ∀ tx, o.payment = some tx → tx.key ∈ w.rest.memory.pendingIds ∨
      ¬o.Fails (exec execOwn o w c).2

instance (s : State) (id : String) : Decidable (s.Handles id) :=
  inferInstanceAs (Decidable (id ∈ s.mintedDeposits ∨ id ∈ s.pendingIds))

instance Careful.decidable (o : Op String Own) (w : World String Around) (c : Fate) :
    Decidable (Careful o w c) :=
  match o with
  | .own (.getLogs fromBlock _) =>
    inferInstanceAs (Decidable (w.rest.memory.lastBlock.getD 0 = 0 → ∀ log ∈ w.rest.logs,
      log.blockNumber < fromBlock → ∀ dep ∈ decodeDepositLog log,
        w.rest.memory.Handles dep.depositId))
  | .sign tx => inferInstanceAs (Decidable (∀ p ∈ (Op.sign (F := Own) tx).payment,
      p.key ∈ w.rest.memory.pendingIds ∨ ¬Op.Fails (.sign tx) (exec execOwn (.sign tx) w c).2))
  | .submit tx => inferInstanceAs (Decidable (∀ p ∈ (Op.submit (F := Own) tx).payment,
      p.key ∈ w.rest.memory.pendingIds ∨ ¬Op.Fails (.submit tx) (exec execOwn (.submit tx) w c).2))
  | .tx tx left => inferInstanceAs (Decidable (∀ p ∈ (Op.tx (F := Own) tx left).payment,
      p.key ∈ w.rest.memory.pendingIds ∨ ¬Op.Fails (.tx tx left) (exec execOwn (.tx tx left) w c).2))
  | .accountExists _ | .hasTrustLine _ | .accountInfo _ | .serverInfo | .own .blockNumber
  | .own .getState | .own (.setState _) | .own .saveState => .isTrue nofun

variable {decimals : ℕ} {logs : List Log} {s s' : State} {w : World String Around}

theorem Around.Extends.refl (w : Around) : w.Extends w := ⟨rfl, rfl, le_rfl, fun _ h => .inl h⟩

theorem Around.Extends.trans {w w' w'' : Around} (h : w.Extends w') (h' : w'.Extends w'') :
    w.Extends w'' where
  memory := h'.memory.trans h.memory
  file := h'.file.trans h.file
  head := h.head.trans h'.head
  logs l hl := by
    rcases h'.logs l hl with hl | hlt
    · exact h.logs l hl
    · exact .inr (h.head.trans_lt hlt)

/-- A state that handles at least as much. -/
structure State.Keeps (s s' : State) : Prop where
  handles : ∀ id, s.Handles id → s'.Handles id
  lastBlock : s'.lastBlock = s.lastBlock

theorem State.Keeps.covers (h : s.Keeps s') (hs : s.Covers logs) : s'.Covers logs :=
  fun last hlast log hlog hle dep hdep =>
    h.handles _ (hs last (h.lastBlock ▸ hlast) log hlog hle dep hdep)

theorem State.Keeps.within {head : ℕ} (h : s.Keeps s') (hs : s.Within head) : s'.Within head :=
  fun last hlast => hs last (h.lastBlock ▸ hlast)

theorem State.mem_pendingIds_popPending {ids : List String} {id : String} :
    id ∈ (s.popPending ids).pendingIds ↔ id ∈ s.pendingIds ∧ id ∉ ids := by
  simp only [State.pendingIds, State.popPending, List.mem_map, List.mem_filter, decide_eq_true_eq]
  constructor
  · rintro ⟨e, ⟨he, hid⟩, rfl⟩
    exact ⟨⟨e, he, rfl⟩, hid⟩
  · rintro ⟨⟨e, he, rfl⟩, hid⟩
    exact ⟨e, ⟨he, hid⟩, rfl⟩

theorem State.keeps_popPending {ids : List String} (h : ∀ id ∈ ids, id ∈ s.mintedDeposits) :
    s.Keeps (s.popPending ids) where
  handles id hid := by
    by_cases hmem : id ∈ ids
    · exact .inl (h id hmem)
    · exact hid.imp_right fun hp => State.mem_pendingIds_popPending.mpr ⟨hp, hmem⟩
  lastBlock := rfl

theorem State.mem_mintedDeposits (s : State) (id : String) (tx : Option (Payment String))
    {id' : String} : id' ∈ (s.minted id tx).mintedDeposits ↔ id' ∈ s.mintedDeposits ∨ id' = id := by
  simp only [State.minted]
  split_ifs with hmem
  · exact ⟨.inl, fun h => h.elim (fun h => h) fun heq => heq ▸ hmem⟩
  · rw [List.mem_append, List.mem_singleton]

theorem State.keeps_minted (id : String) (tx : Option (Payment String)) : s.Keeps (s.minted id tx) where
  handles _ hid := hid.imp_left fun hm => (s.mem_mintedDeposits id tx).mpr (.inl hm)
  lastBlock := rfl

theorem State.minted_handles (id : String) (tx : Option (Payment String)) :
    (s.minted id tx).Handles id := .inl ((s.mem_mintedDeposits id tx).mpr (.inr rfl))

theorem State.keeps_queuePending (dep : Deposit) : s.Keeps (s.queuePending decimals dep) := by
  rw [State.queuePending]
  split_ifs
  · exact ⟨fun _ h => h, rfl⟩
  · refine ⟨fun id hid => hid.imp_right fun hp => ?_, rfl⟩
    rw [State.pendingIds, List.map_append]
    exact List.mem_append_left _ hp

theorem State.queuePending_handles (dep : Deposit) :
    (s.queuePending decimals dep).Handles dep.depositId := by
  rw [State.queuePending]
  split_ifs with hmem
  · exact .inr hmem
  · refine .inr ?_
    rw [State.pendingIds, List.map_append]
    exact List.mem_append_right _ List.mem_cons_self

theorem State.keeps_pop_minted (id : String) (tx : Option (Payment String)) :
    s.Keeps ((s.popPending [id]).minted id tx) where
  handles id' hid := by
    by_cases heq : id' = id
    · rw [heq]
      exact State.minted_handles id tx
    · refine (State.keeps_minted id tx).handles id' (hid.imp_right fun hp => ?_)
      exact State.mem_pendingIds_popPending.mpr ⟨hp, fun hmem => heq (List.mem_singleton.mp hmem)⟩
  lastBlock := rfl

/-! ### Calls -/

/-- Safety for what is covered. -/
abbrev Covering {α : Type} (m : Poll α) (Q : α → World String Around → Prop)
    (w : World String Around) : Prop :=
  Safe (exec execOwn) (fun w => w.rest.Covered) (fun w w' => w.rest.Extends w'.rest) Careful m Q w

variable {P : Around → Prop} (P' : Around → Prop)

/-- What the surroundings do not undo. -/
def Lasting (P : Around → Prop) : Prop := ∀ rest rest', Around.Extends rest rest' → P rest → P rest'

theorem Lasting.and {P' : Around → Prop} (hP : Lasting P) (hP' : Lasting P') : Lasting fun rest => P rest ∧ P' rest :=
  fun _ _ hmoved h => ⟨hP _ _ hmoved h.1, hP' _ _ hmoved h.2⟩

theorem lasting_memory (Q : State → Prop) : Lasting fun rest => Q rest.memory := by
  intro rest rest' hmoved h
  rw [hmoved.memory]
  exact h

theorem lasting_head (head : ℕ) : Lasting fun rest => head ≤ rest.head :=
  fun _ _ hmoved h => h.trans hmoved.head

theorem covering_getState (hP : Lasting P) (hw : P w.rest) :
    Covering getState (fun s w => P w.rest ∧ w.rest.memory = s) w :=
  safe_op fun _ hmoved hI _ _ => ⟨hI, hP _ _ hmoved hw, rfl⟩

theorem covering_modifyState {f : State → State} (hP : Lasting P) (hw : P w.rest)
    (h : ∀ rest : Around, rest.Covered → P rest →
      ((f rest.memory).Covers rest.logs ∧ (f rest.memory).Within rest.head) ∧
        P' { rest with memory := f rest.memory }) :
    Covering (modifyState f) (fun _ w => P' w.rest) w := by
  refine safe_bind (safe_mono (fun s w₁ h₁ => ?_) (covering_getState hP hw))
  refine safe_op fun w₂ hmoved hI _ _ => ?_
  obtain ⟨hw₁, rfl⟩ := h₁
  rw [← hmoved.memory]
  obtain ⟨⟨hcovers, hwithin⟩, hP'⟩ := h w₂.rest hI (hP _ _ hmoved hw₁)
  exact ⟨⟨hcovers, hI.file, hwithin, hI.file_within⟩, hP'⟩

theorem covering_keeps {f : State → State} (hP : Lasting P) (hw : P w.rest)
    (hf : ∀ rest : Around, P rest → rest.memory.Keeps (f rest.memory))
    (h : ∀ rest : Around, P rest → P' { rest with memory := f rest.memory }) :
    Covering (modifyState f) (fun _ w => P' w.rest) w :=
  covering_modifyState P' hP hw fun rest hI hrest => ⟨⟨(hf rest hrest).covers hI.memory,
    (hf rest hrest).within hI.memory_within⟩, h rest hrest⟩

theorem covering_saveUnlessDry {dryRun : Bool} (hP : Lasting P) (hw : P w.rest)
    (hsave : ∀ rest : Around, P rest → P { rest with file := rest.memory }) :
    Covering (saveUnlessDry dryRun) (fun _ w => P w.rest) w := by
  cases dryRun with
  | true => exact safe_pure hw
  | false =>
    refine safe_bind (safe_op fun w' hmoved hI c _ => ?_)
    have hsaved : P { w'.rest with file := w'.rest.memory } := hsave _ (hP _ _ hmoved hw)
    cases c
    case answered =>
      exact ⟨⟨hI.memory, hI.memory, hI.memory_within, hI.memory_within⟩,
        safe_orRaise fun _ _ => hsaved⟩
    all_goals exact ⟨hI, safe_raise⟩

theorem covering_accountExists {address : String} (hP : Lasting P) (hw : P w.rest) :
    Covering (accountExists address) (fun _ w => P w.rest) w :=
  safe_node_info hP (fun _ _ => rfl) hw

theorem covering_hasTrustLine {address : String} (hP : Lasting P) (hw : P w.rest) :
    Covering (hasTrustLine address) (fun _ w => P w.rest) w :=
  safe_node_info hP (fun _ _ => rfl) hw

theorem covering_blockNumber (hP : Lasting P) (hw : P w.rest) :
    Covering blockNumber (fun head w => P w.rest ∧ head ≤ w.rest.head) w := by
  refine safe_bind (safe_op fun w' hmoved hI c _ => ?_)
  cases c
  case answered =>
    refine ⟨hI, safe_orRaise fun head hhead => ⟨hP _ _ hmoved hw, ?_⟩⟩
    exact (Option.some.inj hhead).ge
  all_goals exact ⟨hI, safe_raise⟩

theorem covering_mint {id destination : String} {value : ℚ} {dryRun : Bool} (hP : Lasting P)
    (hw : P w.rest) (m : State) (hm : w.rest.memory = m) :
    Covering (mint id destination value dryRun)
      (fun r w => (P w.rest ∧ w.rest.memory = m) ∧ (r = none → id ∈ m.pendingIds)) w := by
  have hstable := hP.and (lasting_memory (· = m))
  refine safe_mono (fun r w h => ⟨h.1, fun hr => ?_⟩)
    (safe_mint_ok (id ∉ m.pendingIds) hstable ?_ (show _ ∧ _ from ⟨hw, hm⟩))
  · by_contra hpending
    exact h.2 hpending hr
  · intro hpending o w c hpre hrest tx ho hkey
    have hallowed : tx.key ∈ w.rest.memory.pendingIds ∨ ¬o.Fails (exec execOwn o w c).2 := by
      cases o
      case sign p => exact hpre tx ho
      case submit p => exact hpre tx ho
      case tx p left => exact hpre tx ho
      all_goals cases ho
    rw [hkey, hrest.2] at hallowed
    exact hallowed.resolve_left hpending

/-! ### The queue -/

theorem covering_retryAll {dryRun : Bool} (items : List (String × Pending)) (resolved : List String)
    (hP : Lasting P) (hmemory : ∀ rest m, P rest → rest.memory.Keeps m → P { rest with memory := m })
    (hsave : ∀ rest : Around, P rest → P { rest with file := rest.memory })
    (hw : P w.rest) (hresolved : ∀ id ∈ resolved, id ∈ w.rest.memory.mintedDeposits) :
    Covering (retryAll decimals dryRun items resolved) (fun resolved w =>
      P w.rest ∧ ∀ id ∈ resolved, id ∈ w.rest.memory.mintedDeposits) w := by
  induction items generalizing resolved w with
  | nil => exact safe_pure ⟨hw, hresolved⟩
  | cons e items ih =>
    obtain ⟨id, dep⟩ := e
    have hboth := hP.and (lasting_memory fun m => ∀ id ∈ resolved, id ∈ m.mintedDeposits)
    refine safe_bind (safe_mono (fun state w₁ h₁ => ?_)
      (covering_getState hboth (show _ ∧ _ from ⟨hw, hresolved⟩)))
    obtain ⟨h₁, rfl⟩ := h₁
    split_ifs with hminted
    · refine ih _ h₁.1 fun id' hid' => ?_
      rcases List.mem_append.mp hid' with hid' | hid'
      · exact h₁.2 id' hid'
      · rw [List.mem_singleton.mp hid']
        exact hminted
    refine safe_bind (safe_mono (fun exists' w₂ h₂ => ?_) (covering_accountExists hboth h₁))
    cases exists' with
    | false => exact ih _ h₂.1 h₂.2
    | true =>
      refine safe_bind (safe_mono (fun trusted w₃ h₃ => ?_) (covering_hasTrustLine hboth h₂))
      cases trusted with
      | false => exact ih _ h₃.1 h₃.2
      | true =>
        refine safe_bind (safe_mono (fun success w₄ h₄ => ?_) (covering_mint hboth h₃ _ rfl))
        cases success with
        | none => exact ih _ h₄.1.1.1 h₄.1.1.2
        | some tx =>
          have hmore := hP.and (lasting_memory fun m => ∀ id' ∈ resolved ++ [id], id' ∈ m.mintedDeposits)
          refine safe_bind (safe_mono (fun _ w₅ h₅ => ?_) (covering_keeps (fun rest =>
              P rest ∧ ∀ id' ∈ resolved ++ [id], id' ∈ rest.memory.mintedDeposits) hboth h₄.1.1
            (fun _ _ => State.keeps_minted id tx) fun rest h => ?_))
          · exact safe_bind (safe_mono (fun _ w₆ h₆ => ih _ h₆.1 h₆.2)
              (covering_saveUnlessDry hmore h₅ fun _ h => ⟨hsave _ h.1, h.2⟩))
          · refine ⟨hmemory rest _ h.1 (State.keeps_minted id tx), fun id' hid' => ?_⟩
            refine (State.mem_mintedDeposits _ id tx).mpr ?_
            rcases List.mem_append.mp hid' with hid' | hid'
            · exact .inl (h.2 id' hid')
            · exact .inr (List.mem_singleton.mp hid')

theorem covering_retryPending {dryRun : Bool} (hP : Lasting P)
    (hmemory : ∀ rest m, P rest → rest.memory.Keeps m → P { rest with memory := m })
    (hsave : ∀ rest : Around, P rest → P { rest with file := rest.memory }) (hw : P w.rest) :
    Covering (retryPending decimals dryRun) (fun _ w => P w.rest) w := by
  refine safe_bind (safe_mono (fun state w₁ h₁ => ?_) (covering_getState hP hw))
  refine safe_bind (safe_mono (fun resolved w₂ h₂ => ?_)
    (covering_retryAll _ [] hP hmemory hsave h₁.1 nofun))
  have hboth := hP.and (lasting_memory fun m => ∀ id ∈ resolved, id ∈ m.mintedDeposits)
  refine safe_bind (safe_mono (fun _ w₃ hw₃ => ?_) (covering_keeps P hboth h₂
    (fun _ h => State.keeps_popPending h.2) fun rest h => hmemory rest _ h.1 (State.keeps_popPending h.2)))
  split_ifs
  · exact safe_pure hw₃
  · exact covering_saveUnlessDry hP hw₃ hsave

/-! ### The blocks -/

/-- What is left of the blocks up to `toBlock`: every other deposit there is minted or queued. -/
def Left (items : List Log) (toBlock head : ℕ) (rest : Around) : Prop :=
  (toBlock ≤ head ∧ head ≤ rest.head) ∧ ∀ log ∈ rest.logs, log.blockNumber ≤ toBlock → log ∈ items ∨
    ∀ dep, decodeDepositLog log = some dep → rest.memory.Handles dep.depositId

theorem lasting_left (items : List Log) (toBlock head : ℕ) : Lasting (Left items toBlock head) := by
  intro rest rest' hmoved h
  refine ⟨⟨h.1.1, h.1.2.trans hmoved.head⟩, fun log hlog hle => ?_⟩
  rw [hmoved.memory]
  rcases hmoved.logs log hlog with hlog | hlt
  · exact h.2 log hlog hle
  · exact absurd (hle.trans (h.1.1.trans h.1.2)) hlt.not_ge

variable {items : List Log} {toBlock head : ℕ} {raw : Log} {rest : Around}

theorem Left.keeps (h : Left items toBlock head rest) {m : State} (hm : rest.memory.Keeps m) :
    Left items toBlock head { rest with memory := m } :=
  ⟨h.1, fun log hlog hle => (h.2 log hlog hle).imp_right fun hdep dep hd =>
    hm.handles _ (hdep dep hd)⟩

theorem Left.tail (h : Left (raw :: items) toBlock head rest)
    (hraw : ∀ dep, decodeDepositLog raw = some dep → rest.memory.Handles dep.depositId) :
    Left items toBlock head rest := by
  refine ⟨h.1, fun log hlog hle => ?_⟩
  rcases h.2 log hlog hle with hmem | hdone
  · rcases List.mem_cons.mp hmem with rfl | hmem
    · exact .inr hraw
    · exact .inl hmem
  · exact .inr hdone

theorem covering_processLogs {dryRun : Bool} (items : List Log) (hw : Left items toBlock head w.rest) :
    Covering (processLogs decimals dryRun items) (fun _ w => Left [] toBlock head w.rest) w := by
  induction items generalizing w with
  | nil => exact safe_pure hw
  | cons raw items ih =>
    have hlasting := lasting_left (raw :: items) toBlock head
    rw [processLogs]
    cases hdep : decodeDepositLog raw with
    | none => exact ih (hw.tail fun dep h => absurd (hdep.symm.trans h) nofun)
    | some dep =>
      have hdone : ∀ {rest : Around}, Left (raw :: items) toBlock head rest →
          rest.memory.Handles dep.depositId → Left items toBlock head rest := by
        intro rest h hhandles
        refine h.tail fun dep' hdep' => ?_
        rw [← Option.some.inj (hdep.symm.trans hdep')]
        exact hhandles
      have hqueue : ∀ {w : World String Around}, Left (raw :: items) toBlock head w.rest →
          Covering (do
            modifyState fun state => state.queuePending decimals dep
            processLogs decimals dryRun items) (fun _ w => Left [] toBlock head w.rest) w := by
        intro w hw
        exact safe_bind (safe_mono (fun _ _ hw₁ => ih hw₁) (covering_keeps (Left items toBlock head) hlasting hw
          (fun _ _ => State.keeps_queuePending dep)
          fun rest h => hdone (h.keeps (State.keeps_queuePending dep)) (State.queuePending_handles dep)))
      refine safe_bind (safe_mono (fun state w₁ h₁ => ?_) (covering_getState hlasting hw))
      obtain ⟨hw₁, rfl⟩ := h₁
      split_ifs with hminted
      · exact ih (hdone hw₁ (.inl hminted))
      refine safe_bind (safe_mono (fun exists' w₂ hw₂ => ?_) (covering_accountExists hlasting hw₁))
      cases exists' with
      | false => exact hqueue hw₂
      | true =>
        refine safe_bind (safe_mono (fun trusted w₃ hw₃ => ?_) (covering_hasTrustLine hlasting hw₂))
        cases trusted with
        | false => exact hqueue hw₃
        | true =>
          refine safe_bind (safe_mono (fun success w₄ h₄ => ?_) (covering_mint hlasting hw₃ _ rfl))
          cases success with
          | none =>
            refine ih (hdone h₄.1.1 (.inr ?_))
            rw [h₄.1.2]
            exact h₄.2 rfl
          | some tx =>
            have hleft := lasting_left items toBlock head
            refine safe_bind (safe_mono (fun _ w₅ hw₅ => ?_) (covering_keeps (Left items toBlock head) hlasting h₄.1.1
              (fun _ _ => State.keeps_pop_minted _ tx) fun rest h =>
                hdone (h.keeps (State.keeps_pop_minted _ tx)) (State.minted_handles _ tx)))
            exact safe_bind (safe_mono (fun _ _ hw₆ => ih hw₆)
              (covering_saveUnlessDry hleft hw₅ fun _ h => h))

/-- The blocks from `cursor` on follow those that have been looked through, if any have. -/
def Next (cursor : ℕ) (s : State) : Prop :=
  s.lastBlock.getD 0 = 0 ∨ ∃ last, s.lastBlock = some last ∧ cursor = last + 1

theorem covering_processDeposits {dryRun : Bool} {cursor : ℕ} (hto : toBlock ≤ head)
    (hw : Next cursor w.rest.memory ∧ head ≤ w.rest.head) :
    Covering (processDeposits decimals dryRun cursor toBlock)
      (fun _ w => Next (toBlock + 1) w.rest.memory ∧ head ≤ w.rest.head) w := by
  have hlogs : Covering (own (Own.getLogs cursor toBlock)) (fun (r : Option (List Log)) w =>
      ∀ logs, r = some logs → Left logs toBlock head w.rest) w := by
    refine safe_op fun w' hmoved hI c hpre => ⟨hI, fun logs hlogs => ?_⟩
    have hpre : w'.rest.memory.lastBlock.getD 0 = 0 → ∀ log ∈ w'.rest.logs,
        log.blockNumber < cursor → ∀ dep, decodeDepositLog log = some dep →
        w'.rest.memory.Handles dep.depositId := hpre
    cases c
    case answered =>
      rw [← Option.some.inj hlogs]
      refine ⟨⟨hto, hw.2.trans hmoved.head⟩, fun log hlog hle => ?_⟩
      by_cases hcursor : cursor ≤ log.blockNumber
      · refine .inl (List.mem_filter.mpr ⟨hlog, ?_⟩)
        rw [Bool.and_eq_true]
        exact ⟨decide_eq_true hcursor, decide_eq_true hle⟩
      · refine .inr fun dep hdep => ?_
        rw [not_le] at hcursor
        rcases hw.1 with hnone | ⟨last, hlast, rfl⟩
        · rw [← hmoved.memory] at hnone
          exact hpre hnone log hlog hcursor dep hdep
        · rw [← hmoved.memory] at hlast
          exact hI.memory last hlast log hlog (Nat.le_of_lt_succ hcursor) dep hdep
    all_goals cases hlogs
  refine safe_bind (safe_mono (fun r w₁ h₁ => ?_) hlogs)
  refine safe_bind (safe_orRaise fun logs hr => ?_)
  refine safe_bind (safe_mono (fun _ w₂ hw₂ => ?_) (covering_processLogs logs (h₁ logs hr)))
  have hnext := (lasting_memory (Next (toBlock + 1))).and (lasting_head head)
  refine safe_bind (safe_mono (fun _ w₃ hw₃ => ?_)
    (covering_modifyState
      (fun rest => Next (toBlock + 1) rest.memory ∧ head ≤ rest.head) (lasting_left [] toBlock head) hw₂ fun rest hI hleft => ?_))
  · exact covering_saveUnlessDry hnext hw₃ fun _ h => h
  · refine ⟨⟨fun last hlast log hlog hle dep hdep => ?_, fun last hlast => ?_⟩,
      .inr ⟨toBlock, rfl, rfl⟩, hleft.1.2⟩
    · rw [← Option.some.inj hlast] at hle
      exact ((hleft.2 log hlog hle).resolve_left List.not_mem_nil) dep hdep
    · rw [← Option.some.inj hlast]
      exact hleft.1.1.trans hleft.1.2

/-- Pieces of blocks that follow one another, from `cursor` up to `head` at most. -/
def Consecutive (head : ℕ) : ℕ → List (ℕ × ℕ) → Prop
  | _, [] => True
  | cursor, (fromBlock, toBlock) :: rest =>
    fromBlock = cursor ∧ toBlock ≤ head ∧ Consecutive head (toBlock + 1) rest

theorem consecutive_chunks {fromBlock head : ℕ} (h : fromBlock ≤ head) :
    Consecutive head fromBlock (chunks fromBlock head) := by
  have hchunk : 0 < chunk := by decide
  have hrange : ∀ k i, fromBlock + chunk * (i + k) ≤ head + chunk →
      Consecutive head (fromBlock + chunk * i) ((List.range' i k).map fun i =>
        (fromBlock + chunk * i, min (fromBlock + chunk * i + chunk - 1) head)) := by
    intro k
    induction k with
    | zero => exact fun _ _ => trivial
    | succ k ih =>
      intro i hi
      have hi' : fromBlock + (chunk * i + chunk * k + chunk) ≤ head + chunk := by
        rw [← mul_add, ← Nat.mul_succ]
        exact hi
      refine ⟨rfl, min_le_right _ _, ?_⟩
      cases k with
      | zero => trivial
      | succ k =>
        have hend : min (fromBlock + chunk * i + chunk - 1) head + 1 =
            fromBlock + chunk * (i + 1) := by
          rw [Nat.mul_succ] at hi' ⊢
          omega
        rw [hend]
        refine ih (i + 1) ?_
        rw [Nat.add_assoc, Nat.add_comm 1]
        exact hi
  have hcount : chunk * ((head + chunk - fromBlock) / chunk) ≤ head + chunk - fromBlock :=
    Nat.mul_div_le _ _
  have hstart := hrange ((head + chunk - fromBlock) / chunk) 0 (by
    rw [Nat.zero_add]
    omega)
  rw [mul_zero, add_zero] at hstart
  rw [chunks, List.range_eq_range']
  exact hstart

theorem covering_scan {dryRun : Bool} (pieces : List (ℕ × ℕ)) (cursor : ℕ)
    (hpieces : Consecutive head cursor pieces) (hw : Next cursor w.rest.memory ∧ head ≤ w.rest.head) :
    Covering (scan decimals dryRun pieces) (fun _ _ => True) w := by
  induction pieces generalizing cursor w with
  | nil => exact safe_pure trivial
  | cons piece rest ih =>
    obtain ⟨fromBlock, toBlock⟩ := piece
    obtain ⟨rfl, hto, hrest⟩ := hpieces
    exact safe_bind (safe_mono (fun _ _ h => ih (toBlock + 1) hrest h)
      (covering_processDeposits hto hw))

/-! ### Polls -/

theorem covering_firstBlock {argsFromBlock : ℕ} :
    Covering (firstBlock argsFromBlock) (fun fb w => Next fb w.rest.memory) w := by
  have htrue := lasting_memory fun _ => True
  refine safe_bind (safe_mono (fun state w₁ h₁ => ?_) (covering_getState htrue trivial))
  obtain ⟨-, rfl⟩ := h₁
  split
  · rename_i hargs
    exact safe_pure (.inl hargs.2)
  split
  · rename_i last hlast
    exact safe_pure (.inr ⟨last, hlast, rfl⟩)
  rename_i hlast
  have hnone : w₁.rest.memory.lastBlock.getD 0 = 0 := by rw [hlast, Option.getD_none]
  split
  · exact safe_pure (.inl hnone)
  · have hlasting := lasting_memory fun s : State => s.lastBlock.getD 0 = 0
    refine safe_bind (safe_mono (fun head w₂ h₂ => ?_) (covering_blockNumber hlasting hnone))
    refine safe_bind (safe_mono (fun _ w₃ hw₃ => safe_pure (.inl hw₃)) (covering_keeps
      (fun rest => rest.memory.lastBlock.getD 0 = 0) hlasting h₂.1 (fun _ _ => ⟨fun _ h => h, rfl⟩)
      fun _ h => h))

theorem covering_pollOnce (args : Args) :
    Covering (pollOnce decimals args) (fun _ _ => True) w := by
  refine safe_bind (safe_mono (fun fb w₁ hw₁ => ?_) covering_firstBlock)
  refine safe_bind (safe_mono (fun head w₂ hw₂ => ?_)
    (covering_blockNumber (lasting_memory (Next fb)) hw₁))
  have hboth := (lasting_memory (Next fb)).and (lasting_head head)
  refine safe_bind (safe_mono (fun _ w₃ hw₃ => ?_) (covering_retryPending hboth
    (fun rest m h hm => ⟨?_, h.2⟩) (fun _ h => h) hw₂))
  · split_ifs with hhead
    · exact safe_pure trivial
    · exact covering_scan _ fb (consecutive_chunks (not_lt.mp hhead)) hw₃
  · rw [Next, hm.lastBlock]
    exact h.1

/-! ### Runs -/

theorem env_covered (w : World String Around) (e : Event) (hw : w.rest.Covered) :
    (env w e).rest.Covered ∧ w.rest.Extends (env w e).rest := by
  cases e with
  | node e => exact ⟨hw, .refl _⟩
  | block logs =>
    simp only [env]
    split_ifs with hblock
    · have hnew : ∀ l ∈ w.rest.logs ++ logs, l ∈ w.rest.logs ∨ w.rest.head < l.blockNumber := by
        intro l hl
        refine (List.mem_append.mp hl).imp_right fun hl => ?_
        rw [hblock.1 l hl]
        exact Nat.lt_succ_self _
      have hcovers : ∀ s : State, s.Covers w.rest.logs → s.Within w.rest.head →
          s.Covers (w.rest.logs ++ logs) := by
        intro s hs hwithin last hlast log hlog hle
        rcases hnew log hlog with hlog | hlt
        · exact hs last hlast log hlog hle
        · exact absurd (hle.trans (hwithin last hlast)) hlt.not_ge
      exact ⟨⟨hcovers _ hw.memory hw.memory_within, hcovers _ hw.file hw.file_within,
        fun last hlast => (hw.memory_within last hlast).trans (Nat.le_succ _),
        fun last hlast => (hw.file_within last hlast).trans (Nat.le_succ _)⟩,
        ⟨rfl, rfl, Nat.le_succ _, hnew⟩⟩
    · exact ⟨hw, .refl _⟩

theorem empty_covered {head : ℕ} : Around.Covered ⟨head, logs, .empty, .empty⟩ :=
  ⟨nofun, nofun, nofun, nofun⟩

theorem run_covered {w : World String Around} {as : List (Act Fate Event Args)}
    (hw : w.rest.Covered)
    (has : Run.Always (relay decimals).step (Machine.Allowed Careful fun _ _ => True)
      (w, .ret ()) as) :
    (Run.final (relay decimals).step (w, .ret ()) as).1.rest.Covered :=
  Machine.invariant (R := fun w w' => w.rest.Extends w'.rest) (fun h h' => h.trans h')
    (fun w => .refl w.rest)
    (fun w e hw _ => env_covered w e hw)
    (fun _ hw => ⟨hw.file, hw.file, hw.file_within, hw.file_within⟩)
    (fun args _ _ => covering_pollOnce args) hw has

end FalconLedger.DepositRelay
