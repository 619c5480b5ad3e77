import FalconLedger.Data.Run
import FalconLedger.SHAMap.Sync

/-!
# A traversal that finds nothing missing has seen the whole tree

What is marked full below or is in the full-below cache is complete: a node is marked only when all
its branches have been found complete since it was last begun, and a branch whose read is still out
counts against it. And as long as nothing is missing, the tree is complete if the work still to be
done turns out complete: branches not yet looked at, reads that are out, nodes to be resumed.
-/

namespace FalconLedger.SHAMapSync

variable {H : Type} {T : Target H} {store store' : List H} {h h' c : H} {p : List (Fin 16)}

/-! ### Complete subtrees -/

/-- One node is a child of the other. -/
def IsChild (T : Target H) (parent c : H) : Prop := ∃ branch, T.child parent branch = some c

/-- All nodes of the subtree are available. -/
def Complete (T : Target H) (store : List H) (h : H) : Prop :=
  ∀ h', Relation.ReflTransGen (IsChild T) h h' → h' ∈ store

/-- All nodes below a node are available. -/
def Below (T : Target H) (store : List H) (h : H) : Prop :=
  ∀ branch c, T.child h branch = some c → Complete T store c

theorem complete_iff : Complete T store h ↔ h ∈ store ∧ Below T store h := by
  constructor
  · intro hcomplete
    exact ⟨hcomplete h .refl, fun branch c hc h' hreach =>
      hcomplete h' (.head ⟨branch, hc⟩ hreach)⟩
  · rintro ⟨hmem, hbelow⟩ h' hreach
    rcases Relation.ReflTransGen.cases_head hreach with rfl | ⟨c, ⟨branch, hc⟩, hrest⟩
    · exact hmem
    · exact hbelow branch c hc h' hrest

theorem Complete.mono (hcomplete : Complete T store h) (hsub : store ⊆ store') :
    Complete T store' h := fun h' hreach => hsub (hcomplete h' hreach)

theorem below_of_leaf (hleaf : T.isInner h = false) : Below T store h := by
  intro branch c hc
  rw [Target.isInner] at hleaf
  rw [Target.child] at hc
  cases hcontent : T.content h with
  | leaf => simp [hcontent] at hc
  | inner children => simp [hcontent] at hleaf

theorem nodeAt_append (T : Target H) (p : List (Fin 16)) (branch : Fin 16) :
    T.nodeAt (p ++ [branch]) = (T.nodeAt p).bind fun h => T.child h branch := by
  rw [Target.nodeAt, List.foldl_append, List.foldl_cons, List.foldl_nil, ← Target.nodeAt]

/-! ### Entries -/

/-- The branch looked at in the given turn. -/
def branchAt (e : StackEntry H) (turn : ℕ) : Fin 16 :=
  ⟨(e.firstChild + turn) % 16, Nat.mod_lt _ (Nat.succ_pos 15)⟩

theorem exists_branchAt (e : StackEntry H) (branch : Fin 16) :
    ∃ turn < 16, branchAt e turn = branch := by
  refine ⟨(branch.val + 16 - e.firstChild % 16) % 16, Nat.mod_lt _ (by omega), Fin.ext ?_⟩
  have hlt := branch.isLt
  change (e.firstChild + (branch.val + 16 - e.firstChild % 16) % 16) % 16 = branch.val
  omega

/-- The child of a turn, if there is one, is complete. -/
def TurnComplete (T : Target H) (store : List H) (e : StackEntry H) (turn : ℕ) : Prop :=
  ∀ c, T.child e.node (branchAt e turn) = some c → Complete T store c

/-- If nothing was found missing, what was found in the turns before is complete. -/
def Processed (T : Target H) (store : List H) (e : StackEntry H) (turns : ℕ) : Prop :=
  e.fullBelow = true → ∀ turn < turns, TurnComplete T store e turn

/-- The branches not looked at yet are complete. -/
def RestComplete (T : Target H) (store : List H) (e : StackEntry H) : Prop :=
  ∀ turn, e.currentChild ≤ turn → turn < 16 → TurnComplete T store e turn

theorem below_of_turns {e : StackEntry H} (hturns : ∀ turn < 16, TurnComplete T store e turn) :
    Below T store e.node := fun branch c hc => by
  obtain ⟨turn, hlt, rfl⟩ := exists_branchAt e branch
  exact hturns turn hlt c hc

/-- The entry is about an available node at its position. -/
structure Located (T : Target H) (store : List H) (e : StackEntry H) : Prop where
  at_eq : T.nodeAt e.nodeID = some e.node
  available : e.node ∈ store

/-- The entries of the stack below a node that is being processed: each is that node's parent, in
the turn that led to it, or has not been begun. -/
def Stacked (T : Target H) (store : List H) : H → List (StackEntry H) → Prop
  | _, [] => True
  | top, e :: stack =>
    Located T store e ∧
      (e.currentChild = 0 ∨ ∃ turn, e.currentChild = turn + 1 ∧
        T.child e.node (branchAt e turn) = some top ∧ Processed T store e turn) ∧
      Stacked T store e.node stack

/-! ### The invariant -/

/-- What holds of a map whether or not it is being traversed. -/
structure Marked (T : Target H) (s : Sync H) : Prop where
  root : T.root ∈ s.store
  hooked : ∀ p ∈ s.hooked, ∀ h, T.nodeAt p = some h → h ∈ s.store
  full : ∀ p ∈ s.fullBelowGen, ∀ h, T.nodeAt p = some h → Complete T s.store h
  cache : ∀ h ∈ s.cache, Complete T s.store h
  modifying : s.state = .modifying → Complete T s.store T.root

/-- The entry in progress and those under it. -/
def Underway (T : Target H) (s : Sync H) (e : StackEntry H) : Prop :=
  Located T s.store e ∧ Processed T s.store e e.currentChild ∧ Stacked T s.store e.node s.stack

/-- What holds of the phase and the stack. -/
def InPhase (T : Target H) (s : Sync H) : Phase H → Prop
  | .idle => True
  | .process e => Underway T s e
  | .reads (some e) => Underway T s e
  | .reads none => s.stack = []
  | .done => s.missingNodes = [] → Complete T s.store T.root

/-- The entry in progress. -/
def Phase.entry : Phase H → Option (StackEntry H)
  | .process e => some e
  | .reads e => e
  | _ => none

/-- The work still to be done turns out complete. -/
structure WorkComplete (T : Target H) (s : Sync H) : Prop where
  entry : ∀ e ∈ s.phase.entry, RestComplete T s.store e
  stack : ∀ e ∈ s.stack, RestComplete T s.store e
  deferred : ∀ r ∈ s.deferred, ∀ c, T.child r.parent r.branch = some c → Complete T s.store c
  resumes : ∀ x ∈ s.resumes, Below T s.store x.1

/-- What is reported missing is the child of a node at its position, and is not available. -/
def IsMissing (T : Target H) (store : List H) (x : List (Fin 16) × H) : Prop :=
  x.2 ∉ store ∧ ∃ parentID branch parent, x.1 = parentID ++ [branch] ∧
    T.nodeAt parentID = some parent ∧ T.child parent branch = some x.2

structure Inv (T : Target H) (s : Sync H) : Prop where
  marked : Marked T s
  phase : InPhase T s s.phase
  deferred : ∀ r ∈ s.deferred, T.nodeAt r.parentID = some r.parent ∧ r.parent ∈ s.store
  resumes : ∀ x ∈ s.resumes, T.nodeAt x.2 = some x.1 ∧ x.1 ∈ s.store
  missing : s.phase ≠ .idle → ∀ x ∈ s.missingNodes, IsMissing T s.store x
  hashes : s.missingNodes = [] → s.missingHashes = []
  max : s.phase.busy = true → s.missingNodes = [] → 0 < s.max
  work : s.phase.busy = true → s.missingNodes = [] → WorkComplete T s → Complete T s.store T.root

/-! ### One branch -/

section Branch

variable {s : Sync H} {e : StackEntry H}

theorem branch_eq_branchAt (e : StackEntry H) : e.branch = branchAt e e.currentChild := rfl

/-- The entry after its turn. -/
def StackEntry.next (e : StackEntry H) (fullBelow : Bool) : StackEntry H :=
  { e with currentChild := e.currentChild + 1, fullBelow }

theorem Processed.next {fullBelow : Bool} (h : Processed T store e e.currentChild)
    (hfull : fullBelow = true → e.fullBelow = true ∧ TurnComplete T store e e.currentChild) :
    Processed T store (e.next fullBelow) (e.currentChild + 1) := fun hflag turn hturn => by
  obtain ⟨hbefore, hnow⟩ := hfull hflag
  rcases Nat.lt_succ_iff_lt_or_eq.mp hturn with hlt | rfl
  · exact h hbefore turn hlt
  · exact hnow

theorem RestComplete.of_next {fullBelow : Bool} (h : RestComplete T store (e.next fullBelow))
    (hnow : TurnComplete T store e e.currentChild) : RestComplete T store e :=
  fun turn hle hlt => by
    rcases hle.eq_or_lt with rfl | hlt'
    · exact hnow
    · exact h turn hlt' hlt

theorem Inv.nextTurn (h : Inv T s) (hphase : s.phase = .process e) {fullBelow : Bool}
    {hooked : List (List (Fin 16))} {deferred : List (DeferredRead H)}
    (hhooked : ∀ p ∈ hooked, ∀ h, T.nodeAt p = some h → h ∈ s.store)
    (hdeferred : ∀ r ∈ deferred, T.nodeAt r.parentID = some r.parent ∧ r.parent ∈ s.store)
    (hsub : s.deferred ⊆ deferred)
    (hfull : fullBelow = true → e.fullBelow = true ∧ TurnComplete T s.store e e.currentChild)
    (hwork : s.missingNodes = [] → (∀ r ∈ deferred, ∀ c, T.child r.parent r.branch = some c →
      Complete T s.store c) → TurnComplete T s.store e e.currentChild) :
    Inv T { s with hooked, deferred, phase := .process (e.next fullBelow) } := by
  have hunderway : Underway T s e := by
    have hinPhase := h.phase
    rwa [hphase] at hinPhase
  obtain ⟨hlocated, hprocessed, hstacked⟩ := hunderway
  have hbusy : s.phase.busy = true := by rw [hphase]; rfl
  refine ⟨⟨h.marked.root, hhooked, h.marked.full, h.marked.cache, h.marked.modifying⟩,
    ⟨⟨hlocated.at_eq, hlocated.available⟩, hprocessed.next hfull, hstacked⟩, hdeferred, h.resumes,
    fun _ => h.missing (by rw [hphase]; nofun), h.hashes, fun _ => h.max hbusy,
    fun _ hnone hcomplete => h.work hbusy hnone ⟨fun e' he' => ?_, hcomplete.stack,
      fun r hr => hcomplete.deferred r (hsub hr), hcomplete.resumes⟩⟩
  rw [hphase] at he'
  obtain rfl : e = e' := Option.some.inj he'
  exact RestComplete.of_next (hcomplete.entry _ rfl) (hwork hnone hcomplete.deferred)

theorem Inv.addMissing [DecidableEq H] (h : Inv T s) (hphase : s.phase = .process e)
    (hchild : T.child e.node e.branch = some c) (hmissing : c ∉ s.store) {phase : Phase H}
    (hnext : phase = .process (e.next false) ∨ phase = .reads (some (e.next false))) :
    Inv T { s.addMissing (e.nodeID ++ [e.branch]) c with phase } := by
  have hunderway : Underway T s e := by
    have hinPhase := h.phase
    rwa [hphase] at hinPhase
  obtain ⟨hlocated, hprocessed, hstacked⟩ := hunderway
  have hunderway' : Underway T { s.addMissing (e.nodeID ++ [e.branch]) c with phase }
      (e.next false) :=
    ⟨⟨hlocated.at_eq, hlocated.available⟩, nofun, hstacked⟩
  refine ⟨⟨h.marked.root, h.marked.hooked, h.marked.full, h.marked.cache, h.marked.modifying⟩, ?_,
    h.deferred, h.resumes, fun _ x hx => ?_, fun hnil => ?_, fun _ hnil => ?_, fun _ hnil => ?_⟩
  · rcases hnext with rfl | rfl
    · exact hunderway'
    · exact hunderway'
  · rcases List.mem_append.mp hx with hx | hx
    · exact h.missing (by rw [hphase]; nofun) x hx
    · rw [List.mem_singleton.mp hx]
      exact ⟨hmissing, e.nodeID, e.branch, e.node, rfl, hlocated.at_eq, hchild⟩
  · exact absurd hnil (List.append_ne_nil_of_right_ne_nil _ (List.cons_ne_nil _ _))
  · exact absurd hnil (List.append_ne_nil_of_right_ne_nil _ (List.cons_ne_nil _ _))
  · exact absurd hnil (List.append_ne_nil_of_right_ne_nil _ (List.cons_ne_nil _ _))

theorem Inv.push (h : Inv T s) (hphase : s.phase = .process e)
    (hchild : T.child e.node e.branch = some c) (havailable : c ∈ s.store)
    {hooked : List (List (Fin 16))}
    (hhooked : ∀ p ∈ hooked, ∀ h, T.nodeAt p = some h → h ∈ s.store) (firstChild : ℕ) :
    Inv T { s with
      hooked
      stack := e.next e.fullBelow :: s.stack
      phase := .process ⟨c, e.nodeID ++ [e.branch], firstChild, 0, true⟩ } := by
  have hunderway : Underway T s e := by
    have hinPhase := h.phase
    rwa [hphase] at hinPhase
  obtain ⟨hlocated, hprocessed, hstacked⟩ := hunderway
  have hbusy : s.phase.busy = true := by rw [hphase]; rfl
  refine ⟨⟨h.marked.root, hhooked, h.marked.full, h.marked.cache, h.marked.modifying⟩,
    ⟨⟨?_, havailable⟩, fun _ turn hturn => absurd hturn (Nat.not_lt_zero turn), ?_,
      .inr ⟨_, rfl, hchild, ?_⟩, hstacked⟩, h.deferred, h.resumes, fun _ => h.missing (by rw [hphase]; nofun), h.hashes,
    fun _ => h.max hbusy, fun _ hnone hcomplete => ?_⟩
  · change T.nodeAt (e.nodeID ++ [e.branch]) = some c
    rw [nodeAt_append, hlocated.at_eq, Option.bind_some, hchild]
  · exact ⟨hlocated.at_eq, hlocated.available⟩
  · exact fun hflag turn hturn => hprocessed hflag turn hturn
  · have hrest := hcomplete.entry _ rfl
    have hc : Complete T s.store c := complete_iff.mpr
      ⟨havailable, below_of_turns fun turn hlt => hrest turn (Nat.zero_le turn) hlt⟩
    refine h.work hbusy hnone ⟨fun e' he' => ?_,
      fun e' he' => hcomplete.stack e' (List.mem_cons_of_mem _ he'), hcomplete.deferred,
      hcomplete.resumes⟩
    rw [hphase] at he'
    obtain rfl : e = e' := Option.some.inj he'
    refine RestComplete.of_next (hcomplete.stack _ List.mem_cons_self) fun c' hc' => ?_
    rw [← branch_eq_branchAt, hchild, Option.some.injEq] at hc'
    exact hc' ▸ hc

variable [DecidableEq H] {backed : Bool}

theorem Inv.processBranch (h : Inv T s) (hphase : s.phase = .process e) (choice : Choice H) :
    Inv T (s.processBranch T backed choice e) := by
  have hunderway : Underway T s e := by
    have hinPhase := h.phase
    rwa [hphase] at hinPhase
  have hat : T.nodeAt e.nodeID = some e.node := hunderway.1.at_eq
  have hnow : ∀ c, T.child e.node e.branch = some c → Complete T s.store c →
      TurnComplete T s.store e e.currentChild := fun c hc hcomplete c' hc' => by
    rw [← branch_eq_branchAt, hc, Option.some.injEq] at hc'
    exact hc' ▸ hcomplete
  unfold Sync.processBranch
  dsimp only
  split
  · rename_i hnone
    have hturn : TurnComplete T s.store e e.currentChild := fun c hc => by
      rw [← branch_eq_branchAt, hnone] at hc
      cases hc
    exact h.nextTurn hphase h.marked.hooked h.deferred (List.Subset.refl _)
      (fun hfull => ⟨hfull, hturn⟩) fun _ _ => hturn
  · rename_i childHash hchild
    have hchildAt : T.nodeAt (e.nodeID ++ [e.branch]) = some childHash := by
      rw [nodeAt_append, hat, Option.bind_some, hchild]
    -- a node that is found is hooked at its position
    have hhook : childHash ∈ s.store → ∀ p ∈ (e.nodeID ++ [e.branch]) :: s.hooked, ∀ h',
        T.nodeAt p = some h' → h' ∈ s.store := fun havailable p hp h' hh' => by
      rcases List.mem_cons.mp hp with rfl | hp
      · rw [hchildAt, Option.some.injEq] at hh'
        exact hh' ▸ havailable
      · exact h.marked.hooked p hp h' hh'
    split_ifs with hknown hcached hfound hdescend hbacked
    · refine h.nextTurn hphase h.marked.hooked h.deferred (List.Subset.refl _) nofun
        fun hnil _ => ?_
      rw [h.hashes hnil] at hknown
      cases hknown
    · have hturn := hnow childHash hchild (h.marked.cache childHash hcached.2.1)
      exact h.nextTurn hphase h.marked.hooked h.deferred (List.Subset.refl _)
        (fun hfull => ⟨hfull, hturn⟩) fun _ _ => hturn
    · have havailable : childHash ∈ s.store :=
        hfound.elim (fun hp => h.marked.hooked _ hp childHash hchildAt) fun hs => hs.1
      exact h.push hphase hchild havailable (hhook havailable) _
    · have havailable : childHash ∈ s.store :=
        hfound.elim (fun hp => h.marked.hooked _ hp childHash hchildAt) fun hs => hs.1
      have hcomplete : Complete T s.store childHash := by
        rcases not_and_or.mp hdescend with hleaf | hmarked
        · exact complete_iff.mpr ⟨havailable, below_of_leaf (by simpa using hleaf)⟩
        · exact h.marked.full _ (not_not.mp hmarked) childHash hchildAt
      have hturn := hnow childHash hchild hcomplete
      exact h.nextTurn hphase (hhook havailable) h.deferred (List.Subset.refl _)
        (fun hfull => ⟨hfull, hturn⟩) fun _ _ => hturn
    · refine h.nextTurn hphase h.marked.hooked (fun r hr => ?_)
        (List.subset_cons_self _ _) nofun fun _ hreads => ?_
      · rcases List.mem_cons.mp hr with rfl | hr
        · exact ⟨hat, hunderway.1.available⟩
        · exact h.deferred r hr
      · exact hnow childHash hchild (hreads _ List.mem_cons_self childHash hchild)
    all_goals
      have hmissing : childHash ∉ s.store := fun hmem =>
        hfound (.inr ⟨hmem, .inr (by simpa using hbacked)⟩)
    · exact h.addMissing hphase hchild hmissing (.inr rfl)
    · exact h.addMissing hphase hchild hmissing (.inl rfl)

/-! ### A node is finished -/

omit [DecidableEq H] in
theorem Inv.markFullBelow (h : Inv T s) (hphase : s.phase = .process e)
    (hcomplete : e.fullBelow = true → Complete T s.store e.node) :
    Inv T (s.markFullBelow backed e) ∧ (s.markFullBelow backed e).phase = .process e ∧
      (s.markFullBelow backed e).store = s.store := by
  have hunderway : Underway T s e := by
    have hinPhase := h.phase
    rwa [hphase] at hinPhase
  have hbusy : s.phase.busy = true := by rw [hphase]; rfl
  by_cases hfull : e.fullBelow = true
  · rw [Sync.markFullBelow, if_pos hfull]
    refine ⟨⟨⟨h.marked.root, h.marked.hooked, fun p hp h' hh' => ?_, fun h' hh' => ?_,
      h.marked.modifying⟩, ?_, h.deferred, h.resumes, h.missing, h.hashes, h.max,
      fun _ hnone hwork => h.work hbusy hnone
        ⟨hwork.entry, hwork.stack, hwork.deferred, hwork.resumes⟩⟩, hphase, rfl⟩
    · rcases List.mem_cons.mp hp with rfl | hp
      · rw [hunderway.1.at_eq, Option.some.injEq] at hh'
        exact hh' ▸ hcomplete hfull
      · exact h.marked.full p hp h' hh'
    · dsimp only at hh'
      split_ifs at hh'
      · rcases List.mem_cons.mp hh' with rfl | hh'
        · exact hcomplete hfull
        · exact h.marked.cache h' hh'
      · exact h.marked.cache h' hh'
    · dsimp only
      rw [hphase]
      exact hunderway
  · rw [Sync.markFullBelow, if_neg hfull]
    exact ⟨h, hphase, rfl⟩

omit [DecidableEq H] in
theorem Inv.pop (h : Inv T s) (hphase : s.phase = .process e) (hdone : ¬e.currentChild < 16)
    (hcomplete : e.fullBelow = true → Complete T s.store e.node) : Inv T (s.pop e.fullBelow) := by
  have hunderway : Underway T s e := by
    have hinPhase := h.phase
    rwa [hphase] at hinPhase
  have hbusy : s.phase.busy = true := by rw [hphase]; rfl
  have hrest : RestComplete T s.store e := fun turn hle hlt => absurd hlt (by omega)
  have hentry : ∀ e' ∈ s.phase.entry, RestComplete T s.store e' := fun e' he' => by
    rw [hphase] at he'
    exact Option.some.inj he' ▸ hrest
  unfold Sync.pop
  split
  · rename_i hstack
    exact ⟨⟨h.marked.root, h.marked.hooked, h.marked.full, h.marked.cache, h.marked.modifying⟩,
      hstack, h.deferred, h.resumes, fun _ => h.missing (by rw [hphase]; nofun), h.hashes,
      fun _ => h.max hbusy, fun _ hnone hwork => h.work hbusy hnone
        ⟨hentry, hwork.stack, hwork.deferred, hwork.resumes⟩⟩
  · rename_i parent stack hstack
    obtain ⟨hlocated, hturn, hstacked⟩ : Stacked T s.store e.node (parent :: stack) :=
      hstack ▸ hunderway.2.2
    -- the child the parent was waiting for is complete, or the parent is not full below
    have hprocessed : Processed T s.store (Sync.resumeParent parent e.fullBelow)
        parent.currentChild := by
      intro hflag turn hlt
      rcases hturn with hzero | ⟨last, hlast, hchild, hbefore⟩
      · omega
      · have hflags : parent.fullBelow = true ∧ e.fullBelow = true := by
          simpa [Sync.resumeParent, hlast] using hflag
        rcases Nat.lt_succ_iff_lt_or_eq.mp (hlast ▸ hlt) with hlt | rfl
        · exact hbefore hflags.1 turn hlt
        · intro c hc
          have hc' : T.child parent.node (branchAt parent turn) = some c := hc
          rw [hchild, Option.some.injEq] at hc'
          exact hc' ▸ hcomplete hflags.2
    have hunderway' : Underway T { s with stack } (Sync.resumeParent parent e.fullBelow) :=
      ⟨⟨hlocated.at_eq, hlocated.available⟩, hprocessed, hstacked⟩
    have hwork' : ∀ e' : StackEntry H, e' = Sync.resumeParent parent e.fullBelow →
        RestComplete T s.store e' → RestComplete T s.store parent := by
      rintro e' rfl hrest
      exact hrest
    split_ifs
    all_goals
      refine ⟨⟨h.marked.root, h.marked.hooked, h.marked.full, h.marked.cache, h.marked.modifying⟩,
        hunderway', h.deferred, h.resumes, fun _ => h.missing (by rw [hphase]; nofun), h.hashes,
        fun _ => h.max hbusy, fun _ hnone hwork => h.work hbusy hnone
          ⟨hentry, fun e' he' => ?_, hwork.deferred, hwork.resumes⟩⟩
      rw [hstack] at he'
      rcases List.mem_cons.mp he' with rfl | he'
      · exact hwork' _ rfl (hwork.entry _ rfl)
      · exact hwork.stack e' he'

omit [DecidableEq H] in
theorem Inv.finishNode (h : Inv T s) (hphase : s.phase = .process e)
    (hdone : ¬e.currentChild < 16) : Inv T (s.finishNode backed e) := by
  have hunderway : Underway T s e := by
    have hinPhase := h.phase
    rwa [hphase] at hinPhase
  obtain ⟨hlocated, hprocessed, -⟩ := hunderway
  have hcomplete : e.fullBelow = true → Complete T s.store e.node := fun hfull =>
    complete_iff.mpr ⟨hlocated.available,
      below_of_turns fun turn hlt => hprocessed hfull turn (by omega)⟩
  obtain ⟨hinv, hphase', hstore⟩ : Inv T (s.markFullBelow backed e) ∧
      (s.markFullBelow backed e).phase = .process e ∧
      (s.markFullBelow backed e).store = s.store := h.markFullBelow hphase hcomplete
  exact hinv.pop hphase' hdone (hstore ▸ hcomplete)

/-! ### Reads -/

omit [DecidableEq H] in
theorem InPhase.reads_congr {s' : Sync H} {node : Option (StackEntry H)}
    (h : InPhase T s (.reads node)) (hstore : s'.store = s.store) (hstack : s'.stack = s.stack) :
    InPhase T s' (.reads node) := by
  cases node with
  | none => exact hstack.trans h
  | some e =>
    change Underway T s' e
    rw [Underway, hstore, hstack]
    exact h

theorem Inv.processRead (h : Inv T s) {node : Option (StackEntry H)}
    (hphase : s.phase = .reads node) {r : DeferredRead H} {deferred : List (DeferredRead H)}
    (hr : r ∈ s.deferred) (hsub : deferred ⊆ s.deferred)
    (hcover : ∀ x ∈ s.deferred, x = r ∨ x ∈ deferred) :
    Inv T (Sync.processRead T { s with deferred } r) := by
  have hinPhase := h.phase
  rw [hphase] at hinPhase
  have hbusy : s.phase.busy = true := by rw [hphase]; rfl
  have hidle : s.phase ≠ .idle := by rw [hphase]; nofun
  have hdeferred : ∀ x ∈ deferred, T.nodeAt x.parentID = some x.parent ∧ x.parent ∈ s.store :=
    fun x hx => h.deferred x (hsub hx)
  obtain ⟨hparent, havailable⟩ := h.deferred r hr
  unfold Sync.processRead
  split
  · rename_i hnone
    refine ⟨⟨h.marked.root, h.marked.hooked, h.marked.full, h.marked.cache, h.marked.modifying⟩, ?_,
      hdeferred, h.resumes, fun _ => h.missing hidle, h.hashes, fun _ => h.max hbusy,
      fun _ hnil hwork => h.work hbusy hnil ⟨hwork.entry, hwork.stack, fun x hx => ?_,
        hwork.resumes⟩⟩
    · dsimp only
      rw [hphase]
      exact hinPhase.reads_congr rfl rfl
    · rcases hcover x hx with rfl | hx
      · rw [hnone]
        nofun
      · exact hwork.deferred x hx
  · rename_i nodeHash hchild
    have hnodeAt : T.nodeAt (r.parentID ++ [r.branch]) = some nodeHash := by
      rw [nodeAt_append, hparent, Option.bind_some, hchild]
    dsimp only
    split_ifs with hfound hmissing
    · refine ⟨⟨h.marked.root, fun p hp h' hh' => ?_, h.marked.full, h.marked.cache,
        h.marked.modifying⟩, ?_, hdeferred, fun x hx => ?_, fun _ => h.missing hidle, h.hashes,
        fun _ => h.max hbusy, fun _ hnil hwork => h.work hbusy hnil ⟨hwork.entry, hwork.stack,
          fun x hx => ?_, fun x hx => ?_⟩⟩
      · rcases List.mem_cons.mp hp with rfl | hp
        · rw [hnodeAt, Option.some.injEq] at hh'
          exact hh' ▸ hfound
        · exact h.marked.hooked p hp h' hh'
      · dsimp only
        rw [hphase]
        exact hinPhase.reads_congr rfl rfl
      · rcases List.mem_cons.mp hx with rfl | hx
        · exact ⟨hparent, havailable⟩
        · exact h.resumes x (List.mem_filter.mp hx).1
      · rcases hcover x hx with rfl | hx
        · exact hwork.resumes _ List.mem_cons_self x.branch
        · exact hwork.deferred x hx
      · by_cases heq : x.2 = r.parentID
        · have hx₁ := (h.resumes x hx).1
          rw [heq, hparent, Option.some.injEq] at hx₁
          exact hx₁ ▸ hwork.resumes _ List.mem_cons_self
        · refine hwork.resumes x (List.mem_cons_of_mem _ (List.mem_filter.mpr ⟨hx, ?_⟩))
          simpa using heq
    · refine ⟨⟨h.marked.root, h.marked.hooked, h.marked.full, h.marked.cache, h.marked.modifying⟩,
        ?_, hdeferred, h.resumes, fun _ x hx => ?_, fun hnil => ?_, fun _ hnil => ?_,
        fun _ hnil => ?_⟩
      · change InPhase T _ s.phase
        rw [hphase]
        exact hinPhase.reads_congr rfl rfl
      · rcases List.mem_append.mp hx with hx | hx
        · exact h.missing hidle x hx
        · rw [List.mem_singleton.mp hx]
          exact ⟨hfound, r.parentID, r.branch, r.parent, rfl, hparent, hchild⟩
      · exact absurd hnil (List.append_ne_nil_of_right_ne_nil _ (List.cons_ne_nil _ _))
      · exact absurd hnil (List.append_ne_nil_of_right_ne_nil _ (List.cons_ne_nil _ _))
      · exact absurd hnil (List.append_ne_nil_of_right_ne_nil _ (List.cons_ne_nil _ _))
    · -- the node is known to be missing
      have hne : s.missingNodes ≠ [] := fun hnil =>
        hmissing ⟨h.max hbusy hnil, by simp [h.hashes hnil]⟩
      refine ⟨⟨h.marked.root, h.marked.hooked, h.marked.full, h.marked.cache, h.marked.modifying⟩,
        ?_, hdeferred, h.resumes, fun _ => h.missing hidle, h.hashes, fun _ => h.max hbusy,
        fun _ hnil => absurd hnil hne⟩
      dsimp only
      rw [hphase]
      exact hinPhase.reads_congr rfl rfl

omit [DecidableEq H] in
theorem stacked_of_fresh {top : H} {stack : List (StackEntry H)}
    (h : ∀ e ∈ stack, Located T store e ∧ e.currentChild = 0) : Stacked T store top stack := by
  induction stack generalizing top with
  | nil => trivial
  | cons e stack ih =>
    obtain ⟨hlocated, hzero⟩ := h e List.mem_cons_self
    exact ⟨hlocated, .inl hzero, ih fun e' he' => h e' (List.mem_cons_of_mem _ he')⟩

omit [DecidableEq H] in
theorem Inv.recheck (h : Inv T s) (hphase : s.phase = .reads none) (hdeferred : s.deferred = [])
    (choice : Choice H) : Inv T (s.recheck choice).resumeTop := by
  have hinPhase := h.phase
  rw [hphase] at hinPhase
  have hstack : s.stack = [] := hinPhase
  have hbusy : s.phase.busy = true := by rw [hphase]; rfl
  have hidle : s.phase ≠ .idle := by rw [hphase]; nofun
  have hfresh : ∀ e ∈ (s.recheck choice).stack, Located T s.store e ∧ e.currentChild = 0 :=
    fun e he => by
      obtain ⟨x, hx, rfl⟩ := List.mem_map.mp he
      have hmem := (choice.order_perm s.resumes).mem_iff.mp
        (List.mem_filter.mp (List.mem_reverse.mp hx)).1
      exact ⟨⟨(h.resumes x hmem).1, (h.resumes x hmem).2⟩, rfl⟩
  -- the work that was to be done is complete if what is on the stack now is
  have hwork : (∀ e ∈ (s.recheck choice).stack, RestComplete T s.store e) → WorkComplete T s :=
    fun hrest => by
      refine ⟨fun e he => ?_, fun e he => ?_, fun r hr => ?_, fun x hx => ?_⟩
      · rw [hphase] at he
        cases he
      · rw [hstack] at he
        cases he
      · rw [hdeferred] at hr
        cases hr
      · by_cases hmarked : x.2 ∈ s.fullBelowGen
        · exact (complete_iff.mp (h.marked.full _ hmarked x.1 (h.resumes x hx).1)).2
        · have hmem : (⟨x.1, x.2, choice.random x.2, 0, true⟩ : StackEntry H) ∈
              (s.recheck choice).stack :=
            List.mem_map.mpr ⟨x, List.mem_reverse.mpr (List.mem_filter.mpr
              ⟨(choice.order_perm s.resumes).mem_iff.mpr hx, by simpa using hmarked⟩), rfl⟩
          exact below_of_turns fun turn hlt => hrest _ hmem turn (Nat.zero_le turn) hlt
  unfold Sync.resumeTop
  split
  · rename_i hnil
    have hcomplete : s.missingNodes = [] → Complete T s.store T.root := fun hnone =>
      h.work hbusy hnone (hwork (by rw [hnil]; nofun))
    refine ⟨⟨h.marked.root, h.marked.hooked, h.marked.full, h.marked.cache, fun hmodifying => ?_⟩,
      hcomplete, h.deferred, nofun, fun _ => h.missing hidle, h.hashes, nofun, nofun⟩
    dsimp only at hmodifying
    split_ifs at hmodifying with hempty
    · exact hcomplete (List.isEmpty_iff.mp hempty)
    · exact h.marked.modifying hmodifying
  · rename_i pos stack hcons
    rw [hcons] at hfresh hwork
    obtain ⟨hlocated, hzero⟩ := hfresh pos List.mem_cons_self
    have hunderway : Underway T { s with stack } pos := by
      refine ⟨⟨hlocated.at_eq, hlocated.available⟩, fun _ turn hturn => ?_,
        stacked_of_fresh fun e he => hfresh e (List.mem_cons_of_mem _ he)⟩
      omega
    refine ⟨⟨h.marked.root, h.marked.hooked, h.marked.full, h.marked.cache, h.marked.modifying⟩,
      hunderway, h.deferred, nofun, fun _ => h.missing hidle, h.hashes, fun _ => h.max hbusy,
      fun _ hnone hcomplete => h.work hbusy hnone (hwork fun e he => ?_)⟩
    rcases List.mem_cons.mp he with rfl | he
    · exact hcomplete.entry _ rfl
    · exact hcomplete.stack e he

omit [DecidableEq H] in
theorem Inv.afterReads (h : Inv T s) {node : Option (StackEntry H)}
    (hphase : s.phase = .reads node) (hdeferred : s.deferred = []) (choice : Choice H) :
    Inv T (s.afterReads choice node) := by
  have hinPhase := h.phase
  rw [hphase] at hinPhase
  have hbusy : s.phase.busy = true := by rw [hphase]; rfl
  have hidle : s.phase ≠ .idle := by rw [hphase]; nofun
  unfold Sync.afterReads
  by_cases hmax : s.max ≤ 0
  · rw [if_pos hmax]
    exact ⟨⟨h.marked.root, h.marked.hooked, h.marked.full, h.marked.cache, h.marked.modifying⟩,
      fun hnil => absurd (h.max hbusy hnil) (not_lt.mpr hmax), h.deferred, h.resumes,
      fun _ => h.missing hidle, h.hashes, nofun, nofun⟩
  · rw [if_neg hmax]
    cases node with
    | none =>
      have hstack : s.stack = [] := hinPhase
      dsimp only
      rw [if_pos hstack]
      exact h.recheck hphase hdeferred choice
    | some e =>
      exact ⟨⟨h.marked.root, h.marked.hooked, h.marked.full, h.marked.cache, h.marked.modifying⟩,
        hinPhase, h.deferred, h.resumes, fun _ => h.missing hidle, h.hashes, fun _ => h.max hbusy,
        fun _ hnil hwork => h.work hbusy hnil
          ⟨by rw [hphase]; exact hwork.entry, hwork.stack, hwork.deferred, hwork.resumes⟩⟩

/-! ### Events -/

theorem Inv.advance (h : Inv T s) (choice : Choice H) : Inv T (s.advance T backed choice) := by
  unfold Sync.advance
  split
  · exact h
  · exact h
  · rename_i e hphase
    split_ifs with hlt
    · exact h.processBranch hphase choice
    · exact h.finishNode hphase hlt
  · rename_i node hphase
    split
    · rename_i hnil
      exact h.afterReads hphase hnil choice
    · rename_i r rest hcons
      -- the read that is finished next
      have hlt : choice.finished % (rest.length + 1) < s.deferred.length := by
        rw [hcons, List.length_cons]
        exact Nat.mod_lt _ (Nat.succ_pos _)
      have hget : (s.deferred[choice.finished % (rest.length + 1)]?).getD r =
          s.deferred[choice.finished % (rest.length + 1)] := by
        rw [List.getElem?_eq_getElem hlt, Option.getD_some]
      dsimp only
      rw [hget]
      refine h.processRead hphase (List.getElem_mem hlt) (List.eraseIdx_subset) fun x hx => ?_
      obtain ⟨i, hi, rfl⟩ := List.getElem_of_mem hx
      by_cases heq : i = choice.finished % (rest.length + 1)
      · subst heq
        exact .inl rfl
      · exact .inr (List.mem_eraseIdx_iff_getElem.mpr ⟨i, hi, heq, rfl⟩)

omit [DecidableEq H] in
theorem nodeAt_nil : T.nodeAt [] = some T.root := rfl

omit [DecidableEq H] in
theorem Inv.call (h : Inv T s) (choice : Choice H) {max : ℤ} (hmax : 0 < max) :
    Inv T (s.call T choice max) := by
  unfold Sync.call
  dsimp only
  split_ifs with hdone
  · have hcomplete : Complete T s.store T.root := by
      rcases hdone with hleaf | hmarked
      · exact complete_iff.mpr ⟨h.marked.root, below_of_leaf (by simpa using hleaf)⟩
      · exact h.marked.full [] hmarked T.root nodeAt_nil
    exact ⟨⟨h.marked.root, h.marked.hooked, h.marked.full, h.marked.cache, fun _ => hcomplete⟩,
      fun _ => hcomplete, nofun, nofun, fun _ => nofun, fun _ => rfl, nofun, nofun⟩
  · refine ⟨⟨h.marked.root, h.marked.hooked, h.marked.full, h.marked.cache, h.marked.modifying⟩,
      ⟨⟨nodeAt_nil, h.marked.root⟩, fun _ turn hturn => absurd hturn (Nat.not_lt_zero turn),
        trivial⟩, nofun, nofun, fun _ => nofun, fun _ => rfl, fun _ _ => hmax,
      fun _ _ hwork => ?_⟩
    exact complete_iff.mpr ⟨h.marked.root,
      below_of_turns fun turn hlt => hwork.entry _ rfl turn (Nat.zero_le turn) hlt⟩

omit [DecidableEq H] in
theorem Inv.rest (h : Inv T s) : Inv T { s with phase := .idle } :=
  ⟨⟨h.marked.root, h.marked.hooked, h.marked.full, h.marked.cache, h.marked.modifying⟩, trivial,
    h.deferred, h.resumes, fun hidle => absurd rfl hidle, h.hashes, nofun, nofun⟩

omit [DecidableEq H] in
theorem Inv.gain (h : Inv T s) (hidle : s.phase = .idle) {store : List H}
    {hooked : List (List (Fin 16))} {state : SHAMapState} (hsub : s.store ⊆ store)
    (hhooked : ∀ p ∈ hooked, ∀ h, T.nodeAt p = some h → h ∈ store)
    (hstate : state = .modifying → s.state = .modifying) :
    Inv T { s with store, hooked, state } := by
  refine ⟨⟨hsub h.marked.root, hhooked, fun p hp h' hh' => (h.marked.full p hp h' hh').mono hsub,
      fun h' hh' => (h.marked.cache h' hh').mono hsub,
      fun hmodifying => (h.marked.modifying (hstate hmodifying)).mono hsub⟩,
    ?_, fun r hr => ⟨(h.deferred r hr).1, hsub (h.deferred r hr).2⟩,
    fun x hx => ⟨(h.resumes x hx).1, hsub (h.resumes x hx).2⟩, fun hne => absurd hidle hne,
    h.hashes, fun hbusy => ?_, fun hbusy => ?_⟩
  · dsimp only
    rw [hidle]
    trivial
  · dsimp only at hbusy
    rw [hidle] at hbusy
    cases hbusy
  · dsimp only at hbusy
    rw [hidle] at hbusy
    cases hbusy

omit [DecidableEq H] in
theorem hooked_cons {hooked : List (List (Fin 16))} {p : List (Fin 16)} {c : H}
    (hhooked : ∀ p ∈ hooked, ∀ h, T.nodeAt p = some h → h ∈ store) (hp : T.nodeAt p = some c)
    (hc : c ∈ store) : ∀ q ∈ p :: hooked, ∀ h, T.nodeAt q = some h → h ∈ store := by
  intro q hq h hh
  rcases List.mem_cons.mp hq with rfl | hq
  · rw [hp, Option.some.injEq] at hh
    exact hh ▸ hc
  · exact hhooked q hq h hh

theorem Inv.hook (h : Inv T s) (hidle : s.phase = .idle) {node childID : List (Fin 16)}
    {childHash : H} (hchild : T.nodeAt childID = some childHash) (received : Option H) :
    Inv T (s.hook T node childHash childID received).2 := by
  rw [Sync.hook]
  split_ifs
  · exact h
  · exact h
  · exact h.gain hidle (List.Subset.refl _) h.marked.hooked nofun
  · exact h
  · have hsub : s.store ⊆ childHash :: s.store := List.subset_cons_self childHash s.store
    exact h.gain hidle hsub
      (hooked_cons (fun p hp h' hh' => hsub (h.marked.hooked p hp h' hh')) hchild
        List.mem_cons_self) id

theorem Inv.descendTo (choice : Choice H) (node : List (Fin 16)) (received : Option H)
    {branches : List (Fin 16)} {h : H} {nodeID : List (Fin 16)} (hinv : Inv T s)
    (hidle : s.phase = .idle) (hat : T.nodeAt nodeID = some h) :
    Inv T (s.descendTo T choice node received branches h nodeID).2 := by
  induction branches generalizing s h nodeID with
  | nil => exact hinv
  | cons branch rest ih =>
    rw [Sync.descendTo]
    split_ifs with hstop
    · exact hinv
    · split
      · exact hinv
      · rename_i childHash hchild
        have hat' : T.nodeAt (nodeID ++ [branch]) = some childHash := by
          rw [nodeAt_append, hat, Option.bind_some, hchild]
        dsimp only
        split_ifs with hcached hfound
        · exact hinv
        · have havailable : childHash ∈ s.store :=
            hfound.elim (fun hhooked => hinv.marked.hooked _ hhooked _ hat') id
          exact ih (hinv.gain hidle (List.Subset.refl _)
            (hooked_cons hinv.marked.hooked hat' havailable) id) hidle hat'
        · exact hinv.hook hidle hat' received

theorem Inv.addKnownNode (h : Inv T s) (hidle : s.phase = .idle) (choice : Choice H)
    (node : List (Fin 16)) (received : Option H) :
    Inv T (s.addKnownNode T choice node received).2 := by
  rw [Sync.addKnownNode]
  split_ifs
  · exact h
  · exact h.descendTo choice node received hidle nodeAt_nil

omit [DecidableEq H] in
theorem Inv.cacheInsert (h : Inv T s) {hash : H} (hcomplete : Complete T s.store hash) :
    Inv T { s with cache := hash :: s.cache } := by
  refine ⟨⟨h.marked.root, h.marked.hooked, h.marked.full, fun h' hh' => ?_, h.marked.modifying⟩, ?_,
    h.deferred, h.resumes, h.missing, h.hashes, h.max, fun hbusy hnil hwork => h.work hbusy hnil
      ⟨hwork.entry, hwork.stack, hwork.deferred, hwork.resumes⟩⟩
  · rcases List.mem_cons.mp hh' with rfl | hh'
    · exact hcomplete
    · exact h.marked.cache h' hh'
  · have hinPhase := h.phase
    dsimp only
    cases hphase : s.phase with
    | idle => trivial
    | process e => rwa [hphase] at hinPhase
    | reads node =>
      rw [hphase] at hinPhase
      exact hinPhase.reads_congr rfl rfl
    | done => rwa [hphase] at hinPhase

end Branch

section Run

variable [DecidableEq H] {s : Sync H}

/-- A step of a run. -/
def step (T : Target H) (backed : Bool) (s : Sync H) (event : Event H) : Sync H × Unit :=
  (s.step T backed event, ())

/-- A positive number of nodes is asked for, and what other maps enter in the full-below cache is
complete. -/
def Legal (T : Target H) (s : Sync H) : Event H → Prop
  | .call _ max => 0 < max
  | .cacheInsert hash => Complete T s.store hash
  | _ => True

/-- A map of which some nodes are available, and nothing is known of it. -/
def start (store : List H) : Sync H where
  store := store
  hooked := []
  fullBelowGen := []
  cache := []
  state := .synching
  max := 0
  missingNodes := []
  missingHashes := []
  stack := []
  deferred := []
  resumes := []
  phase := .idle

omit [DecidableEq H] in
theorem start_inv (hroot : T.root ∈ store) : Inv T (start store) :=
  ⟨⟨hroot, nofun, nofun, nofun, nofun⟩, trivial, nofun, nofun, fun hidle => absurd rfl hidle,
    fun _ => rfl, nofun, nofun⟩

theorem Inv.step {backed : Bool} (h : Inv T s) {event : Event H} (hlegal : Legal T s event) :
    Inv T (SHAMapSync.step T backed s event).1 := by
  cases event with
  | call choice max =>
    change Inv T (if s.phase.busy then s else s.call T choice max)
    split_ifs
    · exact h
    · exact h.call choice hlegal
  | advance choice => exact h.advance choice
  | addKnownNode choice node received =>
    change Inv T (if s.phase.busy then s
      else (Sync.addKnownNode T choice { s with phase := .idle } node received).2)
    split_ifs
    · exact h
    · exact h.rest.addKnownNode rfl choice node received
  | obtain hash =>
    change Inv T (if s.phase.busy then s else { s with store := hash :: s.store, phase := .idle })
    split_ifs
    · exact h
    · exact h.rest.gain rfl (List.subset_cons_self hash s.store)
        (fun p hp h' hh' => List.mem_cons_of_mem hash (h.marked.hooked p hp h' hh')) id
  | cacheInsert hash => exact h.cacheInsert hlegal

/-- **Synchronisation ends only when the tree is complete.** Whatever is received between the
traversals, and in whatever order: when `getMissingNodes` returns nothing, all nodes of the tree are
available; what it returns is not available; a node is marked full below only if its subtree is
available; and the map is given free for changes only if the tree is. -/
theorem sync_run (T : Target H) (backed : Bool) (store : List H) (hroot : T.root ∈ store)
    (events : List (Event H))
    (hlegal : Run.Always (step T backed) (Legal T) (start store) events) :
    let s := Run.final (step T backed) (start store) events
    (s.phase = .done → s.missingNodes = [] → Complete T s.store T.root) ∧
      (s.phase ≠ .idle → ∀ x ∈ s.missingNodes, IsMissing T s.store x) ∧
      (∀ nodeID ∈ s.fullBelowGen, ∀ h, T.nodeAt nodeID = some h → Complete T s.store h) ∧
      (s.state = .modifying → Complete T s.store T.root) := by
  intro s
  have hinv : Inv T s :=
    Run.invariant (Inv T) (fun _ _ h hevent => h.step hevent) (start_inv hroot) hlegal
  refine ⟨fun hdone => ?_, hinv.missing, hinv.marked.full, hinv.marked.modifying⟩
  have hinPhase := hinv.phase
  rwa [hdone] at hinPhase

/-- A root with two leaves. -/
def twoLeaves : Target ℕ where
  root := 0
  content h :=
    if h = 0 then .inner fun branch =>
      if branch.val = 3 then some 1 else if branch.val = 5 then some 2 else none
    else .leaf [⟨3, by decide⟩]

/-- No choice is made in any other way than the first possible. -/
def firstChoice (atHand : Bool) : Choice ℕ where
  random _ := 0
  atHand := atHand
  kept := true
  finished := 0
  order := id
  order_perm _ := .rfl

/-- A traversal with reads that are put off, which finds a leaf missing; the leaf; and a second one. -/
def twoCalls : List (Event ℕ) :=
  .call (firstChoice false) 2 :: List.replicate 38 (.advance (firstChoice false)) ++
    .obtain 2 :: .call (firstChoice true) 2 :: List.replicate 18 (.advance (firstChoice true))

set_option maxRecDepth 4000 in
theorem sync_run_twoLeaves :
    Complete twoLeaves (Run.final (step twoLeaves true) (start [0, 1]) twoCalls).store 0 :=
  (sync_run twoLeaves true [0, 1] (by decide) twoCalls ⟨Int.ofNat_succ_pos 1,
    by repeat constructor⟩).1 rfl rfl

end Run

end FalconLedger.SHAMapSync
