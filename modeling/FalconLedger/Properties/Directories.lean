import FalconLedger.Data.Run
import FalconLedger.Properties.DirectoryHoldings

/-!
# Directories keep every entry on the page it was put on

Over any sequence of operations on one directory, no entry moves: it leaves by `dirRemove` from the
page that `dirAdd` returned, or with the whole directory.
-/

namespace FalconLedger.Directory

open scoped List

variable {K D : Type} {directory key : K} {d : Directory K D}

/-- The operations on one directory. The rules in force come with an addition. -/
inductive Op (K D : Type)
  | dirAppend (key : K) (describe : D) (fixDirectoryLimit : Bool)
  | dirInsert (key : K) (describe : D) (fixDirectoryLimit : Bool)
  | dirRemove (page : UInt64) (key : K) (keepRoot : Bool)
  | dirDelete
  | emptyDirDelete

/-- What an operation returns. -/
inductive Reply (K : Type)
  | added (page : Option UInt64)
  | removed (found : Bool)
  | deleted (done : Bool) (called : List K)
  | emptied (done : Bool)

/-- The directory, and on record, for every entry added and not removed since, the page that was
returned when it was added. -/
structure History (K D : Type) where
  pages : Directory K D
  held : Table K UInt64

section System

variable [LinearOrder K]

/-- Nothing has been added. -/
def start : History K D := ⟨∅, ∅⟩

/-- An operation leads to a new state and a reply, or its exception leaves the state alone. -/
def attempt {α : Type} (s : History K D) (r : Except DirectoryError α)
    (f : α → History K D × Reply K) : History K D × Except DirectoryError (Reply K) :=
  match r with
  | .error e => (s, .error e)
  | .ok a => ((f a).1, .ok (f a).2)

/-- The state after an addition. -/
def afterAdd (s : History K D) (key : K) :
    Option (UInt64 × Directory K D) → History K D × Reply K
  | none => (s, .added none)
  | some (page, pages) => (⟨pages, s.held.insert key page⟩, .added (some page))

def step (directory : K) (s : History K D) :
    Op K D → History K D × Except DirectoryError (Reply K)
  | .dirAppend key describe fixDirectoryLimit =>
    attempt s (s.pages.dirAppend directory key describe fixDirectoryLimit) (afterAdd s key)
  | .dirInsert key describe fixDirectoryLimit =>
    attempt s (s.pages.dirInsert directory key describe fixDirectoryLimit) (afterAdd s key)
  | .dirRemove page key keepRoot =>
    attempt s (s.pages.dirRemove page key keepRoot) fun r =>
      (⟨r.2, if r.1 then s.held.erase key else s.held⟩, .removed r.1)
  | .dirDelete =>
    (⟨s.pages.dirDelete.2.2, ∅⟩, .ok (.deleted s.pages.dirDelete.1 s.pages.dirDelete.2.1))
  | .emptyDirDelete =>
    attempt s (s.pages.emptyDirDelete directory) fun r => (⟨r.2, s.held⟩, .emptied r.1)

/-- A key to be added is not present. -/
def Fresh (s : History K D) : Op K D → Prop
  | .dirAppend key _ _ => key ∉ s.held
  | .dirInsert key _ _ => key ∉ s.held
  | _ => True

/-- The pages are intact, and every entry on record is on its page, once, and no other entry is on
any page. -/
structure Sound (directory : K) (s : History K D) : Prop where
  intact : Intact directory s.pages
  placed : ∀ key page, s.held.lookup key = some page ↔ key ∈ listed s.pages page
  nodup : ∀ page, (listed s.pages page).Nodup

variable {s : History K D}

theorem Sound.holds (h : Sound directory s) : Holds directory s.pages fun k => s.held.lookup k :=
  ⟨h.intact, h.placed, h.nodup⟩

theorem start_sound (directory : K) : Sound directory (start : History K D) where
  intact := .inl fun _ => AList.lookup_empty _
  placed key page := by simp [start, listed]
  nodup page := by simp [start, listed]

theorem Sound.attempt_dirAdd (h : Sound directory s) (preserveOrder : Bool) (describe : D)
    (fixDirectoryLimit : Bool) (hkey : key ∉ s.held) :
    Sound directory (attempt s
        (s.pages.dirAdd preserveOrder directory key describe fixDirectoryLimit)
        (afterAdd s key)).1 ∧
      ∃ r, (attempt s (s.pages.dirAdd preserveOrder directory key describe fixDirectoryLimit)
        (afterAdd s key)).2 = .ok r := by
  have hnone : s.held.lookup key = none := AList.lookup_eq_none.mpr hkey
  rcases h.holds.dirAdd hnone preserveOrder describe fixDirectoryLimit with
    hfull | ⟨page, pages, hpages, hholds⟩
  · rw [hfull]
    exact ⟨h, _, rfl⟩
  rw [hpages]
  refine ⟨⟨hholds.intact, fun k q => ?_, hholds.nodup⟩, _, rfl⟩
  have hupdate : (s.held.insert key page).lookup k =
      Function.update (fun k => s.held.lookup k) key (some page) k := by
    by_cases hk : k = key
    · rw [hk, AList.lookup_insert, Function.update_self]
    · rw [AList.lookup_insert_ne hk, Function.update_of_ne hk]
  change (s.held.insert key page).lookup k = some q ↔ k ∈ listed pages q
  rw [hupdate]
  exact hholds.placed k q

theorem Sound.attempt_dirRemove (h : Sound directory s) (page : UInt64) (keepRoot : Bool) :
    Sound directory (step directory s (.dirRemove page key keepRoot)).1 ∧
      ∃ r, (step directory s (.dirRemove page key keepRoot)).2 = .ok r := by
  by_cases hkey : key ∈ listed s.pages page
  · obtain ⟨pages, hpages, hholds⟩ := h.holds.dirRemove ((h.placed key page).mpr hkey) keepRoot
    simp only [step, hpages, attempt]
    refine ⟨⟨hholds.intact, fun k q => ?_, hholds.nodup⟩, _, rfl⟩
    have hupdate : (s.held.erase key).lookup k =
        Function.update (fun k => s.held.lookup k) key none k := by
      by_cases hk : k = key
      · rw [hk, AList.lookup_erase, Function.update_self]
      · rw [AList.lookup_erase_ne hk, Function.update_of_ne hk]
    change (s.held.erase key).lookup k = some q ↔ k ∈ listed pages q
    rw [hupdate]
    exact hholds.placed k q
  · simp only [step, dirRemove_of_notMem keepRoot hkey, attempt]
    exact ⟨h, _, rfl⟩

theorem Sound.step_dirDelete (h : Sound directory s) :
    Sound directory (step directory s .dirDelete).1 := by
  have hnone := dirDelete_spec h.intact
  refine ⟨.inl hnone, fun key page => ?_, fun page => ?_⟩
  · simp [step, listed_of_none (hnone page)]
  · simp [step, listed_of_none (hnone page)]

theorem Sound.step_emptyDirDelete (h : Sound directory s) :
    Sound directory (step directory s .emptyDirDelete).1 ∧
      ∃ r, (step directory s .emptyDirDelete).2 = .ok r := by
  obtain ⟨b, pages, hpages, hintact, hlisted⟩ := emptyDirDelete_spec h.intact
  simp only [step, hpages, attempt]
  exact ⟨⟨hintact, fun key page => hlisted ▸ h.placed key page, fun page => hlisted ▸ h.nodup page⟩,
    _, rfl⟩

theorem Sound.step (h : Sound directory s) {op : Op K D} (hfresh : Fresh s op) :
    Sound directory (Directory.step directory s op).1 ∧
      ∃ r, (Directory.step directory s op).2 = .ok r := by
  cases op with
  | dirAppend key describe limit => exact h.attempt_dirAdd true describe limit hfresh
  | dirInsert key describe limit => exact h.attempt_dirAdd false describe limit hfresh
  | dirRemove page key keepRoot => exact h.attempt_dirRemove page keepRoot
  | dirDelete => exact ⟨h.step_dirDelete, _, rfl⟩
  | emptyDirDelete => exact h.step_emptyDirDelete

theorem Sound.contents_perm (h : Sound directory s) : contents s.pages ~ s.held.keys := by
  refine (List.perm_ext_iff_of_nodup h.holds.nodup_contents s.held.keys_nodup).mpr fun k => ?_
  rw [h.holds.mem_contents, AList.lookup_isSome, AList.mem_keys]

/-- **A directory keeps every entry once and findable.** After any operations that add no key
already present, there are no pages, or the pages form a ring from page `0`; no page but the root is
empty, and none has more than `kDirNodeMaxEntries` entries. The entries are those added and not removed,
each once; `dirRemove` finds each on the page returned when it was added; and nothing is thrown. -/
theorem directory_run (directory : K) (ops : List (Op K D))
    (hfresh : Run.Always (step directory) Fresh start ops) :
    let s := Run.final (step directory) start ops
    (s.pages = ∅ ∨ ∃ rest, s.pages.keys ~ 0 :: rest ∧
      LinkedRing (nextOf s.pages) (prevOf s.pages) 0 rest ∧
      prevOf s.pages 0 = (0 :: rest).getLast (List.cons_ne_nil _ _) ∧
      ∀ page ∈ rest, listed s.pages page ≠ []) ∧
    (∀ page, (listed s.pages page).length ≤ kDirNodeMaxEntries) ∧
    contents s.pages ~ s.held.keys ∧
    (∀ key page keepRoot, s.held.lookup key = some page →
      ∃ pages, s.pages.dirRemove page key keepRoot = .ok (true, pages)) ∧
    ∀ reply ∈ Run.outputs (step directory) start ops, ∃ r, reply = .ok r := by
  intro s
  have hstep : ∀ (s : History K D) (op : Op K D), Sound directory s → Fresh s op →
      Sound directory (step directory s op).1 := fun s op h hop => (h.step hop).1
  have hsound : Sound directory s :=
    Run.invariant (Sound directory) hstep (start_sound directory) hfresh
  refine ⟨?_, fun page => ?_, hsound.contents_perm, fun key page keepRoot hheld => ?_, ?_⟩
  · rcases hsound.intact.keys_perm with hempty | ⟨rest, hkeys, hchained⟩
    · exact .inl hempty
    · exact .inr ⟨rest, hkeys, hchained.ring, hchained.ring.prev_root, hchained.nonempty⟩
  · rcases hsound.intact with hnone | ⟨rest, hchained⟩
    · rw [listed_of_none (hnone page)]
      exact Nat.zero_le _
    · exact hchained.bounded page
  · obtain ⟨pages, hpages, -⟩ :=
      dirRemove_of_mem keepRoot hsound.intact ((hsound.placed key page).mp hheld)
    exact ⟨pages, hpages⟩
  · exact Run.outputs_of_invariant (Sound directory) hstep (fun s op h hop => (h.step hop).2)
      (start_sound directory) hfresh

/-- The second of two entries is found on the root page, once the first is gone. -/
theorem directory_run_one_left :
    Run.Always (step 9) Fresh (start : History ℕ Unit)
        [.dirInsert 2 () true, .dirInsert 1 () true, .dirRemove 0 2 false] ∧
      ∃ pages, dirRemove (Run.final (step 9) (start : History ℕ Unit)
        [.dirInsert 2 () true, .dirInsert 1 () true, .dirRemove 0 2 false]).pages 0 1 false =
          .ok (true, pages) := by
  have hfirst : 2 ∉ (start : History ℕ Unit).held := by decide
  have hsecond : 1 ∉ (step 9 (start : History ℕ Unit) (.dirInsert 2 () true)).1.held := by decide
  have hfresh : Run.Always (step 9) Fresh (start : History ℕ Unit)
      [.dirInsert 2 () true, .dirInsert 1 () true, .dirRemove 0 2 false] :=
    ⟨hfirst, hsecond, trivial, trivial⟩
  exact ⟨hfresh, (directory_run 9 _ hfresh).2.2.2.1 1 0 false (by decide)⟩

end System

end FalconLedger.Directory
