import FalconLedger.Properties.DirectoryChains

/-!
# What a directory holds

`Holds directory d f`: the pages `d` are intact and list an entry exactly on the page that `f` names.
Additions and removals change `f` at one entry.
-/

namespace FalconLedger.Directory

open scoped List

variable {K D : Type} {directory key : K} {d : Directory K D} {f : K → Option UInt64}

/-- The pages are intact, and list every entry on the page it is recorded with, once. -/
structure Holds (directory : K) (d : Directory K D) (f : K → Option UInt64) : Prop where
  intact : Intact directory d
  placed : ∀ key page, f key = some page ↔ key ∈ listed d page
  nodup : ∀ page, (listed d page).Nodup

theorem Holds.empty (directory : K) : Holds directory (∅ : Directory K D) fun _ => none where
  intact := .inl fun _ => AList.lookup_empty _
  placed key page := by simp [listed]
  nodup page := by simp [listed]

theorem Holds.notMem (h : Holds directory d f) (hkey : f key = none) (p : UInt64) :
    key ∉ listed d p := fun hmem => by
  rw [← h.placed, hkey] at hmem
  cases hmem

theorem Holds.dirAdd [LinearOrder K] (h : Holds directory d f) (hkey : f key = none)
    (preserveOrder : Bool) (describe : D) (fixDirectoryLimit : Bool) :
    d.dirAdd preserveOrder directory key describe fixDirectoryLimit = .ok none ∨
      ∃ page d', d.dirAdd preserveOrder directory key describe fixDirectoryLimit =
          .ok (some (page, d')) ∧ Holds directory d' (Function.update f key (some page)) := by
  have hfresh := h.notMem hkey
  rcases dirAdd_spec h.intact hfresh with hnone | ⟨page, pages, l, hpages, hintact, hl, hlisted⟩
  · exact .inl hnone
  refine .inr ⟨page, pages, hpages, hintact, fun k q => ?_, fun q => ?_⟩
  · rw [hlisted]
    by_cases hk : k = key
    · subst hk
      rw [Function.update_self, Option.some.injEq, Function.update_apply]
      split_ifs with hq
      · simp [hq, hl.mem_iff]
      · simp [hfresh q, Ne.symm hq]
    · rw [Function.update_of_ne hk, h.placed, Function.update_apply]
      split_ifs with hq
      · rw [hl.mem_iff, List.mem_cons, hq]
        simp [hk]
      · rfl
  · rw [hlisted, Function.update_apply]
    split_ifs
    · rw [hl.nodup_iff]
      exact List.nodup_cons.mpr ⟨hfresh page, h.nodup page⟩
    · exact h.nodup q

theorem Holds.dirRemove [DecidableEq K] {page : UInt64} (h : Holds directory d f)
    (hkey : f key = some page) (keepRoot : Bool) :
    ∃ d', d.dirRemove page key keepRoot = .ok (true, d') ∧
      Holds directory d' (Function.update f key none) := by
  obtain ⟨pages, hpages, hintact, hlisted⟩ :=
    dirRemove_of_mem keepRoot h.intact ((h.placed key page).mp hkey)
  refine ⟨pages, hpages, hintact, fun k q => ?_, fun q => ?_⟩
  · rw [hlisted]
    by_cases hk : k = key
    · subst hk
      rw [Function.update_self, Function.update_apply]
      split_ifs with hq
      · simp [(h.nodup page).not_mem_erase]
      · have hother : k ∉ listed d q := fun hmem => by
          rw [← h.placed, hkey, Option.some.injEq] at hmem
          exact hq hmem.symm
        simp [hother]
    · rw [Function.update_of_ne hk, h.placed, Function.update_apply]
      split_ifs with hq
      · rw [hq, List.mem_erase_of_ne hk]
      · rfl
  · rw [hlisted, Function.update_apply]
    split_ifs
    · exact (h.nodup page).erase key
    · exact h.nodup q

private theorem listed_of_mem_entries {e : Sigma fun _ : UInt64 => DirectoryNode K D}
    (he : e ∈ d.entries) : listed d e.1 = e.2.indexes :=
  listed_of_lookup (AList.mem_lookup_iff.mpr he)

theorem Holds.nodup_contents (h : Holds directory d f) : (contents d).Nodup := by
  refine List.nodup_flatMap.mpr ⟨fun e he => listed_of_mem_entries he ▸ h.nodup e.1, ?_⟩
  refine (List.nodupKeys_iff_pairwise.mp d.nodupKeys).imp_of_mem fun {e e'} he he' hne => ?_
  intro k hk hk'
  dsimp only at hk hk'
  rw [← listed_of_mem_entries he, ← h.placed] at hk
  rw [← listed_of_mem_entries he', ← h.placed, hk, Option.some.injEq] at hk'
  exact hne hk'

theorem Holds.mem_contents (h : Holds directory d f) : key ∈ contents d ↔ (f key).isSome := by
  rw [contents, List.mem_flatMap, Option.isSome_iff_exists]
  constructor
  · rintro ⟨e, he, hk⟩
    rw [← listed_of_mem_entries he] at hk
    exact ⟨e.1, (h.placed key e.1).mpr hk⟩
  · rintro ⟨page, hpage⟩
    have hk := (h.placed key page).mp hpage
    cases hnode : d.lookup page with
    | none =>
      rw [listed_of_none hnode] at hk
      cases hk
    | some node =>
      exact ⟨⟨page, node⟩, AList.mem_lookup_iff.mp hnode, listed_of_lookup hnode ▸ hk⟩

theorem Holds.count [DecidableEq K] (h : Holds directory d f) (key : K) :
    (contents d).count key = if (f key).isSome then 1 else 0 := by
  rw [h.nodup_contents.count]
  exact if_congr h.mem_contents rfl rfl

/-! ### What the pages are described as -/

/-- Every page is described in a way that meets `P`. -/
def Described (P : D → Prop) (d : Directory K D) : Prop := Table.All (fun node => P node.described) d

variable {P : D → Prop} {d' : Directory K D} {p : UInt64} {node : DirectoryNode K D}

theorem described_empty : Described P (∅ : Directory K D) := fun p node h => by
  rw [AList.lookup_empty] at h
  cases h

private theorem bind_ok {α β : Type} {x : Except DirectoryError α}
    {g : α → Except DirectoryError β} {b : β} :
    (x >>= g) = .ok b ↔ ∃ a, x = .ok a ∧ g a = .ok b := by
  cases x <;> simp [bind, Except.bind]

private theorem pure_ok {α : Type} {a b : α} :
    (pure a : Except DirectoryError α) = .ok b ↔ a = b := by
  simp [pure, Except.pure]

private theorem map_ok {α β : Type} {x : Except DirectoryError α} {g : α → β} {b : β} :
    g <$> x = .ok b ↔ ∃ a, x = .ok a ∧ g a = b := by
  cases x <;> simp [Functor.map, Except.map]

private theorem peek_described {e : DirectoryError} (h : Described P d) (hp : d.peek p e = .ok node) :
    P node.described := by
  unfold peek at hp
  cases hnode : d.lookup p with
  | none => simp [hnode] at hp
  | some n =>
    simp only [hnode, Except.ok.injEq] at hp
    exact hp ▸ h p n hnode

private theorem update_described {g : DirectoryNode K D → DirectoryNode K D} (h : Described P d)
    (hd : d.update p g = .ok d') (hg : ∀ n, (g n).described = n.described) : Described P d' := by
  simp only [update, bind_ok, pure_ok] at hd
  obtain ⟨n, hn, rfl⟩ := hd
  have hdescribed := peek_described h hn
  exact h.insert (by rwa [hg n])

private theorem eraseNode_described (h : Described P d) (hd : d.eraseNode p = .ok d') :
    Described P d' := by
  simp only [eraseNode, bind_ok, pure_ok] at hd
  obtain ⟨-, -, rfl⟩ := hd
  exact h.erase p

private theorem insertNode_described (h : Described P d) (hd : d.insertNode p node = .ok d')
    (hnode : P node.described) : Described P d' := by
  unfold insertNode at hd
  split_ifs at hd
  cases hd
  exact h.insert hnode

theorem dirAdd_described [LinearOrder K] {preserveOrder : Bool} {describe : D}
    {fixDirectoryLimit : Bool} (h : Described P d) (hdescribe : P describe)
    (hd : d.dirAdd preserveOrder directory key describe fixDirectoryLimit = .ok (some (p, d'))) :
    Described P d' := by
  unfold dirAdd at hd
  split at hd
  · simp only [createRoot, map_ok, bind_ok, pure_ok, Option.some.injEq] at hd
    obtain ⟨_, ⟨_, hroot, rfl⟩, heq⟩ := hd
    cases heq
    exact insertNode_described h hroot hdescribe
  · simp only [bind_ok] at hd
    obtain ⟨⟨page, node⟩, -, hd⟩ := hd
    split_ifs at hd
    · simp only [insertKey, map_ok, bind_ok, pure_ok, Option.some.injEq] at hd
      obtain ⟨_, ⟨_, -, _, hupdate, rfl⟩, heq⟩ := hd
      cases heq
      exact update_described h hupdate fun _ => rfl
    · unfold insertPage at hd
      extract_lets newPage at hd
      split_ifs at hd
      · cases hd
      · cases hd
      · simp only [bind_ok, pure_ok, Option.some.injEq] at hd
        obtain ⟨_, hlast, _, hroot, _, hnew, heq⟩ := hd
        obtain ⟨-, rfl⟩ := Prod.mk.inj heq
        exact insertNode_described
          (update_described (update_described h hlast fun _ => rfl) hroot fun _ => rfl) hnew
          hdescribe

private theorem removeFromRoot_described {keepRoot : Bool} (h : Described P d)
    (hd : d.removeFromRoot node keepRoot = .ok d') : Described P d' := by
  simp only [removeFromRoot, bind_ok] at hd
  obtain ⟨-, -, ⟨only, d₁⟩, hlegacy, hd⟩ := hd
  have hd₁ : Described P d₁ := by
    simp only [dropLegacyPage] at hlegacy
    split_ifs at hlegacy
    · simp only [bind_ok] at hlegacy
      obtain ⟨_, -, hlegacy⟩ := hlegacy
      split_ifs at hlegacy
      · simp only [bind_ok, pure_ok] at hlegacy
        obtain ⟨_, hroot, _, hnext, heq⟩ := hlegacy
        cases heq
        exact eraseNode_described (update_described h hroot fun _ => rfl) hnext
      · cases pure_ok.mp hlegacy
        exact h
    · cases hlegacy
      exact h
  dsimp only at hd
  split_ifs at hd
  · exact eraseNode_described hd₁ hd
  · cases pure_ok.mp hd
    exact hd₁

private theorem removePage_described {keepRoot : Bool} (h : Described P d)
    (hd : d.removePage p node keepRoot = .ok d') : Described P d' := by
  simp only [removePage] at hd
  split_ifs at hd
  simp only [bind_ok] at hd
  obtain ⟨_, -, d₁, hprev, next, -, d₂, hnext, d₃, hpage, ⟨_, d₄⟩, hlast, hd⟩ := hd
  have hd₃ : Described P d₃ := eraseNode_described
    (update_described (update_described h hprev fun _ => rfl) hnext fun _ => rfl) hpage
  have hd₄ : Described P d₄ := by
    simp only [dropEmptyLast] at hlast
    split_ifs at hlast
    · simp only [bind_ok, pure_ok] at hlast
      obtain ⟨_, herase, _, hunlink, _, -, _, hroot, heq⟩ := hlast
      cases heq
      exact update_described (update_described (eraseNode_described hd₃ herase) hunlink fun _ => rfl)
        hroot fun _ => rfl
    · cases hlast
      exact hd₃
  dsimp only at hd
  split_ifs at hd
  · exact eraseNode_described hd₄ hd
  · cases pure_ok.mp hd
    exact hd₄

theorem dirRemove_described [DecidableEq K] {keepRoot found : Bool} (h : Described P d)
    (hd : d.dirRemove p key keepRoot = .ok (found, d')) : Described P d' := by
  unfold dirRemove at hd
  split at hd
  · cases hd
    exact h
  · split at hd
    · cases hd
      exact h
    · simp only [bind_ok] at hd
      obtain ⟨d₁, hentries, hd⟩ := hd
      have hd₁ : Described P d₁ := update_described h hentries fun _ => rfl
      split at hd
      · cases pure_ok.mp hd
        exact hd₁
      · split at hd
        · simp only [bind_ok, pure_ok] at hd
          obtain ⟨d₂, hroot, heq⟩ := hd
          cases heq
          exact removeFromRoot_described hd₁ hroot
        · simp only [bind_ok, pure_ok] at hd
          obtain ⟨d₂, hpage, heq⟩ := hd
          cases heq
          exact removePage_described hd₁ hpage

end FalconLedger.Directory
