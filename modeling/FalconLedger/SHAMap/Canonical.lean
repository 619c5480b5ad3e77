import FalconLedger.SHAMap.Operations
import Mathlib.Data.Nat.Digits.Lemmas

/-!
# The operations on a canonical tree

What `addGiveItem`, `updateGiveItem` and `delItem` do to a tree whose leaves are where their keys put
them: the walk down with its stack and the way back up are one recursion over the tree, which keeps
the tree canonical and changes the one leaf.
-/

namespace FalconLedger

open RadixTree SHAMapTreeNode

namespace SHAMap

/-! ### Digits -/

private theorem toNat_div_eq {k k' : UInt256} {d : ℕ} (hd : d ≤ 64)
    (h : ∀ e < d, nibble e k = nibble e k') :
    k.toNat / 16 ^ (64 - d) = k'.toNat / 16 ^ (64 - d) := by
  induction d with
  | zero =>
    have hlt : ∀ x : UInt256, x.toNat / 16 ^ 64 = 0 := fun x => by
      rw [Nat.div_eq_of_lt]
      exact x.isLt
    rw [Nat.sub_zero, hlt, hlt]
  | succ d ih =>
    have hprev := ih (by omega) fun e he => h e (by omega)
    have hdigit := congrArg Fin.val (h d (by omega))
    simp only [nibble, Fin.val_ofNat] at hdigit
    have hpow : 64 - d = (63 - d) + 1 := by omega
    have hsucc : 64 - (d + 1) = 63 - d := by omega
    rw [hpow, pow_succ, ← Nat.div_div_eq_div_mul, ← Nat.div_div_eq_div_mul] at hprev
    rw [hsucc, ← Nat.div_add_mod (k.toNat / 16 ^ (63 - d)) 16,
      ← Nat.div_add_mod (k'.toNat / 16 ^ (63 - d)) 16, hprev, hdigit]

theorem eq_of_nibble {k k' : UInt256} (h : ∀ e < kLeafDepth, nibble e k = nibble e k') : k = k' := by
  have hdiv := toNat_div_eq le_rfl h
  simpa using BitVec.eq_of_toNat_eq (by simpa using hdiv)

theorem lt_of_nibble {k k' : UInt256} {d : ℕ} (h : ∀ e < d, nibble e k = nibble e k')
    (hlt : nibble d k < nibble d k') : k < k' := by
  by_cases hd : d < 64
  · have hprev := toNat_div_eq hd.le h
    have hdigit : k.toNat / 16 ^ (63 - d) % 16 < k'.toNat / 16 ^ (63 - d) % 16 := hlt
    have hpow : 64 - d = (63 - d) + 1 := by omega
    rw [hpow, pow_succ, ← Nat.div_div_eq_div_mul, ← Nat.div_div_eq_div_mul] at hprev
    have hquot : k.toNat / 16 ^ (63 - d) < k'.toNat / 16 ^ (63 - d) := by omega
    exact BitVec.lt_def.mpr (Nat.lt_of_div_lt_div hquot)
  · have heq : k = k' := eq_of_nibble fun e he => h e (by unfold kLeafDepth at he; omega)
    rw [heq] at hlt
    exact absurd hlt (lt_irrefl _)

end SHAMap

/-! ### Places -/

namespace SHAMapNodeID

/-- There are no digits below the depth. -/
def Masked (nodeID : SHAMapNodeID) : Prop := nodeID.id = nodeID.id &&& depthMask nodeID.depth

theorem masked_root : Masked {} := by
  unfold Masked
  exact BitVec.zero_and.symm

private theorem getLsbD_depthMask {d : ℕ} (hd : d ≤ 64) (i : ℕ) :
    (depthMask d).getLsbD i = (decide (256 - 4 * d ≤ i) && decide (i < 256)) := by
  rw [depthMask, BitVec.getLsbD_shiftLeft, BitVec.getLsbD_allOnes]
  grind

private theorem masked_child {id : UInt256} {d : ℕ} (h : id = id &&& depthMask d) (hd : d < 64)
    (m : Fin 16) : Masked ⟨d + 1, id ||| (BitVec.ofNat 256 m.val <<< (252 - 4 * d))⟩ := by
  unfold Masked
  refine BitVec.eq_of_getLsbD_eq fun i hi => ?_
  have hid : id.getLsbD i = (id.getLsbD i && (depthMask d).getLsbD i) := by
    rw [← BitVec.getLsbD_and, ← h]
  rw [getLsbD_depthMask hd.le] at hid
  have hdepth : 256 - 4 * (d + 1) = 252 - 4 * d := by omega
  simp only [BitVec.getLsbD_and, BitVec.getLsbD_or, BitVec.getLsbD_shiftLeft]
  rw [getLsbD_depthMask hd, hid, hdepth]
  by_cases hlow : i < 252 - 4 * d
  · have habove : ¬256 - 4 * d ≤ i := by omega
    simp [hlow, habove]
  · simp only [hi, hlow]
    grind

theorem getChildNodeID_ok {nodeID : SHAMapNodeID} (h : nodeID.Masked)
    (hd : nodeID.depth < SHAMap.kLeafDepth) (m : Fin 16) :
    ∃ child, nodeID.getChildNodeID m = some child := by
  unfold getChildNodeID
  rw [if_neg (by omega), if_neg fun hne => hne h]
  exact ⟨_, rfl⟩

theorem getChildNodeID_eq_some {nodeID child : SHAMapNodeID} {m : Fin 16}
    (h : nodeID.getChildNodeID m = some child) :
    nodeID.depth < SHAMap.kLeafDepth ∧ child.depth = nodeID.depth + 1 ∧ child.Masked := by
  unfold getChildNodeID at h
  split_ifs at h with hd hid
  have hlt : nodeID.depth < SHAMap.kLeafDepth := not_le.mp hd
  obtain rfl := Option.some.inj h
  exact ⟨hlt, rfl, masked_child (not_not.mp hid) hlt m⟩

end SHAMapNodeID

namespace SHAMap

/-! ### Sound trees -/

/-- A node at a depth: its leaves are where their keys put them, and only the root may be an inner node
with fewer than two leaves below it. -/
structure Sound (d : ℕ) (t : SHAMapTreeNode) : Prop where
  placed : Placed nibble keyOf d t
  children : ∀ c, t = .inner c → ∀ i, Branching (c i)
  branching : 0 < d → Branching t
  root : d = 0 → ∃ c, t = .inner c

/-- The keys below a node have the digits of the key that leads there. -/
abbrev Under (d : ℕ) (tag : UInt256) (t : SHAMapTreeNode) : Prop := Below nibble keyOf d tag t

theorem Sound.of_canonical {d : ℕ} {t : SHAMapTreeNode} (hd : 0 < d)
    (h : Canonical nibble keyOf d t) : Sound d t where
  placed := h.placed
  children := fun c hc i => by
    have hb := h.branching
    rw [hc] at hb
    exact hb.1 i
  branching := fun _ => h.branching
  root := fun h0 => absurd h0 hd.ne'

theorem Sound.child {d : ℕ} {c : Fin 16 → SHAMapTreeNode} (h : Sound d (.inner c)) (i : Fin 16) :
    Canonical nibble keyOf (d + 1) (c i) :=
  ⟨h.placed.1 i, h.children c rfl i⟩

/-- An empty map. -/
theorem sound_newInner : Sound 0 newInner where
  placed := ⟨fun _ => trivial, fun _ l hl => absurd hl (not_mem_empty l)⟩
  children := fun c hc i => by
    obtain rfl := RadixTree.inner.inj hc
    trivial
  branching := fun h => absurd h (lt_irrefl 0)
  root := fun _ => ⟨_, rfl⟩

theorem Sound.depth_lt {d : ℕ} {tag : UInt256} {c : Fin 16 → SHAMapTreeNode} (h : Sound d (.inner c))
    (hunder : Under d tag (.inner c)) : d < kLeafDepth := by
  by_contra hd
  obtain ⟨-, l, l', hl, hl', hne⟩ := h.branching (by unfold kLeafDepth at hd; omega)
  refine hne (h.placed.eq_of_key_eq hl hl' (eq_of_nibble fun e he => ?_))
  rw [hunder l hl e (by omega), hunder l' hl' e (by omega)]

/-- A stack of nodes, from the top down to the root, on the way of a key. The place of each is that of
some child of the one below it; only its depth is told. -/
inductive OnPath (root : SHAMapTreeNode) (tag : UInt256) : NodeStack → Prop
  | root : OnPath root tag [(root, {})]
  | child {c : Fin 16 → SHAMapTreeNode} {nodeID child : SHAMapNodeID} {m : Fin 16} {stack : NodeStack}
      (parent : OnPath root tag ((.inner c, nodeID) :: stack))
      (place : nodeID.getChildNodeID m = some child) :
      OnPath root tag ((c (selectBranch nodeID tag), child) :: (.inner c, nodeID) :: stack)

section Path

variable {root node : SHAMapTreeNode} {tag : UInt256} {nodeID : SHAMapNodeID} {stack : NodeStack}

theorem OnPath.masked (h : OnPath root tag ((node, nodeID) :: stack)) : nodeID.Masked := by
  cases h with
  | root => exact SHAMapNodeID.masked_root
  | child parent place => exact (SHAMapNodeID.getChildNodeID_eq_some place).2.2

theorem OnPath.depth_le (h : OnPath root tag ((node, nodeID) :: stack)) :
    nodeID.depth ≤ kLeafDepth := by
  cases h with
  | root => exact Nat.zero_le _
  | child parent place =>
    obtain ⟨hlt, hdepth, -⟩ := SHAMapNodeID.getChildNodeID_eq_some place
    omega

theorem OnPath.eq_root (h : OnPath root tag ((node, nodeID) :: stack)) (hd : nodeID.depth = 0) :
    node = root ∧ stack = [] := by
  cases h with
  | root => exact ⟨rfl, rfl⟩
  | child parent place =>
    obtain ⟨-, hdepth, -⟩ := SHAMapNodeID.getChildNodeID_eq_some place
    omega

theorem OnPath.sound (hroot : Sound 0 root) {s : NodeStack} (h : OnPath root tag s) :
    ∀ node nodeID stack, s = (node, nodeID) :: stack →
      Sound nodeID.depth node ∧ Under nodeID.depth tag node ∧
        (∀ l ∈ node, l ∈ root) ∧ ∀ l ∈ root, keyOf l = tag → l ∈ node := by
  induction h with
  | root =>
    rintro node nodeID stack heq
    obtain ⟨⟨rfl, rfl⟩, -⟩ : (root = node ∧ ({} : SHAMapNodeID) = nodeID) ∧ [] = stack := by
      simpa using heq
    exact ⟨hroot, fun l _ e he => absurd he (Nat.not_lt_zero e), fun l hl => hl, fun l hl _ => hl⟩
  | @child c nodeID child m stack parent place ih =>
    rintro node nodeID' stack' heq
    obtain ⟨⟨rfl, rfl⟩, -⟩ : (c (selectBranch nodeID tag) = node ∧ child = nodeID') ∧
        (.inner c, nodeID) :: stack = stack' := by
      simpa using heq
    obtain ⟨hsound, hunder, hsub, hown⟩ := ih _ _ _ rfl
    obtain ⟨hlt, hdepth, -⟩ := SHAMapNodeID.getChildNodeID_eq_some place
    rw [hdepth]
    refine ⟨Sound.of_canonical (Nat.succ_pos _) (hsound.child _), fun l hl e he => ?_,
      fun l hl => hsub l ⟨_, hl⟩, fun l hl hkey => ?_⟩
    · rcases Nat.lt_succ_iff_lt_or_eq.mp he with he | rfl
      · exact hunder l ⟨_, hl⟩ e he
      · exact hsound.placed.2 _ l hl
    · refine hsound.placed.mem_child.mpr ⟨hown l hl hkey, ?_⟩
      rw [hkey]
      rfl

/-! ### The walk -/

/-- A walk is over at a leaf, or where the next branch is empty. -/
def Ended (tag : UInt256) (node : SHAMapTreeNode) (nodeID : SHAMapNodeID) : Prop :=
  (∃ l, node = .leaf l) ∨ ∃ c, node = .inner c ∧ c (selectBranch nodeID tag) = .empty

theorem walkFrom_onPath (hroot : Sound 0 root) (h : OnPath root tag ((node, nodeID) :: stack))
    (hne : node ≠ .empty) :
    ∃ node' nodeID' stack', walkFrom tag node nodeID stack = some ((node', nodeID') :: stack') ∧
      OnPath root tag ((node', nodeID') :: stack') ∧ Ended tag node' nodeID' := by
  induction node generalizing nodeID stack with
  | empty => exact absurd rfl hne
  | leaf l => exact ⟨_, _, _, rfl, h, .inl ⟨l, rfl⟩⟩
  | inner c ih =>
    by_cases hempty : (c (selectBranch nodeID tag)).isEmpty
    · refine ⟨_, _, _, ?_, h, .inr ⟨c, rfl, isEmpty_iff.mp hempty⟩⟩
      rw [walkFrom]
      exact if_pos hempty
    · obtain ⟨hsound, hunder, -⟩ := h.sound hroot _ _ _ rfl
      obtain ⟨child, hchild⟩ := SHAMapNodeID.getChildNodeID_ok h.masked (hsound.depth_lt hunder)
        (selectBranch nodeID tag)
      obtain ⟨node', nodeID', stack', hwalk, hpath, hend⟩ :=
        ih _ (h.child hchild) fun he => hempty (isEmpty_iff.mpr he)
      refine ⟨node', nodeID', stack', ?_, hpath, hend⟩
      rw [walkFrom]
      simp only [if_neg hempty, hchild]
      exact hwalk

theorem walkTowardsKey_onPath (hroot : Sound 0 root) (tag : UInt256) :
    ∃ node nodeID stack, walkTowardsKey root tag = some ((node, nodeID) :: stack) ∧
      OnPath root tag ((node, nodeID) :: stack) ∧ Ended tag node nodeID := by
  refine walkFrom_onPath hroot .root ?_
  obtain ⟨c, rfl⟩ := hroot.root rfl
  exact nofun

theorem OnPath.key_ne (hroot : Sound 0 root) {c : Fin 16 → SHAMapTreeNode}
    (h : OnPath root tag ((.inner c, nodeID) :: stack))
    (hempty : c (selectBranch nodeID tag) = .empty) {l : SHAMapLeafNode} (hl : l ∈ root) :
    keyOf l ≠ tag := by
  rintro rfl
  obtain ⟨hsound, -, -, hown⟩ := h.sound hroot _ _ _ rfl
  have hin : l ∈ c (selectBranch nodeID (keyOf l)) :=
    hsound.placed.mem_child.mpr ⟨hown l hl rfl, rfl⟩
  rw [hempty] at hin
  exact not_mem_empty l hin

/-- **Lookup finds the leaf of a key**, and does not throw. -/
theorem findKey_eq (hroot : Sound 0 root) (tag : UInt256) :
    ∃ found, findKey root tag = some found ∧ ∀ l, found = some l ↔ l ∈ root ∧ keyOf l = tag := by
  obtain ⟨node, nodeID, stack, hwalk, hpath, hend⟩ := walkTowardsKey_onPath hroot tag
  obtain ⟨-, -, hsub, hown⟩ := hpath.sound hroot _ _ _ rfl
  refine ⟨leafAt tag ((node, nodeID) :: stack), by rw [findKey, hwalk]; rfl, fun l => ?_⟩
  rcases hend with ⟨l', rfl⟩ | ⟨c, rfl, hempty⟩
  · rw [leafAt, Option.ite_none_right_eq_some, Option.some.injEq]
    constructor
    · rintro ⟨hkey, rfl⟩
      exact ⟨hsub _ rfl, hkey⟩
    · rintro ⟨hl, hkey⟩
      obtain rfl := mem_leaf.mp (hown l hl hkey)
      exact ⟨hkey, rfl⟩
  · refine ⟨fun h => absurd h (by simp [leafAt]), fun ⟨hl, hkey⟩ => ?_⟩
    exact absurd hkey (hpath.key_ne hroot hempty hl)

/-! ### Writing back -/

/-- An inner node after one of its branches has been replaced by a tree with the same keys and
perhaps more. -/
theorem Sound.update {d : ℕ} {c : Fin 16 → SHAMapTreeNode} {t : SHAMapTreeNode} {i : Fin 16}
    (h : Sound d (.inner c)) (ht : Canonical nibble keyOf (d + 1) t)
    (hdigit : ∀ l ∈ t, nibble d (keyOf l) = i)
    (hkeys : ∀ l ∈ c i, ∃ l' ∈ t, keyOf l' = keyOf l) :
    Sound d (.inner (Function.update c i t)) where
  placed := h.placed.update ht.placed hdigit
  children := fun c' hc' j => by
    obtain rfl := RadixTree.inner.inj hc'
    exact branching_update (h.children c rfl) ht.branching j
  branching := fun hd => by
    obtain ⟨-, l, l', hl, hl', hne⟩ := h.branching hd
    -- a leaf of the old node has one of its key in the new one
    have hkept : ∀ x ∈ RadixTree.inner c, ∃ y ∈ RadixTree.inner (Function.update c i t),
        keyOf y = keyOf x := by
      rintro x ⟨j, hx⟩
      by_cases hj : j = i
      · obtain ⟨y, hy, hkey⟩ := hkeys x (hj ▸ hx)
        exact ⟨y, mem_update.mpr (.inl hy), hkey⟩
      · exact ⟨x, mem_update.mpr (.inr ⟨j, hj, hx⟩), rfl⟩
    obtain ⟨y, hy, hkey⟩ := hkept l hl
    obtain ⟨y', hy', hkey'⟩ := hkept l' hl'
    refine ⟨branching_update (h.children c rfl) ht.branching, y, y', hy, hy', fun heq => hne ?_⟩
    refine h.placed.eq_of_key_eq hl hl' ?_
    rw [← hkey, ← hkey', heq]
  root := fun _ => ⟨_, rfl⟩

/-- **`dirtyUp` puts a tree in the place of the node at the top.** -/
theorem OnPath.dirtyUp (hroot : Sound 0 root) {s : NodeStack} (h : OnPath root tag s) :
    ∀ node nodeID stack t, s = (node, nodeID) :: stack → Sound nodeID.depth t →
      Under nodeID.depth tag t → (∀ l ∈ node, ∃ l' ∈ t, keyOf l' = keyOf l) →
      Sound 0 (dirtyUp tag stack t) ∧
        ∀ l, l ∈ SHAMap.dirtyUp tag stack t ↔ l ∈ t ∨ l ∈ root ∧ l ∉ node := by
  induction h with
  | root =>
    rintro node nodeID stack t heq ht - -
    obtain ⟨⟨rfl, rfl⟩, rfl⟩ : (root = node ∧ ({} : SHAMapNodeID) = nodeID) ∧ [] = stack := by
      simpa using heq
    refine ⟨ht, fun l => ?_⟩
    rw [SHAMap.dirtyUp, and_not_self_iff, or_false]
  | @child c nodeID child m stack parent place ih =>
    rintro node nodeID' stack' t heq ht hunder hkeys
    obtain ⟨⟨rfl, rfl⟩, rfl⟩ : (c (selectBranch nodeID tag) = node ∧ child = nodeID') ∧
        (.inner c, nodeID) :: stack = stack' := by
      simpa using heq
    obtain ⟨hsound, hparent, hsub, -⟩ := parent.sound hroot _ _ _ rfl
    obtain ⟨hlt, hdepth, -⟩ := SHAMapNodeID.getChildNodeID_eq_some place
    rw [hdepth] at ht hunder
    have hdigit : ∀ l ∈ t, nibble nodeID.depth (keyOf l) = selectBranch nodeID tag :=
      fun l hl => hunder l hl _ (Nat.lt_succ_self _)
    have hnew : Sound nodeID.depth (.inner (Function.update c (selectBranch nodeID tag) t)) :=
      hsound.update ⟨ht.placed, ht.branching (Nat.succ_pos _)⟩ hdigit hkeys
    have hnewUnder : Under nodeID.depth tag
        (.inner (Function.update c (selectBranch nodeID tag) t)) := by
      intro l hl e he
      rcases mem_update.mp hl with hl | ⟨j, -, hl⟩
      · exact hunder l hl e (by omega)
      · exact hparent l ⟨j, hl⟩ e he
    obtain ⟨hres, hmem⟩ := ih _ _ _ _ rfl hnew hnewUnder fun l hl => by
      obtain ⟨j, hl⟩ := hl
      by_cases hj : j = selectBranch nodeID tag
      · obtain ⟨l', hl', hkey⟩ := hkeys l (hj ▸ hl)
        exact ⟨l', mem_update.mpr (.inl hl'), hkey⟩
      · exact ⟨l, mem_update.mpr (.inr ⟨j, hj, hl⟩), rfl⟩
    refine ⟨hres, fun l => (hmem l).trans ?_⟩
    rw [mem_update]
    constructor
    · rintro ((hl | ⟨j, hj, hl⟩) | ⟨hl, hout⟩)
      · exact .inl hl
      · refine .inr ⟨hsub l ⟨j, hl⟩, fun hin => hj ?_⟩
        rw [← hsound.placed.2 j l hl, hsound.placed.2 _ l hin]
      · exact .inr ⟨hl, fun hin => hout ⟨_, hin⟩⟩
    · rintro (hl | ⟨hl, hout⟩)
      · exact .inl (.inl hl)
      · by_cases hin : l ∈ RadixTree.inner c
        · obtain ⟨j, hj⟩ := hin
          exact .inl (.inr ⟨j, fun h => hout (h ▸ hj), hj⟩)
        · exact .inr ⟨hl, hin⟩

/-! ### Adding -/

private theorem mem_newInner_update {t : SHAMapTreeNode} {i : Fin 16} {l : SHAMapLeafNode} :
    l ∈ RadixTree.inner (Function.update (fun _ => .empty) i t) ↔ l ∈ t := by
  rw [mem_update]
  simp

private theorem placed_newInner (d : ℕ) :
    Placed nibble keyOf d (.inner fun _ => .empty : SHAMapTreeNode) :=
  ⟨fun _ => trivial, fun _ l hl => absurd hl (not_mem_empty l)⟩

private theorem canonical_push {d : ℕ} {t : SHAMapTreeNode} {i : Fin 16}
    (ht : Canonical nibble keyOf (d + 1) t) (hdigit : ∀ l ∈ t, nibble d (keyOf l) = i)
    {l l' : SHAMapLeafNode} (hl : l ∈ t) (hl' : l' ∈ t) (hne : l ≠ l') :
    Canonical nibble keyOf d (.inner (Function.update (fun _ => .empty) i t)) where
  placed := (placed_newInner d).update ht.placed hdigit
  branching := ⟨branching_update (fun _ => trivial) ht.branching, l, l',
    mem_newInner_update.mpr hl, mem_newInner_update.mpr hl', hne⟩

private theorem twoLeaves_canonical {type : SHAMapNodeType} {item other : SHAMapItem}
    (hne : selectBranch nodeID item.key ≠ selectBranch nodeID other.key) :
    Canonical nibble keyOf nodeID.depth (twoLeaves type item other nodeID) ∧
      ∀ l, l ∈ twoLeaves type item other nodeID ↔ l = ⟨type, item⟩ ∨ l = ⟨type, other⟩ := by
  have hmem : ∀ l, l ∈ twoLeaves type item other nodeID ↔ l = ⟨type, item⟩ ∨ l = ⟨type, other⟩ := by
    intro l
    unfold twoLeaves newInner
    rw [setChild, setChild, mem_update]
    constructor
    · rintro (hl | ⟨j, hj, hl⟩)
      · exact .inr hl
      · by_cases hj' : j = selectBranch nodeID item.key
        · rw [hj', Function.update_self] at hl
          exact .inl hl
        · rw [Function.update_of_ne hj'] at hl
          exact absurd hl (not_mem_empty l)
    · rintro (rfl | rfl)
      · refine .inr ⟨_, hne, ?_⟩
        rw [Function.update_self]
        exact rfl
      · exact .inl rfl
  have hplaced : Placed nibble keyOf nodeID.depth (twoLeaves type item other nodeID) := by
    have hleaf : ∀ l : SHAMapLeafNode, Placed nibble keyOf (nodeID.depth + 1) (.leaf l) :=
      fun _ => trivial
    refine ((placed_newInner nodeID.depth).update (hleaf ⟨type, item⟩) ?_).update
      (hleaf ⟨type, other⟩) ?_
    · rintro l rfl
      rfl
    · rintro l rfl
      rfl
  refine ⟨⟨hplaced, ?_, ⟨type, item⟩, ⟨type, other⟩, (hmem _).mpr (.inl rfl),
    (hmem _).mpr (.inr rfl), fun heq => hne ?_⟩, hmem⟩
  · exact branching_update (branching_update (fun _ => trivial) trivial) trivial
  · rw [(SHAMapLeafNode.mk.inj heq).2]

theorem splitLoop_spec {type : SHAMapNodeType} {item other : SHAMapItem} (hne : item.key ≠ other.key)
    {n : ℕ} (hmasked : nodeID.Masked) (hn : kLeafDepth < n + nodeID.depth)
    (hsame : ∀ e < nodeID.depth, nibble e item.key = nibble e other.key) :
    ∃ stack' nodeID' t, splitLoop item.key other.key n nodeID stack = some (stack', nodeID') ∧
      dirtyUp item.key stack' (twoLeaves type item other nodeID') = dirtyUp item.key stack t ∧
      Canonical nibble keyOf nodeID.depth t ∧
      ∀ l, l ∈ t ↔ l = ⟨type, item⟩ ∨ l = ⟨type, other⟩ := by
  -- two different keys do not agree on all their digits
  have hdepth : ∀ d, (∀ e < d, nibble e item.key = nibble e other.key) → d < kLeafDepth := by
    intro d hd
    by_contra hle
    exact hne (eq_of_nibble fun e he => hd e (by omega))
  induction n generalizing nodeID stack with
  | zero =>
    have := hdepth _ hsame
    omega
  | succ n ih =>
    by_cases hbranch : selectBranch nodeID item.key = selectBranch nodeID other.key
    · obtain ⟨child, hchild⟩ := SHAMapNodeID.getChildNodeID_ok hmasked (hdepth _ hsame)
        (selectBranch nodeID item.key)
      obtain ⟨-, hchildDepth, hchildMasked⟩ := SHAMapNodeID.getChildNodeID_eq_some hchild
      have hsame' : ∀ e < child.depth, nibble e item.key = nibble e other.key := by
        intro e he
        rw [hchildDepth] at he
        rcases Nat.lt_succ_iff_lt_or_eq.mp he with he | rfl
        · exact hsame e he
        · exact hbranch
      obtain ⟨stack', nodeID', t, hsplit, hdirty, hcanon, hmem⟩ :=
        @ih child ((newInner, nodeID) :: stack) hchildMasked (by omega) hsame'
      rw [hchildDepth] at hcanon
      refine ⟨stack', nodeID', _, ?_, hdirty, ?_, fun l => mem_newInner_update.trans (hmem l)⟩
      · rw [splitLoop, if_pos hbranch, hchild]
        exact hsplit
      · refine canonical_push hcanon (fun l hl => ?_) ((hmem _).mpr (.inl rfl))
          ((hmem _).mpr (.inr rfl)) fun heq => hne ?_
        · rcases (hmem l).mp hl with rfl | rfl
          · rfl
          · exact hbranch.symm
        · rw [(SHAMapLeafNode.mk.inj heq).2]
    · obtain ⟨hcanon, hmem⟩ := @twoLeaves_canonical nodeID type item other hbranch
      refine ⟨stack, nodeID, _, ?_, rfl, hcanon, hmem⟩
      rw [splitLoop, if_neg hbranch]

theorem OnPath.depth_pos (hroot : Sound 0 root) {l : SHAMapLeafNode}
    (h : OnPath root tag ((.leaf l, nodeID) :: stack)) : 0 < nodeID.depth := by
  by_contra hd
  obtain ⟨c, hc⟩ := hroot.root rfl
  obtain ⟨hleaf, -⟩ := h.eq_root (by omega)
  rw [hc] at hleaf
  exact nomatch hleaf

/-- **Adding a new key adds its leaf**, and leaves the map alone where the key is present. -/
theorem addGiveItem_spec {type : SHAMapNodeType} {item : SHAMapItem} (hroot : Sound 0 root)
    (htype : ∀ l ∈ root, l.type = type) :
    (∃ l ∈ root, keyOf l = item.key) ∧ addGiveItem type item root = some (false, root) ∨
      (∀ l ∈ root, keyOf l ≠ item.key) ∧
        ∃ root', addGiveItem type item root = some (true, root') ∧ Sound 0 root' ∧
          ∀ l, l ∈ root' ↔ l = ⟨type, item⟩ ∨ l ∈ root := by
  obtain ⟨node, nodeID, stack, hwalk, hpath, hend⟩ := walkTowardsKey_onPath hroot item.key
  obtain ⟨hsound, hunder, hsub, hown⟩ := hpath.sound hroot _ _ _ rfl
  have hadd : addGiveItem type item root = addAt type item root ((node, nodeID) :: stack) := by
    rw [addGiveItem, hwalk]
    rfl
  rw [hadd]
  rcases hend with ⟨l, rfl⟩ | ⟨c, rfl, hempty⟩
  · by_cases hkey : l.item.key = item.key
    · exact .inl ⟨⟨l, hsub l rfl, hkey⟩, if_pos hkey⟩
    · have hnew : ∀ l' ∈ root, keyOf l' ≠ item.key := by
        intro l' hl' hkey'
        obtain rfl := mem_leaf.mp (hown l' hl' hkey')
        exact hkey hkey'
      obtain ⟨stack', nodeID', t, hsplit, hdirty, hcanon, hmem⟩ :=
        @splitLoop_spec nodeID stack type item l.item (Ne.symm hkey) (kLeafDepth + 1) hpath.masked
          (by omega) fun e he => (hunder l rfl e he).symm
      have hother : (⟨type, l.item⟩ : SHAMapLeafNode) = l := by
        rw [← htype l (hsub l rfl)]
      have hunder' : Under nodeID.depth item.key t := by
        intro x hx e he
        rcases (hmem x).mp hx with rfl | rfl
        · rfl
        · exact hunder l rfl e he
      obtain ⟨hres, hmem'⟩ := hpath.dirtyUp hroot _ _ _ t rfl
        (Sound.of_canonical (hpath.depth_pos hroot) hcanon) hunder' fun x hx => by
          obtain rfl := mem_leaf.mp hx
          exact ⟨⟨type, x.item⟩, (hmem _).mpr (.inr rfl), rfl⟩
      refine .inr ⟨hnew, _, ?_, hres, fun x => ?_⟩
      · rw [addAt, if_neg hkey, hsplit]
        simp only [bind, Option.bind, pure, hdirty]
      · rw [hmem', hmem, hother]
        constructor
        · rintro ((rfl | rfl) | ⟨hx, -⟩)
          · exact .inl rfl
          · exact .inr (hsub x rfl)
          · exact .inr hx
        · rintro (rfl | hx)
          · exact .inl (.inl rfl)
          · by_cases heq : x = l
            · exact .inl (.inr heq)
            · exact .inr ⟨hx, heq⟩
  · have hdigit : ∀ l ∈ (.leaf ⟨type, item⟩ : SHAMapTreeNode),
        nibble nodeID.depth (keyOf l) = selectBranch nodeID item.key := by
      rintro l rfl
      rfl
    have hnew : Sound nodeID.depth
        (.inner (Function.update c (selectBranch nodeID item.key) (.leaf ⟨type, item⟩))) :=
      hsound.update ⟨trivial, trivial⟩ hdigit fun l hl => absurd (hempty ▸ hl) (not_mem_empty l)
    obtain ⟨hres, hmem⟩ := hpath.dirtyUp hroot _ _ _ _ rfl hnew
      (fun l hl e he => by
        rcases mem_update.mp hl with rfl | ⟨j, -, hl⟩
        · rfl
        · exact hunder l ⟨j, hl⟩ e he)
      fun l ⟨j, hl⟩ => by
        refine ⟨l, mem_update.mpr (.inr ⟨j, ?_, hl⟩), rfl⟩
        rintro rfl
        exact not_mem_empty l (hempty ▸ hl)
    refine .inr ⟨fun l hl => hpath.key_ne hroot hempty hl, _, rfl, hres, fun l => ?_⟩
    rw [setChild, hmem, mem_update, mem_leaf]
    constructor
    · rintro ((hl | ⟨j, -, hl⟩) | ⟨hl, -⟩)
      · exact .inl hl
      · exact .inr (hsub l ⟨j, hl⟩)
      · exact .inr hl
    · rintro (hl | hl)
      · exact .inl (.inl hl)
      · by_cases hin : l ∈ RadixTree.inner c
        · obtain ⟨j, hj⟩ := hin
          refine .inl (.inr ⟨j, ?_, hj⟩)
          rintro rfl
          exact not_mem_empty l (hempty ▸ hj)
        · exact .inr ⟨hl, hin⟩

/-! ### Updating -/

/-- **Updating a key that is present replaces its leaf.** A shared leaf stays where the two have one
hash. -/
theorem updateGiveItem_spec {sha512Half : Blob → UInt256} {shared : Bool} {type : SHAMapNodeType}
    {item : SHAMapItem} (hroot : Sound 0 root) (htype : ∀ l ∈ root, l.type = type)
    (hhash : ∀ l ∈ root, keyOf l = item.key → shared →
      sha512Half (SHAMapLeafNode.preimage ⟨type, item⟩) = sha512Half l.preimage → l = ⟨type, item⟩) :
    (∀ l ∈ root, keyOf l ≠ item.key) ∧
        updateGiveItem sha512Half shared type item root = some (false, root) ∨
      (∃ l ∈ root, keyOf l = item.key) ∧
        ∃ root', updateGiveItem sha512Half shared type item root = some (true, root') ∧
          Sound 0 root' ∧ ∀ l, l ∈ root' ↔ l = ⟨type, item⟩ ∨ l ∈ root ∧ keyOf l ≠ item.key := by
  obtain ⟨node, nodeID, stack, hwalk, hpath, hend⟩ := walkTowardsKey_onPath hroot item.key
  obtain ⟨hsound, hunder, hsub, hown⟩ := hpath.sound hroot _ _ _ rfl
  have hupdate : updateGiveItem sha512Half shared type item root =
      updateAt sha512Half shared type item root ((node, nodeID) :: stack) := by
    rw [updateGiveItem, hwalk]
    rfl
  rw [hupdate]
  rcases hend with ⟨l, rfl⟩ | ⟨c, rfl, hempty⟩
  · have hl : l ∈ root := hsub l rfl
    by_cases hkey : l.item.key = item.key
    · have hguard : ¬(l.item.key ≠ item.key ∨ l.type ≠ type) := by
        simp [hkey, htype l hl]
      refine .inr ⟨⟨l, hl, hkey⟩, ?_⟩
      rw [updateAt, if_neg hguard]
      by_cases hsame : shared ∧
          sha512Half (SHAMapLeafNode.preimage ⟨type, item⟩) = sha512Half l.preimage
      · have hleaf := hhash l hl hkey hsame.1 hsame.2
        refine ⟨root, if_pos hsame, hroot, fun x => ?_⟩
        rw [← hleaf]
        constructor
        · intro hx
          by_cases hkx : keyOf x = item.key
          · exact .inl (hroot.placed.eq_of_key_eq hx hl (hkx.trans hkey.symm))
          · exact .inr ⟨hx, hkx⟩
        · rintro (rfl | ⟨hx, -⟩)
          · exact hl
          · exact hx
      · obtain ⟨hres, hmem⟩ := hpath.dirtyUp hroot _ _ _ (.leaf ⟨type, item⟩) rfl
          (Sound.of_canonical (hpath.depth_pos hroot) ⟨trivial, trivial⟩)
          (fun x hx e _ => by
            obtain rfl := mem_leaf.mp hx
            rfl)
          fun x hx => by
            obtain rfl := mem_leaf.mp hx
            exact ⟨⟨type, item⟩, rfl, hkey.symm⟩
        refine ⟨_, if_neg hsame, hres, fun x => ?_⟩
        rw [hmem, mem_leaf, mem_leaf]
        refine or_congr_right (and_congr_right fun hx => not_congr ?_)
        exact ⟨fun heq => heq ▸ hkey, fun hkx =>
          hroot.placed.eq_of_key_eq hx hl (hkx.trans hkey.symm)⟩
    · refine .inl ⟨fun l' hl' hkey' => ?_, if_pos (.inl hkey)⟩
      obtain rfl := mem_leaf.mp (hown l' hl' hkey')
      exact hkey hkey'
  · exact .inl ⟨fun l hl => hpath.key_ne hroot hempty hl, rfl⟩

/-! ### Removing -/

private theorem branches_nil {c : Fin 16 → SHAMapTreeNode} (h : branches c = []) (l : SHAMapLeafNode) :
    l ∉ RadixTree.inner c := by
  rintro ⟨i, hi⟩
  have hempty : ¬(!(c i).isEmpty) = true := List.filter_eq_nil_iff.mp h i (List.mem_finRange i)
  rw [Bool.not_eq_true', Bool.not_eq_false, RadixTree.isEmpty_iff] at hempty
  rw [hempty] at hi
  exact not_mem_empty l hi

private theorem branches_single {c : Fin 16 → SHAMapTreeNode} {i : Fin 16} (h : branches c = [i])
    (l : SHAMapLeafNode) : l ∈ RadixTree.inner c ↔ l ∈ c i := by
  refine ⟨fun ⟨j, hj⟩ => ?_, fun hl => ⟨i, hl⟩⟩
  have hin : j ∈ branches c := by
    refine List.mem_filter.mpr ⟨List.mem_finRange j, ?_⟩
    rw [Bool.not_eq_true', ← Bool.not_eq_true, RadixTree.isEmpty_iff]
    intro hempty
    rw [hempty] at hj
    exact not_mem_empty l hj
  rw [h, List.mem_singleton] at hin
  rwa [hin] at hj

private theorem branches_two {c : Fin 16 → SHAMapTreeNode} {d : ℕ}
    (hplaced : Placed nibble keyOf d (.inner c)) (hc : ∀ i, Branching (c i)) {i j : Fin 16}
    {rest : List (Fin 16)} (h : branches c = i :: j :: rest) : Branching (.inner c) := by
  have hleaf : ∀ k ∈ branches c, ∃ l, l ∈ c k := by
    intro k hk
    by_contra hno
    have hempty := (hc k).eq_empty fun l hl => hno ⟨l, hl⟩
    rw [branches, List.mem_filter, hempty] at hk
    exact absurd hk.2 (by simp [isEmpty])
  have hne : i ≠ j := by
    have hnodup : (branches c).Nodup := (List.nodup_finRange 16).filter _
    rw [h] at hnodup
    exact fun heq => (List.nodup_cons.mp hnodup).1 (heq ▸ List.mem_cons_self)
  obtain ⟨l, hl⟩ := hleaf i (by rw [h]; exact List.mem_cons_self)
  obtain ⟨l', hl'⟩ := hleaf j (by rw [h]; exact List.mem_cons_of_mem _ List.mem_cons_self)
  refine ⟨hc, l, l', ⟨i, hl⟩, ⟨j, hl'⟩, fun heq => hne ?_⟩
  rw [← hplaced.2 i l hl, ← hplaced.2 j l' hl', heq]

theorem onlyBelow_branching {c : Fin 16 → SHAMapTreeNode} (h : Branching (.inner c)) :
    onlyBelow (.inner c) = none := by
  induction hc : (.inner c : SHAMapTreeNode) generalizing c with
  | empty => exact nomatch hc
  | leaf l => exact nomatch hc
  | inner c' ih =>
    obtain rfl := RadixTree.inner.inj hc
    rw [onlyBelow]
    split
    · rename_i i hi
      obtain ⟨hbelow, l, l', hl, hl', hne⟩ := h
      rw [branches_single hi] at hl hl'
      have hchild := hbelow i
      cases hci : c i with
      | empty =>
        rw [hci] at hl
        exact absurd hl (not_mem_empty l)
      | leaf l₀ =>
        rw [hci] at hl hl'
        exact absurd ((mem_leaf.mp hl).trans (mem_leaf.mp hl').symm) hne
      | inner c₀ =>
        rw [hci] at hchild
        exact hci ▸ ih i hchild hci.symm
    · rfl

theorem pullUp_spec {type : SHAMapNodeType} {d : ℕ} {c : Fin 16 → SHAMapTreeNode}
    (hplaced : Placed nibble keyOf d (.inner c)) (hc : ∀ i, Branching (c i))
    (htype : ∀ l ∈ RadixTree.inner c, l.type = type) :
    Canonical nibble keyOf d (pullUp type (.inner c)) ∧
      ∀ l, l ∈ pullUp type (.inner c) ↔ l ∈ RadixTree.inner c := by
  cases hb : branches c with
  | nil =>
    have hpull : pullUp type (.inner c) = .empty := by
      simp only [pullUp, hb, List.length_nil]
    rw [hpull]
    exact ⟨⟨trivial, trivial⟩, fun l => ⟨fun hl => absurd hl (not_mem_empty l),
      fun hl => absurd hl (branches_nil hb l)⟩⟩
  | cons i rest =>
    cases rest with
    | nil =>
      have hone : onlyBelow (.inner c) = onlyBelow (c i) := by
        simp only [onlyBelow, hb]
      cases hci : c i with
      | empty =>
        have hin : i ∈ branches c := by
          rw [hb]
          exact List.mem_singleton_self i
        rw [branches, List.mem_filter, hci] at hin
        exact absurd hin.2 (by simp [isEmpty])
      | leaf l =>
        have hl : l ∈ RadixTree.inner c := (branches_single hb l).mpr (by rw [hci]; rfl)
        have hpull : pullUp type (.inner c) = .leaf l := by
          simp only [pullUp, hb, List.length_singleton, hone, hci, onlyBelow]
          rw [← htype l hl]
        rw [hpull]
        refine ⟨⟨trivial, trivial⟩, fun x => ?_⟩
        rw [branches_single hb, hci]
      | inner c₀ =>
        have hchild := hc i
        rw [hci] at hchild
        have hpull : pullUp type (.inner c) = .inner c := by
          simp only [pullUp, hb, List.length_singleton, hone, hci, onlyBelow_branching hchild]
        rw [hpull]
        obtain ⟨-, l, l', hl, hl', hne⟩ := hchild
        refine ⟨⟨hplaced, hc, l, l', ?_, ?_, hne⟩, fun x => Iff.rfl⟩
        · rwa [branches_single hb, hci]
        · rwa [branches_single hb, hci]
    | cons j rest =>
      have hpull : pullUp type (.inner c) = .inner c := by
        simp only [pullUp, hb, List.length_cons]
      rw [hpull]
      exact ⟨⟨hplaced, branches_two hplaced hc hb⟩, fun x => Iff.rfl⟩

/-- **Removing a leaf below a node takes its key out of the map.** -/
theorem OnPath.delLoop (hroot : Sound 0 root) {type : SHAMapNodeType}
    (htype : ∀ l ∈ root, l.type = type) {s : NodeStack} (h : OnPath root tag s) :
    ∀ node nodeID stack t, s = (node, nodeID) :: stack → 0 < nodeID.depth →
      Canonical nibble keyOf nodeID.depth t → (∀ l, l ∈ t ↔ l ∈ node ∧ keyOf l ≠ tag) →
      Sound 0 (delLoop type tag stack t) ∧
        ∀ l, l ∈ SHAMap.delLoop type tag stack t ↔ l ∈ root ∧ keyOf l ≠ tag := by
  induction h with
  | root =>
    rintro node nodeID stack t heq hd
    obtain ⟨⟨rfl, rfl⟩, rfl⟩ : (root = node ∧ ({} : SHAMapNodeID) = nodeID) ∧ [] = stack := by
      simpa using heq
    exact absurd hd (lt_irrefl 0)
  | @child c nodeID child m stack parent place ih =>
    rintro node nodeID' stack' t heq - ht hmem
    obtain ⟨⟨rfl, rfl⟩, rfl⟩ : (c (selectBranch nodeID tag) = node ∧ child = nodeID') ∧
        (.inner c, nodeID) :: stack = stack' := by
      simpa using heq
    obtain ⟨hsound, -, hsub, -⟩ := parent.sound hroot _ _ _ rfl
    obtain ⟨-, hdepth, -⟩ := SHAMapNodeID.getChildNodeID_eq_some place
    rw [hdepth] at ht
    -- the node with the smaller child
    have hplaced : Placed nibble keyOf nodeID.depth
        (.inner (Function.update c (selectBranch nodeID tag) t)) :=
      hsound.placed.update ht.placed fun l hl => hsound.placed.2 _ l ((hmem l).mp hl).1
    have hbranching := @branching_update _ _ t c (selectBranch nodeID tag) (hsound.children c rfl)
      ht.branching
    have hmem' : ∀ l, l ∈ RadixTree.inner (Function.update c (selectBranch nodeID tag) t) ↔
        l ∈ RadixTree.inner c ∧ keyOf l ≠ tag := by
      intro l
      rw [mem_update, hmem]
      constructor
      · rintro (⟨hl, hkey⟩ | ⟨j, hj, hl⟩)
        · exact ⟨⟨_, hl⟩, hkey⟩
        · refine ⟨⟨j, hl⟩, fun hkey => hj ?_⟩
          rw [← hsound.placed.2 j l hl, hkey]
          rfl
      · rintro ⟨⟨j, hl⟩, hkey⟩
        by_cases hj : j = selectBranch nodeID tag
        · exact .inl ⟨hj ▸ hl, hkey⟩
        · exact .inr ⟨j, hj, hl⟩
    by_cases hd : nodeID.depth = 0
    · obtain ⟨rfl, rfl⟩ := parent.eq_root hd
      rw [SHAMap.delLoop, SHAMapNodeID.isRoot, if_pos (by simpa using hd), setChild]
      refine ⟨⟨hd ▸ hplaced, fun c' hc' i => ?_, fun h0 => absurd h0 (lt_irrefl 0),
        fun _ => ⟨_, rfl⟩⟩, hmem'⟩
      obtain rfl := RadixTree.inner.inj hc'
      exact hbranching i
    · rw [SHAMap.delLoop, SHAMapNodeID.isRoot, if_neg (by simpa using hd), setChild]
      obtain ⟨hcanon, hpull⟩ := @pullUp_spec type nodeID.depth _ hplaced hbranching fun l hl =>
        htype l (hsub l ((hmem' l).mp hl).1)
      exact ih _ _ _ _ rfl (Nat.pos_of_ne_zero hd) hcanon fun l => (hpull l).trans (hmem' l)

/-- **Removing a key that is present removes its leaf.** -/
theorem delItem_spec {type : SHAMapNodeType} (hroot : Sound 0 root)
    (htype : ∀ l ∈ root, l.type = type) (tag : UInt256) :
    (∀ l ∈ root, keyOf l ≠ tag) ∧ delItem tag root = some (false, root) ∨
      (∃ l ∈ root, keyOf l = tag) ∧
        ∃ root', delItem tag root = some (true, root') ∧ Sound 0 root' ∧
          ∀ l, l ∈ root' ↔ l ∈ root ∧ keyOf l ≠ tag := by
  obtain ⟨node, nodeID, stack, hwalk, hpath, hend⟩ := walkTowardsKey_onPath hroot tag
  obtain ⟨-, -, hsub, hown⟩ := hpath.sound hroot _ _ _ rfl
  have hdel : delItem tag root = delAt tag root ((node, nodeID) :: stack) := by
    rw [delItem, hwalk]
    rfl
  rw [hdel]
  rcases hend with ⟨l, rfl⟩ | ⟨c, rfl, hempty⟩
  · by_cases hkey : l.item.key = tag
    · have hl := hsub l rfl
      refine .inr ⟨⟨l, hl, hkey⟩, _, if_neg (not_not.mpr hkey), ?_⟩
      rw [htype l hl]
      refine hpath.delLoop hroot htype _ _ _ .empty rfl (hpath.depth_pos hroot) ⟨trivial, trivial⟩
        fun x => ⟨fun hx => absurd hx (not_mem_empty x), ?_⟩
      rintro ⟨hx, hne⟩
      obtain rfl := mem_leaf.mp hx
      exact absurd hkey hne
    · refine .inl ⟨fun l' hl' hkey' => ?_, if_pos hkey⟩
      obtain rfl := mem_leaf.mp (hown l' hl' hkey')
      exact hkey hkey'
  · exact .inl ⟨fun l hl => hpath.key_ne hroot hempty hl, rfl⟩

end Path

end SHAMap

/-- A `SHAMap` with all its nodes in memory: a root whose leaves are where their keys put them. -/
structure SHAMap where
  root : SHAMapTreeNode
  sound : SHAMap.Sound 0 root

end FalconLedger
