import FalconLedger.SHAMap.Canonical

/-!
# A SHAMap is a finite map, and its hash is that of the map

The map that additions, updates and removals describe is a function from keys to items (`Contents`).
Whatever the order of the operations, the tree answers as that function does, and its shape depends on
nothing else: an inner node stands below the root exactly where two keys share their first digits.
-/

namespace FalconLedger

open RadixTree SHAMapTreeNode

namespace SHAMap

/-- An operation on a map; `shared` says whether the leaf an update replaces belongs to another map
too. -/
inductive Operation
  | add (item : SHAMapItem)
  | update (item : SHAMapItem) (shared : Bool)
  | del (id : UInt256)

namespace Operation

/-- The item given. -/
def item? : Operation → Option SHAMapItem
  | add item => some item
  | update item _ => some item
  | del _ => none

def apply (sha512Half : Blob → UInt256) (type : SHAMapNodeType) :
    Operation → SHAMapTreeNode → Option (Bool × SHAMapTreeNode)
  | add item, root => addGiveItem type item root
  | update item shared, root => updateGiveItem sha512Half shared type item root
  | del id, root => delItem id root

end Operation

/-- The results of a sequence of operations, and the map after it. -/
def run (sha512Half : Blob → UInt256) (type : SHAMapNodeType) :
    List Operation → SHAMapTreeNode → Option (List Bool × SHAMapTreeNode)
  | [], root => some ([], root)
  | op :: ops, root => do
    let (done, root) ← op.apply sha512Half type root
    let (results, root) ← run sha512Half type ops root
    return (done :: results, root)

/-! ### The map described -/

/-- A finite map from keys to items, as a function. -/
abbrev Contents := UInt256 → Option SHAMapItem

/-- Whether the key was new, or present, and the map after the operation. -/
def Operation.describe : Operation → Contents → Bool × Contents
  | add item, m => if (m item.key).isSome then (false, m) else (true, Function.update m item.key item)
  | update item _, m =>
    if (m item.key).isSome then (true, Function.update m item.key item) else (false, m)
  | del id, m => if (m id).isSome then (true, Function.update m id none) else (false, m)

def describe : List Operation → Contents → List Bool × Contents
  | [], m => ([], m)
  | op :: ops, m =>
    let (done, m) := op.describe m
    let (results, m) := describe ops m
    (done :: results, m)

/-! ### One operation -/

/-- A tree holds the items of a map, on leaves of one type. -/
structure Represents (type : SHAMapNodeType) (root : SHAMapTreeNode) (m : Contents) : Prop where
  sound : Sound 0 root
  mem_iff : ∀ l, l ∈ root ↔ l.type = type ∧ m (keyOf l) = some l.item
  key_eq : ∀ k item, m k = some item → item.key = k

variable {sha512Half : Blob → UInt256} {type : SHAMapNodeType} {root : SHAMapTreeNode} {m : Contents}

theorem represents_empty : Represents type newInner fun _ => none where
  sound := sound_newInner
  mem_iff := fun l => by simp [newInner]
  key_eq := nofun

theorem Represents.exists_key (h : Represents type root m) (k : UInt256) :
    (∃ l ∈ root, keyOf l = k) ↔ (m k).isSome := by
  rw [Option.isSome_iff_exists]
  constructor
  · rintro ⟨l, hl, rfl⟩
    exact ⟨l.item, ((h.mem_iff l).mp hl).2⟩
  · rintro ⟨item, hitem⟩
    have hkey := h.key_eq k item hitem
    refine ⟨⟨type, item⟩, (h.mem_iff _).mpr ⟨rfl, ?_⟩, hkey⟩
    rw [show keyOf ⟨type, item⟩ = k from hkey, hitem]

theorem Represents.forall_key (h : Represents type root m) (k : UInt256) :
    (∀ l ∈ root, keyOf l ≠ k) ↔ (m k).isSome = false := by
  rw [← Bool.not_eq_true, ← h.exists_key k]
  push Not
  rfl

/-- A tree with the leaf of an item and, of the other keys, the leaves it had. -/
theorem Represents.insert (h : Represents type root m) {item : SHAMapItem} {root' : SHAMapTreeNode}
    (hsound : Sound 0 root')
    (hmem : ∀ l, l ∈ root' ↔ l = ⟨type, item⟩ ∨ l ∈ root ∧ keyOf l ≠ item.key) :
    Represents type root' (Function.update m item.key item) where
  sound := hsound
  mem_iff := fun l => by
    rw [hmem, h.mem_iff]
    by_cases hkey : keyOf l = item.key
    · rw [hkey, Function.update_self]
      constructor
      · rintro (rfl | ⟨-, hne⟩)
        · exact ⟨rfl, rfl⟩
        · exact absurd rfl hne
      · rintro ⟨rfl, hitem⟩
        rw [Option.some.inj hitem]
        exact .inl rfl
    · rw [Function.update_of_ne hkey]
      constructor
      · rintro (rfl | ⟨hl, -⟩)
        · exact absurd rfl hkey
        · exact hl
      · exact fun hl => .inr ⟨hl, hkey⟩
  key_eq := fun k item' hitem => by
    by_cases hk : k = item.key
    · subst hk
      rw [Function.update_self] at hitem
      rw [← Option.some.inj hitem]
    · rw [Function.update_of_ne hk] at hitem
      exact h.key_eq k item' hitem

theorem Represents.erase (h : Represents type root m) {id : UInt256} {root' : SHAMapTreeNode}
    (hsound : Sound 0 root') (hmem : ∀ l, l ∈ root' ↔ l ∈ root ∧ keyOf l ≠ id) :
    Represents type root' (Function.update m id none) where
  sound := hsound
  mem_iff := fun l => by
    rw [hmem, h.mem_iff]
    by_cases hkey : keyOf l = id
    · rw [hkey, Function.update_self]
      simp
    · rw [Function.update_of_ne hkey]
      simp [hkey]
  key_eq := fun k item' hitem => by
    by_cases hk : k = id
    · subst hk
      rw [Function.update_self] at hitem
      exact nomatch hitem
    · rw [Function.update_of_ne hk] at hitem
      exact h.key_eq k item' hitem

/-- A shared leaf that an update leaves in place has the item already. -/
def Operation.Told (sha512Half : Blob → UInt256) (type : SHAMapNodeType) (m : Contents) :
    Operation → Prop
  | update item true => ∀ other, m item.key = some other →
      sha512Half (SHAMapLeafNode.preimage ⟨type, item⟩) =
        sha512Half (SHAMapLeafNode.preimage ⟨type, other⟩) → other = item
  | _ => True

/-- **One operation answers and changes the tree as it does the map.** -/
theorem Represents.apply (h : Represents type root m) (op : Operation)
    (htold : op.Told sha512Half type m) :
    ∃ root', op.apply sha512Half type root = some ((op.describe m).1, root') ∧
      Represents type root' (op.describe m).2 := by
  have htype : ∀ l ∈ root, l.type = type := fun l hl => ((h.mem_iff l).mp hl).1
  cases op with
  | add item =>
    simp only [Operation.apply, Operation.describe]
    rcases @addGiveItem_spec root type item h.sound htype with ⟨hkey, hadd⟩ | ⟨hkey, root', hadd, hs, hmem⟩
    · rw [h.exists_key] at hkey
      rw [if_pos hkey]
      exact ⟨root, hadd, h⟩
    · have hnone := (h.forall_key _).mp hkey
      rw [if_neg (by simp [hnone])]
      refine ⟨root', hadd, h.insert hs fun l => (hmem l).trans ?_⟩
      exact or_congr_right ⟨fun hl => ⟨hl, hkey l hl⟩, And.left⟩
  | update item shared =>
    simp only [Operation.apply, Operation.describe]
    have hhash : ∀ l ∈ root, keyOf l = item.key → shared →
        sha512Half (SHAMapLeafNode.preimage ⟨type, item⟩) = sha512Half l.preimage →
          l = ⟨type, item⟩ := by
      rintro l hl hkey rfl hsame
      obtain ⟨rfl, hitem⟩ := (h.mem_iff l).mp hl
      rw [hkey] at hitem
      rw [← htold l.item hitem hsame]
    rcases updateGiveItem_spec h.sound htype hhash with ⟨hkey, hup⟩ | ⟨hkey, root', hup, hs, hmem⟩
    · have hnone := (h.forall_key _).mp hkey
      rw [if_neg (by simp [hnone])]
      exact ⟨root, hup, h⟩
    · rw [h.exists_key] at hkey
      rw [if_pos hkey]
      exact ⟨root', hup, h.insert hs hmem⟩
  | del id =>
    simp only [Operation.apply, Operation.describe]
    rcases delItem_spec h.sound htype id with ⟨hkey, hdel⟩ | ⟨hkey, root', hdel, hs, hmem⟩
    · have hnone := (h.forall_key _).mp hkey
      rw [if_neg (by simp [hnone])]
      exact ⟨root, hdel, h⟩
    · rw [h.exists_key] at hkey
      rw [if_pos hkey]
      exact ⟨root', hdel, h.erase hs hmem⟩

/-! ### Any number of operations -/

/-- A leaf's hash tells its item, for the items given to one key: no two of them, where one is to
replace a shared leaf, hash alike. -/
def NoCollision (sha512Half : Blob → UInt256) (type : SHAMapNodeType) (ops : List Operation) : Prop :=
  ∀ item other, .update item true ∈ ops → (∃ op ∈ ops, op.item? = some other) →
    other.key = item.key →
    sha512Half (SHAMapLeafNode.preimage ⟨type, item⟩) =
      sha512Half (SHAMapLeafNode.preimage ⟨type, other⟩) →
    SHAMapLeafNode.preimage ⟨type, item⟩ = SHAMapLeafNode.preimage ⟨type, other⟩

theorem eq_of_preimage_eq {item other : SHAMapItem} (hkey : other.key = item.key)
    (h : SHAMapLeafNode.preimage ⟨type, item⟩ = SHAMapLeafNode.preimage ⟨type, other⟩) :
    other = item := by
  have hdata : item.data = other.data := by
    cases type with
    | tnTransactionNm => exact List.append_cancel_left h
    | tnTransactionMd | tnAccountState =>
      simp only [SHAMapLeafNode.preimage, hkey, List.append_assoc] at h
      exact List.append_cancel_right (List.append_cancel_left h)
  obtain ⟨key, data⟩ := item
  obtain ⟨key', data'⟩ := other
  exact congrArg₂ SHAMapItem.mk hkey hdata.symm

theorem Operation.describe_item (op : Operation) {k : UInt256} {item : SHAMapItem}
    (h : (op.describe m).2 k = some item) : m k = some item ∨ op.item? = some item := by
  have hinsert : ∀ item', Function.update m item'.key (some item') k = some item →
      m k = some item ∨ some item' = some item := by
    intro item' hitem
    by_cases hk : k = item'.key
    · subst hk
      rw [Function.update_self] at hitem
      exact .inr hitem
    · rw [Function.update_of_ne hk] at hitem
      exact .inl hitem
  cases op with
  | add item' | update item' _ =>
    simp only [describe] at h
    split_ifs at h
    · first | exact .inl h | exact hinsert item' h
    · first | exact hinsert item' h | exact .inl h
  | del id =>
    simp only [describe] at h
    split_ifs at h
    · by_cases hk : k = id
      · exact absurd h (by simp [hk])
      · exact .inl (by simpa [hk] using h)
    · exact .inl h

/-- **Any number of operations answer and change the tree as they do the map.** -/
theorem Represents.run {all : List Operation} (hall : NoCollision sha512Half type all)
    {ops : List Operation} (hops : ∀ op ∈ ops, op ∈ all) (h : Represents type root m)
    (hgiven : ∀ k item, m k = some item → ∃ op ∈ all, op.item? = some item) :
    ∃ root', run sha512Half type ops root = some ((describe ops m).1, root') ∧
      Represents type root' (describe ops m).2 := by
  induction ops generalizing root m with
  | nil => exact ⟨root, rfl, h⟩
  | cons op ops ih =>
    have htold : op.Told sha512Half type m := by
      rcases op with item | ⟨item, shared⟩ | id
      · trivial
      · cases shared with
        | false => trivial
        | true =>
          intro other hother hsame
          have hkey := h.key_eq _ _ hother
          refine eq_of_preimage_eq hkey (hall item other (hops _ List.mem_cons_self) ?_ hkey hsame)
          exact hgiven _ _ hother
      · trivial
    obtain ⟨root₁, happly, h₁⟩ := h.apply op htold
    obtain ⟨root', hrun, h'⟩ := ih (fun o ho => hops o (List.mem_cons_of_mem _ ho)) h₁
      fun k item hitem => by
        rcases op.describe_item hitem with hitem | hitem
        · exact hgiven k item hitem
        · exact ⟨op, hops op List.mem_cons_self, hitem⟩
    refine ⟨root', ?_, h'⟩
    rw [SHAMap.run, happly]
    simp only [bind, Option.bind, hrun]
    rfl

/-! ### What the tree says, and what it looks like -/

theorem Represents.findKey (h : Represents type root m) (k : UInt256) :
    findKey root k = some ((m k).map (SHAMapLeafNode.mk type)) := by
  obtain ⟨found, hfind, hmem⟩ := findKey_eq h.sound k
  rw [hfind]
  refine congrArg some (Option.ext fun l => ?_)
  rw [hmem, h.mem_iff, Option.map_eq_some_iff]
  constructor
  · rintro ⟨⟨rfl, hitem⟩, rfl⟩
    exact ⟨l.item, hitem, rfl⟩
  · rintro ⟨item, hitem, rfl⟩
    have hkey : keyOf ⟨type, item⟩ = k := h.key_eq k item hitem
    exact ⟨⟨rfl, hkey ▸ hitem⟩, hkey⟩

theorem Represents.inner_iff (h : Represents type root m) {p : List (Fin 16)} (hp : p ≠ []) :
    (∃ c, root.descend p = .inner c) ↔ ∃ k k', k ≠ k' ∧ (m k).isSome ∧ (m k').isSome ∧
      StartsWith nibble 0 p k ∧ StartsWith nibble 0 p k' := by
  obtain ⟨c, rfl⟩ := h.sound.root rfl
  obtain ⟨i, p, rfl⟩ := List.exists_cons_of_ne_nil hp
  rw [descend, (h.sound.child i).descend_eq_inner]
  constructor
  · rintro ⟨l, hl, l', hl', hne, hstart, hstart'⟩
    have hin : l ∈ RadixTree.inner c := ⟨i, hl⟩
    have hin' : l' ∈ RadixTree.inner c := ⟨i, hl'⟩
    refine ⟨keyOf l, keyOf l', fun hkey => hne (h.sound.placed.eq_of_key_eq hin hin' hkey), ?_, ?_,
      ⟨h.sound.placed.2 i l hl, hstart⟩, h.sound.placed.2 i l' hl', hstart'⟩
    · exact (h.exists_key _).mp ⟨l, hin, rfl⟩
    · exact (h.exists_key _).mp ⟨l', hin', rfl⟩
  · rintro ⟨k, k', hne, hk, hk', ⟨hi, hstart⟩, hi', hstart'⟩
    obtain ⟨l, hl, rfl⟩ := (h.exists_key k).mpr hk
    obtain ⟨l', hl', rfl⟩ := (h.exists_key k').mpr hk'
    exact ⟨l, h.sound.placed.mem_child.mpr ⟨hl, hi⟩, l', h.sound.placed.mem_child.mpr ⟨hl', hi'⟩,
      fun heq => hne (heq ▸ rfl), hstart, hstart'⟩

/-- **One map, one tree.** -/
theorem Represents.unique (h : Represents type root m) {root' : SHAMapTreeNode}
    (h' : Represents type root' m) : root = root' := by
  obtain ⟨c, rfl⟩ := h.sound.root rfl
  obtain ⟨c', rfl⟩ := h'.sound.root rfl
  refine congrArg _ (eq_of_mem_iff_root h.sound.placed h'.sound.placed (h.sound.children c rfl)
    (h'.sound.children c' rfl) fun l => ?_)
  rw [h.mem_iff, h'.mem_iff]

/-- **A SHAMap is the finite map its operations describe.** Whatever additions, updates and removals
have been made to an empty map, none throws; lookup answers as the described map does; an inner node
stands below the root exactly where two keys share their first digits; and another sequence that
describes the same map ends in the same root hash. -/
theorem operations_describe_map (sha512Half : Blob → UInt256) (type : SHAMapNodeType)
    (ops : List Operation) (hops : NoCollision sha512Half type ops) :
    ∃ root, run sha512Half type ops newInner = some ((describe ops fun _ => none).1, root) ∧
      (∀ k, findKey root k =
          some (((describe ops fun _ => none).2 k).map (SHAMapLeafNode.mk type)) ∧
        hasItem root k = some ((describe ops fun _ => none).2 k).isSome ∧
        peekItem root k = some ((describe ops fun _ => none).2 k)) ∧
      (∀ p ≠ [], (∃ c, root.descend p = .inner c) ↔
        ∃ k k', k ≠ k' ∧ ((describe ops fun _ => none).2 k).isSome ∧
          ((describe ops fun _ => none).2 k').isSome ∧
          StartsWith nibble 0 p k ∧ StartsWith nibble 0 p k') ∧
      ∀ ops', NoCollision sha512Half type ops' →
        (describe ops' fun _ => none).2 = (describe ops fun _ => none).2 →
        ∀ results' root', run sha512Half type ops' newInner = some (results', root') →
          root' = root ∧ getHash sha512Half root' = getHash sha512Half root := by
  have hstart : ∀ all, NoCollision sha512Half type all →
      ∃ root, run sha512Half type all newInner = some ((describe all fun _ => none).1, root) ∧
        Represents type root (describe all fun _ => none).2 :=
    fun all hall => represents_empty.run hall (fun op hop => hop) nofun
  obtain ⟨root, hrun, h⟩ := hstart ops hops
  refine ⟨root, hrun, fun k => ⟨h.findKey k, ?_, ?_⟩, fun p hp => h.inner_iff hp, ?_⟩
  · rw [hasItem, h.findKey, Option.map_some, Option.isSome_map]
  · rw [peekItem, h.findKey, Option.map_some, Option.map_map]
    exact congrArg some Option.map_id'
  · intro ops' hops' hsame results' root' hroot'
    obtain ⟨root₁, hrun', h'⟩ := hstart ops' hops'
    rw [hsame] at h'
    rw [hrun'] at hroot'
    have heq : root' = root := by
      rw [← (Prod.mk.inj (Option.some.inj hroot')).2, h.unique h']
    exact ⟨heq, congrArg _ heq⟩

/-- Two keys that share all but their last digit, a shared leaf replaced, and one key removed. -/
theorem operations_describe_map_recorded :
    ∃ root, run (fun bytes => BitVec.ofNat 256 (Bytes.ofBE bytes)) .tnTransactionNm
        [.add ⟨1, List.replicate 12 1⟩, .add ⟨2, List.replicate 12 2⟩, .add ⟨2, List.replicate 12 3⟩,
          .update ⟨2, List.replicate 12 3⟩ true, .del 1, .del 1] newInner =
        some ([true, true, false, true, true, false], root) ∧
      peekItem root 1 = some none ∧ peekItem root 2 = some (some ⟨2, List.replicate 12 3⟩) := by
  obtain ⟨root, hrun, hfind, -⟩ := operations_describe_map
    (fun bytes => BitVec.ofNat 256 (Bytes.ofBE bytes)) .tnTransactionNm
    [.add ⟨1, List.replicate 12 1⟩, .add ⟨2, List.replicate 12 2⟩, .add ⟨2, List.replicate 12 3⟩,
      .update ⟨2, List.replicate 12 3⟩ true, .del 1, .del 1] (by
      rintro item other hitem ⟨op, hop, hother⟩ hkey hsame
      simp only [List.mem_cons, reduceCtorEq, Operation.update.injEq, List.not_mem_nil, or_false,
        false_or, and_true] at hitem hop
      subst hitem
      rcases hop with rfl | rfl | rfl | rfl | rfl | rfl
      all_goals
        rcases hother with _ | _
        try (revert hkey hsame; decide))
  exact ⟨root, hrun, (hfind 1).2.2, (hfind 2).2.2⟩

end SHAMap

end FalconLedger
