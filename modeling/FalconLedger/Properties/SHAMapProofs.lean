import FalconLedger.SHAMap.Canonical
import FalconLedger.SHAMap.Wire

/-!
# Proof paths

A node that is written and read back has the hash it had. So the path that a map gives for a key is
accepted, and an accepted path follows, hash by hash, the way of the key down the map, to a leaf of the
map. `verifyProofPath` does not look at the key of that leaf.
-/

namespace FalconLedger

open Bytes RadixTree SHAMapTreeNode

namespace SHAMap

variable {sha512Half : Blob → UInt256}

/-! ### Reading back what was written -/

@[simp] theorem length_bitString (x : UInt256) : (bitString x).length = 32 := length_toBE _ _

@[simp] theorem ofBitString_bitString (x : UInt256) : ofBitString (bitString x) = x := by
  rw [ofBitString, bitString, ofBE_toBE x.isLt]
  exact BitVec.ofNat_toNat 256 x ▸ (BitVec.setWidth_eq x)

theorem bitString_injective {x y : UInt256} (h : bitString x = bitString y) : x = y := by
  rw [← ofBitString_bitString x, h, ofBitString_bitString]

theorem splitTag_append (data : Blob) (key : UInt256) :
    splitTag (data ++ bitString key) = some (data, key) := by
  have hlen : (data ++ bitString key).length - 32 = data.length := by simp
  rw [splitTag, if_neg (by simp), hlen, List.take_left, List.drop_left, ofBitString_bitString]

/-- What a leaf is read as: a transaction without metadata has its id for a key, and an account-state
leaf with the key zero is refused. -/
def reread (sha512Half : Blob → UInt256) (l : SHAMapLeafNode) : Option SHAMapLeafNode :=
  match l.type with
  | .tnTransactionNm => some ⟨.tnTransactionNm, sha512Half l.preimage, l.item.data⟩
  | .tnTransactionMd => some l
  | .tnAccountState => if l.item.key = 0 then none else some l

theorem makeFromWire_append (data : Blob) (type : WireType) :
    makeFromWire sha512Half (data ++ [type.byte]) = makeTyped sha512Half data type := by
  have hbyte : WireType.ofByte? type.byte = some type := by
    cases type <;> rfl
  rw [makeFromWire, List.getLast?_concat, List.dropLast_concat]
  simp only [bind, Option.bind, hbyte]

theorem makeFromWire_leaf (l : SHAMapLeafNode) :
    makeFromWire sha512Half l.serializeForWire = (reread sha512Half l).map .leaf := by
  obtain ⟨type, key, data⟩ := l
  cases type with
  | tnTransactionNm =>
    rw [SHAMapLeafNode.serializeForWire, makeFromWire_append]
    rfl
  | tnTransactionMd =>
    rw [SHAMapLeafNode.serializeForWire, makeFromWire_append, makeTyped, makeTransactionWithMeta,
      splitTag_append]
    rfl
  | tnAccountState =>
    rw [SHAMapLeafNode.serializeForWire, makeFromWire_append, makeTyped, makeAccountState,
      splitTag_append]
    simp only [bind, Option.bind, reread]
    split_ifs with hkey
    · rfl
    · rfl

theorem foldlM_addChunk {taken : List (Fin 16)} {hashes : Fin 16 → UInt256}
    (hnonzero : ∀ i ∈ taken, hashes i ≠ 0) (start : Fin 16 → UInt256) (any : Bool) :
    (taken.map fun i => bitString (hashes i) ++ [UInt8.ofNat i.val]).foldlM addChunk (start, any) =
      some (fun i => if taken.contains i then hashes i else start i, any || !taken.isEmpty) := by
  induction taken generalizing start any with
  | nil => simp
  | cons i taken ih =>
    have hpos : ofBE [UInt8.ofNat i.val] = i.val := by
      simp [ofBE, Nat.mod_eq_of_lt (show i.val < 256 by omega)]
    have hchunk : addChunk (start, any) (bitString (hashes i) ++ [UInt8.ofNat i.val]) =
        some (Function.update start i (hashes i), true) := by
      have htake : (bitString (hashes i) ++ [UInt8.ofNat i.val]).take 32 = bitString (hashes i) :=
        List.take_left' (length_bitString _)
      have hdrop : (bitString (hashes i) ++ [UInt8.ofNat i.val]).drop 32 = [UInt8.ofNat i.val] :=
        List.drop_left' (length_bitString _)
      simp only [addChunk, htake, hdrop, hpos, i.isLt, dite_true, ofBitString_bitString,
        decide_eq_true (hnonzero i List.mem_cons_self), Bool.or_true, Fin.eta]
    rw [List.map_cons, List.foldlM_cons, hchunk]
    simp only [bind, Option.bind]
    rw [ih (fun j hj => hnonzero j (List.mem_cons_of_mem _ hj))]
    congr 2
    · funext j
      by_cases hj : j = i
      · subst hj
        simp
      · simp [hj]
    · simp

theorem take_drop_flatten {f : Fin 16 → Blob} (hf : ∀ i, (f i).length = 32) (i : Fin 16) :
    ((((List.finRange 16).map f).flatten).drop (32 * i.val)).take 32 = f i := by
  have hblocks := @blocks_flatten _ 32 (by omega) ((List.finRange 16).map f) fun b hb => by
    obtain ⟨j, -, rfl⟩ := List.mem_map.mp hb
    exact hf j
  have hlen : ((List.finRange 16).map f).flatten.length = 512 := by
    simp [List.length_flatten, Function.comp_def, hf]
  have hget := congrArg (fun bs => bs[i.val]?) hblocks
  simpa [blocks, hlen, List.getElem?_range (show i.val < 512 / 32 from i.isLt)] using hget

private theorem makeCompressedInner_flatten {taken : List (Fin 16)} {hashes : Fin 16 → UInt256}
    (hne : taken ≠ []) (hlen : taken.length ≤ 16) (htaken : ∀ i, i ∈ taken ↔ hashes i ≠ 0) :
    makeCompressedInner (taken.map fun i => bitString (hashes i) ++ [UInt8.ofNat i.val]).flatten =
      some (.inner hashes true) := by
  have hblock : ∀ b ∈ taken.map fun i => bitString (hashes i) ++ [UInt8.ofNat i.val],
      b.length = 33 := by
    intro b hb
    obtain ⟨i, -, rfl⟩ := List.mem_map.mp hb
    simp
  have hsum : ∀ ts : List (Fin 16), ((ts.map fun i =>
      bitString (hashes i) ++ [UInt8.ofNat i.val]).flatten).length = 33 * ts.length := by
    intro ts
    induction ts with
    | nil => rfl
    | cons i ts ih =>
      rw [List.map_cons, List.flatten_cons, List.length_append, ih, List.length_append,
        length_bitString, List.length_singleton, List.length_cons]
      omega
  have hguard : ¬((taken.map fun i => bitString (hashes i) ++ [UInt8.ofNat i.val]).flatten.length %
      33 ≠ 0 ∨ 33 * 16 < (taken.map fun i =>
        bitString (hashes i) ++ [UInt8.ofNat i.val]).flatten.length) := by
    rw [hsum]
    omega
  have hhashes : (fun i => if taken.contains i then hashes i else 0) = hashes := by
    funext i
    by_cases hi : i ∈ taken
    · rw [if_pos (by simpa using hi)]
    · rw [if_neg (by simpa using hi)]
      exact (not_not.mp fun h => hi ((htaken i).mpr h)).symm
  have hany : (false || !taken.isEmpty) = true := by
    simpa using hne
  rw [makeCompressedInner, if_neg hguard, blocks_flatten (by omega) hblock,
    foldlM_addChunk (fun i hi => (htaken i).mp hi), hhashes, hany]
  rfl

/-- **An inner node is read back with its hashes**, in either encoding. -/
theorem makeFromWire_inner {taken : List (Fin 16)} {hashes : Fin 16 → UInt256} (hne : taken ≠ [])
    (hlen : taken.length ≤ 16) (htaken : ∀ i, i ∈ taken ↔ hashes i ≠ 0) :
    makeFromWire sha512Half (innerForWire taken hashes) = some (.inner hashes true) := by
  unfold innerForWire
  split_ifs with hcount
  · rw [makeFromWire_append, makeTyped, makeCompressedInner_flatten hne hlen htaken]
  · have hfull : makeFullInner ((List.finRange 16).map fun i => bitString (hashes i)).flatten =
        some (.inner hashes true) := by
      have hlen512 : ((List.finRange 16).map fun i => bitString (hashes i)).flatten.length = 512 := by
        simp [List.length_flatten, Function.comp_def]
      obtain ⟨i, hi⟩ := List.exists_mem_of_ne_nil taken hne
      have hany : decide (∃ i, hashes i ≠ 0) = true := decide_eq_true ⟨i, (htaken i).mp hi⟩
      simp only [makeFullInner, hlen512, ne_eq, not_true_eq_false, if_false,
        take_drop_flatten fun i => length_bitString (hashes i), ofBitString_bitString]
      exact congrArg some (congrArg _ hany)
    rw [makeFromWire_append, makeTyped, hfull]

/-! ### What is hashed -/

/-- What the hashes of the nodes of a map are taken of. -/
def Hashed (sha512Half : Blob → UInt256) : SHAMapTreeNode → Blob → Prop
  | .empty, _ => False
  | .leaf l, bytes => bytes = l.preimage
  | .inner c, bytes =>
    ((∃ i, c i ≠ .empty) ∧ bytes = innerPreimage fun i => getHash sha512Half (c i)) ∨
      ∃ i, Hashed sha512Half (c i) bytes

/-- What the hashes of the nodes of a path are taken of. -/
def HashedIn (sha512Half : Blob → UInt256) (path : List Blob) (bytes : Blob) : Prop :=
  ∃ blob ∈ path, ∃ node, makeFromWire sha512Half blob = some node ∧ node.preimage? = some bytes

/-- Of these, no two have one hash, and none has the hash zero, which stands for no node. -/
structure CollisionFree (sha512Half : Blob → UInt256) (s : Blob → Prop) : Prop where
  inj : ∀ a b, s a → s b → sha512Half a = sha512Half b → a = b
  nonzero : ∀ a, s a → sha512Half a ≠ 0

theorem getHash_inner {c : Fin 16 → SHAMapTreeNode} (h : ∃ i, c i ≠ .empty) :
    getHash sha512Half (.inner c) = sha512Half (innerPreimage fun i => getHash sha512Half (c i)) := by
  obtain ⟨i, hi⟩ := h
  exact if_neg fun hall => hi (RadixTree.isEmpty_iff.mp (hall i))

theorem getHash_branching {t : SHAMapTreeNode} (h : Branching t) (hne : t ≠ .empty) :
    ∃ bytes, Hashed sha512Half t bytes ∧ getHash sha512Half t = sha512Half bytes := by
  cases t with
  | empty => exact absurd rfl hne
  | leaf l => exact ⟨l.preimage, rfl, rfl⟩
  | inner c =>
    obtain ⟨-, l, -, ⟨i, hl⟩, -⟩ := h
    have hi : ∃ i, c i ≠ .empty := ⟨i, fun hempty => not_mem_empty l (hempty ▸ hl)⟩
    exact ⟨_, .inl ⟨hi, rfl⟩, getHash_inner hi⟩

theorem mem_branches_iff {d : ℕ} {c : Fin 16 → SHAMapTreeNode} (h : Sound d (.inner c))
    (hnonzero : ∀ bytes, Hashed sha512Half (.inner c) bytes → sha512Half bytes ≠ 0) (i : Fin 16) :
    i ∈ branches c ↔ getHash sha512Half (c i) ≠ 0 := by
  rw [branches, List.mem_filter, Bool.not_eq_true', ← Bool.not_eq_true, RadixTree.isEmpty_iff]
  constructor
  · rintro ⟨-, hne⟩
    obtain ⟨bytes, hbytes, hhash⟩ := @getHash_branching sha512Half _ (h.children c rfl i) hne
    rw [hhash]
    exact hnonzero bytes (.inr ⟨i, hbytes⟩)
  · refine fun hne => ⟨List.mem_finRange i, fun hempty => hne ?_⟩
    rw [hempty]
    rfl

/-! ### Paths that a map gives -/

theorem verifyFrom_inner {d : ℕ} {c : Fin 16 → SHAMapTreeNode} (h : Sound d (.inner c))
    (hnonzero : ∀ bytes, Hashed sha512Half (.inner c) bytes → sha512Half bytes ≠ 0) (key : UInt256)
    (hne : c (nibble d key) ≠ .empty) (rest : List Blob) :
    verifyFrom sha512Half key d (getHash sha512Half (.inner c))
        (SHAMapTreeNode.serializeForWire sha512Half (.inner c) :: rest) =
      verifyFrom sha512Half key (d + 1) (getHash sha512Half (c (nibble d key))) rest := by
  have hbranch : nibble d key ∈ branches c := by
    rw [branches, List.mem_filter, Bool.not_eq_true', ← Bool.not_eq_true, RadixTree.isEmpty_iff]
    exact ⟨List.mem_finRange _, hne⟩
  have hread := @makeFromWire_inner sha512Half (branches c) (fun i => getHash sha512Half (c i))
    (List.ne_nil_of_mem hbranch) ((List.length_filter_le _ _).trans (by simp))
    (mem_branches_iff h hnonzero)
  have hhash : WireNode.getHash sha512Half (.inner (fun i => getHash sha512Half (c i)) true) =
      getHash sha512Half (.inner c) := (getHash_inner ⟨_, hne⟩).symm
  rw [verifyFrom, SHAMapTreeNode.serializeForWire, hread]
  simp only [hhash, ne_eq, not_true_eq_false, if_false]
  rfl

theorem verifyFrom_leaf (l : SHAMapLeafNode) (key : UInt256) (d : ℕ) :
    verifyFrom sha512Half key d (sha512Half l.preimage) [l.serializeForWire] =
      (reread sha512Half l).isSome := by
  have hkeep : ∀ l', reread sha512Half l = some l' → l'.preimage = l.preimage := by
    intro l' hl'
    obtain ⟨type, k, data⟩ := l
    cases type with
    | tnTransactionNm =>
      rw [← Option.some.inj hl']
      rfl
    | tnTransactionMd => rw [← Option.some.inj hl']
    | tnAccountState =>
      simp only [reread, Option.ite_none_left_eq_some, Option.some.injEq] at hl'
      rw [← hl'.2]
  rw [verifyFrom, makeFromWire_leaf]
  cases hread : reread sha512Half l with
  | none => rfl
  | some l' =>
    have hhash : WireNode.getHash sha512Half (.leaf l') = sha512Half l.preimage := by
      rw [← hkeep l' hread]
      rfl
    simp only [Option.map_some, hhash, ne_eq, not_true_eq_false, if_false]
    rfl

theorem OnPath.verifyFrom {root : SHAMapTreeNode} {key : UInt256} (hroot : Sound 0 root)
    (hnonzero : ∀ bytes, Hashed sha512Half root bytes → sha512Half bytes ≠ 0) {s : NodeStack}
    (h : OnPath root key s) :
    ∀ node nodeID stack, s = (node, nodeID) :: stack → node ≠ .empty →
      (∀ bytes, Hashed sha512Half node bytes → Hashed sha512Half root bytes) ∧
      s.length = nodeID.depth + 1 ∧
      ∀ rest, verifyFrom sha512Half key 0 (getHash sha512Half root)
          ((stack.map fun entry => SHAMapTreeNode.serializeForWire sha512Half entry.1).reverse ++
            rest) =
        SHAMap.verifyFrom sha512Half key nodeID.depth (getHash sha512Half node) rest := by
  induction h with
  | root =>
    rintro node nodeID stack heq -
    obtain ⟨⟨rfl, rfl⟩, rfl⟩ : (root = node ∧ ({} : SHAMapNodeID) = nodeID) ∧ [] = stack := by
      simpa using heq
    exact ⟨fun _ h => h, rfl, fun rest => rfl⟩
  | @child c nodeID child m stack parent place ih =>
    rintro node nodeID' stack' heq hne
    obtain ⟨⟨rfl, rfl⟩, rfl⟩ : (c (selectBranch nodeID key) = node ∧ child = nodeID') ∧
        (.inner c, nodeID) :: stack = stack' := by
      simpa using heq
    obtain ⟨hsub, hlen, hverify⟩ := ih _ _ _ rfl nofun
    obtain ⟨-, hdepth, -⟩ := SHAMapNodeID.getChildNodeID_eq_some place
    refine ⟨fun bytes hb => hsub bytes (.inr ⟨_, hb⟩), ?_, fun rest => ?_⟩
    · rw [List.length_cons, hlen, hdepth]
    · rw [List.map_cons, List.reverse_cons, List.append_assoc, List.singleton_append, hverify,
        verifyFrom_inner (parent.sound hroot _ _ _ rfl).1 (fun bytes hb => hnonzero bytes (hsub bytes hb))
          key hne, hdepth]
      rfl

/-- **The path of a key of the map is given, and accepted** if its leaf can be read back. -/
theorem getProofPath_verifies {root : SHAMapTreeNode} (hroot : Sound 0 root)
    (hnonzero : ∀ bytes, Hashed sha512Half root bytes → sha512Half bytes ≠ 0) {l : SHAMapLeafNode}
    (hl : l ∈ root) :
    ∃ path, getProofPath sha512Half root (keyOf l) = some (some path) ∧
      verifyProofPath sha512Half (getHash sha512Half root) (keyOf l) path =
        (reread sha512Half l).isSome := by
  obtain ⟨node, nodeID, stack, hwalk, hpath, hend⟩ := walkTowardsKey_onPath hroot (keyOf l)
  obtain ⟨-, -, -, hown⟩ := hpath.sound hroot _ _ _ rfl
  rcases hend with ⟨l', rfl⟩ | ⟨c, rfl, hempty⟩
  · obtain rfl := mem_leaf.mp (hown l hl rfl)
    obtain ⟨-, hlen, hverify⟩ := hpath.verifyFrom hroot hnonzero _ _ _ rfl nofun
    have hshort := hpath.depth_le
    refine ⟨((.leaf l, nodeID) :: stack).map fun entry =>
      SHAMapTreeNode.serializeForWire sha512Half entry.1, ?_, ?_⟩
    · rw [getProofPath, hwalk]
      simp only [bind, Option.bind, leafAt, keyOf, if_true]
      rfl
    · rw [verifyProofPath, if_neg, List.map_cons, List.reverse_cons, hverify]
      · exact verifyFrom_leaf l (keyOf l) nodeID.depth
      · unfold kLeafDepth at hshort
        simp only [List.map_cons, List.isEmpty_cons, List.length_cons, List.length_map,
          Bool.false_eq_true, false_or, not_lt] at hlen ⊢
        omega
  · exact absurd rfl (hpath.key_ne hroot hempty hl)

/-! ### Paths that are accepted -/

theorem preimage_inj {l l' : SHAMapLeafNode} (h : l.preimage = l'.preimage) :
    l.type = l'.type ∧ l.item.data = l'.item.data ∧
      (l.type ≠ .tnTransactionNm → l.item.key = l'.item.key) := by
  obtain ⟨type, key, data⟩ := l
  obtain ⟨type', key', data'⟩ := l'
  have htag : data ++ bitString key = data' ++ bitString key' → data = data' ∧ key = key' := by
    intro happ
    obtain ⟨hdata, hkey⟩ := List.append_inj' happ (by simp)
    exact ⟨hdata, bitString_injective hkey⟩
  cases type <;> cases type' <;> simp [SHAMapLeafNode.preimage, HashPrefix.bytes] at h ⊢
  · exact h
  · exact htag h
  · exact htag h

theorem innerPreimage_inj {hashes hashes' : Fin 16 → UInt256}
    (h : innerPreimage hashes = innerPreimage hashes') : hashes = hashes' := by
  have hflat : ((List.finRange 16).map fun i => bitString (hashes i)).flatten =
      ((List.finRange 16).map fun i => bitString (hashes' i)).flatten := by
    rw [← List.flatMap_def, ← List.flatMap_def]
    exact List.append_cancel_left h
  funext i
  have hi := take_drop_flatten (fun i => length_bitString (hashes i)) i
  rw [hflat, take_drop_flatten fun i => length_bitString (hashes' i)] at hi
  exact (bitString_injective hi).symm

theorem preimage_ne_inner {l : SHAMapLeafNode} {hashes : Fin 16 → UInt256} :
    l.preimage ≠ innerPreimage hashes := by
  obtain ⟨type, key, data⟩ := l
  cases type <;> simp [SHAMapLeafNode.preimage, innerPreimage, HashPrefix.bytes]

theorem makeFromWire_untaken {blob : Blob} {hashes : Fin 16 → UInt256}
    (h : makeFromWire sha512Half blob = some (.inner hashes false)) : ∀ i, hashes i = 0 := by
  have hfold : ∀ (chunks : List Blob) (node node' : (Fin 16 → UInt256) × Bool),
      (node.2 = false → ∀ i, node.1 i = 0) → chunks.foldlM addChunk node = some node' →
        node'.2 = false → ∀ i, node'.1 i = 0 := by
    intro chunks
    induction chunks with
    | nil =>
      intro node node' hnode heq
      rwa [← Option.some.inj heq]
    | cons chunk chunks ih =>
      intro node node' hnode heq
      rw [List.foldlM_cons] at heq
      obtain ⟨mid, hmid, hrest⟩ := Option.bind_eq_some_iff.mp heq
      refine ih mid node' (fun htaken i => ?_) hrest
      simp only [addChunk, Option.dite_none_right_eq_some, Option.some.injEq] at hmid
      obtain ⟨hpos, rfl⟩ := hmid
      rw [Bool.or_eq_false_iff, decide_eq_false_iff_not, not_not] at htaken
      by_cases hi : i = ⟨_, hpos⟩
      · subst hi
        exact (Function.update_self _ _ _).trans htaken.2
      · exact (Function.update_of_ne hi _ _).trans (hnode htaken.1 i)
  rw [makeFromWire] at h
  obtain ⟨byte, -, h⟩ := Option.bind_eq_some_iff.mp h
  obtain ⟨type, -, h⟩ := Option.bind_eq_some_iff.mp h
  cases type with
  | transaction => exact nomatch h
  | accountState =>
    obtain ⟨⟨data, tag⟩, -, h⟩ := Option.bind_eq_some_iff.mp h
    simp at h
  | transactionWithMeta =>
    obtain ⟨⟨data, tag⟩, -, h⟩ := Option.bind_eq_some_iff.mp h
    simp at h
  | inner =>
    simp only [makeTyped, makeFullInner, Option.ite_none_left_eq_some, Option.some.injEq,
      WireNode.inner.injEq, decide_eq_false_iff_not, not_exists, not_not] at h
    obtain ⟨-, rfl, hzero⟩ := h
    exact hzero
  | compressedInner =>
    simp only [makeTyped, makeCompressedInner, Option.ite_none_left_eq_some] at h
    obtain ⟨node, hnode, h⟩ := Option.bind_eq_some_iff.mp h.2
    obtain ⟨rfl, htaken⟩ := WireNode.inner.inj (Option.some.inj h)
    exact hfold _ _ node (fun _ _ => rfl) hnode htaken

theorem verifyFrom_zero {key : UInt256} {path : List Blob}
    (hnonzero : ∀ bytes, HashedIn sha512Half path bytes → sha512Half bytes ≠ 0) {d : ℕ} :
    verifyFrom sha512Half key d 0 path = false := by
  induction path generalizing d with
  | nil => rfl
  | cons blob rest ih =>
    have hread : ∀ node bytes, makeFromWire sha512Half blob = some node →
        node.preimage? = some bytes → node.getHash sha512Half ≠ 0 := by
      intro node bytes hnode hbytes
      rw [WireNode.getHash, hbytes]
      exact hnonzero bytes ⟨blob, List.mem_cons_self, node, hnode, hbytes⟩
    rw [verifyFrom]
    cases hnode : makeFromWire sha512Half blob with
    | none => rfl
    | some node =>
      cases node with
      | leaf l => exact if_pos (hread _ _ hnode rfl)
      | inner hashes taken =>
        cases taken with
        | true => exact if_pos (hread _ _ hnode rfl)
        | false =>
          simp only [makeFromWire_untaken hnode]
          rw [if_neg (by simp [WireNode.getHash, WireNode.preimage?])]
          exact ih fun bytes ⟨b, hb, hrest⟩ => hnonzero bytes ⟨b, List.mem_cons_of_mem _ hb, hrest⟩

/-- The leaf that a path, from the leaf to the root, starts with. -/
def leafOf (sha512Half : Blob → UInt256) (path : List Blob) : Option SHAMapLeafNode := do
  match ← makeFromWire sha512Half (← path.head?) with
  | .leaf l => return l
  | .inner _ _ => none

/-- **An accepted path leads to a leaf of the map**: the one where the way of the key ends. -/
theorem verifyFrom_sound {key : UInt256} {path : List Blob} {t : SHAMapTreeNode} {d : ℕ}
    (hfree : CollisionFree sha512Half fun bytes =>
      Hashed sha512Half t bytes ∨ HashedIn sha512Half path bytes)
    (ht : Placed nibble keyOf d t)
    (h : verifyFrom sha512Half key d (getHash sha512Half t) path = true) :
    ∃ l l', l ∈ t ∧ (∀ x ∈ t, keyOf x = key → x = l) ∧ leafOf sha512Half path.reverse = some l' ∧
      l'.preimage = l.preimage := by
  induction path generalizing t d with
  | nil => exact nomatch h
  | cons blob rest ih =>
    have hempty : getHash sha512Half t ≠ 0 := by
      intro hzero
      rw [hzero, verifyFrom_zero fun bytes hb => hfree.nonzero bytes (.inr hb)] at h
      exact nomatch h
    rw [verifyFrom] at h
    cases hnode : makeFromWire sha512Half blob with
    | none =>
      rw [hnode] at h
      exact nomatch h
    | some node =>
      rw [hnode] at h
      simp only [Bool.if_false_left, Bool.and_eq_true, Bool.not_eq_true', decide_eq_false_iff_not,
        not_not] at h
      obtain ⟨hhash, hstep⟩ := h
      -- what the node and the map hash here is one thing
      have hsame : ∀ bytes, Hashed sha512Half t bytes → getHash sha512Half t = sha512Half bytes →
          node.preimage? = some bytes := by
        intro bytes hbytes heq
        cases hpre : node.preimage? with
        | none =>
          rw [WireNode.getHash, hpre] at hhash
          exact absurd hhash.symm hempty
        | some bytes' =>
          rw [WireNode.getHash, hpre] at hhash
          refine congrArg some (hfree.inj _ _ (.inr ⟨blob, List.mem_cons_self, node, hnode, hpre⟩)
            (.inl hbytes) (hhash.trans heq))
      cases t with
      | empty => exact absurd rfl hempty
      | leaf l =>
        have hpre := hsame l.preimage rfl rfl
        cases node with
        | leaf l' =>
          obtain rfl : rest = [] := List.isEmpty_iff.mp hstep
          refine ⟨l, l', rfl, fun x hx _ => hx, ?_, Option.some.inj hpre⟩
          simp [leafOf, hnode]
        | inner hashes taken =>
          cases taken with
          | false => exact nomatch hpre
          | true => exact absurd (Option.some.inj hpre).symm preimage_ne_inner
      | inner c =>
        have hc : ∃ i, c i ≠ .empty := by
          by_contra hno
          push Not at hno
          refine hempty (if_pos fun i => ?_)
          rw [hno i]
          rfl
        have hpre := hsame _ (.inl ⟨hc, rfl⟩) (getHash_inner hc)
        cases node with
        | leaf l' => exact absurd (Option.some.inj hpre) preimage_ne_inner
        | inner hashes taken =>
          cases taken with
          | false => exact nomatch hpre
          | true =>
            obtain rfl := innerPreimage_inj (Option.some.inj hpre)
            obtain ⟨l, l', hl, huniq, hleaf, hpreimage⟩ := ih
              ⟨fun a b ha hb => hfree.inj a b (ha.imp (fun x => .inr ⟨_, x⟩)
                  fun ⟨b, hb, hx⟩ => ⟨b, List.mem_cons_of_mem _ hb, hx⟩)
                (hb.imp (fun x => .inr ⟨_, x⟩) fun ⟨b, hb, hx⟩ => ⟨b, List.mem_cons_of_mem _ hb, hx⟩),
                fun a ha => hfree.nonzero a (ha.imp (fun x => .inr ⟨_, x⟩)
                  fun ⟨b, hb, hx⟩ => ⟨b, List.mem_cons_of_mem _ hb, hx⟩)⟩
              (ht.1 _) hstep
            refine ⟨l, l', ⟨_, hl⟩, fun x hx hkey => huniq x ?_ hkey, ?_, hpreimage⟩
            · refine ht.mem_child.mpr ⟨hx, ?_⟩
              rw [hkey]
              rfl
            · cases rest with
              | nil => exact nomatch hstep
              | cons b rest =>
                rw [List.reverse_cons, leafOf, List.head?_append_of_ne_nil _ (by simp)]
                exact hleaf

theorem makeFromWire_keyed {blob : Blob} {l : SHAMapLeafNode}
    (h : makeFromWire sha512Half blob = some (.leaf l)) (htype : l.type = .tnTransactionNm) :
    l.item.key = sha512Half l.preimage := by
  rw [makeFromWire] at h
  obtain ⟨byte, -, h⟩ := Option.bind_eq_some_iff.mp h
  obtain ⟨type, -, h⟩ := Option.bind_eq_some_iff.mp h
  cases type with
  | transaction =>
    obtain rfl := WireNode.leaf.inj (Option.some.inj h)
    rfl
  | accountState =>
    obtain ⟨⟨data, tag⟩, -, h⟩ := Option.bind_eq_some_iff.mp h
    simp only [Option.ite_none_left_eq_some, Option.some.injEq, WireNode.leaf.injEq] at h
    rw [← h.2] at htype
    exact nomatch htype
  | transactionWithMeta =>
    obtain ⟨⟨data, tag⟩, -, h⟩ := Option.bind_eq_some_iff.mp h
    obtain rfl := WireNode.leaf.inj (Option.some.inj h)
    exact nomatch htype
  | inner =>
    simp [makeTyped, makeFullInner] at h
  | compressedInner =>
    simp only [makeTyped, makeCompressedInner, Option.ite_none_left_eq_some] at h
    obtain ⟨node, -, h⟩ := Option.bind_eq_some_iff.mp h.2
    exact nomatch Option.some.inj h

/-- Transactions without metadata are kept under their ids. -/
def Keyed (sha512Half : Blob → UInt256) (root : SHAMapTreeNode) : Prop :=
  ∀ l ∈ root, l.type = .tnTransactionNm → l.item.key = sha512Half l.preimage

/-- **Proof paths.** With a hash that has no collision among the nodes of a map and of a path: for a key
that the map contains a path is given, and it is accepted unless the key is zero and the leaf one of an
account state; and where a path is accepted, the map contains the key exactly if the leaf the path
starts with has it. -/
theorem proof_path_iff (sha512Half : Blob → UInt256) (map : SHAMap) (key : UInt256) (path : List Blob)
    (hfree : CollisionFree sha512Half fun bytes =>
      Hashed sha512Half map.root bytes ∨ HashedIn sha512Half path bytes)
    (hkeyed : Keyed sha512Half map.root) :
    (∀ l ∈ map.root, keyOf l = key →
      ∃ given, getProofPath sha512Half map.root key = some (some given) ∧
        (verifyProofPath sha512Half (getHash sha512Half map.root) key given = true ↔
          ¬(key = 0 ∧ l.type = .tnAccountState))) ∧
    (verifyProofPath sha512Half (getHash sha512Half map.root) key path = true →
      ((∃ l ∈ map.root, keyOf l = key) ↔ (leafOf sha512Half path).map keyOf = some key)) := by
  constructor
  · rintro l hl rfl
    obtain ⟨given, hgiven, hverify⟩ := getProofPath_verifies map.sound
      (fun bytes hb => hfree.nonzero bytes (.inl hb)) hl
    refine ⟨given, hgiven, ?_⟩
    rw [hverify]
    obtain ⟨type, k, data⟩ := l
    cases type with
    | tnTransactionNm => simp [reread]
    | tnTransactionMd => simp [reread]
    | tnAccountState =>
      by_cases hkey : k = 0
      · simp [reread, keyOf, hkey]
      · simp only [reread, keyOf, if_neg hkey]
        simp [show ¬k = 0#256 from hkey]
  · intro h
    rw [verifyProofPath, ite_eq_iff] at h
    obtain ⟨-, hfalse⟩ | ⟨-, h⟩ := h
    · exact nomatch hfalse
    have hrev : ∀ bytes, HashedIn sha512Half path.reverse bytes → HashedIn sha512Half path bytes :=
      fun bytes ⟨b, hb, hx⟩ => ⟨b, List.mem_reverse.mp hb, hx⟩
    obtain ⟨l, l', hl, huniq, hleaf, hpre⟩ := verifyFrom_sound
      ⟨fun a b ha hb => hfree.inj a b (ha.imp_right (hrev a)) (hb.imp_right (hrev b)),
        fun a ha => hfree.nonzero a (ha.imp_right (hrev a))⟩ map.sound.placed h
    rw [List.reverse_reverse] at hleaf
    have hkey : keyOf l' = keyOf l := by
      obtain ⟨htype, -, hkeys⟩ := preimage_inj hpre
      by_cases hnm : l'.type = .tnTransactionNm
      · have hread : ∃ blob, makeFromWire sha512Half blob = some (.leaf l') := by
          obtain ⟨blob, -, hblob⟩ := Option.bind_eq_some_iff.mp hleaf
          obtain ⟨node, hnode, hl'⟩ := Option.bind_eq_some_iff.mp hblob
          cases node with
          | leaf l₀ =>
            obtain rfl := Option.some.inj hl'
            exact ⟨blob, hnode⟩
          | inner hashes taken => exact nomatch hl'
        obtain ⟨blob, hblob⟩ := hread
        calc keyOf l' = sha512Half l'.preimage := makeFromWire_keyed hblob hnm
          _ = sha512Half l.preimage := by rw [hpre]
          _ = keyOf l := (hkeyed l hl (htype ▸ hnm)).symm
      · exact hkeys hnm
    rw [hleaf, Option.map_some, Option.some.injEq, hkey]
    constructor
    · rintro ⟨x, hx, hxkey⟩
      rw [← huniq x hx hxkey, hxkey]
    · exact fun heq => ⟨l, hl, heq⟩

/-! ### A map with one leaf -/

namespace Sample

def toyHash (bytes : Blob) : UInt256 :=
  BitVec.ofNat 256 (bytes.foldl (fun n b => 257 * n + b.toNat + 1) 0)

def leaf : SHAMapLeafNode := ⟨.tnAccountState, BitVec.ofNat 256 (2 ^ 252), List.replicate 12 7⟩

def children : Fin 16 → SHAMapTreeNode :=
  Function.update (fun _ => .empty) (nibble 0 leaf.item.key) (.leaf leaf)

def root : SHAMapTreeNode := .inner children

def map : SHAMap where
  root := root
  sound := by
    refine sound_newInner.update ⟨trivial, trivial⟩ (fun l hl => ?_) fun l hl => absurd hl (not_mem_empty l)
    obtain rfl := mem_leaf.mp hl
    rfl

def path : List Blob :=
  [leaf.serializeForWire, SHAMapTreeNode.serializeForWire toyHash root]

def wrongKey : UInt256 := BitVec.ofNat 256 (2 ^ 252 + 1)

theorem hashed {bytes : Blob} (h : Hashed toyHash map.root bytes ∨ HashedIn toyHash path bytes) :
    bytes = leaf.preimage ∨
      bytes = innerPreimage fun i => getHash toyHash (children i) := by
  rcases h with (⟨-, hroot⟩ | ⟨i, hi⟩) | ⟨blob, hblob, node, hnode, hpre⟩
  · exact .inr hroot
  · by_cases hbranch : i = nibble 0 leaf.item.key
    · subst hbranch
      exact .inl hi
    · rw [children, Function.update_of_ne hbranch] at hi
      exact absurd hi id
  · rcases List.mem_cons.mp hblob with rfl | hblob
    · have hread : reread toyHash leaf = some leaf := by decide +kernel
      rw [makeFromWire_leaf, hread] at hnode
      obtain rfl := Option.some.inj hnode
      exact .inl (Option.some.inj hpre).symm
    · obtain rfl := List.mem_singleton.mp hblob
      have htaken : ∀ i, i ∈ branches children ↔ getHash toyHash (children i) ≠ 0 := by
        decide +kernel
      rw [root, SHAMapTreeNode.serializeForWire,
        makeFromWire_inner (by decide +kernel) (by decide +kernel) htaken] at hnode
      obtain rfl := Option.some.inj hnode
      exact .inr (Option.some.inj hpre).symm

theorem collisionFree : CollisionFree toyHash fun bytes =>
    Hashed toyHash map.root bytes ∨ HashedIn toyHash path bytes where
  inj := fun a b ha hb => by
    rcases hashed ha with rfl | rfl <;> rcases hashed hb with rfl | rfl
    · exact fun _ => rfl
    · exact fun h => absurd h (by decide +kernel)
    · exact fun h => absurd h (by decide +kernel)
    · exact fun _ => rfl
  nonzero := fun a ha => by
    rcases hashed ha with rfl | rfl
    · decide +kernel
    · decide +kernel

theorem eq_leaf {l : SHAMapLeafNode} (h : l ∈ map.root) : l = leaf := by
  rcases mem_update.mp h with hl | ⟨j, -, hl⟩
  · exact hl
  · exact absurd hl (not_mem_empty l)

theorem keyed : Keyed toyHash map.root := by
  intro l hl htype
  rw [eq_leaf hl] at htype
  exact nomatch htype

end Sample

theorem proof_path_iff_recorded :
    verifyProofPath Sample.toyHash (getHash Sample.toyHash Sample.root) (keyOf Sample.leaf) Sample.path =
        true ∧
      ∃ l ∈ Sample.root, keyOf l = keyOf Sample.leaf := by
  have haccept : verifyProofPath Sample.toyHash (getHash Sample.toyHash Sample.root)
      (keyOf Sample.leaf) Sample.path = true := by
    decide +kernel
  refine ⟨haccept, ?_⟩
  exact ((proof_path_iff Sample.toyHash Sample.map (keyOf Sample.leaf) Sample.path
    Sample.collisionFree Sample.keyed).2 haccept).mpr (by decide +kernel)

/-- **The path of one key is accepted for another**, that shares the digits above the leaf, and that the
map does not contain. -/
theorem wrong_key_accepted :
    (CollisionFree Sample.toyHash fun bytes =>
        Hashed Sample.toyHash Sample.map.root bytes ∨ HashedIn Sample.toyHash Sample.path bytes) ∧
      Keyed Sample.toyHash Sample.map.root ∧
      verifyProofPath Sample.toyHash (getHash Sample.toyHash Sample.map.root) Sample.wrongKey
        Sample.path = true ∧
      ¬∃ l ∈ Sample.map.root, keyOf l = Sample.wrongKey := by
  refine ⟨Sample.collisionFree, Sample.keyed, by decide +kernel, ?_⟩
  rintro ⟨l, hl, hkey⟩
  rw [Sample.eq_leaf hl] at hkey
  exact absurd hkey (by decide +kernel)

end SHAMap

end FalconLedger
