import FalconLedger.SHAMap.InnerNode
import FalconLedger.Properties.SHAMapProofs

/-!
# Inner nodes on the wire

The sixteen hashes of an inner node are in the same order however they are stored, so that its hash
and both encodings depend on the bits and the hashes only. A node that is read has the hash of the
last chunk for each branch, but the bit of every branch that any chunk gave a hash to.
-/

namespace FalconLedger

open Bytes SHAMap

namespace TaggedPointer

variable {isBranch : BitVec 16} {hashes : List UInt256}

/-! ### Places -/

theorem popcnt16_below {before after : List (Fin 16)} {i : Fin 16}
    (hsplit : List.finRange 16 = before ++ i :: after) :
    popcnt16 (isBranch &&& BitVec.ofNat 16 (2 ^ i.val - 1)) =
      (before.filter fun j => isTaken isBranch j).length := by
  have hsorted := List.pairwise_lt_finRange 16
  rw [hsplit, List.pairwise_append, List.pairwise_cons] at hsorted
  obtain ⟨-, ⟨hafter, -⟩, hbefore⟩ := hsorted
  have hmask : ∀ j : Fin 16, isTaken (isBranch &&& BitVec.ofNat 16 (2 ^ i.val - 1)) j =
      (isTaken isBranch j && decide (j < i)) := by
    intro j
    have hlt := j.isLt
    unfold isTaken
    rw [BitVec.getLsbD_and, BitVec.getLsbD_ofNat, Nat.testBit_two_pow_sub_one,
      decide_eq_true hlt, Bool.true_and]
    rfl
  unfold popcnt16
  rw [hsplit, List.countP_append, ← List.countP_eq_length_filter]
  have hlow : before.countP (fun j => isTaken (isBranch &&& BitVec.ofNat 16 (2 ^ i.val - 1)) j) =
      before.countP fun j => isTaken isBranch j := by
    refine List.countP_congr fun j hj => ?_
    rw [hmask, decide_eq_true (hbefore j hj i List.mem_cons_self), Bool.and_true]
  have hhigh : (i :: after).countP
      (fun j => isTaken (isBranch &&& BitVec.ofNat 16 (2 ^ i.val - 1)) j) = 0 := by
    refine List.countP_eq_zero.mpr fun j hj => ?_
    rw [hmask, Bool.and_eq_true, decide_eq_true_iff, not_and]
    intro _
    rcases List.mem_cons.mp hj with rfl | hj
    · exact lt_irrefl _
    · exact (hafter j hj).asymm
  rw [hlow, hhigh, add_zero]

theorem exists_split (i : Fin 16) : ∃ before after, List.finRange 16 = before ++ i :: after :=
  List.append_of_mem (List.mem_finRange i)

theorem taken_split {before after : List (Fin 16)} {i : Fin 16}
    (hsplit : List.finRange 16 = before ++ i :: after) (hi : isTaken isBranch i = true) :
    taken isBranch = (before.filter fun j => isTaken isBranch j) ++
      i :: after.filter fun j => isTaken isBranch j := by
  unfold taken
  rw [hsplit, List.filter_append, List.filter_cons_of_pos (p := fun j => isTaken isBranch j) hi]

theorem taken_getElem_popcnt16 {i : Fin 16} (hi : isTaken isBranch i = true) :
    (taken isBranch)[popcnt16 (isBranch &&& BitVec.ofNat 16 (2 ^ i.val - 1))]? = some i := by
  obtain ⟨before, after, hsplit⟩ := exists_split i
  rw [popcnt16_below hsplit, taken_split hsplit hi]
  simp

theorem length_taken (isBranch : BitVec 16) : (taken isBranch).length = popcnt16 isBranch :=
  List.countP_eq_length_filter.symm

theorem mem_taken {i : Fin 16} : i ∈ taken isBranch ↔ isTaken isBranch i = true := by
  simp [taken]

/-- The hash of a branch. -/
def childHash (isBranch : BitVec 16) (hashes : List UInt256) (i : Fin 16) : UInt256 :=
  ((getChildIndex isBranch hashes i).map fun k => hashes.getD k 0).getD 0

private theorem iterSparse_eq (hsparse : isDense hashes = false) {before after : List (Fin 16)}
    (hsplit : List.finRange 16 = before ++ after) :
    iterSparse isBranch hashes after (before.filter fun j => isTaken isBranch j).length =
      after.map (childHash isBranch hashes) := by
  induction after generalizing before with
  | nil => rfl
  | cons i after ih =>
    have hnext := @ih (before ++ [i]) (by rw [hsplit]; simp)
    rw [List.filter_append] at hnext
    unfold iterSparse
    cases hi : isTaken isBranch i with
    | true =>
      have hchild : childHash isBranch hashes i =
          hashes.getD (before.filter fun j => isTaken isBranch j).length 0 := by
        simp [childHash, getChildIndex, hsparse, hi, popcnt16_below hsplit]
      rw [if_pos rfl, List.map_cons, hchild, ← hnext]
      simp [hi]
    | false =>
      have hchild : childHash isBranch hashes i = 0 := by
        simp [childHash, getChildIndex, hsparse, hi]
      rw [if_neg (by simp), List.map_cons, hchild, ← hnext]
      simp [hi]

theorem iterChildren_eq (isBranch : BitVec 16) (hashes : List UInt256) :
    iterChildren isBranch hashes = (List.finRange 16).map (childHash isBranch hashes) := by
  unfold iterChildren
  cases hdense : isDense hashes with
  | false =>
    have hsparse := @iterSparse_eq isBranch hashes hdense [] (List.finRange 16) rfl
    simpa using hsparse
  | true =>
    have hlength : hashes.length = 16 := of_decide_eq_true hdense
    rw [if_pos rfl]
    refine List.ext_getElem (by simp [hlength]) fun k hk hk' => ?_
    simp [childHash, getChildIndex, hdense, List.getElem?_eq_getElem hk]

/-- `iterNonEmptyChildIndexes` meets the hashes of the taken branches, in order. -/
theorem iterNonEmpty_map {β : Type} (f : Fin 16 → UInt256 → β) (isBranch : BitVec 16)
    (hashes : List UInt256) :
    (iterNonEmptyChildIndexes isBranch hashes).map (fun p => f p.1 (hashes.getD p.2 0)) =
      (taken isBranch).map fun i => f i (childHash isBranch hashes i) := by
  unfold iterNonEmptyChildIndexes
  cases hdense : isDense hashes with
  | true => simp [childHash, getChildIndex, hdense, Function.comp_def]
  | false =>
    rw [if_neg (by simp)]
    refine List.ext_getElem (by simp) fun k hk hk' => ?_
    have hlt : k < (taken isBranch).length := by simpa using hk'
    have hbit : isTaken isBranch (taken isBranch)[k] = true :=
      mem_taken.mp (List.getElem_mem hlt)
    -- the taken branches are all different, so the place of one is where it stands
    have hplace : popcnt16 (isBranch &&& BitVec.ofNat 16 (2 ^ (taken isBranch)[k].val - 1)) = k := by
      have hnodup : (taken isBranch).Nodup := (List.nodup_finRange 16).filter _
      have hget := taken_getElem_popcnt16 hbit
      obtain ⟨hlt', heq⟩ := List.getElem?_eq_some_iff.mp hget
      exact (List.Nodup.getElem_inj_iff hnodup).mp heq
    simp [childHash, getChildIndex, hdense, hbit, hplace]

/-! ### Arrays of another size -/

theorem popcnt16_le (isBranch : BitVec 16) : popcnt16 isBranch ≤ 16 := List.countP_le_length

theorem le_numAllocatedChildren {n : ℕ} (h : n ≤ 16) : n ≤ numAllocatedChildren n := by
  interval_cases n <;> decide

theorem childHash_dense {f : Fin 16 → UInt256} (i : Fin 16) :
    childHash isBranch ((List.finRange 16).map f) i = f i := by
  have hdense : isDense ((List.finRange 16).map f) = true := by simp [isDense]
  simp [childHash, getChildIndex, hdense]

theorem childHash_resize {f : Fin 16 → UInt256}
    (hf : ∀ i, isTaken isBranch i = false → f i = 0) (i : Fin 16) :
    childHash isBranch (resize isBranch ((List.finRange 16).map f) (popcnt16 isBranch)) i = f i := by
  have hle := le_numAllocatedChildren (popcnt16_le isBranch)
  unfold resize
  dsimp only
  rw [List.length_map, List.length_finRange]
  by_cases h16 : numAllocatedChildren (popcnt16 isBranch) = 16
  · rw [if_pos h16]
    exact childHash_dense i
  · rw [if_neg h16, if_neg h16]
    have hmap := iterNonEmpty_map (fun _ h => h) isBranch ((List.finRange 16).map f)
    simp only [childHash_dense] at hmap
    have hcount : (iterNonEmptyChildIndexes isBranch ((List.finRange 16).map f)).length =
        popcnt16 isBranch := by
      have hlength := congrArg List.length hmap
      rwa [List.length_map, List.length_map, length_taken] at hlength
    rw [hmap, hcount]
    have hsparse : isDense ((taken isBranch).map f ++ List.replicate
        (numAllocatedChildren (popcnt16 isBranch) - popcnt16 isBranch) 0) = false := by
      refine decide_eq_false ?_
      rw [List.length_append, List.length_map, List.length_replicate, length_taken,
        Nat.add_sub_cancel' hle]
      exact h16
    cases hi : isTaken isBranch i with
    | false =>
      simp only [childHash, getChildIndex, hsparse, hi, Bool.false_eq_true, if_false,
        Option.map_none, Option.getD_none, hf i hi]
    | true =>
      have hplace := taken_getElem_popcnt16 hi
      obtain ⟨hlt, -⟩ := List.getElem?_eq_some_iff.mp hplace
      simp only [childHash, getChildIndex, hsparse, hi, Bool.false_eq_true, if_false, if_true,
        Option.map_some, Option.getD_some, List.getD_eq_getElem?_getD]
      rw [List.getElem?_append_left (by simpa using hlt), List.getElem?_map, hplace]
      rfl

end TaggedPointer

namespace SHAMapInnerNode

open TaggedPointer

variable {sha512Half : Blob → UInt256}

theorem getChildHash_eq (node : SHAMapInnerNode) (i : Fin 16) :
    node.getChildHash i = childHash node.isBranch node.hashes i := by
  unfold getChildHash childHash
  cases getChildIndex node.isBranch node.hashes i <;> rfl

theorem freshHash_eq (node : SHAMapInnerNode) :
    node.freshHash sha512Half =
      if node.isBranch = 0 then 0 else sha512Half (innerPreimage node.getChildHash) := by
  unfold freshHash innerPreimage
  rw [iterChildren_eq, List.flatMap_map]
  simp only [getChildHash_eq]

theorem isBranch_ext {b b' : BitVec 16} (h : ∀ i, isTaken b i = isTaken b' i) : b = b' :=
  BitVec.eq_of_getLsbD_eq fun i hi => h ⟨i, hi⟩

/-! ### Reading -/

namespace Filling

/-- Hashes for branches, one after the other. -/
def putAll (node : Filling) (entries : List (Fin 16 × UInt256)) : Filling :=
  entries.foldl (fun node p => node.put p.1 p.2) node

theorem isTaken_put (node : Filling) (i j : Fin 16) (hash : UInt256) :
    isTaken (node.put i hash).isBranch j =
      (isTaken node.isBranch j || (decide (i = j) && decide (hash ≠ 0))) := by
  by_cases hzero : hash = 0
  · simp [put, hzero]
  · simp only [put, ne_eq, hzero, not_false_eq_true, if_true, isTaken, BitVec.getLsbD_or,
      BitVec.getLsbD_twoPow, i.isLt, decide_true, Bool.true_and, Bool.and_true]
    congr 1
    exact decide_eq_decide.mpr (by rw [Fin.ext_iff])

theorem hashes_putAll (node : Filling) (entries : List (Fin 16 × UInt256)) (i : Fin 16) :
    (node.putAll entries).hashes i =
      ((entries.filter fun p => p.1 = i).getLast?.map Prod.snd).getD (node.hashes i) := by
  induction entries generalizing node with
  | nil => rfl
  | cons p entries ih =>
    have hstep : node.putAll (p :: entries) = (node.put p.1 p.2).putAll entries := rfl
    rw [hstep, ih]
    by_cases hp : p.1 = i
    · rw [List.filter_cons_of_pos (by simpa using hp), List.getLast?_cons]
      subst hp
      cases (entries.filter fun q => q.1 = p.1).getLast? <;> simp [put]
    · rw [List.filter_cons_of_neg (by simpa using hp)]
      simp [put, Function.update_of_ne (Ne.symm hp)]

theorem isTaken_putAll (node : Filling) (entries : List (Fin 16 × UInt256)) (i : Fin 16) :
    isTaken (node.putAll entries).isBranch i =
      (isTaken node.isBranch i || entries.any fun p => decide (p.1 = i) && decide (p.2 ≠ 0)) := by
  induction entries generalizing node with
  | nil => simp [putAll]
  | cons p entries ih =>
    have hstep : node.putAll (p :: entries) = (node.put p.1 p.2).putAll entries := rfl
    rw [hstep, ih, isTaken_put, List.any_cons, Bool.or_assoc]

theorem hashes_of_not_taken {entries : List (Fin 16 × UInt256)} {i : Fin 16}
    (h : isTaken (emptyFilling.putAll entries).isBranch i = false) :
    (emptyFilling.putAll entries).hashes i = 0 := by
  rw [isTaken_putAll, Bool.or_eq_false_iff] at h
  have hnone := List.any_eq_false.mp h.2
  rw [hashes_putAll]
  cases hlast : (entries.filter fun p => p.1 = i).getLast? with
  | none => rfl
  | some p =>
    obtain ⟨hp, hpi⟩ := List.mem_filter.mp (List.mem_of_getLast? hlast)
    have hzero := hnone p hp
    simp only [hpi, Bool.true_and, decide_eq_true_eq, not_not] at hzero
    simpa using hzero

end Filling

/-- A node that has been read, from the entries it was read from. -/
structure ReadFrom (entries : List (Fin 16 × UInt256)) (node : SHAMapInnerNode) : Prop where
  isBranch_eq : node.isBranch = (emptyFilling.putAll entries).isBranch
  getChildHash_eq : ∀ i, node.getChildHash i = (emptyFilling.putAll entries).hashes i

theorem finish_readFrom (entries : List (Fin 16 × UInt256)) (hash : UInt256) :
    ReadFrom entries { (emptyFilling.putAll entries).finish with hash } where
  isBranch_eq := rfl
  getChildHash_eq i := by
    rw [getChildHash_eq]
    exact childHash_resize (fun _ => Filling.hashes_of_not_taken) i

/-! ### What the wire says -/

/-- The position and the hash of a chunk. -/
def chunkEntry (chunk : Blob) : Option (Fin 16 × UInt256) :=
  if h : chunkPos chunk < 16 then some (⟨chunkPos chunk, h⟩, chunkHash chunk) else none

/-- The sixteen hashes of a full node. -/
def fullEntries (data : Blob) : List (Fin 16 × UInt256) :=
  (List.finRange 16).map fun i => (i, ofBitString ((data.drop (32 * i.val)).take 32))

/-- The branches and the hashes for them in the order they are read. -/
def wireEntries (rawNode : Blob) : List (Fin 16 × UInt256) :=
  if rawNode.getLast? = some WireType.inner.byte then fullEntries rawNode.dropLast
  else (blocks 33 rawNode.dropLast).filterMap chunkEntry

/-- A branch is given a hash, and in the end a zero. -/
def Blanked (rawNode : Blob) : Prop :=
  ∃ i, (∃ p ∈ wireEntries rawNode, p.1 = i ∧ p.2 ≠ 0) ∧
    ((wireEntries rawNode).filter fun p => p.1 = i).getLast?.map Prod.snd = some 0

theorem foldlM_readChunk {chunks : List Blob} {start node : Filling}
    (h : chunks.foldlM readChunk start = some node) :
    node = start.putAll (chunks.filterMap chunkEntry) := by
  induction chunks generalizing start with
  | nil => exact (Option.some.inj h).symm
  | cons chunk chunks ih =>
    rw [List.foldlM_cons, Option.bind_eq_bind, Option.bind_eq_some_iff] at h
    obtain ⟨next, hnext, h⟩ := h
    unfold readChunk at hnext
    split_ifs at hnext with hpos
    have hentry : chunkEntry chunk = some (⟨chunkPos chunk, hpos⟩, chunkHash chunk) := dif_pos hpos
    rw [ih h, List.filterMap_cons_some hentry, ← Option.some.inj hnext]
    rfl

theorem foldlM_readChunk_of_entries {chunks : List Blob} {entries : List (Fin 16 × UInt256)}
    (h : chunks.map chunkEntry = entries.map some) (start : Filling) :
    chunks.foldlM readChunk start = some (start.putAll entries) := by
  induction chunks generalizing start entries with
  | nil =>
    obtain rfl : entries = [] := by simpa using h.symm
    rfl
  | cons chunk chunks ih =>
    cases entries with
    | nil => simp at h
    | cons p entries =>
      simp only [List.map_cons, List.cons.injEq] at h
      have hread : readChunk start chunk = some (start.put p.1 p.2) := by
        have hchunk := h.1
        unfold chunkEntry at hchunk
        split_ifs at hchunk with hpos
        rw [← Option.some.inj hchunk]
        exact dif_pos hpos
      rw [List.foldlM_cons, hread]
      exact ih h.2 _

theorem foldl_put_eq (data : Blob) :
    (List.finRange 16).foldl (fun (node : Filling) i =>
      node.put i (ofBitString ((data.drop (32 * i.val)).take 32))) emptyFilling =
      emptyFilling.putAll (fullEntries data) := by
  rw [Filling.putAll, fullEntries, List.foldl_map]

theorem makeFullInner_readFrom {data : Blob} {hash : Option UInt256} {node : SHAMapInnerNode}
    (h : makeFullInner sha512Half data hash = some node) :
    ReadFrom (fullEntries data) node ∧ node.hash = hash.getD (node.freshHash sha512Half) := by
  unfold makeFullInner at h
  split_ifs at h
  rw [foldl_put_eq] at h
  cases hash with
  | none =>
    obtain rfl := Option.some.inj h
    exact ⟨finish_readFrom _ _, rfl⟩
  | some hash =>
    obtain rfl := Option.some.inj h
    exact ⟨finish_readFrom _ _, rfl⟩

theorem makeCompressedInner_readFrom {data : Blob} {node : SHAMapInnerNode}
    (h : makeCompressedInner sha512Half data = some node) :
    ReadFrom ((blocks 33 data).filterMap chunkEntry) node ∧
      node.hash = node.freshHash sha512Half := by
  unfold makeCompressedInner at h
  split_ifs at h
  obtain ⟨filling, hfilling, rfl⟩ := Option.map_eq_some_iff.mp h
  obtain rfl := foldlM_readChunk hfilling
  exact ⟨finish_readFrom _ _, rfl⟩

theorem byte_eq_of_ofByte? {byte : UInt8} {type : WireType}
    (h : WireType.ofByte? byte = some type) : byte = type.byte := by
  unfold WireType.ofByte? at h
  split_ifs at h with h0 h1 h2 h3 h4 <;> obtain rfl := Option.some.inj h
  · exact h0
  · exact h1
  · exact h2
  · exact h3
  · exact h4

theorem makeFromWire_readFrom {rawNode : Blob} {node : SHAMapInnerNode}
    (h : makeFromWire sha512Half rawNode = some node) :
    ReadFrom (wireEntries rawNode) node ∧ node.hash = node.freshHash sha512Half := by
  unfold makeFromWire at h
  cases hlast : rawNode.getLast? with
  | none => simp [hlast] at h
  | some byte =>
    rw [hlast, Option.bind_some] at h
    cases htype : WireType.ofByte? byte with
    | none => simp [htype] at h
    | some type =>
      rw [htype] at h
      cases type with
      | inner =>
        have hbyte := byte_eq_of_ofByte? htype
        have hentries : wireEntries rawNode = fullEntries rawNode.dropLast :=
          if_pos (by rw [hlast, hbyte])
        rw [hentries]
        exact makeFullInner_readFrom h
      | compressedInner =>
        have hbyte := byte_eq_of_ofByte? htype
        have hentries : wireEntries rawNode =
            (blocks 33 rawNode.dropLast).filterMap chunkEntry :=
          if_neg (by rw [hlast, hbyte]; decide)
        rw [hentries]
        exact makeCompressedInner_readFrom h
      | transaction => cases h
      | accountState => cases h
      | transactionWithMeta => cases h

/-- The bit of a branch is set when its hash is not zero, unless it was blanked. -/
theorem ReadFrom.taken_iff_forall {entries : List (Fin 16 × UInt256)} {node : SHAMapInnerNode}
    (h : ReadFrom entries node) :
    (∀ i, isTaken node.isBranch i = true ↔ node.getChildHash i ≠ 0) ↔
      ¬∃ i, (∃ p ∈ entries, p.1 = i ∧ p.2 ≠ 0) ∧
        (entries.filter fun p => p.1 = i).getLast?.map Prod.snd = some 0 := by
  have htaken : ∀ i, isTaken node.isBranch i = true ↔ ∃ p ∈ entries, p.1 = i ∧ p.2 ≠ 0 := by
    intro i
    rw [h.isBranch_eq, Filling.isTaken_putAll]
    simp [emptyFilling, isTaken]
  have hhash : ∀ i, node.getChildHash i =
      ((entries.filter fun p => p.1 = i).getLast?.map Prod.snd).getD 0 := by
    intro i
    rw [h.getChildHash_eq, Filling.hashes_putAll]
    rfl
  constructor
  · rintro hall ⟨i, hsome, hlast⟩
    refine (hall i).mp ((htaken i).mpr hsome) ?_
    rw [hhash, hlast]
    rfl
  · intro hno i
    constructor
    · intro hi hzero
      have hsome := (htaken i).mp hi
      obtain ⟨p, hp, hpi, -⟩ := hsome
      have hne : (entries.filter fun p => p.1 = i) ≠ [] :=
        List.ne_nil_of_mem (List.mem_filter.mpr ⟨hp, by simpa using hpi⟩)
      have hlast := List.getLast?_eq_some_getLast hne
      rw [hhash, hlast] at hzero
      refine hno ⟨i, (htaken i).mp hi, ?_⟩
      rw [hlast]
      exact congrArg some hzero
    · intro hne
      cases hi : isTaken node.isBranch i with
      | true => rfl
      | false =>
        rw [h.isBranch_eq] at hi
        exact absurd ((h.getChildHash_eq i).trans (Filling.hashes_of_not_taken hi)) hne

/-! ### Writing and reading back -/

/-- A node as it is when it is serialized: nothing is stored for a branch that is not taken, and the
hash is up to date. -/
structure Settled (sha512Half : Blob → UInt256) (node : SHAMapInnerNode) : Prop where
  untaken : ∀ i, isTaken node.isBranch i = false → node.getChildHash i = 0
  hash_eq : node.hash = node.freshHash sha512Half

/-- The same bits, hashes and hash. -/
structure Same (node node' : SHAMapInnerNode) : Prop where
  isBranch_eq : node.isBranch = node'.isBranch
  getChildHash_eq : ∀ i, node.getChildHash i = node'.getChildHash i
  hash_eq : node.hash = node'.hash

theorem freshHash_congr {node node' : SHAMapInnerNode} (hbranch : node.isBranch = node'.isBranch)
    (hhash : ∀ i, node.getChildHash i = node'.getChildHash i) :
    node.freshHash sha512Half = node'.freshHash sha512Half := by
  rw [freshHash_eq, freshHash_eq, hbranch, funext hhash]

theorem serializeForWire_eq (node : SHAMapInnerNode) :
    node.serializeForWire =
      if node.getBranchCount < 12 then
        ((taken node.isBranch).map fun i =>
          bitString (node.getChildHash i) ++ [UInt8.ofNat i.val]).flatten ++
          [WireType.compressedInner.byte]
      else
        ((List.finRange 16).map fun i => bitString (node.getChildHash i)).flatten ++
          [WireType.inner.byte] := by
  unfold serializeForWire
  rw [iterChildren_eq, List.flatMap_def, List.flatMap_def, List.map_map,
    iterNonEmpty_map fun i h => bitString h ++ [UInt8.ofNat i.val]]
  simp only [getChildHash_eq, Function.comp_def]

private theorem chunkEntry_append (i : Fin 16) (hash : UInt256) :
    chunkEntry (bitString hash ++ [UInt8.ofNat i.val]) = some (i, hash) := by
  have hpos : ofBE [UInt8.ofNat i.val] = i.val := by
    simp [ofBE, Nat.mod_eq_of_lt (show i.val < 256 by omega)]
  have htake : (bitString hash ++ [UInt8.ofNat i.val]).take 32 = bitString hash :=
    List.take_left' (length_bitString _)
  have hdrop : (bitString hash ++ [UInt8.ofNat i.val]).drop 32 = [UInt8.ofNat i.val] :=
    List.drop_left' (length_bitString _)
  simp only [chunkEntry, chunkPos, chunkHash, htake, hdrop, hpos, i.isLt, dite_true, Fin.eta,
    ofBitString_bitString]

theorem makeCompressedInner_of_taken (node : SHAMapInnerNode) :
    ∃ node', makeCompressedInner sha512Half ((taken node.isBranch).map fun i =>
      bitString (node.getChildHash i) ++ [UInt8.ofNat i.val]).flatten = some node' ∧
      ReadFrom ((taken node.isBranch).map fun i => (i, node.getChildHash i)) node' ∧
      node'.hash = node'.freshHash sha512Half := by
  have hblock : ∀ b ∈ (taken node.isBranch).map fun i =>
      bitString (node.getChildHash i) ++ [UInt8.ofNat i.val], b.length = 33 := by
    intro b hb
    obtain ⟨i, -, rfl⟩ := List.mem_map.mp hb
    simp
  have hlength : ((taken node.isBranch).map fun i =>
      bitString (node.getChildHash i) ++ [UInt8.ofNat i.val]).flatten.length =
        33 * popcnt16 node.isBranch := by
    simp [List.length_flatten, Function.comp_def, length_taken, mul_comm]
  have hle := popcnt16_le node.isBranch
  have hentries : ((taken node.isBranch).map fun i =>
      bitString (node.getChildHash i) ++ [UInt8.ofNat i.val]).map chunkEntry =
        ((taken node.isBranch).map fun i => (i, node.getChildHash i)).map some := by
    simp only [List.map_map, Function.comp_def, chunkEntry_append]
  refine ⟨((emptyFilling.putAll ((taken node.isBranch).map fun i =>
    (i, node.getChildHash i))).finish).updateHash sha512Half, ?_, finish_readFrom _ _, rfl⟩
  unfold makeCompressedInner
  rw [if_neg (by rw [hlength]; omega), blocks_flatten (by omega) hblock,
    foldlM_readChunk_of_entries hentries]
  rfl

theorem makeFullInner_of_hashes (f : Fin 16 → UInt256) (hash : Option UInt256) :
    ∃ node', makeFullInner sha512Half ((List.finRange 16).map fun i => bitString (f i)).flatten
      hash = some node' ∧ ReadFrom ((List.finRange 16).map fun i => (i, f i)) node' ∧
      node'.hash = hash.getD (node'.freshHash sha512Half) := by
  have hlength : ((List.finRange 16).map fun i => bitString (f i)).flatten.length = 512 := by
    simp [List.length_flatten, Function.comp_def]
  have hentries : fullEntries ((List.finRange 16).map fun i => bitString (f i)).flatten =
      (List.finRange 16).map fun i => (i, f i) := by
    unfold fullEntries
    simp only [take_drop_flatten fun i => length_bitString (f i), ofBitString_bitString]
  have hsome : ∃ node', makeFullInner sha512Half
      ((List.finRange 16).map fun i => bitString (f i)).flatten hash = some node' := by
    unfold makeFullInner
    rw [if_neg (not_not.mpr hlength)]
    cases hash
    · exact ⟨_, rfl⟩
    · exact ⟨_, rfl⟩
  obtain ⟨node', hnode'⟩ := hsome
  obtain ⟨hread, hhash⟩ := makeFullInner_readFrom hnode'
  exact ⟨node', hnode', hentries ▸ hread, hhash⟩

theorem ReadFrom.of_map {branches : List (Fin 16)} {f : Fin 16 → UInt256}
    {node' : SHAMapInnerNode} (h : ReadFrom (branches.map fun i => (i, f i)) node')
    (hf : ∀ i, i ∉ branches → f i = 0) (i : Fin 16) :
    node'.getChildHash i = f i ∧ isTaken node'.isBranch i = decide (f i ≠ 0) := by
  constructor
  · rw [h.getChildHash_eq, Filling.hashes_putAll]
    cases hlast : ((branches.map fun i => (i, f i)).filter fun p => p.1 = i).getLast? with
    | some p =>
      obtain ⟨hp, hpi⟩ := List.mem_filter.mp (List.mem_of_getLast? hlast)
      obtain ⟨j, -, rfl⟩ := List.mem_map.mp hp
      have hji : j = i := by simpa using hpi
      simp [hji]
    | none =>
      have hnil := List.getLast?_eq_none_iff.mp hlast
      have hi : i ∉ branches := by
        intro hi
        have hmem : (i, f i) ∈ (branches.map fun i => (i, f i)).filter fun p => p.1 = i :=
          List.mem_filter.mpr ⟨List.mem_map_of_mem hi, by simp⟩
        rw [hnil] at hmem
        exact List.not_mem_nil hmem
      rw [hf i hi]
      rfl
  · have hiff : isTaken node'.isBranch i = true ↔ f i ≠ 0 := by
      rw [h.isBranch_eq, Filling.isTaken_putAll, Bool.or_eq_true, List.any_eq_true]
      constructor
      · rintro (hempty | ⟨p, hp, htrue⟩)
        · simp [emptyFilling, isTaken] at hempty
        · obtain ⟨j, -, rfl⟩ := List.mem_map.mp hp
          rw [Bool.and_eq_true, decide_eq_true_iff, decide_eq_true_iff] at htrue
          exact htrue.1 ▸ htrue.2
      · intro hne
        have hi : i ∈ branches := not_not.mp fun hi => hne (hf i hi)
        exact .inr ⟨(i, f i), List.mem_map_of_mem hi, by simpa using hne⟩
    by_cases hzero : f i = 0
    · rw [decide_eq_false (not_not.mpr hzero)]
      exact Bool.eq_false_iff.mpr fun htrue => hiff.mp htrue hzero
    · rw [decide_eq_true hzero]
      exact hiff.mpr hzero

theorem ReadFrom.same_iff {node node' : SHAMapInnerNode} {branches : List (Fin 16)}
    (h : ReadFrom (branches.map fun i => (i, node.getChildHash i)) node')
    (hsettled : Settled sha512Half node)
    (hbranches : ∀ i, isTaken node.isBranch i = true → i ∈ branches)
    (hhash : node'.hash = node'.freshHash sha512Half ∨ node'.hash = node.hash) :
    Same node' node ↔ ∀ i, isTaken node.isBranch i = true → node.getChildHash i ≠ 0 := by
  have hzero : ∀ i, i ∉ branches → node.getChildHash i = 0 := fun i hi =>
    hsettled.untaken i (Bool.eq_false_iff.mpr fun htrue => hi (hbranches i htrue))
  have hread := h.of_map hzero
  constructor
  · intro hsame i hi
    have htaken := (hread i).2
    rw [hsame.isBranch_eq, hi] at htaken
    exact of_decide_eq_true htaken.symm
  · intro hall
    have hbits : node'.isBranch = node.isBranch := by
      refine isBranch_ext fun i => ?_
      rw [(hread i).2]
      cases hi : isTaken node.isBranch i with
      | true => exact decide_eq_true (hall i hi)
      | false => exact decide_eq_false (not_not.mpr (hsettled.untaken i hi))
    have hchild : ∀ i, node'.getChildHash i = node.getChildHash i := fun i => (hread i).1
    refine ⟨hbits, hchild, ?_⟩
    rcases hhash with hfresh | heq
    · rw [hfresh, freshHash_congr hbits hchild, hsettled.hash_eq]
    · exact heq

theorem makeFromWire_serializeForWire {node : SHAMapInnerNode}
    (hsettled : Settled sha512Half node) :
    (∃ node', makeFromWire sha512Half node.serializeForWire = some node' ∧ Same node' node) ↔
      ∀ i, isTaken node.isBranch i = true → node.getChildHash i ≠ 0 := by
  rw [serializeForWire_eq]
  split_ifs with hcount
  · obtain ⟨node', hnode', hread, hhash⟩ := @makeCompressedInner_of_taken sha512Half node
    have hwire : makeFromWire sha512Half (((taken node.isBranch).map fun i =>
        bitString (node.getChildHash i) ++ [UInt8.ofNat i.val]).flatten ++
          [WireType.compressedInner.byte]) = some node' := by
      rw [← hnode']
      simp [makeFromWire, WireType.byte, WireType.ofByte?]
    rw [hwire]
    simp only [Option.some.injEq, exists_eq_left']
    exact hread.same_iff hsettled (fun i hi => mem_taken.mpr hi) (.inl hhash)
  · obtain ⟨node', hnode', hread, hhash⟩ :=
      @makeFullInner_of_hashes sha512Half node.getChildHash none
    have hwire : makeFromWire sha512Half (((List.finRange 16).map fun i =>
        bitString (node.getChildHash i)).flatten ++ [WireType.inner.byte]) = some node' := by
      rw [← hnode']
      simp [makeFromWire, WireType.byte, WireType.ofByte?]
    rw [hwire]
    simp only [Option.some.injEq, exists_eq_left']
    exact hread.same_iff hsettled (fun i _ => List.mem_finRange i) (.inl hhash)

theorem makeFromPrefix_serializeWithPrefix {node : SHAMapInnerNode}
    (hsettled : Settled sha512Half node) :
    (∃ node', makeFromPrefix sha512Half node.serializeWithPrefix node.hash = some node' ∧
      Same node' node) ↔ ∀ i, isTaken node.isBranch i = true → node.getChildHash i ≠ 0 := by
  obtain ⟨node', hnode', hread, hhash⟩ :=
    @makeFullInner_of_hashes sha512Half node.getChildHash (some node.hash)
  have hmade : makeFromPrefix sha512Half node.serializeWithPrefix node.hash = some node' := by
    rw [← hnode']
    unfold makeFromPrefix serializeWithPrefix
    rw [iterChildren_eq, List.flatMap_def, List.map_map]
    simp only [getChildHash_eq, Function.comp_def]
    have hfour : HashPrefix.innerNode.bytes.length = 4 := rfl
    rw [List.take_left' hfour, List.drop_left' hfour, if_pos rfl]
  rw [hmade]
  simp only [Option.some.injEq, exists_eq_left']
  exact hread.same_iff hsettled (fun i _ => List.mem_finRange i) (.inr hhash)

/-- Two accepted nodes whose bits are those of their hashes, and that have one hash. -/
theorem isBranch_eq_of_hash_eq {node node' : SHAMapInnerNode}
    (hfree : CollisionFree sha512Half fun bytes =>
      bytes = innerPreimage node.getChildHash ∨ bytes = innerPreimage node'.getChildHash)
    (hnode : node.hash = node.freshHash sha512Half) (hnode' : node'.hash = node'.freshHash sha512Half)
    (hbits : ∀ i, isTaken node.isBranch i = true ↔ node.getChildHash i ≠ 0)
    (hbits' : ∀ i, isTaken node'.isBranch i = true ↔ node'.getChildHash i ≠ 0)
    (hhash : node.hash = node'.hash) : node.isBranch = node'.isBranch := by
  rw [hnode, hnode', freshHash_eq, freshHash_eq] at hhash
  split_ifs at hhash with h0 h0' h0'
  · rw [h0, h0']
  · exact absurd hhash.symm (hfree.nonzero _ (.inr rfl))
  · exact absurd hhash (hfree.nonzero _ (.inl rfl))
  · have hpre := hfree.inj _ _ (.inl rfl) (.inr rfl) hhash
    have hchild := innerPreimage_inj hpre
    refine isBranch_ext fun i => Bool.eq_iff_iff.mpr ?_
    rw [hbits, hbits', hchild]

/-- **The wire format of inner nodes.** A settled node survives both encodings exactly if its taken
branches have hashes; an accepted node has a bit for exactly the branches with a hash if the wire
blanks none; and two of those with one hash have the same branches. -/
theorem inner_wire_format (sha512Half : Blob → UInt256) :
    (∀ node, Settled sha512Half node → node.isBranch ≠ 0 →
      (((∃ node', makeFromWire sha512Half node.serializeForWire = some node' ∧ Same node' node) ∧
        ∃ node', makeFromPrefix sha512Half node.serializeWithPrefix node.hash = some node' ∧
          Same node' node) ↔
        ∀ i, isTaken node.isBranch i = true → node.getChildHash i ≠ 0)) ∧
    (∀ rawNode node, makeFromWire sha512Half rawNode = some node →
      ((∀ i, isTaken node.isBranch i = true ↔ node.getChildHash i ≠ 0) ↔ ¬Blanked rawNode)) ∧
    (∀ rawNode rawNode' node node', makeFromWire sha512Half rawNode = some node →
      makeFromWire sha512Half rawNode' = some node' → ¬Blanked rawNode → ¬Blanked rawNode' →
      CollisionFree sha512Half (fun bytes =>
        bytes = innerPreimage node.getChildHash ∨ bytes = innerPreimage node'.getChildHash) →
      node.hash = node'.hash → node.isBranch = node'.isBranch) := by
  refine ⟨fun node hsettled _ => ?_, fun rawNode node h => ?_, ?_⟩
  · rw [makeFromWire_serializeForWire hsettled, makeFromPrefix_serializeWithPrefix hsettled,
      and_self]
  · exact (makeFromWire_readFrom h).1.taken_iff_forall
  · intro rawNode rawNode' node node' h h' hblank hblank' hfree hhash
    obtain ⟨hread, hfresh⟩ := makeFromWire_readFrom h
    obtain ⟨hread', hfresh'⟩ := makeFromWire_readFrom h'
    exact isBranch_eq_of_hash_eq hfree hfresh hfresh' (hread.taken_iff_forall.mpr hblank)
      (hread'.taken_iff_forall.mpr hblank') hhash

/-- One chunk: a hash for the first branch. -/
def oneChunk : Blob := bitString 5 ++ [0]

/-- The hash of the second branch, given and taken back. -/
def blankedChunks : Blob := bitString 7 ++ [1] ++ (bitString 0 ++ [1])

/-- The node with the first branch, on the wire with and without the blanked one. -/
def plainWire : Blob := oneChunk ++ [WireType.compressedInner.byte]

def blankedWire : Blob := oneChunk ++ blankedChunks ++ [WireType.compressedInner.byte]

/-- The node with the first branch, in the smallest array. -/
def plainNode : SHAMapInnerNode :=
  ⟨1, [5, 0], Sample.toyHash (innerPreimage fun i => if i.val = 0 then 5 else 0)⟩

theorem inner_wire_format_plain :
    (∃ node', makeFromWire Sample.toyHash plainNode.serializeForWire = some node' ∧
      Same node' plainNode) ∧
      ∃ node', makeFromPrefix Sample.toyHash plainNode.serializeWithPrefix plainNode.hash =
        some node' ∧ Same node' plainNode := by
  have hsettled : Settled Sample.toyHash plainNode := ⟨by decide +kernel, by decide +kernel⟩
  exact ((inner_wire_format Sample.toyHash).1 plainNode hsettled (by decide)).mpr (by decide +kernel)

/-- A chunk with a zero takes the hash of a branch back but not its bit: the node is accepted, has the
hash of the node without the branch, and takes a branch that has no hash. -/
theorem blanked_branch_accepted :
    ∃ node node', makeFromWire Sample.toyHash blankedWire = some node ∧
      makeFromWire Sample.toyHash plainWire = some node' ∧ isTaken node.isBranch 1 = true ∧
      node.getChildHash 1 = 0 ∧ node.hash = node'.hash ∧ node.isBranch ≠ node'.isBranch := by
  refine ⟨⟨3, [5, 0], plainNode.hash⟩, plainNode, ?_⟩
  decide +kernel

end SHAMapInnerNode

end FalconLedger
