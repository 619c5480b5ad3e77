import FalconLedger.Protocol.Serializer
import FalconLedger.Protocol.STTx
import Mathlib.Data.List.Sort

/-!
# Serialized objects

An object is a list of fields, each present with a value or marked as not present. `add` writes the
present fields in the order of their codes; `STLedgerEntry.read` takes them back and arranges them
by the template of the entry's type. What throws in the source is `none`.

`applyTemplate` refuses a `SoeDefault` field that is present with its default value, so an object
may not survive being written and read; `STLedgerEntry.readsBack_iff` says which objects do.
-/

namespace FalconLedger

open Bytes

/-! ### Values -/

/-- The serialized types the fork's entries are made of. -/
inductive SerializedTypeID
  | uint16
  | uint32
  | uint64
  | uint256
  | amount
  | vl
  | account
  | vector256
  deriving DecidableEq

namespace SerializedTypeID

/-- The number of a type on the wire. -/
def code : SerializedTypeID → ℕ
  | uint16 => 1
  | uint32 => 2
  | uint64 => 3
  | uint256 => 5
  | amount => 6
  | vl => 7
  | account => 8
  | vector256 => 19

/-- The values of a type. Amounts are native; an account may be in its default state, which is
not the account with id zero. -/
abbrev Value : SerializedTypeID → Type
  | uint16 => UInt16
  | uint32 => UInt32
  | uint64 => UInt64
  | uint256 => UInt256
  | amount => Int
  | vl => Blob
  | account => Option AccountID
  | vector256 => List UInt256

theorem code_injective : Function.Injective code := by
  intro t t' h
  cases t <;> cases t' <;> first | rfl | cases h

theorem code_pos (t : SerializedTypeID) : 0 < t.code := by
  cases t <;> decide

theorem code_lt (t : SerializedTypeID) : t.code < 256 := by
  cases t <;> decide

def isDefault : (t : SerializedTypeID) → t.Value → Bool
  | uint16, (n : UInt16) => n == 0
  | uint32, (n : UInt32) => n == 0
  | uint64, (n : UInt64) => n == 0
  | uint256, (n : UInt256) => n == 0
  | amount, (drops : Int) => drops == 0
  | vl, (data : Blob) => data.isEmpty
  | account, (id : Option AccountID) => id.isNone
  | vector256, (ids : List UInt256) => ids.isEmpty

/-- The sign bit of a native amount, `kPOSITIVE`. -/
def kPositive : ℕ := 2 ^ 62

def addAmount (drops : Int) : Blob :=
  toBE 8 (if 0 ≤ drops then drops.natAbs ||| kPositive else drops.natAbs)

/-- Write a value, without its field id. -/
def add : (t : SerializedTypeID) → t.Value → Option Blob
  | uint16, (n : UInt16) => some (toBE 2 n.toNat)
  | uint32, (n : UInt32) => some (toBE 4 n.toNat)
  | uint64, (n : UInt64) => some (toBE 8 n.toNat)
  | uint256, (n : UInt256) => some (toBE 32 n.toNat)
  | amount, (drops : Int) => some (addAmount drops)
  | vl, (data : Blob) => addVL data
  | account, (id : Option AccountID) => addVL (id.elim [] fun id => toBE 20 id.toNat)
  | vector256, (ids : List UInt256) => addVL (ids.flatMap fun id => toBE 32 id.toNat)

/-- The native amount 64 bits stand for. The bits 63 and 61 announce an issued amount and a
token amount, neither of which a native amount reads back as. -/
def amountOf (value : ℕ) : Option Int :=
  if value.testBit 63 ∨ value.testBit 61 then none
  else if value.testBit 62 then some (value % 2 ^ 61 : ℕ)
  -- negative zero is not canonical
  else if value = 0 then none
  else some (-(value % 2 ^ 61 : ℕ))

/-- No bytes are the default account, 20 bytes an id. -/
def accountOf (data : Blob) : Option (Option AccountID) :=
  if data = [] then some none
  else if data.length = 20 then some (some (BitVec.ofNat 160 (ofBE data)))
  else none

/-- The first `cnt` keys in `data`. -/
def keysOf : ℕ → Blob → List UInt256
  | 0, _ => []
  | cnt + 1, data => BitVec.ofNat 256 (ofBE (data.take 32)) :: keysOf cnt (data.drop 32)

def vector256Of (data : Blob) : Option (List UInt256) :=
  if data.length % 32 ≠ 0 then none else some (keysOf (data.length / 32) data)

/-- Read a value. -/
def read : (t : SerializedTypeID) → Parser t.Value
  | uint16 => (getBE 2).filterMap fun n => some (UInt16.ofNat n)
  | uint32 => (getBE 4).filterMap fun n => some (UInt32.ofNat n)
  | uint64 => (getBE 8).filterMap fun n => some (UInt64.ofNat n)
  | uint256 => (getBE 32).filterMap fun n => some (BitVec.ofNat 256 n)
  | amount => (getBE 8).filterMap amountOf
  | vl => getVL
  | account => getVL.filterMap accountOf
  | vector256 => getVL.filterMap vector256Of

/-- The values that survive the wire. -/
def Encodable : (t : SerializedTypeID) → t.Value → Prop
  | amount, (drops : Int) => drops.natAbs < 2 ^ 61
  | vl, (data : Blob) => data.length ≤ kMaxVLLength
  | vector256, (ids : List UInt256) => 32 * ids.length ≤ kMaxVLLength
  | _, _ => True

/-! ### Reading back a value -/

private theorem amountOf_add {drops : Int} (h : drops.natAbs < 2 ^ 61) :
    amountOf (if 0 ≤ drops then drops.natAbs ||| kPositive else drops.natAbs) = some drops := by
  have hbit : ∀ i, 61 ≤ i → drops.natAbs.testBit i = false := fun i hi =>
    Nat.testBit_lt_two_pow (lt_of_lt_of_le h (Nat.pow_le_pow_right (by decide) hi))
  split_ifs with hpos
  · -- the sign bit lies above the 61 bits of the value
    have hor : drops.natAbs ||| kPositive = kPositive + drops.natAbs := by
      rw [kPositive, Nat.or_comm]
      exact (Nat.two_pow_add_eq_or_of_lt (i := 62) (lt_trans h (by decide)) 1).symm
    have hmod : (drops.natAbs ||| kPositive) % 2 ^ 61 = drops.natAbs := by
      rw [hor, kPositive]
      omega
    rw [amountOf, if_neg, if_pos, hmod, Int.natAbs_of_nonneg hpos]
    · rw [Nat.testBit_or, kPositive, Nat.testBit_two_pow_self, Bool.or_true]
    · rw [Nat.testBit_or, Nat.testBit_or, hbit 63 (by decide), hbit 61 (by decide)]
      decide
  · have hmod : drops.natAbs % 2 ^ 61 = drops.natAbs := Nat.mod_eq_of_lt h
    have hne : drops.natAbs ≠ 0 := by omega
    rw [amountOf, if_neg, if_neg, if_neg hne, hmod]
    · congr 1
      omega
    · simp [hbit]
    · simp [hbit]

private theorem natAbs_lt_of_amountOf {value : ℕ} {drops : Int} (h : amountOf value = some drops) :
    drops.natAbs < 2 ^ 61 := by
  have hmod : value % 2 ^ 61 < 2 ^ 61 := Nat.mod_lt _ (by decide)
  unfold amountOf at h
  split_ifs at h <;> rw [← Option.some.inj h] <;> omega

private theorem length_flatMap_toBE (ids : List UInt256) :
    (ids.flatMap fun id => toBE 32 id.toNat).length = 32 * ids.length := by
  induction ids with
  | nil => rfl
  | cons id ids ih =>
    rw [List.flatMap_cons, List.length_append, ih, length_toBE, List.length_cons]
    ring

private theorem lt_256_pow {w n : ℕ} (h : n < 2 ^ (8 * w)) : n < 256 ^ w := by
  rwa [pow_mul] at h

private theorem ofNat_toNat_self {n : ℕ} (x : BitVec n) : BitVec.ofNat n x.toNat = x := by
  rw [BitVec.ofNat_toNat, BitVec.setWidth_eq]

private theorem ofNat_ofBE_toBE {w : ℕ} (x : BitVec (8 * w)) :
    BitVec.ofNat (8 * w) (ofBE (toBE w x.toNat)) = x := by
  rw [ofBE_toBE (lt_256_pow x.isLt), ofNat_toNat_self]

private theorem keysOf_flatMap (ids : List UInt256) :
    keysOf ids.length (ids.flatMap fun id => toBE 32 id.toNat) = ids := by
  induction ids with
  | nil => rfl
  | cons id ids ih =>
    have hlen : (toBE 32 id.toNat).length = 32 := length_toBE 32 id.toNat
    have hid : BitVec.ofNat 256 (ofBE (toBE 32 id.toNat)) = id := ofNat_ofBE_toBE (w := 32) id
    rw [List.flatMap_cons, List.length_cons, keysOf, List.take_left' hlen, List.drop_left' hlen,
      ih, hid]

private theorem vector256Of_flatMap (ids : List UInt256) :
    vector256Of (ids.flatMap fun id => toBE 32 id.toNat) = some ids := by
  have hlen := length_flatMap_toBE ids
  have hdiv : 32 * ids.length / 32 = ids.length := by omega
  rw [vector256Of, hlen, if_neg (by omega), hdiv, keysOf_flatMap]

private theorem accountOf_toBE (id : Option AccountID) :
    accountOf (id.elim [] fun id => toBE 20 id.toNat) = some id := by
  cases id with
  | none => rfl
  | some id =>
    have hlen : (toBE 20 id.toNat).length = 20 := length_toBE 20 id.toNat
    have hne : toBE 20 id.toNat ≠ [] := by
      intro hnil
      rw [hnil] at hlen
      cases hlen
    simp only [Option.elim_some, accountOf, if_neg hne, hlen, if_true]
    rw [ofNat_ofBE_toBE (w := 20) id]

/-- **Every encodable value is read back**, whatever follows it. -/
theorem add_inverts (t : SerializedTypeID) {v : t.Value} {bytes : Blob} (h : t.add v = some bytes)
    (hv : t.Encodable v) : Inverts t.read bytes v := by
  cases t with
  | uint16 =>
    obtain rfl := Option.some.inj h
    exact (getBE_inverts (lt_256_pow (w := 2) (UInt16.toNat_lt v))).filterMap
      (f := fun n => some (UInt16.ofNat n)) (congrArg some UInt16.ofNat_toNat)
  | uint32 =>
    obtain rfl := Option.some.inj h
    exact (getBE_inverts (lt_256_pow (w := 4) (UInt32.toNat_lt v))).filterMap
      (f := fun n => some (UInt32.ofNat n)) (congrArg some UInt32.ofNat_toNat)
  | uint64 =>
    obtain rfl := Option.some.inj h
    exact (getBE_inverts (lt_256_pow (w := 8) (UInt64.toNat_lt v))).filterMap
      (f := fun n => some (UInt64.ofNat n)) (congrArg some UInt64.ofNat_toNat)
  | uint256 =>
    obtain rfl := Option.some.inj h
    exact (getBE_inverts (lt_256_pow (w := 32) (BitVec.isLt v))).filterMap
      (f := fun n => some (BitVec.ofNat 256 n)) (congrArg some (ofNat_toNat_self v))
  | amount =>
    obtain rfl := Option.some.inj h
    refine (getBE_inverts (lt_256_pow (w := 8) ?_)).filterMap (amountOf_add hv)
    have hlt : Int.natAbs v < 2 ^ 61 := hv
    split_ifs
    · exact Nat.or_lt_two_pow (by omega) (by decide)
    · omega
  | vl => exact addVL_inverts h
  | account => exact (addVL_inverts h).filterMap (accountOf_toBE v)
  | vector256 => exact (addVL_inverts h).filterMap (vector256Of_flatMap v)

private theorem addVL_keys_isSome (ids : List UInt256) :
    (addVL (ids.flatMap fun id => toBE 32 id.toNat)).isSome ↔ 32 * ids.length ≤ kMaxVLLength := by
  rw [addVL_isSome, length_flatMap_toBE]

theorem add_isSome_of_encodable (t : SerializedTypeID) {v : t.Value} (h : t.Encodable v) :
    (t.add v).isSome := by
  cases t with
  | uint16 | uint32 | uint64 | uint256 | amount => rfl
  | vl => exact addVL_isSome.mpr h
  | account =>
    refine addVL_isSome.mpr ?_
    cases v with
    | none => decide
    | some id => rw [Option.elim_some, length_toBE]; decide
  | vector256 => exact (addVL_keys_isSome v).mpr h

theorem encodable_of_read (t : SerializedTypeID) {v : t.Value} {bs rest : Blob}
    (hadd : (t.add v).isSome) (hread : t.read bs = some (v, rest)) : t.Encodable v := by
  cases t with
  | uint16 | uint32 | uint64 | uint256 | account => trivial
  | amount =>
    obtain ⟨value, hvalue⟩ := Parser.filterMap_eq_some hread
    exact natAbs_lt_of_amountOf hvalue
  | vl => exact addVL_isSome.mp hadd
  | vector256 => exact (addVL_keys_isSome v).mp hadd

end SerializedTypeID

/-! ### Fields and objects -/

/-- A field: its type, and its number among the fields of that type. -/
structure SField where
  fieldType : SerializedTypeID
  fieldValue : ℕ
  pos : 0 < fieldValue := by decide
  lt : fieldValue < 256 := by decide
  deriving DecidableEq

def SField.fieldCode (f : SField) : ℕ := f.fieldType.code * 65536 + f.fieldValue

/-- Field 1 of a type. -/
abbrev SField.first (t : SerializedTypeID) : SField := { fieldType := t, fieldValue := 1 }

abbrev sfLedgerEntryType : SField := .first .uint16

/-- A field of an object, with its value if it is present. -/
structure STVar where
  fName : SField
  value : Option fName.fieldType.Value

namespace STVar

def isPresent (v : STVar) : Bool := v.value.isSome

def isDefault (v : STVar) : Bool := v.value.all v.fName.fieldType.isDefault

/-- Write the field id and the value of a field that is present. -/
def add (v : STVar) : Option Blob :=
  match v.value with
  | none => some []
  | some x =>
    (v.fName.fieldType.add x).map (addFieldID v.fName.fieldType.code v.fName.fieldValue ++ ·)

/-- The value of a 16-bit field; a field of another type is an error. -/
def getU16 : STVar → Option UInt16
  | ⟨⟨.uint16, _, _, _⟩, value⟩ => some (Option.getD value (0 : UInt16))
  | _ => none

end STVar

abbrev STObject := List STVar

inductive SOEStyle
  | required
  | optional
  | default
  deriving DecidableEq

/-- An element of a template. -/
structure SOElement where
  sField : SField
  style : SOEStyle
  deriving DecidableEq

abbrev SOTemplate := List SOElement

/-- The fields and the entry types a program knows. -/
structure LedgerFormats where
  knownFields : List SField
  findByType : UInt16 → Option SOTemplate

def LedgerFormats.getField (F : LedgerFormats) (type name : ℕ) : Option SField :=
  F.knownFields.find? fun f => decide (f.fieldType.code = type ∧ f.fieldValue = name)

namespace STObject

def getSortedFields (obj : STObject) : STObject :=
  (obj.filter STVar.isPresent).insertionSort fun v w => v.fName.fieldCode ≤ w.fName.fieldCode

/-- Write fields one after another. -/
def addFields : STObject → Option Blob
  | [] => some []
  | v :: obj => v.add.bind fun bytes => (addFields obj).map (bytes ++ ·)

def add (obj : STObject) : Option Blob := addFields (getSortedFields obj)

/-- Read fields until the bytes run out or an end-of-object marker is met. A field takes at
least one byte, so that the number of bytes is fuel enough. -/
def setFrom (F : LedgerFormats) : ℕ → Blob → Option STObject
  | 0, bs => if bs = [] then some [] else none
  | n + 1, bs =>
    if bs = [] then some []
    else
      (getFieldID bs).bind fun id =>
        if id.1 = (14, 1) then some []
        -- an end-of-array marker, and below it a field nobody knows
        else if id.1 = (15, 1) then none
        else
          (F.getField id.1.1 id.1.2).bind fun f =>
            (f.fieldType.read id.2).bind fun x =>
              (setFrom F n x.2).map (⟨f, some x.1⟩ :: ·)

/-- Read an object; two fields of one name are an error. -/
def set (F : LedgerFormats) (bs : Blob) : Option STObject :=
  (setFrom F bs.length bs).filter fun obj => decide (obj.map STVar.fName).Nodup

/-- Arrange the fields by the template. -/
def applyTemplate : SOTemplate → STObject → Option STObject
  | [], obj => if obj.isEmpty then some [] else none
  | e :: es, obj =>
    match obj.find? fun v => decide (v.fName = e.sField) with
    | some v =>
      if e.style = .default ∧ v.isDefault then none
      else (applyTemplate es (obj.eraseP fun v => decide (v.fName = e.sField))).map (v :: ·)
    | none =>
      if e.style = .required then none
      else (applyTemplate es obj).map (⟨e.sField, none⟩ :: ·)

def getFieldU16 (obj : STObject) (f : SField) : Option UInt16 :=
  (obj.find? fun v => decide (v.fName = f)).bind STVar.getU16

end STObject

open STObject

/-- The constructor from serialized bytes. -/
def STLedgerEntry.read (F : LedgerFormats) (bs : Blob) : Option STObject :=
  (STObject.set F bs).bind fun obj =>
    (obj.getFieldU16 sfLedgerEntryType).bind fun type =>
      (F.findByType type).bind fun template => applyTemplate template obj

/-- The object can be written, and what was written is read back as it was. -/
def STLedgerEntry.ReadsBack (F : LedgerFormats) (obj : STObject) : Prop :=
  obj.add.bind (STLedgerEntry.read F) = some obj

/-! ### Reading back fields -/

/-- The field is present with a value that survives the wire. -/
def STVar.Encodable (v : STVar) : Prop := ∀ x, v.value = some x → v.fName.fieldType.Encodable x

variable {F : LedgerFormats} {obj vs : STObject} {template : SOTemplate} {bytes : Blob}

theorem LedgerFormats.getField_of_mem {f : SField} (h : f ∈ F.knownFields) :
    F.getField f.fieldType.code f.fieldValue = some f := by
  obtain ⟨g, hg⟩ : ∃ g, F.getField f.fieldType.code f.fieldValue = some g := by
    refine Option.isSome_iff_exists.mp (List.find?_isSome.mpr ⟨f, h, ?_⟩)
    simp
  have hcode := List.find?_some hg
  simp only [decide_eq_true_eq] at hcode
  have htype := SerializedTypeID.code_injective hcode.1
  have heq : g = f := by
    cases g
    cases f
    cases htype
    cases hcode.2
    rfl
  rw [hg, heq]

private theorem code_ne_marker (t : SerializedTypeID) (n : ℕ) :
    (t.code, n) ≠ (14, 1) ∧ (t.code, n) ≠ (15, 1) := by
  cases t <;> simp [SerializedTypeID.code]

private theorem setFrom_add {f : SField} {x : f.fieldType.Value} {b : Blob} {n : ℕ}
    (hknown : f ∈ F.knownFields) (hx : f.fieldType.Encodable x) (hb : f.fieldType.add x = some b) :
    setFrom F (n + 1) (addFieldID f.fieldType.code f.fieldValue ++ b ++ bytes) =
      (setFrom F n bytes).map (⟨f, some x⟩ :: ·) := by
  have hne : addFieldID f.fieldType.code f.fieldValue ++ b ++ bytes ≠ [] := by
    simp [addFieldID_ne_nil]
  have hid := addFieldID_inverts f.fieldType.code_pos f.fieldType.code_lt f.pos f.lt (b ++ bytes)
  have hval := SerializedTypeID.add_inverts f.fieldType hb hx bytes
  have hmark := code_ne_marker f.fieldType f.fieldValue
  rw [setFrom, if_neg hne, List.append_assoc, hid, Option.bind_some, if_neg hmark.1,
    if_neg hmark.2, LedgerFormats.getField_of_mem hknown, Option.bind_some, hval]
  rfl

/-- **Fields that were written are read back.** -/
theorem setFrom_addFields (hknown : ∀ v ∈ vs, v.fName ∈ F.knownFields)
    (hpresent : ∀ v ∈ vs, v.isPresent = true) (henc : ∀ v ∈ vs, v.Encodable)
    (hadd : addFields vs = some bytes) {n : ℕ} (hn : bytes.length ≤ n) :
    setFrom F n bytes = some vs := by
  induction vs generalizing bytes n with
  | nil =>
    obtain rfl := Option.some.inj hadd
    cases n <;> rfl
  | cons v vs ih =>
    simp only [List.forall_mem_cons] at hknown hpresent henc
    obtain ⟨f, _ | x⟩ := v
    · cases hpresent.1
    simp only [addFields, STVar.add, Option.bind_eq_some_iff, Option.map_eq_some_iff] at hadd
    obtain ⟨_, ⟨b, hb, rfl⟩, rest, hrest, rfl⟩ := hadd
    -- a field id takes at least one byte, so the fuel lasts
    have hid : 0 < (addFieldID f.fieldType.code f.fieldValue).length :=
      List.length_pos_iff.mpr (addFieldID_ne_nil _ _)
    simp only [List.length_append] at hn
    obtain ⟨m, rfl⟩ : ∃ m, n = m + 1 := ⟨n - 1, by omega⟩
    rw [setFrom_add hknown.1 (henc.1 x rfl) hb,
      ih hknown.2 hpresent.2 henc.2 hrest (by omega)]
    rfl

private theorem exists_read_of_setFrom {n : ℕ} {bs : Blob} (h : setFrom F n bs = some vs) :
    ∀ v ∈ vs, ∀ x, v.value = some x → ∃ bs rest, v.fName.fieldType.read bs = some (x, rest) := by
  induction n generalizing bs vs with
  | zero =>
    unfold setFrom at h
    split_ifs at h
    obtain rfl := Option.some.inj h
    simp
  | succ n ih =>
    unfold setFrom at h
    split_ifs at h
    · obtain rfl := Option.some.inj h
      simp
    · obtain ⟨id, -, h⟩ := Option.bind_eq_some_iff.mp h
      split_ifs at h
      · obtain rfl := Option.some.inj h
        simp
      · obtain ⟨f, -, h⟩ := Option.bind_eq_some_iff.mp h
        obtain ⟨⟨y, rest⟩, hread, h⟩ := Option.bind_eq_some_iff.mp h
        obtain ⟨vs', hvs', rfl⟩ := Option.map_eq_some_iff.mp h
        intro v hv x hx
        rcases List.mem_cons.mp hv with rfl | hv
        · obtain rfl : y = x := Option.some.inj hx
          exact ⟨id.2, rest, hread⟩
        · exact ih hvs' v hv x hx

private theorem addFields_isSome (h : ∀ v ∈ vs, v.Encodable) : (addFields vs).isSome := by
  induction vs with
  | nil => rfl
  | cons v vs ih =>
    rw [List.forall_mem_cons] at h
    have hv : v.add.isSome := by
      unfold STVar.add
      split
      · rfl
      · rename_i x hx
        rw [Option.isSome_map]
        exact SerializedTypeID.add_isSome_of_encodable _ (h.1 x hx)
    obtain ⟨b, hb⟩ := Option.isSome_iff_exists.mp hv
    rw [addFields, hb, Option.bind_some, Option.isSome_map]
    exact ih h.2

private theorem add_isSome_of_addFields (h : (addFields vs).isSome) :
    ∀ v ∈ vs, ∀ x, v.value = some x → (v.fName.fieldType.add x).isSome := by
  induction vs with
  | nil => simp
  | cons v vs ih =>
    obtain ⟨bytes, hbytes⟩ := Option.isSome_iff_exists.mp h
    simp only [addFields, Option.bind_eq_some_iff, Option.map_eq_some_iff] at hbytes
    obtain ⟨b, hb, rest, hrest, -⟩ := hbytes
    intro w hw x hx
    rcases List.mem_cons.mp hw with rfl | hw
    · have hadd : (w.add).isSome := by rw [hb]; rfl
      unfold STVar.add at hadd
      rw [hx, Option.isSome_map] at hadd
      exact hadd
    · exact ih (by rw [hrest]; rfl) w hw x hx

/-! ### Arranging by the template -/

/-- A template accepts a field that is absent and not required, or present and not an explicit
default where defaults are left out. -/
def SOElement.Accepts (e : SOElement) (v : STVar) : Prop :=
  if v.isPresent then e.style = .default → v.isDefault = false else e.style ≠ .required

private theorem eq_of_fName {v w : STVar} (hnodup : (obj.map STVar.fName).Nodup) (hv : v ∈ obj)
    (hw : w ∈ obj) (h : v.fName = w.fName) : v = w :=
  List.inj_on_of_nodup_map hnodup hv hw h

private theorem find?_of_present {v : STVar} (hnodup : ((v :: obj).map STVar.fName).Nodup)
    (hpresent : v.isPresent = true) (hperm : vs.Perm ((v :: obj).filter STVar.isPresent)) :
    (vs.find? fun w => decide (w.fName = v.fName)) = some v := by
  have hmem : v ∈ vs := hperm.mem_iff.mpr (List.mem_filter.mpr ⟨List.mem_cons_self, hpresent⟩)
  obtain ⟨w, hw⟩ : ∃ w, (vs.find? fun w => decide (w.fName = v.fName)) = some w :=
    Option.isSome_iff_exists.mp (List.find?_isSome.mpr ⟨v, hmem, by simp⟩)
  have hname := List.find?_some hw
  have hmem' := (List.mem_filter.mp (hperm.mem_iff.mp (List.mem_of_find?_eq_some hw))).1
  rw [hw, eq_of_fName hnodup hmem' List.mem_cons_self (by simpa using hname)]

private theorem find?_of_absent {v : STVar} (hnodup : ((v :: obj).map STVar.fName).Nodup)
    (hperm : vs.Perm (obj.filter STVar.isPresent)) :
    (vs.find? fun w => decide (w.fName = v.fName)) = none := by
  rw [List.find?_eq_none]
  intro w hw hname
  have hmem := (List.mem_filter.mp (hperm.mem_iff.mp hw)).1
  rw [List.map_cons, List.nodup_cons] at hnodup
  refine hnodup.1 (List.mem_map.mpr ⟨w, hmem, ?_⟩)
  simpa using hname

private theorem eraseP_perm {v : STVar} (hnodup : ((v :: obj).map STVar.fName).Nodup)
    (hpresent : v.isPresent = true) (hperm : vs.Perm ((v :: obj).filter STVar.isPresent)) :
    (vs.eraseP fun w => decide (w.fName = v.fName)).Perm (obj.filter STVar.isPresent) := by
  have hdistinct : vs.Pairwise fun a b =>
      decide (a.fName = v.fName) = true → decide (b.fName = v.fName) = true → False := by
    have hpair : (vs.map STVar.fName).Nodup :=
      (hperm.map _).nodup_iff.mpr (hnodup.sublist (List.filter_sublist.map _))
    refine (List.pairwise_map.mp hpair).imp fun {a b} hne ha hb => hne ?_
    exact (of_decide_eq_true ha).trans (of_decide_eq_true hb).symm
  have herase := hperm.eraseP _ hdistinct
  rwa [List.filter_cons_of_pos hpresent, List.eraseP_cons_of_pos (by simp)] at herase

/-- **The template restores the object** from its present fields in any order, exactly when it
accepts every field of it. -/
theorem applyTemplate_eq_some_iff (hfields : obj.map STVar.fName = template.map SOElement.sField)
    (hnodup : (obj.map STVar.fName).Nodup) (hperm : vs.Perm (obj.filter STVar.isPresent)) :
    applyTemplate template vs = some obj ↔ List.Forall₂ SOElement.Accepts template obj := by
  induction template generalizing obj vs with
  | nil =>
    obtain rfl : obj = [] := List.map_eq_nil_iff.mp hfields
    obtain rfl : vs = [] := hperm.eq_nil
    simp [applyTemplate]
  | cons e es ih =>
    cases obj with
    | nil => cases hfields
    | cons v obj =>
      obtain ⟨f, style⟩ := e
      obtain ⟨rfl, hfields'⟩ : v.fName = f ∧ obj.map STVar.fName = es.map SOElement.sField := by
        simpa using hfields
      have hnodup' : (obj.map STVar.fName).Nodup := (List.nodup_cons.mp hnodup).2
      rw [List.forall₂_cons, SOElement.Accepts, applyTemplate]
      dsimp only
      by_cases hpresent : v.isPresent = true
      · -- the element takes exactly this field, and the rest of the template gets the others
        have hih := ih hfields' hnodup' (eraseP_perm hnodup hpresent hperm)
        rw [find?_of_present hnodup hpresent hperm, if_pos hpresent]
        dsimp only
        split_ifs with hdefault
        · simp [hdefault]
        · rw [← hih, Option.map_eq_some_iff]
          simp only [not_and, Bool.not_eq_true] at hdefault
          simpa using fun _ => hdefault
      · -- nothing of this name was written
        have hperm' : vs.Perm (obj.filter STVar.isPresent) := by
          rwa [List.filter_cons_of_neg hpresent] at hperm
        have hnone : v = ⟨v.fName, none⟩ := by
          obtain ⟨f, _ | x⟩ := v
          · rfl
          · exact absurd rfl hpresent
        have hih := ih hfields' hnodup' hperm'
        rw [find?_of_absent hnodup hperm', if_neg hpresent]
        dsimp only
        split_ifs with hrequired
        · simp [hrequired]
        · rw [← hih, Option.map_eq_some_iff]
          simp [hrequired, ← hnone]

private theorem mem_of_applyTemplate (h : applyTemplate template vs = some obj) :
    ∀ v ∈ obj, v.isPresent = true → v ∈ vs := by
  induction template generalizing obj vs with
  | nil =>
    unfold applyTemplate at h
    split_ifs at h
    obtain rfl := Option.some.inj h
    simp
  | cons e es ih =>
    unfold applyTemplate at h
    intro v hv hpresent
    split at h
    · rename_i w hw
      split_ifs at h
      obtain ⟨obj', hobj', rfl⟩ := Option.map_eq_some_iff.mp h
      rcases List.mem_cons.mp hv with rfl | hv
      · exact List.mem_of_find?_eq_some hw
      · exact List.mem_of_mem_eraseP (ih hobj' v hv hpresent)
    · split_ifs at h
      obtain ⟨obj', hobj', rfl⟩ := Option.map_eq_some_iff.mp h
      rcases List.mem_cons.mp hv with rfl | hv
      · cases hpresent
      · exact ih hobj' v hv hpresent

/-! ### Reading back an entry -/

namespace STLedgerEntry

private theorem mem_getSortedFields {v : STVar} :
    v ∈ getSortedFields obj ↔ v ∈ obj ∧ v.isPresent = true := by
  rw [getSortedFields, List.mem_insertionSort, List.mem_filter]

private theorem encodable_of_readsBack (h : ReadsBack F obj) : ∀ v ∈ obj, v.Encodable := by
  simp only [ReadsBack, read, Option.bind_eq_some_iff] at h
  obtain ⟨bytes, hadd, vs, hset, type, -, template, -, happly⟩ := h
  rw [STObject.set, Option.filter_eq_some_iff] at hset
  intro v hv x hx
  have hpresent : v.isPresent = true := by rw [STVar.isPresent, hx]; rfl
  have hsome : (addFields (getSortedFields obj)).isSome := Option.isSome_iff_exists.mpr ⟨bytes, hadd⟩
  obtain ⟨bs, rest, hread⟩ := exists_read_of_setFrom hset.1 v
    (mem_of_applyTemplate happly v hv hpresent) x hx
  exact SerializedTypeID.encodable_of_read _
    (add_isSome_of_addFields hsome v (mem_getSortedFields.mpr ⟨hv, hpresent⟩) x hx) hread

private theorem perm_getSortedFields (obj : STObject) :
    (getSortedFields obj).Perm (obj.filter STVar.isPresent) :=
  List.perm_insertionSort _ _

private theorem set_addFields (hknown : ∀ v ∈ obj, v.fName ∈ F.knownFields)
    (hnodup : (obj.map STVar.fName).Nodup) (henc : ∀ v ∈ getSortedFields obj, v.Encodable)
    (hadd : addFields (getSortedFields obj) = some bytes) :
    STObject.set F bytes = some (getSortedFields obj) := by
  rw [STObject.set, Option.filter_eq_some_iff]
  refine ⟨setFrom_addFields ?_ ?_ henc hadd le_rfl, ?_⟩
  · exact fun v hv => hknown v (mem_getSortedFields.mp hv).1
  · exact fun v hv => (mem_getSortedFields.mp hv).2
  · have hpresent : ((obj.filter STVar.isPresent).map STVar.fName).Nodup :=
      hnodup.sublist (List.filter_sublist.map _)
    simpa using ((perm_getSortedFields obj).map _).nodup_iff.mpr hpresent

private theorem getFieldU16_getSortedFields {type : UInt16} (hnodup : (obj.map STVar.fName).Nodup)
    (htype : (⟨sfLedgerEntryType, some type⟩ : STVar) ∈ obj) :
    (getSortedFields obj).getFieldU16 sfLedgerEntryType = some type := by
  have hmem : (⟨sfLedgerEntryType, some type⟩ : STVar) ∈ getSortedFields obj :=
    mem_getSortedFields.mpr ⟨htype, rfl⟩
  obtain ⟨w, hw⟩ : ∃ w, ((getSortedFields obj).find? fun v =>
      decide (v.fName = sfLedgerEntryType)) = some w :=
    Option.isSome_iff_exists.mp (List.find?_isSome.mpr ⟨_, hmem, by simp⟩)
  have hname := List.find?_some hw
  have heq := eq_of_fName hnodup (mem_getSortedFields.mp (List.mem_of_find?_eq_some hw)).1
    htype (by simpa using hname)
  rw [getFieldU16, hw, heq]
  rfl

/-- **Which entries survive being written and read.** -/
theorem readsBack_iff {type : UInt16} (hfields : obj.map STVar.fName = template.map SOElement.sField)
    (hnodup : (template.map SOElement.sField).Nodup)
    (hknown : ∀ e ∈ template, e.sField ∈ F.knownFields)
    (htype : (⟨sfLedgerEntryType, some type⟩ : STVar) ∈ obj)
    (hformat : F.findByType type = some template) :
    ReadsBack F obj ↔
      (∀ v ∈ obj, v.Encodable) ∧ List.Forall₂ SOElement.Accepts template obj := by
  have hnodup' : (obj.map STVar.fName).Nodup := by rwa [hfields]
  have hknown' : ∀ v ∈ obj, v.fName ∈ F.knownFields := by
    intro v hv
    have hmem : v.fName ∈ template.map SOElement.sField := by
      rw [← hfields]
      exact List.mem_map_of_mem hv
    obtain ⟨e, he, hname⟩ := List.mem_map.mp hmem
    rw [← hname]
    exact hknown e he
  -- once the fields are encodable, all that can go wrong is the template
  have hread : (∀ v ∈ obj, v.Encodable) →
      (ReadsBack F obj ↔ applyTemplate template (getSortedFields obj) = some obj) := by
    intro henc
    have henc' : ∀ v ∈ getSortedFields obj, v.Encodable := fun v hv =>
      henc v (mem_getSortedFields.mp hv).1
    obtain ⟨bytes, hadd⟩ := Option.isSome_iff_exists.mp (addFields_isSome henc')
    rw [ReadsBack, STObject.add, hadd, Option.bind_some, read,
      set_addFields hknown' hnodup' henc' hadd, Option.bind_some,
      getFieldU16_getSortedFields hnodup' htype, Option.bind_some, hformat, Option.bind_some]
  have hrestore := applyTemplate_eq_some_iff hfields hnodup' (perm_getSortedFields obj)
  constructor
  · intro h
    have henc := encodable_of_readsBack h
    exact ⟨henc, hrestore.mp ((hread henc).mp h)⟩
  · rintro ⟨henc, haccepts⟩
    exact (hread henc).mpr (hrestore.mpr haccepts)

end STLedgerEntry

end FalconLedger
