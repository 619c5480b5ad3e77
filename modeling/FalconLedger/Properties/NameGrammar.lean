import FalconLedger.Close.BuildLedger

/-!
# The grammar of names

`normalizeName` accepts the names of three to thirty-two letters, digits and dots in which no dot
stands first, last or next to another. What it returns is the name in lower case, a name that it
leaves as it is.
-/

namespace FalconLedger.AccountNames

/-! ### Characters -/

def IsUpper (c : UInt8) : Prop := 65 ≤ c ∧ c ≤ 90

def IsLower (c : UInt8) : Prop := 97 ≤ c ∧ c ≤ 122

def IsDigit (c : UInt8) : Prop := 48 ≤ c ∧ c ≤ 57

/-- A letter or a digit. -/
def IsAlnum (c : UInt8) : Prop := IsLower c ∨ IsUpper c ∨ IsDigit c

instance : DecidablePred IsUpper := fun _ => inferInstanceAs (Decidable (_ ∧ _))

instance : DecidablePred IsLower := fun _ => inferInstanceAs (Decidable (_ ∧ _))

instance : DecidablePred IsDigit := fun _ => inferInstanceAs (Decidable (_ ∧ _))

instance : DecidablePred IsAlnum := fun _ => inferInstanceAs (Decidable (_ ∨ _))

/-- The two bytes are equal, or one letter in two cases. -/
def SameLetter (c c' : UInt8) : Prop :=
  c = c' ∨ (IsUpper c ∧ c' = c + 32) ∨ (IsUpper c' ∧ c = c' + 32)

theorem tolower_of_upper {c : UInt8} (h : IsUpper c) : tolower c = c + 32 := if_pos h

theorem tolower_of_not_upper {c : UInt8} (h : ¬IsUpper c) : tolower c = c := if_neg h

theorem toNat_of_upper {c : UInt8} (h : IsUpper c) : (c + 32).toNat = c.toNat + 32 := by
  simp only [IsUpper, UInt8.le_iff_toNat_le] at h
  rw [UInt8.toNat_add]
  simp at h ⊢
  omega

theorem isLower_add {c : UInt8} (h : IsUpper c) : IsLower (c + 32) := by
  have hnat := toNat_of_upper h
  simp only [IsUpper, UInt8.le_iff_toNat_le] at h
  simp only [IsLower, UInt8.le_iff_toNat_le]
  simp at h hnat ⊢
  omega

theorem not_isUpper {c : UInt8} (h : IsLower c) : ¬IsUpper c := by
  simp only [IsUpper, IsLower, UInt8.le_iff_toNat_le] at h ⊢
  simp at h ⊢
  omega

theorem not_isUpper_tolower (c : UInt8) : ¬IsUpper (tolower c) := by
  by_cases h : IsUpper c
  · rw [tolower_of_upper h]
    exact not_isUpper (isLower_add h)
  · rwa [tolower_of_not_upper h]

theorem tolower_tolower (c : UInt8) : tolower (tolower c) = tolower c :=
  tolower_of_not_upper (not_isUpper_tolower c)

theorem isAlnum_iff (c : UInt8) :
    IsAlnum c ↔ (97 ≤ tolower c ∧ tolower c ≤ 122) ∨ (48 ≤ tolower c ∧ tolower c ≤ 57) := by
  by_cases h : IsUpper c
  · rw [tolower_of_upper h]
    exact iff_of_true (.inr (.inl h)) (.inl (isLower_add h))
  · rw [tolower_of_not_upper h]
    exact or_congr_right (or_iff_right h)

theorem tolower_eq_dot {c : UInt8} : tolower c = 46 ↔ c = 46 := by
  by_cases h : IsUpper c
  · rw [tolower_of_upper h]
    have hlower := isLower_add h
    constructor
    · intro heq
      rw [heq] at hlower
      exact absurd hlower (by decide)
    · rintro rfl
      exact absurd h (by decide)
  · rw [tolower_of_not_upper h]

theorem not_isAlnum_dot : ¬IsAlnum 46 := by decide

theorem sameLetter_iff (c c' : UInt8) : SameLetter c c' ↔ tolower c = tolower c' := by
  by_cases h : IsUpper c <;> by_cases h' : IsUpper c'
  · rw [tolower_of_upper h, tolower_of_upper h', UInt8.add_left_inj]
    refine ⟨?_, .inl⟩
    rintro (rfl | ⟨-, rfl⟩ | ⟨-, rfl⟩)
    · rfl
    · exact absurd h' (not_isUpper (isLower_add h))
    · exact absurd h (not_isUpper (isLower_add h'))
  · rw [tolower_of_upper h, tolower_of_not_upper h']
    refine ⟨?_, fun heq => .inr (.inl ⟨h, heq.symm⟩)⟩
    rintro (rfl | ⟨-, rfl⟩ | ⟨hupper, -⟩)
    · exact absurd h h'
    · rfl
    · exact absurd hupper h'
  · rw [tolower_of_not_upper h, tolower_of_upper h']
    refine ⟨?_, fun heq => .inr (.inr ⟨h', heq⟩)⟩
    rintro (rfl | ⟨hupper, -⟩ | ⟨-, rfl⟩)
    · exact absurd h' h
    · exact absurd hupper h
    · rfl
  · rw [tolower_of_not_upper h, tolower_of_not_upper h']
    refine ⟨?_, .inl⟩
    rintro (rfl | ⟨hupper, -⟩ | ⟨hupper, -⟩)
    · rfl
    · exact absurd hupper h
    · exact absurd hupper h'

/-! ### Names -/

/-- Letters, digits and dots, no dot last and no two in a row. -/
structure Dotted (cs : Blob) : Prop where
  chars : ∀ c ∈ cs, IsAlnum c ∨ c = 46
  last : cs.getLast? ≠ some 46
  apart : cs.IsChain fun c c' => ¬(c = 46 ∧ c' = 46)

/-- The grammar of names. -/
structure IsName (raw : Blob) : Prop extends Dotted raw where
  three_le : 3 ≤ raw.length
  le_thirtyTwo : raw.length ≤ 32
  first : raw.head? ≠ some 46

theorem dotted_nil : Dotted [] := ⟨fun _ h => (by cases h), by simp, .nil⟩

theorem dotted_cons {c : UInt8} {cs : Blob} :
    Dotted (c :: cs) ↔ (IsAlnum c ∨ c = 46 ∧ cs ≠ [] ∧ cs.head? ≠ some 46) ∧ Dotted cs := by
  cases cs with
  | nil =>
    constructor
    · intro h
      refine ⟨(h.chars c List.mem_cons_self).imp_right fun hdot => ?_, dotted_nil⟩
      exact absurd (congrArg some hdot) h.last
    · rintro ⟨hc | ⟨-, hne, -⟩, -⟩
      · refine ⟨fun x hx => .inl (List.mem_singleton.mp hx ▸ hc), ?_, .singleton _⟩
        rintro heq
        rw [List.getLast?_singleton, Option.some.injEq] at heq
        exact not_isAlnum_dot (heq ▸ hc)
      · exact absurd rfl hne
  | cons d cs =>
    have hlast : (c :: d :: cs).getLast? = (d :: cs).getLast? := List.getLast?_cons_cons
    constructor
    · intro h
      obtain ⟨hnext, hchain⟩ := List.isChain_cons_cons.mp h.apart
      refine ⟨(h.chars c List.mem_cons_self).imp_right fun hdot => ⟨hdot, List.cons_ne_nil d cs, ?_⟩,
        fun x hx => h.chars x (List.mem_cons_of_mem c hx), hlast ▸ h.last, hchain⟩
      intro hd
      exact hnext ⟨hdot, Option.some.inj hd⟩
    · rintro ⟨hc, h⟩
      refine ⟨fun x hx => ?_, hlast ▸ h.last, List.isChain_cons_cons.mpr ⟨?_, h.apart⟩⟩
      · rcases List.mem_cons.mp hx with rfl | hx
        · exact hc.imp_right And.left
        · exact h.chars x hx
      · rintro ⟨rfl, rfl⟩
        rcases hc with hc | ⟨-, -, hd⟩
        · exact not_isAlnum_dot hc
        · exact hd rfl

theorem normalizeFrom_eq_some {size i : ℕ} {prevDot : Bool} {cs out : Blob}
    (hsize : size = i + cs.length) :
    normalizeFrom size i prevDot cs = some out ↔
      out = cs.map tolower ∧ Dotted cs ∧ (cs.head? = some 46 → i ≠ 0 ∧ prevDot = false) := by
  induction cs generalizing i prevDot out with
  | nil =>
    rw [normalizeFrom]
    simp [dotted_nil, eq_comm]
  | cons c cs ih =>
    have hsize' : size = i + 1 + cs.length := by
      rw [hsize, List.length_cons]
      omega
    rw [normalizeFrom, List.map_cons, dotted_cons, List.head?_cons]
    by_cases hc : IsAlnum c
    · have hdot : c ≠ 46 := fun h => not_isAlnum_dot (h ▸ hc)
      rw [if_pos ((isAlnum_iff c).mp hc), Option.map_eq_some_iff]
      constructor
      · rintro ⟨rest, hrest, rfl⟩
        obtain ⟨rfl, hrest, -⟩ := (ih hsize').mp hrest
        exact ⟨rfl, ⟨.inl hc, hrest⟩, fun h => absurd (Option.some.inj h) hdot⟩
      · rintro ⟨rfl, ⟨-, hrest⟩, -⟩
        exact ⟨_, (ih hsize').mpr ⟨rfl, hrest, fun _ => ⟨Nat.succ_ne_zero i, rfl⟩⟩, rfl⟩
    · rw [if_neg (mt (isAlnum_iff c).mpr hc)]
      by_cases hdot : tolower c = 46
      · obtain rfl := tolower_eq_dot.mp hdot
        have hend : i + 1 = size ↔ cs = [] := by
          rw [hsize', ← List.length_eq_zero_iff]
          omega
        rw [if_pos hdot]
        -- a dot needs a character that is no dot on both sides
        constructor
        · intro h
          split_ifs at h with hbad
          rw [not_or, not_or] at hbad
          obtain ⟨hi, hne, hprev⟩ := hbad
          obtain ⟨rest, hrest, rfl⟩ := Option.map_eq_some_iff.mp h
          obtain ⟨rfl, hrest, hhead⟩ := (ih hsize').mp hrest
          refine ⟨by rw [hdot], ⟨.inr ⟨rfl, mt hend.mpr hne, fun h => ?_⟩, hrest⟩,
            fun _ => ⟨hi, Bool.not_eq_true _ ▸ hprev⟩⟩
          cases (hhead h).2
        · rintro ⟨rfl, ⟨hc' | ⟨-, hne, hhead⟩, hrest⟩, hfirst⟩
          · exact absurd hc' hc
          · obtain ⟨hi, rfl⟩ := hfirst rfl
            rw [if_neg (by simp [hi, hend, hne]), hdot,
              (ih hsize').mpr ⟨rfl, hrest, fun h => absurd h hhead⟩]
            rfl
      · rw [if_neg hdot]
        refine iff_of_false (by simp) ?_
        rintro ⟨-, ⟨hc' | ⟨rfl, -, -⟩, -⟩, -⟩
        · exact hc hc'
        · exact hdot rfl

theorem normalizeName_eq_some {raw name : Blob} :
    normalizeName raw = some name ↔ name = raw.map tolower ∧ IsName raw := by
  rw [normalizeName]
  by_cases hlength : 3 ≤ raw.length ∧ raw.length ≤ 32
  · have hne : raw ≠ [] := by
      rintro rfl
      exact absurd hlength.1 (by simp)
    have hin : ¬(raw = [] ∨ raw.length < kNameMinLen ∨ kNameMaxLen < raw.length) := by
      rw [kNameMinLen, kNameMaxLen, or_iff_right hne]
      omega
    rw [if_neg hin, Option.filter_eq_some_iff, normalizeFrom_eq_some (Nat.zero_add _).symm]
    constructor
    · rintro ⟨⟨rfl, hdotted, hhead⟩, -⟩
      exact ⟨rfl, hdotted, hlength.1, hlength.2, fun h => (hhead h).1 rfl⟩
    · rintro ⟨rfl, h⟩
      refine ⟨⟨rfl, h.toDotted, fun hdot => absurd hdot h.first⟩, ?_⟩
      simpa [kNameMinLen, kNameMaxLen] using hlength
  · rw [if_pos]
    · refine iff_of_false (by simp) ?_
      rintro ⟨-, h⟩
      exact hlength ⟨h.three_le, h.le_thirtyTwo⟩
    · simp only [kNameMinLen, kNameMaxLen]
      omega

/-- One string in two spellings. -/
def SameUpToCase (raw raw' : Blob) : Prop := List.Forall₂ SameLetter raw raw'

theorem sameUpToCase_iff {raw raw' : Blob} :
    SameUpToCase raw raw' ↔ raw.map tolower = raw'.map tolower := by
  have hletter : SameLetter = fun c c' => tolower c = tolower c' := by
    funext c c'
    exact propext (sameLetter_iff c c')
  rw [SameUpToCase, hletter, ← List.forall₂_eq_eq_eq, List.forall₂_map_left_iff,
    List.forall₂_map_right_iff]

theorem IsName.lowercase {raw : Blob} (h : IsName raw) :
    normalizeName (raw.map tolower) = some (raw.map tolower) := by
  have hmap : (raw.map tolower).map tolower = raw.map tolower := by
    rw [List.map_map]
    exact List.map_congr_left fun c _ => tolower_tolower c
  have hdot : ∀ o : Option UInt8, o.map tolower = some 46 ↔ o = some 46 := fun o => by
    rw [Option.map_eq_some_iff]
    constructor
    · rintro ⟨c, rfl, hc⟩
      rw [tolower_eq_dot.mp hc]
    · rintro rfl
      exact ⟨46, rfl, rfl⟩
  refine normalizeName_eq_some.mpr ⟨hmap.symm, ⟨fun c hc => ?_, ?_, ?_⟩, ?_, ?_, ?_⟩
  · obtain ⟨d, hd, rfl⟩ := List.mem_map.mp hc
    rw [isAlnum_iff, tolower_tolower, ← isAlnum_iff, tolower_eq_dot]
    exact h.chars d hd
  · rw [List.getLast?_map, Ne, hdot]
    exact h.last
  · rw [List.isChain_map]
    simpa only [tolower_eq_dot] using h.apart
  · rw [List.length_map]
    exact h.three_le
  · rw [List.length_map]
    exact h.le_thirtyTwo
  · rw [List.head?_map, Ne, hdot]
    exact h.first

/-- **The grammar of names.** A name is accepted if and only if it is one by the grammar, and comes
back in lower case, which is left as it is. The keys of two names whose hashes do not collide are equal
if and only if the names are, up to case. -/
theorem name_grammar (raw : Blob) :
    ((normalizeName raw).isSome = true ↔ IsName raw) ∧
      (∀ name, normalizeName raw = some name →
        name = raw.map tolower ∧ normalizeName name = some name) ∧
      ∀ (H : Hashes) (raw' name name' : Blob), normalizeName raw = some name →
        normalizeName raw' = some name' →
        (H.accountNameKey name = H.accountNameKey name' → name = name') →
        (H.accountNameKey name = H.accountNameKey name' ↔ SameUpToCase raw raw') := by
  refine ⟨?_, fun name h => ?_, fun H raw' name name' h h' hapart => ?_⟩
  · rw [Option.isSome_iff_exists]
    constructor
    · rintro ⟨name, h⟩
      exact (normalizeName_eq_some.mp h).2
    · exact fun h => ⟨_, normalizeName_eq_some.mpr ⟨rfl, h⟩⟩
  · obtain ⟨rfl, hname⟩ := normalizeName_eq_some.mp h
    exact ⟨rfl, hname.lowercase⟩
  · obtain ⟨rfl, -⟩ := normalizeName_eq_some.mp h
    obtain ⟨rfl, -⟩ := normalizeName_eq_some.mp h'
    rw [sameUpToCase_iff]
    exact ⟨hapart, congrArg _⟩

/-- `Bob.1` and `BOB.1` are `bob.1`. -/
theorem name_grammar_bob :
    normalizeName [66, 111, 98, 46, 49] = some [98, 111, 98, 46, 49] ∧
      SameUpToCase [66, 111, 98, 46, 49] [66, 79, 66, 46, 49] := by
  have h := (name_grammar [66, 111, 98, 46, 49]).2.2 Sample.services.toHashes [66, 79, 66, 46, 49]
    [98, 111, 98, 46, 49] [98, 111, 98, 46, 49] (by decide) (by decide) fun _ => rfl
  exact ⟨by decide, h.mp rfl⟩

end FalconLedger.AccountNames
