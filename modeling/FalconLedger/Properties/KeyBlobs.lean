import FalconLedger.Consensus.NegativeUNL
import FalconLedger.Protocol.PQPublicKey
import FalconLedger.Tx.Validators
import FalconLedger.Validators.ValidatorList

/-!
# Key blobs

The functions that recognise a Falcon key look at the first byte, the constructor of one also at the
length.
-/

namespace FalconLedger

/-- The kinds that have a Falcon key. -/
def KeyType.isFalcon (t : KeyType) : Bool := t = .falcon512 || t = .falcon1024

/-- The bytes make a Falcon key. -/
def PQPublicKey.Accepts (s : Blob) : Prop := ∃ k, PQPublicKey.ofSlice s = .ok k

/-- Some signature may verify: the key does not fail by itself. -/
def CanVerify (key : Blob) : Prop := ∃ V m sig, verify V key m sig = true

/-- A blob that begins like a Falcon key is as long as one. -/
def WellSized (s : Blob) : Prop :=
  (s.head? = some kFalcon512Prefix → s.length = kFalcon512PubkeyBytes + 1) ∧
    (s.head? = some kFalcon1024Prefix → s.length = kFalcon1024PubkeyBytes + 1)

/-- What the classifiers say of a blob is what the constructor says, and what is accepted for a key can
be used as one. -/
structure KeyBlobFaithful (s : Blob) : Prop where
  publicKeyType : (publicKeyType s).any KeyType.isFalcon = true ↔ PQPublicKey.Accepts s
  signingPubKeyType : (signingPubKeyType s).any KeyType.isFalcon = true ↔ PQPublicKey.Accepts s
  isValidNodeKey : isValidNodeKey s = true ↔ PQPublicKey.Accepts s
  isPQ : ∀ k : PublicKey, k.slice = s → (k.isPQ = true ↔ PQPublicKey.Accepts s)
  registered : ∀ rules publicKey, ValidatorRegister.preflight rules publicKey s = .ok () → CanVerify s
  modified : ∀ seq sle tx entry, NegativeUNL.applyUNLModify seq sle tx = .ok entry →
    tx.validator = some s → CanVerify s
  listed : ∀ (P : ListCodec) validators, ∀ k ∈ ValidatorList.keysOf P validators,
    k.slice = s → CanVerify s
  parsed : ∀ strUnHex token, ∀ k ∈ parseValidatorPublicKey strUnHex token, k.slice = s → CanVerify s

variable {s : Blob}

/-! ### The first byte -/

/-- The first byte is that of a Falcon key. -/
def FalconPrefixed (s : Blob) : Prop :=
  s.head? = some kFalcon512Prefix ∨ s.head? = some kFalcon1024Prefix

theorem pqPublicKeyType_isSome : (pqPublicKeyType s).isSome = true ↔ FalconPrefixed s := by
  rw [pqPublicKeyType, FalconPrefixed]
  split_ifs <;> simp [*]

theorem pqPublicKeyType_isFalcon :
    (pqPublicKeyType s).any KeyType.isFalcon = true ↔ FalconPrefixed s := by
  rw [pqPublicKeyType, FalconPrefixed]
  split_ifs <;> simp [*, KeyType.isFalcon]

theorem publicKeyType_isFalcon :
    (publicKeyType s).any KeyType.isFalcon = true ↔ FalconPrefixed s := by
  rw [publicKeyType]
  split_ifs with hed hsecp
  · have hnot : ¬FalconPrefixed s := by
      rw [FalconPrefixed, hed.2]
      decide
    simp [KeyType.isFalcon, hnot]
  · have hnot : ¬FalconPrefixed s := by
      rcases hsecp.2 with h | h <;> rw [FalconPrefixed, h] <;> decide
    simp [KeyType.isFalcon, hnot]
  · exact pqPublicKeyType_isFalcon

theorem signingPubKeyType_eq (s : Blob) : signingPubKeyType s = publicKeyType s := by
  rw [signingPubKeyType]
  cases h : publicKeyType s with
  | some t => rfl
  | none =>
    rw [publicKeyType] at h
    split_ifs at h
    exact h

theorem isValidNodeKey_iff : isValidNodeKey s = true ↔ FalconPrefixed s := by
  simp [isValidNodeKey, FalconPrefixed, kFalcon512Prefix, kFalcon1024Prefix]

/-! ### The length -/

/-- **What the constructor accepts.** -/
theorem accepts_iff : PQPublicKey.Accepts s ↔ FalconPrefixed s ∧ WellSized s := by
  have hne : kFalcon512Prefix ≠ kFalcon1024Prefix := by decide
  rw [PQPublicKey.Accepts, PQPublicKey.ofSlice, FalconPrefixed, WellSized]
  split_ifs with hnil h512 hlength h1024 hlength
  · simp [hnil]
  · simp [h512, hlength]
  · simp [h512, not_not.mp hlength, hne]
  · simp [h1024, hlength]
  · simp [h1024, not_not.mp hlength, hne.symm]
  · simp [h512, h1024]

theorem Accepts.length_gt (h : PQPublicKey.Accepts s) : 33 < s.length := by
  obtain ⟨h512 | h1024, hsized⟩ := accepts_iff.mp h
  · rw [hsized.1 h512]
    decide
  · rw [hsized.2 h1024]
    decide

theorem verify_of_not_accepts {V : Verifiers} {m sig : Blob} (hfalcon : FalconPrefixed s)
    (h : ¬PQPublicKey.Accepts s) : verify V s m sig = false := by
  rw [verify, if_pos (pqPublicKeyType_isSome.mpr hfalcon), verifyFalcon]
  cases hkey : PQPublicKey.ofSlice s with
  | ok k => exact absurd ⟨k, hkey⟩ h
  | error message => rfl

theorem canVerify_of_type (htype : (publicKeyType s).isSome = true) (hsized : WellSized s) :
    CanVerify s := by
  refine ⟨⟨fun _ _ _ => true, fun _ _ _ => true, fun _ _ _ => true⟩, [], [], ?_⟩
  rw [verify]
  split_ifs with hpq
  · obtain ⟨k, hk⟩ := accepts_iff.mpr ⟨pqPublicKeyType_isSome.mp hpq, hsized⟩
    rw [verifyFalcon, hk]
  · obtain ⟨t, ht⟩ := Option.isSome_iff_exists.mp htype
    have hfalcon : ¬t.isFalcon = true := fun hf =>
      hpq (pqPublicKeyType_isSome.mpr (publicKeyType_isFalcon.mp (by rw [ht]; exact hf)))
    rw [PublicKey.ofSlice?, dif_pos htype]
    dsimp only
    rw [PublicKey.verify, ht]
    cases t with
    | secp256k1 | ed25519 => rfl
    | falcon512 | falcon1024 => exact absurd rfl hfalcon

theorem FalconPrefixed.type (h : FalconPrefixed s) : (publicKeyType s).isSome = true := by
  have hany := publicKeyType_isFalcon.mpr h
  cases hs : publicKeyType s with
  | some t => rfl
  | none =>
    rw [hs] at hany
    cases hany

theorem PublicKey.length_of_not_falcon (k : PublicKey) (h : ¬FalconPrefixed k.slice) :
    k.slice.length = 33 := by
  have htype := k.isSome_type
  rw [publicKeyType] at htype
  split_ifs at htype with hed hsecp
  · exact hed.1
  · exact hsecp.1
  · exact absurd (pqPublicKeyType_isSome.mp htype) h

/-! ### Faithful blobs -/

/-- **Accepted key blobs.** What the classifiers and the acceptance checks say of a blob is right
exactly if it does not begin like a Falcon key of another length. -/
theorem key_blob_faithful_iff (s : Blob) : KeyBlobFaithful s ↔ WellSized s := by
  constructor
  · intro h
    by_cases hfalcon : FalconPrefixed s
    · exact (accepts_iff.mp (h.isValidNodeKey.mp (isValidNodeKey_iff.mpr hfalcon))).2
    · exact ⟨fun h512 => absurd (.inl h512) hfalcon, fun h1024 => absurd (.inr h1024) hfalcon⟩
  · intro hsized
    have haccepts : FalconPrefixed s ↔ PQPublicKey.Accepts s :=
      ⟨fun hfalcon => accepts_iff.mpr ⟨hfalcon, hsized⟩, fun h => (accepts_iff.mp h).1⟩
    refine ⟨publicKeyType_isFalcon.trans haccepts, ?_, isValidNodeKey_iff.trans haccepts, ?_, ?_, ?_, ?_,
      ?_⟩
    · rw [signingPubKeyType_eq]
      exact publicKeyType_isFalcon.trans haccepts
    · rintro k rfl
      rw [PublicKey.isPQ, decide_eq_true_iff]
      refine ⟨fun hlong => ?_, Accepts.length_gt⟩
      by_contra hnot
      have hlength := k.length_of_not_falcon fun hfalcon => hnot (haccepts.mp hfalcon)
      omega
    · intro rules publicKey hok
      simp only [ValidatorRegister.preflight, Except.bind_eq_ok, failIf_eq_ok, Bool.not_eq_true',
        Bool.not_eq_false] at hok
      obtain ⟨_, -, _, -, _, hkey, -⟩ := hok
      exact canVerify_of_type (isValidNodeKey_iff.mp hkey).type hsized
    · intro seq sle tx entry hok hvalidator
      simp only [NegativeUNL.applyUNLModify, Except.bind_eq_ok, failIf_eq_ok, orFail_eq_ok] at hok
      obtain ⟨_, -, disabling, -, _, -, sequence, -, validator, hv, _, -, _, htype, -⟩ := hok
      obtain rfl := Option.some.inj (hv.symm.trans hvalidator)
      exact canVerify_of_type (Option.isSome_iff_ne_none.mpr (by simpa using htype)) hsized
    · rintro P validators k - rfl
      exact canVerify_of_type k.isSome_type hsized
    · rintro strUnHex token k - rfl
      exact canVerify_of_type k.isSome_type hsized

/-- A key of two bytes is registered as a Falcon key, and no signature of it verifies. -/
theorem short_key_registered :
    ValidatorRegister.preflight ⟨true, true, true, true⟩ [0xFB, 1] [0xFB, 1] = .ok () ∧
      ¬CanVerify [0xFB, 1] ∧ ¬KeyBlobFaithful [0xFB, 1] := by
  have hunsized : ¬WellSized [0xFB, 1] := fun h => absurd (h.1 rfl) (by decide)
  refine ⟨rfl, ?_, fun h => hunsized ((key_blob_faithful_iff _).mp h)⟩
  rintro ⟨V, m, sig, hverify⟩
  rw [verify_of_not_accepts (.inl rfl) fun h => hunsized (accepts_iff.mp h).2] at hverify
  cases hverify

end FalconLedger
